import LkpProjects.Library.ChildLists
import LkpProjects.ProcFs.Status

/-! # The directories of the mounted file system

`lfs_create_files` makes a directory with two files for `init_task` and then goes through its siblings,
which are the children of its parent and so, `init_task` being its own parent, its own children. Below
them `sub_create_subfiles` follows the lists of children. The tree of directories is the tree of tasks.
-/
namespace LkpProjects.ProcFs
open Bytes Format ChildLists
set_option autoImplicit false

/-! ## Dentries -/

/-- The operations of a status file and of a signal file. -/
inductive FileOps where
  | lfsFileOps
  | lfsFileOps2

inductive Inode where
  | dir
  | file (fop : FileOps) (iPrivate : Int32)

/-- A dentry with its number, the number of its directory and its inode. -/
structure Dentry where
  num : ℕ
  name : CStr
  parent : ℕ
  inode : Inode

/-- The dentries made so far and the number of allocations tried. -/
structure Mount where
  dentries : List Dentry
  allocs : ℕ

/-- What the mount reads of a `task_struct`. -/
structure TaskLinks (T : Type) where
  pid : Int32
  parent : T
  children : List T

/-- `BUG()` was reached, or the recursion was deeper than it was allowed. -/
inductive Halt where
  | bug
  | outOfFuel

variable {T : Type}

/-- `d_alloc`, the inode and `d_add`; without an inode the dentry is dropped again. -/
def lfsCreate (alloc : ℕ → Bool) (parent : ℕ) (name : CStr) (inode : Inode) (s : Mount) :
    Option ℕ × Mount :=
  if alloc s.allocs = false then (none, ⟨s.dentries, s.allocs + 1⟩)
  else if alloc (s.allocs + 1) = false then (none, ⟨s.dentries, s.allocs + 2⟩)
  else (some s.dentries.length,
    ⟨s.dentries ++ [⟨s.dentries.length, name, parent, inode⟩], s.allocs + 2⟩)

def lfsCreateFile (alloc : ℕ → Bool) (dir : ℕ) (name : CStr) (pid : Int32) (isSignal : Bool)
    (s : Mount) : Option ℕ × Mount :=
  lfsCreate alloc dir name (.file (if isSignal then .lfsFileOps2 else .lfsFileOps) pid) s

def lfsCreateDir (alloc : ℕ → Bool) (parent : ℕ) (name : CStr) (s : Mount) : Option ℕ × Mount :=
  lfsCreate alloc parent name .dir s

/-- `sprintf(buf, "%d", pid)`. -/
def pidName (pid : Int32) : CStr := (fmtD pid).render

/-- `strcat(buf, ".status")`. -/
def statusName (pid : Int32) : CStr := concat [pidName pid, literal ".status"]

def subCreateFfReal (alloc : ℕ → Bool) (links : T → TaskLinks T) (t : T) (dir : ℕ) (s : Mount) :
    Except Halt (ℕ × Mount) :=
  let pid := (links t).pid
  if alloc s.allocs = false then .error .bug
  else
    match lfsCreateDir alloc dir (pidName pid) ⟨s.dentries, s.allocs + 1⟩ with
    | (none, _) => .error .bug
    | (some subdir, s) =>
      -- a file that cannot be made is only reported
      let s := (lfsCreateFile alloc subdir (literal "signal") pid true s).2
      let s := (lfsCreateFile alloc subdir (statusName pid) pid false s).2
      .ok (subdir, s)

def subCreateSubfiles (alloc : ℕ → Bool) (links : T → TaskLinks T) :
    ℕ → T → ℕ → Mount → Except Halt Mount
  | 0, _, _, _ => .error .outOfFuel
  | rounds + 1, t, dir, s =>
    match subCreateFfReal alloc links t dir s with
    | .error e => .error e
    | .ok (subdir, s) =>
      (links t).children.foldlM (fun s c => subCreateSubfiles alloc links rounds c subdir s) s

/-- `for_each_sibling`: the children of the parent. -/
def siblings (links : T → TaskLinks T) (t : T) : List T := (links (links t).parent).children

def lfsCreateFiles (alloc : ℕ → Bool) (links : T → TaskLinks T) (initTask : T) (rounds root : ℕ)
    (s : Mount) : Except Halt Mount :=
  match subCreateFfReal alloc links initTask root s with
  | .error e => .error e
  | .ok (subdir, s) =>
    (siblings links initTask).foldlM (fun s t => subCreateSubfiles alloc links rounds t subdir s) s

/-- The root of a new mount. -/
def rootDentry : Dentry := ⟨0, literal "/", 0, .dir⟩

/-! ## The mirror -/

/-- The directory of a task and the two files in it. -/
def taskDentries (links : T → TaskLinks T) (dirOf upDir : T → ℕ) (t : T) : List Dentry :=
  [⟨dirOf t, pidName (links t).pid, upDir t, .dir⟩,
   ⟨dirOf t + 1, literal "signal", dirOf t, .file .lfsFileOps2 (links t).pid⟩,
   ⟨dirOf t + 2, statusName (links t).pid, dirOf t, .file .lfsFileOps (links t).pid⟩]

/-- Besides the root there are the dentries of each task, once. Different tasks have different directories,
each in the directory of the task's parent. -/
structure Mirror (links : T → TaskLinks T) (initTask : T) (tasks : Finset T) (dentries : List Dentry)
    (dirOf upDir : T → ℕ) : Prop where
  injective : ∀ t ∈ tasks, ∀ u ∈ tasks, dirOf t = dirOf u → t = u
  below_root : ∀ t ∈ tasks, dirOf t ≠ rootDentry.num
  init_up : upDir initTask = rootDentry.num
  child_up : ∀ p ∈ tasks, ∀ c ∈ (links p).children, upDir c = dirOf p
  perm : dentries.Perm (rootDentry :: tasks.toList.flatMap (taskDentries links dirOf upDir))

def Inode.isDir : Inode → Bool
  | dir => true
  | file _ _ => false

/-- In the directory of a task there are its signal file and its status file and no others, both for its
pid. -/
theorem Mirror.files {links : T → TaskLinks T} {initTask : T} {tasks : Finset T}
    {dentries : List Dentry} {dirOf upDir : T → ℕ}
    (hM : Mirror links initTask tasks dentries dirOf upDir) {t : T} (ht : t ∈ tasks) :
    (dentries.filter fun d => !d.inode.isDir && d.parent == dirOf t).Perm
      [⟨dirOf t + 1, literal "signal", dirOf t, .file .lfsFileOps2 (links t).pid⟩,
       ⟨dirOf t + 2, statusName (links t).pid, dirOf t, .file .lfsFileOps (links t).pid⟩] := by
  classical
  have hlist : tasks.toList.Perm (t :: (tasks.erase t).toList) := by
    rw [List.perm_ext_iff_of_nodup tasks.nodup_toList
      (List.nodup_cons.mpr ⟨by simp, (tasks.erase t).nodup_toList⟩)]
    intro u
    by_cases hu : u = t
    · simp [hu, ht]
    · simp [hu]
  have hothers : ((tasks.erase t).toList.flatMap (taskDentries links dirOf upDir)).filter
      (fun d => !d.inode.isDir && d.parent == dirOf t) = [] := by
    rw [List.filter_eq_nil_iff]
    intro d hd
    obtain ⟨u, hu, hd⟩ := List.mem_flatMap.mp hd
    obtain ⟨hne, hu⟩ := Finset.mem_erase.mp (Finset.mem_toList.mp hu)
    have hdir : dirOf u ≠ dirOf t := fun h => hne (hM.injective u hu t ht h)
    simp only [taskDentries, List.mem_cons, List.not_mem_nil, or_false] at hd
    rcases hd with rfl | rfl | rfl
    · simp [Inode.isDir]
    · simp [hdir]
    · simp [hdir]
  refine (hM.perm.trans ((hlist.flatMap_right _).cons _)).filter _ |>.trans (.of_eq ?_)
  rw [List.filter_cons_of_neg (by simp [rootDentry, Inode.isDir]), List.flatMap_cons, List.filter_append,
    hothers]
  simp [taskDentries, Inode.isDir]

/-! ## One task -/

section Walk
variable {alloc : ℕ → Bool} {links : T → TaskLinks T} {initTask : T} {tasks : Finset T}
  {dirOf upDir : T → ℕ}

theorem lfsCreate_ok (ha : ∀ n, alloc n = true) (parent : ℕ) (name : CStr) (inode : Inode) (s : Mount) :
    lfsCreate alloc parent name inode s = (some s.dentries.length,
      ⟨s.dentries ++ [⟨s.dentries.length, name, parent, inode⟩], s.allocs + 2⟩) := by
  rw [lfsCreate, ha, ha]
  rfl

theorem subCreateFfReal_ok (ha : ∀ n, alloc n = true) {t : T} {s : Mount}
    (hnum : dirOf t = s.dentries.length) :
    subCreateFfReal alloc links t (upDir t) s =
      .ok (dirOf t, ⟨s.dentries ++ taskDentries links dirOf upDir t, s.allocs + 7⟩) := by
  simp only [subCreateFfReal, ha, Bool.true_eq_false, if_false, lfsCreateDir, lfsCreateFile,
    lfsCreate_ok ha, taskDentries, hnum]
  simp

/-! ## The walk -/

/-- The tasks of a walk have numbers three apart, from `k` on. -/
def Numbered (dirOf : T → ℕ) : ℕ → List T → Prop
  | _, [] => True
  | k, t :: ts => dirOf t = k ∧ Numbered dirOf (k + 3) ts

theorem numbered_append : ∀ {k : ℕ} {ts us : List T}, Numbered dirOf k (ts ++ us) ↔
    Numbered dirOf k ts ∧ Numbered dirOf (k + 3 * ts.length) us
  | k, [], us => by simp [Numbered]
  | k, t :: ts, us => by
    have hlen : k + 3 * (t :: ts).length = k + 3 + 3 * ts.length := by
      rw [List.length_cons]
      omega
    rw [List.cons_append, Numbered, Numbered, numbered_append, hlen, and_assoc]

theorem taskDentries_length (t : T) : (taskDentries links dirOf upDir t).length = 3 := rfl

theorem flatMap_taskDentries_length (ts : List T) :
    (ts.flatMap (taskDentries links dirOf upDir)).length = 3 * ts.length := by
  simp [List.length_flatMap, taskDentries_length, Nat.mul_comm]

/-- With enough rounds a walk below `t` makes the dentries of the tasks it comes to, in preorder. -/
theorem subCreateSubfiles_ok (ha : ∀ n, alloc n = true)
    (hT : IsTree (fun t => (links t).children) initTask tasks)
    (hup : ∀ p ∈ tasks, ∀ c ∈ (links p).children, upDir c = dirOf p) :
    ∀ {n : ℕ} {t : T} {s : Mount}, t ∈ tasks → Bounded (fun t => (links t).children) n t →
      Numbered dirOf s.dentries.length (preorder (fun t => (links t).children) n t) →
        ∃ s', subCreateSubfiles alloc links n t (upDir t) s = .ok s' ∧ s'.dentries = s.dentries ++
          (preorder (fun t => (links t).children) n t).flatMap (taskDentries links dirOf upDir)
  | 0, _, _, _, hb, _ => hb.elim
  | n + 1, t, s, ht, hb, hnum => by
    obtain ⟨htnum, hnum⟩ := hnum
    rw [subCreateSubfiles, subCreateFfReal_ok ha htnum]
    -- the children that are left make their dentries behind those made so far
    have hrest : ∀ (cs : List T) (s : Mount), (∀ c ∈ cs, c ∈ (links t).children) →
        Numbered dirOf s.dentries.length (cs.flatMap (preorder (fun t => (links t).children) n)) →
          ∃ s', cs.foldlM (fun s c => subCreateSubfiles alloc links n c (dirOf t) s) s = .ok s' ∧
            s'.dentries = s.dentries ++ (cs.flatMap (preorder (fun t => (links t).children) n)).flatMap
              (taskDentries links dirOf upDir) := by
      intro cs
      induction cs with
      | nil => exact fun s _ _ => ⟨s, rfl, by simp⟩
      | cons c cs ih =>
        intro s hcs hnum
        obtain ⟨hc, hcs⟩ := List.forall_mem_cons.mp hcs
        rw [List.flatMap_cons, numbered_append] at hnum
        obtain ⟨s₁, he₁, hs₁⟩ := subCreateSubfiles_ok ha hT hup (hT.closed t ht c hc) (hb c hc) hnum.1
        rw [hup t ht c hc] at he₁
        have hlen : s₁.dentries.length = s.dentries.length +
            3 * (preorder (fun t => (links t).children) n c).length := by
          rw [hs₁, List.length_append, flatMap_taskDentries_length]
        obtain ⟨s₂, he₂, hs₂⟩ := ih s₁ hcs (hlen ▸ hnum.2)
        refine ⟨s₂, ?_, ?_⟩
        · rw [List.foldlM_cons, he₁]
          exact he₂
        · rw [hs₂, hs₁, List.flatMap_cons, List.flatMap_append, List.append_assoc]
    have hlen : (s.dentries ++ taskDentries links dirOf upDir t).length = s.dentries.length + 3 := by
      rw [List.length_append, taskDentries_length]
    obtain ⟨s', he, hs'⟩ := hrest (links t).children
      ⟨s.dentries ++ taskDentries links dirOf upDir t, s.allocs + 7⟩ (fun c hc => hc) (hlen ▸ hnum)
    refine ⟨s', he, ?_⟩
    rw [hs', preorder, List.flatMap_cons, List.append_assoc]

/-- The siblings of `init_task`, its own parent, are its children. -/
theorem lfsCreateFiles_eq (hself : (links initTask).parent = initTask) (rounds root : ℕ) (s : Mount) :
    lfsCreateFiles alloc links initTask rounds root s =
      subCreateSubfiles alloc links (rounds + 1) initTask root s := by
  unfold lfsCreateFiles siblings
  rw [hself, subCreateSubfiles]

/-! ## The numbers -/

/-- Numbers by the position in a list without repetitions. -/
theorem numbered_idxOf [DecidableEq T] {order : List T} (hn : order.Nodup) :
    Numbered (fun t => 3 * order.idxOf t + 1) 1 order := by
  have hsplit : ∀ us ts : List T, order = us ++ ts →
      Numbered (fun t => 3 * order.idxOf t + 1) (3 * us.length + 1) ts := by
    intro us ts
    induction ts generalizing us with
    | nil => exact fun _ => trivial
    | cons t ts ih =>
      intro heq
      have ht : t ∉ us := fun h => (List.nodup_append.mp (heq ▸ hn)).2.2 t h t List.mem_cons_self rfl
      refine ⟨?_, ?_⟩
      · show 3 * order.idxOf t + 1 = _
        rw [heq, List.idxOf_append_of_notMem ht, List.idxOf_cons_self]
        rfl
      · have h := ih (us ++ [t]) (by rw [heq, List.append_assoc]; rfl)
        rwa [List.length_append, List.length_singleton, Nat.mul_succ, Nat.add_right_comm] at h
  exact hsplit [] order rfl

/-- Every task has one directory above its own. -/
theorem exists_upDir (hT : IsTree (fun t => (links t).children) initTask tasks) (dirOf : T → ℕ)
    (root : ℕ) : ∃ upDir : T → ℕ, upDir initTask = root ∧
      ∀ p ∈ tasks, ∀ c ∈ (links p).children, upDir c = dirOf p := by
  classical
  refine ⟨fun c => if c = initTask then root
    else if h : ∃ p ∈ tasks, c ∈ (links p).children then dirOf h.choose else 0, if_pos rfl, ?_⟩
  intro p hp c hc
  have hne : c ≠ initTask := by
    rintro rfl
    exact hT.top p hp hc
  have hex : ∃ p ∈ tasks, c ∈ (links p).children := ⟨p, hp, hc⟩
  obtain ⟨hq, hcq⟩ := hex.choose_spec
  simp only [if_neg hne, dif_pos hex]
  rw [hT.unique _ hq p hp c hcq hc]

end Walk

/-- For every tree of tasks below `init_task`, its own parent, the mount makes the mirror of the tree. -/
theorem mount_mirrors_tree {alloc : ℕ → Bool} (ha : ∀ n, alloc n = true) {links : T → TaskLinks T}
    {initTask : T} {tasks : Finset T} (hT : IsTree (fun t => (links t).children) initTask tasks)
    (hself : (links initTask).parent = initTask) :
    ∃ rounds s dirOf upDir,
      lfsCreateFiles alloc links initTask rounds rootDentry.num ⟨[rootDentry], 0⟩ = .ok s ∧
        Mirror links initTask tasks s.dentries dirOf upDir := by
  classical
  obtain ⟨n, hb, hn, hmem⟩ := hT.exists_rounds
  generalize horder : preorder (fun t => (links t).children) n initTask = order at hn hmem
  obtain ⟨upDir, hinit, hup⟩ := exists_upDir hT (fun t => 3 * order.idxOf t + 1) rootDentry.num
  cases n with
  | zero => exact hb.elim
  | succ rounds =>
    have hnum : Numbered (fun t => 3 * order.idxOf t + 1) 1
        (preorder (fun t => (links t).children) (rounds + 1) initTask) := by
      rw [horder]
      exact numbered_idxOf hn
    obtain ⟨s, he, hs⟩ := subCreateSubfiles_ok (s := ⟨[rootDentry], 0⟩) ha hT hup hT.root_mem hb hnum
    refine ⟨rounds, s, _, upDir, ?_, ?_, ?_, hinit, hup, ?_⟩
    · rw [lfsCreateFiles_eq hself, ← hinit]
      exact he
    · intro t ht u hu heq
      exact (List.idxOf_inj ((hmem t).mpr ht)).mp (by omega)
    · exact fun t _ => Nat.succ_ne_zero _
    · have hperm : order.Perm tasks.toList :=
        (List.perm_ext_iff_of_nodup hn tasks.nodup_toList).mpr fun t => by rw [hmem, Finset.mem_toList]
      rw [hs, horder]
      exact (hperm.flatMap_right _).cons rootDentry

/-- Task 0 with the children 1 and 2, and task 3 below 1. -/
def fourTasks (t : Fin 4) : TaskLinks (Fin 4) :=
  match t with
  | 0 => ⟨0, 0, [1, 2]⟩
  | 1 => ⟨1, 0, [3]⟩
  | 2 => ⟨2, 0, []⟩
  | 3 => ⟨3, 1, []⟩

theorem fourTasks_tree : IsTree (fun t => (fourTasks t).children) 0 Finset.univ where
  root_mem := by decide
  closed := by decide
  top := by decide
  once := by decide
  unique := by decide
  reached t _ := by
    have h1 : Relation.ReflTransGen (fun p c => c ∈ (fourTasks p).children) 0 1 := .single (by decide)
    fin_cases t
    · exact .refl
    · exact h1
    · exact .single (by decide)
    · exact h1.tail (by decide)

theorem mount_mirrors_four_tasks : ∃ rounds s dirOf upDir,
    lfsCreateFiles (fun _ => true) fourTasks 0 rounds rootDentry.num ⟨[rootDentry], 0⟩ = .ok s ∧
      Mirror fourTasks 0 Finset.univ s.dentries dirOf upDir :=
  mount_mirrors_tree (fun _ => rfl) fourTasks_tree rfl

end LkpProjects.ProcFs
