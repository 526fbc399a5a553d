import LkpProjects.Parallel.Metadata
import LkpProjects.ProcFs.Mirror
import LkpProjects.ProcFs.ReadFile

/-! # Signals through the mounted file system

A path of directory names leads from the root to the files of one task, because the names of the directories are
the numbers of tasks and a printed number is read back as it was (`pidName_read`). The kernel's path walk is a parameter
of which `PathWalk` says what it does with the names that are not "." or "..". `mirror_paths` says which paths open the
files of a task. A write into such a file reads a number from the bytes and calls `send_sig` with it for the task that
has the file's pid at that time; `echo_delivers` is what the line of a shell that writes a number comes to.
-/
namespace LkpProjects.ProcFs
open Nand Bytes Format ChildLists
open Parallel (simpleStrtol)
set_option autoImplicit false

/-! ## Names -/

theorem simpleStrtol_eq (str : List Byte) : simpleStrtol str = intValue str := by
  cases str with
  | nil => rfl
  | cons c str => rfl

theorem pidName_read (pid : Int32) {rest : List Byte} (h : Ends rest) :
    simpleStrtol ((pidName pid).bytes ++ rest) = pid.toInt := by
  rw [simpleStrtol_eq]
  exact intValue_num pid.toInt h

theorem pidName_inj {pid pid' : Int32} (h : pidName pid = pidName pid') : pid = pid' := by
  have hread := pidName_read pid ends_nil
  rw [h, pidName_read pid' ends_nil] at hread
  exact (Int32.toInt_inj.mp hread).symm

theorem statusName_bytes (pid : Int32) :
    (statusName pid).bytes = (pidName pid).bytes ++ (literal ".status").bytes := by
  simp [statusName, concat]

theorem ends_status : Ends (literal ".status").bytes := ends_cons (c := 46) (by decide)

theorem statusName_read (pid : Int32) : simpleStrtol (statusName pid).bytes = pid.toInt := by
  rw [statusName_bytes, pidName_read pid ends_status]

/-- A name that begins with no number but 0 is not the printed number of a task. -/
theorem pidName_ne {name : CStr} (hzero : simpleStrtol name.bytes = 0) (hne : pidName 0 ≠ name) (pid : Int32) :
    pidName pid ≠ name := by
  intro h
  have hread := pidName_read pid ends_nil
  rw [List.append_nil, h, hzero] at hread
  obtain rfl : pid = 0 := Int32.toInt_inj.mp hread.symm
  exact hne h

theorem statusName_ne {name : CStr} (hzero : simpleStrtol name.bytes = 0) (hne : statusName 0 ≠ name)
    (pid : Int32) : statusName pid ≠ name := by
  intro h
  have hread := statusName_read pid
  rw [h, hzero] at hread
  obtain rfl : pid = 0 := Int32.toInt_inj.mp hread.symm
  exact hne h

theorem pidName_ne_signal (pid : Int32) : pidName pid ≠ literal "signal" :=
  pidName_ne (by decide +kernel) (by decide +kernel) pid

theorem statusName_ne_signal (pid : Int32) : statusName pid ≠ literal "signal" :=
  statusName_ne (by decide +kernel) (by decide +kernel) pid

theorem pidName_ne_statusName (pid pid' : Int32) : pidName pid ≠ statusName pid' := by
  intro h
  have hread := pidName_read pid ends_nil
  rw [List.append_nil, h, statusName_read] at hread
  obtain rfl := Int32.toInt_inj.mp hread
  have hlen := congrArg (fun s : CStr => s.bytes.length) h
  simp only [statusName_bytes, List.length_append] at hlen
  have hpos : 0 < (literal ".status").bytes.length := by decide +kernel
  omega

/-- A component of a path that the path walk looks up as a name. -/
def Plain (name : CStr) : Prop := name ≠ literal "." ∧ name ≠ literal ".."

theorem plain_pidName (pid : Int32) : Plain (pidName pid) :=
  ⟨pidName_ne (by decide +kernel) (by decide +kernel) pid, pidName_ne (by decide +kernel) (by decide +kernel) pid⟩

theorem plain_statusName (pid : Int32) : Plain (statusName pid) :=
  ⟨statusName_ne (by decide +kernel) (by decide +kernel) pid,
    statusName_ne (by decide +kernel) (by decide +kernel) pid⟩

theorem plain_signal : Plain (literal "signal") := ⟨by decide +kernel, by decide +kernel⟩

/-! ## Opening a file -/

/-- What the kernel's path walk does from the root of the mount: the dentry at the end of a path is one that was added
to the directory at the end of the path before it, under the name, and if there is one it is found. -/
structure PathWalk (resolve : List Dentry → List CStr → Option Dentry) : Prop where
  root : ∀ {ds}, rootDentry ∈ ds → resolve ds [] = some rootDentry
  entry : ∀ {ds names name d}, Plain name → resolve ds (names ++ [name]) = some d →
    ∃ p, resolve ds names = some p ∧ p.inode = .dir ∧ d ∈ ds ∧ d.num ≠ rootDentry.num ∧ d.parent = p.num ∧
      d.name = name
  found : ∀ {ds names p d}, resolve ds names = some p → p.inode = .dir → d ∈ ds → d.num ≠ rootDentry.num →
    d.parent = p.num → Plain d.name → ∃ d', resolve ds (names ++ [d.name]) = some d'

/-- `lfs_open` of the file at the end of a path: its operations, and `i_private` as `private_data`. -/
def lfsOpen (resolve : List Dentry → List CStr → Option Dentry) (ds : List Dentry) (path : List CStr) :
    Option (FileOps × Int32) :=
  match resolve ds path with
  | some ⟨_, _, _, .file fop iPrivate⟩ => some (fop, iPrivate)
  | _ => none

variable {T : Type}

/-- Going down from `t` by the tasks of the list, one is at `u`. -/
def Lineage (links : T → TaskLinks T) : T → List T → T → Prop
  | t, [], u => t = u
  | t, c :: cs, u => c ∈ (links t).children ∧ Lineage links c cs u

/-- The path of a task: the names of the directories of its ancestors and of its own. -/
def pathOf (links : T → TaskLinks T) (initTask : T) (us : List T) : List CStr :=
  (initTask :: us).map fun u => pidName (links u).pid

theorem exists_lineage {links : T → TaskLinks T} {t u : T}
    (h : Relation.ReflTransGen (fun p c => c ∈ (links p).children) t u) : ∃ us, Lineage links t us u := by
  induction h using Relation.ReflTransGen.head_induction_on with
  | refl => exact ⟨[], rfl⟩
  | head hc _ ih =>
    obtain ⟨us, hus⟩ := ih
    exact ⟨_ :: us, hc, hus⟩

theorem Lineage.mem {links : T → TaskLinks T} {initTask : T} {tasks : Finset T}
    (hT : IsTree (fun t => (links t).children) initTask tasks) {us : List T} {t u : T} (h : Lineage links t us u)
    (ht : t ∈ tasks) : u ∈ tasks := by
  induction us generalizing t with
  | nil =>
    obtain rfl : t = u := h
    exact ht
  | cons c us ih => exact ih h.2 (hT.closed t ht c h.1)

theorem lineage_concat {links : T → TaskLinks T} {c u : T} : ∀ {us : List T} {t : T},
    Lineage links t (us ++ [c]) u ↔ ∃ p, Lineage links t us p ∧ c ∈ (links p).children ∧ c = u
  | [], t => by
      constructor
      · exact fun h => ⟨t, rfl, h⟩
      · rintro ⟨p, rfl, h⟩
        exact h
  | b :: us, t => by
      rw [List.cons_append, Lineage, lineage_concat]
      constructor
      · rintro ⟨hb, p, hline, hc⟩
        exact ⟨p, ⟨hb, hline⟩, hc⟩
      · rintro ⟨p, ⟨hb, hline⟩, hc⟩
        exact ⟨hb, p, hline, hc⟩

theorem plain_pathOf {links : T → TaskLinks T} {initTask : T} {us : List T} :
    ∀ name ∈ pathOf links initTask us, Plain name := by
  intro name hname
  obtain ⟨u, -, rfl⟩ := List.mem_map.mp hname
  exact plain_pidName _

theorem pathOf_concat {links : T → TaskLinks T} {initTask : T} (us : List T) (c : T) :
    pathOf links initTask (us ++ [c]) = pathOf links initTask us ++ [pidName (links c).pid] := by
  rw [pathOf, ← List.cons_append, List.map_append]
  rfl

section Paths
variable {resolve : List Dentry → List CStr → Option Dentry} {links : T → TaskLinks T} {initTask : T}
  {tasks : Finset T} {ds : List Dentry} {dirOf upDir : T → ℕ} {t u : T} {d : Dentry} {dir : ℕ} {names : List CStr}
  {name : CStr}

namespace Mirror
variable (hM : Mirror links initTask tasks ds dirOf upDir)
include hM

theorem mem_iff : d ∈ ds ↔ d = rootDentry ∨ ∃ t ∈ tasks, d ∈ taskDentries links dirOf upDir t := by
  rw [hM.perm.mem_iff, List.mem_cons, List.mem_flatMap]
  simp only [Finset.mem_toList]

theorem dir_mem (ht : t ∈ tasks) : (⟨dirOf t, pidName (links t).pid, upDir t, .dir⟩ : Dentry) ∈ ds :=
  hM.mem_iff.mpr (.inr ⟨t, ht, List.mem_cons_self⟩)

theorem signal_mem (ht : t ∈ tasks) :
    (⟨dirOf t + 1, literal "signal", dirOf t, .file .lfsFileOps2 (links t).pid⟩ : Dentry) ∈ ds :=
  hM.mem_iff.mpr (.inr ⟨t, ht, List.mem_cons_of_mem _ List.mem_cons_self⟩)

theorem status_mem (ht : t ∈ tasks) :
    (⟨dirOf t + 2, statusName (links t).pid, dirOf t, .file .lfsFileOps (links t).pid⟩ : Dentry) ∈ ds :=
  hM.mem_iff.mpr (.inr ⟨t, ht, List.mem_cons_of_mem _ (List.mem_cons_of_mem _ List.mem_cons_self)⟩)

variable (hT : IsTree (fun t => (links t).children) initTask tasks)
include hT

/-- What is above the directory of a task. -/
theorem upDir_cases (ht : t ∈ tasks) :
    t = initTask ∧ upDir t = rootDentry.num ∨ ∃ p ∈ tasks, t ∈ (links p).children ∧ upDir t = dirOf p := by
  obtain rfl | ⟨p, hreach, hchild⟩ := Relation.ReflTransGen.cases_tail (hT.reached t ht)
  · exact .inl ⟨rfl, hM.init_up⟩
  · obtain ⟨m, hm⟩ := exists_path hreach
    have hp := hT.path_mem hT.root_mem hm
    exact .inr ⟨p, hp, hchild, hM.child_up p hp t hchild⟩

/-- The entries of the root. -/
theorem root_entry (hd : d ∈ ds) (hroot : d.num ≠ rootDentry.num) (hdir : d.parent = rootDentry.num) :
    d = ⟨dirOf initTask, pidName (links initTask).pid, rootDentry.num, .dir⟩ := by
  obtain rfl | ⟨t, ht, hd⟩ := hM.mem_iff.mp hd
  · exact absurd rfl hroot
  · simp only [taskDentries, List.mem_cons, List.not_mem_nil, or_false] at hd
    obtain rfl | rfl | rfl := hd
    · obtain ⟨rfl, hup⟩ | ⟨p, hp, -, hup⟩ := hM.upDir_cases hT ht
      · rw [hup]
      · exact absurd (hup.symm.trans hdir) (hM.below_root p hp)
    · exact absurd hdir (hM.below_root t ht)
    · exact absurd hdir (hM.below_root t ht)

/-- The entries of the directory of a task. -/
theorem entry (ht : t ∈ tasks) (hd : d ∈ ds) (hdir : d.parent = dirOf t) :
    (∃ c ∈ (links t).children, d = ⟨dirOf c, pidName (links c).pid, dirOf t, .dir⟩) ∨
      d = ⟨dirOf t + 1, literal "signal", dirOf t, .file .lfsFileOps2 (links t).pid⟩ ∨
        d = ⟨dirOf t + 2, statusName (links t).pid, dirOf t, .file .lfsFileOps (links t).pid⟩ := by
  obtain rfl | ⟨u, hu, hd⟩ := hM.mem_iff.mp hd
  · exact absurd hdir.symm (hM.below_root t ht)
  · simp only [taskDentries, List.mem_cons, List.not_mem_nil, or_false] at hd
    obtain rfl | rfl | rfl := hd
    · obtain ⟨-, hup⟩ | ⟨p, hp, hchild, hup⟩ := hM.upDir_cases hT hu
      · exact absurd (hdir.symm.trans hup) (hM.below_root t ht)
      · obtain rfl := hM.injective p hp t ht (hup.symm.trans hdir)
        exact .inl ⟨u, hchild, by rw [hup]⟩
    · obtain rfl := hM.injective u hu t ht hdir
      exact .inr (.inl rfl)
    · obtain rfl := hM.injective u hu t ht hdir
      exact .inr (.inr rfl)

variable (hW : PathWalk resolve)
include hW

/-- The directory of `init_task` is the one in the root. -/
theorem resolve_init : resolve ds [pidName (links initTask).pid] =
    some ⟨dirOf initTask, pidName (links initTask).pid, rootDentry.num, .dir⟩ := by
  have hroot : resolve ds [] = some rootDentry := hW.root (hM.mem_iff.mpr (.inl rfl))
  have hmem := hM.dir_mem hT.root_mem
  rw [hM.init_up] at hmem
  obtain ⟨d, hd⟩ := hW.found hroot rfl hmem (hM.below_root _ hT.root_mem) rfl (plain_pidName _)
  obtain ⟨p, hp, -, hmem', hne, hdir, -⟩ := hW.entry (plain_pidName _) hd
  rw [hroot] at hp
  obtain rfl := Option.some.inj hp
  rw [← hM.root_entry hT hmem' hne hdir]
  exact hd

variable (hpid : ∀ t ∈ tasks, ∀ u ∈ tasks, (links t).pid = (links u).pid → t = u)
include hpid

omit hW in
/-- The names in the directory of a task are different. -/
theorem entry_unique (ht : t ∈ tasks) {d' : Dentry} (hd : d ∈ ds) (hdir : d.parent = dirOf t) (hd' : d' ∈ ds)
    (hdir' : d'.parent = dirOf t) (hname : d'.name = d.name) : d' = d := by
  obtain ⟨c, hc, rfl⟩ | rfl | rfl := hM.entry hT ht hd hdir
  · obtain ⟨c', hc', rfl⟩ | rfl | rfl := hM.entry hT ht hd' hdir'
    · obtain rfl := hpid c' (hT.closed t ht c' hc') c (hT.closed t ht c hc) (pidName_inj hname)
      rfl
    · exact absurd hname.symm (pidName_ne_signal _)
    · exact absurd hname.symm (pidName_ne_statusName _ _)
  · obtain ⟨c', -, rfl⟩ | rfl | rfl := hM.entry hT ht hd' hdir'
    · exact absurd hname (pidName_ne_signal _)
    · rfl
    · exact absurd hname (statusName_ne_signal _)
  · obtain ⟨c', -, rfl⟩ | rfl | rfl := hM.entry hT ht hd' hdir'
    · exact absurd hname (pidName_ne_statusName _ _)
    · exact absurd hname.symm (statusName_ne_signal _)
    · rfl

/-- From the directory of a task one comes to each of its entries by name. -/
theorem resolve_entry (ht : t ∈ tasks) (hnames : resolve ds names = some ⟨dirOf t, name, dir, .dir⟩) (hd : d ∈ ds)
    (hroot : d.num ≠ rootDentry.num) (hdir : d.parent = dirOf t) (hplain : Plain d.name) :
    resolve ds (names ++ [d.name]) = some d := by
  obtain ⟨d', hd'⟩ := hW.found hnames rfl hd hroot hdir hplain
  obtain ⟨p, hp, -, hmem, -, hdir', hname⟩ := hW.entry hplain hd'
  rw [hnames] at hp
  obtain rfl := Option.some.inj hp
  rw [hd', hM.entry_unique hT hpid ht hd hdir hmem hdir' hname]

/-- A path of names leads to a directory where the tasks of these names lead. -/
theorem resolve_dir {names : List CStr} : (∀ name ∈ names, Plain name) → ∀ {d : Dentry}, d.inode = .dir →
    (resolve ds names = some d ↔ names = [] ∧ d = rootDentry ∨ ∃ us u, Lineage links initTask us u ∧
      names = pathOf links initTask us ∧ d = ⟨dirOf u, pidName (links u).pid, upDir u, .dir⟩) := by
  induction names using List.reverseRecOn with
  | nil =>
    intro _ d _
    rw [hW.root (hM.mem_iff.mpr (.inl rfl))]
    constructor
    · exact fun h => .inl ⟨rfl, (Option.some.inj h).symm⟩
    · rintro (⟨-, rfl⟩ | ⟨us, u, -, hnil, -⟩)
      · rfl
      · cases hnil
  | append_singleton names name ih =>
    intro hplain d hdir
    have hname : Plain name := hplain name (List.mem_append_right _ List.mem_cons_self)
    have ih := @ih fun name h => hplain name (List.mem_append_left _ h)
    constructor
    · intro h
      obtain ⟨p, hp, hpdir, hmem, hne, hparent, rfl⟩ := hW.entry hname h
      obtain ⟨rfl, rfl⟩ | ⟨us, u, hline, rfl, rfl⟩ := (ih hpdir).mp hp
      · obtain rfl := hM.root_entry hT hmem hne hparent
        exact .inr ⟨[], initTask, rfl, rfl, by rw [hM.init_up]⟩
      · have hu := hline.mem hT hT.root_mem
        obtain ⟨c, hc, rfl⟩ | rfl | rfl := hM.entry hT hu hmem hparent
        · exact .inr ⟨us ++ [c], c, lineage_concat.mpr ⟨u, hline, hc, rfl⟩, (pathOf_concat us c).symm,
            by rw [hM.child_up u hu c hc]⟩
        · cases hdir
        · cases hdir
    · rintro (⟨hnil, -⟩ | ⟨us, u, hline, hnames, rfl⟩)
      · exact absurd hnil (List.append_ne_nil_of_right_ne_nil _ (List.cons_ne_nil _ _))
      · obtain rfl | ⟨us, c, rfl⟩ := us.eq_nil_or_concat'
        · obtain rfl : initTask = u := hline
          rw [hnames, hM.init_up]
          exact hM.resolve_init hT hW
        · obtain ⟨p, habove, hc, rfl⟩ := lineage_concat.mp hline
          rw [pathOf_concat] at hnames
          obtain ⟨rfl, hlast⟩ := List.append_inj' hnames rfl
          obtain rfl := (List.cons.inj hlast).1
          have hp := habove.mem hT hT.root_mem
          have hmem := hT.closed p hp c hc
          have hpath := (ih rfl).mpr (.inr ⟨us, p, habove, rfl, rfl⟩)
          exact hM.resolve_entry hT hW hpid hp hpath (hM.dir_mem hmem) (hM.below_root c hmem)
            (hM.child_up p hp c hc) (plain_pidName _)

/-- The files that paths open. -/
theorem lfsOpen_iff {fop : FileOps} {pid : Int32} (hnames : ∀ name ∈ names, Plain name) (hname : Plain name) :
    lfsOpen resolve ds (names ++ [name]) = some (fop, pid) ↔
      ∃ us t, Lineage links initTask us t ∧ names = pathOf links initTask us ∧ pid = (links t).pid ∧
        (fop = .lfsFileOps2 ∧ name = literal "signal" ∨ fop = .lfsFileOps ∧ name = statusName pid) := by
  have hdir : ∀ p : Dentry, p.inode = .dir → _ := fun p hp => hM.resolve_dir hT hW hpid hnames (d := p) hp
  constructor
  · intro h
    cases hl : resolve ds (names ++ [name]) with
    | none =>
      rw [lfsOpen, hl] at h
      cases h
    | some d =>
      rw [lfsOpen, hl] at h
      obtain ⟨p, hp, hpdir, hmem, hne, hparent, rfl⟩ := hW.entry hname hl
      obtain ⟨rfl, rfl⟩ | ⟨us, t, hline, rfl, rfl⟩ := (hdir p hpdir).mp hp
      · obtain rfl := hM.root_entry hT hmem hne hparent
        cases h
      · obtain ⟨c, -, rfl⟩ | rfl | rfl := hM.entry hT (hline.mem hT hT.root_mem) hmem hparent
        · cases h
        · obtain ⟨rfl, rfl⟩ := Prod.mk.inj (Option.some.inj h)
          exact ⟨us, t, hline, rfl, rfl, .inl ⟨rfl, rfl⟩⟩
        · obtain ⟨rfl, rfl⟩ := Prod.mk.inj (Option.some.inj h)
          exact ⟨us, t, hline, rfl, rfl, .inr ⟨rfl, rfl⟩⟩
  · rintro ⟨us, t, hline, rfl, rfl, hcase⟩
    have ht := hline.mem hT hT.root_mem
    have hpath := (hdir _ rfl).mpr (.inr ⟨us, t, hline, rfl, rfl⟩)
    obtain ⟨rfl, rfl⟩ | ⟨rfl, rfl⟩ := hcase
    · have hl := hM.resolve_entry hT hW hpid ht hpath (hM.signal_mem ht) (Nat.succ_ne_zero _) rfl plain_signal
      rw [lfsOpen, hl]
    · have hl := hM.resolve_entry hT hW hpid ht hpath (hM.status_mem ht) (Nat.succ_ne_zero _) rfl (plain_statusName _)
      rw [lfsOpen, hl]

end Mirror
end Paths

/-- Where the directories are the mirror of the tree, each task can be reached from `init_task`, and a path of names
opens a file exactly if it is the path of a task with "signal" or the name of the task's status file behind it. -/
theorem mirror_paths {resolve : List Dentry → List CStr → Option Dentry} (hW : PathWalk resolve)
    {links : T → TaskLinks T} {initTask : T} {tasks : Finset T} {ds : List Dentry} {dirOf upDir : T → ℕ}
    (hM : Mirror links initTask tasks ds dirOf upDir) (hT : IsTree (fun t => (links t).children) initTask tasks)
    (hpid : ∀ t ∈ tasks, ∀ u ∈ tasks, (links t).pid = (links u).pid → t = u) :
    (∀ t ∈ tasks, ∃ us, Lineage links initTask us t) ∧
      ∀ names name fop pid, (∀ n ∈ names, Plain n) → Plain name →
        (lfsOpen resolve ds (names ++ [name]) = some (fop, pid) ↔
          ∃ us t, Lineage links initTask us t ∧ names = pathOf links initTask us ∧ pid = (links t).pid ∧
            (fop = .lfsFileOps2 ∧ name = literal "signal" ∨ fop = .lfsFileOps ∧ name = statusName pid)) := by
  refine ⟨fun t ht => exists_lineage (hT.reached t ht), fun names name fop pid hnames hname => ?_⟩
  exact hM.lfsOpen_iff hT hW hpid hnames hname

/-- One component of a path, as the kernel takes it. -/
def stepName (ds : List Dentry) (p : Dentry) (name : CStr) : Option Dentry :=
  if p.inode.isDir = false then none
  else if name = literal "." then some p
  else if name = literal ".." then ds.find? fun d => d.num = p.parent
  else ds.find? fun d => d.num ≠ rootDentry.num ∧ d.parent = p.num ∧ d.name = name

/-- A path walk that takes the components one after the other. -/
def walkNames (ds : List Dentry) (names : List CStr) : Option Dentry := names.foldlM (stepName ds) rootDentry

theorem walkNames_concat (ds : List Dentry) (names : List CStr) (name : CStr) :
    walkNames ds (names ++ [name]) = (walkNames ds names).bind fun p => stepName ds p name := by
  rw [walkNames, walkNames, List.foldlM_append]
  cases names.foldlM (stepName ds) rootDentry with
  | none => rfl
  | some p =>
    show (stepName ds p name).bind some = stepName ds p name
    exact Option.bind_fun_some _

theorem stepName_plain {ds : List Dentry} {p : Dentry} {name : CStr} (hdir : p.inode = .dir) (hname : Plain name) :
    stepName ds p name = ds.find? fun d => d.num ≠ rootDentry.num ∧ d.parent = p.num ∧ d.name = name := by
  have hisDir : p.inode.isDir ≠ false := by
    rw [hdir]
    exact Bool.noConfusion
  rw [stepName, if_neg hisDir, if_neg hname.1, if_neg hname.2]

theorem walkNames_pathWalk : PathWalk walkNames where
  root _ := rfl
  entry {ds names name d} hname h := by
    rw [walkNames_concat] at h
    obtain ⟨p, hp, hstep⟩ := Option.bind_eq_some_iff.mp h
    cases hdir : p.inode with
    | file fop pid =>
      rw [stepName, hdir] at hstep
      cases hstep
    | dir =>
      rw [stepName_plain hdir hname] at hstep
      have hfound := List.find?_some hstep
      obtain ⟨hne, hparent, hd⟩ := of_decide_eq_true hfound
      exact ⟨p, hp, hdir, List.mem_of_find?_eq_some hstep, hne, hparent, hd⟩
  found {ds names p d} hp hdir hd hne hparent hname := by
    rw [walkNames_concat, hp, Option.bind_some, stepName_plain hdir hname]
    cases h : ds.find? fun d' => d'.num ≠ rootDentry.num ∧ d'.parent = p.num ∧ d'.name = d.name with
    | some d' => exact ⟨d', rfl⟩
    | none =>
      have hno := List.find?_eq_none.mp h d hd
      exact absurd (decide_eq_true ⟨hne, hparent, rfl⟩) hno

def fourDir (t : Fin 4) : ℕ :=
  match t with
  | 0 => 1
  | 1 => 4
  | 2 => 10
  | 3 => 7

def fourUp (t : Fin 4) : ℕ :=
  match t with
  | 0 => 0
  | 1 => 1
  | 2 => 1
  | 3 => 4

/-- The root and the dentries of the four tasks, made in the given order. -/
def fourDentries (order : List (Fin 4)) : List Dentry :=
  rootDentry :: order.flatMap (taskDentries fourTasks fourDir fourUp)

theorem fourDentries_mirror : Mirror fourTasks 0 Finset.univ (fourDentries [0, 1, 3, 2]) fourDir fourUp where
  injective := by decide
  below_root := by decide
  init_up := rfl
  child_up := by decide
  perm := by
    have horder : ([0, 1, 3, 2] : List (Fin 4)).Perm Finset.univ.toList := by
      rw [List.perm_ext_iff_of_nodup (by decide) (Finset.nodup_toList _)]
      intro t
      rw [Finset.mem_toList]
      exact iff_of_true (by fin_cases t <;> decide) (Finset.mem_univ t)
    exact (horder.flatMap_right _).cons rootDentry

/-- The signal file of task 3 is at the end of the path 0/1/3. -/
theorem mirror_paths_four : (∃ s, lfsCreateFiles (fun _ => true) fourTasks 0 4 rootDentry.num ⟨[rootDentry], 0⟩ =
    .ok s ∧ s.dentries = fourDentries [0, 1, 3, 2]) ∧
      lfsOpen walkNames (fourDentries [0, 1, 3, 2]) (pathOf fourTasks 0 [1, 3] ++ [literal "signal"]) =
        some (.lfsFileOps2, 3) := by
  refine ⟨⟨_, rfl, rfl⟩, ?_⟩
  exact ((mirror_paths walkNames_pathWalk fourDentries_mirror fourTasks_tree (by decide)).2 _ _ _ _ plain_pathOf
    plain_signal).mpr ⟨[1, 3], 3, ⟨by decide, by decide, rfl⟩, rfl, rfl, .inl ⟨rfl, rfl⟩⟩

/-! ## Writing into a signal file -/

def tmpsize : ℕ := 20

def einval : ℤ := 22

/-- A request to write the first `count` bytes at `buf`, of which those in `readable` can be read. -/
structure WriteRequest where
  readable : List Byte
  count : ℕ

/-- The task with this pid; `init_task` for no pid. -/
def taskOf (pidTask : Int32 → Option T) (initTask : T) (targetPid : Int32) : Option T :=
  if 0 < targetPid then pidTask targetPid else some initTask

/-- `lfs_write_sig_file`: what it returns, and the signal and the task that it calls `send_sig` with. -/
def lfsWriteSigFile (pidTask : Int32 → Option T) (initTask : T) (targetPid : Int32) (req : WriteRequest) (offset : ℕ) :
    ℤ × Option (Int32 × T) :=
  if offset ≠ 0 then (-einval, none)
  else if tmpsize ≤ req.count then (-einval, none)
  else if req.readable.length < req.count then (-efault, none)
  else
    let tmp2 := req.readable.take req.count ++ List.replicate (tmpsize - req.count) 0
    let sigNum := Int32.ofInt (simpleStrtol (CStr.ofBytes tmp2).bytes)
    match taskOf pidTask initTask targetPid with
    | none => (0, none)
    | some t => (req.count, some (sigNum, t))

/-- The line that `echo` writes. -/
def echoText (n : ℤ) : CStr := concat [(Piece.num n).render, literal "\n"]

/-- `echo n > path/signal`, if the file can be opened for that. -/
def echoSignal (resolve : List Dentry → List CStr → Option Dentry) (pidTask : Int32 → Option T) (initTask : T)
    (ds : List Dentry) (names : List CStr) (n : ℤ) : Option (ℤ × Option (Int32 × T)) :=
  match lfsOpen resolve ds (names ++ [literal "signal"]) with
  | some (.lfsFileOps2, pid) =>
    some (lfsWriteSigFile pidTask initTask pid ⟨(echoText n).bytes, (echoText n).len⟩ 0)
  | _ => none

theorem echoText_bytes (n : ℤ) : (echoText n).bytes = (Piece.num n).render.bytes ++ [10] := by
  simp [echoText, concat]
  rfl

/-- The number of a line is sent, as an `int`, to the task that has the pid. -/
theorem lfsWriteSigFile_echo (pidTask : Int32 → Option T) (initTask : T) (pid : Int32) (n : ℤ) :
    lfsWriteSigFile pidTask initTask pid ⟨(echoText n).bytes, (echoText n).len⟩ 0 =
      if tmpsize ≤ (echoText n).len then (-einval, none)
      else match taskOf pidTask initTask pid with
        | none => (0, none)
        | some t => ((echoText n).len, some (Int32.ofInt n, t)) := by
  have hread : simpleStrtol (echoText n).bytes = n := by
    rw [echoText_bytes, simpleStrtol_eq, intValue_num n (ends_cons (by decide))]
  rw [lfsWriteSigFile, if_neg (by simp)]
  by_cases hlong : tmpsize ≤ (echoText n).len
  · rw [if_pos hlong, if_pos hlong]
  · have hall : ¬ (echoText n).bytes.length < (echoText n).len := lt_irrefl _
    dsimp only
    rw [if_neg hlong, if_neg hlong, if_neg hall]
    obtain ⟨k, hk⟩ : ∃ k, tmpsize - (echoText n).len = k + 1 := ⟨tmpsize - (echoText n).len - 1, by omega⟩
    have htmp : CStr.ofBytes ((echoText n).bytes.take (echoText n).len ++
        List.replicate (tmpsize - (echoText n).len) 0) = echoText n := by
      rw [hk, List.replicate_succ, CStr.len, List.take_length]
      exact CStr.ofBytes_append _ _
    rw [htmp, hread]

/-- Writing a number into the signal file at the end of a task's path calls `send_sig` for the task that has the pid at
that time, if the line is shorter than the buffer; the numbers that agree modulo `2 ^ 32` are the same signal. -/
theorem echo_delivers {resolve : List Dentry → List CStr → Option Dentry} (hW : PathWalk resolve)
    {links : T → TaskLinks T} {initTask : T} {tasks : Finset T} {ds : List Dentry} {dirOf upDir : T → ℕ}
    (hM : Mirror links initTask tasks ds dirOf upDir) (hT : IsTree (fun t => (links t).children) initTask tasks)
    (hpid : ∀ t ∈ tasks, ∀ u ∈ tasks, (links t).pid = (links u).pid → t = u) (pidTask : Int32 → Option T)
    {us : List T} {t : T} (hline : Lineage links initTask us t) (n : ℤ) :
    echoSignal resolve pidTask initTask ds (pathOf links initTask us) n = some
      (if tmpsize ≤ (echoText n).len then (-einval, none)
      else match taskOf pidTask initTask (links t).pid with
        | none => (0, none)
        | some u => ((echoText n).len, some (Int32.ofInt n, u))) := by
  have hopen := (hM.lfsOpen_iff hT hW hpid plain_pathOf plain_signal).mpr ⟨us, t, hline, rfl, rfl, .inl ⟨rfl, rfl⟩⟩
  rw [echoSignal, hopen]
  exact congrArg some (lfsWriteSigFile_echo pidTask initTask _ n)

/-- Signal 9 for task 3; it is also the signal of 2^32 + 9. -/
theorem echo_delivers_four :
    echoSignal walkNames (fun pid => if pid = 3 then some (3 : Fin 4) else none) 0 (fourDentries [0, 1, 3, 2])
      (pathOf fourTasks 0 [1, 3]) 9 = some (2, some (9, 3)) ∧
    echoSignal walkNames (fun pid => if pid = 3 then some (3 : Fin 4) else none) 0 (fourDentries [0, 1, 3, 2])
      (pathOf fourTasks 0 [1, 3]) 4294967305 = some (11, some (9, 3)) := by
  have hline : Lineage fourTasks 0 [1, 3] 3 := ⟨by decide, by decide, rfl⟩
  constructor
  · rw [echo_delivers walkNames_pathWalk fourDentries_mirror fourTasks_tree (by decide) _ hline 9]
    rfl
  · rw [echo_delivers walkNames_pathWalk fourDentries_mirror fourTasks_tree (by decide) _ hline 4294967305]
    rfl

end LkpProjects.ProcFs
