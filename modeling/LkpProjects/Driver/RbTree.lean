import LkpProjects.Library.WeightedTree

/-! # The red-black tree of the data-structure driver

`RBtree` draws `dstruct_size` different numbers, inserts a node for each, and then searches every offset
of consecutive ranges and removes what it finds. The numbers given out so far are in an array whose free
slots hold `-1`. An entry is its offset: the driver reads nothing else of it.
-/
namespace LkpProjects.Driver
open WeightedTree
set_option autoImplicit false

/-- The kernel as the driver uses it: memory for the array by its size and for the nodes by their number,
and the balancing around a node. -/
structure Kernel where
  kmalloc : ℕ → Bool
  kmallocEntry : ℕ → Bool
  rbInsertColor : ℤ → BinTree ℤ → BinTree ℤ
  rbErase : ℤ → BinTree ℤ → BinTree ℤ
  -- no slab allocator of the kernel serves more at once
  kmalloc_le : ∀ n, kmalloc n = true → n ≤ 2 ^ 25

structure Kernel.KeepsOrder (env : Kernel) : Prop where
  insertColor : ∀ k t, (env.rbInsertColor k t).inorder = t.inorder
  erase : ∀ k t, (env.rbErase k t).inorder = t.inorder.erase k

/-- The globals that `lkp_init` leaves to `RBtree`. -/
structure Globals where
  dstructSize : ℕ
  range : ℕ
  randIntArry : List ℤ

def lkpInit (env : Kernel) (dstructSize : ℤ) : Option Globals :=
  if dstructSize < 1 then none
  else
    let n := dstructSize.toNat
    if env.kmalloc (4 * (n + 1)) then some ⟨n, n / 2, List.replicate (n + 1) (-1)⟩ else none

/-- The ways a run has no result: a loop had more rounds than it was given, or a slot behind the array
was written. -/
inductive Stop where
  | outOfFuel
  | outOfBounds
deriving DecidableEq

/-! ## Drawing numbers -/

def randInt (dstructSize : ℕ) (i : ℤ) : ℤ := (i.tmod (dstructSize * 2)).natAbs

/-- The loop behind the label `retry`, with the random stream and the position in it. -/
def retry (dstructSize : ℕ) (arry : List ℤ) (cnt : ℕ) (draws : ℕ → ℤ) : ℕ → ℕ → Option (ℤ × ℕ)
  | 0, _ => none
  | tries + 1, pos =>
    if randInt dstructSize (draws pos) ∈ arry.take (cnt + 1) then
      retry dstructSize arry cnt draws tries (pos + 1)
    else some (randInt dstructSize (draws pos), pos + 1)

/-- The number, the array with the number in its first free slot, and the position in the stream. -/
def getIndependantNum (dstructSize : ℕ) (draws : ℕ → ℤ) (tries : ℕ) (arry : List ℤ) (pos : ℕ) :
    Except Stop (ℤ × List ℤ × ℕ) :=
  let cnt := arry.findIdx (· == -1)
  if cnt ≤ dstructSize then
    match retry dstructSize arry cnt draws tries pos with
    | some (n, pos) => .ok (n, arry.set cnt n, pos)
    | none => .error .outOfFuel
  else .error .outOfBounds

/-! ## The tree -/

/-- The way down to the leaf that takes the entry, none where its offset is already there. -/
def zswapRbLink (offset : ℤ) : BinTree ℤ → Option (BinTree ℤ)
  | .nil => some (.node .nil offset .nil)
  | .node l my r =>
    if my > offset then (zswapRbLink offset l).map (.node · my r)
    else if my < offset then (zswapRbLink offset r).map (.node l my ·)
    else none

def eexist : ℤ := 17

def zswapRbInsert (env : Kernel) (offset : ℤ) (root : BinTree ℤ) : ℤ × BinTree ℤ :=
  match zswapRbLink offset root with
  | some t => (0, env.rbInsertColor offset t)
  | none => (-eexist, root)

def zswapRbSearch (offset : ℤ) : BinTree ℤ → Option ℤ
  | .nil => none
  | .node l my r =>
    if my > offset then zswapRbSearch offset l
    else if my < offset then zswapRbSearch offset r
    else some my

/-! ## RBtree -/

/-- The locals of `RBtree`, with the numbers drawn, the codes of the insertions and the offsets removed
so far. -/
structure Locals where
  arry : List ℤ
  pos : ℕ
  rbroot : BinTree ℤ
  nums : List ℤ
  rets : List ℤ
  removed : List ℤ

/-- The rounds `i`, `i + 1`, … of the first loop; with a code where the function returns. -/
def insertLoop (env : Kernel) (dstructSize : ℕ) (draws : ℕ → ℤ) (tries : ℕ) :
    ℕ → ℕ → Locals → Except Stop (Option ℤ × Locals)
  | 0, _, s => .ok (none, s)
  | rest + 1, i, s =>
    match getIndependantNum dstructSize draws tries s.arry s.pos with
    | .error e => .error e
    | .ok (n, arry, pos) =>
      let s := { s with arry := arry, pos := pos, nums := s.nums ++ [n] }
      if n < 0 then .ok (some n, s)
      else if env.kmallocEntry i = false then .ok (some (-1), s)
      else
        let (ret, root) := zswapRbInsert env n s.rbroot
        insertLoop env dstructSize draws tries rest (i + 1)
          { s with rbroot := root, rets := s.rets ++ [ret] }

/-- The offsets `j`, `j + 1`, … of one range. -/
def sweepRange (env : Kernel) : ℕ → ℕ → Locals → Locals
  | 0, _, s => s
  | rest + 1, j, s =>
    match zswapRbSearch j s.rbroot with
    | some offset =>
      sweepRange env rest (j + 1)
        { s with rbroot := env.rbErase offset s.rbroot, removed := s.removed ++ [offset] }
    | none => sweepRange env rest (j + 1) s

def sweep (env : Kernel) (dstructSize range : ℕ) : ℕ → ℕ → Locals → Except Stop Locals
  | 0, _, _ => .error .outOfFuel
  | rounds + 1, i, s =>
    if i < dstructSize * 2 then
      sweep env dstructSize range rounds (i + range) (sweepRange env range i s)
    else .ok s

/-- The insertions, from the empty tree and the array as `lkp_init` leaves it. -/
def insertAll (env : Kernel) (gl : Globals) (draws : ℕ → ℤ) (tries : ℕ) :
    Except Stop (Option ℤ × Locals) :=
  insertLoop env gl.dstructSize draws tries gl.dstructSize 0 ⟨gl.randIntArry, 0, .nil, [], [], []⟩

/-- The code and the locals at the end. -/
def rbTree (env : Kernel) (gl : Globals) (draws : ℕ → ℤ) (tries rounds : ℕ) :
    Except Stop (ℤ × Locals) :=
  match insertAll env gl draws tries with
  | .error e => .error e
  | .ok (some code, s) => .ok (code, s)
  | .ok (none, s) =>
    match sweep env gl.dstructSize gl.range rounds 0 s with
    | .error e => .error e
    | .ok s => .ok (0, s)

variable {env : Kernel} {gl : Globals} {ds : ℕ} {draws : ℕ → ℤ} {tries cnt pos pos' : ℕ} {n : ℤ}
  {arry arry' : List ℤ} {t root : BinTree ℤ} {offset : ℤ}

/-! ## What each function does -/

theorem lkpInit_eq_some {dstructSize : ℤ} (h : lkpInit env dstructSize = some gl) :
    1 ≤ gl.dstructSize ∧ gl.dstructSize = dstructSize ∧ gl.range = gl.dstructSize / 2 ∧
      gl.randIntArry = List.replicate (gl.dstructSize + 1) (-1) ∧
        env.kmalloc (4 * (gl.dstructSize + 1)) = true := by
  unfold lkpInit at h
  split at h
  · cases h
  · dsimp only at h
    split at h
    · next hlo hk =>
      obtain rfl := Option.some.inj h
      refine ⟨?_, ?_, rfl, rfl, hk⟩ <;> simp only <;> omega
    · cases h

theorem randInt_bounds (hds : 1 ≤ ds) (i : ℤ) : 0 ≤ randInt ds i ∧ randInt ds i < ds * 2 := by
  have hlt : (i.tmod (ds * 2)).natAbs < ds * 2 := by
    rw [Int.natAbs_tmod]
    have hb : ((ds : ℤ) * 2).natAbs = ds * 2 := by omega
    rw [hb]
    exact Nat.mod_lt _ (by omega)
  unfold randInt
  omega

theorem retry_eq_some : ∀ {tries pos}, retry ds arry cnt draws tries pos = some (n, pos') →
    n ∉ arry.take (cnt + 1) ∧ ∃ i, n = randInt ds i
  | 0, _, h => by cases h
  | tries + 1, pos, h => by
    rw [retry] at h
    split at h
    · exact retry_eq_some h
    · next hfree =>
      obtain ⟨rfl, -⟩ := Prod.mk.inj (Option.some.inj h)
      exact ⟨hfree, _, rfl⟩

/-- With numbers in the first slots of the array and at least one slot free, the next number is another
one and takes the first free slot. -/
theorem getIndependantNum_spec (hds : 1 ≤ ds) {nums : List ℤ} (hpos : ∀ m ∈ nums, 0 ≤ m)
    (hfree : nums.length ≤ ds) (harry : arry = nums ++ List.replicate (ds + 1 - nums.length) (-1)) :
    getIndependantNum ds draws tries arry pos = .error .outOfFuel ∨
      ∃ n pos', getIndependantNum ds draws tries arry pos =
          .ok (n, nums ++ n :: List.replicate (ds - nums.length) (-1), pos') ∧
        n ∉ nums ∧ 0 ≤ n ∧ n < ds * 2 := by
  have hsplit : arry = nums ++ -1 :: List.replicate (ds - nums.length) (-1) := by
    rw [harry, Nat.sub_add_comm hfree, List.replicate_succ]
  have hused : nums.findIdx (· == -1) = nums.length :=
    List.findIdx_eq_length_of_false fun m hm => by
      have hm := hpos m hm
      rw [beq_eq_false_iff_ne]
      omega
  have hcnt : arry.findIdx (· == -1) = nums.length := by
    rw [hsplit, List.findIdx_append, hused, if_neg (lt_irrefl _), List.findIdx_cons]
    simp
  unfold getIndependantNum
  simp only [hcnt, hfree, if_true]
  cases hr : retry ds arry nums.length draws tries pos with
  | none => exact .inl rfl
  | some r =>
    obtain ⟨n, pos'⟩ := r
    obtain ⟨hnot, i, hi⟩ := retry_eq_some hr
    have hb := randInt_bounds hds i
    have hset : arry.set nums.length n = nums ++ n :: List.replicate (ds - nums.length) (-1) := by
      rw [hsplit, List.set_append_right _ _ le_rfl, Nat.sub_self, List.set_cons_zero]
    refine .inr ⟨n, pos', ?_, fun hn => hnot ?_, by omega, by omega⟩
    · simp only [hset]
    · rw [hsplit, List.take_length_add_append]
      exact List.mem_append_left _ hn

/-- An offset that no node has is hung below a leaf. -/
theorem zswapRbLink_of_not_mem (h : offset ∉ t.inorder) :
    zswapRbLink offset t = some (link id offset t) := by
  induction t with
  | nil => rfl
  | node l my r ihl ihr =>
    simp only [BinTree.inorder_node, List.mem_append, List.mem_cons, not_or] at h
    obtain ⟨hl, hmy, hr⟩ := h
    rw [zswapRbLink, link, ihl hl, ihr hr, id, id]
    rcases lt_or_gt_of_ne hmy with hlt | hgt
    · rw [if_pos hlt, if_pos hlt]
      rfl
    · rw [if_neg (not_lt.mpr hgt.le), if_pos hgt, if_neg (not_lt.mpr hgt.le)]
      rfl

/-- A new offset is accepted and found at its place in the order. -/
theorem zswapRbInsert_spec (hk : env.KeepsOrder) (hs : Sorted id root.inorder)
    (h : offset ∉ root.inorder) :
    ∃ t, zswapRbInsert env offset root = (0, t) ∧ Sorted id t.inorder ∧
      t.inorder.Perm (offset :: root.inorder) := by
  refine ⟨env.rbInsertColor offset (link id offset root), ?_, ?_, ?_⟩
  · rw [zswapRbInsert, zswapRbLink_of_not_mem h]
  · rw [hk.insertColor]
    exact sorted_link offset root hs
  · rw [hk.insertColor]
    exact inorder_link offset root

/-- In a sorted tree the search finds an offset exactly where some node has it. -/
theorem zswapRbSearch_eq (hs : Sorted id t.inorder) :
    zswapRbSearch offset t = if offset ∈ t.inorder then some offset else none := by
  induction t with
  | nil => rfl
  | node l my r ihl ihr =>
    obtain ⟨hl, hr, hlmy, hmyr, -⟩ := sorted_append_cons.mp hs
    rw [zswapRbSearch]
    rcases lt_trichotomy my offset with hlt | rfl | hgt
    · -- the left side has smaller offsets only
      have hiff : offset ∈ (BinTree.node l my r).inorder ↔ offset ∈ r.inorder := by
        have hnl : offset ∉ l.inorder := fun h => absurd (hlmy offset h) (not_le.mpr hlt)
        simp [hnl, hlt.ne']
      rw [if_neg (not_lt.mpr hlt.le), if_pos hlt, ihr hr]
      simp only [hiff]
    · simp
    · have hiff : offset ∈ (BinTree.node l my r).inorder ↔ offset ∈ l.inorder := by
        have hnr : offset ∉ r.inorder := fun h => absurd (hmyr offset h) (not_le.mpr hgt)
        simp [hnr, hgt.ne]
      rw [if_pos hgt, ihl hl]
      simp only [hiff]

end LkpProjects.Driver
