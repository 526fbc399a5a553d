import LkpProjects.Driver.RbTree

/-! # The removal sweep

As long as each retry loop ends, the first loop of `RBtree` gives a tree with one node for each of
`dstruct_size` different numbers. The second loop goes through all offsets below `2 * dstruct_size`, in
ranges of `dstruct_size / 2`, and empties the tree. With one node the range is empty and the loop stays
at offset 0.
-/
namespace LkpProjects.Driver
open WeightedTree
set_option autoImplicit false

variable {env : Kernel} {gl : Globals} {ds range : ℕ} {draws : ℕ → ℤ} {tries rounds : ℕ} {s s' : Locals}

/-! ## The insertions -/

/-- After `k` rounds of the first loop. -/
structure Inserted (ds k : ℕ) (s : Locals) : Prop where
  drawn : s.nums.length = k
  distinct : s.nums.Nodup
  bounds : ∀ n ∈ s.nums, 0 ≤ n ∧ n < ds * 2
  arry : s.arry = s.nums ++ List.replicate (ds + 1 - k) (-1)
  rets : s.rets = List.replicate k 0
  sorted : Sorted id s.rbroot.inorder
  nodes : s.rbroot.inorder.Perm s.nums
  removed : s.removed = []

theorem Inserted.start (ds : ℕ) : Inserted ds 0 ⟨List.replicate (ds + 1) (-1), 0, .nil, [], [], []⟩ where
  drawn := rfl
  distinct := List.nodup_nil
  bounds _ h := absurd h List.not_mem_nil
  arry := rfl
  rets := rfl
  sorted := List.Pairwise.nil
  nodes := .refl _
  removed := rfl

/-- A number that is drawn and inserted. -/
theorem Inserted.step (hk : env.KeepsOrder) {k : ℕ} (hI : Inserted ds k s) {n : ℤ} (hnew : n ∉ s.nums)
    (hn : 0 ≤ n ∧ n < ds * 2) (pos : ℕ) :
    ∃ root, zswapRbInsert env n s.rbroot = (0, root) ∧
      Inserted ds (k + 1) { s with
        arry := s.nums ++ n :: List.replicate (ds - k) (-1), pos := pos, rbroot := root,
        nums := s.nums ++ [n], rets := s.rets ++ [0] } := by
  have hnot : n ∉ s.rbroot.inorder := fun h => hnew (hI.nodes.mem_iff.mp h)
  obtain ⟨root, hroot, hsorted, hperm⟩ := zswapRbInsert_spec hk hI.sorted hnot
  refine ⟨root, hroot, ?_⟩
  constructor
  · simp [hI.drawn]
  · exact List.nodup_append.mpr ⟨hI.distinct, List.nodup_singleton n, fun a ha b hb => by
      rw [List.mem_singleton.mp hb]
      exact fun h => hnew (h ▸ ha)⟩
  · intro m hm
    rcases List.mem_append.mp hm with hm | hm
    · exact hI.bounds m hm
    · rw [List.mem_singleton.mp hm]
      exact hn
  · rw [Nat.add_sub_add_right, List.append_assoc]
    rfl
  · rw [hI.rets, List.replicate_succ']
  · exact hsorted
  · exact hperm.trans ((hI.nodes.cons n).trans (List.perm_append_singleton n s.nums).symm)
  · exact hI.removed

/-- What the first loop can end with: the rounds it was given for a retry do not suffice, or all numbers
are inserted, or a node got no memory. -/
theorem insertLoop_cases (hk : env.KeepsOrder) (hds : 1 ≤ ds) : ∀ {rest k : ℕ} {s : Locals},
    k + rest = ds → Inserted ds k s →
      insertLoop env ds draws tries rest k s = .error .outOfFuel ∨
      (∃ s', insertLoop env ds draws tries rest k s = .ok (none, s') ∧ Inserted ds ds s' ∧
        ∀ i, k ≤ i → i < ds → env.kmallocEntry i = true) ∨
      ∃ s' i, insertLoop env ds draws tries rest k s = .ok (some (-1), s') ∧
        i < ds ∧ env.kmallocEntry i = false
  | 0, k, s, hrest, hI => by
    obtain rfl : k = ds := by omega
    exact .inr (.inl ⟨s, rfl, hI, fun i _ _ => by omega⟩)
  | rest + 1, k, s, hrest, hI => by
    have harry : s.arry = s.nums ++ List.replicate (ds + 1 - s.nums.length) (-1) := by
      rw [hI.drawn]
      exact hI.arry
    have hfree : s.nums.length ≤ ds := by
      rw [hI.drawn]
      omega
    rw [insertLoop]
    rcases @getIndependantNum_spec ds draws tries s.pos _ hds _ (fun m hm => (hI.bounds m hm).1) hfree
      harry with hnum | ⟨n, pos, hnum, hnew, h0, hlt⟩
    · rw [hnum]
      exact .inl rfl
    · rw [hnum, hI.drawn]
      simp only [if_neg (not_lt.mpr h0)]
      cases hm : env.kmallocEntry k with
      | false => exact .inr (.inr ⟨_, k, rfl, by omega, hm⟩)
      | true =>
        obtain ⟨root, hroot, hI'⟩ := hI.step hk hnew ⟨h0, hlt⟩ pos
        simp only [hroot, Bool.true_eq_false, if_false]
        have hcount : k + 1 + rest = ds := by omega
        rcases insertLoop_cases hk hds hcount hI' with h | ⟨s', h, hs', hall⟩ | h
        · exact .inl h
        · refine .inr (.inl ⟨s', h, hs', fun i hki hi => ?_⟩)
          rcases Nat.eq_or_lt_of_le hki with rfl | hki
          · exact hm
          · exact hall i hki hi
        · exact .inr (.inr h)

/-! ## The sweep -/

/-- The offsets below `m` are swept. -/
structure Swept (nums : List ℤ) (m : ℕ) (s : Locals) : Prop where
  sorted : Sorted id s.rbroot.inorder
  nodes : (s.removed ++ s.rbroot.inorder).Perm nums
  left : ∀ n ∈ s.rbroot.inorder, (m : ℤ) ≤ n

theorem Inserted.swept (hI : Inserted ds ds s) : Swept s.nums 0 s where
  sorted := hI.sorted
  nodes := by
    rw [hI.removed]
    exact hI.nodes
  left n hn := (hI.bounds n (hI.nodes.mem_iff.mp hn)).1

/-- What the sweep never writes. -/
structure SameDraws (s s' : Locals) : Prop where
  nums : s'.nums = s.nums
  rets : s'.rets = s.rets

theorem SameDraws.refl (s : Locals) : SameDraws s s := ⟨rfl, rfl⟩

theorem SameDraws.trans {s₁ s₂ s₃ : Locals} (h : SameDraws s₁ s₂) (h' : SameDraws s₂ s₃) :
    SameDraws s₁ s₃ := ⟨h'.nums.trans h.nums, h'.rets.trans h.rets⟩

theorem sweepRange_swept (hk : env.KeepsOrder) {nums : List ℤ} (hn : nums.Nodup) :
    ∀ {rest j : ℕ} {s : Locals}, Swept nums j s →
      Swept nums (j + rest) (sweepRange env rest j s) ∧ SameDraws s (sweepRange env rest j s)
  | 0, _, s, hS => ⟨hS, .refl s⟩
  | rest + 1, j, s, hS => by
    have hdiff : s.rbroot.inorder.Nodup := (List.nodup_append.mp (hS.nodes.nodup_iff.mpr hn)).2.1
    rw [sweepRange, zswapRbSearch_eq hS.sorted, ← Nat.add_assoc, Nat.add_right_comm]
    by_cases hj : (j : ℤ) ∈ s.rbroot.inorder
    · simp only [if_pos hj]
      have hS' : Swept nums (j + 1) { s with
          rbroot := env.rbErase j s.rbroot, removed := s.removed ++ [(j : ℤ)] } := by
        refine ⟨?_, ?_, fun n hn => ?_⟩
        · rw [hk.erase]
          exact hS.sorted.sublist List.erase_sublist
        · rw [hk.erase, List.append_assoc]
          exact ((List.perm_cons_erase hj).symm.append_left _).trans hS.nodes
        · rw [hk.erase, hdiff.mem_erase_iff] at hn
          have hle := hS.left n hn.2
          have hne := hn.1
          omega
      obtain ⟨h, hd⟩ : Swept nums (j + 1 + rest) _ ∧ SameDraws _ _ := sweepRange_swept hk hn hS'
      exact ⟨h, hd.nums, hd.rets⟩
    · simp only [if_neg hj]
      refine sweepRange_swept hk hn ⟨hS.sorted, hS.nodes, fun n hn => ?_⟩
      have hle := hS.left n hn
      have hne : n ≠ j := fun h => hj (h ▸ hn)
      omega

/-- With a range of at least one offset, one round more than there are offsets left suffices. -/
theorem sweep_swept (hk : env.KeepsOrder) (hrange : 1 ≤ range) {nums : List ℤ} (hn : nums.Nodup) :
    ∀ {rounds i : ℕ} {s : Locals}, Swept nums i s → ds * 2 - i < rounds →
      ∃ s' m, sweep env ds range rounds i s = .ok s' ∧ ds * 2 ≤ m ∧ Swept nums m s' ∧ SameDraws s s'
  | 0, _, _, _, hlt => absurd hlt (Nat.not_lt_zero _)
  | rounds + 1, i, s, hS, hlt => by
    rw [sweep]
    split
    · obtain ⟨hS', hd⟩ : Swept nums (i + range) _ ∧ SameDraws _ _ := sweepRange_swept hk hn hS
      have hleft : ds * 2 - (i + range) < rounds := by omega
      obtain ⟨s', m, he, hm, hs', hd'⟩ := sweep_swept hk hrange hn hS' hleft
      exact ⟨s', m, he, hm, hs', hd.trans hd'⟩
    · next hge => exact ⟨s, i, rfl, by omega, hS, .refl s⟩

/-- With an empty range no round gets past its own offset. -/
theorem sweep_stuck : ∀ {rounds i : ℕ} {s : Locals}, i < ds * 2 →
    sweep env ds 0 rounds i s = .error .outOfFuel
  | 0, _, _, _ => rfl
  | rounds + 1, i, s, hlt => by
    rw [sweep, if_pos hlt]
    exact sweep_stuck hlt

/-! ## The whole run -/

/-- Each retry loop of the run ends with a number that is not used yet. -/
def RetriesEnd (env : Kernel) (gl : Globals) (draws : ℕ → ℤ) : Prop :=
  ∃ tries, insertAll env gl draws tries ≠ .error .outOfFuel

/-- A run that did its work: all numbers drawn and inserted, every node removed once, nothing left. -/
structure RbTreeOk (ds : ℕ) (code : ℤ) (s : Locals) : Prop where
  code : code = 0
  drawn : s.nums.length = ds
  distinct : s.nums.Nodup
  bounds : ∀ n ∈ s.nums, 0 ≤ n ∧ n ≤ 2 * ds - 1
  inserted : s.rets = List.replicate ds 0
  removed : s.removed.Perm s.nums
  empty : s.rbroot = .nil

theorem eq_nil_of_inorder {t : BinTree ℤ} (h : t.inorder = []) : t = .nil := by
  cases t with
  | nil => rfl
  | node l x r => simp at h

/-- A sweep that is through leaves an empty tree. -/
theorem Swept.empty {m : ℕ} (hS : Swept s.nums m s) (hI : ∀ n ∈ s.nums, n < ds * 2) (hm : ds * 2 ≤ m) :
    s.rbroot = .nil ∧ s.removed.Perm s.nums := by
  have hnil : s.rbroot.inorder = [] := by
    refine List.eq_nil_iff_forall_not_mem.mpr fun n hn => ?_
    have hle := hS.left n hn
    have hlt := hI n (hS.nodes.mem_iff.mp (List.mem_append_right _ hn))
    omega
  have hperm := hS.nodes
  rw [hnil, List.append_nil] at hperm
  exact ⟨eq_nil_of_inorder hnil, hperm⟩

theorem insertAll_cases (draws : ℕ → ℤ) (tries : ℕ) (hk : env.KeepsOrder) {dstructSize : ℤ}
    (hgl : lkpInit env dstructSize = some gl) :
    insertAll env gl draws tries = .error .outOfFuel ∨
    (∃ s', insertAll env gl draws tries = .ok (none, s') ∧ Inserted gl.dstructSize gl.dstructSize s' ∧
      ∀ i < gl.dstructSize, env.kmallocEntry i = true) ∨
    ∃ s' i, insertAll env gl draws tries = .ok (some (-1), s') ∧
      i < gl.dstructSize ∧ env.kmallocEntry i = false := by
  obtain ⟨hds, -, -, harry, -⟩ := lkpInit_eq_some hgl
  have h := @insertLoop_cases env _ draws tries hk hds _ _ _ (Nat.zero_add _)
    (Inserted.start gl.dstructSize)
  rw [insertAll, harry]
  simpa only [Nat.zero_le, true_implies] using h

/-- Exactly the sizes from 2 on, where every node gets its memory, have a run that does its work. -/
theorem removal_sweep_iff (hk : env.KeepsOrder) {dstructSize : ℤ}
    (hgl : lkpInit env dstructSize = some gl) (hr : RetriesEnd env gl draws) :
    (∃ tries rounds code s, rbTree env gl draws tries rounds = .ok (code, s) ∧
      RbTreeOk gl.dstructSize code s) ↔
      2 ≤ dstructSize ∧ ∀ i < gl.dstructSize, env.kmallocEntry i = true := by
  obtain ⟨hds, hcast, hrange, -, -⟩ := lkpInit_eq_some hgl
  constructor
  · rintro ⟨tries, rounds, code, s, he, hok⟩
    rw [rbTree] at he
    rcases insertAll_cases draws tries hk hgl with h | ⟨s', h, -, hall⟩ | ⟨s', i, h, -⟩
    · rw [h] at he
      cases he
    · refine ⟨?_, hall⟩
      by_contra hsmall
      have hzero : gl.range = 0 := by omega
      rw [h, hzero] at he
      simp only [sweep_stuck (s := s') (show 0 < gl.dstructSize * 2 by omega)] at he
      cases he
    · rw [h] at he
      obtain ⟨rfl, -⟩ := Prod.mk.inj (Except.ok.inj he)
      exact absurd hok.code (by decide)
  · rintro ⟨htwo, hall⟩
    obtain ⟨tries, htries⟩ := hr
    rcases insertAll_cases draws tries hk hgl with h | ⟨s', h, hI, -⟩ | ⟨s', i, -, hi, hno⟩
    · exact absurd h htries
    · obtain ⟨s, m, he, hm, hS, hd⟩ := sweep_swept hk (show 1 ≤ gl.range by omega)
        hI.distinct hI.swept (Nat.lt_succ_self (gl.dstructSize * 2 - 0))
      rw [← hd.nums] at hS
      have hb : ∀ n ∈ s.nums, 0 ≤ n ∧ n < gl.dstructSize * 2 := by
        rw [hd.nums]
        exact hI.bounds
      obtain ⟨hempty, hperm⟩ := hS.empty (fun n hn => (hb n hn).2) hm
      refine ⟨tries, gl.dstructSize * 2 - 0 + 1, 0, s, ?_, rfl, ?_, ?_, fun n hn => ?_, ?_, hperm, hempty⟩
      · rw [rbTree, h]
        simp only [he]
      · rw [hd.nums]
        exact hI.drawn
      · rw [hd.nums]
        exact hI.distinct
      · have hn := hb n hn
        omega
      · rw [hd.rets]
        exact hI.rets
    · rw [hall i hi] at hno
      cases hno

/-- The nodes in order, each the right child of the one before. -/
def spine : List ℤ → BinTree ℤ
  | [] => .nil
  | x :: xs => .node .nil x (spine xs)

theorem inorder_spine : ∀ xs, (spine xs).inorder = xs
  | [] => rfl
  | x :: xs => congrArg (x :: ·) (inorder_spine xs)

/-- A kernel with memory for everything that keeps small trees in a row. -/
def Kernel.plain : Kernel where
  kmalloc n := decide (n ≤ 2 ^ 25)
  kmallocEntry _ := true
  rbInsertColor _ t := t
  rbErase k t := spine (t.inorder.erase k)
  kmalloc_le _ h := of_decide_eq_true h

theorem Kernel.plain_keepsOrder : Kernel.plain.KeepsOrder :=
  ⟨fun _ _ => rfl, fun _ _ => inorder_spine _⟩

theorem Kernel.plain_retriesEnd (gl : Globals) {r : Option ℤ × Locals}
    (h : insertAll .plain gl (fun i => i) 1 = .ok r) : RetriesEnd .plain gl fun i => i :=
  ⟨1, by rw [h]; exact fun h => nomatch h⟩

theorem removal_sweep_iff_two : ∃ gl, lkpInit .plain 2 = some gl ∧
    ∃ tries rounds code s, rbTree .plain gl (fun i => i) tries rounds = .ok (code, s) ∧
      RbTreeOk 2 code s :=
  ⟨⟨2, 1, [-1, -1, -1]⟩, rfl, (removal_sweep_iff Kernel.plain_keepsOrder rfl
    (Kernel.plain_retriesEnd _ rfl)).mpr ⟨le_rfl, fun _ _ => rfl⟩⟩

/-- A single node is accepted and inserted, and then the sweep never ends. -/
theorem single_node_never_swept : ∃ gl, lkpInit .plain 1 = some gl ∧ Kernel.plain.KeepsOrder ∧
    RetriesEnd .plain gl (fun i => i) ∧
      ∀ tries rounds code s, rbTree .plain gl (fun i => i) tries rounds ≠ .ok (code, s) := by
  refine ⟨⟨1, 0, [-1, -1]⟩, rfl, Kernel.plain_keepsOrder, Kernel.plain_retriesEnd _ rfl, ?_⟩
  intro tries rounds code s he
  rw [rbTree] at he
  rcases @insertAll_cases .plain ⟨1, 0, [-1, -1]⟩ (fun i => i) tries Kernel.plain_keepsOrder 1 rfl with
    h | ⟨s', h, -⟩ | ⟨s', i, -, -, hno⟩
  · rw [h] at he
    cases he
  · rw [h] at he
    simp only [sweep_stuck (s := s') (show 0 < 1 * 2 by decide)] at he
    cases he
  · cases hno

end LkpProjects.Driver
