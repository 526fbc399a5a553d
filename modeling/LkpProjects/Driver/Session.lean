import LkpProjects.Driver.Ledger

/-! # A whole load of the driver

The nodes of the tree are the last blocks of a load, and the sweep frees each of them through the search that finds
it. A load that returns 0 leaves the array, the cars of the queue and the map itself; the unload frees the array.
-/
namespace LkpProjects.Driver
open Hoare Heaps WeightedTree
set_option autoImplicit false

variable {sv : Services} {ds asked pos tries rounds : ℕ} {draws : ℕ → ℤ} {out : List ℕ} {log : List Line}
  {m : Machine} {env : Kernel} {block : ℤ → Option ℕ} {s : Locals}

theorem Stage.perm {out' : List ℕ} (hS : Stage sv ds asked out pos log m) (hp : out.Perm out') :
    Stage sv ds asked out' pos log m := ⟨hS.granted, hS.out.perm hp, hS.arry, hS.pos, hS.log⟩

/-! ## The insertions -/

/-- After `k` rounds of the first loop, whose numbers have the blocks from the first one of the tree on. -/
structure Built (ds k : ℕ) (s : Locals) (block : ℤ → Option ℕ) : Prop where
  inserted : Inserted ds k s
  block : s.nums.map block = (List.range' (Site.tree.first ds) k).map some

/-- The loop does what `insertLoop` does. -/
theorem wp_insertNodes (hk : env.KeepsOrder) (hds : 1 ≤ ds)
    (hentry : ∀ i, env.kmallocEntry i = sv.grant (Site.tree.first ds + i) (Site.tree.size sv ds)) :
    ∀ {rest k : ℕ} {s : Locals} {block : ℤ → Option ℕ} {m : Machine}, k + rest = ds → Built ds k s block →
      Stage sv ds (Site.tree.first ds + k) (Site.tree.held ds k) pos log m →
        wp (insertNodes sv ds draws env tries rest s block)
          (fun r m' => (∃ s' block, r = (none, s', block) ∧ insertLoop env ds draws tries rest k s = .ok (none, s') ∧
              Built ds ds s' block ∧ Stage sv ds (Site.tree.first ds + ds) (Site.tree.held ds ds) pos log m') ∨
            ∃ code s block, r = (some code, s, block) ∧ Stopped sv ds code m') OnlyFuel m := by
  intro rest
  induction rest with
  | zero =>
    intro k s block m hrest hB hS
    obtain rfl : k = ds := by omega
    exact .inl ⟨s, block, rfl, rfl, hB, hS⟩
  | succ rest ih =>
    intro k s block m hrest hB hS
    have hI := hB.inserted
    have harry : s.arry = s.nums ++ List.replicate (ds + 1 - s.nums.length) (-1) := by
      rw [hI.drawn]
      exact hI.arry
    have hfree : s.nums.length ≤ ds := by
      rw [hI.drawn]
      omega
    rw [insertNodes]
    obtain hnum | ⟨n, pos', hnum, hnew, h0, hlt⟩ :=
      @getIndependantNum_spec ds draws tries s.pos _ hds _ (fun m hm => (hI.bounds m hm).1) hfree harry
    · rw [hnum]
      exact rfl
    · have hk' : k < ds := by omega
      rw [hnum, hI.drawn]
      dsimp only
      rw [if_neg (not_lt.mpr h0)]
      refine (wp_kmalloc (s := .tree) hS hk').bind fun b m₁ h => ?_
      obtain ⟨rfl, hS₁⟩ | ⟨rfl, hno⟩ := h
      · obtain ⟨root, hroot, hI'⟩ := hI.step hk hnew ⟨h0, hlt⟩ pos'
        have hgrant : env.kmallocEntry k = true := by
          rw [hentry]
          exact hS₁.granted .tree k hk' (Nat.lt_succ_self _)
        have hround : insertLoop env ds draws tries (rest + 1) k s = insertLoop env ds draws tries rest (k + 1) { s with
            arry := s.nums ++ n :: List.replicate (ds - k) (-1), pos := pos', rbroot := root,
            nums := s.nums ++ [n], rets := s.rets ++ [0] } := by
          rw [insertLoop, hnum, hI.drawn]
          simp only [if_neg (not_lt.mpr h0), hgrant, Bool.true_eq_false, if_false, hroot]
        simp only [hroot, if_true]
        rw [hround]
        refine ih (by omega) ⟨hI', ?_⟩ hS₁
        have hold : s.nums.map (Function.update block n (some (Site.tree.first ds + k))) = s.nums.map block :=
          List.map_congr_left fun o ho => Function.update_of_ne (fun heq : o = n => hnew (heq ▸ ho)) _ _
        rw [List.map_append, hold, hB.block, List.range'_concat, Nat.one_mul, List.map_append]
        simp
      · exact .inr ⟨_, _, _, rfl, hno.stopped⟩

/-! ## The sweep -/

/-- The blocks of the nodes of a tree. -/
def nodeBlocks (block : ℤ → Option ℕ) (t : BinTree ℤ) : List ℕ := t.inorder.filterMap block

/-- Every node has a block, and beside these only the blocks `out` are out. -/
structure Hung (sv : Services) (ds asked : ℕ) (out : List ℕ) (pos : ℕ) (log : List Line) (block : ℤ → Option ℕ)
    (s : Locals) (m : Machine) : Prop where
  node : ∀ o ∈ s.rbroot.inorder, ∃ b, block o = some b
  stage : Stage sv ds asked (out ++ nodeBlocks block s.rbroot) pos log m

/-- What the search finds is a node with that offset. -/
theorem zswapRbSearch_some {offset x : ℤ} {t : BinTree ℤ} (h : zswapRbSearch offset t = some x) :
    x = offset ∧ offset ∈ t.inorder := by
  induction t with
  | nil => cases h
  | node l my r ihl ihr =>
    rw [zswapRbSearch] at h
    rw [BinTree.inorder_node]
    split at h
    · exact ⟨(ihl h).1, List.mem_append_left _ (ihl h).2⟩
    · split at h
      · exact ⟨(ihr h).1, List.mem_append_right _ (List.mem_cons_of_mem _ (ihr h).2)⟩
      · obtain rfl := Option.some.inj h
        obtain rfl : my = offset := by omega
        exact ⟨rfl, List.mem_append_right _ List.mem_cons_self⟩

theorem wp_sweepNodesRange (hk : env.KeepsOrder) : ∀ {rest j : ℕ} {s : Locals} {m : Machine},
    Hung sv ds asked out pos log block s m → wp (sweepNodesRange env block rest j s)
      (fun s' m' => s' = sweepRange env rest j s ∧ Hung sv ds asked out pos log block s' m') OnlyFuel m := by
  intro rest
  induction rest with
  | zero => exact fun hH => ⟨rfl, hH⟩
  | succ rest ih =>
    intro j s m hH
    rw [sweepNodesRange, sweepRange]
    cases hsearch : zswapRbSearch j s.rbroot with
    | none => exact ih hH
    | some offset =>
      obtain ⟨rfl, hmem⟩ := zswapRbSearch_some hsearch
      obtain ⟨b, hb⟩ := hH.node _ hmem
      have hblocks : (nodeBlocks block s.rbroot).Perm (b :: nodeBlocks block (env.rbErase j s.rbroot)) := by
        have hperm := (List.perm_cons_erase hmem).filterMap block
        rw [List.filterMap_cons_some hb] at hperm
        rw [nodeBlocks, nodeBlocks, hk.erase]
        exact hperm
      simp only [hb]
      refine (wp_kfree (hH.stage.perm (hblocks.append_left out))).bind fun _ m₁ hS₁ => ih ⟨fun o ho => ?_, hS₁⟩
      rw [hk.erase] at ho
      exact hH.node o (List.mem_of_mem_erase ho)

theorem wp_sweepNodes (hk : env.KeepsOrder) {range : ℕ} : ∀ {rounds i : ℕ} {s : Locals} {m : Machine},
    Hung sv ds asked out pos log block s m → wp (sweepNodes ds env range block rounds i s)
      (fun s' m' => sweep env ds range rounds i s = .ok s' ∧ Hung sv ds asked out pos log block s' m') OnlyFuel m := by
  intro rounds
  induction rounds with
  | zero => exact fun _ => rfl
  | succ rounds ih =>
    intro i s m hH
    rw [sweepNodes, sweep]
    split
    · refine (wp_sweepNodesRange hk hH).bind fun s₁ m₁ h => ?_
      obtain ⟨rfl, hH₁⟩ := h
      exact ih hH₁
    · exact ⟨rfl, hH⟩

/-- A sweep that comes to its end is through with all offsets. -/
theorem sweep_through (hk : env.KeepsOrder) {range : ℕ} {nums : List ℤ} (hn : nums.Nodup) :
    ∀ {rounds i : ℕ} {s s' : Locals}, Swept nums i s → sweep env ds range rounds i s = .ok s' →
      ∃ j, ds * 2 ≤ j ∧ Swept nums j s' ∧ SameDraws s s' := by
  intro rounds
  induction rounds with
  | zero =>
    intro i s s' _ he
    cases he
  | succ rounds ih =>
    intro i s s' hS he
    rw [sweep] at he
    split at he
    · obtain ⟨hS₁, hd⟩ := sweepRange_swept hk hn hS
      obtain ⟨j, hj, hS', hd'⟩ := ih hS₁ he
      exact ⟨j, hj, hS', hd.trans hd'⟩
    · next hge =>
      obtain rfl := Except.ok.inj he
      exact ⟨i, by omega, hS, .refl s⟩

theorem Built.hung {k : ℕ} (hB : Built ds k s block)
    (hS : Stage sv ds asked (out ++ List.range' (Site.tree.first ds) k) pos log m) :
    Hung sv ds asked out pos log block s m := by
  have hperm := hB.inserted.nodes.filterMap block
  have hnums : s.nums.filterMap block = List.range' (Site.tree.first ds) k := by
    have hid := congrArg (List.filterMap id) hB.block
    rw [List.filterMap_map, List.filterMap_map] at hid
    simpa using hid
  rw [hnums] at hperm
  refine ⟨fun o ho => ?_, hS.perm (hperm.symm.append_left out)⟩
  have hmem : block o ∈ s.nums.map block := List.mem_map_of_mem (hB.inserted.nodes.mem_iff.mp ho)
  rw [hB.block] at hmem
  obtain ⟨b, -, hb⟩ := List.mem_map.mp hmem
  exact ⟨b, hb.symm⟩

/-- The sweep of all nodes leaves none. -/
theorem Inserted.swept_ok (hk : env.KeepsOrder) (hI : Inserted ds ds s) {range : ℕ} {s' : Locals}
    (he : sweep env ds range rounds 0 s = .ok s') : RbTreeOk ds 0 s' := by
  obtain ⟨j, hj, hS, hd⟩ := sweep_through hk hI.distinct hI.swept he
  rw [← hd.nums] at hS
  have hb : ∀ n ∈ s'.nums, 0 ≤ n ∧ n < ds * 2 := by
    rw [hd.nums]
    exact hI.bounds
  obtain ⟨hempty, hperm⟩ := hS.empty (fun n hn => (hb n hn).2) hj
  refine ⟨rfl, ?_, ?_, fun n hn => ?_, ?_, hperm, hempty⟩
  · rw [hd.nums]
    exact hI.drawn
  · rw [hd.nums]
    exact hI.distinct
  · have hn := hb n hn
    omega
  · rw [hd.rets]
    exact hI.rets

/-- The tree is a run of `rbTree` on the draws that are left. -/
def TreeRun (sv : Services) (ds : ℕ) (draws : ℕ → ℤ) (pos tries rounds : ℕ) : Prop :=
  ∃ s, rbTree (sv.kernel (Site.tree.first ds)) ⟨ds, ds / 2, List.replicate (ds + 1) (-1)⟩ (fun i => draws (pos + i))
    tries rounds = .ok (0, s) ∧ RbTreeOk ds 0 s

theorem rbTreeNodes_spec (hsv : sv.Lawful) (hds : 1 ≤ ds)
    (hS : Stage sv ds (Site.tree.first ds) (Site.tree.before ds) pos log m) :
    wp (rbTreeNodes sv draws ⟨ds, ds / 2, List.replicate (ds + 1) (-1)⟩ tries rounds) (Ends sv ds fun m' =>
      TreeRun sv ds draws pos tries rounds ∧
        Stage sv ds (Site.tree.first ds + ds) (Site.tree.before ds) pos log m') OnlyFuel m := by
  have hk := hsv.keepsOrder (Site.tree.first ds)
  have hstart : Built ds 0 ⟨List.replicate (ds + 1) (-1), 0, .nil, [], [], []⟩ fun _ => none := ⟨.start ds, rfl⟩
  have hasked := hS.out.asked
  have hpos := hS.pos
  rw [← Site.held_zero] at hS
  rw [rbTreeNodes]
  refine wp_bind.mpr (wp_get.mpr ?_)
  dsimp only
  rw [hasked, hpos]
  refine (wp_insertNodes hk hds (fun _ => rfl) (Nat.zero_add ds) hstart hS).bind fun r m₁ h => ?_
  obtain ⟨s, block, rfl, hinsert, hB, hS₁⟩ | ⟨code, s, block, rfl, hstop⟩ := h
  · refine (wp_sweepNodes hk (hB.hung hS₁)).bind fun s' m₂ h => ?_
    obtain ⟨hsweep, hH⟩ := h
    have hok := hB.inserted.swept_ok hk hsweep
    have hend := hH.stage
    rw [nodeBlocks, hok.empty, BinTree.inorder_nil, List.filterMap_nil, List.append_nil] at hend
    refine .inl ⟨rfl, ⟨s', ?_, hok⟩, hend⟩
    rw [rbTree, insertAll, hinsert]
    simp only [hsweep]
  · exact .inr hstop

/-! ## The load -/

/-- All a load prints before the tree, with the ids that the map gave. -/
def loadLines (ds : ℕ) (draws : ℕ → ℤ) (ids : List ℤ) : List Line :=
  carLines (cars draws 0 ds) ++ carLines (cars draws ds ds) ++ carLines (cars draws (2 * ds) ds) ++
    mappedLines ids (cars draws (3 * ds) ds) ++ goneLines 0 ids

/-- After a load that returned 0. -/
structure Loaded (sv : Services) (ds : ℕ) (draws : ℕ → ℤ) (tries rounds : ℕ) (m : Machine) : Prop where
  fits : Fits sv ds
  tree : TreeRun sv ds draws (4 * ds) tries rounds
  stage : ∃ ids, Ids ds ds ids ∧
    Stage sv ds (Site.tree.first ds + ds) (Site.tree.before ds) (4 * ds) (loadLines ds draws ids) m

theorem runAll_spec (hsv : sv.Lawful) (hds : 1 ≤ ds)
    (hS : Stage sv ds (Site.list.first ds) (Site.list.before ds) 0 [] m) :
    wp (runAll sv ds draws ⟨ds, ds / 2, List.replicate (ds + 1) (-1)⟩ tries rounds)
      (Ends sv ds (Loaded sv ds draws tries rounds)) OnlyFuel m := by
  refine wp_orReturn (linkedList_spec hds hS) fun m₁ hS₁ => (linkedList1_spec hS₁).bind fun r m₂ h => ?_
  obtain ⟨err, l⟩ := r
  refine wp_orReturn (wp_pure.mpr h) fun m₃ h₃ => ?_
  obtain ⟨hl, hS₃⟩ := h₃
  obtain rfl : l = blocks draws (Site.list1.first ds) (0 + ds) ds := hl
  refine wp_orReturn (linkedList2_spec hds hS₃) fun m₄ hS₄ => ?_
  refine wp_orReturn (linkedList3_spec hds hS₄) fun m₅ hS₅ => ?_
  refine wp_orReturn (queue_spec hS₅) fun m₆ h₆ => ?_
  obtain ⟨hfits, hS₆⟩ := h₆
  refine wp_orReturn (map_spec hsv hS₆) fun m₇ h₇ => ?_
  obtain ⟨ids, hI, hS₇⟩ := h₇
  refine (rbTreeNodes_spec hsv hds hS₇).post fun code m' h => ?_
  obtain ⟨rfl, htree, hS'⟩ | hstop := h
  · have h₂ : 0 + ds + ds = 2 * ds := by omega
    have h₃ : 2 * ds + ds = 3 * ds := by omega
    have h₄ : 3 * ds + ds = 4 * ds := by omega
    rw [h₂, h₃, h₄] at htree
    rw [h₂, h₃, h₄, Nat.zero_add] at hS'
    exact .inl ⟨rfl, hfits, htree, ids, hI, hS'⟩
  · exact .inr hstop

/-- How a load of the module may end: its code, the requests it made and the blocks that are out. -/
inductive Outcome (sv : Services) (n : ℤ) : ℤ → ℕ → List ℕ → Prop
  | tooSmall (h : n < 1) : Outcome sv n (-1) 0 []
  | stopped {code : ℤ} {asked : ℕ} {out : List ℕ} (h : 1 ≤ n) (hcause : Cause sv n.toNat code asked out) :
      Outcome sv n code asked out
  | done (h : 1 ≤ n) (hgranted : Granted sv n.toNat (3 + 5 * n.toNat)) (hfits : Fits sv n.toNat) :
      Outcome sv n 0 (3 + 5 * n.toNat) (0 :: List.range' (2 + 2 * n.toNat) (n.toNat + 1))

/-- The cars of each container are printed with the numbers drawn for them and in the order in which they were made,
those of the map under different ids, of which none is found afterwards; and the tree gives back each offset once. -/
structure GivesBack (sv : Services) (ds : ℕ) (draws : ℕ → ℤ) (tries rounds : ℕ) (log : List Line) : Prop where
  lines : ∃ ids, Ids ds ds ids ∧ log = loadLines ds draws ids
  tree : TreeRun sv ds draws (4 * ds) tries rounds

/-- What a load leaves, and that a load that is not undone leaves the array. -/
structure LoadEnd (sv : Services) (n : ℤ) (draws : ℕ → ℤ) (tries rounds : ℕ) (code : ℤ) (m : Machine) : Prop where
  outcome : ∃ out, Outcome sv n code m.heap.asked out ∧ m.heap.live.Perm out ∧ (0 ≤ code → ∃ rest, out = 0 :: rest)
  arry : 0 ≤ code → m.randIntArry = some 0
  log : code = 0 → GivesBack sv n.toNat draws tries rounds m.log

theorem Cause.head {code : ℤ} (h : Cause sv ds code asked out) (hcode : 0 ≤ code) : ∃ rest, out = 0 :: rest := by
  cases h with
  | refused => exact absurd hcode (by decide)
  | kfifoInit => exact ⟨_, rfl⟩
  | full => exact ⟨_, rfl⟩
  | cut => exact ⟨_, rfl⟩
  | idr => exact absurd hcode (by decide)

theorem wp_kmalloc_boot (size : ℕ) : wp (kmalloc sv size)
    (fun b m => (b = some 0 ∧ sv.grant 0 size = true ∧ Out m.heap 1 [0] ∧ m.pos = 0 ∧ m.log = []) ∨
      b = none ∧ sv.grant 0 size = false ∧ Out m.heap 1 []) OnlyFuel .boot := by
  have hrequest : kmalloc sv size .boot = .ok ((Heap.empty.request (sv.grant 0 size)).1,
      { Machine.boot with heap := (Heap.empty.request (sv.grant 0 size)).2 }) := rfl
  rw [wp, hrequest]
  cases hgrant : sv.grant 0 size with
  | false => exact .inr ⟨Out.empty.refused.1, rfl, Out.empty.refused.2⟩
  | true => exact .inl ⟨Out.empty.granted.1, rfl, Out.empty.granted.2, rfl, rfl⟩

theorem Stopped.loadEnd {n code : ℤ} (hn : 1 ≤ n) (h : Stopped sv n.toNat code m) :
    LoadEnd sv n draws tries rounds code m where
  outcome := by
    obtain ⟨out, hcause, hlive⟩ := h.cause
    exact ⟨out, .stopped hn hcause, hlive, hcause.head⟩
  arry _ := h.arry
  log hcode := absurd hcode h.ne_zero

theorem Loaded.loadEnd {n : ℤ} (hn : 1 ≤ n) (h : Loaded sv n.toNat draws tries rounds m) :
    LoadEnd sv n draws tries rounds 0 m := by
  obtain ⟨ids, hI, hS⟩ := h.stage
  have hasked : Site.tree.first n.toNat + n.toNat = 3 + 5 * n.toNat := by
    simp only [Site.first]
    omega
  rw [hasked] at hS
  refine ⟨⟨_, ?_, hS.out.live, fun _ => ⟨_, rfl⟩⟩, fun _ => hS.arry, fun _ => ⟨⟨ids, hI, hS.log⟩, h.tree⟩⟩
  rw [hS.out.asked]
  exact .done hn hS.granted h.fits

theorem lkpInitAll_spec (hsv : sv.Lawful) (n : ℤ) :
    wp (lkpInitAll sv draws n tries rounds) (LoadEnd sv n draws tries rounds) OnlyFuel .boot := by
  rw [lkpInitAll]
  split
  · next hsmall => exact ⟨⟨[], .tooSmall hsmall, .refl _, fun h => absurd h (by decide)⟩, fun h => absurd h (by decide),
      fun h => absurd h (by decide)⟩
  · next hn =>
    have hn : 1 ≤ n := not_lt.mp hn
    refine (wp_kmalloc_boot _).bind fun b m₁ h => ?_
    obtain ⟨rfl, hgrant, hout, hpos, hlog⟩ | ⟨rfl, hno, hout⟩ := h
    · have hgranted : Granted sv n.toNat 1 := by
        intro s i hi hlt
        have hstart : s.first n.toNat + i = 0 := by omega
        obtain ⟨rfl, rfl⟩ := Site.first_inj (t := .array) (j := 0) hi Nat.one_pos hstart
        exact hgrant
      refine wp_bind.mpr (wp_modify.mpr ?_)
      have hS : Stage sv n.toNat (Site.list.first n.toNat) (Site.list.before n.toNat) 0 []
          { m₁ with randIntArry := some 0 } := ⟨hgranted, hout, rfl, hpos, hlog⟩
      refine (runAll_spec hsv (by omega) hS).post fun code m h => ?_
      obtain ⟨rfl, hloaded⟩ | hstop := h
      · exact hloaded.loadEnd hn
      · exact hstop.loadEnd hn
    · have hcause : Cause sv n.toNat (-1) m₁.heap.asked [] := by
        rw [hout.asked]
        exact Cause.refused (s := .array) (i := 0) Nat.one_pos hno
      exact ⟨⟨[], .stopped hn hcause, hout.live, fun h => absurd h (by decide)⟩, fun h => absurd h (by decide),
        fun h => absurd h (by decide)⟩

/-! ## The session -/

theorem lkpExit_eq {b : ℕ} (h : m.randIntArry = some b) : lkpExit m = kfree b m := by
  obtain ⟨heap, arry, pos, log⟩ := m
  obtain rfl : arry = some b := h
  rfl

/-- The unload frees the array and nothing else. -/
theorem session_spec (hsv : sv.Lawful) (n : ℤ) : wp (session sv draws n tries rounds)
    (fun code m => ∃ out, Outcome sv n code m.heap.asked out ∧ m.heap.live.Perm (if code < 0 then out else out.tail) ∧
      (code = 0 → GivesBack sv n.toNat draws tries rounds m.log)) OnlyFuel .boot := by
  refine (lkpInitAll_spec hsv n).bind fun code m h => ?_
  obtain ⟨out, houtcome, hlive, hhead⟩ := h.outcome
  by_cases hcode : code < 0
  · rw [if_pos hcode]
    exact wp_pure.mpr ⟨out, houtcome, by rwa [if_pos hcode], h.log⟩
  · rw [if_neg hcode]
    obtain ⟨rest, rfl⟩ := hhead (not_lt.mp hcode)
    have harry := h.arry (not_lt.mp hcode)
    have hheld : Out m.heap m.heap.asked ([] ++ 0 :: rest) := ⟨rfl, hlive⟩
    obtain ⟨h', hfree, hout⟩ := hheld.free
    have hexit : lkpExit m = .ok ((), { m with heap := h' }) := by rw [lkpExit_eq harry, kfree, hfree]
    refine wp_bind.mpr ?_
    rw [wp, hexit]
    refine wp_pure.mpr ⟨0 :: rest, ?_, ?_, h.log⟩
    · rw [hout.asked]
      exact houtcome
    · rw [if_neg hcode]
      exact hout.live

/-- In no run of the module is a block freed twice, a block freed that is not out, or a null pointer followed, whatever
requests are refused. The blocks that are out in the end are exactly those of the way the load ended; a load that
returns 0 leaves the cars of the queue and the map. -/
theorem session_ledger (hsv : sv.Lawful) (n : ℤ) (draws : ℕ → ℤ) (tries rounds : ℕ) :
    (∀ e, session sv draws n tries rounds .boot = .error e → e = .stop .outOfFuel) ∧
      ∀ code m, session sv draws n tries rounds .boot = .ok (code, m) →
        ∃ out, Outcome sv n code m.heap.asked out ∧ m.heap.live.Perm (if code < 0 then out else out.tail) := by
  have hspec : wp (session sv draws n tries rounds) _ OnlyFuel .boot := session_spec hsv n
  refine ⟨fun e he => hspec.of_error he, fun code m he => ?_⟩
  obtain ⟨out, houtcome, hlive, -⟩ := hspec.of_ok he
  exact ⟨out, houtcome, hlive⟩

/-- What goes into a container comes out of it, in every load that returns 0. -/
theorem load_gives_back (hsv : sv.Lawful) {n : ℤ} {m : Machine}
    (he : session sv draws n tries rounds .boot = .ok (0, m)) : GivesBack sv n.toNat draws tries rounds m.log := by
  obtain ⟨-, -, -, hlog⟩ := (session_spec hsv n).of_ok he
  exact hlog rfl

/-- A kernel with memory for everything, whose fifo has the size it is asked for and whose map gives the first id that
is free. -/
def Services.plain : Services where
  grant _ n := decide (n ≤ 2 ^ 25)
  sizeofIdr := 40
  kfifoInit size := (0, size)
  idrAlloc used first last :=
    (((List.range (last - first).toNat).map fun k : ℕ => first + k).find? fun id => !used.elem id).getD (-enospc)
  rbInsertColor _ t := t
  rbErase k t := spine (t.inorder.erase k)
  grant_le _ _ h := of_decide_eq_true h

theorem Services.plain_lawful : Services.plain.Lawful where
  insertColor _ _ := rfl
  erase _ _ := inorder_spine _
  idrAlloc used first last := by
    simp only [Services.plain]
    generalize hids : ((List.range (last - first).toNat).map fun k : ℕ => first + k) = ids
    cases h : ids.find? fun id => !used.elem id with
    | none =>
      refine .inl ⟨rfl, fun id hlo hhi => ?_⟩
      have hmem : id ∈ ids := by
        rw [← hids]
        exact List.mem_map.mpr ⟨(id - first).toNat, List.mem_range.mpr (by omega), by omega⟩
      have hused := List.find?_eq_none.mp h id hmem
      simpa using hused
    | some id =>
      have hmem := List.mem_of_find?_eq_some h
      rw [← hids] at hmem
      obtain ⟨k, hk, rfl⟩ := List.mem_map.mp hmem
      have hlt := List.mem_range.mp hk
      have hnew := List.find?_some h
      exact .inr (.inr ⟨by simp, by simp only [Option.getD_some]; omega, by simpa using hnew⟩)

/-- Two cars for each container. -/
theorem session_two : ∃ m, session .plain (fun i => i) 2 1 5 .boot = .ok (0, m) ∧ m.heap.asked = 13 ∧
    m.heap.live = [8, 7, 6] := by
  have hrun : (session .plain (fun i => i) 2 1 5 .boot).toOption.map (fun r => (r.1, r.2.heap.asked, r.2.heap.live)) =
      some (0, 13, [8, 7, 6]) := by decide +kernel
  obtain ⟨⟨code, m⟩, hm, hr⟩ := Option.map_eq_some_iff.mp hrun
  simp only [Prod.mk.injEq] at hr
  obtain ⟨rfl, hasked, hlive⟩ := hr
  refine ⟨m, ?_, hasked, hlive⟩
  cases hs : session .plain (fun i => i) 2 1 5 .boot with
  | error e =>
    rw [hs] at hm
    cases hm
  | ok r =>
    rw [hs] at hm
    exact congrArg Except.ok (Option.some.inj hm)

/-- The 13 blocks are all freed but the cars of the queue and the map. -/
theorem session_ledger_two : ∃ m out, session .plain (fun i => i) 2 1 5 .boot = .ok (0, m) ∧ m.heap.live = [8, 7, 6] ∧
    Outcome .plain 2 0 13 out ∧ [8, 7, 6].Perm out.tail := by
  obtain ⟨m, hm, hasked, hlive⟩ := session_two
  obtain ⟨out, houtcome, hout⟩ := (session_ledger Services.plain_lawful 2 (fun i => i) 1 5).2 0 m hm
  rw [hasked] at houtcome
  rw [hlive] at hout
  exact ⟨m, out, hm, hlive, houtcome, hout⟩

theorem load_gives_back_two : ∃ m, session .plain (fun i => i) 2 1 5 .boot = .ok (0, m) ∧
    GivesBack .plain 2 (fun i => i) 1 5 m.log := by
  obtain ⟨m, hm, -, -⟩ := session_two
  exact ⟨m, hm, load_gives_back Services.plain_lawful hm⟩

end LkpProjects.Driver
