import LkpProjects.Parallel.Blocks

/-! # The parallel store: garbage collection

`gc` picks a block with enough invalid pages and a block to move its live pages to. Its buffer is
addressed by `pages_per_block` where the pages are `page_size` long, as in the serial store.
-/
namespace LkpProjects.Parallel
open Nand Bytes Hoare
open Serial (Geometry GcRead blit cut strncpySelf)
set_option autoImplicit false

/-- `INVALID_THRESHOLD`. -/
def invalidThreshold : ℕ := 20

/-- The first of the least worn blocks of a list. -/
def leastWornOf (worn : ℕ → ℕ) (cands : List ℕ) : Option ℕ :=
  cands.foldl
    (fun best i =>
      match best with
      | none => some i
      | some b => if worn i < worn b then some i else some b)
    none

/-- What the search holds behind a part of the list. -/
theorem leastWornOf_fold (worn : ℕ → ℕ) : ∀ (cands : List ℕ) (best : Option ℕ),
    ∃ r, cands.foldl (fun best i =>
        match best with
        | none => some i
        | some b => if worn i < worn b then some i else some b) best = r ∧
      (r = none → best = none ∧ cands = []) ∧
      ∀ b, r = some b → (b ∈ cands ∨ best = some b) ∧ (∀ i ∈ cands, worn b ≤ worn i) ∧
        ∀ b', best = some b' → worn b ≤ worn b'
  | [], best => ⟨best, rfl, fun h => ⟨h, rfl⟩, fun b hb => ⟨.inr hb, nofun, fun b' hb' => by
      rw [Option.some.inj (hb.symm.trans hb')]⟩⟩
  | i :: cands, best => by
    rw [List.foldl_cons]
    cases best with
    | none =>
      obtain ⟨r, hr, hnone, hsome⟩ := leastWornOf_fold worn cands (some i)
      refine ⟨r, hr, fun h => absurd (hnone h).1 (Option.some_ne_none i), fun b hb => ?_⟩
      obtain ⟨hmem, hmin, hbest⟩ := hsome b hb
      refine ⟨.inl ?_, ?_, nofun⟩
      · exact hmem.elim (List.mem_cons_of_mem i) fun h => by simp [Option.some.inj h]
      · exact List.forall_mem_cons.mpr ⟨hbest i rfl, hmin⟩
    | some b₀ =>
      simp only
      split
      · next hlt =>
        obtain ⟨r, hr, hnone, hsome⟩ := leastWornOf_fold worn cands (some i)
        refine ⟨r, hr, fun h => absurd (hnone h).1 (Option.some_ne_none i), fun b hb => ?_⟩
        obtain ⟨hmem, hmin, hbest⟩ := hsome b hb
        refine ⟨.inl ?_, List.forall_mem_cons.mpr ⟨hbest i rfl, hmin⟩, fun b' hb' => ?_⟩
        · exact hmem.elim (List.mem_cons_of_mem i) fun h => by simp [Option.some.inj h]
        · rw [← Option.some.inj hb']
          exact (hbest i rfl).trans (Nat.le_of_lt hlt)
      · next hge =>
        obtain ⟨r, hr, hnone, hsome⟩ := leastWornOf_fold worn cands (some b₀)
        refine ⟨r, hr, fun h => absurd (hnone h).1 (Option.some_ne_none b₀), fun b hb => ?_⟩
        obtain ⟨hmem, hmin, hbest⟩ := hsome b hb
        refine ⟨hmem.imp_left (List.mem_cons_of_mem i), ?_, hbest⟩
        exact List.forall_mem_cons.mpr ⟨(hbest b₀ rfl).trans (not_lt.mp hge), hmin⟩

/-- Nothing is found in an empty list only. -/
theorem leastWornOf_none {worn : ℕ → ℕ} {cands : List ℕ} (h : leastWornOf worn cands = none) :
    cands = [] := by
  obtain ⟨r, hr, hnone, -⟩ := leastWornOf_fold worn cands none
  exact (hnone (hr.symm.trans h)).2

theorem leastWornOf_some {worn : ℕ → ℕ} {cands : List ℕ} {b : ℕ} (h : leastWornOf worn cands = some b) :
    b ∈ cands ∧ ∀ i ∈ cands, worn b ≤ worn i := by
  obtain ⟨r, hr, -, hsome⟩ := leastWornOf_fold worn cands none
  obtain ⟨hmem, hmin, -⟩ := hsome b (hr.symm.trans h)
  exact ⟨hmem.resolve_right (Option.some_ne_none b).symm, hmin⟩

section Choice
variable (g : Geometry) (s : Config)

/-- The first block with enough invalid pages, metadata blocks passed over. -/
def gcTarget : Option ℕ :=
  (List.range g.nbBlocks).find? fun i =>
    inOrder s.metaBlkordr (nbProbed g) i = false ∧ invalidThreshold ≤ (s.blocks i).nbInvalid

/-- `target_blk1_valid_cnt`. -/
def targetValidCnt (target : ℕ) : ℤ :=
  ((s.blocks target).currentPageOffset : ℤ) - (s.blocks target).nbInvalid - 1

/-- `target_blk2`: a block with more pages left than are to be moved. -/
def gcMerge (target : ℕ) : Option ℕ :=
  leastWornOf (fun i => (s.blocks i).worn) <| (List.range g.nbBlocks).filter fun i =>
    i ≠ target ∧ inOrder s.metaBlkordr (nbProbed g) i = false ∧
      targetValidCnt s target < (g.pagesPerBlock : ℤ) - (s.blocks i).currentPageOffset

/-- An erased block. -/
def gcFree : Option ℕ :=
  leastWornOf (fun i => (s.blocks i).worn) <| (List.range g.nbBlocks).filter fun i =>
    (s.blocks i).currentPageOffset = 0 ∧ (s.blocks i).state = .blkFree

/-- `victim_blk`, the block the pages are moved to. -/
def gcVictim (target : ℕ) : ℕ :=
  match gcMerge g s target with
  | some b => b
  | none => (gcFree g s).getD target

end Choice

/-! ## Reading the live pages -/

/-- One round of the walk over the block's list. Returns the slot of the bucket that is invalidated,
the one found under the key that was read. -/
def gcReadOne (env : Env) (r : GcRead) (h : ℕ) : Kernel (ℕ × GcRead) := do
  let page ← readPage env ((← get).hashtable h).index
  let pos := r.lens.length * env.pagesPerBlock
  let buffer := blit r.buffer pos page
  let keyLen := readLe buffer pos
  let valLen := readLe buffer (pos + 4)
  if env.pageSize * env.pagesPerBlock < pos + env.pageSize ∨ env.pageSize < 8 + keyLen ∨
      env.pagesPerBlock ≤ r.lens.length then throw .overflow
  else
    match hashSearch env.toGeometry (← get).hashtable (.ofBytes (cut buffer (pos + 8) keyLen)) with
    | none => throw .outOfBounds
    | some h' =>
        invalidPg env.toGeometry h'
        pure (h', ⟨buffer, r.lens ++ [(keyLen, valLen)]⟩)

/-- The walk (`list_for_each_entry_safe`) over the buckets of the target block: `slots` is what is left
of the list. The next bucket is fetched before the body, which must not unlink it. -/
def gcRead (env : Env) (target : ℕ) : ℕ → GcRead → List ℕ → Kernel GcRead
  | _, r, [] => pure r
  | 0, r, _ => pure r
  | fuel + 1, r, h :: slots => do
      if ((← get).hashtable h).index / env.pagesPerBlock ≠ target then pure r
      else
        let (h', r) ← gcReadOne env r h
        if slots.head? = some h' then throw .poisonedList
        else gcRead env target fuel r (slots.erase h')

/-! ## Writing them -/

/-- `hash_add` and `list_add` of a page that was written to block `b`. -/
def gcEnter (env : Env) (key : CStr) (pgIndex b : ℕ) (ret : ℤ) : Kernel PUnit := do
  match ← hashAdd env.toGeometry key pgIndex with
  | none => throw .bug
  | some h =>
      if ret < 0 then throw .bug
      else modify fun s => s.listAdd b h

/-- One round of the loop that writes the pages. -/
def gcWriteOne (env : Env) (victim i keyLen valLen : ℕ) (buffer : ℕ → Byte) :
    Kernel (ℕ → Byte) := do
  let pos := i * env.pagesPerBlock
  if env.pageSize * env.pagesPerBlock < pos + (8 + keyLen + valLen) then throw .overflow
  else
    let buffer := blit (blit buffer pos (le32 keyLen)) (pos + 4) (le32 valLen)
    let buffer := strncpySelf buffer (pos + 8) keyLen
    let buffer := strncpySelf buffer (pos + 8 + keyLen) valLen
    let pgIndex := victim * env.pagesPerBlock + ((← get).blocks victim).currentPageOffset
    let key := CStr.ofBytes (cut buffer (pos + 8) keyLen)
    let ret ← writePage env pgIndex (cut buffer pos env.pageSize)
    withLock .listLock (gcEnter env key pgIndex victim ret)
    pure buffer

/-- The loop that writes the pages, from record `i` on. -/
def gcWrite (env : Env) (victim : ℕ) : ℕ → List (ℕ × ℕ) → (ℕ → Byte) → Kernel PUnit
  | _, [], _ => pure ⟨⟩
  | i, (keyLen, valLen) :: lens, buffer => do
      let buffer ← gcWriteOne env victim i keyLen valLen buffer
      gcWrite env victim (i + 1) lens buffer

/-! ## The collection -/

/-- A header for the block the pages go to, if it has none. -/
def gcHeader (env : Env) (pgIndex : ℕ) : Kernel PUnit :=
  if pgIndex % env.pagesPerBlock = 0 then do
    let _ ← writeHdr env pgIndex .nandData
    pure ⟨⟩
  else pure ⟨⟩

/-- `gc` once its target is known. -/
def gcBlock (env : Env) (target : ℕ) : Kernel PUnit := do
  let victim := gcVictim env.toGeometry (← get) target
  modify fun s => s.setState victim .blkUsed
  let r ← withLock .listLock do
    let slots := ((← get).blocks target).list
    gcRead env target slots.length ⟨fun _ => 0, []⟩ slots
  let _ ← formatSingle env target
  gcHeader env (victim * env.pagesPerBlock + ((← get).blocks victim).currentPageOffset)
  gcWrite env victim 0 r.lens r.buffer
  withLock .listLock (modify fun s => s.setState victim .blkUsed)

/-- The part of `gc` between the two locks. -/
def gcLocked (env : Env) : Kernel PUnit := do
  checkOrder (nbProbed env.toGeometry)
  match gcTarget env.toGeometry (← get) with
  | none => pure ⟨⟩
  | some target => gcBlock env target

/-- `gc`. The first test is on the old value of the flag, so a call that finds it clear only sets it. -/
def gc (env : Env) : Kernel PUnit := do
  if env.pagesPerBlock < 64 then pure ⟨⟩
  else
    let old := (← get).isGb
    modify fun s => { s with isGb := true }
    if old = false then pure ⟨⟩
    else
      if ← spinTrylock .eraseLock then
        gcLocked env
        spinUnlock .eraseLock
        modify fun s => { s with isGb := false }
      else pure ⟨⟩

theorem gcLocked_ok {env : Env} {s s' : Config} {u : PUnit} (he : gcLocked env s = .ok (u, s')) :
    gcTarget env.toGeometry s = none ∧ s' = s ∨
      ∃ t, gcTarget env.toGeometry s = some t ∧ gcBlock env t s = .ok (u, s') := by
  obtain ⟨_, s₁, he₁, hpick⟩ := bind_ok.mp he
  obtain rfl := checkOrder_ok he₁
  rw [get_bind_ok] at hpick
  cases ht : gcTarget env.toGeometry s₁ with
  | none =>
    rw [ht] at hpick
    exact .inl ⟨rfl, (pure_ok.mp hpick).2.symm⟩
  | some t =>
    rw [ht] at hpick
    exact .inr ⟨t, rfl, hpick⟩

/-- A call of `gc` does nothing, sets its flag, or runs with its lock held. -/
theorem gc_ok {env : Env} {s s' : Config} {u : PUnit} (he : gc env s = .ok (u, s')) :
    s' = s ∨ s' = { s with isGb := true } ∨
      64 ≤ env.pagesPerBlock ∧ s.isGb = true ∧ s.locks .eraseLock = false ∧ ∃ v s₁,
        gcLocked env (({ s with isGb := true } : Config).lock .eraseLock true) = .ok (v, s₁) ∧
          s' = { s₁.lock .eraseLock false with isGb := false } := by
  rw [gc] at he
  split at he
  · exact .inl (pure_ok.mp he).2.symm
  · next hppb =>
    rw [get_bind_ok] at he
    obtain ⟨_, s₁, he₁, hgate⟩ := bind_ok.mp he
    obtain rfl := modify_ok.mp he₁
    split at hgate
    · exact .inr (.inl (pure_ok.mp hgate).2.symm)
    · next hgb =>
      obtain ⟨got, s₂, he₂, hrun⟩ := bind_ok.mp hgate
      obtain ⟨rfl, rfl⟩ | ⟨rfl, hfree, rfl⟩ := spinTrylock_ok he₂
      · exact .inr (.inl (pure_ok.mp hrun).2.symm)
      · obtain ⟨v, s₃, he₃, hunlock⟩ := bind_ok.mp hrun
        obtain ⟨_, s₄, he₄, hend⟩ := bind_ok.mp hunlock
        obtain rfl := modify_ok.mp he₄
        obtain rfl := modify_ok.mp hend
        exact .inr (.inr ⟨not_lt.mp hppb, eq_true_of_ne_false hgb, hfree, v, s₃, he₃, rfl⟩)

end LkpProjects.Parallel
