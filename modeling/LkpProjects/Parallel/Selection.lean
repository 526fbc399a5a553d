import LkpProjects.Parallel.RoundTrip

/-! # The parallel store: the blocks a flush reserves

`flush_metadata` reserves `nb_pages / pages_per_block + 1` blocks and then opens a new one every
`pages_per_block - 1` pages. The two counts agree unless quotient and remainder of the page count add
up to `pages_per_block` or more. Its selection loop takes the least worn erased block behind the one it
looks at and goes on behind that one, so every block chosen costs it two candidates; when too few are
found, the old metadata blocks are erased but not entered in `meta_blkordr`.
-/
namespace LkpProjects.Parallel
open Nand Bytes Hoare
open Serial (Geometry HdrKind)
set_option autoImplicit false

/-! ## Entries written through -/

/-- `jack_ofs` when the write loop comes to page `i`. -/
def jackAt (g : Geometry) : ℕ → ℕ
  | 0 => 0
  | i + 1 => if i % (g.pagesPerBlock - 1) = 0 then jackAt g i + 1 else jackAt g i

/-- The entries of `meta_blkordr` that the write loop writes through: `jack_ofs - 1` behind the header of
each page. -/
def entriesUsed (g : Geometry) : Finset ℕ :=
  (Finset.range (nbPages g)).image fun i => jackAt g (i + 1) - 1

section Entries
variable {g : Geometry} {env : Env} {s s' : Config} {i : ℕ} {ret : ℤ}

theorem jackAt_eq (g : Geometry) (i : ℕ) : jackAt g i =
    if i % (g.pagesPerBlock - 1) = 0 then i / (g.pagesPerBlock - 1)
    else i / (g.pagesPerBlock - 1) + 1 := by
  induction i with
  | zero => simp [jackAt]
  | succ i ih =>
    rw [← headers_succ, jackAt, ih]
    split <;> rfl

theorem jackAt_succ (g : Geometry) (i : ℕ) : jackAt g (i + 1) = i / (g.pagesPerBlock - 1) + 1 := by
  rw [jackAt_eq, ← headers_succ]

theorem writeHdr_metaBlkordr {p : ℕ} {data : HdrKind} (he : writeHdr env p data s = .ok (ret, s')) :
    s'.metaBlkordr = s.metaBlkordr := by
  obtain ⟨-, -, rfl⟩ | ⟨-, -, s₁, he₁, rfl⟩ := writeHdr_ok he
  · rfl
  · obtain ⟨-, -, rfl⟩ | ⟨-, -, -, -, rfl⟩ := writePage_ok he₁ <;> rfl

/-- The write loop's counter and the entry it writes a page through. -/
theorem flushPage_entry {r : ℕ × ℤ × List Byte}
    (he : flushPage env i (jackAt env.toGeometry i) ret s = .ok (r, s')) :
    r.1 = jackAt env.toGeometry (i + 1) ∧ s.metaBlkordr (r.1 - 1) ≠ none ∧
      s'.metaBlkordr = s.metaBlkordr := by
  obtain ⟨jack, ret₁, page⟩ := r
  obtain ⟨-, s₁, b, he₁, hb, he₂⟩ := flushPage_ok he
  obtain ⟨-, -, rfl⟩ := writePage_zero he₂
  have hheader : jack = jackAt env.toGeometry (i + 1) ∧ s₁.metaBlkordr = s.metaBlkordr := by
    rw [jackAt]
    obtain ⟨hi, -, hjack, b', -, hhdr⟩ | ⟨hi, hr, rfl⟩ := flushHeader_ok he₁
    · rw [if_pos hi]
      exact ⟨hjack, writeHdr_metaBlkordr hhdr⟩
    · rw [if_neg hi]
      exact ⟨(Prod.mk.inj hr).1, rfl⟩
  exact ⟨hheader.1, by rw [← hheader.2, hb]; exact Option.some_ne_none _, hheader.2⟩

/-- A write loop that returns has found a block in every entry it writes through. -/
theorem flushWrite_entries : ∀ {k i : ℕ} {ret : ℤ} {r : ℤ × List (List Byte)} {s s' : Config},
    flushWrite env (List.range' i k) (jackAt env.toGeometry i) ret s = .ok (r, s') →
      ∀ i' ∈ List.range' i k, s.metaBlkordr (jackAt env.toGeometry (i' + 1) - 1) ≠ none
  | 0, _, _, _, _, _, _ => nofun
  | k + 1, i, _, _, _, _, he => by
    rw [List.range'_succ] at he ⊢
    obtain ⟨⟨jack, ret₁, page⟩, s₁, he₁, hrest⟩ := bind_ok.mp he
    obtain ⟨r₂, s₂, he₂, -⟩ := bind_ok.mp hrest
    obtain ⟨hjack, hentry, hord⟩ := flushPage_entry he₁
    intro i' hi'
    obtain rfl | hi' := List.mem_cons.mp hi'
    · rwa [← hjack]
    · rw [← hord]
      simp only at hjack
      rw [hjack] at he₂
      exact flushWrite_entries he₂ i' hi'

/-- Every entry used had been filled when the write loop came to its end. -/
theorem entriesUsed_filled {r : ℤ × List (List Byte)}
    (he : flushWrite env (List.range (nbPages env.toGeometry)) 0 ret s = .ok (r, s')) :
    ∀ k ∈ entriesUsed env.toGeometry, s.metaBlkordr k ≠ none := by
  rw [List.range_eq_range'] at he
  intro k hk
  obtain ⟨i, hi, rfl⟩ := Finset.mem_image.mp hk
  refine flushWrite_entries he i ?_
  rw [← List.range_eq_range']
  exact List.mem_range.mpr (Finset.mem_range.mp hi)

/-- One entry for each header. -/
theorem entriesUsed_eq (g : Geometry) : entriesUsed g = Finset.range (nbHeaders g) := by
  ext k
  rw [entriesUsed, Finset.mem_image, Finset.mem_range]
  constructor
  · rintro ⟨i, hi, rfl⟩
    rw [jackAt_succ, Nat.add_sub_cancel]
    exact rank_lt (Finset.mem_range.mp hi)
  · intro hk
    have hle := Nat.mul_le_mul_right (g.pagesPerBlock - 1) (Nat.le_sub_one_of_lt hk)
    refine ⟨k * (g.pagesPerBlock - 1), Finset.mem_range.mpr (hle.trans_lt (nbHeaders_lo g)), ?_⟩
    rw [jackAt_succ, Nat.mul_div_cancel _ (dataPgs_pos g), Nat.add_sub_cancel]

/-- As many headers as blocks reserved, or fewer. -/
theorem nbHeaders_le_iff (g : Geometry) : nbHeaders g ≤ nbMetaBlocks g ↔
    nbPages g / g.pagesPerBlock + nbPages g % g.pagesPerBlock < g.pagesPerBlock := by
  have hpos := blkPgs_lt g
  have hsplit := Nat.div_add_mod (nbPages g) g.pagesPerBlock
  rw [nbHeaders, nbMetaBlocks, Nat.succ_le_succ_iff, ← Nat.lt_succ_iff,
    Nat.div_lt_iff_lt_mul (dataPgs_pos g)]
  generalize nbPages g / g.pagesPerBlock = q at *
  generalize nbPages g % g.pagesPerBlock = r at *
  have hmul : (q + 1) * (g.pagesPerBlock - 1) + (q + 1) = g.pagesPerBlock * q + g.pagesPerBlock := by
    rw [← Nat.mul_succ, Nat.succ_eq_add_one, ← pagesPerBlock_eq, Nat.mul_comm, Nat.mul_succ]
  simp only [Nat.succ_eq_add_one]
  omega

/-- The write loop stays within the entries that were reserved exactly if quotient and remainder of the
page count by the block length add up to less than the block length. -/
theorem entriesUsed_reserved_iff (g : Geometry) :
    ((entriesUsed g).card ≤ nbMetaBlocks g ∧ ∀ k ∈ entriesUsed g, k < nbMetaBlocks g) ↔
      nbPages g / g.pagesPerBlock + nbPages g % g.pagesPerBlock < g.pagesPerBlock := by
  rw [entriesUsed_eq, Finset.card_range, ← nbHeaders_le_iff]
  exact ⟨fun h => h.1, fun h => ⟨h, fun k hk => (Finset.mem_range.mp hk).trans_le h⟩⟩

/-- 48 blocks of 64 pages of 2048 bytes have 191 pages of metadata: 3 blocks are reserved, 4 written. -/
def shortReserve : Geometry := .ofSizes 48 64 2048 (by decide)

/-- So on a flash of that size the write loop goes through an entry that was not filled. -/
theorem entriesUsed_past_reserve : (¬ ∀ g : Geometry,
      (entriesUsed g).card ≤ nbMetaBlocks g ∧ ∀ k ∈ entriesUsed g, k < nbMetaBlocks g) ∧
    ∀ (s s' : Config) (ret : ℤ) (r : ℤ × List (List Byte)),
      (∀ k, nbMetaBlocks shortReserve ≤ k → s.metaBlkordr k = none) →
        flushWrite (.ideal shortReserve) (List.range (nbPages shortReserve)) 0 ret s ≠ .ok (r, s') := by
  have hused : nbMetaBlocks shortReserve ∈ entriesUsed shortReserve := by
    rw [entriesUsed_eq, Finset.mem_range]
    decide
  refine ⟨fun h => absurd ((h shortReserve).2 _ hused) (lt_irrefl _), fun s s' ret r hrest he => ?_⟩
  have hfilled := entriesUsed_filled he
  exact hfilled _ hused (hrest _ le_rfl)

end Entries

/-! ## The selection phase -/

/-- The loop that recycles the old metadata blocks `ks`: they are erased and marked used, and
`meta_blkordr` is not written. -/
def flushRecycle (env : Env) (pre : ℕ → Option ℕ) : List ℕ → Kernel PUnit
  | [] => pure ⟨⟩
  | k :: ks => do
      match pre k with
      | none => throw .bug
      | some b =>
          let _ ← formatSingle env b
          modify fun s => s.setState b .blkUsed
          flushRecycle env pre ks

/-- `flush_metadata` from the copy of `meta_blkordr` to the end of the recycling loop. -/
def flushChoose (env : Env) : Kernel PUnit := do
  checkOrder (nbMetaBlocks env.toGeometry)
  let pre := (← get).metaBlkordr
  modify (clearOrder (nbMetaBlocks env.toGeometry))
  let enough ← flushSelect env pre (List.range env.nbBlocks) 0
  flushRecycle env pre (List.range' enough (nbMetaBlocks env.toGeometry - enough))

/-- The erased blocks from `i` on that the selection loop takes for free. -/
def candidates (g : Geometry) (pre : ℕ → Option ℕ) (s : Config) (i : ℕ) : Finset ℕ :=
  (Finset.range g.nbBlocks).filter fun z => i ≤ z ∧ flushCandidate g pre s z = true

/-- The first `n` entries of `meta_blkordr`: the first `enough` of them list distinct erased blocks, marked
used and not among the old ones, the others are none. -/
structure Selected (g : Geometry) (pre : ℕ → Option ℕ) (s : Config) (enough : ℕ) : Prop where
  filled : ∀ k < enough, ∃ b < g.nbBlocks, s.metaBlkordr k = some b ∧
    (s.blocks b).currentPageOffset = 0 ∧ (s.blocks b).state = .blkUsed ∧
      inOrder pre (nbMetaBlocks g) b = false
  inj : ∀ j < enough, ∀ k < enough, s.metaBlkordr j = s.metaBlkordr k → j = k
  rest : ∀ k, enough ≤ k → k < nbMetaBlocks g → s.metaBlkordr k = none

/-- The hash table is the same, and so are the fill levels of the blocks that `pre` does not list. -/
structure SameData (g : Geometry) (pre : ℕ → Option ℕ) (s s' : Config) : Prop where
  table : s'.hashtable = s.hashtable
  offset : ∀ z, inOrder pre (nbMetaBlocks g) z = false →
    (s'.blocks z).currentPageOffset = (s.blocks z).currentPageOffset

theorem SameData.refl {g : Geometry} {pre : ℕ → Option ℕ} {s : Config} : SameData g pre s s :=
  ⟨rfl, fun _ _ => rfl⟩

theorem SameData.trans {g : Geometry} {pre : ℕ → Option ℕ} {s s' s'' : Config}
    (h : SameData g pre s s') (h' : SameData g pre s' s'') : SameData g pre s s'' :=
  ⟨h'.table.trans h.table, fun z hz => (h'.offset z hz).trans (h.offset z hz)⟩

section Select
variable {env : Env} {pre : ℕ → Option ℕ} {s s' : Config} {i b z enough : ℕ}

theorem inOrder_eq_false {ord : ℕ → Option ℕ} {n : ℕ} :
    inOrder ord n b = false ↔ ∀ j < n, ord j ≠ some b := by
  rw [inOrder, List.any_eq_false]
  simp

theorem flushCandidate_iff {g : Geometry} : flushCandidate g pre s z = true ↔
    (s.blocks z).currentPageOffset = 0 ∧ (s.blocks z).state = .blkFree ∧
      inOrder s.metaBlkordr (nbMetaBlocks g) z = false ∧ inOrder pre (nbMetaBlocks g) z = false := by
  rw [flushCandidate, decide_eq_true_iff]

theorem mem_candidates {g : Geometry} :
    z ∈ candidates g pre s i ↔ z < g.nbBlocks ∧ i ≤ z ∧ flushCandidate g pre s z = true := by
  rw [candidates, Finset.mem_filter, Finset.mem_range]

/-- The winner is a candidate; it is block `i` only if there is no other one. -/
theorem flushWinner_spec {g : Geometry} (hi : i ∈ candidates g pre s i) :
    flushWinner g pre s i ∈ candidates g pre s i ∧
      (flushWinner g pre s i = i → candidates g pre s i = {i}) := by
  rw [flushWinner]
  have hmem : ∀ z, z ∈ (List.range' (i + 1) (g.nbBlocks - (i + 1))).filter
      (fun z => flushCandidate g pre s z) ↔ z ∈ candidates g pre s i ∧ z ≠ i := by
    intro z
    rw [List.mem_filter, List.mem_range'_1, mem_candidates]
    have hlt := (mem_candidates.mp hi).1
    constructor
    · rintro ⟨⟨h1, h2⟩, h3⟩
      exact ⟨⟨by omega, by omega, h3⟩, by omega⟩
    · rintro ⟨⟨h1, h2, h3⟩, h4⟩
      exact ⟨⟨by omega, by omega⟩, h3⟩
  cases hw : leastWornOf (fun z => (s.blocks z).worn)
      ((List.range' (i + 1) (g.nbBlocks - (i + 1))).filter fun z => flushCandidate g pre s z) with
  | none =>
    refine ⟨hi, fun _ => Finset.eq_singleton_iff_unique_mem.mpr ⟨hi, fun z hz => ?_⟩⟩
    by_contra hne
    have := (hmem z).mpr ⟨hz, hne⟩
    rw [leastWornOf_none hw] at this
    cases this
  | some w =>
    obtain ⟨hmem', -⟩ := leastWornOf_some hw
    obtain ⟨hcand, hne⟩ := (hmem w).mp hmem'
    exact ⟨hcand, fun heq => absurd heq hne⟩

theorem wiped_ne {g : Geometry} (h : z ≠ b) : (s.wiped g b).blocks z = s.blocks z :=
  Function.update_of_ne h _ _

theorem formatEntry_ok {o : Option ℕ} {u : PUnit} (he : formatEntry env o s = .ok (u, s')) :
    s' = s ∨ ∃ b, o = some b ∧ s' = s.wiped env.toGeometry b := by
  cases o with
  | none => exact .inl (pure_ok.mp he).2.symm
  | some b =>
    obtain ⟨ret, s₁, he₁, he⟩ := bind_ok.mp he
    obtain ⟨-, rfl⟩ := pure_ok.mp he
    obtain ⟨-, -, rfl⟩ | ⟨-, -, rfl⟩ := formatSingle_ok he₁
    · exact .inr ⟨b, rfl, rfl⟩
    · exact .inl rfl

/-- The loop takes candidates only. What each block taken keeps, it keeps. -/
theorem flushSelect_invariant {I : ℕ → Config → Prop}
    (hstep : ∀ k s w u s', k < nbMetaBlocks env.toGeometry → I k s → flushCandidate env.toGeometry pre s w = true →
      formatEntry env (pre k) (s.setState w .blkUsed) = .ok (u, s') →
        I (k + 1) { s' with metaBlkordr := Function.update s'.metaBlkordr k (some w) }) :
    ∀ {is : List ℕ} {k r : ℕ} {s s' : Config}, (∀ i ∈ is, i < env.nbBlocks) → k < nbMetaBlocks env.toGeometry →
      I k s → flushSelect env pre is k s = .ok (r, s') → I r s' ∧ r ≤ nbMetaBlocks env.toGeometry
  | [], _, _, _, _, _, hk, hI, he => by
    obtain ⟨rfl, rfl⟩ := pure_ok.mp he
    exact ⟨hI, hk.le⟩
  | i :: is, k, r, s, s', his, hk, hI, he => by
    obtain ⟨hi, his⟩ := List.forall_mem_cons.mp his
    rw [flushSelect, get_bind_ok] at he
    split at he
    · next hcand =>
      obtain ⟨_, s₁, he₁, hentry⟩ := bind_ok.mp he
      obtain rfl := modify_ok.mp he₁
      obtain ⟨_, s₂, he₂, hset⟩ := bind_ok.mp hentry
      obtain ⟨_, s₃, he₃, hrest⟩ := bind_ok.mp hset
      obtain rfl := modify_ok.mp he₃
      have hmem := (flushWinner_spec (mem_candidates.mpr ⟨hi, le_rfl, hcand⟩)).1
      have hI' := hstep k s _ _ _ hk hI (mem_candidates.mp hmem).2.2 he₂
      split at hrest
      · obtain ⟨rfl, rfl⟩ := pure_ok.mp hrest
        exact ⟨hI', hk⟩
      · next hmore => exact flushSelect_invariant hstep his (not_le.mp hmore) hI' hrest
    · exact flushSelect_invariant hstep his hk hI he

/-- What an erase of an old metadata block leaves alone. -/
theorem formatEntry_other {k : ℕ} {u : PUnit} (hk : k < nbMetaBlocks env.toGeometry)
    (he : formatEntry env (pre k) s = .ok (u, s')) :
    s'.metaBlkordr = s.metaBlkordr ∧ s'.hashtable = s.hashtable ∧
      ∀ z, inOrder pre (nbMetaBlocks env.toGeometry) z = false → s'.blocks z = s.blocks z := by
  obtain rfl | ⟨b, hb, rfl⟩ := formatEntry_ok he
  · exact ⟨rfl, rfl, fun _ _ => rfl⟩
  · refine ⟨rfl, rfl, fun z hz => wiped_ne fun hzb => ?_⟩
    exact inOrder_eq_false.mp hz k hk (hzb ▸ hb)

/-- One block more is chosen: the winner is no candidate any more, and the others are what they were. -/
theorem select_step {u : PUnit} {s₁ : Config} (hsel : Selected env.toGeometry pre s enough)
    (hlt : enough < nbMetaBlocks env.toGeometry) {w : ℕ}
    (hw : w < env.nbBlocks ∧ flushCandidate env.toGeometry pre s w = true)
    (he : formatEntry env (pre enough) (s.setState w .blkUsed) = .ok (u, s₁))
    (hs' : s' = { s₁ with metaBlkordr := Function.update s₁.metaBlkordr enough (some w) }) :
    Selected env.toGeometry pre s' (enough + 1) ∧ SameData env.toGeometry pre s s' ∧
      ∀ z, flushCandidate env.toGeometry pre s' z = true ↔
        flushCandidate env.toGeometry pre s z = true ∧ z ≠ w := by
  obtain ⟨hord, htable, hblocks⟩ := formatEntry_other hlt he
  obtain ⟨hw0, hwfree, hwnew, hwold⟩ := flushCandidate_iff.mp hw.2
  have hord' : s'.metaBlkordr = Function.update s.metaBlkordr enough (some w) := by
    rw [hs', hord]
    rfl
  have hself : s'.blocks w = { s.blocks w with state := .blkUsed } := by
    rw [hs']
    exact (hblocks w hwold).trans Config.modifyBlk_self
  have hother : ∀ z, inOrder pre (nbMetaBlocks env.toGeometry) z = false → z ≠ w →
      s'.blocks z = s.blocks z := by
    intro z hz hzw
    rw [hs']
    exact (hblocks z hz).trans (Config.modifyBlk_ne hzw)
  have hne : ∀ j < enough, s.metaBlkordr j ≠ some w := fun j hj =>
    inOrder_eq_false.mp hwnew j (hj.trans hlt)
  refine ⟨⟨fun k hk => ?_, fun j hj k hk hjk => ?_, fun k hk hkn => ?_⟩, ⟨?_, fun z hz => ?_⟩,
    fun z => ?_⟩
  · rw [hord']
    obtain hk | rfl := Nat.lt_succ_iff_lt_or_eq.mp hk
    · obtain ⟨b, hb, hkb, h0, hused, hold⟩ := hsel.filled k hk
      have hbw : b ≠ w := fun h => hne k hk (h ▸ hkb)
      rw [Function.update_of_ne hk.ne]
      exact ⟨b, hb, hkb, by rw [hother b hold hbw, h0], by rw [hother b hold hbw, hused], hold⟩
    · rw [Function.update_self]
      exact ⟨w, hw.1, rfl, by rw [hself, hw0], by rw [hself], hwold⟩
  · rw [hord'] at hjk
    obtain hj | rfl := Nat.lt_succ_iff_lt_or_eq.mp hj
    · obtain hk | rfl := Nat.lt_succ_iff_lt_or_eq.mp hk
      · rw [Function.update_of_ne hj.ne, Function.update_of_ne hk.ne] at hjk
        exact hsel.inj j hj k hk hjk
      · rw [Function.update_of_ne hj.ne, Function.update_self] at hjk
        exact absurd hjk (hne j hj)
    · obtain hk | rfl := Nat.lt_succ_iff_lt_or_eq.mp hk
      · rw [Function.update_of_ne hk.ne, Function.update_self] at hjk
        exact absurd hjk.symm (hne k hk)
      · rfl
  · rw [hord', Function.update_of_ne (Nat.ne_of_gt hk)]
    exact hsel.rest k (Nat.le_of_succ_le hk) hkn
  · rw [hs', htable]
    rfl
  · by_cases hzw : z = w
    · rw [hzw, hself]
    · rw [hother z hz hzw]
  · have hnew : inOrder s'.metaBlkordr (nbMetaBlocks env.toGeometry) z = false ↔
        inOrder s.metaBlkordr (nbMetaBlocks env.toGeometry) z = false ∧ z ≠ w := by
      rw [inOrder_eq_false, inOrder_eq_false, hord']
      constructor
      · intro h
        refine ⟨fun j hj hjz => ?_, fun hzw => h enough hlt (by rw [Function.update_self, hzw])⟩
        by_cases hje : j = enough
        · rw [hje, hsel.rest enough le_rfl hlt] at hjz
          cases hjz
        · exact h j hj (by rwa [Function.update_of_ne hje])
      · rintro ⟨h, hzw⟩ j hj hjz
        by_cases hje : j = enough
        · rw [hje, Function.update_self] at hjz
          exact hzw (Option.some.inj hjz).symm
        · rw [Function.update_of_ne hje] at hjz
          exact h j hj hjz
    rw [flushCandidate_iff, flushCandidate_iff, hnew]
    constructor
    · rintro ⟨h0, hfree, ⟨hnew', hzw⟩, hold⟩
      rw [hother z hold hzw] at h0 hfree
      exact ⟨⟨h0, hfree, hnew', hold⟩, hzw⟩
    · rintro ⟨⟨h0, hfree, hnew', hold⟩, hzw⟩
      rw [hother z hold hzw]
      exact ⟨h0, hfree, ⟨hnew', hzw⟩, hold⟩

/-- The candidates behind block `i`, the winner taken out: two less, or none when there was only one. -/
theorem candidates_step {g : Geometry} (hi : flushCandidate g pre s i = true) (hlt : i < g.nbBlocks)
    (hcand : ∀ z, flushCandidate g pre s' z = true ↔
      flushCandidate g pre s z = true ∧ z ≠ flushWinner g pre s i) :
    (candidates g pre s i).card = (candidates g pre s' (i + 1)).card + 2 ∨
      (candidates g pre s i).card = 1 ∧ (candidates g pre s' (i + 1)).card = 0 := by
  have himem : i ∈ candidates g pre s i := mem_candidates.mpr ⟨hlt, le_rfl, hi⟩
  obtain ⟨hwmem, hone⟩ := flushWinner_spec himem
  have herase : candidates g pre s' (i + 1) =
      ((candidates g pre s i).erase i).erase (flushWinner g pre s i) := by
    ext z
    rw [Finset.mem_erase, Finset.mem_erase, mem_candidates, mem_candidates, hcand]
    constructor
    · rintro ⟨h1, h2, h3, h4⟩
      exact ⟨h4, by omega, h1, by omega, h3⟩
    · rintro ⟨h1, h2, h3, h4, h5⟩
      exact ⟨h3, by omega, h5, h1⟩
  rw [herase]
  by_cases hwi : flushWinner g pre s i = i
  · rw [hone hwi, hwi]
    exact .inr ⟨Finset.card_singleton i, by simp⟩
  · have h1 := Finset.card_erase_add_one himem
    have h2 := Finset.card_erase_add_one (Finset.mem_erase.mpr ⟨hwi, hwmem⟩)
    omega

/-- A block that is no candidate is passed over. -/
theorem candidates_pass {g : Geometry} (hi : ¬ flushCandidate g pre s i = true) :
    candidates g pre s (i + 1) = candidates g pre s i := by
  ext z
  rw [mem_candidates, mem_candidates]
  constructor
  · rintro ⟨h1, h2, h3⟩
    exact ⟨h1, by omega, h3⟩
  · rintro ⟨h1, h2, h3⟩
    have hne : i ≠ z := fun h => hi (h ▸ h3)
    exact ⟨h1, by omega, h3⟩

/-- The selection loop from block `i` on: every block chosen costs two candidates, the last one may cost
one. -/
theorem flushSelect_ok : ∀ {len i enough r : ℕ} {s s' : Config}, i + len = env.nbBlocks →
    Selected env.toGeometry pre s enough → enough < nbMetaBlocks env.toGeometry →
    flushSelect env pre (List.range' i len) enough s = .ok (r, s') →
      Selected env.toGeometry pre s' r ∧ SameData env.toGeometry pre s s' ∧
        r = min (nbMetaBlocks env.toGeometry)
          (enough + ((candidates env.toGeometry pre s i).card + 1) / 2)
  | 0, i, enough, _, s, _, hi, hsel, hlt, he => by
    obtain ⟨rfl, rfl⟩ := pure_ok.mp he
    have hempty : candidates env.toGeometry pre s i = ∅ := by
      refine Finset.eq_empty_of_forall_notMem fun z hz => ?_
      obtain ⟨h1, h2, -⟩ := mem_candidates.mp hz
      omega
    refine ⟨hsel, .refl, ?_⟩
    rw [hempty, Finset.card_empty]
    omega
  | len + 1, i, enough, r, s, s', hi, hsel, hlt, he => by
    rw [List.range'_succ, flushSelect, get_bind_ok] at he
    split at he
    · next hcand =>
      obtain ⟨_, s₁, he₁, he⟩ := bind_ok.mp he
      obtain rfl := modify_ok.mp he₁
      obtain ⟨_, s₂, he₂, he⟩ := bind_ok.mp he
      obtain ⟨_, s₃, he₃, he⟩ := bind_ok.mp he
      have hib : i < env.nbBlocks := by omega
      have hwmem := (flushWinner_spec (mem_candidates.mpr ⟨hib, le_rfl, hcand⟩)).1
      obtain ⟨hwlt, -, hw⟩ := mem_candidates.mp hwmem
      obtain ⟨hsel', hsame, hstep⟩ :=
        select_step hsel hlt ⟨hwlt, hw⟩ he₂ (modify_ok.mp he₃).symm
      have hcount := candidates_step hcand hib hstep
      split at he
      · next henough =>
        obtain ⟨rfl, rfl⟩ := pure_ok.mp he
        exact ⟨hsel', hsame, by omega⟩
      · next henough =>
        obtain ⟨hend, hsame', hr⟩ := flushSelect_ok (by omega) hsel' (by omega) he
        exact ⟨hend, hsame.trans hsame', by omega⟩
    · next hcand =>
      have hpass := candidates_pass hcand
      obtain ⟨hend, hsame, hr⟩ := flushSelect_ok (by omega) hsel hlt he
      rw [hpass] at hr
      exact ⟨hend, hsame, hr⟩

theorem flushRecycle_ok : ∀ {ks : List ℕ} {u : PUnit} {s s' : Config},
    flushRecycle env pre ks s = .ok (u, s') → s'.metaBlkordr = s.metaBlkordr
  | [], _, _, _, he => by rw [(pure_ok.mp he).2]
  | k :: ks, _, _, _, he => by
    cases hk : pre k with
    | none =>
      rw [flushRecycle, hk] at he
      cases he
    | some b =>
      rw [flushRecycle, hk] at he
      obtain ⟨ret, s₁, he₁, he⟩ := bind_ok.mp he
      obtain ⟨_, s₂, he₂, he⟩ := bind_ok.mp he
      obtain rfl := modify_ok.mp he₂
      refine (flushRecycle_ok he).trans ?_
      obtain ⟨-, -, rfl⟩ | ⟨-, -, rfl⟩ := formatSingle_ok he₁ <;> rfl

end Select

/-! ## What the phase leaves -/

/-- The erased blocks that `meta_blkordr` does not list. -/
def spare (g : Geometry) (s : Config) : Finset ℕ :=
  (Finset.range g.nbBlocks).filter fun z => (s.blocks z).currentPageOffset = 0 ∧
    (s.blocks z).state = .blkFree ∧ inOrder s.metaBlkordr (nbMetaBlocks g) z = false

/-- The entries for the metadata list distinct blocks of the flash that are erased and marked used. -/
structure Chosen (g : Geometry) (s : Config) : Prop where
  block : ∀ k < nbMetaBlocks g, ∃ b < g.nbBlocks, s.metaBlkordr k = some b ∧
    (s.blocks b).currentPageOffset = 0 ∧ (s.blocks b).state = .blkUsed
  inj : ∀ j < nbMetaBlocks g, ∀ k < nbMetaBlocks g, s.metaBlkordr j = s.metaBlkordr k → j = k

/-- No valid bucket has its page in one of these blocks. -/
def Unreferenced (g : Geometry) (s : Config) : Prop :=
  ∀ k < nbMetaBlocks g, ∀ h, s.Valid g h → s.metaBlkordr k ≠ some (s.blkOf g h)

section Choose
variable {env : Env} {s s' : Config} {u : PUnit}

theorem candidates_clearOrder {g : Geometry} :
    candidates g s.metaBlkordr (clearOrder (nbMetaBlocks g) s) 0 = spare g s := by
  ext z
  have hclear : inOrder (clearOrder (nbMetaBlocks g) s).metaBlkordr (nbMetaBlocks g) z = false :=
    inOrder_eq_false.mpr fun j hj hjz => by
      cases (if_pos hj).symm.trans hjz
  rw [mem_candidates, flushCandidate_iff, spare, Finset.mem_filter, Finset.mem_range]
  constructor
  · rintro ⟨h1, -, h2, h3, -, h4⟩
    exact ⟨h1, h2, h3, h4⟩
  · rintro ⟨h1, h2, h3, h4⟩
    exact ⟨h1, Nat.zero_le _, h2, h3, hclear, h4⟩

/-- The selection loop ends with as many blocks as half the spare ones, rounded up, or with all that are
needed. -/
theorem flushSelect_start {r : ℕ} (he : flushSelect env s.metaBlkordr (List.range env.nbBlocks) 0
      (clearOrder (nbMetaBlocks env.toGeometry) s) = .ok (r, s')) :
    Selected env.toGeometry s.metaBlkordr s' r ∧ SameData env.toGeometry s.metaBlkordr s s' ∧
      r = min (nbMetaBlocks env.toGeometry) (((spare env.toGeometry s).card + 1) / 2) := by
  have hstart : Selected env.toGeometry s.metaBlkordr
      (clearOrder (nbMetaBlocks env.toGeometry) s) 0 :=
    ⟨nofun, nofun, fun k _ hk => if_pos hk⟩
  rw [List.range_eq_range'] at he
  obtain ⟨hsel, hsame, hr⟩ := flushSelect_ok (Nat.zero_add _) hstart (Nat.succ_pos _) he
  rw [candidates_clearOrder, Nat.zero_add] at hr
  exact ⟨hsel, ⟨hsame.table, hsame.offset⟩, hr⟩

/-- If the selection loop has found all blocks, the recycling loop has nothing to do. -/
theorem flushChoose_ok (he : flushChoose env s = .ok (u, s')) : ∃ r s₁,
    Selected env.toGeometry s.metaBlkordr s₁ r ∧ SameData env.toGeometry s.metaBlkordr s s₁ ∧
      r = min (nbMetaBlocks env.toGeometry) (((spare env.toGeometry s).card + 1) / 2) ∧
      s'.metaBlkordr = s₁.metaBlkordr ∧ (r = nbMetaBlocks env.toGeometry → s' = s₁) := by
  obtain ⟨_, s₂, he₂, hcopy⟩ := bind_ok.mp he
  obtain rfl := checkOrder_ok he₂
  rw [get_bind_ok] at hcopy
  obtain ⟨_, s₃, he₃, hsel⟩ := bind_ok.mp hcopy
  obtain rfl := modify_ok.mp he₃
  obtain ⟨r, s₁, he₁, hrec⟩ := bind_ok.mp hsel
  obtain ⟨hsel, hsame, hr⟩ := flushSelect_start he₁
  refine ⟨r, s₁, hsel, hsame, hr, flushRecycle_ok hrec, fun hall => ?_⟩
  rw [hall, Nat.sub_self] at hrec
  exact (pure_ok.mp hrec).2.symm

/-- The phase chooses as it should exactly if the flash has at least twice as many spare blocks as are
needed, less one; and then no valid bucket refers to a block chosen, if none refers to an erased one. -/
theorem chosen_iff (he : flushChoose env s = .ok (u, s')) :
    (Chosen env.toGeometry s' ↔
        2 * nbMetaBlocks env.toGeometry ≤ (spare env.toGeometry s).card + 1) ∧
      ((∀ h, s.Valid env.toGeometry h → 0 < (s.blocks (s.blkOf env.toGeometry h)).currentPageOffset) →
        ((Chosen env.toGeometry s' ∧ Unreferenced env.toGeometry s') ↔
          2 * nbMetaBlocks env.toGeometry ≤ (spare env.toGeometry s).card + 1)) := by
  obtain ⟨r, s₁, hsel, hsame, hr, hord, hall⟩ := flushChoose_ok he
  have hmany : 2 * nbMetaBlocks env.toGeometry ≤ (spare env.toGeometry s).card + 1 ↔
      r = nbMetaBlocks env.toGeometry := by omega
  have hchosen : Chosen env.toGeometry s' ↔ r = nbMetaBlocks env.toGeometry := by
    constructor
    · intro hc
      by_contra hne
      -- the first entry that was left out is none
      obtain ⟨b, -, hb, -⟩ := hc.block r (by omega)
      rw [hord, hsel.rest r le_rfl (by omega)] at hb
      cases hb
    · intro hr
      rw [hall hr]
      rw [hr] at hsel
      refine ⟨fun k hk => ?_, hsel.inj⟩
      obtain ⟨b, hb, hkb, h0, hused, -⟩ := hsel.filled k hk
      exact ⟨b, hb, hkb, h0, hused⟩
  refine ⟨hchosen.trans hmany.symm, fun hrep => ?_⟩
  rw [hmany, ← hchosen]
  refine ⟨fun h => h.1, fun hc => ⟨hc, fun k hk h hv hkh => ?_⟩⟩
  have hr := hchosen.mp hc
  rw [hall hr] at hv hkh
  have hblk : s₁.blkOf env.toGeometry h = s.blkOf env.toGeometry h := by
    rw [Config.blkOf, Config.blkOf, hsame.table]
  have hv' : s.Valid env.toGeometry h := ⟨hv.1, by rw [← hsame.table]; exact hv.2⟩
  obtain ⟨b, -, hkb, h0, -, hold⟩ := hsel.filled k (hr ▸ hk)
  rw [hkh, hblk] at hkb
  obtain rfl := Option.some.inj hkb
  have hpos := hrep h hv'
  rw [← hsame.offset _ hold, h0] at hpos
  exact absurd hpos (Nat.lt_irrefl 0)

end Choose

/-- Two blocks, the second one with the metadata. -/
def twoBlocks (state : BlkState) (offset : ℕ) : Config :=
  { Config.start with
    blocks := fun b => if b = 0 then ⟨[], state, 0, 0, offset⟩ else ⟨[], .blkUsed, 0, 0, 3⟩
    metaBlkordr := fun k => if k = 0 then some 1 else none }

theorem chosen_one_spare : ∃ s', flushChoose (.ideal smallGeometry) (twoBlocks .blkFree 0) = .ok (⟨⟩, s') ∧
    Chosen smallGeometry s' := by
  obtain ⟨u, s', he⟩ : ∃ u s', flushChoose (.ideal smallGeometry) (twoBlocks .blkFree 0) = .ok (u, s') :=
    ⟨_, _, rfl⟩
  exact ⟨s', he, (chosen_iff he).1.mpr (by decide)⟩

/-- With no spare block the old metadata block is erased, and `meta_blkordr` stays at -2. -/
theorem recycled_not_entered : ¬ ∀ (env : Env) (s s' : Config) (u : PUnit),
    env.NoDriverError → (∀ k < nbMetaBlocks env.toGeometry, ∃ b < env.nbBlocks, s.metaBlkordr k = some b) →
    (∀ j < nbMetaBlocks env.toGeometry, ∀ k < nbMetaBlocks env.toGeometry,
      s.metaBlkordr j = s.metaBlkordr k → j = k) →
    flushChoose env s = .ok (u, s') → Chosen env.toGeometry s' := by
  intro h
  obtain ⟨u, s', he, hord⟩ : ∃ u s', flushChoose (.ideal smallGeometry) (twoBlocks .blkUsed 4) =
      .ok (u, s') ∧ s'.metaBlkordr 0 = none := ⟨_, _, rfl, rfl⟩
  have hone : ∀ k < nbMetaBlocks smallGeometry, k = 0 := by decide
  have hchosen := h _ _ _ _ (Env.ideal_noDriverError _)
    (fun k hk => ⟨1, by decide, by rw [hone k hk]; rfl⟩)
    (fun j hj k hk _ => (hone j hj).trans (hone k hk).symm) he
  obtain ⟨b, -, hb, -⟩ := hchosen.block 0 (by decide)
  rw [hord] at hb
  cases hb

end LkpProjects.Parallel
