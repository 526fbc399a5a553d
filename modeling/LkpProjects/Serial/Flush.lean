import LkpProjects.Serial.Effects

/-! # The serial store: what a flush does

As long as enough erased blocks are left once the listed blocks are erased, `flush_metadata` never
relocates pages, and its three loops have a closed form: `Flushed env f s snap s'` says that block
`f i` was chosen for part `i` of the metadata, that `snap` is the configuration whose bytes are
written, and that `s'` is what is left in memory and on the flash. The flush returns `-2` when it used
up the last page of the flash, and 0 otherwise (`flush_spec`).
-/
namespace LkpProjects.Serial
open Nand Bytes
set_option autoImplicit false

/-! ## When no relocation is needed -/

/-- `meta_blkordr` lists block `b`. -/
def Config.Listed (g : Geometry) (s : Config) (b : ℕ) : Prop :=
  ∃ i < g.nbMetaBlocks, s.metaBlkordr i = some b

instance (g : Geometry) (s : Config) (b : ℕ) : Decidable (s.Listed g b) :=
  inferInstanceAs (Decidable (∃ i < g.nbMetaBlocks, s.metaBlkordr i = some b))

/-- The blocks that are erased after the first loop of a flush. -/
def reusable (g : Geometry) (s : Config) : Finset ℕ :=
  (Finset.range g.nbBlocks).filter fun b => (s.blocks b).state = .blkFree ∨ s.Listed g b

/-- A flush finds an erased block for each part of the metadata, and erase counters are in range. -/
structure FlushOk (g : Geometry) (s : Config) : Prop where
  worn : ∀ b < g.nbBlocks, (s.blocks b).worn + 1 < intMax
  room : g.nbMetaBlocks ≤ (reusable g s).card

/-- What the loops of a flush rely on. -/
structure MetaOk (g : Geometry) (s : Config) : Prop where
  entryLt : ∀ i b, s.metaBlkordr i = some b → i < g.nbMetaBlocks ∧ b < g.nbBlocks
  entryInj : ∀ i j b, s.metaBlkordr i = some b → s.metaBlkordr j = some b → i = j
  freeOffset : ∀ b < g.nbBlocks, (s.blocks b).state = .blkFree → (s.blocks b).currentPageOffset = 0
  erasedFree : ∀ b < g.nbBlocks, (s.blocks b).state ≠ .blkMeta →
    (s.blocks b).currentPageOffset = 0 → (s.blocks b).state = .blkFree
  readOnly : s.readOnly = isReadOnly g s

theorem Geometry.nbMetaBlocks_pos (g : Geometry) : 0 < g.nbMetaBlocks := Nat.succ_pos _

/-! ## The operations on the flash -/

/-- The erases of the first loop. -/
def eraseOps (g : Geometry) (bs : List ℕ) : List Op :=
  bs.map fun b => .erase (b * g.pagesPerBlock) g.pagesPerBlock

/-- The page writes for part `i` of the metadata, to block `b`. -/
def flushPages (env : Env) (snap : Config) (i b : ℕ) : List (ℕ × List Byte) :=
  (b * env.pagesPerBlock, hdrPage env.toGeometry (.nandMetaData i)) :: metaWrites env snap i b

theorem metaWrites_pages (env : Env) (snap : Config) (i b : ℕ) :
    (metaWrites env snap i b).map Prod.fst =
      List.range' (b * env.pagesPerBlock + 1) (env.pagesPerBlock - 1) := by
  rw [metaWrites, List.map_map, List.range'_eq_map_range]
  apply List.map_congr_left
  intro j _
  simp only [Function.comp_apply]
  omega

/-- The block's pages, in order. -/
theorem flushPages_pages (env : Env) (snap : Config) (i b : ℕ) :
    (flushPages env snap i b).map Prod.fst =
      List.range' (b * env.pagesPerBlock) env.pagesPerBlock := by
  have hp : env.pagesPerBlock = env.pagesPerBlock - 1 + 1 := by
    have := env.pagesPerBlock_pos
    omega
  rw [flushPages, List.map_cons, metaWrites_pages]
  conv_rhs => rw [hp, List.range'_succ]
  rw [← hp]

variable {env : Env} {s s' snap : Config} {b : ℕ}

/-! ## The first loop -/

theorem flushErase_spec (hdrv : env.NoDriverError) : ∀ (is : List ℕ) (s : Config), is.Nodup →
    (∀ i j b, s.metaBlkordr i = some b → s.metaBlkordr j = some b → i = j) →
    (∀ i b, s.metaBlkordr i = some b → b < env.nbBlocks) →
    s.readOnly = isReadOnly env.toGeometry s →
      (∀ b, (flushErase env is s).blocks b =
        if ∃ i ∈ is, s.metaBlkordr i = some b then .erased ((s.blocks b).worn + 1)
        else s.blocks b) ∧
      (flushErase env is s).hashtable = s.hashtable ∧
      (flushErase env is s).metaBlkordr = s.metaBlkordr ∧
      (flushErase env is s).mtd =
        replay (eraseOps env.toGeometry (is.filterMap s.metaBlkordr)) s.mtd ∧
      (flushErase env is s).readOnly = isReadOnly env.toGeometry (flushErase env is s)
  | [], s, _, _, _, hro => ⟨fun b => by simp [flushErase], rfl, rfl, rfl, hro⟩
  | i :: is, s, hn, hinj, hlt, hro => by
      rw [List.nodup_cons] at hn
      rw [flushErase]
      cases hi : s.metaBlkordr i with
      | none =>
        obtain ⟨hb, hh, ho, hm, hr⟩ := flushErase_spec hdrv is s hn.2 hinj hlt hro
        simp only [formatEntry]
        refine ⟨fun b => ?_, hh, ho, ?_, hr⟩
        · rw [hb]
          simp [hi]
        · rw [hm, List.filterMap_cons_none hi]
      | some c =>
        have hE := (formatSingle_erased hdrv c s).2
        simp only [formatEntry]
        obtain ⟨hb, hh, ho, hm, hr⟩ := flushErase_spec hdrv is (formatSingle env c s).2 hn.2
          (by rw [hE.metaBlkordr]; exact hinj) (by rw [hE.metaBlkordr]; exact hlt)
          (hE.not_readOnly (hlt i c hi))
        rw [hE.metaBlkordr] at hb hm
        refine ⟨fun b => ?_, hh.trans hE.hashtable, ho.trans hE.metaBlkordr, ?_, hr⟩
        · rw [hb]
          by_cases hbc : b = c
          · -- its own entry is the only one of block `c`
            subst hbc
            have hnot : ¬ ∃ j ∈ is, s.metaBlkordr j = some b := by
              rintro ⟨j, hj, hjb⟩
              rw [hinj i j b hi hjb] at hn
              exact hn.1 hj
            rw [if_neg hnot, if_pos ⟨i, List.mem_cons_self, hi⟩, hE.block_self]
          · rw [hE.block_ne hbc]
            have hiff : (∃ j ∈ i :: is, s.metaBlkordr j = some b) ↔
                ∃ j ∈ is, s.metaBlkordr j = some b := by
              simp [hi, Ne.symm hbc]
            simp only [hiff]
        · rw [hm, hE.mtd, List.filterMap_cons_some hi]
          simp only [eraseOps, List.map_cons, replay_cons]

/-! ## The second loop -/

/-- The erased blocks. -/
def freeBlocks (g : Geometry) (s : Config) : Finset ℕ :=
  (Finset.range g.nbBlocks).filter fun b => (s.blocks b).state = .blkFree

theorem getMetaBlock_lt {g : Geometry} {b : ℕ} (h : getMetaBlock g s = some b) : b < g.nbBlocks := by
  unfold getMetaBlock at h
  split at h
  · rename_i h₁
    obtain rfl := Option.some.inj h
    exact (leastWorn_some h₁).1
  · exact (leastWorn_some h).1

/-- What `get_meta_block` needs to find an erased block: the free blocks are those with nothing written
to them, and no block is worn out. -/
structure Selectable (g : Geometry) (s : Config) : Prop where
  offset : ∀ b < g.nbBlocks, (s.blocks b).state = .blkFree → (s.blocks b).currentPageOffset = 0
  free : ∀ b < g.nbBlocks, (s.blocks b).state ≠ .blkMeta →
    (s.blocks b).currentPageOffset = 0 → (s.blocks b).state = .blkFree
  worn : ∀ b < g.nbBlocks, (s.blocks b).worn < intMax

theorem getMetaBlock_free {g : Geometry} {s : Config} (hS : Selectable g s)
    (hne : (freeBlocks g s).Nonempty) :
    ∃ b < g.nbBlocks, getMetaBlock g s = some b ∧ (s.blocks b).state = .blkFree := by
  obtain ⟨c, hc⟩ := hne
  simp only [freeBlocks, Finset.mem_filter, Finset.mem_range] at hc
  have hcand : decide ((s.blocks c).state ≠ .blkMeta ∧ (s.blocks c).currentPageOffset = 0) = true := by
    rw [decide_eq_true_eq, hc.2, hS.offset c hc.1 hc.2]
    exact ⟨by decide, rfl⟩
  obtain ⟨b, hb⟩ := leastWorn_isSome (fun i => decide ((s.blocks i).state ≠ .blkMeta ∧
    (s.blocks i).currentPageOffset = 0)) (fun i => (s.blocks i).worn) hc.1 hcand (hS.worn c hc.1)
  obtain ⟨hlt, hcb, -⟩ := leastWorn_some hb
  rw [decide_eq_true_eq] at hcb
  refine ⟨b, hlt, ?_, hS.free b hlt hcb.1 hcb.2⟩
  unfold getMetaBlock
  rw [hb]

/-- Marking a block for metadata leaves the others to be found. -/
theorem Selectable.mark {g : Geometry} {s s₁ : Config} {b : ℕ} (hS : Selectable g s)
    (hself : s₁.blocks b = { s.blocks b with state := .blkMeta })
    (hne : ∀ c, c ≠ b → s₁.blocks c = s.blocks c) : Selectable g s₁ where
  offset c hc hst := by
    by_cases hcb : c = b
    · rw [hcb, hself] at hst
      cases hst
    · rw [hne c hcb] at hst ⊢
      exact hS.offset c hc hst
  free c hc hst ho := by
    by_cases hcb : c = b
    · rw [hcb, hself] at hst
      exact absurd rfl hst
    · rw [hne c hcb] at hst ho ⊢
      exact hS.free c hc hst ho
  worn c hc := by
    by_cases hcb : c = b
    · subst hcb
      rw [hself]
      exact hS.worn c hc
    · rw [hne c hcb]
      exact hS.worn c hc

/-- Marking an erased block takes it from the erased ones. -/
theorem freeBlocks_erase {g : Geometry} {s s₁ : Config} {b : ℕ} (hself : (s₁.blocks b).state = .blkMeta)
    (hne : ∀ c, c ≠ b → s₁.blocks c = s.blocks c) : freeBlocks g s₁ = (freeBlocks g s).erase b := by
  ext c
  simp only [freeBlocks, Finset.mem_filter, Finset.mem_range, Finset.mem_erase]
  by_cases hc : c = b
  · rw [hc, hself]
    simp
  · rw [hne c hc]
    tauto

section Choice
variable {f : ℕ → ℕ} {is : List ℕ} {i b : ℕ}

theorem update_tail (hi : i ∉ is) : ∀ j ∈ is, Function.update f i b j = f j := by
  intro j hj
  refine Function.update_of_ne ?_ _ _
  rintro rfl
  exact hi hj

/-- A choice extended by a value it does not take stays injective. -/
theorem update_inj (hi : i ∉ is) (hb : ∀ j ∈ is, f j ≠ b) (hinj : ∀ j ∈ is, ∀ k ∈ is, f j = f k → j = k) :
    ∀ j ∈ i :: is, ∀ k ∈ i :: is, Function.update f i b j = Function.update f i b k → j = k := by
  intro j hj k hk he
  rcases List.mem_cons.mp hj with hji | hj'
  · rcases List.mem_cons.mp hk with hki | hk'
    · rw [hji, hki]
    · rw [hji, Function.update_self, update_tail hi k hk'] at he
      exact absurd he.symm (hb k hk')
  · rcases List.mem_cons.mp hk with hki | hk'
    · rw [hki, Function.update_self, update_tail hi j hj'] at he
      exact absurd he (hb j hj')
    · rw [update_tail hi j hj', update_tail hi k hk'] at he
      exact hinj j hj' k hk' he

/-- Another value is taken where it was. -/
theorem exists_update_iff (hi : i ∉ is) {c : ℕ} (hcb : c ≠ b) :
    (∃ j ∈ i :: is, Function.update f i b j = c) ↔ ∃ j ∈ is, f j = c := by
  constructor
  · rintro ⟨j, hj, hjc⟩
    rcases List.mem_cons.mp hj with rfl | hj
    · rw [Function.update_self] at hjc
      exact absurd hjc.symm hcb
    · exact ⟨j, hj, by rw [← hjc, update_tail hi j hj]⟩
  · rintro ⟨j, hj, hjc⟩
    exact ⟨j, List.mem_cons_of_mem _ hj, by rw [update_tail hi j hj, hjc]⟩

end Choice

theorem flushSelect_spec (env : Env) : ∀ (is : List ℕ) (s : Config), is.Nodup →
    Selectable env.toGeometry s → is.length ≤ (freeBlocks env.toGeometry s).card →
      ∃ (f : ℕ → ℕ) (s' : Config), flushSelect env is s = .ok s' ∧
        (∀ i ∈ is, f i < env.nbBlocks ∧ (s.blocks (f i)).state = .blkFree) ∧
        (∀ i ∈ is, ∀ j ∈ is, f i = f j → i = j) ∧
        (∀ i, s'.metaBlkordr i = if i ∈ is then some (f i) else s.metaBlkordr i) ∧
        (∀ b, s'.blocks b = if ∃ i ∈ is, f i = b then { s.blocks b with state := .blkMeta }
          else s.blocks b) ∧
        s'.hashtable = s.hashtable ∧ s'.mtd = s.mtd ∧ s'.readOnly = s.readOnly
  | [], s, _, _, _ =>
      ⟨fun _ => 0, s, rfl, by simp, by simp, by simp, by simp, rfl, rfl, rfl⟩
  | i :: is, s, hn, hS, hcard => by
      rw [List.nodup_cons] at hn
      rw [List.length_cons] at hcard
      obtain ⟨b, hlt, hb, hst⟩ := getMetaBlock_free hS (Finset.card_pos.mp (by omega))
      -- the block is erased, so there is nothing to move out of it
      have hmv : movePagesToOtherBlock env b s = .ok (0, s) := by
        rw [movePagesToOtherBlock, if_pos hst]
      generalize hs₁ : ({ s with metaBlkordr := Function.update s.metaBlkordr i (some b) } :
        Config).setState b .blkMeta = s₁
      have hself : s₁.blocks b = { s.blocks b with state := .blkMeta } := by
        rw [← hs₁]
        simp [Config.setState]
      have hne : ∀ c, c ≠ b → s₁.blocks c = s.blocks c := fun c hc => by
        rw [← hs₁, Config.setState, Config.modifyBlk_blocks_ne hc]
      have hstep : flushSelect env (i :: is) s = flushSelect env is s₁ := by
        simp only [flushSelect, hb, hmv, hs₁]
      have hfree₁ : freeBlocks env.toGeometry s₁ = (freeBlocks env.toGeometry s).erase b :=
        freeBlocks_erase (by rw [hself]) hne
      have hmem : b ∈ freeBlocks env.toGeometry s := by
        simp only [freeBlocks, Finset.mem_filter, Finset.mem_range]
        exact ⟨hlt, hst⟩
      obtain ⟨f, s', he, hf, hinj, hord, hblk, hh, hm, hr⟩ := flushSelect_spec env is s₁ hn.2
        (hS.mark hself hne) (by rw [hfree₁, Finset.card_erase_of_mem hmem]; omega)
      have hfb : ∀ j ∈ is, f j ≠ b := by
        intro j hj hjb
        have := (hf j hj).2
        rw [hjb, hself] at this
        cases this
      refine ⟨Function.update f i b, s', hstep.trans he, ?_, update_inj hn.1 hfb hinj, ?_, ?_, ?_, ?_, ?_⟩
      · intro j hj
        rcases List.mem_cons.mp hj with rfl | hj
        · rw [Function.update_self]
          exact ⟨hlt, hst⟩
        · rw [update_tail hn.1 j hj]
          have := hf j hj
          rw [hne (f j) (hfb j hj)] at this
          exact this
      · intro j
        rw [hord, ← hs₁]
        by_cases hji : j = i
        · subst hji
          simp [hn.1, Config.setState]
        · simp [hji, Config.setState]
      · intro c
        rw [hblk]
        by_cases hcb : c = b
        · subst hcb
          have hnot : ¬ ∃ j ∈ is, f j = c := by
            rintro ⟨j, hj, hjc⟩
            exact hfb j hj hjc
          rw [if_neg hnot, if_pos ⟨i, List.mem_cons_self, Function.update_self ..⟩, hself]
        · simp only [exists_update_iff hn.1 hcb, hne c hcb]
      · rw [hh, ← hs₁]
        rfl
      · rw [hm, ← hs₁]
        rfl
      · rw [hr, ← hs₁]
        rfl

/-! ## The write loop -/

/-- The pages of one block are written in order; only the last one can fill the flash. -/
theorem writePages_spec (hdrv : env.NoDriverError) (hb : b < env.nbBlocks) :
    ∀ (ws : List (ℕ × List Byte)) (s : Config), s.readOnly = false →
      s.readOnly = isReadOnly env.toGeometry s →
      ws.map Prod.fst = List.range' (b * env.pagesPerBlock + (s.blocks b).currentPageOffset) ws.length →
      (s.blocks b).currentPageOffset + ws.length ≤ env.pagesPerBlock →
      ∃ s', writePages env ws s = (!s'.readOnly, s') ∧
        s'.blocks = Function.update s.blocks b { s.blocks b with
          currentPageOffset := (s.blocks b).currentPageOffset + ws.length } ∧
        s'.hashtable = s.hashtable ∧ s'.metaBlkordr = s.metaBlkordr ∧
        s'.mtd = replay (programs ws) s.mtd ∧ s'.readOnly = isReadOnly env.toGeometry s'
  | [], s, hro, hco, _, _ => ⟨s, by rw [writePages, hro]; rfl, by simp, rfl, rfl, rfl, hco⟩
  | (p, d) :: ws, s, hro, _, hp, hle => by
      rw [List.map_cons, List.length_cons, List.range'_succ, List.cons.injEq] at hp
      obtain ⟨rfl, hps⟩ := hp
      rw [List.length_cons] at hle
      have ho : (s.blocks b).currentPageOffset < env.pagesPerBlock := by omega
      generalize hs₁ : s.wrote env.toGeometry
        (b * env.pagesPerBlock + (s.blocks b).currentPageOffset) d = s₁
      have hblk : s₁.blocks = Function.update s.blocks b { s.blocks b with
          currentPageOffset := (s.blocks b).currentPageOffset + 1 } := by
        rw [← hs₁, wrote_blocks, Geometry.page_div ho]
      have hself : s₁.blocks b = { s.blocks b with
          currentPageOffset := (s.blocks b).currentPageOffset + 1 } := by
        rw [hblk, Function.update_self]
      have hco₁ : s₁.readOnly = isReadOnly env.toGeometry s₁ := by rw [← hs₁, wrote_readOnly]
      have hw : writePage env (b * env.pagesPerBlock + (s.blocks b).currentPageOffset) d s =
          (writeCode env.toGeometry s₁, s₁) := by rw [writePage_eq hdrv hro, hs₁]
      have hmtd : replay (programs ((b * env.pagesPerBlock + (s.blocks b).currentPageOffset, d) :: ws))
          s.mtd = replay (programs ws) s₁.mtd := by
        rw [programs, List.map_cons, replay_cons, ← hs₁]
        rfl
      rw [hmtd]
      cases hro₁ : s₁.readOnly with
      | true =>
        -- the flash is full, so this was the block's last page
        have hws : ws = [] := by
          have hfull := isReadOnly_iff.mp (hco₁ ▸ hro₁) b hb
          rw [hself] at hfull
          change env.pagesPerBlock ≤ (s.blocks b).currentPageOffset + 1 at hfull
          exact List.length_eq_zero_iff.mp (by omega)
        subst hws
        refine ⟨s₁, ?_, hblk, by rw [← hs₁]; rfl, by rw [← hs₁]; rfl, rfl, hco₁⟩
        have hcode : writeCode env.toGeometry s₁ = -1 := by
          rw [writeCode, ← hco₁, hro₁]
          rfl
        simp only [writePages, hw, hcode, hro₁]
        rfl
      | false =>
        have hcode : writeCode env.toGeometry s₁ = 0 := by
          rw [writeCode, ← hco₁, hro₁]
          rfl
        obtain ⟨s', he, hb', hh, hord, hm, hr⟩ := writePages_spec hdrv hb ws s₁ hro₁ hco₁
          (by
            rw [hself]
            exact hps)
          (by
            rw [hself]
            change (s.blocks b).currentPageOffset + 1 + ws.length ≤ env.pagesPerBlock
            omega)
        refine ⟨s', ?_, ?_, hh.trans (by rw [← hs₁]; rfl), hord.trans (by rw [← hs₁]; rfl), hm, hr⟩
        · simp only [writePages, hw, hcode, he]
        · rw [hb', hself, hblk, Function.update_idem, List.length_cons]
          congr 2
          simp only [BlkInfo.mk.injEq, true_and]
          omega

/-- The code of `flush_metadata`. -/
def flushCode (s : Config) : ℤ := if s.readOnly then -2 else 0

/-- One turn of the write loop: part `i` of the metadata fills its block. -/
theorem flushWrite_cons (hdrv : env.NoDriverError) {snap s : Config} {i b : ℕ}
    (hco : s.readOnly = isReadOnly env.toGeometry s) (hord : s.metaBlkordr i = some b)
    (hlt : b < env.nbBlocks) (ho : (s.blocks b).currentPageOffset = 0) :
    ∃ s₂, (∀ is, flushWrite env snap (i :: is) s =
        if s₂.readOnly then .ok (-2, s₂) else flushWrite env snap is s₂) ∧
      (∀ c, s₂.blocks c = if c = b then { s.blocks c with currentPageOffset := env.pagesPerBlock }
        else s.blocks c) ∧
      s₂.hashtable = s.hashtable ∧ s₂.metaBlkordr = s.metaBlkordr ∧
      s₂.mtd = replay (programs (flushPages env snap i b)) s.mtd ∧
      s₂.readOnly = isReadOnly env.toGeometry s₂ := by
  have hpos := env.pagesPerBlock_pos
  have htwo := env.two_le_pagesPerBlock
  have hro : s.readOnly = false := by
    rw [hco]
    exact isReadOnly_eq_false hlt (by rw [ho]; exact hpos)
  have hdiv : b * env.pagesPerBlock / env.pagesPerBlock = b := Nat.mul_div_cancel _ hpos
  -- the header
  generalize hs₁ : s.wrote env.toGeometry (b * env.pagesPerBlock)
    (hdrPage env.toGeometry (.nandMetaData i)) = s₁
  have hhdr : writeHdr env (b * env.pagesPerBlock) (.nandMetaData i) s = s₁ := by
    simp only [writeHdr, writePage_eq hdrv hro, hs₁]
  have hblk₁ : s₁.blocks = Function.update s.blocks b
      { s.blocks b with currentPageOffset := 1 } := by
    rw [← hs₁, wrote_blocks, hdiv, ho]
  have hself₁ : s₁.blocks b = { s.blocks b with currentPageOffset := 1 } := by
    rw [hblk₁, Function.update_self]
  have hco₁ : s₁.readOnly = isReadOnly env.toGeometry s₁ := by rw [← hs₁, wrote_readOnly]
  have hro₁ : s₁.readOnly = false := by
    rw [hco₁]
    refine isReadOnly_eq_false hlt ?_
    rw [hself₁]
    exact htwo
  -- the block's other pages
  have hlen : (metaWrites env snap i b).length = env.pagesPerBlock - 1 := by
    simp [metaWrites]
  obtain ⟨s₂, he₂, hblk₂, hh₂, hord₂, hm₂, hr₂⟩ := writePages_spec hdrv hlt
    (metaWrites env snap i b) s₁ hro₁ hco₁
    (by rw [metaWrites_pages, hself₁, hlen])
    (by rw [hself₁, hlen]; simp only; omega)
  refine ⟨s₂, fun is => ?_, fun c => ?_, hh₂.trans (by rw [← hs₁]; rfl), hord₂.trans (by rw [← hs₁]; rfl),
    ?_, hr₂⟩
  · simp only [flushWrite, hord, hhdr, he₂]
    cases s₂.readOnly <;> rfl
  · rw [hblk₂, hself₁, hlen, hblk₁, Function.update_idem]
    by_cases hc : c = b
    · rw [hc, Function.update_self, if_pos rfl]
      simp only [BlkInfo.mk.injEq, true_and]
      omega
    · rw [Function.update_of_ne hc, if_neg hc]
  · rw [hm₂, flushPages, programs, programs, List.map_cons, replay_cons, ← hs₁]
    rfl

theorem flushWrite_spec (hdrv : env.NoDriverError) (snap : Config) (f : ℕ → ℕ) : ∀ (is : List ℕ) (s : Config),
    is ≠ [] → is.Nodup → (∀ i ∈ is, ∀ j ∈ is, f i = f j → i = j) →
    s.readOnly = isReadOnly env.toGeometry s →
    (∀ i ∈ is, s.metaBlkordr i = some (f i) ∧ f i < env.nbBlocks ∧
      (s.blocks (f i)).currentPageOffset = 0) →
      ∃ s', flushWrite env snap is s = .ok (flushCode s', s') ∧
        (∀ b, s'.blocks b = if ∃ i ∈ is, f i = b then
          { s.blocks b with currentPageOffset := env.pagesPerBlock } else s.blocks b) ∧
        s'.hashtable = s.hashtable ∧ s'.metaBlkordr = s.metaBlkordr ∧
        s'.mtd = replay (programs (is.flatMap fun i => flushPages env snap i (f i))) s.mtd ∧
        s'.readOnly = isReadOnly env.toGeometry s'
  | [], _, hne, _, _, _, _ => absurd rfl hne
  | i :: is, s, _, hn, hinj, hco, hf => by
      rw [List.nodup_cons] at hn
      obtain ⟨hord, hlt, ho⟩ := hf i List.mem_cons_self
      obtain ⟨s₂, hstep, hblk, hh, hord', hm, hr₂⟩ := flushWrite_cons hdrv hco hord hlt ho
      have hstep := hstep is
      cases his : is with
      | nil =>
        refine ⟨s₂, ?_, fun b => ?_, hh, hord', ?_, hr₂⟩
        · rw [his] at hstep
          rw [hstep, flushCode, flushWrite]
          cases s₂.readOnly <;> rfl
        · rw [hblk]
          simp [eq_comm]
        · rw [hm]
          simp
      | cons j js =>
        rw [← his]
        have hfj : ∀ k ∈ is, f k ≠ f i := fun k hk he =>
          hn.1 (hinj k (List.mem_cons_of_mem _ hk) i List.mem_cons_self he ▸ hk)
        have hf₂ : ∀ k ∈ is, s₂.metaBlkordr k = some (f k) ∧ f k < env.nbBlocks ∧
            (s₂.blocks (f k)).currentPageOffset = 0 := by
          intro k hk
          obtain ⟨h1, h2, h3⟩ := hf k (List.mem_cons_of_mem _ hk)
          rw [hord', hblk, if_neg (hfj k hk)]
          exact ⟨h1, h2, h3⟩
        -- the next block is still erased, so the flash is not full yet
        have hro₂ : s₂.readOnly = false := by
          obtain ⟨-, h2, h3⟩ := hf₂ j (his ▸ List.mem_cons_self)
          rw [hr₂]
          exact isReadOnly_eq_false h2 (by rw [h3]; exact env.pagesPerBlock_pos)
        obtain ⟨s', he, hb', hh', ho', hm', hr'⟩ := flushWrite_spec hdrv snap f is s₂ (by simp [his]) hn.2
          (fun k hk l hl => hinj k (List.mem_cons_of_mem _ hk) l (List.mem_cons_of_mem _ hl)) hr₂ hf₂
        refine ⟨s', ?_, fun b => ?_, hh'.trans hh, ho'.trans hord', ?_, hr'⟩
        · rw [hstep, hro₂]
          exact he
        · rw [hb', hblk]
          by_cases hb : b = f i
          · have hnot : ¬ ∃ k ∈ is, f k = b := by
              rintro ⟨k, hk, hkb⟩
              exact hfj k hk (hkb.trans hb)
            rw [if_neg hnot, if_pos hb, if_pos ⟨i, List.mem_cons_self, hb.symm⟩]
          · have hiff : (∃ k ∈ i :: is, f k = b) ↔ ∃ k ∈ is, f k = b := by
              simp [Ne.symm hb]
            simp only [hiff, if_neg hb]
        · rw [hm', hm, List.flatMap_cons, programs, programs, programs, List.map_append,
            replay_append]

/-! ## The whole flush -/

/-- A block's record after the first loop. -/
def Config.afterErase (g : Geometry) (s : Config) (b : ℕ) : BlkInfo :=
  if s.Listed g b then .erased ((s.blocks b).worn + 1) else s.blocks b

/-- Block `b` is chosen for some part of the metadata. -/
def Chosen (g : Geometry) (f : ℕ → ℕ) (b : ℕ) : Prop := ∃ i < g.nbMetaBlocks, f i = b

instance (g : Geometry) (f : ℕ → ℕ) (b : ℕ) : Decidable (Chosen g f b) :=
  inferInstanceAs (Decidable (∃ i < g.nbMetaBlocks, f i = b))

/-- A flush without relocation: `f` is the choice of blocks, `snap` the configuration that is written
out, `s'` what the flush leaves. -/
structure Flushed (env : Env) (f : ℕ → ℕ) (s snap s' : Config) : Prop where
  lt : ∀ i < env.nbMetaBlocks, f i < env.nbBlocks
  inj : ∀ i < env.nbMetaBlocks, ∀ j < env.nbMetaBlocks, f i = f j → i = j
  free : ∀ i < env.nbMetaBlocks, (s.afterErase env.toGeometry (f i)).state = .blkFree ∧
    (s.afterErase env.toGeometry (f i)).currentPageOffset = 0
  snapBlocks : ∀ b, snap.blocks b = if Chosen env.toGeometry f b then
    { s.afterErase env.toGeometry b with state := .blkMeta } else s.afterErase env.toGeometry b
  blocks : ∀ b, s'.blocks b = if Chosen env.toGeometry f b then
    { s.afterErase env.toGeometry b with
      state := .blkMeta, currentPageOffset := env.pagesPerBlock }
    else s.afterErase env.toGeometry b
  snapTable : snap.hashtable = s.hashtable
  table : s'.hashtable = s.hashtable
  snapOrd : ∀ i, snap.metaBlkordr i = if i < env.nbMetaBlocks then some (f i) else none
  ord : s'.metaBlkordr = snap.metaBlkordr
  snapMtd : snap.mtd = replay (eraseOps env.toGeometry
    ((List.range env.nbMetaBlocks).filterMap s.metaBlkordr)) s.mtd
  mtd : s'.mtd = replay (programs ((List.range env.nbMetaBlocks).flatMap fun i =>
    flushPages env snap i (f i))) snap.mtd
  snapReadOnly : snap.readOnly = isReadOnly env.toGeometry snap
  readOnly : s'.readOnly = isReadOnly env.toGeometry s'

theorem flushErase_afterErase (hdrv : env.NoDriverError) (hM : MetaOk env.toGeometry s) (b : ℕ) :
    (flushErase env (List.range env.nbMetaBlocks) s).blocks b = s.afterErase env.toGeometry b := by
  rw [(flushErase_spec hdrv _ s List.nodup_range hM.entryInj (fun i b h => (hM.entryLt i b h).2)
    hM.readOnly).1, Config.afterErase]
  simp only [List.mem_range]
  exact if_congr Iff.rfl rfl rfl

/-- A block that is erased in the first loop is as `format_single` leaves it. -/
theorem afterErase_cases (g : Geometry) (s : Config) (b : ℕ) :
    (s.Listed g b ∧ s.afterErase g b = .erased ((s.blocks b).worn + 1)) ∨
      (¬ s.Listed g b ∧ s.afterErase g b = s.blocks b) := by
  by_cases hl : s.Listed g b
  · exact Or.inl ⟨hl, if_pos hl⟩
  · exact Or.inr ⟨hl, if_neg hl⟩

/-- A block that is not free after the first loop was not erased by it. -/
theorem afterErase_eq {g : Geometry} (h : (s.afterErase g b).state ≠ .blkFree) :
    ¬ s.Listed g b ∧ s.afterErase g b = s.blocks b := by
  rcases afterErase_cases g s b with ⟨-, he⟩ | ⟨hl, he⟩
  · rw [he] at h
    exact absurd rfl h
  · exact ⟨hl, he⟩

theorem afterErase_freeOffset {g : Geometry} (hM : MetaOk g s) (hb : b < g.nbBlocks)
    (hst : (s.afterErase g b).state = .blkFree) : (s.afterErase g b).currentPageOffset = 0 := by
  rcases afterErase_cases g s b with ⟨-, he⟩ | ⟨-, he⟩
  · rw [he]
    rfl
  · rw [he] at hst ⊢
    exact hM.freeOffset b hb hst

theorem afterErase_erasedFree {g : Geometry} (hM : MetaOk g s) (hb : b < g.nbBlocks)
    (hm : (s.afterErase g b).state ≠ .blkMeta) (h0 : (s.afterErase g b).currentPageOffset = 0) :
    (s.afterErase g b).state = .blkFree := by
  rcases afterErase_cases g s b with ⟨-, he⟩ | ⟨-, he⟩
  · rw [he]
    rfl
  · rw [he] at hm h0 ⊢
    exact hM.erasedFree b hb hm h0

theorem flush_spec (hdrv : env.NoDriverError) (hM : MetaOk env.toGeometry s)
    (hok : FlushOk env.toGeometry s) :
    ∃ f snap s', flushMetadata env s = .ok (flushCode s', s') ∧ Flushed env f s snap s' := by
  obtain ⟨-, hh₁, hord₁, hm₁, hr₁⟩ := flushErase_spec hdrv (List.range env.nbMetaBlocks) s
    List.nodup_range hM.entryInj (fun i b h => (hM.entryLt i b h).2) hM.readOnly
  have hblk₁ := flushErase_afterErase hdrv hM
  generalize hs₁ : flushErase env (List.range env.nbMetaBlocks) s = s₁ at *
  have hfree₁ : freeBlocks env.toGeometry s₁ = reusable env.toGeometry s := by
    ext b
    simp only [freeBlocks, reusable, Finset.mem_filter, hblk₁]
    rcases afterErase_cases env.toGeometry s b with ⟨hl, he⟩ | ⟨hl, he⟩
    · simp [he, hl, BlkInfo.erased]
    · simp [he, hl]
  have hroom := hok.room
  have hS : Selectable env.toGeometry s₁ := by
    constructor
    case offset =>
      intro b hb hst
      rw [hblk₁] at hst ⊢
      exact afterErase_freeOffset hM hb hst
    case free =>
      intro b hb hst ho
      rw [hblk₁] at hst ho ⊢
      exact afterErase_erasedFree hM hb hst ho
    case worn =>
      intro b hb
      have := hok.worn b hb
      rw [hblk₁]
      rcases afterErase_cases env.toGeometry s b with ⟨-, he⟩ | ⟨-, he⟩
      · rw [he]
        exact this
      · rw [he]
        omega
  obtain ⟨f, snap, hsel, hf, hinj, hord₂, hblk₂, hh₂, hm₂, hr₂⟩ := flushSelect_spec env
    (List.range env.nbMetaBlocks) s₁ List.nodup_range hS (by rw [List.length_range, hfree₁]; exact hroom)
  simp only [List.mem_range] at hf hinj hord₂ hblk₂
  have hfree : ∀ i < env.nbMetaBlocks, (s.afterErase env.toGeometry (f i)).state = .blkFree ∧
      (s.afterErase env.toGeometry (f i)).currentPageOffset = 0 := by
    intro i hi
    obtain ⟨hlt, hst⟩ := hf i hi
    rw [hblk₁] at hst
    exact ⟨hst, afterErase_freeOffset hM hlt hst⟩
  have hsnap : ∀ b, snap.blocks b = if Chosen env.toGeometry f b then
      { s.afterErase env.toGeometry b with state := .blkMeta }
      else s.afterErase env.toGeometry b := by
    intro b
    rw [hblk₂, hblk₁]
    rfl
  have hco₂ : snap.readOnly = isReadOnly env.toGeometry snap := by
    rw [hr₂, hr₁]
    refine (isReadOnly_congr fun b _ => ?_).symm
    rw [hsnap, hblk₁]
    split_ifs <;> rfl
  have hrange : List.range env.nbMetaBlocks ≠ [] := by
    have := env.nbMetaBlocks_pos
    rw [ne_eq, List.range_eq_nil]
    omega
  obtain ⟨s', hwr, hblk₃, hh₃, hord₃, hm₃, hr₃⟩ := flushWrite_spec hdrv snap f
    (List.range env.nbMetaBlocks) snap hrange List.nodup_range
    (fun i hi j hj => hinj i (List.mem_range.mp hi) j (List.mem_range.mp hj)) hco₂
    (fun i hi => by
      rw [List.mem_range] at hi
      rw [hord₂, if_pos hi, hsnap, if_pos ⟨i, hi, rfl⟩]
      exact ⟨rfl, (hf i hi).1, (hfree i hi).2⟩)
  simp only [List.mem_range] at hblk₃
  refine ⟨f, snap, s', ?_, fun i hi => (hf i hi).1, hinj, hfree, hsnap, fun b => ?_,
    hh₂.trans hh₁, hh₃.trans (hh₂.trans hh₁), fun i => ?_, hord₃, hm₂.trans hm₁, hm₃, hco₂, hr₃⟩
  · rw [flushMetadata, hs₁, hsel]
    exact hwr
  · rw [hblk₃, hsnap]
    by_cases hc : Chosen env.toGeometry f b
    · rw [if_pos hc, if_pos hc]
      exact if_pos hc
    · rw [if_neg hc, if_neg hc]
      exact if_neg hc
  · rw [hord₂, hord₁]
    split_ifs with hi
    · rfl
    · cases ho : s.metaBlkordr i with
      | none => rfl
      | some b => exact absurd (hM.entryLt i b ho).1 hi

/-! ## What the flush does to the flash -/

theorem programmed_eraseOps (g : Geometry) : ∀ (bs : List ℕ) (h : History) (p : ℕ),
    programmed (replay (eraseOps g bs) h) p =
      if p / g.pagesPerBlock ∈ bs then false else programmed h p
  | [], h, p => by simp [eraseOps]
  | b :: bs, h, p => by
      rw [eraseOps, List.map_cons, replay_cons, ← eraseOps, programmed_eraseOps g bs]
      by_cases hp : p / g.pagesPerBlock = b
      · rw [programmed_erase_mem (Geometry.mem_block_iff.mpr hp), hp]
        simp
      · rw [programmed_erase_not_mem (mt Geometry.mem_block_iff.mp hp)]
        simp [hp]

theorem content_eraseOps (g : Geometry) (size : ℕ) : ∀ (bs : List ℕ) (h : History) (p : ℕ),
    content size (replay (eraseOps g bs) h) p =
      if p / g.pagesPerBlock ∈ bs then erased size else content size h p
  | [], h, p => by simp [eraseOps]
  | b :: bs, h, p => by
      rw [eraseOps, List.map_cons, replay_cons, ← eraseOps, content_eraseOps g size bs]
      by_cases hp : p / g.pagesPerBlock = b
      · rw [content_erase_mem (Geometry.mem_block_iff.mpr hp), hp]
        simp
      · rw [content_erase_not_mem (mt Geometry.mem_block_iff.mp hp)]
        simp [hp]

theorem mem_listed (g : Geometry) (s : Config) (b : ℕ) :
    b ∈ (List.range g.nbMetaBlocks).filterMap s.metaBlkordr ↔ s.Listed g b := by
  simp [Config.Listed]

/-- All page writes of a flush. -/
def allPages (env : Env) (snap : Config) (f : ℕ → ℕ) : List (ℕ × List Byte) :=
  (List.range env.nbMetaBlocks).flatMap fun i => flushPages env snap i (f i)

theorem allPages_pages (env : Env) (snap : Config) (f : ℕ → ℕ) :
    (allPages env snap f).map Prod.fst = (List.range env.nbMetaBlocks).flatMap fun i =>
      List.range' (f i * env.pagesPerBlock) env.pagesPerBlock := by
  simp only [allPages, List.map_flatMap, flushPages_pages]

/-- A flush writes to the pages of the chosen blocks, all of them. -/
theorem mem_allPages (env : Env) (snap : Config) (f : ℕ → ℕ) (p : ℕ) :
    p ∈ (allPages env snap f).map Prod.fst ↔
      Chosen env.toGeometry f (p / env.pagesPerBlock) := by
  rw [allPages_pages, List.mem_flatMap]
  refine exists_congr fun i => ?_
  rw [List.mem_range, List.mem_range'_1, Geometry.mem_block_iff]
  exact and_congr_right fun _ => eq_comm

theorem nodup_allPages (env : Env) (snap : Config) {f : ℕ → ℕ}
    (hinj : ∀ i < env.nbMetaBlocks, ∀ j < env.nbMetaBlocks, f i = f j → i = j) :
    ((allPages env snap f).map Prod.fst).Nodup := by
  rw [allPages_pages, List.nodup_flatMap]
  refine ⟨fun i _ => List.nodup_range', List.nodup_range.imp_of_mem ?_⟩
  intro i j hi hj hij p hp hp'
  rw [List.mem_range'_1, Geometry.mem_block_iff] at hp hp'
  exact hij (hinj i (List.mem_range.mp hi) j (List.mem_range.mp hj) (hp.symm.trans hp'))

theorem length_of_mem_allPages {f : ℕ → ℕ} {w : ℕ × List Byte} (hw : w ∈ allPages env snap f) :
    w.2.length = env.pageSize := by
  obtain ⟨i, -, hw⟩ := List.mem_flatMap.mp hw
  rcases List.mem_cons.mp hw with rfl | hw
  · exact hdrPage_length env.toGeometry (.nandMetaData i)
  · obtain ⟨j, -, rfl⟩ := List.mem_map.mp hw
    simp [metaPage]

namespace Flushed
variable {f : ℕ → ℕ}

theorem entry (hF : Flushed env f s snap s') {i : ℕ} (hi : snap.metaBlkordr i = some b) :
    i < env.nbMetaBlocks ∧ f i = b := by
  rw [hF.snapOrd] at hi
  split at hi
  · next hlt => exact ⟨hlt, Option.some.inj hi⟩
  · cases hi

theorem entryLt (hF : Flushed env f s snap s') (i b : ℕ) (hi : snap.metaBlkordr i = some b) :
    i < env.nbMetaBlocks ∧ b < env.nbBlocks := by
  obtain ⟨hlt, rfl⟩ := hF.entry hi
  exact ⟨hlt, hF.lt i hlt⟩

theorem entryInj (hF : Flushed env f s snap s') (i j b : ℕ) (hi : snap.metaBlkordr i = some b)
    (hj : snap.metaBlkordr j = some b) : i = j := by
  obtain ⟨hlt, rfl⟩ := hF.entry hi
  obtain ⟨hlt', he⟩ := hF.entry hj
  exact hF.inj i hlt j hlt' he.symm

/-- A block that is no metadata in the snapshot was not chosen. -/
theorem unchosen (hF : Flushed env f s snap s') (hm : (snap.blocks b).state ≠ .blkMeta) :
    ¬ Chosen env.toGeometry f b ∧ snap.blocks b = s.afterErase env.toGeometry b := by
  have hc : ¬ Chosen env.toGeometry f b := by
    intro hc
    rw [hF.snapBlocks, if_pos hc] at hm
    exact hm rfl
  exact ⟨hc, (hF.snapBlocks b).trans (if_neg hc)⟩

theorem programmed_snap (hF : Flushed env f s snap s') (p : ℕ) : programmed snap.mtd p =
    if s.Listed env.toGeometry (p / env.pagesPerBlock) then false else programmed s.mtd p := by
  rw [hF.snapMtd, programmed_eraseOps]
  simp only [mem_listed]

theorem content_snap (hF : Flushed env f s snap s') (p : ℕ) : content env.pageSize snap.mtd p =
    if s.Listed env.toGeometry (p / env.pagesPerBlock) then erased env.pageSize
    else content env.pageSize s.mtd p := by
  rw [hF.snapMtd, content_eraseOps]
  simp only [mem_listed]

theorem programmed_ne (hF : Flushed env f s snap s') {p : ℕ}
    (hp : ¬ Chosen env.toGeometry f (p / env.pagesPerBlock)) :
    programmed s'.mtd p = programmed snap.mtd p := by
  rw [hF.mtd]
  exact programmed_programs_not_mem _ _ (mt (mem_allPages env snap f p).mp hp)

theorem content_ne (hF : Flushed env f s snap s') {p : ℕ}
    (hp : ¬ Chosen env.toGeometry f (p / env.pagesPerBlock)) :
    content env.pageSize s'.mtd p = content env.pageSize snap.mtd p := by
  rw [hF.mtd]
  exact content_programs_not_mem _ _ (mt (mem_allPages env snap f p).mp hp)

theorem content_mem (hF : Flushed env f s snap s') {w : ℕ × List Byte}
    (hw : w ∈ allPages env snap f) (hp : programmed snap.mtd w.1 = false) :
    content env.pageSize s'.mtd w.1 = w.2 := by
  rw [hF.mtd]
  exact content_programs_mem _ _ (nodup_allPages env snap hF.inj) hw hp (length_of_mem_allPages hw)

/-- There are no more parts than blocks. -/
theorem nbMetaBlocks_le (hF : Flushed env f s snap s') : env.nbMetaBlocks ≤ env.nbBlocks := by
  have h := Finset.card_le_card_of_injOn f (s := Finset.range env.nbMetaBlocks)
    (t := Finset.range env.nbBlocks)
    (fun i hi => by simpa using hF.lt i (by simpa using hi))
    (fun i hi j hj he => hF.inj i (by simpa using hi) j (by simpa using hj) he)
  simpa using h

end Flushed

end LkpProjects.Serial
