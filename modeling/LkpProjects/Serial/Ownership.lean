import LkpProjects.Serial.Moves
import LkpProjects.Serial.Mount
import LkpProjects.Serial.StoreSteps

/-! # The serial store: who owns a block

`BlockInv` ties the block records to the flash and to `meta_blkordr`: an erased block is free of
everything, a valid bucket points into a used block, and a block whose first page is a metadata header
is marked and listed. Moves keep it when they leave metadata blocks alone, and so do a flush that finds
enough erased blocks and a mount of what it wrote. From it comes that a flush never erases a live page
(`metadata_blocks_owned`), in runs that avoid the ways in which the code loses track of the list.
-/
namespace LkpProjects.Serial
open Nand Bytes Stepwise
set_option autoImplicit false

/-- Block records, flash and `meta_blkordr` agree. -/
structure BlockInv (env : Env) (s : Config) : Prop where
  entryLt : ∀ i b, s.metaBlkordr i = some b → i < env.nbMetaBlocks ∧ b < env.nbBlocks
  entryInj : ∀ i j b, s.metaBlkordr i = some b → s.metaBlkordr j = some b → i = j
  metaListed : ∀ b < env.nbBlocks, (s.blocks b).state = .blkMeta → s.Listed env.toGeometry b
  validUsed : ∀ h, s.Valid env.toGeometry h → s.blkOf env.toGeometry h < env.nbBlocks ∧
    (s.blocks (s.blkOf env.toGeometry h)).state = .blkUsed
  notInvalid : ∀ b < env.nbBlocks, (s.blocks b).state ≠ .blkInvalid
  free : ∀ b < env.nbBlocks, (s.blocks b).state = .blkFree →
    (s.blocks b).currentPageOffset = 0 ∧ (s.blocks b).nbInvalid = 0 ∧
      ∀ o < env.pagesPerBlock, programmed s.mtd (b * env.pagesPerBlock + o) = false
  used : ∀ b < env.nbBlocks, (s.blocks b).state = .blkUsed → 0 < (s.blocks b).currentPageOffset
  metaBlk : ∀ b < env.nbBlocks, (s.blocks b).state = .blkMeta → (s.blocks b).nbInvalid = 0
  offsetLe : ∀ b < env.nbBlocks, (s.blocks b).currentPageOffset ≤ env.pagesPerBlock
  header : ∀ b < env.nbBlocks, (s.blocks b).state ≠ .blkMeta → rankAt env s.mtd b = none
  readOnly : s.readOnly = isReadOnly env.toGeometry s

variable {env : Env} {s s' snap t : Config} {f : ℕ → ℕ}

namespace BlockInv

theorem state_cases (hB : BlockInv env s) {b : ℕ} (hb : b < env.nbBlocks)
    (hst : (s.blocks b).state ≠ .blkMeta) :
    (s.blocks b).state = .blkFree ∨ (s.blocks b).state = .blkUsed := by
  have := hB.notInvalid b hb
  cases h : (s.blocks b).state <;> simp_all

theorem free_of_offset (hB : BlockInv env s) {b : ℕ} (hb : b < env.nbBlocks)
    (hst : (s.blocks b).state ≠ .blkMeta) (ho : (s.blocks b).currentPageOffset = 0) :
    (s.blocks b).state = .blkFree := by
  refine (hB.state_cases hb hst).resolve_right fun hu => ?_
  have := hB.used b hb hu
  omega

theorem metaOk (hB : BlockInv env s) : MetaOk env.toGeometry s where
  entryLt := hB.entryLt
  entryInj := hB.entryInj
  freeOffset b hb hst := (hB.free b hb hst).1
  erasedFree _ hb hst ho := hB.free_of_offset hb hst ho
  readOnly := hB.readOnly

/-! ## Moves -/

theorem dropped (hB : BlockInv env s) {h : ℕ} (hv : s.Valid env.toGeometry h) :
    BlockInv env (s.dropped env.toGeometry h) := by
  have hu := (hB.validUsed h hv).2
  have hne : ∀ b, (s.blocks b).state ≠ .blkUsed → b ≠ s.blkOf env.toGeometry h := by
    rintro b hst rfl
    exact hst hu
  constructor
  case entryLt => exact hB.entryLt
  case entryInj => exact hB.entryInj
  case metaListed =>
    intro b hb hst
    rw [dropped_state] at hst
    exact hB.metaListed b hb hst
  case validUsed =>
    intro j hj
    rw [dropped_blkOf, dropped_state]
    exact hB.validUsed j (dropped_valid.mp hj).1
  case notInvalid =>
    intro b hb
    rw [dropped_state]
    exact hB.notInvalid b hb
  case free =>
    intro b hb hst
    rw [dropped_state] at hst
    rw [dropped_offset, dropped_nbInvalid, if_neg (hne b (by rw [hst]; decide))]
    exact hB.free b hb hst
  case used =>
    intro b hb hst
    rw [dropped_state] at hst
    rw [dropped_offset]
    exact hB.used b hb hst
  case metaBlk =>
    intro b hb hst
    rw [dropped_state] at hst
    rw [dropped_nbInvalid, if_neg (hne b (by rw [hst]; decide))]
    exact hB.metaBlk b hb hst
  case offsetLe =>
    intro b hb
    rw [dropped_offset]
    exact hB.offsetLe b hb
  case header =>
    intro b hb hst
    rw [dropped_state] at hst
    exact hB.header b hb hst
  case readOnly =>
    rw [dropped_readOnly, hB.readOnly]
    exact (isReadOnly_congr fun b _ => dropped_offset _ _ _ b).symm

/-- A page of block `b` that is not its first page is no other block's first page. -/
theorem rankAt_program_ne {mtd : History} {b c o : ℕ} {d : List Byte} (ho : o < env.pagesPerBlock)
    (h : c ≠ b ∨ 0 < o) :
    rankAt env (.program (b * env.pagesPerBlock + o) d :: mtd) c = rankAt env mtd c := by
  refine rankAt_congr (content_program_ne fun he => ?_)
  obtain ⟨hcb, hzero⟩ := Geometry.page_inj env.pagesPerBlock_pos ho he
  rcases h with h | h
  · exact h hcb
  · omega

theorem programmed_erase_block {mtd : History} {b c o : ℕ} (ho : o < env.pagesPerBlock)
    (hc : c ≠ b) :
    programmed (.erase (b * env.pagesPerBlock) env.pagesPerBlock :: mtd)
      (c * env.pagesPerBlock + o) = programmed mtd (c * env.pagesPerBlock + o) := by
  refine programmed_erase_not_mem fun hm => ?_
  rw [Geometry.mem_block_iff, Geometry.page_div ho] at hm
  exact hc hm

/-- Opening a block, or erasing and opening one: block `b` becomes a used block of one page. -/
theorem opens (hB : BlockInv env s) {b : ℕ} (hst : (s.blocks b).state ≠ .blkMeta)
    (hself : (s'.blocks b).state = .blkUsed ∧ (s'.blocks b).currentPageOffset = 1)
    (hne : ∀ c, c ≠ b → s'.blocks c = s.blocks c) (hh : s'.hashtable = s.hashtable)
    (hord : s'.metaBlkordr = s.metaBlkordr)
    (hother : ∀ c, c ≠ b → rankAt env s'.mtd c = rankAt env s.mtd c ∧
      ∀ o < env.pagesPerBlock, programmed s'.mtd (c * env.pagesPerBlock + o) =
        programmed s.mtd (c * env.pagesPerBlock + o))
    (hhdr : rankAt env s'.mtd b = none) (hro : s'.readOnly = isReadOnly env.toGeometry s') :
    BlockInv env s' := by
  have hval : ∀ h, s'.Valid env.toGeometry h ↔ s.Valid env.toGeometry h := fun _ => Config.valid_congr hh
  have hblk : ∀ h, s'.blkOf env.toGeometry h = s.blkOf env.toGeometry h := fun _ => Config.blkOf_congr hh
  constructor
  case entryLt => rw [hord]; exact hB.entryLt
  case entryInj => rw [hord]; exact hB.entryInj
  case metaListed =>
    intro c hc hm
    have hcb : c ≠ b := by
      rintro rfl
      rw [hself.1] at hm
      cases hm
    rw [hne c hcb] at hm
    rw [Config.Listed, hord]
    exact hB.metaListed c hc hm
  case validUsed =>
    intro h hv
    obtain ⟨hlt, hu⟩ := hB.validUsed h ((hval h).mp hv)
    rw [hblk]
    refine ⟨hlt, ?_⟩
    by_cases hcb : s.blkOf env.toGeometry h = b
    · rw [hcb]
      exact hself.1
    · rw [hne _ hcb]
      exact hu
  case notInvalid =>
    intro c hc
    by_cases hcb : c = b
    · rw [hcb, hself.1]
      decide
    · rw [hne c hcb]
      exact hB.notInvalid c hc
  case free =>
    intro c hc hf
    have hcb : c ≠ b := by
      rintro rfl
      rw [hself.1] at hf
      cases hf
    rw [hne c hcb] at hf ⊢
    obtain ⟨h1, h2, h3⟩ := hB.free c hc hf
    exact ⟨h1, h2, fun o ho => ((hother c hcb).2 o ho).trans (h3 o ho)⟩
  case used =>
    intro c hc hu
    by_cases hcb : c = b
    · rw [hcb, hself.2]
      exact Nat.one_pos
    · rw [hne c hcb] at hu ⊢
      exact hB.used c hc hu
  case metaBlk =>
    intro c hc hm
    have hcb : c ≠ b := by
      rintro rfl
      rw [hself.1] at hm
      cases hm
    rw [hne c hcb] at hm ⊢
    exact hB.metaBlk c hc hm
  case offsetLe =>
    intro c hc
    by_cases hcb : c = b
    · rw [hcb, hself.2]
      exact env.pagesPerBlock_pos
    · rw [hne c hcb]
      exact hB.offsetLe c hc
  case header =>
    intro c hc hm
    by_cases hcb : c = b
    · rw [hcb]
      exact hhdr
    · rw [hne c hcb] at hm
      rw [(hother c hcb).1]
      exact hB.header c hc hm
  case readOnly => exact hro

theorem opened (hB : BlockInv env s) {b : ℕ} (hst : (s.blocks b).state ≠ .blkMeta)
    (hO : Opened env.toGeometry b s s') : BlockInv env s' := by
  have hpos := env.pagesPerBlock_pos
  have hmtd : s'.mtd = .program (b * env.pagesPerBlock + 0) (hdrPage env.toGeometry .nandData) ::
      s.mtd := by rw [hO.mtd, Nat.add_zero]
  refine hB.opens hst (by rw [hO.block_self]; exact ⟨rfl, rfl⟩) (fun c hc => hO.block_ne hc)
    hO.hashtable hO.metaBlkordr (fun c hc => ?_) ?_ hO.readOnly
  · rw [hmtd]
    exact ⟨rankAt_program_ne hpos (Or.inl hc), fun o ho => Geometry.programmed_program_block hpos ho hc⟩
  · rw [hO.mtd]
    exact rankAt_dataHdr

theorem reopened (hB : BlockInv env s) {b : ℕ} (hst : (s.blocks b).state ≠ .blkMeta)
    (hR : Reopened env.toGeometry b s s') : BlockInv env s' := by
  have hpos := env.pagesPerBlock_pos
  have hmtd : s'.mtd = .program (b * env.pagesPerBlock + 0) (hdrPage env.toGeometry .nandData) ::
      .erase (b * env.pagesPerBlock) env.pagesPerBlock :: s.mtd := by rw [hR.mtd, Nat.add_zero]
  refine hB.opens hst (by rw [hR.block_self]; exact ⟨rfl, rfl⟩) (fun c hc => hR.block_ne hc)
    hR.hashtable hR.metaBlkordr (fun c hc => ?_) ?_ hR.readOnly
  · rw [hmtd]
    refine ⟨(rankAt_program_ne hpos (Or.inl hc)).trans ?_, fun o ho => ?_⟩
    · refine rankAt_congr (content_erase_not_mem fun hm => ?_)
      rw [Geometry.mem_block_iff, Nat.mul_div_cancel _ hpos] at hm
      exact hc hm
    · rw [Geometry.programmed_program_block hpos ho hc, programmed_erase_block ho hc]
  · rw [hR.mtd]
    exact rankAt_dataHdr

theorem stored (hB : BlockInv env s) {key : CStr} {data : List Byte} {b h : ℕ}
    (hb : b < env.nbBlocks) (hst : (s.blocks b).state ≠ .blkMeta)
    (hpos : 0 < (s.blocks b).currentPageOffset)
    (ho : (s.blocks b).currentPageOffset < env.pagesPerBlock)
    (hS : Stored env.toGeometry key data b h s s') : BlockInv env s' := by
  have hu : (s.blocks b).state = .blkUsed := by
    refine (hB.state_cases hb hst).resolve_left fun hf => ?_
    have := (hB.free b hb hf).1
    omega
  constructor
  case entryLt => rw [hS.metaBlkordr]; exact hB.entryLt
  case entryInj => rw [hS.metaBlkordr]; exact hB.entryInj
  case metaListed =>
    intro c hc hm
    rw [hS.state] at hm
    rw [Config.Listed, hS.metaBlkordr]
    exact hB.metaListed c hc hm
  case validUsed =>
    intro j hj
    rw [hS.state]
    exact hS.forall_blkOf (p := fun c => c < env.nbBlocks ∧ (s.blocks c).state = .blkUsed) ho ⟨hb, hu⟩
      hB.validUsed hj
  case notInvalid =>
    intro c hc
    rw [hS.state]
    exact hB.notInvalid c hc
  case free =>
    intro c hc hf
    rw [hS.state] at hf
    have hcb : c ≠ b := by
      rintro rfl
      rw [hu] at hf
      cases hf
    obtain ⟨h1, h2, h3⟩ := hB.free c hc hf
    rw [hS.block_ne hcb, hS.mtd]
    exact ⟨h1, h2, fun o ho' => (Geometry.programmed_program_block ho ho' hcb).trans (h3 o ho')⟩
  case used =>
    intro c hc hst'
    rw [hS.state] at hst'
    by_cases hcb : c = b
    · rw [hcb, hS.block_self]
      exact Nat.succ_pos _
    · rw [hS.block_ne hcb]
      exact hB.used c hc hst'
  case metaBlk =>
    intro c hc hm
    rw [hS.state] at hm
    rw [hS.nbInvalid]
    exact hB.metaBlk c hc hm
  case offsetLe =>
    intro c hc
    by_cases hcb : c = b
    · rw [hcb, hS.block_self]
      exact ho
    · rw [hS.block_ne hcb]
      exact hB.offsetLe c hc
  case header =>
    intro c hc hm
    rw [hS.state] at hm
    rw [hS.mtd, rankAt_program_ne ho (Or.inr hpos)]
    exact hB.header c hc hm
  case readOnly => exact hS.readOnly

end BlockInv

/-- Neither `meta_blkordr` nor the set of metadata blocks changed. -/
structure SameMeta (s s' : Config) : Prop where
  ord : s'.metaBlkordr = s.metaBlkordr
  state : ∀ b, (s'.blocks b).state = .blkMeta ↔ (s.blocks b).state = .blkMeta

theorem sameMeta_of_used {b : ℕ} (hst : (s.blocks b).state ≠ .blkMeta)
    (hself : (s'.blocks b).state = .blkUsed) (hne : ∀ c, c ≠ b → s'.blocks c = s.blocks c)
    (hord : s'.metaBlkordr = s.metaBlkordr) : SameMeta s s' := by
  refine ⟨hord, fun c => ?_⟩
  by_cases hcb : c = b
  · rw [hcb, hself]
    exact iff_of_false (by decide) hst
  · rw [hne c hcb]

namespace BlockInv

/-- A move that leaves metadata blocks alone keeps the invariant. -/
theorem move {ok : ℕ → Prop} (hB : BlockInv env s) (hok : ∀ b, ok b → (s.blocks b).state ≠ .blkMeta)
    (hm : Move env ok s s') : BlockInv env s' ∧ SameMeta s s' := by
  cases hm with
  | dropped hv _ => exact ⟨hB.dropped hv, rfl, fun b => by rw [dropped_state]⟩
  | @opened _ b hokb _ _ hO =>
    exact ⟨hB.opened (hok b hokb) hO, sameMeta_of_used (hok b hokb) (by rw [hO.block_self])
      (fun c hc => hO.block_ne hc) hO.metaBlkordr⟩
  | @stored _ _ _ b _ hokb hb hpos ho hS =>
    exact ⟨hB.stored hb (hok b hokb) hpos ho hS, hS.metaBlkordr, fun c => by rw [hS.state]⟩
  | @reopened _ b hokb _ hR =>
    exact ⟨hB.reopened (hok b hokb) hR, sameMeta_of_used (hok b hokb) (by rw [hR.block_self])
      (fun c hc => hR.block_ne hc) hR.metaBlkordr⟩

theorem moves {ok : ℕ → Prop} (hB : BlockInv env s) (hok : ∀ b, ok b → (s.blocks b).state ≠ .blkMeta)
    (hm : Moves env ok s s') : BlockInv env s' ∧ SameMeta s s' := by
  refine Moves.preserves (I := fun s₁ => BlockInv env s₁ ∧ SameMeta s s₁) (fun s₁ s₂ hI h₁ => ?_) hm
    ⟨hB, rfl, fun _ => Iff.rfl⟩
  obtain ⟨hB₂, hord, hst⟩ := hI.1.move (fun b hb => mt (hI.2.state b).mp (hok b hb)) h₁
  exact ⟨hB₂, hord.trans hI.2.ord, fun b => (hst b).trans (hI.2.state b)⟩

/-! ## Flush and mount -/

/-- A block that counts as erased after the first loop of a flush is erased. -/
theorem afterErase_free (hB : BlockInv env s) (hF : Flushed env f s snap s') {b : ℕ}
    (hb : b < env.nbBlocks) (hst : (s.afterErase env.toGeometry b).state = .blkFree) :
    (s.afterErase env.toGeometry b).currentPageOffset = 0 ∧
      (s.afterErase env.toGeometry b).nbInvalid = 0 ∧
      ∀ o < env.pagesPerBlock, programmed snap.mtd (b * env.pagesPerBlock + o) = false := by
  rcases afterErase_cases env.toGeometry s b with ⟨hl, he⟩ | ⟨hl, he⟩
  · rw [he]
    refine ⟨rfl, rfl, fun o ho => ?_⟩
    rw [hF.programmed_snap, Geometry.page_div ho, if_pos hl]
  · rw [he] at hst ⊢
    obtain ⟨h1, h2, h3⟩ := hB.free b hb hst
    refine ⟨h1, h2, fun o ho => ?_⟩
    rw [hF.programmed_snap, Geometry.page_div ho, if_neg hl]
    exact h3 o ho

theorem rankAt_snap (hB : BlockInv env s) (hF : Flushed env f s snap s') {b : ℕ}
    (hb : b < env.nbBlocks) : rankAt env snap.mtd b = none := by
  have hpos := env.pagesPerBlock_pos
  have hc := hF.content_snap (b * env.pagesPerBlock)
  rw [Nat.mul_div_cancel _ hpos] at hc
  by_cases hl : s.Listed env.toGeometry b
  · rw [if_pos hl] at hc
    exact rankAt_erased hc
  · rw [if_neg hl] at hc
    rw [rankAt_congr hc]
    exact hB.header b hb fun hm => hl (hB.metaListed b hb hm)

/-- What a flush writes is an image of its snapshot. -/
theorem image (hB : BlockInv env s) (hF : Flushed env f s snap s') :
    Image env env.nbMetaBlocks f snap s'.mtd :=
  hF.image (fun i hi => (hB.afterErase_free hF (hF.lt i hi) (hF.free i hi).1).2.2)
    fun _ hb _ => hB.rankAt_snap hF hb

/-- The invariant holds of any configuration that has the block states of the snapshot. -/
theorem afterFlush (hB : BlockInv env s) (hF : Flushed env f s snap s')
    (hlive : ∀ h, s.Valid env.toGeometry h → ¬ s.Listed env.toGeometry (s.blkOf env.toGeometry h))
    (hblk : ∀ b < env.nbBlocks, (t.blocks b).state = (snap.blocks b).state ∧
      ((snap.blocks b).nbInvalid = 0 → (t.blocks b).nbInvalid = 0) ∧
      (t.blocks b).currentPageOffset ≤ env.pagesPerBlock ∧
      (¬ Chosen env.toGeometry f b →
        (t.blocks b).currentPageOffset = (snap.blocks b).currentPageOffset))
    (hval : ∀ h, t.Valid env.toGeometry h → s.Valid env.toGeometry h ∧
      (t.hashtable h).index = (s.hashtable h).index)
    (hord : t.metaBlkordr = snap.metaBlkordr) (hmtd : t.mtd = s'.mtd)
    (hro : t.readOnly = isReadOnly env.toGeometry t) : BlockInv env t := by
  have hpos := env.pagesPerBlock_pos
  -- a block that was not chosen is as the first loop left it
  have hother : ∀ b < env.nbBlocks, (t.blocks b).state ≠ .blkMeta →
      ¬ Chosen env.toGeometry f b ∧
        (t.blocks b).state = (s.afterErase env.toGeometry b).state ∧
        ((s.afterErase env.toGeometry b).nbInvalid = 0 → (t.blocks b).nbInvalid = 0) ∧
        (t.blocks b).currentPageOffset = (s.afterErase env.toGeometry b).currentPageOffset := by
    intro b hb hm
    obtain ⟨h1, h2, -, h4⟩ := hblk b hb
    obtain ⟨hc, hs⟩ := hF.unchosen (h1 ▸ hm)
    rw [hs] at h1 h2 h4
    exact ⟨hc, h1, h2, h4 hc⟩
  constructor
  case entryLt =>
    rw [hord]
    exact hF.entryLt
  case entryInj =>
    rw [hord]
    exact hF.entryInj
  case metaListed =>
    intro b hb hm
    have hc : Chosen env.toGeometry f b := by
      by_contra hc
      rw [(hblk b hb).1, hF.snapBlocks, if_neg hc] at hm
      obtain ⟨hl, he⟩ := afterErase_eq (by rw [hm]; decide)
      rw [he] at hm
      exact hl (hB.metaListed b hb hm)
    obtain ⟨i, hi, rfl⟩ := hc
    exact ⟨i, hi, by rw [hord, hF.snapOrd, if_pos hi]⟩
  case validUsed =>
    intro h hv
    obtain ⟨hv', hi⟩ := hval h hv
    obtain ⟨hlt, hu⟩ := hB.validUsed h hv'
    have hb : t.blkOf env.toGeometry h = s.blkOf env.toGeometry h := by
      rw [Config.blkOf, Config.blkOf, hi]
    rw [hb]
    refine ⟨hlt, ?_⟩
    have hae : s.afterErase env.toGeometry (s.blkOf env.toGeometry h) =
        s.blocks (s.blkOf env.toGeometry h) := if_neg (hlive h hv')
    have hc : ¬ Chosen env.toGeometry f (s.blkOf env.toGeometry h) := by
      rintro ⟨i, hi, hfi⟩
      have := (hF.free i hi).1
      rw [hfi, hae, hu] at this
      cases this
    rw [(hblk _ hlt).1, hF.snapBlocks, if_neg hc, hae, hu]
  case notInvalid =>
    intro b hb hst
    have hm : (t.blocks b).state ≠ .blkMeta := by rw [hst]; decide
    obtain ⟨-, h1, -⟩ := hother b hb hm
    rw [h1] at hst
    obtain ⟨-, he⟩ := afterErase_eq (by rw [hst]; decide)
    rw [he] at hst
    exact hB.notInvalid b hb hst
  case free =>
    intro b hb hst
    obtain ⟨hc, h1, h2, h3⟩ := hother b hb (by rw [hst]; decide)
    rw [h1] at hst
    obtain ⟨h4, h5, h6⟩ := hB.afterErase_free hF hb hst
    refine ⟨h3.trans h4, h2 h5, fun o ho => ?_⟩
    rw [hmtd, hF.programmed_ne (by rwa [Geometry.page_div ho])]
    exact h6 o ho
  case used =>
    intro b hb hst
    obtain ⟨-, h1, -, h3⟩ := hother b hb (by rw [hst]; decide)
    rw [h1] at hst
    obtain ⟨-, he⟩ := afterErase_eq (by rw [hst]; decide)
    rw [he] at hst
    rw [h3, he]
    exact hB.used b hb hst
  case metaBlk =>
    intro b hb hst
    obtain ⟨h1, h2, -⟩ := hblk b hb
    refine h2 ?_
    by_cases hc : Chosen env.toGeometry f b
    · rw [hF.snapBlocks, if_pos hc]
      obtain ⟨i, hi, rfl⟩ := hc
      exact (hB.afterErase_free hF (hF.lt i hi) (hF.free i hi).1).2.1
    · rw [h1, hF.snapBlocks, if_neg hc] at hst
      obtain ⟨-, he⟩ := afterErase_eq (by rw [hst]; decide)
      rw [he] at hst
      rw [hF.snapBlocks, if_neg hc, he]
      exact hB.metaBlk b hb hst
  case offsetLe => exact fun b hb => (hblk b hb).2.2.1
  case header =>
    intro b hb hst
    obtain ⟨hc, -⟩ := hother b hb hst
    rw [hmtd, rankAt_congr (hF.content_ne (by rwa [Nat.mul_div_cancel _ hpos]))]
    exact hB.rankAt_snap hF hb
  case readOnly => exact hro

theorem snap_offset_le (hB : BlockInv env s) (hF : Flushed env f s snap s') {b : ℕ}
    (hb : b < env.nbBlocks) : (snap.blocks b).currentPageOffset ≤ env.pagesPerBlock := by
  have hle : (s.afterErase env.toGeometry b).currentPageOffset ≤ env.pagesPerBlock := by
    rcases afterErase_cases env.toGeometry s b with ⟨-, he⟩ | ⟨-, he⟩
    · rw [he]
      exact Nat.zero_le _
    · rw [he]
      exact hB.offsetLe b hb
  rw [hF.snapBlocks]
  split_ifs
  · exact hle
  · exact hle

theorem flushed (hB : BlockInv env s) (hF : Flushed env f s snap s')
    (hlive : ∀ h, s.Valid env.toGeometry h →
      ¬ s.Listed env.toGeometry (s.blkOf env.toGeometry h)) : BlockInv env s' := by
  refine hB.afterFlush hF hlive (fun b hb => ?_) (fun h hv => ?_) hF.ord rfl hF.readOnly
  · have hle := hB.snap_offset_le hF hb
    rw [hF.snapBlocks] at hle ⊢
    rw [hF.blocks]
    by_cases hc : Chosen env.toGeometry f b
    · rw [if_pos hc, if_pos hc]
      exact ⟨rfl, id, Nat.le_refl _, fun h => absurd hc h⟩
    · rw [if_neg hc, if_neg hc]
      rw [if_neg hc] at hle
      exact ⟨rfl, id, hle, fun _ => rfl⟩
  · rw [Config.Valid, hF.table] at hv
    exact ⟨hv, by rw [hF.table]⟩

/-- A page number of the device fits an `int`. -/
theorem index_mod {i : ℕ} (h : i / env.pagesPerBlock < env.nbBlocks) : i % 2 ^ 32 = i := by
  have hlt : i < env.hashSize := (Nat.div_lt_iff_lt_mul env.pagesPerBlock_pos).mp h
  have := env.hashSize_lt
  unfold Geometry.hashSize at hlt
  exact Nat.mod_eq_of_lt (by omega)

theorem ppb_lt (env : Env) : env.pagesPerBlock < 2 ^ 31 :=
  Nat.lt_of_le_of_lt (Nat.le_mul_of_pos_left _ env.nbBlocks_pos) env.hashSize_lt

/-- A valid bucket after the mount is a valid bucket of the flushed store, with its page. -/
theorem mounted_valid (hB : BlockInv env s) (hF : Flushed env f s snap s')
    (hM : Mounted env env.nbMetaBlocks f snap s'.mtd t) {h : ℕ} (hv : t.Valid env.toGeometry h) :
    s.Valid env.toGeometry h ∧ (t.hashtable h).index = (s.hashtable h).index := by
  have hv' : s.Valid env.toGeometry h :=
    ⟨hv.1, by rw [← hF.snapTable, ← hM.pState h hv.1]; exact hv.2⟩
  refine ⟨hv', ?_⟩
  rw [hM.index h hv.1, hF.snapTable]
  exact index_mod (hB.validUsed h hv').1

theorem mounted (hB : BlockInv env s) (hF : Flushed env f s snap s')
    (hlive : ∀ h, s.Valid env.toGeometry h →
      ¬ s.Listed env.toGeometry (s.blkOf env.toGeometry h))
    (hM : Mounted env env.nbMetaBlocks f snap s'.mtd t) : BlockInv env t := by
  refine hB.afterFlush hF hlive (fun b hb => ?_) (fun h hv => hB.mounted_valid hF hM hv)
    (funext fun i => by rw [hM.ord, hF.snapOrd]) hM.mtd hM.readOnly
  have hle := hB.snap_offset_le hF hb
  have hlt := ppb_lt env
  have hoff : (snap.blocks b).currentPageOffset % 2 ^ 32 = (snap.blocks b).currentPageOffset :=
    Nat.mod_eq_of_lt (by omega)
  rw [hM.blocks b hb]
  simp only [hoff]
  exact ⟨trivial, fun h => by rw [h, Nat.zero_mod], hle, fun _ => trivial⟩

end BlockInv

/-! ## Formatting -/

theorem format_eq (hdrv : env.NoDriverError) (s : Config) : format env s = (0, { s with
    readOnly := false
    mtd := .erase 0 env.hashSize :: s.mtd
    blocks := fun _ => .erased 0
    hashtable := fun h => { s.hashtable h with pState := .pgFree, dirty := false } }) := by
  simp only [format, hdrv.erase]

/-- `format` erases everything and keeps `meta_blkordr`. -/
theorem format_blockInv (hdrv : env.NoDriverError)
    (hlt : ∀ i b, s.metaBlkordr i = some b → i < env.nbMetaBlocks ∧ b < env.nbBlocks)
    (hinj : ∀ i j b, s.metaBlkordr i = some b → s.metaBlkordr j = some b → i = j) :
    BlockInv env (format env s).2 := by
  rw [format_eq hdrv]
  have hfree : ∀ b < env.nbBlocks, ∀ o < env.pagesPerBlock,
      0 ≤ b * env.pagesPerBlock + o ∧ b * env.pagesPerBlock + o < 0 + env.hashSize := by
    intro b hb o ho
    rw [Nat.zero_add]
    exact ⟨Nat.zero_le _, Geometry.page_lt hb ho⟩
  constructor
  case entryLt => exact hlt
  case entryInj => exact hinj
  case metaListed =>
    intro b _ hst
    cases hst
  case validUsed =>
    intro h hv
    cases hv.2
  case notInvalid =>
    intro b _ hst
    cases hst
  case free =>
    intro b hb _
    exact ⟨rfl, rfl, fun o ho => programmed_erase_mem (hfree b hb o ho)⟩
  case used =>
    intro b _ hst
    cases hst
  case metaBlk =>
    intro b _ hst
    cases hst
  case offsetLe => exact fun b _ => Nat.zero_le _
  case header =>
    intro b hb _
    exact rankAt_erased (content_erase_mem (by simpa using hfree b hb 0 env.pagesPerBlock_pos))
  case readOnly => exact (isReadOnly_eq_false env.nbBlocks_pos env.pagesPerBlock_pos).symm

/-- A module loaded for the first time formats the device. -/
theorem fresh_iff (hdrv : env.NoDriverError) : Fresh env s ↔ s = env.start := by
  have hrank : ∀ b, rankAt env [] b = none := fun b => rankAt_erased rfl
  have hscan := scanHeaders_spec hdrv [] (List.range env.nbBlocks) (fun _ => none) 0
    fun b _ i hi => by rw [hrank] at hi; cases hi
  have hnone : (List.range env.nbBlocks).filterMap (rankAt env []) = [] := by
    rw [List.filterMap_eq_nil_iff]
    exact fun b _ => hrank b
  rw [hnone, List.length_nil, Nat.add_zero] at hscan
  have hpages : ∀ ord, scanPages env [] ord 0 = .ok (some []) := fun ord => rfl
  have hro : isReadOnly env.toGeometry env.start = false := by
    rw [Env.start, format_eq hdrv]
    exact isReadOnly_eq_false env.nbBlocks_pos env.pagesPerBlock_pos
  have hstart : format env (.blank []) = (0, env.start) := by
    rw [Env.start, format_eq hdrv]
  have hinit : initScan env [] = .ok (0, env.start) := by
    simp only [initScan, hscan, hpages, if_true, hstart]
    rw [checkReadOnly, hro]
    rfl
  rw [Fresh, hinit]
  constructor
  · intro h
    exact (Prod.mk.inj (Except.ok.inj h)).2.symm
  · rintro rfl
    rfl

theorem start_blockInv (hdrv : env.NoDriverError) : BlockInv env env.start :=
  format_blockInv hdrv (fun _ _ h => by cases h) (fun _ _ _ h => by cases h)

/-! ## Runs -/

/-- Every block in `meta_blkordr` is marked as a metadata block. -/
def ListedMeta (s : Config) : Prop := ∀ i b, s.metaBlkordr i = some b → (s.blocks b).state = .blkMeta

/-- A call of `gc` finds at most as many buckets on its block's list as the block has data pages. -/
def ListFits (g : Geometry) (s : Config) : Prop :=
  ∀ b, gcTarget g s = some b → (s.blocks b).list.length < g.pagesPerBlock

/-- `get_healthy_block` does not pick a metadata block. -/
def PicksData (g : Geometry) (s : Config) : Prop :=
  ∀ b, getHealthyBlock g s = some b → (s.blocks b).state ≠ .blkMeta

/-- The condition on an operation, and on each call that it makes: `format` only while no metadata is
on flash, no page stored in a metadata block, no relocation in a flush. -/
def OwnOk (env : Env) (s : Config) : Request → Prop
  | .set key val elapsed =>
      env.pageSize < key.len + val.len + 8 ∨ s.readOnly = true ∨
        (PicksData env.toGeometry s ∧ ∀ ret s₁, storePhase env key val s = .ok (ret, s₁) →
          ListFits env.toGeometry s₁ ∧
            ∀ s₂, gc env s₁ = .ok s₂ → elapsed = true → FlushOk env.toGeometry s₂)
  | .get _ => True
  | .del _ => True
  | .gc => ListFits env.toGeometry s
  | .flush => FlushOk env.toGeometry s
  | .format => ∀ i, s.metaBlkordr i = none
  | .reload => FlushOk env.toGeometry s

/-- The metadata blocks belong to the metadata alone, and the erases with which the next flush begins
leave every live page as it is. -/
structure MetadataOwned (env : Env) (s : Config) : Prop where
  lt : ∀ i < env.nbMetaBlocks, ∀ b, s.metaBlkordr i = some b → b < env.nbBlocks
  distinct : ∀ i < env.nbMetaBlocks, ∀ j < env.nbMetaBlocks, ∀ b,
    s.metaBlkordr i = some b → s.metaBlkordr j = some b → i = j
  state : ∀ i < env.nbMetaBlocks, ∀ b, s.metaBlkordr i = some b → (s.blocks b).state = .blkMeta
  live : ∀ h, s.Valid env.toGeometry h → ∀ i < env.nbMetaBlocks, ∀ b,
    s.metaBlkordr i = some b → s.blkOf env.toGeometry h ≠ b
  kept : ∀ h, s.Valid env.toGeometry h →
    content env.pageSize (flushErase env (List.range env.nbMetaBlocks) s).mtd (s.hashtable h).index =
      content env.pageSize s.mtd (s.hashtable h).index

/-- What a step of such a run keeps. -/
structure OwnInv (env : Env) (s : Config) : Prop where
  blocks : BlockInv env s
  listed : ListedMeta s

namespace OwnInv

theorem live (hO : OwnInv env s) {h : ℕ} (hv : s.Valid env.toGeometry h) :
    ¬ s.Listed env.toGeometry (s.blkOf env.toGeometry h) := by
  rintro ⟨i, -, hi⟩
  have hm := hO.listed i _ hi
  rw [(hO.blocks.validUsed h hv).2] at hm
  cases hm

theorem owned (hO : OwnInv env s) (hdrv : env.NoDriverError) : MetadataOwned env s where
  lt i _ b hi := (hO.blocks.entryLt i b hi).2
  distinct i _ j _ b hi hj := hO.blocks.entryInj i j b hi hj
  state i _ b hi := hO.listed i b hi
  live h hv i hi b hib hblk := hO.live hv ⟨i, hi, hblk ▸ hib⟩
  kept h hv := by
    have hmtd := (flushErase_spec hdrv (List.range env.nbMetaBlocks) s List.nodup_range
      hO.blocks.entryInj (fun i b hi => (hO.blocks.entryLt i b hi).2) hO.blocks.readOnly).2.2.2.1
    rw [hmtd, content_eraseOps, if_neg]
    rw [mem_listed]
    exact hO.live hv

theorem moves {ok : ℕ → Prop} (hO : OwnInv env s)
    (hok : ∀ b, ok b → (s.blocks b).state ≠ .blkMeta) (hm : Moves env ok s s') : OwnInv env s' := by
  obtain ⟨hB, hS⟩ := hO.blocks.moves hok hm
  refine ⟨hB, fun i b hi => ?_⟩
  rw [hS.ord] at hi
  exact (hS.state b).mpr (hO.listed i b hi)

theorem gc (hO : OwnInv env s) (hdrv : env.NoDriverError) (hfit : ListFits env.toGeometry s)
    (he : Serial.gc env s = .ok s') : OwnInv env s' := by
  refine hO.moves (fun b hb hm => ?_) (gc_moves hdrv hfit he)
  obtain ⟨hlt, hinv⟩ := gcTarget_some hb
  rw [hO.blocks.metaBlk b hlt hm] at hinv
  exact absurd hinv (by decide)

theorem flush_spec (hO : OwnInv env s) (hdrv : env.NoDriverError)
    (hok : FlushOk env.toGeometry s) : ∃ f snap s', flushMetadata env s = .ok (flushCode s', s') ∧
      Flushed env f s snap s' ∧ OwnInv env s' := by
  obtain ⟨f, snap, s', he, hF⟩ := Serial.flush_spec hdrv hO.blocks.metaOk hok
  refine ⟨f, snap, s', he, hF, hO.blocks.flushed hF fun h hv => hO.live hv, fun i b hi => ?_⟩
  rw [hF.ord] at hi
  obtain ⟨hlt, rfl⟩ := hF.entry hi
  rw [hF.blocks, if_pos ⟨i, hlt, rfl⟩]

theorem reload (hO : OwnInv env s) (hdrv : env.NoDriverError) (hok : FlushOk env.toGeometry s)
    {ret : ℤ} (he : Serial.reload env s = .ok (ret, t)) : OwnInv env t := by
  obtain ⟨f, snap, s', hf, hF, -⟩ := hO.flush_spec hdrv hok
  rw [Serial.reload, hf] at he
  obtain ⟨-, hM⟩ := (hO.blocks.image hF).mount_ok hdrv he
  refine ⟨hO.blocks.mounted hF (fun h hv => hO.live hv) hM, fun i b hi => ?_⟩
  rw [hM.ord] at hi
  split at hi
  · rename_i hlt
    obtain rfl := Option.some.inj hi
    rw [hM.blocks _ (hF.lt i hlt), hF.snapBlocks, if_pos ⟨i, hlt, rfl⟩]
  · cases hi

/-- The flush that the code returned from is the one that the condition describes. -/
theorem flush (hO : OwnInv env s) (hdrv : env.NoDriverError) (hok : FlushOk env.toGeometry s) {ret : ℤ}
    (he : flushMetadata env s = .ok (ret, s')) : OwnInv env s' := by
  obtain ⟨f, snap, s₁, hf, -, hO₁⟩ := hO.flush_spec hdrv hok
  rw [hf] at he
  obtain rfl := (Prod.mk.inj (Except.ok.inj he)).2
  exact hO₁

theorem set (hO : OwnInv env s) (hdrv : env.NoDriverError) {key val : CStr} {elapsed : Bool} {ret : ℤ}
    (hok : OwnOk env s (.set key val elapsed))
    (he : setKeyval env key val elapsed s = .ok (ret, s')) : OwnInv env s' := by
  rcases setKeyval_cases he with ⟨-, -, rfl⟩ | ⟨-, -, rfl⟩ | ⟨ret₁, s₁, s₂, hsize, hro, h₁, h₂, h₃, -⟩
  · exact hO
  · exact hO
  · obtain ⟨hpick, hrest⟩ := (hok.resolve_left (by omega)).resolve_left (by simp [hro])
    obtain ⟨hfit, hflush⟩ := hrest ret₁ s₁ h₁
    obtain ⟨b, hb, hm⟩ := storePhase_moves hdrv hro h₁
    have hO₁ : OwnInv env s₁ := hO.moves (by rintro c rfl; exact hpick c hb) hm
    have hO₂ : OwnInv env s₂ := hO₁.gc hdrv hfit h₂
    rcases timedFlush_cases h₃ with ⟨-, rfl⟩ | ⟨hel, ret₂, hf⟩
    · exact hO₂
    · exact hO₂.flush hdrv (hflush s₂ h₂ hel) hf

/-- One operation under its condition. -/
theorem step (hO : OwnInv env s) (hdrv : env.NoDriverError) {e : Request × Result}
    (hok : OwnOk env s e.1) (he : Step env s e s') : OwnInv env s' := by
  rcases step_cases he with ⟨key, val, elapsed, hreq, h⟩ | ⟨key, -, -, rfl⟩ | ⟨key, -, h⟩ |
    ⟨hreq, h⟩ | ⟨hreq, h⟩ | ⟨hreq, h⟩ | ⟨hreq, h⟩
  · exact hO.set hdrv (hreq ▸ hok) h
  · exact hO
  · exact hO.moves (fun _ hb => False.elim hb) (delKey_moves h)
  · rw [hreq] at hok
    exact hO.gc hdrv hok h
  · rw [hreq] at hok
    exact hO.flush hdrv hok h
  · rw [hreq] at hok
    have hs' : s' = (Serial.format env s).2 := by rw [h]
    rw [hs']
    refine ⟨format_blockInv hdrv hO.blocks.entryLt hO.blocks.entryInj, fun i b hi => ?_⟩
    rw [format_eq hdrv] at hi
    exact absurd (hi.symm.trans (hok i)) (Option.some_ne_none b)
  · rw [hreq] at hok
    exact hO.reload hdrv hok h

end OwnInv

/-- In every run from a new device whose operations meet `OwnOk`, the metadata blocks are owned by the
metadata in every state reached. -/
theorem metadata_blocks_owned (env : Env) (hdrv : env.NoDriverError) {s₀ s : Config}
    {es : List (Request × Result)} (hf : Fresh env s₀)
    (hr : Run (fun s e s' => OwnOk env s e.1 ∧ Step env s e s') s₀ es s) : MetadataOwned env s := by
  have h₀ : OwnInv env s₀ := by
    rw [fresh_iff hdrv] at hf
    subst hf
    refine ⟨start_blockInv hdrv, fun i b hi => ?_⟩
    rw [Env.start, format_eq hdrv] at hi
    cases hi
  exact (hr.invariant (fun s e s' hO hs => hO.step hdrv hs.1 hs.2) h₀).owned hdrv

/-- The first flush of a new device is such a run. -/
theorem metadata_blocks_owned_flush :
    MetadataOwned (.ideal tinyGeometry)
      (final (.ideal tinyGeometry) [.flush] (Env.ideal tinyGeometry).start) := by
  have hr : Run (fun s e s' => OwnOk (.ideal tinyGeometry) s e.1 ∧ Step (.ideal tinyGeometry) s e s')
      (Env.ideal tinyGeometry).start [(.flush, ⟨0, []⟩)]
      (final (.ideal tinyGeometry) [.flush] (Env.ideal tinyGeometry).start) :=
    .cons ⟨⟨by decide, by decide⟩, rfl⟩ (.nil _)
  exact metadata_blocks_owned (.ideal tinyGeometry) (Env.ideal_noDriverError _)
    ((fresh_iff (Env.ideal_noDriverError _)).mpr rfl) hr

/-- After a flush and a `format`, `meta_blkordr` still lists block 0; the next pair is stored there, and
the next flush erases it. -/
theorem format_keeps_stale_list :
    ∃ s, Reachable (.ideal tinyGeometry) s ∧ (∃ h, s.Valid tinyGeometry h ∧
      s.metaBlkordr 0 = some (s.blkOf tinyGeometry h)) ∧ ¬ MetadataOwned (.ideal tinyGeometry) s := by
  have hc : codes (.ideal tinyGeometry) [.flush, .format, .set (.ofBytes [107]) (.ofBytes [118]) false]
      (Env.ideal tinyGeometry).start = some [0, 0, 0] := by decide +kernel
  obtain ⟨es, -, -, hr⟩ := run_of_codes hc
  have hlive : ∃ h < tinyGeometry.hashSize, ((final (.ideal tinyGeometry)
      [.flush, .format, .set (.ofBytes [107]) (.ofBytes [118]) false]
        (Env.ideal tinyGeometry).start).hashtable h).pState = .pgValid ∧
      (final (.ideal tinyGeometry) [.flush, .format, .set (.ofBytes [107]) (.ofBytes [118]) false]
        (Env.ideal tinyGeometry).start).metaBlkordr 0 =
      some ((final (.ideal tinyGeometry)
        [.flush, .format, .set (.ofBytes [107]) (.ofBytes [118]) false]
          (Env.ideal tinyGeometry).start).blkOf tinyGeometry h) := by decide +kernel
  obtain ⟨h, hh, hv, hord⟩ := hlive
  exact ⟨_, ⟨_, es, rfl, hr⟩, ⟨h, ⟨hh, hv⟩, hord⟩, fun hM =>
    hM.live h ⟨hh, hv⟩ 0 (Geometry.nbMetaBlocks_pos _) _ hord rfl⟩

end LkpProjects.Serial
