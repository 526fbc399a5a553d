import LkpProjects.Serial.Moves
import LkpProjects.Serial.Ownership

/-! # The serial store: every page is programmed once

While the module stays loaded, a block's `current_page_offset` is the number of its programmed pages,
and pages are programmed in order (`Synced`); so every page write goes to an erased page. This holds
whatever `gc` copies and whether or not `meta_blkordr` is right. It is lost where a flush relocates
pages although it has chosen a metadata block already, and at every mount of flushed metadata, because
the offsets of the metadata blocks were saved too early.
-/
namespace LkpProjects.Serial
open Nand Bytes Stepwise
set_option autoImplicit false

/-- The program-once discipline at an operation boundary. -/
structure Disciplined (env : Env) (s : Config) : Prop where
  once : ProgramOnce env.hashSize s.mtd
  counts : ∀ b < env.nbBlocks, (s.blocks b).currentPageOffset =
    programmedIn s.mtd (b * env.pagesPerBlock) env.pagesPerBlock

/-- What every step keeps. -/
structure Synced (env : Env) (s : Config) : Prop where
  once : ProgramOnce env.hashSize s.mtd
  sync : ∀ b < env.nbBlocks, ∀ o < env.pagesPerBlock,
    (programmed s.mtd (b * env.pagesPerBlock + o) = true ↔ o < (s.blocks b).currentPageOffset)
  offsetLe : ∀ b < env.nbBlocks, (s.blocks b).currentPageOffset ≤ env.pagesPerBlock
  lists : ∀ b < env.nbBlocks, (s.blocks b).list = [] ∨
    (s.blocks b).list.length < (s.blocks b).currentPageOffset
  metaOk : MetaOk env.toGeometry s

variable {env : Env} {s s' snap : Config} {f : ℕ → ℕ}

theorem programOnce_eraseOps {pages : ℕ} (g : Geometry) : ∀ (bs : List ℕ) (h : History),
    ProgramOnce pages h → ProgramOnce pages (replay (eraseOps g bs) h)
  | [], _, hh => hh
  | b :: bs, h, hh => by
      rw [eraseOps, List.map_cons, replay_cons, ← eraseOps]
      exact programOnce_eraseOps g bs _ hh

namespace Synced

theorem disciplined (hS : Synced env s) : Disciplined env s where
  once := hS.once
  counts b hb := (programmedIn_eq (hS.offsetLe b hb) (hS.sync b hb)).symm

theorem unprogrammed (hS : Synced env s) {b o : ℕ} (hb : b < env.nbBlocks)
    (ho : o < env.pagesPerBlock) (hle : (s.blocks b).currentPageOffset ≤ o) :
    programmed s.mtd (b * env.pagesPerBlock + o) = false := by
  rw [Bool.eq_false_iff]
  intro hp
  have := (hS.sync b hb o ho).mp hp
  omega

/-! ## Moves -/

theorem dropped (hS : Synced env s) (h : ℕ) : Synced env (s.dropped env.toGeometry h) where
  once := hS.once
  sync b hb o ho := by
    rw [dropped_offset]
    exact hS.sync b hb o ho
  offsetLe b hb := by
    rw [dropped_offset]
    exact hS.offsetLe b hb
  lists b hb := by
    rw [dropped_list, dropped_offset]
    rcases hS.lists b hb with hl | hl
    · rw [hl]
      exact Or.inl rfl
    · exact Or.inr (Nat.lt_of_le_of_lt List.length_erase_le hl)
  metaOk :=
    { entryLt := hS.metaOk.entryLt
      entryInj := hS.metaOk.entryInj
      freeOffset := fun b hb hst => by
        rw [dropped_state] at hst
        rw [dropped_offset]
        exact hS.metaOk.freeOffset b hb hst
      erasedFree := fun b hb hst ho => by
        rw [dropped_state] at hst ⊢
        rw [dropped_offset] at ho
        exact hS.metaOk.erasedFree b hb hst ho
      readOnly := by
        rw [dropped_readOnly, hS.metaOk.readOnly]
        exact (isReadOnly_congr fun b _ => dropped_offset _ _ _ b).symm }

/-- One more page in block `b`: the page at its offset, which was erased. -/
theorem program (hS : Synced env s) {b : ℕ} {d : List Byte} (hb : b < env.nbBlocks)
    (ho : (s.blocks b).currentPageOffset < env.pagesPerBlock)
    (hmtd : s'.mtd = .program (b * env.pagesPerBlock + (s.blocks b).currentPageOffset) d :: s.mtd)
    (hoff : (s'.blocks b).currentPageOffset = (s.blocks b).currentPageOffset + 1)
    (hst : (s'.blocks b).state ≠ .blkFree)
    (hlist : (s'.blocks b).list = [] ∨
      (s'.blocks b).list.length < (s'.blocks b).currentPageOffset)
    (hne : ∀ c, c ≠ b → s'.blocks c = s.blocks c) (hord : s'.metaBlkordr = s.metaBlkordr)
    (hro : s'.readOnly = isReadOnly env.toGeometry s') : Synced env s' := by
  constructor
  case once =>
    rw [hmtd]
    exact ⟨⟨Geometry.page_lt hb ho, hS.unprogrammed hb ho (Nat.le_refl _)⟩, hS.once⟩
  case sync =>
    intro c hc o hoc
    rw [hmtd]
    by_cases hcb : c = b
    · subst hcb
      rw [hoff]
      by_cases hoo : o = (s.blocks c).currentPageOffset
      · subst hoo
        exact iff_of_true programmed_program_self (Nat.lt_succ_self _)
      · rw [programmed_program_ne (by omega), hS.sync c hc o hoc]
        omega
    · rw [Geometry.programmed_program_block ho hoc hcb, hne c hcb]
      exact hS.sync c hc o hoc
  case offsetLe =>
    intro c hc
    by_cases hcb : c = b
    · rw [hcb, hoff]
      exact ho
    · rw [hne c hcb]
      exact hS.offsetLe c hc
  case lists =>
    intro c hc
    by_cases hcb : c = b
    · rw [hcb]
      exact hlist
    · rw [hne c hcb]
      exact hS.lists c hc
  case metaOk =>
    constructor
    case entryLt => rw [hord]; exact hS.metaOk.entryLt
    case entryInj => rw [hord]; exact hS.metaOk.entryInj
    case freeOffset =>
      intro c hc hf
      by_cases hcb : c = b
      · rw [hcb] at hf
        exact absurd hf hst
      · rw [hne c hcb] at hf ⊢
        exact hS.metaOk.freeOffset c hc hf
    case erasedFree =>
      intro c hc hm h0
      by_cases hcb : c = b
      · rw [hcb, hoff] at h0
        omega
      · rw [hne c hcb] at hm h0 ⊢
        exact hS.metaOk.erasedFree c hc hm h0
    case readOnly => exact hro

theorem opened (hS : Synced env s) {b : ℕ} (hb : b < env.nbBlocks)
    (h0 : (s.blocks b).currentPageOffset = 0) (hO : Opened env.toGeometry b s s') :
    Synced env s' := by
  have hpos := env.pagesPerBlock_pos
  have hl : (s.blocks b).list = [] := (hS.lists b hb).resolve_right (by omega)
  refine hS.program hb (by omega) (d := hdrPage env.toGeometry .nandData) ?_ ?_ ?_ ?_
    (fun c hc => hO.block_ne hc) hO.metaBlkordr hO.readOnly
  · rw [hO.mtd, h0, Nat.add_zero]
  · rw [hO.block_self, h0]
  · rw [hO.block_self]
    simp
  · rw [hO.block_self]
    exact Or.inl hl

theorem stored (hS : Synced env s) {key : CStr} {data : List Byte} {b h : ℕ}
    (hb : b < env.nbBlocks) (hpos : 0 < (s.blocks b).currentPageOffset)
    (ho : (s.blocks b).currentPageOffset < env.pagesPerBlock)
    (hSt : Stored env.toGeometry key data b h s s') : Synced env s' := by
  refine hS.program hb ho hSt.mtd (by rw [hSt.block_self]) ?_ ?_ (fun c hc => hSt.block_ne hc)
    hSt.metaBlkordr hSt.readOnly
  · rw [hSt.state]
    intro hf
    have := hS.metaOk.freeOffset b hb hf
    omega
  · rw [hSt.block_self]
    right
    simp only [List.length_cons]
    rcases hS.lists b hb with hl | hl
    · rw [hl, List.length_nil]
      omega
    · omega

/-- Erasing a block puts its counter to 0. -/
theorem erased (hS : Synced env s) {b : ℕ} (hb : b < env.nbBlocks)
    (hE : Erased env.toGeometry b s s') : Synced env s' := by
  constructor
  case once =>
    rw [hE.mtd]
    exact hS.once
  case sync =>
    intro c hc o ho
    rw [hE.mtd]
    by_cases hcb : c = b
    · rw [hcb, hE.block_self,
        programmed_erase_mem (Geometry.mem_block_iff.mpr (Geometry.page_div ho))]
      exact iff_of_false (by decide) (Nat.not_lt_zero _)
    · rw [BlockInv.programmed_erase_block ho hcb, hE.block_ne hcb]
      exact hS.sync c hc o ho
  case offsetLe =>
    intro c hc
    by_cases hcb : c = b
    · rw [hcb, hE.block_self]
      exact Nat.zero_le _
    · rw [hE.block_ne hcb]
      exact hS.offsetLe c hc
  case lists =>
    intro c hc
    by_cases hcb : c = b
    · rw [hcb, hE.block_self]
      exact Or.inl rfl
    · rw [hE.block_ne hcb]
      exact hS.lists c hc
  case metaOk =>
    constructor
    case entryLt => rw [hE.metaBlkordr]; exact hS.metaOk.entryLt
    case entryInj => rw [hE.metaBlkordr]; exact hS.metaOk.entryInj
    case freeOffset =>
      intro c hc hf
      by_cases hcb : c = b
      · rw [hcb, hE.block_self]
        rfl
      · rw [hE.block_ne hcb] at hf ⊢
        exact hS.metaOk.freeOffset c hc hf
    case erasedFree =>
      intro c hc hm h0
      by_cases hcb : c = b
      · rw [hcb, hE.block_self]
        rfl
      · rw [hE.block_ne hcb] at hm h0 ⊢
        exact hS.metaOk.erasedFree c hc hm h0
    case readOnly => exact hE.not_readOnly hb

/-- A block that is erased and opened again counts one page. -/
theorem reopened (hS : Synced env s) {b : ℕ} (hb : b < env.nbBlocks)
    (hR : Reopened env.toGeometry b s s') : Synced env s' := by
  -- through the configuration between the erase and the header
  let s₁ : Config := { s with
    blocks := Function.update s.blocks b (.erased ((s.blocks b).worn + 1))
    mtd := .erase (b * env.pagesPerBlock) env.pagesPerBlock :: s.mtd
    readOnly := false }
  have hE : Erased env.toGeometry b s s₁ := ⟨rfl, rfl, rfl, rfl, rfl⟩
  have h0 : (s₁.blocks b).currentPageOffset = 0 := by
    rw [hE.block_self]
    rfl
  refine (hS.erased hb hE).program hb (by rw [h0]; exact env.pagesPerBlock_pos)
    (d := hdrPage env.toGeometry .nandData) ?_ ?_ ?_ ?_ (fun c hc => ?_) hR.metaBlkordr hR.readOnly
  · rw [hR.mtd, h0, Nat.add_zero]
  · rw [hR.block_self, h0]
  · rw [hR.block_self]
    simp
  · rw [hR.block_self]
    exact Or.inl rfl
  · rw [hR.block_ne hc, hE.block_ne hc]

theorem moves {ok : ℕ → Prop} (hS : Synced env s) (hm : Moves env ok s s') : Synced env s' := by
  refine Moves.preserves (fun s₁ s₂ h₁ hmove => ?_) hm hS
  cases hmove with
  | dropped _ _ => exact h₁.dropped _
  | opened _ hb ho hO => exact h₁.opened hb ho hO
  | stored _ hb hpos ho hSt => exact h₁.stored hb hpos ho hSt
  | reopened _ hb hR => exact h₁.reopened hb hR

theorem listFits (hS : Synced env s) : ListFits env.toGeometry s := by
  intro b hb
  have hlt := (gcTarget_some hb).1
  have hle := hS.offsetLe b hlt
  rcases hS.lists b hlt with hl | hl
  · rw [hl]
    exact env.pagesPerBlock_pos
  · omega

theorem gc (hS : Synced env s) (hdrv : env.NoDriverError) (he : Serial.gc env s = .ok s') :
    Synced env s' := hS.moves (gc_moves hdrv hS.listFits he)

theorem storeAt (hS : Synced env s) (hdrv : env.NoDriverError) {key : CStr} {buf : List Byte} {ret : ℤ}
    (he : Serial.storeAt env key buf s = .ok (ret, s')) : Synced env s' := by
  cases hro : s.readOnly with
  | false =>
    obtain ⟨b, -, hm⟩ := storeAt_moves hdrv hro he
    exact hS.moves hm
  | true =>
    -- with no page left there is no block to pick, and the call does not return
    rw [hS.metaOk.readOnly, isReadOnly_iff] at hro
    obtain ⟨b, -, -, -, -, hb, -⟩ := storeAt_cases he
    obtain ⟨hlt, -, ho⟩ := getHealthyBlock_some hb
    have := hro b hlt
    omega

/-! ## Flush -/

/-- Blocks that are erased when their metadata is written are full afterwards. -/
theorem written (hS : Synced env s)
    (hinj : ∀ i < env.nbMetaBlocks, ∀ j < env.nbMetaBlocks, f i = f j → i = j)
    (hf : ∀ i < env.nbMetaBlocks, f i < env.nbBlocks ∧ (s.blocks (f i)).state = .blkMeta ∧
      (s.blocks (f i)).currentPageOffset = 0)
    (hblk : ∀ b, s'.blocks b = if Chosen env.toGeometry f b then
      { s.blocks b with currentPageOffset := env.pagesPerBlock } else s.blocks b)
    (hord : s'.metaBlkordr = s.metaBlkordr)
    (hmtd : s'.mtd = replay (programs (allPages env snap f)) s.mtd)
    (hro : s'.readOnly = isReadOnly env.toGeometry s') : Synced env s' := by
  have hchosen : ∀ b, Chosen env.toGeometry f b → b < env.nbBlocks ∧
      (s.blocks b).state = .blkMeta ∧ (s.blocks b).currentPageOffset = 0 := by
    rintro b ⟨i, hi, rfl⟩
    exact hf i hi
  constructor
  case once =>
    rw [hmtd]
    refine programOnce_programs _ _ (nodup_allPages env snap hinj) (fun w hw => ?_) hS.once
    have hc := (mem_allPages env snap f w.1).mp (List.mem_map_of_mem hw)
    obtain ⟨hlt, -, h0⟩ := hchosen _ hc
    have ho := Nat.mod_lt w.1 env.pagesPerBlock_pos
    have hp := hS.unprogrammed hlt ho (by omega)
    have hl := Geometry.page_lt hlt ho
    rw [Geometry.page_eq] at hp hl
    exact ⟨hl, hp⟩
  case sync =>
    intro b hb o ho
    rw [hmtd, hblk]
    by_cases hc : Chosen env.toGeometry f b
    · rw [if_pos hc, programmed_programs_mem _ _ (Or.inl ((mem_allPages env snap f _).mpr
        (by rwa [Geometry.page_div ho])))]
      exact iff_of_true rfl ho
    · rw [if_neg hc, programmed_programs_not_mem _ _ (mt (mem_allPages env snap f _).mp
        (by rwa [Geometry.page_div ho]))]
      exact hS.sync b hb o ho
  case offsetLe =>
    intro b hb
    rw [hblk]
    split_ifs
    · exact Nat.le_refl _
    · exact hS.offsetLe b hb
  case lists =>
    intro b hb
    rw [hblk]
    by_cases hc : Chosen env.toGeometry f b
    · rw [if_pos hc]
      have h0 := (hchosen b hc).2.2
      exact Or.inl ((hS.lists b hb).resolve_right (by omega))
    · rw [if_neg hc]
      exact hS.lists b hb
  case metaOk =>
    constructor
    case entryLt => rw [hord]; exact hS.metaOk.entryLt
    case entryInj => rw [hord]; exact hS.metaOk.entryInj
    case freeOffset =>
      intro b hb hst
      rw [hblk] at hst ⊢
      by_cases hc : Chosen env.toGeometry f b
      · rw [if_pos hc] at hst
        rw [(hchosen b hc).2.1] at hst
        cases hst
      · rw [if_neg hc] at hst ⊢
        exact hS.metaOk.freeOffset b hb hst
    case erasedFree =>
      intro b hb hm h0
      rw [hblk] at hm h0 ⊢
      by_cases hc : Chosen env.toGeometry f b
      · rw [if_pos hc] at hm
        exact absurd (hchosen b hc).2.1 hm
      · rw [if_neg hc] at hm h0 ⊢
        exact hS.metaOk.erasedFree b hb hm h0
    case readOnly => exact hro

/-- The configuration that a flush without relocation writes out. -/
theorem snapshot (hS : Synced env s) (hF : Flushed env f s snap s') : Synced env snap := by
  have hoff : ∀ b, (snap.blocks b).currentPageOffset =
      (s.afterErase env.toGeometry b).currentPageOffset := fun b => by
    rw [hF.snapBlocks]
    split_ifs <;> rfl
  have hlist : ∀ b, (snap.blocks b).list = (s.afterErase env.toGeometry b).list := fun b => by
    rw [hF.snapBlocks]
    split_ifs <;> rfl
  constructor
  case once =>
    rw [hF.snapMtd]
    exact programOnce_eraseOps _ _ _ hS.once
  case sync =>
    intro b hb o ho
    rw [hoff, hF.programmed_snap, Geometry.page_div ho]
    rcases afterErase_cases env.toGeometry s b with ⟨hl, he⟩ | ⟨hl, he⟩
    · rw [he, if_pos hl]
      exact iff_of_false (by decide) (Nat.not_lt_zero _)
    · rw [he, if_neg hl]
      exact hS.sync b hb o ho
  case offsetLe =>
    intro b hb
    rw [hoff]
    rcases afterErase_cases env.toGeometry s b with ⟨-, he⟩ | ⟨-, he⟩
    · rw [he]
      exact Nat.zero_le _
    · rw [he]
      exact hS.offsetLe b hb
  case lists =>
    intro b hb
    rw [hoff, hlist]
    rcases afterErase_cases env.toGeometry s b with ⟨-, he⟩ | ⟨-, he⟩
    · rw [he]
      exact Or.inl rfl
    · rw [he]
      exact hS.lists b hb
  case metaOk =>
    constructor
    case entryLt => exact hF.entryLt
    case entryInj => exact hF.entryInj
    case freeOffset =>
      intro b hb hst
      obtain ⟨-, he⟩ := hF.unchosen (b := b) (by rw [hst]; decide)
      rw [he] at hst ⊢
      exact afterErase_freeOffset hS.metaOk hb hst
    case erasedFree =>
      intro b hb hm h0
      obtain ⟨-, he⟩ := hF.unchosen hm
      rw [he] at hm h0 ⊢
      exact afterErase_erasedFree hS.metaOk hb hm h0
    case readOnly => exact hF.snapReadOnly

theorem flushed (hS : Synced env s) (hF : Flushed env f s snap s') : Synced env s' := by
  refine (hS.snapshot hF).written hF.inj (fun i hi => ⟨hF.lt i hi, ?_, ?_⟩) (fun b => ?_) hF.ord hF.mtd
    hF.readOnly
  · rw [hF.snapBlocks, if_pos ⟨i, hi, rfl⟩]
  · rw [hF.snapBlocks, if_pos ⟨i, hi, rfl⟩]
    exact (hF.free i hi).2
  · rw [hF.blocks, hF.snapBlocks]
    split_ifs <;> rfl

/-! ## Flush with relocation, one metadata block -/

theorem flushErase (hS : Synced env s) (hdrv : env.NoDriverError) (is : List ℕ) :
    Synced env (Serial.flushErase env is s) := by
  induction is generalizing s with
  | nil => exact hS
  | cons i is ih =>
    rw [Serial.flushErase]
    cases hi : s.metaBlkordr i with
    | none => exact ih hS
    | some b =>
      exact ih (hS.erased (hS.metaOk.entryLt i b hi).2 (formatSingle_erased hdrv b s).2)

/-- A block may change its state, and `meta_blkordr` be rewritten, if the block is not free then and either has
pages or is metadata. -/
theorem restated (hS : Synced env s) {b : ℕ} {st : BlkState} {ord : ℕ → Option ℕ} (hfree : st ≠ .blkFree)
    (hpages : st = .blkMeta ∨ (s.blocks b).currentPageOffset ≠ 0)
    (hlt : ∀ i c, ord i = some c → i < env.nbMetaBlocks ∧ c < env.nbBlocks)
    (hinj : ∀ i j c, ord i = some c → ord j = some c → i = j) :
    Synced env (({ s with metaBlkordr := ord } : Config).setState b st) := by
  have hblk : ∀ c, (({ s with metaBlkordr := ord } : Config).setState b st).blocks c =
      if c = b then { s.blocks b with state := st } else s.blocks c := fun c => Config.modifyBlk_blocks ..
  have hoff : ∀ c, ((({ s with metaBlkordr := ord } : Config).setState b st).blocks c).currentPageOffset =
      (s.blocks c).currentPageOffset := fun c => by
    rw [hblk]
    split_ifs with hc
    · rw [hc]
    · rfl
  have hlist : ∀ c, ((({ s with metaBlkordr := ord } : Config).setState b st).blocks c).list =
      (s.blocks c).list := fun c => by
    rw [hblk]
    split_ifs with hc
    · rw [hc]
    · rfl
  constructor
  case once => exact hS.once
  case sync =>
    intro c hc o ho
    rw [hoff]
    exact hS.sync c hc o ho
  case offsetLe =>
    intro c hc
    rw [hoff]
    exact hS.offsetLe c hc
  case lists =>
    intro c hc
    rw [hoff, hlist]
    exact hS.lists c hc
  case metaOk =>
    constructor
    case entryLt => exact hlt
    case entryInj => exact hinj
    case freeOffset =>
      intro c hc hf
      rw [hoff]
      rw [hblk] at hf
      split_ifs at hf with hcb
      · exact absurd hf hfree
      · exact hS.metaOk.freeOffset c hc hf
    case erasedFree =>
      intro c hc hm h0
      rw [hoff] at h0
      rw [hblk] at hm ⊢
      split_ifs at hm ⊢ with hcb
      · exact absurd (hcb ▸ h0) (hpages.resolve_left hm)
      · exact hS.metaOk.erasedFree c hc hm h0
    case readOnly =>
      rw [Config.setState, Config.modifyBlk_readOnly]
      exact hS.metaOk.readOnly.trans (isReadOnly_congr fun c _ => hoff c).symm

/-- A block with pages is taken out of use while they are moved. -/
theorem setInvalid (hS : Synced env s) {b : ℕ} (hb : b < env.nbBlocks)
    (hst : (s.blocks b).state = .blkUsed) : Synced env (s.setState b .blkInvalid) := by
  refine hS.restated (by decide) (.inr fun h0 => ?_) hS.metaOk.entryLt hS.metaOk.entryInj
  have hfree := hS.metaOk.erasedFree b hb (by rw [hst]; decide) h0
  rw [hst] at hfree
  cases hfree

theorem moveOne (hS : Synced env s) (hdrv : env.NoDriverError) {page : List Byte}
    {key key' : ℕ → Byte} (he : Serial.moveOne env page key s = .ok (key', s')) : Synced env s' := by
  obtain rfl | ⟨_, h, _, _, h₁, h₂⟩ := moveOne_ok he
  · exact hS
  · obtain rfl := (invalidPg_ok h₁).2
    exact (hS.dropped h).storeAt hdrv h₂

theorem moveLoop (hdrv : env.NoDriverError) : ∀ {ps : List ℕ} {key : ℕ → Byte} {s s' : Config}
    {r : Option Config}, Synced env s → Serial.moveLoop env ps key s = .ok (r, s') →
      r = some s' ∧ Synced env s'
  | [], _, s, s', r, hS, he => by
      obtain ⟨rfl, rfl⟩ := Prod.mk.inj (Except.ok.inj he)
      exact ⟨rfl, hS⟩
  | p :: ps, key, s, s', r, hS, he => by
      rw [Serial.moveLoop] at he
      split at he
      · rename_i hnone
        simp [readPage, hdrv.read] at hnone
      · split at he
        · cases he
        · rename_i h₁
          exact moveLoop hdrv (hS.moveOne hdrv h₁) he

/-- Whatever is moved out of a block, the block ends erased. -/
theorem movePages (hS : Synced env s) (hdrv : env.NoDriverError) {b : ℕ} {ret : ℤ}
    (hb : b < env.nbBlocks) (he : movePagesToOtherBlock env b s = .ok (ret, s')) :
    Synced env s' ∧ (s'.blocks b).currentPageOffset = 0 := by
  have herase : ∀ s₁, Synced env s₁ → Synced env (formatSingle env b s₁).2 ∧
      ((formatSingle env b s₁).2.blocks b).currentPageOffset = 0 := by
    intro s₁ h₁
    have hE := (formatSingle_erased hdrv b s₁).2
    refine ⟨h₁.erased hb hE, ?_⟩
    rw [hE.block_self]
    rfl
  obtain ⟨hst, rfl⟩ | ⟨-, -, rfl⟩ | ⟨hst, ps, r, s₁, h₁, hend⟩ := movePages_cases he
  · exact ⟨hS, hS.metaOk.freeOffset b hb hst⟩
  · exact herase s hS
  · obtain ⟨rfl, hS₁⟩ := moveLoop hdrv (hS.setInvalid hb hst) h₁
    obtain ⟨hnone, -⟩ | rfl := hend
    · cases hnone
    · exact herase s₁ hS₁

/-- A block without pages becomes the only metadata block. -/
theorem setMeta (hS : Synced env s) (h1 : env.nbMetaBlocks = 1) {b : ℕ} (hb : b < env.nbBlocks) :
    Synced env (({ s with metaBlkordr := Function.update s.metaBlkordr 0 (some b) } :
      Config).setState b .blkMeta) := by
  have hord : ∀ i c, Function.update s.metaBlkordr 0 (some b) i = some c →
      i < env.nbMetaBlocks ∧ c < env.nbBlocks := by
    intro i c hi
    by_cases h0 : i = 0
    · subst h0
      rw [Function.update_self] at hi
      obtain rfl := Option.some.inj hi
      exact ⟨env.nbMetaBlocks_pos, hb⟩
    · rw [Function.update_of_ne h0] at hi
      exact hS.metaOk.entryLt i c hi
  refine hS.restated (by decide) (.inl rfl) hord fun i j c hi hj => ?_
  have := (hord i c hi).1
  have := (hord j c hj).1
  omega

/-- With a single metadata block any flush that returns keeps the discipline. -/
theorem flush_one (hS : Synced env s) (hdrv : env.NoDriverError) (h1 : env.nbMetaBlocks = 1) {ret : ℤ}
    (he : flushMetadata env s = .ok (ret, s')) : Synced env s' := by
  have hS₁ := hS.flushErase hdrv (List.range env.nbMetaBlocks)
  unfold flushMetadata at he
  generalize Serial.flushErase env (List.range env.nbMetaBlocks) s = s₁ at he hS₁
  split at he
  · cases he
  · rename_i s₃ hsel
    rw [h1, List.range_one, flushSelect] at hsel
    split at hsel
    · cases hsel
    · rename_i b hb
      split at hsel
      · cases hsel
      · rename_i ret₂ s₂ hmv
        have hlt := getMetaBlock_lt hb
        obtain ⟨hS₂, h0⟩ := hS₁.movePages hdrv hlt hmv
        obtain rfl := Except.ok.inj hsel
        have hS₃ := hS₂.setMeta h1 hlt
        have hoff : ((({ s₂ with metaBlkordr := Function.update s₂.metaBlkordr 0 (some b) } :
            Config).setState b .blkMeta).blocks b) = { s₂.blocks b with state := .blkMeta } := by
          simp [Config.setState]
        obtain ⟨s₄, hw, hblk, -, hord, hmtd, hro⟩ := flushWrite_spec hdrv
          (({ s₂ with metaBlkordr := Function.update s₂.metaBlkordr 0 (some b) } :
            Config).setState b .blkMeta) (fun _ => b) (List.range env.nbMetaBlocks) _
          (by rw [h1]; decide) List.nodup_range (fun i hi j hj _ => by
            rw [h1, List.mem_range] at hi hj
            omega) hS₃.metaOk.readOnly (fun i hi => by
            rw [h1, List.mem_range] at hi
            obtain rfl : i = 0 := by omega
            rw [hoff]
            exact ⟨by simp [Config.setState], hlt, h0⟩)
        rw [hw] at he
        obtain rfl := (Prod.mk.inj (Except.ok.inj he)).2
        simp only [List.mem_range] at hblk
        refine hS₃.written (f := fun _ => b) (fun i hi j hj _ => by omega)
          (fun i _ => by rw [hoff]; exact ⟨hlt, rfl, h0⟩) (fun c => ?_) hord hmtd hro
        rw [hblk]
        exact if_congr Iff.rfl rfl rfl

end Synced

/-! ## Runs -/

/-- A flush that does not relocate pages once it has chosen a metadata block. -/
def FlushOnce (env : Env) (s : Config) : Prop := env.nbMetaBlocks = 1 ∨ FlushOk env.toGeometry s

/-- The condition on an operation, and on each flush that it makes. -/
def OnceOk (env : Env) (s : Config) : Request → Prop
  | .set key val elapsed => ∀ ret s₁ s₂, storePhase env key val s = .ok (ret, s₁) →
      gc env s₁ = .ok s₂ → elapsed = true → FlushOnce env s₂
  | .flush => FlushOnce env s
  | .reload => False
  | _ => True

namespace Synced

theorem flush (hS : Synced env s) (hdrv : env.NoDriverError) (hok : FlushOnce env s) {ret : ℤ}
    (he : flushMetadata env s = .ok (ret, s')) : Synced env s' := by
  rcases hok with h1 | hok
  · exact hS.flush_one hdrv h1 he
  · obtain ⟨f, snap, s₁, hf, hF⟩ := flush_spec hdrv hS.metaOk hok
    rw [hf] at he
    obtain rfl := (Prod.mk.inj (Except.ok.inj he)).2
    exact hS.flushed hF

theorem format (hdrv : env.NoDriverError)
    (hlt : ∀ i b, s.metaBlkordr i = some b → i < env.nbMetaBlocks ∧ b < env.nbBlocks)
    (hinj : ∀ i j b, s.metaBlkordr i = some b → s.metaBlkordr j = some b → i = j)
    (honce : ProgramOnce env.hashSize s.mtd) : Synced env (Serial.format env s).2 := by
  have hB := format_blockInv (s := s) hdrv hlt hinj
  rw [format_eq hdrv] at hB ⊢
  constructor
  case once => exact honce
  case sync =>
    intro b hb o ho
    rw [(hB.free b hb rfl).2.2 o ho]
    exact iff_of_false (by decide) (Nat.not_lt_zero _)
  case offsetLe => exact fun b _ => Nat.zero_le _
  case lists => exact fun b _ => Or.inl rfl
  case metaOk => exact hB.metaOk

/-- One operation under its condition. -/
theorem step (hS : Synced env s) (hdrv : env.NoDriverError) {e : Request × Result}
    (hok : OnceOk env s e.1) (he : Step env s e s') : Synced env s' := by
  rcases step_cases he with ⟨key, val, elapsed, hreq, h⟩ | ⟨key, -, -, rfl⟩ | ⟨key, -, h⟩ |
    ⟨-, h⟩ | ⟨hreq, h⟩ | ⟨-, h⟩ | ⟨hreq, -⟩
  · rw [hreq] at hok
    rcases setKeyval_cases h with ⟨-, -, rfl⟩ | ⟨-, -, rfl⟩ |
      ⟨ret₁, s₁, s₂, -, hro, h₁, h₂, h₃, -⟩
    · exact hS
    · exact hS
    · obtain ⟨b, -, hm⟩ := storePhase_moves hdrv hro h₁
      have hS₂ := (hS.moves hm).gc hdrv h₂
      rcases timedFlush_cases h₃ with ⟨-, rfl⟩ | ⟨hel, ret₂, hf⟩
      · exact hS₂
      · exact hS₂.flush hdrv (hok ret₁ s₁ s₂ h₁ h₂ hel) hf
  · exact hS
  · exact hS.moves (delKey_moves h)
  · exact hS.gc hdrv h
  · rw [hreq] at hok
    exact hS.flush hdrv hok h
  · have hs' : s' = (Serial.format env s).2 := by rw [h]
    rw [hs']
    exact format hdrv hS.metaOk.entryLt hS.metaOk.entryInj hS.once
  · rw [hreq] at hok
    exact hok.elim

end Synced

/-- In every run from a new device that does not mount flushed metadata and meets `OnceOk`, every page
write so far went to an erased page of the device, and the offsets count the programmed pages. -/
theorem pages_programmed_once (env : Env) (hdrv : env.NoDriverError) {s₀ s : Config}
    {es : List (Request × Result)} (hf : Fresh env s₀)
    (hr : Run (fun s e s' => OnceOk env s e.1 ∧ Step env s e s') s₀ es s) : Disciplined env s := by
  have h₀ : Synced env s₀ := by
    rw [fresh_iff hdrv] at hf
    subst hf
    exact Synced.format hdrv (fun _ _ h => by cases h) (fun _ _ _ h => by cases h) trivial
  exact (hr.invariant (fun s e s' hS hs => hS.step hdrv hs.1 hs.2) h₀).disciplined

/-- A pair is stored and the metadata flushed. -/
theorem pages_programmed_once_flush :
    Disciplined (.ideal tinyGeometry) (final (.ideal tinyGeometry)
      [.set (.ofBytes [107]) (.ofBytes [118]) false, .flush] (Env.ideal tinyGeometry).start) := by
  have hr : Run (fun s e s' => OnceOk (.ideal tinyGeometry) s e.1 ∧ Step (.ideal tinyGeometry) s e s')
      (Env.ideal tinyGeometry).start
      [(.set (.ofBytes [107]) (.ofBytes [118]) false, ⟨0, []⟩), (.flush, ⟨0, []⟩)]
      (final (.ideal tinyGeometry) [.set (.ofBytes [107]) (.ofBytes [118]) false, .flush]
        (Env.ideal tinyGeometry).start) :=
    .cons ⟨fun _ _ _ _ _ h => Bool.noConfusion h, rfl⟩ (.cons ⟨Or.inl rfl, rfl⟩ (.nil _))
  exact pages_programmed_once (.ideal tinyGeometry) (Env.ideal_noDriverError _) rfl hr

/-- After unloading and loading the module, the block with the metadata counts no page although it is
full, and the next `set_keyval` programs its header page again. -/
theorem reload_programs_twice :
    ∃ s s', Reachable (.ideal roomyGeometry) s ∧ Reachable (.ideal roomyGeometry) s' ∧
      (s.blocks 0).currentPageOffset ≠ programmedIn s.mtd 0 roomyGeometry.pagesPerBlock ∧
      ¬ ProgramOnce roomyGeometry.hashSize s'.mtd := by
  have hc : codes (.ideal roomyGeometry) [.reload] (Env.ideal roomyGeometry).start = some [0] := by
    decide +kernel
  have hc' : codes (.ideal roomyGeometry) [.reload, .set (.ofBytes [107]) (.ofBytes [118]) false]
      (Env.ideal roomyGeometry).start = some [0, 0] := by decide +kernel
  obtain ⟨es, -, -, hr⟩ := run_of_codes hc
  obtain ⟨es', -, -, hr'⟩ := run_of_codes hc'
  refine ⟨_, _, ⟨_, es, rfl, hr⟩, ⟨_, es', rfl, hr'⟩, ?_, ?_⟩
  · decide +kernel
  · decide +kernel

end LkpProjects.Serial
