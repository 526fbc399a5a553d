import LkpProjects.Serial.Words

/-! # The serial store: the read-only flag and the allocator

`config.read_only` is set where `write_page` and `init_scan` find all blocks full and cleared where
`format_single` and `format` empty one. It agrees with the blocks' offsets (`Coherent`) on every path
of these functions, whatever the driver answers and whatever table a mount has loaded. While it is clear,
`get_next_page` hands out a block with a page behind its header, if no offset is negative.
-/
namespace LkpProjects.Serial.Words
open Nand Bytes Stepwise
set_option autoImplicit false

/-- The flag is set exactly when every block is full. -/
def Coherent (g : Geometry) (w : Config) : Prop :=
  w.readOnly = true ↔ ∀ b < g.nbBlocks, (g.pagesPerBlock : ℤ) ≤ (w.blocks b).currentPageOffset

/-- A call of one of the functions that write the flag or an offset. -/
inductive FlagCall where
  | writePage (pageIndex : ℕ) (buf : List Byte)
  | formatSingle (idx : Option ℕ)
  | format

/-- The call, for pages and blocks of the device. -/
def FlagStep (env : Env) (w : Config) : FlagCall → Config → Prop
  | .writePage p buf, w' => p < env.hashSize ∧ ∃ ret, writePage env p buf w = .ok (ret, w')
  | .formatSingle idx, w' => (∀ b, idx = some b → b < env.nbBlocks) ∧ w' = (formatSingle env idx w).2
  | .format, w' => w' = (format env w).2

variable {env : Env} {g : Geometry} {w w' : Config} {b p : ℕ}

theorem isReadOnly_iff : isReadOnly g w = true ↔
    ∀ b < g.nbBlocks, (g.pagesPerBlock : ℤ) ≤ (w.blocks b).currentPageOffset := by
  simp [isReadOnly]

theorem isReadOnly_eq_false (hb : b < g.nbBlocks) (ho : (w.blocks b).currentPageOffset < g.pagesPerBlock) :
    isReadOnly g w = false := by
  rw [Bool.eq_false_iff, ne_eq, isReadOnly_iff]
  exact fun h => not_le.mpr ho (h b hb)

theorem coherent_iff : Coherent g w ↔ w.readOnly = isReadOnly g w := by
  rw [Coherent, ← isReadOnly_iff, ← Bool.eq_iff_iff]

/-! ## One call -/

theorem writePage_coherent {x ret : ℤ} {buf : List Byte} (hc : Coherent env.toGeometry w)
    (h : writePage env x buf w = .ok (ret, w')) : Coherent env.toGeometry w' := by
  unfold writePage at h
  split at h
  · rwa [← (Prod.mk.inj (Except.ok.inj h)).2]
  · next hro =>
    split at h
    · rwa [← (Prod.mk.inj (Except.ok.inj h)).2]
    · next q _ =>
      split at h
      · cases h
      · next c _ =>
        dsimp only at h
        split at h
        · next hfull =>
          rw [← (Prod.mk.inj (Except.ok.inj h)).2]
          exact coherent_iff.mpr hfull.symm
        · next hfull =>
          rw [← (Prod.mk.inj (Except.ok.inj h)).2]
          exact coherent_iff.mpr ((Bool.eq_false_iff.mpr hro).trans (Bool.eq_false_iff.mpr hfull).symm)

theorem formatSingle_coherent {idx : Option ℕ} (hidx : ∀ b, idx = some b → b < env.nbBlocks)
    (hc : Coherent env.toGeometry w) : Coherent env.toGeometry (formatSingle env idx w).2 := by
  unfold formatSingle
  split
  · exact hc
  · next b =>
    split
    · refine coherent_iff.mpr (isReadOnly_eq_false (hidx b rfl) ?_).symm
      simp only [Config.modifyBlk_blocks_self, BlkInfo.erased]
      exact Int.natCast_pos.mpr env.pagesPerBlock_pos
    · exact hc

theorem format_coherent (hc : Coherent env.toGeometry w) : Coherent env.toGeometry (format env w).2 := by
  unfold format
  split
  · exact hc
  · exact hc
  · exact coherent_iff.mpr (isReadOnly_eq_false env.nbBlocks_pos (Int.natCast_pos.mpr env.pagesPerBlock_pos)).symm

theorem flagStep_coherent {c : FlagCall} (hc : Coherent env.toGeometry w) (h : FlagStep env w c w') :
    Coherent env.toGeometry w' := by
  cases c with
  | writePage p buf =>
    obtain ⟨-, ret, h⟩ := h
    exact writePage_coherent hc h
  | formatSingle idx =>
    obtain ⟨hidx, rfl⟩ := h
    exact formatSingle_coherent hidx hc
  | format =>
    obtain rfl := h
    exact format_coherent hc

/-- `init_scan` has cleared the flag before and tests at its end. -/
theorem checkReadOnly_coherent (hro : w.readOnly = false) : Coherent g (checkReadOnly g w) := by
  unfold checkReadOnly
  split
  · next hfull => exact coherent_iff.mpr hfull.symm
  · next hfull => exact coherent_iff.mpr (hro.trans (Bool.eq_false_iff.mpr hfull).symm)

/-- A mount that gets to its end. -/
theorem initScan_coherent {mtd : History} (he : initScan env mtd = .ok (0, w)) :
    Coherent env.toGeometry w := by
  unfold initScan at he
  split at he
  · cases he
  · cases (Prod.mk.inj (Except.ok.inj he)).1
  · next ord cnt _ =>
    split at he
    · cases he
    · cases (Prod.mk.inj (Except.ok.inj he)).1
    · next pages _ =>
      dsimp only at he
      split at he
      · split at he
        · next w₁ hf =>
          obtain rfl := (Prod.mk.inj (Except.ok.inj he)).2
          refine checkReadOnly_coherent ?_
          have hro : (format env (.loaded env.toGeometry (scanBuffer env mtd pages) ord mtd)).2.readOnly = false := by
            unfold format
            split <;> rfl
          rwa [hf] at hro
        · next hne hf =>
          obtain ⟨rfl, -⟩ := Prod.mk.inj (Except.ok.inj he)
          exact absurd rfl hne
      · split at he
        · cases he
        · obtain rfl := (Prod.mk.inj (Except.ok.inj he)).2
          exact checkReadOnly_coherent rfl

/-! ## The allocator -/

/-- `get_healthy_block` finds a block in a writable store. -/
theorem getHealthyBlock_isSome (hc : Coherent env.toGeometry w) (hro : w.readOnly = false)
    (hinv : ∀ b < env.nbBlocks, (w.blocks b).state ≠ BlkState.blkInvalid.code)
    (hworn : ∀ b < env.nbBlocks, (w.blocks b).worn < intMax) :
    ∃ b, getHealthyBlock env.toGeometry w = some b := by
  have hfull : isReadOnly env.toGeometry w ≠ true := by
    rw [← coherent_iff.mp hc, hro]
    exact Bool.false_ne_true
  rw [ne_eq, isReadOnly_iff] at hfull
  push Not at hfull
  obtain ⟨b, hb, ho⟩ := hfull
  exact leastBelow_isSome _ _ hb (by simpa using ⟨hinv b hb, ho⟩) (hworn b hb)

/-- The header goes to the first page of the block, and leaves it a page. -/
theorem openBlock_spec (hb : b < env.nbBlocks) (hro : w.readOnly = false)
    (h0 : (w.blocks b).currentPageOffset = 0) (hwrite : ∀ h p, env.writeOk h p = true) :
    ∃ w', openBlock env b w = .ok w' ∧ w'.readOnly = false ∧ (w'.blocks b).currentPageOffset = 1 := by
  have htwo := env.two_le_pagesPerBlock
  have hidx : (b : ℤ) * env.pagesPerBlock = (b * env.pagesPerBlock + 0 : ℕ) := by push_cast; ring
  have hdiv := Geometry.page_div (b := b) env.pagesPerBlock_pos
  have hblk : ((programPage b (b * env.pagesPerBlock + 0) (hdrPage env.toGeometry .nandData)
      (w.setState b .blkUsed)).blocks b).currentPageOffset = 1 := by
    simp only [programPage, Config.setState, Config.modifyBlk_blocks_self, h0]
    rfl
  have hfree : isReadOnly env.toGeometry (programPage b (b * env.pagesPerBlock + 0)
      (hdrPage env.toGeometry .nandData) (w.setState b .blkUsed)) = false :=
    isReadOnly_eq_false hb (by rw [hblk]; omega)
  have hwritten : writePage env (b * env.pagesPerBlock + 0 : ℕ) (hdrPage env.toGeometry .nandData)
      (w.setState b .blkUsed) = .ok (0, programPage b (b * env.pagesPerBlock + 0)
        (hdrPage env.toGeometry .nandData) (w.setState b .blkUsed)) := by
    have hro' : (w.setState b .blkUsed).readOnly = false := hro
    simp only [writePage, hro', Bool.false_eq_true, if_false, pageAt, if_pos (Int.natCast_nonneg _),
      Int.toNat_natCast, Option.filter_some, hwrite, if_true, natCast_page_div, hdiv, blockAt_natCast hb, hfree]
  refine ⟨(programPage b (b * env.pagesPerBlock + 0) (hdrPage env.toGeometry .nandData)
    (w.setState b .blkUsed)).setState b .blkUsed, ?_, hro, ?_⟩
  · rw [openBlock, h0, if_pos (by decide), Int.add_zero, hidx, writeHdr, hwritten]
    simp only [natCast_page_div, hdiv, blockAt_natCast hb]
  · rw [Config.setState, Config.modifyBlk_blocks_self]
    exact hblk

/-- `get_next_page` in a writable store, with a driver that writes. -/
theorem getNextPage_spec (hc : Coherent env.toGeometry w) (hro : w.readOnly = false)
    (hinv : ∀ b < env.nbBlocks, (w.blocks b).state ≠ BlkState.blkInvalid.code)
    (hworn : ∀ b < env.nbBlocks, (w.blocks b).worn < intMax)
    (hoff : ∀ b < env.nbBlocks, 0 ≤ (w.blocks b).currentPageOffset)
    (hwrite : ∀ h p, env.writeOk h p = true) :
    ∃ b w', getNextPage env w = .ok (some b, w') ∧ b < env.nbBlocks ∧
      (w.blocks b).currentPageOffset < env.pagesPerBlock ∧
      (∀ c < env.nbBlocks, (w.blocks c).currentPageOffset < env.pagesPerBlock →
        (w.blocks b).worn ≤ (w.blocks c).worn) ∧
      w'.readOnly = false ∧ 1 ≤ (w'.blocks b).currentPageOffset ∧
      (w'.blocks b).currentPageOffset < env.pagesPerBlock := by
  have htwo := env.two_le_pagesPerBlock
  obtain ⟨b, hb⟩ := getHealthyBlock_isSome hc hro hinv hworn
  obtain ⟨hlt, hcand, -, hmin⟩ := leastBelow_some hb
  have ho : (w.blocks b).currentPageOffset < env.pagesPerBlock := by
    simp only [decide_eq_true_eq] at hcand
    exact hcand.2
  have hmin' : ∀ c < env.nbBlocks, (w.blocks c).currentPageOffset < env.pagesPerBlock →
      (w.blocks b).worn ≤ (w.blocks c).worn := fun c hlt' ho' =>
    hmin c hlt' (by simpa using ⟨hinv c hlt', ho'⟩)
  by_cases h0 : (w.blocks b).currentPageOffset = 0
  · obtain ⟨w', he, hro', h1⟩ := openBlock_spec hlt hro h0 hwrite
    refine ⟨b, w', by rw [getNextPage, hb]; simp only [he]; rfl, hlt, ho, hmin', hro', ?_, ?_⟩
    · omega
    · omega
  · have hpos : ¬ (w.blocks b).currentPageOffset < (reservedPgCnt : ℕ) := by
      have := hoff b hlt
      rw [reservedPgCnt]
      omega
    refine ⟨b, w, by rw [getNextPage, hb]; simp only [openBlock, if_neg hpos]; rfl, hlt, ho, hmin', hro, ?_, ho⟩
    have := hoff b hlt
    omega

/-- The flag agrees with the blocks from the end of `init_scan` on, through any sequence of calls and
whatever the driver answers; and in a writable store without a negative offset `get_next_page` hands out
a least worn block that is not full, with a page behind its header for the page index that `set_keyval`
computes. -/
theorem coherent_and_allocates (env : Env) :
    (∀ mtd w, initScan env mtd = .ok (0, w) → Coherent env.toGeometry w) ∧
    (∀ w cs w', Coherent env.toGeometry w → Run (FlagStep env) w cs w' →
      Coherent env.toGeometry w') ∧
    ∀ w, Coherent env.toGeometry w → w.readOnly = false →
      (∀ b < env.nbBlocks, (w.blocks b).state ≠ BlkState.blkInvalid.code) →
      (∀ b < env.nbBlocks, (w.blocks b).worn < 2 ^ 31 - 1) →
      (∀ b < env.nbBlocks, 0 ≤ (w.blocks b).currentPageOffset) →
      (∀ h p, env.writeOk h p = true) →
      ∃ b w', getNextPage env w = .ok (some b, w') ∧ b < env.nbBlocks ∧
        (w.blocks b).currentPageOffset < env.pagesPerBlock ∧
        (∀ c < env.nbBlocks, (w.blocks c).currentPageOffset < env.pagesPerBlock →
          (w.blocks b).worn ≤ (w.blocks c).worn) ∧
        w'.readOnly = false ∧ 1 ≤ (w'.blocks b).currentPageOffset ∧
        (w'.blocks b).currentPageOffset < env.pagesPerBlock ∧
        (b * env.pagesPerBlock + (w'.blocks b).currentPageOffset) / env.pagesPerBlock = b ∧
        (b * env.pagesPerBlock + (w'.blocks b).currentPageOffset) % env.pagesPerBlock ≠ 0 := by
  refine ⟨fun _ _ => initScan_coherent, fun w cs w' hc hrun => ?_,
    fun w hc hro hinv hworn hoff hwrite => ?_⟩
  · exact hrun.invariant (fun _ _ _ => flagStep_coherent) hc
  · obtain ⟨b, w', hnext, hb, ho, hmin, hro', hpos, hlt⟩ := getNextPage_spec hc hro hinv hworn hoff hwrite
    have hnonneg : 0 ≤ (w'.blocks b).currentPageOffset := by omega
    refine ⟨b, w', hnext, hb, ho, hmin, hro', hpos, hlt, ?_, ?_⟩
    · rw [Int.add_comm, Int.add_mul_ediv_right _ _ (by omega), Int.ediv_eq_zero_of_lt hnonneg hlt, Int.zero_add]
    · rw [Int.add_comm, Int.add_mul_emod_self_right, Int.emod_eq_of_lt hnonneg hlt]
      omega

/-- A new device is mounted and formatted, its first block is erased once more, and a page is handed out of the
other one. -/
theorem coherent_and_allocates_start :
    ∃ w w₁ w', initScan (.ideal tinyGeometry) [] = .ok (0, w) ∧
      Run (FlagStep (.ideal tinyGeometry)) w [.format, .formatSingle (some 0)] w₁ ∧ Coherent tinyGeometry w₁ ∧
      getNextPage (.ideal tinyGeometry) w₁ = .ok (some 1, w') ∧ w'.readOnly = false ∧
      Holds tinyGeometry w' (Serial.getNextPage (.ideal tinyGeometry) (formatEntry (.ideal tinyGeometry) (some 0)
        (Serial.format (.ideal tinyGeometry) (Env.ideal tinyGeometry).start).2).2).2 := by
  have hall := coherent_and_allocates (.ideal tinyGeometry)
  obtain ⟨w, hw, hH⟩ := @initScan_of (.ideal tinyGeometry) (Env.ideal tinyGeometry).start [] 0 rfl
  obtain ⟨-, hH₀⟩ := (hH rfl).1.format
  obtain ⟨-, hH₁⟩ := hH₀.formatSingle (fun b _ => show (0 : ℕ) + 1 < 2 ^ 31 by decide) (some 0)
  have hrun : Run (FlagStep (.ideal tinyGeometry)) w [.format, .formatSingle (some 0)]
      (formatSingle (.ideal tinyGeometry) (some 0) (format (.ideal tinyGeometry) w).2).2 :=
    .cons rfl (.cons ⟨fun b hb => by obtain rfl := Option.some.inj hb; decide, rfl⟩ (.nil _))
  have hc := hall.2.1 w _ _ (hall.1 [] w hw) hrun
  generalize (formatSingle (.ideal tinyGeometry) (some 0) (format (.ideal tinyGeometry) w).2).2 = w₁ at hrun hc hH₁
  have htwo : ∀ b < tinyGeometry.nbBlocks, b = 0 ∨ b = 1 := by decide
  have hblk : ∀ b < tinyGeometry.nbBlocks, w₁.blocks b = .erased (if b = 0 then 1 else 0) := by
    intro b hb
    rw [hH₁.blocks b hb]
    obtain rfl | rfl := htwo b hb
    · rfl
    · rfl
  obtain ⟨b, w', hnext, -, -, -, hro, -⟩ := hall.2.2 w₁ hc hH₁.readOnly
    (fun b hb => by rw [hblk b hb]; exact (by decide : BlkState.blkFree.code ≠ BlkState.blkInvalid.code))
    (fun b hb => by rw [hblk b hb]; split <;> decide)
    (fun b hb => by rw [hblk b hb]; split <;> decide) fun _ _ => rfl
  obtain ⟨w₂, hnext₂, hH₂⟩ := hH₁.getNextPage fun b hb => by
    obtain rfl | rfl := htwo b hb
    · decide
    · decide
  obtain ⟨hb, rfl⟩ := Prod.mk.inj (Except.ok.inj (hnext.symm.trans hnext₂))
  exact ⟨w, w₁, w', hw, hrun, hc, hnext.trans (by rw [hb]; rfl), hro, hH₂⟩

/-- A full metadata block, and a block whose offset is the `int` -1. -/
def negativeTable : Serial.Config :=
  { (Env.ideal roomyGeometry).start with
    blocks := fun b => if b = 0 then ⟨[], .blkMeta, 0, 0, 5⟩ else ⟨[], .blkFree, 0, 0, 2 ^ 32 - 1⟩ }

/-- A flash with that table. -/
def negativeFlash : History :=
  (List.range 4).map (fun j => .program (j + 1) (metaPage (.ideal roomyGeometry) negativeTable j)) ++
    [.program 0 (hdrPage roomyGeometry (.nandMetaData 0))]

/-- A mount goes through, to a configuration with this property. -/
def mountsTo (env : Env) (mtd : History) (p : Config → Bool) : Bool :=
  match initScan env mtd with
  | .ok (0, w) => p w
  | _ => false

theorem of_mountsTo {mtd : History} {p : Config → Bool} (h : mountsTo env mtd p = true) :
    ∃ w, initScan env mtd = .ok (0, w) ∧ p w = true := by
  unfold mountsTo at h
  split at h
  · next w hw => exact ⟨w, hw, h⟩
  · cases h

/-- The block and the offset that `get_next_page` leaves it with. -/
def offered (env : Env) (w : Config) : Option (ℕ × ℤ) :=
  match getNextPage env w with
  | .ok (some b, w) => some (b, (w.blocks b).currentPageOffset)
  | _ => none

theorem of_offered {x : ℤ} (h : offered env w = some (b, x)) :
    ∃ w', getNextPage env w = .ok (some b, w') ∧ (w'.blocks b).currentPageOffset = x := by
  unfold offered at h
  split at h
  · next c w' hw =>
    obtain ⟨rfl, rfl⟩ := Prod.mk.inj (Option.some.inj h)
    exact ⟨w', hw, rfl⟩
  · cases h

/-- Of a mounted table with a negative offset, `get_next_page` hands out the block with that offset: the
header went to the page in front of the block. -/
theorem negative_offset_stays :
    ∃ mtd w b w', initScan (.ideal roomyGeometry) mtd = .ok (0, w) ∧ Coherent roomyGeometry w ∧
      w.readOnly = false ∧ (∀ b < roomyGeometry.nbBlocks, (w.blocks b).state ≠ BlkState.blkInvalid.code) ∧
      (∀ b < roomyGeometry.nbBlocks, (w.blocks b).worn < 2 ^ 31 - 1) ∧
      (∀ h p, (Env.ideal roomyGeometry).writeOk h p = true) ∧
      getNextPage (.ideal roomyGeometry) w = .ok (some b, w') ∧ ¬ 1 ≤ (w'.blocks b).currentPageOffset := by
  have hcheck : mountsTo (.ideal roomyGeometry) negativeFlash (fun w => decide (w.readOnly = false ∧
      (∀ b < 2, (w.blocks b).state ≠ BlkState.blkInvalid.code ∧ (w.blocks b).worn < 2 ^ 31 - 1) ∧
      offered (.ideal roomyGeometry) w = some (1, -1))) = true := by decide +kernel
  obtain ⟨w, hw, hp⟩ := of_mountsTo hcheck
  obtain ⟨hro, hblk, hoff⟩ := of_decide_eq_true hp
  obtain ⟨w', hnext, ho⟩ := of_offered hoff
  exact ⟨negativeFlash, w, 1, w', hw, initScan_coherent hw, hro, fun b hb => (hblk b hb).1,
    fun b hb => (hblk b hb).2, fun _ _ => rfl, hnext, by rw [ho]; decide⟩

end LkpProjects.Serial.Words
