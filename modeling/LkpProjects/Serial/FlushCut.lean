import LkpProjects.Serial.Ownership
import LkpProjects.Serial.Words

/-! # The serial store: the flash in the middle of a flush

The device operations of a flush are the erases of the listed blocks, then `nthWrite` number 0, 1, ...
A mount looks at the blocks' first pages: while the listed blocks are being erased it sees the ranks of
those that are left (`Image.rankAt_erasing`), afterwards the headers written so far (`Flushed.rankAt_writing`).
-/
namespace LkpProjects.Serial
open Nand Bytes
set_option autoImplicit false

variable {env : Env} {s s' snap t : Config} {f : ℕ → ℕ} {mtd : History}

/-! ## What a mount does with the headers it finds -/

namespace Words
variable {w : Config}

/-- Linking the buckets can only fail at a bucket that points out of the device. -/
theorem relink_cases {g : Geometry} {t : ℕ → Bucket} : ∀ (hs : List ℕ) (blocks : ℕ → BlkInfo),
    (∃ blocks', relink g t hs blocks = .ok blocks') ∨ relink g t hs blocks = .error .outOfBounds
  | [], blocks => .inl ⟨blocks, rfl⟩
  | h :: hs, blocks => by
    rw [relink]
    split
    · cases hb : blockAt g ((t h).index.tdiv g.pagesPerBlock) with
      | error f =>
        rw [blockAt] at hb
        split at hb
        · exact .inr (congrArg Except.error (Except.error.inj hb).symm)
        · cases hb
      | ok b => exact relink_cases hs _
    · exact relink_cases hs blocks

/-- With some header on the flash, a mount that returns has not formatted it. -/
theorem mount_keeps_flash {b i : ℕ} (hb : b < env.nbBlocks) (hi : rankAt env mtd b = some i) {ret : ℤ}
    (he : initScan env mtd = .ok (ret, w)) : w.mtd = mtd := by
  unfold initScan at he
  split at he
  · cases he
  · rw [← (Prod.mk.inj (Except.ok.inj he)).2]
    rfl
  · next ord cnt hscan =>
    obtain ⟨-, hcnt⟩ := scanHeaders_ok hscan
    have hmem : i ∈ (List.range env.nbBlocks).filterMap (rankAt env mtd) :=
      List.mem_filterMap.mpr ⟨b, List.mem_range.mpr hb, hi⟩
    have hpos := List.length_pos_of_mem hmem
    split at he
    · cases he
    · rw [← (Prod.mk.inj (Except.ok.inj he)).2]
      rfl
    · dsimp only at he
      rw [if_neg (by omega)] at he
      split at he
      · cases he
      · rw [← (Prod.mk.inj (Except.ok.inj he)).2, checkReadOnly_mtd]
        rfl

/-- With headers but none of rank 0, a mount reads in front of the device, and fails if the driver does. -/
theorem mount_without_first (hdrv : env.NoDriverError) (hout : ∀ x < 0, env.outside x = none) {b i : ℕ}
    (hb : b < env.nbBlocks) (hi : rankAt env mtd b = some i)
    (hlt : ∀ c < env.nbBlocks, ∀ j, rankAt env mtd c = some j → 0 < j ∧ j < env.nbMetaBlocks) :
    initScan env mtd = .ok (-4, .allocated env mtd) := by
  have hscan := scanHeaders_spec hdrv mtd (List.range env.nbBlocks) (fun _ => none) 0
    fun c hc j hj => (hlt c (List.mem_range.mp hc) j hj).2
  have hmem : i ∈ (List.range env.nbBlocks).filterMap (rankAt env mtd) :=
    List.mem_filterMap.mpr ⟨b, List.mem_range.mpr hb, hi⟩
  obtain ⟨n, hn⟩ := Nat.exists_eq_succ_of_ne_zero (Nat.ne_of_gt (List.length_pos_of_mem hmem))
  obtain ⟨m, hm⟩ : ∃ m, env.pagesPerBlock - 1 = m + 1 := by
    have := env.two_le_pagesPerBlock
    exact ⟨env.pagesPerBlock - 2, by omega⟩
  -- the first page to be read is one of the block of rank 0
  have hzero : (List.range env.nbBlocks).foldl (enterRank env mtd) (fun _ => none) 0 = none := by
    rw [Option.eq_none_iff_forall_ne_some]
    intro c hc
    obtain ⟨hmem, hr⟩ | hc := rankAt_of_foldl _ _ _ _ hc
    · exact Nat.lt_irrefl 0 (hlt c (List.mem_range.mp hmem) 0 hr).1
    · cases hc
  have hread : readEntry env mtd none (0 + 1) = none := by
    have htwo := env.two_le_pagesPerBlock
    rw [readEntry, hout _ (by omega)]
    rfl
  have hpages : scanPages env mtd ((List.range env.nbBlocks).foldl (enterRank env mtd) fun _ => none)
      (0 + ((List.range env.nbBlocks).filterMap (rankAt env mtd)).length) = .ok none := by
    rw [hn, Nat.zero_add, scanPages, hm, @List.range_succ_eq_map n, List.flatMap_cons, @List.range_succ_eq_map m,
      List.map_cons, List.cons_append, scanLoop, hzero, hread]
  simp only [initScan, hscan, hpages]

/-- Without a header a mount formats the device. -/
theorem mount_formats (hdrv : env.NoDriverError)
    (hnone : ∀ b < env.nbBlocks, rankAt env mtd b = none) :
    ∃ w, initScan env mtd = .ok (0, w) ∧ w.mtd = .erase 0 env.hashSize :: mtd ∧
      ∀ h, (w.hashtable h).pState = PageState.pgFree.code := by
  have hscan := scanHeaders_spec hdrv mtd (List.range env.nbBlocks) (fun _ => none) 0
    fun b hb i hi => by rw [hnone b (List.mem_range.mp hb)] at hi; cases hi
  have hnil : (List.range env.nbBlocks).filterMap (rankAt env mtd) = [] :=
    List.filterMap_eq_nil_iff.mpr fun b hb => hnone b (List.mem_range.mp hb)
  rw [hnil, List.length_nil, Nat.add_zero] at hscan
  have hpages : ∀ ord, scanPages env mtd ord 0 = .ok (some []) := fun ord => rfl
  refine ⟨_, by simp only [initScan, hscan, hpages, if_true, format, hdrv.erase]; rfl, ?_, fun h => ?_⟩
  · rw [checkReadOnly_mtd]
    rfl
  · rw [checkReadOnly_hashtable]

/-- With headers of the ranks from 0 on, a mount fills its buffer. It leaves it if the memory ends before the
pages do; otherwise it comes to an end, unless a bucket that it has read points out of the device. -/
theorem mount_headers {cnt : ℕ} (hH : Headers env cnt f mtd) (hdrv : env.NoDriverError) (hpos : 0 < cnt) :
    (env.metaRoom < cnt * (env.pagesPerBlock - 1) → initScan env mtd = .error .overflow) ∧
      (cnt * (env.pagesPerBlock - 1) ≤ env.metaRoom → (∃ w, initScan env mtd = .ok (0, w) ∧ w.mtd = mtd) ∨
        initScan env mtd = .error .outOfBounds) := by
  obtain ⟨hscan, hpages⟩ := hH.scan hdrv
  constructor
  · intro hroom
    rw [if_neg (Nat.not_le_of_lt hroom)] at hpages
    rw [initScan, hscan]
    simp only [hpages]
  · intro hroom
    rw [if_pos hroom] at hpages
    rw [initScan, hscan]
    simp only [hpages, if_neg (Nat.ne_of_gt hpos)]
    obtain ⟨blocks, hrel⟩ | hrel := relink_cases (g := env.toGeometry)
      (t := (Config.loaded env.toGeometry (scanBuffer env mtd ((List.range (cnt * (env.pagesPerBlock - 1))).map
        fun p => content env.pageSize mtd (f (p / (env.pagesPerBlock - 1)) * env.pagesPerBlock +
          (p % (env.pagesPerBlock - 1) + 1)))) ((List.range env.nbBlocks).foldl (enterRank env mtd) fun _ => none)
            mtd).hashtable) (List.range env.hashSize) _
    · exact .inl ⟨_, by rw [hrel], checkReadOnly_mtd⟩
    · exact .inr (by rw [hrel])

end Words

/-! ## The erases -/

/-- After the erase of `k` blocks of an image, the other blocks' headers are left. -/
theorem Image.rankAt_erasing (hIm : Image env env.nbMetaBlocks f snap mtd) {k b i : ℕ}
    (hb : b < env.nbBlocks) :
    rankAt env (replay (eraseOps env.toGeometry ((List.range k).map f)) mtd) b = some i ↔
      k ≤ i ∧ i < env.nbMetaBlocks ∧ f i = b := by
  have hc := content_eraseOps env.toGeometry env.pageSize ((List.range k).map f) mtd
    (b * env.pagesPerBlock)
  rw [Nat.mul_div_cancel _ env.pagesPerBlock_pos] at hc
  by_cases hm : b ∈ (List.range k).map f
  · rw [if_pos hm] at hc
    obtain ⟨j, hj, hjb⟩ := List.mem_map.mp hm
    rw [List.mem_range] at hj
    rw [rankAt_erased hc]
    refine iff_of_false (by simp) ?_
    rintro ⟨hki, hi, hib⟩
    have := hIm.inj i hi j (by omega) (hib.trans hjb.symm)
    omega
  · rw [if_neg hm] at hc
    rw [rankAt_congr hc, hIm.rankAt_iff hb]
    refine ⟨fun ⟨hi, hib⟩ => ⟨Nat.le_of_not_lt fun hlt => hm ?_, hi, hib⟩, fun h => h.2⟩
    exact List.mem_map.mpr ⟨i, List.mem_range.mpr hlt, hib⟩

/-! ## The writes -/

/-- Write number `x` of a flush: the pages of the chosen blocks, one behind the other. -/
def nthWrite (env : Env) (snap : Config) (f : ℕ → ℕ) (x : ℕ) : ℕ × List Byte :=
  (f (x / env.pagesPerBlock) * env.pagesPerBlock + x % env.pagesPerBlock,
    if x % env.pagesPerBlock = 0 then
      hdrPage env.toGeometry (.nandMetaData (x / env.pagesPerBlock))
    else metaPage env snap (x / env.pagesPerBlock * (env.pagesPerBlock - 1) +
      (x % env.pagesPerBlock - 1)))

/-- The number of the write that stores page `y` of the metadata. -/
def writeNumber (g : Geometry) (y : ℕ) : ℕ :=
  y / (g.pagesPerBlock - 1) * g.pagesPerBlock + (y % (g.pagesPerBlock - 1) + 1)

/-- The number of headers among the first `q` writes. -/
def headersWritten (g : Geometry) (q : ℕ) : ℕ := (q + (g.pagesPerBlock - 1)) / g.pagesPerBlock

/-- The pages of one block, by their offset. -/
theorem flushPages_eq (env : Env) (snap : Config) (i b : ℕ) :
    flushPages env snap i b = (List.range env.pagesPerBlock).map fun o =>
      (b * env.pagesPerBlock + o, if o = 0 then hdrPage env.toGeometry (.nandMetaData i)
        else metaPage env snap (i * (env.pagesPerBlock - 1) + (o - 1))) := by
  have hp : env.pagesPerBlock = env.pagesPerBlock - 1 + 1 := by
    have := env.pagesPerBlock_pos
    omega
  conv_rhs => rw [hp, List.range_succ_eq_map, List.map_cons, List.map_map, ← hp]
  rw [flushPages, metaWrites]
  rfl

theorem allPages_eq (env : Env) (snap : Config) (f : ℕ → ℕ) : allPages env snap f =
    (List.range (env.nbMetaBlocks * env.pagesPerBlock)).map (nthWrite env snap f) := by
  have hpairs := congrArg (List.map fun ij : ℕ × ℕ => (f ij.1 * env.pagesPerBlock + ij.2,
    if ij.2 = 0 then hdrPage env.toGeometry (.nandMetaData ij.1)
    else metaPage env snap (ij.1 * (env.pagesPerBlock - 1) + (ij.2 - 1))))
    (pairs_eq env.pagesPerBlock env.pagesPerBlock_pos env.nbMetaBlocks)
  rw [List.map_flatMap, List.map_map] at hpairs
  simp only [List.map_map] at hpairs
  rw [allPages]
  simp only [flushPages_eq]
  exact hpairs

/-- The flash after the first `q` writes. -/
def writing (env : Env) (snap : Config) (f : ℕ → ℕ) (q : ℕ) : History :=
  replay (programs ((List.range q).map (nthWrite env snap f))) snap.mtd

namespace Flushed
variable {q : ℕ}

theorem nodup_writing (hF : Flushed env f s snap s')
    (hq : q ≤ env.nbMetaBlocks * env.pagesPerBlock) :
    (((List.range q).map (nthWrite env snap f)).map Prod.fst).Nodup := by
  have hall := nodup_allPages env snap hF.inj
  rw [allPages_eq] at hall
  obtain ⟨d, hd⟩ := Nat.exists_eq_add_of_le hq
  rw [hd, List.range_add, List.map_append, List.map_append, List.nodup_append] at hall
  exact hall.1

/-- A write that has been done is read back. -/
theorem content_writing (hF : Flushed env f s snap s')
    (hfresh : ∀ i < env.nbMetaBlocks, ∀ o < env.pagesPerBlock,
      programmed snap.mtd (f i * env.pagesPerBlock + o) = false)
    (hq : q ≤ env.nbMetaBlocks * env.pagesPerBlock) {x : ℕ} (hx : x < q) :
    content env.pageSize (writing env snap f q) (nthWrite env snap f x).1 =
      (nthWrite env snap f x).2 := by
  have hblk : x / env.pagesPerBlock < env.nbMetaBlocks :=
    (Nat.div_lt_iff_lt_mul env.pagesPerBlock_pos).mpr (by omega)
  refine content_programs_mem _ _ (hF.nodup_writing hq)
    (List.mem_map.mpr ⟨x, List.mem_range.mpr hx, rfl⟩) ?_ ?_
  · exact hfresh _ hblk _ (Nat.mod_lt _ env.pagesPerBlock_pos)
  · simp only [nthWrite]
    split_ifs
    · exact hdrPage_length env.toGeometry _
    · simp [metaPage]

/-- The first pages that no write has reached are as the erases left them. -/
theorem content_first (hq : q ≤ env.nbMetaBlocks * env.pagesPerBlock) {b : ℕ}
    (hne : ∀ i < env.nbMetaBlocks, i * env.pagesPerBlock < q → f i ≠ b) :
    content env.pageSize (writing env snap f q) (b * env.pagesPerBlock) =
      content env.pageSize snap.mtd (b * env.pagesPerBlock) := by
  refine content_programs_not_mem _ _ ?_
  rw [List.map_map, List.mem_map]
  rintro ⟨x, hx, he⟩
  rw [List.mem_range] at hx
  have hmod := Nat.mod_lt x env.pagesPerBlock_pos
  have hblk : x / env.pagesPerBlock < env.nbMetaBlocks :=
    (Nat.div_lt_iff_lt_mul env.pagesPerBlock_pos).mpr (by omega)
  have hdiv := (Geometry.page_inj hmod env.pagesPerBlock_pos he).1
  have hle := Nat.div_mul_le_self x env.pagesPerBlock
  exact hne _ hblk (by omega) hdiv

/-- The headers that a mount finds are those written so far. -/
theorem rankAt_writing (hF : Flushed env f s snap s') (hB : BlockInv env s)
    (hq : q ≤ env.nbMetaBlocks * env.pagesPerBlock) {b i : ℕ} (hb : b < env.nbBlocks) :
    rankAt env (writing env snap f q) b = some i ↔
      i < env.nbMetaBlocks ∧ i * env.pagesPerBlock < q ∧ f i = b := by
  have hfresh : ∀ i < env.nbMetaBlocks, ∀ o < env.pagesPerBlock,
      programmed snap.mtd (f i * env.pagesPerBlock + o) = false := fun i hi =>
    (hB.afterErase_free hF (hF.lt i hi) (hF.free i hi).1).2.2
  have hhdr : ∀ j < env.nbMetaBlocks, j * env.pagesPerBlock < q →
      rankAt env (writing env snap f q) (f j) = some j := by
    intro j hj hjq
    have hc := hF.content_writing hfresh hq hjq
    simp only [nthWrite, Nat.mul_div_cancel _ env.pagesPerBlock_pos, Nat.mul_mod_left, Nat.add_zero,
      if_true] at hc
    have hle := hF.nbMetaBlocks_le
    have hsize := env.hashSize_lt
    have hmul := Nat.le_mul_of_pos_right env.nbBlocks env.pagesPerBlock_pos
    exact rankAt_metaHdr (by omega) hc
  constructor
  · intro hr
    by_cases hw : ∃ j < env.nbMetaBlocks, j * env.pagesPerBlock < q ∧ f j = b
    · obtain ⟨j, hj, hjq, rfl⟩ := hw
      rw [hhdr j hj hjq] at hr
      obtain rfl := Option.some.inj hr
      exact ⟨hj, hjq, rfl⟩
    · rw [rankAt_congr (content_first hq fun j hj hjq hjb => hw ⟨j, hj, hjq, hjb⟩),
        hB.rankAt_snap hF hb] at hr
      cases hr
  · rintro ⟨hi, hiq, rfl⟩
    exact hhdr i hi hiq

theorem lt_headersWritten {g : Geometry} {i : ℕ} : i < headersWritten g q ↔ i * g.pagesPerBlock < q := by
  have hpos := g.pagesPerBlock_pos
  rw [headersWritten, Nat.lt_iff_add_one_le, Nat.le_div_iff_mul_le hpos, Nat.succ_mul]
  omega

/-- What a mount finds after the first `q` writes. -/
theorem headers_writing (hF : Flushed env f s snap s') (hB : BlockInv env s)
    (hq : q ≤ env.nbMetaBlocks * env.pagesPerBlock) :
    Headers env (headersWritten env.toGeometry q) f (writing env snap f q) := by
  have hle : headersWritten env.toGeometry q ≤ env.nbMetaBlocks := by
    rw [headersWritten, Nat.div_le_iff_le_mul_add_pred env.pagesPerBlock_pos, Nat.mul_comm]
    omega
  constructor
  case le => exact hle
  case lt => exact fun i hi => hF.lt i (by omega)
  case inj => exact fun i hi j hj => hF.inj i (by omega) j (by omega)
  case header =>
    exact fun i hi => (hF.rankAt_writing hB hq (hF.lt i (by omega))).mpr ⟨by omega, lt_headersWritten.mp hi, rfl⟩
  case others =>
    intro b hb hne
    rw [← hB.rankAt_snap hF hb]
    exact rankAt_congr (content_first hq fun i hi hiq => hne i (lt_headersWritten.mpr hiq))

/-- Once every page of the metadata is written, the flash holds an image of it. -/
theorem image_writing (hF : Flushed env f s snap s') (hB : BlockInv env s)
    (hq : q ≤ env.nbMetaBlocks * env.pagesPerBlock)
    (hall : ∀ y < env.nbMetaPages, writeNumber env.toGeometry y < q) :
    Image env (headersWritten env.toGeometry q) f snap (writing env snap f q) := by
  have hm : 0 < env.pagesPerBlock - 1 := by
    have := env.two_le_pagesPerBlock
    omega
  have hfresh : ∀ i < env.nbMetaBlocks, ∀ o < env.pagesPerBlock,
      programmed snap.mtd (f i * env.pagesPerBlock + o) = false := fun i hi =>
    (hB.afterErase_free hF (hF.lt i hi) (hF.free i hi).1).2.2
  refine ⟨hF.headers_writing hB hq, ?_, ?_⟩
  · have hpages : 0 < env.nbMetaPages := Nat.succ_pos _
    have hlast := hall (env.nbMetaPages - 1) (by omega)
    have hblk : (env.nbMetaPages - 1) / (env.pagesPerBlock - 1) < headersWritten env.toGeometry q :=
      lt_headersWritten.mpr (by
        unfold writeNumber at hlast
        omega)
    have := (Nat.div_lt_iff_lt_mul hm).mp hblk
    omega
  · intro i hi j hj hp
    have hdiv : (i * (env.pagesPerBlock - 1) + j) / (env.pagesPerBlock - 1) = i := by
      rw [Nat.mul_comm, Nat.mul_add_div hm, Nat.div_eq_of_lt hj, Nat.add_zero]
    have hmod : (i * (env.pagesPerBlock - 1) + j) % (env.pagesPerBlock - 1) = j := by
      rw [Nat.mul_comm, Nat.mul_add_mod, Nat.mod_eq_of_lt hj]
    have hw := hall _ hp
    rw [writeNumber, hdiv, hmod] at hw
    have hc := hF.content_writing hfresh hq hw
    have ho : j + 1 < env.pagesPerBlock := by omega
    simp only [nthWrite, Geometry.page_div ho, Geometry.page_mod ho, Nat.add_one_ne_zero, if_false,
      Nat.add_sub_cancel] at hc
    exact hc

end Flushed

end LkpProjects.Serial
