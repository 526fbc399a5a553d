import LkpProjects.Serial.Hash

/-! # The serial store: pages and blocks

The functions of `core.c` between the driver and the key-value operations: reading, writing and
erasing, the read-only test, the choice of a block, and `invalid_pg`. A function that returns an
`int` code returns it beside the new configuration; one that can crash the kernel returns in
`Except Fault`.
-/
namespace LkpProjects.Serial
open Nand Bytes
set_option autoImplicit false

/-- `RESERVED_PG_CNT`. -/
def reservedPgCnt : ℕ := 1

/-- `META_HDR_BASE`. -/
def metaHdrBase : ℕ := 1990

/-- `INVALID_THRESHOLD`. -/
def invalidThreshold : ℕ := 48

/-- The initial `minimum` of the wear-leveling loops, `0x7FFFFFFF`. -/
def intMax : ℕ := 0x7FFFFFFF

/-! ## Reading and writing -/

/-- `is_read_only`: no block has a page left. -/
def isReadOnly (g : Geometry) (s : Config) : Bool :=
  (List.range g.nbBlocks).all fun i => g.pagesPerBlock ≤ (s.blocks i).currentPageOffset

/-- The driver stores a page and the block's offset moves on. -/
def programPage (g : Geometry) (pageIndex : ℕ) (buf : List Byte) (s : Config) : Config :=
  { s.modifyBlk (pageIndex / g.pagesPerBlock) fun i =>
      { i with currentPageOffset := i.currentPageOffset + 1 } with
    mtd := .program pageIndex buf :: s.mtd }

/-- `write_page`: 0, -1 when the store is (or has just become) read-only, -2 on a driver error. -/
def writePage (env : Env) (pageIndex : ℕ) (buf : List Byte) (s : Config) : ℤ × Config :=
  if s.readOnly then (-1, s)
  else if env.writeOk s.mtd pageIndex = false then (-2, s)
  else
    let s := programPage env.toGeometry pageIndex buf s
    if isReadOnly env.toGeometry s then (-1, { s with readOnly := true }) else (0, s)

/-- `read_page`: the page, or a driver error. -/
def readPage (env : Env) (mtd : History) (pageIndex : ℕ) : Option (List Byte) :=
  if env.readOk mtd pageIndex = false then none else some (content env.pageSize mtd pageIndex)

/-- The `data` argument of `write_hdr`, with `meta_blk_num` where it is used. -/
inductive HdrKind where
  | nandData
  | nandMetaData (metaBlkNum : ℕ)

/-- The first page of a block: zeros for data, the magic number and the block's rank for metadata. -/
def hdrPage (g : Geometry) : HdrKind → List Byte
  | .nandData => List.replicate g.pageSize 0
  | .nandMetaData n => le32 metaHdrBase ++ (le32 n ++ List.replicate (g.pageSize - 8) 0)

/-- `write_hdr`: the code of `write_page` is dropped, and a data block is marked used. -/
def writeHdr (env : Env) (pgIdx : ℕ) (data : HdrKind) (s : Config) : Config :=
  let s := (writePage env pgIdx (hdrPage env.toGeometry data) s).2
  match data with
  | .nandData => s.setState (pgIdx / env.pagesPerBlock) .blkUsed
  | .nandMetaData _ => s

/-! ## Erasing -/

/-- What `format_single` and `format` leave of a block's record. -/
def BlkInfo.erased (worn : ℕ) : BlkInfo where
  list := []
  state := .blkFree
  worn := worn
  nbInvalid := 0
  currentPageOffset := 0

/-- `format_single` on a block index; its `list_del` loop empties the block's list. -/
def formatSingle (env : Env) (idx : ℕ) (s : Config) : ℤ × Config :=
  match env.eraseResult s.mtd (idx * env.pagesPerBlock) env.pagesPerBlock with
  | .done =>
      (0, { s.modifyBlk idx fun i => .erased (i.worn + 1) with
            readOnly := false
            mtd := .erase (idx * env.pagesPerBlock) env.pagesPerBlock :: s.mtd })
  | _ => (-1, s)

/-- `format_single(config.meta_blkordr[i])`: nothing happens for `-1`. -/
def formatEntry (env : Env) (idx : Option ℕ) (s : Config) : ℤ × Config :=
  match idx with
  | none => (0, s)
  | some b => formatSingle env b s

/-- `format`: erase the whole partition and reset the block records and the hash slots. -/
def format (env : Env) (s : Config) : ℤ × Config :=
  match env.eraseResult s.mtd 0 env.hashSize with
  | .refused => (-1, s)
  | .failed => (-2, s)
  | .done =>
      (0, { s with
            readOnly := false
            mtd := .erase 0 env.hashSize :: s.mtd
            blocks := fun _ => .erased 0
            hashtable := fun h => { s.hashtable h with pState := .pgFree, dirty := false } })

/-! ## Choosing a block -/

section Least
variable {α : Type} [LinearOrder α] {minimum : α} {n b i : ℕ}

/-- The loop of `get_healthy_block` and `get_meta_block`: the first of the least worn candidates, among
those worn less than `minimum`. -/
def leastBelow (minimum : α) (n : ℕ) (candidate : ℕ → Bool) (worn : ℕ → α) : Option ℕ :=
  ((List.range n).foldl
    (fun (best : α × Option ℕ) i =>
      if candidate i = true ∧ worn i < best.1 then (worn i, some i) else best)
    (minimum, none)).2

/-- What the loop holds after looking at the first `n` blocks. -/
theorem leastBelow_fold (minimum : α) (candidate : ℕ → Bool) (worn : ℕ → α) : ∀ n,
    (((List.range n).foldl (fun (best : α × Option ℕ) i =>
        if candidate i = true ∧ worn i < best.1 then (worn i, some i) else best)
      (minimum, none) = (minimum, none)) ∧ ∀ i < n, candidate i = true → minimum ≤ worn i) ∨
    ∃ b < n, ((List.range n).foldl (fun (best : α × Option ℕ) i =>
        if candidate i = true ∧ worn i < best.1 then (worn i, some i) else best)
      (minimum, none) = (worn b, some b)) ∧ candidate b = true ∧ worn b < minimum ∧
        ∀ i < n, candidate i = true → worn b ≤ worn i
  | 0 => Or.inl ⟨rfl, fun _ hi => absurd hi (Nat.not_lt_zero _)⟩
  | n + 1 => by
      rw [List.range_succ, List.foldl_concat]
      rcases leastBelow_fold minimum candidate worn n with ⟨he, hall⟩ | ⟨b, hb, he, hc, hw, hall⟩
      · rw [he]
        by_cases hn : candidate n = true ∧ worn n < minimum
        · rw [if_pos hn]
          refine Or.inr ⟨n, by omega, rfl, hn.1, hn.2, fun i hi hci => ?_⟩
          rcases Nat.lt_succ_iff_lt_or_eq.mp hi with hi | rfl
          · exact hn.2.le.trans (hall i hi hci)
          · exact le_rfl
        · rw [if_neg hn]
          refine Or.inl ⟨rfl, fun i hi hci => ?_⟩
          rcases Nat.lt_succ_iff_lt_or_eq.mp hi with hi | rfl
          · exact hall i hi hci
          · exact not_lt.mp fun h => hn ⟨hci, h⟩
      · rw [he]
        right
        by_cases hn : candidate n = true ∧ worn n < worn b
        · rw [if_pos hn]
          refine ⟨n, by omega, rfl, hn.1, hn.2.trans hw, fun i hi hci => ?_⟩
          rcases Nat.lt_succ_iff_lt_or_eq.mp hi with hi | rfl
          · exact hn.2.le.trans (hall i hi hci)
          · exact le_rfl
        · rw [if_neg hn]
          refine ⟨b, by omega, rfl, hc, hw, fun i hi hci => ?_⟩
          rcases Nat.lt_succ_iff_lt_or_eq.mp hi with hi | rfl
          · exact hall i hi hci
          · exact not_lt.mp fun h => hn ⟨hci, h⟩

variable {candidate : ℕ → Bool} {worn : ℕ → α}

/-- The block found is a candidate worn less than `minimum`, and no candidate is less worn. -/
theorem leastBelow_some (h : leastBelow minimum n candidate worn = some b) :
    b < n ∧ candidate b = true ∧ worn b < minimum ∧ ∀ i < n, candidate i = true → worn b ≤ worn i := by
  unfold leastBelow at h
  rcases leastBelow_fold minimum candidate worn n with ⟨he, -⟩ | ⟨c, hc, he, hcand, hw, hall⟩
  · rw [he] at h
    cases h
  · rw [he] at h
    obtain rfl := Option.some.inj h
    exact ⟨hc, hcand, hw, hall⟩

/-- Nothing is found only when every candidate is worn out. -/
theorem leastBelow_isSome (candidate : ℕ → Bool) (worn : ℕ → α) (hi : i < n)
    (hc : candidate i = true) (hw : worn i < minimum) :
    ∃ b, leastBelow minimum n candidate worn = some b := by
  unfold leastBelow
  rcases leastBelow_fold minimum candidate worn n with ⟨he, hall⟩ | ⟨b, -, he, -⟩
  · exact absurd hw (not_lt.mpr (hall i hi hc))
  · exact ⟨b, by rw [he]⟩

theorem leastBelow_congr {candidate' : ℕ → Bool} {worn' : ℕ → α}
    (h : ∀ i < n, candidate i = candidate' i ∧ worn i = worn' i) :
    leastBelow minimum n candidate worn = leastBelow minimum n candidate' worn' := by
  rw [leastBelow, leastBelow, List.foldl_ext _ _ _ fun best i hi => ?_]
  obtain ⟨hc, hw⟩ := h i (List.mem_range.mp hi)
  rw [hc, hw]

/-- The loop only compares. -/
theorem leastBelow_map {β : Type} [LinearOrder β] {f : α → β} (hf : StrictMono f) :
    leastBelow (f minimum) n candidate (fun i => f (worn i)) = leastBelow minimum n candidate worn := by
  rw [leastBelow, leastBelow]
  change _ = (Prod.map f id (List.foldl _ (minimum, none) (List.range n))).2
  refine congrArg Prod.snd (@List.foldl_hom _ _ _ (Prod.map f id) _ _ (List.range n) (minimum, none) fun best i => ?_)
  simp only [Prod.map, hf.lt_iff_lt, id]
  split <;> rfl

end Least

/-- The loop with `minimum` as the source starts it. -/
def leastWorn (n : ℕ) (candidate : ℕ → Bool) (worn : ℕ → ℕ) : Option ℕ :=
  leastBelow intMax n candidate worn

theorem leastWorn_some {n b : ℕ} {candidate : ℕ → Bool} {worn : ℕ → ℕ}
    (h : leastWorn n candidate worn = some b) :
    b < n ∧ candidate b = true ∧ ∀ i < n, candidate i = true → worn b ≤ worn i := by
  obtain ⟨hb, hc, -, hall⟩ := leastBelow_some h
  exact ⟨hb, hc, hall⟩

theorem leastWorn_isSome {n i : ℕ} (candidate : ℕ → Bool) (worn : ℕ → ℕ) (hi : i < n)
    (hc : candidate i = true) (hw : worn i < intMax) :
    ∃ b, leastWorn n candidate worn = some b := leastBelow_isSome candidate worn hi hc hw

/-- `get_healthy_block`. The test for `BLK_META` is commented out in the source. -/
def getHealthyBlock (g : Geometry) (s : Config) : Option ℕ :=
  leastWorn g.nbBlocks
    (fun i => (s.blocks i).state ≠ .blkInvalid ∧ (s.blocks i).currentPageOffset < g.pagesPerBlock)
    fun i => (s.blocks i).worn

theorem getHealthyBlock_some {g : Geometry} {s : Config} {b : ℕ}
    (h : getHealthyBlock g s = some b) : b < g.nbBlocks ∧ (s.blocks b).state ≠ .blkInvalid ∧
      (s.blocks b).currentPageOffset < g.pagesPerBlock := by
  obtain ⟨hb, hc, -⟩ := leastWorn_some h
  exact ⟨hb, by simpa using hc⟩

/-- `get_meta_block`: an erased block, else one with a page left. -/
def getMetaBlock (g : Geometry) (s : Config) : Option ℕ :=
  match leastWorn g.nbBlocks
      (fun i => (s.blocks i).state ≠ .blkMeta ∧ (s.blocks i).currentPageOffset = 0)
      fun i => (s.blocks i).worn with
  | some b => some b
  | none => leastWorn g.nbBlocks
      (fun i => (s.blocks i).state ≠ .blkMeta ∧ (s.blocks i).currentPageOffset < g.pagesPerBlock)
      fun i => (s.blocks i).worn

/-- The part of `get_next_page` behind `get_healthy_block`: a header for a block without one. -/
def openBlock (env : Env) (b : ℕ) (s : Config) : Config :=
  if (s.blocks b).currentPageOffset < reservedPgCnt then
    let s := s.setState b .blkUsed
    writeHdr env (b * env.pagesPerBlock + (s.blocks b).currentPageOffset) .nandData s
  else s

/-- `get_next_page`: a block with a page left, or `-1`. -/
def getNextPage (env : Env) (s : Config) : Option ℕ × Config :=
  match getHealthyBlock env.toGeometry s with
  | none => (none, s)
  | some b => (some b, openBlock env b s)

/-! ## Invalidating a page -/

/-- Some block's list links bucket `h`. -/
def onList (g : Geometry) (s : Config) (h : ℕ) : Bool :=
  (List.range g.nbBlocks).any fun b => (s.blocks b).list.contains h

/-- `list_del(&config.hashtable[h].p_list)`. -/
def listDel (s : Config) (h : ℕ) : Config :=
  { s with blocks := fun b => { s.blocks b with list := (s.blocks b).list.erase h } }

/-- The bucket is freed and its page counted as invalid. -/
def dropBucket (g : Geometry) (h : ℕ) (s : Config) : Config :=
  { s.modifyBlk ((s.hashtable h).index / g.pagesPerBlock) fun i =>
      { i with nbInvalid := i.nbInvalid + 1 } with
    hashtable := Function.update s.hashtable h { s.hashtable h with pState := .pgFree } }

/-- `invalid_pg`. -/
def invalidPg (g : Geometry) (h : ℕ) (s : Config) : Except Fault Config :=
  if g.nbBlocks ≤ (s.hashtable h).index / g.pagesPerBlock then .error .outOfBounds
  else if onList g s h = false then .error .poisonedList
  else .ok (listDel (dropBucket g h s) h)

end LkpProjects.Serial
