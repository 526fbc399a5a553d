import LkpProjects.Serial.Store

/-! # The serial store: what the primitives do

Each primitive of `core.c` has here the configuration it leaves, field by field, so that no later
proof unfolds it: freeing a bucket (`dropped`), a page write (`wrote`), opening a block (`opened`),
storing a page under a key (`Stored`), erasing and reopening a block.
-/
namespace LkpProjects.Serial
open Nand Bytes
set_option autoImplicit false

/-! ## Buckets and their blocks -/

/-- The bucket in slot `h` is valid. -/
def Config.Valid (g : Geometry) (s : Config) (h : ℕ) : Prop :=
  h < g.hashSize ∧ (s.hashtable h).pState = .pgValid

/-- The block that the bucket in slot `h` points into. -/
def Config.blkOf (g : Geometry) (s : Config) (h : ℕ) : ℕ :=
  (s.hashtable h).index / g.pagesPerBlock

section SameTable
variable {g : Geometry} {s s' : Config} {h : ℕ}

theorem Config.valid_congr (hh : s'.hashtable = s.hashtable) : s'.Valid g h ↔ s.Valid g h := by
  rw [Valid, Valid, hh]

theorem Config.blkOf_congr (hh : s'.hashtable = s.hashtable) : s'.blkOf g h = s.blkOf g h := by
  rw [blkOf, blkOf, hh]

end SameTable

/-! ## The read-only test -/

theorem isReadOnly_iff {g : Geometry} {s : Config} :
    isReadOnly g s = true ↔ ∀ b < g.nbBlocks, g.pagesPerBlock ≤ (s.blocks b).currentPageOffset := by
  simp [isReadOnly]

theorem isReadOnly_eq_false {g : Geometry} {s : Config} {b : ℕ} (hb : b < g.nbBlocks)
    (ho : (s.blocks b).currentPageOffset < g.pagesPerBlock) : isReadOnly g s = false := by
  rw [Bool.eq_false_iff]
  intro h
  have := isReadOnly_iff.mp h b hb
  omega

theorem isReadOnly_congr {g : Geometry} {s s' : Config}
    (h : ∀ b < g.nbBlocks, (s'.blocks b).currentPageOffset = (s.blocks b).currentPageOffset) :
    isReadOnly g s' = isReadOnly g s := by
  rw [Bool.eq_iff_iff, isReadOnly_iff, isReadOnly_iff]
  exact forall₂_congr fun b hb => by rw [h b hb]

/-! ## `invalid_pg` -/

section Drop
variable (g : Geometry) (s : Config) (h : ℕ)

/-- The configuration that `invalid_pg` leaves. -/
def Config.dropped : Config := listDel (dropBucket g h s) h

@[simp] theorem dropped_state (b : ℕ) : ((s.dropped g h).blocks b).state = (s.blocks b).state := by
  simp only [Config.dropped, listDel, dropBucket, Config.modifyBlk_blocks]
  split_ifs with hb
  · rw [hb]
  · rfl

@[simp] theorem dropped_offset (b : ℕ) :
    ((s.dropped g h).blocks b).currentPageOffset = (s.blocks b).currentPageOffset := by
  simp only [Config.dropped, listDel, dropBucket, Config.modifyBlk_blocks]
  split_ifs with hb
  · rw [hb]
  · rfl

@[simp] theorem dropped_worn (b : ℕ) : ((s.dropped g h).blocks b).worn = (s.blocks b).worn := by
  simp only [Config.dropped, listDel, dropBucket, Config.modifyBlk_blocks]
  split_ifs with hb
  · rw [hb]
  · rfl

@[simp] theorem dropped_list (b : ℕ) :
    ((s.dropped g h).blocks b).list = (s.blocks b).list.erase h := by
  simp only [Config.dropped, listDel, dropBucket, Config.modifyBlk_blocks]
  split_ifs with hb
  · rw [hb]
  · rfl

theorem dropped_nbInvalid (b : ℕ) : ((s.dropped g h).blocks b).nbInvalid =
    if b = s.blkOf g h then (s.blocks b).nbInvalid + 1 else (s.blocks b).nbInvalid := by
  by_cases hb : b = s.blkOf g h
  · rw [if_pos hb]
    subst hb
    simp [Config.dropped, listDel, dropBucket, Config.blkOf]
  · rw [if_neg hb]
    rw [Config.blkOf] at hb
    simp only [Config.dropped, listDel, dropBucket]
    rw [Config.modifyBlk_blocks_ne hb]

@[simp] theorem dropped_mtd : (s.dropped g h).mtd = s.mtd := rfl
@[simp] theorem dropped_readOnly : (s.dropped g h).readOnly = s.readOnly := rfl
@[simp] theorem dropped_metaBlkordr : (s.dropped g h).metaBlkordr = s.metaBlkordr := rfl

theorem dropped_hashtable_self :
    (s.dropped g h).hashtable h = { s.hashtable h with pState := .pgFree } :=
  Function.update_self _ _ _

variable {g s h} {j : ℕ}

theorem dropped_hashtable_ne (hj : j ≠ h) : (s.dropped g h).hashtable j = s.hashtable j :=
  Function.update_of_ne hj _ _

theorem dropped_key : ((s.dropped g h).hashtable j).key = (s.hashtable j).key := by
  by_cases hj : j = h
  · rw [hj, dropped_hashtable_self]
  · rw [dropped_hashtable_ne hj]

theorem dropped_index : ((s.dropped g h).hashtable j).index = (s.hashtable j).index := by
  by_cases hj : j = h
  · rw [hj, dropped_hashtable_self]
  · rw [dropped_hashtable_ne hj]

@[simp] theorem dropped_blkOf : (s.dropped g h).blkOf g j = s.blkOf g j := by
  simp only [Config.blkOf, dropped_index]

theorem dropped_valid : (s.dropped g h).Valid g j ↔ s.Valid g j ∧ j ≠ h := by
  by_cases hj : j = h
  · subst hj
    simp [Config.Valid, dropped_hashtable_self]
  · simp [Config.Valid, dropped_hashtable_ne hj, hj]

end Drop

theorem invalidPg_ok {g : Geometry} {s s' : Config} {h : ℕ} (he : invalidPg g h s = .ok s') :
    s.blkOf g h < g.nbBlocks ∧ s' = s.dropped g h := by
  unfold invalidPg at he
  split at he
  · cases he
  · split at he
    · cases he
    · exact ⟨by simpa [Config.blkOf] using ‹¬ g.nbBlocks ≤ _›, (Except.ok.inj he).symm⟩

/-- A bucket that is on the list of its block can be freed. -/
theorem invalidPg_of_mem {g : Geometry} {s : Config} {h b : ℕ} (hb : b < g.nbBlocks)
    (hblk : s.blkOf g h = b) (hl : h ∈ (s.blocks b).list) :
    invalidPg g h s = .ok (s.dropped g h) := by
  have hon : onList g s h = true := by
    simp only [onList, List.any_eq_true, List.mem_range, List.contains_iff_mem]
    exact ⟨b, hb, hl⟩
  rw [← hblk, Config.blkOf] at hb
  rw [invalidPg, if_neg (by omega), if_neg (by rw [hon]; decide)]
  rfl

/-! ## Writing a page -/

theorem hdrPage_length (g : Geometry) (k : HdrKind) : (hdrPage g k).length = g.pageSize := by
  have := g.eight_le_pageSize
  cases k with
  | nandData => simp [hdrPage]
  | nandMetaData n =>
    simp only [hdrPage, List.length_append, le32_length, List.length_replicate]
    omega

/-- The configuration after a page write that the driver accepted. -/
def Config.wrote (g : Geometry) (p : ℕ) (buf : List Byte) (s : Config) : Config :=
  { programPage g p buf s with readOnly := isReadOnly g (programPage g p buf s) }

section Wrote
variable (g : Geometry) (p b : ℕ) (buf : List Byte) (s : Config)

@[simp] theorem wrote_hashtable : (s.wrote g p buf).hashtable = s.hashtable := rfl
@[simp] theorem wrote_metaBlkordr : (s.wrote g p buf).metaBlkordr = s.metaBlkordr := rfl
@[simp] theorem wrote_mtd : (s.wrote g p buf).mtd = .program p buf :: s.mtd := rfl

theorem wrote_readOnly : (s.wrote g p buf).readOnly = isReadOnly g (s.wrote g p buf) := rfl

theorem wrote_blocks : (s.wrote g p buf).blocks = Function.update s.blocks (p / g.pagesPerBlock)
    { s.blocks (p / g.pagesPerBlock) with
      currentPageOffset := (s.blocks (p / g.pagesPerBlock)).currentPageOffset + 1 } := rfl

end Wrote

variable {env : Env} {s s' : Config} {b h p : ℕ} {buf : List Byte} {key : CStr}

/-- The code of an accepted write tells whether it filled the flash. -/
def writeCode (g : Geometry) (s : Config) : ℤ := if isReadOnly g s then -1 else 0

/-- A write that the driver accepts. -/
theorem writePage_accepted (hw : env.writeOk s.mtd p = true) (hro : s.readOnly = false) :
    writePage env p buf s =
      (writeCode env.toGeometry (s.wrote env.toGeometry p buf), s.wrote env.toGeometry p buf) := by
  have hc : isReadOnly env.toGeometry (s.wrote env.toGeometry p buf) =
      isReadOnly env.toGeometry (programPage env.toGeometry p buf s) := rfl
  have hp : (programPage env.toGeometry p buf s).readOnly = false := hro
  simp only [writePage, hro, hw, Bool.false_eq_true, Bool.true_eq_false, if_false]
  rw [writeCode, hc, Config.wrote]
  cases h : isReadOnly env.toGeometry (programPage env.toGeometry p buf s) with
  | true => simp only [if_true]
  | false =>
    simp only [Bool.false_eq_true, if_false]
    rw [← hp]

theorem writePage_eq (hdrv : env.NoDriverError) (hro : s.readOnly = false) :
    writePage env p buf s =
      (writeCode env.toGeometry (s.wrote env.toGeometry p buf), s.wrote env.toGeometry p buf) :=
  writePage_accepted (hdrv.write _ _) hro

theorem writePage_refused (hw : env.writeOk s.mtd p = false) (hro : s.readOnly = false) :
    writePage env p buf s = (-2, s) := by
  simp [writePage, hro, hw]

/-! ## Opening a block -/

/-- A data block gets its header page. -/
structure Opened (g : Geometry) (b : ℕ) (s s' : Config) : Prop where
  blocks : s'.blocks = Function.update s.blocks b
    { s.blocks b with state := .blkUsed, currentPageOffset := 1 }
  hashtable : s'.hashtable = s.hashtable
  metaBlkordr : s'.metaBlkordr = s.metaBlkordr
  mtd : s'.mtd = .program (b * g.pagesPerBlock) (hdrPage g .nandData) :: s.mtd
  readOnly : s'.readOnly = isReadOnly g s'

/-- `write_hdr` for data on the first page of a block, when the driver accepts it. -/
theorem writeHdr_accepted (hacc : env.writeOk s.mtd (b * env.pagesPerBlock) = true)
    (hro : s.readOnly = false) (ho : (s.blocks b).currentPageOffset = 0) :
    Opened env.toGeometry b s (writeHdr env (b * env.pagesPerBlock) .nandData s) := by
  have hdiv : b * env.pagesPerBlock / env.pagesPerBlock = b :=
    Nat.mul_div_cancel _ env.pagesPerBlock_pos
  have hw : writeHdr env (b * env.pagesPerBlock) .nandData s =
      (s.wrote env.toGeometry (b * env.pagesPerBlock) (hdrPage env.toGeometry .nandData)).setState b
        .blkUsed := by
    simp only [writeHdr, writePage_accepted hacc hro, hdiv]
  rw [hw]
  refine ⟨?_, rfl, rfl, rfl, ?_⟩
  · funext c
    by_cases hc : c = b
    · subst hc
      simp [Config.setState, wrote_blocks, hdiv, ho]
    · rw [Config.setState, Config.modifyBlk_blocks_ne hc, wrote_blocks, hdiv,
        Function.update_of_ne hc, Function.update_of_ne hc]
  · rw [Config.setState, Config.modifyBlk_readOnly, wrote_readOnly]
    refine (isReadOnly_congr fun c _ => ?_).symm
    rw [Config.modifyBlk_blocks]
    split_ifs with hc
    · rw [hc]
    · rfl

theorem writeHdr_opened (hdrv : env.NoDriverError) (hro : s.readOnly = false)
    (ho : (s.blocks b).currentPageOffset = 0) :
    Opened env.toGeometry b s (writeHdr env (b * env.pagesPerBlock) .nandData s) :=
  writeHdr_accepted (hdrv.write _ _) hro ho

theorem Opened.block_self {g : Geometry} (h : Opened g b s s') :
    s'.blocks b = { s.blocks b with state := .blkUsed, currentPageOffset := 1 } := by
  rw [h.blocks, Function.update_self]

theorem Opened.block_ne {g : Geometry} {c : ℕ} (h : Opened g b s s') (hc : c ≠ b) :
    s'.blocks c = s.blocks c := by
  rw [h.blocks, Function.update_of_ne hc]

/-- A block has a second page, so its header never fills the flash. -/
theorem Opened.not_readOnly {g : Geometry} (h : Opened g b s s') (hb : b < g.nbBlocks) :
    s'.readOnly = false := by
  rw [h.readOnly]
  refine isReadOnly_eq_false hb ?_
  rw [h.block_self]
  exact g.two_le_pagesPerBlock

theorem openBlock_eq_writeHdr (ho : (s.blocks b).currentPageOffset = 0) : openBlock env b s =
    writeHdr env (b * env.pagesPerBlock) .nandData (s.setState b .blkUsed) := by
  simp [openBlock, reservedPgCnt, ho, Config.setState]

theorem openBlock_accepted (hacc : env.writeOk s.mtd (b * env.pagesPerBlock) = true)
    (hro : s.readOnly = false) (ho : (s.blocks b).currentPageOffset = 0) :
    Opened env.toGeometry b s (openBlock env b s) := by
  have h := writeHdr_accepted (s := s.setState b .blkUsed) (b := b) hacc hro
    (by simp [Config.setState, ho])
  rw [openBlock_eq_writeHdr ho]
  refine ⟨?_, h.hashtable, h.metaBlkordr, h.mtd, h.readOnly⟩
  rw [h.blocks]
  funext c
  by_cases hc : c = b
  · subst hc
    simp [Config.setState]
  · rw [Function.update_of_ne hc, Function.update_of_ne hc, Config.setState,
      Config.modifyBlk_blocks_ne hc]

theorem openBlock_opened (hdrv : env.NoDriverError) (hro : s.readOnly = false)
    (ho : (s.blocks b).currentPageOffset = 0) :
    Opened env.toGeometry b s (openBlock env b s) :=
  openBlock_accepted (hdrv.write _ _) hro ho

theorem openBlock_eq_self (ho : 0 < (s.blocks b).currentPageOffset) : openBlock env b s = s := by
  rw [openBlock, if_neg (by unfold reservedPgCnt; omega)]

/-! ## Storing a page under a key -/

/-- `data` goes to the next page of block `b` and bucket `h` is filled with that page's key. -/
structure Stored (g : Geometry) (key : CStr) (data : List Byte) (b h : ℕ) (s s' : Config) :
    Prop where
  added : Added g key (b * g.pagesPerBlock + (s.blocks b).currentPageOffset) h s.hashtable s'.hashtable
  keyLt : key.len < 128
  blocks : s'.blocks = Function.update s.blocks b
    { s.blocks b with
      list := h :: (s.blocks b).list
      currentPageOffset := (s.blocks b).currentPageOffset + 1 }
  metaBlkordr : s'.metaBlkordr = s.metaBlkordr
  mtd : s'.mtd = .program (b * g.pagesPerBlock + (s.blocks b).currentPageOffset) data :: s.mtd
  readOnly : s'.readOnly = isReadOnly g s'

/-- The page write and the entry in hash table and list, as `set_keyval` and `gc` do them. -/
theorem stored_of_hashAdd {g : Geometry} {t : ℕ → Bucket} (buf : List Byte)
    (ho : (s.blocks b).currentPageOffset < g.pagesPerBlock)
    (he : hashAdd g key (b * g.pagesPerBlock + (s.blocks b).currentPageOffset) s.hashtable =
      .ok (.ok h, t)) :
    Stored g key buf b h s
      ({ s.wrote g (b * g.pagesPerBlock + (s.blocks b).currentPageOffset) buf with
        hashtable := t }.listAdd b h) := by
  have hdiv := Geometry.page_div (g := g) (b := b) ho
  refine ⟨hashAdd_added he, hashAdd_keyLt he, ?_, rfl, rfl, ?_⟩
  · funext c
    by_cases hc : c = b
    · subst hc
      simp [Config.listAdd, wrote_blocks, hdiv]
    · rw [Config.listAdd, Config.modifyBlk_blocks_ne hc]
      simp only
      rw [wrote_blocks, hdiv, Function.update_of_ne hc, Function.update_of_ne hc]
  · rw [Config.listAdd, Config.modifyBlk_readOnly]
    simp only [wrote_readOnly]
    refine (isReadOnly_congr fun c _ => ?_).symm
    rw [Config.modifyBlk_blocks]
    split_ifs with hc
    · rw [hc]
    · rfl

namespace Stored
variable {g : Geometry} {j c : ℕ}

theorem block_self (hS : Stored g key buf b h s s') : s'.blocks b =
    { s.blocks b with
      list := h :: (s.blocks b).list
      currentPageOffset := (s.blocks b).currentPageOffset + 1 } := by
  rw [hS.blocks, Function.update_self]

theorem block_ne (hS : Stored g key buf b h s s') (hc : c ≠ b) : s'.blocks c = s.blocks c := by
  rw [hS.blocks, Function.update_of_ne hc]

theorem state (hS : Stored g key buf b h s s') : (s'.blocks c).state = (s.blocks c).state := by
  by_cases hc : c = b
  · rw [hc, hS.block_self]
  · rw [hS.block_ne hc]

theorem nbInvalid (hS : Stored g key buf b h s s') :
    (s'.blocks c).nbInvalid = (s.blocks c).nbInvalid := by
  by_cases hc : c = b
  · rw [hc, hS.block_self]
  · rw [hS.block_ne hc]

theorem worn (hS : Stored g key buf b h s s') : (s'.blocks c).worn = (s.blocks c).worn := by
  by_cases hc : c = b
  · rw [hc, hS.block_self]
  · rw [hS.block_ne hc]

theorem key_self (hS : Stored g key buf b h s s') : (s'.hashtable h).key = key := by
  rw [hS.added.slot]

theorem index_self (hS : Stored g key buf b h s s') :
    (s'.hashtable h).index = b * g.pagesPerBlock + (s.blocks b).currentPageOffset := by
  rw [hS.added.slot]

theorem key_ne (hS : Stored g key buf b h s s') (hj : j ≠ h) :
    (s'.hashtable j).key = (s.hashtable j).key := (hS.added.other j hj).2.1

theorem index_ne (hS : Stored g key buf b h s s') (hj : j ≠ h) :
    (s'.hashtable j).index = (s.hashtable j).index := (hS.added.other j hj).2.2.1

theorem not_valid (hS : Stored g key buf b h s s') : ¬ s.Valid g h := by
  intro hv
  have := hS.added.wasFree
  rw [hv.2] at this
  cases this

theorem ne_of_valid (hS : Stored g key buf b h s s') (hj : s.Valid g j) : j ≠ h := by
  rintro rfl
  exact hS.not_valid hj

/-- The valid buckets are the old ones and the new one. -/
theorem valid_iff (hS : Stored g key buf b h s s') : s'.Valid g j ↔ j = h ∨ s.Valid g j := by
  by_cases hj : j = h
  · subst hj
    simp only [true_or, iff_true]
    exact ⟨hS.added.lt, by rw [hS.added.slot]⟩
  · simp only [Config.Valid, (hS.added.other j hj).1, hj, false_or]

theorem blkOf_ne (hS : Stored g key buf b h s s') (hj : j ≠ h) : s'.blkOf g j = s.blkOf g j := by
  rw [Config.blkOf, Config.blkOf, hS.index_ne hj]

theorem blkOf_self (hS : Stored g key buf b h s s')
    (ho : (s.blocks b).currentPageOffset < g.pagesPerBlock) : s'.blkOf g h = b := by
  rw [Config.blkOf, hS.index_self, Geometry.page_div ho]

theorem blkOf_eq (hS : Stored g key buf b h s s')
    (ho : (s.blocks b).currentPageOffset < g.pagesPerBlock) (hj : s'.Valid g j) :
    (j = h ∧ s'.blkOf g j = b) ∨ (j ≠ h ∧ s.Valid g j ∧ s'.blkOf g j = s.blkOf g j) := by
  by_cases hjh : j = h
  · exact Or.inl ⟨hjh, by rw [hjh, hS.blkOf_self ho]⟩
  · exact Or.inr ⟨hjh, (hS.valid_iff.mp hj).resolve_left hjh, hS.blkOf_ne hjh⟩

/-- The keys are the old ones and the new one. -/
theorem forall_key (hS : Stored g key buf b h s s') {p : CStr → Prop} (hkey : p key)
    (hold : ∀ j, s.Valid g j → p (s.hashtable j).key) (hj : s'.Valid g j) : p (s'.hashtable j).key := by
  obtain rfl | hjv := hS.valid_iff.mp hj
  · rw [hS.key_self]
    exact hkey
  · rw [hS.key_ne (hS.ne_of_valid hjv)]
    exact hold j hjv

/-- The buckets point into the old blocks and into `b`. -/
theorem forall_blkOf (hS : Stored g key buf b h s s') {p : ℕ → Prop}
    (ho : (s.blocks b).currentPageOffset < g.pagesPerBlock) (hb : p b)
    (hold : ∀ j, s.Valid g j → p (s.blkOf g j)) (hj : s'.Valid g j) : p (s'.blkOf g j) := by
  obtain ⟨-, hjb⟩ | ⟨-, hjv, hjb⟩ := hS.blkOf_eq ho hj
  · rw [hjb]
    exact hb
  · rw [hjb]
    exact hold j hjv

theorem offset_self (hS : Stored g key buf b h s s') :
    (s'.blocks b).currentPageOffset = (s.blocks b).currentPageOffset + 1 := by
  rw [hS.block_self]

theorem offset_le (hS : Stored g key buf b h s s') :
    (s.blocks c).currentPageOffset ≤ (s'.blocks c).currentPageOffset := by
  by_cases hc : c = b
  · rw [hc, hS.offset_self]
    exact Nat.le_succ _
  · rw [hS.block_ne hc]

/-- The new bucket is on the list of its block, the others are where they were. -/
theorem mem_list (hS : Stored g key buf b h s s') :
    j ∈ (s'.blocks c).list ↔ (j = h ∧ c = b) ∨ j ∈ (s.blocks c).list := by
  by_cases hc : c = b
  · rw [hc, hS.block_self, List.mem_cons, and_iff_left rfl]
  · rw [hS.block_ne hc, or_iff_right fun hjc => hc hjc.2]

/-- A key that was there still is. -/
theorem exists_key (hS : Stored g key buf b h s s') {k : CStr}
    (hk : ∃ j, s.Valid g j ∧ (s.hashtable j).key = k) : ∃ j, s'.Valid g j ∧ (s'.hashtable j).key = k := by
  obtain ⟨j, hj, rfl⟩ := hk
  exact ⟨j, hS.valid_iff.mpr (.inr hj), hS.key_ne (hS.ne_of_valid hj)⟩

end Stored

/-- What `get_next_page` does to the block it picks. -/
def Ready (g : Geometry) (b : ℕ) (s s' : Config) : Prop :=
  (0 < (s.blocks b).currentPageOffset ∧ s' = s) ∨
    ((s.blocks b).currentPageOffset = 0 ∧ Opened g b s s')

theorem openBlock_ready (hdrv : env.NoDriverError) (hro : s.readOnly = false) :
    Ready env.toGeometry b s (openBlock env b s) := by
  rcases Nat.eq_zero_or_pos (s.blocks b).currentPageOffset with ho | ho
  · exact Or.inr ⟨ho, openBlock_opened hdrv hro ho⟩
  · exact Or.inl ⟨ho, openBlock_eq_self ho⟩

/-- A block with a page left still has one behind its header. -/
theorem Ready.offset {g : Geometry} (hR : Ready g b s s')
    (ho : (s.blocks b).currentPageOffset < g.pagesPerBlock) :
    0 < (s'.blocks b).currentPageOffset ∧ (s'.blocks b).currentPageOffset < g.pagesPerBlock := by
  rcases hR with ⟨hpos, rfl⟩ | ⟨-, hO⟩
  · exact ⟨hpos, ho⟩
  · rw [hO.block_self]
    exact ⟨Nat.one_pos, g.two_le_pagesPerBlock⟩

theorem Ready.readOnly {g : Geometry} (hR : Ready g b s s') (hb : b < g.nbBlocks)
    (hro : s.readOnly = false) : s'.readOnly = false := by
  rcases hR with ⟨-, rfl⟩ | ⟨-, hO⟩
  · exact hro
  · exact hO.not_readOnly hb

/-- What a call of `storeAt` that returns has done. -/
theorem storeAt_ok (hdrv : env.NoDriverError) (hro : s.readOnly = false) {ret : ℤ}
    (hs : storeAt env key buf s = .ok (ret, s')) :
    ∃ b s₁ h, getHealthyBlock env.toGeometry s = some b ∧ Ready env.toGeometry b s s₁ ∧
      Stored env.toGeometry key buf b h s₁ s' ∧ ret = writeCode env.toGeometry s' := by
  obtain ⟨b, p, s₁, h, t, hb, rfl, hw, hadd, rfl⟩ := storeAt_cases hs
  obtain ⟨hlt, -, ho⟩ := getHealthyBlock_some hb
  have hR := openBlock_ready (b := b) hdrv hro
  rw [writePage_eq hdrv (hR.readOnly hlt hro)] at hw
  obtain ⟨rfl, rfl⟩ := Prod.mk.inj hw
  have hS := stored_of_hashAdd buf (hR.offset ho).2 hadd
  refine ⟨b, _, h, hb, hR, hS, ?_⟩
  rw [writeCode, writeCode, ← hS.readOnly]
  rfl

/-! ## Erasing a block -/

/-- `format_single` when the erase is done. -/
structure Erased (g : Geometry) (b : ℕ) (s s' : Config) : Prop where
  blocks : s'.blocks = Function.update s.blocks b (.erased ((s.blocks b).worn + 1))
  hashtable : s'.hashtable = s.hashtable
  metaBlkordr : s'.metaBlkordr = s.metaBlkordr
  mtd : s'.mtd = .erase (b * g.pagesPerBlock) g.pagesPerBlock :: s.mtd
  readOnly : s'.readOnly = false

theorem formatSingle_erased (hdrv : env.NoDriverError) (b : ℕ) (s : Config) :
    (formatSingle env b s).1 = 0 ∧ Erased env.toGeometry b s (formatSingle env b s).2 := by
  rw [formatSingle, hdrv.erase]
  exact ⟨rfl, rfl, rfl, rfl, rfl, rfl⟩

theorem Erased.block_self {g : Geometry} (h : Erased g b s s') :
    s'.blocks b = .erased ((s.blocks b).worn + 1) := by
  rw [h.blocks, Function.update_self]

theorem Erased.block_ne {g : Geometry} {c : ℕ} (h : Erased g b s s') (hc : c ≠ b) :
    s'.blocks c = s.blocks c := by
  rw [h.blocks, Function.update_of_ne hc]

/-- A block of the device that was just erased has pages left. -/
theorem Erased.not_readOnly {g : Geometry} (h : Erased g b s s') (hb : b < g.nbBlocks) :
    s'.readOnly = isReadOnly g s' := by
  rw [h.readOnly]
  refine (isReadOnly_eq_false hb ?_).symm
  rw [h.block_self]
  exact g.pagesPerBlock_pos

/-- `gc` erases its block and gives it a new header at once. -/
structure Reopened (g : Geometry) (b : ℕ) (s s' : Config) : Prop where
  blocks : s'.blocks = Function.update s.blocks b
    { list := [], state := .blkUsed, worn := (s.blocks b).worn + 1, nbInvalid := 0,
      currentPageOffset := 1 }
  hashtable : s'.hashtable = s.hashtable
  metaBlkordr : s'.metaBlkordr = s.metaBlkordr
  mtd : s'.mtd = .program (b * g.pagesPerBlock) (hdrPage g .nandData) ::
    .erase (b * g.pagesPerBlock) g.pagesPerBlock :: s.mtd
  readOnly : s'.readOnly = isReadOnly g s'

theorem Erased.reopened {g : Geometry} {s₁ : Config} (hE : Erased g b s s₁) (hO : Opened g b s₁ s') :
    Reopened g b s s' := by
  refine ⟨?_, hO.hashtable.trans hE.hashtable, hO.metaBlkordr.trans hE.metaBlkordr, ?_, hO.readOnly⟩
  · rw [hO.blocks, hE.blocks, Function.update_idem, Function.update_self]
    rfl
  · rw [hO.mtd, hE.mtd]

theorem Reopened.block_self {g : Geometry} (h : Reopened g b s s') : s'.blocks b =
    { list := [], state := .blkUsed, worn := (s.blocks b).worn + 1, nbInvalid := 0,
      currentPageOffset := 1 } := by
  rw [h.blocks, Function.update_self]

theorem Reopened.block_ne {g : Geometry} {c : ℕ} (h : Reopened g b s s') (hc : c ≠ b) :
    s'.blocks c = s.blocks c := by
  rw [h.blocks, Function.update_of_ne hc]

theorem Reopened.not_readOnly {g : Geometry} (h : Reopened g b s s') (hb : b < g.nbBlocks) :
    s'.readOnly = false := by
  rw [h.readOnly]
  refine isReadOnly_eq_false hb ?_
  rw [h.block_self]
  exact g.two_le_pagesPerBlock

end LkpProjects.Serial
