import LkpProjects.Serial.Mount

/-! # The serial store: fields as they come from flash

A mount copies the block records and the buckets from flash as they are. A state may then be no value of
its enumeration and a counter may be negative, and the source goes on with them; `Config` has no such
values. Here the fields are what their bytes hold, and the functions that a mount and the allocator
consist of are those of the source on such fields. On the fields that `Config` has they do what the
functions of `LkpProjects.Serial` do (`Holds`).
-/
namespace LkpProjects.Serial.Words
open Nand Bytes
set_option autoImplicit false

/-! ## Data -/

/-- `blk_info`. -/
structure BlkInfo where
  list : List ℕ
  state : ℕ
  worn : ℤ
  nbInvalid : ℤ
  currentPageOffset : ℤ

/-- `bucket`; `key` is the array. -/
structure Bucket where
  dirty : ℤ
  index : ℤ
  key : List Byte
  pState : ℕ

/-- `lkp_kv_cfg`. -/
structure Config where
  blocks : ℕ → BlkInfo
  hashtable : ℕ → Bucket
  metaBlkordr : ℕ → Option ℕ
  readOnly : Bool
  mtd : History

/-- An `int` counted up. -/
def succInt (x : ℤ) : ℤ := (x + 1).bmod (2 ^ 32)

namespace Config

/-- Change the record of one block. -/
def modifyBlk (w : Config) (b : ℕ) (f : BlkInfo → BlkInfo) : Config :=
  { w with blocks := Function.update w.blocks b (f (w.blocks b)) }

/-- `config.blocks[b].state = st`. -/
def setState (w : Config) (b : ℕ) (st : BlkState) : Config :=
  w.modifyBlk b fun i => { i with state := st.code }

@[simp] theorem modifyBlk_blocks_self {w : Config} {b : ℕ} {f : BlkInfo → BlkInfo} :
    (w.modifyBlk b f).blocks b = f (w.blocks b) := Function.update_self _ _ _

theorem modifyBlk_blocks_ne {w : Config} {b c : ℕ} {f : BlkInfo → BlkInfo} (h : c ≠ b) :
    (w.modifyBlk b f).blocks c = w.blocks c := Function.update_of_ne h _ _

end Config

/-- `config.blocks[b]`. -/
def blockAt (g : Geometry) (b : ℤ) : Except Fault ℕ :=
  if b < 0 ∨ (g.nbBlocks : ℤ) ≤ b then .error .outOfBounds else .ok b.toNat

/-! ## Writing and erasing -/

/-- `is_read_only`. -/
def isReadOnly (g : Geometry) (w : Config) : Bool :=
  (List.range g.nbBlocks).all fun i => (g.pagesPerBlock : ℤ) ≤ (w.blocks i).currentPageOffset

/-- The page of the device that the driver takes a page number for. -/
def pageAt (env : Env) (pageIndex : ℤ) : Option ℕ :=
  if 0 ≤ pageIndex then some pageIndex.toNat else env.outside pageIndex

/-- The driver stores a page and the block's offset moves on. -/
def programPage (b p : ℕ) (buf : List Byte) (w : Config) : Config :=
  { w.modifyBlk b fun i => { i with currentPageOffset := succInt i.currentPageOffset } with
    mtd := .program p buf :: w.mtd }

/-- `write_page`. -/
def writePage (env : Env) (pageIndex : ℤ) (buf : List Byte) (w : Config) : Except Fault (ℤ × Config) :=
  if w.readOnly then .ok (-1, w)
  else
    match (pageAt env pageIndex).filter (env.writeOk w.mtd) with
    | none => .ok (-2, w)
    | some p =>
        match blockAt env.toGeometry (pageIndex.tdiv env.pagesPerBlock) with
        | .error f => .error f
        | .ok b =>
            let w := programPage b p buf w
            if isReadOnly env.toGeometry w then .ok (-1, { w with readOnly := true }) else .ok (0, w)

/-- `write_hdr` for a data block. -/
def writeHdr (env : Env) (pgIdx : ℤ) (w : Config) : Except Fault Config :=
  match writePage env pgIdx (hdrPage env.toGeometry .nandData) w with
  | .error f => .error f
  | .ok (_, w) =>
      match blockAt env.toGeometry (pgIdx.tdiv env.pagesPerBlock) with
      | .error f => .error f
      | .ok b => .ok (w.setState b .blkUsed)

/-- What `format_single` and `format` leave of a block's record. -/
def BlkInfo.erased (worn : ℤ) : BlkInfo where
  list := []
  state := BlkState.blkFree.code
  worn := worn
  nbInvalid := 0
  currentPageOffset := 0

/-- `format_single`; nothing happens for `-1`. -/
def formatSingle (env : Env) (idx : Option ℕ) (w : Config) : ℤ × Config :=
  match idx with
  | none => (0, w)
  | some b =>
      match env.eraseResult w.mtd (b * env.pagesPerBlock) env.pagesPerBlock with
      | .done =>
          (0, { w.modifyBlk b fun i => .erased (succInt i.worn) with
                readOnly := false
                mtd := .erase (b * env.pagesPerBlock) env.pagesPerBlock :: w.mtd })
      | _ => (-1, w)

/-- `format`. -/
def format (env : Env) (w : Config) : ℤ × Config :=
  match env.eraseResult w.mtd 0 env.hashSize with
  | .refused => (-1, w)
  | .failed => (-2, w)
  | .done =>
      (0, { w with
            readOnly := false
            mtd := .erase 0 env.hashSize :: w.mtd
            blocks := fun _ => .erased 0
            hashtable := fun h => { w.hashtable h with pState := PageState.pgFree.code, dirty := 0 } })

/-! ## The allocator -/

/-- `get_healthy_block`. -/
def getHealthyBlock (g : Geometry) (w : Config) : Option ℕ :=
  leastBelow (intMax : ℤ) g.nbBlocks
    (fun i => (w.blocks i).state ≠ BlkState.blkInvalid.code ∧
      (w.blocks i).currentPageOffset < g.pagesPerBlock)
    fun i => (w.blocks i).worn

/-- The part of `get_next_page` behind `get_healthy_block`. -/
def openBlock (env : Env) (b : ℕ) (w : Config) : Except Fault Config :=
  if (w.blocks b).currentPageOffset < reservedPgCnt then
    writeHdr env (b * env.pagesPerBlock + (w.blocks b).currentPageOffset) (w.setState b .blkUsed)
  else .ok w

/-- `get_next_page`. -/
def getNextPage (env : Env) (w : Config) : Except Fault (Option ℕ × Config) :=
  match getHealthyBlock env.toGeometry w with
  | none => .ok (none, w)
  | some b => (openBlock env b w).map fun w => (some b, w)

/-! ## Mounting -/

/-- The `blk_info` at address `pos`, with a new list. -/
def readBlkInfo (f : ℕ → Byte) (pos : ℕ) : BlkInfo where
  list := []
  state := readLe f (pos + 8)
  worn := intOfWord (readLe f (pos + 12))
  nbInvalid := intOfWord (readLe f (pos + 16))
  currentPageOffset := intOfWord (readLe f (pos + 20))

/-- The `bucket` at address `pos`. -/
def readBucket (f : ℕ → Byte) (pos : ℕ) : Bucket where
  dirty := intOfWord (readLe f (pos + 16))
  index := intOfWord (readLe f (pos + 20))
  key := cut f (pos + 24) 128
  pState := readLe f (pos + 152)

/-- The loop that links the valid buckets into their blocks' lists. -/
def relink (g : Geometry) (t : ℕ → Bucket) : List ℕ → (ℕ → BlkInfo) → Except Fault (ℕ → BlkInfo)
  | [], blocks => .ok blocks
  | h :: hs, blocks =>
      if (t h).pState = PageState.pgValid.code then
        match blockAt g ((t h).index.tdiv g.pagesPerBlock) with
        | .error f => .error f
        | .ok b => relink g t hs
            (Function.update blocks b { blocks b with list := h :: (blocks b).list })
      else relink g t hs blocks

/-- The configuration after the two `memcpy`s of `init_scan`. -/
def Config.loaded (g : Geometry) (f : ℕ → Byte) (ord : ℕ → Option ℕ) (mtd : History) : Config where
  blocks := fun b => readBlkInfo f (Geometry.sizeofBlkInfo * b)
  hashtable := fun h => readBucket f (g.blockInfoSize + Geometry.sizeofBucket * h)
  metaBlkordr := ord
  readOnly := false
  mtd := mtd

/-- The end of `init_scan`. -/
def checkReadOnly (g : Geometry) (w : Config) : Config :=
  if isReadOnly g w then { w with readOnly := true } else w

@[simp] theorem checkReadOnly_hashtable {g : Geometry} {w : Config} :
    (checkReadOnly g w).hashtable = w.hashtable := by
  rw [checkReadOnly]
  split <;> rfl

@[simp] theorem checkReadOnly_mtd {g : Geometry} {w : Config} : (checkReadOnly g w).mtd = w.mtd := by
  rw [checkReadOnly]
  split <;> rfl

/-- The configuration as `init_config` allocates it. -/
def Config.allocated (env : Env) (mtd : History) : Config :=
  .loaded env.toGeometry (env.metaBuf mtd) (fun _ => none) mtd

/-- `init_config` and `init_scan` on a flash. -/
def initScan (env : Env) (mtd : History) : Except Fault (ℤ × Config) :=
  match scanHeaders env mtd (List.range env.nbBlocks) (fun _ => none, 0) with
  | .error f => .error f
  | .ok none => .ok (-3, .allocated env mtd)
  | .ok (some (ord, cnt)) =>
      match scanPages env mtd ord cnt with
      | .error f => .error f
      | .ok none => .ok (-4, .allocated env mtd)
      | .ok (some pages) =>
          let w := Config.loaded env.toGeometry (scanBuffer env mtd pages) ord mtd
          if cnt = 0 then
            match format env w with
            | (0, w) => .ok (0, checkReadOnly env.toGeometry w)
            | (ret, w) => .ok (ret, w)
          else
            match relink env.toGeometry w.hashtable (List.range env.hashSize) w.blocks with
            | .error f => .error f
            | .ok blocks => .ok (0, checkReadOnly env.toGeometry { w with blocks := blocks })

/-! ## What `Config` holds -/

variable {env : Env} {g : Geometry} {w w' : Config} {s s' : Serial.Config} {b p : ℕ} {mtd : History}

/-- The record that a `BlkInfo` of the typed model stands for. -/
def BlkInfo.of (i : Serial.BlkInfo) : BlkInfo where
  list := i.list
  state := i.state.code
  worn := i.worn
  nbInvalid := i.nbInvalid
  currentPageOffset := i.currentPageOffset

/-- The typed bucket has the fields of this one. -/
structure Bucket.Is (r : Bucket) (t : Serial.Bucket) : Prop where
  dirty : t.dirty = decide (r.dirty ≠ 0)
  index : r.index = t.index
  key : 0 ∈ r.key ∧ CStr.ofBytes r.key = t.key
  pState : r.pState = t.pState.code

/-- The typed configuration has the fields of this one. What a free bucket holds besides is not looked at. -/
structure Holds (g : Geometry) (w : Config) (s : Serial.Config) : Prop where
  blocks : ∀ b < g.nbBlocks, w.blocks b = .of (s.blocks b)
  dirty : ∀ h < g.hashSize, (s.hashtable h).dirty = decide ((w.hashtable h).dirty ≠ 0)
  pState : ∀ h < g.hashSize, (w.hashtable h).pState = (s.hashtable h).pState.code
  valid : ∀ h, s.Valid g h → (w.hashtable h).Is (s.hashtable h)
  ord : w.metaBlkordr = s.metaBlkordr
  readOnly : w.readOnly = s.readOnly
  mtd : w.mtd = s.mtd

theorem succInt_natCast {n : ℕ} (h : n + 1 < 2 ^ 31) : succInt n = (n + 1 : ℕ) := by
  rw [succInt, Int.bmod_eq_of_le] <;> omega

theorem blockAt_natCast (hb : b < g.nbBlocks) : blockAt g b = .ok b := by
  rw [blockAt, if_neg (by omega), Int.toNat_natCast]

theorem natCast_page_div (p : ℕ) : (p : ℤ).tdiv g.pagesPerBlock = (p / g.pagesPerBlock : ℕ) := by
  rw [Int.tdiv_eq_ediv_of_nonneg (Int.natCast_nonneg p), Int.natCast_ediv]

theorem code_inj {st st' : BlkState} (h : st.code = st'.code) : st = st' := by
  cases st <;> cases st' <;> first | rfl | cases h

/-! ## The operations -/

/-- A `format` that is done forgets all fields but `meta_blkordr`. -/
theorem format_of (hmtd : w.mtd = s.mtd) (hord : w.metaBlkordr = s.metaBlkordr) :
    (format env w).1 = (Serial.format env s).1 ∧ ((Serial.format env s).1 = 0 →
      Holds env.toGeometry (format env w).2 (Serial.format env s).2) := by
  rw [format, Serial.format, hmtd]
  cases env.eraseResult s.mtd 0 env.hashSize with
  | refused => exact ⟨rfl, fun h => by cases h⟩
  | failed => exact ⟨rfl, fun h => by cases h⟩
  | done =>
    refine ⟨rfl, fun _ => ⟨fun _ _ => rfl, fun _ _ => rfl, fun _ _ => rfl, fun _ hv => ?_, hord, rfl, rfl⟩⟩
    cases hv.2

namespace Holds

theorem isReadOnly (hH : Holds g w s) : Words.isReadOnly g w = Serial.isReadOnly g s := by
  rw [Words.isReadOnly, Serial.isReadOnly, Bool.eq_iff_iff, List.all_eq_true, List.all_eq_true]
  refine forall₂_congr fun b hb => ?_
  rw [hH.blocks b (List.mem_range.mp hb), decide_eq_true_eq, decide_eq_true_eq]
  exact Int.ofNat_le

/-- The same change of one block's record. -/
theorem modifyBlk (hH : Holds g w s) (b : ℕ) {f : BlkInfo → BlkInfo} {f' : Serial.BlkInfo → Serial.BlkInfo}
    (hf : b < g.nbBlocks → f (.of (s.blocks b)) = .of (f' (s.blocks b))) :
    Holds g (w.modifyBlk b f) (s.modifyBlk b f') where
  blocks c hc := by
    by_cases hcb : c = b
    · subst hcb
      rw [Config.modifyBlk_blocks_self, hH.blocks c hc, hf hc, Serial.Config.modifyBlk_blocks_self]
    · rw [Config.modifyBlk_blocks_ne hcb, hH.blocks c hc, Serial.Config.modifyBlk_blocks_ne hcb]
  dirty := hH.dirty
  pState := hH.pState
  valid := hH.valid
  ord := hH.ord
  readOnly := hH.readOnly
  mtd := hH.mtd

theorem setState (hH : Holds g w s) (b : ℕ) (st : BlkState) : Holds g (w.setState b st) (s.setState b st) :=
  hH.modifyBlk b fun _ => rfl

theorem log (hH : Holds g w s) (op : Op) :
    Holds g { w with mtd := op :: w.mtd } { s with mtd := op :: s.mtd } where
  blocks := hH.blocks
  dirty := hH.dirty
  pState := hH.pState
  valid := hH.valid
  ord := hH.ord
  readOnly := hH.readOnly
  mtd := congrArg _ hH.mtd

theorem setReadOnly (hH : Holds g w s) (ro : Bool) :
    Holds g { w with readOnly := ro } { s with readOnly := ro } where
  blocks := hH.blocks
  dirty := hH.dirty
  pState := hH.pState
  valid := hH.valid
  ord := hH.ord
  readOnly := rfl
  mtd := hH.mtd

theorem reset (hH : Holds g w s) (mtd : History) :
    Holds g { w with readOnly := false, mtd := mtd } { s with readOnly := false, mtd := mtd } where
  blocks := hH.blocks
  dirty := hH.dirty
  pState := hH.pState
  valid := hH.valid
  ord := hH.ord
  readOnly := rfl
  mtd := rfl

theorem checkReadOnly (hH : Holds g w s) : Holds g (Words.checkReadOnly g w) (Serial.checkReadOnly g s) := by
  rw [Words.checkReadOnly, Serial.checkReadOnly, hH.isReadOnly]
  split
  · exact hH.setReadOnly true
  · exact hH

theorem programPage (hH : Holds g w s) (hoff : ∀ b < g.nbBlocks, (s.blocks b).currentPageOffset + 1 < 2 ^ 31)
    (p : ℕ) (buf : List Byte) :
    Holds g (Words.programPage (p / g.pagesPerBlock) p buf w) (Serial.programPage g p buf s) :=
  (hH.modifyBlk (p / g.pagesPerBlock) fun hb => by
    simp only [BlkInfo.of, succInt_natCast (hoff _ hb)]).log (.program p buf)

theorem writePage (hH : Holds env.toGeometry w s) (hp : p < env.hashSize)
    (hoff : ∀ b < env.nbBlocks, (s.blocks b).currentPageOffset + 1 < 2 ^ 31) (buf : List Byte) :
    ∃ w', Words.writePage env p buf w = .ok ((Serial.writePage env p buf s).1, w') ∧
      Holds env.toGeometry w' (Serial.writePage env p buf s).2 := by
  have hb : p / env.pagesPerBlock < env.nbBlocks := Nat.div_lt_of_lt_mul (Nat.mul_comm _ _ ▸ hp)
  have hP := hH.programPage hoff p buf
  rw [Words.writePage, Serial.writePage, hH.readOnly, pageAt, if_pos (Int.natCast_nonneg p),
    Int.toNat_natCast, hH.mtd, Option.filter_some, natCast_page_div, blockAt_natCast hb]
  cases s.readOnly with
  | true => exact ⟨w, rfl, hH⟩
  | false =>
    cases env.writeOk s.mtd p with
    | false => exact ⟨w, rfl, hH⟩
    | true =>
      simp only [Bool.false_eq_true, Bool.true_eq_false, if_false, if_true, hP.isReadOnly]
      cases Serial.isReadOnly env.toGeometry (Serial.programPage env.toGeometry p buf s) with
      | true => exact ⟨_, rfl, hP.setReadOnly true⟩
      | false => exact ⟨_, rfl, hP⟩

theorem formatSingle (hH : Holds env.toGeometry w s) (hworn : ∀ b < env.nbBlocks, (s.blocks b).worn + 1 < 2 ^ 31)
    (idx : Option ℕ) : (Words.formatSingle env idx w).1 = (formatEntry env idx s).1 ∧
      Holds env.toGeometry (Words.formatSingle env idx w).2 (formatEntry env idx s).2 := by
  cases idx with
  | none => exact ⟨rfl, hH⟩
  | some b =>
    rw [Words.formatSingle, formatEntry, Serial.formatSingle, hH.mtd]
    cases env.eraseResult s.mtd (b * env.pagesPerBlock) env.pagesPerBlock with
    | refused => exact ⟨rfl, hH⟩
    | failed => exact ⟨rfl, hH⟩
    | done =>
      have hE : Holds env.toGeometry (w.modifyBlk b fun i => .erased (succInt i.worn))
          (s.modifyBlk b fun i => .erased (i.worn + 1)) := hH.modifyBlk b fun hb => by
        simp only [BlkInfo.erased, Serial.BlkInfo.erased, BlkInfo.of, succInt_natCast (hworn _ hb)]
        rfl
      exact ⟨rfl, hE.reset (.erase (b * env.pagesPerBlock) env.pagesPerBlock :: s.mtd)⟩

theorem format (hH : Holds env.toGeometry w s) : (Words.format env w).1 = (Serial.format env s).1 ∧
    Holds env.toGeometry (Words.format env w).2 (Serial.format env s).2 := by
  obtain ⟨hcode, hdone⟩ := @format_of env w s hH.mtd hH.ord
  refine ⟨hcode, ?_⟩
  rw [Words.format, Serial.format, hH.mtd]
  rw [Words.format, Serial.format, hH.mtd] at hdone
  cases hres : env.eraseResult s.mtd 0 env.hashSize with
  | refused => exact hH
  | failed => exact hH
  | done =>
    rw [hres] at hdone
    exact hdone rfl

theorem getHealthyBlock (hH : Holds g w s) : Words.getHealthyBlock g w = Serial.getHealthyBlock g s := by
  have hmono : StrictMono fun n : ℕ => (n : ℤ) := fun _ _ => Int.ofNat_lt.mpr
  rw [Serial.getHealthyBlock, leastWorn, ← leastBelow_map hmono]
  refine leastBelow_congr fun b hb => ?_
  rw [hH.blocks b hb]
  have hcode : (s.blocks b).state.code ≠ BlkState.blkInvalid.code ↔ (s.blocks b).state ≠ .blkInvalid :=
    not_congr ⟨code_inj, congrArg _⟩
  exact ⟨decide_eq_decide.mpr (and_congr hcode Int.ofNat_lt), rfl⟩

theorem openBlock (hH : Holds env.toGeometry w s) (hb : b < env.nbBlocks)
    (hoff : ∀ b < env.nbBlocks, (s.blocks b).currentPageOffset + 1 < 2 ^ 31) :
    ∃ w', Words.openBlock env b w = .ok w' ∧ Holds env.toGeometry w' (Serial.openBlock env b s) := by
  have ho : (w.blocks b).currentPageOffset = (s.blocks b).currentPageOffset := by rw [hH.blocks b hb]; rfl
  rw [Words.openBlock, Serial.openBlock, ho]
  by_cases h0 : (s.blocks b).currentPageOffset < reservedPgCnt
  · have hself : ((s.setState b .blkUsed).blocks b).currentPageOffset = (s.blocks b).currentPageOffset := by
      rw [Serial.Config.setState, Serial.Config.modifyBlk_blocks_self]
    have hlt : (s.blocks b).currentPageOffset < env.pagesPerBlock :=
      Nat.lt_of_lt_of_le h0 env.pagesPerBlock_pos
    obtain ⟨w₁, h₁, hH₁⟩ := (hH.setState b .blkUsed).writePage (Geometry.page_lt hb hlt) (fun c hc => by
      rw [Serial.Config.setState, Serial.Config.modifyBlk_blocks]
      split
      · exact hoff b hb
      · exact hoff c hc) (hdrPage env.toGeometry .nandData)
    rw [if_pos (Int.ofNat_lt.mpr h0), if_pos h0, writeHdr, ← Int.natCast_mul, ← Int.natCast_add, h₁]
    simp only [natCast_page_div, Geometry.page_div hlt, blockAt_natCast hb, hself, Serial.writeHdr]
    exact ⟨_, rfl, hH₁.setState b .blkUsed⟩
  · rw [if_neg (mt Int.ofNat_lt.mp h0), if_neg h0]
    exact ⟨w, rfl, hH⟩

theorem getNextPage (hH : Holds env.toGeometry w s)
    (hoff : ∀ b < env.nbBlocks, (s.blocks b).currentPageOffset + 1 < 2 ^ 31) :
    ∃ w', Words.getNextPage env w = .ok ((Serial.getNextPage env s).1, w') ∧
      Holds env.toGeometry w' (Serial.getNextPage env s).2 := by
  rw [Words.getNextPage, Serial.getNextPage, hH.getHealthyBlock]
  cases hb : Serial.getHealthyBlock env.toGeometry s with
  | none => exact ⟨w, rfl, hH⟩
  | some b =>
    obtain ⟨w', he, hH'⟩ := hH.openBlock (getHealthyBlock_some hb).1 hoff
    exact ⟨w', by simp only [he]; rfl, hH'⟩

end Holds

/-! ## The mount -/

theorem intOfWord_of_counter {x n : ℕ} (h : counter x = some n) : intOfWord x = n := by
  rw [counter] at h
  split at h
  · next hlt => rw [intOfWord_of_lt hlt, Option.some.inj h]
  · cases h

theorem of_ofCode {x : ℕ} {st : BlkState} (h : BlkState.ofCode x = some st) : x = st.code := by
  unfold BlkState.ofCode at h
  split at h <;> first | (obtain rfl := Option.some.inj h; rfl) | cases h

theorem of_pageOfCode {x : ℕ} {st : PageState} (h : PageState.ofCode x = some st) : x = st.code := by
  unfold PageState.ofCode at h
  split at h <;> first | (obtain rfl := Option.some.inj h; rfl) | cases h

theorem readBlkInfo_of {f : ℕ → Byte} {pos : ℕ} {i : Serial.BlkInfo} (h : Serial.readBlkInfo f pos = some i) :
    readBlkInfo f pos = .of i := by
  unfold Serial.readBlkInfo at h
  split at h
  · next hst hw hn ho =>
    obtain rfl := Option.some.inj h
    simp only [readBlkInfo, BlkInfo.of, of_ofCode hst, intOfWord_of_counter hw, intOfWord_of_counter hn,
      intOfWord_of_counter ho]
  · cases h

theorem readBucket_is {f : ℕ → Byte} {pos : ℕ} {t : Serial.Bucket} (h : Serial.readBucket f pos = some t) :
    (readBucket f pos).Is t := by
  unfold Serial.readBucket at h
  split at h
  · next hi hp =>
    split at h
    · next hend =>
      obtain rfl := Option.some.inj h
      have hdirty : ∀ x < 2 ^ 32, (intOfWord x ≠ 0 ↔ x ≠ 0) := by
        intro x hx
        rw [intOfWord]
        split <;> omega
      refine ⟨decide_eq_decide.mpr (hdirty _ (readLe_lt _ _)).symm, intOfWord_of_counter hi, ⟨?_, rfl⟩,
        of_pageOfCode hp⟩
      exact List.contains_iff_mem.mp hend
    · cases h
  · cases h

theorem blockAt_error (hb : g.nbBlocks ≤ b) : blockAt g b = .error .outOfBounds := by
  rw [blockAt, if_pos (Or.inr (Int.ofNat_le.mpr hb))]

/-- The loop over the buckets does the same to the lists. -/
theorem relink_of {t : ℕ → Bucket} {T : ℕ → Serial.Bucket} : ∀ {hs : List ℕ} {blocks : ℕ → BlkInfo}
    {B : ℕ → Serial.BlkInfo}, (∀ h ∈ hs, (t h).Is (T h)) → (∀ b < g.nbBlocks, blocks b = .of (B b)) →
      (∀ f, Serial.relink g T hs B = .error f → relink g t hs blocks = .error f) ∧
      ∀ B', Serial.relink g T hs B = .ok B' →
        ∃ blocks', relink g t hs blocks = .ok blocks' ∧ ∀ b < g.nbBlocks, blocks' b = .of (B' b)
  | [], blocks, B, _, hblk => by
    refine ⟨fun f he => ?_, fun B' he => ⟨blocks, rfl, ?_⟩⟩
    · cases he
    · rwa [← Except.ok.inj he]
  | h :: hs, blocks, B, ht, hblk => by
    have hI := ht h List.mem_cons_self
    have ht' := fun j (hj : j ∈ hs) => ht j (List.mem_cons_of_mem _ hj)
    have hcode : (t h).pState = PageState.pgValid.code ↔ (T h).pState = .pgValid := by
      rw [hI.pState]
      cases (T h).pState <;> decide
    rw [Serial.relink, relink, hI.index, natCast_page_div]
    by_cases hv : (T h).pState = .pgValid
    · rw [if_pos hv, if_pos (hcode.mpr hv)]
      by_cases hb : g.nbBlocks ≤ (T h).index / g.pagesPerBlock
      · rw [blockAt_error hb]
        simp only [if_pos hb]
        exact ⟨fun f he => by rw [← Except.error.inj he], fun B' he => by cases he⟩
      · rw [blockAt_natCast (Nat.lt_of_not_le hb)]
        simp only [if_neg hb]
        refine relink_of ht' fun c hc => ?_
        by_cases hcb : c = (T h).index / g.pagesPerBlock
        · rw [hcb, Function.update_self, Function.update_self, hblk _ (hcb ▸ hc)]
          rfl
        · rw [Function.update_of_ne hcb, Function.update_of_ne hcb]
          exact hblk c hc
    · rw [if_neg hv, if_neg (mt hcode.mp hv)]
      exact relink_of ht' hblk

/-- What the two `memcpy`s load, if the typed model holds it. -/
theorem loaded_of {f : ℕ → Byte} {blocks : ℕ → Serial.BlkInfo} {table : ℕ → Serial.Bucket}
    (h : readMeta g f = some (blocks, table)) (ord : ℕ → Option ℕ) (mtd : History) :
    (∀ b < g.nbBlocks, (Config.loaded g f ord mtd).blocks b = .of (blocks b)) ∧
      ∀ h < g.hashSize, ((Config.loaded g f ord mtd).hashtable h).Is (table h) := by
  obtain ⟨hblk, htab⟩ := readMeta_some h
  exact ⟨fun b hb => readBlkInfo_of (hblk b hb), fun h hh => readBucket_is (htab h hh)⟩

theorem Bucket.Is.holds {blocks : ℕ → BlkInfo} {t : ℕ → Bucket} {B : ℕ → Serial.BlkInfo} {T : ℕ → Serial.Bucket}
    (hblk : ∀ b < g.nbBlocks, blocks b = .of (B b)) (ht : ∀ h < g.hashSize, (t h).Is (T h))
    (ord : ℕ → Option ℕ) (mtd : History) : Holds g ⟨blocks, t, ord, false, mtd⟩ ⟨B, T, ord, false, mtd⟩ where
  blocks := hblk
  dirty h hh := (ht h hh).dirty
  pState h hh := (ht h hh).pState
  valid h hv := ht h hv.1
  ord := rfl
  readOnly := rfl
  mtd := rfl

/-- Without a header `meta_blkordr` stays empty. -/
theorem scanHeaders_empty {ord : ℕ → Option ℕ}
    (h : scanHeaders env mtd (List.range env.nbBlocks) (fun _ => none, 0) = .ok (some (ord, 0))) :
    ord = fun _ => none := by
  obtain ⟨hord, hcnt⟩ := scanHeaders_ok h
  have hnil : (List.range env.nbBlocks).filterMap (rankAt env mtd) = [] :=
    List.length_eq_zero_iff.mp (by omega)
  funext i
  cases hi : ord i with
  | none => rfl
  | some b =>
    obtain ⟨hb, hr⟩ | hi := rankAt_of_foldl _ _ _ _ (hord ▸ hi)
    · cases (List.filterMap_eq_nil_iff.mp hnil b hb).symm.trans hr
    · cases hi

/-- A mount that the typed model takes to its end. -/
theorem initScan_of {ret : ℤ} (he : Serial.initScan env mtd = .ok (ret, s)) :
    ∃ w, initScan env mtd = .ok (ret, w) ∧ (ret = 0 → Holds env.toGeometry w s ∧
      (s.mtd = mtd → ∀ h < env.hashSize, (w.hashtable h).Is (s.hashtable h))) := by
  unfold Serial.initScan at he
  split at he
  · cases he
  · next hscan =>
    rw [initScan, hscan, ← (Prod.mk.inj (Except.ok.inj he)).1]
    exact ⟨_, rfl, fun h => by cases h⟩
  · next ord cnt hscan =>
    split at he
    · cases he
    · next hpages =>
      rw [initScan, hscan]
      dsimp only
      rw [hpages, ← (Prod.mk.inj (Except.ok.inj he)).1]
      exact ⟨_, rfl, fun h => by cases h⟩
    · next pages hpages =>
      split at he
      · next h0 =>
        subst h0
        obtain rfl := scanHeaders_empty hscan
        rw [initScan, hscan]
        dsimp only
        rw [hpages]
        dsimp only
        rw [if_pos rfl]
        obtain ⟨-, hF⟩ := @format_of env (.loaded env.toGeometry (scanBuffer env mtd pages) (fun _ => none) mtd)
          (.blank mtd) rfl rfl
        have hw : (Config.loaded env.toGeometry (scanBuffer env mtd pages) (fun _ => none) mtd).mtd = mtd := rfl
        have hs : (Serial.Config.blank mtd).mtd = mtd := rfl
        rw [Serial.format, hs] at he hF
        rw [format, hw] at hF ⊢
        cases hres : env.eraseResult mtd 0 env.hashSize with
        | refused =>
          rw [hres] at he
          obtain ⟨rfl, -⟩ := Prod.mk.inj (Except.ok.inj he)
          exact ⟨_, rfl, fun h => by cases h⟩
        | failed =>
          rw [hres] at he
          obtain ⟨rfl, -⟩ := Prod.mk.inj (Except.ok.inj he)
          exact ⟨_, rfl, fun h => by cases h⟩
        | done =>
          rw [hres] at he hF
          obtain ⟨rfl, rfl⟩ := Prod.mk.inj (Except.ok.inj he)
          refine ⟨_, rfl, fun _ => ⟨(hF rfl).checkReadOnly, fun hmtd => ?_⟩⟩
          rw [Serial.checkReadOnly_eq _ _ rfl] at hmtd
          exact absurd (congrArg List.length hmtd) (Nat.succ_ne_self _)
      · next h0 =>
        split at he
        · cases he
        · next blocks table hmeta =>
          obtain ⟨hblk, htab⟩ := loaded_of hmeta ord mtd
          split at he
          · cases he
          · next blocks' hrel =>
            obtain ⟨rfl, rfl⟩ := Prod.mk.inj (Except.ok.inj he)
            obtain ⟨w', hw', hblk'⟩ := (relink_of (fun h hh => htab h (List.mem_range.mp hh)) hblk).2 _ hrel
            rw [initScan, hscan]
            dsimp only
            rw [hpages]
            dsimp only
            rw [if_neg h0, hw']
            refine ⟨_, rfl, fun _ => ⟨(Bucket.Is.holds hblk' htab ord mtd).checkReadOnly, fun _ h hh => ?_⟩⟩
            rw [checkReadOnly_hashtable, Serial.checkReadOnly_eq _ _ rfl]
            exact htab h hh

end LkpProjects.Serial.Words
