import LkpProjects.Library.Bytes
import LkpProjects.Library.Stepwise

/-! # The vanilla key-value store

`p6/prototype-vanilla/kernel/core.c`: a store without a table in memory. A pair is written to the next
free page; a lookup reads the valid pages in order and takes the first one that `strncmp` accepts. The
flash behind `config.mtd` is the history of the driver's operations on it; the two arrays of
`config.blocks` are functions from their index. The lengths of strings are numbers here: the `int` that
holds the sum of two of them overflows only for strings of gigabytes.
-/
namespace LkpProjects.Vanilla
open Nand Bytes Stepwise
set_option autoImplicit false

/-! ## The flash and its driver -/

/-- The partition as `init_config` reads it from the driver. Page numbers and the page size are
`int`s. -/
structure Geometry where
  nbBlocks : ℕ
  pagesPerBlock : ℕ
  pageSize : ℕ
  nbBlocks_pos : 0 < nbBlocks
  pagesPerBlock_pos : 0 < pagesPerBlock
  nbPages_lt : nbBlocks * pagesPerBlock < 2 ^ 31
  pageSize_lt : pageSize < 2 ^ 31

/-- The partition with these numbers. -/
def Geometry.ofSizes (nbBlocks pagesPerBlock pageSize : ℕ)
    (h : 0 < nbBlocks ∧ 0 < pagesPerBlock ∧ nbBlocks * pagesPerBlock < 2 ^ 31 ∧ pageSize < 2 ^ 31) :
    Geometry :=
  ⟨nbBlocks, pagesPerBlock, pageSize, h.1, h.2.1, h.2.2.1, h.2.2.2⟩

def Geometry.nbPages (g : Geometry) : ℕ := g.nbBlocks * g.pagesPerBlock

/-- How an erase request ends: `_erase` refuses it, the callback reports a failure, or it is done. Before
an error some blocks were erased. -/
inductive EraseResult where
  | refused (blocks : List ℕ)
  | failed (blocks : List ℕ)
  | done
  deriving DecidableEq

/-- How a write request ends: it is done, or the driver reports an error, after it has programmed the page
with this. -/
inductive WriteResult where
  | done
  | failed (left : List (List Byte))
  deriving DecidableEq

/-- What an erase request that ends with an error has erased. -/
def EraseResult.left : EraseResult → List ℕ
  | .refused blocks => blocks
  | .failed blocks => blocks
  | .done => []

/-- What a write request that ends with an error has programmed. -/
def WriteResult.left : WriteResult → List (List Byte)
  | .failed left => left
  | .done => []

/-- The driver's answers during one call of the store, which reads a page at most once and writes at
most one. -/
structure Driver where
  eraseResult : EraseResult
  writeResult : WriteResult
  readOk : ℕ → Bool

/-- The driver reports no error. -/
structure Driver.NoError (d : Driver) : Prop where
  erase : d.eraseResult = .done
  write : d.writeResult = .done
  read : ∀ p, d.readOk p = true

/-- A request that ends with an error leaves the flash as it was. -/
structure Driver.Clean (d : Driver) : Prop where
  erase : d.eraseResult.left = []
  write : d.writeResult.left = []

instance (d : Driver) : Decidable d.Clean :=
  decidable_of_iff (d.eraseResult.left = [] ∧ d.writeResult.left = [])
    ⟨fun h => ⟨h.1, h.2⟩, fun h => ⟨h.erase, h.write⟩⟩

theorem Driver.NoError.clean {d : Driver} (hd : d.NoError) : d.Clean := by
  refine ⟨?_, ?_⟩
  · rw [hd.erase, EraseResult.left]
  · rw [hd.write, WriteResult.left]

/-! ## The configuration -/

inductive BlkState where
  | blkFree
  | blkUsed
  deriving DecidableEq, Repr

inductive PageState where
  | pgFree
  | pgValid
  deriving DecidableEq, Repr

/-- `blk_info`. -/
structure BlkInfo where
  state : BlkState
  pagesStates : ℕ → PageState

/-- `lkp_kv_cfg`, the fields that change while the module is loaded. -/
structure Config where
  currentBlock : ℤ
  currentPageOffset : ℕ
  blocks : ℕ → BlkInfo
  formatDone : ℤ
  readOnly : Bool
  mtd : History

/-- Memory is read past the end of the page buffer. -/
inductive Fault where
  | overread
  deriving DecidableEq, Repr

namespace Config

/-- Change the record of one block. -/
def modifyBlk (s : Config) (b : ℕ) (f : BlkInfo → BlkInfo) : Config :=
  { s with blocks := Function.update s.blocks b (f (s.blocks b)) }

/-- `config.blocks[b].state = st`. -/
def setState (s : Config) (b : ℕ) (st : BlkState) : Config :=
  s.modifyBlk b fun i => { i with state := st }

/-- `config.blocks[b].pages_states[o] = st`. -/
def setPage (s : Config) (b o : ℕ) (st : PageState) : Config :=
  s.modifyBlk b fun i => { i with pagesStates := Function.update i.pagesStates o st }

/-- All blocks and pages are free. -/
def clear (s : Config) : Config := { s with blocks := fun _ => ⟨.blkFree, fun _ => .pgFree⟩ }

variable (s : Config) (b c o : ℕ) (st : BlkState) (ps : PageState)

@[simp] theorem setState_mtd : (s.setState b st).mtd = s.mtd := rfl
@[simp] theorem setState_readOnly : (s.setState b st).readOnly = s.readOnly := rfl
@[simp] theorem setPage_mtd : (s.setPage b o ps).mtd = s.mtd := rfl
@[simp] theorem setPage_readOnly : (s.setPage b o ps).readOnly = s.readOnly := rfl
@[simp] theorem setPage_currentBlock : (s.setPage b o ps).currentBlock = s.currentBlock := rfl
@[simp] theorem setPage_currentPageOffset :
    (s.setPage b o ps).currentPageOffset = s.currentPageOffset := rfl

theorem setState_state : ((s.setState b st).blocks c).state =
    if c = b then st else (s.blocks c).state := by
  by_cases hc : c = b
  · subst hc
    simp [setState, modifyBlk]
  · simp [setState, modifyBlk, hc]

@[simp] theorem setState_pagesStates :
    ((s.setState b st).blocks c).pagesStates = (s.blocks c).pagesStates := by
  by_cases hc : c = b
  · subst hc
    simp [setState, modifyBlk]
  · simp [setState, modifyBlk, hc]

@[simp] theorem setPage_state : ((s.setPage b o ps).blocks c).state = (s.blocks c).state := by
  by_cases hc : c = b
  · subst hc
    simp [setPage, modifyBlk]
  · simp [setPage, modifyBlk, hc]

theorem setPage_pagesStates (q : ℕ) : ((s.setPage b o ps).blocks c).pagesStates q =
    if c = b ∧ q = o then ps else (s.blocks c).pagesStates q := by
  by_cases hc : c = b
  · subst hc
    simp [setPage, modifyBlk, Function.update_apply]
  · simp [setPage, modifyBlk, hc]

end Config

/-! ## Pages -/

/-- `read_page`: the page, or a driver error. -/
def readPage (g : Geometry) (d : Driver) (mtd : History) (pageIndex : ℕ) : Option (List Byte) :=
  if d.readOk pageIndex = false then none else some (content g.pageSize mtd pageIndex)

/-- `get_next_free_block`: the first free block, or `-1`. -/
def getNextFreeBlock (g : Geometry) (s : Config) : ℤ :=
  match (List.range g.nbBlocks).find? fun i => (s.blocks i).state = .blkFree with
  | some i => i
  | none => -1

/-- `get_next_page_index_to_write`: moves the cursor on; returns the new offset, or `-1` when the flash
is full. `block_size / page_size` is `pages_per_block`. -/
def getNextPageIndexToWrite (g : Geometry) (s : Config) : ℤ × Config :=
  let s := { s with currentPageOffset := s.currentPageOffset + 1 }
  if s.currentPageOffset = g.pagesPerBlock then
    let s := { s with currentBlock := getNextFreeBlock g s }
    if s.currentBlock = -1 then (-1, s)
    else (0, { s.setState s.currentBlock.toNat .blkUsed with currentPageOffset := 0 })
  else (s.currentPageOffset, s)

/-- The driver stores a page and the page is marked valid. -/
def programPage (g : Geometry) (pageIndex : ℕ) (buf : List Byte) (s : Config) : Config :=
  { s.setPage (pageIndex / g.pagesPerBlock) (pageIndex % g.pagesPerBlock) .pgValid with
    mtd := .program pageIndex buf :: s.mtd }

/-- The driver programs the page with these bytes before it reports an error; it leaves the bytes that it
does not get to. -/
def programPart (g : Geometry) (pageIndex : ℕ) (data : List Byte) : Op :=
  .program pageIndex ((data ++ erased g.pageSize).take g.pageSize)

/-- `write_page`: 0, -1 when the store is (or has just become) read-only, -2 on a driver error. -/
def writePage (g : Geometry) (d : Driver) (pageIndex : ℤ) (buf : List Byte) (s : Config) :
    ℤ × Config :=
  if s.readOnly then (-1, s)
  else
    match d.writeResult with
    | .failed left => (-2, { s with mtd := replay (left.map (programPart g pageIndex.toNat)) s.mtd })
    | .done =>
        let (next, s) := getNextPageIndexToWrite g (programPage g pageIndex.toNat buf s)
        if next = -1 then (-1, { s with readOnly := true }) else (0, s)

/-- The driver has erased these blocks. -/
def eraseBlocks (g : Geometry) (blocks : List ℕ) (mtd : History) : History :=
  replay (blocks.map fun b => .erase (b * g.pagesPerBlock) g.pagesPerBlock) mtd

/-- `format`: erase the partition; block 0 is the one to write to. -/
def format (g : Geometry) (d : Driver) (s : Config) : ℤ × Config :=
  match d.eraseResult with
  | .refused blocks => (-1, { s with formatDone := 0, mtd := eraseBlocks g blocks s.mtd })
  | .failed blocks => (-1, { s with formatDone := -1, mtd := eraseBlocks g blocks s.mtd })
  | .done =>
      (0, { s.clear.setState 0 .blkUsed with
            currentBlock := 0
            currentPageOffset := 0
            formatDone := 1
            readOnly := false
            mtd := .erase 0 g.nbPages :: s.mtd })

/-! ## Pairs -/

/-- The page that `set_keyval` writes: both lengths, the key, the value, zeros up to the page size. -/
def record (g : Geometry) (key val : CStr) : List Byte :=
  le32 key.len ++ (le32 val.len ++ (key.bytes ++ (val.bytes ++
    List.replicate (g.pageSize - (8 + key.len + val.len)) 0)))

/-- `strncmp(buf, key, strlen(key)) == 0`; `none` when the bytes of the buffer do not decide it. -/
def strncmpEq (buf : List Byte) (key : CStr) : Option Bool :=
  if buf.length < key.len ∧ buf = key.bytes.take buf.length then none
  else some (buf.take key.len == key.bytes)

/-- The pages that `get_keyval` looks at: those marked valid in the used blocks, in order. -/
def validPages (g : Geometry) (s : Config) : List ℕ :=
  (List.range g.nbBlocks).flatMap fun i =>
    if (s.blocks i).state = .blkUsed then
      ((List.range g.pagesPerBlock).filter fun j => (s.blocks i).pagesStates j = .pgValid).map
        fun j => i * g.pagesPerBlock + j
    else []

/-- The loop of `get_keyval` over the pages that are left. -/
def searchPages (g : Geometry) (d : Driver) (mtd : History) (key : CStr) :
    List ℕ → Except Fault (ℤ × List Byte)
  | [] => .ok (-1, [])
  | p :: ps =>
      match readPage g d mtd p with
      | none => .ok (-2, [])
      | some buffer =>
          let keyLen := readLe (mem buffer) 0
          let valLen := readLe (mem buffer) 4
          if keyLen = 0xFFFFFFFF then searchPages g d mtd key ps
          else
            match strncmpEq (buffer.drop 8) key with
            | none => .error .overread
            | some true =>
                if g.pageSize < 8 + keyLen + valLen then .error .overread
                else .ok (p, (buffer.drop (8 + keyLen)).take valLen)
            | some false => searchPages g d mtd key ps

/-- `get_keyval`: the page index, -1 when the key is not found, -2 on a read error; and the bytes
copied to `val`. -/
def getKeyval (g : Geometry) (d : Driver) (key : CStr) (s : Config) :
    Except Fault (ℤ × List Byte) := searchPages g d s.mtd key (validPages g s)

/-- `set_keyval`'s return code, from the code of `write_page`. -/
def setCode (ret : ℤ) : ℤ := if ret = -1 then -3 else if ret = -2 then -4 else 0

/-- The page that the cursor denotes: `current_block * pages_per_block + current_page_offset`. -/
def cursorPage (g : Geometry) (s : Config) : ℤ :=
  s.currentBlock * g.pagesPerBlock + s.currentPageOffset

/-- `set_keyval`: 0, -1 when the pair is too big, -2 when the key is found, -3 when the store is
read-only, -4 on a driver error. A read error of the lookup counts as not found. -/
def setKeyval (g : Geometry) (d : Driver) (key val : CStr) (s : Config) : Except Fault (ℤ × Config) :=
  if g.pageSize < key.len + val.len + 8 then .ok (-1, s)
  else
    match getKeyval g d key s with
    | .error f => .error f
    | .ok (found, _) =>
        if 0 ≤ found then .ok (-2, s)
        else
          let (ret, s) := writePage g d (cursorPage g s) (record g key val) s
          .ok (setCode ret, s)

/-- The ways through `set_keyval`. -/
theorem setKeyval_cases {g : Geometry} {d : Driver} {key val : CStr} {s s' : Config} {code : ℤ}
    (he : setKeyval g d key val s = .ok (code, s')) :
    g.pageSize < key.len + val.len + 8 ∧ code = -1 ∧ s' = s ∨
      8 + key.len + val.len ≤ g.pageSize ∧ ∃ found bytes,
        getKeyval g d key s = .ok (found, bytes) ∧
        (0 ≤ found ∧ code = -2 ∧ s' = s ∨ found < 0 ∧ ∃ ret,
          writePage g d (cursorPage g s) (record g key val) s = (ret, s') ∧ code = setCode ret) := by
  unfold setKeyval at he
  split at he
  · next hbig =>
    obtain ⟨rfl, rfl⟩ := Prod.mk.inj (Except.ok.inj he)
    exact .inl ⟨hbig, rfl, rfl⟩
  · next hbig =>
    refine .inr ⟨by omega, ?_⟩
    split at he
    · cases he
    · next found bytes hget =>
      refine ⟨found, bytes, hget, ?_⟩
      split at he
      · next hfound =>
        obtain ⟨rfl, rfl⟩ := Prod.mk.inj (Except.ok.inj he)
        exact .inl ⟨hfound, rfl, rfl⟩
      · next hfound =>
        obtain ⟨rfl, rfl⟩ := Prod.mk.inj (Except.ok.inj he)
        exact .inr ⟨not_le.mp hfound, _, rfl, rfl⟩

/-! ## Calls -/

inductive Call where
  | set (key val : CStr)
  | get (key : CStr)

/-- What a call returns: its code, and the bytes that `get_keyval` copies out. -/
structure Result where
  code : ℤ
  val : List Byte
  deriving DecidableEq

def exec (g : Geometry) (d : Driver) (s : Config) : Call → Except Fault (Result × Config)
  | .set key val => (setKeyval g d key val s).map fun r => (⟨r.1, []⟩, r.2)
  | .get key => (getKeyval g d key s).map fun r => (⟨r.1, r.2⟩, s)

/-- A call that returns, with the driver's answers during it and its result. -/
def Step (g : Geometry) (s : Config) (e : Driver × Call × Result) (s' : Config) : Prop :=
  exec g e.1 s e.2.1 = .ok (e.2.2, s')

/-- A call changes nothing and stores nothing, or it asks the driver to write one record at the cursor. -/
theorem step_cases {g : Geometry} {s s' : Config} {e : Driver × Call × Result} (hs : Step g s e s') :
    (s' = s ∧ ∀ key val, e.2.1 = .set key val → e.2.2.code ≠ 0) ∨
      ∃ key val ret, e.2.1 = .set key val ∧ 8 + key.len + val.len ≤ g.pageSize ∧ e.2.2.code = setCode ret ∧
        writePage g e.1 (cursorPage g s) (record g key val) s = (ret, s') := by
  obtain ⟨d, c, r⟩ := e
  rw [Step, exec.eq_def] at hs
  cases c with
  | get key =>
    cases hget : getKeyval g d key s with
    | error f =>
      simp only [hget] at hs
      cases hs
    | ok q =>
      simp only [hget] at hs
      refine .inl ⟨(Prod.mk.inj (Except.ok.inj hs)).2.symm, ?_⟩
      intro _ _ hcall
      cases hcall
  | set key val =>
    cases hset : setKeyval g d key val s with
    | error f =>
      simp only [hset] at hs
      cases hs
    | ok q =>
      obtain ⟨code, s₁⟩ := q
      simp only [hset] at hs
      obtain ⟨rfl, rfl⟩ := Prod.mk.inj (Except.ok.inj hs)
      rcases setKeyval_cases hset with ⟨-, rfl, hsame⟩ | ⟨hfit, found, bytes, -, hcase⟩
      · exact .inl ⟨hsame, fun _ _ _ => (by decide : (-1 : ℤ) ≠ 0)⟩
      · rcases hcase with ⟨-, rfl, hsame⟩ | ⟨-, ret, hw, rfl⟩
        · exact .inl ⟨hsame, fun _ _ _ => (by decide : (-2 : ℤ) ≠ 0)⟩
        · exact .inr ⟨key, val, ret, rfl, hfit, rfl, hw⟩

/-! ## A device to evaluate the model on -/

/-- A driver that reports no error. -/
def Driver.ideal : Driver := ⟨.done, .done, fun _ => true⟩

theorem Driver.ideal_noError : Driver.ideal.NoError := ⟨rfl, rfl, fun _ => rfl⟩

/-- A driver that refuses to write. -/
def Driver.stuck : Driver := ⟨.done, .failed [], fun _ => true⟩

/-- Two blocks of two small pages. -/
def tinyGeometry : Geometry := .ofSizes 2 2 16 (by decide)

/-- The static configuration of a module that was just loaded. -/
def Config.blank (mtd : History) : Config where
  currentBlock := 0
  currentPageOffset := 0
  blocks _ := ⟨.blkFree, fun _ => .pgFree⟩
  formatDone := 0
  readOnly := false
  mtd := mtd

/-- The calls of a list one after the other, if they all return. -/
def execAll (g : Geometry) : List (Driver × Call) → Config → Except Fault (List Result × Config)
  | [], s => .ok ([], s)
  | (d, c) :: cs, s =>
      match exec g d s c with
      | .error f => .error f
      | .ok (r, s) =>
          match execAll g cs s with
          | .error f => .error f
          | .ok (rs, s) => .ok (r :: rs, s)

/-- The codes of calls that all return. -/
def codes : Except Fault (List Result × Config) → Option (List ℤ)
  | .error _ => none
  | .ok (rs, _) => some (rs.map Result.code)

theorem run_of_execAll {g : Geometry} : ∀ {cs : List (Driver × Call)} {s : Config} {codesOf : List ℤ},
    codes (execAll g cs s) = some codesOf →
      ∃ es s', Run (Step g) s es s' ∧ es.map (fun e => e.2.2.code) = codesOf ∧
        es.map (fun e => (e.1, e.2.1)) = cs
  | [], s, codesOf, h => ⟨[], s, .nil s, Option.some.inj h, rfl⟩
  | (d, c) :: cs, s, codesOf, h => by
      rw [execAll] at h
      cases hc : exec g d s c with
      | error f =>
        rw [hc] at h
        cases h
      | ok r =>
        obtain ⟨r, s₁⟩ := r
        simp only [hc] at h
        cases hrest : execAll g cs s₁ with
        | error f =>
          rw [hrest] at h
          cases h
        | ok q =>
          obtain ⟨rs, s₂⟩ := q
          rw [hrest] at h
          obtain rfl := Option.some.inj h
          have hcodes : codes (execAll g cs s₁) = some (rs.map Result.code) := by
            rw [hrest]
            rfl
          obtain ⟨es, s', hr, hcodes, hcalls⟩ := run_of_execAll hcodes
          exact ⟨(d, c, r) :: es, s', .cons hc hr, by rw [List.map_cons, hcodes]; rfl,
            by rw [List.map_cons, hcalls]⟩

end LkpProjects.Vanilla
