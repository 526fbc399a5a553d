import LkpProjects.Serial.Keyval

/-! # The serial store: metadata on flash

`flush_metadata` copies the block records and the buckets, byte by byte, into pages of metadata
blocks; `init_scan` finds those blocks by the magic number in their first page and copies the bytes
back. The layout of the two structures is that of a 64-bit build. A page of metadata is addressed by
its number in the buffer, `offset` in the source.
-/
namespace LkpProjects.Serial
open Nand Bytes
set_option autoImplicit false

/-! ## The bytes of a block record and of a bucket -/

/-- Byte `o` of a `blk_info`; `pad` stands for the bytes of its list pointer. -/
def blkInfoByte (pad : Byte) (b : BlkInfo) (o : ℕ) : Byte :=
  if o < 8 then pad
  else if o < 12 then leByte b.state.code (o - 8)
  else if o < 16 then leByte b.worn (o - 12)
  else if o < 20 then leByte b.nbInvalid (o - 16)
  else leByte b.currentPageOffset (o - 20)

/-- Byte `o` of a `bucket`; `pad` stands for pointers, padding and what follows the key's NUL. -/
def bucketByte (pad : Byte) (b : Bucket) (o : ℕ) : Byte :=
  if o < 16 then pad
  else if o < 20 then leByte (if b.dirty then 1 else 0) (o - 16)
  else if o < 24 then leByte b.index (o - 20)
  else if o < 152 then
    if o - 24 < b.key.len then mem b.key.bytes (o - 24)
    else if o - 24 = b.key.len then 0
    else pad
  else if o < 156 then leByte b.pState.code (o - 152)
  else pad

/-- Byte `p` of the buffer that `flush_metadata` fills from `s`: the block records, the buckets, and
behind them whatever the memory holds. -/
def metaByte (env : Env) (s : Config) (p : ℕ) : Byte :=
  if p < env.blockInfoSize then
    blkInfoByte (env.padding s.mtd p) (s.blocks (p / Geometry.sizeofBlkInfo))
      (p % Geometry.sizeofBlkInfo)
  else if p < env.metadataSize then
    bucketByte (env.padding s.mtd p)
      (s.hashtable ((p - env.blockInfoSize) / Geometry.sizeofBucket))
      ((p - env.blockInfoSize) % Geometry.sizeofBucket)
  else env.metaBuf s.mtd p

/-- Page `offset` of the buffer. -/
def metaPage (env : Env) (s : Config) (offset : ℕ) : List Byte :=
  (List.range env.pageSize).map fun j => metaByte env s (env.pageSize * offset + j)

/-! ## Reading them back -/

/-- An enumeration constant from its value. -/
def BlkState.ofCode : ℕ → Option BlkState
  | 0 => some .blkFree
  | 1 => some .blkUsed
  | 2 => some .blkMeta
  | 3 => some .blkInvalid
  | _ => none

def PageState.ofCode : ℕ → Option PageState
  | 0 => some .pgFree
  | 1 => some .pgValid
  | _ => none

/-- A counter: an `int` that is not negative. -/
def counter (w : ℕ) : Option ℕ := if w < 2 ^ 31 then some w else none

/-- The `blk_info` at address `pos`, its list pointer overwritten by a new empty list. -/
def readBlkInfo (f : ℕ → Byte) (pos : ℕ) : Option BlkInfo :=
  match BlkState.ofCode (readLe f (pos + 8)), counter (readLe f (pos + 12)),
    counter (readLe f (pos + 16)), counter (readLe f (pos + 20)) with
  | some state, some worn, some nbInvalid, some currentPageOffset =>
      some ⟨[], state, worn, nbInvalid, currentPageOffset⟩
  | _, _, _, _ => none

/-- The `bucket` at address `pos`; its key must end inside the array. -/
def readBucket (f : ℕ → Byte) (pos : ℕ) : Option Bucket :=
  match counter (readLe f (pos + 20)), PageState.ofCode (readLe f (pos + 152)) with
  | some index, some pState =>
      if (cut f (pos + 24) 128).contains 0 then
        some ⟨readLe f (pos + 16) ≠ 0, index, .ofBytes (cut f (pos + 24) 128), pState⟩
      else none
  | _, _ => none

/-- The two `memcpy`s of `init_scan`. `none` when some field holds no value of its type, after which
the source computes with numbers outside the enumerations. -/
def readMeta (g : Geometry) (f : ℕ → Byte) : Option ((ℕ → BlkInfo) × (ℕ → Bucket)) :=
  if (List.range g.nbBlocks).all (fun b => (readBlkInfo f (Geometry.sizeofBlkInfo * b)).isSome) &&
      (List.range g.hashSize).all
        (fun h => (readBucket f (g.blockInfoSize + Geometry.sizeofBucket * h)).isSome) then
    some (fun b => (readBlkInfo f (Geometry.sizeofBlkInfo * b)).getD (.erased 0),
      fun h => (readBucket f (g.blockInfoSize + Geometry.sizeofBucket * h)).getD
        ⟨false, 0, .ofBytes [], .pgFree⟩)
  else none

/-! ## `move_pages_to_other_block` -/

/-- One round of the loop over the pages of the victim block. The key is copied over what the buffer
holds, without a terminator. -/
def moveOne (env : Env) (page : List Byte) (key : ℕ → Byte) (s : Config) :
    Except Fault ((ℕ → Byte) × Config) :=
  let keyLen := intOfWord (readLe (mem page) 0)
  let valLen := intOfWord (readLe (mem page) 4)
  if keyLen ≤ 0 then .ok (key, s)
  else if 128 < keyLen then .error .overflow
  else
    let key := blit key 0 (cut (mem page) 8 keyLen.toNat)
    if valLen ≤ 0 then .ok (key, s)
    else if (env.pageSize : ℤ) < valLen then .error .overflow
    else if (cut key 0 128).contains 0 = false then .error .unterminated
    else
      let str := CStr.ofBytes (cut key 0 128)
      match hashSearch env.toGeometry s.hashtable str with
      | .error _ => .ok (key, s)
      | .ok h =>
          match invalidPg env.toGeometry h s with
          | .error f => .error f
          | .ok s =>
              match storeAt env str page s with
              | .error f => .error f
              | .ok (_, s) => .ok (key, s)

/-- A page is passed over, or the pair of its key is invalidated and the page stored. -/
theorem moveOne_ok {env : Env} {page : List Byte} {key key' : ℕ → Byte} {s s' : Config}
    (he : moveOne env page key s = .ok (key', s')) : s' = s ∨ ∃ str h s₁ ret,
      invalidPg env.toGeometry h s = .ok s₁ ∧ storeAt env str page s₁ = .ok (ret, s') := by
  rw [moveOne] at he
  dsimp only at he
  split at he
  · exact .inl (Prod.mk.inj (Except.ok.inj he)).2.symm
  · split at he
    · cases he
    · split at he
      · exact .inl (Prod.mk.inj (Except.ok.inj he)).2.symm
      · split at he
        · cases he
        · split at he
          · cases he
          · split at he
            · exact .inl (Prod.mk.inj (Except.ok.inj he)).2.symm
            · split at he
              · cases he
              · next he₁ =>
                split at he
                · cases he
                · next he₂ =>
                  obtain ⟨-, rfl⟩ := Prod.mk.inj (Except.ok.inj he)
                  exact .inr ⟨_, _, _, _, he₁, he₂⟩

/-- The loop over the pages of the victim block. `none` when `read_page` fails. -/
def moveLoop (env : Env) : List ℕ → (ℕ → Byte) → Config → Except Fault (Option Config × Config)
  | [], _, s => .ok (some s, s)
  | p :: ps, key, s =>
      match readPage env s.mtd p with
      | none => .ok (none, s)
      | some page =>
          match moveOne env page key s with
          | .error f => .error f
          | .ok (key, s) => moveLoop env ps key s

/-- `move_pages_to_other_block`. -/
def movePagesToOtherBlock (env : Env) (victim : ℕ) (s : Config) : Except Fault (ℤ × Config) :=
  if (s.blocks victim).state = .blkFree then .ok (0, s)
  else if (s.blocks victim).state = .blkUsed then
    let pages := (List.range (env.pagesPerBlock - 1)).map fun i => victim * env.pagesPerBlock + (i + 1)
    match moveLoop env pages (env.keyBuf s.mtd) (s.setState victim .blkInvalid) with
    | .error f => .error f
    | .ok (none, s) => .ok (-4, s)
    | .ok (some _, s) => .ok (formatSingle env victim s)
  else .ok (formatSingle env victim s)

/-- What every page that is moved keeps, the loop keeps. -/
theorem moveLoop_invariant {env : Env} {I : Config → Prop}
    (hstep : ∀ page key key' s s', I s → moveOne env page key s = .ok (key', s') → I s') :
    ∀ {ps : List ℕ} {key : ℕ → Byte} {s s' : Config} {r : Option Config}, I s →
      moveLoop env ps key s = .ok (r, s') → I s'
  | [], _, _, _, _, hI, he => by
    rw [moveLoop] at he
    rwa [← (Prod.mk.inj (Except.ok.inj he)).2]
  | p :: ps, _, _, _, _, hI, he => by
    rw [moveLoop] at he
    split at he
    · rwa [← (Prod.mk.inj (Except.ok.inj he)).2]
    · split at he
      · cases he
      · next he₁ => exact moveLoop_invariant hstep (hstep _ _ _ _ _ hI he₁) he

/-- A free block is left alone. Any other is erased, a used one once its pages have been moved. -/
theorem movePages_cases {env : Env} {b : ℕ} {s s' : Config} {ret : ℤ}
    (he : movePagesToOtherBlock env b s = .ok (ret, s')) :
    (s.blocks b).state = .blkFree ∧ s' = s ∨
      (s.blocks b).state ≠ .blkFree ∧ (s.blocks b).state ≠ .blkUsed ∧ s' = (formatSingle env b s).2 ∨
      (s.blocks b).state = .blkUsed ∧ ∃ ps r s₁,
        moveLoop env ps (env.keyBuf s.mtd) (s.setState b .blkInvalid) = .ok (r, s₁) ∧
          (r = none ∧ s' = s₁ ∨ s' = (formatSingle env b s₁).2) := by
  rw [movePagesToOtherBlock] at he
  split at he
  · next hfree => exact .inl ⟨hfree, (Prod.mk.inj (Except.ok.inj he)).2.symm⟩
  · next hfree =>
    split at he
    · next hused =>
      dsimp only at he
      split at he
      · cases he
      · next s₁ he₁ =>
        obtain ⟨-, rfl⟩ := Prod.mk.inj (Except.ok.inj he)
        exact .inr (.inr ⟨hused, _, none, s₁, he₁, .inl ⟨rfl, rfl⟩⟩)
      · next t s₁ he₁ =>
        exact .inr (.inr ⟨hused, _, some t, s₁, he₁, .inr (congrArg Prod.snd (Except.ok.inj he)).symm⟩)
    · next hused => exact .inr (.inl ⟨hfree, hused, (congrArg Prod.snd (Except.ok.inj he)).symm⟩)

/-! ## `flush_metadata` -/

/-- The first loop: erase the blocks that hold the previous metadata. -/
def flushErase (env : Env) : List ℕ → Config → Config
  | [], s => s
  | i :: is, s => flushErase env is (formatEntry env (s.metaBlkordr i) s).2

/-- The second loop: choose a block for each part of the metadata. For `-1` the source goes on with
`config.blocks[-1]`. -/
def flushSelect (env : Env) : List ℕ → Config → Except Fault Config
  | [], s => .ok s
  | i :: is, s =>
      match getMetaBlock env.toGeometry s with
      | none => .error .outOfBounds
      | some b =>
          match movePagesToOtherBlock env b s with
          | .error f => .error f
          | .ok (_, s) =>
              let s := { s with metaBlkordr := Function.update s.metaBlkordr i (some b) }
              flushSelect env is (s.setState b .blkMeta)

/-- The inner write loop; `false` when `write_page` returns a code. -/
def writePages (env : Env) : List (ℕ × List Byte) → Config → Bool × Config
  | [], s => (true, s)
  | (p, d) :: ws, s =>
      match writePage env p d s with
      | (0, s) => writePages env ws s
      | (_, s) => (false, s)

/-- The pages of metadata block number `i`, lying in block `b`. `snap` is the buffer's content. -/
def metaWrites (env : Env) (snap : Config) (i b : ℕ) : List (ℕ × List Byte) :=
  (List.range (env.pagesPerBlock - 1)).map fun j =>
    (b * env.pagesPerBlock + (j + 1), metaPage env snap (i * (env.pagesPerBlock - 1) + j))

/-- The outer write loop. -/
def flushWrite (env : Env) (snap : Config) : List ℕ → Config → Except Fault (ℤ × Config)
  | [], s => .ok (0, s)
  | i :: is, s =>
      match s.metaBlkordr i with
      | none => .error .outOfBounds
      | some b =>
          let s := writeHdr env (b * env.pagesPerBlock) (.nandMetaData i) s
          match writePages env (metaWrites env snap i b) s with
          | (true, s) => flushWrite env snap is s
          | (false, s) => .ok (-2, s)

/-- `flush_metadata`. -/
def flushMetadata (env : Env) (s : Config) : Except Fault (ℤ × Config) :=
  match flushSelect env (List.range env.nbMetaBlocks)
      (flushErase env (List.range env.nbMetaBlocks) s) with
  | .error f => .error f
  | .ok s => flushWrite env s (List.range env.nbMetaBlocks) s

/-! ## `init_scan` -/

/-- The loop over the blocks' first pages: `meta_blkordr` and the number of headers found. `none` when
`read_page` fails. -/
def scanHeaders (env : Env) (mtd : History) : List ℕ → (ℕ → Option ℕ) × ℕ →
    Except Fault (Option ((ℕ → Option ℕ) × ℕ))
  | [], r => .ok (some r)
  | b :: bs, (ord, cnt) =>
      match readPage env mtd (b * env.pagesPerBlock) with
      | none => .ok none
      | some page =>
          if readLe (mem page) 0 = metaHdrBase then
            let i := readLe (mem page) 4
            if env.nbMetaBlocks ≤ i then .error .outOfBounds
            else scanHeaders env mtd bs (Function.update ord i (some b), cnt + 1)
          else scanHeaders env mtd bs (ord, cnt)

/-- Page `o` of the block that an entry of `meta_blkordr` names. Block `-1` lies in front of the device. -/
def readEntry (env : Env) (mtd : History) (entry : Option ℕ) (o : ℕ) : Option (List Byte) :=
  match entry with
  | some b => readPage env mtd (b * env.pagesPerBlock + o)
  | none => (env.outside ((o : ℤ) - env.pagesPerBlock)).bind (readPage env mtd)

/-- The read loop: `pages` are in the buffer. `none` when `read_page` fails. -/
def scanLoop (env : Env) (mtd : History) (ord : ℕ → Option ℕ) :
    List (ℕ × ℕ) → List (List Byte) → Except Fault (Option (List (List Byte)))
  | [], pages => .ok (some pages)
  | (i, j) :: rest, pages =>
      match readEntry env mtd (ord i) (j + 1) with
      | none => .ok none
      | some page =>
          if env.metaRoom ≤ pages.length then .error .overflow
          else scanLoop env mtd ord rest (pages ++ [page])

/-- The pages of the blocks found, read into the buffer one behind the other. -/
def scanPages (env : Env) (mtd : History) (ord : ℕ → Option ℕ) (cnt : ℕ) :
    Except Fault (Option (List (List Byte))) :=
  scanLoop env mtd ord
    ((List.range cnt).flatMap fun i => (List.range (env.pagesPerBlock - 1)).map fun j => (i, j)) []

/-- The buffer of `init_scan` after the read loop. -/
def scanBuffer (env : Env) (mtd : History) (pages : List (List Byte)) (p : ℕ) : Byte :=
  match pages[p / env.pageSize]? with
  | some page => mem page (p % env.pageSize)
  | none => env.metaBuf mtd p

/-- The loop that links the valid buckets into their blocks' lists. -/
def relink (g : Geometry) (t : ℕ → Bucket) : List ℕ → (ℕ → BlkInfo) → Except Fault (ℕ → BlkInfo)
  | [], blocks => .ok blocks
  | h :: hs, blocks =>
      if (t h).pState = .pgValid then
        let b := (t h).index / g.pagesPerBlock
        if g.nbBlocks ≤ b then .error .outOfBounds
        else relink g t hs
          (Function.update blocks b { blocks b with list := h :: (blocks b).list })
      else relink g t hs blocks

/-- The configuration before `format` fills it in, when no metadata was found. -/
def Config.blank (mtd : History) : Config where
  blocks := fun _ => .erased 0
  hashtable := fun _ => ⟨false, 0, .ofBytes [], .pgFree⟩
  metaBlkordr := fun _ => none
  readOnly := false
  mtd := mtd

/-- The end of `init_scan`. -/
def checkReadOnly (g : Geometry) (s : Config) : Config :=
  if isReadOnly g s then { s with readOnly := true } else s

/-- `init_config` and `init_scan` on a flash: the code (the module stays loaded for 0) and the new
configuration. -/
def initScan (env : Env) (mtd : History) : Except Fault (ℤ × Config) :=
  match scanHeaders env mtd (List.range env.nbBlocks) (fun _ => none, 0) with
  | .error f => .error f
  | .ok none => .ok (-3, .blank mtd)
  | .ok (some (ord, cnt)) =>
      match scanPages env mtd ord cnt with
      | .error f => .error f
      | .ok none => .ok (-4, .blank mtd)
      | .ok (some pages) =>
          if cnt = 0 then
            match format env (.blank mtd) with
            | (0, s) => .ok (0, checkReadOnly env.toGeometry s)
            | (ret, s) => .ok (ret, s)
          else
            match readMeta env.toGeometry (scanBuffer env mtd pages) with
            | none => .error .torn
            | some (blocks, hashtable) =>
                match relink env.toGeometry hashtable (List.range env.hashSize) blocks with
                | .error f => .error f
                | .ok blocks =>
                    .ok (0, checkReadOnly env.toGeometry ⟨blocks, hashtable, ord, false, mtd⟩)

end LkpProjects.Serial
