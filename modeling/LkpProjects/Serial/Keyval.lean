import LkpProjects.Serial.Pages

/-! # The serial store: `set_keyval`, `get_keyval`, `del_key`, `gc`

`set_keyval` is split where its store phase ends: `storePhase` goes from the search for the old page
to `list_add`, and `setKeyval` (in `LkpProjects.Serial.Store`) adds the tests before it and the
garbage collection and timed flush behind it.
-/
namespace LkpProjects.Serial
open Nand Bytes
set_option autoImplicit false

/-! ## Set, get, delete -/

/-- The page that `set_keyval` writes: both lengths, the key, the value, zeros up to the page size. -/
def record (g : Geometry) (key val : CStr) : List Byte :=
  le32 key.len ++ (le32 val.len ++ (key.bytes ++ (val.bytes ++
    List.replicate (g.pageSize - (8 + key.len + val.len)) 0)))

/-- From `hash_add` to `list_add`: enter the page under its key. `list_add(&hashtable[-1])` is out of
bounds. -/
def enterBucket (env : Env) (key : CStr) (index b : ℕ) (s : Config) : Except Fault Config :=
  match hashAdd env.toGeometry key index s.hashtable with
  | .error f => .error f
  | .ok (.error _, _) => .error .outOfBounds
  | .ok (.ok h, t) => .ok (({ s with hashtable := t }).listAdd b h)

/-- `hash_search`, and `invalid_pg` if the key has a page. -/
def invalidOld (env : Env) (key : CStr) (s : Config) : Except Fault Config :=
  match hashSearch env.toGeometry s.hashtable key with
  | .error _ => .ok s
  | .ok h => invalidPg env.toGeometry h s

/-- From `get_next_page` to `list_add`: put `buf` on the next page and enter it under `key`. The code
of `write_page` is returned. With no block left the source reads `config.blocks[-1]`. -/
def storeAt (env : Env) (key : CStr) (buf : List Byte) (s : Config) : Except Fault (ℤ × Config) :=
  match getNextPage env s with
  | (none, _) => .error .outOfBounds
  | (some b, s) =>
      let index := b * env.pagesPerBlock + (s.blocks b).currentPageOffset
      let (ret, s) := writePage env index buf s
      match enterBucket env key index b s with
      | .error f => .error f
      | .ok s => .ok (ret, s)

/-- A call that returns has picked a block, written to its next page and linked the bucket of the key. -/
theorem storeAt_cases {env : Env} {key : CStr} {buf : List Byte} {s s' : Config} {ret : ℤ}
    (he : storeAt env key buf s = .ok (ret, s')) : ∃ b p s₁ h t, getHealthyBlock env.toGeometry s = some b ∧
      p = b * env.pagesPerBlock + ((openBlock env b s).blocks b).currentPageOffset ∧
      writePage env p buf (openBlock env b s) = (ret, s₁) ∧
      hashAdd env.toGeometry key p s₁.hashtable = .ok (.ok h, t) ∧
      s' = ({ s₁ with hashtable := t } : Config).listAdd b h := by
  rw [storeAt, getNextPage] at he
  cases hb : getHealthyBlock env.toGeometry s with
  | none =>
    rw [hb] at he
    cases he
  | some b =>
    rw [hb] at he
    dsimp only at he
    split at he
    · cases he
    · next he₂ =>
      obtain ⟨rfl, rfl⟩ := Prod.mk.inj (Except.ok.inj he)
      rw [enterBucket] at he₂
      split at he₂
      · cases he₂
      · cases he₂
      · next h t hadd => exact ⟨b, _, _, h, t, rfl, rfl, rfl, hadd, (Except.ok.inj he₂).symm⟩

/-- The store phase of `set_keyval`. -/
def storePhase (env : Env) (key val : CStr) (s : Config) : Except Fault (ℤ × Config) :=
  match invalidOld env key s with
  | .error f => .error f
  | .ok s => storeAt env key (record env.toGeometry key val) s

/-- `strncmp(buf, key, strlen(key)) == 0`. -/
def strncmpEq (buf : List Byte) (key : CStr) : Bool := buf.take key.len == key.bytes

/-- `get_keyval`: the page index, -1 when the key is not found, -2 on a read error; and the bytes
copied to `val`. -/
def getKeyval (env : Env) (key : CStr) (s : Config) : ℤ × List Byte :=
  match hashSearch env.toGeometry s.hashtable key with
  | .error _ => (-1, [])
  | .ok h =>
      let pageIndex := (s.hashtable h).index
      if (s.blocks (pageIndex / env.pagesPerBlock)).state = .blkUsed then
        if (s.hashtable h).pState = .pgFree then (-1, [])
        else
          match readPage env s.mtd pageIndex with
          | none => (-2, [])
          | some buffer =>
              let keyLen := readLe (mem buffer) 0
              let valLen := readLe (mem buffer) 4
              if strncmpEq (buffer.drop 8) key then
                (pageIndex, (buffer.drop (8 + keyLen)).take valLen)
              else (-1, [])
      else (-1, [])

/-- `del_key`: the page index of the deleted key, or -2 when it is not found. -/
def delKey (env : Env) (key : CStr) (s : Config) : Except Fault (ℤ × Config) :=
  match hashSearch env.toGeometry s.hashtable key with
  | .error _ => .ok (-2, s)
  | .ok h =>
      let pageIndex := (s.hashtable h).index
      if (s.blocks (pageIndex / env.pagesPerBlock)).state = .blkUsed then
        if (s.hashtable h).pState = .pgFree then .ok (-1, s)
        else
          match invalidPg env.toGeometry h s with
          | .error f => .error f
          | .ok s => .ok (pageIndex, s)
      else .ok (-2, s)

/-! ## Garbage collection -/

/-- The first block with enough invalid pages. -/
def gcTarget (g : Geometry) (s : Config) : Option ℕ :=
  (List.range g.nbBlocks).find? fun i => invalidThreshold ≤ (s.blocks i).nbInvalid

/-- The loop that looks for the block to write to. Its test is `if (BLK_FREE)`, the value of the
constant, where the state of block `i` was to be compared with it. -/
def gcVictim (g : Geometry) (s : Config) : Option ℕ :=
  (List.range g.nbBlocks).foldl
    (fun victim i =>
      if BlkState.blkFree.code ≠ 0 then
        match victim with
        | none => some i
        | some v => if (s.blocks i).worn < (s.blocks v).worn then some i else victim
      else victim)
    none

/-- Copy bytes into a buffer. -/
def blit (buf : ℕ → Byte) (pos : ℕ) (src : List Byte) : ℕ → Byte := fun i =>
  if pos ≤ i ∧ i < pos + src.length then mem src (i - pos) else buf i

/-- The `n` bytes of a buffer from `pos` on. -/
def cut (buf : ℕ → Byte) (pos n : ℕ) : List Byte := (List.range n).map fun i => buf (pos + i)

/-- `strncpy` of `n` bytes onto themselves: bytes behind the first NUL become zero. -/
def strncpySelf (buf : ℕ → Byte) (pos n : ℕ) : ℕ → Byte := fun i =>
  if pos ≤ i ∧ i < pos + n ∧ (cut buf pos (i - pos)).contains 0 = true then 0 else buf i

/-- What `gc` keeps of the pages it has read: the buffer, and `key_len[i]`, `val_len[i]`. -/
structure GcRead where
  buffer : ℕ → Byte
  lens : List (ℕ × ℕ)

/-- One round of the walk over the block's list: read the page to `valid_cnt * pages_per_block` in the
buffer (the stride is not the page size), note the lengths, and invalidate the bucket found under the
key that was read. Returns the slot of that bucket. -/
def gcReadOne (env : Env) (r : GcRead) (h : ℕ) (s : Config) : Except Fault (ℕ × GcRead × Config) :=
  match readPage env s.mtd (s.hashtable h).index with
  | none => .error .bug
  | some page =>
      let pos := r.lens.length * env.pagesPerBlock
      let buffer := blit r.buffer pos page
      let keyLen := readLe buffer pos
      let valLen := readLe buffer (pos + 4)
      if env.pageSize * env.pagesPerBlock < pos + env.pageSize ∨ env.pageSize < 8 + keyLen then
        .error .overflow
      else
        match hashSearch env.toGeometry s.hashtable (.ofBytes (cut buffer (pos + 8) keyLen)) with
        | .error _ => .error .outOfBounds
        | .ok h' =>
            match invalidPg env.toGeometry h' s with
            | .error f => .error f
            | .ok s => .ok (h', ⟨buffer, r.lens ++ [(keyLen, valLen)]⟩, s)

/-- The walk (`list_for_each_entry_safe`) over the buckets of the target block: `slots` is what is left
of the list. The next bucket is fetched before the body, which must not unlink it. -/
def gcRead (env : Env) (target : ℕ) : ℕ → GcRead → List ℕ → Config → Except Fault (GcRead × Config)
  | _, r, [], s => .ok (r, s)
  | 0, r, _, s => .ok (r, s)
  | fuel + 1, r, h :: slots, s =>
      if (s.hashtable h).index / env.pagesPerBlock ≠ target then .ok (r, s)
      else
        match gcReadOne env r h s with
        | .error f => .error f
        | .ok (h', r, s) =>
            if slots.head? = some h' then .error .poisonedList
            else gcRead env target fuel r (slots.erase h') s

/-- One round of the loop that writes the pages back. -/
def gcWriteOne (env : Env) (victim i : ℕ) (keyLen valLen : ℕ) (buffer : ℕ → Byte) (s : Config) :
    Except Fault ((ℕ → Byte) × Config) :=
  let pos := i * env.pagesPerBlock
  if env.pageSize * env.pagesPerBlock < pos + (8 + keyLen + valLen) then .error .overflow
  else
    let buffer := blit (blit buffer pos (le32 keyLen)) (pos + 4) (le32 valLen)
    let buffer := strncpySelf buffer (pos + 8) keyLen
    let buffer := strncpySelf buffer (pos + 8 + keyLen) valLen
    let pgIndex := victim * env.pagesPerBlock + (s.blocks victim).currentPageOffset
    let key := CStr.ofBytes (cut buffer (pos + 8) keyLen)
    let (ret, s) := writePage env pgIndex (cut buffer pos env.pageSize) s
    match hashAdd env.toGeometry key pgIndex s.hashtable with
    | .error f => .error f
    | .ok (.error _, _) => .error .bug
    | .ok (.ok h, t) =>
        if ret < 0 then .error .bug
        else .ok (buffer, ({ s with hashtable := t }).listAdd victim h)

/-- The loop that writes the pages back, from record `i` on. -/
def gcWrite (env : Env) (victim : ℕ) :
    ℕ → List (ℕ × ℕ) → (ℕ → Byte) → Config → Except Fault Config
  | _, [], _, s => .ok s
  | i, (keyLen, valLen) :: lens, buffer, s =>
      match gcWriteOne env victim i keyLen valLen buffer s with
      | .error f => .error f
      | .ok (buffer, s) => gcWrite env victim (i + 1) lens buffer s

/-- `gc` once its target is known. -/
def gcBlock (env : Env) (target : ℕ) (s : Config) : Except Fault Config :=
  let victim := (gcVictim env.toGeometry s).getD target
  let slots := (s.blocks target).list
  match gcRead env target slots.length ⟨fun _ => 0, []⟩ slots s with
  | .error f => .error f
  | .ok (r, s) =>
      let s := (formatSingle env victim s).2
      let pgIndex := victim * env.pagesPerBlock + (s.blocks victim).currentPageOffset
      let s := writeHdr env pgIndex .nandData s
      match gcWrite env victim 0 r.lens r.buffer s with
      | .error f => .error f
      | .ok s => .ok (s.setState victim .blkUsed)

/-- `gc`. -/
def gc (env : Env) (s : Config) : Except Fault Config :=
  match gcTarget env.toGeometry s with
  | none => .ok s
  | some target => gcBlock env target s

/-- `gb_check`: collect once if some block has enough invalid pages. -/
def gbCheck (env : Env) (s : Config) : Except Fault Config :=
  if (List.range env.nbBlocks).any fun i => invalidThreshold ≤ (s.blocks i).nbInvalid then gc env s
  else .ok s

end LkpProjects.Serial
