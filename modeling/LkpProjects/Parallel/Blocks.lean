import LkpProjects.Parallel.Config

/-! # The parallel store: pages, blocks and the hash table

The functions of `core.c` between the driver and the operations: `write_page`, `read_page`,
`write_hdr`, `format_single`, the read-only test and the choice of a block; `hash_add` and
`hash_search`; and `invalid_pg`.
-/
namespace LkpProjects.Parallel
open Nand Bytes Hoare
open Serial (Geometry HdrKind)
set_option autoImplicit false

/-! ## Reading and writing -/

/-- `is_read_only`: as many blocks are full as there are without the metadata blocks, one of these not
counted. -/
def isReadOnly (g : Geometry) (s : Config) : Bool :=
  g.nbBlocks ≤ ((List.range g.nbBlocks).filter fun i =>
    g.pagesPerBlock ≤ (s.blocks i).currentPageOffset).length + (nbMetaBlocks g - 1)

/-- The driver stores a page and the block's offset moves on. -/
def programPage (g : Geometry) (pageIndex : ℕ) (buf : List Byte) (s : Config) : Config :=
  { s.modifyBlk (pageIndex / g.pagesPerBlock) fun i =>
      { i with currentPageOffset := i.currentPageOffset + 1 } with
    mtd := .program pageIndex buf :: s.mtd }

/-- The part of `write_page` between its lock and `exit`. -/
def writeFlash (env : Env) (pageIndex : ℕ) (buf : List Byte) : Kernel ℤ := do
  let s ← get
  if s.readOnly then pure (-1)
  else if env.writeOk s.mtd pageIndex = false then throw .bug
  else if env.nbBlocks ≤ pageIndex / env.pagesPerBlock then throw .outOfBounds
  else
    withLock .listLock (modify (programPage env.toGeometry pageIndex buf))
    pure 0

/-- `write_page`: 0, or -1 when the store is (or has just become) read-only. -/
def writePage (env : Env) (pageIndex : ℕ) (buf : List Byte) : Kernel ℤ :=
  withLock .oneLock do
    let ret ← writeFlash env pageIndex buf
    if isReadOnly env.toGeometry (← get) then
      modify fun s => { s with readOnly := true }
      pure (-1)
    else pure ret

section Written
variable {env : Env} {s s' : Config} {p : ℕ} {buf : List Byte} {ret : ℤ}

/-- The flash does not change, or the page is programmed and the store may have become read-only. -/
theorem writePage_ok (he : writePage env p buf s = .ok (ret, s')) :
    s.readOnly = true ∧ ret = -1 ∧ s' = s ∨
      s.readOnly = false ∧ p / env.pagesPerBlock < env.nbBlocks ∧ env.writeOk s.mtd p = true ∧
        ret = (if isReadOnly env.toGeometry (programPage env.toGeometry p buf s) then -1 else 0) ∧
        s' = { programPage env.toGeometry p buf s with
          readOnly := isReadOnly env.toGeometry (programPage env.toGeometry p buf s) } := by
  obtain ⟨hfree, s₁, he₁, rfl⟩ := withLock_ok he
  obtain ⟨code, s₂, he₂, he₁⟩ := bind_ok.mp he₁
  rw [writeFlash, get_bind_ok, lock_readOnly, lock_mtd] at he₂
  rw [get_bind_ok] at he₁
  cases hro : s.readOnly with
  | true =>
    rw [if_pos hro] at he₂
    obtain ⟨rfl, rfl⟩ := pure_ok.mp he₂
    have hsame : { s.lock .oneLock true with readOnly := true } = s.lock .oneLock true := by
      rw [← hro]
      rfl
    split at he₁
    · obtain ⟨_, s₃, he₃, he₁⟩ := bind_ok.mp he₁
      obtain rfl := modify_ok.mp he₃
      obtain ⟨rfl, rfl⟩ := pure_ok.mp he₁
      rw [hsame, lock_back hfree]
      exact .inl ⟨rfl, rfl, rfl⟩
    · obtain ⟨rfl, rfl⟩ := pure_ok.mp he₁
      rw [lock_back hfree]
      exact .inl ⟨rfl, rfl, rfl⟩
  | false =>
    rw [if_neg (by rw [hro]; exact Bool.false_ne_true)] at he₂
    split at he₂
    · cases he₂
    · next hw =>
      split at he₂
      · cases he₂
      · next hb =>
        refine .inr ⟨rfl, not_le.mp hb, eq_true_of_ne_false hw, ?_⟩
        obtain ⟨_, s₃, he₃, he₂⟩ := bind_ok.mp he₂
        obtain ⟨rfl, rfl⟩ := pure_ok.mp he₂
        obtain ⟨hfree', s₄, he₄, rfl⟩ := withLock_ok he₃
        obtain rfl := modify_ok.mp he₄
        have hback : (programPage env.toGeometry p buf ((s.lock .oneLock true).lock .listLock true)).lock
            .listLock false = programPage env.toGeometry p buf (s.lock .oneLock true) :=
          lock_back (s := programPage env.toGeometry p buf (s.lock .oneLock true)) hfree'
        have hone : ∀ b, ({ programPage env.toGeometry p buf (s.lock .oneLock true) with
              readOnly := b } : Config).lock .oneLock false =
            { programPage env.toGeometry p buf s with readOnly := b } := fun b =>
          lock_back (s := { programPage env.toGeometry p buf s with readOnly := b }) hfree
        have hfull : isReadOnly env.toGeometry (programPage env.toGeometry p buf (s.lock .oneLock true)) =
            isReadOnly env.toGeometry (programPage env.toGeometry p buf s) := rfl
        rw [hback, hfull] at he₁
        split at he₁
        · next hfull =>
          obtain ⟨_, s₅, he₅, he₁⟩ := bind_ok.mp he₁
          obtain rfl := modify_ok.mp he₅
          obtain ⟨rfl, rfl⟩ := pure_ok.mp he₁
          rw [hone, hfull, if_pos rfl]
          exact ⟨rfl, rfl⟩
        · next hfull =>
          obtain ⟨rfl, rfl⟩ := pure_ok.mp he₁
          have hsame := hone s.readOnly
          rw [hro] at hsame
          rw [eq_false_of_ne_true hfull, if_neg Bool.false_ne_true, ← hsame, ← hro]
          exact ⟨rfl, rfl⟩

end Written

/-- `read_page`; every caller takes an error for a bug. -/
def readPage (env : Env) (pageIndex : ℕ) : Kernel (List Byte) :=
  withLock .oneLock do
    let s ← get
    if env.readOk s.mtd pageIndex = false then throw .bug
    else pure (content env.pageSize s.mtd pageIndex)

/-- `META_HDR_BASE`, the characters of `9487940`. -/
def metaHdrBase : List Byte := [57, 52, 56, 55, 57, 52, 48]

/-- The characters that `%d` prints for a number. -/
def decimal (n : ℕ) : List Byte :=
  if n = 0 then [48] else (Nat.digits 10 n).reverse.map fun d => 48 + BitVec.ofNat 8 d

/-- The first page of a block: zeros for data, the magic string and the block's rank for metadata. -/
def hdrPage (g : Geometry) : HdrKind → List Byte
  | .nandData => List.replicate g.pageSize 0
  | .nandMetaData n => metaHdrBase ++ (decimal n ++
      List.replicate (g.pageSize - (metaHdrBase.length + (decimal n).length)) 0)

/-- The bytes of a header with the NUL that `strcat` puts behind it. -/
def hdrLen : HdrKind → ℕ
  | .nandData => 0
  | .nandMetaData n => metaHdrBase.length + (decimal n).length + 1

/-- `write_hdr`: the code of `write_page`. -/
def writeHdr (env : Env) (pgIdx : ℕ) (data : HdrKind) : Kernel ℤ := do
  if (← get).metaReadOnly then pure (-1)
  else if env.pageSize < hdrLen data then throw .overflow
  else
    let ret ← writePage env pgIdx (hdrPage env.toGeometry data)
    modify fun s => s.setState (pgIdx / env.pagesPerBlock) .blkUsed
    pure ret

theorem writeHdr_ok {env : Env} {s s' : Config} {p : ℕ} {data : HdrKind} {ret : ℤ}
    (he : writeHdr env p data s = .ok (ret, s')) :
    s.metaReadOnly = true ∧ ret = -1 ∧ s' = s ∨
      s.metaReadOnly = false ∧ hdrLen data ≤ env.pageSize ∧
        ∃ s₁, writePage env p (hdrPage env.toGeometry data) s = .ok (ret, s₁) ∧
          s' = s₁.setState (p / env.pagesPerBlock) .blkUsed := by
  rw [writeHdr, get_bind_ok] at he
  split at he
  · next hm =>
    obtain ⟨rfl, rfl⟩ := pure_ok.mp he
    exact .inl ⟨hm, rfl, rfl⟩
  · next hm =>
    split at he
    · cases he
    · next hfits =>
      obtain ⟨code, s₁, he₁, he⟩ := bind_ok.mp he
      obtain ⟨_, s₂, he₂, he⟩ := bind_ok.mp he
      obtain rfl := modify_ok.mp he₂
      obtain ⟨rfl, rfl⟩ := pure_ok.mp he
      exact .inr ⟨eq_false_of_ne_true hm, not_lt.mp hfits, s₁, he₁, rfl⟩

/-! ## Erasing -/

/-- What `format_single` and `format` leave of a block's record. -/
def BlkInfo.erased (worn : ℕ) : BlkInfo where
  list := []
  state := .blkFree
  worn := worn
  nbInvalid := 0
  currentPageOffset := 0

/-- `format_single` on a block index: 0, or -1 on a driver error. -/
def formatSingle (env : Env) (idx : ℕ) : Kernel ℤ := do
  let s ← get
  match env.eraseResult s.mtd (idx * env.pagesPerBlock) env.pagesPerBlock with
  | .done =>
      modify fun s => { s.modifyBlk idx fun i =>
          { i with state := .blkFree, nbInvalid := 0, currentPageOffset := 0, worn := i.worn + 1 } with
        mtd := .erase (idx * env.pagesPerBlock) env.pagesPerBlock :: s.mtd }
      withLock .listLock (modify fun s => s.modifyBlk idx fun i => { i with list := [] })
      modify fun s => { s with readOnly := false, metaReadOnly := false }
      pure 0
  | _ => pure (-1)

/-- The configuration in which block `b` has been erased. -/
def Config.wiped (g : Geometry) (s : Config) (b : ℕ) : Config :=
  { s.modifyBlk b fun i => .erased (i.worn + 1) with
    mtd := .erase (b * g.pagesPerBlock) g.pagesPerBlock :: s.mtd
    readOnly := false
    metaReadOnly := false }

theorem formatSingle_ok {env : Env} {s s' : Config} {b : ℕ} {ret : ℤ}
    (he : formatSingle env b s = .ok (ret, s')) :
    env.eraseResult s.mtd (b * env.pagesPerBlock) env.pagesPerBlock = .done ∧ ret = 0 ∧
        s' = s.wiped env.toGeometry b ∨
      env.eraseResult s.mtd (b * env.pagesPerBlock) env.pagesPerBlock ≠ .done ∧ ret = -1 ∧ s' = s := by
  rw [formatSingle, get_bind_ok] at he
  cases hdone : env.eraseResult s.mtd (b * env.pagesPerBlock) env.pagesPerBlock with
  | done =>
    rw [hdone] at he
    obtain ⟨_, s₁, he₁, he⟩ := bind_ok.mp he
    obtain rfl := modify_ok.mp he₁
    obtain ⟨_, s₂, he₂, he⟩ := bind_ok.mp he
    obtain ⟨hfree, s₃, he₃, rfl⟩ := withLock_ok he₂
    obtain rfl := modify_ok.mp he₃
    obtain ⟨_, s₄, he₄, he⟩ := bind_ok.mp he
    obtain rfl := modify_ok.mp he₄
    obtain ⟨rfl, rfl⟩ := pure_ok.mp he
    have hl : Function.update (Function.update s.locks .listLock true) .listLock false = s.locks :=
      locks_back hfree
    refine .inl ⟨rfl, rfl, ?_⟩
    simp only [Config.wiped, Config.modifyBlk, Config.lock, Function.update_idem, Function.update_self,
      hl, BlkInfo.erased]
  | _ =>
    rw [hdone] at he
    obtain ⟨rfl, rfl⟩ := pure_ok.mp he
    refine .inr ⟨?_, rfl, rfl⟩
    intro hres
    cases hres

/-- `format`: erase the whole partition and reset the block records and the hash slots. -/
def format (env : Env) : Kernel ℤ :=
  withLock .eraseLock do
    let s ← get
    match env.eraseResult s.mtd 0 (env.nbBlocks * env.pagesPerBlock) with
    | .done =>
        modify fun s => { s with
          mtd := .erase 0 (env.nbBlocks * env.pagesPerBlock) :: s.mtd
          readOnly := false }
        withLock .listLock (modify fun s => { s with blocks := fun _ => .erased 0 })
        modify fun s => { s with
          hashtable := fun h => { s.hashtable h with pState := .pgFree, dirty := false }
          metaReadOnly := false }
        pure 0
    | _ => throw .bug

/-- The configuration in which the whole partition has been erased. -/
def Config.formatted (g : Geometry) (s : Config) : Config :=
  { s with
    blocks := fun _ => .erased 0
    hashtable := fun h => { s.hashtable h with pState := .pgFree, dirty := false }
    readOnly := false
    metaReadOnly := false
    mtd := .erase 0 (g.nbBlocks * g.pagesPerBlock) :: s.mtd }

theorem format_ok {env : Env} {s s' : Config} {ret : ℤ} (he : format env s = .ok (ret, s')) :
    ret = 0 ∧ s' = s.formatted env.toGeometry := by
  obtain ⟨hfree, s₁, he₁, rfl⟩ := withLock_ok he
  rw [get_bind_ok] at he₁
  cases hdone : env.eraseResult (s.lock .eraseLock true).mtd 0 (env.nbBlocks * env.pagesPerBlock) with
  | done =>
    rw [hdone] at he₁
    obtain ⟨_, s₂, he₂, he₁⟩ := bind_ok.mp he₁
    obtain rfl := modify_ok.mp he₂
    obtain ⟨_, s₃, he₃, he₁⟩ := bind_ok.mp he₁
    obtain ⟨hlist, s₄, he₄, rfl⟩ := withLock_ok he₃
    obtain rfl := modify_ok.mp he₄
    obtain ⟨_, s₅, he₅, he₁⟩ := bind_ok.mp he₁
    obtain rfl := modify_ok.mp he₅
    obtain ⟨rfl, rfl⟩ := pure_ok.mp he₁
    have hlist : Function.update s.locks .eraseLock true .listLock = false := hlist
    have hl : Function.update (Function.update (Function.update (Function.update s.locks .eraseLock true)
        .listLock true) .listLock false) .eraseLock false = s.locks := by
      rw [locks_back hlist, locks_back hfree]
    exact ⟨rfl, congrArg (fun locks => { s.formatted env.toGeometry with locks := locks }) hl⟩
  | _ =>
    rw [hdone] at he₁
    cases he₁

/-! ## Choosing a block -/

/-- One of the first `n` entries of `meta_blkordr` is block `b`. -/
def inOrder (ord : ℕ → Option ℕ) (n b : ℕ) : Bool := (List.range n).any fun j => ord j = some b

/-- A look at the first `n` entries of `meta_blkordr`. -/
def checkOrder (n : ℕ) : Kernel PUnit :=
  if maxMetaBlk < n then throw .outOfBounds else pure ⟨⟩

theorem checkOrder_ok {n : ℕ} {s s' : Config} {u : PUnit} (he : checkOrder n s = .ok (u, s')) : s' = s := by
  rw [checkOrder] at he
  split at he
  · cases he
  · exact (pure_ok.mp he).2.symm

/-- `get_healthy_block`: the first of the least worn blocks that have a page left and are not among the
metadata blocks. The `goto` passes over these. -/
def getHealthyBlock (g : Geometry) (s : Config) : Option ℕ :=
  Serial.leastWorn g.nbBlocks
    (fun i => inOrder s.metaBlkordr (nbProbed g) i = false ∧
      (s.blocks i).currentPageOffset < g.pagesPerBlock)
    fun i => (s.blocks i).worn

/-- `get_next_block_to_write`. A block without header gets one, and the code of `write_hdr` is returned
in place of the block. -/
def getNextBlockToWrite (env : Env) : Kernel ℤ := do
  let target ← withLock .listLock do
    checkOrder (nbProbed env.toGeometry)
    pure (getHealthyBlock env.toGeometry (← get))
  match target with
  | none => pure (-1)
  | some b =>
      modify fun s => s.setState b .blkUsed
      let s ← get
      if (s.blocks b).currentPageOffset < Serial.reservedPgCnt then
        writeHdr env (b * env.pagesPerBlock + (s.blocks b).currentPageOffset) .nandData
      else pure b

/-- Nothing is found, a block with a header is, or one that gets its header now. -/
theorem getNextBlockToWrite_ok {env : Env} {s s' : Config} {ret : ℤ}
    (he : getNextBlockToWrite env s = .ok (ret, s')) :
    getHealthyBlock env.toGeometry s = none ∧ ret = -1 ∧ s' = s ∨
      ∃ b, getHealthyBlock env.toGeometry s = some b ∧
        (0 < (s.blocks b).currentPageOffset ∧ ret = b ∧ s' = s.setState b .blkUsed ∨
          (s.blocks b).currentPageOffset = 0 ∧
            writeHdr env (b * env.pagesPerBlock) .nandData (s.setState b .blkUsed) = .ok (ret, s')) := by
  obtain ⟨target, s₁, he₁, he⟩ := bind_ok.mp he
  obtain ⟨hfree, s₂, he₂, rfl⟩ := withLock_ok he₁
  obtain ⟨_, s₃, he₃, he₂⟩ := bind_ok.mp he₂
  obtain rfl := checkOrder_ok he₃
  rw [get_bind_ok] at he₂
  obtain ⟨rfl, rfl⟩ := pure_ok.mp he₂
  rw [lock_back hfree] at he
  have hpick : getHealthyBlock env.toGeometry (s.lock .listLock true) =
      getHealthyBlock env.toGeometry s := rfl
  rw [hpick] at he
  cases hb : getHealthyBlock env.toGeometry s with
  | none =>
    rw [hb] at he
    obtain ⟨rfl, rfl⟩ := pure_ok.mp he
    exact .inl ⟨rfl, rfl, rfl⟩
  | some b =>
    rw [hb] at he
    obtain ⟨_, s₄, he₄, he⟩ := bind_ok.mp he
    obtain rfl := modify_ok.mp he₄
    have hofs : ((s.setState b .blkUsed).blocks b).currentPageOffset =
        (s.blocks b).currentPageOffset := by
      rw [Config.setState, Config.modifyBlk_self]
    rw [get_bind_ok, hofs, Serial.reservedPgCnt] at he
    refine .inr ⟨b, rfl, ?_⟩
    split at he
    · next h0 =>
      have h0 : (s.blocks b).currentPageOffset = 0 := Nat.lt_one_iff.mp h0
      rw [h0, Nat.add_zero] at he
      exact .inr ⟨h0, he⟩
    · next h0 =>
      obtain ⟨rfl, rfl⟩ := pure_ok.mp he
      exact .inl ⟨by omega, rfl, rfl⟩

/-! ## The hash table -/

/-- The body of the loop of `hash_add`, with `fuel = HASH_SIZE - 1 - count`. -/
def addLoop (n : ℕ) (key : CStr) (index : ℕ) :
    ℕ → ℕ → (ℕ → Bucket) → Option ℕ × (ℕ → Bucket)
  | fuel, i, t =>
      if (t i).pState = .pgFree then
        (some i, Function.update t i { t i with pState := .pgValid, key := key, index := index })
      else
        let t' := Function.update t i { t i with dirty := true }
        match fuel with
        | 0 => (none, t')
        | fuel + 1 => addLoop n key index fuel ((i + 1) % n) t'

/-- `hash_add`: the slot taken; none for `-1`. `strcpy` into `char key[88]`. -/
def hashAdd (g : Geometry) (key : CStr) (index : ℕ) : Kernel (Option ℕ) := do
  if keyRoom ≤ key.len then throw .overflow
  else
    let s ← get
    let (slot, t) :=
      addLoop (hashSlots g) key index (hashSlots g - 1) (Serial.home key % hashSlots g) s.hashtable
    modify fun s => { s with hashtable := t }
    pure slot

/-- The loop of `hash_search`, with `fuel = HASH_SIZE - 1 - counter`. -/
def searchLoop (n : ℕ) (t : ℕ → Bucket) (key : CStr) : ℕ → ℕ → Option ℕ
  | 0, _ => none
  | fuel + 1, i =>
      if (t i).pState = .pgValid ∧ (t i).key = key then some i
      else if (t i).dirty = false then none
      else searchLoop n t key fuel ((i + 1) % n)

/-- `hash_search`: the slot of the key; none for a negative code. -/
def hashSearch (g : Geometry) (t : ℕ → Bucket) (key : CStr) : Option ℕ :=
  searchLoop (hashSlots g) t key (hashSlots g - 1) (Serial.home key % hashSlots g)

theorem hashSlots_pos (g : Geometry) : 0 < hashSlots g :=
  Nat.mul_pos (Nat.sub_pos_of_lt g.two_le_pagesPerBlock) g.nbBlocks_pos

theorem searchLoop_some {n : ℕ} {t : ℕ → Bucket} {key : CStr} {h : ℕ} (hn : 0 < n) :
    ∀ {fuel i : ℕ}, i < n → searchLoop n t key fuel i = some h →
      h < n ∧ (t h).pState = .pgValid ∧ (t h).key = key
  | 0, _, _, he => by cases he
  | fuel + 1, i, hi, he => by
    rw [searchLoop] at he
    split at he
    · next hfound =>
      obtain rfl := Option.some.inj he
      exact ⟨hi, hfound⟩
    · split at he
      · cases he
      · exact searchLoop_some hn (Nat.mod_lt _ hn) he

/-- A search that succeeds has found a valid bucket with the key. -/
theorem hashSearch_some {g : Geometry} {t : ℕ → Bucket} {key : CStr} {h : ℕ}
    (he : hashSearch g t key = some h) :
    h < hashSlots g ∧ (t h).pState = .pgValid ∧ (t h).key = key :=
  searchLoop_some (hashSlots_pos g) (Nat.mod_lt _ (hashSlots_pos g)) he

/-! ## Invalidating a page -/

/-- Some block's list links bucket `h`. -/
def onList (g : Geometry) (s : Config) (h : ℕ) : Bool :=
  (List.range g.nbBlocks).any fun b => (s.blocks b).list.contains h

/-- The configuration that `invalid_pg` leaves. -/
def Config.dropped (g : Geometry) (s : Config) (h : ℕ) : Config :=
  let s' : Config :=
    { s.modifyBlk (s.blkOf g h) fun i => { i with nbInvalid := i.nbInvalid + 1 } with
      hashtable := Function.update s.hashtable h { s.hashtable h with pState := .pgFree } }
  { s' with blocks := fun b => { s'.blocks b with list := (s'.blocks b).list.erase h } }

/-- `invalid_pg`. -/
def invalidPg (g : Geometry) (h : ℕ) : Kernel PUnit := do
  let s ← get
  if g.nbBlocks ≤ s.blkOf g h then throw .outOfBounds
  else if onList g s h = false then throw .poisonedList
  else modify fun s => s.dropped g h

theorem invalidPg_ok {g : Geometry} {s s' : Config} {h : ℕ} {u : PUnit}
    (he : invalidPg g h s = .ok (u, s')) :
    s.blkOf g h < g.nbBlocks ∧ onList g s h = true ∧ s' = s.dropped g h := by
  rw [invalidPg, get_bind_ok] at he
  split at he
  · cases he
  · next hb =>
    split at he
    · cases he
    · next hl => exact ⟨not_le.mp hb, eq_true_of_ne_false hl, (modify_ok.mp he).symm⟩

end LkpProjects.Parallel
