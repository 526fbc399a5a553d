import LkpProjects.Serial.Keyval
import LkpProjects.Library.Hoare

/-! # The parallel key-value store: its data

The types of `p6/prototype-parallel/kernel` (`core.h`, `hash.h`) and its globals: `config` and
`meta_config` (which share their block records), the hash table, `meta_blkordr`, the two atomic flags,
the static counters, and the three spinlocks. The conventions are those of the serial store, whose
geometry and buffer functions are used again; a program works on the globals (`Kernel`).

A call is followed on one processor with nothing running beside it, so a lock that is found held is
never released.
-/
namespace LkpProjects.Parallel
open Nand Bytes Hoare
open Serial (Geometry PageState EraseResult)
set_option autoImplicit false

/-! ## Sizes -/

section Sizes
variable (g : Geometry)

/-- `HASH_SIZE`: one slot for each page that is not a header. -/
def hashSlots : ℕ := (g.pagesPerBlock - 1) * g.nbBlocks

/-- `sizeof(blk_info)`. -/
def sizeofBlkInfo : ℕ := 24

/-- `sizeof(bucket)`: two list pointers, three `int`s, padding, a pointer, 88 key bytes. -/
def sizeofBucket : ℕ := 128

/-- The pages that the block records fill, rounded up. -/
def blkPgs : ℕ := sizeofBlkInfo * g.nbBlocks / g.pageSize + 1

/-- The pages that the hash table fills, rounded up. -/
def hsPgs : ℕ := sizeofBucket * hashSlots g / g.pageSize + 1

/-- `nb_pages` in `flush_metadata`: `metadata_size / page_size`. -/
def nbPages : ℕ := blkPgs g + hsPgs g

/-- `nb_blocks` in `flush_metadata`, `is_read_only` and `init_scan`. -/
def nbMetaBlocks : ℕ := nbPages g / g.pagesPerBlock + 1

/-- `nb_blocks` in `get_healthy_block` and `gc`, which count one page more. -/
def nbProbed : ℕ := (nbPages g + 1) / g.pagesPerBlock + 1

/-- `MAX_META_BLK`, the length of `meta_blkordr`. -/
def maxMetaBlk : ℕ := 100

/-- The length of a bucket's key array. -/
def keyRoom : ℕ := 88

end Sizes

/-! ## Blocks, buckets, locks -/

inductive BlkState where
  | blkFree
  | blkUsed
  deriving DecidableEq, Repr

/-- `blk_info`. -/
structure BlkInfo where
  list : List ℕ
  state : BlkState
  worn : ℕ
  nbInvalid : ℕ
  currentPageOffset : ℕ

/-- `bucket`, without the list links (kept in `BlkInfo.list`) and the unused `b_state`. -/
structure Bucket where
  dirty : Bool
  index : ℕ
  key : CStr
  pState : PageState

inductive Lock where
  | oneLock
  | listLock
  | eraseLock
  deriving DecidableEq, Repr

/-- The globals that change while the module is loaded. `saved` is the hash table that the last
`flush_metadata` wrote to flash; no function reads it. -/
structure Config where
  blocks : ℕ → BlkInfo
  hashtable : ℕ → Bucket
  metaBlkordr : ℕ → Option ℕ
  readOnly : Bool
  metaReadOnly : Bool
  mtd : History
  recentUpdate : Bool
  isGb : Bool
  isFlush : Bool
  flushCnt : ℕ
  writeCnt : ℕ
  locks : Lock → Bool
  saved : ℕ → Bucket

/-! ## The environment -/

/-- The flash, its driver, and the layout of the two metadata areas in memory: the bytes of their
pages, pointers and padding included, are the compiler's and the allocator's. -/
structure Env extends Geometry where
  eraseResult : History → ℕ → ℕ → EraseResult
  writeOk : History → ℕ → Bool
  readOk : History → ℕ → Bool
  blkPage : (ℕ → BlkInfo) → ℕ → List Byte
  hashPage : (ℕ → Bucket) → ℕ → List Byte
  blkPage_length : ∀ blocks p, (blkPage blocks p).length = pageSize
  hashPage_length : ∀ table p, (hashPage table p).length = pageSize

/-- No call of the driver reports an error. -/
structure Env.NoDriverError (env : Env) : Prop where
  erase : ∀ h first count, env.eraseResult h first count = .done
  write : ∀ h p, env.writeOk h p = true
  read : ∀ h p, env.readOk h p = true

/-- A driver without errors; memory is zero. -/
def Env.ideal (g : Geometry) : Env where
  toGeometry := g
  eraseResult _ _ _ := .done
  writeOk _ _ := true
  readOk _ _ := true
  blkPage _ _ := List.replicate g.pageSize 0
  hashPage _ _ := List.replicate g.pageSize 0
  blkPage_length _ _ := List.length_replicate
  hashPage_length _ _ := List.length_replicate

theorem Env.ideal_noDriverError (g : Geometry) : (Env.ideal g).NoDriverError :=
  ⟨fun _ _ _ => rfl, fun _ _ => rfl, fun _ _ => rfl⟩

/-- Where a call does not return. -/
inductive Fault where
  /-- A spinlock that is held is waited for. -/
  | hang
  /-- `BUG()`. -/
  | bug
  /-- A string argument is `NULL`. -/
  | nullPointer
  /-- An array index that is negative or past the end. -/
  | outOfBounds
  /-- A copy past the end of its buffer. -/
  | overflow
  /-- `list_del` on a bucket that is on no list, or a walk over one. -/
  | poisonedList
  deriving DecidableEq, Repr

/-- A function of the module. -/
abbrev Kernel (α : Type) : Type := Prog Config Fault α

/-! ## Locks -/

/-- Lock `l` becomes held or free. -/
def Config.lock (s : Config) (l : Lock) (held : Bool) : Config :=
  { s with locks := Function.update s.locks l held }

section Lock
variable (s : Config) (l : Lock) (b : Bool)

@[simp] theorem lock_blocks : (s.lock l b).blocks = s.blocks := rfl
@[simp] theorem lock_hashtable : (s.lock l b).hashtable = s.hashtable := rfl
@[simp] theorem lock_metaBlkordr : (s.lock l b).metaBlkordr = s.metaBlkordr := rfl
@[simp] theorem lock_readOnly : (s.lock l b).readOnly = s.readOnly := rfl
@[simp] theorem lock_metaReadOnly : (s.lock l b).metaReadOnly = s.metaReadOnly := rfl
@[simp] theorem lock_mtd : (s.lock l b).mtd = s.mtd := rfl
@[simp] theorem lock_recentUpdate : (s.lock l b).recentUpdate = s.recentUpdate := rfl
@[simp] theorem lock_saved : (s.lock l b).saved = s.saved := rfl

theorem lock_locks : (s.lock l b).locks = Function.update s.locks l b := rfl

theorem locks_back {locks : Lock → Bool} {l : Lock} (hfree : locks l = false) :
    Function.update (Function.update locks l true) l false = locks := by
  rw [Function.update_idem, ← hfree, Function.update_eq_self]

/-- A lock that was free is taken and given back. -/
theorem lock_back {s : Config} {l : Lock} (hfree : s.locks l = false) :
    (s.lock l true).lock l false = s := by
  rw [Config.lock, lock_locks, locks_back hfree]
  rfl

theorem lock_unlock {s s' : Config} {l : Lock} (hfree : s.locks l = false)
    (h : s'.locks = (s.lock l true).locks) : (s'.lock l false).locks = s.locks := by
  rw [lock_locks, h, lock_locks, Function.update_idem, ← hfree, Function.update_eq_self]

end Lock

/-- `spin_lock_irqsave`. -/
def spinLock (l : Lock) : Kernel PUnit := do
  if (← get).locks l then throw .hang
  else modify fun s => s.lock l true

/-- `spin_unlock_irqrestore`. -/
def spinUnlock (l : Lock) : Kernel PUnit := modify fun s => s.lock l false

/-- `spin_trylock`: whether the lock was free. -/
def spinTrylock (l : Lock) : Kernel Bool := do
  if (← get).locks l then pure false
  else
    modify fun s => s.lock l true
    pure true

/-- A region between a lock and its unlock. -/
def withLock {α : Type} (l : Lock) (body : Kernel α) : Kernel α := do
  spinLock l
  let a ← body
  spinUnlock l
  pure a

theorem wp_spinLock {l : Lock} {Q : PUnit → Config → Prop} {E : Fault → Prop} {s : Config} :
    wp (spinLock l) Q E s ↔
      (s.locks l = true → E .hang) ∧ (s.locks l = false → Q ⟨⟩ (s.lock l true)) := by
  rw [spinLock, wp_bind, wp_get, wp_ite, wp_throw, wp_modify, Bool.not_eq_true]

theorem wp_spinTrylock {l : Lock} {Q : Bool → Config → Prop} {E : Fault → Prop} {s : Config} :
    wp (spinTrylock l) Q E s ↔
      (s.locks l = true → Q false s) ∧ (s.locks l = false → Q true (s.lock l true)) := by
  rw [spinTrylock, wp_bind, wp_get, wp_ite, wp_bind, wp_modify, wp_pure, wp_pure, Bool.not_eq_true]

theorem wp_withLock {α : Type} {l : Lock} {body : Kernel α} {Q : α → Config → Prop}
    {E : Fault → Prop} {s : Config} : wp (withLock l body) Q E s ↔ (s.locks l = true → E .hang) ∧
      (s.locks l = false → wp body (fun a s' => Q a (s'.lock l false)) E (s.lock l true)) := by
  rw [withLock, wp_bind, wp_spinLock]
  refine and_congr_right fun _ => imp_congr_right fun _ => ?_
  rw [wp_bind]
  exact Iff.rfl

theorem spinLock_ok {s s' : Config} {l : Lock} {u : PUnit} (he : spinLock l s = .ok (u, s')) :
    s.locks l = false ∧ s' = s.lock l true := by
  have h : wp (spinLock l) (fun _ s₂ => s.locks l = false ∧ s₂ = s.lock l true) (fun _ => True) s :=
    wp_spinLock.mpr ⟨fun _ => trivial, fun hf => ⟨hf, rfl⟩⟩
  exact h.of_ok he

theorem spinTrylock_ok {s s' : Config} {l : Lock} {got : Bool} (he : spinTrylock l s = .ok (got, s')) :
    got = false ∧ s' = s ∨ got = true ∧ s.locks l = false ∧ s' = s.lock l true := by
  have h : wp (spinTrylock l)
      (fun got s₂ => got = false ∧ s₂ = s ∨ got = true ∧ s.locks l = false ∧ s₂ = s.lock l true) (fun _ => True) s :=
    wp_spinTrylock.mpr ⟨fun _ => .inl ⟨rfl, rfl⟩, fun hf => .inr ⟨rfl, hf, rfl⟩⟩
  exact h.of_ok he

/-- A region that returned has run with the lock held. -/
theorem withLock_ok {α : Type} {l : Lock} {body : Kernel α} {a : α} {s s' : Config}
    (he : withLock l body s = .ok (a, s')) :
    s.locks l = false ∧ ∃ s₁, body (s.lock l true) = .ok (a, s₁) ∧ s' = s₁.lock l false := by
  obtain ⟨_, s₁, he₁, he⟩ := bind_ok.mp he
  obtain ⟨hfree, rfl⟩ := spinLock_ok he₁
  obtain ⟨b, s₂, he₂, he⟩ := bind_ok.mp he
  obtain ⟨_, s₃, he₃, he⟩ := bind_ok.mp he
  obtain rfl := modify_ok.mp he₃
  obtain ⟨rfl, rfl⟩ := pure_ok.mp he
  exact ⟨hfree, s₂, he₂, rfl⟩

/-! ## Updating the configuration -/

namespace Config

/-- The page state of bucket `h` is `PG_VALID`. -/
def Valid (g : Geometry) (s : Config) (h : ℕ) : Prop :=
  h < hashSlots g ∧ (s.hashtable h).pState = .pgValid

/-- The block of the page of bucket `h`. -/
def blkOf (g : Geometry) (s : Config) (h : ℕ) : ℕ := (s.hashtable h).index / g.pagesPerBlock

/-- Change the record of one block. -/
def modifyBlk (s : Config) (b : ℕ) (f : BlkInfo → BlkInfo) : Config :=
  { s with blocks := Function.update s.blocks b (f (s.blocks b)) }

/-- `blocks[b].state = st`. -/
def setState (s : Config) (b : ℕ) (st : BlkState) : Config :=
  s.modifyBlk b fun i => { i with state := st }

/-- `list_add(&hashtable[h].p_list, blocks[b].list)`. -/
def listAdd (s : Config) (b h : ℕ) : Config :=
  s.modifyBlk b fun i => { i with list := h :: i.list }

variable {s : Config} {b c : ℕ} {f : BlkInfo → BlkInfo}

theorem modifyBlk_self : (s.modifyBlk b f).blocks b = f (s.blocks b) := Function.update_self _ _ _

theorem modifyBlk_ne (h : c ≠ b) : (s.modifyBlk b f).blocks c = s.blocks c :=
  Function.update_of_ne h _ _

end Config

end LkpProjects.Parallel
