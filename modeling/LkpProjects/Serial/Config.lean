import LkpProjects.Library.Bytes

/-! # The serial key-value store: its data

The types of `p6/prototype-serial/kernel` (`core.h`, `hash.h`): block states, the per-block record
`blk_info`, the hash bucket, and the global `config`. Arrays are functions from their index, a list
of buckets (`blk_info.list`, linked through `bucket.p_list`) is the list of their slots, newest first,
and an `int` that holds `-1` for "none" is an `Option`. The flash behind `config.mtd` is the history
of the driver's operations on it.

What the module does not control is in `Env`: the outcome of each driver call, and the bytes of
memory that it reads without having written them.
-/
namespace LkpProjects.Serial
open Nand Bytes
set_option autoImplicit false

/-! ## Geometry -/

/-- The flash partition as `init_config` reads it from the driver. The store keeps a header page in
each block, divides by `pages_per_block - 1`, reads two `int`s from a header, and keeps the page size
and the number of hash slots in an `int`. -/
structure Geometry where
  nbBlocks : ℕ
  pagesPerBlock : ℕ
  pageSize : ℕ
  nbBlocks_pos : 0 < nbBlocks
  two_le_pagesPerBlock : 2 ≤ pagesPerBlock
  eight_le_pageSize : 8 ≤ pageSize
  hashSize_lt : nbBlocks * pagesPerBlock < 2 ^ 31
  pageSize_lt : pageSize < 2 ^ 31

namespace Geometry

/-- The partition with these numbers. -/
def ofSizes (nbBlocks pagesPerBlock pageSize : ℕ)
    (h : 0 < nbBlocks ∧ 2 ≤ pagesPerBlock ∧ 8 ≤ pageSize ∧ nbBlocks * pagesPerBlock < 2 ^ 31 ∧
      pageSize < 2 ^ 31) : Geometry :=
  ⟨nbBlocks, pagesPerBlock, pageSize, h.1, h.2.1, h.2.2.1, h.2.2.2.1, h.2.2.2.2⟩

variable (g : Geometry)

/-- `hash_size`: one slot for each page of the flash. -/
def hashSize : ℕ := g.nbBlocks * g.pagesPerBlock

/-- `sizeof(blk_info)`: a pointer, the state and three counters. -/
def sizeofBlkInfo : ℕ := 24

/-- `sizeof(bucket)`: two list pointers, two `int`s, 128 key bytes, the page state, padding, and a
pointer. -/
def sizeofBucket : ℕ := 168

def blockInfoSize : ℕ := sizeofBlkInfo * g.nbBlocks
def hashtableSize : ℕ := sizeofBucket * g.hashSize
def metadataSize : ℕ := g.hashtableSize + g.blockInfoSize
def nbMetaPages : ℕ := g.metadataSize / g.pageSize + 1
def nbMetaBlocks : ℕ := g.nbMetaPages / (g.pagesPerBlock - 1) + 1

end Geometry

/-! ## Pages and blocks as numbers -/

namespace Geometry
variable (g : Geometry)

theorem pagesPerBlock_pos : 0 < g.pagesPerBlock :=
  Nat.lt_of_lt_of_le Nat.zero_lt_two g.two_le_pagesPerBlock

theorem hashSize_pos : 0 < g.hashSize :=
  Nat.mul_pos g.nbBlocks_pos (Nat.lt_of_lt_of_le Nat.zero_lt_two g.two_le_pagesPerBlock)

theorem two_le_hashSize : 2 ≤ g.hashSize :=
  Nat.le_trans g.two_le_pagesPerBlock (Nat.le_mul_of_pos_left _ g.nbBlocks_pos)

variable {g} {b c o o' p : ℕ}

theorem page_div (ho : o < g.pagesPerBlock) : (b * g.pagesPerBlock + o) / g.pagesPerBlock = b := by
  rw [Nat.mul_comm, Nat.mul_add_div g.pagesPerBlock_pos, Nat.div_eq_of_lt ho, Nat.add_zero]

theorem page_mod (ho : o < g.pagesPerBlock) : (b * g.pagesPerBlock + o) % g.pagesPerBlock = o := by
  rw [Nat.mul_comm, Nat.mul_add_mod, Nat.mod_eq_of_lt ho]

/-- A page number tells the block and the offset. -/
theorem page_inj (ho : o < g.pagesPerBlock) (ho' : o' < g.pagesPerBlock)
    (he : b * g.pagesPerBlock + o = c * g.pagesPerBlock + o') : b = c ∧ o = o' := by
  have hdiv := page_div (b := b) ho
  have hmod := page_mod (b := b) ho
  rw [he, page_div ho'] at hdiv
  rw [he, page_mod ho'] at hmod
  exact ⟨hdiv.symm, hmod.symm⟩

theorem page_eq (p : ℕ) : p / g.pagesPerBlock * g.pagesPerBlock + p % g.pagesPerBlock = p := by
  rw [Nat.mul_comm]
  exact Nat.div_add_mod p g.pagesPerBlock

theorem page_lt (hb : b < g.nbBlocks) (ho : o < g.pagesPerBlock) :
    b * g.pagesPerBlock + o < g.hashSize := by
  have h : (b + 1) * g.pagesPerBlock ≤ g.nbBlocks * g.pagesPerBlock := Nat.mul_le_mul_right _ hb
  rw [Nat.succ_mul] at h
  unfold hashSize
  omega

/-- The pages of a block. -/
theorem mem_block_iff :
    (b * g.pagesPerBlock ≤ p ∧ p < b * g.pagesPerBlock + g.pagesPerBlock) ↔
      p / g.pagesPerBlock = b := by
  constructor
  · rintro ⟨h1, h2⟩
    have hp : p = b * g.pagesPerBlock + (p - b * g.pagesPerBlock) := by omega
    rw [hp]
    exact page_div (by omega)
  · rintro rfl
    have := page_eq (g := g) p
    have := Nat.mod_lt p g.pagesPerBlock_pos
    omega

/-- A page written to one block leaves the pages of another as they were. -/
theorem programmed_program_block {mtd : History} {data : List Byte} (ho : o < g.pagesPerBlock)
    (ho' : o' < g.pagesPerBlock) (hc : c ≠ b) :
    programmed (.program (b * g.pagesPerBlock + o) data :: mtd) (c * g.pagesPerBlock + o') =
      programmed mtd (c * g.pagesPerBlock + o') :=
  programmed_program_ne fun he => hc (page_inj ho' ho he).1

end Geometry

/-! ## Blocks, buckets, configuration -/

inductive BlkState where
  | blkFree
  | blkUsed
  | blkMeta
  | blkInvalid
  deriving DecidableEq, Repr

/-- The value of the enumeration constant. -/
def BlkState.code : BlkState → ℕ
  | .blkFree => 0
  | .blkUsed => 1
  | .blkMeta => 2
  | .blkInvalid => 3

inductive PageState where
  | pgFree
  | pgValid
  deriving DecidableEq, Repr

def PageState.code : PageState → ℕ
  | .pgFree => 0
  | .pgValid => 1

/-- `blk_info`. -/
structure BlkInfo where
  list : List ℕ
  state : BlkState
  worn : ℕ
  nbInvalid : ℕ
  currentPageOffset : ℕ

/-- `bucket`, without the list links (kept in `BlkInfo.list`) and the unused `b_state`. -/
structure Bucket where
  dirty : Bool
  index : ℕ
  key : CStr
  pState : PageState

/-- `lkp_kv_cfg`, the fields that change while the module is loaded. -/
structure Config where
  blocks : ℕ → BlkInfo
  hashtable : ℕ → Bucket
  metaBlkordr : ℕ → Option ℕ
  readOnly : Bool
  mtd : History

/-! ## The environment -/

/-- How an erase request ends: `_erase` refuses it, the callback reports a failure, or it is done. -/
inductive EraseResult where
  | refused
  | failed
  | done
  deriving DecidableEq

/-- The flash, its driver, and memory. `outside` is the page that the driver takes a page number below 0
for, if it does not refuse it. `keyBuf` is what `kmalloc` returns for the key buffer of
`move_pages_to_other_block`, `metaBuf` what lies in and behind the metadata buffer where no `memcpy` has
written, `padding` the pointer and padding bytes of the structures copied into it. The memory that
`kmalloc` returns for the metadata buffer holds `metaRoom` pages: it rounds the size up. -/
structure Env extends Geometry where
  eraseResult : History → ℕ → ℕ → EraseResult
  writeOk : History → ℕ → Bool
  readOk : History → ℕ → Bool
  outside : ℤ → Option ℕ
  keyBuf : History → ℕ → Byte
  metaBuf : History → ℕ → Byte
  padding : History → ℕ → Byte
  metaRoom : ℕ
  nbMetaPages_le : toGeometry.nbMetaPages ≤ metaRoom

/-- A mount of `nb_meta_blocks` metadata blocks reads no further than that memory goes. -/
def Env.RoomToMount (env : Env) : Prop := env.nbMetaBlocks * (env.pagesPerBlock - 1) ≤ env.metaRoom

instance (env : Env) : Decidable env.RoomToMount := inferInstanceAs (Decidable (_ ≤ _))

/-- No call of the driver reports an error. -/
structure Env.NoDriverError (env : Env) : Prop where
  erase : ∀ h first count, env.eraseResult h first count = .done
  write : ∀ h p, env.writeOk h p = true
  read : ∀ h p, env.readOk h p = true

/-- Where the module stops being a program: a kernel oops, `BUG()`, or memory used out of bounds. -/
inductive Fault where
  /-- `list_del` on a bucket that is on no list, or a walk over one. -/
  | poisonedList
  /-- `config.blocks[-1]`, `config.hashtable[-1]`, or an index from flash past the end. -/
  | outOfBounds
  /-- A copy past the end of its buffer. -/
  | overflow
  /-- A string read on past the end of its allocation. -/
  | unterminated
  /-- `BUG()`. -/
  | bug
  /-- Metadata loaded from flash holds bytes that are no value of their type. -/
  | torn
  deriving DecidableEq, Repr

/-! ## Updating the configuration -/

namespace Config

/-- Change the record of one block. -/
def modifyBlk (s : Config) (b : ℕ) (f : BlkInfo → BlkInfo) : Config :=
  { s with blocks := Function.update s.blocks b (f (s.blocks b)) }

/-- `config.blocks[b].state = st`. -/
def setState (s : Config) (b : ℕ) (st : BlkState) : Config :=
  s.modifyBlk b fun i => { i with state := st }

/-- `list_add(&config.hashtable[h].p_list, config.blocks[b].list)`. -/
def listAdd (s : Config) (b h : ℕ) : Config :=
  s.modifyBlk b fun i => { i with list := h :: i.list }

variable (s : Config) (b c h : ℕ) (f : BlkInfo → BlkInfo) (st : BlkState)

@[simp] theorem modifyBlk_hashtable : (s.modifyBlk b f).hashtable = s.hashtable := rfl
@[simp] theorem modifyBlk_metaBlkordr : (s.modifyBlk b f).metaBlkordr = s.metaBlkordr := rfl
@[simp] theorem modifyBlk_readOnly : (s.modifyBlk b f).readOnly = s.readOnly := rfl
@[simp] theorem modifyBlk_mtd : (s.modifyBlk b f).mtd = s.mtd := rfl

@[simp] theorem modifyBlk_blocks_self : (s.modifyBlk b f).blocks b = f (s.blocks b) := by
  simp [modifyBlk]

theorem modifyBlk_blocks_ne {s : Config} {b c : ℕ} {f : BlkInfo → BlkInfo} (h : c ≠ b) :
    (s.modifyBlk b f).blocks c = s.blocks c := Function.update_of_ne h _ _

theorem modifyBlk_blocks : (s.modifyBlk b f).blocks c = if c = b then f (s.blocks b) else s.blocks c := by
  by_cases hc : c = b
  · subst hc
    simp
  · rw [modifyBlk_blocks_ne hc, if_neg hc]

end Config

end LkpProjects.Serial
