import LkpProjects.Serial.Metadata

/-! # The serial store: the metadata buffer

`init_scan` and `flush_metadata` allocate `nb_meta_pages` pages for the metadata and go through them
block by block, `pages_per_block - 1` pages in each of up to `nb_meta_blocks` blocks. The last block is
always gone through to its end, so a loop that runs over all blocks leaves the buffer, whatever the
geometry and the sizes of the structures.
-/
namespace LkpProjects.Serial
set_option autoImplicit false

/-- What the two sizes are computed from. -/
structure Sizes where
  nbBlocks : ℕ
  pagesPerBlock : ℕ
  pageSize : ℕ
  sizeofBlkInfo : ℕ
  sizeofBucket : ℕ
  nbBlocks_pos : 1 ≤ nbBlocks
  two_le_pagesPerBlock : 2 ≤ pagesPerBlock
  pageSize_pos : 0 < pageSize

namespace Sizes

def ofNumbers (nbBlocks pagesPerBlock pageSize sizeofBlkInfo sizeofBucket : ℕ)
    (h : 1 ≤ nbBlocks ∧ 2 ≤ pagesPerBlock ∧ 0 < pageSize) : Sizes :=
  ⟨nbBlocks, pagesPerBlock, pageSize, sizeofBlkInfo, sizeofBucket, h.1, h.2.1, h.2.2⟩

variable (z : Sizes)

/-- `hashtable_size + block_info_size`. -/
def metadataSize : ℕ :=
  z.sizeofBucket * z.nbBlocks * z.pagesPerBlock + z.sizeofBlkInfo * z.nbBlocks

def nbMetaPages : ℕ := z.metadataSize / z.pageSize + 1
def nbMetaBlocks : ℕ := z.nbMetaPages / (z.pagesPerBlock - 1) + 1

/-- The values of `offset` in two nested loops over `blocks` blocks, from `offset` on. -/
def offsetLoop : ℕ → ℕ → List ℕ
  | 0, _ => []
  | blocks + 1, offset =>
      List.range' offset (z.pagesPerBlock - 1) ++ offsetLoop blocks (offset + (z.pagesPerBlock - 1))

/-- The page offsets at which `init_scan` reads into its buffer, `cnt` metadata blocks found. -/
def readOffsets (cnt : ℕ) : List ℕ := z.offsetLoop cnt 0

/-- The page offsets at which `flush_metadata` writes from its buffer. -/
def writeOffsets : List ℕ := z.offsetLoop z.nbMetaBlocks 0

theorem dataPages_pos : 0 < z.pagesPerBlock - 1 := Nat.sub_pos_of_lt z.two_le_pagesPerBlock

theorem offsetLoop_eq : ∀ blocks offset : ℕ,
    z.offsetLoop blocks offset = List.range' offset (blocks * (z.pagesPerBlock - 1))
  | 0, _ => by rw [offsetLoop, Nat.zero_mul, List.range'_zero]
  | blocks + 1, offset => by
    rw [offsetLoop, offsetLoop_eq blocks, List.range'_append_1, Nat.succ_mul, Nat.add_comm]

/-- The pages of all blocks are more than the buffer has. -/
theorem nbMetaPages_lt : z.nbMetaPages < z.nbMetaBlocks * (z.pagesPerBlock - 1) := by
  rw [nbMetaBlocks, Nat.succ_mul]
  exact Nat.lt_div_mul_add z.dataPages_pos

/-- One block less is within it. -/
theorem le_nbMetaPages {cnt : ℕ} (h : cnt < z.nbMetaBlocks) :
    cnt * (z.pagesPerBlock - 1) ≤ z.nbMetaPages :=
  (Nat.mul_le_mul_right _ (Nat.le_of_lt_succ h)).trans (Nat.div_mul_le_self _ _)

/-- The first `n` rounds of a loop over `blocks` blocks stay in the buffer. -/
theorem take_offsets_lt_iff {blocks n : ℕ} :
    (∀ o ∈ (z.offsetLoop blocks 0).take n, o < z.nbMetaPages) ↔
      min n (blocks * (z.pagesPerBlock - 1)) ≤ z.nbMetaPages := by
  rw [offsetLoop_eq, ← List.range_eq_range', List.take_range]
  constructor
  · intro h
    by_contra hlt
    exact Nat.lt_irrefl _ (h z.nbMetaPages (List.mem_range.mpr (not_le.mp hlt)))
  · exact fun h o ho => (List.mem_range.mp ho).trans_le h

/-- The read loop of `init_scan` stays in its buffer exactly if it finds less than `nb_meta_blocks`
blocks or leaves early, the write loop of `flush_metadata` exactly if it leaves early: each in one of its
first `nb_meta_pages` rounds. -/
theorem offsets_lt_iff {cnt : ℕ} (hcnt : cnt ≤ z.nbMetaBlocks) (n m : ℕ) :
    ((∀ o ∈ (z.readOffsets cnt).take n, o < z.nbMetaPages) ↔
        cnt < z.nbMetaBlocks ∨ n ≤ z.nbMetaPages) ∧
      ((∀ o ∈ z.writeOffsets.take m, o < z.nbMetaPages) ↔ m ≤ z.nbMetaPages) ∧
      ¬ ∀ o ∈ z.writeOffsets, o < z.nbMetaPages := by
  have hall := z.nbMetaPages_lt
  refine ⟨?_, ?_, fun h => ?_⟩
  · rw [readOffsets, take_offsets_lt_iff]
    obtain hlt | rfl := Nat.lt_or_eq_of_le hcnt
    · have := z.le_nbMetaPages hlt
      omega
    · omega
  · rw [writeOffsets, take_offsets_lt_iff]
    omega
  · have hmem : z.nbMetaPages ∈ z.writeOffsets := by
      rw [writeOffsets, offsetLoop_eq, ← List.range_eq_range']
      exact List.mem_range.mpr hall
    exact Nat.lt_irrefl _ (h _ hmem)

/-- Four blocks of four pages of 2048 bytes: the metadata fills 2 pages, a block has 3. -/
def fourBlocks : Sizes := .ofNumbers 4 4 2048 24 168 (by decide)

theorem offsets_lt_one_block : 1 ≤ fourBlocks.nbMetaBlocks ∧
    ((∀ o ∈ (fourBlocks.readOffsets 1).take 2, o < fourBlocks.nbMetaPages) ↔
      1 < fourBlocks.nbMetaBlocks ∨ 2 ≤ fourBlocks.nbMetaPages) :=
  ⟨by decide, (fourBlocks.offsets_lt_iff (by decide) 2 0).1⟩

end Sizes

/-! ## The sizes of the store -/

/-- The sizes that `init_scan` computes with on a flash of this geometry. -/
def Geometry.sizes (g : Geometry) : Sizes where
  nbBlocks := g.nbBlocks
  pagesPerBlock := g.pagesPerBlock
  pageSize := g.pageSize
  sizeofBlkInfo := Geometry.sizeofBlkInfo
  sizeofBucket := Geometry.sizeofBucket
  nbBlocks_pos := g.nbBlocks_pos
  two_le_pagesPerBlock := g.two_le_pagesPerBlock
  pageSize_pos := Nat.lt_of_lt_of_le (by decide) g.eight_le_pageSize

theorem Geometry.sizes_nbMetaPages (g : Geometry) : g.sizes.nbMetaPages = g.nbMetaPages := by
  rw [Sizes.nbMetaPages, Sizes.metadataSize, nbMetaPages, metadataSize, hashtableSize, hashSize,
    ← Nat.mul_assoc]
  rfl

theorem Geometry.sizes_nbMetaBlocks (g : Geometry) : g.sizes.nbMetaBlocks = g.nbMetaBlocks := by
  rw [Sizes.nbMetaBlocks, sizes_nbMetaPages]
  rfl

/-- The pages that the write loop of `flush_metadata` takes from its buffer. -/
theorem metaWrites_offsets (env : Env) (snap : Config) (ord : ℕ → ℕ) :
    (List.range env.nbMetaBlocks).flatMap (fun i => (metaWrites env snap i (ord i)).map Prod.snd) =
      env.sizes.writeOffsets.map (metaPage env snap) := by
  have hblocks : ∀ n, (List.range n).flatMap
      (fun i => (metaWrites env snap i (ord i)).map Prod.snd) =
        (List.range (n * (env.pagesPerBlock - 1))).map (metaPage env snap) := by
    intro n
    induction n with
    | zero => simp
    | succ n ih =>
      rw [List.range_succ, List.flatMap_append, ih, Nat.succ_mul, List.range_add, List.map_append,
        List.flatMap_singleton, metaWrites, List.map_map, List.map_map]
      rfl
  rw [hblocks, Sizes.writeOffsets, Sizes.offsetLoop_eq, Geometry.sizes_nbMetaBlocks,
    ← List.range_eq_range']
  rfl

/-- The loops leave the buffer on four blocks, and in every flush that runs to its end the write loop takes
more pages than the buffer has. -/
theorem Sizes.offsets_past_buffer :
    (¬ ∀ (z : Sizes) (cnt : ℕ), cnt ≤ z.nbMetaBlocks →
      (∀ o ∈ z.readOffsets cnt, o < z.nbMetaPages) ∧ ∀ o ∈ z.writeOffsets, o < z.nbMetaPages) ∧
    ∀ (env : Env) (snap : Config) (ord : ℕ → ℕ), ∃ n, env.nbMetaPages < n ∧
      (List.range env.nbMetaBlocks).flatMap (fun i => (metaWrites env snap i (ord i)).map Prod.snd) =
        (List.range n).map (metaPage env snap) := by
  refine ⟨fun h => ?_, fun env snap ord => ?_⟩
  · have hlast := (h fourBlocks 1 (by decide)).2 2 (by decide)
    revert hlast
    decide
  · refine ⟨env.sizes.nbMetaBlocks * (env.pagesPerBlock - 1), ?_, ?_⟩
    · rw [← Geometry.sizes_nbMetaPages]
      exact env.sizes.nbMetaPages_lt
    · rw [metaWrites_offsets, writeOffsets, offsetLoop_eq, ← List.range_eq_range']
      rfl

end LkpProjects.Serial
