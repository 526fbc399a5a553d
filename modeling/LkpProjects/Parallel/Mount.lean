import LkpProjects.Parallel.Store

/-! # The parallel store: loading the module

`init_config` allocates the two areas with their first content, `init_scan` copies the metadata pages on
the flash over them and then builds the rest of the configuration: the blocks' lists from the valid
buckets, and the read-only flags. What an area holds is a table that the compiler lays out as its pages.
The test for a block record of ones (flash that was erased) has no counterpart: such a word is no state,
and pages that were written as records never hold it.
-/
namespace LkpProjects.Parallel
open Nand
open Serial (Geometry)
set_option autoImplicit false

/-- The loop of `init_scan` over the hash table: each valid bucket goes to the list of its page's block. -/
def addLists (g : Geometry) (table : ℕ → Bucket) (blocks : ℕ → BlkInfo) : ℕ → BlkInfo :=
  (List.range (hashSlots g)).foldl
    (fun blocks h =>
      if (table h).pState = .pgValid then
        let b := (table h).index / g.pagesPerBlock
        Function.update blocks b { blocks b with list := h :: (blocks b).list }
      else blocks)
    fun b => { blocks b with list := [] }

/-- The configuration that `init_scan` leaves, its areas holding `blocks` and `table`. -/
def Config.loaded (g : Geometry) (h : History) (metaBlkordr : ℕ → Option ℕ) (blocks : ℕ → BlkInfo)
    (table : ℕ → Bucket) : Config :=
  let s : Config := { Config.start with
    blocks := addLists g table blocks
    hashtable := table
    metaBlkordr := metaBlkordr
    mtd := h
    saved := table }
  { s with readOnly := isReadOnly g s, metaReadOnly := isReadOnly g s }

/-- Loading the module on a flash with history `h`, whose headers rank the metadata blocks as `ord` and whose
block records are `blocks`. -/
def Mounts (env : Env) (h : History) (ord : ℕ → Option ℕ) (blocks : ℕ → BlkInfo) (s : Config) : Prop :=
  ∃ t table,
    initScan env h (env.blkPage Config.start.blocks) (env.hashPage Config.start.hashtable) = .ok t ∧
    t.metaBlkordr = ord ∧
    (∀ p < blkPgs env.toGeometry, env.blkPage blocks p = t.blkArea p) ∧
    (∀ p < hsPgs env.toGeometry, env.hashPage table p = t.hashArea p) ∧
    (∀ i < hashSlots env.toGeometry, (table i).pState = .pgValid →
      (table i).index / env.pagesPerBlock < env.nbBlocks) ∧
    s = .loaded env.toGeometry h ord blocks table

/-- Building the lists leaves the rest of the block records as it was read. -/
theorem addLists_same (g : Geometry) (table : ℕ → Bucket) (blocks : ℕ → BlkInfo) (b : ℕ) :
    (addLists g table blocks b).currentPageOffset = (blocks b).currentPageOffset ∧
      (addLists g table blocks b).worn = (blocks b).worn := by
  have hfold : ∀ f : (ℕ → BlkInfo) → ℕ → ℕ → BlkInfo, (∀ bs h c,
      (f bs h c).currentPageOffset = (bs c).currentPageOffset ∧ (f bs h c).worn = (bs c).worn) →
      ∀ (hs : List ℕ) (bs : ℕ → BlkInfo), (hs.foldl f bs b).currentPageOffset = (bs b).currentPageOffset ∧
        (hs.foldl f bs b).worn = (bs b).worn := by
    intro f hf hs
    induction hs with
    | nil => exact fun _ => ⟨rfl, rfl⟩
    | cons h hs ih => exact fun bs => ⟨(ih _).1.trans (hf bs h b).1, (ih _).2.trans (hf bs h b).2⟩
  refine hfold _ (fun bs h c => ?_) (List.range (hashSlots g)) fun b => { blocks b with list := [] }
  split
  · by_cases hc : c = (table h).index / g.pagesPerBlock
    · subst hc
      simp only [Function.update_self, and_self]
    · simp only [Function.update_of_ne hc, and_self]
  · exact ⟨rfl, rfl⟩

end LkpProjects.Parallel
