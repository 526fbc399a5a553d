import LkpProjects.Parallel.KeyRoom
import LkpProjects.Parallel.Room

/-! # The parallel store: hash table, lists, counters and pages agree

`Orderly` is what holds of them between two operations while no page has gone to a wrong block: a block's
list has the valid buckets whose pages lie in it, no two of these share a page, each page is behind the
header of a data block and written, and a data block has as many pages in use as its two counters say, the
others not programmed since its erase. What the pages hold is a parameter: `P key page` for each valid
bucket.

Each operation on the flash and the table is one lemma: a page is invalidated, a header or a record is
written, a block is erased, a metadata block is written to. Which blocks are data blocks is a parameter too
(`OrderlyOn`), since a flush has them change one by one.
-/
namespace LkpProjects.Parallel
open Nand Bytes Hoare
open Serial (Geometry HdrKind)
set_option autoImplicit false

/-! ## The invariant -/

/-- Block `b` is in no entry of `meta_blkordr`. -/
def Config.Unlisted (s : Config) (b : ℕ) : Prop := ∀ j, s.metaBlkordr j ≠ some b

/-- A data block: its counters tell how many pages are in use, and the others are erased. -/
structure BlockOk (g : Geometry) (s : Config) (b : ℕ) : Prop where
  le : (s.blocks b).currentPageOffset ≤ g.pagesPerBlock
  unwritten : ∀ o, (s.blocks b).currentPageOffset ≤ o → o < g.pagesPerBlock →
    programmed s.mtd (b * g.pagesPerBlock + o) = false
  counts : (s.blocks b).currentPageOffset = 0 ∧ (s.blocks b).nbInvalid = 0 ∧ (s.blocks b).list = [] ∨
    (s.blocks b).list.length + (s.blocks b).nbInvalid + 1 = (s.blocks b).currentPageOffset

/-- A valid bucket: its page is in use, and no header. -/
structure BucketOk (g : Geometry) (s : Config) (h : ℕ) : Prop where
  inside : s.blkOf g h < g.nbBlocks
  behind : 0 < (s.hashtable h).index % g.pagesPerBlock
  written : (s.hashtable h).index % g.pagesPerBlock < (s.blocks (s.blkOf g h)).currentPageOffset

/-- The table, the lists and the counters agree, with the blocks in `D` for data and `P` of every valid
bucket's key and page. -/
structure OrderlyOn (g : Geometry) (P : CStr → List Byte → Prop) (D : ℕ → Prop) (s : Config) : Prop where
  nodup : ∀ b < g.nbBlocks, (s.blocks b).list.Nodup
  memList : ∀ b < g.nbBlocks, ∀ h, h ∈ (s.blocks b).list ↔ s.Valid g h ∧ s.blkOf g h = b
  bucket : ∀ h, s.Valid g h → BucketOk g s h
  data : ∀ h, s.Valid g h → D (s.blkOf g h)
  page : ∀ h, s.Valid g h →
    P (s.hashtable h).key (content g.pageSize s.mtd (s.hashtable h).index)
  inj : ∀ h h', s.Valid g h → s.Valid g h' → (s.hashtable h).index = (s.hashtable h').index → h = h'
  block : ∀ b < g.nbBlocks, D b → BlockOk g s b

/-- They agree with the blocks for data that `meta_blkordr` does not list, in the entries that are looked
at. -/
structure Orderly (g : Geometry) (P : CStr → List Byte → Prop) (s : Config) : Prop where
  on : OrderlyOn g P s.Unlisted s
  ranks : ∀ j b, s.metaBlkordr j = some b → j < nbProbed g

section Frames
variable {g : Geometry} {P : CStr → List Byte → Prop} {D D' : ℕ → Prop} {s s' : Config} {b c h j p : ℕ}

/-- The parts of a configuration that the invariant is about, `meta_blkordr` apart. -/
structure SameLedger (s s' : Config) : Prop where
  table : s'.hashtable = s.hashtable
  mtd : s'.mtd = s.mtd
  list : ∀ b, (s'.blocks b).list = (s.blocks b).list
  nbInvalid : ∀ b, (s'.blocks b).nbInvalid = (s.blocks b).nbInvalid
  offset : ∀ b, (s'.blocks b).currentPageOffset = (s.blocks b).currentPageOffset

theorem SameLedger.of_blocks (hb : s'.blocks = s.blocks) (ht : s'.hashtable = s.hashtable)
    (hm : s'.mtd = s.mtd) : SameLedger s s' :=
  ⟨ht, hm, fun _ => by rw [hb], fun _ => by rw [hb], fun _ => by rw [hb]⟩

theorem SameLedger.setState (s : Config) (b : ℕ) (st : BlkState) : SameLedger s (s.setState b st) := by
  have hsame : ∀ c, ((s.setState b st).blocks c).list = (s.blocks c).list ∧
      ((s.setState b st).blocks c).nbInvalid = (s.blocks c).nbInvalid ∧
        ((s.setState b st).blocks c).currentPageOffset = (s.blocks c).currentPageOffset := by
    intro c
    by_cases hc : c = b
    · rw [hc, Config.setState, Config.modifyBlk_self]
      exact ⟨rfl, rfl, rfl⟩
    · rw [Config.setState, Config.modifyBlk_ne hc]
      exact ⟨rfl, rfl, rfl⟩
  exact ⟨rfl, rfl, fun c => (hsame c).1, fun c => (hsame c).2.1, fun c => (hsame c).2.2⟩

theorem SameLedger.valid (hL : SameLedger s s') : s'.Valid g h ↔ s.Valid g h := by
  rw [Config.Valid, Config.Valid, hL.table]

theorem SameLedger.blkOf (hL : SameLedger s s') : s'.blkOf g h = s.blkOf g h := by
  rw [Config.blkOf, Config.blkOf, hL.table]

theorem OrderlyOn.congr (hO : OrderlyOn g P D s) (hL : SameLedger s s') : OrderlyOn g P D s' where
  nodup b hb := by
    rw [hL.list]
    exact hO.nodup b hb
  memList b hb h := by
    rw [hL.list, hL.valid, hL.blkOf]
    exact hO.memList b hb h
  bucket h hv := by
    obtain ⟨h1, h2, h3⟩ := hO.bucket h (hL.valid.mp hv)
    exact ⟨by rwa [hL.blkOf], by rwa [hL.table], by rwa [hL.table, hL.blkOf, hL.offset]⟩
  data h hv := by
    rw [hL.blkOf]
    exact hO.data h (hL.valid.mp hv)
  page h hv := by
    rw [hL.table, hL.mtd]
    exact hO.page h (hL.valid.mp hv)
  inj h h' hv hv' he := by
    rw [hL.table] at he
    exact hO.inj h h' (hL.valid.mp hv) (hL.valid.mp hv') he
  block b hb hD := by
    obtain ⟨h1, h2, h3⟩ := hO.block b hb hD
    exact ⟨by rwa [hL.offset], by rwa [hL.offset, hL.mtd], by rwa [hL.offset, hL.nbInvalid, hL.list]⟩

theorem Orderly.congr (hO : Orderly g P s) (hL : SameLedger s s')
    (hord : s'.metaBlkordr = s.metaBlkordr) : Orderly g P s' := by
  have hun : s'.Unlisted = s.Unlisted := by
    funext b
    rw [Config.Unlisted, Config.Unlisted, hord]
  exact ⟨by rw [hun]; exact hO.on.congr hL, by rw [hord]; exact hO.ranks⟩

/-- Other blocks may be for data: not less than hold a page, and no others. -/
theorem OrderlyOn.mono (hO : OrderlyOn g P D s) (hsub : ∀ b, D' b → D b)
    (hdata : ∀ h, s.Valid g h → D' (s.blkOf g h)) : OrderlyOn g P D' s :=
  { hO with data := hdata, block := fun b hb hD => hO.block b hb (hsub b hD) }

/-- A block without pages in use has no valid bucket. -/
theorem OrderlyOn.blkOf_ne (hO : OrderlyOn g P D s) (h0 : (s.blocks b).currentPageOffset = 0)
    (hv : s.Valid g h) : s.blkOf g h ≠ b := by
  rintro rfl
  have := (hO.bucket h hv).written
  omega

end Frames

/-! ## A page is invalidated -/

section Dropped
variable {g : Geometry} {P : CStr → List Byte → Prop} {D : ℕ → Prop} {s : Config} {b h j : ℕ}

theorem dropped_hashtable : (s.dropped g h).hashtable =
    Function.update s.hashtable h { s.hashtable h with pState := .pgFree } := rfl

theorem dropped_index : ((s.dropped g h).hashtable j).index = (s.hashtable j).index := by
  rw [dropped_hashtable]
  by_cases hj : j = h
  · rw [hj, Function.update_self]
  · rw [Function.update_of_ne hj]

theorem dropped_key : ((s.dropped g h).hashtable j).key = (s.hashtable j).key := by
  rw [dropped_hashtable]
  by_cases hj : j = h
  · rw [hj, Function.update_self]
  · rw [Function.update_of_ne hj]

theorem dropped_blkOf : (s.dropped g h).blkOf g j = s.blkOf g j := by
  rw [Config.blkOf, Config.blkOf, dropped_index]

theorem dropped_valid : (s.dropped g h).Valid g j ↔ s.Valid g j ∧ j ≠ h := by
  rw [Config.Valid, Config.Valid, dropped_hashtable]
  by_cases hj : j = h
  · rw [hj, Function.update_self]
    simp
  · rw [Function.update_of_ne hj]
    simp [hj]

theorem dropped_list : ((s.dropped g h).blocks b).list = (s.blocks b).list.erase h := by
  by_cases hb : b = s.blkOf g h
  · simp [Config.dropped, hb, Config.modifyBlk_self]
  · simp [Config.dropped, Config.modifyBlk_ne hb]

theorem dropped_nbInvalid : ((s.dropped g h).blocks b).nbInvalid =
    if b = s.blkOf g h then (s.blocks b).nbInvalid + 1 else (s.blocks b).nbInvalid := by
  by_cases hb : b = s.blkOf g h
  · simp [Config.dropped, hb, Config.modifyBlk_self]
  · simp [Config.dropped, hb, Config.modifyBlk_ne hb]

theorem dropped_offset : ((s.dropped g h).blocks b).currentPageOffset =
    (s.blocks b).currentPageOffset := (dropped_same g h b).1

theorem OrderlyOn.dropped (hO : OrderlyOn g P D s) (hv : s.Valid g h) :
    OrderlyOn g P D (s.dropped g h) where
  nodup b hb := by
    rw [dropped_list]
    exact (hO.nodup b hb).erase h
  memList b hb j := by
    rw [dropped_list, (hO.nodup b hb).mem_erase_iff, hO.memList b hb, dropped_valid, dropped_blkOf]
    tauto
  bucket j hj := by
    obtain ⟨h1, h2, h3⟩ := hO.bucket j (dropped_valid.mp hj).1
    exact ⟨by rwa [dropped_blkOf], by rwa [dropped_index],
      by rwa [dropped_index, dropped_blkOf, dropped_offset]⟩
  data j hj := by
    rw [dropped_blkOf]
    exact hO.data j (dropped_valid.mp hj).1
  page j hj := by
    rw [dropped_key, dropped_index]
    exact hO.page j (dropped_valid.mp hj).1
  inj j j' hj hj' he := by
    rw [dropped_index, dropped_index] at he
    exact hO.inj j j' (dropped_valid.mp hj).1 (dropped_valid.mp hj').1 he
  block b hb hD := by
    obtain ⟨h1, h2, h3⟩ := hO.block b hb hD
    refine ⟨by rwa [dropped_offset], by rwa [dropped_offset], ?_⟩
    rw [dropped_offset, dropped_nbInvalid, dropped_list]
    by_cases hblk : b = s.blkOf g h
    · -- the bucket moves from the list to the counter
      have hmem := (hO.memList b hb h).mpr ⟨hv, hblk.symm⟩
      have hpos := List.length_pos_of_mem hmem
      obtain ⟨-, -, hnil⟩ | hsum := h3
      · rw [hnil] at hmem
        cases hmem
      · right
        rw [if_pos hblk, List.length_erase_of_mem hmem]
        omega
    · have hnot : h ∉ (s.blocks b).list := fun hh => hblk ((hO.memList b hb h).mp hh).2.symm
      rwa [if_neg hblk, List.erase_of_not_mem hnot]

end Dropped

/-! ## A page is written -/

section Written
variable {g : Geometry} {P : CStr → List Byte → Prop} {D : ℕ → Prop} {s : Config} {b c h j p : ℕ}
  {buf : List Byte}

theorem programPage_offset : ((programPage g p buf s).blocks b).currentPageOffset =
    if b = p / g.pagesPerBlock then (s.blocks b).currentPageOffset + 1
    else (s.blocks b).currentPageOffset := by
  split
  · next hb => rw [hb, programPage, Config.modifyBlk_self]
  · next hb => rw [programPage, Config.modifyBlk_ne hb]

theorem programPage_list : ((programPage g p buf s).blocks b).list = (s.blocks b).list := by
  by_cases hb : b = p / g.pagesPerBlock
  · rw [hb, programPage, Config.modifyBlk_self]
  · rw [programPage, Config.modifyBlk_ne hb]

theorem programPage_nbInvalid : ((programPage g p buf s).blocks b).nbInvalid =
    (s.blocks b).nbInvalid := by
  by_cases hb : b = p / g.pagesPerBlock
  · rw [hb, programPage, Config.modifyBlk_self]
  · rw [programPage, Config.modifyBlk_ne hb]

theorem programPage_mtd : (programPage g p buf s).mtd = .program p buf :: s.mtd := rfl

theorem BlockOk.program_ne (hB : BlockOk g s c) (hne : c ≠ p / g.pagesPerBlock) :
    BlockOk g (programPage g p buf s) c := by
  obtain ⟨h1, h2, h3⟩ := hB
  refine ⟨?_, fun o ho hlt => ?_, ?_⟩
  · rwa [programPage_offset, if_neg hne]
  · rw [programPage_offset, if_neg hne] at ho
    have hp : c * g.pagesPerBlock + o ≠ p := fun he => hne (by rw [← he, Geometry.page_div hlt])
    rw [programPage_mtd, programmed_program_ne hp]
    exact h2 o ho hlt
  · rwa [programPage_offset, if_neg hne, programPage_nbInvalid, programPage_list]

/-- A page that no valid bucket has, when it suits its block. -/
theorem OrderlyOn.program (hO : OrderlyOn g P D s) (hp : ∀ h, s.Valid g h → (s.hashtable h).index ≠ p)
    (hB : p / g.pagesPerBlock < g.nbBlocks → D (p / g.pagesPerBlock) →
      BlockOk g (programPage g p buf s) (p / g.pagesPerBlock)) :
    OrderlyOn g P D (programPage g p buf s) := by
  refine ⟨fun b hb => ?_, fun b hb h => ?_, fun h hv => ?_, hO.data, fun h hv => ?_, hO.inj,
    fun b hb hD => ?_⟩
  · rw [programPage_list]
    exact hO.nodup b hb
  · rw [programPage_list]
    exact hO.memList b hb h
  · obtain ⟨h1, h2, h3⟩ := hO.bucket h hv
    have hle : (s.blocks (s.blkOf g h)).currentPageOffset ≤
        ((programPage g p buf s).blocks (s.blkOf g h)).currentPageOffset := by
      rw [programPage_offset]
      split <;> omega
    exact ⟨h1, h2, h3.trans_le hle⟩
  · have hpage := hO.page h hv
    rw [← content_program_ne (hp h hv)] at hpage
    exact hpage
  · by_cases hbp : b = p / g.pagesPerBlock
    · rw [hbp] at hb hD ⊢
      exact hB hb hD
    · exact (hO.block b hb hD).program_ne hbp

/-- A page in a block that is not for data. -/
theorem OrderlyOn.elsewhere (hO : OrderlyOn g P D s) (hD : ¬ D (p / g.pagesPerBlock)) :
    OrderlyOn g P D (programPage g p buf s) := by
  refine hO.program (fun h hv he => hD ?_) fun _ hd => absurd hd hD
  rw [← he]
  exact hO.data h hv

/-- The header of an erased block. -/
theorem OrderlyOn.header (hO : OrderlyOn g P D s) (h0 : (s.blocks b).currentPageOffset = 0) :
    OrderlyOn g P D (programPage g (b * g.pagesPerBlock) buf s) := by
  have hdiv : b * g.pagesPerBlock / g.pagesPerBlock = b := Nat.mul_div_cancel _ g.pagesPerBlock_pos
  have hppb := g.two_le_pagesPerBlock
  refine hO.program (fun h hv he => hO.blkOf_ne h0 hv (by rw [Config.blkOf, he, hdiv])) ?_
  rw [hdiv]
  intro hb hD
  obtain ⟨h1, h2, h3⟩ := hO.block b hb hD
  have hofs := @programPage_offset g s b (b * g.pagesPerBlock) buf
  rw [hdiv, if_pos rfl] at hofs
  refine ⟨by omega, fun o ho hlt => ?_, ?_⟩
  · rw [programPage_mtd, programmed_program_ne (by omega)]
    exact h2 o (by omega) hlt
  · rw [hofs, programPage_nbInvalid, programPage_list]
    right
    obtain ⟨-, hinv, hnil⟩ | hsum := h3
    · rw [hinv, hnil, h0, List.length_nil]
    · omega

end Written

/-! ## A page is entered in the table -/

/-- `hash_add` has taken the free slot `h`; elsewhere it has marked at most. -/
structure Entered (n : ℕ) (key : CStr) (index : ℕ) (table : ℕ → Bucket) (h : ℕ) (t : ℕ → Bucket) :
    Prop where
  lt : h < n
  free : (table h).pState = .pgFree
  self : t h = (table h).fill key index
  other : ∀ j, j ≠ h → (t j).pState = (table j).pState ∧ (t j).key = (table j).key ∧
    (t j).index = (table j).index

/-- What `hash_add` does when it returns. -/
theorem hashAdd_ok {g : Geometry} {key : CStr} {index : ℕ} {s s' : Config} {o : Option ℕ}
    (he : hashAdd g key index s = .ok (o, s')) : key.len < keyRoom ∧ ∃ t,
      s' = { s with hashtable := t } ∧ ∀ h, o = some h → Entered (hashSlots g) key index s.hashtable h t := by
  by_cases hroom : keyRoom ≤ key.len
  · rw [hashAdd, if_pos hroom] at he
    cases he
  · refine ⟨not_le.mp hroom, ?_⟩
    obtain ⟨-, o', t, he', hframe⟩ : ParallelAdds g key index s :=
      parallelAdds_iff.mpr (Nat.le_of_lt_succ (not_le.mp hroom))
    obtain ⟨rfl, rfl⟩ := Prod.mk.inj (Except.ok.inj (he'.symm.trans he))
    refine ⟨t, rfl, fun h ho => ?_⟩
    obtain ⟨hfree, hself⟩ := hframe.taken h ho
    obtain ⟨c, -, hplace, -⟩ := hframe.place h ho
    refine ⟨hplace ▸ Nat.mod_lt _ (hashSlots_pos g), bucketLayout_key_eq_none.mp hfree, hself,
      fun j hj => ?_⟩
    have hkept := hframe.kept j (by rw [ho]; exact fun hsome => hj (Option.some.inj hsome).symm)
    simp only [Prod.mk.injEq] at hkept
    exact hkept

/-- The configuration with a page written to block `b` and entered in slot `h`. -/
def Config.stored (g : Geometry) (s : Config) (p : ℕ) (data : List Byte) (t : ℕ → Bucket) (b h : ℕ) :
    Config :=
  { programPage g p data s with
    readOnly := isReadOnly g (programPage g p data s)
    hashtable := t }.listAdd b h

section Stored
variable {g : Geometry} {P : CStr → List Byte → Prop} {D : ℕ → Prop} {s : Config} {b c h j p : ℕ}
  {key : CStr} {data : List Byte} {t : ℕ → Bucket}

theorem stored_list : ((s.stored g p data t b h).blocks c).list =
    if c = b then h :: (s.blocks c).list else (s.blocks c).list := by
  by_cases hc : c = b
  · rw [if_pos hc, hc, Config.stored, Config.listAdd, Config.modifyBlk_self]
    exact congrArg (h :: ·) (@programPage_list g s b p data)
  · rw [if_neg hc, Config.stored, Config.listAdd, Config.modifyBlk_ne hc]
    exact @programPage_list g s c p data

theorem stored_nbInvalid : ((s.stored g p data t b h).blocks c).nbInvalid = (s.blocks c).nbInvalid := by
  by_cases hc : c = b
  · rw [hc, Config.stored, Config.listAdd, Config.modifyBlk_self]
    exact @programPage_nbInvalid g s b p data
  · rw [Config.stored, Config.listAdd, Config.modifyBlk_ne hc]
    exact @programPage_nbInvalid g s c p data

theorem stored_offset : ((s.stored g p data t b h).blocks c).currentPageOffset =
    if c = p / g.pagesPerBlock then (s.blocks c).currentPageOffset + 1
    else (s.blocks c).currentPageOffset := by
  rw [← @programPage_offset g s c p data]
  by_cases hc : c = b
  · rw [hc, Config.stored, Config.listAdd, Config.modifyBlk_self]
  · rw [Config.stored, Config.listAdd, Config.modifyBlk_ne hc]

theorem stored_mtd : (s.stored g p data t b h).mtd = .program p data :: s.mtd := rfl

theorem stored_hashtable : (s.stored g p data t b h).hashtable = t := rfl

/-- The valid buckets are the old ones and the new one. -/
theorem Entered.valid (hE : Entered (hashSlots g) key p s.hashtable h t) :
    (s.stored g p data t b h).Valid g j ↔ s.Valid g j ∨ j = h := by
  rw [Config.Valid, Config.Valid, stored_hashtable]
  by_cases hj : j = h
  · subst hj
    rw [hE.self]
    exact ⟨fun _ => .inr rfl, fun _ => ⟨hE.lt, rfl⟩⟩
  · rw [(hE.other j hj).1]
    simp [hj]

theorem Entered.ne_of_valid (hE : Entered (hashSlots g) key p s.hashtable h t) (hv : s.Valid g j) :
    j ≠ h := by
  rintro rfl
  have hfree := hE.free
  rw [hv.2] at hfree
  cases hfree

theorem Entered.index_self (hE : Entered (hashSlots g) key p s.hashtable h t) : (t h).index = p := by
  rw [hE.self]
  rfl

theorem Entered.index_of_valid (hE : Entered (hashSlots g) key p s.hashtable h t) (hv : s.Valid g j) :
    (t j).index = (s.hashtable j).index :=
  (hE.other j (hE.ne_of_valid hv)).2.2

theorem Entered.blkOf_self (hE : Entered (hashSlots g) key p s.hashtable h t)
    (hdiv : p / g.pagesPerBlock = b) : (s.stored g p data t b h).blkOf g h = b := by
  rw [Config.blkOf, stored_hashtable, hE.index_self]
  exact hdiv

theorem Entered.blkOf_of_valid (hE : Entered (hashSlots g) key p s.hashtable h t) (hv : s.Valid g j) :
    (s.stored g p data t b h).blkOf g j = s.blkOf g j := by
  rw [Config.blkOf, Config.blkOf, stored_hashtable, hE.index_of_valid hv]

/-- No valid bucket has the page that is written next. -/
theorem OrderlyOn.index_ne_next (hO : OrderlyOn g P D s)
    (hlt : (s.blocks b).currentPageOffset < g.pagesPerBlock)
    (hp : p = b * g.pagesPerBlock + (s.blocks b).currentPageOffset) (hv : s.Valid g j) :
    (s.hashtable j).index ≠ p := by
  intro he
  have hw := (hO.bucket j hv).written
  rw [Config.blkOf, he, hp, Geometry.page_div hlt, Geometry.page_mod hlt] at hw
  exact absurd hw (Nat.lt_irrefl _)

theorem OrderlyOn.not_on_list (hO : OrderlyOn g P D s) (hE : Entered (hashSlots g) key p s.hashtable h t)
    (hc : c < g.nbBlocks) : h ∉ (s.blocks c).list := fun hmem =>
  hE.ne_of_valid ((hO.memList c hc h).mp hmem).1 rfl

/-- The new bucket joins the list of its block. -/
theorem OrderlyOn.stored_memList (hO : OrderlyOn g P D s)
    (hE : Entered (hashSlots g) key p s.hashtable h t) (hdiv : p / g.pagesPerBlock = b)
    (hc : c < g.nbBlocks) : j ∈ ((s.stored g p data t b h).blocks c).list ↔
      (s.stored g p data t b h).Valid g j ∧ (s.stored g p data t b h).blkOf g j = c := by
  rw [stored_list, hE.valid]
  by_cases hj : j = h
  · subst hj
    rw [hE.blkOf_self hdiv]
    split
    · next hcb => simp [hcb]
    · next hcb => simp [hO.not_on_list hE hc, Ne.symm hcb]
  · have hlist : j ∈ (if c = b then h :: (s.blocks c).list else (s.blocks c).list) ↔
        j ∈ (s.blocks c).list := by
      split
      · simp [hj]
      · rfl
    rw [hlist, hO.memList c hc j]
    constructor
    · rintro ⟨hv, hjc⟩
      exact ⟨.inl hv, (hE.blkOf_of_valid hv).trans hjc⟩
    · rintro ⟨hv, hjc⟩
      have hv := hv.resolve_right hj
      exact ⟨hv, (hE.blkOf_of_valid hv).symm.trans hjc⟩

/-- The new bucket shares its page with no other. -/
theorem OrderlyOn.stored_inj (hO : OrderlyOn g P D s) (hE : Entered (hashSlots g) key p s.hashtable h t)
    (hfresh : ∀ j, s.Valid g j → (s.hashtable j).index ≠ p) {i j : ℕ}
    (hi : (s.stored g p data t b h).Valid g i) (hj : (s.stored g p data t b h).Valid g j)
    (he : (t i).index = (t j).index) : i = j := by
  obtain hiv | rfl := hE.valid.mp hi
  · obtain hjv | rfl := hE.valid.mp hj
    · rw [hE.index_of_valid hiv, hE.index_of_valid hjv] at he
      exact hO.inj i j hiv hjv he
    · rw [hE.index_of_valid hiv, hE.index_self] at he
      exact absurd he (hfresh i hiv)
  · obtain hjv | rfl := hE.valid.mp hj
    · rw [hE.index_of_valid hjv, hE.index_self] at he
      exact absurd he.symm (hfresh j hjv)
    · rfl

/-- The counters of a block go with its pages. -/
theorem BlockOk.stored (hB : BlockOk g s c) (hpos : 0 < (s.blocks b).currentPageOffset)
    (hlt : (s.blocks b).currentPageOffset < g.pagesPerBlock)
    (hp : p = b * g.pagesPerBlock + (s.blocks b).currentPageOffset) :
    BlockOk g (s.stored g p data t b h) c := by
  obtain ⟨h1, h2, h3⟩ := hB
  have hofs := @stored_offset g s b c h p data t
  rw [hp, Geometry.page_div hlt, ← hp] at hofs
  by_cases hcb : c = b
  · subst hcb
    rw [if_pos rfl] at hofs
    refine ⟨by omega, fun o ho hlto => ?_, ?_⟩
    · rw [stored_mtd, programmed_program_ne (by omega)]
      exact h2 o (by omega) hlto
    · rw [hofs, stored_nbInvalid, stored_list, if_pos rfl, List.length_cons]
      right
      obtain ⟨h0, -, -⟩ | hsum := h3 <;> omega
  · rw [if_neg hcb] at hofs
    refine ⟨by omega, fun o ho hlto => ?_, ?_⟩
    · rw [stored_mtd, hp, Geometry.programmed_program_block hlt hlto hcb]
      exact h2 o (by omega) hlto
    · rwa [hofs, stored_nbInvalid, stored_list, if_neg hcb]

/-- A page is written behind the others of a data block and entered in the table. -/
theorem OrderlyOn.stored (hO : OrderlyOn g P D s) (hb : b < g.nbBlocks) (hD : D b)
    (hpos : 0 < (s.blocks b).currentPageOffset) (hlt : (s.blocks b).currentPageOffset < g.pagesPerBlock)
    (hp : p = b * g.pagesPerBlock + (s.blocks b).currentPageOffset) (hdata : data.length ≤ g.pageSize)
    (hP : P key data) (hE : Entered (hashSlots g) key p s.hashtable h t) :
    OrderlyOn g P D (s.stored g p data t b h) := by
  have hdiv : p / g.pagesPerBlock = b := by rw [hp, Geometry.page_div hlt]
  have hmod : p % g.pagesPerBlock = (s.blocks b).currentPageOffset := by rw [hp, Geometry.page_mod hlt]
  have hfresh : ∀ j, s.Valid g j → (s.hashtable j).index ≠ p := fun j => hO.index_ne_next hlt hp
  have hself : (s.stored g p data t b h).blkOf g h = b := hE.blkOf_self hdiv
  refine ⟨fun c hc => ?_, fun c hc j => hO.stored_memList hE hdiv hc, fun j hv => ?_, fun j hv => ?_,
    fun j hv => ?_, fun i j => hO.stored_inj hE hfresh, fun c hc hDc => (hO.block c hc hDc).stored hpos hlt hp⟩
  · rw [stored_list]
    split
    · exact List.nodup_cons.mpr ⟨hO.not_on_list hE hc, hO.nodup c hc⟩
    · exact hO.nodup c hc
  · obtain hv | rfl := hE.valid.mp hv
    · obtain ⟨h1, h2, h3⟩ := hO.bucket j hv
      have hblk : (s.stored g p data t b h).blkOf g j = s.blkOf g j := hE.blkOf_of_valid hv
      refine ⟨by rwa [hblk], by rwa [stored_hashtable, hE.index_of_valid hv], ?_⟩
      rw [stored_hashtable, hE.index_of_valid hv, hblk, stored_offset]
      exact h3.trans_le (by split <;> omega)
    · refine ⟨by rwa [hself], ?_, ?_⟩
      · rwa [stored_hashtable, hE.index_self, hmod]
      · rw [stored_hashtable, hE.index_self, hself, hmod, stored_offset, hdiv, if_pos rfl]
        exact Nat.lt_succ_self _
  · obtain hv | rfl := hE.valid.mp hv
    · rw [hE.blkOf_of_valid hv]
      exact hO.data j hv
    · rwa [hself]
  · obtain hv | rfl := hE.valid.mp hv
    · rw [stored_hashtable, hE.index_of_valid hv, (hE.other j (hE.ne_of_valid hv)).2.1, stored_mtd,
        content_program_ne (hfresh j hv)]
      exact hO.page j hv
    · have hun := (hO.block b hb hD).unwritten _ le_rfl hlt
      rw [← hp] at hun
      rw [stored_hashtable, hE.index_self, stored_mtd, content_program_self hun hdata, hE.self]
      exact hP

end Stored

/-! ## A block is erased -/

section Wiped
variable {g : Geometry} {P : CStr → List Byte → Prop} {D : ℕ → Prop} {s : Config} {b c h : ℕ}

theorem wiped_self : (s.wiped g b).blocks b = .erased ((s.blocks b).worn + 1) :=
  Function.update_self _ _ _

theorem wiped_mtd : (s.wiped g b).mtd = .erase (b * g.pagesPerBlock) g.pagesPerBlock :: s.mtd := rfl

/-- A page lies in the range that is erased exactly if it is one of the block's. -/
theorem mem_block_iff {p : ℕ} : b * g.pagesPerBlock ≤ p ∧ p < b * g.pagesPerBlock + g.pagesPerBlock ↔
    p / g.pagesPerBlock = b := by
  have hppb := g.pagesPerBlock_pos
  rw [Nat.div_eq_iff hppb]
  omega

/-- An erased block, which no valid bucket has its page in, may be used for data. -/
theorem OrderlyOn.wiped (hO : OrderlyOn g P D s) (hno : ∀ h, s.Valid g h → s.blkOf g h ≠ b) :
    OrderlyOn g P (fun c => D c ∨ c = b) (s.wiped g b) := by
  refine ⟨fun c hc => ?_, fun c hc h => ?_, fun h hv => ?_, fun h hv => .inl (hO.data h hv),
    fun h hv => ?_, hO.inj, fun c hc hD => ?_⟩
  · by_cases hcb : c = b
    · rw [hcb, wiped_self]
      exact List.nodup_nil
    · rw [wiped_ne hcb]
      exact hO.nodup c hc
  · by_cases hcb : c = b
    · rw [hcb, wiped_self]
      exact ⟨fun hh => absurd hh List.not_mem_nil, fun hv => absurd hv.2 (hno h hv.1)⟩
    · rw [wiped_ne hcb]
      exact hO.memList c hc h
  · obtain ⟨h1, h2, h3⟩ := hO.bucket h hv
    refine ⟨h1, h2, ?_⟩
    have hne : (s.wiped g b).blkOf g h ≠ b := hno h hv
    rw [wiped_ne hne]
    exact h3
  · have hpage := hO.page h hv
    have hnot : ¬ (b * g.pagesPerBlock ≤ (s.hashtable h).index ∧
        (s.hashtable h).index < b * g.pagesPerBlock + g.pagesPerBlock) := by
      rw [mem_block_iff]
      exact hno h hv
    rw [← content_erase_not_mem hnot] at hpage
    exact hpage
  · by_cases hcb : c = b
    · rw [hcb]
      refine ⟨?_, fun o _ hlt => ?_, ?_⟩
      · rw [wiped_self]
        exact Nat.zero_le _
      · rw [wiped_mtd, programmed_erase_mem (mem_block_iff.mpr (Geometry.page_div hlt))]
      · rw [wiped_self]
        exact .inl ⟨rfl, rfl, rfl⟩
    · obtain ⟨h1, h2, h3⟩ := hO.block c hc (hD.resolve_right hcb)
      refine ⟨by rwa [wiped_ne hcb], fun o ho hlt => ?_, by rwa [wiped_ne hcb]⟩
      rw [wiped_ne hcb] at ho
      have hnot : ¬ (b * g.pagesPerBlock ≤ c * g.pagesPerBlock + o ∧
          c * g.pagesPerBlock + o < b * g.pagesPerBlock + g.pagesPerBlock) := by
        rw [mem_block_iff, Geometry.page_div hlt]
        exact hcb
      rw [wiped_mtd, programmed_erase_not_mem hnot]
      exact h2 o ho hlt

end Wiped

/-! ## The operations -/

section Operations
variable {env : Env} {P : CStr → List Byte → Prop} {s s' : Config} {b h : ℕ}

theorem Orderly.unlisted {g : Geometry} (hO : Orderly g P s)
    (hord : inOrder s.metaBlkordr (nbProbed g) b = false) : s.Unlisted b := fun j hj =>
  inOrder_eq_false.mp hord j (hO.ranks j b hj) hj

theorem Orderly.dropped {g : Geometry} (hO : Orderly g P s) (hv : s.Valid g h) :
    Orderly g P (s.dropped g h) := ⟨hO.on.dropped hv, hO.ranks⟩

theorem invalidPg_orderly {g : Geometry} {u : PUnit} (hO : Orderly g P s) (hv : s.Valid g h)
    (he : invalidPg g h s = .ok (u, s')) : Orderly g P s' := by
  obtain ⟨-, -, rfl⟩ := invalidPg_ok he
  exact hO.dropped hv

/-- The flags and the locks are not in the ledger. -/
theorem Orderly.lock {g : Geometry} (hO : Orderly g P s) (l : Lock) (held : Bool) :
    Orderly g P (s.lock l held) := hO.congr (.of_blocks rfl rfl rfl) rfl

theorem Orderly.setState {g : Geometry} (hO : Orderly g P s) (b : ℕ) (st : BlkState) :
    Orderly g P (s.setState b st) := hO.congr (.setState s b st) rfl

/-- A region under a lock keeps what its body keeps. -/
theorem withLock_orderly {α : Type} {g : Geometry} {l : Lock} {m : Kernel α} {a : α}
    (hO : Orderly g P s) (hm : ∀ s₁, Orderly g P (s.lock l true) → m (s.lock l true) = .ok (a, s₁) →
      Orderly g P s₁) (he : withLock l m s = .ok (a, s')) : Orderly g P s' := by
  obtain ⟨-, s₁, he₁, rfl⟩ := withLock_ok he
  exact (hm s₁ (hO.lock l true) he₁).lock l false

theorem invalidOld_orderly {key : CStr} {u : PUnit} (hO : Orderly env.toGeometry P s)
    (he : invalidOld env key s = .ok (u, s')) : Orderly env.toGeometry P s' := by
  rw [invalidOld, get_bind_ok] at he
  cases hs : hashSearch env.toGeometry s.hashtable key with
  | none =>
    rw [hs] at he
    obtain ⟨-, rfl⟩ := pure_ok.mp he
    exact hO
  | some h =>
    rw [hs] at he
    obtain ⟨hlt, hv, -⟩ := hashSearch_some hs
    exact invalidPg_orderly hO ⟨hlt, hv⟩ he

theorem delKey_orderly {key : Option CStr} {ret : ℤ} (hO : Orderly env.toGeometry P s)
    (he : delKey env key s = .ok (ret, s')) : Orderly env.toGeometry P s' := by
  refine withLock_orderly hO (fun s₁ hO₁ he₁ => withLock_orderly hO₁ (fun s₂ hO₂ he₂ => ?_) he₁) he
  obtain ⟨k, s₃, he₃, hdel⟩ := bind_ok.mp he₂
  have hsame : s₃ = (s.lock .eraseLock true).lock .listLock true := by
    cases key with
    | none => cases he₃
    | some str => exact (pure_ok.mp he₃).2.symm
  rw [← hsame] at hO₂
  rw [delLocked, get_bind_ok] at hdel
  cases hs : hashSearch env.toGeometry s₃.hashtable k with
  | none =>
    rw [hs] at hdel
    obtain ⟨-, rfl⟩ := pure_ok.mp hdel
    exact hO₂
  | some h =>
    rw [hs] at hdel
    obtain ⟨hlt, hv, -⟩ := hashSearch_some hs
    simp only at hdel
    split at hdel
    · split at hdel
      · obtain ⟨-, rfl⟩ := pure_ok.mp hdel
        exact hO₂
      · obtain ⟨_, s₄, he₄, hend⟩ := bind_ok.mp hdel
        obtain ⟨-, rfl⟩ := pure_ok.mp hend
        exact invalidPg_orderly hO₂ ⟨hlt, hv⟩ he₄
    · obtain ⟨-, rfl⟩ := pure_ok.mp hdel
      exact hO₂

/-- A `format` starts the ledger anew. -/
theorem format_orderly {ret : ℤ}
    (hranks : ∀ j b, s.metaBlkordr j = some b → j < nbProbed env.toGeometry)
    (he : format env s = .ok (ret, s')) : Orderly env.toGeometry P s' := by
  obtain ⟨-, rfl⟩ := format_ok he
  refine ⟨⟨fun b _ => List.nodup_nil, fun b _ h => ⟨fun hh => absurd hh List.not_mem_nil, ?_⟩, ?_, ?_, ?_, ?_,
    fun b hb _ => ⟨Nat.zero_le _, fun o _ ho => programmed_erase_mem ⟨Nat.zero_le _, ?_⟩,
      .inl ⟨rfl, rfl, rfl⟩⟩⟩, hranks⟩
  · rintro ⟨⟨-, hv⟩, -⟩
    cases hv
  · rintro h ⟨-, hv⟩
    cases hv
  · rintro h ⟨-, hv⟩
    cases hv
  · rintro h ⟨-, hv⟩
    cases hv
  · rintro h h' ⟨-, hv⟩
    cases hv
  · have hle := Nat.mul_le_mul_right env.pagesPerBlock (Nat.succ_le_of_lt hb)
    rw [Nat.succ_mul] at hle
    have : b * env.pagesPerBlock + o < env.nbBlocks * env.pagesPerBlock := by omega
    omega

end Operations

end LkpProjects.Parallel
