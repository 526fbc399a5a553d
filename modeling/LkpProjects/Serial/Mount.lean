import LkpProjects.Serial.Flush

/-! # The serial store: what a mount reads back

`Image env cnt f snap mtd` says that the flash holds the metadata of `snap`, part `i` of it in block
`f i`, and besides those `cnt` blocks none that starts like a metadata block. `init_scan` on such a flash gives
back `snap` (`Mounted`): every field of its block records and buckets as 32 bits hold it, the lists
rebuilt from the valid buckets.
-/
namespace LkpProjects.Serial
open Nand Bytes
set_option autoImplicit false

/-! ## Headers -/

/-- The rank in the header of a block, if its first page is the header of a metadata block. -/
def rankAt (env : Env) (mtd : History) (b : ℕ) : Option ℕ :=
  let page := content env.pageSize mtd (b * env.pagesPerBlock)
  if readLe (mem page) 0 = metaHdrBase then some (readLe (mem page) 4) else none

/-- `meta_blkordr` after one more header. -/
def enterRank (env : Env) (mtd : History) (ord : ℕ → Option ℕ) (b : ℕ) : ℕ → Option ℕ :=
  match rankAt env mtd b with
  | none => ord
  | some i => Function.update ord i (some b)

variable {env : Env} {mtd : History} {f : ℕ → ℕ} {snap s t : Config}

theorem enterRank_none {ord : ℕ → Option ℕ} {b : ℕ} (h : rankAt env mtd b = none) :
    enterRank env mtd ord b = ord := by
  rw [enterRank, h]

theorem enterRank_some {ord : ℕ → Option ℕ} {b i : ℕ} (h : rankAt env mtd b = some i) :
    enterRank env mtd ord b = Function.update ord i (some b) := by
  rw [enterRank, h]

theorem scanHeaders_spec (hdrv : env.NoDriverError) (mtd : History) : ∀ (bs : List ℕ) (ord : ℕ → Option ℕ) (cnt : ℕ),
    (∀ b ∈ bs, ∀ i, rankAt env mtd b = some i → i < env.nbMetaBlocks) →
      scanHeaders env mtd bs (ord, cnt) = .ok (some (bs.foldl (enterRank env mtd) ord,
        cnt + (bs.filterMap (rankAt env mtd)).length))
  | [], ord, cnt, _ => rfl
  | b :: bs, ord, cnt, hlt => by
      have hlt' := fun c (hc : c ∈ bs) => hlt c (List.mem_cons_of_mem _ hc)
      have hread : readPage env mtd (b * env.pagesPerBlock) =
          some (content env.pageSize mtd (b * env.pagesPerBlock)) := by
        simp [readPage, hdrv.read]
      by_cases hm : readLe (mem (content env.pageSize mtd (b * env.pagesPerBlock))) 0 = metaHdrBase
      · have hr : rankAt env mtd b =
            some (readLe (mem (content env.pageSize mtd (b * env.pagesPerBlock))) 4) := if_pos hm
        have hi := hlt b List.mem_cons_self _ hr
        rw [List.foldl_cons, List.filterMap_cons_some hr, List.length_cons, enterRank_some hr]
        simp only [scanHeaders, hread, if_pos hm, if_neg (Nat.not_le_of_lt hi)]
        rw [scanHeaders_spec hdrv mtd bs _ _ hlt', Nat.add_assoc, Nat.add_comm 1]
      · have hr : rankAt env mtd b = none := if_neg hm
        rw [List.foldl_cons, List.filterMap_cons_none hr, enterRank_none hr]
        simp only [scanHeaders, hread, if_neg hm]
        exact scanHeaders_spec hdrv mtd bs _ _ hlt'

theorem readPage_some {p : ℕ} {page : List Byte} (h : readPage env mtd p = some page) :
    page = content env.pageSize mtd p := by
  unfold readPage at h
  split at h
  · cases h
  · exact (Option.some.inj h).symm

/-- What a scan that succeeds has entered and counted. -/
theorem scanHeaders_ok : ∀ {bs : List ℕ} {ord ord' : ℕ → Option ℕ} {cnt cnt' : ℕ},
    scanHeaders env mtd bs (ord, cnt) = .ok (some (ord', cnt')) →
      ord' = bs.foldl (enterRank env mtd) ord ∧
        cnt' = cnt + (bs.filterMap (rankAt env mtd)).length
  | [], ord, ord', cnt, cnt', he => by
      obtain ⟨rfl, rfl⟩ := Prod.mk.inj (Option.some.inj (Except.ok.inj he))
      exact ⟨rfl, rfl⟩
  | b :: bs, ord, ord', cnt, cnt', he => by
      rw [scanHeaders] at he
      split at he
      · cases he
      · rename_i page hpage
        obtain rfl := readPage_some hpage
        split at he
        · rename_i hm
          have hr : rankAt env mtd b = some _ := if_pos hm
          simp only at he
          split at he
          · cases he
          · obtain ⟨h1, h2⟩ := scanHeaders_ok he
            rw [List.foldl_cons, enterRank_some hr, List.filterMap_cons_some hr, List.length_cons]
            exact ⟨h1, by omega⟩
        · rename_i hm
          have hr : rankAt env mtd b = none := if_neg hm
          rw [List.foldl_cons, enterRank_none hr, List.filterMap_cons_none hr]
          exact scanHeaders_ok he

/-- An entry of `meta_blkordr` names a block with that rank in its header. -/
theorem rankAt_of_foldl : ∀ (bs : List ℕ) (ord : ℕ → Option ℕ) (i b : ℕ),
    bs.foldl (enterRank env mtd) ord i = some b →
      (b ∈ bs ∧ rankAt env mtd b = some i) ∨ ord i = some b
  | [], _, _, _, h => Or.inr h
  | c :: bs, ord, i, b, h => by
      rw [List.foldl_cons] at h
      rcases rankAt_of_foldl bs _ i b h with ⟨hb, hr⟩ | h
      · exact Or.inl ⟨List.mem_cons_of_mem _ hb, hr⟩
      · cases hj : rankAt env mtd c with
        | none =>
          rw [enterRank_none hj] at h
          exact Or.inr h
        | some j =>
          rw [enterRank_some hj] at h
          by_cases hij : i = j
          · subst hij
            rw [Function.update_self] at h
            obtain rfl := Option.some.inj h
            exact Or.inl ⟨List.mem_cons_self, hj⟩
          · rw [Function.update_of_ne hij] at h
            exact Or.inr h

/-- The rank of every header found is entered. -/
theorem foldl_ne_none : ∀ (bs : List ℕ) (ord : ℕ → Option ℕ) (i : ℕ),
    ((∃ b ∈ bs, rankAt env mtd b = some i) ∨ ord i ≠ none) →
      bs.foldl (enterRank env mtd) ord i ≠ none
  | [], _, _, h => h.resolve_left (by simp)
  | c :: bs, ord, i, h => by
      rw [List.foldl_cons]
      apply foldl_ne_none bs
      rcases h with ⟨b, hb, hr⟩ | h
      · rcases List.mem_cons.mp hb with rfl | hb
        · right
          rw [enterRank_some hr]
          simp
        · exact Or.inl ⟨b, hb, hr⟩
      · right
        cases hj : rankAt env mtd c with
        | none => rwa [enterRank_none hj]
        | some j =>
          rw [enterRank_some hj]
          by_cases hij : i = j
          · subst hij
            simp
          · rwa [Function.update_of_ne hij]

/-! ## Pages -/

/-- The pages of the read loop, in order. -/
theorem pairs_eq (m : ℕ) (hm : 0 < m) : ∀ n,
    ((List.range n).flatMap fun i => (List.range m).map fun j => (i, j)) =
      (List.range (n * m)).map fun p => (p / m, p % m)
  | 0 => by simp
  | n + 1 => by
      rw [List.range_succ, List.flatMap_append, pairs_eq m hm n, Nat.succ_mul, List.range_add,
        List.map_append]
      congr 1
      rw [List.flatMap_singleton, List.map_map]
      apply List.map_congr_left
      intro j hj
      rw [List.mem_range] at hj
      simp only [Function.comp_apply]
      rw [Nat.mul_comm n m, Nat.mul_add_div hm, Nat.div_eq_of_lt hj, Nat.mul_add_mod,
        Nat.mod_eq_of_lt hj, Nat.add_zero]

/-- A read loop that no read stops: it fills the buffer, or runs out of it. -/
theorem scanLoop_spec {ord : ℕ → Option ℕ} {h : ℕ × ℕ → List Byte} : ∀ (l : List (ℕ × ℕ)) (pages : List (List Byte)),
    (∀ ij ∈ l, readEntry env mtd (ord ij.1) (ij.2 + 1) = some (h ij)) → pages.length ≤ env.metaRoom →
      scanLoop env mtd ord l pages = if pages.length + l.length ≤ env.metaRoom then .ok (some (pages ++ l.map h))
        else .error .overflow
  | [], pages, _, hle => by
      rw [List.length_nil, Nat.add_zero, if_pos hle, List.map_nil, List.append_nil]
      rfl
  | ij :: l, pages, hread, hle => by
      rw [scanLoop, hread ij List.mem_cons_self]
      simp only [List.length_cons]
      by_cases hfull : env.metaRoom ≤ pages.length
      · rw [if_pos hfull, if_neg (by omega)]
      · rw [if_neg hfull, scanLoop_spec l (pages ++ [h ij]) (fun a ha => hread a (List.mem_cons_of_mem _ ha))
          (by rw [List.length_append, List.length_singleton]; omega), List.length_append,
          List.length_singleton, List.map_cons, List.append_assoc, Nat.add_assoc, Nat.add_comm 1]
        rfl

/-- A read loop that ends has read every page. -/
theorem scanLoop_ok {ord : ℕ → Option ℕ} : ∀ {l : List (ℕ × ℕ)} {pages pages' : List (List Byte)},
    scanLoop env mtd ord l pages = .ok (some pages') →
      ∃ new, l.mapM (fun ij => readEntry env mtd (ord ij.1) (ij.2 + 1)) = some new ∧ pages' = pages ++ new
  | [], pages, pages', h => by
      obtain rfl := Option.some.inj (Except.ok.inj h)
      exact ⟨[], rfl, (List.append_nil _).symm⟩
  | (i, j) :: l, pages, pages', h => by
      rw [scanLoop] at h
      cases hread : readEntry env mtd (ord i) (j + 1) with
      | none =>
        rw [hread] at h
        cases Except.ok.inj h
      | some page =>
        rw [hread] at h
        simp only at h
        split at h
        · cases h
        · obtain ⟨new, hnew, rfl⟩ := scanLoop_ok h
          refine ⟨page :: new, ?_, by rw [List.append_assoc, List.singleton_append]⟩
          rw [List.mapM_cons, hread, hnew]
          rfl

/-- The pages read are those of the blocks listed, one block behind the other, if there is room for them. -/
theorem scanPages_spec (hdrv : env.NoDriverError) {ord : ℕ → Option ℕ} {cnt : ℕ}
    (hord : ∀ i < cnt, ord i = some (f i)) :
    scanPages env mtd ord cnt = if cnt * (env.pagesPerBlock - 1) ≤ env.metaRoom then
      .ok (some ((List.range (cnt * (env.pagesPerBlock - 1))).map fun p =>
        content env.pageSize mtd (f (p / (env.pagesPerBlock - 1)) * env.pagesPerBlock +
          (p % (env.pagesPerBlock - 1) + 1))))
      else .error .overflow := by
  have hm : 0 < env.pagesPerBlock - 1 := by
    have := env.two_le_pagesPerBlock
    omega
  rw [scanPages, pairs_eq _ hm, scanLoop_spec (h := fun ij => content env.pageSize mtd
    (f ij.1 * env.pagesPerBlock + (ij.2 + 1))) _ _ ?_ (Nat.zero_le _)]
  · rw [List.length_nil, Nat.zero_add, List.length_map, List.length_range, List.nil_append, List.map_map]
    rfl
  · intro ij hij
    obtain ⟨p, hp, rfl⟩ := List.mem_map.mp hij
    rw [List.mem_range] at hp
    simp only [hord _ (Nat.div_lt_of_lt_mul (by rwa [Nat.mul_comm] at hp)), readEntry, readPage, hdrv.read]
    rfl

theorem mapM_getElem {α β : Type} {g : α → Option β} : ∀ {l : List α} {l' : List β},
    l.mapM g = some l' → ∀ (p : ℕ) (a : α), l[p]? = some a → ∃ b, g a = some b ∧ l'[p]? = some b
  | [], l', h, p, a, hp => by simp at hp
  | x :: l, l', h, p, a, hp => by
      rw [List.mapM_cons] at h
      obtain ⟨y, hy, h⟩ := Option.bind_eq_some_iff.mp h
      obtain ⟨ys, hys, h⟩ := Option.bind_eq_some_iff.mp h
      obtain rfl := Option.some.inj h
      cases p with
      | zero =>
        obtain rfl := Option.some.inj hp
        exact ⟨y, hy, rfl⟩
      | succ p => exact mapM_getElem hys p a hp

theorem scanPages_getElem {ord : ℕ → Option ℕ} {cnt : ℕ} {pages : List (List Byte)}
    (h : scanPages env mtd ord cnt = .ok (some pages)) {p : ℕ} (hp : p < cnt * (env.pagesPerBlock - 1)) :
    ∃ page, readEntry env mtd (ord (p / (env.pagesPerBlock - 1))) (p % (env.pagesPerBlock - 1) + 1) = some page ∧
      pages[p]? = some page := by
  have hm : 0 < env.pagesPerBlock - 1 := by
    have := env.two_le_pagesPerBlock
    omega
  rw [scanPages, pairs_eq _ hm] at h
  obtain ⟨new, hnew, rfl⟩ := scanLoop_ok h
  exact mapM_getElem hnew p _ (by rw [List.getElem?_map, List.getElem?_range hp, Option.map_some])

/-- In particular those of a block that is listed. -/
theorem scanPages_content {ord : ℕ → Option ℕ} {cnt : ℕ} {pages : List (List Byte)}
    (h : scanPages env mtd ord cnt = .ok (some pages)) {p b : ℕ} (hp : p < cnt * (env.pagesPerBlock - 1))
    (hb : ord (p / (env.pagesPerBlock - 1)) = some b) : pages[p]? = some (content env.pageSize mtd
      (b * env.pagesPerBlock + (p % (env.pagesPerBlock - 1) + 1))) := by
  obtain ⟨page, hpage, hget⟩ := scanPages_getElem h hp
  rw [hb] at hpage
  rw [hget, readPage_some hpage]

/-- The metadata fits the pages of its blocks. -/
theorem nbMetaPages_lt (g : Geometry) : g.nbMetaPages < g.nbMetaBlocks * (g.pagesPerBlock - 1) := by
  have hm : 0 < g.pagesPerBlock - 1 := by
    have := g.two_le_pagesPerBlock
    omega
  rw [Geometry.nbMetaBlocks, Nat.mul_comm]
  exact Nat.lt_mul_div_succ _ hm

/-- A byte of the metadata lies on one of its pages. -/
theorem metaPage_lt {g : Geometry} {p : ℕ} (hp : p < g.metadataSize) :
    p / g.pageSize < g.nbMetaPages :=
  Nat.lt_succ_of_le (Nat.div_le_div_right (Nat.le_of_lt hp))

/-! ## The image -/

/-- The metadata headers on flash are those of the blocks `f i`, for the ranks below `cnt`. -/
structure Headers (env : Env) (cnt : ℕ) (f : ℕ → ℕ) (mtd : History) : Prop where
  le : cnt ≤ env.nbMetaBlocks
  lt : ∀ i < cnt, f i < env.nbBlocks
  inj : ∀ i < cnt, ∀ j < cnt, f i = f j → i = j
  header : ∀ i < cnt, rankAt env mtd (f i) = some i
  others : ∀ b < env.nbBlocks, (∀ i < cnt, f i ≠ b) → rankAt env mtd b = none

/-- The flash holds the metadata of `snap`, part `i` of it in block `f i`, for `cnt` parts. -/
structure Image (env : Env) (cnt : ℕ) (f : ℕ → ℕ) (snap : Config) (mtd : History) : Prop
    extends Headers env cnt f mtd where
  covers : env.nbMetaPages ≤ cnt * (env.pagesPerBlock - 1)
  pages : ∀ i < cnt, ∀ j < env.pagesPerBlock - 1, i * (env.pagesPerBlock - 1) + j < env.nbMetaPages →
    content env.pageSize mtd (f i * env.pagesPerBlock + (j + 1)) =
      metaPage env snap (i * (env.pagesPerBlock - 1) + j)

namespace Headers
variable {cnt : ℕ}

theorem rankAt_iff (hH : Headers env cnt f mtd) {b i : ℕ} (hb : b < env.nbBlocks) :
    rankAt env mtd b = some i ↔ i < cnt ∧ f i = b := by
  constructor
  · intro h
    by_cases hc : ∃ j < cnt, f j = b
    · obtain ⟨j, hj, rfl⟩ := hc
      rw [hH.header j hj] at h
      obtain rfl := Option.some.inj h
      exact ⟨hj, rfl⟩
    · rw [hH.others b hb fun j hj hjb => hc ⟨j, hj, hjb⟩] at h
      cases h
  · rintro ⟨hi, rfl⟩
    exact hH.header i hi

theorem count (hH : Headers env cnt f mtd) :
    ((List.range env.nbBlocks).filterMap (rankAt env mtd)).length = cnt := by
  have hnd : ((List.range env.nbBlocks).filterMap (rankAt env mtd)).Nodup := by
    refine List.pairwise_filterMap.mpr (List.nodup_range.imp_of_mem ?_)
    rintro b c hb hc hbc i hi j hj rfl
    rw [List.mem_range] at hb hc
    exact hbc (((hH.rankAt_iff hb).mp hi).2.symm.trans ((hH.rankAt_iff hc).mp hj).2)
  have hperm : ((List.range env.nbBlocks).filterMap (rankAt env mtd)).Perm (List.range cnt) := by
    refine (List.perm_ext_iff_of_nodup hnd List.nodup_range).mpr fun i => ?_
    rw [List.mem_filterMap, List.mem_range]
    constructor
    · rintro ⟨b, hb, hi⟩
      exact ((hH.rankAt_iff (List.mem_range.mp hb)).mp hi).1
    · intro hi
      exact ⟨f i, List.mem_range.mpr (hH.lt i hi), hH.header i hi⟩
  rw [hperm.length_eq, List.length_range]

/-- `meta_blkordr` as the mount finds it. -/
theorem ord_eq (hH : Headers env cnt f mtd) (i : ℕ) :
    (List.range env.nbBlocks).foldl (enterRank env mtd) (fun _ => none) i =
      if i < cnt then some (f i) else none := by
  cases h : (List.range env.nbBlocks).foldl (enterRank env mtd) (fun _ => none) i with
  | none =>
    by_cases hi : i < cnt
    · exact absurd h (foldl_ne_none _ _ i
        (Or.inl ⟨f i, List.mem_range.mpr (hH.lt i hi), hH.header i hi⟩))
    · rw [if_neg hi]
  | some b =>
    rcases rankAt_of_foldl _ _ _ _ h with ⟨hb, hr⟩ | h
    · obtain ⟨hi, rfl⟩ := (hH.rankAt_iff (List.mem_range.mp hb)).mp hr
      rw [if_pos hi]
    · cases h

/-- What the two read loops of a mount find. -/
theorem scan (hH : Headers env cnt f mtd) (hdrv : env.NoDriverError) :
    scanHeaders env mtd (List.range env.nbBlocks) (fun _ => none, 0) =
        .ok (some ((List.range env.nbBlocks).foldl (enterRank env mtd) (fun _ => none), cnt)) ∧
      scanPages env mtd ((List.range env.nbBlocks).foldl (enterRank env mtd) fun _ => none) cnt =
        if cnt * (env.pagesPerBlock - 1) ≤ env.metaRoom then
          .ok (some ((List.range (cnt * (env.pagesPerBlock - 1))).map fun p =>
            content env.pageSize mtd (f (p / (env.pagesPerBlock - 1)) * env.pagesPerBlock +
              (p % (env.pagesPerBlock - 1) + 1))))
        else .error .overflow := by
  have hscan := scanHeaders_spec hdrv mtd (List.range env.nbBlocks) (fun _ => none) 0
    fun b hb i hi => Nat.lt_of_lt_of_le ((hH.rankAt_iff (List.mem_range.mp hb)).mp hi).1 hH.le
  rw [hH.count, Nat.zero_add] at hscan
  exact ⟨hscan, scanPages_spec hdrv fun i hi => (hH.ord_eq i).trans (if_pos hi)⟩

end Headers

namespace Image
variable {cnt : ℕ}

theorem pos (hIm : Image env cnt f snap mtd) : 0 < cnt := by
  have hpages : 0 < env.nbMetaPages := Nat.succ_pos _
  have hcov := hIm.covers
  rcases Nat.eq_zero_or_pos cnt with h0 | h0
  · rw [h0, Nat.zero_mul] at hcov
    omega
  · exact h0

/-- The buffer that `init_scan` fills begins with the metadata that was written. -/
theorem scanBuffer_eq (hIm : Image env cnt f snap mtd) {p : ℕ} (hp : p < env.metadataSize) :
    scanBuffer env mtd ((List.range (cnt * (env.pagesPerBlock - 1))).map fun p =>
      content env.pageSize mtd (f (p / (env.pagesPerBlock - 1)) * env.pagesPerBlock +
        (p % (env.pagesPerBlock - 1) + 1))) p = metaByte env snap p := by
  have hps : 0 < env.pageSize := Nat.lt_of_lt_of_le (by decide) env.eight_le_pageSize
  have hm : 0 < env.pagesPerBlock - 1 := by
    have := env.two_le_pagesPerBlock
    omega
  have hpage : p / env.pageSize < env.nbMetaPages := metaPage_lt hp
  have hq : p / env.pageSize < cnt * (env.pagesPerBlock - 1) :=
    Nat.lt_of_lt_of_le hpage hIm.covers
  have hi : p / env.pageSize / (env.pagesPerBlock - 1) < cnt :=
    (Nat.div_lt_iff_lt_mul hm).mpr hq
  have hmod : p % env.pageSize < env.pageSize := Nat.mod_lt _ hps
  have hsum : p / env.pageSize / (env.pagesPerBlock - 1) * (env.pagesPerBlock - 1) +
      p / env.pageSize % (env.pagesPerBlock - 1) = p / env.pageSize := by
    rw [Nat.mul_comm, Nat.div_add_mod]
  have hget : ((List.range (cnt * (env.pagesPerBlock - 1))).map fun p =>
      content env.pageSize mtd (f (p / (env.pagesPerBlock - 1)) * env.pagesPerBlock +
        (p % (env.pagesPerBlock - 1) + 1)))[p / env.pageSize]? =
      some (metaPage env snap (p / env.pageSize)) := by
    rw [List.getElem?_map, List.getElem?_range hq, Option.map_some,
      hIm.pages _ hi _ (Nat.mod_lt _ hm) (by rwa [hsum]), hsum]
  rw [scanBuffer, hget]
  simp only [mem, metaPage]
  rw [List.getD_eq_getElem _ _ (by simpa using hmod)]
  simp only [List.getElem_map, List.getElem_range]
  rw [Nat.div_add_mod]

end Image

/-! ## Decoding -/

theorem metaByte_blkInfo (s : Config) {b o : ℕ} (hb : b < env.nbBlocks) (ho : o < 24) :
    metaByte env s (Geometry.sizeofBlkInfo * b + o) =
      blkInfoByte (env.padding s.mtd (Geometry.sizeofBlkInfo * b + o)) (s.blocks b) o := by
  have hlt : Geometry.sizeofBlkInfo * b + o < env.blockInfoSize := by
    simp only [Geometry.sizeofBlkInfo, Geometry.blockInfoSize]
    omega
  have hdiv : (Geometry.sizeofBlkInfo * b + o) / Geometry.sizeofBlkInfo = b := by
    simp only [Geometry.sizeofBlkInfo]
    omega
  have hmod : (Geometry.sizeofBlkInfo * b + o) % Geometry.sizeofBlkInfo = o := by
    simp only [Geometry.sizeofBlkInfo]
    omega
  rw [metaByte, if_pos hlt, hdiv, hmod]

theorem metaByte_bucket (s : Config) {h o : ℕ} (hh : h < env.hashSize) (ho : o < 168) :
    metaByte env s (env.blockInfoSize + Geometry.sizeofBucket * h + o) =
      bucketByte (env.padding s.mtd (env.blockInfoSize + Geometry.sizeofBucket * h + o))
        (s.hashtable h) o := by
  have hlt : env.blockInfoSize + Geometry.sizeofBucket * h + o < env.metadataSize := by
    simp only [Geometry.metadataSize, Geometry.hashtableSize, Geometry.sizeofBucket]
    omega
  have hsub : env.blockInfoSize + Geometry.sizeofBucket * h + o - env.blockInfoSize =
      Geometry.sizeofBucket * h + o := by omega
  have hdiv : (Geometry.sizeofBucket * h + o) / Geometry.sizeofBucket = h := by
    simp only [Geometry.sizeofBucket]
    omega
  have hmod : (Geometry.sizeofBucket * h + o) % Geometry.sizeofBucket = o := by
    simp only [Geometry.sizeofBucket]
    omega
  rw [metaByte, if_neg (by omega), if_pos hlt, hsub, hdiv, hmod]

/-- An `int` field of a block record, at offset `8`, `12`, `16` or `20`. -/
theorem readLe_blkInfo (s : Config) {b : ℕ} (hb : b < env.nbBlocks) (o n : ℕ) (ho : o + 4 ≤ 24)
    (hn : ∀ pad, ∀ i < 4, blkInfoByte pad (s.blocks b) (o + i) = leByte n i) :
    readLe (metaByte env s) (Geometry.sizeofBlkInfo * b + o) = n % 2 ^ 32 := by
  refine readLe_leByte fun i hi => ?_
  rw [Nat.add_assoc, metaByte_blkInfo s hb (by omega)]
  exact hn _ i hi

/-- An `int` field of a bucket. -/
theorem readLe_bucket (s : Config) {h : ℕ} (hh : h < env.hashSize) (o n : ℕ) (ho : o + 4 ≤ 168)
    (hn : ∀ pad, ∀ i < 4, bucketByte pad (s.hashtable h) (o + i) = leByte n i) :
    readLe (metaByte env s) (env.blockInfoSize + Geometry.sizeofBucket * h + o) = n % 2 ^ 32 := by
  refine readLe_leByte fun i hi => ?_
  rw [Nat.add_assoc, metaByte_bucket s hh (by omega)]
  exact hn _ i hi

theorem BlkState.ofCode_code (st : BlkState) : BlkState.ofCode (st.code % 2 ^ 32) = some st := by
  cases st <;> rfl

theorem PageState.ofCode_code (st : PageState) : PageState.ofCode (st.code % 2 ^ 32) = some st := by
  cases st <;> rfl

theorem counter_some {w n : ℕ} (h : counter w = some n) : n = w := by
  unfold counter at h
  split at h
  · exact (Option.some.inj h).symm
  · cases h

theorem counter_of_lt {n : ℕ} (h : n < 2 ^ 31) : counter (n % 2 ^ 32) = some n := by
  rw [Nat.mod_eq_of_lt (by omega)]
  exact if_pos h

/-- A block record read back from the image. -/
theorem readBlkInfo_metaByte (s : Config) {b : ℕ} (hb : b < env.nbBlocks) :
    readBlkInfo (metaByte env s) (Geometry.sizeofBlkInfo * b) =
      match counter ((s.blocks b).worn % 2 ^ 32), counter ((s.blocks b).nbInvalid % 2 ^ 32),
        counter ((s.blocks b).currentPageOffset % 2 ^ 32) with
      | some worn, some nbInvalid, some currentPageOffset =>
          some ⟨[], (s.blocks b).state, worn, nbInvalid, currentPageOffset⟩
      | _, _, _ => none := by
  have h8 := readLe_blkInfo s hb 8 (s.blocks b).state.code (by omega) fun pad i hi => by
    rw [blkInfoByte, if_neg (by omega), if_pos (by omega), Nat.add_sub_cancel_left]
  have h12 := readLe_blkInfo s hb 12 (s.blocks b).worn (by omega) fun pad i hi => by
    rw [blkInfoByte, if_neg (by omega), if_neg (by omega), if_pos (by omega),
      Nat.add_sub_cancel_left]
  have h16 := readLe_blkInfo s hb 16 (s.blocks b).nbInvalid (by omega) fun pad i hi => by
    rw [blkInfoByte, if_neg (by omega), if_neg (by omega), if_neg (by omega), if_pos (by omega),
      Nat.add_sub_cancel_left]
  have h20 := readLe_blkInfo s hb 20 (s.blocks b).currentPageOffset (by omega) fun pad i hi => by
    rw [blkInfoByte, if_neg (by omega), if_neg (by omega), if_neg (by omega), if_neg (by omega),
      Nat.add_sub_cancel_left]
  simp only [readBlkInfo, h8, h12, h16, h20, BlkState.ofCode_code]
  cases counter ((s.blocks b).worn % 2 ^ 32) <;>
    cases counter ((s.blocks b).nbInvalid % 2 ^ 32) <;>
    cases counter ((s.blocks b).currentPageOffset % 2 ^ 32) <;> rfl

/-- The key array of a bucket: the key, its terminator, and what lies behind it. -/
theorem cut_key (s : Config) {h : ℕ} (hh : h < env.hashSize)
    (hk : (s.hashtable h).key.len < 128) : ∃ rest,
      cut (metaByte env s) (env.blockInfoSize + Geometry.sizeofBucket * h + 24) 128 =
        (s.hashtable h).key.bytes ++ 0 :: rest := by
  have hbyte : ∀ i, i < 128 →
      metaByte env s (env.blockInfoSize + Geometry.sizeofBucket * h + 24 + i) =
        if i < (s.hashtable h).key.len then mem (s.hashtable h).key.bytes i
        else if i = (s.hashtable h).key.len then 0
        else env.padding s.mtd (env.blockInfoSize + Geometry.sizeofBucket * h + (24 + i)) := by
    intro i hi
    rw [Nat.add_assoc, metaByte_bucket s hh (by omega), bucketByte, if_neg (by omega),
      if_neg (by omega), if_neg (by omega), if_pos (by omega), Nat.add_sub_cancel_left]
  obtain ⟨d, hd⟩ : ∃ d, 128 = (s.hashtable h).key.len + (1 + d) := ⟨127 - (s.hashtable h).key.len, by omega⟩
  refine ⟨(List.range d).map fun i => metaByte env s
    (env.blockInfoSize + Geometry.sizeofBucket * h + 24 + ((s.hashtable h).key.len + (1 + i))), ?_⟩
  have hkey : (List.range (s.hashtable h).key.len).map (fun i =>
      metaByte env s (env.blockInfoSize + Geometry.sizeofBucket * h + 24 + i)) =
      (s.hashtable h).key.bytes := by
    refine List.ext_getElem (by simp [CStr.len]) fun i h1 h2 => ?_
    rw [List.getElem_map, List.getElem_range, hbyte i (by simp at h1; omega),
      if_pos (by simpa using h1), mem, List.getD_eq_getElem _ _ h2]
  have hnul : metaByte env s
      (env.blockInfoSize + Geometry.sizeofBucket * h + 24 + ((s.hashtable h).key.len + 0)) = 0 := by
    rw [hbyte _ (by omega), Nat.add_zero, if_neg (by omega), if_pos rfl]
  rw [cut]
  conv_lhs => rw [hd]
  rw [List.range_add, List.map_append, hkey, List.map_map, List.range_add, List.map_append]
  simp only [List.range_one, List.map_cons, List.map_nil, Function.comp_apply, hnul, List.map_map,
    List.singleton_append]
  rfl

/-- A bucket read back from the image. -/
theorem readBucket_metaByte (s : Config) {h : ℕ} (hh : h < env.hashSize) :
    readBucket (metaByte env s) (env.blockInfoSize + Geometry.sizeofBucket * h) =
      match counter ((s.hashtable h).index % 2 ^ 32) with
      | some index =>
          if (cut (metaByte env s) (env.blockInfoSize + Geometry.sizeofBucket * h + 24) 128).contains 0
          then some ⟨(s.hashtable h).dirty, index,
            .ofBytes (cut (metaByte env s)
              (env.blockInfoSize + Geometry.sizeofBucket * h + 24) 128), (s.hashtable h).pState⟩
          else none
      | none => none := by
  have h16 := readLe_bucket s hh 16 (if (s.hashtable h).dirty then 1 else 0) (by omega)
    fun pad i hi => by
      rw [bucketByte, if_neg (by omega), if_pos (by omega), Nat.add_sub_cancel_left]
  have h20 := readLe_bucket s hh 20 (s.hashtable h).index (by omega) fun pad i hi => by
    rw [bucketByte, if_neg (by omega), if_neg (by omega), if_pos (by omega),
      Nat.add_sub_cancel_left]
  have h152 := readLe_bucket s hh 152 (s.hashtable h).pState.code (by omega) fun pad i hi => by
    rw [bucketByte, if_neg (by omega), if_neg (by omega), if_neg (by omega), if_neg (by omega),
      if_pos (by omega), Nat.add_sub_cancel_left]
  have hd : decide ((if (s.hashtable h).dirty then 1 else 0) % 2 ^ 32 ≠ 0) =
      (s.hashtable h).dirty := by
    cases (s.hashtable h).dirty <;> rfl
  simp only [readBucket, h16, h20, h152, PageState.ofCode_code, hd]
  cases counter ((s.hashtable h).index % 2 ^ 32) <;> rfl

theorem readBlkInfo_congr {F G : ℕ → Byte} {pos : ℕ} (h : ∀ o < 24, F (pos + o) = G (pos + o)) :
    readBlkInfo F pos = readBlkInfo G pos := by
  have hw : ∀ o, o + 4 ≤ 24 → readLe F (pos + o) = readLe G (pos + o) := fun o ho =>
    readLe_congr fun i hi => by rw [Nat.add_assoc]; exact h _ (by omega)
  rw [readBlkInfo, readBlkInfo, hw 8 (by omega), hw 12 (by omega), hw 16 (by omega),
    hw 20 (by omega)]

theorem readBucket_congr {F G : ℕ → Byte} {pos : ℕ} (h : ∀ o < 168, F (pos + o) = G (pos + o)) :
    readBucket F pos = readBucket G pos := by
  have hw : ∀ o, o + 4 ≤ 168 → readLe F (pos + o) = readLe G (pos + o) := fun o ho =>
    readLe_congr fun i hi => by rw [Nat.add_assoc]; exact h _ (by omega)
  have hc : cut F (pos + 24) 128 = cut G (pos + 24) 128 := by
    refine List.map_congr_left fun i hi => ?_
    rw [List.mem_range] at hi
    rw [Nat.add_assoc]
    exact h _ (by omega)
  rw [readBucket, readBucket, hw 16 (by omega), hw 20 (by omega), hw 152 (by omega), hc]

theorem readMeta_some {g : Geometry} {F : ℕ → Byte} {blocks : ℕ → BlkInfo} {table : ℕ → Bucket}
    (h : readMeta g F = some (blocks, table)) :
    (∀ b < g.nbBlocks, readBlkInfo F (Geometry.sizeofBlkInfo * b) = some (blocks b)) ∧
      ∀ h < g.hashSize,
        readBucket F (g.blockInfoSize + Geometry.sizeofBucket * h) = some (table h) := by
  unfold readMeta at h
  split at h
  · rename_i hall
    simp only [Bool.and_eq_true, List.all_eq_true, List.mem_range] at hall
    obtain ⟨rfl, rfl⟩ := Prod.mk.inj (Option.some.inj h)
    constructor
    · intro b hb
      obtain ⟨r, hr⟩ := Option.isSome_iff_exists.mp (hall.1 b hb)
      simp only [hr, Option.getD_some]
    · intro j hj
      obtain ⟨r, hr⟩ := Option.isSome_iff_exists.mp (hall.2 j hj)
      simp only [hr, Option.getD_some]
  · cases h

theorem readMeta_isSome {g : Geometry} {F : ℕ → Byte}
    (h1 : ∀ b < g.nbBlocks, (readBlkInfo F (Geometry.sizeofBlkInfo * b)).isSome = true)
    (h2 : ∀ h < g.hashSize,
      (readBucket F (g.blockInfoSize + Geometry.sizeofBucket * h)).isSome = true) :
    ∃ blocks table, readMeta g F = some (blocks, table) := by
  refine ⟨_, _, if_pos ?_⟩
  simp only [Bool.and_eq_true, List.all_eq_true, List.mem_range]
  exact ⟨h1, h2⟩

/-! ## The lists -/

/-- The list that the last loop of `init_scan` builds for a block. -/
def linked (g : Geometry) (table : ℕ → Bucket) (hs : List ℕ) (b : ℕ) : List ℕ :=
  (hs.filter fun h => (table h).pState = .pgValid ∧ (table h).index / g.pagesPerBlock = b).reverse

theorem relink_ok {g : Geometry} {table : ℕ → Bucket} : ∀ {hs : List ℕ} {blocks blocks' : ℕ → BlkInfo},
    relink g table hs blocks = .ok blocks' →
      (∀ h ∈ hs, (table h).pState = .pgValid → (table h).index / g.pagesPerBlock < g.nbBlocks) ∧
      ∀ b, blocks' b = { blocks b with list := linked g table hs b ++ (blocks b).list }
  | [], blocks, blocks', he => by
      obtain rfl := Except.ok.inj he
      exact ⟨by simp, fun b => rfl⟩
  | h :: hs, blocks, blocks', he => by
      rw [relink] at he
      by_cases hv : (table h).pState = .pgValid
      · rw [if_pos hv] at he
        simp only at he
        split at he
        · cases he
        · rename_i hb
          obtain ⟨hlt, hblk⟩ := relink_ok he
          refine ⟨fun j hj hvj => ?_, fun b => ?_⟩
          · rcases List.mem_cons.mp hj with rfl | hj
            · omega
            · exact hlt j hj hvj
          · rw [hblk]
            by_cases hbe : (table h).index / g.pagesPerBlock = b
            · subst hbe
              simp [linked, hv]
            · rw [Function.update_of_ne (Ne.symm hbe)]
              simp [linked, hbe]
      · rw [if_neg hv] at he
        obtain ⟨hlt, hblk⟩ := relink_ok he
        refine ⟨fun j hj hvj => ?_, fun b => ?_⟩
        · rcases List.mem_cons.mp hj with rfl | hj
          · exact absurd hvj hv
          · exact hlt j hj hvj
        · rw [hblk]
          simp [linked, hv]

theorem relink_total {g : Geometry} {table : ℕ → Bucket} : ∀ (hs : List ℕ) (blocks : ℕ → BlkInfo),
    (∀ h ∈ hs, (table h).pState = .pgValid → (table h).index / g.pagesPerBlock < g.nbBlocks) →
      ∃ blocks', relink g table hs blocks = .ok blocks'
  | [], blocks, _ => ⟨blocks, rfl⟩
  | h :: hs, blocks, hlt => by
      have hlt' := fun j (hj : j ∈ hs) => hlt j (List.mem_cons_of_mem _ hj)
      rw [relink]
      by_cases hv : (table h).pState = .pgValid
      · rw [if_pos hv]
        simp only
        rw [if_neg (Nat.not_le_of_lt (hlt h List.mem_cons_self hv))]
        exact relink_total hs _ hlt'
      · rw [if_neg hv]
        exact relink_total hs _ hlt'

/-! ## The mount -/

/-- `t` is `snap` as 32-bit fields hold it, with rebuilt lists. -/
structure Mounted (env : Env) (cnt : ℕ) (f : ℕ → ℕ) (snap : Config) (mtd : History) (t : Config) :
    Prop where
  blkLt : ∀ h, t.Valid env.toGeometry h → t.blkOf env.toGeometry h < env.nbBlocks
  blocks : ∀ b < env.nbBlocks, t.blocks b =
    { list := linked env.toGeometry t.hashtable (List.range env.hashSize) b
      state := (snap.blocks b).state
      worn := (snap.blocks b).worn % 2 ^ 32
      nbInvalid := (snap.blocks b).nbInvalid % 2 ^ 32
      currentPageOffset := (snap.blocks b).currentPageOffset % 2 ^ 32 }
  pState : ∀ h < env.hashSize, (t.hashtable h).pState = (snap.hashtable h).pState
  dirty : ∀ h < env.hashSize, (t.hashtable h).dirty = (snap.hashtable h).dirty
  index : ∀ h < env.hashSize, (t.hashtable h).index = (snap.hashtable h).index % 2 ^ 32
  key : ∀ h < env.hashSize, (snap.hashtable h).key.len < 128 →
    (t.hashtable h).key = (snap.hashtable h).key
  ord : ∀ i, t.metaBlkordr i = if i < cnt then some (f i) else none
  mtd : t.mtd = mtd
  readOnly : t.readOnly = isReadOnly env.toGeometry t

/-- Every field of the metadata of `snap` is in the range of its type, and every valid bucket points
into the device. -/
structure Decodable (g : Geometry) (snap : Config) : Prop where
  worn : ∀ b < g.nbBlocks, (snap.blocks b).worn < 2 ^ 31
  nbInvalid : ∀ b < g.nbBlocks, (snap.blocks b).nbInvalid < 2 ^ 31
  offset : ∀ b < g.nbBlocks, (snap.blocks b).currentPageOffset < 2 ^ 31
  index : ∀ h < g.hashSize, (snap.hashtable h).index < 2 ^ 31
  key : ∀ h < g.hashSize, (snap.hashtable h).key.len < 128
  blkLt : ∀ h, snap.Valid g h → snap.blkOf g h < g.nbBlocks

/-- Of such metadata a mount restores every bucket as it was. -/
theorem Mounted.hashtable_eq {cnt : ℕ} (hM : Mounted env cnt f snap mtd t)
    (hD : Decodable env.toGeometry snap) {h : ℕ} (hh : h < env.hashSize) :
    t.hashtable h = snap.hashtable h := by
  have hi := hD.index h hh
  have hindex := hM.index h hh
  rw [Nat.mod_eq_of_lt (by omega)] at hindex
  have hdirty := hM.dirty h hh
  have hkey := hM.key h hh (hD.key h hh)
  have hstate := hM.pState h hh
  cases ht : t.hashtable h
  cases hs : snap.hashtable h
  simp only [ht, hs] at hindex hdirty hkey hstate
  subst hindex hdirty hkey hstate
  rfl

theorem checkReadOnly_eq (g : Geometry) (s : Config) (hro : s.readOnly = false) :
    checkReadOnly g s = { s with readOnly := isReadOnly g s } := by
  unfold checkReadOnly
  cases h : isReadOnly g s with
  | true => rfl
  | false =>
    simp only [Bool.false_eq_true, if_false]
    rw [← hro]

namespace Image
variable {cnt : ℕ}

/-- With an image that the buffer has room for, `init_scan` gets as far as decoding it. -/
theorem initScan_eq (hIm : Image env cnt f snap mtd) (hdrv : env.NoDriverError) :
    ∃ buf, (∀ p < env.metadataSize, buf p = metaByte env snap p) ∧
      initScan env mtd = if cnt * (env.pagesPerBlock - 1) ≤ env.metaRoom then
          match readMeta env.toGeometry buf with
          | none => .error .torn
          | some (blocks, hashtable) =>
              match relink env.toGeometry hashtable (List.range env.hashSize) blocks with
              | .error f => .error f
              | .ok blocks => .ok (0, checkReadOnly env.toGeometry ⟨blocks, hashtable,
                  (List.range env.nbBlocks).foldl (enterRank env mtd) fun _ => none, false, mtd⟩)
        else .error .overflow := by
  obtain ⟨hscan, hpages⟩ := hIm.scan hdrv
  refine ⟨_, fun p hp => hIm.scanBuffer_eq hp, ?_⟩
  have hne : cnt ≠ 0 := Nat.ne_of_gt hIm.pos
  rw [initScan, hscan]
  dsimp only
  rw [hpages]
  by_cases hroom : cnt * (env.pagesPerBlock - 1) ≤ env.metaRoom
  · rw [if_pos hroom, if_pos hroom]
    exact if_neg hne
  · rw [if_neg hroom, if_neg hroom]

theorem mount_ok (hIm : Image env cnt f snap mtd) (hdrv : env.NoDriverError) {ret : ℤ}
    (he : initScan env mtd = .ok (ret, t)) : ret = 0 ∧ Mounted env cnt f snap mtd t := by
  obtain ⟨buf, hbuf, hscan⟩ := hIm.initScan_eq hdrv
  rw [hscan] at he
  by_cases hroom : cnt * (env.pagesPerBlock - 1) ≤ env.metaRoom
  case neg =>
    rw [if_neg hroom] at he
    cases he
  rw [if_pos hroom] at he
  split at he
  · cases he
  · rename_i blocks table hmeta
    obtain ⟨hblk, htab⟩ := readMeta_some hmeta
    split at he
    · cases he
    · rename_i blocks' hrel
      obtain ⟨hlt, hlist⟩ := relink_ok hrel
      rw [checkReadOnly_eq _ _ rfl] at he
      obtain ⟨rfl, rfl⟩ := Prod.mk.inj (Except.ok.inj he)
      have hblk' : ∀ b < env.nbBlocks, blocks b =
          ⟨[], (snap.blocks b).state, (snap.blocks b).worn % 2 ^ 32,
            (snap.blocks b).nbInvalid % 2 ^ 32, (snap.blocks b).currentPageOffset % 2 ^ 32⟩ := by
        intro b hb
        have h := hblk b hb
        rw [readBlkInfo_congr (G := metaByte env snap) fun o ho => hbuf _ (by
            simp only [Geometry.metadataSize, Geometry.blockInfoSize, Geometry.sizeofBlkInfo]
            omega), readBlkInfo_metaByte snap hb] at h
        split at h
        · rename_i w n o hw hn ho
          rw [counter_some hw, counter_some hn, counter_some ho] at h
          exact (Option.some.inj h).symm
        · cases h
      have htab' : ∀ h < env.hashSize, (table h).dirty = (snap.hashtable h).dirty ∧
          (table h).index = (snap.hashtable h).index % 2 ^ 32 ∧
          (table h).pState = (snap.hashtable h).pState ∧
          ((snap.hashtable h).key.len < 128 → (table h).key = (snap.hashtable h).key) := by
        intro j hj
        have h := htab j hj
        rw [readBucket_congr (G := metaByte env snap) fun o ho => hbuf _ (by
            simp only [Geometry.metadataSize, Geometry.hashtableSize, Geometry.sizeofBucket]
            omega), readBucket_metaByte snap hj] at h
        split at h
        · rename_i i hi
          split at h
          · rw [← Option.some.inj h, counter_some hi]
            refine ⟨rfl, rfl, rfl, fun hk => ?_⟩
            obtain ⟨rest, hr⟩ := cut_key snap hj hk
            simp only [hr, CStr.ofBytes_append]
          · cases h
        · cases h
      refine ⟨rfl, ?_, ?_, fun h hh => (htab' h hh).2.2.1, fun h hh => (htab' h hh).1,
        fun h hh => (htab' h hh).2.1, fun h hh => (htab' h hh).2.2.2, hIm.ord_eq, rfl, rfl⟩
      · exact fun h hv => hlt h (List.mem_range.mpr hv.1) hv.2
      · intro b hb
        simp only [hlist, hblk' b hb, List.append_nil]

/-- A mount goes through when every field of the image is in range and the buffer has room for it. -/
theorem mount_total (hIm : Image env cnt f snap mtd) (hdrv : env.NoDriverError)
    (hD : Decodable env.toGeometry snap) (hroom : cnt * (env.pagesPerBlock - 1) ≤ env.metaRoom) :
    ∃ t, initScan env mtd = .ok (0, t) ∧ Mounted env cnt f snap mtd t := by
  obtain ⟨buf, hbuf, hscan⟩ := hIm.initScan_eq hdrv
  rw [if_pos hroom] at hscan
  have hb : ∀ b < env.nbBlocks, (readBlkInfo buf (Geometry.sizeofBlkInfo * b)).isSome = true := by
    intro b hb
    have h1 := hD.worn b hb
    have h2 := hD.nbInvalid b hb
    have h3 := hD.offset b hb
    rw [readBlkInfo_congr (G := metaByte env snap) fun o ho => hbuf _ (by
        simp only [Geometry.metadataSize, Geometry.blockInfoSize, Geometry.sizeofBlkInfo]
        omega), readBlkInfo_metaByte snap hb, counter_of_lt h1, counter_of_lt h2, counter_of_lt h3]
    rfl
  have hd : ∀ h < env.hashSize, ∃ r, readBucket buf
      (env.blockInfoSize + Geometry.sizeofBucket * h) = some r ∧
        r.pState = (snap.hashtable h).pState ∧ r.index = (snap.hashtable h).index := by
    intro h hh
    have h1 := hD.index h hh
    have h2 := hD.key h hh
    obtain ⟨rest, hr⟩ : ∃ rest, cut (metaByte env snap)
        (env.blockInfoSize + Geometry.sizeofBucket * h + 24) 128 =
          (snap.hashtable h).key.bytes ++ 0 :: rest := cut_key snap hh h2
    rw [readBucket_congr (G := metaByte env snap) fun o ho => hbuf _ (by
        simp only [Geometry.metadataSize, Geometry.hashtableSize, Geometry.sizeofBucket]
        omega), readBucket_metaByte snap hh, counter_of_lt h1, hr]
    simp
  obtain ⟨blocks, table, hmeta⟩ := readMeta_isSome hb fun h hh => by
    obtain ⟨r, hr, -⟩ := hd h hh
    rw [hr]
    rfl
  obtain ⟨-, htable⟩ := readMeta_some hmeta
  have hvalid : ∀ h ∈ List.range env.hashSize, (table h).pState = .pgValid →
      (table h).index / env.pagesPerBlock < env.nbBlocks := by
    intro h hh hv
    rw [List.mem_range] at hh
    obtain ⟨r, hr, hp, hi⟩ := hd h hh
    rw [htable h hh] at hr
    obtain rfl := Option.some.inj hr
    rw [hi]
    exact hD.blkLt h ⟨hh, hp ▸ hv⟩
  obtain ⟨blocks', hrel⟩ := relink_total _ blocks hvalid
  rw [hmeta] at hscan
  simp only [hrel] at hscan
  exact ⟨_, hscan, (hIm.mount_ok hdrv hscan).2⟩

end Image

/-! ## A flush leaves an image -/

theorem rankAt_congr {mtd' : History} {b : ℕ}
    (h : content env.pageSize mtd' (b * env.pagesPerBlock) =
      content env.pageSize mtd (b * env.pagesPerBlock)) : rankAt env mtd' b = rankAt env mtd b := by
  rw [rankAt, rankAt, h]

theorem rankAt_metaHdr {b i : ℕ} (hi : i < 2 ^ 32)
    (h : content env.pageSize mtd (b * env.pagesPerBlock) =
      hdrPage env.toGeometry (.nandMetaData i)) : rankAt env mtd b = some i := by
  have h0 : readLe (mem (hdrPage env.toGeometry (.nandMetaData i))) 0 = metaHdrBase :=
    readLe_le32_append (by decide) _
  have h4 : readLe (mem (hdrPage env.toGeometry (.nandMetaData i))) 4 = i :=
    readLe_append_le32_append hi (le32 metaHdrBase) _
  simp only [rankAt, h, h0, h4, if_true]

/-- A block whose first page is erased is not taken for metadata. -/
theorem rankAt_erased {b : ℕ}
    (h : content env.pageSize mtd (b * env.pagesPerBlock) = erased env.pageSize) :
    rankAt env mtd b = none := by
  have hlen := env.eight_le_pageSize
  have hbyte : ∀ i, i < 4 → mem (erased env.pageSize) (0 + i) = BitVec.allOnes 8 := by
    intro i hi
    rw [Nat.zero_add, mem, List.getD_eq_getElem _ _ (by rw [erased_length]; omega)]
    simp [erased]
  have h0 : readLe (mem (erased env.pageSize)) 0 = 2 ^ 32 - 1 := by
    have h1 := hbyte 1 (by omega)
    have h2 := hbyte 2 (by omega)
    have h3 := hbyte 3 (by omega)
    have h4 := hbyte 0 (by omega)
    rw [Nat.add_zero] at h4
    simp only [readLe, h1, h2, h3, h4]
    decide
  simp only [rankAt, h, h0]
  rfl

/-- Nor is one whose first page is a data header, over whatever it was programmed. -/
theorem rankAt_dataHdr {b : ℕ} : rankAt env
    (.program (b * env.pagesPerBlock) (hdrPage env.toGeometry .nandData) :: mtd) b = none := by
  have hbyte : ∀ i, mem (content env.pageSize (.program (b * env.pagesPerBlock)
      (hdrPage env.toGeometry .nandData) :: mtd) (b * env.pagesPerBlock)) i = 0 := by
    intro i
    have hc : content env.pageSize (.program (b * env.pagesPerBlock)
        (hdrPage env.toGeometry .nandData) :: mtd) (b * env.pagesPerBlock) =
        clearBits (content env.pageSize mtd (b * env.pagesPerBlock))
          (List.replicate env.pageSize 0) := if_pos rfl
    rw [hc, mem]
    by_cases hi : i < (clearBits (content env.pageSize mtd (b * env.pagesPerBlock))
        (List.replicate env.pageSize 0)).length
    · rw [List.getD_eq_getElem _ _ hi]
      simp [clearBits]
    · rw [List.getD_eq_default _ _ (Nat.le_of_not_lt hi)]
  have h0 : readLe (mem (content env.pageSize (.program (b * env.pagesPerBlock)
      (hdrPage env.toGeometry .nandData) :: mtd) (b * env.pagesPerBlock))) 0 = 0 := by
    simp only [readLe, hbyte]
    rfl
  simp only [rankAt, h0]
  rfl

theorem Flushed.image {s' : Config} (hF : Flushed env f s snap s')
    (hfresh : ∀ i < env.nbMetaBlocks, ∀ o < env.pagesPerBlock,
      programmed snap.mtd (f i * env.pagesPerBlock + o) = false)
    (hothers : ∀ b < env.nbBlocks, ¬ Chosen env.toGeometry f b → rankAt env snap.mtd b = none) :
    Image env env.nbMetaBlocks f snap s'.mtd where
  le := Nat.le_refl _
  covers := Nat.le_of_lt (nbMetaPages_lt _)
  lt := hF.lt
  inj := hF.inj
  header i hi := by
    have hle := hF.nbMetaBlocks_le
    have hsize := env.hashSize_lt
    have hmul := Nat.le_mul_of_pos_right env.nbBlocks env.pagesPerBlock_pos
    refine rankAt_metaHdr (by omega) ?_
    refine hF.content_mem (w := (f i * env.pagesPerBlock, _)) ?_ ?_
    · exact List.mem_flatMap.mpr ⟨i, List.mem_range.mpr hi, List.mem_cons_self⟩
    · exact hfresh i hi 0 env.pagesPerBlock_pos
  pages i hi j hj _ := by
    refine hF.content_mem (w := (f i * env.pagesPerBlock + (j + 1), _)) ?_ ?_
    · refine List.mem_flatMap.mpr ⟨i, List.mem_range.mpr hi, List.mem_cons_of_mem _ ?_⟩
      exact List.mem_map.mpr ⟨j, List.mem_range.mpr hj, rfl⟩
    · exact hfresh i hi (j + 1) (by omega)
  others b hb hne := by
    have hc : ¬ Chosen env.toGeometry f b := fun ⟨i, hi, hib⟩ => hne i hi hib
    rw [← hothers b hb hc]
    refine rankAt_congr (hF.content_ne ?_)
    rwa [Nat.mul_div_cancel _ env.pagesPerBlock_pos]

end LkpProjects.Serial
