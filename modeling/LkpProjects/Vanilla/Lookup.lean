import LkpProjects.Vanilla.Allocation

/-! # The vanilla store: which key a lookup finds

A page holds the key directly before the value, and `get_keyval` compares as many bytes as the wanted
key has: it takes the page for the wanted one as soon as the text "key, value" begins with the key. In a
store filled by `set_keyval` alone a lookup is exact for the keys that are stored, and for those that no
stored text begins with (`exact_lookup_iff`). A key longer than a page holds is compared with memory
behind the buffer when a full page is a prefix of it.
-/
namespace LkpProjects.Vanilla
open Nand Bytes
set_option autoImplicit false

/-- The comparison with the page of `kv` does not find a byte that differs from `key`. -/
def Overlaps (g : Geometry) (key : CStr) (kv : CStr × CStr) : Prop :=
  key.bytes.take (g.pageSize - 8) <+: kv.1.bytes ++ kv.2.bytes

instance (g : Geometry) (key : CStr) (kv : CStr × CStr) : Decidable (Overlaps g key kv) :=
  inferInstanceAs (Decidable (_ <+: _))

variable {g : Geometry} {d : Driver} {h₀ : History} {ps : List (CStr × CStr)} {s s' : Config}
  {key val : CStr} {kv : CStr × CStr}

/-! ## `strncmp` on a page -/

theorem strncmpEq_eq (buf : List Byte) (key : CStr) : strncmpEq buf key =
    if key.bytes.take buf.length <+: buf then (if key.len ≤ buf.length then some true else none)
    else some false := by
  unfold strncmpEq
  by_cases hlen : key.len ≤ buf.length
  · have hshort : ¬ (buf.length < key.len ∧ buf = key.bytes.take buf.length) := fun h => by omega
    have htake : key.bytes.take buf.length = key.bytes := List.take_of_length_le hlen
    have hpre : key.bytes <+: buf ↔ key.bytes = buf.take key.len := List.prefix_iff_eq_take
    rw [if_neg hshort, htake, if_pos hlen]
    by_cases he : key.bytes = buf.take key.len
    · rw [if_pos (hpre.mpr he), ← he, beq_self_eq_true]
    · rw [if_neg (hpre.not.mpr he), beq_eq_false_iff_ne.mpr (Ne.symm he)]
  · have hlong : (key.bytes.take buf.length).length = buf.length := by
      rw [List.length_take]
      exact Nat.min_eq_left (not_le.mp hlen).le
    have hpre : key.bytes.take buf.length <+: buf ↔ buf = key.bytes.take buf.length := by
      rw [List.prefix_iff_eq_take, hlong, List.take_length, eq_comm]
    rw [if_neg hlen]
    by_cases he : buf = key.bytes.take buf.length
    · rw [if_pos ⟨not_le.mp hlen, he⟩, if_pos (hpre.mpr he)]
    · have hne : buf.take key.len ≠ key.bytes := by
        intro h
        rw [List.take_of_length_le (not_le.mp hlen).le] at h
        rw [h, CStr.len] at hlen
        exact hlen le_rfl
      rw [if_neg fun h => he h.2, if_neg (hpre.not.mpr he), beq_eq_false_iff_ne.mpr hne]

/-- Bytes without a zero that begin a zero-padded text begin the text. -/
theorem prefix_of_padded {a t : List Byte} (ha : ∀ c ∈ a, c ≠ 0) : ∀ {m : ℕ},
    a <+: t ++ List.replicate m 0 → a <+: t
  | 0, h => by simpa using h
  | m + 1, h => by
      rw [List.replicate_succ', ← List.append_assoc, List.prefix_concat_iff] at h
      rcases h with rfl | h
      · exact absurd rfl (ha 0 (by simp))
      · exact prefix_of_padded ha h

section Record
variable (hfit : 8 + kv.1.len + kv.2.len ≤ g.pageSize)
include hfit

theorem record_length : (record g kv.1 kv.2).length = g.pageSize := by
  simp only [record, List.length_append, le32_length, List.length_replicate, CStr.len] at hfit ⊢
  omega

theorem record_keyLen : readLe (mem (record g kv.1 kv.2)) 0 = kv.1.len := by
  have := g.pageSize_lt
  exact readLe_le32_append (by omega) _

theorem record_valLen : readLe (mem (record g kv.1 kv.2)) 4 = kv.2.len := by
  have := g.pageSize_lt
  exact readLe_append_le32_append (by omega) (le32 kv.1.len) _

omit hfit in
theorem record_drop : (record g kv.1 kv.2).drop 8 = kv.1.bytes ++ kv.2.bytes ++
    List.replicate (g.pageSize - (8 + kv.1.len + kv.2.len)) 0 := by
  rw [record, ← List.append_assoc, List.drop_left' (by simp), List.append_assoc]

omit hfit in
theorem record_val :
    ((record g kv.1 kv.2).drop (8 + kv.1.len)).take kv.2.len = kv.2.bytes := by
  rw [← List.drop_drop, record_drop, List.append_assoc]
  simp only [CStr.len, List.drop_left, List.take_left]

theorem strncmpEq_record (key : CStr) : strncmpEq ((record g kv.1 kv.2).drop 8) key =
    if Overlaps g key kv then (if key.len ≤ g.pageSize - 8 then some true else none)
    else some false := by
  have hlen : ((record g kv.1 kv.2).drop 8).length = g.pageSize - 8 := by
    rw [List.length_drop, record_length hfit]
  have hpre : key.bytes.take (g.pageSize - 8) <+: (record g kv.1 kv.2).drop 8 ↔
      Overlaps g key kv := by
    rw [record_drop, Overlaps]
    constructor
    · exact prefix_of_padded fun c hc => key.noNul c (List.mem_of_mem_take hc)
    · exact fun h => h.trans (List.prefix_append _ _)
  rw [strncmpEq_eq, hlen]
  simp only [hpre]

end Record

/-! ## The pages of the pairs -/

/-- The flash `h₀` has no programmed page. -/
def Blank (g : Geometry) (h₀ : History) : Prop := ∀ p < g.nbPages, programmed h₀ p = false

theorem blank_format {t : Config} (he : format g d t = (0, s)) : Blank g s.mtd := by
  intro p hp
  obtain rfl := format_ok he
  exact programmed_erase_mem ⟨Nat.zero_le p, by rwa [Nat.zero_add]⟩

/-- Every pair is read back from its page. -/
theorem Inv.content (hI : Inv g h₀ ps s) (hb : Blank g h₀) {n : ℕ} (hw : (kv, n) ∈ ps.zipIdx) :
    content g.pageSize s.mtd n = record g kv.1 kv.2 := by
  have hget := List.mem_zipIdx_iff_getElem?.mp hw
  have hlt : n < ps.length := (List.getElem?_eq_some_iff.mp hget).1
  rw [hI.mtd]
  refine content_programs_mem _ _ ?_ ?_ (hb n (hlt.trans_le hI.le)) ?_
  · rw [laid_fst]
    exact List.nodup_range
  · exact List.mem_map.mpr ⟨(kv, n), hw, rfl⟩
  · exact record_length (hI.fits kv (List.mem_of_getElem? hget))

theorem range_mul (n m : ℕ) :
    ((List.range n).flatMap fun i => (List.range m).map fun j => i * m + j) = List.range (n * m) := by
  induction n with
  | zero => simp
  | succ n ih =>
    rw [List.range_succ, List.flatMap_append, ih, Nat.succ_mul, List.range_add]
    simp

theorem filter_range_lt {n m : ℕ} (h : m ≤ n) :
    (List.range n).filter (fun i => decide (i < m)) = List.range m := by
  obtain ⟨k, rfl⟩ := Nat.exists_eq_add_of_le h
  rw [List.range_add, List.filter_append, List.filter_eq_self.mpr (by simp),
    List.filter_eq_nil_iff.mpr (by simp), List.append_nil]

/-- `get_keyval` looks at the first `n` pages if these are marked. -/
theorem validPages_eq_range {n : ℕ} (hle : n ≤ g.nbPages)
    (hfree : ∀ b < g.nbBlocks, (s.blocks b).state ≠ .blkUsed → n ≤ b * g.pagesPerBlock)
    (hvalid : ∀ b < g.nbBlocks, ∀ o < g.pagesPerBlock,
      (s.blocks b).pagesStates o = .pgValid ↔ b * g.pagesPerBlock + o < n) :
    validPages g s = List.range n := by
  have hblock : ∀ i ∈ List.range g.nbBlocks,
      (if (s.blocks i).state = .blkUsed then
        ((List.range g.pagesPerBlock).filter fun j => (s.blocks i).pagesStates j = .pgValid).map
          fun j => i * g.pagesPerBlock + j
      else []) =
      ((List.range g.pagesPerBlock).map fun j => i * g.pagesPerBlock + j).filter
        fun p => decide (p < n) := by
    intro i hi
    have hi := List.mem_range.mp hi
    rw [List.filter_map]
    split
    · congr 1
      refine List.filter_congr fun j hj => ?_
      simpa using hvalid i hi j (List.mem_range.mp hj)
    · next hst =>
      have hlt := hfree i hi hst
      rw [List.filter_eq_nil_iff.mpr (by simp; omega), List.map_nil]
  rw [validPages, List.flatMap_congr hblock, ← List.filter_flatMap, range_mul, ← Geometry.nbPages,
    filter_range_lt hle]

/-- `get_keyval` looks at the pages of the pairs, oldest first. -/
theorem Inv.validPages_eq (hI : Inv g h₀ ps s) : validPages g s = ps.zipIdx.map Prod.snd := by
  have hfree : ∀ b < g.nbBlocks, (s.blocks b).state ≠ .blkUsed → ps.length ≤ b * g.pagesPerBlock := by
    intro b hb hst
    have hlt : ps.length / g.pagesPerBlock < b := not_le.mp ((hI.used b hb).not.mp hst)
    exact ((Nat.div_lt_iff_lt_mul g.pagesPerBlock_pos).mp hlt).le
  rw [validPages_eq_range hI.le hfree hI.valid, List.zipIdx_map_snd, List.range_eq_range']

/-! ## The search -/

/-- The page of a pair, if the loop gets there. -/
theorem searchPages_cons {mtd : History} {n : ℕ} {pages : List ℕ} (hread : d.readOk n = true)
    (hfit : 8 + kv.1.len + kv.2.len ≤ g.pageSize)
    (hc : content g.pageSize mtd n = record g kv.1 kv.2) :
    searchPages g d mtd key (n :: pages) =
      if Overlaps g key kv then
        (if key.len ≤ g.pageSize - 8 then .ok (n, kv.2.bytes) else .error .overread)
      else searchPages g d mtd key pages := by
  have hlen : kv.1.len ≠ 0xFFFFFFFF := by
    have := g.pageSize_lt
    omega
  have hsize : ¬ g.pageSize < 8 + kv.1.len + kv.2.len := by omega
  rw [searchPages, readPage, hread, if_neg (by simp), hc]
  simp only [record_keyLen hfit, record_valLen hfit, if_neg hlen, strncmpEq_record hfit, record_val]
  split_ifs <;> rfl

/-- Pages of pairs that the key does not overlap are passed over. -/
theorem searchPages_append (hread : ∀ p, d.readOk p = true) {mtd : History} {pages : List ℕ} :
    ∀ {ws : List ((CStr × CStr) × ℕ)},
      (∀ w ∈ ws, 8 + w.1.1.len + w.1.2.len ≤ g.pageSize ∧
        content g.pageSize mtd w.2 = record g w.1.1 w.1.2 ∧ ¬ Overlaps g key w.1) →
      searchPages g d mtd key (ws.map Prod.snd ++ pages) = searchPages g d mtd key pages
  | [], _ => rfl
  | w :: ws, h => by
      obtain ⟨hfit, hc, hno⟩ := h w List.mem_cons_self
      rw [List.map_cons, List.cons_append, searchPages_cons (hread _) hfit hc, if_neg hno]
      exact searchPages_append hread fun w hw => h w (List.mem_cons_of_mem _ hw)

/-- No stored text begins with the key. -/
def Clear (g : Geometry) (key : CStr) (ps : List (CStr × CStr)) : Prop :=
  ∀ kv ∈ ps, ¬ Overlaps g key kv

section Lookup
variable (hI : Inv g h₀ ps s) (hb : Blank g h₀) (hread : ∀ p, d.readOk p = true)
include hI hb hread

theorem getKeyval_of_clear (hc : Clear g key ps) : getKeyval g d key s = .ok (-1, []) := by
  have hpass := @searchPages_append g d key hread s.mtd [] ps.zipIdx fun w hw =>
    have hm : w.1 ∈ ps := List.mem_of_getElem? (List.mem_zipIdx_iff_getElem?.mp hw)
    ⟨hI.fits _ hm, hI.content hb hw, hc _ hm⟩
  rw [getKeyval, hI.validPages_eq]
  rwa [List.append_nil] at hpass

/-- The first pair whose text begins with the key is found. -/
theorem getKeyval_of_first {ps₁ ps₂ : List (CStr × CStr)} (hps : ps = ps₁ ++ kv :: ps₂)
    (hc : Clear g key ps₁) (ho : Overlaps g key kv) : getKeyval g d key s =
      if key.len ≤ g.pageSize - 8 then .ok ((ps₁.length : ℕ), kv.2.bytes) else .error .overread := by
  have hidx : ps.zipIdx = ps₁.zipIdx ++ (kv, ps₁.length) :: ps₂.zipIdx (ps₁.length + 1) := by
    rw [hps, List.zipIdx_append, List.zipIdx_cons, Nat.zero_add]
  have hpass := @searchPages_append g d key hread s.mtd
    (ps₁.length :: (ps₂.zipIdx (ps₁.length + 1)).map Prod.snd) ps₁.zipIdx fun w hw => by
      have hw' : w ∈ ps.zipIdx := hidx ▸ List.mem_append_left _ hw
      refine ⟨hI.fits _ (List.mem_of_getElem? (List.mem_zipIdx_iff_getElem?.mp hw')),
        hI.content hb hw', ?_⟩
      exact hc _ (List.mem_of_getElem? (List.mem_zipIdx_iff_getElem?.mp hw))
  have hmem : (kv, ps₁.length) ∈ ps.zipIdx := by
    rw [hidx]
    exact List.mem_append_right _ List.mem_cons_self
  have hfit := hI.fits kv (List.mem_of_getElem? (List.mem_zipIdx_iff_getElem?.mp hmem))
  rw [getKeyval, hI.validPages_eq, hidx, List.map_append, List.map_cons, hpass,
    searchPages_cons (hread _) hfit (hI.content hb hmem), if_pos ho]

end Lookup

/-- A key that is not clear of the pairs has a first pair that it overlaps. -/
theorem exists_first_overlap (hc : ¬ Clear g key ps) :
    ∃ ps₁ kv ps₂, ps = ps₁ ++ kv :: ps₂ ∧ Clear g key ps₁ ∧ Overlaps g key kv := by
  cases hfind : ps.find? fun kv => decide (Overlaps g key kv) with
  | none =>
    refine absurd (fun kv hkv ho => ?_) hc
    simpa [ho] using List.find?_eq_none.mp hfind kv hkv
  | some kv =>
    obtain ⟨ho, ps₁, ps₂, hps, hno⟩ := List.find?_eq_some_iff_append.mp hfind
    exact ⟨ps₁, kv, ps₂, hps, fun kv' hkv' => by simpa using hno kv' hkv', by simpa using ho⟩

/-! ## Filling the store -/

/-- The configuration after a format and calls of `set_keyval`, without a driver error; `ps` are the
pairs whose call has written to the flash. -/
inductive Session (g : Geometry) : Config → List (CStr × CStr) → Prop
  | format {d : Driver} {t s : Config} (hf : format g d t = (0, s)) : Session g s []
  | stored {d : Driver} {s s' : Config} {ps : List (CStr × CStr)} {key val : CStr} {code : ℤ}
      (h : Session g s ps) (hd : d.NoError) (he : setKeyval g d key val s = .ok (code, s'))
      (hw : s'.mtd ≠ s.mtd) : Session g s' (ps ++ [(key, val)])
  | refused {d : Driver} {s s' : Config} {ps : List (CStr × CStr)} {key val : CStr} {code : ℤ}
      (h : Session g s ps) (hd : d.NoError) (he : setKeyval g d key val s = .ok (code, s'))
      (hw : s'.mtd = s.mtd) : Session g s' ps

/-- No text begins with the key of a later pair. -/
def Apart (g : Geometry) (ps : List (CStr × CStr)) : Prop :=
  ps.Pairwise fun kv kv' => ¬ Overlaps g kv'.1 kv

/-- A pair that was stored had a key clear of the pairs before it. -/
theorem Inv.set (hI : Inv g h₀ ps s) (hb : Blank g h₀) (hd : d.NoError) {code : ℤ}
    (he : setKeyval g d key val s = .ok (code, s')) :
    s' = s ∨ s'.mtd ≠ s.mtd ∧ Clear g key ps ∧ Inv g h₀ (ps ++ [(key, val)]) s' := by
  rcases setKeyval_cases he with ⟨-, -, hsame⟩ | ⟨hfit, found, bytes, hget, hcase⟩
  · exact .inl hsame
  · rcases hcase with ⟨-, -, hsame⟩ | ⟨hmiss, ret, hw, -⟩
    · exact .inl hsame
    · have hfit : 8 + (key, val).1.len + (key, val).2.len ≤ g.pageSize := hfit
      rcases hI.writePage hd.clean hfit hw with ⟨-, -, hsame⟩ | ⟨-, ⟨-, -, -, hsame⟩ | ⟨-, -, hI'⟩⟩
      · exact .inl hsame
      · exact .inl hsame
      · refine .inr ⟨fun hmtd => ?_, ?_, hI'⟩
        · rw [hI.mtd, hI'.mtd, laid_concat, replay_programs_concat] at hmtd
          exact absurd hmtd (List.cons_ne_self _ _)
        · by_contra hc
          obtain ⟨ps₁, kv, ps₂, hps, hc₁, ho⟩ := exists_first_overlap hc
          have hfirst := getKeyval_of_first hI hb hd.read hps hc₁ ho
          rw [if_pos (by omega), hget] at hfirst
          obtain ⟨rfl, -⟩ := Prod.mk.inj (Except.ok.inj hfirst)
          omega

theorem Session.inv (h : Session g s ps) : ∃ h₀, Blank g h₀ ∧ Inv g h₀ ps s ∧ Apart g ps := by
  induction h with
  | format hf => exact ⟨_, blank_format hf, inv_format hf, List.Pairwise.nil⟩
  | stored _ hd he hw ih =>
    obtain ⟨h₀, hb, hI, ha⟩ := ih
    rcases hI.set hb hd he with rfl | ⟨-, hc, hI'⟩
    · exact absurd rfl hw
    · refine ⟨h₀, hb, hI', List.pairwise_append.mpr ⟨ha, List.pairwise_singleton _ _, ?_⟩⟩
      intro kv hkv kv' hkv'
      rw [List.mem_singleton.mp hkv']
      exact hc kv hkv
  | refused _ hd he hw ih =>
    obtain ⟨h₀, hb, hI, ha⟩ := ih
    rcases hI.set hb hd he with rfl | ⟨hne, -⟩
    · exact ⟨h₀, hb, hI, ha⟩
    · exact absurd hw hne

/-! ## Exact lookups -/

/-- A pair with this key was stored. -/
def Stored (ps : List (CStr × CStr)) (key : CStr) : Prop := ∃ val, (key, val) ∈ ps

/-- `set_keyval` reports an existing key exactly when one was stored. -/
def SetExact (g : Geometry) (d : Driver) (s : Config) (ps : List (CStr × CStr)) (key val : CStr) :
    Prop := (∃ s', setKeyval g d key val s = .ok (-2, s')) ↔ Stored ps key

/-- `get_keyval` succeeds exactly when the key was stored, with the page and the value of its pair: pair
number `i` is on page `i`. -/
def GetExact (g : Geometry) (d : Driver) (s : Config) (ps : List (CStr × CStr)) (key : CStr) : Prop :=
  ∃ r, getKeyval g d key s = .ok r ∧ (0 ≤ r.1 ↔ Stored ps key) ∧
    ∀ (i : ℕ) (val : CStr), ps[i]? = some (key, val) → r = ((i : ℤ), val.bytes)

section Exact
variable (hI : Inv g h₀ ps s) (hb : Blank g h₀) (ha : Apart g ps) (hd : d.NoError)
include hI hb ha hd

theorem getKeyval_of_stored {i : ℕ} (hget : ps[i]? = some (key, val)) :
    getKeyval g d key s = .ok ((i : ℤ), val.bytes) := by
  obtain ⟨hlt, hi⟩ := List.getElem?_eq_some_iff.mp hget
  have hps : ps = ps.take i ++ (key, val) :: ps.drop (i + 1) := by
    rw [← hi, ← List.drop_eq_getElem_cons hlt, List.take_append_drop]
  have hclear : Clear g key (ps.take i) := by
    intro kv hkv
    rw [hps, Apart, List.pairwise_append] at ha
    exact ha.2.2 kv hkv (key, val) List.mem_cons_self
  have hself : Overlaps g key (key, val) := (List.take_prefix _ _).trans (List.prefix_append _ _)
  have hfit := hI.fits (key, val) (List.mem_of_getElem? hget)
  have hshort : key.len ≤ g.pageSize - 8 := by
    simp only at hfit
    omega
  have hfirst := getKeyval_of_first hI hb hd.read hps hclear hself
  rwa [if_pos hshort, List.length_take, Nat.min_eq_left hlt.le] at hfirst

theorem getExact_iff : GetExact g d s ps key ↔ Stored ps key ∨ Clear g key ps := by
  constructor
  · rintro ⟨r, hr, hpos, -⟩
    by_contra hno
    obtain ⟨hns, hnc⟩ := not_or.mp hno
    obtain ⟨ps₁, kv, ps₂, hps, hc₁, ho⟩ := exists_first_overlap hnc
    have hfirst := getKeyval_of_first hI hb hd.read hps hc₁ ho
    rw [hr] at hfirst
    split at hfirst
    · rw [Except.ok.inj hfirst] at hpos
      exact hns (hpos.mp (Int.natCast_nonneg _))
    · cases hfirst
  · intro h
    by_cases hs : Stored ps key
    · obtain ⟨val, hm⟩ := hs
      obtain ⟨i, hi⟩ := List.mem_iff_getElem?.mp hm
      have hget := getKeyval_of_stored hI hb ha hd hi
      refine ⟨_, hget, ⟨fun _ => ⟨val, hm⟩, fun _ => Int.natCast_nonneg i⟩, fun j w hj => ?_⟩
      have hget' := getKeyval_of_stored hI hb ha hd hj
      rw [hget] at hget'
      exact Except.ok.inj hget'
    · have hc := h.resolve_left hs
      refine ⟨_, getKeyval_of_clear hI hb hd.read hc, ⟨fun h => ?_, fun h => absurd h hs⟩, ?_⟩
      · exact absurd h (by decide)
      · intro i val hi
        exact absurd ⟨val, List.mem_of_getElem? hi⟩ hs

omit hI hb ha hd in
theorem setCode_ne (ret : ℤ) : setCode ret ≠ -2 := by
  unfold setCode
  split_ifs <;> decide

/-- The size of the pair is looked at before the key. -/
theorem setExact_iff : SetExact g d s ps key val ↔
    (8 + key.len + val.len ≤ g.pageSize → Stored ps key ∨ Clear g key ps) ∧
      (g.pageSize < 8 + key.len + val.len → ¬ Stored ps key) := by
  have htwo : (∃ s', setKeyval g d key val s = .ok (-2, s')) ↔
      8 + key.len + val.len ≤ g.pageSize ∧ ∃ r, getKeyval g d key s = .ok r ∧ 0 ≤ r.1 := by
    constructor
    · rintro ⟨s', he⟩
      rcases setKeyval_cases he with ⟨-, hcode, -⟩ | ⟨hfit, found, bytes, hget, hcase⟩
      · cases hcode
      · refine ⟨hfit, _, hget, ?_⟩
        rcases hcase with ⟨hpos, -, -⟩ | ⟨-, ret, -, hcode⟩
        · exact hpos
        · exact absurd hcode.symm (setCode_ne ret)
    · rintro ⟨hfit, r, hget, hpos⟩
      refine ⟨s, ?_⟩
      rw [setKeyval, if_neg (by omega), hget]
      simp only [if_pos hpos]
  have hstored : Stored ps key → ∃ r, getKeyval g d key s = .ok r ∧ 0 ≤ r.1 := by
    rintro ⟨w, hm⟩
    obtain ⟨i, hi⟩ := List.mem_iff_getElem?.mp hm
    exact ⟨_, getKeyval_of_stored hI hb ha hd hi, Int.natCast_nonneg i⟩
  have hclear : Clear g key ps → ¬ ∃ r, getKeyval g d key s = .ok r ∧ 0 ≤ r.1 := by
    rintro hc ⟨r, hget, hpos⟩
    rw [getKeyval_of_clear hI hb hd.read hc] at hget
    rw [← Except.ok.inj hget] at hpos
    exact absurd hpos (by decide)
  have hfound : ¬ Clear g key ps → key.len ≤ g.pageSize - 8 →
      ∃ r, getKeyval g d key s = .ok r ∧ 0 ≤ r.1 := by
    intro hc hlen
    obtain ⟨ps₁, kv, ps₂, hps, hc₁, ho⟩ := exists_first_overlap hc
    have hfirst := getKeyval_of_first hI hb hd.read hps hc₁ ho
    rw [if_pos hlen] at hfirst
    exact ⟨_, hfirst, Int.natCast_nonneg _⟩
  rw [SetExact, htwo]
  by_cases hfit : 8 + key.len + val.len ≤ g.pageSize
  · have hlen : key.len ≤ g.pageSize - 8 := by omega
    have hbig : ¬ g.pageSize < 8 + key.len + val.len := by omega
    simp only [hfit, hbig, true_and, true_implies, false_implies, and_true]
    constructor
    · intro h
      by_cases hc : Clear g key ps
      · exact .inr hc
      · exact .inl (h.mp (hfound hc hlen))
    · rintro (hs | hc)
      · exact ⟨fun _ => hs, hstored⟩
      · exact ⟨fun h => absurd h (hclear hc), hstored⟩
  · have hbig : g.pageSize < 8 + key.len + val.len := by omega
    simp [hfit, hbig]

end Exact

/-- In a store filled by `set_keyval`, `get_keyval` is exact for a key that is stored or that no stored
text begins with, and for no other. `set_keyval` is exact for the same keys if the pair fits a page; a
pair that does not fit is refused before its key is looked up. -/
theorem exact_lookup_iff (h : Session g s ps) (hd : d.NoError) (key val : CStr) :
    (GetExact g d s ps key ↔ Stored ps key ∨ Clear g key ps) ∧
      (SetExact g d s ps key val ↔
        (8 + key.len + val.len ≤ g.pageSize → Stored ps key ∨ Clear g key ps) ∧
          (g.pageSize < 8 + key.len + val.len → ¬ Stored ps key)) := by
  obtain ⟨h₀, hb, hI, ha⟩ := h.inv
  exact ⟨getExact_iff hI hb ha hd, setExact_iff hI hb ha hd⟩

/-- The store that holds the pair ("k1", "v"). -/
theorem session_one : ∃ s, Session tinyGeometry s [(⟨[107, 49], by decide⟩, ⟨[118], by decide⟩)] ∧
    getKeyval tinyGeometry .ideal ⟨[107], by decide⟩ s = .ok (0, [118]) ∧
    setKeyval tinyGeometry .ideal ⟨[107], by decide⟩ ⟨[119], by decide⟩ s = .ok (-2, s) := by
  obtain ⟨s, he, hw, hget, hset⟩ : ∃ s, setKeyval tinyGeometry .ideal ⟨[107, 49], by decide⟩
      ⟨[118], by decide⟩ (format tinyGeometry .ideal (.blank [])).2 = .ok (0, s) ∧
      s.mtd ≠ (format tinyGeometry .ideal (.blank [])).2.mtd ∧
      getKeyval tinyGeometry .ideal ⟨[107], by decide⟩ s = .ok (0, [118]) ∧
      setKeyval tinyGeometry .ideal ⟨[107], by decide⟩ ⟨[119], by decide⟩ s = .ok (-2, s) :=
    ⟨_, rfl, by decide +kernel, rfl, rfl⟩
  exact ⟨s, .stored (.format (d := .ideal) (t := .blank []) rfl) Driver.ideal_noError he hw, hget, hset⟩

/-- For "k1" and for "x" the calls are exact. -/
theorem exact_lookup_iff_one : ∃ s ps, Session tinyGeometry s ps ∧
    GetExact tinyGeometry .ideal s ps ⟨[107, 49], by decide⟩ ∧
    SetExact tinyGeometry .ideal s ps ⟨[120], by decide⟩ ⟨[119], by decide⟩ := by
  obtain ⟨s, h, -⟩ := session_one
  refine ⟨s, _, h, ?_, ?_⟩
  · exact (exact_lookup_iff h Driver.ideal_noError _ ⟨[], by decide⟩).1.mpr (.inl ⟨_, List.mem_cons_self⟩)
  · refine (exact_lookup_iff h Driver.ideal_noError _ _).2.mpr ⟨fun _ => .inr ?_, fun h => ?_⟩
    · intro kv hkv
      rw [List.mem_singleton.mp hkv]
      decide
    · exact absurd h (by decide)

/-- "k" was never stored, but `get_keyval` finds it and `set_keyval` reports that it exists. -/
theorem lookup_finds_longer_key : ∃ s ps, Session tinyGeometry s ps ∧
    ¬ Stored ps ⟨[107], by decide⟩ ∧ ¬ GetExact tinyGeometry .ideal s ps ⟨[107], by decide⟩ ∧
    ¬ SetExact tinyGeometry .ideal s ps ⟨[107], by decide⟩ ⟨[119], by decide⟩ := by
  obtain ⟨s, h, hget, hset⟩ := session_one
  have hno : ¬ Stored [((⟨[107, 49], by decide⟩ : CStr), (⟨[118], by decide⟩ : CStr))]
      ⟨[107], by decide⟩ := by
    rintro ⟨w, hm⟩
    have hkey : (⟨[107], by decide⟩ : CStr) = ⟨[107, 49], by decide⟩ :=
      congrArg Prod.fst (List.mem_singleton.mp hm)
    exact absurd hkey (by decide)
  refine ⟨s, _, h, hno, ?_, fun hex => hno (hex.mp ⟨s, hset⟩)⟩
  rintro ⟨r, hr, hpos, -⟩
  rw [hget] at hr
  obtain rfl := Except.ok.inj hr
  exact hno (hpos.mp le_rfl)

end LkpProjects.Vanilla
