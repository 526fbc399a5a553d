import LkpProjects.Parallel.Updates
import LkpProjects.Library.Rows

/-! # The parallel store: flush and mount

`flush_metadata` writes page `i` of the metadata to cell `i % (pages_per_block - 1)` of the block of rank
`i / (pages_per_block - 1)`; `init_scan` meets these blocks in the order of their numbers, takes a page for
one of the block records by another stride, and puts all others one behind the other into the hash table.
`Flushed` says what the flash holds after the write loop, `Scanned` what the scan has done to the areas so
far. The two agree exactly when the ranks and the numbers of the blocks do (`OrderFits`).
-/
namespace LkpProjects.Parallel
open Nand Bytes Hoare Rows
open Serial (Geometry HdrKind)
set_option autoImplicit false

variable {env : Env} {s s' : Config}

/-! ## The rank in a header -/

theorem digit_toNat {d : ℕ} (hd : d < 10) : (48 + BitVec.ofNat 8 d : Byte).toNat = 48 + d := by
  rw [BitVec.toNat_add, BitVec.toNat_ofNat, Nat.mod_eq_of_lt (by omega : d < 2 ^ 8)]
  exact Nat.mod_eq_of_lt (show 48 + d < 2 ^ 8 by omega)

theorem decimal_digit {n : ℕ} {c : Byte} (hc : c ∈ decimal n) : 48 ≤ c.toNat ∧ c.toNat ≤ 57 := by
  rw [decimal] at hc
  split at hc
  · obtain rfl := List.mem_singleton.mp hc
    decide
  · obtain ⟨d, hd, rfl⟩ := List.mem_map.mp hc
    have hd := Nat.digits_lt_base (by decide : 1 < 10) (List.mem_reverse.mp hd)
    rw [digit_toNat hd]
    omega

theorem digits_value : ∀ ds : List ℕ, (∀ d ∈ ds, d < 10) →
    (ds.reverse.map fun d => 48 + BitVec.ofNat 8 d).foldl (fun n c => 10 * n + (c.toNat - 48)) 0 =
      Nat.ofDigits 10 ds
  | [], _ => rfl
  | d :: ds, h => by
    have ih := digits_value ds fun e he => h e (.tail _ he)
    rw [List.reverse_cons, List.map_append, List.foldl_append, ih, List.map_singleton, List.foldl_cons,
      List.foldl_nil, digit_toNat (h d List.mem_cons_self), Nat.ofDigits_cons]
    simp only [Nat.add_sub_cancel_left]
    omega

/-- A number that was printed is read back. -/
theorem simpleStrtoul_decimal (n : ℕ) : simpleStrtoul (decimal n) = n := by
  have hall : (decimal n).takeWhile (fun c => 48 ≤ c.toNat ∧ c.toNat ≤ 57) = decimal n :=
    List.takeWhile_eq_self_iff.mpr fun c hc => by simpa using decimal_digit hc
  rw [simpleStrtoul, hall, decimal]
  split
  · next h0 =>
    rw [h0]
    rfl
  · rw [digits_value _ fun d hd => Nat.digits_lt_base (by decide) hd, Nat.ofDigits_digits]

theorem simpleStrtol_decimal (n : ℕ) : simpleStrtol (decimal n) = n := by
  have hval := simpleStrtoul_decimal n
  have hdigit : ∀ c ∈ decimal n, c ≠ 45 := by
    rintro c hc rfl
    exact absurd (decimal_digit hc).1 (by decide)
  cases hd : decimal n with
  | nil =>
    rw [hd] at hval
    rw [← hval]
    rfl
  | cons c str =>
    rw [hd] at hval hdigit
    rw [simpleStrtol, if_neg (hdigit c List.mem_cons_self), hval]

theorem decimal_length {n : ℕ} (hn : n < 100) : (decimal n).length ≤ 2 := by
  rw [decimal]
  split
  · decide
  · rw [List.length_map, List.length_reverse]
    exact (Nat.digits_length_le_iff (by decide) n).mpr hn

section Header
variable {g : Geometry} {k : ℕ}

theorem hdrPage_eq (hk : hdrLen (.nandMetaData k) ≤ g.pageSize) : ∃ z,
    hdrPage g (.nandMetaData k) = (metaHdrBase ++ decimal k) ++ 0 :: List.replicate z 0 ∧
      (hdrPage g (.nandMetaData k)).length = g.pageSize := by
  obtain ⟨z, hz⟩ := Nat.exists_eq_add_of_le hk
  rw [hdrLen] at hz
  refine ⟨z, ?_⟩
  have hpad : g.pageSize - (metaHdrBase.length + (decimal k).length) = z + 1 := by omega
  rw [hdrPage, hpad, List.replicate_succ, List.append_assoc]
  refine ⟨rfl, ?_⟩
  simp only [List.length_append, List.length_cons, List.length_replicate]
  omega

theorem hdrPage_take (hk : hdrLen (.nandMetaData k) ≤ g.pageSize) :
    (hdrPage g (.nandMetaData k)).take metaHdrBase.length = metaHdrBase := by
  obtain ⟨z, hz, -⟩ := hdrPage_eq hk
  rw [hz, List.append_assoc, List.take_left]

theorem headerRank_hdrPage (hk : hdrLen (.nandMetaData k) ≤ g.pageSize) (hmax : k < maxMetaBlk) :
    headerRank (hdrPage g (.nandMetaData k)) = .ok k := by
  obtain ⟨z, hz, -⟩ := hdrPage_eq hk
  have hnul : ∀ c ∈ metaHdrBase ++ decimal k, c ≠ 0 := by
    rintro c hc rfl
    obtain hc | hc := List.mem_append.mp hc
    · exact absurd hc (by decide)
    · exact absurd (decimal_digit hc).1 (by decide)
  have hstr : (CStr.ofBytes (hdrPage g (.nandMetaData k))).bytes = metaHdrBase ++ decimal k := by
    rw [hz]
    exact congrArg CStr.bytes (CStr.ofBytes_append ⟨metaHdrBase ++ decimal k, hnul⟩ _)
  have hmem : (0 : Byte) ∈ hdrPage g (.nandMetaData k) := by simp [hz]
  have hlen := decimal_length hmax
  rw [headerRank]
  simp only [hstr, List.drop_left]
  rw [if_neg (by rw [not_or, not_not]; exact ⟨hmem, by omega⟩), simpleStrtol_decimal]
  have hsmall : ((k : ℤ)).bmod (2 ^ 32) = k := by
    rw [maxMetaBlk] at hmax
    rw [Int.bmod_def]
    split <;> omega
  rw [hsmall]
  rfl

end Header

/-! ## The flash behind a flush -/

/-- The blocks that a flush writes: one for each header. -/
def nbHeaders (g : Geometry) : ℕ := (nbPages g - 1) / (g.pagesPerBlock - 1) + 1

section Sizes
variable (g : Geometry)

theorem dataPgs_pos : 0 < g.pagesPerBlock - 1 := Nat.sub_pos_of_lt g.two_le_pagesPerBlock

/-- Page `i` of the metadata goes behind the header of its block, into the same block. -/
theorem dataPg_lt (i : ℕ) : i % (g.pagesPerBlock - 1) + 1 < g.pagesPerBlock :=
  Nat.add_lt_of_lt_sub (Nat.mod_lt i (dataPgs_pos g))

theorem pagesPerBlock_eq : g.pagesPerBlock = g.pagesPerBlock - 1 + 1 :=
  (Nat.sub_add_cancel g.pagesPerBlock_pos).symm

theorem blkPgs_lt : blkPgs g < nbPages g := by
  rw [nbPages, hsPgs]
  exact Nat.lt_add_of_pos_right (Nat.succ_pos _)

theorem nbHeaders_lo : (nbHeaders g - 1) * (g.pagesPerBlock - 1) < nbPages g := by
  have hle := Nat.div_mul_le_self (nbPages g - 1) (g.pagesPerBlock - 1)
  have hpos := blkPgs_lt g
  rw [nbHeaders, Nat.add_sub_cancel]
  omega

theorem nbHeaders_hi : nbPages g ≤ nbHeaders g * (g.pagesPerBlock - 1) := by
  have hlt := Nat.lt_div_mul_add (a := nbPages g - 1) (dataPgs_pos g)
  rw [nbHeaders, Nat.succ_mul]
  omega

variable {g} in
theorem rank_lt {i : ℕ} (hi : i < nbPages g) : i / (g.pagesPerBlock - 1) < nbHeaders g :=
  (Nat.div_lt_iff_lt_mul (dataPgs_pos g)).mpr (hi.trans_le (nbHeaders_hi g))

end Sizes

/-- The metadata in the blocks `b 0, b 1, ..` of a flash, page by page, and no other metadata. -/
structure Flushed (env : Env) (h : History) (b : ℕ → ℕ) (page : ℕ → List Byte) : Prop where
  lt : ∀ k < nbHeaders env.toGeometry, b k < env.nbBlocks
  inj : ∀ j < nbHeaders env.toGeometry, ∀ k < nbHeaders env.toGeometry, b j = b k → j = k
  rank : ∀ k < nbHeaders env.toGeometry, k < maxMetaBlk ∧ hdrLen (.nandMetaData k) ≤ env.pageSize
  header : ∀ k < nbHeaders env.toGeometry,
    content env.pageSize h (b k * env.pagesPerBlock) = hdrPage env.toGeometry (.nandMetaData k)
  data : ∀ i < nbPages env.toGeometry, content env.pageSize h (b (i / (env.pagesPerBlock - 1)) *
    env.pagesPerBlock + (i % (env.pagesPerBlock - 1) + 1)) = page i
  other : ∀ i < env.nbBlocks, (∀ k < nbHeaders env.toGeometry, b k ≠ i) →
    (content env.pageSize h (i * env.pagesPerBlock)).take metaHdrBase.length ≠ metaHdrBase

/-- The page writes of the flush of page `x.1`, with content `x.2`. -/
def pageWrites (g : Geometry) (b : ℕ → ℕ) (x : ℕ × List Byte) : List (ℕ × List Byte) :=
  (if x.1 % (g.pagesPerBlock - 1) = 0 then
    [(b (x.1 / (g.pagesPerBlock - 1)) * g.pagesPerBlock,
      hdrPage g (.nandMetaData (x.1 / (g.pagesPerBlock - 1))))] else []) ++
    [(b (x.1 / (g.pagesPerBlock - 1)) * g.pagesPerBlock + (x.1 % (g.pagesPerBlock - 1) + 1), x.2)]

/-- What the flush of a page has done. -/
structure PageFlushed (env : Env) (b : ℕ → ℕ) (s : Config) (i : ℕ) (page : List Byte) (s' : Config) :
    Prop where
  mtd : s'.mtd = replay (programs (pageWrites env.toGeometry b (i, page))) s.mtd
  metaBlkordr : s'.metaBlkordr = s.metaBlkordr
  hashtable : s'.hashtable = s.hashtable
  metaReadOnly : s'.metaReadOnly = s.metaReadOnly
  page : page = metaPage env s i
  lt : b (i / (env.pagesPerBlock - 1)) < env.nbBlocks
  rank : i % (env.pagesPerBlock - 1) = 0 → i / (env.pagesPerBlock - 1) < maxMetaBlk ∧
    hdrLen (.nandMetaData (i / (env.pagesPerBlock - 1))) ≤ env.pageSize

/-- The configuration behind a page that was written without trouble. -/
theorem writePage_zero {p : ℕ} {buf : List Byte} (he : writePage env p buf s = .ok (0, s')) :
    s.readOnly = false ∧ p / env.pagesPerBlock < env.nbBlocks ∧
      s' = programPage env.toGeometry p buf s := by
  obtain ⟨-, h0, -⟩ | ⟨hro, hb, -, h0, rfl⟩ := writePage_ok he
  · cases h0
  · refine ⟨hro, hb, ?_⟩
    split at h0
    · cases h0
    · next hfull =>
      rw [eq_false_of_ne_true hfull, ← hro]
      rfl

/-- A header that did not make the store read-only has been written. -/
theorem writeHdr_written {p : ℕ} {data : HdrKind} {ret : ℤ} (hm : s.metaReadOnly = false)
    (he : writeHdr env p data s = .ok (ret, s')) (hro : s'.readOnly = false) :
    hdrLen data ≤ env.pageSize ∧ p / env.pagesPerBlock < env.nbBlocks ∧
      s' = (programPage env.toGeometry p (hdrPage env.toGeometry data) s).setState
        (p / env.pagesPerBlock) .blkUsed := by
  obtain ⟨hm', -⟩ | ⟨-, hfits, s₁, he₁, rfl⟩ := writeHdr_ok he
  · rw [hm] at hm'
    cases hm'
  · refine ⟨hfits, ?_⟩
    obtain ⟨hro₁, -, rfl⟩ | ⟨hro₁, hb, -, -, rfl⟩ := writePage_ok he₁
    · rw [Config.setState, Config.modifyBlk, hro₁] at hro
      cases hro
    · refine ⟨hb, ?_⟩
      have hfull : isReadOnly env.toGeometry (programPage env.toGeometry p
          (hdrPage env.toGeometry data) s) = false := hro
      rw [hfull, ← hro₁]
      rfl

section Page
variable {b : ℕ → ℕ} {i jackOfs : ℕ} {ret : ℤ}

theorem flushPage_flushed {r : ℕ × ℤ × List Byte}
    (hjack : jackOfs = if i % (env.pagesPerBlock - 1) = 0 then i / (env.pagesPerBlock - 1)
      else i / (env.pagesPerBlock - 1) + 1)
    (hord : s.metaBlkordr (i / (env.pagesPerBlock - 1)) = some (b (i / (env.pagesPerBlock - 1))))
    (hm : s.metaReadOnly = false) (he : flushPage env i jackOfs ret s = .ok (r, s')) :
    r.1 = i / (env.pagesPerBlock - 1) + 1 ∧ PageFlushed env b s i r.2.2 s' := by
  obtain ⟨jack, ret₁, page⟩ := r
  obtain ⟨rfl, s₁, b', he₁, hb', he₂⟩ := flushPage_ok he
  obtain ⟨hro, hlt, rfl⟩ := writePage_zero he₂
  rw [Geometry.page_div (dataPg_lt _ i)] at hlt
  obtain ⟨hi, hmax, rfl, b'', hb'', hhdr⟩ | ⟨hi, hr, rfl⟩ := flushHeader_ok he₁
  · rw [if_pos hi] at hjack
    rw [hjack, hord] at hb''
    obtain rfl := Option.some.inj hb''
    obtain ⟨hfits, -, rfl⟩ := writeHdr_written hm hhdr hro
    rw [Nat.add_sub_cancel, hjack] at hb'
    obtain rfl := Option.some.inj (hord.symm.trans hb')
    rw [hjack] at hfits hmax
    refine ⟨by rw [hjack], ⟨?_, rfl, rfl, rfl, rfl, hlt, fun _ => ⟨hmax, hfits⟩⟩⟩
    change Op.program _ _ :: Op.program _ _ :: _ = _
    rw [pageWrites, if_pos hi, hjack]
    rfl
  · obtain ⟨rfl, rfl⟩ := Prod.mk.inj hr
    rw [if_neg hi] at hjack
    rw [hjack, Nat.add_sub_cancel, hord] at hb'
    obtain rfl := Option.some.inj hb'
    refine ⟨hjack, ⟨?_, rfl, rfl, rfl, rfl, hlt, fun h0 => absurd h0 hi⟩⟩
    change Op.program _ _ :: _ = _
    rw [pageWrites, if_neg hi]
    rfl

/-- With `meta_config.read_only` set no header is written, and its code is -1. -/
theorem flushPage_metaReadOnly {r : ℕ × ℤ × List Byte} (hm : s.metaReadOnly = true)
    (he : flushPage env i jackOfs ret s = .ok (r, s')) :
    (i % (env.pagesPerBlock - 1) = 0 ∨ ret = -1 → r.2.1 = -1) ∧ s'.metaReadOnly = true := by
  obtain ⟨jack, ret₁, page⟩ := r
  obtain ⟨-, s₁, b, he₁, -, he₂⟩ := flushPage_ok he
  obtain ⟨-, -, rfl⟩ := writePage_zero he₂
  obtain ⟨-, -, -, b', -, hhdr⟩ | ⟨hi, hr, rfl⟩ := flushHeader_ok he₁
  · obtain ⟨-, hcode, rfl⟩ | ⟨hm', -⟩ := writeHdr_ok hhdr
    · exact ⟨fun _ => hcode, hm⟩
    · rw [hm] at hm'
      cases hm'
  · obtain ⟨-, rfl⟩ := Prod.mk.inj hr
    exact ⟨fun h => h.resolve_left hi, hm⟩

/-- A page and its number, as the write loop has left them on flash. -/
structure PageWritten (env : Env) (b : ℕ → ℕ) (table : ℕ → Bucket) (x : ℕ × List Byte) : Prop where
  lt : b (x.1 / (env.pagesPerBlock - 1)) < env.nbBlocks
  rank : x.1 % (env.pagesPerBlock - 1) = 0 → x.1 / (env.pagesPerBlock - 1) < maxMetaBlk ∧
    hdrLen (.nandMetaData (x.1 / (env.pagesPerBlock - 1))) ≤ env.pageSize
  length : x.2.length = env.pageSize
  hash : blkPgs env.toGeometry ≤ x.1 → x.2 = env.hashPage table (x.1 - blkPgs env.toGeometry)

theorem metaPage_length (s : Config) (i : ℕ) : (metaPage env s i).length = env.pageSize := by
  rw [metaPage]
  split
  · exact env.blkPage_length _ _
  · exact env.hashPage_length _ _

/-- The number of headers before page `i + 1`. -/
theorem headers_succ (g : Geometry) (i : ℕ) : i / (g.pagesPerBlock - 1) + 1 =
    if (i + 1) % (g.pagesPerBlock - 1) = 0 then (i + 1) / (g.pagesPerBlock - 1)
    else (i + 1) / (g.pagesPerBlock - 1) + 1 := by
  rw [Nat.succ_div]
  split
  · next h => rw [if_pos (Nat.dvd_of_mod_eq_zero h)]
  · next h => rw [if_neg fun hd => h (Nat.mod_eq_zero_of_dvd hd), Nat.add_zero]

theorem flushWrite_ok : ∀ {k i jackOfs : ℕ} {ret ret' : ℤ} {pages : List (List Byte)} {s s' : Config},
    i + k ≤ nbPages env.toGeometry →
    jackOfs = (if i % (env.pagesPerBlock - 1) = 0 then i / (env.pagesPerBlock - 1)
      else i / (env.pagesPerBlock - 1) + 1) →
    (∀ j < nbHeaders env.toGeometry, s.metaBlkordr j = some (b j)) → s.metaReadOnly = false →
    flushWrite env (List.range' i k) jackOfs ret s = .ok ((ret', pages), s') →
      pages.length = k ∧ s'.hashtable = s.hashtable ∧
        s'.mtd = replay (programs (((List.range' i k).zip pages).flatMap
          (pageWrites env.toGeometry b))) s.mtd ∧
        ∀ x ∈ (List.range' i k).zip pages, PageWritten env b s.hashtable x
  | 0, _, _, _, _, _, _, _, _, _, _, _, he => by
    obtain ⟨hr, rfl⟩ := pure_ok.mp he
    obtain ⟨-, rfl⟩ := Prod.mk.inj hr
    exact ⟨rfl, rfl, rfl, nofun⟩
  | k + 1, i, _, _, _, _, _, _, hle, hjack, hord, hm, he => by
    rw [List.range'_succ] at he ⊢
    obtain ⟨⟨jack, ret₁, page⟩, s₁, he₁, hrest⟩ := bind_ok.mp he
    obtain ⟨⟨ret₂, pages'⟩, s₂, he₂, hlast⟩ := bind_ok.mp hrest
    obtain ⟨hr, rfl⟩ := pure_ok.mp hlast
    obtain ⟨-, rfl⟩ := Prod.mk.inj hr
    obtain ⟨hj, hpage⟩ := flushPage_flushed hjack (hord _ (rank_lt (by omega))) hm he₁
    obtain ⟨hlen, htable, hmtd, hall⟩ := flushWrite_ok (by omega)
      (hj.trans (headers_succ env.toGeometry i)) (fun j hj' => by rw [hpage.metaBlkordr, hord j hj'])
      (hpage.metaReadOnly.trans hm) he₂
    rw [hpage.hashtable] at htable hall
    refine ⟨by rw [List.length_cons, hlen], htable, ?_, fun x hx => ?_⟩
    · rw [hmtd, hpage.mtd, List.zip_cons_cons, List.flatMap_cons, programs, programs, programs,
        List.map_append, replay_append]
    · rw [List.zip_cons_cons] at hx
      obtain rfl | hx := List.mem_cons.mp hx
      · refine ⟨hpage.lt, hpage.rank, ?_, fun hi => ?_⟩
        · rw [hpage.page, metaPage_length]
        · refine Eq.trans hpage.page ?_
          rw [metaPage, if_neg (not_lt.mpr hi)]
      · exact hall x hx

/-- A flush without error has written its headers. -/
theorem flushWrite_metaReadOnly : ∀ {is : List ℕ} {jackOfs : ℕ} {ret ret' : ℤ}
    {pages : List (List Byte)} {s s' : Config}, s.metaReadOnly = true → ret = -1 →
    flushWrite env is jackOfs ret s = .ok ((ret', pages), s') → ret' = -1
  | [], _, _, _, _, _, _, _, hret, he => by
    obtain ⟨hr, -⟩ := pure_ok.mp he
    exact (Prod.mk.inj hr).1.symm.trans hret
  | _ :: _, _, _, _, _, _, _, hm, hret, he => by
    obtain ⟨⟨jack, ret₁, page⟩, s₁, he₁, hrest⟩ := bind_ok.mp he
    obtain ⟨⟨ret₂, pages'⟩, s₂, he₂, hlast⟩ := bind_ok.mp hrest
    obtain ⟨hr, -⟩ := pure_ok.mp hlast
    obtain ⟨hcode, hm₁⟩ := flushPage_metaReadOnly hm he₁
    rw [← (Prod.mk.inj hr).1]
    exact flushWrite_metaReadOnly hm₁ (hcode (.inr hret)) he₂

end Page

section Writes
variable {g : Geometry} {b : ℕ → ℕ}

/-- Where a write of the flush of a page goes. -/
theorem pageWrites_fst {x : ℕ × List Byte} {p : ℕ} (hp : p ∈ (pageWrites g b x).map Prod.fst) :
    ∃ o, o < g.pagesPerBlock ∧ p = b (x.1 / (g.pagesPerBlock - 1)) * g.pagesPerBlock + o ∧
      (o = 0 ∧ x.1 % (g.pagesPerBlock - 1) = 0 ∨ o = x.1 % (g.pagesPerBlock - 1) + 1) := by
  have hofs := Nat.mod_lt x.1 (dataPgs_pos g)
  rw [pageWrites, List.map_append, List.mem_append] at hp
  obtain hp | hp := hp
  · split at hp
    · next h0 =>
      exact ⟨0, g.pagesPerBlock_pos, List.mem_singleton.mp hp, .inl ⟨rfl, h0⟩⟩
    · cases hp
  · exact ⟨_, by omega, List.mem_singleton.mp hp, .inr rfl⟩

theorem pageWrites_nodup (x : ℕ × List Byte) : ((pageWrites g b x).map Prod.fst).Nodup := by
  rw [pageWrites]
  split
  · simp
  · simp

/-- No page is written twice. -/
theorem writes_nodup {xs : List (ℕ × List Byte)} (hxs : (xs.map Prod.fst).Nodup)
    (hlt : ∀ x ∈ xs, x.1 < nbPages g)
    (hinj : ∀ j < nbHeaders g, ∀ k < nbHeaders g, b j = b k → j = k) :
    ((xs.flatMap (pageWrites g b)).map Prod.fst).Nodup := by
  rw [List.map_flatMap, List.nodup_flatMap]
  refine ⟨fun x _ => pageWrites_nodup x, ?_⟩
  refine (List.pairwise_map.mp hxs).imp_of_mem fun {x y} hx hy hne p hpx hpy => hne ?_
  obtain ⟨o, ho, hp, hox⟩ := pageWrites_fst hpx
  obtain ⟨o', ho', hp', hoy⟩ := pageWrites_fst hpy
  rw [hp] at hp'
  obtain ⟨hb, hoo⟩ := Geometry.page_inj ho ho' hp'
  have hdiv := hinj _ (rank_lt (hlt x hx)) _ (rank_lt (hlt y hy)) hb
  have hmod : x.1 % (g.pagesPerBlock - 1) = y.1 % (g.pagesPerBlock - 1) := by omega
  rw [← Nat.div_add_mod x.1 (g.pagesPerBlock - 1), ← Nat.div_add_mod y.1 (g.pagesPerBlock - 1), hdiv, hmod]

end Writes

/-- The flash behind a flush without error. -/
theorem flushWrite_flushed {b : ℕ → ℕ} {pages : List (List Byte)}
    (hord : ∀ k < nbHeaders env.toGeometry, s.metaBlkordr k = some (b k))
    (hinj : ∀ j < nbHeaders env.toGeometry, ∀ k < nbHeaders env.toGeometry, b j = b k → j = k)
    (hblank : ∀ k < nbHeaders env.toGeometry, ∀ o < env.pagesPerBlock,
      programmed s.mtd (b k * env.pagesPerBlock + o) = false)
    (hother : ∀ i < env.nbBlocks, (∀ k < nbHeaders env.toGeometry, b k ≠ i) →
      (content env.pageSize s.mtd (i * env.pagesPerBlock)).take metaHdrBase.length ≠ metaHdrBase)
    (he : flushWrite env (List.range (nbPages env.toGeometry)) 0 0 s = .ok ((0, pages), s')) :
    Flushed env s'.mtd b (fun i => pages.getD i []) ∧ s'.hashtable = s.hashtable ∧
      ∀ q < hsPgs env.toGeometry,
        pages.getD (blkPgs env.toGeometry + q) [] = env.hashPage s'.hashtable q := by
  have hm : s.metaReadOnly = false := by
    refine eq_false_of_ne_true fun hm => ?_
    obtain ⟨n, hn⟩ := Nat.exists_eq_succ_of_ne_zero (Nat.ne_of_gt (Nat.zero_lt_of_lt (blkPgs_lt env.toGeometry)))
    rw [hn, List.range_succ_eq_map] at he
    obtain ⟨⟨jack, ret₁, page⟩, s₁, he₁, hrest⟩ := bind_ok.mp he
    obtain ⟨⟨ret₂, pages'⟩, s₂, he₂, hlast⟩ := bind_ok.mp hrest
    obtain ⟨hr, -⟩ := pure_ok.mp hlast
    obtain ⟨hcode, hm₁⟩ := flushPage_metaReadOnly hm he₁
    have hret := flushWrite_metaReadOnly hm₁ (hcode (.inl (Nat.zero_mod _))) he₂
    rw [(Prod.mk.inj hr).1] at hret
    cases hret
  rw [List.range_eq_range'] at he
  obtain ⟨hlen, htable, hmtd, hall⟩ := flushWrite_ok (by rw [Nat.zero_add])
    (by rw [Nat.zero_mod, if_pos rfl, Nat.zero_div]) hord hm he
  have hmem : ∀ i < nbPages env.toGeometry,
      (i, pages.getD i []) ∈ (List.range' 0 (nbPages env.toGeometry)).zip pages := by
    intro i hi
    have hi' : i < pages.length := by rwa [hlen]
    refine List.mem_iff_getElem.mpr ⟨i, by simp [hlen, hi], ?_⟩
    rw [List.getElem_zip, List.getElem_range', List.getD_eq_getElem _ _ hi', Nat.one_mul, Nat.zero_add]
  have hfst : ((List.range' 0 (nbPages env.toGeometry)).zip pages).map Prod.fst =
      List.range' 0 (nbPages env.toGeometry) :=
    List.map_fst_zip (by rw [hlen, List.length_range'])
  have hlt : ∀ x ∈ (List.range' 0 (nbPages env.toGeometry)).zip pages, x.1 < nbPages env.toGeometry := by
    intro x hx
    have hx₁ := List.mem_map_of_mem (f := Prod.fst) hx
    rw [hfst, List.mem_range'_1] at hx₁
    omega
  have hnodup := writes_nodup (by rw [hfst]; exact List.nodup_range') hlt hinj
  have hread : ∀ x ∈ (List.range' 0 (nbPages env.toGeometry)).zip pages, ∀ p data,
      (p, data) ∈ pageWrites env.toGeometry b x → data.length = env.pageSize →
        content env.pageSize s'.mtd p = data := by
    intro x hx p data hw hd
    obtain ⟨o, ho, rfl, -⟩ := pageWrites_fst (List.mem_map_of_mem (f := Prod.fst) hw)
    rw [hmtd]
    exact content_programs_mem _ _ hnodup (List.mem_flatMap.mpr ⟨x, hx, hw⟩)
      (hblank _ (rank_lt (hlt x hx)) o ho) hd
  have hfirst : ∀ k < nbHeaders env.toGeometry, k * (env.pagesPerBlock - 1) < nbPages env.toGeometry ∧
      k * (env.pagesPerBlock - 1) / (env.pagesPerBlock - 1) = k ∧
        k * (env.pagesPerBlock - 1) % (env.pagesPerBlock - 1) = 0 := by
    intro k hk
    have hle := Nat.mul_le_mul_right (env.pagesPerBlock - 1) (Nat.le_sub_one_of_lt hk)
    exact ⟨hle.trans_lt (nbHeaders_lo _), Nat.mul_div_cancel _ (dataPgs_pos _), Nat.mul_mod_left _ _⟩
  have hrank : ∀ k < nbHeaders env.toGeometry,
      k < maxMetaBlk ∧ hdrLen (.nandMetaData k) ≤ env.pageSize := by
    intro k hk
    obtain ⟨hlt', hdiv, hmod⟩ := hfirst k hk
    have hw := (hall _ (hmem _ hlt')).rank hmod
    rwa [hdiv] at hw
  refine ⟨⟨fun k hk => ?_, hinj, hrank, fun k hk => ?_, fun i hi => ?_, fun i hi hne => ?_⟩, htable,
    fun q hq => ?_⟩
  · obtain ⟨hlt', hdiv, -⟩ := hfirst k hk
    have hw := (hall _ (hmem _ hlt')).lt
    rwa [hdiv] at hw
  · obtain ⟨hlt', hdiv, hmod⟩ := hfirst k hk
    refine hread _ (hmem _ hlt') _ _ ?_ (hdrPage_eq (hrank k hk).2).choose_spec.2
    rw [pageWrites, if_pos hmod, hdiv]
    exact List.mem_append_left _ List.mem_cons_self
  · refine hread _ (hmem i hi) _ _ ?_ (hall _ (hmem i hi)).length
    exact List.mem_append_right _ List.mem_cons_self
  · have hout : i * env.pagesPerBlock ∉ ((((List.range' 0 (nbPages env.toGeometry)).zip pages).flatMap
        (pageWrites env.toGeometry b)).map Prod.fst) := by
      rw [List.map_flatMap, List.mem_flatMap]
      rintro ⟨x, hx, hp⟩
      obtain ⟨o, ho, hp, -⟩ := pageWrites_fst hp
      exact hne _ (rank_lt (hlt x hx)) (Geometry.page_inj env.pagesPerBlock_pos ho hp).1.symm
    rw [hmtd, content_programs_not_mem _ _ hout]
    exact hother i hi hne
  · have hi : blkPgs env.toGeometry + q < nbPages env.toGeometry := by
      rw [nbPages]
      omega
    have hhash := (hall _ (hmem _ hi)).hash (Nat.le_add_right _ _)
    rw [htable]
    refine Eq.trans hhash ?_
    rw [Nat.add_sub_cancel_left]

/-! ## What the scan makes of it -/

section Scan
variable {h : History} {b : ℕ → ℕ} {t t' : Scan} {xs ys : List (ℕ × ℕ)} {x : ℕ × ℕ} {k : ℕ}

/-- The cells that are taken for pages of the hash table. -/
def forHash (g : Geometry) (xs : List (ℕ × ℕ)) : List (ℕ × ℕ) :=
  xs.filter (kept (g.pagesPerBlock - 1) (blkPgs g))

/-- The content of a cell. -/
def cellPage (env : Env) (h : History) (b : ℕ → ℕ) (x : ℕ × ℕ) : List Byte :=
  content env.pageSize h (b x.1 * env.pagesPerBlock + (x.2 + 1))

theorem kept_ofs (g : Geometry) (x : ℕ × ℕ) : kept (g.pagesPerBlock - 1) (blkPgs g) x =
    !decide (x.1 * g.pagesPerBlock + x.2 < blkPgs g) := by
  rw [kept, ← pagesPerBlock_eq, ← decide_not]
  simp only [not_lt]

/-- The scan has read the cells `xs`. -/
structure Scanned (env : Env) (h : History) (b : ℕ → ℕ) (t : Scan) (xs : List (ℕ × ℕ)) : Prop where
  total : t.total = xs.length
  jackOfs : t.jackOfs = (forHash env.toGeometry xs).length
  fits : t.jackOfs ≤ hsPgs env.toGeometry
  hash : ∀ q x, (forHash env.toGeometry xs)[q]? = some x → t.hashArea q = cellPage env h b x
  blk : ∀ x ∈ xs, x.1 * env.pagesPerBlock + x.2 < blkPgs env.toGeometry →
    t.blkArea (x.1 * env.pagesPerBlock + x.2) = cellPage env h b x
  small : ∀ x ∈ xs, x.2 < env.pagesPerBlock - 1

namespace Scanned

theorem start (blkArea hashArea : ℕ → List Byte) :
    Scanned env h b (.start blkArea hashArea) [] :=
  ⟨rfl, rfl, Nat.zero_le _, nofun, nofun, nofun⟩

variable (hs : Scanned env h b t xs) (hx : x.2 < env.pagesPerBlock - 1)
include hs hx

/-- A page for the block records. -/
theorem toBlk (hofs : x.1 * env.pagesPerBlock + x.2 < blkPgs env.toGeometry) :
    Scanned env h b { t with
      total := t.total + 1
      blkArea := Function.update t.blkArea (x.1 * env.pagesPerBlock + x.2) (cellPage env h b x) }
      (xs ++ [x]) := by
  have hout : kept (env.pagesPerBlock - 1) (blkPgs env.toGeometry) x = false := by
    rw [kept_ofs, decide_eq_true hofs]
    rfl
  have hsame : forHash env.toGeometry (xs ++ [x]) = forHash env.toGeometry xs := by
    rw [forHash, List.filter_append, List.filter_cons_of_neg (by rw [hout]; exact Bool.false_ne_true),
      List.filter_nil, List.append_nil]
    rfl
  refine ⟨?_, ?_, hs.fits, ?_, fun y hy hyo => ?_, fun y hy => ?_⟩
  · rw [List.length_append, hs.total]
    rfl
  · rw [hsame]
    exact hs.jackOfs
  · rw [hsame]
    exact hs.hash
  · obtain hy | hy := List.mem_append.mp hy
    · by_cases he : y.1 * env.pagesPerBlock + y.2 = x.1 * env.pagesPerBlock + x.2
      · have hyx : y = x := by
          rw [pagesPerBlock_eq env.toGeometry] at he
          obtain ⟨h₁, h₂⟩ := cell_position (hs.small y hy) hx he
          exact Prod.ext h₁ h₂
        rw [hyx]
        exact Function.update_self _ _ _
      · exact (Function.update_of_ne he _ _).trans (hs.blk y hy hyo)
    · obtain rfl := List.mem_singleton.mp hy
      exact Function.update_self _ _ _
  · obtain hy | hy := List.mem_append.mp hy
    · exact hs.small y hy
    · obtain rfl := List.mem_singleton.mp hy
      exact hx

/-- A page for the hash table. -/
theorem toHash (hofs : ¬ x.1 * env.pagesPerBlock + x.2 < blkPgs env.toGeometry)
    (hroom : t.jackOfs < hsPgs env.toGeometry) :
    Scanned env h b { t with
      total := t.total + 1
      hashArea := Function.update t.hashArea t.jackOfs (cellPage env h b x)
      jackOfs := t.jackOfs + 1 } (xs ++ [x]) := by
  have hin : kept (env.pagesPerBlock - 1) (blkPgs env.toGeometry) x = true := by
    rw [kept_ofs, decide_eq_false hofs]
    rfl
  have hmore : forHash env.toGeometry (xs ++ [x]) = forHash env.toGeometry xs ++ [x] := by
    rw [forHash, List.filter_append, List.filter_cons_of_pos hin]
    rfl
  refine ⟨?_, ?_, hroom, fun q y hq => ?_, fun y hy hyo => ?_, fun y hy => ?_⟩
  · rw [List.length_append, hs.total]
    rfl
  · rw [hmore, List.length_append, ← hs.jackOfs]
    rfl
  · rw [hmore, List.getElem?_append] at hq
    split at hq
    · next hlt =>
      rw [← hs.jackOfs] at hlt
      exact (Function.update_of_ne hlt.ne _ _).trans (hs.hash q y hq)
    · next hge =>
      obtain ⟨hq₀, hq⟩ := List.getElem?_eq_some_iff.mp hq
      rw [List.length_singleton] at hq₀
      have hqj : q = t.jackOfs := by
        rw [hs.jackOfs]
        omega
      have hyx : x = y := by simpa using hq
      rw [hqj, ← hyx]
      exact Function.update_self _ _ _
  · obtain hy | hy := List.mem_append.mp hy
    · exact hs.blk y hy hyo
    · obtain rfl := List.mem_singleton.mp hy
      exact absurd hyo hofs
  · obtain hy | hy := List.mem_append.mp hy
    · exact hs.small y hy
    · obtain rfl := List.mem_singleton.mp hy
      exact hx

end Scanned

theorem forHash_take_le (g : Geometry) (n : ℕ) : (forHash g (xs.take n)).length ≤
    (forHash g ((xs ++ ys).take n)).length := by
  rw [List.take_append, forHash, forHash, List.filter_append, List.length_append]
  exact Nat.le_add_right _ _

/-- The pages of one metadata block, from cell `o` on: the scan ends in an overflow of the hash table, or
has read the cells up to the last page. -/
theorem scanPages_outcome (hread : ∀ p, env.readOk h p = true) : ∀ (len o : ℕ) {t : Scan}
    {xs : List (ℕ × ℕ)}, o + len ≤ env.pagesPerBlock - 1 → Scanned env h b t xs →
      xs.length ≤ nbPages env.toGeometry →
      hsPgs env.toGeometry < (forHash env.toGeometry
          ((xs ++ (List.range' o len).map (Prod.mk k)).take (nbPages env.toGeometry))).length ∧
        scanPages env h (b k) k (List.range' (o + 1) len) t = .error .overflow ∨
      ∃ done t', scanPages env h (b k) k (List.range' (o + 1) len) t = .ok (done, t') ∧
        Scanned env h b t' ((xs ++ (List.range' o len).map (Prod.mk k)).take (nbPages env.toGeometry)) ∧
        t'.metaBlkordr = t.metaBlkordr ∧ (done = true → nbPages env.toGeometry < xs.length + len)
  | 0, o, t, xs, _, hs, hxs => by
    refine .inr ⟨false, t, rfl, ?_, rfl, nofun⟩
    rw [List.range'_zero, List.map_nil, List.append_nil, List.take_of_length_le hxs]
    exact hs
  | len + 1, o, t, xs, hlen, hs, hxs => by
    rw [List.range'_succ, List.range'_succ, List.map_cons, scanPages]
    by_cases hfull : nbPages env.toGeometry < t.total + 1
    · rw [if_pos hfull]
      rw [hs.total] at hfull
      refine .inr ⟨true, t, rfl, ?_, rfl, fun _ => by omega⟩
      rw [List.take_append_of_le_length (by omega), List.take_of_length_le hxs]
      exact hs
    · rw [if_neg hfull, if_neg (by rw [hread]; decide), Nat.add_sub_cancel]
      rw [hs.total] at hfull
      have hx : (k, o).2 < env.pagesPerBlock - 1 := by omega
      have hxs' : (xs ++ [(k, o)]).length ≤ nbPages env.toGeometry := by
        rw [List.length_append, List.length_singleton]
        omega
      rw [List.append_cons]
      by_cases hofs : k * env.pagesPerBlock + o < blkPgs env.toGeometry
      · rw [if_pos hofs]
        obtain ⟨hcount, he⟩ | ⟨done, t', he, hs', hord, hdone⟩ :=
          scanPages_outcome hread len (o + 1) (by omega) (hs.toBlk (x := (k, o)) hx hofs) hxs'
        · exact .inl ⟨hcount, he⟩
        · refine .inr ⟨done, t', he, hs', hord, fun hd => ?_⟩
          have := hdone hd
          rw [List.length_append, List.length_singleton] at this
          omega
      · rw [if_neg hofs]
        by_cases hroom : hsPgs env.toGeometry ≤ t.jackOfs
        · rw [if_pos hroom]
          refine .inl ⟨?_, rfl⟩
          have hin : kept (env.pagesPerBlock - 1) (blkPgs env.toGeometry) (k, o) = true := by
            rw [kept_ofs, decide_eq_false hofs]
            rfl
          have hle := @forHash_take_le (xs ++ [(k, o)]) ((List.range' (o + 1) len).map (Prod.mk k))
            env.toGeometry (nbPages env.toGeometry)
          rw [List.take_of_length_le hxs', forHash, List.filter_append, List.filter_cons_of_pos hin,
            List.length_append] at hle
          have hj := hs.jackOfs
          rw [forHash] at hj
          rw [← hj, List.filter_nil, List.length_singleton] at hle
          omega
        · rw [if_neg hroom]
          obtain ⟨hcount, he⟩ | ⟨done, t', he, hs', hord, hdone⟩ :=
            scanPages_outcome hread len (o + 1) (by omega) (hs.toHash (x := (k, o)) hx hofs (not_le.mp hroom)) hxs'
          · exact .inl ⟨hcount, he⟩
          · refine .inr ⟨done, t', he, hs', hord, fun hd => ?_⟩
            have := hdone hd
            rw [List.length_append, List.length_singleton] at this
            omega

/-- The rank of a metadata block. -/
def rankOf (g : Geometry) (b : ℕ → ℕ) (i : ℕ) : Option ℕ :=
  (List.range (nbHeaders g)).find? fun k => b k = i

theorem rankOf_some {g : Geometry} {i : ℕ} (hk : rankOf g b i = some k) : k < nbHeaders g ∧ b k = i :=
  ⟨List.mem_range.mp (List.mem_of_find?_eq_some hk), by simpa using List.find?_some hk⟩

theorem rankOf_none {g : Geometry} {i : ℕ} (hk : rankOf g b i = none) : ∀ k < nbHeaders g, b k ≠ i := by
  intro k hlt
  simpa using List.find?_eq_none.mp hk k (List.mem_range.mpr hlt)

variable {page : ℕ → List Byte}

theorem scanBlocks_other {i : ℕ} {is : List ℕ} (hread : ∀ p, env.readOk h p = true)
    (hfl : Flushed env h b page) (hi : i < env.nbBlocks) (hrank : rankOf env.toGeometry b i = none) :
    scanBlocks env h (i :: is) t = scanBlocks env h is t := by
  rw [scanBlocks, if_neg (by rw [hread]; decide), if_pos (hfl.other i hi (rankOf_none hrank))]

theorem scanBlocks_meta {is : List ℕ} (hread : ∀ p, env.readOk h p = true)
    (hfl : Flushed env h b page) (hk : k < nbHeaders env.toGeometry) :
    scanBlocks env h (b k :: is) t =
      match scanPages env h (b k) k (List.range' 1 (env.pagesPerBlock - 1))
        { t with metaBlkordr := Function.update t.metaBlkordr k (some (b k)) } with
      | .error e => .error e
      | .ok (done, t) => if done then .ok t else scanBlocks env h is t := by
  obtain ⟨hmax, hfits⟩ := hfl.rank k hk
  rw [scanBlocks, if_neg (by rw [hread]; decide), hfl.header k hk, if_neg (not_not.mpr (hdrPage_take hfits)),
    headerRank_hdrPage hfits hmax]
  change (if (k : ℤ) < 0 ∨ (maxMetaBlk : ℤ) ≤ k then _ else _) = _
  rw [if_neg (by omega), Int.toNat_natCast]
  cases scanPages env h (b k) k (List.range' 1 (env.pagesPerBlock - 1))
    { t with metaBlkordr := Function.update t.metaBlkordr k (some (b k)) } <;> rfl

/-- The scan of the blocks `is`, of which only the last metadata block may be read in part. -/
theorem scanBlocks_outcome (hread : ∀ p, env.readOk h p = true) (hfl : Flushed env h b page) :
    ∀ (is : List ℕ) {t : Scan} {xs : List (ℕ × ℕ)}, (∀ i ∈ is, i < env.nbBlocks) →
      (is.filterMap (rankOf env.toGeometry b) ≠ [] → xs.length +
        ((is.filterMap (rankOf env.toGeometry b)).length - 1) * (env.pagesPerBlock - 1) <
          nbPages env.toGeometry) →
      Scanned env h b t xs → xs.length ≤ nbPages env.toGeometry →
      hsPgs env.toGeometry < (forHash env.toGeometry ((xs ++ rows (env.pagesPerBlock - 1)
          (is.filterMap (rankOf env.toGeometry b))).take (nbPages env.toGeometry))).length ∧
        scanBlocks env h is t = .error .overflow ∨
      ∃ t', scanBlocks env h is t = .ok t' ∧
        Scanned env h b t' ((xs ++ rows (env.pagesPerBlock - 1)
          (is.filterMap (rankOf env.toGeometry b))).take (nbPages env.toGeometry)) ∧
        ∀ k, t'.metaBlkordr k =
          if k ∈ is.filterMap (rankOf env.toGeometry b) then some (b k) else t.metaBlkordr k
  | [], t, xs, _, _, hs, hxs => by
    refine .inr ⟨t, rfl, ?_, fun k => rfl⟩
    rw [List.filterMap_nil, rows_nil, List.append_nil, List.take_of_length_le hxs]
    exact hs
  | i :: is, t, xs, his, hfit, hs, hxs => by
    have his' : ∀ j ∈ is, j < env.nbBlocks := fun j hj => his j (.tail _ hj)
    cases hrank : rankOf env.toGeometry b i with
    | none =>
      rw [List.filterMap_cons_none hrank] at hfit ⊢
      rw [scanBlocks_other hread hfl (his i List.mem_cons_self) hrank]
      exact scanBlocks_outcome hread hfl is his' hfit hs hxs
    | some k =>
      obtain ⟨hk, rfl⟩ := rankOf_some hrank
      rw [List.filterMap_cons_some hrank] at hfit ⊢
      rw [scanBlocks_meta hread hfl hk, rows_cons, ← List.append_assoc, row, List.range_eq_range']
      have hs₀ : Scanned env h b { t with metaBlkordr := Function.update t.metaBlkordr k (some (b k)) } xs :=
        ⟨hs.total, hs.jackOfs, hs.fits, hs.hash, hs.blk, hs.small⟩
      obtain ⟨hcount, he⟩ | ⟨done, t₁, he, hs₁, hord, hdone⟩ :=
        scanPages_outcome (k := k) hread (env.pagesPerBlock - 1) 0 (by omega) hs₀ hxs
      · rw [Nat.zero_add] at he
        rw [he]
        exact .inl ⟨hcount.trans_le (forHash_take_le _ _), rfl⟩
      · rw [Nat.zero_add] at he
        rw [he]
        have hentry : ∀ j, (if j ∈ is.filterMap (rankOf env.toGeometry b) then some (b j)
            else t₁.metaBlkordr j) = if j ∈ k :: is.filterMap (rankOf env.toGeometry b) then some (b j)
            else t.metaBlkordr j := by
          intro j
          rw [hord]
          by_cases hj : j = k
          · subst hj
            simp
          · simp [hj]
        have hlen : (xs ++ (List.range' 0 (env.pagesPerBlock - 1)).map (Prod.mk k)).length =
            xs.length + (env.pagesPerBlock - 1) := by simp
        by_cases hR : is.filterMap (rankOf env.toGeometry b) = []
        · -- no metadata block follows, so it does not matter where the scan stops
          have hend : ∀ t', Scanned env h b t' ((xs ++ (List.range' 0 (env.pagesPerBlock - 1)).map
              (Prod.mk k)).take (nbPages env.toGeometry)) → Scanned env h b t' ((xs ++ (List.range' 0
                (env.pagesPerBlock - 1)).map (Prod.mk k) ++ rows (env.pagesPerBlock - 1)
                  (is.filterMap (rankOf env.toGeometry b))).take (nbPages env.toGeometry)) := by
            intro t' hs'
            rw [hR, rows_nil, List.append_nil]
            exact hs'
          cases done with
          | true =>
            refine .inr ⟨t₁, rfl, hend t₁ hs₁, fun j => ?_⟩
            rw [← hentry, hR, if_neg List.not_mem_nil]
          | false =>
            obtain ⟨hcount, -⟩ | ⟨t', he', hs', hord'⟩ := scanBlocks_outcome hread hfl is his'
              (fun hne => absurd hR hne) hs₁ (List.length_take_le _ _)
            · rw [hR, rows_nil, List.append_nil, List.take_take, Nat.min_self, ← hs₁.jackOfs] at hcount
              exact absurd hs₁.fits (not_le.mpr hcount)
            · rw [hR, rows_nil, List.append_nil, List.take_take, Nat.min_self] at hs'
              exact .inr ⟨t', he', hend t' hs', fun j => by rw [hord', hentry]⟩
        · -- the block is read to its end
          have hpos := List.length_pos_of_ne_nil hR
          have hroom := hfit (List.cons_ne_nil _ _)
          rw [List.length_cons, Nat.add_sub_cancel] at hroom
          have hone := Nat.le_mul_of_pos_left (env.pagesPerBlock - 1) hpos
          cases done with
          | true =>
            have := hdone rfl
            omega
          | false =>
            rw [List.take_of_length_le (by omega)] at hs₁
            have hfit' : (xs ++ (List.range' 0 (env.pagesPerBlock - 1)).map (Prod.mk k)).length +
                ((is.filterMap (rankOf env.toGeometry b)).length - 1) * (env.pagesPerBlock - 1) <
                  nbPages env.toGeometry := by
              have hsub := Nat.sub_mul (is.filterMap (rankOf env.toGeometry b)).length 1
                (env.pagesPerBlock - 1)
              rw [Nat.one_mul] at hsub
              omega
            obtain ⟨hcount, he'⟩ | ⟨t', he', hs', hord'⟩ := scanBlocks_outcome hread hfl is his'
              (fun _ => hfit') hs₁ (by omega)
            · exact .inl ⟨hcount, he'⟩
            · exact .inr ⟨t', he', hs', fun j => by rw [hord', hentry]⟩

/-- The ranks of the metadata blocks in the order in which the scan meets them. -/
theorem ranks_keyed (hfl : Flushed env h b page) : Keyed b (nbHeaders env.toGeometry)
    ((List.range env.nbBlocks).filterMap (rankOf env.toGeometry b)) := by
  constructor
  · refine List.pairwise_filterMap.mpr (List.pairwise_lt_range.imp fun {i j} hij => ?_)
    intro k hk k' hk'
    rw [(rankOf_some hk).2, (rankOf_some hk').2]
    exact hij
  · intro k
    rw [List.mem_filterMap]
    constructor
    · rintro ⟨i, -, hi⟩
      exact (rankOf_some hi).1
    · intro hk
      refine ⟨b k, List.mem_range.mpr (hfl.lt k hk), ?_⟩
      cases hrank : rankOf env.toGeometry b (b k) with
      | none => exact absurd rfl (rankOf_none hrank k hk)
      | some k' =>
        obtain ⟨hk', he⟩ := rankOf_some hrank
        rw [hfl.inj k' hk' k hk he]

/-- The scan restores the two areas and the entries of `meta_blkordr`. -/
def Restores (env : Env) (h : History) (b : ℕ → ℕ) (page : ℕ → List Byte)
    (blkArea hashArea : ℕ → List Byte) : Prop :=
  ∃ t, initScan env h blkArea hashArea = .ok t ∧
    (∀ k < nbHeaders env.toGeometry, t.metaBlkordr k = some (b k)) ∧
    (∀ p < blkPgs env.toGeometry, t.blkArea p = page p) ∧
    ∀ q < hsPgs env.toGeometry, t.hashArea q = page (blkPgs env.toGeometry + q)

section Restore
variable (hread : ∀ p, env.readOk h p = true) (hfl : Flushed env h b page)
include hread hfl

theorem initScan_outcome (blkArea hashArea : ℕ → List Byte) : ∃ ks xs,
    Keyed b (nbHeaders env.toGeometry) ks ∧
    xs = (rows (env.pagesPerBlock - 1) ks).take (nbPages env.toGeometry) ∧
    xs.length = nbPages env.toGeometry ∧
    (hsPgs env.toGeometry < (forHash env.toGeometry xs).length ∧
        initScan env h blkArea hashArea = .error .overflow ∨
      ∃ t, initScan env h blkArea hashArea = .ok t ∧ Scanned env h b t xs ∧
        ∀ k < nbHeaders env.toGeometry, t.metaBlkordr k = some (b k)) := by
  have hkeyed := ranks_keyed hfl
  refine ⟨_, _, hkeyed, rfl, ?_, ?_⟩
  · rw [List.length_take, rows_length, hkeyed.length]
    exact Nat.min_eq_left (nbHeaders_hi _)
  · have hout := scanBlocks_outcome hread hfl (List.range env.nbBlocks)
      (fun i hi => List.mem_range.mp hi)
      (fun _ => by rw [hkeyed.length, List.length_nil, Nat.zero_add]; exact nbHeaders_lo _)
      (Scanned.start blkArea hashArea) (Nat.zero_le _)
    rw [List.nil_append] at hout
    obtain ⟨hcount, he⟩ | ⟨t, he, hs, hord⟩ := hout
    · exact .inl ⟨hcount, he⟩
    · refine .inr ⟨t, he, hs, fun k hk => ?_⟩
      rw [hord, if_pos ((hkeyed.mem k).mpr hk)]

theorem restores_of_fits (hfit : OrderFits b (env.pagesPerBlock - 1) (blkPgs env.toGeometry)
    (nbPages env.toGeometry) (nbHeaders env.toGeometry)) (blkArea hashArea : ℕ → List Byte) :
    Restores env h b page blkArea hashArea := by
  obtain ⟨ks, xs, hkeyed, rfl, hlen, hout⟩ := initScan_outcome hread hfl blkArea hashArea
  have hsum : nbPages env.toGeometry - blkPgs env.toGeometry = hsPgs env.toGeometry := by
    rw [nbPages, Nat.add_sub_cancel_left]
  have hcells := hkeyed.kept_of_fits (nbHeaders_lo _) (nbHeaders_hi _) (blkPgs_lt _) hfit
  rw [hsum] at hcells
  have hnum := congrArg List.length hcells
  rw [List.length_map, List.length_range'] at hnum
  obtain ⟨hcount, -⟩ | ⟨t, he, hs, hord⟩ := hout
  · rw [forHash, hnum] at hcount
    exact absurd hcount (lt_irrefl _)
  refine ⟨t, he, hord, fun p hp => ?_, fun q hq => ?_⟩
  · have hpc := hp.trans_le hfit.fits
    have hmem := mem_of_kept_length hfit.fits ((rows_nodup (nodup_of_key hkeyed.pairwise)).sublist
      (List.take_sublist _ _)) (by rw [hnum, hlen, nbPages, Nat.add_comm]) hp
    have hblk := hs.blk (0, p) hmem (by rw [Nat.zero_mul, Nat.zero_add]; exact hp)
    have hdata := hfl.data p (hp.trans (blkPgs_lt _))
    rw [Nat.div_eq_of_lt hpc, Nat.mod_eq_of_lt hpc] at hdata
    rw [Nat.zero_mul, Nat.zero_add] at hblk
    exact hblk.trans hdata
  · have hget : (forHash env.toGeometry ((rows (env.pagesPerBlock - 1) ks).take
        (nbPages env.toGeometry)))[q]? = some (cell (env.pagesPerBlock - 1) (blkPgs env.toGeometry + q)) := by
      rw [forHash, hcells, List.getElem?_map, List.getElem?_range' hq, Nat.one_mul]
      rfl
    have hi : blkPgs env.toGeometry + q < nbPages env.toGeometry := by
      rw [nbPages]
      omega
    exact (hs.hash q _ hget).trans (hfl.data _ hi)

/-- With the pages of the hash table distinct, nothing but the right order restores them. -/
theorem fits_of_restores {blkArea hashArea : ℕ → List Byte}
    (hdist : ∀ q < hsPgs env.toGeometry, ∀ q' < hsPgs env.toGeometry,
      page (blkPgs env.toGeometry + q) = page (blkPgs env.toGeometry + q') → q = q')
    (hres : Restores env h b page blkArea hashArea) :
    OrderFits b (env.pagesPerBlock - 1) (blkPgs env.toGeometry) (nbPages env.toGeometry)
      (nbHeaders env.toGeometry) := by
  obtain ⟨ks, xs, hkeyed, rfl, hlen, hout⟩ := initScan_outcome hread hfl blkArea hashArea
  obtain ⟨t', ht', -, -, hhash⟩ := hres
  obtain ⟨-, he⟩ | ⟨t, he, hs, -⟩ := hout
  · rw [he] at ht'
    cases ht'
  obtain rfl := Except.ok.inj (he.symm.trans ht')
  have hnd := (rows_nodup (c := env.pagesPerBlock - 1) (nodup_of_key hkeyed.pairwise)).sublist
    (List.take_sublist (nbPages env.toGeometry) _)
  have hcount := kept_length (B := blkPgs env.toGeometry) hnd hs.small
  have hfits := hs.fits
  rw [hs.jackOfs, forHash] at hfits
  have hsum : nbPages env.toGeometry = blkPgs env.toGeometry + hsPgs env.toGeometry := rfl
  have hB : blkPgs env.toGeometry ≤ env.pagesPerBlock - 1 := by
    by_contra hB
    rw [if_pos (not_le.mp hB)] at hcount
    omega
  refine hkeyed.fits_of_kept (nbHeaders_lo _) (nbHeaders_hi _) hB (Nat.succ_pos _) (blkPgs_lt _)
    (fun q k hk hget => ?_) fun p hp => mem_of_kept_length hB hnd (by omega) hp
  have hmem := List.mem_of_mem_take (List.mem_of_mem_filter (List.mem_of_getElem? hget))
  have hkm : k < nbHeaders env.toGeometry := (hkeyed.mem k).mp (mem_rows.mp hmem).1
  have hkc : k * (env.pagesPerBlock - 1) < nbPages env.toGeometry :=
    (Nat.mul_le_mul_right _ (Nat.le_sub_one_of_lt hkm)).trans_lt (nbHeaders_lo _)
  have hck : env.pagesPerBlock - 1 ≤ k * (env.pagesPerBlock - 1) :=
    Nat.le_mul_of_pos_left _ (Nat.pos_of_ne_zero hk)
  have hdata := hfl.data _ hkc
  rw [Nat.mul_div_cancel _ (dataPgs_pos _), Nat.mul_mod_left] at hdata
  have hq : q < hsPgs env.toGeometry :=
    (List.getElem?_eq_some_iff.mp hget).1.trans_le hfits
  have hsame := (hhash q hq).symm.trans ((hs.hash q _ hget).trans hdata)
  obtain ⟨d, hd⟩ := Nat.exists_eq_add_of_le (hB.trans hck)
  rw [hd] at hsame hkc ⊢
  rw [hdist q hq d (by omega) hsame]

end Restore

end Scan

/-! ## Flush and mount -/

/-- `init_scan`, on the flash that a flush has left, restores the block records as the flush has copied
them, the hash table, and the entries of `meta_blkordr`. -/
def RoundTrip (env : Env) (s : Config) (b : ℕ → ℕ) (pages : List (List Byte))
    (blkArea hashArea : ℕ → List Byte) : Prop :=
  ∃ t, initScan env s.mtd blkArea hashArea = .ok t ∧
    (∀ k < nbHeaders env.toGeometry, t.metaBlkordr k = some (b k)) ∧
    (∀ p < blkPgs env.toGeometry, t.blkArea p = pages.getD p []) ∧
    ∀ q < hsPgs env.toGeometry, t.hashArea q = env.hashPage s.hashtable q

/-- What a flush to the erased blocks `b 0, b 1, ..` has written is restored if the ranks of the blocks and
their numbers agree; and with the pages of the hash table distinct, only then. -/
theorem flush_roundTrip_iff {b : ℕ → ℕ} {pages : List (List Byte)}
    (hord : ∀ k < nbHeaders env.toGeometry, s.metaBlkordr k = some (b k))
    (hinj : ∀ j < nbHeaders env.toGeometry, ∀ k < nbHeaders env.toGeometry, b j = b k → j = k)
    (hblank : ∀ k < nbHeaders env.toGeometry, ∀ o < env.pagesPerBlock,
      programmed s.mtd (b k * env.pagesPerBlock + o) = false)
    (hother : ∀ i < env.nbBlocks, (∀ k < nbHeaders env.toGeometry, b k ≠ i) →
      (content env.pageSize s.mtd (i * env.pagesPerBlock)).take metaHdrBase.length ≠ metaHdrBase)
    (he : flushWrite env (List.range (nbPages env.toGeometry)) 0 0 s = .ok ((0, pages), s'))
    (hread : ∀ p, env.readOk s'.mtd p = true) (blkArea hashArea : ℕ → List Byte) :
    (OrderFits b (env.pagesPerBlock - 1) (blkPgs env.toGeometry) (nbPages env.toGeometry)
        (nbHeaders env.toGeometry) → RoundTrip env s' b pages blkArea hashArea) ∧
      ((∀ q < hsPgs env.toGeometry, ∀ q' < hsPgs env.toGeometry,
          env.hashPage s'.hashtable q = env.hashPage s'.hashtable q' → q = q') →
        RoundTrip env s' b pages blkArea hashArea →
          OrderFits b (env.pagesPerBlock - 1) (blkPgs env.toGeometry) (nbPages env.toGeometry)
            (nbHeaders env.toGeometry)) := by
  obtain ⟨hfl, -, hhash⟩ := flushWrite_flushed hord hinj hblank hother he
  constructor
  · intro hfit
    obtain ⟨t, ht, hto, htb, hth⟩ := restores_of_fits hread hfl hfit blkArea hashArea
    exact ⟨t, ht, hto, htb, fun q hq => (hth q hq).trans (hhash q hq)⟩
  · rintro hdist ⟨t, ht, hto, htb, hth⟩
    have hres : Restores env s'.mtd b (fun i => pages.getD i []) blkArea hashArea :=
      ⟨t, ht, hto, htb, fun q hq => (hth q hq).trans (hhash q hq).symm⟩
    refine fits_of_restores hread hfl (fun q hq q' hq' hpage => ?_) hres
    exact hdist q hq q' hq' ((hhash q hq).symm.trans (hpage.trans (hhash q' hq')))

theorem erased_take_ne {size : ℕ} (hs : 0 < size) :
    (erased size).take metaHdrBase.length ≠ metaHdrBase := by
  obtain ⟨n, rfl⟩ := Nat.exists_eq_succ_of_ne_zero hs.ne'
  intro he
  rw [erased, List.replicate_succ, metaHdrBase, List.length_cons, List.take_succ_cons] at he
  exact absurd (List.cons.inj he).1 (by decide)

/-- Four blocks of four pages of 512 bytes; the pages of the hash table are told apart by their first
byte. -/
def crossedEnv : Env where
  toGeometry := .ofSizes 4 4 512 (by decide)
  eraseResult _ _ _ := .done
  writeOk _ _ := true
  readOk _ _ := true
  blkPage _ _ := List.replicate 512 0
  hashPage _ p := List.replicate 512 (BitVec.ofNat 8 p)
  blkPage_length _ _ := List.length_replicate
  hashPage_length _ _ := List.length_replicate

/-- Rank 0 in block 1 and rank 1 in block 3: five pages over two metadata blocks. -/
theorem flush_roundTrip_two : ∃ pages s',
    flushWrite crossedEnv (List.range (nbPages crossedEnv.toGeometry)) 0 0
        { Config.start with metaBlkordr := fun k => if k < 2 then some (2 * k + 1) else none } =
          .ok ((0, pages), s') ∧
      RoundTrip crossedEnv s' (fun k => 2 * k + 1) pages (fun _ => []) (fun _ => []) := by
  have hhead : ∀ i < crossedEnv.nbBlocks, (∀ k < nbHeaders crossedEnv.toGeometry, 2 * k + 1 ≠ i) →
      (content crossedEnv.pageSize [] (i * crossedEnv.pagesPerBlock)).take metaHdrBase.length ≠
        metaHdrBase := fun _ _ _ => erased_take_ne (by decide)
  have hinj : ∀ j < nbHeaders crossedEnv.toGeometry, ∀ k < nbHeaders crossedEnv.toGeometry,
      2 * j + 1 = 2 * k + 1 → j = k := by
    intro j _ k _ he
    omega
  refine ⟨_, _, rfl, (@flush_roundTrip_iff crossedEnv
    { Config.start with metaBlkordr := fun k => if k < 2 then some (2 * k + 1) else none } _ (fun k => 2 * k + 1) _
    (fun k hk => if_pos hk) hinj (fun _ _ _ _ => rfl) hhead rfl (fun _ => rfl) _ _).1 ?_⟩
  exact ⟨by decide, fun i j _ hij _ => by omega, fun _ _ => by decide, fun h => absurd h (by decide)⟩

/-- Rank 0 in block 1 and rank 1 in block 0. -/
theorem crossed_flush_not_restored : ∃ pages s',
    flushWrite crossedEnv (List.range (nbPages crossedEnv.toGeometry)) 0 0
        { Config.start with metaBlkordr := fun k => if k < 2 then some (1 - k) else none } =
          .ok ((0, pages), s') ∧
      ∀ blkArea hashArea, ¬ RoundTrip crossedEnv s' (fun k => 1 - k) pages blkArea hashArea := by
  refine ⟨_, _, rfl, fun blkArea hashArea hres => ?_⟩
  have hinj : ∀ j < nbHeaders crossedEnv.toGeometry, ∀ k < nbHeaders crossedEnv.toGeometry,
      1 - j = 1 - k → j = k := by
    intro j hj k hk he
    change j < 2 at hj
    change k < 2 at hk
    omega
  have hhead : ∀ i < crossedEnv.nbBlocks, (∀ k < nbHeaders crossedEnv.toGeometry, 1 - k ≠ i) →
      (content crossedEnv.pageSize [] (i * crossedEnv.pagesPerBlock)).take metaHdrBase.length ≠
        metaHdrBase := fun _ _ _ => erased_take_ne (by decide)
  obtain ⟨hfl, -, hhash⟩ := @flushWrite_flushed crossedEnv
    { Config.start with metaBlkordr := fun k => if k < 2 then some (1 - k) else none } _
    (fun k => 1 - k) _ (fun k hk => if_pos hk) hinj (fun _ _ _ _ => rfl) hhead rfl
  obtain ⟨t, ht, hto, htb, hth⟩ := hres
  have hfit := fits_of_restores (fun _ => rfl) hfl (fun q hq q' hq' he => ?_)
    ⟨t, ht, hto, htb, fun q hq => (hth q hq).trans (hhash q hq).symm⟩
  · exact absurd (hfit.first (by decide) (by decide)) (by decide)
  · have he := (hhash q hq).symm.trans (he.trans (hhash q' hq'))
    change q < 4 at hq
    change q' < 4 at hq'
    have hbyte := congrArg BitVec.toNat ((List.replicate_inj.mp he).2.resolve_left (by decide))
    simpa [Nat.mod_eq_of_lt (by omega : q < 256), Nat.mod_eq_of_lt (by omega : q' < 256)] using hbyte

end LkpProjects.Parallel
