import LkpProjects.Serial.Reclaim

/-! # The serial store: when a collection loses a pair

The pages that `gc` reads lie `pages_per_block` bytes apart in its buffer, so each but the last is
overwritten from that many bytes on by the page read next. A record of one byte more gets the low byte
of the next record's key length as its last byte, a longer one gets a zero in the middle of its key or
value. `gc` keeps the map exactly when the buffer holds the pages, no record but the last is longer
than that, and the records that lose their last byte turn into one another (`gc_keeps_map_iff`).
-/
namespace LkpProjects.Serial
open Nand Bytes
set_option autoImplicit false

/-! ## What is left of the records -/

/-- The pairs of a block, in the order `gc` reads them. -/
def livePairs (env : Env) (s : Config) (b : ℕ) : List (CStr × CStr) :=
  (s.blocks b).list.map (pairOf env s)

def bytesOf (kv : CStr × CStr) : List Byte × List Byte := (kv.1.bytes, kv.2.bytes)

/-- A record of `size` bytes gets the byte `c` as its last one. -/
def clip (size : ℕ) (c : Byte) (kv : List Byte × List Byte) : List Byte × List Byte :=
  if 8 + kv.1.length + kv.2.length = size then
    if kv.2 = [] then (kv.1.dropLast ++ [c], []) else (kv.1, kv.2.dropLast ++ [c])
  else kv

/-- The pairs after a record of `stride + 1` bytes lost its last byte to the record behind it. -/
def smeared (stride : ℕ) : List (CStr × CStr) → List (List Byte × List Byte)
  | [] => []
  | [kv] => [bytesOf kv]
  | kv :: kv' :: recs =>
      clip (stride + 1) (leByte kv'.1.len 0) (bytesOf kv) :: smeared stride (kv' :: recs)

/-- The condition on the live pairs of the block that `gc` collects. -/
structure Survives (env : Env) (s : Config) (b : ℕ) : Prop where
  room : livePairs env s b ≠ [] → ((livePairs env s b).length - 1) * env.pagesPerBlock +
    env.pageSize ≤ env.pageSize * env.pagesPerBlock
  short : ∀ kv ∈ (livePairs env s b).dropLast, 8 + kv.1.len + kv.2.len ≤ env.pagesPerBlock + 1
  same : (smeared env.pagesPerBlock (livePairs env s b)).Perm ((livePairs env s b).map bytesOf)

/-! ## The buffer after the walk -/

/-- The records lie in the buffer, each but the last up to the stride. -/
def Laid (stride : ℕ) (buf : ℕ → Byte) : ℕ → List (CStr × CStr) → Prop
  | _, [] => True
  | i, kv :: recs =>
      (∀ x < 8 + kv.1.len + kv.2.len, x < stride ∨ recs = [] →
        buf (i * stride + x) = mem (recordBytes kv.1 kv.2) x) ∧ Laid stride buf (i + 1) recs

theorem layPages_before {stride i p : ℕ} {pages : List (List Byte)} {buf : ℕ → Byte}
    (hp : p < i * stride) : layPages stride i pages buf p = buf p := by
  induction pages generalizing i buf with
  | nil => rfl
  | cons page pages ih =>
    rw [layPages, ih (by rw [Nat.succ_mul]; omega), blit_before hp]

/-- The walk lays the records into its buffer. -/
theorem laid_layPages {g : Geometry} {stride i : ℕ} {slots : List ℕ} {page : ℕ → List Byte}
    {pair : ℕ → CStr × CStr} {buf : ℕ → Byte}
    (hh : ∀ h ∈ slots, Holds g (page h) (pair h).1 (pair h).2) :
    Laid stride (layPages stride i (slots.map page) buf) i (slots.map pair) := by
  induction slots generalizing i buf with
  | nil => trivial
  | cons h slots ih =>
    refine ⟨fun x hx hstride => ?_, ih fun j hj => hh j (List.mem_cons_of_mem _ hj)⟩
    have hrec : RecordAt (blit buf (i * stride) (page h)) (i * stride) (pair h).1 (pair h).2 :=
      .of_blit (hh h List.mem_cons_self)
    rw [List.map_cons, layPages, ← hrec x hx]
    obtain hlt | hnil := hstride
    · exact layPages_before (by rw [Nat.succ_mul]; omega)
    · rw [List.map_eq_nil_iff] at hnil
      rw [hnil]
      rfl

/-- What the buffer holds where the records were. -/
def rawPairs (stride : ℕ) (buf : ℕ → Byte) : ℕ → List (CStr × CStr) → List (List Byte × List Byte)
  | _, [] => []
  | i, kv :: recs =>
      (cut buf (i * stride + 8) kv.1.len, cut buf (i * stride + 8 + kv.1.len) kv.2.len) ::
        rawPairs stride buf (i + 1) recs

/-- No NUL among the bytes. -/
def NulFree (kv : List Byte × List Byte) : Prop := (∀ c ∈ kv.1, c ≠ 0) ∧ ∀ c ∈ kv.2, c ≠ 0

theorem nulFree_bytesOf (kv : CStr × CStr) : NulFree (bytesOf kv) := ⟨kv.1.noNul, kv.2.noNul⟩

variable {stride : ℕ} {buf buf' : ℕ → Byte} {i : ℕ} {kv : CStr × CStr}

theorem mem_cut {p n : ℕ} {c : Byte} : c ∈ cut buf p n ↔ ∃ x < n, buf (p + x) = c := by
  simp [cut]

theorem NulFree.append {kv : List Byte × List Byte} (h : NulFree kv) : ∀ c ∈ kv.1 ++ kv.2, c ≠ 0 := by
  intro c hc
  rw [List.mem_append] at hc
  exact hc.elim (h.1 c) (h.2 c)

/-- Key and value of the record at `i`, one behind the other. -/
theorem raw_append (stride : ℕ) (buf : ℕ → Byte) (i : ℕ) (kv : CStr × CStr) :
    cut buf (i * stride + 8) kv.1.len ++ cut buf (i * stride + 8 + kv.1.len) kv.2.len =
      cut buf (i * stride + 8) (kv.1.len + kv.2.len) := (cut_add _ _ _ _).symm

theorem recordBytes_val (kv : CStr × CStr) (x : ℕ) :
    mem (recordBytes kv.1 kv.2) (8 + x) = mem (kv.1.bytes ++ kv.2.bytes) x := by
  rw [recordBytes, ← List.append_assoc, mem_append_right (by simp)]
  congr 1
  simp

theorem recordBytes_keyLen {x : ℕ} (hx : x < 4) :
    mem (recordBytes kv.1 kv.2) x = leByte kv.1.len x := by
  rw [recordBytes, mem_append_left (by simpa using hx), mem_le32 _ hx]

theorem recordBytes_valLen {x : ℕ} (hx : x < 4) :
    mem (recordBytes kv.1 kv.2) (4 + x) = leByte kv.2.len x := by
  rw [recordBytes, mem_append_right (by simp), le32_length, Nat.add_sub_cancel_left,
    mem_append_left (by simpa using hx), mem_le32 _ hx]

/-- A record that loses its last byte. -/
theorem clip_append {size : ℕ} (c : Byte) (kv : List Byte × List Byte) (hsize : 8 < size)
    (h : 8 + kv.1.length + kv.2.length = size) :
    (clip size c kv).1 ++ (clip size c kv).2 = (kv.1 ++ kv.2).dropLast ++ [c] ∧
      (clip size c kv).1.length = kv.1.length := by
  obtain ⟨k, v⟩ := kv
  simp only at h ⊢
  rw [clip, if_pos h]
  by_cases hv : v = []
  · subst hv
    rw [List.length_nil] at h
    simp only [if_true, List.append_nil, List.length_append, List.length_dropLast,
      List.length_singleton, true_and]
    omega
  · simp only [if_neg hv]
    rw [List.dropLast_append_of_ne_nil hv, List.append_assoc]
    exact ⟨rfl, trivial⟩

/-- A record that another one follows: what is left of it when it is short enough. -/
theorem raw_eq_clip {kv' : CStr × CStr} {recs : List (CStr × CStr)} (hstride : 8 ≤ stride)
    (hL : Laid stride buf i (kv :: kv' :: recs)) (hshort : 8 + kv.1.len + kv.2.len ≤ stride + 1) :
    (cut buf (i * stride + 8) kv.1.len, cut buf (i * stride + 8 + kv.1.len) kv.2.len) =
      clip (stride + 1) (leByte kv'.1.len 0) (bytesOf kv) := by
  obtain ⟨hhere, hnext, -⟩ := hL
  by_cases hlt : 8 + kv.1.len + kv.2.len < stride + 1
  · have hrec : RecordAt buf (i * stride) kv.1 kv.2 := fun x hx => hhere x hx (.inl (by omega))
    rw [clip, if_neg (by simp only [bytesOf, CStr.len] at hlt ⊢; omega)]
    exact Prod.ext hrec.bytes.1 hrec.bytes.2
  · have heq : 8 + kv.1.len + kv.2.len = stride + 1 := by omega
    obtain ⟨happ, hlen⟩ := clip_append (leByte kv'.1.len 0) (bytesOf kv) (by omega) heq
    -- the byte at the stride belongs to the next record
    have hlast : buf (i * stride + stride) = leByte kv'.1.len 0 := by
      have h := hnext 0 (by omega) (.inl (by omega))
      rw [Nat.add_zero, Nat.succ_mul] at h
      rw [h, recordBytes_keyLen (by omega)]
    have hcut : cut buf (i * stride + 8) (kv.1.len + kv.2.len) =
        (kv.1.bytes ++ kv.2.bytes).dropLast ++ [leByte kv'.1.len 0] := by
      obtain ⟨n, hn⟩ : ∃ n, kv.1.len + kv.2.len = n + 1 := ⟨stride - 8, by omega⟩
      rw [hn, cut_add]
      have h1 : cut buf (i * stride + 8) (kv.1.bytes ++ kv.2.bytes).dropLast.length =
          (kv.1.bytes ++ kv.2.bytes).dropLast := by
        refine cut_eq_of_mem fun x hx => ?_
        have hx' : x < kv.1.len + kv.2.len - 1 := by
          simpa only [List.length_dropLast, List.length_append, CStr.len] using hx
        rw [Nat.add_assoc, hhere (8 + x) (by omega) (.inl (by omega)), recordBytes_val, mem,
          mem, List.getD_eq_getElem _ _ hx, List.getElem_dropLast,
          List.getD_eq_getElem _ _ (by
            rw [List.length_append]
            simp only [CStr.len] at hx'
            omega)]
      have h2 : (kv.1.bytes ++ kv.2.bytes).dropLast.length = n := by
        rw [List.length_dropLast, List.length_append]
        simp only [CStr.len] at hn
        omega
      rw [h2] at h1
      rw [h1]
      congr 1
      rw [cut, show i * stride + 8 + n = i * stride + stride by omega]
      simp [hlast]
    have hsplit := (raw_append stride buf i kv).trans (hcut.trans happ.symm)
    obtain ⟨h1, h2⟩ := List.append_inj hsplit (by rw [cut_length, hlen]; rfl)
    exact Prod.ext h1 h2

/-- A longer record has a zero in the middle. -/
theorem raw_not_nulFree {kv' : CStr × CStr} {recs : List (CStr × CStr)} (hstride : 8 ≤ stride)
    (hL : Laid stride buf i (kv :: kv' :: recs)) (hkey : kv'.1.len < 256)
    (hlong : stride + 1 < 8 + kv.1.len + kv.2.len) :
    ¬ NulFree (cut buf (i * stride + 8) kv.1.len, cut buf (i * stride + 8 + kv.1.len) kv.2.len) := by
  intro hfree
  obtain ⟨-, hnext, -⟩ := hL
  have hzero : buf (i * stride + (stride + 1)) = 0 := by
    have h := hnext 1 (by omega) (.inl (by omega))
    rw [Nat.succ_mul, Nat.add_assoc] at h
    rw [h, recordBytes_keyLen (by omega), leByte, Nat.pow_one, Nat.div_eq_of_lt hkey]
    rfl
  refine hfree.append 0 ?_ rfl
  rw [raw_append, mem_cut]
  exact ⟨stride + 1 - 8, by omega, by rw [← hzero]; congr 1; omega⟩

theorem rawPairs_eq_smeared {recs : List (CStr × CStr)} (hstride : 8 ≤ stride)
    (hL : Laid stride buf i recs)
    (hshort : ∀ kv ∈ recs.dropLast, 8 + kv.1.len + kv.2.len ≤ stride + 1) :
    rawPairs stride buf i recs = smeared stride recs := by
  induction recs generalizing i with
  | nil => rfl
  | cons kv recs ih =>
    cases recs with
    | nil =>
      have hrec : RecordAt buf (i * stride) kv.1 kv.2 := fun x hx => hL.1 x hx (.inr rfl)
      exact congrArg (· :: []) (Prod.ext hrec.bytes.1 hrec.bytes.2)
    | cons kv' recs =>
      rw [smeared, ← ih hL.2 fun r hr => hshort r (List.mem_cons_of_mem _ hr),
        ← raw_eq_clip hstride hL (hshort kv List.mem_cons_self), rawPairs]

theorem short_of_nulFree {recs : List (CStr × CStr)} (hstride : 8 ≤ stride)
    (hL : Laid stride buf i recs) (hkey : ∀ kv ∈ recs, kv.1.len < 128)
    (hfree : ∀ raw ∈ rawPairs stride buf i recs, NulFree raw) :
    ∀ kv ∈ recs.dropLast, 8 + kv.1.len + kv.2.len ≤ stride + 1 := by
  induction recs generalizing i with
  | nil => exact fun kv hkv => absurd hkv List.not_mem_nil
  | cons kv recs ih =>
    cases recs with
    | nil => exact fun kv hkv => absurd hkv List.not_mem_nil
    | cons kv' recs =>
      have hkey' := hkey kv' (List.mem_cons_of_mem _ List.mem_cons_self)
      intro r hr
      rw [List.dropLast_cons_cons, List.mem_cons] at hr
      obtain rfl | hr := hr
      · by_contra hlong
        exact raw_not_nulFree hstride hL (by omega) (by omega) (hfree _ List.mem_cons_self)
      · exact ih hL.2 (fun kv hkv => hkey kv (List.mem_cons_of_mem _ hkv))
          (fun raw hraw => hfree raw (List.mem_cons_of_mem _ hraw)) r hr

/-! ## The write loop on that buffer -/

/-- The value on a page. -/
def valueOf (data : List Byte) : List Byte :=
  (data.drop (8 + readLe (mem data) 0)).take (readLe (mem data) 4)

/-- A stored key and the value that a read of its page returns. -/
def shown (x : CStr × List Byte) : List Byte × List Byte := (x.1.bytes, valueOf x.2)

theorem mem_cut_lt {p n x : ℕ} (hx : x < n) : mem (cut buf p n) x = buf (p + x) := by
  rw [mem, List.getD_eq_getElem _ _ (by rwa [cut_length])]
  simp [cut]

theorem cut_take_drop {p n k v : ℕ} (h : k + v ≤ n) :
    ((cut buf p n).drop k).take v = cut buf (p + k) v := by
  obtain ⟨d, rfl⟩ := Nat.exists_eq_add_of_le h
  rw [Nat.add_assoc, cut_add, List.drop_left' (cut_length _ _ _), cut_add,
    List.take_left' (cut_length _ _ _)]

theorem cut_take {p n k : ℕ} (h : k ≤ n) : (cut buf p n).take k = cut buf p k := by
  obtain ⟨d, rfl⟩ := Nat.exists_eq_add_of_le h
  rw [cut_add, List.take_left' (cut_length _ _ _)]

theorem CStr.take_ofBytes (l : List Byte) : l.take (CStr.ofBytes l).len = (CStr.ofBytes l).bytes :=
  (List.prefix_iff_eq_take.mp (List.takeWhile_prefix _)).symm

section Rewrite
variable {pos k v x : ℕ}

theorem strncpySelf_before {n : ℕ} (hx : x < pos) : strncpySelf buf pos n x = buf x :=
  if_neg fun h => by omega

theorem strncpySelf_cases (buf : ℕ → Byte) (pos n x : ℕ) :
    strncpySelf buf pos n x = buf x ∨ strncpySelf buf pos n x = 0 := by
  rw [strncpySelf]
  split
  · exact .inr rfl
  · exact .inl rfl

theorem blit_behind {src : List Byte} (hx : pos + src.length ≤ x) : blit buf pos src x = buf x :=
  if_neg fun h => by omega

/-- The lengths are in front of the record again. -/
theorem rewriteBuffer_lens (hx : x < 4) : rewriteBuffer pos k v buf (pos + x) = leByte k x ∧
    rewriteBuffer pos k v buf (pos + 4 + x) = leByte v x := by
  have hk : (le32 k).length = 4 := le32_length k
  have hv : (le32 v).length = 4 := le32_length v
  rw [rewriteBuffer]
  constructor
  · rw [strncpySelf_before (by omega), strncpySelf_before (by omega), blit_before (by omega),
      blit_in (by omega), mem_le32 _ hx]
  · rw [strncpySelf_before (by omega), strncpySelf_before (by omega), blit_in (by omega),
      mem_le32 _ hx]

theorem valueOf_rewritten (pos : ℕ) (buf : ℕ → Byte) {n : ℕ} (h : 8 + k + v ≤ n) (hn : n < 2 ^ 32) :
    valueOf (cut (rewriteBuffer pos k v buf) pos n) =
      cut (rewriteBuffer pos k v buf) (pos + 8 + k) v := by
  have hk : readLe (mem (cut (rewriteBuffer pos k v buf) pos n)) 0 = k :=
    readLe_of_lt (by omega) fun x hx => by
      rw [Nat.zero_add, mem_cut_lt (by omega), (rewriteBuffer_lens hx).1]
  have hv : readLe (mem (cut (rewriteBuffer pos k v buf) pos n)) 4 = v :=
    readLe_of_lt (by omega) fun x hx => by
      rw [mem_cut_lt (by omega), ← Nat.add_assoc, (rewriteBuffer_lens hx).2]
  rw [valueOf, hk, hv, cut_take_drop h, Nat.add_assoc]

/-- A round of the write loop changes nothing where lengths, key and value are in place. -/
theorem rewriteBuffer_eq (hk : ∀ x < 4, buf (pos + x) = leByte k x)
    (hv : ∀ x < 4, buf (pos + 4 + x) = leByte v x)
    (hfree : NulFree (cut buf (pos + 8) k, cut buf (pos + 8 + k) v)) :
    rewriteBuffer pos k v buf = buf := by
  have h1 : blit buf pos (le32 k) = buf := blit_self fun x hx => by
    rw [le32_length] at hx
    rw [hk x hx, mem_le32 _ hx]
  have h2 : blit buf (pos + 4) (le32 v) = buf := blit_self fun x hx => by
    rw [le32_length] at hx
    rw [hv x hx, mem_le32 _ hx]
  rw [rewriteBuffer, h1, h2, strncpySelf_eq hfree.1, strncpySelf_eq hfree.2]

/-- Otherwise it can only clear bytes. -/
theorem rewriteBuffer_cases (hk : ∀ x < 4, buf' (pos + x) = leByte k x)
    (hv : ∀ x < 4, buf' (pos + 4 + x) = leByte v x) (hz : ∀ p, buf p = buf' p ∨ buf p = 0) (p : ℕ) :
    rewriteBuffer pos k v buf p = buf' p ∨ rewriteBuffer pos k v buf p = 0 := by
  have hblit : blit (blit buf pos (le32 k)) (pos + 4) (le32 v) p = buf' p ∨
      blit (blit buf pos (le32 k)) (pos + 4) (le32 v) p = 0 := by
    have hlk : (le32 k).length = 4 := le32_length k
    have hlv : (le32 v).length = 4 := le32_length v
    by_cases h1 : p < pos
    · rw [blit_before (by omega), blit_before h1]
      exact hz p
    · by_cases h2 : p < pos + 8
      · left
        by_cases h3 : p < pos + 4
        · obtain ⟨x, rfl⟩ := Nat.exists_eq_add_of_le (Nat.le_of_not_lt h1)
          rw [blit_before h3, blit_in (by omega), mem_le32 _ (by omega), hk x (by omega)]
        · obtain ⟨x, rfl⟩ := Nat.exists_eq_add_of_le (Nat.le_of_not_lt h3)
          rw [blit_in (by omega), mem_le32 _ (by omega), hv x (by omega)]
      · rw [blit_behind (by omega), blit_behind (by omega)]
        exact hz p
  rw [rewriteBuffer]
  obtain h | h := strncpySelf_cases (strncpySelf (blit (blit buf pos (le32 k)) (pos + 4) (le32 v))
    (pos + 8) k) (pos + 8 + k) v p
  · rw [h]
    obtain h | h := strncpySelf_cases (blit (blit buf pos (le32 k)) (pos + 4) (le32 v)) (pos + 8) k p
    · rw [h]
      exact hblit
    · exact .inr h
  · exact .inr h

end Rewrite

theorem Laid.lens {recs : List (CStr × CStr)} (hstride : 8 ≤ stride)
    (hL : Laid stride buf i (kv :: recs)) :
    (∀ x < 4, buf (i * stride + x) = leByte kv.1.len x) ∧
      ∀ x < 4, buf (i * stride + 4 + x) = leByte kv.2.len x := by
  constructor
  · intro x hx
    rw [hL.1 x (by omega) (.inl (by omega)), recordBytes_keyLen hx]
  · intro x hx
    rw [Nat.add_assoc, hL.1 (4 + x) (by omega) (.inl (by omega)), recordBytes_valLen hx]

variable {g : Geometry} {recs : List (CStr × CStr)}

/-- When no NUL has got into a record, the write loop stores what is in the buffer. -/
theorem shown_writtenBack (hstride : 8 ≤ g.pagesPerBlock) (hL : Laid g.pagesPerBlock buf i recs)
    (hsize : ∀ kv ∈ recs, 8 + kv.1.len + kv.2.len ≤ g.pageSize)
    (hfree : ∀ raw ∈ rawPairs g.pagesPerBlock buf i recs, NulFree raw) :
    (writtenBack g i (recs.map recordLens) buf).map shown = rawPairs g.pagesPerBlock buf i recs := by
  induction recs generalizing i with
  | nil => rfl
  | cons kv recs ih =>
    have hraw := hfree _ List.mem_cons_self
    have hpage := g.pageSize_lt
    obtain ⟨hk, hv⟩ := hL.lens hstride
    have hbuf := rewriteBuffer_eq hk hv hraw
    have hval := valueOf_rewritten (i * g.pagesPerBlock) buf
      (hsize kv List.mem_cons_self) (by omega)
    rw [hbuf] at hval
    have hkey : (CStr.ofBytes (cut buf (i * g.pagesPerBlock + 8) kv.1.len)).bytes =
        cut buf (i * g.pagesPerBlock + 8) kv.1.len :=
      congrArg CStr.bytes (CStr.ofBytes_bytes ⟨_, hraw.1⟩)
    rw [List.map_cons, recordLens, writtenBack, hbuf, List.map_cons, rawPairs,
      ih hL.2 (fun r hr => hsize r (List.mem_cons_of_mem _ hr))
        fun raw hr => hfree raw (List.mem_cons_of_mem _ hr)]
    exact congrArg (· :: rawPairs g.pagesPerBlock buf (i + 1) recs) (Prod.ext hkey hval)

/-- What the write loop stores is no longer than what the buffer holds, and as long only if it is the
same. -/
def Dulled (sh raw : List Byte × List Byte) : Prop :=
  sh.1.length ≤ raw.1.length ∧
    (sh.1.length = raw.1.length → (∀ c ∈ sh.2, c ≠ 0) → sh = raw ∧ NulFree raw)

theorem cut_eq_of_ne_zero {p n : ℕ} (hz : ∀ p, buf p = buf' p ∨ buf p = 0)
    (h : ∀ c ∈ cut buf p n, c ≠ 0) : cut buf p n = cut buf' p n := by
  refine List.map_congr_left fun x hx => ?_
  have hx' := h (buf (p + x)) (mem_cut.mpr ⟨x, List.mem_range.mp hx, rfl⟩)
  exact (hz (p + x)).resolve_right hx'

theorem dulled_writtenBack (hstride : 8 ≤ g.pagesPerBlock) (hL : Laid g.pagesPerBlock buf' i recs)
    (hsize : ∀ kv ∈ recs, 8 + kv.1.len + kv.2.len ≤ g.pageSize)
    (hz : ∀ p, buf p = buf' p ∨ buf p = 0) :
    List.Forall₂ Dulled ((writtenBack g i (recs.map recordLens) buf).map shown)
      (rawPairs g.pagesPerBlock buf' i recs) := by
  induction recs generalizing i buf with
  | nil => exact .nil
  | cons kv recs ih =>
    have hpage := g.pageSize_lt
    obtain ⟨hk, hv⟩ := hL.lens hstride
    have hz' := rewriteBuffer_cases hk hv hz
    have hval := valueOf_rewritten (i * g.pagesPerBlock) buf
      (hsize kv List.mem_cons_self) (by omega)
    rw [List.map_cons, recordLens, writtenBack, List.map_cons, rawPairs]
    refine .cons ⟨?_, fun hlen hnul => ?_⟩ (ih hL.2 (fun r hr => hsize r (List.mem_cons_of_mem _ hr)) hz')
    · have h := CStr.ofBytes_len_le (cut (rewriteBuffer (i * g.pagesPerBlock) kv.1.len kv.2.len buf)
        (i * g.pagesPerBlock + 8) kv.1.len)
      rw [cut_length] at h
      rw [cut_length]
      exact h
    · -- the whole key was shown, so it has no NUL
      have hkey : (CStr.ofBytes (cut (rewriteBuffer (i * g.pagesPerBlock) kv.1.len kv.2.len buf)
          (i * g.pagesPerBlock + 8) kv.1.len)).bytes =
          cut (rewriteBuffer (i * g.pagesPerBlock) kv.1.len kv.2.len buf) (i * g.pagesPerBlock + 8)
            kv.1.len := by
        refine (List.takeWhile_prefix _).eq_of_length ?_
        rw [cut_length]
        rwa [cut_length] at hlen
      have h1 := (CStr.ofBytes (cut (rewriteBuffer (i * g.pagesPerBlock) kv.1.len kv.2.len buf)
        (i * g.pagesPerBlock + 8) kv.1.len)).noNul
      rw [hkey] at h1
      have hc1 := cut_eq_of_ne_zero hz' h1
      rw [shown, hval] at hnul
      have hc2 := cut_eq_of_ne_zero hz' hnul
      refine ⟨Prod.ext (hkey.trans hc1) (hval.trans hc2), ?_, ?_⟩
      · rw [← hc1]
        exact h1
      · rw [← hc2]
        exact hnul

theorem sum_le_of_dulled {l l' : List (List Byte × List Byte)} (h : List.Forall₂ Dulled l l') :
    (l.map fun kv => kv.1.length).sum ≤ (l'.map fun kv => kv.1.length).sum := by
  induction h with
  | nil => exact Nat.le_refl _
  | cons hd _ ih =>
    rw [List.map_cons, List.map_cons, List.sum_cons, List.sum_cons]
    exact Nat.add_le_add hd.1 ih

/-- Keys of the same total length are all shown whole. -/
theorem eq_of_dulled {l l' : List (List Byte × List Byte)} (h : List.Forall₂ Dulled l l')
    (hsum : (l'.map fun kv => kv.1.length).sum ≤ (l.map fun kv => kv.1.length).sum)
    (hval : ∀ sh ∈ l, ∀ c ∈ sh.2, c ≠ 0) : l = l' ∧ ∀ raw ∈ l', NulFree raw := by
  induction h with
  | nil => exact ⟨rfl, fun raw hraw => absurd hraw List.not_mem_nil⟩
  | @cons sh raw l l' hd hrest ih =>
    rw [List.map_cons, List.map_cons, List.sum_cons, List.sum_cons] at hsum
    have hle := sum_le_of_dulled hrest
    have hd1 := hd.1
    obtain ⟨rfl, hfree⟩ := hd.2 (by omega) (hval sh List.mem_cons_self)
    obtain ⟨rfl, hfrees⟩ := ih (by omega) fun sh hsh => hval sh (List.mem_cons_of_mem _ hsh)
    refine ⟨rfl, fun raw hraw => ?_⟩
    rw [List.mem_cons] at hraw
    obtain rfl | hraw := hraw
    · exact hfree
    · exact hfrees raw hraw

theorem rawPairs_keyLen (stride : ℕ) (buf : ℕ → Byte) (i : ℕ) (recs : List (CStr × CStr)) :
    (rawPairs stride buf i recs).map (fun kv => kv.1.length) =
    (recs.map bytesOf).map fun kv => kv.1.length := by
  induction recs generalizing i with
  | nil => rfl
  | cons kv recs ih =>
    rw [rawPairs, List.map_cons, List.map_cons, List.map_cons, ih, cut_length]
    rfl

/-- The write loop stores the pairs that were there exactly when the records are short enough and those
that lose a byte turn into one another. -/
theorem shown_perm_iff (hstride : 8 ≤ g.pagesPerBlock) (hL : Laid g.pagesPerBlock buf i recs)
    (hsize : ∀ kv ∈ recs, kv.1.len < 128 ∧ 8 + kv.1.len + kv.2.len ≤ g.pageSize) :
    ((writtenBack g i (recs.map recordLens) buf).map shown).Perm (recs.map bytesOf) ↔
      (∀ kv ∈ recs.dropLast, 8 + kv.1.len + kv.2.len ≤ g.pagesPerBlock + 1) ∧
        (smeared g.pagesPerBlock recs).Perm (recs.map bytesOf) := by
  have hnul : ∀ kv ∈ recs.map bytesOf, NulFree kv := by
    intro kv hkv
    obtain ⟨r, -, rfl⟩ := List.mem_map.mp hkv
    exact nulFree_bytesOf r
  constructor
  · intro hperm
    have hd := dulled_writtenBack hstride hL (fun kv hkv => (hsize kv hkv).2)
      fun p => .inl (Eq.refl (buf p))
    have hsum := (hperm.map fun kv => kv.1.length).sum_eq
    rw [← rawPairs_keyLen g.pagesPerBlock buf i recs] at hsum
    obtain ⟨heq, hfree⟩ := eq_of_dulled hd hsum.ge fun sh hsh => (hnul sh (hperm.mem_iff.mp hsh)).2
    have hshort := short_of_nulFree hstride hL (fun kv hkv => (hsize kv hkv).1) hfree
    refine ⟨hshort, ?_⟩
    rw [← rawPairs_eq_smeared hstride hL hshort, ← heq]
    exact hperm
  · rintro ⟨hshort, hperm⟩
    have heq := rawPairs_eq_smeared hstride hL hshort
    rw [shown_writtenBack hstride hL (fun kv hkv => (hsize kv hkv).2) fun raw hraw =>
      hnul raw (hperm.mem_iff.mp (heq ▸ hraw)), heq]
    exact hperm

/-- Every record that is stored begins with its key. -/
theorem strncmpEq_writtenBack (hsize : ∀ kv ∈ recs, 8 + kv.1.len + kv.2.len ≤ g.pageSize) :
    ∀ x ∈ writtenBack g i (recs.map recordLens) buf,
      strncmpEq (x.2.drop 8) x.1 = true ∧ x.2.length = g.pageSize := by
  induction recs generalizing i buf with
  | nil => exact fun x hx => absurd hx List.not_mem_nil
  | cons kv recs ih =>
    rw [List.map_cons, recordLens, writtenBack]
    intro x hx
    rw [List.mem_cons] at hx
    obtain rfl | hx := hx
    · generalize rewriteBuffer (i * g.pagesPerBlock) kv.1.len kv.2.len buf = buf₁
      have hle := CStr.ofBytes_len_le (cut buf₁ (i * g.pagesPerBlock + 8) kv.1.len)
      have hsz := hsize kv List.mem_cons_self
      have htake := CStr.take_ofBytes (cut buf₁ (i * g.pagesPerBlock + 8) kv.1.len)
      rw [cut_length] at hle
      rw [cut_take hle] at htake
      refine ⟨?_, cut_length _ _ _⟩
      rw [strncmpEq, beq_iff_eq]
      exact (cut_take_drop (by simp only; omega)).trans htake
    · exact ih (fun r hr => hsize r (List.mem_cons_of_mem _ hr)) x hx

/-! ## The store after the write loop -/

variable {env : Env} {s s' : Config} {b : ℕ} {ws : List (CStr × List Byte)}

/-- The pages that a refill writes, from page `p` on. -/
def pagesFrom : ℕ → List (CStr × List Byte) → List (ℕ × List Byte)
  | _, [] => []
  | p, w :: ws => (p, w.2) :: pagesFrom (p + 1) ws

theorem pagesFrom_pages {p : ℕ} : (pagesFrom p ws).map Prod.fst = List.range' p ws.length := by
  induction ws generalizing p with
  | nil => rfl
  | cons w ws ih =>
    rw [pagesFrom, List.map_cons, ih]
    rfl

theorem mem_pagesFrom {p j : ℕ} {w : CStr × List Byte} (hw : ws[j]? = some w) :
    (p + j, w.2) ∈ pagesFrom p ws := by
  induction ws generalizing p j with
  | nil => cases hw
  | cons v ws ih =>
    cases j with
    | zero =>
      obtain rfl := Option.some.inj hw
      exact List.mem_cons_self
    | succ j =>
      refine List.mem_cons_of_mem _ ?_
      rw [show p + (j + 1) = p + 1 + j by omega]
      exact ih hw

/-- What the write loop leaves of hash table and flash. -/
structure Entered (g : Geometry) (b : ℕ) (ws : List (CStr × List Byte)) (s s' : Config) : Prop where
  old : ∀ h, s.Valid g h → s'.Valid g h ∧ (s'.hashtable h).key = (s.hashtable h).key ∧
    (s'.hashtable h).index = (s.hashtable h).index
  new : ∀ j w, ws[j]? = some w → ∃ h, s'.Valid g h ∧ (s'.hashtable h).key = w.1 ∧
    (s'.hashtable h).index = b * g.pagesPerBlock + (s.blocks b).currentPageOffset + j
  only : ∀ h, s'.Valid g h → s.Valid g h ∨ ∃ j w, ws[j]? = some w ∧ (s'.hashtable h).key = w.1 ∧
    (s'.hashtable h).index = b * g.pagesPerBlock + (s.blocks b).currentPageOffset + j
  mtd : s'.mtd = replay (programs
    (pagesFrom (b * g.pagesPerBlock + (s.blocks b).currentPageOffset) ws)) s.mtd

theorem Refill.entered (hR : Refill g b ws s s')
    (hroom : (s.blocks b).currentPageOffset + ws.length ≤ g.pagesPerBlock) : Entered g b ws s s' := by
  induction hR with
  | nil s =>
    refine ⟨fun h hv => ⟨hv, rfl, rfl⟩, fun j w hw => ?_, fun h hv => .inl hv, rfl⟩
    cases hw
  | @cons key data ws s s' h t hadd hrest ih =>
    rw [List.length_cons] at hroom
    have hS := stored_of_hashAdd data
      (show (s.blocks b).currentPageOffset < g.pagesPerBlock by omega) hadd
    have ih := ih (by rw [hS.offset_self]; omega)
    generalize hs₁ : Config.listAdd { s.wrote g (b * g.pagesPerBlock +
      (s.blocks b).currentPageOffset) data with hashtable := t } b h = s₁ at *
    refine ⟨fun j hv => ?_, fun j w hw => ?_, fun j hv => ?_, ?_⟩
    · have hj : j ≠ h := hS.ne_of_valid hv
      obtain ⟨hv', hk, hi⟩ := ih.old j (hS.valid_iff.mpr (.inr hv))
      exact ⟨hv', hk.trans (hS.key_ne hj), hi.trans (hS.index_ne hj)⟩
    · cases j with
      | zero =>
        obtain rfl := Option.some.inj hw
        obtain ⟨hv', hk, hi⟩ := ih.old h (hS.valid_iff.mpr (.inl rfl))
        exact ⟨h, hv', hk.trans hS.key_self, hi.trans hS.index_self⟩
      | succ j =>
        obtain ⟨h', hv', hk, hi⟩ := ih.new j w hw
        refine ⟨h', hv', hk, ?_⟩
        rw [hi, hS.offset_self]
        omega
    · obtain hv | ⟨i, w, hw, hk, hi⟩ := ih.only j hv
      · obtain rfl | hv := hS.valid_iff.mp hv
        · obtain ⟨-, hk, hi⟩ := ih.old j (hS.valid_iff.mpr (.inl rfl))
          exact .inr ⟨0, _, rfl, hk.trans hS.key_self, hi.trans hS.index_self⟩
        · exact .inl hv
      · refine .inr ⟨i + 1, w, hw, hk, ?_⟩
        rw [hi, hS.offset_self]
        omega
    · rw [ih.mtd, hS.mtd, hS.offset_self, ← replay_cons]
      rfl

/-- Storing distinct keys that are not in the table keeps the table in order. -/
theorem Refill.tableOk (hR : Refill g b ws s s')
    (hroom : (s.blocks b).currentPageOffset + ws.length ≤ g.pagesPerBlock)
    (hw : TableOk g s.hashtable) (hn : (ws.map Prod.fst).Nodup)
    (habs : ∀ h, s.Valid g h → (s.hashtable h).key ∉ ws.map Prod.fst)
    (hcard : (validSlots g s.hashtable).card + ws.length + 1 ≤ g.hashSize) :
    TableOk g s'.hashtable := by
  induction hR with
  | nil s => exact hw
  | @cons key data ws s s' h t hadd hrest ih =>
    rw [List.length_cons] at hroom hcard
    rw [List.map_cons, List.nodup_cons] at hn
    have hS := stored_of_hashAdd data
      (show (s.blocks b).currentPageOffset < g.pagesPerBlock by omega) hadd
    obtain ⟨h', t', hadd', -, hw'⟩ : ∃ h' t', hashAdd g key
        (b * g.pagesPerBlock + (s.blocks b).currentPageOffset) s.hashtable = .ok (.ok h', t') ∧ _ ∧
          TableOk g t' :=
      hashAdd_ok hw (hashAdd_keyLt hadd)
        (fun j hj hv hk => habs j ⟨hj, hv⟩ (hk ▸ List.mem_cons_self)) (by omega)
    rw [hadd] at hadd'
    obtain ⟨-, rfl⟩ := Prod.mk.inj (Except.ok.inj hadd')
    refine ih (by rw [hS.offset_self]; omega) hw' hn.2 ?_ (by rw [hS.card]; omega)
    exact fun j => hS.forall_key (p := (· ∉ ws.map Prod.fst)) hn.1
      fun i hi hm => habs i hi (List.mem_cons_of_mem _ hm)

/-! ## What the store answers -/

/-- What `get_keyval` tells its caller: the value, or that there is none. -/
def answer (env : Env) (k : CStr) (s : Config) : Option (List Byte) :=
  if 0 ≤ (getKeyval env k s).1 then some (getKeyval env k s).2 else none

/-- `gc` comes to its end, and every key is answered as before. -/
def KeepsMap (env : Env) (s : Config) : Prop :=
  ∃ s', gc env s = .ok s' ∧ ∀ k, answer env k s' = answer env k s

theorem answer_of_ok (hdrv : env.NoDriverError) {k : CStr} {h : ℕ}
    (hs : hashSearch env.toGeometry s.hashtable k = .ok h) : answer env k s =
      if (s.blocks (s.blkOf env.toGeometry h)).state = .blkUsed ∧
        strncmpEq ((pageOf env s h).drop 8) k = true then some (valueOf (pageOf env s h)) else none := by
  have hv : (s.hashtable h).pState ≠ .pgFree := by
    rw [(hashSearch_sound hs).2.1]
    decide
  have hpage : readPage env s.mtd (s.hashtable h).index = some (pageOf env s h) := by
    simp [readPage, hdrv.read, pageOf]
  simp only [answer, getKeyval, hs, hpage, if_neg hv, Config.blkOf]
  by_cases hst : (s.blocks ((s.hashtable h).index / env.pagesPerBlock)).state = .blkUsed
  · by_cases hk : strncmpEq ((pageOf env s h).drop 8) k = true
    · simp [hst, hk, valueOf]
    · simp [hst, hk]
  · simp [hst]

theorem answer_of_error {k : CStr} {e : ℤ}
    (hs : hashSearch env.toGeometry s.hashtable k = .error e) : answer env k s = none := by
  simp [answer, getKeyval, hs]

theorem GcInv.answer_pair (hI : GcInv env s) (hdrv : env.NoDriverError) (hb : b < env.nbBlocks)
    (hst : (s.blocks b).state = .blkUsed) {h : ℕ} (hh : h ∈ (s.blocks b).list) :
    answer env (s.hashtable h).key s = some (valOf env s h).bytes := by
  obtain ⟨hv, hblk⟩ := (hI.memList b hb h).mp hh
  have hholds := hI.holds hv
  have hval : valueOf (pageOf env s h) = (valOf env s h).bytes := by
    rw [valueOf, hholds.keyLen_eq, hholds.valLen_eq, hholds.val_bytes]
  rw [answer_of_ok hdrv (hI.found h hv), hblk, if_pos ⟨hst, hholds.strncmpEq⟩, hval]

/-- A page of the block that was collected is not used by the valid buckets, so the table has a slot to
spare. -/
theorem GcInv.card_lt (hI : GcInv env s) (hb : b < env.nbBlocks)
    (hlen : (s.blocks b).list.length < env.pagesPerBlock) :
    (validSlots env.toGeometry s.hashtable).card < env.hashSize := by
  have himg : ((validSlots env.toGeometry s.hashtable).image fun h => (s.hashtable h).index).card =
      (validSlots env.toGeometry s.hashtable).card :=
    Finset.card_image_of_injOn fun h hh h' hh' he =>
      hI.page_inj (mem_validSlots.mp hh) (mem_validSlots.mp hh') he
  obtain ⟨o, ho, hfree⟩ : ∃ o < env.pagesPerBlock, b * env.pagesPerBlock + o ∉
      (validSlots env.toGeometry s.hashtable).image fun h => (s.hashtable h).index := by
    by_contra hall
    push Not at hall
    have hle : env.pagesPerBlock ≤ ((s.blocks b).list.map fun h => (s.hashtable h).index).length := by
      have hsub : ((Finset.range env.pagesPerBlock).image fun o => b * env.pagesPerBlock + o) ⊆
          ((s.blocks b).list.map fun h => (s.hashtable h).index).toFinset := by
        intro p hp
        obtain ⟨o, ho, rfl⟩ := Finset.mem_image.mp hp
        rw [Finset.mem_range] at ho
        obtain ⟨h, hh, he⟩ := Finset.mem_image.mp (hall o ho)
        have hblk : s.blkOf env.toGeometry h = b := by rw [Config.blkOf, he, Geometry.page_div ho]
        rw [List.mem_toFinset, ← he]
        exact List.mem_map_of_mem ((hI.memList b hb h).mpr ⟨mem_validSlots.mp hh, hblk⟩)
      have hcard := (Finset.card_le_card hsub).trans (List.toFinset_card_le _)
      rwa [Finset.card_image_of_injective _ (fun x y h => Nat.add_left_cancel h),
        Finset.card_range] at hcard
    rw [List.length_map] at hle
    omega
  have hsub : ((validSlots env.toGeometry s.hashtable).image fun h => (s.hashtable h).index) ⊆
      (Finset.range env.hashSize).erase (b * env.pagesPerBlock + o) := by
    intro p hp
    rw [Finset.mem_erase, Finset.mem_range]
    refine ⟨fun he => hfree (he ▸ hp), ?_⟩
    obtain ⟨h, hh, rfl⟩ := Finset.mem_image.mp hp
    exact hI.pageLt h (mem_validSlots.mp hh)
  have hcard := Finset.card_le_card hsub
  have hpage := Geometry.page_lt hb ho
  rw [himg, Finset.card_erase_of_mem (Finset.mem_range.mpr hpage), Finset.card_range] at hcard
  have := env.hashSize_pos
  omega

/-! ## When the map is kept -/

/-- A collection that came to its end had room for the pages in its buffer. -/
theorem gcRead_fits (hdrv : env.NoDriverError) (hb : b < env.nbBlocks) {slots : List ℕ}
    {r r' : GcRead} (hW : Walk env b slots s) (he : gcRead env b slots.length r slots s = .ok (r', s'))
    (hne : slots ≠ []) : (r.lens.length + slots.length - 1) * env.pagesPerBlock + env.pageSize ≤
      env.pageSize * env.pagesPerBlock := by
  induction slots generalizing r s with
  | nil => exact absurd rfl hne
  | cons h slots ih =>
    obtain ⟨hv, hblk⟩ := hW.here h List.mem_cons_self
    have hblk' : ¬ (s.hashtable h).index / env.pagesPerBlock ≠ b := not_not.mpr hblk
    have hmem : h ∈ (s.blocks b).list := by rw [hW.list]; exact List.mem_cons_self
    have hn := List.nodup_cons.mp hW.nodup
    rw [List.length_cons, gcRead, if_neg hblk'] at he
    have hone : r.lens.length * env.pagesPerBlock + env.pageSize ≤
        env.pageSize * env.pagesPerBlock := by
      by_contra hlong
      have hread : readPage env s.mtd (s.hashtable h).index = some (pageOf env s h) := by
        simp [readPage, hdrv.read, pageOf]
      simp only [gcReadOne, hread, if_pos (Or.inl (Nat.lt_of_not_le hlong))] at he
      cases he
    rw [gcReadOne_eq hdrv hW.table hv hb hblk hmem (hW.holds h List.mem_cons_self) hone] at he
    have hhead : slots.head? ≠ some h := fun he => hn.1 (List.mem_of_mem_head? he)
    simp only [if_neg hhead, List.erase_of_not_mem hn.1] at he
    cases slots with
    | nil => simpa using hone
    | cons j slots =>
      have := ih hW.tail he (List.cons_ne_nil j slots)
      rw [List.length_append, List.length_singleton, List.length_cons] at this
      rw [List.length_cons, List.length_cons]
      rwa [show r.lens.length + (slots.length + 1 + 1) - 1 =
        r.lens.length + 1 + (slots.length + 1) - 1 by omega]

theorem gcBlock_fits (hI : GcInv env s) (hdrv : env.NoDriverError) (hb : b < env.nbBlocks)
    (he : gcBlock env b s = .ok s') (hne : (s.blocks b).list ≠ []) :
    ((s.blocks b).list.length - 1) * env.pagesPerBlock + env.pageSize ≤
      env.pageSize * env.pagesPerBlock := by
  unfold gcBlock at he
  simp only at he
  split at he
  · cases he
  · next r s₁ hread =>
    have := gcRead_fits hdrv hb (hI.walk hb) hread hne
    rwa [List.length_nil, Nat.zero_add] at this

/-- What a collection leaves, in terms of the pairs it stored. -/
structure Recollected (env : Env) (b : ℕ) (s s' : Config) : Prop where
  state : ∀ c, c ≠ b → (s'.blocks c).state = (s.blocks c).state
  here : (s'.blocks b).state = .blkUsed
  old : ∀ h, s.Valid env.toGeometry h → h ∉ (s.blocks b).list → s'.Valid env.toGeometry h ∧
    (s'.hashtable h).key = (s.hashtable h).key ∧ s'.blkOf env.toGeometry h = s.blkOf env.toGeometry h ∧
      pageOf env s' h = pageOf env s h
  new : ∀ w ∈ collected env s b, ∃ h, s'.Valid env.toGeometry h ∧ (s'.hashtable h).key = w.1 ∧
    s'.blkOf env.toGeometry h = b ∧ pageOf env s' h = w.2
  only : ∀ h, s'.Valid env.toGeometry h →
    (s.Valid env.toGeometry h ∧ h ∉ (s.blocks b).list ∧ (s'.hashtable h).key = (s.hashtable h).key) ∨
      ∃ w ∈ collected env s b, (s'.hashtable h).key = w.1 ∧ s'.blkOf env.toGeometry h = b ∧
        pageOf env s' h = w.2
  table : ((collected env s b).map Prod.fst).Nodup →
    (∀ h, s.Valid env.toGeometry h → h ∉ (s.blocks b).list →
      (s.hashtable h).key ∉ (collected env s b).map Prod.fst) → TableOk env.toGeometry s'.hashtable

theorem GcInv.recollected (hI : GcInv env s) (hdrv : env.NoDriverError) (hb : b < env.nbBlocks)
    (hpos : 0 < (s.blocks b).nbInvalid)
    (hfit : (s.blocks b).list ≠ [] → ((s.blocks b).list.length - 1) * env.pagesPerBlock +
      env.pageSize ≤ env.pageSize * env.pagesPerBlock) :
    ∃ s', gcBlock env b s = .ok s' ∧ Recollected env b s s' := by
  obtain ⟨hused, hle⟩ := hI.used b hb (hI.invalid b hb hpos)
  obtain ⟨s₁, s', he, hR, hrefill⟩ := hI.gcBlock_refill hdrv hb hpos hfit
  have hoff₁ := hR.offset_self
  have hlen := collected_length env s b
  have hroom : (s₁.blocks b).currentPageOffset + (collected env s b).length ≤ env.pagesPerBlock := by
    omega
  have hF := hrefill.refilled hroom
  have hE := hrefill.entered hroom
  have hW := hI.walk hb
  have hmtd := hE.mtd
  rw [hoff₁] at hmtd
  have hvalid₁ : ∀ h, s₁.Valid env.toGeometry h ↔
      s.Valid env.toGeometry h ∧ h ∉ (s.blocks b).list := fun h => by
    rw [← droppedAll_valid]
    simp only [Config.Valid, hR.hashtable]
  have hkey₁ : ∀ h, (s₁.hashtable h).key = (s.hashtable h).key := fun h => by
    rw [hR.hashtable, droppedAll_key]
  have hindex₁ : ∀ h, (s₁.hashtable h).index = (s.hashtable h).index := fun h => by
    rw [hR.hashtable, droppedAll_index]
  -- pages of other blocks keep their content, the block's own pages get what was collected
  have hother : ∀ p, p / env.pagesPerBlock ≠ b →
      content env.pageSize s'.mtd p = content env.pageSize s.mtd p := by
    intro p hp
    have hnot : p ∉ (pagesFrom (b * env.pagesPerBlock + 1) (collected env s b)).map Prod.fst := by
      rw [pagesFrom_pages, List.mem_range'_1]
      rintro ⟨h1, h2⟩
      exact hp (Geometry.mem_block_iff.mp ⟨by omega, by omega⟩)
    have hnot' : ¬ (b * env.pagesPerBlock ≤ p ∧ p < b * env.pagesPerBlock + env.pagesPerBlock) :=
      fun h => hp (Geometry.mem_block_iff.mp h)
    rw [hmtd, content_programs_not_mem _ _ hnot, hR.mtd, content_program_ne, content_erase_not_mem hnot',
      droppedAll_mtd]
    rintro rfl
    exact hp (Nat.mul_div_cancel _ env.pagesPerBlock_pos)
  have hown : ∀ j w, (collected env s b)[j]? = some w →
      content env.pageSize s'.mtd (b * env.pagesPerBlock + 1 + j) = w.2 := by
    intro j w hw
    have hj : j < (collected env s b).length := (List.getElem?_eq_some_iff.mp hw).1
    have hlen' : w.2.length = env.pageSize := by
      refine (strncmpEq_writtenBack (fun kv hkv => ?_) w (List.mem_of_getElem? hw)).2
      obtain ⟨h, hh, rfl⟩ := List.mem_map.mp hkv
      exact (hW.holds h hh).size_le
    rw [hmtd]
    refine content_programs_mem _ _ ?_ (mem_pagesFrom hw) ?_ hlen'
    · rw [pagesFrom_pages]
      exact List.nodup_range'
    · rw [hR.mtd, programmed_program_ne (by omega), programmed_erase_mem ⟨by omega, by omega⟩]
  refine ⟨s', he, fun c hc => ?_, ?_, fun h hv hh => ?_, fun w hw => ?_, fun h hv => ?_, fun hn habs => ?_⟩
  · rw [hF.state, hR.block_ne hc, droppedAll_state]
  · rw [hF.state, hR.block_self]
  · obtain ⟨hv', hk, hi⟩ := hE.old h ((hvalid₁ h).mpr ⟨hv, hh⟩)
    rw [hindex₁] at hi
    rw [hkey₁] at hk
    have hblk : s.blkOf env.toGeometry h ≠ b := fun he => hh ((hI.memList b hb h).mpr ⟨hv, he⟩)
    refine ⟨hv', hk, by rw [Config.blkOf, Config.blkOf, hi], ?_⟩
    rw [pageOf, pageOf, hi]
    exact hother _ hblk
  · obtain ⟨j, hj, rfl⟩ := List.getElem_of_mem hw
    have hw' := List.getElem?_eq_getElem hj
    obtain ⟨h, hv, hk, hi⟩ := hE.new j _ hw'
    rw [hoff₁] at hi
    refine ⟨h, hv, hk, ?_, ?_⟩
    · rw [Config.blkOf, hi, Nat.add_assoc, Geometry.page_div (by omega)]
    · rw [pageOf, hi]
      exact hown j _ hw'
  · obtain hv₁ | ⟨j, w, hw, hk, hi⟩ := hE.only h hv
    · obtain ⟨hv₀, hh⟩ := (hvalid₁ h).mp hv₁
      exact .inl ⟨hv₀, hh, (hE.old h hv₁).2.1.trans (hkey₁ h)⟩
    · have hj : j < (collected env s b).length := (List.getElem?_eq_some_iff.mp hw).1
      rw [hoff₁] at hi
      refine .inr ⟨w, List.mem_of_getElem? hw, hk, ?_, ?_⟩
      · rw [Config.blkOf, hi, Nat.add_assoc, Geometry.page_div (by omega)]
      · rw [pageOf, hi]
        exact hown j w hw
  · refine hrefill.tableOk hroom ?_ hn (fun h hv => ?_) ?_
    · rw [hR.hashtable]
      exact hI.table.droppedAll
    · obtain ⟨hv₀, hh⟩ := (hvalid₁ h).mp hv
      rw [hkey₁]
      exact habs h hv₀ hh
    · have hcard := card_droppedAll (fun h hh => (hW.here h hh).1) hW.nodup
      have hlt := hI.card_lt hb (by omega)
      rw [hR.hashtable]
      omega

namespace GcInv

theorem collected_strncmpEq (hI : GcInv env s) (hb : b < env.nbBlocks) :
    ∀ w ∈ collected env s b, strncmpEq (w.2.drop 8) w.1 = true := fun w hw =>
  (strncmpEq_writtenBack (fun kv hkv => by
    obtain ⟨h, hh, rfl⟩ := List.mem_map.mp hkv
    exact ((hI.walk hb).holds h hh).size_le) w hw).1

/-- Distinct buckets of a block hold distinct keys. -/
theorem nodup_keys (hI : GcInv env s) (hb : b < env.nbBlocks) :
    ((livePairs env s b).map fun kv => kv.1.bytes).Nodup := by
  have hW := hI.walk hb
  rw [livePairs, List.map_map]
  refine List.Nodup.map_on (fun h hh h' hh' he => ?_) hW.nodup
  exact hI.key_inj (hW.here h hh).1 (hW.here h' hh').1 (CStr.eq_of_bytes he)

/-- If every key is answered as before, each pair of the block was stored. -/
theorem stored_of_answers (hI : GcInv env s) (hdrv : env.NoDriverError) (hb : b < env.nbBlocks)
    (hst : (s.blocks b).state = .blkUsed) (hR : Recollected env b s s')
    (hans : ∀ k, answer env k s' = answer env k s) :
    ∀ kv ∈ livePairs env s b, bytesOf kv ∈ (collected env s b).map shown := by
  intro kv hkv
  obtain ⟨h, hh, rfl⟩ := List.mem_map.mp hkv
  have hv := ((hI.walk hb).here h hh).1
  have ha := (hans (s.hashtable h).key).trans (hI.answer_pair hdrv hb hst hh)
  cases hs : hashSearch env.toGeometry s'.hashtable (s.hashtable h).key with
  | error e =>
    rw [answer_of_error hs] at ha
    cases ha
  | ok h' =>
    obtain ⟨hlt, hp, hk⟩ := hashSearch_sound hs
    rw [answer_of_ok hdrv hs] at ha
    split at ha
    · obtain ⟨hv', hh', hk'⟩ | ⟨w, hw, hkw, -, hpage⟩ := hR.only h' ⟨hlt, hp⟩
      · have he : h' = h := hI.key_inj hv' hv (hk'.symm.trans hk)
        exact absurd (he ▸ hh) hh'
      · rw [hpage] at ha
        refine List.mem_map.mpr ⟨w, hw, Prod.ext ?_ (Option.some.inj ha)⟩
        rw [shown, ← hkw, hk]
        rfl
    · cases ha

/-- If the pairs stored are the pairs of the block, every key is answered as before. -/
theorem answers_of_perm (hI : GcInv env s) (hdrv : env.NoDriverError) (hb : b < env.nbBlocks)
    (hst : (s.blocks b).state = .blkUsed) (hR : Recollected env b s s')
    (hperm : ((collected env s b).map shown).Perm ((livePairs env s b).map bytesOf)) (k : CStr) :
    answer env k s' = answer env k s := by
  have hW := hI.walk hb
  -- a key that was stored is the key of a bucket of the block
  have hfrom : ∀ w ∈ collected env s b, ∃ h ∈ (s.blocks b).list, w.1 = (s.hashtable h).key := by
    intro w hw
    have hm := hperm.mem_iff.mp (List.mem_map_of_mem (f := shown) hw)
    obtain ⟨kv, hkv, he⟩ := List.mem_map.mp hm
    obtain ⟨h, hh, rfl⟩ := List.mem_map.mp hkv
    exact ⟨h, hh, CStr.eq_of_bytes (congrArg Prod.fst he).symm⟩
  have htable : TableOk env.toGeometry s'.hashtable := by
    refine hR.table ?_ fun h hv hh hm => ?_
    · have hn := (hperm.map Prod.fst).nodup_iff.mpr (by
        rw [List.map_map]
        exact hI.nodup_keys hb)
      rw [List.map_map] at hn
      exact List.Nodup.of_map CStr.bytes (by rwa [List.map_map])
    · obtain ⟨w, hw, he⟩ := List.mem_map.mp hm
      obtain ⟨h', hh', hk⟩ := hfrom w hw
      have he' : h = h' := hI.key_inj hv (hW.here h' hh').1 (he.symm.trans hk)
      exact hh (he' ▸ hh')
  cases hs : hashSearch env.toGeometry s.hashtable k with
  | ok h =>
    obtain ⟨hlt, hp, rfl⟩ := hashSearch_sound hs
    have hv : s.Valid env.toGeometry h := ⟨hlt, hp⟩
    by_cases hh : h ∈ (s.blocks b).list
    · have hm : bytesOf (pairOf env s h) ∈ (collected env s b).map shown :=
        hperm.mem_iff.mpr (List.mem_map_of_mem (List.mem_map_of_mem hh))
      obtain ⟨w, hw, he⟩ := List.mem_map.mp hm
      have hkw : w.1 = (s.hashtable h).key := CStr.eq_of_bytes (congrArg Prod.fst he)
      obtain ⟨h', hv', hk', hblk', hpage'⟩ := hR.new w hw
      rw [hI.answer_pair hdrv hb hst hh, answer_of_ok hdrv
        ((hashSearch_ok_iff htable).mpr ⟨hv'.1, hv'.2, hk'.trans hkw⟩), hblk', hpage', if_pos]
      · exact congrArg some (congrArg Prod.snd he)
      · rw [← hkw]
        exact ⟨hR.here, hI.collected_strncmpEq hb w hw⟩
    · obtain ⟨hv', hk', hblk', hpage'⟩ := hR.old h hv hh
      have hblk : s.blkOf env.toGeometry h ≠ b := fun he => hh ((hI.memList b hb h).mpr ⟨hv, he⟩)
      rw [answer_of_ok hdrv hs, answer_of_ok hdrv
        ((hashSearch_ok_iff htable).mpr ⟨hv'.1, hv'.2, hk'⟩), hblk', hpage', hR.state _ hblk]
  | error e =>
    rw [answer_of_error hs]
    cases hs' : hashSearch env.toGeometry s'.hashtable k with
    | error e' => exact answer_of_error hs'
    | ok h' =>
      obtain ⟨hlt, hp, rfl⟩ := hashSearch_sound hs'
      have habs := hashSearch_error hI.table hs
      obtain ⟨hv, -, hk⟩ | ⟨w, hw, hkw, -⟩ := hR.only h' ⟨hlt, hp⟩
      · exact absurd hk.symm (habs h' hv.1 hv.2)
      · obtain ⟨h, hh, hk⟩ := hfrom w hw
        have hv := (hW.here h hh).1
        exact absurd (hkw.trans hk).symm (habs h hv.1 hv.2)

theorem survives_iff (hI : GcInv env s) (hb : b < env.nbBlocks)
    (hpage : 8 ≤ env.pagesPerBlock)
    (hfit : livePairs env s b ≠ [] → ((livePairs env s b).length - 1) * env.pagesPerBlock +
      env.pageSize ≤ env.pageSize * env.pagesPerBlock) :
    Survives env s b ↔
      ((collected env s b).map shown).Perm ((livePairs env s b).map bytesOf) := by
  have hW := hI.walk hb
  have hL : Laid env.pagesPerBlock (layPages env.pagesPerBlock 0
      ((s.blocks b).list.map (pageOf env s)) fun _ => 0) 0 (livePairs env s b) :=
    laid_layPages hW.holds
  have hiff := shown_perm_iff hpage hL fun kv hkv => by
    obtain ⟨h, hh, rfl⟩ := List.mem_map.mp hkv
    exact ⟨hI.keyLt h (hW.here h hh).1, (hW.holds h hh).size_le⟩
  exact ⟨fun h => hiff.mpr ⟨h.short, h.same⟩, fun h => ⟨hfit, (hiff.mp h).1, (hiff.mp h).2⟩⟩

theorem survives_of_keepsMap (hI : GcInv env s) (hdrv : env.NoDriverError)
    (ht : gcTarget env.toGeometry s = some b) (hk : KeepsMap env s) : Survives env s b := by
  obtain ⟨hb, hpos, hst, hpage⟩ := hI.target ht
  obtain ⟨s', he, hans⟩ := hk
  rw [gc, ht] at he
  have hfit := gcBlock_fits hI hdrv hb he
  obtain ⟨s'', he', hR⟩ := hI.recollected hdrv hb hpos hfit
  obtain rfl := Except.ok.inj (he.symm.trans he')
  refine (hI.survives_iff hb hpage fun hne => ?_).mpr ?_
  · rw [livePairs, List.length_map]
    exact hfit fun h => hne (by rw [livePairs, h]; rfl)
  · have hsub := hI.stored_of_answers hdrv hb hst hR hans
    have hn : ((livePairs env s b).map bytesOf).Nodup := by
      refine List.Nodup.of_map Prod.fst ?_
      rw [List.map_map]
      exact hI.nodup_keys hb
    refine (((List.subperm_of_subset hn fun x hx => ?_).perm_of_length_le ?_)).symm
    · obtain ⟨kv, hkv, rfl⟩ := List.mem_map.mp hx
      exact hsub kv hkv
    · rw [List.length_map, List.length_map, collected_length, livePairs, List.length_map]

theorem keepsMap_of_survives (hI : GcInv env s) (hdrv : env.NoDriverError)
    (ht : gcTarget env.toGeometry s = some b) (hS : Survives env s b) : KeepsMap env s := by
  obtain ⟨hb, hpos, hst, hpage⟩ := hI.target ht
  obtain ⟨s', he, hR⟩ := hI.recollected hdrv hb hpos fun hne => by
    have := hS.room fun h => hne (List.map_eq_nil_iff.mp h)
    rwa [livePairs, List.length_map] at this
  refine ⟨s', by rw [gc, ht]; exact he, hI.answers_of_perm hdrv hb hst hR ?_⟩
  exact (hI.survives_iff hb hpage hS.room).mp hS

end GcInv

/-- `gc` keeps what every key is answered exactly when the live pairs of the block that it collects, if
it collects one, survive the overlap in its buffer. -/
theorem gc_keeps_map_iff (hdrv : env.NoDriverError) (hI : GcInv env s) :
    KeepsMap env s ↔ ∀ b, gcTarget env.toGeometry s = some b → Survives env s b := by
  constructor
  · exact fun hk b ht => hI.survives_of_keepsMap hdrv ht hk
  · intro hS
    cases ht : gcTarget env.toGeometry s with
    | none => exact ⟨s, by rw [gc, ht], fun _ => rfl⟩
    | some b => exact hI.keepsMap_of_survives hdrv ht (hS b ht)

/-- Two blocks of 64 pages with 128 bytes each. -/
def wideGeometry : Geometry := .ofSizes 2 64 128 (by decide)

/-- Two pairs of 11 bytes. -/
def shortPairs : List (CStr × CStr) :=
  [(.ofBytes [97], .ofBytes [120, 121]), (.ofBytes [98], .ofBytes [118, 119])]

/-- Both are read into one buffer, 64 bytes apart, and survive. -/
theorem gc_keeps_map_two : KeepsMap (Env.ideal wideGeometry) (stocked wideGeometry shortPairs) := by
  have hn : (shortPairs.map fun r => homeSlot (Env.ideal wideGeometry).toGeometry r.1).Nodup := by decide
  have hI : GcInv (Env.ideal wideGeometry) (stocked wideGeometry shortPairs) :=
    stocked_gcInv hn (by decide) (by decide)
  refine (gc_keeps_map_iff (Env.ideal_noDriverError wideGeometry) hI).mpr fun b ht => ?_
  obtain rfl : 0 = b := Option.some.inj ht
  have hpairs : livePairs (Env.ideal wideGeometry) (stocked wideGeometry shortPairs) 0 = shortPairs :=
    stocked_pairs hn (by decide)
  refine ⟨fun _ => ?_, fun kv hkv => ?_, ?_⟩
  · rw [hpairs]
    decide
  · rw [hpairs] at hkv
    revert kv
    decide
  · rw [hpairs]
    decide +kernel

/-- A pair of 79 bytes, and one that is read after it. -/
def longPairs : List (CStr × CStr) :=
  [(.ofBytes [97], .ofBytes (List.replicate 70 120)), (.ofBytes [98], .ofBytes [118])]

/-- The record of 79 bytes is overwritten from byte 64 on. -/
theorem gc_overwrites_record : GcInv (Env.ideal wideGeometry) (stocked wideGeometry longPairs) ∧
    ¬ KeepsMap (Env.ideal wideGeometry) (stocked wideGeometry longPairs) := by
  have hn : (longPairs.map fun r => homeSlot (Env.ideal wideGeometry).toGeometry r.1).Nodup := by
    decide
  have hI : GcInv (Env.ideal wideGeometry) (stocked wideGeometry longPairs) :=
    stocked_gcInv hn (by decide) (by decide)
  refine ⟨hI, fun hk => ?_⟩
  have hS := hI.survives_of_keepsMap (Env.ideal_noDriverError wideGeometry) rfl hk
  have hpairs : livePairs (Env.ideal wideGeometry) (stocked wideGeometry longPairs) 0 = longPairs :=
    stocked_pairs hn (by decide)
  have hshort := hS.short
  rw [hpairs] at hshort
  exact absurd (hshort _ List.mem_cons_self) (by decide)

end LkpProjects.Serial
