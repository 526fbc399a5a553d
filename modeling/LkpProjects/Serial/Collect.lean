import LkpProjects.Serial.Moves
import LkpProjects.Serial.StoreSteps

/-! # The serial store: garbage collection on the map

`gc` copies the pages of its block into a buffer at a stride of `pages_per_block` bytes, not of a page.
A record survives there if it ends before the next page is copied over it, so `gc` keeps the map when
every record but the one read last is at most `pages_per_block` bytes long (`CollectOk`). Under that
condition the walk takes the block's keys out of the map and leaves their records in the buffer, and
the write loop puts them back (`Inv.gc`).
-/
namespace LkpProjects.Serial
open Nand Bytes
set_option autoImplicit false

/-! ## Records in the buffer -/

/-- What a page holds in front: both lengths, the key, the value. -/
def recordBytes (key val : CStr) : List Byte :=
  le32 key.len ++ (le32 val.len ++ (key.bytes ++ val.bytes))

theorem recordBytes_length (key val : CStr) :
    (recordBytes key val).length = 8 + key.len + val.len := by
  simp only [recordBytes, List.length_append, le32_length, CStr.len]
  omega

/-- The record of a pair lies in the buffer at `pos`. -/
def RecordAt (buf : ℕ → Byte) (pos : ℕ) (key val : CStr) : Prop :=
  ∀ i < 8 + key.len + val.len, buf (pos + i) = mem (recordBytes key val) i

theorem blit_in {buf : ℕ → Byte} {pos i : ℕ} {src : List Byte} (hi : i < src.length) :
    blit buf pos src (pos + i) = mem src i := by
  rw [blit, if_pos ⟨by omega, by omega⟩, Nat.add_sub_cancel_left]

theorem blit_before {buf : ℕ → Byte} {pos p : ℕ} {src : List Byte} (hp : p < pos) :
    blit buf pos src p = buf p := if_neg (by omega)

/-- Copying bytes over themselves. -/
theorem blit_self {buf : ℕ → Byte} {pos : ℕ} {src : List Byte}
    (h : ∀ i < src.length, buf (pos + i) = mem src i) : blit buf pos src = buf := by
  funext p
  by_cases hp : pos ≤ p ∧ p < pos + src.length
  · obtain ⟨i, rfl⟩ := Nat.exists_eq_add_of_le hp.1
    rw [blit_in (by omega), h i (by omega)]
  · exact if_neg hp

/-- `strncpy` onto itself of bytes that hold no NUL. -/
theorem strncpySelf_eq {buf : ℕ → Byte} {pos n : ℕ} (h : ∀ c ∈ cut buf pos n, c ≠ 0) :
    strncpySelf buf pos n = buf := by
  funext p
  refine if_neg ?_
  rintro ⟨h1, h2, h3⟩
  rw [List.contains_iff_mem, cut, List.mem_map] at h3
  obtain ⟨i, hi, h0⟩ := h3
  rw [List.mem_range] at hi
  exact h 0 (List.mem_map.mpr ⟨i, List.mem_range.mpr (by omega), h0⟩) rfl

theorem cut_eq_of_mem {buf : ℕ → Byte} {pos : ℕ} {l : List Byte}
    (h : ∀ i < l.length, buf (pos + i) = mem l i) : cut buf pos l.length = l := by
  refine List.ext_getElem (by simp [cut]) fun i h1 h2 => ?_
  simp only [cut, List.getElem_map, List.getElem_range]
  rw [h i h2, mem, List.getD_eq_getElem _ _ h2]

theorem cut_add (buf : ℕ → Byte) (pos n k : ℕ) :
    cut buf pos (n + k) = cut buf pos n ++ cut buf (pos + n) k := by
  rw [cut, List.range_add, List.map_append, List.map_map]
  congr 1
  exact List.map_congr_left fun i _ => by rw [Function.comp_apply, Nat.add_assoc]

namespace RecordAt
variable {g : Geometry} {buf buf' : ℕ → Byte} {pos : ℕ} {key val : CStr}

theorem congr (h : RecordAt buf pos key val)
    (hc : ∀ p < pos + (8 + key.len + val.len), buf' p = buf p) : RecordAt buf' pos key val :=
  fun i hi => by rw [hc _ (by omega), h i hi]

/-- A page that holds the pair puts its record into the buffer. -/
theorem of_blit {page : List Byte} (hh : Holds g page key val) :
    RecordAt (blit buf pos page) pos key val := by
  intro i hi
  have hsize := hh.size_le
  have hlen := hh.length
  obtain ⟨rest, hr⟩ := hh.bytes
  rw [blit_in (by omega), hr]
  have happ : le32 key.len ++ (le32 val.len ++ (key.bytes ++ (val.bytes ++ rest))) =
      recordBytes key val ++ rest := by simp only [recordBytes, List.append_assoc]
  rw [happ, mem_append_left (by rwa [recordBytes_length])]

theorem cut_eq (h : RecordAt buf pos key val) :
    cut buf pos (8 + key.len + val.len) = recordBytes key val := by
  have hc := cut_eq_of_mem (l := recordBytes key val) (by rwa [recordBytes_length])
  rwa [recordBytes_length] at hc

/-- The key behind the lengths, the value behind the key. -/
theorem bytes (h : RecordAt buf pos key val) :
    cut buf (pos + 8) key.len = key.bytes ∧ cut buf (pos + 8 + key.len) val.len = val.bytes := by
  have hc := h.cut_eq
  have h8 : (cut buf pos 8).length = (le32 key.len ++ le32 val.len).length := by simp [cut]
  have hk : (cut buf (pos + 8) key.len).length = key.bytes.length := by simp [cut, CStr.len]
  rw [Nat.add_assoc, cut_add, cut_add, recordBytes, ← List.append_assoc (le32 key.len)] at hc
  exact List.append_inj (List.append_inj hc h8).2 hk

theorem keyLen_eq (h : RecordAt buf pos key val) (hlt : key.len < 2 ^ 32) :
    readLe buf pos = key.len :=
  readLe_of_lt hlt fun i hi => by
    rw [h i (by omega), recordBytes, mem_append_left (by simpa using hi), mem_le32 _ hi]

theorem valLen_eq (h : RecordAt buf pos key val) (hlt : val.len < 2 ^ 32) :
    readLe buf (pos + 4) = val.len :=
  readLe_of_lt hlt fun i hi => by
    rw [Nat.add_assoc, h _ (by omega), recordBytes, mem_append_right (by simp), le32_length,
      Nat.add_sub_cancel_left, mem_append_left (by simpa using hi), mem_le32 _ hi]

/-- A page cut out of the buffer where the record lies. -/
theorem holds (h : RecordAt buf pos key val) (hle : 8 + key.len + val.len ≤ g.pageSize) :
    Holds g (cut buf pos g.pageSize) key val where
  length := by simp [cut]
  bytes := by
    obtain ⟨d, hd⟩ := Nat.exists_eq_add_of_le hle
    refine ⟨cut buf (pos + (8 + key.len + val.len)) d, ?_⟩
    rw [hd, cut_add, h.cut_eq]
    simp only [recordBytes, List.append_assoc]

/-- What the write loop does to the buffer changes nothing. -/
theorem rewritten (h : RecordAt buf pos key val) :
    strncpySelf (strncpySelf (blit (blit buf pos (le32 key.len)) (pos + 4) (le32 val.len)) (pos + 8)
      key.len) (pos + 8 + key.len) val.len = buf := by
  have h1 : blit buf pos (le32 key.len) = buf := blit_self fun i hi => by
    rw [le32_length] at hi
    rw [h i (by omega), recordBytes, mem_append_left (by simpa using hi)]
  have h2 : blit buf (pos + 4) (le32 val.len) = buf := blit_self fun i hi => by
    rw [le32_length] at hi
    rw [Nat.add_assoc, h _ (by omega), recordBytes, mem_append_right (by simp), le32_length,
      Nat.add_sub_cancel_left, mem_append_left (by simpa using hi)]
  obtain ⟨hk, hv⟩ := h.bytes
  have h3 : strncpySelf buf (pos + 8) key.len = buf := strncpySelf_eq (hk ▸ key.noNul)
  rw [h1, h2, h3]
  exact strncpySelf_eq (hv ▸ val.noNul)

end RecordAt

/-- The records of a list of pairs lie in the buffer, number `i` at `i * pages_per_block`. -/
def RecordsAt (g : Geometry) (buf : ℕ → Byte) : ℕ → List (CStr × CStr) → Prop
  | _, [] => True
  | i, (key, val) :: recs => RecordAt buf (i * g.pagesPerBlock) key val ∧ RecordsAt g buf (i + 1) recs

/-- The lengths that `gc` notes of a pair. -/
def recordLens (kv : CStr × CStr) : ℕ × ℕ := (kv.1.len, kv.2.len)

/-- The map without the keys of some pairs. -/
def without (m : CStr → Option CStr) (recs : List (CStr × CStr)) (k : CStr) : Option CStr :=
  if k ∈ recs.map Prod.fst then none else m k

variable {env : Env} {s s' : Config} {m : CStr → Option CStr}

theorem without_nil : without m [] = m := by
  funext k
  exact if_neg (by simp)

theorem without_cons (key val : CStr) (recs : List (CStr × CStr)) :
    without m ((key, val) :: recs) = without (Function.update m key none) recs := by
  funext k
  by_cases hk : k = key
  · subst hk
    simp [without]
  · exact if_congr (by simp [hk]) rfl (Function.update_of_ne hk _ _).symm

/-- Putting a pair back. -/
theorem update_without {key val : CStr} {recs : List (CStr × CStr)} (hm : m key = some val)
    (hn : key ∉ recs.map Prod.fst) :
    Function.update (without m ((key, val) :: recs)) key (some val) = without m recs := by
  funext k
  by_cases hk : k = key
  · subst hk
    rw [Function.update_self, without, if_neg hn, hm]
  · rw [Function.update_of_ne hk]
    exact if_congr (by simp [hk]) rfl rfl

/-! ## The walk -/

/-- One round of the walk, on a bucket that is on its block's list and whose page holds its key. -/
theorem gcReadOne_eq (hdrv : env.NoDriverError) (htable : TableOk env.toGeometry s.hashtable)
    {r : GcRead} {h b : ℕ} {val : CStr} (hv : s.Valid env.toGeometry h) (hb : b < env.nbBlocks)
    (hblk : s.blkOf env.toGeometry h = b) (hl : h ∈ (s.blocks b).list)
    (hh : Holds env.toGeometry (content env.pageSize s.mtd (s.hashtable h).index) (s.hashtable h).key
      val)
    (hfit : r.lens.length * env.pagesPerBlock + env.pageSize ≤ env.pageSize * env.pagesPerBlock) :
    gcReadOne env r h s = .ok (h,
      ⟨blit r.buffer (r.lens.length * env.pagesPerBlock)
          (content env.pageSize s.mtd (s.hashtable h).index),
        r.lens ++ [recordLens ((s.hashtable h).key, val)]⟩, s.dropped env.toGeometry h) := by
  have hsize := hh.size_le
  have hlt := env.pageSize_lt
  have hread : readPage env s.mtd (s.hashtable h).index =
      some (content env.pageSize s.mtd (s.hashtable h).index) := by simp [readPage, hdrv.read]
  have hrec : RecordAt (blit r.buffer (r.lens.length * env.pagesPerBlock)
      (content env.pageSize s.mtd (s.hashtable h).index)) (r.lens.length * env.pagesPerBlock)
      (s.hashtable h).key val := .of_blit hh
  have hsearch : hashSearch env.toGeometry s.hashtable (s.hashtable h).key = .ok h :=
    (hashSearch_ok_iff htable).mpr ⟨hv.1, hv.2, rfl⟩
  have hbound : ¬ (env.pageSize * env.pagesPerBlock <
      r.lens.length * env.pagesPerBlock + env.pageSize ∨
        env.pageSize < 8 + (s.hashtable h).key.len) := by omega
  simp only [gcReadOne, hread, hrec.keyLen_eq (by omega), hrec.valLen_eq (by omega),
    if_neg hbound, hrec.bytes.1, CStr.ofBytes_bytes, hsearch, invalidPg_of_mem hb hblk hl]
  rfl

namespace Inv

/-- The whole walk: the block's list ends empty, its records lie in the buffer, their keys are out of
the map. A record is safe from the pages read after it when it fits the stride. -/
theorem gcRead (hdrv : env.NoDriverError) {target : ℕ} (htgt : target < env.nbBlocks) :
    ∀ (slots : List ℕ) (r : GcRead) (s : Config) (m : CStr → Option CStr), Inv env s m →
      (s.blocks target).list = slots →
      (∀ h ∈ slots.dropLast, ∀ val, m (s.hashtable h).key = some val →
        8 + (s.hashtable h).key.len + val.len ≤ env.pagesPerBlock) →
      (slots ≠ [] → (r.lens.length + slots.length - 1) * env.pagesPerBlock + env.pageSize ≤
        env.pageSize * env.pagesPerBlock) →
      ∃ r' s' recs, Serial.gcRead env target slots.length r slots s = .ok (r', s') ∧
        recs.length = slots.length ∧ r'.lens = r.lens ++ recs.map recordLens ∧
        (∀ p < r.lens.length * env.pagesPerBlock, r'.buffer p = r.buffer p) ∧
        RecordsAt env.toGeometry r'.buffer r.lens.length recs ∧ (recs.map Prod.fst).Nodup ∧
        (∀ kv ∈ recs, m kv.1 = some kv.2 ∧ kv.1.len < 128 ∧
          8 + kv.1.len + kv.2.len ≤ env.pageSize) ∧
        Inv env s' (without m recs) ∧ (s'.blocks target).list = []
  | [], r, s, m, hI, hl, _, _ =>
      ⟨r, s, [], rfl, rfl, by simp, fun _ _ => rfl, trivial, by simp, by simp,
        by rwa [without_nil], hl⟩
  | h :: slots, r, s, m, hI, hl, hshort, hfit => by
      have hmem : h ∈ (s.blocks target).list := by simp [hl]
      obtain ⟨hv, hblk⟩ := (hI.memList target htgt h).mp hmem
      obtain ⟨val, hm, hh⟩ := hI.stored h hv
      have hfit' := hfit (by simp)
      rw [List.length_cons] at hfit'
      have hpos : r.lens.length * env.pagesPerBlock ≤
          (r.lens.length + (slots.length + 1) - 1) * env.pagesPerBlock :=
        Nat.mul_le_mul_right _ (by omega)
      have hone := gcReadOne_eq hdrv hI.table (r := r) hv htgt hblk hmem hh (by omega)
      have hnd := hI.nodup target htgt
      rw [hl, List.nodup_cons] at hnd
      have hhead : slots.head? ≠ some h := fun he => hnd.1 (List.mem_of_mem_head? he)
      generalize hr₁ : GcRead.mk (blit r.buffer (r.lens.length * env.pagesPerBlock)
        (content env.pageSize s.mtd (s.hashtable h).index))
        (r.lens ++ [recordLens ((s.hashtable h).key, val)]) = r₁ at hone
      have hlen₁ : r₁.lens.length = r.lens.length + 1 := by rw [← hr₁]; simp
      have hl₁ : ((s.dropped env.toGeometry h).blocks target).list = slots := by
        rw [dropped_list, hl, List.erase_cons_head]
      obtain ⟨r', s', recs, he, hlen, hlens, hkeep, hat, hnd', hrecs, hI', hnil⟩ :=
        gcRead hdrv htgt slots r₁ _ _ (hI.drop hv) hl₁
          (fun j hj w hw => by
            have hjs : j ∈ slots := List.mem_of_mem_dropLast hj
            rw [dropped_key] at hw ⊢
            by_cases hk : (s.hashtable j).key = (s.hashtable h).key
            · rw [hk, Function.update_self] at hw
              cases hw
            · rw [Function.update_of_ne hk] at hw
              refine hshort j ?_ w hw
              rw [List.dropLast_cons_of_ne_nil (List.ne_nil_of_mem hjs)]
              exact List.mem_cons_of_mem _ hj)
          (fun _ => by
            rw [hlen₁, show r.lens.length + 1 + slots.length - 1 =
              r.lens.length + (slots.length + 1) - 1 by omega]
            exact hfit')
      have hkey : (s.hashtable h).key ∉ recs.map Prod.fst := by
        intro hk
        obtain ⟨kv, hkv, hke⟩ := List.mem_map.mp hk
        have := (hrecs kv hkv).1
        rw [hke, Function.update_self] at this
        cases this
      refine ⟨r', s', ((s.hashtable h).key, val) :: recs, ?_, by simp [hlen], ?_, ?_, ⟨?_, ?_⟩, ?_,
        ?_, ?_, hnil⟩
      · have hblk' : ¬ (s.hashtable h).index / env.pagesPerBlock ≠ target := not_not.mpr hblk
        simp only [List.length_cons, Serial.gcRead, if_neg hblk', hone, if_neg hhead,
          List.erase_of_not_mem hnd.1, he]
      · rw [hlens, ← hr₁]
        simp
      · intro p hp
        rw [hkeep p (by rw [hlen₁, Nat.succ_mul]; omega), ← hr₁]
        exact blit_before hp
      · -- the pages read later lie behind the record, if there are any
        have hrec : RecordAt r₁.buffer (r.lens.length * env.pagesPerBlock) (s.hashtable h).key val := by
          rw [← hr₁]
          exact .of_blit hh
        cases slots with
        | nil =>
          obtain ⟨rfl, -⟩ := Prod.mk.inj (Except.ok.inj he)
          exact hrec
        | cons j slots =>
          have hle := hshort h (by simp) val hm
          refine hrec.congr fun p hp => hkeep p ?_
          rw [hlen₁, Nat.succ_mul]
          omega
      · rwa [hlen₁] at hat
      · exact List.nodup_cons.mpr ⟨hkey, hnd'⟩
      · intro kv hkv
        rcases List.mem_cons.mp hkv with rfl | hkv
        · exact ⟨hm, hI.keyLt h hv, hh.size_le⟩
        · have hne : kv.1 ≠ (s.hashtable h).key := fun he =>
            hkey (List.mem_map.mpr ⟨kv, hkv, he⟩)
          have hkv' := hrecs kv hkv
          rwa [Function.update_of_ne hne] at hkv'
      · rw [without_cons]
        exact hI'

/-! ## The write loop -/

/-- The write loop puts the pairs back, one page behind the other, if the block has pages left. -/
theorem gcWrite (hdrv : env.NoDriverError) {target : ℕ} (htgt : target < env.nbBlocks) :
    ∀ (recs : List (CStr × CStr)) (i : ℕ) (buffer : ℕ → Byte) (s : Config),
      Inv env s (without m recs) → (s.blocks target).state = .blkUsed → s.readOnly = false →
      (s.blocks target).currentPageOffset + recs.length < env.pagesPerBlock →
      RecordsAt env.toGeometry buffer i recs → (recs.map Prod.fst).Nodup →
      (∀ kv ∈ recs, m kv.1 = some kv.2 ∧ kv.1.len < 128 ∧
        8 + kv.1.len + kv.2.len ≤ env.pageSize) →
      (recs ≠ [] → (i + recs.length - 1) * env.pagesPerBlock + env.pageSize ≤
        env.pageSize * env.pagesPerBlock) →
      ∃ s', Serial.gcWrite env target i (recs.map recordLens) buffer s = .ok s' ∧ Inv env s' m ∧
        (s'.blocks target).state = .blkUsed
  | [], _, _, s, hI, hst, _, _, _, _, _, _ => by
      rw [without_nil] at hI
      exact ⟨s, rfl, hI, hst⟩
  | (key, val) :: recs, i, buffer, s, hI, hst, hro, hroom, hat, hnd, hrecs, hfit => by
      obtain ⟨hm, hlen, hsize⟩ := hrecs (key, val) List.mem_cons_self
      simp only at hm hlen hsize
      obtain ⟨hrec, hat⟩ := hat
      rw [List.map_cons, List.nodup_cons] at hnd
      rw [List.length_cons] at hroom
      have hfit' := hfit (by simp)
      rw [List.length_cons] at hfit'
      have hpos : i * env.pagesPerBlock ≤ (i + (recs.length + 1) - 1) * env.pagesPerBlock :=
        Nat.mul_le_mul_right _ (by omega)
      have ho : (s.blocks target).currentPageOffset < env.pagesPerBlock := by omega
      obtain ⟨h, t, hadd, ht⟩ := hI.hashAdd htgt hst ho hlen (by simp [without])
      have hS := stored_of_hashAdd (cut buffer (i * env.pagesPerBlock) env.pageSize) ho hadd
      have hI₁ := hI.stored' htgt hst ho hS ht hlen (hrec.holds hsize) (by simp [without])
      rw [update_without hm hnd.1] at hI₁
      generalize hs₁ : Config.listAdd { s.wrote env.toGeometry
        (target * env.pagesPerBlock + (s.blocks target).currentPageOffset)
        (cut buffer (i * env.pagesPerBlock) env.pageSize) with hashtable := t } target h = s₁ at *
      have hoff : (s₁.blocks target).currentPageOffset =
          (s.blocks target).currentPageOffset + 1 := by rw [hS.block_self]
      have hro₁ : s₁.readOnly = false := by
        rw [hI₁.readOnly]
        exact isReadOnly_eq_false htgt (by omega)
      obtain ⟨s', he, hI', hst'⟩ := gcWrite hdrv htgt recs (i + 1) buffer s₁ hI₁
        (hS.state.trans hst) hro₁ (by omega) hat hnd.2
        (fun kv hkv => hrecs kv (List.mem_cons_of_mem _ hkv))
        (fun _ => by
          rw [show i + 1 + recs.length - 1 = i + (recs.length + 1) - 1 by omega]
          exact hfit')
      have hone : gcWriteOne env target i key.len val.len buffer s = .ok (buffer, s₁) := by
        have hbound : ¬ env.pageSize * env.pagesPerBlock <
            i * env.pagesPerBlock + (8 + key.len + val.len) := by omega
        have hcode : ¬ writeCode env.toGeometry (s.wrote env.toGeometry
            (target * env.pagesPerBlock + (s.blocks target).currentPageOffset)
            (cut buffer (i * env.pagesPerBlock) env.pageSize)) < 0 := by
          have hwrote : isReadOnly env.toGeometry (s.wrote env.toGeometry
              (target * env.pagesPerBlock + (s.blocks target).currentPageOffset)
              (cut buffer (i * env.pagesPerBlock) env.pageSize)) = false := by
            rw [← wrote_readOnly, ← hro₁, ← hs₁]
            rfl
          rw [writeCode, hwrote]
          decide
        simp only [gcWriteOne, if_neg hbound, hrec.rewritten, hrec.bytes.1, CStr.ofBytes_bytes,
          writePage_eq hdrv hro, wrote_hashtable, hadd, if_neg hcode, hs₁]
      refine ⟨s', ?_, hI', hst'⟩
      simp only [List.map_cons, recordLens, Serial.gcWrite, hone]
      exact he

end Inv

/-! ## What a collection starts from -/

/-- The page that the bucket in slot `h` points to. -/
def pageOf (env : Env) (s : Config) (h : ℕ) : List Byte :=
  content env.pageSize s.mtd (s.hashtable h).index

/-- What holds of hash table, lists and counters between two operations. No two valid buckets share a
key or, since its page holds the key, a page. -/
structure GcInv (env : Env) (s : Config) : Prop where
  found : ∀ h, s.Valid env.toGeometry h →
    hashSearch env.toGeometry s.hashtable (s.hashtable h).key = .ok h
  keyLt : ∀ h, s.Valid env.toGeometry h → (s.hashtable h).key.len < 128
  pageLt : ∀ h, s.Valid env.toGeometry h → (s.hashtable h).index < env.hashSize
  decodes : ∀ h, s.Valid env.toGeometry h →
    ∃ val, Holds env.toGeometry (pageOf env s h) (s.hashtable h).key val
  nodup : ∀ b < env.nbBlocks, (s.blocks b).list.Nodup
  memList : ∀ b < env.nbBlocks, ∀ h, h ∈ (s.blocks b).list ↔
    s.Valid env.toGeometry h ∧ s.blkOf env.toGeometry h = b
  used : ∀ b < env.nbBlocks, (s.blocks b).state = .blkUsed →
    (s.blocks b).nbInvalid + (s.blocks b).list.length + 1 = (s.blocks b).currentPageOffset ∧
      (s.blocks b).currentPageOffset ≤ env.pagesPerBlock
  invalid : ∀ b < env.nbBlocks, 0 < (s.blocks b).nbInvalid → (s.blocks b).state = .blkUsed

/-- The invariant of the store's operations gives the one the collector needs. -/
theorem Inv.gcInv (hI : Inv env s m) : GcInv env s where
  found h hv := (hashSearch_ok_iff hI.table).mpr ⟨hv.1, hv.2, rfl⟩
  keyLt := hI.keyLt
  pageLt _ := hI.pageIndex_lt
  decodes h hv := (hI.stored h hv).imp fun _ h => h.2
  nodup := hI.nodup
  memList := hI.memList
  used b hb hst := ⟨hI.used b hb hst, hI.offsetLe b hb⟩
  invalid b hb hpos := by
    cases hst : (s.blocks b).state with
    | blkUsed => rfl
    | blkFree => have := hI.free b hb hst; omega
    | blkMeta => have := hI.metaBlk b hb hst; omega
    | blkInvalid => exact absurd hst (hI.notInvalid b hb)

/-- What `gc` collects has its header and at least 48 invalid pages. -/
theorem GcInv.target {b : ℕ} (hI : GcInv env s) (ht : gcTarget env.toGeometry s = some b) :
    b < env.nbBlocks ∧ 0 < (s.blocks b).nbInvalid ∧ (s.blocks b).state = .blkUsed ∧
      8 ≤ env.pagesPerBlock := by
  obtain ⟨hb, hn⟩ := gcTarget_some ht
  rw [invalidThreshold] at hn
  have hst := hI.invalid b hb (by omega)
  obtain ⟨hused, hle⟩ := hI.used b hb hst
  exact ⟨hb, by omega, hst, by omega⟩

/-! ## The collection -/

/-- The condition under which `gc` loses nothing of block `target`: its buffer holds the pages read
(they are fewer than `page_size`), and no record but the one read last exceeds the stride. -/
structure CollectOk (env : Env) (s : Config) (target : ℕ) : Prop where
  room : ((s.blocks target).list.length - 1) * env.pagesPerBlock + env.pageSize ≤
    env.pageSize * env.pagesPerBlock
  short : ∀ h ∈ (s.blocks target).list.dropLast,
    8 + readLe (mem (content env.pageSize s.mtd (s.hashtable h).index)) 0 +
      readLe (mem (content env.pageSize s.mtd (s.hashtable h).index)) 4 ≤ env.pagesPerBlock

namespace Inv

theorem gcBlock (hI : Inv env s m) (hdrv : env.NoDriverError) {target : ℕ}
    (htgt : target < env.nbBlocks) (hst : (s.blocks target).state = .blkUsed)
    (hinvalid : 0 < (s.blocks target).nbInvalid) (hok : CollectOk env s target) :
    ∃ s', Serial.gcBlock env target s = .ok s' ∧ Inv env s' m := by
  have hused := hI.used target htgt hst
  have hle := hI.offsetLe target htgt
  obtain ⟨r, s₁, recs, hread, hlen, hlens, -, hat, hnd, hrecs, hI₁, hnil⟩ :=
    gcRead hdrv htgt _ ⟨fun _ => 0, []⟩ s m hI rfl
      (fun h hh val hm => by
        have hmem := (hI.memList target htgt h).mp (List.mem_of_mem_dropLast hh)
        obtain ⟨w, hw, hholds⟩ := hI.stored h hmem.1
        obtain rfl : val = w := Option.some.inj (hm.symm.trans hw)
        have := hok.short h hh
        rwa [hholds.keyLen_eq, hholds.valLen_eq] at this)
      (fun _ => by
        rw [List.length_nil, Nat.zero_add]
        exact hok.room)
  have hE := (formatSingle_erased hdrv target s₁).2
  have hoff : ((formatSingle env target s₁).2.blocks target).currentPageOffset = 0 := by
    rw [hE.block_self]
    rfl
  have hR := hE.reopened (writeHdr_opened hdrv hE.readOnly hoff)
  have hI₂ := hI₁.reopened htgt hnil hR
  obtain ⟨s', hwrite, hI', hst'⟩ := gcWrite hdrv htgt recs 0 r.buffer _ hI₂ (by rw [hR.block_self])
    (hR.not_readOnly htgt) (by rw [hR.block_self]; simp only; omega) hat hnd hrecs
    (fun _ => by
      rw [Nat.zero_add, hlen]
      exact hok.room)
  refine ⟨s', ?_, hI'⟩
  rw [List.nil_append] at hlens
  simp only [Serial.gcBlock, gcVictim_eq_none, Option.getD_none, hread, hoff, Nat.add_zero, hlens,
    hwrite]
  rw [setState_eq_self hst']

/-- `gc` keeps the map. -/
theorem gc (hI : Inv env s m) (hdrv : env.NoDriverError)
    (hok : ∀ b, gcTarget env.toGeometry s = some b → CollectOk env s b) :
    ∃ s', Serial.gc env s = .ok s' ∧ Inv env s' m := by
  cases ht : gcTarget env.toGeometry s with
  | none => exact ⟨s, by rw [Serial.gc, ht], hI⟩
  | some target =>
    obtain ⟨hlt, hpos, hst, -⟩ := hI.gcInv.target ht
    obtain ⟨s', he, hI'⟩ := hI.gcBlock hdrv hlt hst hpos (hok target ht)
    exact ⟨s', by rw [Serial.gc, ht]; exact he, hI'⟩

/-- The block that `gc` collects has fewer buckets on its list than pages. -/
theorem gcTarget_fits (hI : Inv env s m) {b : ℕ} (ht : gcTarget env.toGeometry s = some b) :
    (s.blocks b).list.length < env.pagesPerBlock := by
  obtain ⟨hlt, -, hst, -⟩ := hI.gcInv.target ht
  have hle := hI.offsetLe b hlt
  have := hI.used b hlt hst
  omega

end Inv

end LkpProjects.Serial
