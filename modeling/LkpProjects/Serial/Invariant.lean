import LkpProjects.Serial.Effects

/-! # The serial store: representation invariant

`Inv env s m` says that the configuration `s` represents the map `m`: the hash table is in order, each
valid bucket points to a written data page of a used block whose bytes are the bucket's key and the
value that `m` gives it, block lists and counters are exact, and no page at or behind a block's offset
has been programmed. Metadata blocks are only required to be out of the way: after a mount their
offsets are not those of the flash.
-/
namespace LkpProjects.Serial
open Nand Bytes
set_option autoImplicit false

/-! ## What a page holds -/

/-- `page` is a full page that starts with the record of a key and its value. -/
structure Holds (g : Geometry) (page : List Byte) (key val : CStr) : Prop where
  length : page.length = g.pageSize
  bytes : ∃ rest, page = le32 key.len ++ (le32 val.len ++ (key.bytes ++ (val.bytes ++ rest)))

namespace Holds
variable {g : Geometry} {page : List Byte} {key val : CStr}

theorem size_le (h : Holds g page key val) : 8 + key.len + val.len ≤ g.pageSize := by
  obtain ⟨rest, hr⟩ := h.bytes
  rw [← h.length, hr]
  simp only [List.length_append, le32_length, CStr.len]
  omega

theorem keyLen_eq (h : Holds g page key val) : readLe (mem page) 0 = key.len := by
  obtain ⟨rest, hr⟩ := h.bytes
  have := h.size_le
  have := g.pageSize_lt
  rw [hr]
  exact readLe_le32_append (by omega) _

theorem valLen_eq (h : Holds g page key val) : readLe (mem page) 4 = val.len := by
  obtain ⟨rest, hr⟩ := h.bytes
  have := h.size_le
  have := g.pageSize_lt
  rw [hr]
  exact readLe_append_le32_append (by omega) _ _

theorem drop_eight (h : Holds g page key val) :
    ∃ rest, page.drop 8 = key.bytes ++ (val.bytes ++ rest) := by
  obtain ⟨rest, hr⟩ := h.bytes
  refine ⟨rest, ?_⟩
  rw [hr, ← List.append_assoc, List.drop_append_of_le_length (by simp)]
  simp [le32]

theorem key_bytes (h : Holds g page key val) : (page.drop 8).take key.len = key.bytes := by
  obtain ⟨rest, hr⟩ := h.drop_eight
  rw [hr]
  exact List.take_left

theorem val_bytes (h : Holds g page key val) :
    (page.drop (8 + key.len)).take val.len = val.bytes := by
  obtain ⟨rest, hr⟩ := h.drop_eight
  rw [← List.drop_drop, hr]
  simp only [CStr.len, List.drop_left, List.take_left]

theorem strncmpEq (h : Holds g page key val) : strncmpEq (page.drop 8) key = true := by
  simp [Serial.strncmpEq, h.key_bytes]

end Holds

theorem record_holds {g : Geometry} {key val : CStr} (h : 8 + key.len + val.len ≤ g.pageSize) :
    Holds g (record g key val) key val where
  length := by
    simp only [record, List.length_append, le32_length, List.length_replicate, CStr.len] at h ⊢
    omega
  bytes := ⟨_, rfl⟩

/-! ## The invariant -/

/-- The configuration represents the map `m`. -/
structure Inv (env : Env) (s : Config) (m : CStr → Option CStr) : Prop where
  table : TableOk env.toGeometry s.hashtable
  keyLt : ∀ h, s.Valid env.toGeometry h → (s.hashtable h).key.len < 128
  blkLt : ∀ h, s.Valid env.toGeometry h → s.blkOf env.toGeometry h < env.nbBlocks
  blkUsed : ∀ h, s.Valid env.toGeometry h →
    (s.blocks (s.blkOf env.toGeometry h)).state = .blkUsed
  offsetPos : ∀ h, s.Valid env.toGeometry h → 0 < (s.hashtable h).index % env.pagesPerBlock
  offsetLt : ∀ h, s.Valid env.toGeometry h → (s.hashtable h).index % env.pagesPerBlock <
    (s.blocks (s.blkOf env.toGeometry h)).currentPageOffset
  pageInj : ∀ h h', s.Valid env.toGeometry h → s.Valid env.toGeometry h' →
    (s.hashtable h).index = (s.hashtable h').index → h = h'
  nodup : ∀ b < env.nbBlocks, (s.blocks b).list.Nodup
  memList : ∀ b < env.nbBlocks, ∀ h, h ∈ (s.blocks b).list ↔
    s.Valid env.toGeometry h ∧ s.blkOf env.toGeometry h = b
  notInvalid : ∀ b < env.nbBlocks, (s.blocks b).state ≠ .blkInvalid
  offsetLe : ∀ b < env.nbBlocks, (s.blocks b).currentPageOffset ≤ env.pagesPerBlock
  used : ∀ b < env.nbBlocks, (s.blocks b).state = .blkUsed →
    (s.blocks b).nbInvalid + (s.blocks b).list.length + 1 = (s.blocks b).currentPageOffset
  free : ∀ b < env.nbBlocks, (s.blocks b).state = .blkFree →
    (s.blocks b).currentPageOffset = 0 ∧ (s.blocks b).nbInvalid = 0
  metaBlk : ∀ b < env.nbBlocks, (s.blocks b).state = .blkMeta → (s.blocks b).nbInvalid = 0
  fresh : ∀ b < env.nbBlocks, (s.blocks b).state ≠ .blkMeta →
    ∀ o, (s.blocks b).currentPageOffset ≤ o → o < env.pagesPerBlock →
      programmed s.mtd (b * env.pagesPerBlock + o) = false
  stored : ∀ h, s.Valid env.toGeometry h → ∃ v, m (s.hashtable h).key = some v ∧
    Holds env.toGeometry (content env.pageSize s.mtd (s.hashtable h).index) (s.hashtable h).key v
  complete : ∀ k v, m k = some v → ∃ h, s.Valid env.toGeometry h ∧ (s.hashtable h).key = k
  readOnly : s.readOnly = isReadOnly env.toGeometry s

variable {env : Env} {s : Config} {m : CStr → Option CStr}

namespace Inv

/-- A block that is not in use has an empty list. -/
theorem list_eq_nil (hI : Inv env s m) {b : ℕ} (hb : b < env.nbBlocks)
    (hst : (s.blocks b).state ≠ .blkUsed) : (s.blocks b).list = [] := by
  rw [List.eq_nil_iff_forall_not_mem]
  intro h hm
  obtain ⟨hv, hblk⟩ := (hI.memList b hb h).mp hm
  have := hI.blkUsed h hv
  rw [hblk] at this
  exact hst this

theorem key_inj (hI : Inv env s m) {h h' : ℕ} (hv : s.Valid env.toGeometry h)
    (hv' : s.Valid env.toGeometry h') (he : (s.hashtable h).key = (s.hashtable h').key) : h = h' :=
  hI.table.distinct h hv.1 h' hv'.1 (s.hashtable h).key (Bucket.held_eq_some.mpr ⟨hv.2, rfl⟩)
    (Bucket.held_eq_some.mpr ⟨hv'.2, he.symm⟩)

theorem pageIndex_lt (hI : Inv env s m) {h : ℕ} (hv : s.Valid env.toGeometry h) :
    (s.hashtable h).index < env.hashSize := by
  have := Geometry.page_lt (hI.blkLt h hv) (Nat.mod_lt (s.hashtable h).index env.pagesPerBlock_pos)
  rwa [Config.blkOf, Geometry.page_eq] at this

/-- Valid buckets leave the header page of block 0 unused, and any page that is not theirs. -/
theorem card_validSlots (hI : Inv env s m) {p : ℕ} (hp : p < env.hashSize) (hp0 : 0 < p)
    (hne : ∀ h, s.Valid env.toGeometry h → (s.hashtable h).index ≠ p) :
    (validSlots env.toGeometry s.hashtable).card + 2 ≤ env.hashSize := by
  have hmem : ∀ h ∈ validSlots env.toGeometry s.hashtable, s.Valid env.toGeometry h := by
    intro h hh
    simpa [validSlots, Config.Valid] using hh
  have himg : (validSlots env.toGeometry s.hashtable).image (fun h => (s.hashtable h).index) ⊆
      ((Finset.range env.hashSize).erase 0).erase p := by
    intro q hq
    obtain ⟨h, hh, rfl⟩ := Finset.mem_image.mp hq
    have hv := hmem h hh
    have h0 : (s.hashtable h).index ≠ 0 := by
      intro h0
      have := hI.offsetPos h hv
      rw [h0, Nat.zero_mod] at this
      omega
    simp only [Finset.mem_erase, Finset.mem_range]
    exact ⟨hne h hv, h0, hI.pageIndex_lt hv⟩
  have hcard := Finset.card_le_card himg
  rw [Finset.card_image_of_injOn (fun h hh h' hh' he =>
    hI.pageInj h h' (hmem h hh) (hmem h' hh') he)] at hcard
  rw [Finset.card_erase_of_mem (by simp; omega), Finset.card_erase_of_mem (by simp; omega),
    Finset.card_range] at hcard
  omega

/-- `get_keyval` answers from the map. -/
theorem getKeyval_some (hI : Inv env s m) (hdrv : env.NoDriverError) {k v : CStr}
    (hm : m k = some v) :
    ∃ h, s.Valid env.toGeometry h ∧ (s.hashtable h).key = k ∧
      getKeyval env k s = (((s.hashtable h).index : ℤ), v.bytes) := by
  obtain ⟨h, hv, hk⟩ := hI.complete k v hm
  obtain ⟨v', hv', hh⟩ := hI.stored h hv
  rw [hk] at hv' hh
  obtain rfl : v = v' := Option.some.inj (hm.symm.trans hv')
  refine ⟨h, hv, hk, ?_⟩
  have hst := hI.blkUsed h hv
  rw [Config.blkOf] at hst
  have hpv : (s.hashtable h).pState ≠ .pgFree := by
    rw [hv.2]
    decide
  simp only [getKeyval, (hashSearch_ok_iff hI.table).mpr ⟨hv.1, hv.2, hk⟩, if_pos hst, if_neg hpv,
    readPage, hdrv.read, Bool.true_eq_false, if_false, hh.keyLen_eq, hh.valLen_eq, hh.strncmpEq,
    hh.val_bytes, if_true]

theorem getKeyval_none (hI : Inv env s m) {k : CStr} (hm : m k = none) :
    getKeyval env k s = (-1, []) := by
  cases hs : hashSearch env.toGeometry s.hashtable k with
  | error e => simp only [getKeyval, hs]
  | ok h =>
    obtain ⟨hlt, hpv, hk⟩ := hashSearch_sound hs
    obtain ⟨v, hv, -⟩ := hI.stored h ⟨hlt, hpv⟩
    rw [hk, hm] at hv
    cases hv

/-- A key that is not in the map is not found. -/
theorem search_absent (hI : Inv env s m) {k : CStr} (hm : m k = none) :
    ∃ e, hashSearch env.toGeometry s.hashtable k = .error e := by
  cases hs : hashSearch env.toGeometry s.hashtable k with
  | error e => exact ⟨e, rfl⟩
  | ok h =>
    obtain ⟨hlt, hpv, hk⟩ := hashSearch_sound hs
    obtain ⟨v, hv, -⟩ := hI.stored h ⟨hlt, hpv⟩
    rw [hk, hm] at hv
    cases hv

theorem delKey_absent (hI : Inv env s m) {k : CStr} (hm : m k = none) : delKey env k s = .ok (-2, s) := by
  obtain ⟨e, hs⟩ := hI.search_absent hm
  simp only [delKey, hs]

end Inv

end LkpProjects.Serial
