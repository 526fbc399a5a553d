import LkpProjects.Serial.Pages
import LkpProjects.Library.Stepwise

/-! # The serial store: the hash table over its whole life

The table alone, from the all-free and all-clean one on, under `hash_add` of keys that are not in it
and the freeing of occupied slots. `hash_add` looks at every slot of its probe path and `hash_search`
at all but the last, so a key that had to be put into the last slot of its path is there and is not
found. This is the only way the table loses a key: while no `hash_add` is left with just that slot,
both functions are complete.
-/
namespace LkpProjects.Serial
open Stepwise Bytes
set_option autoImplicit false

/-! ## What happens to the table -/

inductive TableOp where
  | add (key : CStr) (index : ℕ)
  | free (h : ℕ)

/-- What `invalid_pg` does to the slot of a key: `dirty` stays as it is. -/
def freeSlot (t : ℕ → Bucket) (h : ℕ) : ℕ → Bucket :=
  Function.update t h { t h with pState := .pgFree }

/-- No slot in use holds the key. -/
def Absent (g : Geometry) (t : ℕ → Bucket) (key : CStr) : Prop :=
  ∀ h < g.hashSize, (t h).pState = .pgValid → (t h).key ≠ key

inductive TableStep (g : Geometry) : (ℕ → Bucket) → TableOp → (ℕ → Bucket) → Prop
  | add {t t' : ℕ → Bucket} {key : CStr} {index : ℕ} {r : Except ℤ ℕ} (habs : Absent g t key)
      (he : hashAdd g key index t = .ok (r, t')) : TableStep g t (.add key index) t'
  | free {t : ℕ → Bucket} {h : ℕ} (hlt : h < g.hashSize) (hv : (t h).pState = .pgValid) :
      TableStep g t (.free h) (freeSlot t h)

/-- All slots free, all clean. -/
def AllFree (g : Geometry) (t : ℕ → Bucket) : Prop :=
  ∀ h < g.hashSize, (t h).pState = .pgFree ∧ (t h).dirty = false

/-- `hash_add` takes a slot whenever one is free, and `hash_search` returns exactly the slot in use
that holds its key. -/
structure Complete (g : Geometry) (t : ℕ → Bucket) : Prop where
  add : ∀ (key : CStr) (index : ℕ), key.len < 128 → Absent g t key →
    ((∃ h t', hashAdd g key index t = .ok (.ok h, t')) ↔
      ∃ h < g.hashSize, (t h).pState = .pgFree)
  search : ∀ (key : CStr) (h : ℕ), hashSearch g t key = .ok h ↔
    h < g.hashSize ∧ (t h).pState = .pgValid ∧ (t h).key = key

/-- The key's probe path meets a free slot before its last one, or meets none at all. -/
def InReach (g : Geometry) (t : ℕ → Bucket) : TableOp → Prop
  | .add key _ => (∃ d, d + 1 < g.hashSize ∧ (t ((home key + d) % g.hashSize)).pState = .pgFree) ∨
      ∀ h < g.hashSize, (t h).pState = .pgValid
  | .free _ => True

variable {g : Geometry} {t t' : ℕ → Bucket} {key : CStr} {index : ℕ}

/-! ## One step -/

theorem pState_cases (b : Bucket) : b.pState = .pgFree ∨ b.pState = .pgValid := by
  cases b.pState with
  | pgFree => exact Or.inl rfl
  | pgValid => exact Or.inr rfl

theorem card_validSlots_lt {h : ℕ} (hlt : h < g.hashSize) (hf : (t h).pState = .pgFree) :
    (validSlots g t).card < g.hashSize := by
  have hss : validSlots g t ⊂ Finset.range g.hashSize := by
    refine (Finset.ssubset_iff_of_subset (Finset.filter_subset _ _)).mpr
      ⟨h, Finset.mem_range.mpr hlt, fun hmem => ?_⟩
    rw [(Finset.mem_filter.mp hmem).2] at hf
    cases hf
  simpa using Finset.card_lt_card hss

/-- Whatever the table, a short key is refused only when no slot is free. -/
theorem hashAdd_ok_iff (hlen : key.len < 128) :
    (∃ h t', hashAdd g key index t = .ok (.ok h, t')) ↔
      ∃ h < g.hashSize, (t h).pState = .pgFree := by
  constructor
  · rintro ⟨h, t', he⟩
    have := hashAdd_added he
    exact ⟨h, this.lt, this.wasFree⟩
  · rintro ⟨h, hlt, hf⟩
    exact hashAdd_of_card hlen (card_validSlots_lt hlt hf)

theorem complete_iff_tableOk : Complete g t ↔ TableOk g t := by
  constructor
  · exact fun hc => tableOk_of_found fun h hlt hv => (hc.search _ h).mpr ⟨hlt, hv, rfl⟩
  · exact fun hw => ⟨fun _ _ hlen _ => hashAdd_ok_iff hlen, fun _ _ => hashSearch_ok_iff hw⟩

theorem AllFree.tableOk (h0 : AllFree g t) : TableOk g t where
  distinct i hi _ _ _ hik _ := by
    cases (Bucket.held_eq_some.mp hik).1.symm.trans (h0 i hi).1
  path i hi _ hik := by
    cases (Bucket.held_eq_some.mp hik).1.symm.trans (h0 i hi).1

theorem freeSlot_tableOk (hw : TableOk g t) (h : ℕ) : TableOk g (freeSlot t h) := by
  refine hw.mono (fun i _ k hk => ?_) fun i _ hm => ?_
  · by_cases hi : i = h
    · subst hi
      have hk := (Bucket.held_eq_some.mp hk).1
      simp [freeSlot] at hk
    · rwa [freeSlot, Function.update_of_ne hi] at hk
  · by_cases hi : i = h
    · subst hi
      simpa [freeSlot, bucketLayout] using hm
    · rwa [freeSlot, Function.update_of_ne hi]

/-- `hash_add` with the first free slot `d` probes from home. -/
theorem hashAdd_first {d : ℕ} (hlen : key.len < 128) (hd : d < g.hashSize)
    (hocc : ∀ e < d, (t ((home key + e) % g.hashSize)).pState = .pgValid)
    (hfree : (t ((home key + d) % g.hashSize)).pState = .pgFree) :
    hashAdd g key index t = .ok (.ok ((home key + d) % g.hashSize),
      ProbeTable.inserted bucketLayout g.hashSize t (Bucket.fill key index) (home key) d) := by
  have heq := ProbeTable.insertFrom_first (L := bucketLayout) (Bucket.fill key index)
    (a := home key) hd (fun e he hk => by
      rw [bucketLayout_key_eq_none, hocc e he] at hk
      cases hk) (bucketLayout_key_eq_none.mpr hfree)
  rw [hashAdd, if_neg (by omega), addLoop_eq, heq]
  rfl

/-- `hash_add` on a full table fails and leaves marks only. -/
theorem hashAdd_full {r : Except ℤ ℕ} (hw : TableOk g t)
    (hfull : ∀ h < g.hashSize, (t h).pState = .pgValid)
    (he : hashAdd g key index t = .ok (r, t')) : TableOk g t' := by
  have hlen := hashAdd_keyLt he
  rw [hashAdd, if_neg (by omega), addLoop_eq] at he
  have hr := Except.ok.inj he
  cases hi : ProbeTable.insertFrom bucketLayout g.hashSize (Bucket.fill key index) (g.hashSize - 1)
      (home key % g.hashSize) t with
  | mk o t₁ =>
    rw [hi] at hr
    obtain ⟨hr, rfl⟩ := Prod.mk.inj hr
    cases o with
    | some h =>
      have hadd : hashAdd g key index t = .ok (.ok h, t₁) := by
        rw [hashAdd, if_neg (by omega), addLoop_eq, hi]
        rfl
      obtain ⟨h', hlt, hf⟩ := (hashAdd_ok_iff hlen).mp ⟨h, t₁, hadd⟩
      rw [hfull h' hlt] at hf
      cases hf
    | none =>
      have hpassed := ProbeTable.insertFrom_passed (L := bucketLayout) bucketLayout.key_setMark
        (a := home key) (g.hashSize - 1) 0 hi
      have hnone : ∀ i : ℕ, none ≠ some i := fun i h => Option.some_ne_none i h.symm
      exact hw.mono (fun i _ k hk => hpassed.kept i (hnone i) ▸ hk) fun i _ => hpassed.grows i (hnone i)

/-- One step keeps the table complete exactly if the key does not have to go into the last slot of
its path. -/
theorem tableStep_tableOk_iff {a : TableOp} (hw : TableOk g t) (hs : TableStep g t a t') :
    TableOk g t' ↔ InReach g t a := by
  cases hs with
  | free hlt hv => exact iff_of_true (freeSlot_tableOk hw _) trivial
  | @add _ key index r habs he =>
    have hlen := hashAdd_keyLt he
    by_cases hfree : ∃ h < g.hashSize, (t h).pState = .pgFree
    · obtain ⟨h, hlt, hf⟩ := hfree
      obtain ⟨d, hdc, hocc, hd⟩ := ProbeTable.exists_first_free (L := bucketLayout) (t := t)
        (n := g.hashSize) (home key) (by rw [occupied_eq]; exact card_validSlots_lt hlt hf)
      have hcard := card_validSlots_lt hlt hf
      rw [occupied_eq] at hdc
      have hvalid : ∀ e < d, (t ((home key + e) % g.hashSize)).pState = .pgValid := fun e he =>
        (pState_cases _).resolve_left (mt bucketLayout_key_eq_none.mpr (hocc e he))
      rw [hashAdd_first hlen (by omega) hvalid (bucketLayout_key_eq_none.mp hd)] at he
      obtain ⟨-, rfl⟩ := Prod.mk.inj (Except.ok.inj he)
      by_cases hlast : d + 1 < g.hashSize
      · have hno : ∀ i < g.hashSize, bucketLayout.key (t i) ≠ some key := fun i hi hk =>
          habs i hi (Bucket.held_eq_some.mp hk).1 (Bucket.held_eq_some.mp hk).2
        have hw' : TableOk g (ProbeTable.inserted bucketLayout g.hashSize t (Bucket.fill key index)
            (home key) d) := hw.inserted (Bucket.fill key index) (fun _ => rfl) (fun _ => rfl) hno
            hlast
        exact iff_of_true hw' (Or.inl ⟨d, hlast, bucketLayout_key_eq_none.mp hd⟩)
      · -- the only free slot is the one that the search does not look at
        have hdn : d = g.hashSize - 1 := by omega
        subst hdn
        refine iff_of_false (fun hw' => ?_) ?_
        · refine ProbeTable.lookup_last_ne (L := bucketLayout) (k := key) g.hashSize_pos rfl
            ((ProbeTable.lookup_iff hw' g.hashSize_pos).mpr ⟨Nat.mod_lt _ g.hashSize_pos, ?_⟩)
          simp only [ProbeTable.inserted, if_pos trivial]
          rfl
        · rintro (⟨e, he, hfree⟩ | hfull)
          · rw [hvalid e (by omega)] at hfree
            cases hfree
          · rw [hfull h hlt] at hf
            cases hf
    · have hfull : ∀ h < g.hashSize, (t h).pState = .pgValid := fun h hlt =>
        (pState_cases _).resolve_left fun hf => hfree ⟨h, hlt, hf⟩
      exact iff_of_true (hashAdd_full hw hfull he) (Or.inr hfull)

/-! ## The whole life of the table -/

/-- The table is complete in every state of its life exactly if every key added had a free slot
before the last one of its path, or no free slot at all. -/
theorem complete_throughout_iff {ops : List TableOp} (h0 : AllFree g t) :
    Complete g t ∧ (Run (fun t a t' => TableStep g t a t' ∧ Complete g t') t ops t' ↔
      Run (fun t a t' => TableStep g t a t' ∧ InReach g t a) t ops t') := by
  refine ⟨complete_iff_tableOk.mpr h0.tableOk, ?_, ?_⟩
  · refine fun hrun => hrun.transfer (I := TableOk g) (fun t a t' hw h => ?_) h0.tableOk
    have hw' := complete_iff_tableOk.mp h.2
    exact ⟨⟨h.1, (tableStep_tableOk_iff hw h.1).mp hw'⟩, hw'⟩
  · refine fun hrun => hrun.transfer (I := TableOk g) (fun t a t' hw h => ?_) h0.tableOk
    have hw' := (tableStep_tableOk_iff hw h.1).mpr h.2
    exact ⟨⟨h.1, complete_iff_tableOk.mpr hw'⟩, hw'⟩

/-- A flash of two pages, so a table of two slots. -/
def twoPages : Geometry := .ofSizes 1 2 8 (by decide)

def emptyTable : ℕ → Bucket := fun _ => ⟨false, 0, ⟨[], by simp⟩, .pgFree⟩

/-- Two keys with the same home in a table of two slots. -/
def key1 : CStr := ⟨[1], by decide⟩
def key3 : CStr := ⟨[3], by decide⟩

def tableOne : ℕ → Bucket := Function.update emptyTable 0 ⟨false, 7, key1, .pgValid⟩

def tableTwo : ℕ → Bucket :=
  Function.update (Function.update tableOne 0 ⟨true, 7, key1, .pgValid⟩) 1 ⟨false, 9, key3, .pgValid⟩

theorem emptyTable_allFree : AllFree twoPages emptyTable := fun _ _ => ⟨rfl, rfl⟩

theorem add_key1 : TableStep twoPages emptyTable (.add key1 7) tableOne :=
  .add (r := .ok 0) (fun h _ hv => by cases hv) rfl

theorem add_key3 : TableStep twoPages tableOne (.add key3 9) tableTwo := by
  refine .add (r := .ok 1) (fun h hlt hv => ?_) rfl
  have : h = 0 ∨ h = 1 := by
    have h2 : h < 2 := hlt
    omega
  rcases this with rfl | rfl
  · decide
  · cases hv

theorem complete_throughout_two_keys : AllFree twoPages emptyTable ∧ Complete twoPages emptyTable ∧
    (Run (fun t a t' => TableStep twoPages t a t' ∧ Complete twoPages t') emptyTable
        [.add key1 7, .add key3 9] tableTwo ↔
      Run (fun t a t' => TableStep twoPages t a t' ∧ InReach twoPages t a) emptyTable
        [.add key1 7, .add key3 9] tableTwo) :=
  ⟨emptyTable_allFree, complete_throughout_iff emptyTable_allFree⟩

/-- The second key goes into the second slot of its path, and `hash_search` looks at the first. -/
theorem last_slot_not_found : ¬ ∀ (g : Geometry) (t t' : ℕ → Bucket) (ops : List TableOp),
    AllFree g t → Run (TableStep g) t ops t' → Complete g t' := by
  intro h
  have hc := h twoPages emptyTable tableTwo _ emptyTable_allFree
    (.cons add_key1 (.cons add_key3 (.nil _)))
  have hfound : hashSearch twoPages tableTwo key3 = .ok 1 :=
    (hc.search key3 1).mpr ⟨by decide, rfl, rfl⟩
  have hlost : hashSearch twoPages tableTwo key3 = .error (-1) := rfl
  rw [hlost] at hfound
  cases hfound

end LkpProjects.Serial
