import LkpProjects.Serial.Config
import LkpProjects.Library.ProbeTable

/-! # The serial store: `hash.c`

`hash`, `hash_add` and `hash_search`, and what they do in terms of the probe table library: a bucket
is a slot that holds its key while `p_state` is `PG_VALID`, marked while `dirty` is set.
-/
namespace LkpProjects.Serial
open Bytes
set_option autoImplicit false

/-- `hash`: 32-bit arithmetic, `char` is signed. -/
def hash (str : CStr) : BitVec 32 :=
  str.bytes.foldl (fun h c => ((h <<< 5) + h) + c.signExtend 32) 5381

/-- The hash as an unsigned number, to be taken modulo `hash_size`. -/
def home (key : CStr) : ℕ := (hash key).toNat

/-! ## `hash_add` -/

/-- The body of the loop of `hash_add`, with `fuel = hash_size - 1 - count`. -/
def addLoop (g : Geometry) (key : CStr) (index : ℕ) :
    ℕ → ℕ → (ℕ → Bucket) → Except ℤ ℕ × (ℕ → Bucket)
  | fuel, i, t =>
      if (t i).pState = .pgFree then
        (.ok i, Function.update t i { t i with pState := .pgValid, key := key, index := index })
      else
        let t' := Function.update t i { t i with dirty := true }
        match fuel with
        | 0 => (.error (-1), t')
        | fuel + 1 => addLoop g key index fuel ((i + 1) % g.hashSize) t'

/-- `hash_add`: the slot taken, or `-1`. `strcpy` into `char key[128]`. -/
def hashAdd (g : Geometry) (key : CStr) (index : ℕ) (t : ℕ → Bucket) :
    Except Fault (Except ℤ ℕ × (ℕ → Bucket)) :=
  if 128 ≤ key.len then .error .overflow
  else .ok (addLoop g key index (g.hashSize - 1) (home key % g.hashSize) t)

/-! ## `hash_search` -/

/-- The loop of `hash_search`, with `fuel = hash_size - 1 - counter`. -/
def searchLoop (g : Geometry) (t : ℕ → Bucket) (key : CStr) : ℕ → ℕ → Except ℤ ℕ
  | 0, _ => .error (-1)
  | fuel + 1, i =>
      if (t i).pState = .pgValid ∧ (t i).key = key then .ok i
      else if (t i).dirty = false then .error (-2)
      else searchLoop g t key fuel ((i + 1) % g.hashSize)

/-- `hash_search`: the slot of the key, `-1` after the last probe, or `-2` at a clean slot. -/
def hashSearch (g : Geometry) (t : ℕ → Bucket) (key : CStr) : Except ℤ ℕ :=
  searchLoop g t key (g.hashSize - 1) (home key % g.hashSize)

/-! ## Buckets as slots of a probe table -/

/-- The key a bucket holds. -/
def Bucket.held (b : Bucket) : Option CStr :=
  match b.pState with
  | .pgFree => none
  | .pgValid => some b.key

/-- A bucket as the slot of a probe table. -/
def bucketLayout : ProbeTable.Layout Bucket CStr where
  key := Bucket.held
  mark := Bucket.dirty
  setMark b := { b with dirty := true }
  key_setMark _ := rfl
  mark_setMark _ := rfl

theorem Bucket.held_eq_none {b : Bucket} : b.held = none ↔ b.pState = .pgFree := by
  cases h : b.pState <;> simp [Bucket.held, h]

theorem Bucket.held_eq_some {b : Bucket} {k : CStr} :
    b.held = some k ↔ b.pState = .pgValid ∧ b.key = k := by
  cases h : b.pState <;> simp [Bucket.held, h]

variable {g : Geometry} {t : ℕ → Bucket} {key : CStr}

theorem searchLoop_ok_iff {h : ℕ} : ∀ {fuel i : ℕ}, searchLoop g t key fuel i = .ok h ↔
    ProbeTable.lookupFrom bucketLayout g.hashSize t key fuel i = some h
  | 0, _ => by simp [searchLoop, ProbeTable.lookupFrom]
  | fuel + 1, i => by
      rw [searchLoop, ProbeTable.lookupFrom]
      have hk : bucketLayout.key (t i) = some key ↔ (t i).pState = .pgValid ∧ (t i).key = key :=
        Bucket.held_eq_some
      have hm : bucketLayout.mark (t i) = (t i).dirty := rfl
      rw [hm]
      by_cases h1 : (t i).pState = .pgValid ∧ (t i).key = key
      · rw [if_pos h1, if_pos (hk.mpr h1), Except.ok.injEq, Option.some.injEq]
      · rw [if_neg h1, if_neg (fun h => h1 (hk.mp h))]
        by_cases h2 : (t i).dirty = false
        · simp [h2]
        · rw [if_neg h2, if_neg h2]
          exact searchLoop_ok_iff

/-- The table invariant of the probe library, for the store's buckets. -/
abbrev TableOk (g : Geometry) (t : ℕ → Bucket) : Prop :=
  ProbeTable.WellPlaced bucketLayout g.hashSize home t

/-- `hash_search` finds a key exactly in the valid bucket that holds it. -/
theorem hashSearch_ok_iff (hw : TableOk g t) {h : ℕ} :
    hashSearch g t key = .ok h ↔ h < g.hashSize ∧ (t h).pState = .pgValid ∧ (t h).key = key := by
  have := ProbeTable.lookup_iff (k := key) hw g.hashSize_pos (i := h)
  rw [hashSearch, searchLoop_ok_iff, this]
  exact and_congr_right fun _ => Bucket.held_eq_some

/-- A table whose valid buckets are all found by `hash_search` is in order. -/
theorem tableOk_of_found (hfound : ∀ h < g.hashSize, (t h).pState = .pgValid →
    hashSearch g t (t h).key = .ok h) : TableOk g t := by
  refine ProbeTable.wellPlaced_of_found fun h hlt k hk => ?_
  obtain ⟨hv, rfl⟩ := Bucket.held_eq_some.mp hk
  exact searchLoop_ok_iff.mp (hfound h hlt hv)

/-- Whatever the table, the slot returned is in range, valid, and holds the key. -/
theorem hashSearch_sound {h : ℕ} (hs : hashSearch g t key = .ok h) :
    h < g.hashSize ∧ (t h).pState = .pgValid ∧ (t h).key = key := by
  rw [hashSearch, searchLoop_ok_iff] at hs
  obtain ⟨hlt, hk⟩ := ProbeTable.lookupFrom_sound (Nat.mod_lt _ g.hashSize_pos) hs
  exact ⟨hlt, Bucket.held_eq_some.mp hk⟩

theorem hashSearch_error (hw : TableOk g t) {e : ℤ} (hs : hashSearch g t key = .error e) :
    ∀ h < g.hashSize, (t h).pState = .pgValid → (t h).key ≠ key := by
  intro h hlt hv hk
  rw [(hashSearch_ok_iff hw).mpr ⟨hlt, hv, hk⟩] at hs
  cases hs

/-- The bucket `hash_add` writes. -/
def Bucket.fill (key : CStr) (index : ℕ) (b : Bucket) : Bucket :=
  { b with pState := .pgValid, key := key, index := index }

theorem addLoop_free {index fuel i : ℕ} (h : (t i).pState = .pgFree) :
    addLoop g key index fuel i t = (.ok i, Function.update t i ((t i).fill key index)) := by
  rw [addLoop.eq_def]
  exact if_pos h

theorem addLoop_occupied {index fuel i : ℕ} (h : (t i).pState ≠ .pgFree) :
    addLoop g key index (fuel + 1) i t =
      addLoop g key index fuel ((i + 1) % g.hashSize)
        (Function.update t i { t i with dirty := true }) := by
  rw [addLoop.eq_def]
  exact if_neg h

theorem addLoop_full {index i : ℕ} (h : (t i).pState ≠ .pgFree) :
    addLoop g key index 0 i t = (.error (-1), Function.update t i { t i with dirty := true }) := by
  rw [addLoop.eq_def]
  exact if_neg h

theorem bucketLayout_key_eq_none {b : Bucket} : bucketLayout.key b = none ↔ b.pState = .pgFree :=
  Bucket.held_eq_none

/-- The result code of `hash_add`. -/
def addCode : Option ℕ → Except ℤ ℕ
  | some h => .ok h
  | none => .error (-1)

theorem addLoop_eq {index : ℕ} : ∀ (fuel i : ℕ) (t : ℕ → Bucket),
    addLoop g key index fuel i t =
      (addCode (ProbeTable.insertFrom bucketLayout g.hashSize (Bucket.fill key index) fuel i t).1,
        (ProbeTable.insertFrom bucketLayout g.hashSize (Bucket.fill key index) fuel i t).2) := by
  intro fuel
  induction fuel with
  | zero =>
    intro i t
    rw [ProbeTable.insertFrom]
    by_cases h : (t i).pState = .pgFree
    · rw [addLoop_free h, if_pos (bucketLayout_key_eq_none.mpr h)]
      rfl
    · rw [addLoop_full h, if_neg (mt bucketLayout_key_eq_none.mp h)]
      rfl
  | succ fuel ih =>
    intro i t
    rw [ProbeTable.insertFrom]
    by_cases h : (t i).pState = .pgFree
    · rw [addLoop_free h, if_pos (bucketLayout_key_eq_none.mpr h)]
      rfl
    · rw [addLoop_occupied h, if_neg (mt bucketLayout_key_eq_none.mp h)]
      exact ih _ _

/-- The bucket array after `hash_add` took slot `h`: the new bucket there, and every other bucket as
before but for marks set on occupied slots. -/
structure Added (g : Geometry) (key : CStr) (index h : ℕ) (t t' : ℕ → Bucket) : Prop where
  lt : h < g.hashSize
  wasFree : (t h).pState = .pgFree
  slot : t' h = { t h with pState := .pgValid, key := key, index := index }
  other : ∀ j, j ≠ h → (t' j).pState = (t j).pState ∧ (t' j).key = (t j).key ∧
    (t' j).index = (t j).index ∧ ((t j).dirty = true → (t' j).dirty = true)

/-- Whatever the table, a slot that `hash_add` returns was free and is the only one it fills. -/
theorem addLoop_added {index : ℕ} : ∀ (fuel i : ℕ) (t t' : ℕ → Bucket) (h : ℕ), i < g.hashSize →
    addLoop g key index fuel i t = (.ok h, t') → Added g key index h t t' := by
  intro fuel i t t' h hi he
  by_cases hf : (t i).pState = .pgFree
  · rw [addLoop_free hf] at he
    obtain ⟨h1, rfl⟩ := Prod.mk.inj he
    obtain rfl := Except.ok.inj h1
    exact ⟨hi, hf, by simp [Bucket.fill], fun j hj => by simp [Function.update_of_ne hj]⟩
  · cases fuel with
    | zero =>
      rw [addLoop_full hf] at he
      cases (Prod.mk.inj he).1
    | succ fuel =>
      rw [addLoop_occupied hf] at he
      have ih := addLoop_added fuel _ _ _ _ (Nat.mod_lt _ g.hashSize_pos) he
      have hne : h ≠ i := by
        rintro rfl
        have := ih.wasFree
        rw [Function.update_self] at this
        exact hf this
      have hslot := ih.slot
      have hfree := ih.wasFree
      rw [Function.update_of_ne hne] at hslot hfree
      refine ⟨ih.lt, hfree, hslot, fun j hj => ?_⟩
      have ho := ih.other j hj
      by_cases hji : j = i
      · subst hji
        rw [Function.update_self] at ho
        exact ⟨ho.1, ho.2.1, ho.2.2.1, fun _ => ho.2.2.2 rfl⟩
      · rw [Function.update_of_ne hji] at ho
        exact ho

theorem hashAdd_added {index h : ℕ} {t' : ℕ → Bucket}
    (he : hashAdd g key index t = .ok (.ok h, t')) : Added g key index h t t' := by
  unfold hashAdd at he
  split at he
  · cases he
  · exact addLoop_added _ _ _ _ _ (Nat.mod_lt _ g.hashSize_pos) (Except.ok.inj he)

theorem hashAdd_keyLt {index : ℕ} {r : Except ℤ ℕ × (ℕ → Bucket)}
    (he : hashAdd g key index t = .ok r) : key.len < 128 := by
  unfold hashAdd at he
  split at he
  · cases he
  · omega

/-- The valid buckets. -/
def validSlots (g : Geometry) (t : ℕ → Bucket) : Finset ℕ :=
  (Finset.range g.hashSize).filter fun h => (t h).pState = .pgValid

theorem occupied_eq : ProbeTable.occupied bucketLayout g.hashSize t = validSlots g t := by
  unfold ProbeTable.occupied validSlots
  apply Finset.filter_congr
  intro i _
  have : bucketLayout.key (t i) = none ↔ (t i).pState = .pgFree := Bucket.held_eq_none
  rw [ne_eq, this]
  cases (t i).pState <;> simp

/-- Whatever the table, with a free slot `hash_add` takes one. -/
theorem hashAdd_of_card {index : ℕ} (hlen : key.len < 128)
    (hcard : (validSlots g t).card < g.hashSize) :
    ∃ h t', hashAdd g key index t = .ok (.ok h, t') := by
  obtain ⟨d, heq⟩ := ProbeTable.insertFrom_isSome (L := bucketLayout) (t := t) (n := g.hashSize)
    (Bucket.fill key index) (home key) (by rw [occupied_eq]; exact hcard)
  have hadd : hashAdd g key index t = .ok (.ok ((home key + d) % g.hashSize),
      ProbeTable.inserted bucketLayout g.hashSize t (Bucket.fill key index) (home key) d) := by
    rw [hashAdd, if_neg (by omega), addLoop_eq, heq]
    rfl
  exact ⟨_, _, hadd⟩

/-- Adding a key that is not in the table, with two slots to spare, takes a free slot within reach of
`hash_search`. -/
theorem hashAdd_ok (hw : TableOk g t) {index : ℕ} (hlen : key.len < 128)
    (habs : ∀ h < g.hashSize, (t h).pState = .pgValid → (t h).key ≠ key)
    (hcard : (validSlots g t).card + 2 ≤ g.hashSize) :
    ∃ h t', hashAdd g key index t = .ok (.ok h, t') ∧ Added g key index h t t' ∧ TableOk g t' := by
  obtain ⟨d, hd, hfree, heq, hwp⟩ := ProbeTable.insert_spec hw
    (Bucket.fill key index) (k := key) (fun _ => rfl) (fun _ => rfl)
    (fun i hi hk => habs i hi (Bucket.held_eq_some.mp hk).1 (Bucket.held_eq_some.mp hk).2)
    (by rw [occupied_eq]; exact hcard)
  have hadd : hashAdd g key index t = .ok (.ok ((home key + d) % g.hashSize),
      ProbeTable.inserted bucketLayout g.hashSize t (Bucket.fill key index) (home key) d) := by
    rw [hashAdd, if_neg (by omega), addLoop_eq, heq]
    rfl
  exact ⟨_, _, hadd, hashAdd_added hadd, hwp⟩

end LkpProjects.Serial
