import LkpProjects.Serial.Completeness
import LkpProjects.Parallel.Store

/-! # Both stores: the room for a key

`set_keyval` checks a pair against the size of a page, and `hash_add` copies the key into an array of
fixed length: 128 bytes in the serial store, 88 in the parallel one. A key that fits changes its bucket
and marks on its probe path only; a longer one is copied past the end of its array. So what
`set_keyval` accepts fits exactly on devices whose pages are no longer than a header and such a key.
-/
namespace LkpProjects.Parallel
open Nand Bytes Hoare
open Serial (Geometry home)
set_option autoImplicit false

/-- The size check that both `set_keyval` make. -/
def Accepts (g : Geometry) (key val : CStr) : Prop := 8 + key.len + val.len ≤ g.pageSize

/-- A key array of `room` bytes holds the key and its NUL. -/
def FitsIn (room : ℕ) (key : CStr) : Prop := key.len + 1 ≤ room

/-! ## The serial store -/

section Serial
open LkpProjects.Serial (addCode)

/-- What `hash_add` of the serial store may change. -/
abbrev SerialFrame (g : Geometry) (key : CStr) (index : ℕ) :
    (ℕ → Serial.Bucket) → Option ℕ → (ℕ → Serial.Bucket) → Prop :=
  ProbeTable.Passed Serial.bucketLayout g.hashSize (Serial.Bucket.fill key index)
    (fun b => (b.pState, b.key, b.index)) (home key) 0 (g.hashSize - 1)

/-- `hash_add` returns, and has changed no more than it may. -/
def SerialAdds (g : Geometry) (key : CStr) (index : ℕ) (t : ℕ → Serial.Bucket) : Prop :=
  FitsIn 128 key ∧ ∃ o t', Serial.hashAdd g key index t = .ok (addCode o, t') ∧
    SerialFrame g key index t o t'

theorem serialAdds_iff {g : Geometry} {key : CStr} {index : ℕ} {t : ℕ → Serial.Bucket} :
    SerialAdds g key index t ↔ key.len ≤ 127 := by
  constructor
  · rintro ⟨hfit, -⟩
    exact Nat.le_of_lt_succ hfit
  · intro hlen
    refine ⟨Nat.succ_le_succ hlen, ?_⟩
    cases hi : ProbeTable.insertFrom Serial.bucketLayout g.hashSize (Serial.Bucket.fill key index)
        (g.hashSize - 1) (home key % g.hashSize) t with
    | mk o t' =>
      refine ⟨o, t', ?_, ProbeTable.insertFrom_passed (fun _ => rfl) _ 0 hi⟩
      rw [Serial.hashAdd, if_neg (by omega), Serial.addLoop_eq, hi]

end Serial

/-! ## The parallel store -/

/-- The key a bucket holds. -/
def Bucket.held (b : Bucket) : Option CStr :=
  match b.pState with
  | .pgFree => none
  | .pgValid => some b.key

/-- A bucket as the slot of a probe table. -/
def bucketLayout : ProbeTable.Layout Bucket CStr where
  key := Bucket.held
  mark := Bucket.dirty
  setMark b := { b with dirty := true }
  key_setMark _ := rfl
  mark_setMark _ := rfl

/-- The bucket `hash_add` writes. -/
def Bucket.fill (key : CStr) (index : ℕ) (b : Bucket) : Bucket :=
  { b with pState := .pgValid, key := key, index := index }

theorem Bucket.held_eq_none {b : Bucket} : b.held = none ↔ b.pState = .pgFree := by
  cases h : b.pState <;> simp [Bucket.held, h]

theorem bucketLayout_key_eq_none {b : Bucket} : bucketLayout.key b = none ↔ b.pState = .pgFree :=
  Bucket.held_eq_none

section AddLoop
variable {n : ℕ} {key : CStr} {index fuel i : ℕ} {t : ℕ → Bucket}

theorem addLoop_free (h : (t i).pState = .pgFree) : addLoop n key index fuel i t =
    (some i, Function.update t i ((t i).fill key index)) := by
  rw [addLoop.eq_def]
  exact if_pos h

theorem addLoop_occupied (h : (t i).pState ≠ .pgFree) : addLoop n key index (fuel + 1) i t =
    addLoop n key index fuel ((i + 1) % n) (Function.update t i { t i with dirty := true }) := by
  rw [addLoop.eq_def]
  exact if_neg h

theorem addLoop_full (h : (t i).pState ≠ .pgFree) : addLoop n key index 0 i t =
    (none, Function.update t i { t i with dirty := true }) := by
  rw [addLoop.eq_def]
  exact if_neg h

end AddLoop

/-- `hash_add`'s loop is the insertion of the probe table. -/
theorem addLoop_eq {n : ℕ} {key : CStr} {index : ℕ} : ∀ (fuel i : ℕ) (t : ℕ → Bucket),
    addLoop n key index fuel i t =
      ProbeTable.insertFrom bucketLayout n (Bucket.fill key index) fuel i t := by
  intro fuel
  induction fuel with
  | zero =>
    intro i t
    rw [ProbeTable.insertFrom]
    by_cases h : (t i).pState = .pgFree
    · rw [addLoop_free h, if_pos (bucketLayout_key_eq_none.mpr h)]
    · rw [addLoop_full h, if_neg (mt bucketLayout_key_eq_none.mp h)]
      rfl
  | succ fuel ih =>
    intro i t
    rw [ProbeTable.insertFrom]
    by_cases h : (t i).pState = .pgFree
    · rw [addLoop_free h, if_pos (bucketLayout_key_eq_none.mpr h)]
    · rw [addLoop_occupied h, if_neg (mt bucketLayout_key_eq_none.mp h)]
      exact ih _ _

/-- What `hash_add` of the parallel store may change. -/
abbrev ParallelFrame (g : Geometry) (key : CStr) (index : ℕ) :
    (ℕ → Bucket) → Option ℕ → (ℕ → Bucket) → Prop :=
  ProbeTable.Passed bucketLayout (hashSlots g) (Bucket.fill key index)
    (fun b => (b.pState, b.key, b.index)) (home key) 0 (hashSlots g - 1)

/-- `hash_add` returns, and has changed no more than it may. -/
def ParallelAdds (g : Geometry) (key : CStr) (index : ℕ) (s : Config) : Prop :=
  FitsIn 88 key ∧ ∃ o t', hashAdd g key index s = .ok (o, { s with hashtable := t' }) ∧
    ParallelFrame g key index s.hashtable o t'

theorem parallelAdds_iff {g : Geometry} {key : CStr} {index : ℕ} {s : Config} :
    ParallelAdds g key index s ↔ key.len ≤ 87 := by
  constructor
  · rintro ⟨hfit, -⟩
    exact Nat.le_of_lt_succ hfit
  · intro hlen
    refine ⟨Nat.succ_le_succ hlen, ?_⟩
    have hroom : ¬ keyRoom ≤ key.len := by
      rw [keyRoom, not_le]
      exact Nat.lt_succ_of_le hlen
    cases hi : ProbeTable.insertFrom bucketLayout (hashSlots g) (Bucket.fill key index)
        (hashSlots g - 1) (home key % hashSlots g) s.hashtable with
    | mk o t' =>
      refine ⟨o, t', ?_, ProbeTable.insertFrom_passed (fun _ => rfl) _ 0 hi⟩
      rw [hashAdd, if_neg hroom, get_bind_ok, addLoop_eq, hi]
      rfl

/-! ## What is accepted -/

/-- A key of `n` bytes. -/
def longKey (n : ℕ) : CStr := ⟨List.replicate n 1, fun c hc => by
  rw [List.eq_of_mem_replicate hc]
  decide⟩

theorem longKey_len (n : ℕ) : (longKey n).len = n := List.length_replicate

/-- All accepted keys have at most `n` bytes exactly if a page has room for no longer one. -/
theorem accepts_le_iff {g : Geometry} {n : ℕ} :
    (∀ key val, Accepts g key val → key.len ≤ n) ↔ g.pageSize ≤ n + 8 := by
  constructor
  · intro h
    by_contra hbig
    have hlen := h (longKey (n + 1)) (longKey 0) (by
      rw [Accepts, longKey_len, longKey_len]
      omega)
    rw [longKey_len] at hlen
    omega
  · intro hsmall key val hacc
    rw [Accepts] at hacc
    omega

/-- An accepted key is entered without touching anything else exactly if it has at most 127 bytes in
the serial store and 87 in the parallel one; all accepted keys are, exactly on devices with pages of
at most 135 and 95 bytes. -/
theorem accepted_key_fits_iff (g : Geometry) :
    ((∀ key val index t, Accepts g key val → (SerialAdds g key index t ↔ key.len ≤ 127)) ∧
      ((∀ key val index t, Accepts g key val → SerialAdds g key index t) ↔ g.pageSize ≤ 135)) ∧
    ((∀ key val index s, Accepts g key val → (ParallelAdds g key index s ↔ key.len ≤ 87)) ∧
      ((∀ key val index s, Accepts g key val → ParallelAdds g key index s) ↔ g.pageSize ≤ 95)) := by
  refine ⟨⟨fun _ _ _ _ _ => serialAdds_iff, ?_⟩, fun _ _ _ _ _ => parallelAdds_iff, ?_⟩
  · rw [← accepts_le_iff (n := 127)]
    constructor
    · intro h key val hacc
      exact serialAdds_iff.mp (h key val 0 (fun _ => ⟨false, 0, key, .pgFree⟩) hacc)
    · intro h key val _ _ hacc
      exact serialAdds_iff.mpr (h key val hacc)
  · rw [← accepts_le_iff (n := 87)]
    constructor
    · intro h key val hacc
      exact parallelAdds_iff.mp (h key val 0 .start hacc)
    · intro h key val _ _ hacc
      exact parallelAdds_iff.mpr (h key val hacc)

/-- Pages of 64 bytes. -/
def shortPages : Geometry := .ofSizes 4 4 64 (by decide)

theorem accepted_key_fits_short :
    (∀ key val index t, Accepts shortPages key val → SerialAdds shortPages key index t) ∧
      (∀ key val index s, Accepts shortPages key val → ParallelAdds shortPages key index s) ∧
      (SerialAdds shortPages (longKey 40) 0 (fun _ => ⟨false, 0, longKey 0, .pgFree⟩) ↔
        (longKey 40).len ≤ 127) :=
  have hacc : Accepts shortPages (longKey 40) (longKey 1) := by
    rw [Accepts, longKey_len, longKey_len]
    decide
  ⟨(accepted_key_fits_iff shortPages).1.2.mpr (by decide),
    (accepted_key_fits_iff shortPages).2.2.mpr (by decide),
    (accepted_key_fits_iff shortPages).1.1 (longKey 40) (longKey 1) 0 _ hacc⟩

/-- Pages of 2048 bytes. -/
def flashGeometry : Geometry := .ofSizes 16 64 2048 (by decide)

theorem accepted_key_overflows : ¬ ∀ (g : Geometry) (key val : CStr) (index : ℕ),
    Accepts g key val → (∀ t, SerialAdds g key index t) ∧ ∀ s, ParallelAdds g key index s := by
  intro h
  have hacc : Accepts flashGeometry (longKey 128) (longKey 1) := by
    rw [Accepts, longKey_len, longKey_len]
    decide
  have hadd := (h flashGeometry (longKey 128) (longKey 1) 0 hacc).1
    fun _ => ⟨false, 0, longKey 0, .pgFree⟩
  have hfit : (longKey 128).len + 1 ≤ 128 := hadd.1
  rw [longKey_len] at hfit
  omega

end LkpProjects.Parallel
