import LkpProjects.Serial.Store

/-! # The serial store: when the metadata is flushed

`flush_metadata` and `set_keyval` each read the wall clock and keep it as one unsigned number,
`tv_sec * 1000000 + tv_nsec`: seconds are counted in microseconds, and nanoseconds are added to them.
So a pair of readings a millisecond apart already counts as a second, a pair that crosses a second may
give a negative difference, which is a huge one, and a pair many seconds apart may cancel out.
-/
namespace LkpProjects.Serial
set_option autoImplicit false

/-- `struct timespec`, as `getnstimeofday` fills it. -/
structure Timespec where
  tvSec : BitVec 64
  tvNsec : ℕ
  tvNsec_lt : tvNsec < 1000000000

/-- `time_flush` or `time_write`. -/
def Timespec.time (ts : Timespec) : BitVec 64 := ts.tvSec * 1000000 + BitVec.ofNat 64 ts.tvNsec

/-- `time_write - time_flush >= 1000000`. -/
def flushDue (tsFlush tsWrite : Timespec) : Bool := 1000000 ≤ (tsWrite.time - tsFlush.time).toNat

/-! ## What the test computes -/

section Difference
variable (f w : Timespec)

/-- The difference of the seconds. -/
def secDiff : ℤ := w.tvSec.toInt - f.tvSec.toInt

/-- The difference of the nanosecond parts. -/
def nsecDiff : ℤ := (w.tvNsec : ℤ) - f.tvNsec

/-- The nanoseconds from `f` to `w`. -/
def elapsedNs : ℤ := secDiff f w * 1000000000 + nsecDiff f w

theorem time_eq_ofInt (ts : Timespec) :
    ts.time = BitVec.ofInt 64 (ts.tvSec.toInt * 1000000 + ts.tvNsec) := by
  rw [BitVec.ofInt_add, BitVec.ofInt_mul, BitVec.ofInt_toInt, BitVec.ofInt_natCast]
  rfl

theorem toNat_time_sub :
    ((w.time - f.time).toNat : ℤ) = (secDiff f w * 1000000 + nsecDiff f w) % 2 ^ 64 := by
  have hsum : secDiff f w * 1000000 + nsecDiff f w + (f.tvSec.toInt * 1000000 + f.tvNsec) =
      w.tvSec.toInt * 1000000 + w.tvNsec := by
    unfold secDiff nsecDiff
    ring
  have hsub : w.time - f.time = BitVec.ofInt 64 (secDiff f w * 1000000 + nsecDiff f w) := by
    rw [time_eq_ofInt w, ← hsum, BitVec.ofInt_add, ← time_eq_ofInt f, BitVec.add_sub_cancel]
  rw [hsub, BitVec.toNat_ofInt]
  omega

theorem nsecDiff_bounds : -1000000000 < nsecDiff f w ∧ nsecDiff f w < 1000000000 := by
  have := f.tvNsec_lt
  have := w.tvNsec_lt
  unfold nsecDiff
  omega

/-- Seconds and nanoseconds cancel out, up to less than a million. -/
def Cancel : Prop :=
  ∃ m : ℤ, m * 2 ^ 64 ≤ secDiff f w * 1000000 + nsecDiff f w ∧
    secDiff f w * 1000000 + nsecDiff f w < m * 2 ^ 64 + 1000000

theorem flushDue_iff : flushDue f w = true ↔ ¬ Cancel f w := by
  have h := toNat_time_sub f w
  rw [flushDue, decide_eq_true_iff, ← not_lt, not_iff_not, Cancel]
  constructor
  · intro hlt
    exact ⟨(secDiff f w * 1000000 + nsecDiff f w) / 2 ^ 64, by omega, by omega⟩
  · rintro ⟨m, hlo, hhi⟩
    omega

variable {f w}

/-- Readings that are not further apart than the unsigned number reaches. -/
theorem cancel_iff_of_near (hlo : -2 ^ 63 ≤ secDiff f w * 1000000 + nsecDiff f w)
    (hhi : secDiff f w * 1000000 + nsecDiff f w < 2 ^ 63) :
    Cancel f w ↔ 0 ≤ secDiff f w * 1000000 + nsecDiff f w ∧
      secDiff f w * 1000000 + nsecDiff f w < 1000000 := by
  constructor
  · rintro ⟨m, hm, hm'⟩
    have : m = 0 := by omega
    subst this
    omega
  · rintro ⟨h0, h1⟩
    exact ⟨0, by omega, by omega⟩

end Difference

/-! ## When it is right -/

/-- Less than a millisecond within one second; over the turn of a second, not back by more than a
millisecond; from then on, no cancelling out. -/
def TestFits (f w : Timespec) : Prop :=
  secDiff f w = 0 ∧ nsecDiff f w < 1000000 ∨ secDiff f w = 1 ∧ -1000000 ≤ nsecDiff f w ∨
    2 ≤ secDiff f w ∧ ¬ Cancel f w

/-- The test for a flush tells whether a second has passed exactly for these readings. -/
theorem flushDue_correct_iff {f w : Timespec} (hle : 0 ≤ elapsedNs f w) :
    (flushDue f w = true ↔ 1000000 * 1000 ≤ elapsedNs f w) ↔ TestFits f w := by
  obtain ⟨hlo, hhi⟩ := nsecDiff_bounds f w
  unfold elapsedNs at hle ⊢
  rw [flushDue_iff, TestFits]
  have hsec : secDiff f w = 0 ∨ secDiff f w = 1 ∨ 2 ≤ secDiff f w := by omega
  rcases hsec with h0 | h1 | h2
  · -- within one second none has passed
    have hlate : ¬ 1000000 * 1000 ≤ secDiff f w * 1000000000 + nsecDiff f w := by omega
    have hc := cancel_iff_of_near (f := f) (w := w) (by omega) (by omega)
    rw [iff_false_right hlate, not_not, hc]
    omega
  · -- over the turn of a second it depends on the nanoseconds alone
    have hlate : 1000000 * 1000 ≤ secDiff f w * 1000000000 + nsecDiff f w ↔ 0 ≤ nsecDiff f w := by
      omega
    rw [hlate, cancel_iff_of_near (by omega) (by omega)]
    omega
  · have hlate : 1000000 * 1000 ≤ secDiff f w * 1000000000 + nsecDiff f w := by omega
    rw [iff_true_right hlate]
    constructor
    · exact fun hc => .inr (.inr ⟨h2, hc⟩)
    · rintro (⟨h0, -⟩ | ⟨h1, -⟩ | ⟨-, hc⟩)
      · omega
      · omega
      · exact hc

/-- A flush half a second after the turn of a second, and writes 100 ns and 0.4 s after it. -/
def flushAt : Timespec := ⟨0, 500000000, by decide⟩
def soonAt : Timespec := ⟨0, 500000100, by decide⟩
def laterAt : Timespec := ⟨0, 900000000, by decide⟩

theorem flushDue_correct_soon : 0 ≤ elapsedNs flushAt soonAt ∧
    ((flushDue flushAt soonAt = true ↔ 1000000 * 1000 ≤ elapsedNs flushAt soonAt) ↔
      TestFits flushAt soonAt) :=
  ⟨by decide, flushDue_correct_iff (by decide)⟩

theorem flushDue_early : ¬ ∀ f w : Timespec, 0 ≤ elapsedNs f w →
    (flushDue f w = true ↔ 1000000 * 1000 ≤ elapsedNs f w) := by
  intro h
  have hlate := (h flushAt laterAt (by decide)).mp (by decide)
  revert hlate
  decide

end LkpProjects.Serial
