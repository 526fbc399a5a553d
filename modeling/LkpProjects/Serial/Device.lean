import LkpProjects.Library.Stepwise

/-! # Opening the virtual device

`device_open` reads `file_is_open` and later sets it, in two atomic steps; `device_release` clears it.
Any number of processes take these steps in any order. Two processes that both read 0 both open the
device. What keeps the opens exclusive is that nobody reads between another process's reading of 0 and
its set.
-/
namespace LkpProjects.Serial.Device
open Stepwise
set_option autoImplicit false

/-- Where a process is in `device_open`; `checked` holds the local `is_open`. -/
inductive Pc where
  | out
  | checked (isOpen : ℤ)
  | opened
  deriving DecidableEq

structure State (P : Type) where
  fileIsOpen : ℤ
  pc : P → Pc

inductive Act (P : Type) where
  | read (p : P)
  | busy (p : P)
  | set (p : P)
  | release (p : P)

variable {P : Type} [DecidableEq P]

/-- One atomic step of one process, when it is at that step. -/
def step (s : State P) : Act P → Option (State P)
  | .read p =>
      if s.pc p = .out then some { s with pc := Function.update s.pc p (.checked s.fileIsOpen) }
      else none
  | .busy p =>
      match s.pc p with
      | .checked isOpen =>
          if isOpen ≠ 0 then some { s with pc := Function.update s.pc p .out } else none
      | _ => none
  | .set p =>
      if s.pc p = .checked 0 then some ⟨1, Function.update s.pc p .opened⟩ else none
  | .release p =>
      if s.pc p = .opened then some ⟨0, Function.update s.pc p .out⟩ else none

/-- The state that `device_init` leaves. -/
def init : State P := ⟨0, fun _ => .out⟩

def Step (s : State P) (a : Act P) (s' : State P) : Prop := step s a = some s'

/-- The process has the device open, or will open it with its next step. -/
def Claims (s : State P) (p : P) : Prop := s.pc p = .checked 0 ∨ s.pc p = .opened

/-- A process that reads 0 does so while no other process is between its reading of 0 and its set. -/
def ReadsAlone (s : State P) : Act P → Prop
  | .read p => s.fileIsOpen = 0 → ∀ q, q ≠ p → s.pc q ≠ .checked 0
  | _ => True

structure OpenInv (s : State P) : Prop where
  alone : ∀ p q, Claims s p → Claims s q → p = q
  flagged : ∀ p, s.pc p = .opened → s.fileIsOpen ≠ 0

variable {s s' : State P}

theorem pc_update (s : State P) (p q : P) (c : Pc) (n : ℤ) :
    (⟨n, Function.update s.pc p c⟩ : State P).pc q = if q = p then c else s.pc q :=
  Function.update_apply ..

omit [DecidableEq P] in
theorem OpenInv.init : OpenInv (init : State P) where
  alone p q hp := by
    obtain hp | hp := hp <;> cases hp
  flagged p hp := by cases hp

/-- A process that leaves the device, or finds it busy, claims it no more. -/
theorem OpenInv.leave (hI : OpenInv s) {p : P} (n : ℤ)
    (h : ∀ q, q ≠ p → s.pc q = .opened → n ≠ 0) : OpenInv ⟨n, Function.update s.pc p .out⟩ where
  alone q r hq hr := by
    have hne : ∀ q, Claims (⟨n, Function.update s.pc p .out⟩ : State P) q → Claims s q := by
      intro q hq
      rw [Claims, pc_update] at hq
      split at hq
      · simp at hq
      · exact hq
    exact hI.alone q r (hne q hq) (hne r hr)
  flagged q hq := by
    rw [pc_update] at hq
    split at hq
    · cases hq
    · next hqp => exact h q hqp hq

theorem OpenInv.step (hI : OpenInv s) {a : Act P} (hok : ReadsAlone s a) (hs : Step s a s') :
    OpenInv s' := by
  cases a with
  | read p =>
    rw [Step, Device.step] at hs
    split at hs
    · next hout =>
      obtain rfl := Option.some.inj hs
      have hother : ∀ q, Claims ({ s with pc := Function.update s.pc p (.checked s.fileIsOpen) }) q →
          q ≠ p → Claims s q := by
        intro q hq hqp
        rw [Claims, pc_update, if_neg hqp] at hq
        exact hq
      -- when the reader gets 0, nobody has the device and nobody is about to
      have hfree : Claims ({ s with pc := Function.update s.pc p (.checked s.fileIsOpen) }) p →
          ∀ q, q ≠ p → ¬ Claims s q := by
        intro hp q hqp hq
        rw [Claims, pc_update, if_pos rfl] at hp
        have hzero : s.fileIsOpen = 0 := by simpa using hp
        obtain hq | hq := hq
        · exact hok hzero q hqp hq
        · exact hI.flagged q hq hzero
      refine ⟨fun q r hq hr => ?_, fun q hq => ?_⟩
      · by_cases hqp : q = p
        · by_cases hrp : r = p
          · rw [hqp, hrp]
          · exact absurd (hother r hr hrp) (hfree (hqp ▸ hq) r hrp)
        · by_cases hrp : r = p
          · exact absurd (hother q hq hqp) (hfree (hrp ▸ hr) q hqp)
          · exact hI.alone q r (hother q hq hqp) (hother r hr hrp)
      · rw [pc_update] at hq
        split at hq
        · cases hq
        · exact hI.flagged q hq
    · cases hs
  | busy p =>
    rw [Step, Device.step] at hs
    cases hp : s.pc p with
    | out => simp [hp] at hs
    | opened => simp [hp] at hs
    | checked isOpen =>
      simp only [hp] at hs
      split at hs
      · obtain rfl := Option.some.inj hs
        exact hI.leave s.fileIsOpen fun q _ hq => hI.flagged q hq
      · cases hs
  | set p =>
    rw [Step, Device.step] at hs
    split at hs
    · next hp =>
      obtain rfl := Option.some.inj hs
      have hold : ∀ q, Claims (⟨1, Function.update s.pc p .opened⟩ : State P) q → Claims s q := by
        intro q hq
        rw [Claims, pc_update] at hq
        split at hq
        · next hqp => exact .inl (hqp ▸ hp)
        · exact hq
      exact ⟨fun q r hq hr => hI.alone q r (hold q hq) (hold r hr), fun _ _ => one_ne_zero⟩
    · cases hs
  | release p =>
    rw [Step, Device.step] at hs
    split at hs
    · next hp =>
      obtain rfl := Option.some.inj hs
      refine hI.leave 0 fun q hqp hq => ?_
      exact absurd (hI.alone q p (.inr hq) (.inr hp)) hqp
    · cases hs

/-- In every interleaving in which a process that reads 0 reads alone, at most one process has the
device open. -/
theorem exclusive_open {as : List (Act P)}
    (hr : Run (fun s a s' => ReadsAlone s a ∧ Step s a s') init as s) (p q : P)
    (hp : s.pc p = .opened) (hq : s.pc q = .opened) : p = q :=
  (hr.invariant (fun _ _ _ hI hs => hI.step hs.1 hs.2) OpenInv.init).alone p q (.inr hp) (.inr hq)

/-- One process opens the device, another finds it busy. -/
theorem exclusive_open_second_busy : ∃ s : State (Fin 2),
    Run (fun s a s' => ReadsAlone s a ∧ Step s a s') init [.read 0, .set 0, .read 1, .busy 1] s ∧
      s.pc 0 = .opened ∧ ∀ q, s.pc q = .opened → 0 = q := by
  have hr : ∃ s : State (Fin 2), Run (fun s a s' => ReadsAlone s a ∧ Step s a s') init
      [.read 0, .set 0, .read 1, .busy 1] s ∧ s.pc 0 = .opened :=
    ⟨_, .cons ⟨fun _ q _ => Pc.noConfusion, rfl⟩ (.cons ⟨trivial, rfl⟩
      (.cons ⟨fun h => absurd h (by decide), rfl⟩ (.cons ⟨trivial, rfl⟩ (.nil _)))), rfl⟩
  obtain ⟨s, hr, h0⟩ := hr
  exact ⟨s, hr, h0, fun q hq => exclusive_open hr 0 q h0 hq⟩

/-- Both processes read 0 before either of them sets the flag. -/
theorem both_open : ∃ (as : List (Act (Fin 2))) (s : State (Fin 2)), Run Step init as s ∧
    s.pc 0 = .opened ∧ s.pc 1 = .opened :=
  ⟨[.read 0, .read 1, .set 0, .set 1], _, .cons rfl (.cons rfl (.cons rfl (.cons rfl (.nil _)))), rfl,
    rfl⟩

end LkpProjects.Serial.Device
