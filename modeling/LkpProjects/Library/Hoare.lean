import Mathlib

/-! # Programs with a state that may fail

`Prog σ ε α` is a program that works on a state `σ` and either returns an `α` or stops with a fault in
`ε`. `wp m Q E s` is its weakest precondition: started in `s`, `m` returns in `Q` or stops in `E`. With
`E` everything this is partial correctness; with `E` the faults other than one, it says that this fault
does not occur.

The rules below compute `wp` along the structure of a program (`wp_bind`, `wp_get`, `wp_modify`, ..),
carry an invariant through a loop (`wp_forM`) and use what is known of a call (`wp.mono`).
-/
namespace LkpProjects.Hoare
set_option autoImplicit false

variable {σ ε α β ι : Type}

/-- A program on the state `σ` with faults `ε`. -/
abbrev Prog (σ ε α : Type) : Type := StateT σ (Except ε) α

/-- From `s` the program returns in `Q` or stops in `E`. -/
def wp (m : Prog σ ε α) (Q : α → σ → Prop) (E : ε → Prop) (s : σ) : Prop :=
  match m s with
  | .ok (a, s') => Q a s'
  | .error e => E e

variable {m : Prog σ ε α} {Q Q' : α → σ → Prop} {R : β → σ → Prop} {E E' : ε → Prop} {s : σ}

theorem wp_iff : wp m Q E s ↔
    (∀ a s', m s = .ok (a, s') → Q a s') ∧ ∀ e, m s = .error e → E e := by
  unfold wp
  cases h : m s with
  | error e => simp
  | ok r =>
    obtain ⟨a, s'⟩ := r
    simp

/-- What a program that returned has done. -/
theorem wp.of_ok {a : α} {s' : σ} (h : wp m Q E s) (he : m s = .ok (a, s')) : Q a s' :=
  (wp_iff.mp h).1 a s' he

theorem wp.of_error {e : ε} (h : wp m Q E s) (he : m s = .error e) : E e := (wp_iff.mp h).2 e he

/-- Partial correctness from the results alone. -/
theorem wp_of_ok (h : ∀ a s', m s = .ok (a, s') → Q a s') : wp m Q (fun _ => True) s :=
  wp_iff.mpr ⟨h, fun _ _ => trivial⟩

theorem wp.mono (h : wp m Q E s) (hQ : ∀ a s', Q a s' → Q' a s') (hE : ∀ e, E e → E' e) :
    wp m Q' E' s := by
  rw [wp_iff] at h ⊢
  exact ⟨fun a s' he => hQ a s' (h.1 a s' he), fun e he => hE e (h.2 e he)⟩

/-- A weaker postcondition, with the same faults. -/
theorem wp.post (h : wp m Q E s) (hQ : ∀ a s', Q a s' → Q' a s') : wp m Q' E s :=
  h.mono hQ fun _ => id

/-! ## Along the structure of a program -/

theorem wp_pure {a : α} : wp (pure a : Prog σ ε α) Q E s ↔ Q a s := Iff.rfl

theorem wp_throw {e : ε} : wp (throw e : Prog σ ε α) Q E s ↔ E e := Iff.rfl

theorem wp_get {Q : σ → σ → Prop} : wp (get : Prog σ ε σ) Q E s ↔ Q s s := Iff.rfl

theorem wp_modify {f : σ → σ} {Q : PUnit → σ → Prop} :
    wp (modify f : Prog σ ε PUnit) Q E s ↔ Q ⟨⟩ (f s) := Iff.rfl

theorem wp_bind {f : α → Prog σ ε β} :
    wp (m >>= f) R E s ↔ wp m (fun a s' => wp (f a) R E s') E s := by
  have hbind : (m >>= f) s = (m s >>= fun r => f r.1 r.2) := rfl
  unfold wp
  rw [hbind]
  cases m s <;> rfl

theorem wp_ite {c : Prop} [Decidable c] {m' : Prog σ ε α} :
    wp (if c then m else m') Q E s ↔ (c → wp m Q E s) ∧ (¬ c → wp m' Q E s) := by
  by_cases hc : c <;> simp [hc]

/-- A call, with what is known of it, and what follows. -/
theorem wp.bind {f : α → Prog σ ε β} (h : wp m Q E s)
    (hf : ∀ a s', Q a s' → wp (f a) R E s') : wp (m >>= f) R E s :=
  wp_bind.mpr (h.post hf)

/-! ## Loops over a list -/

/-- What each round keeps of the entries that are through and of those that are left. -/
theorem wp_forM {f : ι → Prog σ ε PUnit} {I : List ι → List ι → σ → Prop} {l : List ι}
    (hstep : ∀ xs x ys s, I xs (x :: ys) s → wp (f x) (fun _ => I (xs ++ [x]) ys) E s) (hI : I [] l s) :
    wp (l.forM f) (fun _ => I l []) E s := by
  have hloop : ∀ (ys xs : List ι) (s : σ), I xs ys s → wp (ys.forM f) (fun _ => I (xs ++ ys) []) E s := by
    intro ys
    induction ys with
    | nil =>
      intro xs s hI
      rw [List.append_nil]
      exact hI
    | cons y ys ih =>
      intro xs s hI
      refine (hstep xs y ys s hI).bind fun _ s₁ h₁ => ?_
      have hrest := ih _ _ h₁
      rw [List.append_assoc] at hrest
      exact hrest
  exact hloop l [] s hI

/-! ## Programs that returned -/

theorem pure_ok {a b : α} {s' : σ} : (pure a : Prog σ ε α) s = .ok (b, s') ↔ a = b ∧ s = s' := by
  constructor
  · intro he
    exact Prod.mk.inj (Except.ok.inj he)
  · rintro ⟨rfl, rfl⟩
    rfl

theorem modify_ok {f : σ → σ} {u : PUnit} {s' : σ} :
    (modify f : Prog σ ε PUnit) s = .ok (u, s') ↔ f s = s' := by
  constructor
  · intro he
    exact congrArg Prod.snd (Except.ok.inj he)
  · rintro rfl
    rfl

theorem except_bind_ok {x : Except ε α} {f : α → Except ε β} {b : β} :
    x >>= f = .ok b ↔ ∃ a, x = .ok a ∧ f a = .ok b := by
  cases x with
  | error e =>
    constructor
    · intro he
      cases he
    · rintro ⟨a, ha, -⟩
      cases ha
  | ok a =>
    constructor
    · intro he
      exact ⟨a, rfl, he⟩
    · rintro ⟨a', ha, he⟩
      obtain rfl := Except.ok.inj ha
      exact he

/-- A program that returned has gone through all its steps. -/
theorem bind_ok {f : α → Prog σ ε β} {b : β} {s' : σ} : (m >>= f) s = .ok (b, s') ↔
    ∃ a s₁, m s = .ok (a, s₁) ∧ f a s₁ = .ok (b, s') := by
  have hbind : (m >>= f) s = (m s >>= fun r => f r.1 r.2) := rfl
  rw [hbind, except_bind_ok, Prod.exists]

/-- A program that stopped did so in one of its steps. -/
theorem bind_error {f : α → Prog σ ε β} {e : ε} : (m >>= f) s = .error e ↔
    m s = .error e ∨ ∃ a s₁, m s = .ok (a, s₁) ∧ f a s₁ = .error e := by
  have hbind : (m >>= f) s = (m s >>= fun r => f r.1 r.2) := rfl
  rw [hbind]
  cases h : m s with
  | error e' =>
    constructor
    · intro he
      exact .inl (congrArg Except.error (Except.error.inj he))
    · rintro (he | ⟨a, s₁, he, -⟩)
      · exact congrArg Except.error (Except.error.inj he)
      · cases he
  | ok r =>
    constructor
    · intro he
      exact .inr ⟨r.1, r.2, rfl, he⟩
    · rintro (he | ⟨a, s₁, he, hf⟩)
      · cases he
      · obtain rfl := Except.ok.inj he
        exact hf

theorem get_bind_ok {f : σ → Prog σ ε β} {b : β} {s' : σ} :
    (get >>= f) s = .ok (b, s') ↔ f s s = .ok (b, s') := Iff.rfl

/-! ## What a program leaves alone -/

/-- A run of `m` that returns leaves the view `p` of the state as it was. -/
def Stable {γ : Type} (p : σ → γ) (m : Prog σ ε α) : Prop :=
  ∀ s, wp m (fun _ s' => p s' = p s) (fun _ => True) s

namespace Stable
variable {γ δ : Type} {p : σ → γ}

theorem eq {a : α} {s' : σ} (h : Stable p m) (he : m s = .ok (a, s')) : p s' = p s :=
  (h s).of_ok he

/-- A coarser view is left alone too. -/
theorem map (h : Stable p m) (f : γ → δ) : Stable (fun s => f (p s)) m :=
  fun s => (h s).post fun _ _ he => congrArg f he

theorem pure (a : α) : Stable p (Pure.pure a : Prog σ ε α) := fun _ => rfl

theorem throw (e : ε) : Stable p (MonadExcept.throw e : Prog σ ε α) := fun _ => trivial

theorem update {f : σ → σ} (hf : ∀ s, p (f s) = p s) : Stable p (modify f : Prog σ ε PUnit) :=
  fun s => hf s

theorem bind {k : α → Prog σ ε β} (h : Stable p m) (hk : ∀ a, Stable p (k a)) :
    Stable p (m >>= k) := fun s =>
  (h s).bind fun a s₁ h₁ => (hk a s₁).post fun _ _ h₂ => h₂.trans h₁

theorem get {k : σ → Prog σ ε β} (hk : ∀ s, Stable p (k s)) : Stable p (MonadState.get >>= k) :=
  fun s => wp_bind.mpr (hk s s)

theorem ite {c : Prop} [Decidable c] {m' : Prog σ ε α} (h : Stable p m) (h' : Stable p m') :
    Stable p (if c then m else m') := by
  split
  · exact h
  · exact h'

end Stable

/-! ## What a program keeps -/

/-- A run of `m` that starts in `I` and returns ends in `I`. -/
def Preserves (I : σ → Prop) (m : Prog σ ε α) : Prop :=
  ∀ s, I s → wp m (fun _ s' => I s') (fun _ => True) s

namespace Preserves
variable {I : σ → Prop}

theorem of_ok {a : α} {s' : σ} (h : Preserves I m) (hI : I s) (he : m s = .ok (a, s')) : I s' :=
  (h s hI).of_ok he

theorem pure (a : α) : Preserves I (Pure.pure a : Prog σ ε α) := fun _ hs => hs

theorem throw (e : ε) : Preserves I (MonadExcept.throw e : Prog σ ε α) := fun _ _ => trivial

theorem update {f : σ → σ} (hf : ∀ s, I s → I (f s)) : Preserves I (modify f : Prog σ ε PUnit) :=
  fun s hs => hf s hs

theorem bind {k : α → Prog σ ε β} (h : Preserves I m) (hk : ∀ a, Preserves I (k a)) :
    Preserves I (m >>= k) := fun s hs => (h s hs).bind fun a s₁ h₁ => hk a s₁ h₁

theorem get {k : σ → Prog σ ε β} (hk : ∀ s, Preserves I (k s)) : Preserves I (MonadState.get >>= k) :=
  fun s hs => wp_bind.mpr (hk s s hs)

theorem ite {c : Prop} [Decidable c] {m' : Prog σ ε α} (h : Preserves I m) (h' : Preserves I m') :
    Preserves I (if c then m else m') := by
  split
  · exact h
  · exact h'

end Preserves

end LkpProjects.Hoare
