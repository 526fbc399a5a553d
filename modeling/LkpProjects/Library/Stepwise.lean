import Mathlib

/-! # Runs of a system that moves step by step

A system is a relation `step s a s'`: in state `s` the event `a` may lead to `s'`. A `Run` is a
finite sequence of such steps together with the events it shows. An invariant is carried along a run
by what one step preserves (`Run.invariant`).
-/
namespace LkpProjects.Stepwise
set_option autoImplicit false

variable {σ τ α : Type}

/-- A run from the first state to the last one, with its events in order. -/
inductive Run (step : σ → α → σ → Prop) : σ → List α → σ → Prop
  | nil (s : σ) : Run step s [] s
  | cons {s s' s'' : σ} {a : α} {as : List α} (h : step s a s') (hr : Run step s' as s'') :
      Run step s (a :: as) s''

variable {step : σ → α → σ → Prop} {s s' s'' : σ} {a : α} {as bs : List α}

theorem Run.append (h : Run step s as s') (h' : Run step s' bs s'') : Run step s (as ++ bs) s'' := by
  induction h with
  | nil => exact h'
  | cons hs _ ih => exact .cons hs (ih h')

theorem Run.concat (h : Run step s as s') (h' : step s' a s'') : Run step s (as ++ [a]) s'' :=
  h.append (.cons h' (.nil _))

/-- What every step preserves holds at the end of every run. -/
theorem Run.invariant {I : σ → Prop} (hI : ∀ s a s', I s → step s a s' → I s')
    (h : Run step s as s') : I s → I s' := by
  induction h with
  | nil => exact id
  | cons hs _ ih => exact fun hi => ih (hI _ _ _ hi hs)

/-- What every step preserves of a state beside a value computed from the events alone. -/
theorem Run.track {I : σ → τ → Prop} {next : τ → α → τ}
    (hI : ∀ s m a s', I s m → step s a s' → I s' (next m a)) (h : Run step s as s') :
    ∀ m, I s m → I s' (as.foldl next m) := by
  induction h with
  | nil => exact fun _ hi => hi
  | cons hs _ ih => exact fun m hi => ih _ (hI _ m _ _ hi hs)

/-- A run whose steps are allowed in one system is a run of any system that allows those steps. -/
theorem Run.mono {step' : σ → α → σ → Prop} (hle : ∀ s a s', step s a s' → step' s a s')
    (h : Run step s as s') : Run step' s as s' := by
  induction h with
  | nil => exact .nil _
  | cons hs _ ih => exact .cons (hle _ _ _ hs) ih

/-- A run whose events all have a property. -/
theorem Run.of_mem {P : α → Prop} (h : Run step s as s') :
    (∀ a ∈ as, P a) → Run (fun s a s' => P a ∧ step s a s') s as s' := by
  induction h with
  | nil => exact fun _ => .nil _
  | cons hs _ ih =>
    intro hP
    obtain ⟨ha, has⟩ := List.forall_mem_cons.mp hP
    exact .cons ⟨ha, hs⟩ (ih has)

/-- A run of one system is a run of another that allows its steps under an invariant they keep. -/
theorem Run.transfer {step' : σ → α → σ → Prop} {I : σ → Prop}
    (hle : ∀ s a s', I s → step s a s' → step' s a s' ∧ I s') (h : Run step s as s') :
    I s → Run step' s as s' := by
  induction h with
  | nil => exact fun _ => .nil _
  | cons hs _ ih =>
    intro hi
    obtain ⟨hs', hi'⟩ := hle _ _ _ hi hs
    exact .cons hs' (ih hi')

/-- A run of one system, seen through a map of states and of events, is a run of another that takes each of its
steps so. -/
theorem Run.simulate {σ' α' : Type} {step' : σ' → α' → σ' → Prop} {f : σ → σ'} {g : α → α'} {I : σ → Prop}
    (hle : ∀ s a s', I s → step s a s' → step' (f s) (g a) (f s') ∧ I s') (h : Run step s as s') :
    I s → Run step' (f s) (as.map g) (f s') := by
  induction h with
  | nil => exact fun _ => .nil _
  | cons hs _ ih =>
    intro hi
    obtain ⟨hs', hi'⟩ := hle _ _ _ hi hs
    exact .cons hs' (ih hi')

/-! ## Machines that answer -/

section Machine
variable {ε ι ο : Type} {f : σ → ι → Except ε (ο × σ)} {f' : τ → ι → Except ε (ο × τ)}

/-- What a machine answers to its inputs one after the other, or its first failure. -/
def answers (f : σ → ι → Except ε (ο × σ)) : List ι → σ → Except ε (List ο)
  | [], _ => .ok []
  | i :: is, s =>
    match f s i with
    | .error e => .error e
    | .ok (o, s) => (answers f is s).map (o :: ·)

/-- Two machines answer the same, and go on in related states, or fail in the same way. -/
inductive Agree (R : σ → τ → Prop) : Except ε (ο × σ) → Except ε (ο × τ) → Prop
  | error (e : ε) : Agree R (.error e) (.error e)
  | ok (o : ο) {s : σ} {t : τ} (h : R s t) : Agree R (.ok (o, s)) (.ok (o, t))

/-- Machines that agree on every input of a kind in related states give the same answers to such inputs. -/
theorem answers_eq {R : σ → τ → Prop} {P : ι → Prop}
    (hstep : ∀ s t i, P i → R s t → Agree R (f s i) (f' t i)) {is : List ι} (hP : ∀ i ∈ is, P i) :
    ∀ {s : σ} {t : τ}, R s t → answers f is s = answers f' is t := by
  induction is with
  | nil => exact fun _ => rfl
  | cons i is ih =>
    intro s t hst
    obtain ⟨hi, his⟩ := List.forall_mem_cons.mp hP
    have hagree := hstep s t i hi hst
    simp only [answers]
    generalize f s i = x at *
    generalize f' t i = y at *
    cases hagree with
    | error e => rfl
    | ok o h => simp only [ih his h]

end Machine

end LkpProjects.Stepwise
