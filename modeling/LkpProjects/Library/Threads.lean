import LkpProjects.Library.Stepwise

/-! # Calls of many threads on one object

Any number of threads call one object. A call is invoked, takes effect in one step of the object, its
commit, and responds with what the commit returned. Between these the object may take steps of its own.

`Linearized` says of a history what is left of the interleaving: the commits in their order are a run of a
specification, and in every part of the history up to some moment, the calls of each thread that have
responded have been committed, and those that have been committed have been invoked, in the same order. So a
call that responds before another one is invoked comes before it among the commits. A history is linearized
if commits and steps of the object simulate the specification (`linearized_of_run`).
-/
namespace LkpProjects.Threads
open Stepwise
set_option autoImplicit false

variable {σ μ T Op Res : Type}

/-! ## Threads -/

/-- Where a thread is in its call. -/
inductive Pc (Op Res : Type) where
  | idle
  | pending (o : Op)
  | answered (o : Op) (r : Res)

inductive Event (T Op Res : Type) where
  | invoke (t : T) (o : Op)
  | commit (t : T) (o : Op) (r : Res)
  | respond (t : T) (o : Op) (r : Res)
  | background

/-- The object and its threads. -/
structure State (σ T Op Res : Type) where
  obj : σ
  pc : T → Pc Op Res

section Steps
variable [DecidableEq T]

/-- One step of a thread, or one of the object alone. -/
inductive Step (commit : σ → Op × Res → σ → Prop) (background : σ → σ → Prop) :
    State σ T Op Res → Event T Op Res → State σ T Op Res → Prop
  | invoke {x : State σ T Op Res} {t : T} {o : Op} (h : x.pc t = .idle) :
      Step commit background x (.invoke t o) ⟨x.obj, Function.update x.pc t (.pending o)⟩
  | commit {x : State σ T Op Res} {t : T} {o : Op} {r : Res} {s : σ} (h : x.pc t = .pending o)
      (hc : commit x.obj (o, r) s) :
      Step commit background x (.commit t o r) ⟨s, Function.update x.pc t (.answered o r)⟩
  | respond {x : State σ T Op Res} {t : T} {o : Op} {r : Res} (h : x.pc t = .answered o r) :
      Step commit background x (.respond t o r) ⟨x.obj, Function.update x.pc t .idle⟩
  | background {x : State σ T Op Res} {s : σ} (h : background x.obj s) :
      Step commit background x .background ⟨s, x.pc⟩

end Steps

/-- All threads idle. -/
def State.start (s : σ) : State σ T Op Res := ⟨s, fun _ => .idle⟩

/-! ## Histories -/

/-- The calls that have taken effect, in this order. -/
def commits (es : List (Event T Op Res)) : List (Op × Res) :=
  es.filterMap fun e => match e with
    | .commit _ o r => some (o, r)
    | _ => none

section Histories
variable [DecidableEq T] (t : T) (es : List (Event T Op Res))

def invokedBy : List Op :=
  es.filterMap fun e => match e with
    | .invoke t' o => if t' = t then some o else none
    | _ => none

def committedBy : List (Op × Res) :=
  es.filterMap fun e => match e with
    | .commit t' o r => if t' = t then some (o, r) else none
    | _ => none

def respondedBy : List (Op × Res) :=
  es.filterMap fun e => match e with
    | .respond t' o r => if t' = t then some (o, r) else none
    | _ => none

end Histories

/-- The commits are a run of `spec`, and no call responds before its commit or is committed before its
invocation. -/
structure Linearized [DecidableEq T] (spec : μ → Op × Res → μ → Prop) (m₀ : μ)
    (es : List (Event T Op Res)) : Prop where
  legal : ∃ m, Run spec m₀ (commits es) m
  responded : ∀ es', es' <+: es → ∀ t, respondedBy t es' <+: committedBy t es'
  invoked : ∀ es', es' <+: es → ∀ t, (committedBy t es').map Prod.fst <+: invokedBy t es'

/-! ## Runs -/

/-- The call of a thread that has been committed and has not responded. -/
def Pc.open : Pc Op Res → List (Op × Res)
  | .answered o r => [(o, r)]
  | _ => []

/-- The call of a thread that has not been committed. -/
def Pc.waiting : Pc Op Res → List Op
  | .pending o => [o]
  | _ => []

section Runs
variable [DecidableEq T] {commit : σ → Op × Res → σ → Prop} {background : σ → σ → Prop}
  {x y : State σ T Op Res} {e : Event T Op Res} {es : List (Event T Op Res)}

/-- What a thread's calls have done, from what they had done before a step. -/
theorem Step.order (h : Step commit background x e y) (t : T) :
    respondedBy t [e] ++ (y.pc t).open = (x.pc t).open ++ committedBy t [e] ∧
      (committedBy t [e]).map Prod.fst ++ (y.pc t).waiting = (x.pc t).waiting ++ invokedBy t [e] := by
  cases h with
  | @invoke t' o h | @commit t' o r s h hc | @respond t' o r h =>
    by_cases ht : t' = t
    · subst ht
      simp [respondedBy, committedBy, invokedBy, h, Pc.open, Pc.waiting]
    · simp [respondedBy, committedBy, invokedBy, ht, Function.update_of_ne (Ne.symm ht)]
  | background h => simp [respondedBy, committedBy, invokedBy]

/-- The calls of each thread: those that responded and the open one have been committed, these and the
waiting one have been invoked. -/
theorem order_of_run (h : Run (Step commit background) x es y) (t : T) :
    respondedBy t es ++ (y.pc t).open = (x.pc t).open ++ committedBy t es ∧
      (committedBy t es).map Prod.fst ++ (y.pc t).waiting = (x.pc t).waiting ++ invokedBy t es := by
  induction h with
  | nil x => simp [respondedBy, committedBy, invokedBy]
  | @cons x y z e es hs hr ih =>
    obtain ⟨hopen, hwait⟩ := hs.order t
    have hsplit : ∀ {α : Type} (f : Event T Op Res → Option α),
        (e :: es).filterMap f = [e].filterMap f ++ es.filterMap f := fun f =>
      List.filterMap_append (l := [e])
    constructor
    · calc respondedBy t (e :: es) ++ (z.pc t).open
          = respondedBy t [e] ++ (respondedBy t es ++ (z.pc t).open) := by
            rw [respondedBy, hsplit, List.append_assoc]
            rfl
        _ = respondedBy t [e] ++ (y.pc t).open ++ committedBy t es := by
            rw [ih.1, List.append_assoc]
        _ = (x.pc t).open ++ committedBy t (e :: es) := by
            rw [hopen, List.append_assoc]
            exact congrArg _ (hsplit _).symm
    · calc (committedBy t (e :: es)).map Prod.fst ++ (z.pc t).waiting
          = (committedBy t [e]).map Prod.fst ++
              ((committedBy t es).map Prod.fst ++ (z.pc t).waiting) := by
            rw [committedBy, hsplit, List.map_append, List.append_assoc]
            rfl
        _ = (committedBy t [e]).map Prod.fst ++ (y.pc t).waiting ++ invokedBy t es := by
            rw [ih.2, List.append_assoc]
        _ = (x.pc t).waiting ++ invokedBy t (e :: es) := by
            rw [hwait, List.append_assoc]
            exact congrArg _ (hsplit _).symm

/-- A part of a run is a run. -/
theorem run_of_prefix {step : σ → Op → σ → Prop} {s s' : σ} {as bs : List Op} (h : Run step s bs s')
    (hp : as <+: bs) : ∃ s₁, Run step s as s₁ := by
  induction h generalizing as with
  | nil s =>
    obtain rfl := List.prefix_nil.mp hp
    exact ⟨s, .nil s⟩
  | cons hs hr ih =>
    cases as with
    | nil => exact ⟨_, .nil _⟩
    | cons a as =>
      obtain ⟨rfl, htail⟩ := List.cons_prefix_cons.mp hp
      obtain ⟨s₁, h₁⟩ := ih htail
      exact ⟨s₁, .cons hs h₁⟩

/-- The object behind a history is related to what the specification makes of the commits. -/
theorem commits_of_run {spec : μ → Op × Res → μ → Prop} {I : σ → μ → Prop}
    (hc : ∀ s m a s', I s m → commit s a s' → ∃ m', spec m a m' ∧ I s' m')
    (hb : ∀ s m s', I s m → background s s' → I s' m) (h : Run (Step commit background) x es y) :
    ∀ m, I x.obj m → ∃ m', Run spec m (commits es) m' ∧ I y.obj m' := by
  induction h with
  | nil x => exact fun m hI => ⟨m, .nil m, hI⟩
  | cons hs hr ih =>
    intro m hI
    cases hs with
    | invoke h => exact ih m hI
    | commit h hcom =>
      obtain ⟨m₁, hm₁, hI₁⟩ := hc _ m _ _ hI hcom
      obtain ⟨m', hr', hI'⟩ := ih m₁ hI₁
      exact ⟨m', .cons hm₁ hr', hI'⟩
    | respond h => exact ih m hI
    | background h => exact ih m (hb _ m _ hI h)

/-- A history from idle threads is linearized, if the object simulates the specification. -/
theorem linearized_of_run {spec : μ → Op × Res → μ → Prop} {I : σ → μ → Prop} {s : σ} {m : μ}
    (hc : ∀ s m a s', I s m → commit s a s' → ∃ m', spec m a m' ∧ I s' m')
    (hb : ∀ s m s', I s m → background s s' → I s' m) (hI : I s m)
    (h : Run (Step commit background) (.start s) es y) : Linearized spec m es where
  legal := by
    obtain ⟨m', hr, -⟩ := commits_of_run hc hb h m hI
    exact ⟨m', hr⟩
  responded es' hp t := by
    obtain ⟨z, hz⟩ := run_of_prefix h hp
    exact ⟨_, (order_of_run hz t).1⟩
  invoked es' hp t := by
    obtain ⟨z, hz⟩ := run_of_prefix h hp
    exact ⟨_, (order_of_run hz t).2⟩

end Runs

end LkpProjects.Threads
