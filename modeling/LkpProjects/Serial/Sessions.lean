import LkpProjects.Library.Threads
import LkpProjects.Serial.Device
import LkpProjects.Serial.Kvlib

/-! # Processes on the virtual device

Any number of processes call the library. A call reads the open flag, gives up or sets it, is served by
`device_ioctl`, clears the flag, and returns; these steps of all processes interleave in any order. Nothing in the
driver or the store keeps two requests apart but that flag, so where two processes are served at once, nothing is
said of the store and of what they get (`Step.race`).

An `ioctl` may also fail before it gets to the driver. Four functions of the library then return without closing
the device, and the descriptor stays open until the process exits (`Step.abandon`, `Step.exit`).

The opens are those of the device alone (`Step.device`). While they are exclusive, the calls of all processes are
linearized, with the map as the object and the codes of the library (`sessions_linearized`), and the flag is set
while some process holds a descriptor (`flag_iff_open`).
-/
namespace LkpProjects.Serial.Sessions
open Stepwise Nand Bytes Kvlib
set_option autoImplicit false

/-- A call, with what will get across. -/
abbrev Ask := Kvlib.Call × Transfer

/-- A code, and a string. -/
abbrev Answer := ℤ × List Byte

/-- Where a process is. -/
inductive Pc where
  | idle
  | calling (c : Ask)
  | checked (c : Ask) (isOpen : ℤ)
  | opened (c : Ask)
  | inside (c : Ask)
  | closing (c : Ask) (r : Answer)
  | leaving (c : Ask) (r : Answer)

/-- `left` tells of a process that it holds the descriptor of an earlier call. -/
structure State (P : Type) where
  store : Config
  fileIsOpen : ℤ
  pc : P → Pc
  left : P → Bool

inductive Act (P : Type) where
  | call (p : P) (c : Ask)
  | read (p : P)
  | busy (p : P) (c : Ask)
  | set (p : P)
  | enter (p : P)
  | serve (p : P) (c : Ask) (j : Stale) (elapsed : Bool) (r : Answer)
  | fail (p : P) (c : Ask)
  | close (p : P)
  | abandon (p : P)
  | leave (p : P) (c : Ask) (r : Answer)
  | exit (p : P)

/-- What a call returns that finds the device open. -/
def refusal (c : Ask) : Answer :=
  match c.1 with
  | .gc => (0, [])
  | _ => (-1, [])

/-- What a call returns whose `ioctl` fails. -/
def failure (c : Ask) : Answer :=
  match c.1 with
  | .gc => (0, [])
  | _ => (-2, [])

/-- The functions that return their `-2` without closing the device. -/
def leavesOpen (c : Ask) (r : Answer) : Bool :=
  match c.1 with
  | .format => false
  | .gc => false
  | _ => r.1 = -2

variable {P : Type} [DecidableEq P] {env : Env}

/-- A process goes on. -/
def State.at (s : State P) (p : P) (x : Pc) : State P := { s with pc := Function.update s.pc p x }

/-- One step of one process. -/
inductive Step (env : Env) (s : State P) : Act P → State P → Prop
  | call {p : P} {c : Ask} (h : s.pc p = .idle) : Step env s (.call p c) (s.at p (.calling c))
  | read {p : P} {c : Ask} (h : s.pc p = .calling c) :
      Step env s (.read p) (s.at p (.checked c s.fileIsOpen))
  | busy {p : P} {c : Ask} {n : ℤ} (h : s.pc p = .checked c n) (hn : n ≠ 0) :
      Step env s (.busy p c) (s.at p (.leaving c (refusal c)))
  | set {p : P} {c : Ask} (h : s.pc p = .checked c 0) :
      Step env s (.set p) { s.at p (.opened c) with fileIsOpen := 1 }
  | enter {p : P} {c : Ask} (h : s.pc p = .opened c) : Step env s (.enter p) (s.at p (.inside c))
  | serve {p : P} {c : Ask} {j : Stale} {elapsed : Bool} {r : Answer} {store : Config}
      (h : s.pc p = .inside c) (he : c.1.run env c.2 j elapsed s.store = .ok (r, store)) :
      Step env s (.serve p c j elapsed r) { s.at p (.closing c r) with store := store }
  | race {p q : P} {c c' : Ask} {j : Stale} {elapsed : Bool} {r : Answer} {store : Config}
      (h : s.pc p = .inside c) (hq : q ≠ p) (h' : s.pc q = .inside c') :
      Step env s (.serve p c j elapsed r) { s.at p (.closing c r) with store := store }
  | fail {p : P} {c : Ask} (h : s.pc p = .inside c) : Step env s (.fail p c) (s.at p (.closing c (failure c)))
  | close {p : P} {c : Ask} {r : Answer} (h : s.pc p = .closing c r) (hr : leavesOpen c r = false) :
      Step env s (.close p) { s.at p (.leaving c r) with fileIsOpen := 0 }
  | abandon {p : P} {c : Ask} {r : Answer} (h : s.pc p = .closing c r) (hr : leavesOpen c r = true) :
      Step env s (.abandon p) { s.at p (.leaving c r) with left := Function.update s.left p true }
  | leave {p : P} {c : Ask} {r : Answer} (h : s.pc p = .leaving c r) :
      Step env s (.leave p c r) (s.at p .idle)
  | exit {p : P} (h : s.pc p = .idle) (hl : s.left p = true) :
      Step env s (.exit p) { s with fileIsOpen := 0, left := Function.update s.left p false }

/-- A module that has just been loaded, and no process in a call. -/
def State.start (store : Config) : State P := ⟨store, 0, fun _ => .idle, fun _ => false⟩

/-! ## The device below -/

def Pc.device : Pc → Device.Pc
  | .idle => .out
  | .calling _ => .out
  | .checked _ n => .checked n
  | .opened _ => .opened
  | .inside _ => .opened
  | .closing _ _ => .opened
  | .leaving _ _ => .out

/-- A process with a descriptor has the device open, also while it tries to open it once more. -/
def State.device (s : State P) : Device.State P :=
  ⟨s.fileIsOpen, fun p => if s.left p = true then .opened else (s.pc p).device⟩

/-- A process that reads 0 reads alone. -/
def Alone (s : State P) : Act P → Prop
  | .read p => Device.ReadsAlone s.device (.read p)
  | _ => True

/-- The condition on a step: a process that reads 0 reads alone, a call that is served meets its condition, and no
`ioctl` fails. -/
def StepOk (env : Env) (s : State P) : Act P → Prop
  | .read p => Device.ReadsAlone s.device (.read p)
  | .serve _ c j elapsed _ => CallOk env c.2 j elapsed s.store c.1
  | .fail _ _ => False
  | _ => True

/-- Opens are exclusive, and a process that holds a descriptor is not let in again. -/
structure Held (s : State P) : Prop where
  open_inv : Device.OpenInv s.device
  out : ∀ p, s.left p = true → (s.pc p).device ≠ .checked 0 ∧ (s.pc p).device ≠ .opened

section Below
variable {s s' : State P} {a : Act P} {p : P} {x : Pc}

omit [DecidableEq P] in
theorem StepOk.alone (h : StepOk env s a) : Alone s a := by
  cases a with
  | read p => exact h
  | _ => trivial

omit [DecidableEq P] in
theorem device_pc (hl : s.left p = false) : s.device.pc p = (s.pc p).device := if_neg (by simp [hl])

omit [DecidableEq P] in
theorem device_left (hl : s.left p = true) : s.device.pc p = .opened := if_pos hl

omit [DecidableEq P] in
/-- A process is on its way in or has been let in only without a descriptor. -/
theorem Held.not_left (hH : Held s) (h : (s.pc p).device = .checked 0 ∨ (s.pc p).device = .opened) :
    s.left p = false := by
  refine eq_false_of_ne_true fun hl => ?_
  exact h.elim (hH.out p hl).1 (hH.out p hl).2

theorem at_device (hl : s.left p = false) (x : Pc) : (s.at p x).device =
    ⟨s.fileIsOpen, Function.update s.device.pc p x.device⟩ := by
  refine congrArg (Device.State.mk s.fileIsOpen) (funext fun q => ?_)
  by_cases hq : q = p
  · subst hq
    rw [Function.update_self]
    exact (if_neg (by simp [State.at, hl])).trans (congrArg Pc.device (Function.update_self ..))
  · rw [Function.update_of_ne hq]
    show (if s.left q = true then _ else (Function.update s.pc p x q).device) = _
    rw [Function.update_of_ne hq]
    rfl

/-- A step of a process that holds a descriptor does not touch the device. -/
theorem at_device_left (hl : s.left p = true) (x : Pc) : (s.at p x).device = s.device := by
  refine congrArg (Device.State.mk s.fileIsOpen) (funext fun q => ?_)
  by_cases hq : q = p
  · subst hq
    exact (if_pos hl).trans (if_pos hl).symm
  · show (if s.left q = true then _ else (Function.update s.pc p x q).device) = _
    rw [Function.update_of_ne hq]

theorem at_device_same (h : x.device = (s.pc p).device) : (s.at p x).device = s.device := by
  cases hl : s.left p with
  | false =>
    rw [at_device hl, h, ← device_pc hl]
    exact congrArg (Device.State.mk s.fileIsOpen) (Function.update_eq_self p s.device.pc)
  | true => exact at_device_left hl x

/-- A step is one of the device, or does not touch it. -/
theorem Step.device (hH : Held s) (h : Step env s a s') : s'.device = s.device ∨
    ∃ b, Device.Step s.device b s'.device ∧ (Alone s a → Device.ReadsAlone s.device b) := by
  have hin : ∀ {p : P} {d : Device.Pc}, (s.pc p).device = d → d = .checked 0 ∨ d = .opened →
      s.left p = false ∧ s.device.pc p = d := by
    intro p d hpc hd
    have hl : s.left p = false := hH.not_left (by rwa [hpc])
    exact ⟨hl, by rw [device_pc hl, hpc]⟩
  cases h with
  | call h => exact .inl (at_device_same (by rw [h]; rfl))
  | @read p c h =>
    cases hl : s.left p with
    | true => exact .inl (at_device_left hl _)
    | false =>
      refine .inr ⟨.read p, ?_, id⟩
      have hout : s.device.pc p = .out := by
        rw [device_pc hl, h]
        rfl
      rw [Device.Step, Device.step, if_pos hout, at_device hl]
      rfl
  | @busy p c n h hn =>
    cases hl : s.left p with
    | true => exact .inl (at_device_left hl _)
    | false =>
      refine .inr ⟨.busy p, ?_, fun _ => trivial⟩
      have hchecked : s.device.pc p = .checked n := by
        rw [device_pc hl, h]
        rfl
      rw [Device.Step, Device.step, hchecked, at_device hl]
      exact if_pos hn
  | @set p c h =>
    obtain ⟨hl, hzero⟩ := hin (d := .checked 0) (by rw [h]; rfl) (.inl rfl)
    refine .inr ⟨.set p, ?_, fun _ => trivial⟩
    rw [Device.Step, Device.step, if_pos hzero]
    exact congrArg (fun x : Device.State P => some (Device.State.mk 1 x.pc)) (at_device hl (.opened c)).symm
  | enter h => exact .inl (at_device_same (by rw [h]; rfl))
  | serve h he => exact .inl (at_device_same (s := s) (by rw [h]; rfl))
  | race h hq h' => exact .inl (at_device_same (s := s) (by rw [h]; rfl))
  | fail h => exact .inl (at_device_same (by rw [h]; rfl))
  | @close p c r h hr =>
    obtain ⟨hl, hopen⟩ := hin (d := .opened) (by rw [h]; rfl) (.inr rfl)
    refine .inr ⟨.release p, ?_, fun _ => trivial⟩
    rw [Device.Step, Device.step, if_pos hopen]
    exact congrArg (fun x : Device.State P => some (Device.State.mk 0 x.pc)) (at_device hl (.leaving c r)).symm
  | @abandon p c r h hr =>
    -- the descriptor was the call's and is now the process's
    obtain ⟨hl, hopen⟩ := hin (d := .opened) (by rw [h]; rfl) (.inr rfl)
    refine .inl (congrArg (Device.State.mk s.fileIsOpen) (funext fun q => ?_))
    by_cases hq : q = p
    · subst hq
      exact (if_pos (Function.update_self ..)).trans hopen.symm
    · show (if Function.update s.left p true q = true then _ else (Function.update s.pc p _ q).device) = _
      rw [Function.update_of_ne hq, Function.update_of_ne hq]
  | leave h => exact .inl (at_device_same (by rw [h]; rfl))
  | @exit p h hl =>
    refine .inr ⟨.release p, ?_, fun _ => trivial⟩
    rw [Device.Step, Device.step, if_pos (device_left hl)]
    refine congrArg (fun pc => some (Device.State.mk 0 pc)) (funext fun q => ?_)
    by_cases hq : q = p
    · subst hq
      rw [Function.update_self]
      refine ((if_neg ?_).trans (congrArg Pc.device h)).symm
      show ¬ Function.update s.left q false q = true
      rw [Function.update_self]
      exact Bool.false_ne_true
    · rw [Function.update_of_ne hq]
      show _ = if Function.update s.left p false q = true then _ else (s.pc q).device
      rw [Function.update_of_ne hq]
      rfl

/-- While opens are exclusive, no two requests are served at once. -/
theorem Step.held (hH : Held s) (hok : Alone s a) (h : Step env s a s') : Held s' where
  open_inv := by
    obtain hsame | ⟨b, hb, halone⟩ := h.device hH
    · rw [hsame]
      exact hH.open_inv
    · exact hH.open_inv.step (halone hok) hb
  out := by
    have hat : ∀ {p : P} {x : Pc}, (s.left p = true → x.device ≠ .checked 0 ∧ x.device ≠ .opened) →
        ∀ q, s.left q = true → (Function.update s.pc p x q).device ≠ .checked 0 ∧
          (Function.update s.pc p x q).device ≠ .opened := by
      intro p x hx q hq
      by_cases hqp : q = p
      · subst hqp
        rw [Function.update_self]
        exact hx hq
      · rw [Function.update_of_ne hqp]
        exact hH.out q hq
    have hin : ∀ {p : P} {x : Pc}, s.pc p = x → x.device = .checked 0 ∨ x.device = .opened →
        ¬ s.left p = true := fun hx hd hl => absurd (hH.not_left (by rwa [hx])) (by simp [hl])
    cases h with
    | call h => exact hat fun _ => ⟨Device.Pc.noConfusion, Device.Pc.noConfusion⟩
    | @read p c h =>
      refine hat fun hl => ⟨fun hzero => ?_, Device.Pc.noConfusion⟩
      exact hH.open_inv.flagged p (device_left hl) (Device.Pc.checked.inj hzero)
    | busy h hn => exact hat fun _ => ⟨Device.Pc.noConfusion, Device.Pc.noConfusion⟩
    | set h => exact hat fun hl => absurd hl (hin h (.inl rfl))
    | enter h => exact hat fun hl => absurd hl (hin h (.inr rfl))
    | serve h he => exact hat fun hl => absurd hl (hin h (.inr rfl))
    | race h hq h' => exact hat fun hl => absurd hl (hin h (.inr rfl))
    | fail h => exact hat fun hl => absurd hl (hin h (.inr rfl))
    | close h hr => exact hat fun _ => ⟨Device.Pc.noConfusion, Device.Pc.noConfusion⟩
    | @abandon p c r h hr =>
      intro q hq
      by_cases hqp : q = p
      · subst hqp
        have hout : (Function.update s.pc q (.leaving c r) q).device = .out := by
          rw [Function.update_self]
          rfl
        exact ⟨fun hd => Device.Pc.noConfusion (hout.symm.trans hd),
          fun hd => Device.Pc.noConfusion (hout.symm.trans hd)⟩
      · have hq : s.left q = true := by
          rw [← hq]
          exact (Function.update_of_ne hqp ..).symm
        have hpc : (Function.update s.pc p (.leaving c r) q).device = (s.pc q).device := by
          rw [Function.update_of_ne hqp]
        exact ⟨fun hd => (hH.out q hq).1 (hpc.symm.trans hd), fun hd => (hH.out q hq).2 (hpc.symm.trans hd)⟩
    | leave h => exact hat fun _ => ⟨Device.Pc.noConfusion, Device.Pc.noConfusion⟩
    | @exit p h hl =>
      intro q hq
      have hq : Function.update s.left p false q = true := hq
      by_cases hqp : q = p
      · subst hqp
        rw [Function.update_self] at hq
        cases hq
      · rw [Function.update_of_ne hqp] at hq
        exact hH.out q hq

omit [DecidableEq P] in
theorem Held.start (store : Config) : Held (State.start store : State P) where
  open_inv := Device.OpenInv.init
  out p hl := by cases hl

end Below

/-! ## The calls -/

def Pc.thread : Pc → Threads.Pc Ask Answer
  | .idle => .idle
  | .calling c => .pending c
  | .checked c _ => .pending c
  | .opened c => .pending c
  | .inside c => .pending c
  | .closing c r => .answered c r
  | .leaving c r => .answered c r

def State.threads (s : State P) : Threads.State Config P Ask Answer := ⟨s.store, fun p => (s.pc p).thread⟩

/-- What is seen of a step: a call takes effect when it is refused or served. -/
def Act.event : Act P → Threads.Event P Ask Answer
  | .call p c => .invoke p c
  | .read _ => .background
  | .busy p c => .commit p c (refusal c)
  | .set _ => .background
  | .enter _ => .background
  | .serve p c _ _ r => .commit p c r
  | .fail p c => .commit p c (failure c)
  | .close _ => .background
  | .abandon _ => .background
  | .leave p c r => .respond p c r
  | .exit _ => .background

/-- A call is refused, or served under its condition. -/
def Commits (env : Env) (s : Config) (e : Ask × Answer) (s' : Config) : Prop :=
  s' = s ∧ e.2 = refusal e.1 ∨ ∃ j elapsed, CallOk env e.1.2 j elapsed s e.1.1 ∧
    e.1.1.run env e.1.2 j elapsed s = .ok (e.2, s')

/-- The map behind a call, and its answer. -/
def Answered (env : Env) (m : CStr → Option CStr) (e : Ask × Answer) (m' : CStr → Option CStr) : Prop :=
  m' = m ∧ e.2 = refusal e.1 ∨ Served env.toGeometry m e m'

section Calls
variable {s s' : State P} {a : Act P} {store : Config} {as : List (Act P)}

theorem at_threads (p : P) (x : Pc) : (s.at p x).threads =
    ⟨s.store, Function.update s.threads.pc p x.thread⟩ :=
  congrArg (Threads.State.mk s.store) (funext fun q => Function.apply_update (fun _ => Pc.thread) s.pc p x q)

theorem at_threads_same {p : P} {x : Pc} (h : x.thread = (s.pc p).thread) : (s.at p x).threads = s.threads := by
  rw [at_threads, h]
  exact congrArg (Threads.State.mk s.store) (Function.update_eq_self p s.threads.pc)

/-- While opens are exclusive, a step is one of threads that call the store. -/
theorem Step.threads (hH : Held s) (hok : StepOk env s a) (h : Step env s a s') :
    Threads.Step (Commits env) (fun x y => y = x) s.threads a.event s'.threads := by
  have hpc : ∀ {p : P} {x : Pc}, s.pc p = x → s.threads.pc p = x.thread := fun h => congrArg Pc.thread h
  have hquiet : ∀ {p : P} {x : Pc}, x.thread = (s.pc p).thread →
      Threads.Step (Commits env) (fun x y => y = x) s.threads .background (s.at p x).threads := by
    intro p x hx
    rw [at_threads_same hx]
    exact .background rfl
  cases h with
  | @call p c h =>
    rw [at_threads]
    exact .invoke (hpc h)
  | read h => exact hquiet (by rw [h]; rfl)
  | busy h hn =>
    rw [at_threads]
    exact .commit (hpc h) (.inl ⟨rfl, rfl⟩)
  | set h => exact hquiet (by rw [h]; rfl)
  | enter h => exact hquiet (by rw [h]; rfl)
  | @serve p c j elapsed r store h he =>
    have hserved : ({ s.at p (.closing c r) with store := store } : State P).threads =
        ⟨store, Function.update s.threads.pc p (.answered c r)⟩ :=
      congrArg (fun x => Threads.State.mk store x.pc) (at_threads p (.closing c r))
    rw [hserved]
    exact .commit (hpc h) (.inr ⟨j, elapsed, hok, he⟩)
  | @race p q c c' j elapsed r store h hq h' =>
    have hopen : ∀ {p : P} {c : Ask}, s.pc p = .inside c → s.device.pc p = .opened := by
      intro p c h
      have hd : (s.pc p).device = .opened := by
        rw [h]
        rfl
      rw [device_pc (hH.not_left (.inr hd)), hd]
    exact absurd (hH.open_inv.alone q p (.inr (hopen h')) (.inr (hopen h))) hq
  | fail h => exact hok.elim
  | close h hr => exact hquiet (by rw [h]; rfl)
  | abandon h hr => exact hquiet (by rw [h]; rfl)
  | leave h =>
    rw [at_threads]
    exact .respond (hpc h)
  | exit h hl => exact .background rfl

theorem Commits.answered {m : CStr → Option CStr} {t t' : Config} {e : Ask × Answer} (hC : ContractInv env t m)
    (hdrv : env.NoDriverError) (hpage : env.pageSize ≤ 2 ^ 11) (h : Commits env t e t') :
    ∃ m', Answered env m e m' ∧ ContractInv env t' m' := by
  obtain ⟨rfl, he⟩ | ⟨j, elapsed, hok, he⟩ := h
  · exact ⟨m, .inl ⟨rfl, he⟩, hC⟩
  · obtain ⟨r, t₁, m', hrun, hserved, hC'⟩ := run_served hC hdrv hpage hok
    obtain ⟨rfl, rfl⟩ := Prod.mk.inj (Except.ok.inj (he.symm.trans hrun))
    exact ⟨m', .inr hserved, hC'⟩

/-- The runs of the processes are runs of threads. -/
theorem threads_of_run (hr : Run (fun s a s' => StepOk env s a ∧ Step env s a s') (.start store : State P) as s) :
    Run (Threads.Step (Commits env) fun x y => y = x) (.start store) (as.map Act.event) s.threads := by
  have hsim : Run (Threads.Step (Commits env) fun x y => y = x) (State.start store : State P).threads
      (as.map Act.event) s.threads := hr.simulate (I := Held)
    (fun s a s' hH hs => ⟨hs.2.threads hH hs.1, hs.2.held hH hs.1.alone⟩) (Held.start store)
  exact hsim

/-- In every interleaving of the processes' steps in which a process that finds the device free reads alone and no
`ioctl` fails, their calls are linearized: refused, or served one after the other by one map, with the codes of the
library. -/
theorem sessions_linearized (hdrv : env.NoDriverError) (hpage : env.pageSize ≤ 2 ^ 11) (hf : Fresh env store)
    (hr : Run (fun s a s' => StepOk env s a ∧ Step env s a s') (.start store : State P) as s) :
    Threads.Linearized (Answered env) (fun _ => none) (as.map Act.event) := by
  have hC : ContractInv env store fun _ => none := by
    rw [(fresh_iff hdrv).mp hf]
    exact .start hdrv
  refine Threads.linearized_of_run (I := fun t m => ContractInv env t m)
    (fun _ _ _ _ hI h => Commits.answered hI hdrv hpage h) (fun t m t' hI h => ?_) hC (threads_of_run hr)
  rw [h]
  exact hI

/-- In every such interleaving, a request whose condition holds is served. -/
theorem sessions_served (hdrv : env.NoDriverError) (hpage : env.pageSize ≤ 2 ^ 11) (hf : Fresh env store)
    (hr : Run (fun s a s' => StepOk env s a ∧ Step env s a s') (.start store : State P) as s) {p : P} {c : Ask}
    {j : Stale} {elapsed : Bool} (hp : s.pc p = .inside c) (hok : CallOk env c.2 j elapsed s.store c.1) :
    ∃ r s', Step env s (.serve p c j elapsed r) s' := by
  have hC : ContractInv env store fun _ => none := by
    rw [(fresh_iff hdrv).mp hf]
    exact .start hdrv
  obtain ⟨m, -, hI⟩ := Threads.commits_of_run (x := .start store) (y := s.threads) (I := fun t m => ContractInv env t m)
    (fun t _ e t' hI (h : Commits env t e t') => Commits.answered hI hdrv hpage h)
    (fun t m t' hI (h : t' = t) => by rw [h]; exact hI)
    (threads_of_run hr) _ hC
  obtain ⟨r, t, -, he, -⟩ := run_served hI hdrv hpage hok
  exact ⟨r, _, .serve hp he⟩

/-- Memory that is zero. -/
def zeroed : Stale := ⟨0, List.replicate (2 ^ 11 + 1) 0⟩

theorem zeroed_ends : zeroed.buffer.getLast? = some 0 :=
  List.getLast?_replicate.trans (if_neg (Nat.succ_ne_zero _))

theorem tiny_fresh : Fresh (.ideal tinyGeometry) (Env.ideal tinyGeometry).start := rfl

def setOne : Ask := (.set (.ofBytes [107]) (.ofBytes [118]), ⟨0, 0, true⟩)

def getOne : Ask := (.get (.ofBytes [107]), ⟨0, 0, true⟩)

/-- While one process stores a pair, another one finds the device busy; it comes back and is let in. -/
theorem second_process : ∃ s : State Bool, Run (fun s a s' => StepOk (.ideal tinyGeometry) s a ∧
    Step (.ideal tinyGeometry) s a s') (.start (Env.ideal tinyGeometry).start)
      [.call false setOne, .read false, .set false, .call true getOne, .read true, .busy true getOne,
        .enter false, .serve false setOne zeroed false (0, []), .close false, .leave true getOne (-1, []),
        .call true getOne, .read true, .set true, .enter true] s ∧
      s.pc true = .inside getOne ∧ s.fileIsOpen = 1 := by
  refine ⟨_, .cons ⟨trivial, .call rfl⟩ (.cons ⟨?_, .read rfl⟩
    (.cons ⟨trivial, .set rfl⟩ (.cons ⟨trivial, .call rfl⟩ (.cons ⟨fun h => absurd h (by decide), .read rfl⟩
    (.cons ⟨trivial, .busy rfl (by decide)⟩ (.cons ⟨trivial, .enter rfl⟩ (.cons ⟨?_, .serve rfl rfl⟩
    (.cons ⟨trivial, .close rfl rfl⟩ (.cons ⟨trivial, .leave rfl⟩ (.cons ⟨trivial, .call rfl⟩ (.cons ⟨?_, .read rfl⟩
    (.cons ⟨trivial, .set rfl⟩ (.cons ⟨trivial, .enter rfl⟩ (.nil _)))))))))))))), rfl, rfl⟩
  · rintro - q hq
    cases q with
    | false => exact absurd rfl hq
    | true => exact Device.Pc.noConfusion
  · refine ⟨fun req hreq => ?_, rfl, List.length_replicate, zeroed_ends⟩
    obtain rfl := Option.some.inj hreq
    refine ⟨by decide, .inr (.inr ⟨⟨0, rfl, by decide, 1, by decide, by decide⟩, fun ret s₁ h₁ => ?_⟩)⟩
    obtain ⟨rfl, rfl⟩ := Prod.mk.inj (Except.ok.inj h₁)
    refine ⟨fun b hb => ?_, fun _ _ h => Bool.noConfusion h⟩
    cases hb
  · rintro - q hq
    cases q with
    | false => exact Device.Pc.noConfusion
    | true => exact absurd rfl hq

theorem sessions_linearized_two : Threads.Linearized (Answered (.ideal tinyGeometry)) (fun _ => none)
    [.invoke false setOne, .background, .background, .invoke true getOne, .background,
      .commit true getOne (-1, []), .background, .commit false setOne (0, []), .background,
      .respond true getOne (-1, []), .invoke true getOne, .background, .background, .background] := by
  obtain ⟨s, hr, -⟩ := second_process
  exact sessions_linearized (Env.ideal_noDriverError _) (by decide) tiny_fresh hr

/-- The second process is served. -/
theorem sessions_served_two : ∃ (s s' : State Bool) (r : Answer),
    Step (.ideal tinyGeometry) s (.serve true getOne zeroed false r) s' := by
  obtain ⟨s, hr, hp, -⟩ := second_process
  have hok : CallOk (.ideal tinyGeometry) getOne.2 zeroed false s.store getOne.1 :=
    ⟨fun req hreq => by cases hreq; trivial, rfl, List.length_replicate, zeroed_ends⟩
  obtain ⟨r, s', hs⟩ := sessions_served (Env.ideal_noDriverError _) (by decide) tiny_fresh hr hp hok
  exact ⟨s, s', r, hs⟩

end Calls

/-! ## The flag -/

section Flag
variable {s s' : State P} {store : Config} {as : List (Act P)}

/-- Where the flag is set, a process has the device open. -/
theorem held_step {d d' : Device.State P} {b : Device.Act P} (hd : d.fileIsOpen ≠ 0 → ∃ p, d.pc p = .opened)
    (h : Device.Step d b d') : d'.fileIsOpen ≠ 0 → ∃ p, d'.pc p = .opened := by
  have hkept : ∀ {p : P} {x : Device.Pc}, d.pc p ≠ .opened → d.fileIsOpen ≠ 0 →
      ∃ q, Function.update d.pc p x q = .opened := by
    intro p x hp hflag
    obtain ⟨q, hq⟩ := hd hflag
    have hne : q ≠ p := fun he => hp (he ▸ hq)
    exact ⟨q, by rwa [Function.update_of_ne hne]⟩
  cases b with
  | read p =>
    rw [Device.Step, Device.step] at h
    split at h
    · next hout =>
      obtain rfl := Option.some.inj h
      exact hkept (by rw [hout]; decide)
    · cases h
  | busy p =>
    rw [Device.Step, Device.step] at h
    cases hp : d.pc p with
    | out => rw [hp] at h; cases h
    | opened => rw [hp] at h; cases h
    | checked n =>
      rw [hp] at h
      simp only at h
      split at h
      · obtain rfl := Option.some.inj h
        exact hkept (by rw [hp]; exact Device.Pc.noConfusion)
      · cases h
  | set p =>
    rw [Device.Step, Device.step] at h
    split at h
    · obtain rfl := Option.some.inj h
      exact fun _ => ⟨p, Function.update_self ..⟩
    · cases h
  | release p =>
    rw [Device.Step, Device.step] at h
    split at h
    · obtain rfl := Option.some.inj h
      exact fun hne => absurd rfl hne
    · cases h

/-- In every interleaving in which a process that finds the device free reads alone, whatever its calls get, the flag
is set exactly while some process has the device open, in a call or by a descriptor that a call left. -/
theorem flag_iff_open (hr : Run (fun s a s' => Alone s a ∧ Step env s a s') (.start store : State P) as s) :
    s.fileIsOpen ≠ 0 ↔ ∃ p, s.left p = true ∨ (s.pc p).device = .opened := by
  obtain ⟨hH, hflag⟩ := hr.invariant
    (I := fun s => Held s ∧ (s.device.fileIsOpen ≠ 0 → ∃ p, s.device.pc p = .opened)) (fun s a s' hI hs => by
      refine ⟨hs.2.held hI.1 hs.1, ?_⟩
      obtain hsame | ⟨b, hb, -⟩ := hs.2.device hI.1
      · rw [hsame]
        exact hI.2
      · exact held_step hI.2 hb) ⟨Held.start store, fun hne => absurd rfl hne⟩
  have hopen : ∀ p, s.device.pc p = .opened ↔ s.left p = true ∨ (s.pc p).device = .opened := by
    intro p
    cases hl : s.left p with
    | false => rw [device_pc hl, or_iff_right Bool.false_ne_true]
    | true => exact ⟨fun _ => .inl rfl, fun _ => device_left hl⟩
  constructor
  · intro hne
    obtain ⟨p, hp⟩ := hflag hne
    exact ⟨p, (hopen p).mp hp⟩
  · rintro ⟨p, hp⟩
    exact hH.open_inv.flagged p ((hopen p).mpr hp)

/-- The `ioctl` of a `kvlib_get` fails. No process is in a call any more, and the next one finds the device busy. -/
theorem flag_iff_open_abandoned : ∃ s : State Bool, Run (fun s a s' => Alone s a ∧ Step (.ideal tinyGeometry) s a s')
    (.start (Env.ideal tinyGeometry).start) [.call false getOne, .read false, .set false, .enter false,
      .fail false getOne, .abandon false, .leave false getOne (-2, []), .call true getOne, .read true,
      .busy true getOne, .leave true getOne (-1, [])] s ∧ (∀ p, s.pc p = .idle) ∧ s.fileIsOpen ≠ 0 := by
  obtain ⟨s, hr, hidle, hleft⟩ : ∃ s : State Bool, Run (fun s a s' => Alone s a ∧ Step (.ideal tinyGeometry) s a s')
      (.start (Env.ideal tinyGeometry).start) [.call false getOne, .read false, .set false, .enter false,
        .fail false getOne, .abandon false, .leave false getOne (-2, []), .call true getOne, .read true,
        .busy true getOne, .leave true getOne (-1, [])] s ∧ (∀ p, s.pc p = .idle) ∧ s.left false = true := by
    refine ⟨_, .cons ⟨trivial, .call rfl⟩ (.cons ⟨?_, .read rfl⟩ (.cons ⟨trivial, .set rfl⟩
      (.cons ⟨trivial, .enter rfl⟩ (.cons ⟨trivial, .fail rfl⟩ (.cons ⟨trivial, .abandon rfl rfl⟩
      (.cons ⟨trivial, .leave rfl⟩ (.cons ⟨trivial, .call rfl⟩ (.cons ⟨fun h => absurd h (by decide), .read rfl⟩
      (.cons ⟨trivial, .busy rfl (by decide)⟩ (.cons ⟨trivial, .leave rfl⟩ (.nil _))))))))))), fun p => ?_, rfl⟩
    · rintro - q hq
      cases q with
      | false => exact absurd rfl hq
      | true => exact Device.Pc.noConfusion
    · cases p with
      | false => rfl
      | true => rfl
  exact ⟨s, hr, hidle, (flag_iff_open hr).mpr ⟨false, .inl hleft⟩⟩

end Flag

end LkpProjects.Serial.Sessions
