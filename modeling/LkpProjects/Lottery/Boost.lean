import LkpProjects.Lottery.Accounting

/-! # Priority inheritance

`rt_mutex_setprio` boosts a task to the priority of a waiter and later returns it to its `normal_prio`.
It chooses the class by the priority alone, and every priority of a lottery task is a real-time one, so
the task comes back in the real-time class. A run without such a return keeps every lottery task that
has its normal priority in the lottery class and counted (`lottery_class_kept`).

`rt_mutex_getprio` is the locking code's; what it returns is part of the call.
-/
namespace LkpProjects.Lottery
open WeightedTree Stepwise
set_option autoImplicit false

variable {T : Type} [DecidableEq T] {env : Env T} {s s' s₀ : Sched T} {p q : T}

/-! ## The code -/

/-- `MAX_PRIO`. -/
def maxPrio : ℤ := maxRtPrio + 40

def rtPrio (prio : ℤ) : Bool := prio < maxRtPrio

/-- What `rt_mutex_setprio` writes into the task while it is off the run queue. -/
def boostTask (prio : ℤ) (t : TaskStruct T) : TaskStruct T :=
  { t with schedClass := if rtPrio prio then .rt else .fair, prio := prio }

/-- `rt_mutex_setprio`; its `dequeue_task` and `enqueue_task` differ from `deactivate_task` and
`activate_task` in counters that are not modelled. -/
def rtMutexSetprio (env : Env T) (p : T) (prio : ℤ) (s : Sched T) : Sched T :=
  let t := s.tasks p
  let s := if t.onRq then deactivateTask env p s else s
  let s := s.modifyTask p (boostTask prio)
  if t.onRq then checkClassChanged env p t.schedClass (activateTask env p s) else s

/-- `__setscheduler`, where `getprio` is `rt_mutex_getprio`. -/
def setPolicyPi (getprio : TaskStruct T → ℤ) (policy : Policy) (prio : ℤ) (t : TaskStruct T) :
    TaskStruct T :=
  let t := { t with
    policy := policy, schedClass := classOf policy, rtPriority := UInt32.ofNat prio.toNat }
  let t := { t with normalPrio := normalPrio t }
  { t with prio := getprio t }

/-- What `__sched_setscheduler` writes into the task while it is off the run queue. -/
def setTaskPi (getprio : TaskStruct T → ℤ) (p : T) (pol : Policy × Bool) (prio : ℤ)
    (t : TaskStruct T) : TaskStruct T :=
  let t := setPolicyPi getprio pol.1 prio { t with schedResetOnFork := pol.2 }
  if pol.1 = .lottery then setTickets p prio t else t

/-- `__sched_setscheduler` of a task that others may wait for. -/
def schedSetschedulerPi (env : Env T) (getprio : TaskStruct T → ℤ) (p : T)
    (policy : Option (Policy × Bool)) (prio : ℤ) (denied : Option ℤ) (s : Sched T) : ℤ × Sched T :=
  let t := s.tasks p
  let pol := policy.getD (t.policy, t.schedResetOnFork)
  if prio < 0 ∨ maxRtPrio - 1 < prio then (eInval, s)
  else if rtPolicy pol.1 ≠ decide (prio ≠ 0) then (eInval, s)
  else
    match denied with
    | some e => (e, s)
    | none =>
        let s := if t.onRq then deactivateTask env p s else s
        let s := s.modifyTask p (setTaskPi getprio p pol prio)
        (0, if t.onRq then checkClassChanged env p t.schedClass (activateTask env p s) else s)

/-! ## Runs -/

inductive PiRequest (T : Type) where
  | setscheduler (getprio : TaskStruct T → ℤ) (p : T) (policy : Option (Policy × Bool)) (prio : ℤ)
      (denied : Option ℤ)
  | setprio (p : T) (prio : ℤ)
  | wakeUp (p : T)
  | sleep (p : T)

def piExec (env : Env T) (s : Sched T) : PiRequest T → Sched T
  | .setscheduler getprio p policy prio denied =>
      (schedSetschedulerPi env getprio p policy prio denied s).2
  | .setprio p prio => rtMutexSetprio env p prio s
  | .wakeUp p => activateTask env p s
  | .sleep p => deactivateTask env p s

/-- When the kernel takes the path; `rt_mutex_setprio` stops at its `BUG_ON` for other priorities. -/
def PiAllowed (s : Sched T) : PiRequest T → Prop
  | .setscheduler _ p _ _ _ => s.live p = true
  | .setprio p prio => s.live p = true ∧ 0 ≤ prio ∧ prio ≤ maxPrio
  | .wakeUp p => s.live p = true ∧ (s.tasks p).onRq = false
  | .sleep p => s.live p = true ∧ (s.tasks p).onRq = true

def PiStep (env : Env T) (s : Sched T) (req : PiRequest T) (s' : Sched T) : Prop :=
  PiAllowed s req ∧ s' = piExec env s req

/-- The call does not give a `SCHED_LOTTERY` task its normal priority back through `rt_mutex_setprio`,
and in the list build it does not set the tickets of a queued lottery task again. -/
def Unharmful (env : Env T) (s : Sched T) : PiRequest T → Prop
  | .setscheduler _ p policy prio denied =>
      env.rbPolicy = false → ¬ ResetsQueued s (.setscheduler p policy prio denied)
  | .setprio p prio => ¬ ((s.tasks p).policy = .lottery ∧ prio = (s.tasks p).normalPrio)
  | .wakeUp _ => True
  | .sleep _ => True

/-- A `SCHED_LOTTERY` task that has its normal priority is in the lottery class and, if it is on the run
queue, in the lottery queue, whose tickets make up the counter. -/
def LotteryKept (env : Env T) (s : Sched T) : Prop :=
  ∀ p, s.live p = true → (s.tasks p).policy = .lottery → (s.tasks p).prio = (s.tasks p).normalPrio →
    (s.tasks p).schedClass = .lottery ∧
      ((s.tasks p).onRq = true → p ∈ s.queued env ∧ s.totalTicket = queuedTickets env s)

/-- No lottery task exists yet, neither by class nor by policy. -/
structure PiBoot (s : Sched T) : Prop extends Boot s where
  noPolicy : ∀ p, s.live p = true → (s.tasks p).policy ≠ .lottery

/-! ## One call -/

/-- The policy, the priorities and the class of a task belong together. -/
def Settled (t : TaskStruct T) : Prop :=
  t.policy = .lottery → t.prio = t.normalPrio → t.schedClass = .lottery

omit [DecidableEq T] in
theorem Settled.of_kept {t t' : TaskStruct T} (h : Settled t) (hk : t'.kept = t.kept) :
    Settled t' := by
  have hpol : t'.policy = t.policy := congrArg (fun b => b.policy) hk
  have hprio : t'.prio = t.prio := congrArg (fun b => b.prio) hk
  have hnormal : t'.normalPrio = t.normalPrio := congrArg (fun b => b.normalPrio) hk
  rw [Settled, hpol, hprio, hnormal, schedClass_of_kept hk]
  exact h

omit [DecidableEq T] in
theorem Settled.of_ticket {t : TaskStruct T} (h : Settled t) (ticket : UInt64) :
    Settled { t with ticket := ticket } := h

/-- Of the tasks, a requeue changes the one it is about, by the rewriting and by the hook's ticket. -/
theorem requeue_settled (hk : env.KeepsOrder) {f : TaskStruct T → TaskStruct T}
    (hf : ∀ t : TaskStruct T, t.kept = (s.tasks p).kept → Settled (f t))
    (h : ∀ q, s.live q = true → Settled (s.tasks q)) :
    (∀ q, (requeue env p f s).live q = true → Settled ((requeue env p f s).tasks q)) := by
  have hput : ∀ u : Sched T, u.live = s.live → (∀ q, (u.tasks q).kept = (s.tasks q).kept) →
      ∀ q, (u.modifyTask p f).live q = true → Settled ((u.modifyTask p f).tasks q) := by
    intro u hlive hkept q hq
    by_cases hqp : q = p
    · subst hqp
      rw [modifyTask_self]
      exact hf _ (hkept q)
    · rw [modifyTask_ne f hqp]
      rw [modifyTask_live, hlive] at hq
      exact (h q hq).of_kept (hkept q)
  unfold requeue
  cases hon : (s.tasks p).onRq with
  | false => exact hput s rfl fun _ => rfl
  | true =>
    simp only [if_true]
    have hm₁ := deactivateTask_moved hk s p
    have hput := hput _ hm₁.live hm₁.kept
    have hm := activateTask_moved hk ((deactivateTask env p s).modifyTask p f) p
    have hback : ∀ q, (activateTask env p ((deactivateTask env p s).modifyTask p f)).live q = true →
        Settled ((activateTask env p ((deactivateTask env p s).modifyTask p f)).tasks q) := by
      intro q hq
      rw [hm.live] at hq
      exact (hput q hq).of_kept (hm.kept q)
    obtain hsame | ⟨-, -, hhook⟩ := checkClassChanged_cases env p (s.tasks p).schedClass
      (activateTask env p ((deactivateTask env p s).modifyTask p f))
    · rw [hsame]
      exact hback
    · rw [hhook]
      intro q hq
      have htask : ((prioChangedLottery env p
          (activateTask env p ((deactivateTask env p s).modifyTask p f))).tasks q) =
          ((activateTask env p ((deactivateTask env p s).modifyTask p f)).modifyTask p
            fun t => { t with ticket := t.rtPriority.toUInt64 }).tasks q := by
        unfold prioChangedLottery
        dsimp only
        split <;> rfl
      have hlive : (prioChangedLottery env p
          (activateTask env p ((deactivateTask env p s).modifyTask p f))).live =
          (activateTask env p ((deactivateTask env p s).modifyTask p f)).live := by
        unfold prioChangedLottery
        dsimp only
        split <;> rfl
      rw [hlive] at hq
      rw [htask]
      by_cases hqp : q = p
      · subst hqp
        rw [modifyTask_self]
        exact (hback q hq).of_ticket _
      · rw [modifyTask_ne _ hqp]
        exact hback q hq

/-! ### The rewriting of a task -/

section Rewriting
omit [DecidableEq T]
variable {getprio : TaskStruct T → ℤ} {pol : Policy × Bool} {prio : ℤ} {t : TaskStruct T}

/-- Priority inheritance touches nothing but the current priority. -/
theorem setTaskPi_eq : setTaskPi getprio p pol prio t =
    { setTask p pol prio t with prio := (setTaskPi getprio p pol prio t).prio } := by
  unfold setTaskPi setTask
  split <;> rfl

theorem setTaskPi_settled : Settled (setTaskPi getprio p pol prio t) := by
  have hpol : (setTaskPi getprio p pol prio t).policy = pol.1 := by
    unfold setTaskPi
    split <;> rfl
  intro hlot _
  rw [setTaskPi_eq]
  show (setTask p pol prio t).schedClass = .lottery
  rw [setTask_schedClass, ← hpol, hlot]
  rfl

theorem boostTask_schedClass : (boostTask prio t).schedClass ≠ .lottery := by
  unfold boostTask
  dsimp only
  split <;> exact SchedClass.noConfusion

end Rewriting

theorem schedSetschedulerPi_cases (env : Env T) (getprio : TaskStruct T → ℤ) (p : T)
    (policy : Option (Policy × Bool)) (prio : ℤ) (denied : Option ℤ) (s : Sched T) :
    (schedSetschedulerPi env getprio p policy prio denied s).2 = s ∨
    ∃ pol : Policy × Bool, pol = policy.getD ((s.tasks p).policy, (s.tasks p).schedResetOnFork) ∧
      0 ≤ prio ∧ prio ≤ 99 ∧ rtPolicy pol.1 = decide (prio ≠ 0) ∧ denied = none ∧
      (schedSetschedulerPi env getprio p policy prio denied s).2 =
        requeue env p (setTaskPi getprio p pol prio) s := by
  unfold schedSetschedulerPi
  by_cases hrange : prio < 0 ∨ maxRtPrio - 1 < prio
  · left
    rw [if_pos hrange]
  · rw [if_neg hrange]
    by_cases hrt : rtPolicy (policy.getD ((s.tasks p).policy, (s.tasks p).schedResetOnFork)).1 =
        decide (prio ≠ 0)
    · rw [if_neg (not_not.mpr hrt)]
      cases denied with
      | some e => exact .inl rfl
      | none =>
        right
        simp only [maxRtPrio] at hrange
        exact ⟨_, rfl, by omega, by omega, hrt, rfl, rfl⟩
    · left
      rw [if_pos hrt]

/-! ## The invariant -/

structure PiInv (env : Env T) (s : Sched T) : Prop where
  queue : QueueInv env s
  counted : Counted env s
  settled : ∀ p, s.live p = true → Settled (s.tasks p)

namespace PiInv

omit [DecidableEq T] in
theorem lotteryKept (hI : PiInv env s) : LotteryKept env s := by
  intro p hl hpol hprio
  have hcls := hI.settled p hl hpol hprio
  exact ⟨hcls, fun hon => ⟨(hI.queue.mem p).mpr ⟨hon, hcls⟩, hI.counted⟩⟩

theorem setscheduler (hI : PiInv env s) (hk : env.KeepsOrder) (hl : s.live p = true)
    (getprio : TaskStruct T → ℤ) {policy : Option (Policy × Bool)} {prio : ℤ} {denied : Option ℤ}
    (hu : env.rbPolicy = false → ¬ ResetsQueued s (.setscheduler p policy prio denied)) :
    PiInv env (schedSetschedulerPi env getprio p policy prio denied s).2 := by
  obtain he | ⟨pol, hpol, hlo, hhi, hrt, hden, he⟩ :=
    schedSetschedulerPi_cases env getprio p policy prio denied s
  · rw [he]
    exact hI
  have hlottery : ∀ t : TaskStruct T, (setTaskPi getprio p pol prio t).schedClass = .lottery →
      pol.1 = .lottery := by
    intro t hc
    rw [setTaskPi_eq] at hc
    exact classOf_eq_lottery.mp (setTask_schedClass.symm.trans hc)
  have hw : ∀ t : TaskStruct T, t.onRq = false →
      Rewrite s (.setscheduler p policy prio denied) p (setTaskPi getprio p pol prio t) := by
    intro t hoff
    rw [setTaskPi_eq]
    have hw : Rewrite s (.setscheduler p policy prio denied) p (setTask p pol prio t) :=
      setTask_rewrite hlo hhi hoff
    exact hw
  have hticket : ∀ t : TaskStruct T, (setTaskPi getprio p pol prio t).schedClass = .lottery →
      (setTaskPi getprio p pol prio t).ticket =
        (setTaskPi getprio p pol prio t).rtPriority.toUInt64 := by
    intro t hc
    have hlot := hlottery t hc
    rw [setTaskPi_eq]
    exact (setTask_tickets hlot hlo hhi).1
  have hreset : ∀ t : TaskStruct T, (setTaskPi getprio p pol prio t).schedClass = .lottery →
      (s.tasks p).onRq = true → (s.tasks p).schedClass = .lottery →
      ResetsQueued s (.setscheduler p policy prio denied) := by
    intro t hc hon hprev
    have hlot := hlottery t hc
    rw [hlot] at hrt
    have hne : prio ≠ 0 := by simpa [rtPolicy] using hrt.symm
    exact ⟨hon, hprev, hpol ▸ hlot, by omega, hhi, hden⟩
  obtain ⟨hQ, hC⟩ := requeue_keeps hI.queue hk hl hw hticket hreset (carried_counted hk hu) hI.counted
  rw [he]
  exact ⟨hQ, hC, requeue_settled hk (fun t _ => setTaskPi_settled) hI.settled⟩

theorem setprio (hI : PiInv env s) (hk : env.KeepsOrder) (hl : s.live p = true) {prio : ℤ}
    (hu : ¬ ((s.tasks p).policy = .lottery ∧ prio = (s.tasks p).normalPrio)) :
    PiInv env (rtMutexSetprio env p prio s) := by
  -- as far as the queue is concerned, a call that sets no tickets
  have hcarry : Carried env s (.setscheduler p none 0 (some 0)) (Counted env) :=
    carried_counted hk fun _ h => absurd h.2.2.2.2.2 (Option.some_ne_none 0)
  obtain ⟨hQ, hC⟩ := requeue_keeps (f := boostTask prio) hI.queue hk hl
    (fun t hoff => ⟨hoff, fun h => absurd h boostTask_schedClass, fun h => absurd h boostTask_schedClass⟩)
    (fun t h => absurd h boostTask_schedClass) (fun t h => absurd h boostTask_schedClass) hcarry hI.counted
  refine ⟨hQ, hC, requeue_settled hk (fun t ht hpol hprio => absurd ⟨?_, ?_⟩ hu) hI.settled⟩
  · have hp : t.policy = (s.tasks p).policy := congrArg (fun b => b.policy) ht
    rw [← hp]
    exact hpol
  · have hn : t.normalPrio = (s.tasks p).normalPrio := congrArg (fun b => b.normalPrio) ht
    rw [← hn]
    exact hprio

theorem activate (hI : PiInv env s) (hk : env.KeepsOrder) (hl : s.live p = true)
    (hoff : (s.tasks p).onRq = false) : PiInv env (activateTask env p s) := by
  have hm := activateTask_moved hk s p
  refine ⟨hI.queue.activate hk hl hoff, hI.counted.activate hk p, fun q hq => ?_⟩
  rw [hm.live] at hq
  exact (hI.settled q hq).of_kept (hm.kept q)

theorem deactivate (hI : PiInv env s) (hk : env.KeepsOrder) (hon : (s.tasks p).onRq = true) :
    PiInv env (deactivateTask env p s) := by
  have hm := deactivateTask_moved hk s p
  refine ⟨hI.queue.deactivate hk hon, hI.counted.deactivate hk fun hc => ?_, fun q hq => ?_⟩
  · exact (hI.queue.mem p).mpr ⟨hon, hc⟩
  · rw [hm.live] at hq
    exact (hI.settled q hq).of_kept (hm.kept q)

theorem step (hI : PiInv env s) (hk : env.KeepsOrder) {req : PiRequest T}
    (hu : Unharmful env s req) (hs : PiStep env s req s') : PiInv env s' := by
  obtain ⟨hok, rfl⟩ := hs
  cases req with
  | setscheduler getprio p policy prio denied => exact hI.setscheduler hk hok getprio hu
  | setprio p prio => exact hI.setprio hk hok.1 hu
  | wakeUp p => exact hI.activate hk hok.1 hok.2
  | sleep p => exact hI.deactivate hk hok.2

end PiInv

omit [DecidableEq T] in
theorem PiBoot.inv (hB : PiBoot s) : PiInv env s :=
  ⟨hB.queueInv, hB.counted, fun p hl hpol => absurd hpol (hB.noPolicy p hl)⟩

/-- In every run without a return of a `SCHED_LOTTERY` task to its normal priority through
`rt_mutex_setprio` (and, in the list build, without a second setting of a queued task's tickets), a
lottery task with its normal priority is in the lottery class and counted. -/
theorem lottery_class_kept (hk : env.KeepsOrder) {reqs : List (PiRequest T)} (hB : PiBoot s₀)
    (hr : Run (fun s req s' => Unharmful env s req ∧ PiStep env s req s') s₀ reqs s) :
    LotteryKept env s :=
  (hr.invariant (fun _ _ _ hI hs => hI.step hk hs.1 hs.2) hB.inv).lotteryKept

omit [DecidableEq T] in
theorem Sched.boot_piBoot (live : T → Bool) : PiBoot (Sched.boot live) :=
  ⟨Sched.boot_boot live, fun _ _ h => Policy.noConfusion h⟩

/-- A lottery task is boosted, and gets its policy again while it is boosted. -/
theorem lottery_class_kept_boosted : LotteryKept (.plain true)
    ([.wakeUp 0, .setscheduler (fun t => t.normalPrio) 0 (some (.lottery, false)) 5 none, .setprio 0 10,
      .setscheduler (fun t => t.normalPrio) 0 (some (.lottery, false)) 5 none].foldl
        (piExec (.plain true)) (Sched.boot fun _ : Fin 2 => true)) := by
  have hr : Run (fun s req s' => Unharmful (.plain true) s req ∧ PiStep (.plain true) s req s')
      (Sched.boot fun _ : Fin 2 => true)
      [.wakeUp 0, .setscheduler (fun t => t.normalPrio) 0 (some (.lottery, false)) 5 none,
        .setprio 0 10, .setscheduler (fun t => t.normalPrio) 0 (some (.lottery, false)) 5 none] _ :=
    .cons ⟨trivial, ⟨rfl, rfl⟩, rfl⟩ (.cons ⟨Bool.noConfusion, rfl, rfl⟩
      (.cons ⟨fun h => absurd h.2 (by decide), ⟨rfl, by decide, by decide⟩, rfl⟩
        (.cons ⟨Bool.noConfusion, rfl, rfl⟩ (.nil _))))
  exact lottery_class_kept (Env.plain_keepsOrder true) (Sched.boot_piBoot _) hr

/-- A lottery task is boosted and returns to its normal priority: it has left the lottery class. -/
theorem deboost_leaves_lottery : ∃ (s₀ s : Sched (Fin 2)) (reqs : List (PiRequest (Fin 2))),
    PiBoot s₀ ∧ Run (PiStep (.plain true)) s₀ reqs s ∧ ¬ LotteryKept (.plain true) s := by
  refine ⟨_, _, [.wakeUp 0, .setscheduler (fun t => t.normalPrio) 0 (some (.lottery, false)) 5 none,
    .setprio 0 10, .setprio 0 94], Sched.boot_piBoot fun _ => true,
    .cons ⟨⟨rfl, rfl⟩, rfl⟩ (.cons ⟨rfl, rfl⟩ (.cons ⟨⟨rfl, by decide, by decide⟩, rfl⟩
      (.cons ⟨⟨rfl, by decide, by decide⟩, rfl⟩ (.nil _)))), fun h => ?_⟩
  have hcls := (h 0 (by decide +kernel) (by decide +kernel) (by decide +kernel)).1
  exact absurd hcls (by decide +kernel)

end LkpProjects.Lottery
