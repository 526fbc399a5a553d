import LkpProjects.Lottery.Pick
import LkpProjects.Library.Stepwise

/-! # The scheduler around the lottery class, on one CPU

`__sched_setscheduler`, the fork path, wake-up, sleep and exit, as far as they move tasks between the
classes and in and out of the lottery queue. The queues of the other classes are not modelled: for
their tasks only `on_rq` changes.
-/
namespace LkpProjects.Lottery
open WeightedTree Stepwise
set_option autoImplicit false

variable {T : Type} [DecidableEq T] {env : Env T} {s s' : Sched T} {p q : T}

/-! ## Policies and priorities -/

def rtPolicy : Policy → Bool
  | .fifo | .rr | .lottery => true
  | .normal | .batch | .idle => false

def classOf : Policy → SchedClass
  | .normal | .batch | .idle => .fair
  | .fifo | .rr => .rt
  | .lottery => .lottery

def maxRtPrio : ℤ := 100

/-- `NICE_TO_PRIO(0)`. -/
def defaultPrio : ℤ := maxRtPrio + 20

def normalPrio (t : TaskStruct T) : ℤ :=
  if rtPolicy t.policy then maxRtPrio - 1 - t.rtPriority.toNat else t.staticPrio

/-! ## In and out of the run queue -/

/-- `enqueue_task` of the task's class. -/
def enqueueTask (env : Env T) (p : T) (s : Sched T) : Sched T :=
  match (s.tasks p).schedClass with
  | .lottery => enqueueTaskLottery env p s
  | _ => s

/-- `dequeue_task` of the task's class. -/
def dequeueTask (env : Env T) (p : T) (s : Sched T) : Sched T :=
  match (s.tasks p).schedClass with
  | .lottery => dequeueTaskLottery env p s
  | _ => s

def setOnRq (on : Bool) (t : TaskStruct T) : TaskStruct T := { t with onRq := on }

def activateTask (env : Env T) (p : T) (s : Sched T) : Sched T :=
  (enqueueTask env p s).modifyTask p (setOnRq true)

def deactivateTask (env : Env T) (p : T) (s : Sched T) : Sched T :=
  (dequeueTask env p s).modifyTask p (setOnRq false)

/-! ## Changing the policy -/

/-- `diff`, an `int`, as it is added to a 64-bit counter. -/
def ticketDiff (t : TaskStruct T) : UInt64 :=
  (t.rtPriority.toUInt64 - t.ticket).toUInt32.toInt32.toInt64.toUInt64

/-- The list walk of `prio_changed_lottery`. -/
def prioChangedWalk (m : T → TaskStruct T) (p : T) (diff : UInt64) : List T → UInt64 → UInt64
  | [], total => total
  | t :: ts, total =>
      let total := total + taskTicket m t
      prioChangedWalk m p diff ts
        (if (m t).lotteryTask.task = some p then total + diff else total)

def prioChangedLottery (env : Env T) (p : T) (s : Sched T) : Sched T :=
  let diff := ticketDiff (s.tasks p)
  let s := s.modifyTask p fun t => { t with ticket := t.rtPriority.toUInt64 }
  if env.rbPolicy then s
  else
    { s with
      totalTicket := prioChangedWalk s.tasks p diff s.lotteryRq.lotteryListHead s.totalTicket }

/-- The `switched_from` and `switched_to` hooks of the lottery class are empty. -/
def checkClassChanged (env : Env T) (p : T) (prevClass : SchedClass) (s : Sched T) : Sched T :=
  if prevClass ≠ (s.tasks p).schedClass then s
  else match (s.tasks p).schedClass with
    | .lottery => prioChangedLottery env p s
    | _ => s

/-- `__setscheduler`; `rt_mutex_getprio` of a task without waiters is its `normal_prio`. -/
def setPolicy (policy : Policy) (prio : ℤ) (t : TaskStruct T) : TaskStruct T :=
  let t := { t with
    policy := policy, schedClass := classOf policy, rtPriority := UInt32.ofNat prio.toNat }
  { t with normalPrio := normalPrio t, prio := normalPrio t }

/-- The block for `SCHED_LOTTERY` in `__sched_setscheduler`. -/
def setTickets (p : T) (prio : ℤ) (t : TaskStruct T) : TaskStruct T :=
  { t with
    ticket := UInt64.ofNat prio.toNat
    lotteryTask :=
      { t.lotteryTask with task := some p, ticket := UInt64.ofNat prio.toNat } }

/-- What `__sched_setscheduler` writes into the task while it is off the run queue. -/
def setTask (p : T) (pol : Policy × Bool) (prio : ℤ) (t : TaskStruct T) : TaskStruct T :=
  let t := setPolicy pol.1 prio { t with schedResetOnFork := pol.2 }
  if pol.1 = .lottery then setTickets p prio t else t

def eInval : ℤ := -22

/-- `policy` is `none` for a negative argument, else the policy and its `SCHED_RESET_ON_FORK` bit.
`denied` is the error of the checks on the caller (capability, limits, owner, group, security module),
which change nothing. -/
def schedSetscheduler (env : Env T) (p : T) (policy : Option (Policy × Bool)) (prio : ℤ)
    (denied : Option ℤ) (s : Sched T) : ℤ × Sched T :=
  let t := s.tasks p
  let pol := policy.getD (t.policy, t.schedResetOnFork)
  if prio < 0 ∨ maxRtPrio - 1 < prio then (eInval, s)
  else if rtPolicy pol.1 ≠ decide (prio ≠ 0) then (eInval, s)
  else
    match denied with
    | some e => (e, s)
    | none =>
        let s := if t.onRq then deactivateTask env p s else s
        let s := s.modifyTask p (setTask p pol prio)
        (0, if t.onRq then checkClassChanged env p t.schedClass (activateTask env p s) else s)

/-! ## Fork -/

/-- `sched_fork` on the copy of the parent; `current` is the parent. -/
def schedFork (currentNormalPrio : ℤ) (t : TaskStruct T) : TaskStruct T :=
  let t := { t with onRq := false }
  let t :=
    if t.schedResetOnFork then
      let t := if t.policy = .fifo ∨ t.policy = .rr then
        { t with policy := .normal, normalPrio := t.staticPrio } else t
      let t := if t.staticPrio < defaultPrio then
        { t with staticPrio := defaultPrio, normalPrio := defaultPrio } else t
      { t with schedResetOnFork := false }
    else t
  let t := { t with prio := currentNormalPrio }
  if currentNormalPrio < maxRtPrio then t else { t with schedClass := .fair }

/-- The child is a copy of the parent, then `sched_fork` and `wake_up_new_task`. -/
def fork (env : Env T) (parent child : T) (s : Sched T) : Sched T :=
  let s' := { s with live := Function.update s.live child true }
  activateTask env child
    (s'.modifyTask child fun _ => schedFork (s.tasks parent).normalPrio (s.tasks parent))

/-! ## Runs -/

inductive Request (T : Type) where
  | setscheduler (p : T) (policy : Option (Policy × Bool)) (prio : ℤ) (denied : Option ℤ)
  | fork (parent child : T)
  | wakeUp (p : T)
  | sleep (p : T)
  | exit (p : T)

def exec (env : Env T) (s : Sched T) : Request T → Sched T
  | .setscheduler p policy prio denied => (schedSetscheduler env p policy prio denied s).2
  | .fork parent child => fork env parent child s
  | .wakeUp p => activateTask env p s
  | .sleep p => deactivateTask env p s
  | .exit p =>
      let s := deactivateTask env p s
      { s with live := Function.update s.live p false }

/-- When the kernel takes the path: a child is new memory, `try_to_wake_up` activates tasks that are
not on the run queue, `schedule` deactivates the running one. -/
def Allowed (s : Sched T) : Request T → Prop
  | .setscheduler p _ _ _ => s.live p = true
  | .fork parent child => s.live parent = true ∧ s.live child = false
  | .wakeUp p => s.live p = true ∧ (s.tasks p).onRq = false
  | .sleep p => s.live p = true ∧ (s.tasks p).onRq = true
  | .exit p => s.live p = true ∧ (s.tasks p).onRq = true

def Step (env : Env T) (s : Sched T) (req : Request T) (s' : Sched T) : Prop :=
  Allowed s req ∧ s' = exec env s req

/-- Nothing is in the lottery class yet. -/
structure Boot (s : Sched T) : Prop where
  noLottery : ∀ p, s.live p = true → (s.tasks p).schedClass ≠ .lottery
  notLive : ∀ p, s.live p = false → (s.tasks p).onRq = false
  root : s.lotteryRq.lotteryRbRoot = .nil
  list : s.lotteryRq.lotteryListHead = []
  running : s.lotteryRq.nrRunning = 0
  total : s.totalTicket = 0

/-- A kernel that has just booted, with the tasks of `live` in the fair class. -/
def Sched.boot (live : T → Bool) : Sched T where
  tasks _ := {
    policy := .normal, schedClass := .fair, staticPrio := defaultPrio, normalPrio := defaultPrio
    prio := defaultPrio, rtPriority := 0, schedResetOnFork := false, onRq := false, ticket := 0
    lotteryTask := ⟨0, 0, none⟩ }
  live := live
  lotteryRq := ⟨.nil, [], 0⟩
  totalTicket := 0

omit [DecidableEq T] in
theorem Sched.boot_boot (live : T → Bool) : Boot (Sched.boot live) :=
  ⟨fun _ _ h => SchedClass.noConfusion h, fun _ _ => rfl, rfl, rfl, rfl, rfl⟩

/-! ## What one call can do -/

/-- The outcomes of `__sched_setscheduler`: refused, or done. -/
theorem schedSetscheduler_cases (env : Env T) (p : T) (policy : Option (Policy × Bool)) (prio : ℤ)
    (denied : Option ℤ) (s : Sched T) :
    (schedSetscheduler env p policy prio denied s).2 = s ∨
    ∃ pol : Policy × Bool, pol = policy.getD ((s.tasks p).policy, (s.tasks p).schedResetOnFork) ∧
      0 ≤ prio ∧ prio ≤ 99 ∧ rtPolicy pol.1 = decide (prio ≠ 0) ∧ denied = none ∧
      ∃ s₁, s₁ = (if (s.tasks p).onRq then deactivateTask env p s else s).modifyTask p
          (setTask p pol prio) ∧
        (schedSetscheduler env p policy prio denied s).2 = if (s.tasks p).onRq then
          checkClassChanged env p (s.tasks p).schedClass (activateTask env p s₁) else s₁ := by
  unfold schedSetscheduler
  by_cases hrange : prio < 0 ∨ maxRtPrio - 1 < prio
  · left
    rw [if_pos hrange]
  · rw [if_neg hrange]
    by_cases hrt : rtPolicy (policy.getD ((s.tasks p).policy, (s.tasks p).schedResetOnFork)).1 =
        decide (prio ≠ 0)
    · rw [if_neg (not_not.mpr hrt)]
      cases denied with
      | some e => exact .inl rfl
      | none =>
        right
        have hle : 0 ≤ prio ∧ prio ≤ 99 := by
          simp only [maxRtPrio] at hrange
          omega
        exact ⟨_, rfl, hle.1, hle.2, hrt, rfl, _, rfl, rfl⟩
    · left
      rw [if_pos hrt]

/-- The hook runs only when the task is and was in the lottery class. -/
theorem checkClassChanged_cases (env : Env T) (p : T) (prevClass : SchedClass) (s : Sched T) :
    checkClassChanged env p prevClass s = s ∨ prevClass = .lottery ∧
      (s.tasks p).schedClass = .lottery ∧
      checkClassChanged env p prevClass s = prioChangedLottery env p s := by
  unfold checkClassChanged
  by_cases hc : prevClass = (s.tasks p).schedClass
  · rw [if_neg (not_not.mpr hc)]
    cases h : (s.tasks p).schedClass with
    | lottery => exact .inr ⟨hc.trans h, rfl, rfl⟩
    | rt => exact .inl rfl
    | fair => exact .inl rfl
  · left
    rw [if_pos hc]

section SetTask
omit [DecidableEq T]
variable {pol : Policy × Bool} {prio : ℤ} {t : TaskStruct T}

theorem setTask_onRq : (setTask p pol prio t).onRq = t.onRq := by
  unfold setTask
  split <;> rfl

theorem setTask_schedClass : (setTask p pol prio t).schedClass = classOf pol.1 := by
  unfold setTask
  split <;> rfl

theorem classOf_eq_lottery {policy : Policy} : classOf policy = .lottery ↔ policy = .lottery := by
  cases policy <;> simp [classOf]

theorem setTask_lottery (h : pol.1 = .lottery) :
    setTask p pol prio t = setTickets p prio (setPolicy .lottery prio { t with schedResetOnFork := pol.2 }) := by
  rw [setTask, if_pos h, h]

/-- The two copies of the ticket and the priority agree. -/
theorem setTask_tickets (h : pol.1 = .lottery) (hlo : 0 ≤ prio) (hhi : prio ≤ 99) :
    (setTask p pol prio t).ticket = (setTask p pol prio t).rtPriority.toUInt64 ∧
      (setTask p pol prio t).lotteryTask.ticket = (setTask p pol prio t).ticket ∧
      (setTask p pol prio t).lotteryTask.task = some p := by
  rw [setTask_lottery h]
  refine ⟨?_, rfl, rfl⟩
  show UInt64.ofNat prio.toNat = (UInt32.ofNat prio.toNat).toUInt64
  apply UInt64.toNat_inj.mp
  simp only [UInt64.toNat_ofNat', UInt32.toNat_toUInt64, UInt32.toNat_ofNat']
  omega

theorem schedFork_onRq (n : ℤ) : (schedFork n t).onRq = false := by
  unfold schedFork
  dsimp only
  split_ifs <;> rfl

theorem schedFork_lotteryTask (n : ℤ) : (schedFork n t).lotteryTask = t.lotteryTask ∧
    (schedFork n t).ticket = t.ticket := by
  unfold schedFork
  dsimp only
  split_ifs <;> exact ⟨rfl, rfl⟩

/-- The child is in its parent's class, or in the fair class. -/
theorem schedFork_schedClass (n : ℤ) :
    (schedFork n t).schedClass = t.schedClass ∨ (schedFork n t).schedClass = .fair := by
  unfold schedFork
  dsimp only
  split_ifs <;> simp

end SetTask

end LkpProjects.Lottery
