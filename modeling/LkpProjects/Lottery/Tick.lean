import LkpProjects.Lottery.Share

/-! # The scheduler tick

`task_tick_lottery` passes the running task to `check_preempt_curr_lottery`, the hook that wake-ups use
too. The hook draws a winner and, when that is not the task passed in, calls `resched_task` on the
winner, where the scheduler expects it on `rq->curr`. A tick does what it is for exactly when the
winner is the running task or nobody, or when the flags of both tasks were up already
(`tick_preempts_iff`).
-/
namespace LkpProjects.Lottery
open WeightedTree Stepwise
set_option autoImplicit false

variable {T : Type} [DecidableEq T] {env : Env T}

/-- The run queue of the CPU with its running task, and the `TIF_NEED_RESCHED` flags. -/
structure Rq (T : Type) where
  sched : Sched T
  curr : T
  needResched : T → Bool

/-- `resched_task`, without the interrupt it sends to another CPU. -/
def reschedTask (p : T) (rq : Rq T) : Rq T :=
  if rq.needResched p then rq else { rq with needResched := Function.update rq.needResched p true }

/-- `check_preempt_curr_lottery`; `none` for `resched_task(NULL)`. -/
def checkPreemptCurrLottery (env : Env T) (p : T) (draw : UInt32) (rq : Rq T) : Option (Rq T) :=
  if (rq.sched.tasks rq.curr).policy ≠ .lottery then some (reschedTask rq.curr rq)
  else
    match whoIsWinner env rq.sched draw with
    | none => some rq
    | some t =>
        match (rq.sched.tasks t).lotteryTask.task with
        | none => none
        | some w => if p ≠ w then some (reschedTask w rq) else some rq

def taskTickLottery (env : Env T) (p : T) (draw : UInt32) (rq : Rq T) : Option (Rq T) :=
  checkPreemptCurrLottery env p draw rq

/-- `scheduler_tick` while a task of the lottery class runs. -/
def schedulerTick (env : Env T) (draw : UInt32) (rq : Rq T) : Option (Rq T) :=
  taskTickLottery env rq.curr draw rq

/-- The task that the draw gives the CPU to. -/
def winnerTask (env : Env T) (s : Sched T) (draw : UInt32) : Option T :=
  (whoIsWinner env s draw).bind fun t => (s.tasks t).lotteryTask.task

/-- The tick asks the running task, and no other, to make way for a winner other than itself. -/
def TickOk (env : Env T) (draw : UInt32) (rq : Rq T) : Prop :=
  ∃ rq', schedulerTick env draw rq = some rq' ∧ ∀ q, rq'.needResched q = true ↔
    rq.needResched q = true ∨
      q = rq.curr ∧ ∃ w, winnerTask env rq.sched draw = some w ∧ w ≠ rq.curr

variable {rq rq' : Rq T} {draw : UInt32} {p q w t : T}

theorem reschedTask_needResched : (reschedTask p rq).needResched q = true ↔
    rq.needResched q = true ∨ q = p := by
  unfold reschedTask
  split
  · next h =>
    constructor
    · exact .inl
    · rintro (hq | rfl)
      · exact hq
      · exact h
  · by_cases hq : q = p
    · subst hq
      simp
    · simp [hq]

/-- What the hook does for the task passed in, once a winner is drawn. -/
theorem checkPreemptCurrLottery_winner (hpol : (rq.sched.tasks rq.curr).policy = .lottery)
    (hwin : whoIsWinner env rq.sched draw = some t)
    (hw : (rq.sched.tasks t).lotteryTask.task = some w) :
    checkPreemptCurrLottery env p draw rq = some (if p ≠ w then reschedTask w rq else rq) := by
  rw [checkPreemptCurrLottery, if_neg (not_not.mpr hpol), hwin]
  simp only [hw]
  split <;> rfl

omit [DecidableEq T] in
theorem winnerTask_eq (hwin : whoIsWinner env rq.sched draw = some t)
    (hw : (rq.sched.tasks t).lotteryTask.task = some w) : winnerTask env rq.sched draw = some w := by
  rw [winnerTask, hwin]
  exact hw

/-- With a lottery task running, a tick asks the right task to make way exactly when the draw's winner is
nobody or the running task itself, or when both flags are up before the tick. -/
theorem tick_preempts_iff (rq : Rq T) (hpol : (rq.sched.tasks rq.curr).policy = .lottery)
    (draw : UInt32) : TickOk env draw rq ↔
      (∀ t, whoIsWinner env rq.sched draw = some t →
        (rq.sched.tasks t).lotteryTask.task = some rq.curr) ∨
      ∃ t w, whoIsWinner env rq.sched draw = some t ∧
        (rq.sched.tasks t).lotteryTask.task = some w ∧
        rq.needResched rq.curr = true ∧ rq.needResched w = true := by
  cases hwin : whoIsWinner env rq.sched draw with
  | none =>
    have hnone : ¬ ∃ w, winnerTask env rq.sched draw = some w ∧ w ≠ rq.curr := by
      rintro ⟨w, hw, -⟩
      rw [winnerTask, hwin] at hw
      cases hw
    refine ⟨fun _ => .inl nofun, fun _ => ⟨rq, ?_, fun q => by simp [hnone]⟩⟩
    rw [schedulerTick, taskTickLottery, checkPreemptCurrLottery, if_neg (not_not.mpr hpol), hwin]
  | some t =>
    cases hw : (rq.sched.tasks t).lotteryTask.task with
    | none =>
      constructor
      · rintro ⟨rq', htick, -⟩
        rw [schedulerTick, taskTickLottery, checkPreemptCurrLottery, if_neg (not_not.mpr hpol),
          hwin] at htick
        simp only [hw] at htick
        cases htick
      · rintro (h | ⟨t', w, ht', hw', -⟩)
        · have := h t rfl
          rw [hw] at this
          cases this
        · obtain rfl := Option.some.inj ht'
          rw [hw] at hw'
          cases hw'
    | some w =>
      have htick : schedulerTick env draw rq =
          some (if rq.curr ≠ w then reschedTask w rq else rq) :=
        checkPreemptCurrLottery_winner hpol hwin hw
      have hwinner := winnerTask_eq hwin hw
      by_cases hself : w = rq.curr
      · rw [hself] at hw hwinner htick
        rw [if_neg (not_not.mpr rfl)] at htick
        refine ⟨fun _ => .inl fun t' ht' => ?_, fun _ => ⟨rq, htick, fun q => ?_⟩⟩
        · rw [← Option.some.inj ht', hw]
        · simp [hwinner]
      · rw [if_pos (Ne.symm hself)] at htick
        have hother : ∃ w', winnerTask env rq.sched draw = some w' ∧ w' ≠ rq.curr :=
          ⟨w, hwinner, hself⟩
        constructor
        · rintro ⟨rq', h', hflags⟩
          rw [htick] at h'
          obtain rfl := Option.some.inj h'
          have hcurr := (hflags rq.curr).mpr (.inr ⟨rfl, hother⟩)
          rw [reschedTask_needResched] at hcurr
          have hflag := (hflags w).mp (reschedTask_needResched.mpr (.inr rfl))
          refine .inr ⟨t, w, rfl, hw, hcurr.resolve_right (Ne.symm hself), ?_⟩
          exact hflag.resolve_right fun h => hself h.1
        · rintro (h | ⟨t', w', ht', hw', hcurr, hup⟩)
          · have := h t rfl
            rw [hw] at this
            exact absurd (Option.some.inj this) hself
          · obtain rfl := Option.some.inj ht'
            rw [hw] at hw'
            obtain rfl := Option.some.inj hw'
            refine ⟨_, htick, fun q => ?_⟩
            rw [reschedTask_needResched]
            constructor
            · rintro (hq | rfl)
              · exact .inl hq
              · exact .inl hup
            · rintro (hq | ⟨rfl, -⟩)
              · exact .inl hq
              · exact .inl hcurr

/-- Task 0 runs; two lottery tasks with five and three tickets are queued. -/
def runningZero (rb : Bool) : Rq (Fin 2) where
  sched := fiveAndThree rb
  curr := ⟨0, Nat.zero_lt_two⟩
  needResched _ := false

/-- The generator returns 0 and task 0 wins the first of the list's tickets. -/
theorem tick_preempts_iff_self : TickOk (.plain false) 0 (runningZero false) :=
  (tick_preempts_iff (runningZero false) (by decide +kernel) 0).mpr (.inl (by decide +kernel))

/-- The generator returns 7: task 1 wins, and its own flag is set instead of that of task 0. -/
theorem tick_marks_winner : ¬ TickOk (.plain false) 7 (runningZero false) := by
  rintro ⟨rq', htick, hflags⟩
  have hwin : ∃ w, winnerTask (.plain false) (runningZero false).sched 7 = some w ∧ w ≠ 0 :=
    ⟨1, by decide +kernel, by decide⟩
  have hcurr := (hflags 0).mpr (.inr ⟨rfl, hwin⟩)
  have hres : (schedulerTick (.plain false) 7 (runningZero false)).map
      (fun rq => (rq.needResched 0, rq.needResched 1)) = some (false, true) := by decide +kernel
  rw [htick] at hres
  have hzero : rq'.needResched 0 = false := congrArg Prod.fst (Option.some.inj hres)
  rw [hzero] at hcurr
  cases hcurr

end LkpProjects.Lottery
