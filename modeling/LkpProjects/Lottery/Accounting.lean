import LkpProjects.Lottery.Classes

/-! # The queue and the ticket counter

`QueueInv` holds in every run and in both builds: the queue has each runnable lottery task once. What
a step adds to or takes from the counter is then the ticket of the task it moves, but for one path:
in the list build `prio_changed_lottery` adds every queued ticket to `total_ticket` once more. So the
counter is exact (`Counted`) in every run that does not take that path.
-/
namespace LkpProjects.Lottery
open WeightedTree Stepwise
set_option autoImplicit false

variable {T : Type} [DecidableEq T] {env : Env T} {s s' : Sched T} {p q : T}

/-! ## What a move in or out of the queue does -/

/-- A task without what a move changes in it: the flag and the subtree sum. -/
def TaskStruct.kept (t : TaskStruct T) : TaskStruct T := setOnRq false t.bare

/-- The effect of `enqueue_task_lottery` and `dequeue_task_lottery`. -/
structure Requeued (env : Env T) (s s' : Sched T) (xs : List T) (total : UInt64) (n : ℤ) : Prop where
  queued : (s'.queued env).Perm xs
  bare : ∀ q, (s'.tasks q).bare = (s.tasks q).bare
  total : s'.totalTicket = total
  running : s'.lotteryRq.nrRunning = s.lotteryRq.nrRunning + n
  live : s'.live = s.live

/-- The effect of `activate_task` and `deactivate_task`. -/
structure Moved (env : Env T) (s s' : Sched T) (p : T) (on : Bool) (xs : List T) (total : UInt64)
    (n : ℤ) : Prop where
  queued : (s'.queued env).Perm xs
  kept : ∀ q, (s'.tasks q).kept = (s.tasks q).kept
  onRq : ∀ q, (s'.tasks q).onRq = if q = p then on else (s.tasks q).onRq
  total : s'.totalTicket = total
  running : s'.lotteryRq.nrRunning = s.lotteryRq.nrRunning + n
  live : s'.live = s.live

section Kept
omit [DecidableEq T]
variable {t t' : TaskStruct T}

theorem ticket_of_kept (h : t'.kept = t.kept) : t'.ticket = t.ticket :=
  congrArg (fun b => b.ticket) h

theorem schedClass_of_kept (h : t'.kept = t.kept) : t'.schedClass = t.schedClass :=
  congrArg (fun b => b.schedClass) h

theorem nodeTicket_of_kept (h : t'.kept = t.kept) : t'.lotteryTask.ticket = t.lotteryTask.ticket :=
  congrArg (fun b => b.lotteryTask.ticket) h

theorem task_of_kept (h : t'.kept = t.kept) : t'.lotteryTask.task = t.lotteryTask.task :=
  congrArg (fun b => b.lotteryTask.task) h

theorem kept_of_bare (h : t'.bare = t.bare) : t'.kept = t.kept := congrArg (setOnRq false) h

theorem onRq_of_bare (h : t'.bare = t.bare) : t'.onRq = t.onRq := congrArg (fun b => b.onRq) h

theorem queued_rb (h : env.rbPolicy = true) : s.queued env = s.lotteryRq.lotteryRbRoot.inorder := by
  rw [Sched.queued, LotteryRq.queued, if_pos h]

theorem queued_list (h : env.rbPolicy = false) : s.queued env = s.lotteryRq.lotteryListHead := by
  rw [Sched.queued, LotteryRq.queued, if_neg (by simp [h])]

end Kept

omit [DecidableEq T] in
theorem Requeued.refl (env : Env T) (s : Sched T) :
    Requeued env s s (s.queued env) s.totalTicket 0 :=
  ⟨.refl _, fun _ => rfl, rfl, (Int.add_zero _).symm, rfl⟩

theorem Requeued.moved {xs : List T} {total : UInt64} {n : ℤ} (h : Requeued env s s' xs total n)
    (p : T) (on : Bool) : Moved env s (s'.modifyTask p (setOnRq on)) p on xs total n where
  queued := h.queued
  total := h.total
  running := h.running
  live := h.live
  kept q := by
    refine Eq.trans ?_ (kept_of_bare (h.bare q))
    by_cases hq : q = p
    · rw [hq, modifyTask_self]
      rfl
    · rw [modifyTask_ne _ hq]
  onRq q := by
    by_cases hq : q = p
    · rw [hq, modifyTask_self, if_pos rfl]
      rfl
    · rw [modifyTask_ne _ hq, if_neg hq, onRq_of_bare (h.bare q)]

theorem enqueue_requeued (hk : env.KeepsOrder) (s : Sched T) (p : T) :
    Requeued env s (enqueueTaskLottery env p s) (p :: s.queued env)
      (s.totalTicket + (s.tasks p).ticket) 1 := by
  cases hb : env.rbPolicy with
  | false =>
    have he : enqueueTaskLottery env p s =
        (insertLotteryTask p s).count (s.totalTicket + (s.tasks p).ticket) 1 := by
      simp only [enqueueTaskLottery, hb, Bool.false_eq_true, if_false]
      rfl
    rw [he]
    refine ⟨?_, fun _ => rfl, rfl, rfl, rfl⟩
    rw [queued_list hb, queued_list hb]
    exact List.perm_append_singleton p _
  | true =>
    have hbare : ∀ q, ((insertLotteryRbTask env p s).tasks q).bare = (s.tasks q).bare := fun q =>
      updatePostorder_bare _ s.tasks
    have he : enqueueTaskLottery env p s =
        (insertLotteryRbTask env p s).count (s.totalTicket + (s.tasks p).ticket) 1 := by
      simp only [enqueueTaskLottery, hb, if_true]
      rw [ticket_of_kept (kept_of_bare (hbare p))]
      rfl
    rw [he]
    refine ⟨?_, hbare, rfl, rfl, rfl⟩
    rw [queued_rb hb, queued_rb hb]
    show (env.rbInsertColor p _).inorder.Perm _
    rw [hk.insertColor]
    exact inorder_link p _

theorem dequeue_requeued (hk : env.KeepsOrder) (s : Sched T) (p : T) :
    Requeued env s (dequeueTaskLottery env p s) ((s.queued env).erase p)
      (s.totalTicket - (s.tasks p).ticket) (-1) := by
  cases hb : env.rbPolicy with
  | false =>
    have he : dequeueTaskLottery env p s =
        (removeLotteryTask p s).count (s.totalTicket - (s.tasks p).ticket) (-1) := by
      simp only [dequeueTaskLottery, hb, Bool.false_eq_true, if_false]
      rfl
    rw [he]
    refine ⟨?_, fun _ => rfl, rfl, rfl, rfl⟩
    rw [queued_list hb, queued_list hb]
    exact .refl _
  | true =>
    have hbare : ∀ q, ((removeLotteryRbTask env p s).tasks q).bare = (s.tasks q).bare := fun q =>
      updatePostorder_bare _ s.tasks
    have he : dequeueTaskLottery env p s =
        (removeLotteryRbTask env p s).count (s.totalTicket - (s.tasks p).ticket) (-1) := by
      simp only [dequeueTaskLottery, hb, if_true]
      rw [ticket_of_kept (kept_of_bare (hbare p))]
      rfl
    rw [he]
    refine ⟨?_, hbare, rfl, rfl, rfl⟩
    rw [queued_rb hb, queued_rb hb]
    show (env.rbErase p _).inorder.Perm _
    rw [hk.erase]

theorem activateTask_moved (hk : env.KeepsOrder) (s : Sched T) (p : T) :
    Moved env s (activateTask env p s) p true
      (if (s.tasks p).schedClass = .lottery then p :: s.queued env else s.queued env)
      (if (s.tasks p).schedClass = .lottery then s.totalTicket + (s.tasks p).ticket
        else s.totalTicket)
      (if (s.tasks p).schedClass = .lottery then 1 else 0) := by
  unfold activateTask enqueueTask
  cases (s.tasks p).schedClass with
  | lottery => exact (enqueue_requeued hk s p).moved p true
  | rt => exact (Requeued.refl env s).moved p true
  | fair => exact (Requeued.refl env s).moved p true

theorem deactivateTask_moved (hk : env.KeepsOrder) (s : Sched T) (p : T) :
    Moved env s (deactivateTask env p s) p false
      (if (s.tasks p).schedClass = .lottery then (s.queued env).erase p else s.queued env)
      (if (s.tasks p).schedClass = .lottery then s.totalTicket - (s.tasks p).ticket
        else s.totalTicket)
      (if (s.tasks p).schedClass = .lottery then -1 else 0) := by
  unfold deactivateTask dequeueTask
  cases (s.tasks p).schedClass with
  | lottery => exact (dequeue_requeued hk s p).moved p false
  | rt => exact (Requeued.refl env s).moved p false
  | fair => exact (Requeued.refl env s).moved p false

/-! ## The queue holds the runnable lottery tasks -/

structure QueueInv (env : Env T) (s : Sched T) : Prop where
  nodup : (s.queued env).Nodup
  mem : ∀ p, p ∈ s.queued env ↔ (s.tasks p).onRq = true ∧ (s.tasks p).schedClass = .lottery
  live : ∀ p, s.live p = false → (s.tasks p).onRq = false
  synced : ∀ p, s.live p = true → (s.tasks p).schedClass = .lottery →
    (s.tasks p).lotteryTask.ticket = (s.tasks p).ticket
  running : s.lotteryRq.nrRunning = (s.queued env).length

namespace QueueInv

omit [DecidableEq T] in
theorem not_mem (hQ : QueueInv env s) (h : (s.tasks p).onRq = false) : p ∉ s.queued env := by
  intro hm
  rw [((hQ.mem p).mp hm).1] at h
  cases h

omit [DecidableEq T] in
theorem live_of_mem (hQ : QueueInv env s) (h : p ∈ s.queued env) : s.live p = true := by
  by_contra hl
  have hoff := hQ.live p (by simpa using hl)
  rw [((hQ.mem p).mp h).1] at hoff
  cases hoff

/-- A task that is off the run queue may be rewritten. -/
theorem modifyTask (hQ : QueueInv env s) {f : TaskStruct T → TaskStruct T}
    (hoff : (s.tasks p).onRq = false) (hf : (f (s.tasks p)).onRq = false)
    (hs : (f (s.tasks p)).schedClass = .lottery →
      (f (s.tasks p)).lotteryTask.ticket = (f (s.tasks p)).ticket) :
    QueueInv env (s.modifyTask p f) where
  nodup := hQ.nodup
  running := hQ.running
  mem q := by
    by_cases h : q = p
    · subst h
      rw [modifyTask_self, hf]
      simpa using hQ.not_mem hoff
    · rw [modifyTask_ne f h]
      exact hQ.mem q
  live q hq := by
    by_cases h : q = p
    · rw [h, modifyTask_self, hf]
    · rw [modifyTask_ne f h]
      exact hQ.live q hq
  synced q hq := by
    by_cases h : q = p
    · rw [h, modifyTask_self]
      exact hs
    · rw [modifyTask_ne f h]
      exact hQ.synced q hq

omit [DecidableEq T] in
/-- What no move changes. -/
theorem synced_of_kept (hQ : QueueInv env s) (hkept : ∀ q, (s'.tasks q).kept = (s.tasks q).kept)
    (hlive : s'.live = s.live) (q : T) (hq : s'.live q = true)
    (hc : (s'.tasks q).schedClass = .lottery) :
    (s'.tasks q).lotteryTask.ticket = (s'.tasks q).ticket := by
  rw [nodeTicket_of_kept (hkept q), ticket_of_kept (hkept q)]
  exact hQ.synced q (by rwa [← hlive]) (by rwa [← schedClass_of_kept (hkept q)])

theorem activate (hQ : QueueInv env s) (hk : env.KeepsOrder) (hl : s.live p = true)
    (hoff : (s.tasks p).onRq = false) : QueueInv env (activateTask env p s) := by
  have hp := hQ.not_mem hoff
  obtain ⟨hq, hkept, hon, -, hrun, hlive⟩ := activateTask_moved hk s p
  refine ⟨?_, fun q => ?_, fun q hq' => ?_, hQ.synced_of_kept hkept hlive, ?_⟩
  · rw [hq.nodup_iff]
    split
    · exact List.nodup_cons.mpr ⟨hp, hQ.nodup⟩
    · exact hQ.nodup
  · rw [hq.mem_iff, hon, schedClass_of_kept (hkept q)]
    by_cases h : q = p
    · subst h
      by_cases hc : (s.tasks q).schedClass = .lottery <;> simp [hc, hp]
    · rw [if_neg h, ← hQ.mem q]
      split <;> simp [h]
  · have hne : q ≠ p := by
      rintro rfl
      rw [hlive, hl] at hq'
      cases hq'
    rw [hon, if_neg hne]
    exact hQ.live q (by rwa [← hlive])
  · rw [hrun, hQ.running, hq.length_eq]
    split <;> simp

theorem deactivate (hQ : QueueInv env s) (hk : env.KeepsOrder) (hon : (s.tasks p).onRq = true) :
    QueueInv env (deactivateTask env p s) := by
  obtain ⟨hq, hkept, hoff, -, hrun, hlive⟩ := deactivateTask_moved hk s p
  have hp : (s.tasks p).schedClass = .lottery → p ∈ s.queued env := fun h => (hQ.mem p).mpr ⟨hon, h⟩
  refine ⟨?_, fun q => ?_, fun q hq' => ?_, hQ.synced_of_kept hkept hlive, ?_⟩
  · rw [hq.nodup_iff]
    split
    · exact hQ.nodup.erase p
    · exact hQ.nodup
  · rw [hq.mem_iff, hoff, schedClass_of_kept (hkept q)]
    by_cases h : q = p
    · subst h
      by_cases hc : (s.tasks q).schedClass = .lottery
      · simp [hc, hQ.nodup.mem_erase_iff]
      · simpa [hc] using fun h => hc ((hQ.mem q).mp h).2
    · rw [if_neg h, ← hQ.mem q]
      split
      · rw [hQ.nodup.mem_erase_iff]
        simp [h]
      · exact Iff.rfl
  · rw [hoff]
    split
    · rfl
    · exact hQ.live q (by rwa [← hlive])
  · rw [hrun, hQ.running, hq.length_eq]
    split
    · next hc =>
      rw [List.length_erase_of_mem (hp hc)]
      have := List.length_pos_of_mem (hp hc)
      omega
    · simp

/-- Memory comes into use or goes out of use. -/
theorem setLive (hQ : QueueInv env s) (b : Bool) (hb : b = false → (s.tasks p).onRq = false)
    (hs : b = true → (s.tasks p).schedClass = .lottery →
      (s.tasks p).lotteryTask.ticket = (s.tasks p).ticket) :
    QueueInv env { s with live := Function.update s.live p b } where
  nodup := hQ.nodup
  mem := hQ.mem
  running := hQ.running
  live q hq := by
    by_cases h : q = p
    · subst h
      exact hb (by simpa using hq)
    · exact hQ.live q (by simpa [h] using hq)
  synced q hq := by
    by_cases h : q = p
    · subst h
      exact hs (by simpa using hq)
    · exact hQ.synced q (by simpa [h] using hq)

end QueueInv

/-! ## The counter -/

/-- The tickets of the queued tasks. -/
def queuedTickets (env : Env T) (s : Sched T) : UInt64 :=
  ((s.queued env).map fun p => (s.tasks p).ticket).sum

def Counted (env : Env T) (s : Sched T) : Prop := s.totalTicket = queuedTickets env s

theorem Moved.queuedTickets {on : Bool} {xs : List T} {total : UInt64} {n : ℤ}
    (h : Moved env s s' p on xs total n) :
    queuedTickets env s' = (xs.map fun p => (s.tasks p).ticket).sum := by
  have hf : (fun p => (s'.tasks p).ticket) = fun p => (s.tasks p).ticket := by
    funext q
    exact ticket_of_kept (h.kept q)
  rw [Lottery.queuedTickets, hf]
  exact (h.queued.map _).sum_eq

namespace Counted

theorem activate (hC : Counted env s) (hk : env.KeepsOrder) (p : T) :
    Counted env (activateTask env p s) := by
  have hm := activateTask_moved hk s p
  rw [Counted, hm.queuedTickets, hm.total, hC]
  split
  · rw [List.map_cons, List.sum_cons, UInt64.add_comm]
    rfl
  · rfl

theorem deactivate (hC : Counted env s) (hk : env.KeepsOrder)
    (hp : (s.tasks p).schedClass = .lottery → p ∈ s.queued env) :
    Counted env (deactivateTask env p s) := by
  have hm := deactivateTask_moved hk s p
  rw [Counted, hm.queuedTickets, hm.total, hC]
  split
  · next hc =>
    rw [queuedTickets, ← List.sum_map_erase (fun q => (s.tasks q).ticket) (hp hc)]
    abel
  · rfl

omit [DecidableEq T] in
theorem congr (hC : Counted env s) (ht : s'.totalTicket = s.totalTicket)
    (hq : s'.queued env = s.queued env)
    (h : ∀ q ∈ s.queued env, (s'.tasks q).ticket = (s.tasks q).ticket) : Counted env s' := by
  rw [Counted, queuedTickets, ht, hC, queuedTickets, hq, List.map_congr_left h]

theorem modifyTask (hC : Counted env s) (hp : p ∉ s.queued env)
    (f : TaskStruct T → TaskStruct T) : Counted env (s.modifyTask p f) := by
  refine hC.congr rfl rfl fun q hq => ?_
  rw [modifyTask_ne f (ne_of_mem_of_not_mem hq hp)]

end Counted

/-! ## One step -/

/-- The priority hook finds the ticket already set; in the list build it still walks the list. -/
theorem prioChangedLottery_eq (h : (s.tasks p).ticket = (s.tasks p).rtPriority.toUInt64) :
    prioChangedLottery env p s = if env.rbPolicy then s else
      { s with totalTicket := prioChangedWalk s.tasks p 0 s.lotteryRq.lotteryListHead s.totalTicket } := by
  have hm : s.modifyTask p (fun t => { t with ticket := t.rtPriority.toUInt64 }) = s :=
    modifyTask_eq_self _ (by simp only [← h])
  have hd : ticketDiff (s.tasks p) = 0 := by
    rw [ticketDiff, ← h, UInt64.sub_self]
    rfl
  rw [prioChangedLottery, hm, hd]

/-- The call sets the tickets of a queued task that is a lottery task already. -/
def ResetsQueued (s : Sched T) : Request T → Prop
  | .setscheduler p policy prio denied =>
      (s.tasks p).onRq = true ∧ (s.tasks p).schedClass = .lottery ∧
        (policy.getD ((s.tasks p).policy, (s.tasks p).schedResetOnFork)).1 = .lottery ∧
        1 ≤ prio ∧ prio ≤ 99 ∧ denied = none
  | _ => False

/-- What a call writes into a task that is off the run queue. -/
def Rewrite (s : Sched T) (req : Request T) (p : T) (t : TaskStruct T) : Prop :=
  t.onRq = false ∧ (t.schedClass = .lottery → t.lotteryTask.ticket = t.ticket) ∧
    match req with
    | .setscheduler _ _ _ _ => t.schedClass = .lottery → t.lotteryTask.task = some p
    | .fork parent _ => t.schedClass = .lottery → (s.tasks parent).schedClass = .lottery
    | _ => False

/-- What the parts of a call preserve, while the queue invariant holds. -/
structure Carried (env : Env T) (s₀ : Sched T) (req : Request T) (I : Sched T → Prop) : Prop where
  activate : ∀ s p, QueueInv env s → s.live p = true → (s.tasks p).onRq = false → I s →
    I (activateTask env p s)
  deactivate : ∀ s p, QueueInv env s → (s.tasks p).onRq = true → I s → I (deactivateTask env p s)
  rewrite : ∀ s p f, QueueInv env s → (s.tasks p).onRq = false → Rewrite s₀ req p (f (s.tasks p)) →
    I s → I (s.modifyTask p f)
  setLive : ∀ s p b, (b = true → Rewrite s₀ req p (s.tasks p)) → I s →
    I { s with live := Function.update s.live p b }
  hook : ∀ s total, env.rbPolicy = false → ResetsQueued s₀ req → I s →
    I { s with totalTicket := total }

section Step
variable {I : Sched T → Prop}

omit [DecidableEq T] in
theorem setTask_rewrite {policy : Option (Policy × Bool)} {prio : ℤ} {denied : Option ℤ}
    {pol : Policy × Bool} (hlo : 0 ≤ prio) (hhi : prio ≤ 99) {t : TaskStruct T} (ht : t.onRq = false) :
    Rewrite s (.setscheduler p policy prio denied) p (setTask p pol prio t) := by
  have h : (setTask p pol prio t).schedClass = .lottery → pol.1 = .lottery := by
    intro hc
    rw [setTask_schedClass] at hc
    exact classOf_eq_lottery.mp hc
  exact ⟨setTask_onRq.trans ht, fun hc => (setTask_tickets (h hc) hlo hhi).2.1,
    fun hc => (setTask_tickets (h hc) hlo hhi).2.2⟩

/-- A task is taken off the run queue, rewritten and put back, and the hook of its class is called. -/
def requeue (env : Env T) (p : T) (f : TaskStruct T → TaskStruct T) (s : Sched T) : Sched T :=
  let s₁ := (if (s.tasks p).onRq then deactivateTask env p s else s).modifyTask p f
  if (s.tasks p).onRq then
    checkClassChanged env p (s.tasks p).schedClass (activateTask env p s₁) else s₁

theorem requeue_keeps (hQ : QueueInv env s) (hk : env.KeepsOrder) (hl : s.live p = true)
    {req : Request T} {f : TaskStruct T → TaskStruct T}
    (hw : ∀ t, t.onRq = false → Rewrite s req p (f t))
    (hticket : ∀ t, (f t).schedClass = .lottery → (f t).ticket = (f t).rtPriority.toUInt64)
    (hreset : ∀ t, (f t).schedClass = .lottery → (s.tasks p).onRq = true →
      (s.tasks p).schedClass = .lottery → ResetsQueued s req)
    (hI : Carried env s req I) (hs : I s) :
    QueueInv env (requeue env p f s) ∧ I (requeue env p f s) := by
  unfold requeue
  cases hon : (s.tasks p).onRq with
  | false =>
    have hw := hw (s.tasks p) hon
    exact ⟨hQ.modifyTask hon hw.1 hw.2.1, hI.rewrite s p _ hQ hon hw hs⟩
  | true =>
    simp only [if_true]
    have hm₁ := deactivateTask_moved hk s p
    have hoff : ((deactivateTask env p s).tasks p).onRq = false := by rw [hm₁.onRq, if_pos rfl]
    have hw := hw _ hoff
    have hQ₁ := hQ.deactivate hk hon
    have hQ₂ := hQ₁.modifyTask hoff hw.1 hw.2.1
    have hI₂ := hI.rewrite _ p _ hQ₁ hoff hw (hI.deactivate s p hQ hon hs)
    have hset : ((deactivateTask env p s).modifyTask p f).tasks p =
        f ((deactivateTask env p s).tasks p) := modifyTask_self f
    have hoff₂ : (((deactivateTask env p s).modifyTask p f).tasks p).onRq = false := by
      rw [hset]
      exact hw.1
    have hl₂ : ((deactivateTask env p s).modifyTask p f).live p = true := by
      rw [modifyTask_live, hm₁.live, hl]
    have hQ₃ := hQ₂.activate hk hl₂ hoff₂
    have hI₃ := hI.activate _ p hQ₂ hl₂ hoff₂ hI₂
    have hm := activateTask_moved hk ((deactivateTask env p s).modifyTask p f) p
    obtain hsame | ⟨hprev, hcls, hhook⟩ := checkClassChanged_cases env p (s.tasks p).schedClass
      (activateTask env p ((deactivateTask env p s).modifyTask p f))
    · rw [hsame]
      exact ⟨hQ₃, hI₃⟩
    -- the task was and is in the lottery class, so the hook runs
    rw [schedClass_of_kept (hm.kept p), hset] at hcls
    have hticket₃ : ((activateTask env p ((deactivateTask env p s).modifyTask p f)).tasks p).ticket =
        ((activateTask env p ((deactivateTask env p s).modifyTask p f)).tasks p).rtPriority.toUInt64 := by
      have hrtp := congrArg (fun b => b.rtPriority) (hm.kept p)
      have hrtp : ((activateTask env p ((deactivateTask env p s).modifyTask p f)).tasks p).rtPriority =
          (((deactivateTask env p s).modifyTask p f).tasks p).rtPriority := hrtp
      rw [ticket_of_kept (hm.kept p), hrtp, hset]
      exact hticket _ hcls
    rw [hhook, prioChangedLottery_eq hticket₃]
    cases hb : env.rbPolicy with
    | true => exact ⟨hQ₃, hI₃⟩
    | false =>
      exact ⟨⟨hQ₃.nodup, hQ₃.mem, hQ₃.live, hQ₃.synced, hQ₃.running⟩,
        hI.hook _ _ hb (hreset _ hcls hon hprev) hI₃⟩

/-- The call is refused, or requeues the task. -/
theorem setscheduler_keeps (hQ : QueueInv env s) (hk : env.KeepsOrder) (hl : s.live p = true)
    (policy : Option (Policy × Bool)) (prio : ℤ) (denied : Option ℤ)
    (hI : Carried env s (.setscheduler p policy prio denied) I) (hs : I s) :
    QueueInv env (schedSetscheduler env p policy prio denied s).2 ∧
      I (schedSetscheduler env p policy prio denied s).2 := by
  obtain he | ⟨pol, hpol, hlo, hhi, hrt, hden, s₁, rfl, he⟩ :=
    schedSetscheduler_cases env p policy prio denied s
  · rw [he]
    exact ⟨hQ, hs⟩
  have hlottery : ∀ t : TaskStruct T, (setTask p pol prio t).schedClass = .lottery →
      pol.1 = .lottery := by
    intro t hc
    rw [setTask_schedClass] at hc
    exact classOf_eq_lottery.mp hc
  have hkeep := requeue_keeps (f := setTask p pol prio) hQ hk hl
    (fun _ hoff => setTask_rewrite hlo hhi hoff)
    (fun t hc => (setTask_tickets (hlottery t hc) hlo hhi).1) (fun t hc hon hprev => by
      have hlot := hlottery t hc
      rw [hlot] at hrt
      have hne : prio ≠ 0 := by simpa [rtPolicy] using hrt.symm
      exact ⟨hon, hprev, hpol ▸ hlot, by omega, hhi, hden⟩) hI hs
  rw [he]
  exact hkeep

theorem fork_keeps (hQ : QueueInv env s) (hk : env.KeepsOrder) {parent child : T}
    (hp : s.live parent = true) (hc : s.live child = false)
    (hI : Carried env s (.fork parent child) I) (hs : I s) :
    QueueInv env (fork env parent child s) ∧ I (fork env parent child s) := by
  have hoff := hQ.live child hc
  have hcls : (schedFork (s.tasks parent).normalPrio (s.tasks parent)).schedClass = .lottery →
      (s.tasks parent).schedClass = .lottery := by
    intro hcls
    obtain h | h := schedFork_schedClass (t := s.tasks parent) (s.tasks parent).normalPrio
    · exact h ▸ hcls
    · rw [h] at hcls
      cases hcls
  have hw : Rewrite s (.fork parent child) child
      (schedFork (s.tasks parent).normalPrio (s.tasks parent)) := by
    refine ⟨schedFork_onRq _, fun h => ?_, hcls⟩
    rw [(schedFork_lotteryTask _).1, (schedFork_lotteryTask _).2]
    exact hQ.synced parent hp (hcls h)
  have hQ₁ : QueueInv env (s.modifyTask child fun _ =>
      schedFork (s.tasks parent).normalPrio (s.tasks parent)) := hQ.modifyTask hoff hw.1 hw.2.1
  have hI₁ : I (s.modifyTask child fun _ =>
      schedFork (s.tasks parent).normalPrio (s.tasks parent)) := hI.rewrite s child _ hQ hoff hw hs
  have hQ₂ := hQ₁.setLive (p := child) true (by simp) (by simpa using fun h => hw.2.1 h)
  have hI₂ := hI.setLive _ child true (fun _ => by simpa using hw) hI₁
  have hoff₂ : ((s.modifyTask child fun _ =>
      schedFork (s.tasks parent).normalPrio (s.tasks parent)).tasks child).onRq = false := by
    simpa using hw.1
  exact ⟨hQ₂.activate hk (by simp) hoff₂, hI.activate _ child hQ₂ (by simp) hoff₂ hI₂⟩

theorem step_keeps (hQ : QueueInv env s) (hk : env.KeepsOrder) {req : Request T}
    (hI : Carried env s req I) (hst : Step env s req s') (hs : I s) : QueueInv env s' ∧ I s' := by
  obtain ⟨hok, rfl⟩ := hst
  cases req with
  | setscheduler p policy prio denied => exact setscheduler_keeps hQ hk hok policy prio denied hI hs
  | fork parent child => exact fork_keeps hQ hk hok.1 hok.2 hI hs
  | wakeUp p => exact ⟨hQ.activate hk hok.1 hok.2, hI.activate s p hQ hok.1 hok.2 hs⟩
  | sleep p => exact ⟨hQ.deactivate hk hok.2, hI.deactivate s p hQ hok.2 hs⟩
  | exit p =>
    have hm := deactivateTask_moved hk s p
    exact ⟨(hQ.deactivate hk hok.2).setLive false (fun _ => by rw [hm.onRq, if_pos rfl]) (by simp),
      hI.setLive _ p false (by simp) (hI.deactivate s p hQ hok.2 hs)⟩

theorem carried_true (env : Env T) (s : Sched T) (req : Request T) :
    Carried env s req fun _ => True :=
  ⟨fun _ _ _ _ _ h => h, fun _ _ _ _ h => h, fun _ _ _ _ _ _ h => h, fun _ _ _ _ h => h,
    fun _ _ _ _ h => h⟩

/-- The counter is carried, unless the hook walks the list. -/
theorem carried_counted (hk : env.KeepsOrder) {req : Request T}
    (hreq : env.rbPolicy = false → ¬ ResetsQueued s req) : Carried env s req (Counted env) where
  activate _ p _ _ _ hC := hC.activate hk p
  deactivate _ p hQ hon hC := hC.deactivate hk fun hc => (hQ.mem p).mpr ⟨hon, hc⟩
  rewrite _ _ f hQ hoff _ hC := hC.modifyTask (hQ.not_mem hoff) f
  setLive _ _ _ _ hC := hC.congr rfl rfl fun _ _ => rfl
  hook _ _ hb hres _ := absurd hres (hreq hb)

end Step

/-! ## Every run -/

omit [DecidableEq T] in
theorem Boot.queued (hB : Boot s) : s.queued env = [] := by
  rw [Sched.queued, LotteryRq.queued, hB.root, hB.list]
  split <;> rfl

omit [DecidableEq T] in
theorem Boot.queueInv (hB : Boot s) : QueueInv env s where
  nodup := by
    rw [hB.queued]
    exact List.nodup_nil
  mem p := by
    rw [hB.queued]
    simp only [List.not_mem_nil, false_iff, not_and]
    intro hon
    refine hB.noLottery p ?_
    by_contra hl
    rw [hB.notLive p (by simpa using hl)] at hon
    cases hon
  live := hB.notLive
  synced p hp hc := absurd hc (hB.noLottery p hp)
  running := by
    rw [hB.queued, hB.running]
    rfl

omit [DecidableEq T] in
theorem Boot.counted (hB : Boot s) : Counted env s := by
  rw [Counted, queuedTickets, hB.queued, hB.total]
  rfl

/-- In the list build, in every run that never sets the tickets of a queued lottery task again, the
counter is the sum of the tickets of the tasks in the list. -/
theorem list_counter_exact (hk : env.KeepsOrder) (hb : env.rbPolicy = false) {s₀ s : Sched T}
    {reqs : List (Request T)} (hB : Boot s₀)
    (hr : Run (fun s req s' => ¬ ResetsQueued s req ∧ Step env s req s') s₀ reqs s) :
    s.totalTicket = (s.lotteryRq.lotteryListHead.map fun p => (s.tasks p).ticket).sum := by
  have h := hr.invariant (I := fun s => QueueInv env s ∧ Counted env s)
    (fun _ _ _ hI hs => step_keeps hI.1 hk (carried_counted hk fun _ => hs.1) hs.2 hI.2)
    ⟨hB.queueInv, hB.counted⟩
  rw [h.2, queuedTickets, queued_list hb]

/-- Task `p` enters the lottery class with five tickets, `q` of the fair class forks, and its child `c` enters
the lottery class with three. -/
def fiveAndChild (p q c : Fin 3) : List (Request (Fin 3)) :=
  [.wakeUp p, .setscheduler p (some (.lottery, false)) 5 none, .wakeUp q, .fork q c,
    .setscheduler c (some (.lottery, false)) 3 none]

def fiveAndChildEnd (rb : Bool) (p q c : Fin 3) : Sched (Fin 3) :=
  (fiveAndChild p q c).foldl (exec (.plain rb)) (Sched.boot fun t => t ≠ c)

theorem list_counter_exact_child : (fiveAndChildEnd false 0 1 2).totalTicket = 8 ∧
    (fiveAndChildEnd false 0 1 2).lotteryRq.lotteryListHead = [0, 2] := by
  have hr : Run (fun s req s' => ¬ ResetsQueued s req ∧ Step (.plain false) s req s')
      (Sched.boot fun p : Fin 3 => p ≠ 2) (fiveAndChild 0 1 2) (fiveAndChildEnd false 0 1 2) :=
    .cons ⟨fun h => h, ⟨rfl, rfl⟩, rfl⟩ (.cons ⟨fun h => SchedClass.noConfusion h.2.1, rfl, rfl⟩
      (.cons ⟨fun h => h, ⟨rfl, rfl⟩, rfl⟩ (.cons ⟨fun h => h, ⟨rfl, rfl⟩, rfl⟩
        (.cons ⟨fun h => SchedClass.noConfusion h.2.1, rfl, rfl⟩ (.nil _)))))
  refine ⟨?_, by decide +kernel⟩
  rw [list_counter_exact (Env.plain_keepsOrder false) rfl (Sched.boot_boot _) hr]
  decide +kernel

/-- A queued task is given five tickets, then seven. The list holds seven, the counter fourteen. -/
theorem reset_counts_twice :
    ∃ (s₀ s : Sched (Fin 2)) (reqs : List (Request (Fin 2))), Boot s₀ ∧
      Run (Step (.plain false)) s₀ reqs s ∧ s.totalTicket = 14 ∧
      (s.lotteryRq.lotteryListHead.map fun p => (s.tasks p).ticket).sum = 7 := by
  refine ⟨_, _, [.wakeUp 0, .setscheduler 0 (some (.lottery, false)) 5 none,
    .setscheduler 0 (some (.lottery, false)) 7 none], Sched.boot_boot fun _ => true,
    .cons ⟨⟨rfl, rfl⟩, rfl⟩ (.cons ⟨rfl, rfl⟩ (.cons ⟨rfl, rfl⟩ (.nil _))), ?_, ?_⟩
  · decide +kernel
  · decide +kernel

end LkpProjects.Lottery
