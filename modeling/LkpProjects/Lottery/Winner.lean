import LkpProjects.Lottery.Accounting

/-! # Whom the picker returns

`pick_next_task_lottery` returns the back pointer of the node that won, not the task the node lies in.
Setting the policy points it at the task, but a fork copies the parent's node with its pointer. As long
as no lottery task forks, the task returned is the winner itself, and it is in the queue.
-/
namespace LkpProjects.Lottery
open WeightedTree Stepwise
set_option autoImplicit false

variable {T : Type} {env : Env T} {s s' : Sched T} {p q : T}

/-! ## The winner is in the queue -/

theorem pickRbLoop_mem {m : T → TaskStruct T} {lucky : UInt64} (t : BinTree T) :
    ∀ leftTotal, pickRbLoop m lucky leftTotal t = some p → p ∈ t.inorder := by
  induction t with
  | nil =>
    intro _ h
    simp [pickRbLoop] at h
  | node l x r ihl ihr =>
    intro leftTotal h
    rw [pickRbLoop] at h
    split at h
    · exact List.mem_append_left _ (ihl _ h)
    · dsimp only at h
      split at h
      · rw [← Option.some.inj h]
        simp
      · exact List.mem_append_right _ (List.mem_cons_of_mem x (ihr _ h))

theorem pickLoop_mem {m : T → TaskStruct T} {lucky : UInt64} (ts : List T) :
    ∀ totalSoFar, pickLoop m lucky totalSoFar ts = some p → p ∈ ts := by
  induction ts with
  | nil =>
    intro _ h
    simp [pickLoop] at h
  | cons t ts ih =>
    intro totalSoFar h
    rw [pickLoop] at h
    split at h
    · rw [← Option.some.inj h]
      exact List.mem_cons_self
    · exact List.mem_cons_of_mem t (ih _ h)

theorem whoIsWinner_mem {draw : UInt32} (h : whoIsWinner env s draw = some p) :
    p ∈ s.queued env := by
  unfold whoIsWinner at h
  cases hb : env.rbPolicy with
  | true =>
    rw [hb, if_pos rfl, pickWinnerRbTask] at h
    rw [queued_rb hb]
    split at h
    · cases h
    · exact pickRbLoop_mem _ _ h
  | false =>
    rw [hb, if_neg Bool.false_ne_true, pickWinnerTask] at h
    rw [queued_list hb]
    split at h
    · cases h
    · exact pickLoop_mem _ _ h

/-! ## What the picker reads -/

/-- The ticket that the picker of the build reads for a queue node. -/
def entryTicket (env : Env T) (m : T → TaskStruct T) (p : T) : UInt64 :=
  if env.rbPolicy then (m p).lotteryTask.ticket else taskTicket m p

def readTickets (env : Env T) (s : Sched T) (p : T) : ℕ := (entryTicket env s.tasks p).toNat

/-- While the sums fit in 64 bits, the picker of either build scans the queue by the tickets it reads. -/
theorem whoIsWinner_eq_scan (hne : s.totalTicket ≠ 0)
    (haccu : env.rbPolicy = true → AccuOk s.tasks s.lotteryRq.lotteryRbRoot)
    (hfit : total (readTickets env s) (s.queued env) < 2 ^ 64) (draw : UInt32) :
    whoIsWinner env s draw =
      scan (readTickets env s) (draw.toNat % s.totalTicket.toNat + 1) 0 (s.queued env) := by
  have hlucky := @luckyOf_toNat draw s.totalTicket hne
  unfold whoIsWinner
  cases hb : env.rbPolicy with
  | true =>
    have hread : readTickets env s = nodeTicket s.tasks := by
      funext p
      rw [readTickets, entryTicket, if_pos hb]
      rfl
    rw [queued_rb hb, hread] at hfit ⊢
    rw [if_pos rfl, pickWinnerRbTask, if_neg hne, pickRbLoop_eq _ _ (haccu hb), hlucky,
      descend_eq_scan _ _ (by simp)]
    · rfl
    · simpa using hfit
    · rw [UInt64.lt_iff_toNat_lt, hlucky]
      exact Nat.succ_pos _
  | false =>
    have hread : readTickets env s = fun p => (taskTicket s.tasks p).toNat := by
      funext p
      rw [readTickets, entryTicket, if_neg (by simp [hb])]
    rw [queued_list hb, hread] at hfit ⊢
    rw [if_neg Bool.false_ne_true, pickWinnerTask, if_neg hne, pickLoop_eq, hlucky]
    · rfl
    · simpa using hfit

/-! ## The back pointer -/

variable [DecidableEq T]

/-- A lottery task's node points back at the task. -/
def BackOk (s : Sched T) : Prop :=
  ∀ p, s.live p = true → (s.tasks p).schedClass = .lottery → (s.tasks p).lotteryTask.task = some p

omit [DecidableEq T] in
theorem BackOk.of_kept (hB : BackOk s) (hkept : ∀ q, (s'.tasks q).kept = (s.tasks q).kept)
    (hlive : s'.live = s.live) : BackOk s' := by
  intro q hq hc
  rw [task_of_kept (hkept q)]
  exact hB q (by rwa [← hlive]) (by rwa [← schedClass_of_kept (hkept q)])

/-- The call forks a task of the lottery class. -/
def ForksLottery (s : Sched T) : Request T → Prop
  | .fork parent _ => (s.tasks parent).schedClass = .lottery
  | _ => False

omit [DecidableEq T] in
theorem Rewrite.back {req : Request T} {t : TaskStruct T} (h : Rewrite s req p t)
    (hreq : ¬ ForksLottery s req) (hc : t.schedClass = .lottery) : t.lotteryTask.task = some p := by
  obtain ⟨-, -, h⟩ := h
  cases req with
  | setscheduler => exact h hc
  | fork => exact absurd (h hc) hreq
  | wakeUp => exact h.elim
  | sleep => exact h.elim
  | exit => exact h.elim

theorem carried_backOk (hk : env.KeepsOrder) {req : Request T} (hreq : ¬ ForksLottery s req) :
    Carried env s req BackOk where
  activate s p _ _ _ hB :=
    have hm := activateTask_moved hk s p
    hB.of_kept hm.kept hm.live
  deactivate s p _ _ hB :=
    have hm := deactivateTask_moved hk s p
    hB.of_kept hm.kept hm.live
  rewrite s p f _ _ hw hB := by
    intro q hq hc
    by_cases h : q = p
    · subst h
      rw [modifyTask_self] at hc ⊢
      exact hw.back hreq hc
    · rw [modifyTask_ne f h] at hc ⊢
      exact hB q hq hc
  setLive s p b hw hB := by
    intro q hq hc
    by_cases h : q = p
    · subst h
      exact (hw (by simpa using hq)).back hreq hc
    · exact hB q (by simpa [h] using hq) hc
  hook _ _ _ _ hB := hB

/-- In every run in which no lottery task forks, whatever the draw and in both builds: the task that
`pick_next_task_lottery` returns is the one whose own node won, and it is in the queue. -/
theorem picks_queued_winner (hk : env.KeepsOrder) {s₀ s : Sched T} {reqs : List (Request T)}
    (hB : Boot s₀) (hr : Run (fun s req s' => ¬ ForksLottery s req ∧ Step env s req s') s₀ reqs s)
    (draw : UInt32) (p : T) (hp : pickNextTaskLottery env s draw = some p) :
    whoIsWinner env s draw = some p ∧ p ∈ s.queued env := by
  obtain ⟨hQ, hback⟩ := hr.invariant (I := fun s => QueueInv env s ∧ BackOk s)
    (fun _ _ _ hI hs => step_keeps hI.1 hk (carried_backOk hk hs.1) hs.2 hI.2)
    ⟨hB.queueInv, fun p hl hc => absurd hc (hB.noLottery p hl)⟩
  rw [pickNextTaskLottery] at hp
  split at hp
  · cases hp
  · obtain ⟨t, hwin, ht⟩ := Option.bind_eq_some_iff.mp hp
    have hmem := whoIsWinner_mem hwin
    have hself := hback t (hQ.live_of_mem hmem) ((hQ.mem t).mp hmem).2
    rw [hself] at ht
    obtain rfl := Option.some.inj ht
    exact ⟨hwin, hmem⟩

/-- A draw of 6 among eight tickets: the list begins with the five of task 0, the tree with the three of
the child. -/
theorem picks_queued_winner_child : (2 : Fin 3) ∈ (fiveAndChildEnd false 0 1 2).queued (.plain false) ∧
    (0 : Fin 3) ∈ (fiveAndChildEnd true 0 1 2).queued (.plain true) := by
  have hr : ∀ rb, Run (fun s req s' => ¬ ForksLottery s req ∧ Step (.plain rb) s req s')
      (Sched.boot fun p : Fin 3 => p ≠ 2) (fiveAndChild 0 1 2) (fiveAndChildEnd rb 0 1 2) := by
    intro rb
    have hfair : ¬ ForksLottery (([.wakeUp 0, .setscheduler 0 (some (.lottery, false)) 5 none, .wakeUp 1] :
        List (Request (Fin 3))).foldl (exec (.plain rb)) (Sched.boot fun p : Fin 3 => p ≠ 2)) (.fork 1 2) := by
      cases rb <;> exact fun h => SchedClass.noConfusion h
    cases rb <;> exact .cons ⟨id, ⟨rfl, rfl⟩, rfl⟩ (.cons ⟨id, rfl, rfl⟩ (.cons ⟨id, ⟨rfl, rfl⟩, rfl⟩
      (.cons ⟨hfair, ⟨rfl, rfl⟩, rfl⟩ (.cons ⟨id, rfl, rfl⟩ (.nil _)))))
  exact ⟨(picks_queued_winner (Env.plain_keepsOrder false) (Sched.boot_boot _) (hr false) 6 2 (by decide +kernel)).2,
    (picks_queued_winner (Env.plain_keepsOrder true) (Sched.boot_boot _) (hr true) 6 0 (by decide +kernel)).2⟩

/-- Some run ends where a draw returns a task that is not in the queue. -/
def PicksSleeper (env : Env (Fin 2)) : Prop :=
  ∃ (s₀ s : Sched (Fin 2)) (reqs : List (Request (Fin 2))), Boot s₀ ∧ Run (Step env) s₀ reqs s ∧
    ∃ draw p, pickNextTaskLottery env s draw = some p ∧ p ∉ s.queued env

/-- Task 0 enters the lottery class, forks task 1 and sleeps. Task 1 alone is queued, but its node
makes the picker return task 0. -/
theorem picksSleeper_fork (rb : Bool) : PicksSleeper (.plain rb) := by
  refine ⟨_, _, [.wakeUp 0, .setscheduler 0 (some (.lottery, false)) 5 none, .fork 0 1, .sleep 0],
    Sched.boot_boot fun p => p = 0, .cons ⟨⟨rfl, rfl⟩, rfl⟩ (.cons ⟨?_, rfl⟩ (.cons ⟨⟨?_, ?_⟩, rfl⟩
      (.cons ⟨⟨?_, ?_⟩, rfl⟩ (.nil _)))), 0, 0, ?_, ?_⟩
  · show _ = true
    cases rb <;> decide +kernel
  all_goals
    cases rb <;> decide +kernel

theorem forked_node_picks_parent : PicksSleeper (.plain false) ∧ PicksSleeper (.plain true) :=
  ⟨picksSleeper_fork false, picksSleeper_fork true⟩

end LkpProjects.Lottery
