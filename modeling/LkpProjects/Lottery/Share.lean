import LkpProjects.Lottery.Winner
import LkpProjects.Lottery.RbTree

/-! # Shares of the draws

Both pickers give the queued tasks consecutive intervals of lucky tickets, each as long as the tickets
that the picker reads for the task, whatever the shape of the tree and the order of the list. A 32-bit
draw reduced modulo the 64-bit total hits an interval of `t` tickets between `t * ⌊2^32/T⌋` and
`t * ⌈2^32/T⌉` times. The list build reads the tickets of the task that a node points back to, and for a
forked task that is the parent, so the share is right only as long as both have the same tickets
(`proportional_share`).
-/
namespace LkpProjects.Lottery
open WeightedTree Stepwise
set_option autoImplicit false

variable {T : Type} {env : Env T} {s : Sched T} {p : T}

/-- A queue in order: no task is in it twice, the subtree sums of a tree are those of the last
recalculation, the tickets sum up to the counter, and what the picker reads fits in 64 bits. -/
structure QueueOk (env : Env T) (s : Sched T) : Prop where
  nodup : (s.queued env).Nodup
  accu : env.rbPolicy = true → AccuOk s.tasks s.lotteryRq.lotteryRbRoot
  total : s.totalTicket.toNat = total (fun p => (s.tasks p).ticket.toNat) (s.queued env)
  fits : WeightedTree.total (readTickets env s) (s.queued env) < 2 ^ 64

/-- How many of the 2^32 values of `get_random_int` make the picker return `p`. -/
def winningDraws [DecidableEq T] (env : Env T) (s : Sched T) (p : T) : ℕ :=
  Nat.count (fun r => whoIsWinner env s (UInt32.ofNat r) = some p) (2 ^ 32)

/-- Every queued task wins with a share that is its number of tickets times the share of one ticket, rounded
down or up. -/
def Proportional [DecidableEq T] (env : Env T) (s : Sched T) : Prop :=
  ∀ p ∈ s.queued env,
    (s.tasks p).ticket.toNat * (2 ^ 32 / s.totalTicket.toNat) ≤ winningDraws env s p ∧
      winningDraws env s p ≤ (s.tasks p).ticket.toNat * (2 ^ 32 ⌈/⌉ s.totalTicket.toNat)

/-- Up to any place of the queue, the picker reads as many tickets as the tasks have; past the total it may
read more. -/
def ReadsTickets (env : Env T) (s : Sched T) : Prop :=
  Exact (readTickets env s) (fun p => (s.tasks p).ticket.toNat) s.totalTicket.toNat (s.queued env)

theorem QueueOk.winningDraws_eq [DecidableEq T] (h : QueueOk env s) (hne : s.totalTicket ≠ 0) (p : T) :
    winningDraws env s p = wins (readTickets env s) s.totalTicket.toNat (2 ^ 32) (s.queued env) p := by
  refine count_congr_lt fun r hr => ?_
  rw [whoIsWinner_eq_scan hne h.accu h.fits, UInt32.toNat_ofNat_of_lt' hr]

/-- In either build, the draws are shared by the tickets when the picker reads the tickets of the tasks; and
only then, as long as no task has so many that rounding could hide what is read. -/
theorem proportional_share [DecidableEq T] (h : QueueOk env s) (hT : 1 ≤ s.totalTicket) :
    (ReadsTickets env s → Proportional env s) ∧
      ((∀ p ∈ s.queued env, (s.tasks p).ticket.toNat < 2 ^ 32 / s.totalTicket.toNat) →
        Proportional env s → ReadsTickets env s) := by
  have hpos : 0 < s.totalTicket.toNat := UInt64.le_iff_toNat_le.mp hT
  have hne : s.totalTicket ≠ 0 := by
    rintro h0
    rw [h0] at hpos
    exact absurd hpos (by decide)
  have hfair : Proportional env s ↔ Fair (readTickets env s) (fun p => (s.tasks p).ticket.toNat)
      s.totalTicket.toNat (2 ^ 32) (s.queued env) := by
    refine forall₂_congr fun p _ => ?_
    rw [h.winningDraws_eq hne]
  rw [hfair]
  exact ⟨fun hreads => hreads.fair h.nodup hpos, fun hfine hshares => hshares.exact h.nodup hpos hfine⟩

/-! ## Queues that come about -/

/-- In the list build as long as no lottery task forks, and in the tree build in any case, the picker reads the
tickets of the tasks; what is left to ask is that they sum up to the counter. -/
theorem queueOk_of_run [DecidableEq T] (hk : env.KeepsOrder) {s₀ : Sched T} {reqs : List (Request T)}
    (hB : Boot s₀)
    (hr : Run (fun s req s' => (env.rbPolicy = false → ¬ ForksLottery s req) ∧ Step env s req s') s₀ reqs s)
    (htotal : s.totalTicket.toNat = total (fun p => (s.tasks p).ticket.toNat) (s.queued env)) :
    QueueOk env s ∧ ReadsTickets env s := by
  obtain ⟨hQ, hback, hR⟩ := hr.invariant
    (I := fun s => QueueInv env s ∧ (env.rbPolicy = false → BackOk s) ∧ (env.rbPolicy = true → RbOk s))
    (fun s req s' hI hs => ⟨(step_keeps hI.1 hk (carried_true env s req) hs.2 trivial).1,
      fun hb => (step_keeps hI.1 hk (carried_backOk hk (hs.1 hb)) hs.2 (hI.2.1 hb)).2,
      fun hb => (step_keeps hI.1 hk (carried_rbOk hk hb) hs.2 (hI.2.2 hb)).2⟩)
    ⟨hB.queueInv, fun _ p hl hc => absurd hc (hB.noLottery p hl), fun _ => hB.rbOk⟩
  have hread : ∀ p ∈ s.queued env, readTickets env s p = (s.tasks p).ticket.toNat := by
    intro p hp
    have hcls := ((hQ.mem p).mp hp).2
    rw [readTickets, entryTicket]
    cases hb : env.rbPolicy with
    | true => rw [if_pos rfl, hQ.synced p (hQ.live_of_mem hp) hcls]
    | false => rw [if_neg Bool.false_ne_true, taskTicket, hback hb p (hQ.live_of_mem hp) hcls]
  have hsum : ∀ ps, ps <+: s.queued env →
      total (readTickets env s) ps = total (fun p => (s.tasks p).ticket.toNat) ps :=
    fun ps hps => total_congr fun p hp => hread p (hps.subset hp)
  refine ⟨⟨hQ.nodup, fun hb => (hR hb).accu, htotal, ?_⟩, fun ps hps => ?_⟩
  · rw [hsum _ (List.prefix_refl _), ← htotal]
    exact s.totalTicket.toNat_lt
  · rw [hsum ps hps, htotal]
    obtain ⟨qs, hqs⟩ := hps
    rw [← hqs, total_append]
    omega

/-- Two tasks with five and three tickets. -/
def fiveAndThree (rb : Bool) : Sched (Fin 2) :=
  [.wakeUp 0, .wakeUp 1, .setscheduler 0 (some (.lottery, false)) 5 none,
    .setscheduler 1 (some (.lottery, false)) 3 none].foldl (exec (.plain rb))
      (Sched.boot fun _ : Fin 2 => true)

theorem fiveAndThree_queueOk (rb : Bool) :
    QueueOk (.plain rb) (fiveAndThree rb) ∧ ReadsTickets (.plain rb) (fiveAndThree rb) := by
  have hr : Run (fun s req s' => ((Env.plain rb : Env (Fin 2)).rbPolicy = false → ¬ ForksLottery s req) ∧
      Step (.plain rb) s req s') (Sched.boot fun _ : Fin 2 => true)
      [.wakeUp 0, .wakeUp 1, .setscheduler 0 (some (.lottery, false)) 5 none,
        .setscheduler 1 (some (.lottery, false)) 3 none] (fiveAndThree rb) := by
    cases rb <;> exact .cons ⟨fun _ => id, ⟨rfl, rfl⟩, rfl⟩ (.cons ⟨fun _ => id, ⟨rfl, rfl⟩, rfl⟩
      (.cons ⟨fun _ => id, rfl, rfl⟩ (.cons ⟨fun _ => id, rfl, rfl⟩ (.nil _))))
  refine queueOk_of_run (Env.plain_keepsOrder rb) (Sched.boot_boot _) hr ?_
  cases rb <;> decide +kernel

/-- Task 0 wins five of every eight draws, in both builds. -/
theorem proportional_share_five : winningDraws (.plain false) (fiveAndThree false) 0 = 5 * 2 ^ 29 ∧
    winningDraws (.plain true) (fiveAndThree true) 0 = 5 * 2 ^ 29 := by
  have hlist := fiveAndThree_queueOk false
  have htree := fiveAndThree_queueOk true
  have hl := (proportional_share hlist.1 (by decide +kernel)).1 hlist.2 0 (by decide +kernel)
  have hr := (proportional_share htree.1 (by decide +kernel)).1 htree.2 0 (by decide +kernel)
  exact ⟨Nat.le_antisymm hl.2 hl.1, Nat.le_antisymm hr.2 hr.1⟩

/-- Task 0 enters the lottery class with five tickets, forks task 1, sleeps, and is given one ticket. -/
def childOfFive : List (Request (Fin 2)) :=
  [.wakeUp 0, .setscheduler 0 (some (.lottery, false)) 5 none, .fork 0 1, .sleep 0,
    .setscheduler 0 (some (.lottery, false)) 1 none]

/-- In the list build task 1 alone is queued, with five tickets of five, and wins one draw in five. -/
theorem child_wins_by_parent : ∃ s : Sched (Fin 2),
    Run (Step (.plain false)) (Sched.boot fun p : Fin 2 => p = 0) childOfFive s ∧ QueueOk (.plain false) s ∧
      1 ≤ s.totalTicket ∧ ∃ p ∈ s.queued (.plain false), (s.tasks p).ticket = 5 ∧ s.totalTicket = 5 ∧
        winningDraws (.plain false) s p < (s.tasks p).ticket.toNat * (2 ^ 32 / s.totalTicket.toNat) := by
  have hr : Run (Step (.plain false)) (Sched.boot fun p : Fin 2 => p = 0) childOfFive
      (childOfFive.foldl (exec (.plain false)) (Sched.boot fun p : Fin 2 => p = 0)) :=
    .cons ⟨⟨rfl, rfl⟩, rfl⟩ (.cons ⟨rfl, rfl⟩ (.cons ⟨⟨by decide, by decide⟩, rfl⟩
      (.cons ⟨⟨by decide, by decide⟩, rfl⟩ (.cons ⟨rfl, rfl⟩ (.nil _)))))
  have hs : ∃ s : Sched (Fin 2), s = childOfFive.foldl (exec (.plain false)) (Sched.boot fun p : Fin 2 => p = 0) ∧
      s.queued (.plain false) = [1] ∧ s.totalTicket = 5 ∧ (s.tasks 1).ticket = 5 ∧
        readTickets (.plain false) s 1 = 1 := ⟨_, rfl, by decide +kernel⟩
  obtain ⟨s, hend, hq, htotal, hticket, hread⟩ := hs
  rw [← hend] at hr
  have hone : s.totalTicket ≠ 0 := by rw [htotal]; decide
  have hok : QueueOk (.plain false) s := by
    refine ⟨?_, fun h => Bool.noConfusion h, ?_, ?_⟩
    · rw [hq]
      exact List.nodup_singleton 1
    · rw [hq, htotal, total_cons, hticket]
      rfl
    · rw [hq, total_cons, hread, total_nil]
      decide
  have hwins := (@wins_bounds _ (readTickets (.plain false) s) 5 (2 ^ 32) [] [] 1 _ (by simp) (by simp) (by decide)).2
  have hceil : 2 ^ 32 ⌈/⌉ 5 = 858993460 := by
    rw [Nat.ceilDiv_eq_add_pred_div]
    rfl
  rw [total_nil, Nat.zero_add, hread, hceil] at hwins
  refine ⟨s, hr, hok, by rw [htotal]; decide, 1, by rw [hq]; exact List.mem_singleton.mpr rfl, hticket, htotal, ?_⟩
  rw [hok.winningDraws_eq hone, hq, hticket, htotal]
  exact Nat.lt_of_le_of_lt hwins (by decide)

end LkpProjects.Lottery
