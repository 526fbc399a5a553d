import LkpProjects.Lottery.Accounting

/-! # The red-black build

With `CONFIG_SCHED_LOTTERY_RB_POLICY` the queue is a tree that every enqueue and dequeue reshapes and
then recalculates. In every run its nodes are in ticket order, every node knows the ticket sum of its
subtree, and the global counter is the sum of all queued tickets.
-/
namespace LkpProjects.Lottery
open WeightedTree Stepwise
set_option autoImplicit false

variable {T : Type} [DecidableEq T] {env : Env T} {s s' : Sched T} {p : T}

/-- In-order tickets never decrease, and the subtree sums are exact. -/
structure RbOk (s : Sched T) : Prop where
  sorted : Sorted (nodeTicket s.tasks) s.lotteryRq.lotteryRbRoot.inorder
  accu : AccuOk s.tasks s.lotteryRq.lotteryRbRoot

omit [DecidableEq T] in
theorem sorted_congr {m m' : T → TaskStruct T} {xs : List T} (h : Sorted (nodeTicket m) xs)
    (he : ∀ q ∈ xs, (m' q).lotteryTask.ticket = (m q).lotteryTask.ticket) :
    Sorted (nodeTicket m') xs := by
  refine h.imp_of_mem fun {a b} ha hb hab => ?_
  show (m' a).lotteryTask.ticket.toNat ≤ (m' b).lotteryTask.ticket.toNat
  rw [he a ha, he b hb]
  exact hab

namespace RbOk

omit [DecidableEq T] in
theorem congr (hR : RbOk s) (hroot : s'.lotteryRq.lotteryRbRoot = s.lotteryRq.lotteryRbRoot)
    (h : ∀ q ∈ s.lotteryRq.lotteryRbRoot.inorder, (s'.tasks q).lotteryTask.ticket =
      (s.tasks q).lotteryTask.ticket ∧
        (s'.tasks q).lotteryTask.accuTicket = (s.tasks q).lotteryTask.accuTicket) : RbOk s' where
  sorted := by
    rw [hroot]
    exact sorted_congr hR.sorted fun q hq => (h q hq).1
  accu := by
    rw [hroot]
    exact hR.accu.congr h

theorem modifyTask (hR : RbOk s) {f : TaskStruct T → TaskStruct T}
    (hf : p ∈ s.lotteryRq.lotteryRbRoot.inorder → (f (s.tasks p)).lotteryTask = (s.tasks p).lotteryTask) :
    RbOk (s.modifyTask p f) := by
  refine hR.congr rfl fun q hq => ?_
  by_cases h : q = p
  · subst h
    rw [modifyTask_self, hf hq]
    exact ⟨rfl, rfl⟩
  · rw [modifyTask_ne f h]
    exact ⟨rfl, rfl⟩

/-- Whatever tree is put in place, sorted and without repeated nodes, a recalculation makes it right. -/
theorem recalc {t : BinTree T} (hn : t.inorder.Nodup) (hs : Sorted (nodeTicket s.tasks) t.inorder) :
    RbOk (recalcAccuLottery (s.setRoot t)) where
  sorted := sorted_congr hs fun q _ => updatePostorder_ticket t s.tasks q
  accu := updatePostorder_accuOk t hn s.tasks

theorem enqueue (hR : RbOk s) (hk : env.KeepsOrder) (hb : env.rbPolicy = true)
    (hn : (s.queued env).Nodup) (hp : p ∉ s.queued env) : RbOk (enqueueTaskLottery env p s) := by
  rw [queued_rb hb] at hn hp
  have hperm : (link (nodeTicket s.tasks) p s.lotteryRq.lotteryRbRoot).inorder.Perm
      (p :: s.lotteryRq.lotteryRbRoot.inorder) := inorder_link p _
  have hrb : RbOk (insertLotteryRbTask env p s) := by
    apply RbOk.recalc
    · rw [hk.insertColor, hperm.nodup_iff, List.nodup_cons]
      exact ⟨hp, hn⟩
    · rw [hk.insertColor]
      exact sorted_link p _ hR.sorted
  rw [enqueueTaskLottery, if_pos hb]
  exact hrb.congr rfl fun _ _ => ⟨rfl, rfl⟩

theorem dequeue (hR : RbOk s) (hk : env.KeepsOrder) (hb : env.rbPolicy = true)
    (hn : (s.queued env).Nodup) (p : T) : RbOk (dequeueTaskLottery env p s) := by
  rw [queued_rb hb] at hn
  have hrb : RbOk (removeLotteryRbTask env p s) := by
    apply RbOk.recalc
    · rw [hk.erase]
      exact hn.erase p
    · rw [hk.erase]
      exact hR.sorted.sublist List.erase_sublist
  rw [dequeueTaskLottery, if_pos hb]
  exact hrb.congr rfl fun _ _ => ⟨rfl, rfl⟩

theorem activate (hR : RbOk s) (hQ : QueueInv env s) (hk : env.KeepsOrder)
    (hb : env.rbPolicy = true) (hoff : (s.tasks p).onRq = false) : RbOk (activateTask env p s) := by
  have hR' : RbOk (enqueueTask env p s) := by
    rw [enqueueTask]
    split
    · exact hR.enqueue hk hb hQ.nodup (hQ.not_mem hoff)
    · exact hR
  exact hR'.modifyTask fun _ => rfl

theorem deactivate (hR : RbOk s) (hQ : QueueInv env s) (hk : env.KeepsOrder)
    (hb : env.rbPolicy = true) : RbOk (deactivateTask env p s) := by
  have hR' : RbOk (dequeueTask env p s) := by
    rw [dequeueTask]
    split
    · exact hR.dequeue hk hb hQ.nodup p
    · exact hR
  exact hR'.modifyTask fun _ => rfl

end RbOk

theorem carried_rbOk (hk : env.KeepsOrder) (hb : env.rbPolicy = true) {req : Request T} :
    Carried env s req RbOk where
  activate _ p hQ _ hoff hR := hR.activate hQ hk hb hoff
  deactivate _ p hQ _ hR := hR.deactivate hQ hk hb
  rewrite s p f hQ hoff _ hR := hR.modifyTask fun hp => by
    rw [← queued_rb hb] at hp
    exact absurd hp (hQ.not_mem hoff)
  setLive _ _ _ _ hR := hR.congr rfl fun _ _ => ⟨rfl, rfl⟩
  hook _ _ hl _ _ := by
    rw [hb] at hl
    cases hl

omit [DecidableEq T] in
theorem Boot.rbOk (hB : Boot s) : RbOk s where
  sorted := by
    rw [hB.root]
    exact List.Pairwise.nil
  accu := by
    rw [hB.root]
    trivial

/-- The invariant of the red-black build. -/
structure RbInv (s : Sched T) : Prop where
  nodup : s.lotteryRq.lotteryRbRoot.inorder.Nodup
  mem : ∀ p, p ∈ s.lotteryRq.lotteryRbRoot.inorder ↔
    (s.tasks p).onRq = true ∧ (s.tasks p).schedClass = .lottery
  synced : ∀ p ∈ s.lotteryRq.lotteryRbRoot.inorder,
    (s.tasks p).lotteryTask.ticket = (s.tasks p).ticket
  sorted : Sorted (nodeTicket s.tasks) s.lotteryRq.lotteryRbRoot.inorder
  accu : AccuOk s.tasks s.lotteryRq.lotteryRbRoot
  running : s.lotteryRq.nrRunning = s.lotteryRq.lotteryRbRoot.inorder.length
  total : s.totalTicket = (s.lotteryRq.lotteryRbRoot.inorder.map fun p => (s.tasks p).ticket).sum

/-- In the red-black build every run keeps the tree, the node sums and both counters exact. -/
theorem rb_invariant (hk : env.KeepsOrder) (hb : env.rbPolicy = true) {s₀ s : Sched T}
    {reqs : List (Request T)} (hB : Boot s₀) (hr : Run (Step env) s₀ reqs s) : RbInv s := by
  have hnolist : env.rbPolicy = false → False := by
    rw [hb]
    exact Bool.noConfusion
  obtain ⟨hQ, hC, hR⟩ := hr.invariant (I := fun s => QueueInv env s ∧ Counted env s ∧ RbOk s)
    (fun s req s' hI hs =>
      have hC := step_keeps hI.1 hk (carried_counted hk fun h => (hnolist h).elim) hs hI.2.1
      ⟨hC.1, hC.2, (step_keeps hI.1 hk (carried_rbOk hk hb) hs hI.2.2).2⟩)
    ⟨hB.queueInv, hB.counted, hB.rbOk⟩
  have hq := queued_rb (s := s) hb
  exact {
    nodup := hq ▸ hQ.nodup
    mem := hq ▸ hQ.mem
    synced := fun p hp =>
      have hp' := (hQ.mem p).mp (hq ▸ hp)
      hQ.synced p (hQ.live_of_mem (hq ▸ hp)) hp'.2
    sorted := hR.sorted
    accu := hR.accu
    running := hq ▸ hQ.running
    total := by rw [hC, queuedTickets, hq] }

/-- Two tasks enter the lottery class while they run. -/
theorem rb_invariant_two :
    RbInv ([.wakeUp 0, .wakeUp 1, .setscheduler 0 (some (.lottery, false)) 5 none,
      .setscheduler 1 (some (.lottery, false)) 3 none].foldl (exec (.plain true))
        (Sched.boot fun _ : Fin 2 => true)) := by
  have hr : Run (Step (.plain true)) (Sched.boot fun _ : Fin 2 => true)
      [.wakeUp 0, .wakeUp 1, .setscheduler 0 (some (.lottery, false)) 5 none,
        .setscheduler 1 (some (.lottery, false)) 3 none] _ :=
    .cons ⟨⟨rfl, rfl⟩, rfl⟩ (.cons ⟨⟨rfl, rfl⟩, rfl⟩ (.cons ⟨rfl, rfl⟩ (.cons ⟨rfl, rfl⟩ (.nil _))))
  exact rb_invariant (Env.plain_keepsOrder true) rfl (Sched.boot_boot _) hr

end LkpProjects.Lottery
