import LkpProjects.Lottery.RbTree
import LkpProjects.Lottery.Winner

/-! # Several CPUs

Every CPU has a lottery queue of its own, but `total_ticket` is one counter for all of them. The draw
is taken over the counter and looked for in one queue, so a draw beyond the tickets that the picker reads
in that queue finds nobody. `work_conserving_iff` says on which CPUs no draw can do that. A task that is
on no queue may be rewritten in between, as `__sched_setscheduler` and a fork do; a forked task's node
points to the parent.
-/
namespace LkpProjects.Lottery
open WeightedTree Stepwise
set_option autoImplicit false

structure Smp (Cpu T : Type) where
  tasks : T → TaskStruct T
  lotteryRq : Cpu → LotteryRq T
  totalTicket : UInt64

variable {Cpu T : Type} [DecidableEq Cpu] {env : Env T} {s s' : Smp Cpu T} {c d : Cpu} {p q : T}

/-- The scheduler as a CPU sees it. -/
def Smp.view (s : Smp Cpu T) (c : Cpu) : Sched T := ⟨s.tasks, fun _ => true, s.lotteryRq c, s.totalTicket⟩

def Smp.put (s : Smp Cpu T) (c : Cpu) (v : Sched T) : Smp Cpu T :=
  ⟨v.tasks, Function.update s.lotteryRq c v.lotteryRq, v.totalTicket⟩

def Smp.queued (env : Env T) (s : Smp Cpu T) (c : Cpu) : List T := (s.view c).queued env

/-- `assign` stands for what is written to a task that is on no queue. -/
inductive CpuRequest (Cpu T : Type) where
  | enqueue (c : Cpu) (p : T)
  | dequeue (c : Cpu) (p : T)
  | assign (p : T) (t : TaskStruct T)

/-- No lottery task is queued anywhere. -/
structure Idle (s : Smp Cpu T) : Prop where
  root : ∀ c, (s.lotteryRq c).lotteryRbRoot = .nil
  list : ∀ c, (s.lotteryRq c).lotteryListHead = []
  total : s.totalTicket = 0

/-- The tickets queued on one CPU. -/
def cpuTickets (env : Env T) (s : Smp Cpu T) (c : Cpu) : ℕ :=
  total (fun p => (s.tasks p).ticket.toNat) (s.queued env c)

/-- The tickets that the picker reads in the queue of one CPU. -/
def cpuReads (env : Env T) (s : Smp Cpu T) (c : Cpu) : ℕ := total (readTickets env (s.view c)) (s.queued env c)

/-! ## The picker of one CPU -/

omit [DecidableEq Cpu] in
/-- While the sums fit in 64 bits, a draw finds somebody exactly when it is within what the picker reads. -/
theorem pick_isSome (hnode : ∀ q ∈ s.queued env c, (s.tasks q).lotteryTask.task.isSome) (hne : s.totalTicket ≠ 0)
    (hrb : env.rbPolicy = true → RbOk (s.view c)) (hfit : cpuReads env s c < 2 ^ 64)
    (draw : UInt32) : (pickNextTaskLottery env (s.view c) draw).isSome ↔
      draw.toNat % s.totalTicket.toNat + 1 ≤ cpuReads env s c := by
  have hscan : whoIsWinner env (s.view c) draw = scan (readTickets env (s.view c))
      (draw.toNat % s.totalTicket.toNat + 1) 0 (s.queued env c) :=
    whoIsWinner_eq_scan hne (fun hb => (hrb hb).accu) hfit draw
  have hnext : (pickNextTaskLottery env (s.view c) draw).isSome =
      (whoIsWinner env (s.view c) draw).isSome := by
    rw [pickNextTaskLottery, if_neg (show (s.view c).totalTicket ≠ 0 from hne)]
    cases hw : whoIsWinner env (s.view c) draw with
    | none => rfl
    | some t => exact hnode t (whoIsWinner_mem hw)
  rw [hnext, hscan, scan_isSome _ 0 (Nat.succ_pos _), Nat.zero_add, cpuReads]

/-! ## All queues together -/

variable [DecidableEq T]

/-- A task of the lottery class went through `__sched_setscheduler`, or is a copy of one that did: its
node's pointer is set. -/
def CpuStep (env : Env T) (s : Smp Cpu T) (req : CpuRequest Cpu T) (s' : Smp Cpu T) : Prop :=
  match req with
  | .enqueue c p => (∀ d, p ∉ s.queued env d) ∧ (s.tasks p).lotteryTask.task.isSome ∧
      s' = s.put c (enqueueTaskLottery env p (s.view c))
  | .dequeue c p => p ∈ s.queued env c ∧ s' = s.put c (dequeueTaskLottery env p (s.view c))
  | .assign p t => (∀ d, p ∉ s.queued env d) ∧ s' = { s with tasks := Function.update s.tasks p t }

variable [Fintype Cpu]

/-- The tickets queued on all CPUs. -/
def allTickets (env : Env T) (s : Smp Cpu T) : ℕ := ∑ c, cpuTickets env s c

structure SmpInv (env : Env T) (s : Smp Cpu T) : Prop where
  nodes : ∀ c, ∀ p ∈ s.queued env c, (s.tasks p).lotteryTask.task.isSome
  nodup : ∀ c, (s.queued env c).Nodup
  disjoint : ∀ c d p, p ∈ s.queued env c → p ∈ s.queued env d → c = d
  rb : env.rbPolicy = true → ∀ c, RbOk (s.view c)
  counter : s.totalTicket.toNat = allTickets env s % 2 ^ 64

omit [DecidableEq T] [Fintype Cpu] in
theorem put_lotteryRq_self {v : Sched T} : (s.put c v).lotteryRq c = v.lotteryRq :=
  Function.update_self ..

omit [DecidableEq T] [Fintype Cpu] in
theorem put_lotteryRq_ne {v : Sched T} (h : d ≠ c) : (s.put c v).lotteryRq d = s.lotteryRq d :=
  Function.update_of_ne h ..

omit [DecidableEq T] [Fintype Cpu] in
theorem put_queued_self {v : Sched T} : (s.put c v).queued env c = v.queued env := by
  show ((s.put c v).lotteryRq c).queued env = _
  rw [put_lotteryRq_self]
  rfl

omit [DecidableEq T] [Fintype Cpu] in
theorem put_queued_ne {v : Sched T} (h : d ≠ c) : (s.put c v).queued env d = s.queued env d := by
  show ((s.put c v).lotteryRq d).queued env = _
  rw [put_lotteryRq_ne h]
  rfl

/-- A move on one CPU writes no node of a tree on another. -/
structure Local (env : Env T) (s : Smp Cpu T) (c : Cpu) (v : Sched T) : Prop where
  bare : ∀ q, (v.tasks q).bare = (s.tasks q).bare
  frame : ∀ q, q ∉ v.queued env → v.tasks q = s.tasks q
  rb : env.rbPolicy = true → RbOk v
  nodup : (v.queued env).Nodup
  fresh : ∀ d, d ≠ c → ∀ q ∈ s.queued env d, q ∉ v.queued env
  nodes : ∀ q ∈ v.queued env, (s.tasks q).lotteryTask.task.isSome

omit [DecidableEq Cpu] [Fintype Cpu] in
theorem enqueue_frame (v : Sched T) (h : q ∉ (enqueueTaskLottery env p v).queued env) :
    (enqueueTaskLottery env p v).tasks q = v.tasks q := by
  cases hb : env.rbPolicy with
  | false => rw [enqueueTaskLottery, if_neg (by simp [hb])]; rfl
  | true =>
    rw [queued_rb hb, enqueueTaskLottery, if_pos hb] at h
    rw [enqueueTaskLottery, if_pos hb]
    exact updatePostorder_not_mem _ h v.tasks

omit [DecidableEq Cpu] [Fintype Cpu] in
theorem dequeue_frame (v : Sched T) (h : q ∉ (dequeueTaskLottery env p v).queued env) :
    (dequeueTaskLottery env p v).tasks q = v.tasks q := by
  cases hb : env.rbPolicy with
  | false => rw [dequeueTaskLottery, if_neg (by simp [hb])]; rfl
  | true =>
    rw [queued_rb hb, dequeueTaskLottery, if_pos hb] at h
    rw [dequeueTaskLottery, if_pos hb]
    exact updatePostorder_not_mem _ h v.tasks

namespace SmpInv

omit [DecidableEq T] in
/-- The invariant after a move on one CPU. -/
theorem put {v : Sched T} (hI : SmpInv env s) (hv : Local env s c v)
    (htotal : v.totalTicket.toNat = (total (fun p => (s.tasks p).ticket.toNat) (v.queued env) +
      ∑ d ∈ Finset.univ.erase c, cpuTickets env s d) % 2 ^ 64) : SmpInv env (s.put c v) where
  nodes d q hq := by
    have htask : ((s.put c v).tasks q).lotteryTask.task = (s.tasks q).lotteryTask.task :=
      congrArg (fun b => b.lotteryTask.task) (hv.bare q)
    rw [htask]
    by_cases h : d = c
    · rw [h, put_queued_self] at hq
      exact hv.nodes q hq
    · rw [put_queued_ne h] at hq
      exact hI.nodes d q hq
  nodup d := by
    by_cases h : d = c
    · rw [h, put_queued_self]
      exact hv.nodup
    · rw [put_queued_ne h]
      exact hI.nodup d
  disjoint d e q hd he := by
    by_cases hdc : d = c
    · by_cases hec : e = c
      · rw [hdc, hec]
      · rw [hdc, put_queued_self] at hd
        rw [put_queued_ne hec] at he
        exact absurd hd (hv.fresh e hec q he)
    · rw [put_queued_ne hdc] at hd
      by_cases hec : e = c
      · rw [hec, put_queued_self] at he
        exact absurd he (hv.fresh d hdc q hd)
      · rw [put_queued_ne hec] at he
        exact hI.disjoint d e q hd he
  rb hb d := by
    by_cases h : d = c
    · refine (hv.rb hb).congr ?_ fun _ _ => ⟨rfl, rfl⟩
      show ((s.put c v).lotteryRq d).lotteryRbRoot = _
      rw [h, put_lotteryRq_self]
    · refine (hI.rb hb d).congr ?_ fun q hq => ?_
      · show ((s.put c v).lotteryRq d).lotteryRbRoot = _
        rw [put_lotteryRq_ne h]
        rfl
      · have hroot : s.queued env d = (s.lotteryRq d).lotteryRbRoot.inorder := queued_rb (s := s.view d) hb
        have hq' : q ∈ s.queued env d := by
          rw [hroot]
          exact hq
        show (v.tasks q).lotteryTask.ticket = (s.tasks q).lotteryTask.ticket ∧
          (v.tasks q).lotteryTask.accuTicket = (s.tasks q).lotteryTask.accuTicket
        rw [hv.frame q (hv.fresh d h q hq')]
        exact ⟨rfl, rfl⟩
  counter := by
    have hticket : (fun p => ((s.put c v).tasks p).ticket.toNat) = fun p => (s.tasks p).ticket.toNat := by
      funext q
      exact congrArg (fun b => b.ticket.toNat) (hv.bare q)
    have hrest : ∑ d ∈ Finset.univ.erase c, cpuTickets env (s.put c v) d =
        ∑ d ∈ Finset.univ.erase c, cpuTickets env s d := by
      refine Finset.sum_congr rfl fun d hd => ?_
      rw [cpuTickets, cpuTickets, hticket, put_queued_ne (Finset.ne_of_mem_erase hd)]
    show v.totalTicket.toNat = _
    rw [htotal, allTickets, ← Finset.add_sum_erase _ _ (Finset.mem_univ c), hrest, cpuTickets, hticket,
      put_queued_self]

omit [DecidableEq Cpu] in
/-- A task that is on no queue may be rewritten. -/
theorem assign (hI : SmpInv env s) (hp : ∀ d, p ∉ s.queued env d) (t : TaskStruct T) :
    SmpInv env { s with tasks := Function.update s.tasks p t } := by
  have hne : ∀ d, ∀ q ∈ s.queued env d, Function.update s.tasks p t q = s.tasks q := by
    intro d q hq
    have hqp : q ≠ p := fun h => hp d (h ▸ hq)
    exact Function.update_of_ne hqp ..
  have htickets : ∀ d, cpuTickets env { s with tasks := Function.update s.tasks p t } d = cpuTickets env s d :=
    fun d => total_congr fun q hq => congrArg (fun t => t.ticket.toNat) (hne d q hq)
  refine ⟨fun d q hq => ?_, hI.nodup, hI.disjoint, fun hb d => (hI.rb hb d).congr rfl fun q hq => ?_, ?_⟩
  · show (Function.update s.tasks p t q).lotteryTask.task.isSome
    rw [hne d q hq]
    exact hI.nodes d q hq
  · have hq' : q ∈ s.queued env d := by
      rw [Smp.queued, queued_rb hb]
      exact hq
    show (Function.update s.tasks p t q).lotteryTask.ticket = (s.tasks q).lotteryTask.ticket ∧
      (Function.update s.tasks p t q).lotteryTask.accuTicket = (s.tasks q).lotteryTask.accuTicket
    rw [hne d q hq']
    exact ⟨rfl, rfl⟩
  · rw [allTickets, Finset.sum_congr rfl fun d _ => htickets d]
    exact hI.counter

theorem step (hI : SmpInv env s) (hk : env.KeepsOrder) {req : CpuRequest Cpu T}
    (hs : CpuStep env s req s') : SmpInv env s' := by
  have hsplit : ∀ c, allTickets env s = total (fun p => (s.tasks p).ticket.toNat) (s.queued env c) +
      ∑ d ∈ Finset.univ.erase c, cpuTickets env s d := fun c =>
    (Finset.add_sum_erase _ _ (Finset.mem_univ c)).symm
  cases req with
  | enqueue c p =>
    obtain ⟨hp, hnode, rfl⟩ := hs
    obtain ⟨hq, hbare, htot, -, -⟩ := enqueue_requeued hk (s.view c) p
    refine hI.put ⟨hbare, fun q hq' => enqueue_frame _ hq', fun hb => ?_, ?_, fun d hd q hqd hqc => ?_,
      fun q hqc => ?_⟩ ?_
    · exact (hI.rb hb c).enqueue hk hb (hI.nodup c) (hp c)
    · exact hq.nodup_iff.mpr (List.nodup_cons.mpr ⟨hp c, hI.nodup c⟩)
    · obtain rfl | hqc := List.mem_cons.mp (hq.mem_iff.mp hqc)
      · exact hp d hqd
      · exact hd (hI.disjoint d c q hqd hqc)
    · obtain rfl | hqc := List.mem_cons.mp (hq.mem_iff.mp hqc)
      · exact hnode
      · exact hI.nodes c q hqc
    · have hsum : total (fun p => (s.tasks p).ticket.toNat) ((enqueueTaskLottery env p (s.view c)).queued env) =
          (s.tasks p).ticket.toNat + total (fun p => (s.tasks p).ticket.toNat) (s.queued env c) := by
        rw [total, (hq.map _).sum_eq]
        rfl
      have htotal := hI.counter
      rw [hsplit c] at htotal
      rw [htot, hsum, UInt64.toNat_add]
      show (s.totalTicket.toNat + (s.tasks p).ticket.toNat) % 2 ^ 64 = _
      omega
  | dequeue c p =>
    obtain ⟨hp, rfl⟩ := hs
    obtain ⟨hq, hbare, htot, -, -⟩ := dequeue_requeued hk (s.view c) p
    have hmem : ∀ q ∈ (dequeueTaskLottery env p (s.view c)).queued env, q ∈ s.queued env c :=
      fun q hq' => List.mem_of_mem_erase (hq.mem_iff.mp hq')
    refine hI.put ⟨hbare, fun q hq' => dequeue_frame _ hq', fun hb => ?_, ?_, fun d hd q hqd hqc => ?_,
      fun q hqc => hI.nodes c q (hmem q hqc)⟩ ?_
    · exact (hI.rb hb c).dequeue hk hb (hI.nodup c) p
    · exact hq.nodup_iff.mpr ((hI.nodup c).erase p)
    · exact hd (hI.disjoint d c q hqd (hmem q hqc))
    · have hsum : (s.tasks p).ticket.toNat +
          total (fun p => (s.tasks p).ticket.toNat) ((dequeueTaskLottery env p (s.view c)).queued env) =
          total (fun p => (s.tasks p).ticket.toNat) (s.queued env c) := by
        rw [total, (hq.map _).sum_eq]
        exact List.sum_map_erase (fun q => (s.tasks q).ticket.toNat) hp
      have htotal := hI.counter
      have hlt := (s.tasks p).ticket.toNat_lt
      rw [hsplit c, ← hsum] at htotal
      rw [htot, UInt64.toNat_sub]
      show (2 ^ 64 - (s.tasks p).ticket.toNat + s.totalTicket.toNat) % 2 ^ 64 = _
      omega
  | assign p t =>
    obtain ⟨hp, rfl⟩ := hs
    exact hI.assign hp t

omit [DecidableEq T] [DecidableEq Cpu] in
theorem idle (hs : Idle s) : SmpInv env s := by
  have hq : ∀ c, s.queued env c = [] := by
    intro c
    rw [Smp.queued, Sched.queued, LotteryRq.queued, Smp.view, hs.root, hs.list]
    split <;> rfl
  refine ⟨fun c p h => ?_, fun c => ?_, fun c d p h => ?_, fun _ c => ⟨?_, ?_⟩, ?_⟩
  · rw [hq c] at h
    cases h
  · rw [hq c]
    exact List.nodup_nil
  · rw [hq c] at h
    cases h
  · show Sorted _ (s.lotteryRq c).lotteryRbRoot.inorder
    rw [hs.root c]
    exact List.Pairwise.nil
  · show AccuOk _ (s.lotteryRq c).lotteryRbRoot
    rw [hs.root c]
    trivial
  · simp [hs.total, allTickets, cpuTickets, hq]

end SmpInv

/-- With a positive ticket in the queue, every draw finds a task. -/
def Conserves (env : Env T) (s : Smp Cpu T) (c : Cpu) : Prop :=
  (∃ p ∈ s.queued env c, 0 < (s.tasks p).ticket) →
    ∀ draw, (pickNextTaskLottery env (s.view c) draw).isSome

/-- What the picker reads in the queue covers every draw: all numbers up to the total, or up to `2 ^ 32` when
the generator does not reach the total. -/
def CoversDraws (env : Env T) (s : Smp Cpu T) (c : Cpu) : Prop :=
  (∃ p ∈ s.queued env c, 0 < (s.tasks p).ticket) → min (allTickets env s) (2 ^ 32) ≤ cpuReads env s c

/-- In every run and on every CPU, as long as the queued tickets, and those that are read, add up to less
than `2 ^ 64`: every draw finds a task exactly when the tickets read on the CPU cover the draws. -/
theorem work_conserving_iff (hk : env.KeepsOrder) {s₀ s : Smp Cpu T}
    {reqs : List (CpuRequest Cpu T)} (hidle : Idle s₀) (hr : Run (CpuStep env) s₀ reqs s)
    (hfit : allTickets env s < 2 ^ 64) (c : Cpu) (hread : cpuReads env s c < 2 ^ 64) :
    Conserves env s c ↔ CoversDraws env s c := by
  have hI : SmpInv env s :=
    hr.invariant (fun _ _ _ hI hs => hI.step hk hs) (SmpInv.idle hidle)
  have hle : cpuTickets env s c ≤ allTickets env s :=
    Finset.single_le_sum (fun _ _ => Nat.zero_le _) (Finset.mem_univ c)
  have htotal : s.totalTicket.toNat = allTickets env s := by
    rw [hI.counter, Nat.mod_eq_of_lt hfit]
  refine forall_congr' fun ⟨p, hp, hpos⟩ => ?_
  have hcpu : 0 < cpuTickets env s c := by
    have hmem := List.mem_map_of_mem (f := fun p => (s.tasks p).ticket.toNat) hp
    exact Nat.lt_of_lt_of_le (UInt64.lt_iff_toNat_lt.mp hpos) (List.le_sum_of_mem hmem)
  have hne : s.totalTicket ≠ 0 := by
    intro h0
    rw [h0] at htotal
    have : (0 : UInt64).toNat = 0 := rfl
    omega
  have hpick := pick_isSome (hI.nodes c) hne (fun hb => hI.rb hb c) hread
  constructor
  · intro h
    -- the largest number that the generator can make of the total
    have hlt : min (allTickets env s) (2 ^ 32) - 1 < 2 ^ 32 := by omega
    have hdraw := (hpick (UInt32.ofNat (min (allTickets env s) (2 ^ 32) - 1))).mp (h _)
    rw [UInt32.toNat_ofNat', Nat.mod_eq_of_lt hlt, htotal, Nat.mod_eq_of_lt (by omega)] at hdraw
    omega
  · intro h draw
    rw [hpick, htotal]
    have hlt := draw.toNat_lt
    have hmod := Nat.mod_lt draw.toNat (show 0 < allTickets env s by omega)
    have hmle := Nat.mod_le draw.toNat (allTickets env s)
    omega

/-- Lottery tasks with one ticket each, none of them queued. -/
def Smp.idle : Smp (Fin 2) (Fin 2) where
  tasks p := {
    policy := .lottery, schedClass := .lottery, staticPrio := 120, normalPrio := 98, prio := 98
    rtPriority := 1, schedResetOnFork := false, onRq := false, ticket := 1
    lotteryTask := ⟨1, 0, some p⟩ }
  lotteryRq _ := ⟨.nil, [], 0⟩
  totalTicket := 0

theorem Smp.idle_idle : Idle Smp.idle := ⟨fun _ => rfl, fun _ => rfl, rfl⟩

/-- The state after a task has been queued on each of the given CPUs. -/
def queuedOn (rb : Bool) (s : Smp (Fin 2) (Fin 2)) : List (Fin 2 × Fin 2) → Smp (Fin 2) (Fin 2)
  | [] => s
  | (c, p) :: rest => queuedOn rb (s.put c (enqueueTaskLottery (.plain rb) p (s.view c))) rest

/-- Task 1 becomes a copy of task 0, its pointer included; both are queued on one CPU. -/
theorem work_conserving_iff_copy : ∃ s : Smp (Fin 2) (Fin 2), (s.tasks 1).lotteryTask.task = some 0 ∧
    s.queued (.plain false) 0 = [0, 1] ∧ Conserves (.plain false) s 0 := by
  have hr : Run (CpuStep (.plain false)) Smp.idle [.assign 1 (Smp.idle.tasks 0), .enqueue 0 0, .enqueue 0 1]
      (queuedOn false { Smp.idle with tasks := Function.update Smp.idle.tasks 1 (Smp.idle.tasks 0) }
        [(0, 0), (0, 1)]) :=
    .cons ⟨by decide, rfl⟩ (.cons ⟨by decide, rfl, rfl⟩ (.cons ⟨by decide, rfl, rfl⟩ (.nil _)))
  refine ⟨_, ?_, ?_, (work_conserving_iff (Env.plain_keepsOrder false) Smp.idle_idle hr (by decide) 0
    (by decide)).mpr fun _ => by decide⟩
  · decide
  · decide

/-- Some run leads to a queue with a positive ticket in which a draw finds nobody. -/
def FindsNobody (env : Env (Fin 2)) : Prop :=
  ∃ (s₀ s : Smp (Fin 2) (Fin 2)) (reqs : List (CpuRequest (Fin 2) (Fin 2))), Idle s₀ ∧
    Run (CpuStep env) s₀ reqs s ∧ ∃ c, (∃ p ∈ s.queued env c, 0 < (s.tasks p).ticket) ∧
      ∃ draw, pickNextTaskLottery env (s.view c) draw = none

/-- One ticket on each of two CPUs: the counter is 2, and a lucky ticket of 2 is on neither of them. -/
theorem findsNobody_two (rb : Bool) : FindsNobody (.plain rb) := by
  refine ⟨.idle, queuedOn rb .idle [(0, 0), (1, 1)], [.enqueue 0 0, .enqueue 1 1], Smp.idle_idle,
    .cons ⟨?_, rfl, rfl⟩ (.cons ⟨?_, ?_, rfl⟩ (.nil _)), 0, ⟨0, ?_, ?_⟩, 1, ?_⟩
  all_goals
    cases rb <;> decide +kernel

theorem other_cpu_starves : FindsNobody (.plain false) ∧ FindsNobody (.plain true) :=
  ⟨findsNobody_two false, findsNobody_two true⟩

end LkpProjects.Lottery
