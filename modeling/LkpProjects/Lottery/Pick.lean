import LkpProjects.Lottery.Queue

/-! # The two pickers

`pick_winner_rb_task` descends from the root by the subtree sums that `recalc_accu_lottery` left in
the nodes; `pick_winner_task` walks the list. When the 64-bit sums do not overflow both are the
search of the weighted tree library, so they find the same task for every lucky number.
-/
namespace LkpProjects.Lottery
open WeightedTree
set_option autoImplicit false

variable {T : Type} {m : T → TaskStruct T} {lucky : UInt64}

/-! ## The code -/

/-- `get_random_int() % total_ticket + 1` for what the generator returned. -/
def luckyOf (draw : UInt32) (total : UInt64) : UInt64 := draw.toUInt64 % total + 1

def isNode : BinTree T → Bool
  | .nil => false
  | .node .. => true

/-- The loop of `pick_winner_rb_task`. -/
def pickRbLoop (m : T → TaskStruct T) (lucky : UInt64) : UInt64 → BinTree T → Option T
  | _, .nil => none
  | leftTotal, .node l p r =>
      if isNode l && decide (lucky ≤ accuOf m l + leftTotal) then pickRbLoop m lucky leftTotal l
      else
        let totalSoFar := accuOf m l + (m p).lotteryTask.ticket
        if lucky ≤ totalSoFar + leftTotal then some p
        else pickRbLoop m lucky (leftTotal + totalSoFar) r

def pickWinnerRbTask (s : Sched T) (draw : UInt32) : Option T :=
  if s.totalTicket = 0 then none
  else pickRbLoop s.tasks (luckyOf draw s.totalTicket) 0 s.lotteryRq.lotteryRbRoot

/-- `t->task->ticket`. -/
def taskTicket (m : T → TaskStruct T) (t : T) : UInt64 :=
  match (m t).lotteryTask.task with
  | none => 0
  | some p => (m p).ticket

/-- The loop of `pick_winner_task`. -/
def pickLoop (m : T → TaskStruct T) (lucky : UInt64) : UInt64 → List T → Option T
  | _, [] => none
  | totalSoFar, t :: ts =>
      if lucky ≤ totalSoFar + taskTicket m t then some t
      else pickLoop m lucky (totalSoFar + taskTicket m t) ts

def pickWinnerTask (s : Sched T) (draw : UInt32) : Option T :=
  if s.totalTicket = 0 then none
  else pickLoop s.tasks (luckyOf draw s.totalTicket) 0 s.lotteryRq.lotteryListHead

def whoIsWinner (env : Env T) (s : Sched T) (draw : UInt32) : Option T :=
  if env.rbPolicy then pickWinnerRbTask s draw else pickWinnerTask s draw

def pickNextTaskLottery (env : Env T) (s : Sched T) (draw : UInt32) : Option T :=
  if s.totalTicket = 0 then none
  else (whoIsWinner env s draw).bind fun t => (s.tasks t).lotteryTask.task

/-! ## Sums of tickets -/

theorem sum_toNat {α : Type} (f : α → UInt64) (xs : List α)
    (h : total (fun x => (f x).toNat) xs < 2 ^ 64) :
    (xs.map f).sum.toNat = total (fun x => (f x).toNat) xs := by
  induction xs with
  | nil => rfl
  | cons x xs ih =>
    rw [total_cons] at h ⊢
    rw [List.map_cons, List.sum_cons, UInt64.toNat_add, ih (by omega), Nat.mod_eq_of_lt h]

theorem total_congr {α : Type} {w w' : α → ℕ} {xs : List α} (h : ∀ x ∈ xs, w x = w' x) :
    total w xs = total w' xs := by
  rw [total, total, List.map_congr_left h]

theorem scan_congr {α : Type} {w w' : α → ℕ} {lucky : ℕ} {xs : List α} (h : ∀ x ∈ xs, w x = w' x) :
    ∀ acc, scan w lucky acc xs = scan w' lucky acc xs := by
  induction xs with
  | nil => exact fun _ => rfl
  | cons x xs ih =>
    intro acc
    rw [scan, scan, h x List.mem_cons_self, ih fun y hy => h y (List.mem_cons_of_mem x hy)]

/-! ## The subtree sums -/

/-- The tickets of the nodes of a subtree. -/
def ticketSum (m : T → TaskStruct T) (t : BinTree T) : UInt64 :=
  (t.inorder.map fun p => (m p).lotteryTask.ticket).sum

/-- Every node's `accu_ticket` is the ticket sum of its subtree. -/
def AccuOk (m : T → TaskStruct T) : BinTree T → Prop
  | .nil => True
  | .node l p r => AccuOk m l ∧ AccuOk m r ∧ (m p).lotteryTask.accuTicket = ticketSum m (.node l p r)

theorem ticketSum_node (l : BinTree T) (p : T) (r : BinTree T) : ticketSum m (.node l p r) =
    ticketSum m l + ticketSum m r + (m p).lotteryTask.ticket := by
  simp only [ticketSum, BinTree.inorder_node, List.map_append, List.map_cons, List.sum_append,
    List.sum_cons]
  abel

theorem accuOf_eq {t : BinTree T} (h : AccuOk m t) : accuOf m t = ticketSum m t := by
  cases t with
  | nil => rfl
  | node l p r => exact h.2.2

theorem AccuOk.congr {m' : T → TaskStruct T} {t : BinTree T} (h : AccuOk m t)
    (he : ∀ p ∈ t.inorder, (m' p).lotteryTask.ticket = (m p).lotteryTask.ticket ∧
      (m' p).lotteryTask.accuTicket = (m p).lotteryTask.accuTicket) : AccuOk m' t := by
  induction t with
  | nil => trivial
  | node l p r ihl ihr =>
    obtain ⟨hl, hr, hp⟩ := h
    simp only [BinTree.inorder_node, List.mem_append, List.mem_cons] at he
    refine ⟨ihl hl fun q hq => he q (.inl hq), ihr hr fun q hq => he q (.inr (.inr hq)), ?_⟩
    rw [(he p (.inr (.inl rfl))).2, hp, ticketSum, ticketSum]
    refine congrArg List.sum (List.map_congr_left fun q hq => ?_)
    simp only [BinTree.inorder_node, List.mem_append, List.mem_cons] at hq
    exact (he q hq).1.symm

section Recalc
variable [DecidableEq T]

theorem updatePostorder_ticket (t : BinTree T) (m : T → TaskStruct T) (q : T) :
    (updatePostorder t m q).lotteryTask.ticket = (m q).lotteryTask.ticket :=
  congrArg (fun b => b.lotteryTask.ticket) (updatePostorder_bare t m)

omit [DecidableEq T] in
theorem nodeAccu_eq {l r : BinTree T} (p : T) (hl : AccuOk m l) (hr : AccuOk m r) :
    nodeAccu m p l r = ticketSum m (.node l p r) := by
  rw [ticketSum_node, ← accuOf_eq hl, ← accuOf_eq hr]
  cases l with
  | nil =>
    cases r with
    | nil => simp [nodeAccu, accuOf]
    | node => simp [nodeAccu, accuOf]
  | node =>
    cases r with
    | nil => simp [nodeAccu, accuOf]
    | node => simp [nodeAccu]

/-- A recalculation makes all subtree sums exact. -/
theorem updatePostorder_accuOk (t : BinTree T) (hn : t.inorder.Nodup) : ∀ m : T → TaskStruct T,
    AccuOk (updatePostorder t m) t := by
  induction t with
  | nil => exact fun _ => trivial
  | node l p r ihl ihr =>
    intro m
    rw [BinTree.inorder_node, List.nodup_append, List.nodup_cons] at hn
    obtain ⟨hl, ⟨hpr, hr⟩, hne⟩ := hn
    have hpl : p ∉ l.inorder := fun h => hne p h p List.mem_cons_self rfl
    have hol : AccuOk (updatePostorder r (updatePostorder l m)) l := (ihl hl m).congr fun q hq => by
      have hqr : q ∉ r.inorder := fun h => hne q hq q (List.mem_cons_of_mem p h) rfl
      rw [updatePostorder_not_mem r hqr]
      exact ⟨rfl, rfl⟩
    have hor := ihr hr (updatePostorder l m)
    -- the node itself is written last, and is in neither subtree
    have hkeep : ∀ a : UInt64, ∀ q, q ≠ p → Function.update (updatePostorder r (updatePostorder l m)) p
        (setAccu a (updatePostorder r (updatePostorder l m) p)) q =
          updatePostorder r (updatePostorder l m) q := fun a q hq => Function.update_of_ne hq _ _
    refine ⟨?_, ?_, ?_⟩
    · refine hol.congr fun q hq => ?_
      rw [updatePostorder, hkeep _ q (ne_of_mem_of_not_mem hq hpl)]
      exact ⟨rfl, rfl⟩
    · refine hor.congr fun q hq => ?_
      rw [updatePostorder, hkeep _ q (ne_of_mem_of_not_mem hq hpr)]
      exact ⟨rfl, rfl⟩
    · rw [updatePostorder, Function.update_self]
      show nodeAccu _ p l r = _
      rw [nodeAccu_eq p hol hor, ticketSum, ticketSum]
      refine congrArg List.sum (List.map_congr_left fun q _ => ?_)
      by_cases hq : q = p
      · rw [hq, Function.update_self]
        rfl
      · rw [hkeep _ q hq]

end Recalc

/-! ## Both loops are the library's search -/

theorem pickRbLoop_eq (t : BinTree T) : ∀ leftTotal : UInt64, AccuOk m t →
    leftTotal.toNat + total (nodeTicket m) t.inorder < 2 ^ 64 → leftTotal < lucky →
    pickRbLoop m lucky leftTotal t =
      descend (nodeTicket m) lucky.toNat leftTotal.toNat t := by
  induction t with
  | nil => exact fun _ _ _ _ => rfl
  | node l p r ihl ihr =>
    intro leftTotal hok hfit hlt
    obtain ⟨hl, hr, -⟩ := hok
    simp only [BinTree.inorder_node, total_append, total_cons] at hfit
    have hltn : leftTotal.toNat < lucky.toNat := UInt64.lt_iff_toNat_lt.mp hlt
    have haccu : (accuOf m l).toNat = total (nodeTicket m) l.inorder := by
      rw [accuOf_eq hl]
      apply sum_toNat
      show total (nodeTicket m) l.inorder < 2 ^ 64
      omega
    have hp : (m p).lotteryTask.ticket.toNat = nodeTicket m p := rfl
    have hleft : (isNode l && decide (lucky ≤ accuOf m l + leftTotal)) = true ↔
        lucky.toNat ≤ leftTotal.toNat + total (nodeTicket m) l.inorder := by
      have hsum : (accuOf m l + leftTotal).toNat =
          leftTotal.toNat + total (nodeTicket m) l.inorder := by
        rw [UInt64.toNat_add, haccu]
        omega
      cases l with
      | nil =>
        simp only [isNode, Bool.false_and, Bool.false_eq_true, BinTree.inorder_nil, total_nil,
          false_iff]
        omega
      | node =>
        simp only [isNode, Bool.true_and, decide_eq_true_eq]
        rw [UInt64.le_iff_toNat_le, hsum]
    have hsofar : (accuOf m l + (m p).lotteryTask.ticket).toNat =
        total (nodeTicket m) l.inorder + nodeTicket m p := by
      rw [UInt64.toNat_add, haccu, hp]
      omega
    have hhere : lucky ≤ accuOf m l + (m p).lotteryTask.ticket + leftTotal ↔
        lucky.toNat ≤ leftTotal.toNat + total (nodeTicket m) l.inorder + nodeTicket m p := by
      rw [UInt64.le_iff_toNat_le, UInt64.toNat_add, hsofar]
      omega
    have hnext : (leftTotal + (accuOf m l + (m p).lotteryTask.ticket)).toNat =
        leftTotal.toNat + total (nodeTicket m) l.inorder + nodeTicket m p := by
      rw [UInt64.toNat_add, hsofar]
      omega
    rw [pickRbLoop, descend]
    by_cases h₁ : lucky.toNat ≤ leftTotal.toNat + total (nodeTicket m) l.inorder
    · rw [if_pos (hleft.mpr h₁), if_pos h₁]
      exact ihl leftTotal hl (by omega) hlt
    · rw [if_neg fun h => h₁ (hleft.mp h), if_neg h₁]
      by_cases h₂ : lucky.toNat ≤ leftTotal.toNat + total (nodeTicket m) l.inorder + nodeTicket m p
      · rw [if_pos (hhere.mpr h₂), if_pos h₂]
      · rw [if_neg fun h => h₂ (hhere.mp h), if_neg h₂]
        rw [ihr _ hr (by omega) (UInt64.lt_iff_toNat_lt.mpr (by omega)), hnext]

theorem pickLoop_eq (ts : List T) : ∀ totalSoFar : UInt64,
    totalSoFar.toNat + total (fun t => (taskTicket m t).toNat) ts < 2 ^ 64 →
    pickLoop m lucky totalSoFar ts =
      scan (fun t => (taskTicket m t).toNat) lucky.toNat totalSoFar.toNat ts := by
  induction ts with
  | nil => exact fun _ _ => rfl
  | cons t ts ih =>
    intro totalSoFar hfit
    rw [total_cons] at hfit
    have hsum : (totalSoFar + taskTicket m t).toNat = totalSoFar.toNat + (taskTicket m t).toNat := by
      rw [UInt64.toNat_add]
      omega
    rw [pickLoop, scan]
    by_cases h : lucky ≤ totalSoFar + taskTicket m t
    · rw [if_pos h, if_pos (by rwa [← hsum, ← UInt64.le_iff_toNat_le])]
    · rw [if_neg h, if_neg (by rwa [← hsum, ← UInt64.le_iff_toNat_le])]
      rw [ih _ (by omega), hsum]

theorem luckyOf_toNat {draw : UInt32} {total : UInt64} (h : total ≠ 0) :
    (luckyOf draw total).toNat = draw.toNat % total.toNat + 1 := by
  have hpos : 0 < total.toNat := Nat.pos_of_ne_zero fun h0 => h (UInt64.toNat_inj.mp h0)
  have hmod := Nat.mod_lt draw.toNat hpos
  have htot := total.toNat_lt
  rw [luckyOf, UInt64.toNat_add, UInt64.toNat_mod, UInt32.toNat_toUInt64]
  show (draw.toNat % total.toNat + 1) % 2 ^ 64 = _
  omega

/-! ## Agreement -/

variable [DecidableEq T]

theorem loops_agree {t : BinTree T} (hn : t.inorder.Nodup)
    (hsync : ∀ p ∈ t.inorder, taskTicket m p = (m p).lotteryTask.ticket)
    (hfit : total (nodeTicket m) t.inorder < 2 ^ 64) (hlow : 0 < lucky.toNat)
    (hhigh : lucky.toNat ≤ total (nodeTicket m) t.inorder) :
    ∃ p, pickRbLoop (updatePostorder t m) lucky 0 t = some p ∧
      pickLoop (updatePostorder t m) lucky 0 t.inorder = some p := by
  have hnode : nodeTicket (updatePostorder t m) = nodeTicket m := by
    funext q
    rw [nodeTicket, updatePostorder_ticket]
    rfl
  have hback : ∀ q ∈ t.inorder, (taskTicket (updatePostorder t m) q).toNat = nodeTicket m q := by
    intro q hq
    have htask : (updatePostorder t m q).lotteryTask.task = (m q).lotteryTask.task :=
      congrArg (fun b => b.lotteryTask.task) (updatePostorder_bare t m)
    have hticket : ∀ p, (updatePostorder t m p).ticket = (m p).ticket := fun p =>
      congrArg (fun b => b.ticket) (updatePostorder_bare t m)
    have h := hsync q hq
    rw [taskTicket] at h ⊢
    rw [htask]
    simp only [hticket]
    rw [h]
    rfl
  obtain ⟨p, hp⟩ := Option.isSome_iff_exists.mp
    ((scan_isSome t.inorder 0 hlow).mpr (by rwa [Nat.zero_add]))
  refine ⟨p, ?_, ?_⟩
  · rw [pickRbLoop_eq t 0 (updatePostorder_accuOk t hn m) (by rw [hnode]; simpa using hfit)
      (UInt64.lt_iff_toNat_lt.mpr hlow), hnode]
    show descend (nodeTicket m) lucky.toNat 0 t = some p
    rw [descend_eq_scan t 0 hlow, hp]
  · rw [pickLoop_eq]
    · show scan _ lucky.toNat 0 t.inorder = some p
      rw [scan_congr hback, hp]
    · rw [total_congr hback]
      simpa using hfit

/-- On the same tasks, as a tree with recalculated sums and as the list of that tree's nodes in order,
both pickers return the same task for every lucky ticket from 1 to the total, and neither returns
`NULL`. -/
theorem pickers_agree (s : Sched T) (hn : s.lotteryRq.lotteryRbRoot.inorder.Nodup)
    (hlist : s.lotteryRq.lotteryListHead = s.lotteryRq.lotteryRbRoot.inorder)
    (hsync : ∀ p ∈ s.lotteryRq.lotteryRbRoot.inorder,
      taskTicket s.tasks p = (s.tasks p).lotteryTask.ticket)
    (htotal : s.totalTicket.toNat = total (nodeTicket s.tasks) s.lotteryRq.lotteryRbRoot.inorder) :
    (∀ lucky : UInt64, 0 < lucky → lucky ≤ s.totalTicket → ∃ p,
      pickRbLoop (recalcAccuLottery s).tasks lucky 0 s.lotteryRq.lotteryRbRoot = some p ∧
        pickLoop (recalcAccuLottery s).tasks lucky 0 s.lotteryRq.lotteryListHead = some p) ∧
    ∀ draw, s.totalTicket ≠ 0 → ∃ p, pickWinnerRbTask (recalcAccuLottery s) draw = some p ∧
      pickWinnerTask (recalcAccuLottery s) draw = some p := by
  have hfit : total (nodeTicket s.tasks) s.lotteryRq.lotteryRbRoot.inorder < 2 ^ 64 := by
    rw [← htotal]
    exact s.totalTicket.toNat_lt
  have hloop : ∀ lucky : UInt64, 0 < lucky.toNat → lucky.toNat ≤ s.totalTicket.toNat → ∃ p,
      pickRbLoop (recalcAccuLottery s).tasks lucky 0 s.lotteryRq.lotteryRbRoot = some p ∧
        pickLoop (recalcAccuLottery s).tasks lucky 0 s.lotteryRq.lotteryListHead = some p := by
    intro lucky hlow hhigh
    rw [hlist]
    exact loops_agree hn hsync hfit hlow (htotal ▸ hhigh)
  refine ⟨fun lucky hlow hhigh => hloop lucky (UInt64.lt_iff_toNat_lt.mp hlow)
    (UInt64.le_iff_toNat_le.mp hhigh), fun draw hne => ?_⟩
  have hlucky : (luckyOf draw s.totalTicket).toNat = draw.toNat % s.totalTicket.toNat + 1 :=
    luckyOf_toNat hne
  have hpos : 0 < s.totalTicket.toNat := Nat.pos_of_ne_zero fun h0 => hne (UInt64.toNat_inj.mp h0)
  have hmod := Nat.mod_lt draw.toNat hpos
  obtain ⟨p, hrb, hl⟩ := hloop (luckyOf draw s.totalTicket) (by omega) (by omega)
  have htot : (recalcAccuLottery s).totalTicket ≠ 0 := hne
  refine ⟨p, ?_, ?_⟩
  · rw [pickWinnerRbTask, if_neg htot]
    exact hrb
  · rw [pickWinnerTask, if_neg htot]
    exact hl

/-- A tree of three tasks with 0, 3 and 4 tickets. -/
def threeTasks : Sched (Fin 3) where
  tasks p := {
    policy := .lottery, schedClass := .lottery, staticPrio := 120, normalPrio := 90, prio := 90
    rtPriority := 9, schedResetOnFork := false, onRq := true, ticket := #[0, 3, 4][p]
    lotteryTask := { ticket := #[0, 3, 4][p], accuTicket := 0, task := some p } }
  live _ := true
  lotteryRq := {
    lotteryRbRoot := .node (.node .nil 0 .nil) 1 (.node .nil 2 .nil)
    lotteryListHead := [0, 1, 2], nrRunning := 3 }
  totalTicket := 7

/-- The generator returns 10, so the lucky ticket is 4. -/
theorem pickers_agree_three : ∃ p, pickWinnerRbTask (recalcAccuLottery threeTasks) 10 = some p ∧
    pickWinnerTask (recalcAccuLottery threeTasks) 10 = some p :=
  (pickers_agree threeTasks (by decide) rfl (by decide) rfl).2 10 (by decide)

end LkpProjects.Lottery
