import LkpProjects.Library.WeightedTree

/-! # Lottery tasks and their run queue

A task is its address in `T`; `tasks` is the memory with the fields of `task_struct` that the lottery
class reads. The queue is a list or, with `CONFIG_SCHED_LOTTERY_RB_POLICY`, a binary tree of the queue
nodes embedded in the tasks. The balancing of `rb_insert_color` and `rb_erase` is the kernel
library's; `Env` takes them as parameters, and `Env.KeepsOrder` is what is known of them.
-/
namespace LkpProjects.Lottery
open WeightedTree
set_option autoImplicit false

inductive Policy
  | normal | fifo | rr | batch | idle | lottery
  deriving DecidableEq

inductive SchedClass
  | rt | lottery | fair
  deriving DecidableEq

structure LotteryTask (T : Type) where
  ticket : UInt64
  accuTicket : UInt64
  /-- The back pointer to the task, `none` for `NULL`. -/
  task : Option T
  deriving DecidableEq

structure TaskStruct (T : Type) where
  policy : Policy
  schedClass : SchedClass
  staticPrio : ℤ
  normalPrio : ℤ
  prio : ℤ
  rtPriority : UInt32
  schedResetOnFork : Bool
  onRq : Bool
  ticket : UInt64
  lotteryTask : LotteryTask T
  deriving DecidableEq

structure LotteryRq (T : Type) where
  lotteryRbRoot : BinTree T
  lotteryListHead : List T
  nrRunning : ℤ

/-- The state of one CPU's scheduler: the memory of the tasks, the addresses in use, the lottery queue
and the global ticket counter. -/
structure Sched (T : Type) where
  tasks : T → TaskStruct T
  live : T → Bool
  lotteryRq : LotteryRq T
  totalTicket : UInt64

/-- The build and the tree balancing it is linked with. -/
structure Env (T : Type) where
  rbPolicy : Bool
  rbInsertColor : T → BinTree T → BinTree T
  rbErase : T → BinTree T → BinTree T

/-- Balancing moves subtrees but keeps the nodes in order. -/
structure Env.KeepsOrder {T : Type} [DecidableEq T] (env : Env T) : Prop where
  insertColor : ∀ p t, (env.rbInsertColor p t).inorder = t.inorder
  erase : ∀ p t, (env.rbErase p t).inorder = t.inorder.erase p

variable {T : Type} [DecidableEq T] {env : Env T} {s : Sched T} {p q : T}

/-- The queued tasks, in the order of the list or of the tree. -/
def LotteryRq.queued (env : Env T) (rq : LotteryRq T) : List T :=
  if env.rbPolicy then rq.lotteryRbRoot.inorder else rq.lotteryListHead

def Sched.queued (env : Env T) (s : Sched T) : List T := s.lotteryRq.queued env

def Sched.modifyTask (s : Sched T) (p : T) (f : TaskStruct T → TaskStruct T) : Sched T :=
  { s with tasks := Function.update s.tasks p (f (s.tasks p)) }

section Simp
variable (f : TaskStruct T → TaskStruct T)

@[simp] theorem modifyTask_self : (s.modifyTask p f).tasks p = f (s.tasks p) := by
  simp [Sched.modifyTask]

theorem modifyTask_ne (h : q ≠ p) : (s.modifyTask p f).tasks q = s.tasks q := by
  simp [Sched.modifyTask, h]

theorem modifyTask_eq_self (h : f (s.tasks p) = s.tasks p) : s.modifyTask p f = s := by
  rw [Sched.modifyTask, h, Function.update_eq_self]

@[simp] theorem modifyTask_lotteryRq : (s.modifyTask p f).lotteryRq = s.lotteryRq := rfl

@[simp] theorem modifyTask_queued : (s.modifyTask p f).queued env = s.queued env := rfl

@[simp] theorem modifyTask_totalTicket : (s.modifyTask p f).totalTicket = s.totalTicket := rfl

@[simp] theorem modifyTask_live : (s.modifyTask p f).live = s.live := rfl

end Simp

/-! ## The tree -/

def setAccu (a : UInt64) (t : TaskStruct T) : TaskStruct T :=
  { t with lotteryTask := { t.lotteryTask with accuTicket := a } }

/-- `accu_ticket` of the node at the root of a subtree. -/
def accuOf (m : T → TaskStruct T) : BinTree T → UInt64
  | .nil => 0
  | .node _ p _ => (m p).lotteryTask.accuTicket

/-- The four cases of `update_postorder`, by which children there are. -/
def nodeAccu (m : T → TaskStruct T) (p : T) : BinTree T → BinTree T → UInt64
  | l@(.node ..), r@(.node ..) => accuOf m l + accuOf m r + (m p).lotteryTask.ticket
  | l@(.node ..), .nil => accuOf m l + (m p).lotteryTask.ticket
  | .nil, r@(.node ..) => accuOf m r + (m p).lotteryTask.ticket
  | .nil, .nil => (m p).lotteryTask.ticket

def updatePostorder : BinTree T → (T → TaskStruct T) → T → TaskStruct T
  | .nil, m => m
  | .node l p r, m =>
      let m := updatePostorder r (updatePostorder l m)
      Function.update m p (setAccu (nodeAccu m p l r) (m p))

def recalcAccuLottery (s : Sched T) : Sched T :=
  { s with tasks := updatePostorder s.lotteryRq.lotteryRbRoot s.tasks }

def Sched.setRoot (s : Sched T) (t : BinTree T) : Sched T :=
  { s with lotteryRq := { s.lotteryRq with lotteryRbRoot := t } }

def removeLotteryRbTask (env : Env T) (p : T) (s : Sched T) : Sched T :=
  recalcAccuLottery (s.setRoot (env.rbErase p s.lotteryRq.lotteryRbRoot))

/-- The key by which a node finds its place in the tree. -/
def nodeTicket (m : T → TaskStruct T) (p : T) : ℕ := (m p).lotteryTask.ticket.toNat

def insertLotteryRbTask (env : Env T) (p : T) (s : Sched T) : Sched T :=
  recalcAccuLottery
    (s.setRoot (env.rbInsertColor p (link (nodeTicket s.tasks) p s.lotteryRq.lotteryRbRoot)))

/-! ## The list -/

def Sched.setList (s : Sched T) (l : List T) : Sched T :=
  { s with lotteryRq := { s.lotteryRq with lotteryListHead := l } }

def removeLotteryTask (p : T) (s : Sched T) : Sched T := s.setList (s.lotteryRq.lotteryListHead.erase p)

def insertLotteryTask (p : T) (s : Sched T) : Sched T := s.setList (s.lotteryRq.lotteryListHead ++ [p])

/-! ## Enqueue and dequeue -/

/-- Count a task in or out: the tickets, and one more or one less running. -/
def Sched.count (s : Sched T) (total : UInt64) (running : ℤ) : Sched T :=
  { s with
    totalTicket := total
    lotteryRq := { s.lotteryRq with nrRunning := s.lotteryRq.nrRunning + running } }

def enqueueTaskLottery (env : Env T) (p : T) (s : Sched T) : Sched T :=
  let s := if env.rbPolicy then insertLotteryRbTask env p s else insertLotteryTask p s
  s.count (s.totalTicket + (s.tasks p).ticket) 1

def dequeueTaskLottery (env : Env T) (p : T) (s : Sched T) : Sched T :=
  let s := if env.rbPolicy then removeLotteryRbTask env p s else removeLotteryTask p s
  s.count (s.totalTicket - (s.tasks p).ticket) (-1)

/-! ## A tree that is never rebalanced -/

def join : BinTree T → BinTree T → BinTree T
  | .nil, t => t
  | .node l x r, t => .node l x (join r t)

def eraseNode (p : T) : BinTree T → BinTree T
  | .nil => .nil
  | .node l x r =>
      if p ∈ l.inorder then .node (eraseNode p l) x r
      else if x = p then join l r
      else .node l x (eraseNode p r)

omit [DecidableEq T] in
theorem inorder_join (t t' : BinTree T) : (join t t').inorder = t.inorder ++ t'.inorder := by
  induction t with
  | nil => rfl
  | node l x r ihl ihr => simp [join, ihr]

theorem inorder_eraseNode (p : T) (t : BinTree T) :
    (eraseNode p t).inorder = t.inorder.erase p := by
  induction t with
  | nil => rfl
  | node l x r ihl ihr =>
    rw [eraseNode, BinTree.inorder_node, List.erase_append]
    split
    · rw [BinTree.inorder_node, ihl]
    · split
      · next h => simp [inorder_join, h]
      · next h => simp [ihr, h]

/-- Nodes are hung below leaves and taken out, and subtrees never move. -/
def Env.plain (rbPolicy : Bool) : Env T := ⟨rbPolicy, fun _ t => t, eraseNode⟩

theorem Env.plain_keepsOrder (rbPolicy : Bool) : (Env.plain rbPolicy : Env T).KeepsOrder :=
  ⟨fun _ _ => rfl, inorder_eraseNode⟩

/-! ## What a recalculation leaves alone -/

/-- A task without the subtree sum kept in its node. -/
def TaskStruct.bare (t : TaskStruct T) : TaskStruct T := setAccu 0 t

omit [DecidableEq T] in
theorem bare_setAccu (a : UInt64) (t : TaskStruct T) : (setAccu a t).bare = t.bare := rfl

theorem updatePostorder_bare (t : BinTree T) : ∀ m : T → TaskStruct T,
    (updatePostorder t m q).bare = (m q).bare := by
  induction t with
  | nil => exact fun _ => rfl
  | node l p r ihl ihr =>
    intro m
    rw [updatePostorder]
    by_cases h : q = p
    · subst h
      rw [Function.update_self, bare_setAccu, ihr, ihl]
    · rw [Function.update_of_ne h, ihr, ihl]

theorem updatePostorder_not_mem (t : BinTree T) (h : q ∉ t.inorder) : ∀ m : T → TaskStruct T,
    updatePostorder t m q = m q := by
  induction t with
  | nil => exact fun _ => rfl
  | node l p r ihl ihr =>
    intro m
    simp only [BinTree.inorder_node, List.mem_append, List.mem_cons, not_or] at h
    rw [updatePostorder, Function.update_of_ne h.2.1, ihr h.2.2, ihl h.1]

section Count
omit [DecidableEq T]

@[simp] theorem count_tasks (total : UInt64) (n : ℤ) : (s.count total n).tasks = s.tasks := rfl

@[simp] theorem count_live (total : UInt64) (n : ℤ) : (s.count total n).live = s.live := rfl

@[simp] theorem count_totalTicket (total : UInt64) (n : ℤ) : (s.count total n).totalTicket = total :=
  rfl

@[simp] theorem count_queued (total : UInt64) (n : ℤ) : (s.count total n).queued env = s.queued env :=
  rfl

end Count

end LkpProjects.Lottery
