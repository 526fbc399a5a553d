import LkpProjects.Library.Format
import LkpProjects.Lottery.Accounting

/-! # The event log of the lottery class

Every call of the class that moves a task or draws a winner writes a line into a global table, and so does
`schedule`; a full table takes no more lines. A line is cut to the size of a message, but the pid behind its first
words stays (`pidOf_queueLine`). `log_tells_queue` is that whoever reads the lines of a table that is not full, and
nothing else, knows the pids of the queue; a full table tells the queue of the moment when it became full.
-/
namespace LkpProjects.Lottery
open Nand Bytes Format WeightedTree Stepwise
set_option autoImplicit false

variable {T : Type} [DecidableEq T]

/-! ## The table -/

inductive Action
  | msg | win | enqueue | dequeue | taskDone | contextSwitch
  deriving DecidableEq

structure LotteryEvent where
  action : Action
  timestamp : UInt64
  msg : CStr

/-- `LOTTERY_MAX_EVENT_LINES` and `LOTTERY_MSG_SIZE`. -/
structure LogSizes where
  maxEventLines : ℕ
  msgSize : ℕ
  msgSize_pos : 0 < msgSize

/-- `snprintf(msg, LOTTERY_MSG_SIZE, …)`. -/
def LogSizes.snprintf (c : LogSizes) (pieces : List Piece) : CStr :=
  Format.Append.kept ⟨c.msgSize, pieces, c.msgSize_pos⟩

def strncpy (s : CStr) (n : ℕ) : CStr := ⟨s.bytes.take n, fun b hb => s.noNul b (List.mem_of_mem_take hb)⟩

/-- The last byte of a message in the table is never written and stays NUL. -/
def registerLotteryEvent (c : LogSizes) (time : UInt64) (message : CStr) (event : Action) (log : List LotteryEvent) :
    List LotteryEvent :=
  if log.length < c.maxEventLines then log ++ [⟨event, time, strncpy message (c.msgSize - 1)⟩] else log

/-- The first line, with the two counters that were just set. -/
def initPieces : List Piece := ["init_lottery_event_log:(", .num 0, ":", .num 0, ")"]

def initLotteryEventLog (c : LogSizes) (time : UInt64) : List LotteryEvent :=
  registerLotteryEvent c time (c.snprintf initPieces) .msg []

/-! ## The calls that write lines -/

/-- The scheduler with the pids of its tasks, the globals of the draws and the table. -/
structure Logged (T : Type) where
  sched : Sched T
  pid : T → Int32
  luckyTicket : UInt64
  luckyTicket2 : UInt64
  log : List LotteryEvent

/-- What `sched_clock` returns in a call: at its beginning, for the time it took, and for its lines. -/
structure Clock where
  start : UInt64
  now : UInt64
  stamp : UInt64
  stamp2 : UInt64

def fmtLlu (n : UInt64) : Piece := .num n.toNat

namespace Logged
variable (c : LogSizes) (env : Env T) (t : Clock) (s : Logged T)

omit [DecidableEq T] in
def register (time : UInt64) (pieces : List Piece) (event : Action) : Logged T :=
  { s with log := registerLotteryEvent c time (c.snprintf pieces) event s.log }

def fmtPid (p : T) : Piece := .num (s.pid p).toInt

def fmtTicket (p : T) : Piece := fmtLlu (s.sched.tasks p).ticket

/-- The lines "EN" and "DE". -/
def queueLine (tag : String) (p : T) : List Piece :=
  [tag, s.fmtPid p, " t:", s.fmtTicket p, " tt:", fmtLlu s.sched.totalTicket, " TIME:", fmtLlu (t.now - t.start)]

def enqueue (p : T) : Logged T :=
  let s := { s with sched := enqueueTaskLottery env p s.sched }
  s.register c t.stamp (s.queueLine t "EN pid:" p) .enqueue

/-- `done` for a task in one of the states `TASK_DEAD`, `EXIT_DEAD` and `EXIT_ZOMBIE`. -/
def dequeue (p : T) (done : Bool) : Logged T :=
  let s := { s with sched := dequeueTaskLottery env p s.sched }
  let s := s.register c t.stamp (s.queueLine t "DE pid:" p) .dequeue
  if done then s.register c t.stamp2 ["DONE pid:", s.fmtPid p, " t:", s.fmtTicket p] .taskDone else s

/-- `who_is_winner`: the number drawn, and the task behind the winner; `none` for a winner without a task. -/
def draw (random : UInt32) : Option (Option T × Logged T) :=
  let lucky := if s.sched.totalTicket = 0 then 0 else luckyOf random s.sched.totalTicket
  let s := if env.rbPolicy then { s with luckyTicket2 := lucky } else { s with luckyTicket := lucky }
  match whoIsWinner env s.sched random with
  | none => some (none, s)
  | some w =>
    match (s.sched.tasks w).lotteryTask.task with
    | none => none
    | some q =>
      let pieces : List Piece := ["WinnerPid:", s.fmtPid q, " luckt:", fmtLlu lucky, " t:", s.fmtTicket q,
        .lit (if env.rbPolicy then "  tt:" else " tt:"), fmtLlu s.sched.totalTicket, " TIME:", fmtLlu (t.now - t.start)]
      some (some q, s.register c t.stamp pieces .win)

/-- The line of `pick_next_task_lottery`. -/
def pickLine (curr q : T) (luck : UInt64) : List Piece :=
  ["PICK prevPID:(", s.fmtPid curr, ":", s.fmtTicket curr, ") nextPID(", s.fmtPid q, ":", s.fmtTicket q, ") LUCK:",
    fmtLlu luck]

/-- Each build prints the number of the other one. -/
def pickNext (curr : T) (random : UInt32) : Option (Logged T) :=
  if s.sched.totalTicket = 0 then some s
  else
    match s.draw c env t random with
    | none => none
    | some (none, s) => some s
    | some (some q, s) =>
      some (s.register c t.stamp2 (s.pickLine curr q (if env.rbPolicy then s.luckyTicket else s.luckyTicket2)) .msg)

/-- The line of `schedule`. -/
def contextSwitch (prev next : T) : Logged T :=
  match (s.sched.tasks prev).policy, (s.sched.tasks next).policy with
  | .lottery, .lottery => s.register c t.stamp ["CONTEX prev->(", s.fmtPid prev, ":", s.fmtTicket prev, "),next->(",
      s.fmtPid next, ":", s.fmtTicket next, ")"] .contextSwitch
  | .lottery, _ => s.register c t.stamp ["SCHED prev->(", s.fmtPid prev, ":", s.fmtTicket prev, "),next->(",
      s.fmtPid next, ":-1)"] .contextSwitch
  | _, .lottery => s.register c t.stamp ["SCHED prev->(", s.fmtPid prev, ":-1),next->(", s.fmtPid next, ":",
      s.fmtTicket next, ")"] .contextSwitch
  | _, _ => s

end Logged

/-- The calls, and what the rest of the kernel does between them. -/
inductive LogCall (T : Type) where
  | enqueue (p : T)
  | dequeue (p : T) (done : Bool)
  | draw (random : UInt32)
  | pickNext (curr : T) (random : UInt32)
  | contextSwitch (prev next : T)
  | other (sched : Sched T) (pid : T → Int32)

def LogCall.exec (c : LogSizes) (env : Env T) (t : Clock) (s : Logged T) : LogCall T → Option (Logged T)
  | .enqueue p => some (s.enqueue c env t p)
  | .dequeue p done => some (s.dequeue c env t p done)
  | .draw random => (s.draw c env t random).map Prod.snd
  | .pickNext curr random => s.pickNext c env t curr random
  | .contextSwitch prev next => some (s.contextSwitch c t prev next)
  | .other sched pid => some { s with sched := sched, pid := pid }

/-- Only tasks of the queue are dequeued, any task is enqueued, also one that is queued already, and the rest of
the kernel leaves the queue and its pids alone. -/
def LogCall.Allowed (env : Env T) (s : Logged T) : LogCall T → Prop
  | .dequeue p _ => p ∈ s.sched.queued env
  | .other sched pid => sched.queued env = s.sched.queued env ∧ ∀ q ∈ s.sched.queued env, pid q = s.pid q
  | _ => True

def LogCall.Step (c : LogSizes) (env : Env T) (s : Logged T) (e : LogCall T × Clock) (s' : Logged T) : Prop :=
  e.1.Allowed env s ∧ e.1.exec c env e.2 s = some s'

/-! ## What a line tells -/

/-- The number behind "EN pid:" or "DE pid:". -/
def pidOf (msg : CStr) : ℤ := intValue (msg.bytes.drop 7)

section Line
variable {c : LogSizes} {env : Env T} {t : Clock} {s : Logged T} {tag : String} {p : T}

omit [DecidableEq T] in
/-- The message may be cut, but not before the end of the pid. -/
theorem pidOf_queueLine (hsize : 19 ≤ c.msgSize) (htag : (literal tag).len = 7) :
    pidOf (strncpy (c.snprintf (s.queueLine t tag p)) (c.msgSize - 1)) = (s.pid p).toInt := by
  obtain ⟨rest, hrest⟩ : ∃ rest, (Format.Append.text ⟨c.msgSize, s.queueLine t tag p, c.msgSize_pos⟩).bytes =
      (literal tag).bytes ++ ((Piece.num (s.pid p).toInt).render.bytes ++ 32 :: rest) := by
    simp only [Format.Append.text, concat, Logged.queueLine, List.map_cons, List.flatMap_cons]
    exact ⟨_, rfl⟩
  have hbytes : (strncpy (c.snprintf (s.queueLine t tag p)) (c.msgSize - 1)).bytes =
      ((literal tag).bytes ++ ((Piece.num (s.pid p).toInt).render.bytes ++ 32 :: rest)).take (c.msgSize - 1) := by
    rw [← hrest]
    show (List.take _ (List.take _ _)) = _
    rw [List.take_take, Nat.min_self]
  have hwidth := width_int32 (s.pid p)
  have hends : Ends (32 :: rest) := ends_cons (by decide)
  rw [pidOf, hbytes, List.drop_take, List.drop_left' htag]
  exact intValue_num_take _ hends (by omega)

end Line

/-- What a reader of the table knows of the queue after one more line. -/
def readLine (pids : List ℤ) (e : LotteryEvent) : List ℤ :=
  match e.action with
  | .enqueue => pidOf e.msg :: pids
  | .dequeue => pids.erase (pidOf e.msg)
  | _ => pids

def readLog (log : List LotteryEvent) : List ℤ := log.foldl readLine []

/-- The table tells the pids of the queue. -/
def Tells (env : Env T) (s : Logged T) : Prop :=
  (readLog s.log).Perm ((s.sched.queued env).map fun q => (s.pid q).toInt)

/-- What neither moves a task nor tells so: the queue stays, and lines of other kinds may be written. -/
structure Aside (c : LogSizes) (s s' : Logged T) : Prop where
  sched : s'.sched = s.sched
  pid : s'.pid = s.pid
  read : readLog s'.log = readLog s.log
  full : ¬ s.log.length < c.maxEventLines → s'.log = s.log

section Steps
variable {c : LogSizes} {env : Env T} {t : Clock} {s s' s'' : Logged T} {p : T} {event : Action} {pieces : List Piece}
  {time : UInt64}

omit [DecidableEq T] in
theorem readLog_register (hroom : s.log.length < c.maxEventLines) : readLog (s.register c time pieces event).log =
    readLine (readLog s.log) ⟨event, time, strncpy (c.snprintf pieces) (c.msgSize - 1)⟩ := by
  simp only [Logged.register, registerLotteryEvent, if_pos hroom, readLog, List.foldl_append, List.foldl_cons,
    List.foldl_nil]

omit [DecidableEq T] in
theorem register_full (hfull : ¬ s.log.length < c.maxEventLines) : (s.register c time pieces event).log = s.log :=
  if_neg hfull

namespace Aside
omit [DecidableEq T]

theorem refl (c : LogSizes) (s : Logged T) : Aside c s s := ⟨rfl, rfl, rfl, fun _ => rfl⟩

theorem trans (h : Aside c s s') (h' : Aside c s' s'') : Aside c s s'' where
  sched := h'.sched.trans h.sched
  pid := h'.pid.trans h.pid
  read := h'.read.trans h.read
  full hfull := by
    have hsame := h.full hfull
    rw [← hsame] at hfull
    exact (h'.full hfull).trans hsame

/-- A line that is not about the queue. -/
theorem register (he : event ≠ .enqueue) (hd : event ≠ .dequeue) : Aside c s (s.register c time pieces event) where
  sched := rfl
  pid := rfl
  read := by
    by_cases hroom : s.log.length < c.maxEventLines
    · rw [readLog_register hroom]
      cases event with
      | enqueue => exact absurd rfl he
      | dequeue => exact absurd rfl hd
      | msg => rfl
      | win => rfl
      | taskDone => rfl
      | contextSwitch => rfl
    · rw [register_full hroom]
  full := register_full

theorem draw {random : UInt32} {q : Option T} (he : s.draw c env t random = some (q, s')) : Aside c s s' := by
  unfold Logged.draw at he
  dsimp only at he
  have hlucky : ∀ lucky,
      Aside c s (if env.rbPolicy then { s with luckyTicket2 := lucky } else { s with luckyTicket := lucky }) := by
    intro lucky
    split
    · exact ⟨rfl, rfl, rfl, fun _ => rfl⟩
    · exact ⟨rfl, rfl, rfl, fun _ => rfl⟩
  split at he
  · obtain ⟨-, rfl⟩ := Prod.mk.inj (Option.some.inj he)
    exact hlucky _
  · split at he
    · cases he
    · obtain ⟨-, rfl⟩ := Prod.mk.inj (Option.some.inj he)
      exact (hlucky _).trans (.register (by decide) (by decide))

theorem pickNext {curr : T} {random : UInt32} (he : s.pickNext c env t curr random = some s') : Aside c s s' := by
  unfold Logged.pickNext at he
  split at he
  · obtain rfl := Option.some.inj he
    exact .refl c s
  · split at he
    · cases he
    · next hdraw =>
      obtain rfl := Option.some.inj he
      exact draw hdraw
    · next hdraw =>
      obtain rfl := Option.some.inj he
      exact (draw hdraw).trans (.register (by decide) (by decide))

theorem contextSwitch (prev next : T) : Aside c s (s.contextSwitch c t prev next) := by
  unfold Logged.contextSwitch
  split
  · exact .register (by decide) (by decide)
  · exact .register (by decide) (by decide)
  · exact .register (by decide) (by decide)
  · exact .refl c s

theorem tells (h : Aside c s s') (hT : Tells env s) : Tells env s' := by
  rw [Tells, h.read, h.sched, h.pid]
  exact hT

end Aside

section Queue
variable (hk : env.KeepsOrder) (hsize : 19 ≤ c.msgSize) (hroom : s.log.length < c.maxEventLines) (hT : Tells env s)
include hk hsize hroom hT

theorem Tells.enqueue (p : T) : Tells env (s.enqueue c env t p) := by
  have hread : readLog (s.enqueue c env t p).log = (s.pid p).toInt :: readLog s.log := by
    exact (readLog_register (s := { s with sched := enqueueTaskLottery env p s.sched }) hroom).trans
      (congrArg (fun n => n :: readLog s.log) (pidOf_queueLine hsize rfl))
  have hmoved := (enqueue_requeued hk s.sched p).queued.map fun q => (s.pid q).toInt
  rw [Tells, hread]
  exact (hT.cons _).trans hmoved.symm

theorem Tells.dequeue (hp : p ∈ s.sched.queued env) (done : Bool) : Tells env (s.dequeue c env t p done) := by
  have hmoved := (dequeue_requeued hk s.sched p).queued.map fun q => (s.pid q).toInt
  have hrest : ((s.sched.queued env).map fun q => (s.pid q).toInt).Perm
      ((s.pid p).toInt :: ((s.sched.queued env).erase p).map fun q => (s.pid q).toInt) :=
    (List.perm_cons_erase hp).map _
  have hread : readLog (s.dequeue c env t p false).log = (readLog s.log).erase (s.pid p).toInt := by
    exact (readLog_register (s := { s with sched := dequeueTaskLottery env p s.sched }) hroom).trans
      (congrArg (fun n => (readLog s.log).erase n) (pidOf_queueLine hsize rfl))
  have hline : Tells env (s.dequeue c env t p false) := by
    rw [Tells, hread]
    have herase := (hT.trans hrest).erase (s.pid p).toInt
    rw [List.erase_cons_head] at herase
    exact herase.trans hmoved.symm
  cases done with
  | false => exact hline
  | true => exact (Aside.register (by decide) (by decide)).tells hline

end Queue

/-- While the table has room it goes on telling the queue. -/
theorem Tells.step (hk : env.KeepsOrder) (hsize : 19 ≤ c.msgSize) (hroom : s.log.length < c.maxEventLines)
    (hT : Tells env s) {e : LogCall T × Clock} (h : LogCall.Step c env s e s') : Tells env s' := by
  obtain ⟨call, t⟩ := e
  obtain ⟨hok, he⟩ := h
  cases call with
  | enqueue p =>
    obtain rfl := Option.some.inj he
    exact hT.enqueue hk hsize hroom p
  | dequeue p done =>
    obtain rfl := Option.some.inj he
    exact hT.dequeue hk hsize hroom hok done
  | draw random =>
    obtain ⟨⟨q, s₁⟩, hdraw, rfl⟩ := Option.map_eq_some_iff.mp he
    exact (Aside.draw hdraw).tells hT
  | pickNext curr random => exact (Aside.pickNext he).tells hT
  | contextSwitch prev next =>
    obtain rfl := Option.some.inj he
    exact (Aside.contextSwitch prev next).tells hT
  | other sched pid =>
    obtain rfl := Option.some.inj he
    obtain ⟨hqueue, hpid⟩ := hok
    rw [Tells]
    dsimp only
    rw [hqueue, List.map_congr_left fun q hq => by rw [hpid q hq]]
    exact hT

/-- A full table stays as it is. -/
theorem log_full (hfull : ¬ s.log.length < c.maxEventLines) {e : LogCall T × Clock} (h : LogCall.Step c env s e s') :
    s'.log = s.log := by
  obtain ⟨call, t⟩ := e
  obtain ⟨-, he⟩ := h
  cases call with
  | enqueue p =>
    obtain rfl := Option.some.inj he
    exact register_full hfull
  | dequeue p done =>
    obtain rfl := Option.some.inj he
    have hline : (s.dequeue c env t p false).log = s.log :=
      register_full (s := { s with sched := dequeueTaskLottery env p s.sched }) hfull
    cases done with
    | false => exact hline
    | true =>
      rw [← hline] at hfull
      exact (register_full (s := s.dequeue c env t p false) hfull).trans hline
  | draw random =>
    obtain ⟨⟨q, s₁⟩, hdraw, rfl⟩ := Option.map_eq_some_iff.mp he
    exact (Aside.draw hdraw).full hfull
  | pickNext curr random => exact (Aside.pickNext he).full hfull
  | contextSwitch prev next =>
    obtain rfl := Option.some.inj he
    exact (Aside.contextSwitch prev next).full hfull
  | other sched pid =>
    obtain rfl := Option.some.inj he
    rfl

/-- A run either has room to its end, or there was a moment when the table became full. -/
theorem Tells.run (hk : env.KeepsOrder) (hsize : 19 ≤ c.msgSize) {es : List (LogCall T × Clock)}
    (hr : Run (LogCall.Step c env) s es s') : Tells env s → (s'.log.length < c.maxEventLines → Tells env s') ∧
      ∃ es₁ es₂ m, es = es₁ ++ es₂ ∧ Run (LogCall.Step c env) s es₁ m ∧ Run (LogCall.Step c env) m es₂ s' ∧
        s'.log = m.log ∧ Tells env m := by
  induction hr with
  | nil s => exact fun hT => ⟨fun _ => hT, [], [], s, rfl, .nil s, .nil s, rfl, hT⟩
  | @cons s s₁ s' e es h hr ih =>
    intro hT
    by_cases hroom : s.log.length < c.maxEventLines
    · obtain ⟨hend, es₁, es₂, m, rfl, hr₁, hr₂, hlog, hm⟩ := ih (hT.step hk hsize hroom h)
      exact ⟨hend, e :: es₁, es₂, m, rfl, .cons h hr₁, hr₂, hlog, hm⟩
    · have hsame : s'.log = s.log := (Run.cons h hr).invariant (I := fun s₂ => s₂.log = s.log)
        (fun s₂ _ _ hs₂ h₂ => (log_full (by rwa [hs₂]) h₂).trans hs₂) rfl
      refine ⟨fun hlt => absurd hlt (by rwa [hsame]), [], e :: es, s, rfl, .nil s, .cons h hr, hsame, hT⟩

end Steps

/-- The global whose number the build prints is never written, so that the lines of picks end with 0. -/
structure LuckZero (c : LogSizes) (env : Env T) (s : Logged T) : Prop where
  global : (if env.rbPolicy then s.luckyTicket else s.luckyTicket2) = 0
  lines : ∀ e ∈ s.log, e.action = .msg → e.msg = strncpy (c.snprintf initPieces) (c.msgSize - 1) ∨
    ∃ (m : Logged T) (curr q : T), e.msg = strncpy (c.snprintf (m.pickLine curr q 0)) (c.msgSize - 1)

namespace LuckZero
variable {c : LogSizes} {env : Env T} {t : Clock} {s s' : Logged T} {event : Action} {pieces : List Piece}
  {time : UInt64}

omit [DecidableEq T] in
theorem register (hL : LuckZero c env s)
    (hmsg : event = .msg → ∃ (m : Logged T) (curr q : T), pieces = m.pickLine curr q 0) :
    LuckZero c env (s.register c time pieces event) where
  global := hL.global
  lines e he hact := by
    simp only [Logged.register, registerLotteryEvent] at he
    split at he
    · obtain he | he := List.mem_append.mp he
      · exact hL.lines e he hact
      · obtain rfl := List.mem_singleton.mp he
        obtain ⟨m, curr, q, rfl⟩ := hmsg hact
        exact .inr ⟨m, curr, q, rfl⟩
    · exact hL.lines e he hact

omit [DecidableEq T] in
theorem register_other (hL : LuckZero c env s) (hne : event ≠ .msg) : LuckZero c env (s.register c time pieces event) :=
  hL.register fun hmsg => absurd hmsg hne

omit [DecidableEq T] in
theorem draw (hL : LuckZero c env s) {random : UInt32} {q : Option T} (he : s.draw c env t random = some (q, s')) :
    LuckZero c env s' := by
  unfold Logged.draw at he
  dsimp only at he
  have hlucky : ∀ lucky,
      LuckZero c env (if env.rbPolicy then { s with luckyTicket2 := lucky } else { s with luckyTicket := lucky }) := by
    intro lucky
    have hglobal := hL.global
    cases hrb : env.rbPolicy with
    | true =>
      rw [hrb] at hglobal
      exact ⟨by rw [hrb]; exact hglobal, hL.lines⟩
    | false =>
      rw [hrb] at hglobal
      exact ⟨by rw [hrb]; exact hglobal, hL.lines⟩
  split at he
  · obtain ⟨-, rfl⟩ := Prod.mk.inj (Option.some.inj he)
    exact hlucky _
  · split at he
    · cases he
    · obtain ⟨-, rfl⟩ := Prod.mk.inj (Option.some.inj he)
      exact (hlucky _).register_other (by decide)

theorem step (hL : LuckZero c env s) {e : LogCall T × Clock} (h : LogCall.Step c env s e s') : LuckZero c env s' := by
  obtain ⟨call, t⟩ := e
  obtain ⟨-, he⟩ := h
  cases call with
  | enqueue p =>
    obtain rfl := Option.some.inj he
    have hmoved : LuckZero c env { s with sched := enqueueTaskLottery env p s.sched } := ⟨hL.global, hL.lines⟩
    exact hmoved.register_other (by decide)
  | dequeue p done =>
    obtain rfl := Option.some.inj he
    have hmoved : LuckZero c env { s with sched := dequeueTaskLottery env p s.sched } := ⟨hL.global, hL.lines⟩
    have hline : LuckZero c env (s.dequeue c env t p false) := hmoved.register_other (by decide)
    cases done with
    | false => exact hline
    | true => exact hline.register_other (by decide)
  | draw random =>
    obtain ⟨⟨q, s₁⟩, hdraw, rfl⟩ := Option.map_eq_some_iff.mp he
    exact hL.draw hdraw
  | pickNext curr random =>
    have hpick : s.pickNext c env t curr random = some s' := he
    unfold Logged.pickNext at hpick
    split at hpick
    · obtain rfl := Option.some.inj hpick
      exact hL
    · split at hpick
      · cases hpick
      · next hdraw =>
        obtain rfl := Option.some.inj hpick
        exact hL.draw hdraw
      · next s₁ hdraw =>
        obtain rfl := Option.some.inj hpick
        have hL₁ := hL.draw hdraw
        exact hL₁.register fun _ => ⟨s₁, curr, _, by rw [hL₁.global]⟩
  | contextSwitch prev next =>
    obtain rfl := Option.some.inj he
    show LuckZero c env (s.contextSwitch c t prev next)
    unfold Logged.contextSwitch
    split
    · exact hL.register_other (by decide)
    · exact hL.register_other (by decide)
    · exact hL.register_other (by decide)
    · exact hL
  | other sched pid =>
    obtain rfl := Option.some.inj he
    exact ⟨hL.global, hL.lines⟩

end LuckZero

/-- In both builds every line of a pick ends with the number 0: each prints the global that the other build writes. -/
theorem pick_lines_zero {c : LogSizes} {env : Env T} {time : UInt64} {s₀ s : Logged T} {es : List (LogCall T × Clock)}
    (hlog : s₀.log = initLotteryEventLog c time) (hlucky : s₀.luckyTicket = 0) (hlucky2 : s₀.luckyTicket2 = 0)
    (hr : Run (LogCall.Step c env) s₀ es s) : LuckZero c env s := by
  refine hr.invariant (fun _ _ _ hL h => LuckZero.step hL h) ⟨?_, fun e he _ => .inl ?_⟩
  · rw [hlucky, hlucky2, ite_self]
  · rw [hlog, initLotteryEventLog, registerLotteryEvent] at he
    split at he
    · obtain rfl := List.mem_singleton.mp he
      rfl
    · cases he

/-- A task with 5 tickets is picked by the number 3. -/
theorem pick_lines_zero_one : ∃ (e : LotteryEvent) (s : Logged ℕ), s.log.getLast? = some e ∧ e.action = .msg ∧
    e.msg = LogSizes.snprintf ⟨9, 100, by decide⟩ ["PICK prevPID:(", .num 1, ":", .num 0, ") nextPID(", .num 7, ":",
      .num 5, ") LUCK:", .num 0] ∧ s.luckyTicket = 3 ∧ LuckZero ⟨9, 100, by decide⟩ (.plain false) s := by
  have hrun : Run (LogCall.Step (T := ℕ) ⟨9, 100, by decide⟩ (.plain false))
      ⟨.boot fun _ => true, fun p => .ofNat p, 0, 0, initLotteryEventLog ⟨9, 100, by decide⟩ 0⟩
      [(.other ((Sched.boot fun _ => true).modifyTask 7 fun t => { t with ticket := 5, lotteryTask := ⟨5, 0, some 7⟩ })
        fun p => .ofNat p, ⟨0, 0, 0, 0⟩), (.enqueue 7, ⟨0, 1, 2, 3⟩), (.pickNext 1 2, ⟨4, 5, 6, 7⟩)] _ :=
    .cons ⟨⟨rfl, fun _ _ => rfl⟩, rfl⟩ (.cons ⟨trivial, rfl⟩ (.cons ⟨trivial, rfl⟩ (.nil _)))
  exact ⟨_, _, rfl, rfl, rfl, rfl, pick_lines_zero rfl rfl rfl hrun⟩

end LkpProjects.Lottery
