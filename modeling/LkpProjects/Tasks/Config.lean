import LkpProjects.Library.Lines

/-! # The configuration file of the lottery tasks

`get_lottery_tasks_config_info` reads the file line by line into one buffer. The first line that is not empty
is the duration (`getIntVal`), every other one a task (`getLotteryTaskConfigInfo`). Both walk to the next tab
and look at nothing else, so a walk goes on behind the line, and behind the buffer (`Fault.outOfBuffer`),
where a tab is missing. All positions that are read are kept, with the length of the line they belong to.
-/
namespace LkpProjects.Tasks
open Nand Bytes Format Lines
set_option autoImplicit false

def bufLen : ℕ := 200
def lotteryTasksNum : ℕ := 200
def tab : Byte := ascii '\t'

/-- The members of an array element that the file sets. -/
structure LotteryTasksConfig where
  pid : Int32
  tickets : UInt64
  maxExec : Int32
  deriving DecidableEq

inductive Fault where
  | outOfBuffer
  /-- The rounds given to the loop over the lines were too few. -/
  | outOfRounds

/-! ## The duration -/

/-- `for (s = str; *s != '\t'; s++);` from position `s`, with `rest` of the buffer from there on. -/
def findTab (s : ℕ) : List Byte → Except Fault ℕ
  | [] => .error .outOfBuffer
  | c :: rest => if c = tab then .ok s else findTab (s + 1) rest

structure IntVal where
  val : Int32
  str : Buffer bufLen
  reads : List ℕ

def getIntVal (str : Buffer bufLen) : Except Fault IntVal := do
  let s ← findTab 0 str.bytes
  let str := put str s 0
  return {
    val := atoi str.bytes
    str := str
    reads := List.range (s + 1) ++ List.range (strtoll str.bytes).looked }

/-! ## A task -/

/-- The locals of the walk over a task's line, with the buffer, the element `tasks[*n]` and the positions
read so far. -/
structure Fields where
  str : Buffer bufLen
  s : ℕ
  s1 : ℕ
  i : ℕ
  task : LotteryTasksConfig
  reads : List ℕ

/-- The assignment in the case `i` of the switch. -/
def LotteryTasksConfig.assign (t : LotteryTasksConfig) (i : ℕ) (s1 : List Byte) : LotteryTasksConfig :=
  match i with
  | 0 => { t with pid := atoi s1 }
  | 1 => { t with tickets := UInt64.ofInt (strtoll s1).value }
  | 2 => { t with maxExec := atoi s1 }
  | _ => t

/-- What is done at a tab. The loop gets here with `i < 3` only, and the three cases differ in the member. -/
def Fields.convert (f : Fields) : Fields :=
  let str := put f.str f.s 0
  let arg := str.bytes.drop f.s1
  { str := str
    s := f.s
    s1 := f.s + 1
    i := f.i + 1
    task := f.task.assign f.i arg
    reads := f.reads ++ List.range' f.s1 (strtoll arg).looked }

/-- The body of the loop with `c` at `*s`. -/
def Fields.step (f : Fields) (c : Byte) : Fields :=
  let f := { f with reads := f.reads ++ [f.s] }
  let f := if c = tab then f.convert else f
  { f with s := f.s + 1 }

/-- `while (i < 3)`, with `rest` of the buffer from `s` on; the walk only writes behind itself. -/
def fieldLoop (rest : List Byte) (f : Fields) : Except Fault Fields :=
  if f.i < 3 then
    match rest with
    | [] => .error .outOfBuffer
    | c :: rest => fieldLoop rest (f.step c)
  else .ok f

/-- The element `task` is what the array holds at `*n` before. -/
def getLotteryTaskConfigInfo (str : Buffer bufLen) (task : LotteryTasksConfig) : Except Fault Fields :=
  fieldLoop str.bytes { str := str, s := 0, s1 := 0, i := 0, task := task, reads := [] }

/-! ## The file -/

/-- A read at `pos` of a line of length `len`. -/
structure Read where
  pos : ℕ
  len : ℕ

/-- Neither before the line nor behind its terminator. -/
def Read.Within (r : Read) : Prop := r.pos ≤ r.len

/-- The elements from `LOTTERY_TASKS_NUM` on lie behind the array. -/
structure Parse where
  buffer : Buffer bufLen
  count : ℕ
  duration : Option Int32
  tasks : List LotteryTasksConfig
  reads : List Read

/-- An element as `clear_lottery_tasks_config_info` leaves it. -/
def clearedTask : LotteryTasksConfig := ⟨0, 0, 0⟩

/-- The body of the case `count == 0`, with `buffer[0] = '\0'` behind it. -/
def Parse.setDuration (p : Parse) (r : IntVal) : Parse where
  buffer := put r.str 0 0
  count := p.count + 1
  duration := some r.val
  tasks := p.tasks
  reads := p.reads ++ r.reads.map fun pos => ⟨pos, p.buffer.str.len⟩

/-- The body of the default case. -/
def Parse.addTask (p : Parse) (f : Fields) : Parse where
  buffer := put f.str 0 0
  count := p.count
  duration := p.duration
  tasks := p.tasks ++ [f.task]
  reads := p.reads ++ f.reads.map fun pos => ⟨pos, p.buffer.str.len⟩

/-- The body of the loop over the lines, with the line in the buffer. -/
def Parse.line (p : Parse) : Except Fault Parse :=
  if 1 < p.buffer.str.len then
    match p.count with
    | 0 => (getIntVal p.buffer).map p.setDuration
    | _ + 1 => (getLotteryTaskConfigInfo p.buffer clearedTask).map p.addTask
  else .ok { p with buffer := put p.buffer 0 0 }

def parseLoop : ℕ → List Byte → Parse → Except Fault Parse
  | 0, _, _ => .error .outOfRounds
  | rounds + 1, text, p =>
    match fgets (by decide) p.buffer text with
    | none => .ok p
    | some (buffer, text) => ({ p with buffer := buffer } : Parse).line >>= parseLoop rounds text

/-- The run on a file with `text`; `buffer` is what the uninitialised buffer holds. -/
def getLotteryTasksConfigInfo (rounds : ℕ) (buffer : Buffer bufLen) (text : List Byte) :
    Except Fault Parse :=
  parseLoop rounds text { buffer := put buffer 0 0, count := 0, duration := none, tasks := [], reads := [] }

end LkpProjects.Tasks
