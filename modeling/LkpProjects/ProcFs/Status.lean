import LkpProjects.Library.Format

/-! # The status text of a task

`lfs_read_file` writes the status of a task into one buffer, line by line. This is the data it reads and
the sequence of its appends: every line has the whole size of the buffer as its bound, the first one
`NAME_MAX`. `fileWidth` is the part of one open descriptor in the length of the text
(`textWidth_statusLines`).
-/
namespace LkpProjects.ProcFs
open Nand Bytes Format
set_option autoImplicit false

def bufsize : ℕ := 4 * 4096

def nameMax : ℕ := 255

/-! ## What is read -/

instance : Inhabited CStr := ⟨⟨[], fun _ h => absurd h List.not_mem_nil⟩⟩

/-- The kernel options the text depends on. -/
structure Config where
  lockdep : Bool
  taskXacct : Bool
  schedstats : Bool
deriving Inhabited

/-- An open file, with the path as `d_path` gives it. -/
structure File where
  fPos : Int64
  fMode : UInt32
  fFlags : UInt32
  path : CStr
deriving Inhabited

structure MmStruct where
  addr : UInt64
  totalVm : UInt64
  hiwaterVm : UInt64
  rss : UInt64
  hiwaterRss : UInt64
  lockedVm : UInt64
  pinnedVm : UInt64
  sharedVm : UInt64
  execVm : UInt64
  stackVm : UInt64
  swapents : UInt64
  nrPtes : UInt64
  defFlags : UInt64
  mapCount : Int32
  mmUsers : Int32
  mmCount : Int32
  highestVmEnd : UInt64
  pgd : UInt64
  vmStart : UInt64
  vmEnd : UInt64
  startCode : UInt64
  endCode : UInt64
  startData : UInt64
  endData : UInt64
  startBrk : UInt64
  brk : UInt64
  startStack : UInt64
  mmapBase : UInt64
  argStart : UInt64
  argEnd : UInt64
  envStart : UInt64
  envEnd : UInt64
  exeFile : Option CStr
deriving Inhabited

structure ThreadStruct where
  usersp : UInt64
  sp : UInt64
  sp0 : UInt64
  fs : UInt64
  es : UInt64
  ds : UInt64
  gs : UInt64
  cr2 : UInt64
deriving Inhabited

structure SchedStatistics where
  waitStart : UInt64
  waitMax : UInt64
  waitCount : UInt64
  waitSum : UInt64
  iowaitCount : UInt64
  iowaitSum : UInt64
  sleepStart : UInt64
  sleepMax : UInt64
  sumSleepRuntime : UInt64
  blockStart : UInt64
  blockMax : UInt64
  execMax : UInt64
  sliceMax : UInt64
  nrMigrationsCold : UInt64
  nrFailedMigrationsAffine : UInt64
  nrFailedMigrationsRunning : UInt64
  nrFailedMigrationsHot : UInt64
  nrForcedMigrations : UInt64
  nrWakeups : UInt64
  nrWakeupsSync : UInt64
  nrWakeupsMigrate : UInt64
  nrWakeupsLocal : UInt64
  nrWakeupsRemote : UInt64
  nrWakeupsAffine : UInt64
  nrWakeupsAffineAttempts : UInt64
  nrWakeupsPassive : UInt64
  nrWakeupsIdle : UInt64
deriving Inhabited

structure SchedEntity where
  onRq : UInt32
  execStart : UInt64
  sumExecRuntime : UInt64
  vruntime : UInt64
  prevSumExecRuntime : UInt64
  nrMigrations : UInt64
  statistics : SchedStatistics
deriving Inhabited

structure TaskStruct where
  state : Int64
  cpu : UInt32
  startTime : UInt64
  realStartTime : UInt64
  comm : CStr
  thread : ThreadStruct
  threadInfo : UInt64
  stack : UInt64
  mm : Option MmStruct
  activeMm : UInt64
  pid : Int32
  tgid : Int32
  groupLeaderPid : Int32
  utime : UInt64
  stime : UInt64
  acctTimexpd : UInt64
  acctRssMem1 : UInt64
  acctVmMem1 : UInt64
  prio : Int32
  rtPriority : UInt32
  flags : UInt32
  selfExecId : UInt32
  parentExecId : UInt32
  lockdepDepth : UInt64
  rtTimeout : UInt64
  rtTimeSlice : UInt32
  se : SchedEntity
  fd : List (Option File)
  saHandler : ℕ → UInt64
  nrThreads : Int32
  qsize : UInt64
  qlim : UInt64
deriving Inhabited

/-- What is in the stack frame of the call: the string in `tmp2` before it is written, and the addresses of
the signal sets. -/
structure Frame where
  tmp2 : CStr
  pending : UInt64
  shpending : UInt64
  blocked : UInt64
  ignored : UInt64
  caught : UInt64
deriving Inhabited

/-! ## Conversions -/

def fmtD (x : Int32) : Piece := .num x.toInt

def fmtU (x : UInt32) : Piece := .num x.toNat

def fmtLd (x : Int64) : Piece := .num x.toInt

/-- `%lu` and `%llu`. -/
def fmtLu (x : UInt64) : Piece := .num x.toNat

/-- `%8lu`. -/
def fmt8lu (x : UInt64) : Piece := .padded 8 x.toNat

/-- `%d` with an unsigned argument. -/
def fmtDu (x : UInt32) : Piece := fmtD x.toInt32

/-- `len += snprintf(tmp + strlen(tmp), BUFSIZE, …)`. -/
def line (pieces : List Piece) : Append := { size := bufsize, pieces := pieces }

/-- `len += snprintf(tmp + strlen(tmp), NAME_MAX, "pid %d\n", counter)`. -/
def pidLine (counter : Int32) : Append := { size := nameMax, pieces := ["pid ", fmtD counter, "\n"] }

/-! ## The lines -/

/-- The name that `tmp2` holds after the switch; in other states it is not written. -/
def stateName (state : Int64) (tmp2 : CStr) : CStr :=
  match state.toInt with
  | 0 => literal "TASK_RUNNING"
  | 1 => literal "TASK_INTERRUPTIBLE"
  | 2 => literal "TASK_UNINTERRUPTIBLE:"
  | 4 => literal "__TASK_STOPPED"
  | 8 => literal "__TASK_TRACED"
  | 16 => literal "EXIT_DEAD"
  | 32 => literal "EXIT_ZOMBIE"
  | 64 => literal "TASK_DEAD"
  | 128 => literal "TASK_WAKEKILL"
  | 256 => literal "TASK_WAKING"
  | 512 => literal "TASK_PARKED"
  | 1024 => literal "TASK_STATE_MAX"
  | _ => tmp2

/-- Pages to kB: `x << (PAGE_SHIFT-10)`. -/
def kB (x : UInt64) : UInt64 := x <<< 2

def pageAlign (x : UInt64) : UInt64 := (x + 4095) &&& ~~~4095

def requirementLines (tmp2 : CStr) (t : TaskStruct) : List Append :=
  [line ["-- Project4 minimun requirements --\n"],
   line ["1. state ", fmtLd t.state, " ", .str (stateName t.state tmp2), "\n"],
   line ["2. on CPU ", fmtU t.cpu, "\n"],
   line ["3. I'm a ", .str (literal (if t.mm.isSome then "USER thread" else "KERNEL thread")), "\n"],
  line ["4. start_time at ", fmtLu t.startTime, " ns, real_start_time at ",
     fmtLu t.realStartTime, " ns\n"],
   line ["5. comm \"", .str t.comm, "\"\n"],
   line ["6. stack pointer & mem usages \n"],
   line ["\tUser sp \t ", .ptr t.thread.usersp, "\n"],
   line ["\tKernel sp \t ", .ptr t.thread.sp, "\n"],
   line ["\tKernel sp0 \t ", .ptr t.thread.sp0, "\n"]]

def vmField (label : String) (x : UInt64) : List Piece := [label, fmt8lu x, " kB\n"]

def memUsageLines (mm : MmStruct) : List Append :=
  let totalVm := mm.totalVm
  let hiwaterVm := if totalVm < mm.hiwaterVm then mm.hiwaterVm else totalVm
  let totalRss := mm.rss
  let hiwaterRss := if totalRss < mm.hiwaterRss then mm.hiwaterRss else totalRss
  let data := mm.totalVm - mm.sharedVm - mm.stackVm
  let text := (pageAlign mm.endCode - (mm.startCode &&& ~~~4095)) >>> 10
  let lib := kB mm.execVm - text
  [line (
    vmField "\tVmPeak:\t" (kB hiwaterVm) ++
    vmField "\tVmSize:\t" (kB totalVm) ++
    vmField "\tVmLck:\t" (kB mm.lockedVm) ++
    vmField "\tVmPin:\t" (kB mm.pinnedVm) ++
    vmField "\tVmHWM:\t" (kB hiwaterRss) ++
    vmField "\tVmRSS:\t" (kB totalRss) ++
    vmField "\tVmData:\t" (kB data) ++
    vmField "\tVmStk:\t" (kB mm.stackVm) ++
    vmField "\tVmExe:\t" text ++
    vmField "\tVmLib:\t" lib ++
    vmField "\tVmPTE:\t" ((4096 * mm.nrPtes) >>> 10) ++
    vmField "\tVmSwap:\t" (kB mm.swapents)),
   line ["\t # of pages ", fmtLu mm.nrPtes, "\n"],
   line ["\n"]]

def threadLines (cfg : Config) (t : TaskStruct) : List Append :=
  [line ["-- Thread --\n"],
   line ["ip(x32) fs(x64) ", .ptr t.thread.fs, "\n"],
   line ["es \t ", .ptr t.thread.es, "\n"],
   line ["ds \t ", .ptr t.thread.ds, "\n"],
   line ["gs \t ", .ptr t.thread.gs, "\n"],
   line ["cr2 \t ", .ptr t.thread.cr2, "\n"],
   line ["pid \t\t\t ", fmtD t.pid, "\n"],
   line ["tgid \t\t\t ", fmtD t.tgid, "\n"],
   line ["User time \t\t ", fmtLu t.utime, "\n"],
   line ["System time \t\t ", fmtLu t.stime, "\n"],
   line ["Last updat stime + utime ", fmtLu t.acctTimexpd, "\n"],
   line ["Priority \t\t ", fmtD t.prio, "\n"],
   line ["RT priority \t\t ", fmtDu t.rtPriority, "\n"],
   line ["Task properties \t ", fmtDu t.flags, " (check process flags)\n"],
   line ["Group leader pid \t ", fmtD t.groupLeaderPid, "\n"],
   line ["Self_exec_id \t\t ", fmtDu t.selfExecId, "\n"],
   line ["Original group process id ", fmtDu t.parentExecId, "\n"]] ++
  (if cfg.lockdep then
    [line ["Lock deep level ", fmtLu t.lockdepDepth, " when doing contex switch\n"]]
  else [line ["Locksep_depth is not turned on\n"]]) ++
  (if cfg.taskXacct then
    [line ["Accumulated resident memory usage ", fmtLu t.acctRssMem1, " B\n",
      "Accumulated virtual memory usage ", fmtLu t.acctVmMem1, " B\n"]]
  else [line ["\t not support mm usage \n"]]) ++
  [line ["\n"]]

def statisticsLines (st : SchedStatistics) : List Append :=
  [line ["\n"],
   line ["-- schedule statistic --\n"],
   line ["wait_start ", fmtLu st.waitStart, " ns\n"],
   line ["wait_max ", fmtLu st.waitMax, " ns\n"],
   line ["wait_count ", fmtLu st.waitCount, "\n"],
   line ["wait_sum ", fmtLu st.waitSum, " ns\n"],
   line ["iowait_count ", fmtLu st.iowaitCount, "\n"],
   line ["iowait_sum ", fmtLu st.iowaitSum, " ns\n"],
   line ["sleep_start ", fmtLu st.sleepStart, " ns\n"],
   line ["sleep_max ", fmtLu st.sleepMax, " ns\n"],
   line ["sum_sleep_runtime ", fmtLu st.sumSleepRuntime, " ns\n"],
   line ["block_start ", fmtLu st.blockStart, " ns\n"],
   line ["block_max ", fmtLu st.blockMax, " ns\n"],
   line ["exec_max ", fmtLu st.execMax, " ns\n"],
   line ["slice_max ", fmtLu st.sliceMax, " ns\n"],
   line ["nr_migrations_cold ", fmtLu st.nrMigrationsCold, "\n"],
   line ["nr_failed_migrations_affine ", fmtLu st.nrFailedMigrationsAffine, "\n"],
   line ["nr_failed_migrations_running ", fmtLu st.nrFailedMigrationsRunning, "\n"],
   line ["nr_failed_migrations_hot ", fmtLu st.nrFailedMigrationsHot, "\n"],
   line ["nr_forced_migrations ", fmtLu st.nrForcedMigrations, "\n"],
   line ["nr_wakeups ", fmtLu st.nrWakeups, "\n"],
   line ["nr_wakeups_sync ", fmtLu st.nrWakeupsSync, "\n"],
   line ["nr_wakeups_migrate ", fmtLu st.nrWakeupsMigrate, "\n"],
   line ["nr_wakeups_local ", fmtLu st.nrWakeupsLocal, "\n"],
   line ["nr_wakeups_remote ", fmtLu st.nrWakeupsRemote, "\n"],
   line ["nr_wakeups_affine ", fmtLu st.nrWakeupsAffine, "\n"],
   line ["nr_wakeups_affine_attempts ", fmtLu st.nrWakeupsAffineAttempts, "\n"],
   line ["nr_wakeups_passive ", fmtLu st.nrWakeupsPassive, "\n"],
   line ["nr_wakeups_idle ", fmtLu st.nrWakeupsIdle, "\n"]]

def scheduleLines (cfg : Config) (t : TaskStruct) : List Append :=
  [line ["-- Schedule --\n"],
   line ["Timeout ", fmtLu t.rtTimeout, " ns\n"],
   line ["Sched_entity on_rq ", fmtU t.se.onRq, "\n"],
   line ["Last start time ", fmtLu t.se.execStart, " ns\n"],
   line ["Sum of total execution real run time ", fmtLu t.se.sumExecRuntime, " ns\n"],
   line ["Virtual runtime ", fmtLu t.se.vruntime, " ns\n"],
   line ["Previous sum execution time ", fmtLu t.se.prevSumExecRuntime, " ns\n"],
   line ["Number of migrations ", fmtLu t.se.nrMigrations, "\n"],
   line ["Time slice you can run ", fmtU t.rtTimeSlice, " ns\n"]] ++
  (if cfg.schedstats then statisticsLines t.se.statistics else []) ++
  [line ["\n"]]

def mmLines (t : TaskStruct) (mm : MmStruct) : List Append :=
  [line ["Physical memory is being used (no swap included) ", fmtLu mm.rss, " KB\n"],
   line ["Total vm pages mapped ", fmtLu mm.totalVm, " KB\n"],
   line ["# of VMAs ", fmtD mm.mapCount, "\n"],
   line ["highest_vm_end ", .ptr mm.highestVmEnd, "\n"],
   line ["Page global directory pointer ", .ptr mm.pgd, "\n"],
   line ["virtual memory areas \t start ", .ptr mm.vmStart, " end ", .ptr mm.vmEnd, "\n"],
   line ["Virtual memory (high-watermark) ", fmtLu mm.hiwaterVm, " KB\n"],
   line ["Physical memory (high-watermark) ", fmtLu mm.hiwaterRss, " KB\n"],
   line ["locked_vm pages ", fmtLu mm.lockedVm, " KB\n"],
   line ["pinned vm pages ", fmtLu mm.pinnedVm, " KB\n"],
   line ["shared vm pages (files) ", fmtLu mm.sharedVm, " KB\n"],
   line ["exec vm pages & ~vm write pages  ", fmtLu mm.execVm, " KB\n"],
   line ["stack vm pages ", fmtLu mm.stackVm, " KB\n"],
   line ["\n---segments---\n"],
   line ["Stack segment (downward) \tstart ", .ptr mm.startStack, "\n"],
   line ["Mmap segment (downward) \tstart ", .ptr mm.mmapBase, "\n"],
   line ["Heap segment (upward) \tstart ", .ptr mm.startBrk, " end ", .ptr mm.brk, "\n"],
   line ["Data segment (upward) \tstart ", .ptr mm.startData, " end ", .ptr mm.endData, "\n"],
   line ["Text segment (upward) \tstart ", .ptr mm.startCode, " end ", .ptr mm.endCode, "\n"],
   line ["Env segment (upward) \tstart ", .ptr mm.envStart, " end ", .ptr mm.envEnd, "\n"],
   line ["Arg segment (upward) \tstart ", .ptr mm.argStart, " end ", .ptr mm.argEnd, "\n"],
   line ["\n"],
   line ["top ", .ptr t.thread.sp, "\n"],
   line ["bottom ", .ptr t.threadInfo, "\n"],
   line ["t->stackk ", .ptr t.stack, "\n"],
   line ["\n"],
   line ["VM property ", fmtLu mm.defFlags, " (flags)\n"],
   line ["# of users are using this mm ", fmtD mm.mmUsers, " \n"],
   line ["# of kernel threads are using this mm ", fmtD mm.mmCount, " (users=1)\n"],
   line ["\n"],
   line ["-- File --\n"],
   match mm.exeFile with
   | some rpath => line ["Executable binary name \"", .str rpath, "\"\n"]
   | none => line ["No executable binary\n"]]

def fileLines (loop : ℕ) (f : File) : List Append :=
  [line ["-- File ", .num loop, " existing --\n"],
   line ["\t Cursor position ", fmtD f.fPos.toInt32, "\n"],
   line ["\t File permission ", fmtDu f.fMode, " \n"],
   line ["\t File flags ", fmtDu f.fFlags, " \n"],
   line ["\t File name \"", .str f.path, "\"\n"]]

/-- The loop over the descriptor table. -/
def filesLines (fd : List (Option File)) : List Append :=
  fd.zipIdx.flatMap fun (f, loop) => match f with
    | some f => fileLines loop f
    | none => []

def sigusr1 : ℕ := 10

def sigusr2 : ℕ := 12

def handlerLine (t : TaskStruct) (i : ℕ) : Append :=
  if i ≠ sigusr1 ∧ i ≠ sigusr2 then
    line ["Signal ", .num i, " handler ", .ptr (t.saHandler (i - 1)), "\n"]
  else
    line ["Signal ", .num i, " handler ", .ptr (t.saHandler (i - 1)), " (",
      .str (literal (if i = sigusr1 then "SIGUSR1" else "SIGUSR2")), " handler) \n"]

def signalLines (frame : Frame) (t : TaskStruct) : List Append :=
  [line ["-- Signal --\n"]] ++ (List.range' 1 31).map (handlerLine t) ++
  [line ["\n"],
   line ["Threads:\t", fmtD t.nrThreads, "\n"],
   line ["SigQ:\t", fmtLu t.qsize, "/", fmtLu t.qlim, "\n"],
   line ["SigPnd: ", .ptr frame.pending, "\n"],
   line ["ShdPnd: ", .ptr frame.shpending, "\n"],
   line ["SigBlk: ", .ptr frame.blocked, "\n"],
   line ["SigIgn: ", .ptr frame.ignored, "\n"],
   line ["SigCgt: ", .ptr frame.caught, "\n"]]

/-- The lines before those of the descriptors. -/
def linesBefore (cfg : Config) (frame : Frame) (t : TaskStruct) : List Append :=
  requirementLines frame.tmp2 t ++
  (match t.mm with
   | some mm => memUsageLines mm
   | none => [line ["\t kernel thread doen't suppor t->mm\n"]]) ++
  [line ["\n"]] ++ threadLines cfg t ++ scheduleLines cfg t ++
  [line ["-- MM --\n"],
   line ["My adress space ", .ptr ((t.mm.map MmStruct.addr).getD 0), "\n"],
   line ["Current address space being used ", .ptr t.activeMm, "\n"]] ++
  (match t.mm with
   | some mm => mmLines t mm
   | none => [])

/-- The lines behind them. -/
def linesAfter (frame : Frame) (t : TaskStruct) : List Append :=
  [line ["\n"]] ++ signalLines frame t

/-- All appends for a task, in the order of the source. A kernel thread has no descriptors shown. -/
def statusLines (cfg : Config) (frame : Frame) (t : TaskStruct) : List Append :=
  linesBefore cfg frame t ++ (if t.mm.isSome then filesLines t.fd else []) ++ linesAfter frame t

/-! ## How long the text is -/

/-- The descriptors shown, with their numbers. -/
def openFiles (t : TaskStruct) : List (ℕ × File) :=
  if t.mm.isSome then t.fd.zipIdx.filterMap fun (f, loop) => f.map (loop, ·) else []

/-- The characters of a number printed with `%d`. -/
def intWidth (n : ℤ) : ℕ := (if n < 0 then 1 else 0) + decimals n.natAbs

/-- The part of one descriptor in the length of the text. -/
def fileWidth (loop : ℕ) (f : File) : ℕ :=
  90 + decimals loop + intWidth f.fPos.toInt32.toInt + intWidth f.fMode.toInt32.toInt +
    intWidth f.fFlags.toInt32.toInt + f.path.len

@[simp] theorem textWidth_nil : textWidth [] = 0 := rfl

@[simp] theorem textWidth_append (as bs : List Append) :
    textWidth (as ++ bs) = textWidth as + textWidth bs := by
  simp [textWidth]

theorem intWidth_pos (n : ℤ) : 0 < intWidth n := by
  unfold intWidth decimals
  omega

/-- Whatever is printed for a descriptor takes at least these characters. -/
theorem fileWidth_ge (loop : ℕ) (f : File) : 94 ≤ fileWidth loop f := by
  have hpos := intWidth_pos f.fPos.toInt32.toInt
  have hmode := intWidth_pos f.fMode.toInt32.toInt
  have hflags := intWidth_pos f.fFlags.toInt32.toInt
  unfold fileWidth decimals
  omega

theorem textWidth_fileLines (loop : ℕ) (f : File) : textWidth (fileLines loop f) = fileWidth loop f := by
  have hnum : ∀ n : ℤ, (Piece.num n).width = intWidth n := fun _ => rfl
  have hloop : intWidth loop = decimals loop := Nat.zero_add _
  have hlit : ∀ text : String, (Piece.lit text).width = (literal text).len := fun _ => rfl
  have hstr : ∀ s : CStr, (Piece.str s).width = s.len := fun _ => rfl
  simp only [textWidth, fileLines, line, Append.width, fmtDu, fmtD, List.map_cons, List.map_nil,
    List.sum_cons, List.sum_nil, hnum, hlit, hstr, hloop, fileWidth,
    show (literal "-- File ").len = 8 from rfl, show (literal " existing --\n").len = 13 from rfl,
    show (literal "\t Cursor position ").len = 18 from rfl, show (literal "\n").len = 1 from rfl,
    show (literal "\t File permission ").len = 18 from rfl, show (literal " \n").len = 2 from rfl,
    show (literal "\t File flags ").len = 13 from rfl,
    show (literal "\t File name \"").len = 13 from rfl, show (literal "\"\n").len = 2 from rfl]
  omega

theorem textWidth_filesLines (fd : List (Option File)) :
    textWidth (filesLines fd) =
      ((fd.zipIdx.filterMap fun (f, loop) => f.map (loop, ·)).map fun p => fileWidth p.1 p.2).sum := by
  unfold filesLines
  induction fd.zipIdx with
  | nil => rfl
  | cons p rest ih =>
    obtain ⟨f, loop⟩ := p
    rw [List.flatMap_cons, textWidth_append, ih]
    cases f with
    | none => simp
    | some f => simp [textWidth_fileLines]

/-- The length of the text by the open descriptors. -/
theorem textWidth_statusLines (cfg : Config) (frame : Frame) (t : TaskStruct) :
    textWidth (statusLines cfg frame t) = textWidth (linesBefore cfg frame t) +
      ((openFiles t).map fun p => fileWidth p.1 p.2).sum + textWidth (linesAfter frame t) := by
  rw [statusLines, textWidth_append, textWidth_append, openFiles]
  split
  · rw [textWidth_filesLines]
  · rfl

/-! ## The bounds that the appends are given -/

/-- The whole size of the buffer is the bound of every append. -/
def Sized (as : List Append) : Prop := ∀ a ∈ as, a.size = bufsize

theorem Sized.append {as bs : List Append} (h : Sized as) (h' : Sized bs) : Sized (as ++ bs) :=
  List.forall_mem_append.mpr ⟨h, h'⟩

theorem sized_of_all {as : List Append} (h : (as.all fun a => a.size == bufsize) = true) : Sized as :=
  fun a ha => eq_of_beq (List.all_eq_true.mp h a ha)

theorem sized_ite {as bs : List Append} {c : Bool} (h : Sized as) (h' : Sized bs) :
    Sized (if c then as else bs) := by
  split
  · exact h
  · exact h'

theorem sized_filesLines (fd : List (Option File)) : Sized (filesLines fd) := by
  intro a ha
  obtain ⟨⟨f, loop⟩, -, ha⟩ := List.mem_flatMap.mp ha
  cases f with
  | none => exact absurd ha List.not_mem_nil
  | some f => exact (show Sized (fileLines loop f) from sized_of_all rfl) a ha

theorem sized_linesBefore (cfg : Config) (frame : Frame) (t : TaskStruct) :
    Sized (linesBefore cfg frame t) := by
  have hthread : Sized (threadLines cfg t) :=
    (((sized_of_all rfl).append (sized_ite (sized_of_all rfl) (sized_of_all rfl))).append
      (sized_ite (sized_of_all rfl) (sized_of_all rfl))).append (sized_of_all rfl)
  have hschedule : Sized (scheduleLines cfg t) :=
    ((sized_of_all rfl).append (sized_ite (sized_of_all rfl) (sized_of_all rfl))).append
      (sized_of_all rfl)
  unfold linesBefore
  cases t.mm with
  | none =>
    exact (((((sized_of_all rfl).append (sized_of_all rfl)).append (sized_of_all rfl)).append
      hthread).append hschedule).append (sized_of_all rfl) |>.append (sized_of_all rfl)
  | some mm =>
    have hmm : Sized (mmLines t mm) := by
      unfold mmLines
      cases mm.exeFile with
      | none => exact sized_of_all rfl
      | some rpath => exact sized_of_all rfl
    exact (((((sized_of_all rfl).append (sized_of_all rfl)).append (sized_of_all rfl)).append
      hthread).append hschedule).append (sized_of_all rfl) |>.append hmm

theorem sized_linesAfter (frame : Frame) (t : TaskStruct) : Sized (linesAfter frame t) := by
  have hhandlers : Sized ((List.range' 1 31).map (handlerLine t)) := by
    intro a ha
    obtain ⟨i, -, rfl⟩ := List.mem_map.mp ha
    rw [handlerLine]
    split
    · rfl
    · rfl
  exact (sized_of_all rfl).append (((sized_of_all rfl).append hhandlers).append (sized_of_all rfl))

theorem sized_statusLines (cfg : Config) (frame : Frame) (t : TaskStruct) :
    Sized (statusLines cfg frame t) :=
  ((sized_linesBefore cfg frame t).append (sized_ite (sized_filesLines t.fd) (sized_of_all rfl))).append
    (sized_linesAfter frame t)

theorem pidLine_width (counter : Int32) :
    (pidLine counter).width = 5 + intWidth counter.toInt ∧ (pidLine counter).width < nameMax := by
  have hwidth : (pidLine counter).width = 5 + intWidth counter.toInt := by
    show (literal "pid ").len + (intWidth counter.toInt + ((literal "\n").len + 0)) = _
    rw [show (literal "pid ").len = 4 from rfl, show (literal "\n").len = 1 from rfl]
    omega
  have hlog : Nat.log 10 counter.toInt.natAbs < 10 := by
    refine Nat.log_lt_of_lt_pow' (by decide) ?_
    have hlo := counter.le_toInt
    have hhi := counter.toInt_lt
    omega
  refine ⟨hwidth, ?_⟩
  rw [hwidth]
  unfold intWidth decimals nameMax
  split <;> omega

end LkpProjects.ProcFs
