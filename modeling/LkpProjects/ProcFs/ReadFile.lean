import LkpProjects.ProcFs.Status

/-! # Reading a status file

`lfs_read_file` takes a buffer of `BUFSIZE` bytes from `kmalloc`, appends the status of the task to
whatever string is in it, copies as many bytes as the text has to the reader and moves the offset behind
them; any later call at that offset returns 0. The appends are bounded by the size of the buffer and not by
the room that is left in it, so that they stay inside exactly while the text fits.
-/
namespace LkpProjects.ProcFs
open Nand Bytes Format
set_option autoImplicit false

/-! ## The call -/

/-- What a call finds in the kernel. -/
structure Kernel where
  cfg : Config
  frame : Frame
  /-- The memory that `kmalloc` gives, with what is left in it. -/
  tmp : Option (Buffer bufsize)
  pidTask : Int32 → Option TaskStruct
  initTask : TaskStruct

/-- A request of a reader, whose memory at `buf` has room for at least `count` bytes. -/
structure Request where
  count : ℕ
  room : ℕ
  fits : count ≤ room

/-- `BUG()` was reached, or a write outside the buffer. -/
inductive Stop where
  | bug
  | outOfBounds

/-- The returned value, the bytes copied to the reader and the new offset. -/
structure ReadResult where
  ret : ℤ
  copied : List Byte
  offset : ℕ

/-- The writes into the buffer and what the call comes to. -/
structure Call where
  writes : List Write
  outcome : Except Stop ReadResult

def efault : ℤ := 14

def findTask (k : Kernel) (counter : Int32) : Option TaskStruct :=
  if 0 < counter then k.pidTask counter else some k.initTask

/-- `copy_to_user` of the first `len` bytes and the end of the call. -/
def copyOut (tmp : Buffer bufsize) (req : Request) (offset len : ℕ) : ReadResult :=
  if len ≤ req.room then ⟨len, (tmp.bytes.drop offset).take len, offset + len⟩
  else ⟨-efault, (tmp.bytes.drop offset).take req.room, offset⟩

def lfsReadFile (k : Kernel) (counter : Int32) (req : Request) (offset : ℕ) : Call :=
  match k.tmp with
  | none => ⟨[], .error .bug⟩
  | some tmp =>
    if 0 < offset then ⟨[], .ok ⟨0, [], offset⟩⟩
    else
      match findTask k counter with
      | none =>
        -- the length of the first line is returned, and nothing is copied
        match appendAll [pidLine counter] tmp with
        | (ws, none) => ⟨ws, .error .outOfBounds⟩
        | (ws, some _) => ⟨ws, .ok ⟨textWidth [pidLine counter], [], offset⟩⟩
      | some t =>
        let lines := pidLine counter :: statusLines k.cfg k.frame t
        match appendAll lines tmp with
        | (ws, none) => ⟨ws, .error .outOfBounds⟩
        | (ws, some tmp) => ⟨ws, .ok (copyOut tmp req offset (min (textWidth lines) bufsize))⟩

/-- The status text of a task. -/
def statusText (k : Kernel) (counter : Int32) (t : TaskStruct) : CStr :=
  wholeText (pidLine counter :: statusLines k.cfg k.frame t)

variable {k : Kernel} {counter : Int32} {req : Request} {offset : ℕ} {tmp : Buffer bufsize}
  {t : TaskStruct}

theorem lfsReadFile_later (hk : k.tmp = some tmp) (h : 0 < offset) :
    lfsReadFile k counter req offset = ⟨[], .ok ⟨0, [], offset⟩⟩ := by
  unfold lfsReadFile
  rw [hk]
  exact if_pos h

/-- The first call on an open file, by the appends. -/
theorem lfsReadFile_first (hk : k.tmp = some tmp) (ht : findTask k counter = some t) :
    (lfsReadFile k counter req 0).writes =
      (appendAll (pidLine counter :: statusLines k.cfg k.frame t) tmp).1 := by
  unfold lfsReadFile
  rw [hk]
  simp only [lt_irrefl, if_false, ht]
  rcases appendAll (pidLine counter :: statusLines k.cfg k.frame t) tmp with ⟨ws, _ | tmp'⟩
  · rfl
  · rfl

/-! ## Staying inside the buffer -/

/-- The room that the text and the string before it take up, descriptor by descriptor. -/
def usedRoom (k : Kernel) (counter : Int32) (tmp : Buffer bufsize) (t : TaskStruct) : ℕ :=
  tmp.str.len + textWidth (pidLine counter :: linesBefore k.cfg k.frame t ++ linesAfter k.frame t) +
    ((openFiles t).map fun p => fileWidth p.1 p.2).sum

theorem usedRoom_eq : usedRoom k counter tmp t = tmp.str.len + (statusText k counter t).len := by
  have hcons : ∀ as, textWidth (pidLine counter :: as) = (pidLine counter).width + textWidth as := by
    simp [textWidth]
  rw [statusText, wholeText_len, usedRoom, List.cons_append, hcons, hcons, textWidth_statusLines,
    textWidth_append]
  omega

theorem appends_inside_iff :
    (∀ w ∈ (appendAll (pidLine counter :: statusLines k.cfg k.frame t) tmp).1, w.Inside bufsize) ↔
      usedRoom k counter tmp t < bufsize := by
  obtain ⟨hwidth, hcut⟩ := pidLine_width counter
  rw [appendAll_inside_iff_textWidth (by omega) hcut
    (fun a ha => (sized_statusLines k.cfg k.frame t a ha).ge), usedRoom_eq, statusText, wholeText_len]

/-- With the shortest possible lines, 175 descriptors fill the buffer. -/
theorem usedRoom_files (h : 175 ≤ (openFiles t).length) : bufsize ≤ usedRoom k counter tmp t := by
  have hsum : (openFiles t).length * 94 ≤ ((openFiles t).map fun p => fileWidth p.1 p.2).sum := by
    have hle := List.card_nsmul_le_sum ((openFiles t).map fun p => fileWidth p.1 p.2) 94 fun w hw => by
      obtain ⟨p, -, rfl⟩ := List.mem_map.mp hw
      exact fileWidth_ge p.1 p.2
    simpa using hle
  unfold usedRoom bufsize
  omega

/-- The writes of a call stay inside the buffer exactly where the string that was in the fresh memory, the
lines of the task and those of its open descriptors leave room for a terminator. -/
theorem status_inside_iff (hk : k.tmp = some tmp) (ht : findTask k counter = some t) :
    (∀ offset, ∀ w ∈ (lfsReadFile k counter req offset).writes, w.Inside bufsize) ↔
      usedRoom k counter tmp t < bufsize := by
  constructor
  · intro h
    have h := h 0
    rw [lfsReadFile_first hk ht] at h
    exact appends_inside_iff.mp h
  · intro h offset
    rcases Nat.eq_zero_or_pos offset with rfl | hpos
    · rw [lfsReadFile_first hk ht]
      exact appends_inside_iff.mpr h
    · rw [lfsReadFile_later hk hpos]
      exact fun w hw => absurd hw List.not_mem_nil

/-! ## Two tasks -/

/-- Fresh memory with nothing left in it. -/
def zeros : Buffer bufsize := ⟨List.replicate bufsize 0, List.length_replicate⟩

theorem zeros_str : zeros.str.bytes = [] := by
  simp [zeros, Buffer.str, CStr.ofBytes]

/-- A kernel with such memory, whose `init_task` is `t`. -/
def Kernel.cleared (t : TaskStruct) : Kernel where
  cfg := default
  frame := default
  tmp := some zeros
  pidTask _ := none
  initTask := t

/-- A task in user space with `n` open files, all fields zero and all paths empty. -/
def userTask (n : ℕ) : TaskStruct :=
  { (default : TaskStruct) with mm := some default, fd := List.replicate n (some default) }

def pageRequest : Request := ⟨4096, 4096, le_rfl⟩

theorem userTask_fits : usedRoom (.cleared (userTask 3)) 0 zeros (userTask 3) < bufsize := by
  decide +kernel

theorem status_inside_iff_three :
    usedRoom (.cleared (userTask 3)) 0 zeros (userTask 3) < bufsize ∧ ∀ offset, ∀ w ∈
      (lfsReadFile (.cleared (userTask 3)) 0 pageRequest offset).writes, w.Inside bufsize :=
  ⟨userTask_fits, (status_inside_iff rfl rfl).mpr userTask_fits⟩

/-- 175 open files are enough for a write behind the buffer, whatever their paths. -/
theorem status_outside : ¬ ∀ w ∈
    (lfsReadFile (.cleared (userTask 175)) 0 pageRequest 0).writes, w.Inside bufsize := by
  have ht : findTask (.cleared (userTask 175)) 0 = some (userTask 175) := rfl
  rw [lfsReadFile_first rfl ht, appends_inside_iff, not_lt]
  exact usedRoom_files (by decide +kernel)

end LkpProjects.ProcFs
