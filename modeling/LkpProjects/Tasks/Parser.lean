import LkpProjects.Tasks.Walk

/-! # Which configuration files are read within their lines

`settings` is what a file says, by its lines, and `Tabbed` that they have the tabs their walks need. From one
line to the next this gives what a whole run does (`reaches_iff`): a run that ends and stays inside its lines
ends with the settings of the file, and there is one for the files with `Tabbed` lines, and for no others.
-/
namespace LkpProjects.Tasks
open Nand Bytes Format Lines
set_option autoImplicit false

structure Settings where
  duration : Option Int32
  tasks : List LotteryTasksConfig

/-- The lines of a file: its pieces, as C strings, without the empty ones. -/
def lines (text : List Byte) : List CStr :=
  ((pieces (bufLen - 1) text).map CStr.ofBytes).filter fun l => 1 < l.len

def settings : List CStr → Settings
  | [] => ⟨none, []⟩
  | l :: ls => ⟨some (atoi (field l.bytes)), ls.map fun l => record l.bytes⟩

/-- A tab in the first line and three in every other. -/
def Tabbed : List CStr → Prop
  | [] => True
  | l :: ls => tab ∈ l.bytes ∧ ∀ l ∈ ls, 3 ≤ l.bytes.count tab

instance : DecidablePred Tabbed
  | [] => .isTrue trivial
  | l :: ls => inferInstanceAs (Decidable (tab ∈ l.bytes ∧ ∀ l ∈ ls, 3 ≤ l.bytes.count tab))

theorem lines_line {text : List Byte} (h : text ≠ []) :
    lines text = if 1 < (CStr.ofBytes (takeLine (bufLen - 1) text).1).len then
      CStr.ofBytes (takeLine (bufLen - 1) text).1 :: lines (takeLine (bufLen - 1) text).2
    else lines (takeLine (bufLen - 1) text).2 := by
  rw [lines, pieces_line (by decide) h, List.map_cons, List.filter_cons]
  simp only [decide_eq_true_eq]
  rfl

/-! ## One line -/

def Parse.settings (p : Parse) : Settings := ⟨p.duration, p.tasks⟩

/-- Nothing outside the lines was read so far. -/
def Parse.Inside (p : Parse) : Prop := ∀ r ∈ p.reads, r.Within

/-- The buffer holds the line `l`. -/
def Parse.Holds (p : Parse) (l : CStr) : Prop := ∃ behind, p.buffer.bytes = l.bytes ++ 0 :: behind

variable {p p' : Parse} {l : CStr}

theorem Parse.Holds.str (h : p.Holds l) : p.buffer.str = l := by
  obtain ⟨behind, hbytes⟩ := h
  rw [Buffer.str, hbytes, CStr.ofBytes_append]

theorem inside_append {rs : List ℕ} (hp : p.Inside) {len : ℕ} (h : ∀ pos ∈ rs, pos ≤ len) :
    ∀ r ∈ p.reads ++ rs.map fun pos => (⟨pos, len⟩ : Read), r.Within := by
  intro r hr
  rcases List.mem_append.mp hr with hr | hr
  · exact hp r hr
  · obtain ⟨pos, hpos, rfl⟩ := List.mem_map.mp hr
    exact h pos hpos

theorem not_inside {rs : List ℕ} {len : ℕ} (h : len + 1 ∈ rs) (reads : List Read) :
    ¬ ∀ r ∈ reads ++ rs.map fun pos => (⟨pos, len⟩ : Read), r.Within := fun hall =>
  absurd (hall ⟨len + 1, len⟩ (List.mem_append_right _ (List.mem_map.mpr ⟨_, h, rfl⟩)))
    (Nat.not_succ_le_self len)

theorem line_blank (h : p.Holds l) (hlen : ¬ 1 < l.len) :
    p.line = .ok { p with buffer := put p.buffer 0 0 } := by
  rw [Parse.line, h.str, if_neg hlen]

theorem line_first (h : p.Holds l) (hlen : 1 < l.len) (hcount : p.count = 0) :
    p.line = (getIntVal p.buffer).map p.setDuration := by
  rw [Parse.line, h.str, if_pos hlen, hcount]

theorem line_later (h : p.Holds l) (hlen : 1 < l.len) (hcount : 0 < p.count) :
    p.line = (getLotteryTaskConfigInfo p.buffer clearedTask).map p.addTask := by
  obtain ⟨n, hn⟩ := Nat.exists_eq_add_one.mpr hcount
  rw [Parse.line, h.str, if_pos hlen, hn]

theorem exists_of_map_ok {α : Type} {x : Except Fault α} {f : α → Parse} (h : x.map f = .ok p') :
    ∃ a, x = .ok a ∧ f a = p' := by
  cases x with
  | error e => cases h
  | ok a => exact ⟨a, rfl, Except.ok.inj h⟩

/-- The first line, with a tab. -/
theorem line_first_ok (h : p.Holds l) (hlen : 1 < l.len) (hcount : p.count = 0) (hp : p.Inside)
    (hl : tab ∈ l.bytes) :
    ∃ p', p.line = .ok p' ∧ p'.count = 1 ∧ p'.Inside ∧
      p'.settings = ⟨some (atoi (field l.bytes)), p.tasks⟩ := by
  obtain ⟨behind, hbytes⟩ := id h
  obtain ⟨r, hr, hval, hreads⟩ := getIntVal_ok hbytes hl
  rw [line_first h hlen hcount, hr]
  refine ⟨p.setDuration r, rfl, congrArg Nat.succ hcount, ?_, ?_⟩
  · unfold Parse.Inside Parse.setDuration
    rw [h.str]
    exact inside_append hp hreads
  · rw [← hval]
    rfl

theorem line_first_short (h : p.Holds l) (hlen : 1 < l.len) (hcount : p.count = 0)
    (hl : tab ∉ l.bytes) (hline : p.line = .ok p') : ¬ p'.Inside := by
  obtain ⟨behind, hbytes⟩ := id h
  rw [line_first h hlen hcount] at hline
  obtain ⟨r, hr, rfl⟩ := exists_of_map_ok hline
  unfold Parse.Inside Parse.setDuration
  rw [h.str]
  exact not_inside (getIntVal_short hbytes hl hr) _

/-- A later line, with three tabs. -/
theorem line_later_ok (h : p.Holds l) (hlen : 1 < l.len) (hcount : 0 < p.count) (hp : p.Inside)
    (hl : 3 ≤ l.bytes.count tab) :
    ∃ p', p.line = .ok p' ∧ p'.count = p.count ∧ p'.Inside ∧
      p'.settings = ⟨p.duration, p.tasks ++ [record l.bytes]⟩ := by
  obtain ⟨behind, hbytes⟩ := id h
  obtain ⟨f, hf, htask, hreads⟩ := getTask_ok hbytes hl clearedTask
  rw [line_later h hlen hcount, hf]
  refine ⟨p.addTask f, rfl, rfl, ?_, ?_⟩
  · unfold Parse.Inside Parse.addTask
    rw [h.str]
    exact inside_append hp hreads
  · rw [← htask]
    rfl

theorem line_later_short (h : p.Holds l) (hlen : 1 < l.len) (hcount : 0 < p.count)
    (hl : l.bytes.count tab < 3) (hline : p.line = .ok p') : ¬ p'.Inside := by
  obtain ⟨behind, hbytes⟩ := id h
  rw [line_later h hlen hcount] at hline
  obtain ⟨f, hf, rfl⟩ := exists_of_map_ok hline
  unfold Parse.Inside Parse.addTask
  rw [h.str]
  exact not_inside (getTask_short hbytes hl hf) _

theorem line_reads (h : p.line = .ok p') : p.reads <+: p'.reads := by
  unfold Parse.line at h
  split at h
  · split at h
    · obtain ⟨r, -, rfl⟩ := exists_of_map_ok h
      exact List.prefix_append _ _
    · obtain ⟨f, -, rfl⟩ := exists_of_map_ok h
      exact List.prefix_append _ _
  · obtain rfl := Except.ok.inj h
    exact List.prefix_rfl

/-! ## A run -/

/-- Some run ends, inside the lines and with settings that satisfy `P`. -/
def Reaches (P : Settings → Prop) (text : List Byte) (p : Parse) : Prop :=
  ∃ rounds p', parseLoop rounds text p = .ok p' ∧ p'.Inside ∧ P p'.settings

variable {P : Settings → Prop} {text : List Byte} {rounds : ℕ}

/-- One round: the next line goes to the buffer, and through the body of the loop. -/
theorem parseLoop_line (p : Parse) (h : text ≠ []) :
    ∃ buffer : Buffer bufLen,
      ({ p with buffer := buffer } : Parse).Holds (.ofBytes (takeLine (bufLen - 1) text).1) ∧
      ∀ rounds, parseLoop (rounds + 1) text p = ({ p with buffer := buffer } : Parse).line >>=
        parseLoop rounds (takeLine (bufLen - 1) text).2 := by
  obtain ⟨buffer, behind, hfgets, hbytes⟩ := fgets_line (show 1 < bufLen by decide) p.buffer h
  refine ⟨buffer, ?_, fun rounds => by rw [parseLoop, hfgets]⟩
  have hmem : (0 : Byte) ∈ buffer.bytes := by
    rw [hbytes]
    exact List.mem_append_right _ List.mem_cons_self
  obtain ⟨behind', hbehind⟩ := exists_behind hmem
  refine ⟨behind', ?_⟩
  rwa [hbytes, ofBytes_append_nul, ← hbytes] at hbehind

theorem parseLoop_reads : ∀ {rounds : ℕ} {text : List Byte} {p : Parse},
    parseLoop rounds text p = .ok p' → p.reads <+: p'.reads
  | 0, _, _, h => nomatch h
  | rounds + 1, text, p, h => by
    by_cases htext : text = []
    · rw [htext] at h
      obtain rfl := Except.ok.inj h
      exact List.prefix_rfl
    · obtain ⟨buffer, -, hloop⟩ := parseLoop_line p htext
      rw [hloop] at h
      cases hline : ({ p with buffer := buffer } : Parse).line with
      | error e =>
        rw [hline] at h
        cases h
      | ok p1 =>
        rw [hline] at h
        exact (line_reads hline).trans (parseLoop_reads h)

/-- A read outside a line is not undone. -/
theorem not_reaches (hp : ¬ p.Inside) : ¬ Reaches P text p := by
  rintro ⟨rounds, p', hrun, hin, -⟩
  exact hp fun r hr => hin r ((parseLoop_reads hrun).subset hr)

theorem reaches_nil (hp : p.Inside) : Reaches P [] p ↔ P p.settings := by
  constructor
  · rintro ⟨_ | rounds, p', hrun, -, hP⟩
    · cases hrun
    · rwa [← Except.ok.inj hrun] at hP
  · intro hP
    exact ⟨1, p, rfl, hp, hP⟩

/-- A run of a text is the body of the loop on its first line and a run of the rest. -/
theorem reaches_line (p : Parse) (h : text ≠ []) :
    ∃ buffer : Buffer bufLen,
      ({ p with buffer := buffer } : Parse).Holds (.ofBytes (takeLine (bufLen - 1) text).1) ∧
      (Reaches P text p ↔ ∃ p1, ({ p with buffer := buffer } : Parse).line = .ok p1 ∧
        Reaches P (takeLine (bufLen - 1) text).2 p1) := by
  obtain ⟨buffer, hholds, hloop⟩ := parseLoop_line p h
  refine ⟨buffer, hholds, ?_, ?_⟩
  · rintro ⟨_ | rounds, p', hrun, hin, hP⟩
    · cases hrun
    · rw [hloop] at hrun
      cases hline : ({ p with buffer := buffer } : Parse).line with
      | error e =>
        rw [hline] at hrun
        cases hrun
      | ok p1 =>
        rw [hline] at hrun
        exact ⟨p1, rfl, rounds, p', hrun, hin, hP⟩
  · rintro ⟨p1, hline, rounds, p', hrun, hin, hP⟩
    refine ⟨rounds + 1, p', ?_, hin, hP⟩
    rw [hloop, hline]
    exact hrun

/-- The lines behind the first one. -/
theorem reaches_later (text : List Byte) : ∀ {p : Parse}, p.Inside → 0 < p.count →
    (Reaches P text p ↔ (∀ l ∈ lines text, 3 ≤ l.bytes.count tab) ∧
      P ⟨p.duration, p.tasks ++ (lines text).map fun l => record l.bytes⟩) := by
  induction text using line_induction (show 0 < bufLen - 1 by decide) with
  | nil =>
    intro p hp _
    rw [reaches_nil hp, show lines [] = [] from rfl, List.map_nil, List.append_nil]
    simp only [List.not_mem_nil, false_implies, implies_true, true_and]
    rfl
  | line text h ih =>
    intro p hp hcount
    obtain ⟨buffer, hholds, hiff⟩ := reaches_line (P := P) p h
    rw [hiff, lines_line h]
    generalize CStr.ofBytes (takeLine (bufLen - 1) text).1 = l at hholds ⊢
    by_cases hlen : 1 < l.len
    · rw [if_pos hlen, List.forall_mem_cons, List.map_cons, List.append_cons]
      by_cases hl : 3 ≤ l.bytes.count tab
      · obtain ⟨p1, hline, hcount1, hin1, hset⟩ := line_later_ok hholds hlen hcount hp hl
        obtain ⟨hduration, htasks⟩ := Settings.mk.inj hset
        rw [hline]
        simp only [Except.ok.injEq, exists_eq_left', ih hin1 (hcount1 ▸ hcount), hduration, htasks, hl,
          true_and]
      · refine iff_of_false ?_ fun hall => hl hall.1.1
        rintro ⟨p1, hline, hrun⟩
        exact not_reaches (line_later_short hholds hlen hcount (by omega) hline) hrun
    · rw [if_neg hlen, line_blank hholds hlen]
      simp only [Except.ok.injEq, exists_eq_left']
      exact ih hp hcount

/-- A whole file. -/
theorem reaches_iff (text : List Byte) : ∀ {p : Parse}, p.Inside → p.count = 0 →
    p.settings = ⟨none, []⟩ →
    (Reaches P text p ↔ Tabbed (lines text) ∧ P (settings (lines text))) := by
  induction text using line_induction (show 0 < bufLen - 1 by decide) with
  | nil =>
    intro p hp _ hset
    rw [reaches_nil hp, hset]
    exact (iff_of_eq (true_and _)).symm
  | line text h ih =>
    intro p hp hcount hset
    obtain ⟨buffer, hholds, hiff⟩ := reaches_line (P := P) p h
    rw [hiff, lines_line h]
    generalize CStr.ofBytes (takeLine (bufLen - 1) text).1 = l at hholds ⊢
    by_cases hlen : 1 < l.len
    · rw [if_pos hlen]
      by_cases hl : tab ∈ l.bytes
      · obtain ⟨p1, hline, hcount1, hin1, hset1⟩ := line_first_ok hholds hlen hcount hp hl
        obtain ⟨hduration, htasks⟩ := Settings.mk.inj hset1
        have hempty : p.tasks = [] := (Settings.mk.inj hset).2
        rw [hline]
        simp only [Except.ok.injEq, exists_eq_left', reaches_later _ hin1 (hcount1 ▸ Nat.one_pos),
          hduration, htasks, hempty, List.nil_append, Tabbed, hl, true_and]
        rfl
      · refine iff_of_false ?_ fun hall => hl hall.1.1
        rintro ⟨p1, hline, hrun⟩
        exact not_reaches (line_first_short hholds hlen hcount hl hline) hrun
    · rw [if_neg hlen, line_blank hholds hlen]
      simp only [Except.ok.injEq, exists_eq_left']
      exact ih hp hcount hset

theorem reaches_start (buffer : Buffer bufLen) (text : List Byte) :
    Reaches P text ⟨put buffer 0 0, 0, none, [], []⟩ ↔
      Tabbed (lines text) ∧ P (settings (lines text)) :=
  reaches_iff text (fun _ hr => absurd hr List.not_mem_nil) rfl rfl

theorem settings_tasks_length (ls : List CStr) : (settings ls).tasks.length = ls.length - 1 := by
  cases ls with
  | nil => rfl
  | cons l ls => exact List.length_map _

/-- The runs that end, read nothing outside their lines and stay inside the array are those on files whose
first line has a tab and whose other lines, not more than there is room for, have three. -/
theorem parse_inside_iff (buffer : Buffer bufLen) (text : List Byte) :
    (∃ rounds p, getLotteryTasksConfigInfo rounds buffer text = .ok p ∧ (∀ r ∈ p.reads, r.Within) ∧
        p.tasks.length ≤ lotteryTasksNum) ↔
      Tabbed (lines text) ∧ (lines text).length ≤ lotteryTasksNum + 1 := by
  have hreach := reaches_start (P := fun s => s.tasks.length ≤ lotteryTasksNum) buffer text
  rw [settings_tasks_length, Nat.sub_le_iff_le_add] at hreach
  exact hreach

/-- Three numbers with tabs between them, and none behind the last. -/
theorem parse_outside : ¬ ∃ rounds p, getLotteryTasksConfigInfo rounds
      ⟨List.replicate bufLen 0, List.length_replicate⟩ ("100\t\n1\t20\t3\n".toList.map ascii) = .ok p ∧
    (∀ r ∈ p.reads, r.Within) ∧ p.tasks.length ≤ lotteryTasksNum := by
  intro h
  have htabbed := ((reaches_start (P := fun s => s.tasks.length ≤ lotteryTasksNum) _ _).mp h).1
  exact absurd htabbed (by decide)

end LkpProjects.Tasks
