import LkpProjects.Tasks.Config

/-! # The walk over one line

The walk stays inside its line exactly where the line has the tabs it needs. With a tab the first field of the
line is the duration (`getIntVal_ok`), with three the first three fields are a task (`getTask_ok`); with fewer
tabs a walk that ends has read the byte behind the terminator (`getIntVal_short`, `getTask_short`).
-/
namespace LkpProjects.Tasks
open Nand Bytes Format Lines
set_option autoImplicit false

/-! ## Fields -/

def field (l : List Byte) : List Byte := l.takeWhile (· != tab)

def afterField (l : List Byte) : List Byte := (l.dropWhile (· != tab)).tail

def record (l : List Byte) : LotteryTasksConfig where
  pid := atoi (field l)
  tickets := UInt64.ofInt (strtoll (field (afterField l))).value
  maxExec := atoi (field (afterField (afterField l)))

theorem tab_notMem_field (l : List Byte) : tab ∉ field l := by
  intro h
  simpa using List.mem_takeWhile_imp h

theorem field_append {l : List Byte} (h : tab ∈ l) : field l ++ tab :: afterField l = l := by
  obtain ⟨c, rest, hcons⟩ : ∃ c rest, l.dropWhile (· != tab) = c :: rest := by
    apply List.exists_cons_of_ne_nil
    intro hnil
    simpa using List.dropWhile_eq_nil_iff.mp hnil tab h
  have hc : c = tab := by
    have hhead := List.head?_dropWhile_not (· != tab) l
    rw [hcons] at hhead
    simpa using hhead
  have htail : afterField l = rest := congrArg List.tail hcons
  rw [htail, ← hc, ← hcons]
  exact List.takeWhile_append_dropWhile

theorem count_afterField {l : List Byte} (h : tab ∈ l) : l.count tab = (afterField l).count tab + 1 := by
  have hfield : (field l).count tab = 0 := List.count_eq_zero_of_not_mem (tab_notMem_field l)
  calc l.count tab
      = (field l ++ tab :: afterField l).count tab := by rw [field_append h]
    _ = (afterField l).count tab + 1 := by
      rw [List.count_append, hfield, List.count_cons_self, Nat.zero_add]

/-! ## The walk to the first tab -/

theorem findTab_behind : ∀ {w : List Byte} (s : ℕ) (rest : List Byte), tab ∉ w →
    findTab s (w ++ rest) = findTab (s + w.length) rest
  | [], _, _, _ => rfl
  | c :: w, s, rest, h => by
    obtain ⟨hc, hw⟩ := not_or.mp (mt List.mem_cons.mpr h)
    rw [List.cons_append, findTab, if_neg (Ne.symm hc), findTab_behind (s + 1) rest hw, List.length_cons]
    congr 1
    omega

theorem findTab_ge : ∀ {rest : List Byte} {s p : ℕ}, findTab s rest = .ok p → s ≤ p
  | [], _, _, h => nomatch h
  | c :: rest, s, p, h => by
    rw [findTab] at h
    split at h
    · exact (Except.ok.inj h).le
    · exact (Nat.le_succ s).trans (findTab_ge h)

theorem put_bytes {b : Buffer bufLen} {w rest : List Byte} (h : b.bytes = w ++ tab :: rest) :
    (put b w.length 0).bytes = w ++ 0 :: rest := by
  show b.bytes.set w.length 0 = _
  rw [h, List.set_append_right _ _ le_rfl, Nat.sub_self, List.set_cons_zero]

variable {str : Buffer bufLen} {l w rest behind : List Byte}

/-- A line with a tab: the number in front of it, and nothing read behind it. -/
theorem getIntVal_ok (h : str.bytes = l ++ 0 :: behind) (hl : tab ∈ l) :
    ∃ r, getIntVal str = .ok r ∧ r.val = atoi (field l) ∧ ∀ p ∈ r.reads, p ≤ l.length := by
  have hbytes : str.bytes = field l ++ tab :: (afterField l ++ 0 :: behind) := by
    rw [h, ← List.cons_append, ← List.append_assoc, field_append hl]
  have hfind : findTab 0 str.bytes = .ok (field l).length := by
    rw [hbytes, findTab_behind 0 _ (tab_notMem_field l), Nat.zero_add, findTab, if_pos rfl]
  have hlen : (field l).length < l.length := by
    have hcongr := congrArg List.length (field_append hl)
    rw [List.length_append, List.length_cons] at hcongr
    omega
  have hput := put_bytes hbytes
  have hlooked := strtoll_looked_le (field l)
  refine ⟨_, by rw [getIntVal, hfind]; rfl, ?_, ?_⟩
  · simp only [atoi, hput, strtoll_append_nul]
  · intro p hp
    simp only [hput, strtoll_append_nul, List.mem_append, List.mem_range] at hp
    omega

/-- A line without a tab: the byte behind its terminator is read, too. -/
theorem getIntVal_short (h : str.bytes = l ++ 0 :: behind) (hl : tab ∉ l) {r : IntVal}
    (hr : getIntVal str = .ok r) : l.length + 1 ∈ r.reads := by
  rw [getIntVal, h, findTab_behind 0 _ hl, findTab, if_neg (by decide)] at hr
  cases hfind : findTab (0 + l.length + 1) behind with
  | error e =>
    rw [hfind] at hr
    cases hr
  | ok p =>
    rw [hfind] at hr
    obtain rfl := Except.ok.inj hr
    have hge := findTab_ge hfind
    simp only [List.mem_append, List.mem_range]
    omega

/-! ## The walk over a task -/

variable {f f' : Fields}

theorem fieldLoop_cons {f : Fields} (hi : f.i < 3) (c : Byte) (rest : List Byte) :
    fieldLoop (c :: rest) f = fieldLoop rest (f.step c) := by
  rw [fieldLoop, if_pos hi]

theorem fieldLoop_nil (hi : f.i < 3) : fieldLoop [] f = .error .outOfBuffer := by
  rw [fieldLoop, if_pos hi]

theorem fieldLoop_stop (hi : ¬ f.i < 3) (rest : List Byte) : fieldLoop rest f = .ok f := by
  rw [fieldLoop.eq_def, if_neg hi]

theorem Fields.step_of_ne {c : Byte} (hc : c ≠ tab) (f : Fields) :
    f.step c = { f with s := f.s + 1, reads := f.reads ++ [f.s] } := by
  rw [step, if_neg hc]

theorem Fields.step_s (f : Fields) (c : Byte) : (f.step c).s = f.s + 1 := by
  rw [step]
  split
  · rfl
  · rfl

theorem Fields.step_i (f : Fields) (c : Byte) : (f.step c).i = f.i + if c = tab then 1 else 0 := by
  rw [step]
  split
  · rfl
  · rfl

theorem Fields.step_reads (f : Fields) (c : Byte) : f.reads ++ [f.s] <+: (f.step c).reads := by
  rw [step]
  split
  · exact List.prefix_append _ _
  · exact List.prefix_rfl

/-- What was read stays on record. -/
theorem fieldLoop_reads : ∀ {rest : List Byte} {f f' : Fields}, fieldLoop rest f = .ok f' →
    f.reads <+: f'.reads
  | rest, f, f', h => by
    by_cases hi : f.i < 3
    · cases rest with
      | nil =>
        rw [fieldLoop_nil hi] at h
        cases h
      | cons c rest =>
        rw [fieldLoop_cons hi] at h
        exact (List.prefix_append _ _).trans ((f.step_reads c).trans (fieldLoop_reads h))
    · rw [fieldLoop_stop hi] at h
      rw [Except.ok.inj h]

/-- Too few tabs: the byte behind the terminator is read, too. -/
theorem fieldLoop_short : ∀ {l : List Byte} {f : Fields}, f.i + l.count tab < 3 →
    fieldLoop (l ++ 0 :: behind) f = .ok f' → f.s + l.length + 1 ∈ f'.reads
  | [], f, htabs, h => by
    have hi : f.i < 3 := by omega
    have hi' : (f.step 0).i < 3 := hi
    rw [List.nil_append, fieldLoop_cons hi] at h
    cases behind with
    | nil =>
      rw [fieldLoop_nil hi'] at h
      cases h
    | cons c behind =>
      rw [fieldLoop_cons hi'] at h
      have hread := ((f.step 0).step_reads c).trans (fieldLoop_reads h)
      exact hread.subset (List.mem_append_right _ (List.mem_singleton.mpr rfl))
  | c :: l, f, htabs, h => by
    have hi := f.step_i c
    simp only [List.count_cons, beq_iff_eq] at htabs
    rw [List.cons_append, fieldLoop_cons (by omega)] at h
    have hread := fieldLoop_short (by omega) h
    rw [f.step_s] at hread
    rw [List.length_cons]
    rwa [show f.s + (l.length + 1) + 1 = f.s + 1 + l.length + 1 by omega]

/-- The walk over `n` bytes without a tab. -/
def Fields.skip (f : Fields) (n : ℕ) : Fields :=
  { f with s := f.s + n, reads := f.reads ++ List.range' f.s n }

theorem fieldLoop_skip : ∀ {w : List Byte} {f : Fields}, f.i < 3 → tab ∉ w →
    fieldLoop (w ++ rest) f = fieldLoop rest (f.skip w.length)
  | [], f, _, _ => by rw [Fields.skip, List.length_nil, List.range'_zero, List.append_nil]; rfl
  | c :: w, f, hi, h => by
    obtain ⟨hc, hw⟩ := not_or.mp (mt List.mem_cons.mpr h)
    have hstep : (f.step c).skip w.length = f.skip (c :: w).length := by
      rw [Fields.step_of_ne (Ne.symm hc), Fields.skip, Fields.skip, List.length_cons, List.range'_succ,
        ← List.append_cons, Nat.add_assoc, Nat.add_comm 1]
    have hi' : (f.step c).i < 3 := by rwa [Fields.step_of_ne (Ne.symm hc)]
    rw [List.cons_append, fieldLoop_cons hi, fieldLoop_skip hi' hw, hstep]

theorem assign_append_nul (t : LotteryTasksConfig) (i : ℕ) (w rest : List Byte) :
    t.assign i (w ++ 0 :: rest) = t.assign i w := by
  rcases i with _ | _ | _ | i
  all_goals simp only [LotteryTasksConfig.assign, atoi, strtoll_append_nul]

/-- The walk at the start of a field, with `l` of the line before it; nothing behind `stop` was read. -/
structure Fields.At (f : Fields) (l behind : List Byte) (stop : ℕ) : Prop where
  start : f.s = f.s1
  bytes : f.str.bytes.drop f.s1 = l ++ 0 :: behind
  ends : f.s + l.length = stop
  reads : ∀ p ∈ f.reads, p ≤ stop

/-- One field of a line. -/
theorem fieldLoop_field {stop : ℕ} (hat : f.At l behind stop) (hi : f.i < 3) (hl : tab ∈ l) :
    ∃ f', fieldLoop (l ++ 0 :: behind) f = fieldLoop (afterField l ++ 0 :: behind) f' ∧
      f'.At (afterField l) behind stop ∧ f'.i = f.i + 1 ∧ f'.task = f.task.assign f.i (field l) := by
  have hsplit : l ++ 0 :: behind = field l ++ tab :: (afterField l ++ 0 :: behind) := by
    rw [← List.cons_append, ← List.append_assoc, field_append hl]
  have hlen : (field l).length + ((afterField l).length + 1) = l.length := by
    rw [← List.length_cons, ← List.length_append, field_append hl]
  have hput : (put f.str (f.s + (field l).length) 0).bytes.drop f.s1 =
      field l ++ 0 :: (afterField l ++ 0 :: behind) := by
    show (f.str.bytes.set _ 0).drop f.s1 = _
    rw [List.drop_set, if_neg (by rw [hat.start]; omega), hat.bytes, hat.start, Nat.add_sub_cancel_left,
      hsplit, List.set_append_right _ _ le_rfl, Nat.sub_self, List.set_cons_zero]
  have hlooked := strtoll_looked_le (field l)
  have hends := hat.ends
  have hnext : f.s + (field l).length + 1 + (afterField l).length = stop := by omega
  have hstep : (f.skip (field l).length).step tab =
      { str := put f.str (f.s + (field l).length) 0
        s := f.s + (field l).length + 1
        s1 := f.s + (field l).length + 1
        i := f.i + 1
        task := f.task.assign f.i (field l)
        reads := f.reads ++ List.range' f.s (field l).length ++ [f.s + (field l).length] ++
          List.range' f.s1 (strtoll (field l)).looked } := by
    rw [Fields.step, if_pos rfl]
    simp only [Fields.convert, Fields.skip, hput, assign_append_nul, strtoll_append_nul]
  refine ⟨(f.skip (field l).length).step tab, ?_, ?_⟩
  · rw [hsplit, fieldLoop_skip hi (tab_notMem_field l)]
    exact fieldLoop_cons (f := f.skip _) hi _ _
  rw [hstep]
  refine ⟨⟨rfl, ?_, hnext, ?_⟩, rfl, rfl⟩
  · show (put f.str (f.s + (field l).length) 0).bytes.drop (f.s + (field l).length + 1) = _
    rw [← hat.start] at hput
    rw [Nat.add_assoc, ← List.drop_drop, hput, ← List.drop_drop, List.drop_left]
    rfl
  · intro p hp
    have hstart := hat.start
    simp only [List.mem_append, List.mem_range'_1, List.mem_singleton] at hp
    rcases hp with ((hp | hp) | hp) | hp
    · exact hat.reads p hp
    · omega
    · omega
    · omega

/-- A line with three tabs: its first three fields, and nothing read behind it. -/
theorem getTask_ok (h : str.bytes = l ++ 0 :: behind) (hl : 3 ≤ l.count tab) (t : LotteryTasksConfig) :
    ∃ r, getLotteryTaskConfigInfo str t = .ok r ∧ r.task = record l ∧ ∀ p ∈ r.reads, p ≤ l.length := by
  have hmem0 : tab ∈ l := List.count_pos_iff.mp (by omega)
  have hcount0 := count_afterField hmem0
  have hmem1 : tab ∈ afterField l := List.count_pos_iff.mp (by omega)
  have hcount1 := count_afterField hmem1
  have hmem2 : tab ∈ afterField (afterField l) := List.count_pos_iff.mp (by omega)
  have hat : (⟨str, 0, 0, 0, t, []⟩ : Fields).At l behind l.length :=
    ⟨rfl, h, Nat.zero_add _, fun _ hp => absurd hp List.not_mem_nil⟩
  -- three fields, each from where the one before ends
  obtain ⟨f1, h1, hat1, hi1, ht1⟩ := fieldLoop_field hat (Nat.zero_lt_succ 2) hmem0
  replace hi1 : f1.i = 1 := hi1
  obtain ⟨f2, h2, hat2, hi2, ht2⟩ := fieldLoop_field hat1 (by omega) hmem1
  obtain ⟨f3, h3, hat3, hi3, ht3⟩ := fieldLoop_field hat2 (by omega) hmem2
  have hi3 : f3.i = 3 := by rw [hi3, hi2, hi1]
  refine ⟨f3, ?_, ?_, hat3.reads⟩
  · rw [getLotteryTaskConfigInfo, h, h1, h2, h3, fieldLoop_stop (by omega)]
  · rw [ht3, ht2, ht1, hi2, hi1]
    rfl

theorem getTask_short (h : str.bytes = l ++ 0 :: behind) (hl : l.count tab < 3) {t : LotteryTasksConfig}
    {r : Fields} (hr : getLotteryTaskConfigInfo str t = .ok r) : l.length + 1 ∈ r.reads := by
  rw [getLotteryTaskConfigInfo, h] at hr
  have hread := fieldLoop_short (by simpa using hl) hr
  rwa [Nat.zero_add] at hread

end LkpProjects.Tasks
