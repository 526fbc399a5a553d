import LkpProjects.ProcFs.ReadFile

/-! # The reads of one open status file

A reader asks again and again until a call returns 0, each time for as many bytes as it likes. The first
call hands over the whole text whatever its count, the second returns 0.
-/
namespace LkpProjects.ProcFs
open Nand Bytes Format
set_option autoImplicit false

variable {counter : Int32} {calls : ℕ → Kernel × Request} {k : Kernel} {req : Request} {offset : ℕ}
  {tmp : Buffer bufsize} {t : TaskStruct}

/-- The calls `i`, `i + 1`, … on a file at this offset: each finds its own kernel, makes its own request
and goes on at the offset that the one before left. -/
def reads (counter : Int32) (calls : ℕ → Kernel × Request) :
    ℕ → ℕ → ℕ → Except Stop (List (Request × ReadResult))
  | 0, _, _ => .ok []
  | n + 1, i, offset =>
    match (lfsReadFile (calls i).1 counter (calls i).2 offset).outcome with
    | .error e => .error e
    | .ok r =>
      match reads counter calls n (i + 1) r.offset with
      | .error e => .error e
      | .ok rs => .ok (((calls i).2, r) :: rs)

/-- The bytes that a reader has from a call, by the value it returned. -/
def ReadResult.returned (r : ReadResult) : List Byte := r.copied.take r.ret.toNat

/-- The calls up to the first that returns 0 stay within their counts and return the text. -/
def ReadsText (counter : Int32) (calls : ℕ → Kernel × Request) (text : CStr) : Prop :=
  ∃ n rs last, reads counter calls (n + 1) 0 0 = .ok (rs ++ [last]) ∧ last.2.ret = 0 ∧
    (∀ r ∈ rs, 0 < r.2.ret) ∧ (∀ r ∈ rs ++ [last], r.2.copied.length ≤ r.1.count) ∧
      rs.flatMap (fun r => r.2.returned) = text.bytes

/-! ## The first call and the others -/

theorem statusText_len : 5 < (statusText k counter t).len := by
  have hwidth := (pidLine_width counter).1
  have hpos := intWidth_pos counter.toInt
  rw [statusText, wholeText_len, textWidth, List.map_cons, List.sum_cons]
  omega

/-- Where the text fits into the buffer, the first call copies it from the front of the buffer. -/
theorem lfsReadFile_fits (req : Request) (hk : k.tmp = some tmp) (ht : findTask k counter = some t)
    (h : usedRoom k counter tmp t < bufsize) :
    ∃ tmp' : Buffer bufsize, tmp'.str = concat [tmp.str, statusText k counter t] ∧
      (lfsReadFile k counter req 0).outcome =
        .ok (copyOut tmp' req 0 (statusText k counter t).len) := by
  have hinside := appends_inside_iff.mpr h
  have hcut : ∀ a ∈ pidLine counter :: statusLines k.cfg k.frame t, a.width < a.size := by
    rw [usedRoom_eq, statusText, wholeText_len] at h
    refine List.forall_mem_cons.mpr ⟨(pidLine_width counter).2, fun a ha => ?_⟩
    have hle := width_le_textWidth (List.mem_cons_of_mem (pidLine counter) ha)
    rw [sized_statusLines k.cfg k.frame t a ha]
    omega
  obtain ⟨tmp', htmp⟩ := Option.isSome_iff_exists.mp (appendAll_isSome_iff.mpr hinside)
  refine ⟨tmp', appendAll_text hcut htmp, ?_⟩
  have hlen : min (textWidth (pidLine counter :: statusLines k.cfg k.frame t)) bufsize =
      (statusText k counter t).len := by
    rw [usedRoom_eq] at h
    rw [statusText, wholeText_len] at h ⊢
    omega
  unfold lfsReadFile
  rw [hk]
  simp only [lt_irrefl, if_false, ht]
  generalize appendAll (pidLine counter :: statusLines k.cfg k.frame t) tmp = r at htmp
  obtain ⟨ws, o⟩ := r
  obtain rfl : o = some tmp' := htmp
  simp only [hlen]

theorem lfsReadFile_overflows (hk : k.tmp = some tmp) (ht : findTask k counter = some t)
    (h : ¬ usedRoom k counter tmp t < bufsize) :
    (lfsReadFile k counter req 0).outcome = .error .outOfBounds := by
  have hnone : (appendAll (pidLine counter :: statusLines k.cfg k.frame t) tmp).2 = none := by
    rw [← Option.not_isSome_iff_eq_none, appendAll_isSome_iff, appends_inside_iff]
    exact h
  unfold lfsReadFile
  rw [hk]
  simp only [lt_irrefl, if_false, ht]
  generalize appendAll (pidLine counter :: statusLines k.cfg k.frame t) tmp = r at hnone
  obtain ⟨ws, o⟩ := r
  obtain rfl : o = none := hnone
  rfl

/-- What is copied is the front of the string that was in the buffer and the text. -/
theorem copyOut_fits {tmp' : Buffer bufsize} {text : CStr} (h : tmp'.str = concat [tmp.str, text])
    (hroom : text.len ≤ req.room) :
    copyOut tmp' req 0 text.len =
      ⟨text.len, (tmp.str.bytes ++ text.bytes).take text.len, text.len⟩ := by
  have hstr : tmp'.str.bytes = tmp.str.bytes ++ text.bytes := by
    rw [h]
    simp [concat]
  obtain ⟨rest, hrest⟩ := tmp'.str_prefix
  have htake : tmp'.bytes.take text.len = (tmp.str.bytes ++ text.bytes).take text.len := by
    rw [← hrest, hstr, List.take_append_of_le_length]
    rw [List.length_append]
    exact Nat.le_add_left _ _
  rw [copyOut, if_pos hroom, List.drop_zero, htake, Nat.zero_add]

theorem reads_later (hk : ∀ i, ∃ tmp, (calls i).1.tmp = some tmp) : ∀ {n i offset : ℕ}
    {rs : List (Request × ReadResult)}, 0 < offset → reads counter calls n i offset = .ok rs →
      ∀ r ∈ rs, r.2.ret = 0
  | 0, _, _, _, _, he => by
    obtain rfl := Except.ok.inj he
    exact fun r hr => absurd hr List.not_mem_nil
  | n + 1, i, offset, rs, hpos, he => by
    obtain ⟨tmp, htmp⟩ := hk i
    rw [reads, lfsReadFile_later htmp hpos] at he
    cases hrest : reads counter calls n (i + 1) offset with
    | error e =>
      simp only [hrest] at he
      cases he
    | ok rs' =>
      simp only [hrest] at he
      obtain rfl := Except.ok.inj he
      exact List.forall_mem_cons.mpr ⟨rfl, reads_later hk hpos hrest⟩

/-! ## The protocol -/

/-- A run that returns the text does it with the first call, and the second returns 0. -/
theorem ReadsText.first (hk : ∀ i, ∃ tmp, (calls i).1.tmp = some tmp) (h0 : (calls 0).1.tmp = some tmp)
    (ht : findTask (calls 0).1 counter = some t)
    (h : ReadsText counter calls (statusText (calls 0).1 counter t)) :
    usedRoom (calls 0).1 counter tmp t < bufsize ∧
      (statusText (calls 0).1 counter t).bytes <+:
        tmp.str.bytes ++ (statusText (calls 0).1 counter t).bytes ∧
      (statusText (calls 0).1 counter t).len ≤ (calls 0).2.count := by
  obtain ⟨n, rs, last, he, hzero, hpos, hcount, hbytes⟩ := h
  have hlen : 0 < (statusText (calls 0).1 counter t).len := (Nat.zero_le 5).trans_lt statusText_len
  rw [reads] at he
  by_cases hfits : usedRoom (calls 0).1 counter tmp t < bufsize
  · obtain ⟨tmp', hstr, hcall⟩ := lfsReadFile_fits (calls 0).2 h0 ht hfits
    refine ⟨hfits, ?_⟩
    generalize statusText (calls 0).1 counter t = text at *
    rw [hcall] at he
    cases hrest : reads counter calls n 1 (copyOut tmp' (calls 0).2 0 text.len).offset with
    | error e =>
      simp only [hrest] at he
      cases he
    | ok rest =>
      simp only [hrest] at he
      have he : ((calls 0).2, copyOut tmp' (calls 0).2 0 text.len) :: rest = rs ++ [last] :=
        Except.ok.inj he
      by_cases hroom : text.len ≤ (calls 0).2.room
      · rw [copyOut_fits hstr hroom] at he hrest
        have hlater := reads_later hk hlen hrest
        cases rs with
        | nil =>
          obtain ⟨rfl, -⟩ := List.cons.inj he
          exact absurd hzero (by simpa using hlen.ne')
        | cons r rs =>
          obtain ⟨rfl, rfl⟩ := List.cons.inj he
          -- a positive value after the first call would not be one of the later calls
          have hnil : rs = [] := by
            refine List.eq_nil_iff_forall_not_mem.mpr fun r hr => ?_
            have hz := hlater r (List.mem_append_left _ hr)
            have hp := hpos r (List.mem_cons_of_mem _ hr)
            omega
          subst hnil
          have htake : (tmp.str.bytes ++ text.bytes).take text.len = text.bytes := by
            simpa [ReadResult.returned, List.take_take] using hbytes
          have hfirst := hcount _ List.mem_cons_self
          rw [htake] at hfirst
          exact ⟨List.prefix_iff_eq_take.mpr htake.symm, hfirst⟩
      · have hret : (copyOut tmp' (calls 0).2 0 text.len).ret = -efault := by
          rw [copyOut, if_neg hroom]
        rcases List.mem_append.mp (he ▸ List.mem_cons_self) with hmem | hmem
        · exact absurd (hpos _ hmem) (by rw [hret]; decide)
        · rw [← List.mem_singleton.mp hmem, hret] at hzero
          exact absurd hzero (by decide)
  · rw [lfsReadFile_overflows h0 ht hfits] at he
    cases he

/-- The reads of a status file obey the protocol exactly where the text fits behind what was left in the
buffer, these bytes do not show in it, and the first request is for the whole text. -/
theorem status_read_iff (hk : ∀ i, ∃ tmp, (calls i).1.tmp = some tmp) (h0 : (calls 0).1.tmp = some tmp)
    (ht : findTask (calls 0).1 counter = some t) :
    ReadsText counter calls (statusText (calls 0).1 counter t) ↔
      usedRoom (calls 0).1 counter tmp t < bufsize ∧
        (statusText (calls 0).1 counter t).bytes <+:
          tmp.str.bytes ++ (statusText (calls 0).1 counter t).bytes ∧
        (statusText (calls 0).1 counter t).len ≤ (calls 0).2.count := by
  constructor
  · exact ReadsText.first hk h0 ht
  · rintro ⟨hfits, hprefix, hcount⟩
    obtain ⟨tmp', hstr, hcall⟩ := lfsReadFile_fits (calls 0).2 h0 ht hfits
    have hlen : 0 < (statusText (calls 0).1 counter t).len := (Nat.zero_le 5).trans_lt statusText_len
    generalize statusText (calls 0).1 counter t = text at *
    have htake : (tmp.str.bytes ++ text.bytes).take text.len = text.bytes :=
      (List.prefix_iff_eq_take.mp hprefix).symm
    rw [copyOut_fits hstr (hcount.trans (calls 0).2.fits), htake] at hcall
    obtain ⟨tmp₁, h1⟩ := hk 1
    refine ⟨1, [((calls 0).2, ⟨text.len, text.bytes, text.len⟩)], ((calls 1).2, ⟨0, [], text.len⟩), ?_,
      rfl, ?_, ?_, ?_⟩
    · simp only [reads, hcall, Nat.zero_add, lfsReadFile_later h1 hlen]
      rfl
    · simpa using hlen
    · simpa [CStr.len] using hcount
    · simp [ReadResult.returned, CStr.len]

theorem status_read_iff_three :
    ReadsText 0 (fun _ => (Kernel.cleared (userTask 3), ⟨bufsize, bufsize, le_rfl⟩))
      (statusText (.cleared (userTask 3)) 0 (userTask 3)) := by
  have hprefix : (statusText (.cleared (userTask 3)) 0 (userTask 3)).bytes <+:
      zeros.str.bytes ++ (statusText (.cleared (userTask 3)) 0 (userTask 3)).bytes := by
    rw [zeros_str, List.nil_append]
  have hcount : (statusText (.cleared (userTask 3)) 0 (userTask 3)).len ≤ bufsize := by
    have hfits := userTask_fits
    rw [usedRoom_eq] at hfits
    omega
  exact (status_read_iff (fun _ => ⟨_, rfl⟩) rfl rfl).mpr ⟨userTask_fits, hprefix, hcount⟩

/-- A reader that asks for one byte is handed the whole text. -/
theorem one_byte_read : findTask (.cleared (userTask 3)) 0 = some (userTask 3) ∧
    ¬ ReadsText 0 (fun _ => (Kernel.cleared (userTask 3), ⟨1, bufsize, by decide⟩))
      (statusText (.cleared (userTask 3)) 0 (userTask 3)) := by
  refine ⟨rfl, fun h => ?_⟩
  obtain ⟨-, -, hcount⟩ := ReadsText.first (fun _ => ⟨_, rfl⟩) rfl rfl h
  exact absurd (statusText_len.trans_le hcount) (by decide)

end LkpProjects.ProcFs
