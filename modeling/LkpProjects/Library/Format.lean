import LkpProjects.Library.Bytes

/-! # Formatted text in a bounded buffer

A format is a list of pieces: literal text and conversions with their values. Every piece renders to a C
string of a length known from its value (`render_len`). `appendAll` runs a sequence of appends
`snprintf(buf + strlen(buf), size, …)` on a buffer and keeps the writes it makes, up to the first one
outside the buffer. Whatever bounds the appends are given, all writes stay inside exactly where the string
that the buffer starts with and the stored texts leave room for the terminator (`appendAll_inside_iff`).
-/
namespace LkpProjects.Format
open Nand Bytes
set_option autoImplicit false

/-! ## Numerals -/

def ascii (c : Char) : Byte := BitVec.ofNat 8 c.toNat

def numeral (base n : ℕ) : List Byte := (Nat.toDigits base n).map ascii

theorem ascii_digitChar (d : ℕ) : ascii d.digitChar ≠ 0 := by
  by_cases hd : d < 16
  · interval_cases d <;> decide
  · have hstar : d.digitChar = '*' := by
      unfold Nat.digitChar
      repeat rw [if_neg (by omega)]
    rw [hstar]
    decide

theorem numeral_ne_zero {base : ℕ} (hb : 1 < base) (n : ℕ) : ∀ c ∈ numeral base n, c ≠ 0 := by
  have hdigits : ∀ c ∈ Nat.toDigits base n, ascii c ≠ 0 := by
    induction n using Nat.strongRecOn with
    | _ n ih =>
      intro c hc
      rw [Nat.toDigits_eq_if hb] at hc
      split at hc
      · rw [List.mem_singleton.mp hc]
        exact ascii_digitChar n
      · rcases List.mem_append.mp hc with hc | hc
        · exact ih (n / base) (Nat.div_lt_self (by omega) hb) c hc
        · rw [List.mem_singleton.mp hc]
          exact ascii_digitChar (n % base)
  intro c hc
  obtain ⟨d, hd, rfl⟩ := List.mem_map.mp hc
  exact hdigits d hd

theorem numeral_length {base : ℕ} (hb : 1 < base) (n : ℕ) :
    (numeral base n).length = Nat.log base n + 1 := by
  rw [numeral, List.length_map]
  apply Nat.le_antisymm
  · rw [Nat.length_toDigits_le_iff hb (Nat.succ_pos _)]
    exact Nat.lt_pow_succ_log_self hb n
  · by_contra hlt
    have hpos : 0 < (Nat.toDigits base n).length := Nat.length_toDigits_pos
    have hsmall : n < base ^ Nat.log base n :=
      (Nat.length_toDigits_le_iff hb (by omega)).mp (by omega)
    have hn : n ≠ 0 := by
      rintro rfl
      rw [Nat.log_zero_right] at hlt
      omega
    exact absurd (Nat.pow_log_le_self base hn) (not_le.mpr hsmall)

/-! ## Pieces -/

inductive Piece where
  | lit (text : String)
  /-- `%d`, `%u`, `%ld`, `%lu`, `%llu`, by the value that is converted. -/
  | num (n : ℤ)
  /-- `%8lu` and the like. -/
  | padded (w n : ℕ)
  | ptr (a : UInt64)
  | str (s : CStr)

instance : Coe String Piece := ⟨.lit⟩

/-- A literal ends at its first NUL. -/
def literal (text : String) : CStr := .ofBytes (text.toList.map ascii)

theorem leftpad_ne_zero {w : ℕ} {p : Byte} {l : List Byte} (hp : p ≠ 0) (hl : ∀ c ∈ l, c ≠ 0) :
    ∀ c ∈ l.leftpad w p, c ≠ 0 := by
  intro c hc
  rw [List.leftpad] at hc
  rcases List.mem_append.mp hc with hc | hc
  · rw [List.eq_of_mem_replicate hc]
    exact hp
  · exact hl c hc

def Piece.render : Piece → CStr
  | lit text => literal text
  | num n =>
    ⟨(if n < 0 then [ascii '-'] else []) ++ numeral 10 n.natAbs, fun c hc => by
      rcases List.mem_append.mp hc with hc | hc
      · split at hc
        · rw [List.mem_singleton.mp hc]
          decide
        · exact absurd hc List.not_mem_nil
      · exact numeral_ne_zero (by decide) _ c hc⟩
  | padded w n => ⟨(numeral 10 n).leftpad w (ascii ' '),
      leftpad_ne_zero (by decide) (numeral_ne_zero (by decide) n)⟩
  -- sixteen hexadecimal digits, and a text of the same width for the null pointer
  | ptr a => if a = 0 then literal "          (null)" else ⟨(numeral 16 a.toNat).leftpad 16 (ascii '0'),
      leftpad_ne_zero (by decide) (numeral_ne_zero (by decide) _)⟩
  | str s => s

/-- The digits of a decimal numeral. -/
def decimals (n : ℕ) : ℕ := Nat.log 10 n + 1

def Piece.width : Piece → ℕ
  | lit text => (literal text).len
  | num n => (if n < 0 then 1 else 0) + decimals n.natAbs
  | padded w n => max w (decimals n)
  | ptr _ => 16
  | str s => s.len

theorem Piece.render_len (p : Piece) : p.render.len = p.width := by
  cases p with
  | lit text => rfl
  | num n =>
    show List.length (_ ++ numeral 10 n.natAbs) = _
    rw [List.length_append, numeral_length (by decide), width, decimals]
    split
    · rfl
    · rfl
  | padded w n =>
    show List.length (List.leftpad w _ _) = _
    rw [List.length_leftpad, numeral_length (by decide)]
    rfl
  | ptr a =>
    rw [render, width]
    split
    · rfl
    · show List.length (List.leftpad 16 _ _) = 16
      have hlog : Nat.log 16 a.toNat < 16 := Nat.log_lt_of_lt_pow' (by decide) a.toNat_lt
      rw [List.length_leftpad, numeral_length (by decide)]
      omega
  | str s => rfl

def concat (ss : List CStr) : CStr where
  bytes := ss.flatMap CStr.bytes
  noNul c hc := by
    obtain ⟨s, -, hs⟩ := List.mem_flatMap.mp hc
    exact s.noNul c hs

theorem concat_len (ss : List CStr) : (concat ss).len = (ss.map CStr.len).sum := List.length_flatMap

/-! ## Reading a number back -/

def isDecimal (c : Byte) : Bool := decide (48 ≤ c.toNat ∧ c.toNat ≤ 57)

/-- The number whose digits a text begins with. -/
def digitsValue (text : List Byte) : ℕ := (text.takeWhile isDecimal).foldl (fun n c => 10 * n + (c.toNat - 48)) 0

/-- The same with a sign before the digits. -/
def intValue : List Byte → ℤ
  | [] => 0
  | c :: text => if c = 45 then -digitsValue text else digitsValue (c :: text)

/-- A number ends before these bytes. -/
def Ends (rest : List Byte) : Prop := ∀ c ∈ rest.head?, isDecimal c = false

theorem ends_nil : Ends [] := by
  intro c hc
  cases hc

theorem ends_cons {c : Byte} {rest : List Byte} (h : isDecimal c = false) : Ends (c :: rest) := by
  intro c' hc'
  obtain rfl : c = c' := Option.some.inj hc'
  exact h

theorem ascii_digit {c : Char} (hc : c.isDigit = true) :
    (ascii c).toNat = c.toNat ∧ 48 ≤ c.toNat ∧ c.toNat ≤ 57 := by
  have hrange : 48 ≤ c.toNat ∧ c.toNat ≤ 57 := Char.isDigit_iff_toNat.mp hc
  refine ⟨?_, hrange⟩
  rw [ascii, BitVec.toNat_ofNat]
  omega

theorem numeral_isDecimal {n : ℕ} {c : Byte} (hc : c ∈ numeral 10 n) : isDecimal c = true := by
  obtain ⟨d, hd, rfl⟩ := List.mem_map.mp hc
  obtain ⟨heq, hrange⟩ := ascii_digit (Nat.isDigit_of_mem_toDigits (by decide) (by decide) hd)
  rw [isDecimal, heq]
  exact decide_eq_true hrange

theorem digitsValue_numeral (n : ℕ) {rest : List Byte} (h : Ends rest) : digitsValue (numeral 10 n ++ rest) = n := by
  have htake : (numeral 10 n ++ rest).takeWhile isDecimal = numeral 10 n := by
    rw [List.takeWhile_append_of_pos fun c hc => numeral_isDecimal hc]
    cases rest with
    | nil => rw [List.takeWhile_nil, List.append_nil]
    | cons c rest => rw [List.takeWhile_cons_of_neg (by simpa using h c rfl), List.append_nil]
  have hfold : ∀ (cs : List Char) (k : ℕ), (∀ c ∈ cs, c.isDigit = true) →
      (cs.map ascii).foldl (fun n c => 10 * n + (c.toNat - 48)) k = Nat.ofDigitChars 10 cs k := by
    intro cs
    induction cs with
    | nil => exact fun _ _ => rfl
    | cons c cs ih =>
      intro k hcs
      obtain ⟨hc, hcs⟩ := List.forall_mem_cons.mp hcs
      rw [List.map_cons, List.foldl_cons, (ascii_digit hc).1, ih _ hcs, Nat.ofDigitChars_cons]
      rfl
  rw [digitsValue, htake, numeral,
    hfold _ 0 fun c hc => Nat.isDigit_of_mem_toDigits (by decide) (by decide) hc, Nat.ofDigitChars_ten_toDigits]

/-- A number that was printed is read back, whatever comes behind it but digits. -/
theorem intValue_num (n : ℤ) {rest : List Byte} (h : Ends rest) :
    intValue ((Piece.num n).render.bytes ++ rest) = n := by
  have hbytes : (Piece.num n).render.bytes = (if n < 0 then [ascii '-'] else []) ++ numeral 10 n.natAbs := rfl
  have hval := digitsValue_numeral n.natAbs h
  rw [hbytes]
  by_cases hneg : n < 0
  · rw [if_pos hneg, List.append_assoc, List.singleton_append, intValue, if_pos (by decide), hval]
    omega
  · rw [if_neg hneg, List.nil_append]
    have hlen : 0 < (numeral 10 n.natAbs).length := by
      rw [numeral_length (by decide)]
      exact Nat.succ_pos _
    obtain ⟨c, cs, hcs⟩ := List.exists_cons_of_length_pos hlen
    have hc : c ≠ 45 := by
      rintro rfl
      have hdigit := numeral_isDecimal (c := 45) (hcs ▸ List.mem_cons_self)
      exact absurd hdigit (by decide)
    rw [hcs, List.cons_append] at hval ⊢
    rw [intValue, if_neg hc, hval]
    omega

theorem Ends.take {rest : List Byte} (h : Ends rest) (k : ℕ) : Ends (rest.take k) := by
  intro c hc
  cases k with
  | zero => cases hc
  | succ k =>
    cases rest with
    | nil => cases hc
    | cons c' rest => exact h c hc

/-- The same where the text was cut behind the number. -/
theorem intValue_num_take (n : ℤ) {rest : List Byte} {k : ℕ} (h : Ends rest) (hk : (Piece.num n).width ≤ k) :
    intValue (((Piece.num n).render.bytes ++ rest).take k) = n := by
  have hlen : (Piece.num n).render.bytes.length ≤ k := by
    rw [← Piece.render_len, CStr.len] at hk
    exact hk
  rw [List.take_append, List.take_of_length_le hlen]
  exact intValue_num n (h.take _)

/-- The sign and the ten digits of an `int`. -/
theorem width_int32 (x : Int32) : (Piece.num x.toInt).width ≤ 11 := by
  have hlo := x.le_toInt
  have hhi := x.toInt_lt
  have hlog : Nat.log 10 x.toInt.natAbs < 10 := Nat.log_lt_of_lt_pow' (by decide) (by omega)
  rw [Piece.width, decimals]
  split
  · omega
  · omega

/-! ## Appending to a buffer -/

structure Buffer (cap : ℕ) where
  bytes : List Byte
  size : bytes.length = cap

/-- One `snprintf` to the end of the string in the buffer: the bound it is given and its format. -/
structure Append where
  size : ℕ
  pieces : List Piece
  pos : 0 < size := by decide

structure Write where
  start : ℕ
  len : ℕ

def Write.Inside (cap : ℕ) (w : Write) : Prop := w.start + w.len ≤ cap

variable {cap : ℕ}

/-- The string in the buffer; all of its bytes where none of them is NUL. -/
def Buffer.str (b : Buffer cap) : CStr := .ofBytes b.bytes

def Buffer.write (b : Buffer cap) (start : ℕ) (out : List Byte) (h : start + out.length ≤ cap) :
    Buffer cap where
  bytes := b.bytes.take start ++ (out ++ b.bytes.drop (start + out.length))
  size := by
    have hsize := b.size
    simp only [List.length_append, List.length_take, List.length_drop]
    omega

def Append.text (a : Append) : CStr := concat (a.pieces.map Piece.render)

def Append.width (a : Append) : ℕ := (a.pieces.map Piece.width).sum

/-- What is stored of the text, before the terminator. -/
def Append.kept (a : Append) : CStr where
  bytes := a.text.bytes.take (a.size - 1)
  noNul c hc := a.text.noNul c (List.mem_of_mem_take hc)

/-- The writes of the appends up to the first one outside the buffer, and the buffer after the last. What
comes after a write outside has no meaning. -/
def appendAll : List Append → Buffer cap → List Write × Option (Buffer cap)
  | [], b => ([], some b)
  | a :: as, b =>
    let w : Write := ⟨b.str.len, (a.kept.bytes ++ [0]).length⟩
    if h : w.start + w.len ≤ cap then
      let r := appendAll as (b.write w.start (a.kept.bytes ++ [0]) h)
      (w :: r.1, r.2)
    else ([w], none)

theorem Append.text_len (a : Append) : a.text.len = a.width := by
  rw [Append.text, concat_len, List.map_map]
  exact congrArg List.sum (List.map_congr_left fun p _ => p.render_len)

theorem Append.kept_len (a : Append) : a.kept.len = min (a.size - 1) a.width := by
  rw [← a.text_len]
  exact List.length_take

theorem Buffer.str_prefix (b : Buffer cap) : b.str.bytes <+: b.bytes := List.takeWhile_prefix _

/-- A string stored at the end of the string in the buffer is appended to it. -/
theorem Buffer.str_write (b : Buffer cap) (s : CStr) (h : b.str.len + (s.bytes ++ [0]).length ≤ cap) :
    (b.write b.str.len (s.bytes ++ [0]) h).str = concat [b.str, s] := by
  have hbytes : (b.write b.str.len (s.bytes ++ [0]) h).bytes = (concat [b.str, s]).bytes ++
      0 :: b.bytes.drop (b.str.len + (s.bytes ++ [0]).length) := by
    have htake : b.bytes.take b.str.len = b.str.bytes := (List.prefix_iff_eq_take.mp b.str_prefix).symm
    simp [Buffer.write, concat, htake]
  show CStr.ofBytes _ = _
  rw [hbytes, CStr.ofBytes_append]

/-- The bytes that a sequence of appends stores, terminators apart. -/
def storedWidth (as : List Append) : ℕ := (as.map fun a => min (a.size - 1) a.width).sum

/-- The whole text of a sequence of appends. -/
def wholeText (as : List Append) : CStr := concat (as.map Append.text)

/-- The length of that text. -/
def textWidth (as : List Append) : ℕ := (as.map Append.width).sum

theorem wholeText_len (as : List Append) : (wholeText as).len = textWidth as := by
  rw [wholeText, concat_len, List.map_map]
  exact congrArg List.sum (List.map_congr_left fun a _ => a.text_len)

variable {a : Append} {as : List Append} {b : Buffer cap}

theorem appendAll_fits (h : b.str.len + (a.kept.bytes ++ [0]).length ≤ cap) :
    appendAll (a :: as) b = (⟨b.str.len, (a.kept.bytes ++ [0]).length⟩ ::
      (appendAll as (b.write b.str.len (a.kept.bytes ++ [0]) h)).1,
        (appendAll as (b.write b.str.len (a.kept.bytes ++ [0]) h)).2) := by
  rw [appendAll]
  exact dif_pos h

theorem appendAll_outside (h : ¬ b.str.len + (a.kept.bytes ++ [0]).length ≤ cap) :
    appendAll (a :: as) b = ([⟨b.str.len, (a.kept.bytes ++ [0]).length⟩], none) := by
  rw [appendAll]
  exact dif_neg h

theorem Append.stored_length (a : Append) :
    (a.kept.bytes ++ [0]).length = min (a.size - 1) a.width + 1 := by
  rw [List.length_append, ← a.kept_len]
  rfl

theorem Buffer.str_write_len (h : b.str.len + (a.kept.bytes ++ [0]).length ≤ cap) :
    (b.write b.str.len (a.kept.bytes ++ [0]) h).str.len = b.str.len + min (a.size - 1) a.width := by
  rw [b.str_write, concat_len, ← a.kept_len]
  simp

/-- All writes stay inside where the stored texts and one terminator fit behind the string in the buffer. -/
theorem appendAll_inside_iff : ∀ {as : List Append} {b : Buffer cap}, as ≠ [] →
    ((∀ w ∈ (appendAll as b).1, w.Inside cap) ↔ b.str.len + storedWidth as < cap)
  | [], _, hne => absurd rfl hne
  | a :: as, b, _ => by
    have hstored : storedWidth (a :: as) = min (a.size - 1) a.width + storedWidth as := by
      simp [storedWidth]
    by_cases h : b.str.len + (a.kept.bytes ++ [0]).length ≤ cap
    · rw [appendAll_fits h, List.forall_mem_cons]
      have hin : Write.Inside cap ⟨b.str.len, (a.kept.bytes ++ [0]).length⟩ := h
      rw [a.stored_length] at h
      cases as with
      | nil =>
        simp only [hin, true_and, hstored, appendAll]
        simp only [List.not_mem_nil, false_implies, implies_true, true_iff]
        simp only [storedWidth, List.map_nil, List.sum_nil]
        omega
      | cons a' as =>
        rw [appendAll_inside_iff (List.cons_ne_nil a' as), Buffer.str_write_len, hstored]
        simp only [hin, true_and]
        omega
    · rw [appendAll_outside h]
      rw [a.stored_length] at h
      constructor
      · intro hall
        have hin : _ ≤ cap := hall _ List.mem_cons_self
        rw [a.stored_length] at hin
        exact absurd hin h
      · intro hlt
        omega

/-- Where the writes stay inside, the buffer has a content after them, and nowhere else. -/
theorem appendAll_isSome_iff : ∀ {as : List Append} {b : Buffer cap},
    (appendAll as b).2.isSome ↔ ∀ w ∈ (appendAll as b).1, w.Inside cap
  | [], _ => by simp [appendAll]
  | a :: as, b => by
    by_cases h : b.str.len + (a.kept.bytes ++ [0]).length ≤ cap
    · have hin : Write.Inside cap ⟨b.str.len, (a.kept.bytes ++ [0]).length⟩ := h
      rw [appendAll_fits h, List.forall_mem_cons, appendAll_isSome_iff]
      simp only [hin, true_and]
    · have hout : ¬ Write.Inside cap ⟨b.str.len, (a.kept.bytes ++ [0]).length⟩ := h
      rw [appendAll_outside h, List.forall_mem_singleton]
      simp only [Option.isSome_none, Bool.false_eq_true, hout]

theorem Append.kept_eq (h : a.width < a.size) : a.kept = a.text := by
  have hle : a.text.bytes.length ≤ a.size - 1 := by
    show a.text.len ≤ _
    rw [a.text_len]
    omega
  unfold Append.kept
  simp only [List.take_of_length_le hle]

/-- Where no text is cut, the buffer ends with all texts behind the string it started with. -/
theorem appendAll_text : ∀ {as : List Append} {b b' : Buffer cap}, (∀ a ∈ as, a.width < a.size) →
    (appendAll as b).2 = some b' → b'.str = concat [b.str, wholeText as]
  | [], b, b', _, he => by
    obtain rfl := Option.some.inj he
    simp [concat, wholeText]
  | a :: as, b, b', hw, he => by
    by_cases h : b.str.len + (a.kept.bytes ++ [0]).length ≤ cap
    · rw [appendAll_fits h] at he
      obtain ⟨ha, hw⟩ := List.forall_mem_cons.mp hw
      rw [appendAll_text hw he, b.str_write, Append.kept_eq ha]
      simp [concat, wholeText]
    · rw [appendAll_outside h] at he
      cases he

theorem storedWidth_le (as : List Append) : storedWidth as ≤ textWidth as :=
  List.sum_le_sum fun _ _ => Nat.min_le_right _ _

/-- Texts that were cut would have filled the whole buffer. -/
theorem storedWidth_eq : ∀ {as : List Append}, (∀ a ∈ as, cap ≤ a.size) → storedWidth as + 1 < cap →
    storedWidth as = textWidth as
  | [], _, _ => rfl
  | a :: as, hsize, hlt => by
    obtain ⟨ha, hsize⟩ := List.forall_mem_cons.mp hsize
    have hstored : storedWidth (a :: as) = min (a.size - 1) a.width + storedWidth as := by
      simp [storedWidth]
    have htext : textWidth (a :: as) = a.width + textWidth as := by
      simp [textWidth]
    have hrest := storedWidth_eq hsize (by omega)
    omega

/-- With a first text that is not cut and the size of the buffer as the bound of the others, the lengths of
the texts decide. -/
theorem appendAll_inside_iff_textWidth (hpos : 0 < a.width) (hcut : a.width < a.size)
    (hsize : ∀ a ∈ as, cap ≤ a.size) :
    (∀ w ∈ (appendAll (a :: as) b).1, w.Inside cap) ↔ b.str.len + textWidth (a :: as) < cap := by
  rw [appendAll_inside_iff (List.cons_ne_nil a as)]
  have hstored : storedWidth (a :: as) = a.width + storedWidth as := by
    simp only [storedWidth, List.map_cons, List.sum_cons]
    omega
  have htext : textWidth (a :: as) = a.width + textWidth as := by
    simp [textWidth]
  have hle := storedWidth_le as
  constructor
  · intro hlt
    have hrest : storedWidth as = textWidth as := storedWidth_eq hsize (by omega)
    omega
  · omega

theorem width_le_textWidth {as : List Append} (h : a ∈ as) : a.width ≤ textWidth as :=
  List.single_le_sum (fun _ _ => Nat.zero_le _) _ (List.mem_map_of_mem h)

end LkpProjects.Format
