import LkpProjects.Library.Format

/-! # Lines of a text and the numbers in them

`takeLine room` is what one `fgets` takes from a text: the bytes up to and with the first newline, at most
`room` of them. `pieces` cuts a whole text that way; nothing of it is lost (`pieces_flatten`), and what holds
of the empty text and passes from the rest of a text to the text holds of every text (`line_induction`).
`strtoll` reads a decimal number and says how many bytes it looked at; it looks at no byte behind the first
NUL (`strtoll_append_nul`, `strtoll_looked_le`).
-/
namespace LkpProjects.Lines
open Nand Bytes Format
set_option autoImplicit false

/-! ## Cutting a text -/

/-- The next line, cut after `room` bytes, and the rest of the text. -/
def takeLine : ℕ → List Byte → List Byte × List Byte
  | 0, text => ([], text)
  | _ + 1, [] => ([], [])
  | room + 1, c :: text =>
    if c = ascii '\n' then ([c], text)
    else (c :: (takeLine room text).1, (takeLine room text).2)

/-- The first `n` pieces of a text. -/
def cut (room : ℕ) : ℕ → List Byte → List (List Byte)
  | 0, _ => []
  | n + 1, text =>
    if text = [] then [] else (takeLine room text).1 :: cut room n (takeLine room text).2

def pieces (room : ℕ) (text : List Byte) : List (List Byte) := cut room text.length text

theorem takeLine_append : ∀ (room : ℕ) (text : List Byte),
    (takeLine room text).1 ++ (takeLine room text).2 = text
  | 0, _ => rfl
  | _ + 1, [] => rfl
  | room + 1, c :: text => by
    rw [takeLine]
    split
    · rfl
    · rw [List.cons_append, takeLine_append room text]

theorem takeLine_length_le : ∀ (room : ℕ) (text : List Byte), (takeLine room text).1.length ≤ room
  | 0, _ => le_rfl
  | _ + 1, [] => Nat.zero_le _
  | room + 1, c :: text => by
    rw [takeLine]
    split
    · exact Nat.succ_le_succ (Nat.zero_le room)
    · exact Nat.succ_le_succ (takeLine_length_le room text)

theorem takeLine_ne_nil {room : ℕ} {text : List Byte} (hroom : 0 < room) (h : text ≠ []) :
    (takeLine room text).1 ≠ [] := by
  obtain ⟨room, rfl⟩ := Nat.exists_eq_add_one.mpr hroom
  obtain ⟨c, text, rfl⟩ := List.exists_cons_of_ne_nil h
  rw [takeLine]
  split
  · exact List.cons_ne_nil _ _
  · exact List.cons_ne_nil _ _

theorem takeLine_rest_lt {room : ℕ} {text : List Byte} (hroom : 0 < room) (h : text ≠ []) :
    (takeLine room text).2.length < text.length := by
  have hlen := congrArg List.length (takeLine_append room text)
  have hpos := List.length_pos_of_ne_nil (takeLine_ne_nil hroom h)
  rw [List.length_append] at hlen
  omega

section Room
variable {room : ℕ}

/-- Induction along the lines of a text. -/
theorem line_induction (hroom : 0 < room) {motive : List Byte → Prop} (nil : motive [])
    (line : ∀ text, text ≠ [] → motive (takeLine room text).2 → motive text) (text : List Byte) :
    motive text := by
  induction hn : text.length using Nat.strongRecOn generalizing text with
  | _ n ih =>
    by_cases h : text = []
    · exact h ▸ nil
    · exact line text h (ih _ (hn ▸ takeLine_rest_lt hroom h) _ rfl)

theorem cut_eq_pieces (hroom : 0 < room) (text : List Byte) :
    ∀ n, text.length ≤ n → cut room n text = pieces room text := by
  induction text using line_induction hroom with
  | nil =>
    intro n _
    cases n with
    | zero => rfl
    | succ n => rfl
  | line text h ih =>
    intro n hn
    have hlt := takeLine_rest_lt hroom h
    obtain ⟨n, rfl⟩ := Nat.exists_eq_add_one.mpr (show 0 < n by omega)
    obtain ⟨m, hm⟩ := Nat.exists_eq_add_one.mpr (show 0 < text.length by omega)
    rw [pieces, hm, cut, cut, if_neg h, if_neg h, ih n (by omega), ih m (by omega)]

theorem pieces_line (hroom : 0 < room) {text : List Byte} (h : text ≠ []) :
    pieces room text = (takeLine room text).1 :: pieces room (takeLine room text).2 := by
  have hlt := takeLine_rest_lt hroom h
  rw [← cut_eq_pieces hroom text _ (Nat.le_succ _), cut, if_neg h, cut_eq_pieces hroom _ _ hlt.le]

end Room

/-! ## Reading a line into a buffer -/

section Fgets
variable {cap : ℕ}

/-- `fgets` with a stream that still has `text`: the buffer with the next line and its terminator, and the
rest of the text; nothing at the end of the text. -/
def fgets (hcap : 1 < cap) (b : Buffer cap) (text : List Byte) : Option (Buffer cap × List Byte) :=
  if text = [] then none
  else
    some (b.write 0 ((takeLine (cap - 1) text).1 ++ [0]) (by
      have hlen := takeLine_length_le (cap - 1) text
      rw [List.length_append, List.length_singleton]
      omega), (takeLine (cap - 1) text).2)

/-- `b[s] = c`. -/
def put (b : Buffer cap) (s : ℕ) (c : Byte) : Buffer cap where
  bytes := b.bytes.set s c
  size := by rw [List.length_set, b.size]

theorem fgets_line (hcap : 1 < cap) (b : Buffer cap) {text : List Byte} (h : text ≠ []) :
    ∃ b' behind, fgets hcap b text = some (b', (takeLine (cap - 1) text).2) ∧
      b'.bytes = (takeLine (cap - 1) text).1 ++ 0 :: behind := by
  rw [fgets, if_neg h]
  refine ⟨_, b.bytes.drop (0 + ((takeLine (cap - 1) text).1 ++ [0]).length), rfl, ?_⟩
  show b.bytes.take 0 ++ (_ ++ _) = _
  rw [List.take_zero, List.nil_append, List.append_assoc]
  rfl

end Fgets

theorem ofBytes_append_nul (l behind : List Byte) : CStr.ofBytes (l ++ 0 :: behind) = CStr.ofBytes l := by
  apply CStr.eq_of_bytes
  simp only [CStr.ofBytes]
  induction l with
  | nil => rfl
  | cons c l ih => simp only [List.cons_append, List.takeWhile_cons, ih]

/-- A buffer with a NUL is its string, the terminator and what lies behind. -/
theorem exists_behind {l : List Byte} (h : (0 : Byte) ∈ l) :
    ∃ behind, l = (CStr.ofBytes l).bytes ++ 0 :: behind := by
  induction l with
  | nil => exact absurd h List.not_mem_nil
  | cons c l ih =>
    by_cases hc : c = 0
    · subst hc
      exact ⟨l, rfl⟩
    · obtain ⟨behind, he⟩ := ih ((List.mem_cons.mp h).resolve_left (Ne.symm hc))
      have hcons : (CStr.ofBytes (c :: l)).bytes = c :: (CStr.ofBytes l).bytes := by
        show (c :: l).takeWhile (fun c => c != 0) = _
        rw [List.takeWhile_cons_of_pos (by simpa using hc)]
        rfl
      exact ⟨behind, by rw [hcons, List.cons_append, ← he]⟩

/-! ## Numbers -/

def isSpace (c : Byte) : Bool := c = ascii ' ' || (9 ≤ c.toNat && c.toNat ≤ 13)

def isDigit (c : Byte) : Bool := 48 ≤ c.toNat && c.toNat ≤ 57

/-- The width of a sign at the front. -/
def signWidth : List Byte → ℕ
  | c :: _ => if c = ascii '-' ∨ c = ascii '+' then 1 else 0
  | [] => 0

def magnitude (digits : List Byte) : ℤ := digits.foldl (fun n c => 10 * n + (c.toNat - 48)) 0

/-- A number that was read and how many bytes were looked at for it. -/
structure Conversion where
  value : ℤ
  looked : ℕ

/-- `strtoll` in base ten: white space, a sign, digits; what does not fit into 64 bits gives the bound. -/
def strtoll (s : List Byte) : Conversion :=
  let number := s.dropWhile isSpace
  let digits := (number.drop (signWidth number)).takeWhile isDigit
  let n := if number.head? = some (ascii '-') then -magnitude digits else magnitude digits
  { value := max (-2 ^ 63) (min n (2 ^ 63 - 1))
    -- the byte that ends the digits is looked at, too
    looked := (s.takeWhile isSpace).length + signWidth number + digits.length + 1 }

def atoi (s : List Byte) : Int32 := Int32.ofInt (strtoll s).value

theorem takeWhile_append_nul {p : Byte → Bool} (hp : p 0 = false) (l behind : List Byte) :
    (l ++ 0 :: behind).takeWhile p = l.takeWhile p := by
  induction l with
  | nil => exact List.takeWhile_cons_of_neg (by rw [hp]; decide)
  | cons c l ih => simp only [List.cons_append, List.takeWhile_cons, ih]

theorem dropWhile_append_nul {p : Byte → Bool} (hp : p 0 = false) (l behind : List Byte) :
    (l ++ 0 :: behind).dropWhile p = l.dropWhile p ++ 0 :: behind := by
  induction l with
  | nil => exact List.dropWhile_cons_of_neg (by rw [hp]; decide)
  | cons c l ih =>
    rw [List.cons_append, List.dropWhile_cons, List.dropWhile_cons]
    split
    · exact ih
    · rfl

theorem signWidth_append_nul (l behind : List Byte) : signWidth (l ++ 0 :: behind) = signWidth l := by
  cases l with
  | nil => rfl
  | cons c l => rfl

theorem signWidth_le (l : List Byte) : signWidth l ≤ l.length := by
  cases l with
  | nil => exact le_rfl
  | cons c l =>
    rw [signWidth, List.length_cons]
    split
    · omega
    · omega

/-- What lies behind the terminator does not count. -/
theorem strtoll_append_nul (l behind : List Byte) : strtoll (l ++ 0 :: behind) = strtoll l := by
  have hspace : isSpace 0 = false := rfl
  have hdigit : isDigit 0 = false := rfl
  have hminus : ¬ some (0 : Byte) = some (ascii '-') := by decide
  have hhead : ∀ n : List Byte, (n ++ 0 :: behind).head? = some (ascii '-') ↔
      n.head? = some (ascii '-') := by
    intro n
    cases n with
    | nil => exact ⟨fun h => absurd h hminus, fun h => nomatch h⟩
    | cons c n => rfl
  simp only [strtoll, takeWhile_append_nul hspace, dropWhile_append_nul hspace, signWidth_append_nul,
    List.drop_append_of_le_length (signWidth_le _), takeWhile_append_nul hdigit, hhead]

/-- The bytes of the string and its terminator are all that is looked at. -/
theorem strtoll_looked_le (l : List Byte) : (strtoll l).looked ≤ l.length + 1 := by
  have hcut : (l.takeWhile isSpace).length + (l.dropWhile isSpace).length = l.length := by
    rw [← List.length_append, List.takeWhile_append_dropWhile]
  have hsign := signWidth_le (l.dropWhile isSpace)
  have hdigits := (List.takeWhile_prefix (l := (l.dropWhile isSpace).drop
    (signWidth (l.dropWhile isSpace))) isDigit).length_le
  rw [List.length_drop] at hdigits
  show (_ + _ + _ + 1 : ℕ) ≤ _
  omega

end LkpProjects.Lines
