import LkpProjects.Library.Nand

/-! # Bytes in memory: little-endian words and C strings

A memory area is a function from addresses to bytes. `readLe` reads a 32-bit word from it and
`leByte` is the byte that storing a word puts at each of its four addresses; storing and reading back
gives the word modulo `2^32` (`readLe_leByte`). `CStr` is a NUL-terminated string: its bytes carry the
proof that none of them is zero, so `strlen`, `strcmp` and `strcpy` are list length, equality and copy.
-/
namespace LkpProjects.Bytes
open Nand
set_option autoImplicit false

/-! ## Words -/

/-- Byte number `i` of the little-endian image of `n`. -/
def leByte (n i : ℕ) : Byte := BitVec.ofNat 8 (n / 256 ^ i)

/-- The 32-bit word stored at address `pos`. -/
def readLe (f : ℕ → Byte) (pos : ℕ) : ℕ :=
  (f pos).toNat + 256 * (f (pos + 1)).toNat + 65536 * (f (pos + 2)).toNat +
    16777216 * (f (pos + 3)).toNat

/-- The four bytes of a word, as `memcpy` of an `int` lays them out. -/
def le32 (n : ℕ) : List Byte := [leByte n 0, leByte n 1, leByte n 2, leByte n 3]

/-- The value of an `int` whose 32 bits are `w`. -/
def intOfWord (w : ℕ) : ℤ := if w < 2 ^ 31 then w else (w : ℤ) - 2 ^ 32

@[simp] theorem le32_length (n : ℕ) : (le32 n).length = 4 := rfl

theorem leByte_toNat (n i : ℕ) : (leByte n i).toNat = n / 256 ^ i % 256 := by
  simp [leByte]

theorem readLe_lt (f : ℕ → Byte) (pos : ℕ) : readLe f pos < 2 ^ 32 := by
  have h0 := (f pos).isLt
  have h1 := (f (pos + 1)).isLt
  have h2 := (f (pos + 2)).isLt
  have h3 := (f (pos + 3)).isLt
  rw [readLe]
  omega

theorem readLe_congr {f g : ℕ → Byte} {pos pos' : ℕ}
    (h : ∀ i, i < 4 → f (pos + i) = g (pos' + i)) : readLe f pos = readLe g pos' := by
  have h0 := h 0 (by omega)
  have h1 := h 1 (by omega)
  have h2 := h 2 (by omega)
  have h3 := h 3 (by omega)
  simp only [Nat.add_zero] at h0
  simp only [readLe, h0, h1, h2, h3]

/-- Reading back a stored word. -/
theorem readLe_leByte {f : ℕ → Byte} {pos n : ℕ}
    (h : ∀ i, i < 4 → f (pos + i) = leByte n i) : readLe f pos = n % 2 ^ 32 := by
  have h0 := h 0 (by omega)
  have h1 := h 1 (by omega)
  have h2 := h 2 (by omega)
  have h3 := h 3 (by omega)
  simp only [Nat.add_zero] at h0
  simp only [readLe, h0, h1, h2, h3, leByte_toNat]
  omega

theorem readLe_of_lt {f : ℕ → Byte} {pos n : ℕ} (hn : n < 2 ^ 32)
    (h : ∀ i, i < 4 → f (pos + i) = leByte n i) : readLe f pos = n := by
  rw [readLe_leByte h, Nat.mod_eq_of_lt hn]

/-- Clearing bits of a stored word can only make it smaller. -/
theorem readLe_le_of_and {f g : ℕ → Byte} {pos : ℕ}
    (h : ∀ i, i < 4 → f (pos + i) &&& g (pos + i) = f (pos + i)) : readLe f pos ≤ readLe g pos := by
  have hle : ∀ i, i < 4 → (f (pos + i)).toNat ≤ (g (pos + i)).toNat := by
    intro i hi
    rw [← h i hi, BitVec.toNat_and]
    exact Nat.and_le_right
  have h0 := hle 0 (by omega)
  have h1 := hle 1 (by omega)
  have h2 := hle 2 (by omega)
  have h3 := hle 3 (by omega)
  simp only [Nat.add_zero] at h0
  simp only [readLe]
  omega

theorem intOfWord_of_lt {w : ℕ} (h : w < 2 ^ 31) : intOfWord w = w := if_pos h

/-! ## Reading a list of bytes -/

/-- A buffer as memory; addresses past its end read zero. -/
def mem (l : List Byte) (i : ℕ) : Byte := l.getD i 0

theorem mem_append_left {l l' : List Byte} {i : ℕ} (h : i < l.length) :
    mem (l ++ l') i = mem l i := List.getD_append _ _ _ _ h

theorem mem_append_right {l l' : List Byte} {i : ℕ} (h : l.length ≤ i) :
    mem (l ++ l') i = mem l' (i - l.length) := List.getD_append_right _ _ _ _ h

theorem mem_clearBits (old data : List Byte) (i : ℕ) :
    mem (clearBits old data) i = mem old i &&& mem data i := by
  simp only [mem, clearBits, List.getD_eq_getElem?_getD, List.getElem?_zipWith]
  cases old[i]? <;> cases data[i]? <;> simp

/-- A word of a page that was programmed is no larger than it was, nor than what was to be stored. -/
theorem readLe_clearBits (old data : List Byte) (pos : ℕ) :
    readLe (mem (clearBits old data)) pos ≤ min (readLe (mem old) pos) (readLe (mem data) pos) := by
  refine le_min (readLe_le_of_and fun i _ => ?_) (readLe_le_of_and fun i _ => ?_)
  · rw [mem_clearBits, BitVec.and_comm, ← BitVec.and_assoc, BitVec.and_self]
  · rw [mem_clearBits, BitVec.and_assoc, BitVec.and_self]

theorem mem_le32 (n : ℕ) {i : ℕ} (hi : i < 4) : mem (le32 n) i = leByte n i := by
  rcases i with _ | _ | _ | _ | i
  · rfl
  · rfl
  · rfl
  · rfl
  · omega

/-- A word at the front of a buffer. -/
theorem readLe_le32_append {n : ℕ} (hn : n < 2 ^ 32) (l : List Byte) :
    readLe (mem (le32 n ++ l)) 0 = n := by
  apply readLe_of_lt hn
  intro i hi
  rw [Nat.zero_add, mem_append_left (by simpa using hi), mem_le32 n hi]

/-- A word behind `pre` bytes of a buffer. -/
theorem readLe_append_le32_append {n : ℕ} (hn : n < 2 ^ 32) (pre l : List Byte) :
    readLe (mem (pre ++ (le32 n ++ l))) pre.length = n := by
  apply readLe_of_lt hn
  intro i hi
  rw [mem_append_right (by omega), Nat.add_sub_cancel_left, mem_append_left (by simpa using hi),
    mem_le32 n hi]

/-! ## C strings -/

/-- A NUL-terminated string, without its terminator. -/
structure CStr where
  bytes : List Byte
  noNul : ∀ c ∈ bytes, c ≠ 0
  deriving DecidableEq

/-- The string that starts at the first byte of `l`: everything before the first NUL. -/
def CStr.ofBytes (l : List Byte) : CStr where
  bytes := l.takeWhile fun c => c != 0
  noNul := fun c hc => by simpa using List.mem_takeWhile_imp hc

/-- `strlen`. -/
def CStr.len (s : CStr) : ℕ := s.bytes.length

/-- A string read back from its own bytes and terminator. -/
theorem CStr.ofBytes_append (s : CStr) (l : List Byte) : CStr.ofBytes (s.bytes ++ 0 :: l) = s := by
  obtain ⟨b, hb⟩ := s
  have h : (b ++ 0 :: l).takeWhile (fun c => c != 0) = b := by
    rw [List.takeWhile_append_of_pos (by simpa using hb)]
    simp
  simpa [CStr.ofBytes] using h

theorem CStr.ofBytes_bytes (s : CStr) : CStr.ofBytes s.bytes = s := by
  obtain ⟨b, hb⟩ := s
  have h : b.takeWhile (fun c => c != 0) = b := by
    rw [List.takeWhile_eq_self_iff]
    simpa using hb
  simpa [CStr.ofBytes] using h

theorem CStr.eq_of_bytes {k k' : CStr} (h : k.bytes = k'.bytes) : k = k' := by
  rw [← CStr.ofBytes_bytes k, h, CStr.ofBytes_bytes]

end LkpProjects.Bytes
