import LkpProjects.Library.Nand

/-! # How often a block was erased

A driver cannot ask a flash how worn its blocks are; it keeps a counter for each of them. `Counts ppb n worn h` says
that the counters `worn` of `n` blocks of `ppb` pages are right for the history `h`: each is the number of the
block's erasures since the whole device was last erased at once, when the counters start again from 0.
-/
namespace LkpProjects.Nand
set_option autoImplicit false

/-- How often block `b` of `ppb` pages was erased since all `pages` pages were last erased at once. -/
def erasures (ppb pages b : ℕ) : History → ℕ
  | [] => 0
  | .erase first count :: h =>
      if first = 0 ∧ count = pages then 0
      else if first ≤ b * ppb ∧ b * ppb + ppb ≤ first + count then erasures ppb pages b h + 1
      else erasures ppb pages b h
  | .program _ _ :: h => erasures ppb pages b h

/-- Counters that count the erasures of `n` blocks. -/
def Counts (ppb n : ℕ) (worn : ℕ → ℕ) (h : History) : Prop :=
  ∀ b < n, worn b = erasures ppb (n * ppb) b h

section Counters
variable {ppb pages n b c p : ℕ} {data : List Byte} {h : History} {worn worn' : ℕ → ℕ}

@[simp] theorem erasures_program : erasures ppb pages b (.program p data :: h) = erasures ppb pages b h := rfl

/-- The pages of another block. -/
theorem not_covers (hppb : 0 < ppb) (hc : c ≠ b) : ¬ (b * ppb ≤ c * ppb ∧ c * ppb + ppb ≤ b * ppb + ppb) := by
  rintro ⟨h1, h2⟩
  exact hc (Nat.le_antisymm (Nat.le_of_mul_le_mul_right (Nat.le_of_add_le_add_right h2) hppb)
    (Nat.le_of_mul_le_mul_right h1 hppb))

/-- One block is not the device. -/
theorem not_whole (hppb : 0 < ppb) (hn : 1 < n) : ¬ (b * ppb = 0 ∧ ppb = n * ppb) := by
  rintro ⟨-, h⟩
  have hlt : 1 * ppb < n * ppb := Nat.mul_lt_mul_of_pos_right hn hppb
  omega

/-- When the device is erased, the counters start again. -/
theorem Counts.whole (hw : ∀ b < n, worn b = 0) : Counts ppb n worn (.erase 0 (n * ppb) :: h) := fun b hb => by
  rw [hw b hb, erasures, if_pos ⟨rfl, rfl⟩]

/-- When a block is erased, its counter goes up. -/
theorem Counts.erase (hC : Counts ppb n worn h) (hppb : 0 < ppb) (hn : 1 < n) (hself : worn' b = worn b + 1)
    (hne : ∀ c, c ≠ b → worn' c = worn c) : Counts ppb n worn' (.erase (b * ppb) ppb :: h) := fun c hc => by
  rw [erasures, if_neg (not_whole hppb hn)]
  by_cases hcb : c = b
  · subst hcb
    rw [if_pos ⟨Nat.le_refl _, Nat.le_refl _⟩, hself, hC c hc]
  · rw [if_neg (not_covers hppb hcb), hne c hcb, hC c hc]

end Counters

end LkpProjects.Nand
