import Mathlib

/-! # Drawing a winner by weight

Items with weights lie in a binary tree. A number from 1 to the total weight picks an item: a scan of
the items in order stops where the running sum reaches the number, and a descent finds the same item
by the weights of whole subtrees (`descend_eq_scan`). Each item has the numbers of an interval as long
as its weight (`scan_eq_some_iff`), so that a draw that is reduced modulo the total picks it as often as
its weight says, up to rounding (`count_mod_mem`). `link` hangs a new item below a leaf of the tree, at
the place its key gives it (`inorder_link`, `sorted_link`).
-/
namespace LkpProjects.WeightedTree
set_option autoImplicit false

inductive BinTree (α : Type) where
  | nil
  | node (left : BinTree α) (val : α) (right : BinTree α)

variable {α κ : Type} {w : α → ℕ} {lucky acc : ℕ}

namespace BinTree

def inorder : BinTree α → List α
  | nil => []
  | node l x r => l.inorder ++ x :: r.inorder

@[simp] theorem inorder_nil : (nil : BinTree α).inorder = [] := rfl

@[simp] theorem inorder_node (l : BinTree α) (x : α) (r : BinTree α) :
    (node l x r).inorder = l.inorder ++ x :: r.inorder := rfl

end BinTree

/-! ## Scan and descent -/

/-- The total weight of a list of items. -/
def total (w : α → ℕ) (xs : List α) : ℕ := (xs.map w).sum

@[simp] theorem total_nil : total w [] = 0 := rfl

@[simp] theorem total_cons (x : α) (xs : List α) : total w (x :: xs) = w x + total w xs := by
  simp [total]

@[simp] theorem total_append (xs ys : List α) : total w (xs ++ ys) = total w xs + total w ys := by
  simp [total]

/-- The first item at which the running sum reaches `lucky`. -/
def scan (w : α → ℕ) (lucky : ℕ) : ℕ → List α → Option α
  | _, [] => none
  | acc, x :: xs => if lucky ≤ acc + w x then some x else scan w lucky (acc + w x) xs

/-- The same search from the root of a tree, deciding at each node by the weight of its left side. -/
def descend (w : α → ℕ) (lucky : ℕ) : ℕ → BinTree α → Option α
  | _, .nil => none
  | acc, .node l x r =>
      if lucky ≤ acc + total w l.inorder then descend w lucky acc l
      else if lucky ≤ acc + total w l.inorder + w x then some x
      else descend w lucky (acc + total w l.inorder + w x) r

theorem scan_append (xs ys : List α) : ∀ acc, acc < lucky → scan w lucky acc (xs ++ ys) =
    if lucky ≤ acc + total w xs then scan w lucky acc xs
    else scan w lucky (acc + total w xs) ys := by
  induction xs with
  | nil =>
    intro acc hacc
    rw [if_neg (by simpa using hacc)]
    simp
  | cons x xs ih =>
    intro acc hacc
    rw [List.cons_append, scan, scan, total_cons, ← Nat.add_assoc]
    by_cases hx : lucky ≤ acc + w x
    · rw [if_pos hx, if_pos hx, if_pos (by omega)]
    · rw [if_neg hx, if_neg hx]
      apply ih
      omega

/-- Descent and scan agree, whatever the shape of the tree. -/
theorem descend_eq_scan (t : BinTree α) : ∀ acc, acc < lucky →
    descend w lucky acc t = scan w lucky acc t.inorder := by
  induction t with
  | nil => exact fun _ _ => rfl
  | node l x r ihl ihr =>
    intro acc hacc
    rw [descend, BinTree.inorder_node, scan_append _ _ acc hacc]
    by_cases hl : lucky ≤ acc + total w l.inorder
    · rw [if_pos hl, if_pos hl]
      exact ihl acc hacc
    · rw [if_neg hl, if_neg hl, scan]
      by_cases hx : lucky ≤ acc + total w l.inorder + w x
      · rw [if_pos hx, if_pos hx]
      · rw [if_neg hx, if_neg hx]
        apply ihr
        omega

/-- A scan ends with an item exactly when the number is within the total weight. -/
theorem scan_isSome (xs : List α) : ∀ acc, acc < lucky →
    ((scan w lucky acc xs).isSome ↔ lucky ≤ acc + total w xs) := by
  induction xs with
  | nil =>
    intro acc hacc
    simpa [scan] using hacc
  | cons x xs ih =>
    intro acc hacc
    rw [scan, total_cons, ← Nat.add_assoc]
    by_cases hx : lucky ≤ acc + w x
    · rw [if_pos hx]
      simp only [Option.isSome_some, true_iff]
      omega
    · rw [if_neg hx]
      apply ih
      omega

theorem scan_mem {x : α} {xs : List α} : ∀ {acc}, scan w lucky acc xs = some x → x ∈ xs := by
  induction xs with
  | nil =>
    intro acc h
    cases h
  | cons y xs ih =>
    intro acc h
    rw [scan] at h
    split at h
    · rw [Option.some.inj h]
      exact List.mem_cons_self
    · exact List.mem_cons_of_mem y (ih h)

/-- Each item has the numbers of an interval as long as its weight. -/
theorem scan_eq_some_iff {xs ys : List α} {x : α} (hx : x ∉ xs) (hy : x ∉ ys) (hacc : acc < lucky) :
    scan w lucky acc (xs ++ x :: ys) = some x ↔
      acc + total w xs < lucky ∧ lucky ≤ acc + total w xs + w x := by
  rw [scan_append _ _ acc hacc]
  by_cases hle : lucky ≤ acc + total w xs
  · rw [if_pos hle]
    constructor
    · exact fun h => absurd (scan_mem h) hx
    · omega
  · rw [if_neg hle, scan]
    by_cases hin : lucky ≤ acc + total w xs + w x
    · rw [if_pos hin]
      simp only [true_iff]
      omega
    · rw [if_neg hin]
      constructor
      · exact fun h => absurd (scan_mem h) hy
      · omega

/-! ## Counting the draws -/

theorem count_congr_lt {P Q : ℕ → Prop} [DecidablePred P] [DecidablePred Q] {n : ℕ}
    (h : ∀ r < n, P r ↔ Q r) : Nat.count P n = Nat.count Q n := by
  rw [Nat.count_eq_card_filter_range, Nat.count_eq_card_filter_range]
  exact congrArg Finset.card (Finset.filter_congr fun r hr => h r (Finset.mem_range.mp hr))

/-- Of the numbers below `n`, those with one remainder modulo `m`. -/
theorem count_mod_eq {n m v : ℕ} (hv : v < m) :
    n / m ≤ Nat.count (fun r => r % m = v) n ∧ Nat.count (fun r => r % m = v) n ≤ n ⌈/⌉ m := by
  have hm : 0 < m := Nat.zero_lt_of_lt hv
  have hmod : (fun r => r % m = v) = fun r => r ≡ v [MOD m] := by
    funext r
    rw [Nat.ModEq, Nat.mod_eq_of_lt hv]
  have hcount : Nat.count (fun r => r % m = v) n = n / m + if v < n % m then 1 else 0 := by
    simp only [hmod]
    rw [Nat.count_modEq_card n hm v, Nat.mod_eq_of_lt hv]
  have hdiv := Nat.div_add_mod' n m
  have hceil : n / m ≤ n ⌈/⌉ m := by
    rw [Nat.ceilDiv_eq_add_pred_div]
    exact Nat.div_le_div_right (by omega)
  rw [hcount]
  refine ⟨Nat.le_add_right _ _, ?_⟩
  split
  · next hlt =>
    rw [Nat.ceilDiv_eq_add_pred_div, Nat.le_div_iff_mul_le hm, Nat.succ_mul]
    omega
  · exact hceil

/-- Of the numbers below `n`, those whose remainder modulo `m` is in an interval of length `k`. -/
theorem count_mod_mem {n m a k : ℕ} (h : a + k ≤ m) :
    k * (n / m) ≤ Nat.count (fun r => a ≤ r % m ∧ r % m < a + k) n ∧
      Nat.count (fun r => a ≤ r % m ∧ r % m < a + k) n ≤ k * (n ⌈/⌉ m) := by
  induction k with
  | zero =>
    have hnone : Nat.count (fun r => a ≤ r % m ∧ r % m < a + 0) n = 0 := by
      rw [Nat.count_eq_card_filter_range, Finset.card_eq_zero, Finset.filter_eq_empty_iff]
      intro r _
      omega
    rw [hnone, Nat.zero_mul, Nat.zero_mul]
    exact ⟨le_rfl, le_rfl⟩
  | succ k ih =>
    obtain ⟨hlo, hhi⟩ := ih (by omega)
    obtain ⟨hlo', hhi'⟩ := @count_mod_eq n m (a + k) (by omega)
    have hsplit : Nat.count (fun r => a ≤ r % m ∧ r % m < a + (k + 1)) n =
        Nat.count (fun r => a ≤ r % m ∧ r % m < a + k) n + Nat.count (fun r => r % m = a + k) n := by
      simp only [Nat.count_eq_card_filter_range]
      rw [← Finset.card_union_of_disjoint, ← Finset.filter_or]
      · congr 1
        refine Finset.filter_congr fun r _ => ?_
        omega
      · refine Finset.disjoint_filter.mpr fun r _ h => ?_
        omega
    rw [hsplit, Nat.succ_mul, Nat.succ_mul]
    exact ⟨Nat.add_le_add hlo hlo', Nat.add_le_add hhi hhi'⟩

/-! ## Shares of the draws -/

section Shares
variable {w' : α → ℕ} {m n : ℕ} {xs ys zs : List α} {x : α} [DecidableEq α]

/-- How many numbers below `n`, reduced modulo `m`, make the scan stop at `x`. -/
def wins (w : α → ℕ) (m n : ℕ) (xs : List α) (x : α) : ℕ :=
  Nat.count (fun r => scan w (r % m + 1) 0 xs = some x) n

/-- Each item has as many of the numbers as its weight `w'` says, rounded down or up. -/
def Fair (w w' : α → ℕ) (m n : ℕ) (xs : List α) : Prop :=
  ∀ x ∈ xs, w' x * (n / m) ≤ wins w m n xs x ∧ wins w m n xs x ≤ w' x * (n ⌈/⌉ m)

/-- Up to any place, the weights that are read and those that are meant have the same sum; beyond `m` the
former may have more. -/
def Exact (w w' : α → ℕ) (m : ℕ) (xs : List α) : Prop := ∀ ys, ys <+: xs → min (total w ys) m = total w' ys

/-- An item wins by the part of its interval that lies below `m`. -/
theorem wins_bounds (hx : x ∉ ys) (hz : x ∉ zs) (hm : 0 < m) :
    (min (total w ys + w x) m - min (total w ys) m) * (n / m) ≤ wins w m n (ys ++ x :: zs) x ∧
      wins w m n (ys ++ x :: zs) x ≤ (min (total w ys + w x) m - min (total w ys) m) * (n ⌈/⌉ m) := by
  have hwins : wins w m n (ys ++ x :: zs) x = Nat.count (fun r => min (total w ys) m ≤ r % m ∧
      r % m < min (total w ys) m + (min (total w ys + w x) m - min (total w ys) m)) n := by
    refine count_congr_lt fun r _ => ?_
    have hmod := Nat.mod_lt r hm
    rw [scan_eq_some_iff hx hz (Nat.succ_pos _)]
    omega
  rw [hwins]
  exact count_mod_mem (by omega)

omit [DecidableEq α] in
theorem Exact.share (h : Exact w w' m (ys ++ x :: zs)) :
    min (total w ys + w x) m - min (total w ys) m = w' x := by
  have hys := h ys (List.prefix_append _ _)
  have hyx := h (ys ++ [x]) ⟨zs, by simp⟩
  simp only [total_append, total_cons, total_nil, Nat.add_zero] at hyx
  omega

/-- When all sums come out right, the draws are shared as meant. -/
theorem Exact.fair (h : Exact w w' m xs) (hn : xs.Nodup) (hm : 0 < m) : Fair w w' m n xs := by
  intro x hx
  obtain ⟨ys, zs, rfl⟩ := List.append_of_mem hx
  rw [List.nodup_append, List.nodup_cons] at hn
  have hbounds := @wins_bounds _ w m n ys zs x _ (fun hy => hn.2.2 x hy x List.mem_cons_self rfl) hn.2.1.1 hm
  rwa [h.share] at hbounds

/-- A weight below the rounded share of one unit is told by the draws. -/
theorem eq_of_rounded {k v c q : ℕ} (hv : v < q) (h₁ : k * q ≤ c) (h₂ : c ≤ k * (q + 1)) (h₃ : v * q ≤ c)
    (h₄ : c ≤ v * (q + 1)) : k = v := by
  refine Nat.le_antisymm ?_ ?_
  · by_contra hlt
    have hmul := Nat.mul_le_mul_right q (Nat.succ_le_of_lt (not_le.mp hlt))
    rw [Nat.succ_mul] at hmul
    rw [Nat.mul_succ] at h₄
    omega
  · by_contra hlt
    have hmul := Nat.mul_le_mul_right q (Nat.succ_le_of_lt (not_le.mp hlt))
    rw [Nat.succ_mul] at hmul
    rw [Nat.mul_succ] at h₂
    omega

theorem ceilDiv_le_succ : n ⌈/⌉ m ≤ n / m + 1 := by
  rw [Nat.ceilDiv_eq_add_pred_div]
  obtain rfl | hm := Nat.eq_zero_or_pos m
  · simp
  · rw [← Nat.add_div_right n hm]
    exact Nat.div_le_div_right (Nat.sub_le _ _)

/-- When every weight is below the rounded share of one unit, the sums must come out right. -/
theorem Fair.exact (h : Fair w w' m n xs) (hn : xs.Nodup) (hm : 0 < m) (hfine : ∀ x ∈ xs, w' x < n / m) :
    Exact w w' m xs := by
  intro ys
  induction ys using List.reverseRecOn with
  | nil => exact fun _ => Nat.zero_min m
  | append_singleton ys x ih =>
    intro hpre
    obtain ⟨zs, hxs⟩ := hpre
    obtain rfl : ys ++ x :: zs = xs := by
      rw [← hxs]
      simp
    have hys := ih (List.prefix_append _ _)
    rw [List.nodup_append, List.nodup_cons] at hn
    have hx : x ∈ ys ++ x :: zs := by simp
    have hbounds := @wins_bounds _ w m n ys zs x _ (fun hy => hn.2.2 x hy x List.mem_cons_self rfl) hn.2.1.1 hm
    have hceil := @ceilDiv_le_succ m n
    have hshare := eq_of_rounded (hfine x hx) hbounds.1 (hbounds.2.trans (Nat.mul_le_mul_left _ hceil)) (h x hx).1
      ((h x hx).2.trans (Nat.mul_le_mul_left _ hceil))
    simp only [total_append, total_cons, total_nil, Nat.add_zero]
    omega

end Shares

/-! ## A new leaf -/

section Link
variable [LinearOrder κ] {key : α → κ}

/-- Hang `x` below a leaf: to the left of the items with a larger key, to the right of all others. -/
def link (key : α → κ) (x : α) : BinTree α → BinTree α
  | .nil => .node .nil x .nil
  | .node l y r => if key x < key y then .node (link key x l) y r else .node l y (link key x r)

theorem inorder_link (x : α) (t : BinTree α) : (link key x t).inorder.Perm (x :: t.inorder) := by
  induction t with
  | nil => exact .refl _
  | node l y r ihl ihr =>
    rw [link]
    split
    · exact ihl.append_right _
    · refine ((ihr.cons y).append_left _).trans ?_
      refine (List.Perm.swap x y _).append_left l.inorder |>.trans ?_
      exact List.perm_middle

/-- The keys of the items never decrease from left to right. -/
def Sorted (key : α → κ) (xs : List α) : Prop := xs.Pairwise fun x y => key x ≤ key y

theorem sorted_append_cons {xs ys : List α} {x : α} : Sorted key (xs ++ x :: ys) ↔
    Sorted key xs ∧ Sorted key ys ∧ (∀ a ∈ xs, key a ≤ key x) ∧ (∀ b ∈ ys, key x ≤ key b) ∧
      ∀ a ∈ xs, ∀ b ∈ ys, key a ≤ key b := by
  simp only [Sorted, List.pairwise_append, List.pairwise_cons, List.mem_cons, forall_eq_or_imp]
  constructor
  · rintro ⟨hx, ⟨hxy, hy⟩, h⟩
    exact ⟨hx, hy, fun a ha => (h a ha).1, hxy, fun a ha => (h a ha).2⟩
  · rintro ⟨hx, hy, hxa, hxy, h⟩
    exact ⟨hx, ⟨hxy, hy⟩, fun a ha => ⟨hxa a ha, h a ha⟩⟩

theorem sorted_link (x : α) (t : BinTree α) (h : Sorted key t.inorder) :
    Sorted key (link key x t).inorder := by
  induction t with
  | nil => simp [link, Sorted]
  | node l y r ihl ihr =>
    obtain ⟨hl, hr, hly, hyr, hlr⟩ := sorted_append_cons.mp h
    rw [link]
    split
    · next hlt =>
      refine sorted_append_cons.mpr ⟨ihl hl, hr, fun a ha => ?_, hyr, fun a ha b hb => ?_⟩
      · obtain rfl | ha := List.mem_cons.mp ((inorder_link x l).mem_iff.mp ha)
        · exact hlt.le
        · exact hly a ha
      · obtain rfl | ha := List.mem_cons.mp ((inorder_link x l).mem_iff.mp ha)
        · exact hlt.le.trans (hyr b hb)
        · exact hlr a ha b hb
    · next hge =>
      refine sorted_append_cons.mpr ⟨hl, ihr hr, hly, fun b hb => ?_, fun a ha b hb => ?_⟩
      · obtain rfl | hb := List.mem_cons.mp ((inorder_link x r).mem_iff.mp hb)
        · exact not_lt.mp hge
        · exact hyr b hb
      · obtain rfl | hb := List.mem_cons.mp ((inorder_link x r).mem_iff.mp hb)
        · exact (hly a ha).trans (not_lt.mp hge)
        · exact hlr a ha b hb

end Link

end LkpProjects.WeightedTree
