import Mathlib

/-! # Pages written in rows, and the rows read in another order

Pages `0 .. n-1` are written to rows of `c` cells: page `i` to cell `i % c` of row `i / c`. A reader goes
through the rows in the order `ks`, looks at `n` cells in all, and sorts a few cells out: those of row 0
before `B` (`kept` holds of the others). `rows` lists the cells it comes by. With the rows ordered by a
key `b`, `OrderFits` says exactly when the kept cells are those of the pages from `B` on, in their order.
-/
namespace LkpProjects.Rows
set_option autoImplicit false

/-- The cell of page `i`. -/
def cell (c i : ℕ) : ℕ × ℕ := (i / c, i % c)

/-- The cells of one row. -/
def row (c k : ℕ) : List (ℕ × ℕ) := (List.range c).map (Prod.mk k)

/-- The cells of the rows `ks`. -/
def rows (c : ℕ) (ks : List ℕ) : List (ℕ × ℕ) := ks.flatMap (row c)

/-- A cell is not among the first `B`, counted in rows of `c + 1`. -/
def kept (c B : ℕ) (x : ℕ × ℕ) : Bool := B ≤ x.1 * (c + 1) + x.2

variable {c B n m k r : ℕ} {ks ks' : List ℕ} {x : ℕ × ℕ}

/-! ## Cells and rows -/

@[simp] theorem row_length : (row c k).length = c := by simp [row]

@[simp] theorem rows_nil : rows c [] = [] := rfl

theorem rows_cons : rows c (k :: ks) = row c k ++ rows c ks := List.flatMap_cons

theorem rows_append : rows c (ks ++ ks') = rows c ks ++ rows c ks' := List.flatMap_append

@[simp] theorem rows_length : (rows c ks).length = ks.length * c := by
  induction ks with
  | nil => simp
  | cons k ks ih =>
    rw [rows_cons, List.length_append, ih, row_length, List.length_cons, Nat.succ_mul, Nat.add_comm]

theorem mem_row : x ∈ row c k ↔ x.1 = k ∧ x.2 < c := by
  obtain ⟨a, o⟩ := x
  simp [row, and_comm, eq_comm]

theorem mem_rows : x ∈ rows c ks ↔ x.1 ∈ ks ∧ x.2 < c := by
  simp [rows, mem_row]

theorem row_nodup : (row c k).Nodup := List.nodup_range.map (Prod.mk_right_injective k)

theorem rows_nodup (h : ks.Nodup) : (rows c ks).Nodup := by
  refine List.nodup_flatMap.mpr ⟨fun _ _ => row_nodup, h.imp fun {a b} hab => ?_⟩
  intro x hx hx'
  exact hab ((mem_row.mp hx).1.symm.trans (mem_row.mp hx').1)

theorem cell_of_mem (ho : r < c) : cell c (k * c + r) = (k, r) := by
  rw [cell, Nat.mul_comm, Nat.mul_add_div (Nat.zero_lt_of_lt ho), Nat.div_eq_of_lt ho, Nat.add_zero,
    Nat.mul_add_mod, Nat.mod_eq_of_lt ho]

theorem row_take (hr : r ≤ c) : (row c k).take r = (List.range' (k * c) r).map (cell c) := by
  rw [row, ← List.map_take, List.take_range, Nat.min_eq_left hr, List.range'_eq_map_range, List.map_map]
  refine List.map_congr_left fun o ho => ?_
  have ho : o < c := (List.mem_range.mp ho).trans_le hr
  exact (cell_of_mem ho).symm

theorem row_eq : row c k = (List.range' (k * c) c).map (cell c) := by
  rw [← row_take le_rfl, List.take_of_length_le row_length.le]

/-- Rows in their order hold the pages in their order. -/
theorem rows_range' (a m : ℕ) : rows c (List.range' a m) = (List.range' (a * c) (m * c)).map (cell c) := by
  induction m with
  | zero => simp
  | succ m ih =>
    rw [List.range'_concat, Nat.one_mul, rows_append, ih, rows_cons, rows_nil, List.append_nil, row_eq,
      ← List.map_append, Nat.add_mul, Nat.succ_mul, ← List.range'_append, Nat.one_mul]

/-- Reading stops within the last row. -/
theorem take_rows_concat (hn : n = ks.length * c + r) :
    (rows c (ks ++ [k])).take n = rows c ks ++ (row c k).take r := by
  rw [rows_append, rows_cons, rows_nil, List.append_nil, hn, ← rows_length, List.take_length_add_append]

/-! ## Counting the kept cells -/

theorem kept_eq_false (hB : B ≤ c) : kept c B x = false ↔ x.1 = 0 ∧ x.2 < B := by
  obtain ⟨a, o⟩ := x
  cases a with
  | zero => simp [kept]
  | succ a =>
    have hle : B ≤ (a + 1) * (c + 1) + o := by
      rw [Nat.succ_mul]
      omega
    simp [kept, hle]

theorem cell_position {a a' o o' : ℕ} (ho : o < c) (ho' : o' < c)
    (h : a * (c + 1) + o = a' * (c + 1) + o') : a = a' ∧ o = o' := by
  have hdiv := congrArg (· / (c + 1)) h
  have hmod := congrArg (· % (c + 1)) h
  simp only [Nat.mul_comm _ (c + 1), Nat.mul_add_div (Nat.succ_pos c), Nat.mul_add_mod] at hdiv hmod
  rw [Nat.div_eq_of_lt (by omega), Nat.div_eq_of_lt (by omega)] at hdiv
  rw [Nat.mod_eq_of_lt (by omega), Nat.mod_eq_of_lt (by omega)] at hmod
  exact ⟨hdiv, hmod⟩

section Count
variable {xs : List (ℕ × ℕ)}

/-- Every position sorted out is below `B`, and none of them is `c`. -/
theorem sortedOut_length (hnd : xs.Nodup) (hc : ∀ x ∈ xs, x.2 < c) :
    (xs.filter fun x => !kept c B x).length + (if c < B then 1 else 0) ≤ B := by
  have hinj : ((xs.filter fun x => !kept c B x).map fun x => x.1 * (c + 1) + x.2).Nodup := by
    refine (hnd.filter _).map_on fun x hx y hy he => ?_
    obtain ⟨h₁, h₂⟩ := cell_position (hc x (List.mem_of_mem_filter hx)) (hc y (List.mem_of_mem_filter hy)) he
    exact Prod.ext h₁ h₂
  have hsub : ((xs.filter fun x => !kept c B x).map fun x => x.1 * (c + 1) + x.2).toFinset ⊆
      (Finset.range B).erase c := by
    intro p hp
    obtain ⟨x, hx, rfl⟩ := List.mem_map.mp (List.mem_toFinset.mp hp)
    have hsmall := hc x (List.mem_of_mem_filter hx)
    have hout : x.1 * (c + 1) + x.2 < B := by simpa [kept] using (List.mem_filter.mp hx).2
    refine Finset.mem_erase.mpr ⟨fun he => ?_, Finset.mem_range.mpr hout⟩
    have hmod := congrArg (· % (c + 1)) he
    simp only [Nat.mul_comm _ (c + 1), Nat.mul_add_mod] at hmod
    rw [Nat.mod_eq_of_lt (by omega), Nat.mod_eq_of_lt (by omega)] at hmod
    omega
  have hle := Finset.card_le_card hsub
  rw [List.toFinset_card_of_nodup hinj, List.length_map] at hle
  split
  · next hcB =>
    rw [Finset.card_erase_of_mem (Finset.mem_range.mpr hcB), Finset.card_range] at hle
    omega
  · exact hle.trans ((Finset.card_erase_le).trans (Finset.card_range B).le)

theorem kept_length (hnd : xs.Nodup) (hc : ∀ x ∈ xs, x.2 < c) :
    xs.length + (if c < B then 1 else 0) ≤ B + (xs.filter (kept c B)).length := by
  have hout := sortedOut_length (B := B) hnd hc
  have hsum := List.length_eq_length_filter_add (l := xs) (kept c B)
  omega

/-- If no more cells are kept than there are pages from `B` on, all the others have been read. -/
theorem mem_of_kept_length (hB : B ≤ c) (hnd : xs.Nodup)
    (hle : (xs.filter (kept c B)).length + B ≤ xs.length) {p : ℕ} (hp : p < B) : (0, p) ∈ xs := by
  have hsub : (xs.filter fun x => !kept c B x) ⊆ (List.range B).map (Prod.mk 0) := by
    intro x hx
    obtain ⟨hx₁, hx₂⟩ := (kept_eq_false hB).mp (by simpa using (List.mem_filter.mp hx).2)
    exact List.mem_map.mpr ⟨x.2, List.mem_range.mpr hx₂, Prod.ext hx₁.symm rfl⟩
  have hsum := List.length_eq_length_filter_add (l := xs) (kept c B)
  have hperm : (xs.filter fun x => !kept c B x).Perm ((List.range B).map (Prod.mk 0)) := by
    refine ((hnd.filter _).subperm hsub).perm_of_length_le ?_
    rw [List.length_map, List.length_range]
    omega
  exact List.mem_of_mem_filter
    (hperm.mem_iff.mpr (List.mem_map.mpr ⟨p, List.mem_range.mpr hp, rfl⟩))

end Count

/-! ## Rows in the order of a key -/

section Keyed
variable {b : ℕ → ℕ}

theorem nodup_of_key (h : ks.Pairwise fun k k' => b k < b k') : ks.Nodup := by
  refine List.Pairwise.imp ?_ h
  intro k k' hlt he
  rw [he] at hlt
  exact lt_irrefl _ hlt

/-- A list in the order of its keys is known from its members. -/
theorem eq_of_key (h : ks.Pairwise fun k k' => b k < b k') (h' : ks'.Pairwise fun k k' => b k < b k')
    (hmem : ∀ k, k ∈ ks ↔ k ∈ ks') : ks = ks' := by
  have hperm : ks.Perm ks' := (List.perm_ext_iff_of_nodup (nodup_of_key h) (nodup_of_key h')).mpr hmem
  exact hperm.eq_of_pairwise (fun k k' _ _ hlt hgt => absurd hgt (lt_asymm hlt)) h h'

/-- `ks` lists the rows `0 .. m-1` in the order of their keys. -/
structure Keyed (b : ℕ → ℕ) (m : ℕ) (ks : List ℕ) : Prop where
  pairwise : ks.Pairwise fun k k' => b k < b k'
  mem : ∀ k, k ∈ ks ↔ k < m

namespace Keyed
variable (h : Keyed b m ks)
include h

theorem length : ks.length = m := by
  have hperm : ks.Perm (List.range m) := (List.perm_ext_iff_of_nodup (nodup_of_key h.pairwise)
    List.nodup_range).mpr fun k => (h.mem k).trans List.mem_range.symm
  rw [hperm.length_eq, List.length_range]

theorem lt_or_lt {i j : ℕ} (hi : i < m) (hj : j < m) (hij : i ≠ j) : b i < b j ∨ b j < b i := by
  have hp := h.pairwise
  obtain ⟨l, l', rfl⟩ := List.append_of_mem ((h.mem j).mpr hj)
  rw [List.pairwise_append, List.pairwise_cons] at hp
  obtain hl | hl := List.mem_append.mp ((h.mem i).mpr hi)
  · exact .inl (hp.2.2 i hl j List.mem_cons_self)
  · exact .inr (hp.2.1.1 i ((List.mem_cons.mp hl).resolve_left hij))

/-- Of two rows, the one with the smaller key is read before the other. -/
theorem split {i j : ℕ} (hi : i < m) (hj : j < m) (hlt : b j < b i) :
    ∃ l l' l'', ks = l ++ j :: (l' ++ i :: l'') := by
  have hp := h.pairwise
  obtain ⟨l, l₁, rfl⟩ := List.append_of_mem ((h.mem j).mpr hj)
  rw [List.pairwise_append, List.pairwise_cons] at hp
  obtain hl | hl := List.mem_append.mp ((h.mem i).mpr hi)
  · exact absurd (hp.2.2 i hl j List.mem_cons_self) (lt_asymm hlt)
  · obtain rfl | hl := List.mem_cons.mp hl
    · exact absurd hlt (lt_irrefl _)
    · obtain ⟨l', l'', rfl⟩ := List.append_of_mem hl
      exact ⟨l, l', l'', rfl⟩

end Keyed

/-- When the kept cells come in the order of the pages: the sorted out cells fit row 0; the other rows are
read in their order; row 0 comes first if it holds a kept cell, and not last if the last row is not
full. -/
structure OrderFits (b : ℕ → ℕ) (c B n m : ℕ) : Prop where
  fits : B ≤ c
  ascending : ∀ i j, 1 ≤ i → i < j → j < m → b i < b j
  first : B < c → 1 < m → b 0 < b 1
  whole : B = c → ¬ c ∣ n → b 0 < b (m - 1)

theorem filter_rows_whole : (rows c ks).filter (kept c c) = rows c (ks.filter (· ≠ 0)) := by
  have hrow : ∀ k, (row c k).filter (kept c c) = if k ≠ 0 then row c k else [] := by
    intro k
    split
    · next hk =>
      refine List.filter_eq_self.mpr fun x hx => eq_true_of_ne_false fun hout => ?_
      exact hk ((mem_row.mp hx).1.symm.trans ((kept_eq_false le_rfl).mp hout).1)
    · next hk =>
      refine List.filter_eq_nil_iff.mpr fun x hx hin => ?_
      have hout := (kept_eq_false (x := x) le_rfl).mpr ⟨(mem_row.mp hx).1.trans (not_not.mp hk), (mem_row.mp hx).2⟩
      rw [hout] at hin
      cases hin
  induction ks with
  | nil => rfl
  | cons k ks ih =>
    rw [rows_cons, List.filter_append, ih, hrow]
    by_cases hk : k = 0
    · simp [hk]
    · simp [hk, rows_cons]

/-- Behind row 0 every cell is kept. -/
theorem row_take_kept (hB : B ≤ c) (hk : k ≠ 0) : ((row c k).take r).filter (kept c B) = (row c k).take r := by
  refine List.filter_eq_self.mpr fun x hx => eq_true_of_ne_false fun hout => ?_
  exact hk ((mem_row.mp (List.mem_of_mem_take hx)).1.symm.trans ((kept_eq_false hB).mp hout).1)

theorem kept_cell (hB : B ≤ c) (hc : 0 < c) (i : ℕ) : kept c B (cell c i) = decide (B ≤ i) := by
  by_cases hi : i < c
  · simp [kept, cell, Nat.div_eq_of_lt hi, Nat.mod_eq_of_lt hi]
  · have hdiv : 1 ≤ i / c := (Nat.one_le_div_iff hc).mpr (not_lt.mp hi)
    have hkept : kept c B (cell c i) = true := eq_true_of_ne_false fun hout => by
      have := ((kept_eq_false hB).mp hout).1
      rw [cell] at this
      omega
    rw [hkept]
    simp
    omega

/-- The rows in their order, the last one cut short. -/
theorem take_rows_range {m : ℕ} (hlo : m * c ≤ n) (hhi : n ≤ (m + 1) * c) :
    (rows c (List.range (m + 1))).take n = (List.range n).map (cell c) := by
  have hr : n - m * c ≤ c := by
    rw [Nat.succ_mul] at hhi
    omega
  have hn : n = m * c + (n - m * c) := by omega
  rw [List.range_succ, take_rows_concat (r := n - m * c) (by rwa [List.length_range]), row_take hr,
    List.range_eq_range', rows_range', ← List.map_append, List.range_eq_range']
  have happ := @List.range'_append (0 * c) (m * c) (n - m * c) 1
  rw [Nat.zero_mul, Nat.zero_add, Nat.one_mul, ← hn] at happ
  rw [Nat.zero_mul, happ]

theorem filter_range_le (hBn : B ≤ n) : (List.range n).filter (fun i => decide (B ≤ i)) =
    List.range' B (n - B) := by
  obtain ⟨d, rfl⟩ := Nat.exists_eq_add_of_le hBn
  rw [List.range_add, List.filter_append, List.filter_eq_nil_iff.mpr (by simp),
    List.filter_eq_self.mpr (by simp), List.nil_append, Nat.add_sub_cancel_left,
    ← List.range'_eq_map_range]

theorem pos_of_rows (hlo : (m - 1) * c < n) (hhi : n ≤ m * c) : 0 < m ∧ 0 < c := by
  constructor
  · by_contra hm
    rw [Nat.eq_zero_of_not_pos hm] at hhi
    omega
  · by_contra hc
    rw [Nat.eq_zero_of_not_pos hc] at hhi hlo
    omega

/-- If row 0 comes first where it has to, the rows come in their order. -/
theorem Keyed.eq_range {d : ℕ} (h : Keyed b (d + 1) ks) (hfit : OrderFits b c B n (d + 1))
    (hfirst : B < c ∨ d = 0) : ks = List.range (d + 1) := by
  refine eq_of_key h.pairwise ?_ fun k => (h.mem k).trans List.mem_range.symm
  refine (List.pairwise_lt_range).imp_of_mem fun {i j} _ hj hij => ?_
  have hj := List.mem_range.mp hj
  cases i with
  | succ i => exact hfit.ascending _ _ (Nat.succ_pos i) hij hj
  | zero =>
    have hd : 1 < d + 1 := by omega
    have h01 := hfit.first (hfirst.resolve_right (by omega)) hd
    by_cases hj1 : j = 1
    · rw [hj1]
      exact h01
    · exact h01.trans (hfit.ascending 1 j le_rfl (by omega) hj)

/-- Without row 0 the rows come in their order. -/
theorem Keyed.filter_eq_range' {d : ℕ} (h : Keyed b (d + 1) ks)
    (hasc : ∀ i j, 1 ≤ i → i < j → j < d + 1 → b i < b j) : ks.filter (· ≠ 0) = List.range' 1 d := by
  refine eq_of_key (h.pairwise.filter _) ?_ fun k => ?_
  · refine (List.pairwise_lt_range').imp_of_mem fun {i j} hi hj hij => ?_
    have hi := List.mem_range'_1.mp hi
    have hj := List.mem_range'_1.mp hj
    exact hasc i j hi.1 hij (by omega)
  · rw [List.mem_filter, h.mem, List.mem_range'_1, decide_eq_true_iff]
    omega

/-- Row 0 comes last only when the rows are all read to their ends. -/
theorem Keyed.dvd_of_zero_last {e : ℕ} (h : Keyed b (e + 2) (ks ++ [0])) (hfit : OrderFits b c c n (e + 2)) :
    c ∣ n := by
  by_contra hnd
  have hlt : b 0 < b (e + 1) := hfit.whole rfl hnd
  have hmem : e + 1 ∈ ks := (List.mem_append.mp ((h.mem (e + 1)).mpr (Nat.lt_succ_self _))).resolve_right
    (by simp)
  exact lt_asymm hlt ((List.pairwise_append.mp h.pairwise).2.2 (e + 1) hmem 0 (by simp))

/-- Row 0 last and read to its end: it gives nothing. -/
theorem kept_of_zero_last {e : ℕ} (hlen : ks.length = e + 1) (hks : ks.filter (· ≠ 0) = List.range' 1 (e + 1)) :
    ((rows c (ks ++ [0])).take (c * (e + 2))).filter (kept c c) =
      (List.range' c (c * (e + 2) - c)).map (cell c) := by
  have hout : ((row c 0).take c).filter (kept c c) = [] := by
    refine List.filter_eq_nil_iff.mpr fun x hx hin => ?_
    rw [(kept_eq_false le_rfl).mpr (mem_row.mp (List.mem_of_mem_take hx))] at hin
    cases hin
  have hcount : c * (e + 2) - c = (e + 1) * c := by
    rw [Nat.sub_eq_of_eq_add]
    ring
  rw [take_rows_concat (r := c) (by rw [hlen]; ring), List.filter_append, hout, List.append_nil,
    filter_rows_whole, hks, rows_range', Nat.one_mul, hcount]

/-- Row 0 before the last row: the rows behind it are those of the pages from `c` on. -/
theorem kept_of_zero_before {e : ℕ} (hlen : ks.length = e + 1) (hks : ks.filter (· ≠ 0) = List.range' 1 e)
    (hlo : (e + 1) * c < n) (hhi : n ≤ (e + 2) * c) :
    ((rows c (ks ++ [1 + e])).take n).filter (kept c c) = (List.range' c (n - c)).map (cell c) := by
  have hr : n - (e + 1) * c ≤ c := by
    rw [Nat.succ_mul] at hhi
    omega
  have hn : n = ks.length * c + (n - (e + 1) * c) := by
    rw [hlen]
    omega
  have happ := @List.range'_append c (e * c) (n - (e + 1) * c) 1
  have hcell : (1 + e) * c = c + e * c := by ring
  have hcount : e * c + (n - (e + 1) * c) = n - c := by
    rw [Nat.succ_mul] at hlo ⊢
    omega
  rw [Nat.one_mul, hcount] at happ
  rw [take_rows_concat hn, List.filter_append, filter_rows_whole, hks, row_take_kept le_rfl (by omega),
    row_take hr, rows_range', Nat.one_mul, hcell, ← List.map_append, happ]

namespace Keyed
variable (h : Keyed b m ks) (hlo : (m - 1) * c < n) (hhi : n ≤ m * c)
include h hlo hhi

/-- With the order right the kept cells are those of the pages from `B` on. -/
theorem kept_of_fits (hBn : B < n) (hfit : OrderFits b c B n m) :
    ((rows c ks).take n).filter (kept c B) = (List.range' B (n - B)).map (cell c) := by
  obtain ⟨hm, hc⟩ := pos_of_rows hlo hhi
  obtain ⟨d, rfl⟩ : ∃ d, m = d + 1 := ⟨m - 1, by omega⟩
  rw [Nat.add_sub_cancel] at hlo
  by_cases hfirst : B < c ∨ d = 0
  · -- row 0 comes first, so the rows are read in their order
    rw [h.eq_range hfit hfirst, take_rows_range hlo.le hhi, List.filter_map, ← filter_range_le hBn.le]
    refine congrArg (List.map (cell c)) (List.filter_congr fun i _ => ?_)
    exact kept_cell hfit.fits hc i
  · -- row 0 holds nothing but sorted out cells
    obtain ⟨hBc, hd⟩ := not_or.mp hfirst
    obtain rfl : B = c := le_antisymm hfit.fits (not_lt.mp hBc)
    obtain ⟨e, rfl⟩ : ∃ e, d = e + 1 := ⟨d - 1, by omega⟩
    have hfilter := h.filter_eq_range' hfit.ascending
    obtain ⟨K, z, rfl⟩ := (List.eq_nil_or_concat ks).resolve_left fun hnil => by
      rw [hnil] at hfilter
      cases hfilter
    rw [List.concat_eq_append] at *
    have hlen : K.length = e + 1 := by
      have := h.length
      rw [List.length_append, List.length_singleton] at this
      omega
    rw [List.filter_append] at hfilter
    by_cases hz : z = 0
    · subst hz
      obtain ⟨q, rfl⟩ := h.dvd_of_zero_last hfit
      have hq : q = e + 2 := by
        rw [Nat.mul_comm B q] at hlo hhi
        have h₁ := Nat.lt_of_mul_lt_mul_right hlo
        have h₂ := Nat.le_of_mul_le_mul_right hhi hc
        omega
      subst hq
      exact kept_of_zero_last hlen (by simpa using hfilter)
    · have hlast : [z].filter (· ≠ 0) = [z] := by simp [hz]
      rw [hlast, List.range'_concat, Nat.one_mul] at hfilter
      obtain ⟨hK, hz'⟩ := List.append_inj' hfilter rfl
      rw [List.singleton_inj.mp hz']
      exact kept_of_zero_before hlen hK hlo hhi

/-- The first cell of a row stands behind the kept cells of the rows before. -/
theorem kept_getElem {l l' : List ℕ} (hks : ks = l ++ k :: l') (hB : B ≤ c) (hk : k ≠ 0) :
    (((rows c ks).take n).filter (kept c B))[((rows c l).filter (kept c B)).length]? = some (k, 0) := by
  obtain ⟨hm, hc⟩ := pos_of_rows hlo hhi
  have hlen : l.length ≤ m - 1 := by
    have := h.length
    rw [hks, List.length_append, List.length_cons] at this
    omega
  have hcut : l.length * c < n := (Nat.mul_le_mul_right c hlen).trans_lt hlo
  obtain ⟨d, hd⟩ : ∃ d, n = (rows c l).length + (d + 1) := ⟨n - l.length * c - 1, by rw [rows_length]; omega⟩
  obtain ⟨c, rfl⟩ : ∃ e, c = e + 1 := ⟨c - 1, by omega⟩
  have hkept : kept (c + 1) B (k, 0) = true := eq_true_of_ne_false fun hout =>
    hk ((kept_eq_false hB).mp hout).1
  rw [hks, rows_append, hd, List.take_length_add_append, rows_cons, row, List.range_succ_eq_map,
    List.map_cons, List.cons_append, List.take_succ_cons, List.filter_append, List.filter_cons_of_pos hkept,
    List.getElem?_append_right le_rfl, Nat.sub_self]
  rfl

/-- If each kept cell is that of its page, a row stands as far behind `B` as it has kept cells before it. -/
theorem row_position (hB : B ≤ c) {l l' : List ℕ} (hks : ks = l ++ k :: l') (hk : k ≠ 0)
    (hidx : ∀ q k, k ≠ 0 → (((rows c ks).take n).filter (kept c B))[q]? = some (k, 0) → k * c = B + q) :
    k * c = B + ((rows c l).filter (kept c B)).length :=
  hidx _ _ hk (h.kept_getElem hlo hhi hks hB hk)

theorem ascending_of_kept (hB : B ≤ c)
    (hidx : ∀ q k, k ≠ 0 → (((rows c ks).take n).filter (kept c B))[q]? = some (k, 0) → k * c = B + q)
    (i j : ℕ) (hi : 1 ≤ i) (hij : i < j) (hj : j < m) : b i < b j := by
  have hc := (pos_of_rows hlo hhi).2
  refine (h.lt_or_lt (hij.trans hj) hj hij.ne).resolve_right fun hlt => ?_
  obtain ⟨l, l', l'', hks⟩ := h.split (hij.trans hj) hj hlt
  have hj' := h.row_position hlo hhi hB hks (by omega) hidx
  have hi' := h.row_position (l := l ++ j :: l') hlo hhi hB
    (by rw [hks, List.append_assoc, List.cons_append]) (by omega) hidx
  rw [rows_append, List.filter_append, List.length_append] at hi'
  have hle : j * c ≤ i * c := by omega
  exact absurd (Nat.le_of_mul_le_mul_right hle hc) (not_le.mpr hij)

theorem first_of_kept (hB : B ≤ c) (hB0 : 0 < B)
    (hidx : ∀ q k, k ≠ 0 → (((rows c ks).take n).filter (kept c B))[q]? = some (k, 0) → k * c = B + q)
    (hBc : B < c) (hm1 : 1 < m) : b 0 < b 1 := by
  have hm := (pos_of_rows hlo hhi).1
  refine (h.lt_or_lt hm hm1 Nat.zero_ne_one).resolve_right fun hlt => ?_
  obtain ⟨l, l', l'', hks⟩ := h.split hm hm1 hlt
  have h1 := h.row_position hlo hhi hB hks one_ne_zero hidx
  have hnd := nodup_of_key h.pairwise
  rw [hks, List.nodup_append] at hnd
  have hl : (rows c l).filter (kept c B) = rows c l := by
    refine List.filter_eq_self.mpr fun x hx => eq_true_of_ne_false fun hout => ?_
    have h0 : x.1 = 0 := ((kept_eq_false hB).mp hout).1
    exact hnd.2.2 x.1 (mem_rows.mp hx).1 0 (by simp) h0
  rw [hl, rows_length, Nat.one_mul] at h1
  cases l with
  | nil => simp at h1; omega
  | cons k l => rw [List.length_cons, Nat.succ_mul] at h1; omega

omit hlo hhi in
/-- If row 0 is read behind the last row, it is read last. -/
theorem zero_last (hm2 : 2 ≤ m) (hasc : ∀ i j, 1 ≤ i → i < j → j < m → b i < b j)
    (hlt : b (m - 1) < b 0) : ∃ l, ks = l ++ [0] := by
  have hm : 0 < m := Nat.zero_lt_of_lt hm2
  obtain ⟨l, l', l'', hks⟩ := h.split hm (by omega) hlt
  have hp := h.pairwise
  have hmem := h.mem
  have hdup := nodup_of_key hp
  have hks' : ks = (l ++ (m - 1) :: l') ++ 0 :: l'' := by rw [hks, List.append_assoc, List.cons_append]
  rw [hks'] at hp hdup hmem
  rw [List.pairwise_append, List.pairwise_cons] at hp
  rw [List.nodup_append, List.nodup_cons] at hdup
  -- a row behind row 0 would come before the last one
  have hlast : l'' = [] := by
    refine List.eq_nil_iff_forall_not_mem.mpr fun k hk => ?_
    have h0k := hp.2.1.1 k hk
    have hkm : k < m := (hmem k).mp (List.mem_append_right _ (.tail _ hk))
    have hk0 : k ≠ 0 := fun he => hdup.2.1.1 (he ▸ hk)
    obtain rfl | hne := eq_or_ne k (m - 1)
    · exact lt_asymm hlt h0k
    · exact lt_asymm (hlt.trans h0k) (hasc k (m - 1) (by omega) (by omega) (by omega))
  rw [hlast] at hks'
  exact ⟨_, hks'⟩

/-- Row 0 read last and to the cell before `c`: every row is read to its end. -/
theorem dvd_of_read {l : List ℕ} (hks : ks = l ++ [0]) (hread : (0, c - 1) ∈ (rows c ks).take n) : c ∣ n := by
  obtain ⟨hm, hc⟩ := pos_of_rows hlo hhi
  have hlen := h.length
  have hdup := nodup_of_key h.pairwise
  rw [hks, List.length_append, List.length_singleton] at hlen
  rw [hks, List.nodup_append] at hdup
  have hmc : m * c = (m - 1) * c + c := by
    rw [← Nat.succ_mul, Nat.succ_eq_add_one, Nat.sub_add_cancel hm]
  have hr : n - (m - 1) * c ≤ c := by omega
  have hn : n = l.length * c + (n - (m - 1) * c) := by
    rw [show l.length = m - 1 by omega]
    omega
  rw [hks, take_rows_concat hn, List.mem_append] at hread
  obtain hread | hread := hread
  · exact absurd rfl (hdup.2.2 0 (mem_rows.mp hread).1 0 List.mem_cons_self)
  · rw [row_take hr, Nat.zero_mul] at hread
    obtain ⟨i, hi, hcell⟩ := List.mem_map.mp hread
    have hi := (List.mem_range'_1.mp hi).2
    have hmod : i % c = c - 1 := congrArg Prod.snd hcell
    have hle := Nat.mod_le i c
    refine ⟨m, ?_⟩
    rw [Nat.mul_comm]
    omega

/-- If each kept cell is that of its page, the order is right. -/
theorem fits_of_kept (hB : B ≤ c) (hB0 : 0 < B) (hBn : B < n)
    (hidx : ∀ q k, k ≠ 0 → (((rows c ks).take n).filter (kept c B))[q]? = some (k, 0) → k * c = B + q)
    (hall : ∀ p < B, (0, p) ∈ (rows c ks).take n) : OrderFits b c B n m := by
  have hm := (pos_of_rows hlo hhi).1
  have hasc := h.ascending_of_kept hlo hhi hB hidx
  refine ⟨hB, hasc, h.first_of_kept hlo hhi hB hB0 hidx, fun hBc hnd => ?_⟩
  subst hBc
  have hm2 : 2 ≤ m := by
    by_contra hm2
    obtain rfl : m = 1 := by omega
    omega
  refine (h.lt_or_lt hm (by omega) (by omega)).resolve_right fun hlt => ?_
  obtain ⟨l, hks⟩ := h.zero_last hm2 hasc hlt
  exact hnd (h.dvd_of_read hlo hhi hks (hall (B - 1) (by omega)))

end Keyed

end Keyed

end LkpProjects.Rows
