import Mathlib

/-! # Open addressing with sticky marks

A hash table of `n` slots with linear probing. A slot holds at most one key and carries a mark that
an insertion leaves on every occupied slot it passes over; freeing a slot does not clear the mark, so
a lookup may stop at the first unmarked slot that does not hold its key. What a slot looks like is a
parameter (`Layout`): the table's owner says how to read its key and its mark and how to set the mark.

`WellPlaced` is the invariant: distinct slots hold distinct keys, and from a key's home to its slot
all slots are marked. Under it a lookup finds exactly the keys that are in the table (`lookup_iff`),
and a key inserted into a table with at least two slots to spare ends within reach of the lookup,
which gives up one probe before it has seen every slot (`insert_spec`).
-/
namespace LkpProjects.ProbeTable
set_option autoImplicit false

/-- How the owner of a table of `β` reads a slot. -/
structure Layout (β κ : Type) where
  key : β → Option κ
  mark : β → Bool
  setMark : β → β
  key_setMark : ∀ b, key (setMark b) = key b
  mark_setMark : ∀ b, mark (setMark b) = true

variable {β κ : Type} (L : Layout β κ) (n : ℕ) (home : κ → ℕ)

/-- Probe for `k` from slot `i`, looking at no more than `fuel` slots. -/
def lookupFrom [DecidableEq κ] (t : ℕ → β) (k : κ) : ℕ → ℕ → Option ℕ
  | 0, _ => none
  | fuel + 1, i =>
      if L.key (t i) = some k then some i
      else if L.mark (t i) = false then none
      else lookupFrom t k fuel ((i + 1) % n)

/-- Look for a free slot from slot `i`, passing over no more than `fuel` occupied ones and marking
them; the slot found becomes `fill` of what it was. -/
def insertFrom (fill : β → β) : ℕ → ℕ → (ℕ → β) → Option ℕ × (ℕ → β)
  | fuel, i, t =>
      if L.key (t i) = none then (some i, Function.update t i (fill (t i)))
      else
        let t' := Function.update t i (L.setMark (t i))
        match fuel with
        | 0 => (none, t')
        | fuel + 1 => insertFrom fill fuel ((i + 1) % n) t'

/-- Distinct slots hold distinct keys, and a key's slot is at most `n - 2` marked slots from home. -/
structure WellPlaced (t : ℕ → β) : Prop where
  distinct : ∀ i < n, ∀ j < n, ∀ k, L.key (t i) = some k → L.key (t j) = some k → i = j
  path : ∀ i < n, ∀ k, L.key (t i) = some k → ∃ d, d + 1 < n ∧ i = (home k + d) % n ∧
    ∀ e < d, L.mark (t ((home k + e) % n)) = true

variable {L n home} {t : ℕ → β} {k : κ}

/-! ## The probe sequence -/

theorem probe_succ (a d : ℕ) : ((a + d) % n + 1) % n = (a + (d + 1)) % n := by
  rw [Nat.mod_add_mod, Nat.add_assoc]

theorem probe_inj {a d e : ℕ} (hd : d < n) (he : e < n) (h : (a + d) % n = (a + e) % n) : d = e := by
  have h' : d ≡ e [MOD n] := Nat.ModEq.add_left_cancel' a h
  exact Nat.ModEq.eq_of_lt_of_lt h' hd he

/-! ## Lookup -/

section Lookup
variable [DecidableEq κ]

theorem lookupFrom_sound : ∀ {fuel i j : ℕ}, i < n → lookupFrom L n t k fuel i = some j →
    j < n ∧ L.key (t j) = some k
  | 0, _, _, _, h => by simp [lookupFrom] at h
  | fuel + 1, i, j, hi, h => by
      rw [lookupFrom] at h
      by_cases hk : L.key (t i) = some k
      · rw [if_pos hk] at h
        obtain rfl := Option.some.inj h
        exact ⟨hi, hk⟩
      · rw [if_neg hk] at h
        by_cases hm : L.mark (t i) = false
        · simp [hm] at h
        · rw [if_neg hm] at h
          exact lookupFrom_sound (Nat.mod_lt _ (by omega)) h

/-- From `e` probes away from home the lookup still reaches the key, `d - e` probes further on. -/
theorem lookupFrom_complete (hw : WellPlaced L n home t) {i : ℕ} (hi : i < n)
    (hk : L.key (t i) = some k) {d : ℕ} (hd : d + 1 < n) (hid : i = (home k + d) % n)
    (hm : ∀ e < d, L.mark (t ((home k + e) % n)) = true) :
    ∀ r e fuel, e + r = d → r < fuel → lookupFrom L n t k fuel ((home k + e) % n) = some i := by
  intro r
  induction r with
  | zero =>
    intro e fuel he hf
    obtain ⟨f, rfl⟩ := Nat.exists_eq_succ_of_ne_zero (Nat.ne_of_gt hf)
    have hei : (home k + e) % n = i := by rw [hid, ← he, Nat.add_zero]
    rw [lookupFrom, hei, if_pos hk]
  | succ r ih =>
    intro e fuel he hf
    obtain ⟨f, rfl⟩ := Nat.exists_eq_succ_of_ne_zero (Nat.ne_of_gt (Nat.zero_lt_of_lt hf))
    have hlt : (home k + e) % n < n := Nat.mod_lt _ (by omega)
    rw [lookupFrom]
    by_cases hk' : L.key (t ((home k + e) % n)) = some k
    · rw [if_pos hk', hw.distinct _ hlt _ hi k hk' hk]
    · rw [if_neg hk', if_neg (by rw [hm e (by omega)]; decide), probe_succ]
      exact ih (e + 1) f (by omega) (by omega)

/-- Lookup with `n - 1` probes finds a key exactly in the slot that holds it. -/
theorem lookup_iff (hw : WellPlaced L n home t) (hn : 0 < n) {i : ℕ} :
    lookupFrom L n t k (n - 1) (home k % n) = some i ↔ i < n ∧ L.key (t i) = some k := by
  constructor
  · exact lookupFrom_sound (Nat.mod_lt _ hn)
  · rintro ⟨hi, hk⟩
    obtain ⟨d, hd, hid, hm⟩ := hw.path i hi k hk
    exact lookupFrom_complete hw hi hk hd hid hm d 0 (n - 1) (by omega) (by omega)

/-- A lookup that finds its key has passed over marked slots only. -/
theorem lookupFrom_path {a j : ℕ} (fuel e : ℕ)
    (h : lookupFrom L n t k fuel ((a + e) % n) = some j) :
    ∃ d < fuel, j = (a + (e + d)) % n ∧ ∀ r < d, L.mark (t ((a + (e + r)) % n)) = true := by
  induction fuel generalizing e with
  | zero => simp [lookupFrom] at h
  | succ fuel ih =>
    rw [lookupFrom] at h
    split at h
    · exact ⟨0, Nat.succ_pos _, (Option.some.inj h).symm, fun r hr => absurd hr (Nat.not_lt_zero r)⟩
    · split at h
      · cases h
      · next hm =>
        rw [probe_succ] at h
        obtain ⟨d, hd, hj, hmarks⟩ := ih (e + 1) h
        refine ⟨d + 1, by omega, ?_, fun r hr => ?_⟩
        · rw [hj, show e + 1 + d = e + (d + 1) by omega]
        · cases r with
          | zero => simpa using hm
          | succ r =>
            have := hmarks r (by omega)
            rwa [show e + 1 + r = e + (r + 1) by omega] at this

/-- The slot `n - 1` probes from home is never looked at. -/
theorem lookup_last_ne (hn : 0 < n) {i : ℕ} (hi : i = (home k + (n - 1)) % n) :
    lookupFrom L n t k (n - 1) (home k % n) ≠ some i := by
  intro h
  obtain ⟨d, hd, hid, _⟩ := lookupFrom_path (a := home k) (n - 1) 0 h
  rw [Nat.zero_add, hi] at hid
  have := probe_inj (by omega) (by omega) hid
  omega

/-- A table whose keys are all found where they are is well placed. -/
theorem wellPlaced_of_found
    (hfound : ∀ i < n, ∀ k, L.key (t i) = some k → lookupFrom L n t k (n - 1) (home k % n) = some i) :
    WellPlaced L n home t where
  distinct i hi j hj k hik hjk := by
    have h := hfound i hi k hik
    rw [hfound j hj k hjk] at h
    exact (Option.some.inj h).symm
  path i hi k hik := by
    obtain ⟨d, hd, hid, hm⟩ := lookupFrom_path (a := home k) (n - 1) 0 (hfound i hi k hik)
    simp only [Nat.zero_add] at hid hm
    exact ⟨d, by omega, hid, hm⟩

end Lookup

/-! ## Insertion -/

/-- The table after an insertion that passed over the `d` slots from `a` on. -/
def inserted (L : Layout β κ) (n : ℕ) (t : ℕ → β) (fill : β → β) (a d : ℕ) : ℕ → β := fun j =>
  if j = (a + d) % n then fill (t j)
  else if ∃ e < d, j = (a + e) % n then L.setMark (t j)
  else t j

theorem insertFrom_eq (L : Layout β κ) (n : ℕ) (fill : β → β) (a : ℕ) :
    ∀ (d e fuel : ℕ) (t : ℕ → β), e + d < n → d ≤ fuel →
    (∀ r < d, L.key (t ((a + (e + r)) % n)) ≠ none) → L.key (t ((a + (e + d)) % n)) = none →
      insertFrom L n fill fuel ((a + e) % n) t =
        (some ((a + (e + d)) % n), inserted L n t fill (a + e) d)
  | 0, e, fuel, t, _, _, _, hfree => by
      rw [Nat.add_zero] at hfree ⊢
      rw [insertFrom, if_pos hfree]
      congr 1
      funext j
      by_cases hj : j = (a + e) % n
      · subst hj
        simp [inserted]
      · simp [inserted, hj]
  | d + 1, e, 0, t, _, hf, _, _ => absurd hf (by omega)
  | d + 1, e, fuel + 1, t, hn, hf, hocc, hfree => by
      have hne : ∀ r, r < d + 1 → (a + (e + (r + 1))) % n ≠ (a + e) % n := fun r hr he => by
        have := probe_inj (by omega) (by omega) he
        omega
      have h0 := hocc 0 (by omega)
      rw [Nat.add_zero] at h0
      rw [insertFrom, if_neg h0]
      simp only
      rw [probe_succ, insertFrom_eq L n fill a d (e + 1) fuel _ (by omega) (by omega) ?_ ?_]
      · rw [show e + 1 + d = e + (d + 1) by omega]
        congr 1
        funext j
        have hshift : (∃ r < d + 1, j = (a + e + r) % n) ↔
            j = (a + e) % n ∨ ∃ r < d, j = (a + (e + 1) + r) % n := by
          constructor
          · rintro ⟨_ | r, hr, hj⟩
            · exact Or.inl hj
            · exact Or.inr ⟨r, by omega, by rw [hj]; congr 1; omega⟩
          · rintro (hj | ⟨r, hr, hj⟩)
            · exact ⟨0, by omega, hj⟩
            · exact ⟨r + 1, by omega, by rw [hj]; congr 1; omega⟩
        have hlast : (a + (e + 1) + d) % n = (a + e + (d + 1)) % n := by congr 1; omega
        have hne' : (a + e + (d + 1)) % n ≠ (a + e) % n := by
          rw [Nat.add_assoc]
          exact hne d (by omega)
        simp only [inserted, hshift, hlast]
        by_cases hj : j = (a + e) % n
        · subst hj
          have hnot : ¬ ∃ r < d, (a + e) % n = (a + (e + 1) + r) % n := by
            rintro ⟨r, hr, he⟩
            refine hne r (by omega) (Eq.symm ?_)
            rw [he]
            congr 1
            omega
          simp [hne'.symm, hnot]
        · simp [hj]
      · intro r hr
        rw [show e + 1 + r = e + (r + 1) by omega, Function.update_of_ne (hne r (by omega))]
        exact hocc (r + 1) (by omega)
      · rw [show e + 1 + d = e + (d + 1) by omega, Function.update_of_ne (hne d (by omega))]
        exact hfree

/-- The slots that hold a key. -/
def occupied (L : Layout β κ) (n : ℕ) (t : ℕ → β) : Finset ℕ :=
  (Finset.range n).filter fun i => L.key (t i) ≠ none

/-- Occupied slots passed over from home are counted by the occupied slots of the table. -/
theorem le_card_occupied {a d : ℕ} (hd : d ≤ n)
    (h : ∀ e < d, L.key (t ((a + e) % n)) ≠ none) : d ≤ (occupied L n t).card := by
  have himg : ((Finset.range d).image fun e => (a + e) % n) ⊆ occupied L n t := by
    intro i hi
    obtain ⟨e, he, rfl⟩ := Finset.mem_image.mp hi
    rw [Finset.mem_range] at he
    simp only [occupied, Finset.mem_filter, Finset.mem_range]
    exact ⟨Nat.mod_lt _ (by omega), h e he⟩
  have hcard : ((Finset.range d).image fun e => (a + e) % n).card = d := by
    rw [Finset.card_image_of_injOn, Finset.card_range]
    intro x hx y hy hxy
    simp only [Finset.coe_range, Set.mem_Iio] at hx hy
    exact probe_inj (by omega) (by omega) hxy
  rw [← hcard]
  exact Finset.card_le_card himg

/-- The nearest free slot from `a`, when not all slots are occupied. -/
theorem exists_first_free (a : ℕ) (h : (occupied L n t).card < n) :
    ∃ d, d ≤ (occupied L n t).card ∧ (∀ e < d, L.key (t ((a + e) % n)) ≠ none) ∧
      L.key (t ((a + d) % n)) = none := by
  classical
  have hex : ∃ d, d ≤ (occupied L n t).card ∧ L.key (t ((a + d) % n)) = none := by
    by_contra hno
    have hall : ∀ e < (occupied L n t).card + 1, L.key (t ((a + e) % n)) ≠ none := by
      intro e he hfree
      exact hno ⟨e, by omega, hfree⟩
    have := le_card_occupied (t := t) (by omega) hall
    omega
  refine ⟨Nat.find hex, (Nat.find_spec hex).1, fun e he hfree => ?_, (Nat.find_spec hex).2⟩
  have := (Nat.find_spec hex).1
  exact Nat.find_min hex he ⟨by omega, hfree⟩

/-- With the first free slot `d` probes from `a`, an insertion from `a` takes it. -/
theorem insertFrom_first (fill : β → β) {a d : ℕ} (hd : d < n)
    (hocc : ∀ e < d, L.key (t ((a + e) % n)) ≠ none) (hfree : L.key (t ((a + d) % n)) = none) :
    insertFrom L n fill (n - 1) (a % n) t = (some ((a + d) % n), inserted L n t fill a d) := by
  have heq := insertFrom_eq L n fill a d 0 (n - 1) t (by omega) (by omega)
    (by simpa using hocc) (by simpa using hfree)
  simpa only [Nat.add_zero, Nat.zero_add] using heq

/-- With a free slot in the table, an insertion finds one. -/
theorem insertFrom_isSome (fill : β → β) (a : ℕ) (h : (occupied L n t).card < n) :
    ∃ d, insertFrom L n fill (n - 1) (a % n) t =
      (some ((a + d) % n), inserted L n t fill a d) := by
  obtain ⟨d, hd, hocc, hfree⟩ := exists_first_free (t := t) (L := L) (n := n) a h
  exact ⟨d, insertFrom_first fill (by omega) hocc hfree⟩

/-- What an insertion from `e` probes behind `a` on does to the table: the slot it takes is filled, the
others keep what `setMark` keeps (`view`), and marks are set on occupied slots passed over only. -/
structure Passed {γ : Type} (L : Layout β κ) (n : ℕ) (fill : β → β) (view : β → γ) (a e fuel : ℕ)
    (t : ℕ → β) (o : Option ℕ) (t' : ℕ → β) : Prop where
  place : ∀ h, o = some h → ∃ c ≤ fuel, h = (a + (e + c)) % n ∧
    ∀ c' < c, L.key (t ((a + (e + c')) % n)) ≠ none
  taken : ∀ h, o = some h → L.key (t h) = none ∧ t' h = fill (t h)
  kept : ∀ j, o ≠ some j → view (t' j) = view (t j)
  grows : ∀ j, o ≠ some j → L.mark (t j) = true → L.mark (t' j) = true
  onPath : ∀ j, o ≠ some j → L.mark (t' j) ≠ L.mark (t j) →
    ∃ c ≤ fuel, j = (a + (e + c)) % n ∧ ∀ c' ≤ c, L.key (t ((a + (e + c')) % n)) ≠ none

section Passed
variable {γ : Type} {fill : β → β} {view : β → γ} {a e fuel : ℕ}

theorem Passed.here (hfree : L.key (t ((a + e) % n)) = none) :
    Passed L n fill view a e fuel t (some ((a + e) % n))
      (Function.update t ((a + e) % n) (fill (t ((a + e) % n)))) := by
  have hne : ∀ j, some ((a + e) % n) ≠ some j → j ≠ (a + e) % n := fun j hj hji => hj (hji ▸ rfl)
  refine ⟨fun h hh => ⟨0, Nat.zero_le _, (Option.some.inj hh).symm, nofun⟩, fun h hh => ?_,
    fun j hj => ?_, fun j hj hm => ?_, fun j hj hm => ?_⟩
  · obtain rfl := Option.some.inj hh
    exact ⟨hfree, Function.update_self _ _ _⟩
  · rw [Function.update_of_ne (hne j hj)]
  · rwa [Function.update_of_ne (hne j hj)]
  · exact absurd (by rw [Function.update_of_ne (hne j hj)]) hm

/-- One more occupied slot in front. -/
theorem Passed.step (hview : ∀ b, view (L.setMark b) = view b)
    (hocc : L.key (t ((a + e) % n)) ≠ none) {o : Option ℕ} {t' : ℕ → β}
    (h : Passed L n fill view a (e + 1) fuel
      (Function.update t ((a + e) % n) (L.setMark (t ((a + e) % n)))) o t') :
    Passed L n fill view a e (fuel + 1) t o t' := by
  have hkey : ∀ j, L.key (Function.update t ((a + e) % n) (L.setMark (t ((a + e) % n))) j) =
      L.key (t j) := by
    intro j
    by_cases hj : j = (a + e) % n
    · rw [hj, Function.update_self, L.key_setMark]
    · rw [Function.update_of_ne hj]
  have hshift : ∀ x, a + (e + 1 + x) = a + (e + (x + 1)) := fun x => by omega
  refine ⟨fun h' hh => ?_, fun h' hh => ?_, fun j hj => ?_, fun j hj hm => ?_, fun j hj hm => ?_⟩
  · obtain ⟨c, hc, hh', hpath⟩ := h.place h' hh
    refine ⟨c + 1, by omega, by rw [hh', hshift], fun c' hc' => ?_⟩
    cases c' with
    | zero => exact hocc
    | succ c' =>
      have := hpath c' (by omega)
      rwa [hkey, hshift] at this
  · obtain ⟨hfree, hfill⟩ := h.taken h' hh
    rw [hkey] at hfree
    have hne : h' ≠ (a + e) % n := fun heq => hocc (heq ▸ hfree)
    rw [Function.update_of_ne hne] at hfill
    exact ⟨hfree, hfill⟩
  · rw [h.kept j hj]
    by_cases hji : j = (a + e) % n
    · rw [hji, Function.update_self, hview]
    · rw [Function.update_of_ne hji]
  · refine h.grows j hj ?_
    by_cases hji : j = (a + e) % n
    · rw [hji, Function.update_self, L.mark_setMark]
    · rwa [Function.update_of_ne hji]
  · by_cases hji : j = (a + e) % n
    · exact ⟨0, Nat.zero_le _, hji, fun c' hc' => by rw [Nat.le_zero.mp hc']; exact hocc⟩
    · obtain ⟨c, hc, hjc, hpath⟩ := h.onPath j hj (by rwa [Function.update_of_ne hji])
      refine ⟨c + 1, by omega, by rw [hjc, hshift], fun c' hc' => ?_⟩
      cases c' with
      | zero => exact hocc
      | succ c' =>
        have := hpath c' (by omega)
        rwa [hkey, hshift] at this

/-- The last occupied slot that is looked at. -/
theorem Passed.stop (hview : ∀ b, view (L.setMark b) = view b)
    (hocc : L.key (t ((a + e) % n)) ≠ none) : Passed L n fill view a e fuel t none
      (Function.update t ((a + e) % n) (L.setMark (t ((a + e) % n)))) := by
  refine ⟨nofun, nofun, fun j _ => ?_, fun j _ hm => ?_, fun j _ hm => ?_⟩
  · by_cases hji : j = (a + e) % n
    · rw [hji, Function.update_self, hview]
    · rw [Function.update_of_ne hji]
  · by_cases hji : j = (a + e) % n
    · rw [hji, Function.update_self, L.mark_setMark]
    · rwa [Function.update_of_ne hji]
  · by_cases hji : j = (a + e) % n
    · exact ⟨0, Nat.zero_le _, hji, fun c' hc' => by rw [Nat.le_zero.mp hc']; exact hocc⟩
    · exact absurd (by rw [Function.update_of_ne hji]) hm

/-- Every insertion, whatever the table. -/
theorem insertFrom_passed (hview : ∀ b, view (L.setMark b) = view b) :
    ∀ (fuel e : ℕ) {t t' : ℕ → β} {o : Option ℕ},
      insertFrom L n fill fuel ((a + e) % n) t = (o, t') → Passed L n fill view a e fuel t o t' := by
  intro fuel
  induction fuel with
  | zero =>
    intro e t t' o h
    rw [insertFrom] at h
    split at h
    · next hfree =>
      obtain ⟨rfl, rfl⟩ := Prod.mk.inj h
      exact .here hfree
    · next hocc =>
      obtain ⟨rfl, rfl⟩ := Prod.mk.inj h
      exact .stop hview hocc
  | succ fuel ih =>
    intro e t t' o h
    rw [insertFrom] at h
    split at h
    · next hfree =>
      obtain ⟨rfl, rfl⟩ := Prod.mk.inj h
      exact .here hfree
    · next hocc =>
      simp only [probe_succ] at h
      exact .step hview hocc (ih (e + 1) h)

end Passed

/-- A new key within reach of the lookup keeps the table well placed. -/
theorem WellPlaced.inserted (hw : WellPlaced L n home t) (fill : β → β)
    (hkey : ∀ b, L.key (fill b) = some k) (hmark : ∀ b, L.mark (fill b) = L.mark b)
    (habs : ∀ i < n, L.key (t i) ≠ some k) {d : ℕ} (hd : d + 1 < n) :
    WellPlaced L n home (inserted L n t fill (home k) d) := by
  -- keys change at the new slot only, and marks are never cleared
  have hk : ∀ j, j ≠ (home k + d) % n →
      L.key (ProbeTable.inserted L n t fill (home k) d j) = L.key (t j) := by
    intro j hj
    simp only [ProbeTable.inserted, if_neg hj]
    split
    · exact L.key_setMark _
    · rfl
  have hself : L.key (ProbeTable.inserted L n t fill (home k) d ((home k + d) % n)) = some k := by
    simp only [ProbeTable.inserted, if_pos trivial]
    exact hkey _
  have hm : ∀ j, L.mark (t j) = true →
      L.mark (ProbeTable.inserted L n t fill (home k) d j) = true := by
    intro j hj
    simp only [ProbeTable.inserted]
    split
    · rw [hmark, hj]
    · split
      · exact L.mark_setMark _
      · exact hj
  constructor
  · intro i hi j hj k' hik hjk
    by_cases hin : i = (home k + d) % n
    · by_cases hjn : j = (home k + d) % n
      · rw [hin, hjn]
      · rw [hin, hself] at hik
        rw [hk j hjn, ← hik] at hjk
        exact absurd hjk (habs j hj)
    · by_cases hjn : j = (home k + d) % n
      · rw [hjn, hself] at hjk
        rw [hk i hin, ← hjk] at hik
        exact absurd hik (habs i hi)
      · rw [hk i hin] at hik
        rw [hk j hjn] at hjk
        exact hw.distinct i hi j hj k' hik hjk
  · intro i hi k' hik
    by_cases hin : i = (home k + d) % n
    · rw [hin, hself] at hik
      obtain rfl := Option.some.inj hik
      refine ⟨d, by omega, hin, fun e he => ?_⟩
      have hne : (home k + e) % n ≠ (home k + d) % n := fun h => by
        have := probe_inj (by omega) (by omega) h
        omega
      simp only [ProbeTable.inserted, if_neg hne]
      rw [if_pos ⟨e, he, rfl⟩]
      exact L.mark_setMark _
    · rw [hk i hin] at hik
      obtain ⟨c, hc, hic, hcm⟩ := hw.path i hi k' hik
      exact ⟨c, hc, hic, fun e he => hm _ (hcm e he)⟩

/-- Inserting a key that is not there, with two slots to spare: it lands in a free slot, other slots
keep their keys, marks are only ever set, and the table stays well placed. -/
theorem insert_spec (hw : WellPlaced L n home t) (fill : β → β)
    (hkey : ∀ b, L.key (fill b) = some k) (hmark : ∀ b, L.mark (fill b) = L.mark b)
    (habs : ∀ i < n, L.key (t i) ≠ some k) (hcard : (occupied L n t).card + 2 ≤ n) :
    ∃ d, d + 1 < n ∧ L.key (t ((home k + d) % n)) = none ∧
      insertFrom L n fill (n - 1) (home k % n) t =
        (some ((home k + d) % n), inserted L n t fill (home k) d) ∧
      WellPlaced L n home (inserted L n t fill (home k) d) := by
  obtain ⟨d, hd, hocc, hfree⟩ := exists_first_free (t := t) (L := L) (n := n) (home k) (by omega)
  exact ⟨d, by omega, hfree, insertFrom_first fill (by omega) hocc hfree,
    hw.inserted fill hkey hmark habs (by omega)⟩

/-- Freeing slots, or changing anything but keys and marks, keeps the table well placed. -/
theorem WellPlaced.mono (hw : WellPlaced L n home t) {t' : ℕ → β}
    (hkey : ∀ i < n, ∀ k, L.key (t' i) = some k → L.key (t i) = some k)
    (hmark : ∀ i < n, L.mark (t i) = true → L.mark (t' i) = true) : WellPlaced L n home t' where
  distinct i hi j hj k hik hjk := hw.distinct i hi j hj k (hkey i hi k hik) (hkey j hj k hjk)
  path i hi k hik := by
    obtain ⟨d, hd, hid, hm⟩ := hw.path i hi k (hkey i hi k hik)
    exact ⟨d, hd, hid, fun e he => hmark _ (Nat.mod_lt _ (by omega)) (hm e he)⟩

end LkpProjects.ProbeTable
