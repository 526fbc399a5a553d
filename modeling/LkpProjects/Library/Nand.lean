import Mathlib

/-! # NAND flash as the history of its operations

A device is the list of what its driver has done to it, newest operation first. Everything one can
ask about the flash is computed from that list: what a page reads back (`content`), whether it was
programmed since its last erase (`programmed`), and whether the program-once discipline was kept
(`ProgramOnce`). Erasing sets a page to all ones; programming can only clear bits, so a page that is
programmed twice reads back the conjunction of the two writes.

Nothing here names a file system or a store: pages are numbers, a page holds `size` bytes.
-/
namespace LkpProjects.Nand
set_option autoImplicit false

/-- One byte of flash or of a buffer. -/
abbrev Byte := BitVec 8

/-- What a driver does to the flash. `erase first count` erases `count` consecutive pages. -/
inductive Op where
  | erase (first count : ℕ)
  | program (page : ℕ) (data : List Byte)
  deriving DecidableEq, Repr

/-- The operations of a device so far, newest first. -/
abbrev History := List Op

/-- The content of an erased page of `size` bytes. -/
def erased (size : ℕ) : List Byte := List.replicate size (BitVec.allOnes 8)

/-- Programming clears bits: the cell keeps a one only where the new data has one too. -/
def clearBits (old data : List Byte) : List Byte := List.zipWith (fun a b => a &&& b) old data

/-- What page `p` reads back. -/
def content (size : ℕ) : History → ℕ → List Byte
  | [], _ => erased size
  | .erase first count :: h, p =>
      if first ≤ p ∧ p < first + count then erased size else content size h p
  | .program q data :: h, p =>
      if p = q then clearBits (content size h p) data else content size h p

/-- Page `p` was programmed and not erased since. -/
def programmed : History → ℕ → Bool
  | [], _ => false
  | .erase first count :: h, p => if first ≤ p ∧ p < first + count then false else programmed h p
  | .program q _ :: h, p => if p = q then true else programmed h p

/-- Every program operation targeted an erased page of a device of `pages` pages. -/
def ProgramOnce (pages : ℕ) : History → Prop
  | [] => True
  | .erase _ _ :: h => ProgramOnce pages h
  | .program q _ :: h => (q < pages ∧ programmed h q = false) ∧ ProgramOnce pages h

instance decidableProgramOnce (pages : ℕ) : ∀ h : History, Decidable (ProgramOnce pages h)
  | [] => .isTrue trivial
  | .erase _ _ :: h => decidableProgramOnce pages h
  | .program q _ :: h =>
      haveI := decidableProgramOnce pages h
      inferInstanceAs (Decidable ((q < pages ∧ programmed h q = false) ∧ ProgramOnce pages h))

/-- How many of the `count` pages from `first` on are programmed. -/
def programmedIn (h : History) (first count : ℕ) : ℕ :=
  ((List.range count).filter fun i => programmed h (first + i)).length

/-- The history after the operations `ops`, given in the order they were performed. -/
def replay (ops : List Op) (h : History) : History := ops.reverse ++ h

/-! ## One operation -/

variable {size : ℕ} {h : History} {p q first count : ℕ} {data : List Byte}

@[simp] theorem erased_length : (erased size).length = size := List.length_replicate

theorem clearBits_erased (hd : data.length ≤ size) : clearBits (erased size) data = data := by
  induction data generalizing size with
  | nil => exact List.zipWith_nil_right
  | cons b data ih =>
    obtain ⟨n, rfl⟩ := Nat.exists_eq_succ_of_ne_zero (Nat.ne_of_gt (Nat.zero_lt_of_lt hd))
    have ih := ih (Nat.le_of_succ_le_succ hd)
    simp only [clearBits, erased, List.replicate_succ, List.zipWith_cons_cons,
      BitVec.allOnes_and] at ih ⊢
    rw [ih]

/-- No page reads back more bytes than it has. -/
theorem content_length_le (size : ℕ) (h : History) (p : ℕ) : (content size h p).length ≤ size := by
  induction h with
  | nil => exact erased_length.le
  | cons o h ih =>
    cases o with
    | erase first count =>
      rw [content]
      split
      · exact erased_length.le
      · exact ih
    | program q data =>
      rw [content]
      split
      · rw [clearBits, List.length_zipWith]
        exact (Nat.min_le_left _ _).trans ih
      · exact ih

theorem content_erase_mem (hp : first ≤ p ∧ p < first + count) :
    content size (.erase first count :: h) p = erased size := if_pos hp

theorem content_erase_not_mem (hp : ¬ (first ≤ p ∧ p < first + count)) :
    content size (.erase first count :: h) p = content size h p := if_neg hp

theorem content_program_ne (hp : p ≠ q) :
    content size (.program q data :: h) p = content size h p := if_neg hp

theorem programmed_erase_mem (hp : first ≤ p ∧ p < first + count) :
    programmed (.erase first count :: h) p = false := if_pos hp

theorem programmed_erase_not_mem (hp : ¬ (first ≤ p ∧ p < first + count)) :
    programmed (.erase first count :: h) p = programmed h p := if_neg hp

@[simp] theorem programmed_program_self : programmed (.program p data :: h) p = true := if_pos rfl

theorem programmed_program_ne (hp : p ≠ q) :
    programmed (.program q data :: h) p = programmed h p := if_neg hp

/-- A page that is not programmed reads all ones. -/
theorem content_of_not_programmed : ∀ {h : History} {p : ℕ}, programmed h p = false →
    content size h p = erased size
  | [], _, _ => rfl
  | .erase first count :: h, p, hp => by
      by_cases hin : first ≤ p ∧ p < first + count
      · exact content_erase_mem hin
      · rw [content_erase_not_mem hin]
        rw [programmed_erase_not_mem hin] at hp
        exact content_of_not_programmed hp
  | .program q data :: h, p, hp => by
      by_cases hq : p = q
      · subst hq
        simp at hp
      · rw [content_program_ne hq]
        rw [programmed_program_ne hq] at hp
        exact content_of_not_programmed hp

/-- Programming an erased page stores the data as it is. -/
theorem content_program_self (hp : programmed h p = false) (hd : data.length ≤ size) :
    content size (.program p data :: h) p = data := by
  have hc : content size (.program p data :: h) p = clearBits (content size h p) data := if_pos rfl
  rw [hc, content_of_not_programmed hp, clearBits_erased hd]

/-! ## Several operations -/

@[simp] theorem replay_nil : replay [] h = h := rfl

theorem replay_cons (o : Op) (ops : List Op) (h : History) :
    replay (o :: ops) h = replay ops (o :: h) := by
  simp [replay]

theorem replay_append (ops ops' : List Op) (h : History) :
    replay (ops ++ ops') h = replay ops' (replay ops h) := by
  simp [replay]

theorem replay_concat (ops : List Op) (o : Op) (h : History) :
    replay (ops ++ [o]) h = o :: replay ops h := by
  simp [replay]

/-- A history on the way from `h` to the end of `ops` is the end of the first few of them. -/
theorem replay_cut {ops : List Op} {h c : History} (h₁ : h <:+ c) (h₂ : c <:+ replay ops h) :
    c = replay (ops.take (c.length - h.length)) h ∧ c.length - h.length ≤ ops.length := by
  obtain ⟨a, rfl⟩ := h₁
  obtain ⟨b, hb⟩ := h₂
  rw [replay, ← List.append_assoc] at hb
  have hops : ops = a.reverse ++ b.reverse := by
    rw [← List.reverse_append, List.append_cancel_right hb, List.reverse_reverse]
  have hlen : (a ++ h).length - h.length = a.reverse.length := by simp
  rw [hlen, hops]
  simp [replay]

/-- The program operations of a list of page writes. -/
def programs (ws : List (ℕ × List Byte)) : List Op := ws.map fun w => .program w.1 w.2

theorem replay_programs_concat (ws : List (ℕ × List Byte)) (w : ℕ × List Byte) (h : History) :
    replay (programs (ws ++ [w])) h = .program w.1 w.2 :: replay (programs ws) h := by
  rw [programs, List.map_append]
  exact replay_concat _ _ h

theorem content_programs_not_mem : ∀ (ws : List (ℕ × List Byte)) (h : History),
    p ∉ ws.map Prod.fst → content size (replay (programs ws) h) p = content size h p
  | [], _, _ => rfl
  | (q, d) :: ws, h, hp => by
      rw [List.map_cons, List.mem_cons, not_or] at hp
      rw [programs, List.map_cons, replay_cons]
      exact (content_programs_not_mem ws _ hp.2).trans (content_program_ne hp.1)

theorem programmed_programs_not_mem : ∀ (ws : List (ℕ × List Byte)) (h : History),
    p ∉ ws.map Prod.fst → programmed (replay (programs ws) h) p = programmed h p
  | [], _, _ => rfl
  | (q, d) :: ws, h, hp => by
      rw [List.map_cons, List.mem_cons, not_or] at hp
      rw [programs, List.map_cons, replay_cons]
      exact (programmed_programs_not_mem ws _ hp.2).trans (programmed_program_ne hp.1)

/-- A batch of writes to distinct erased pages is read back page by page. -/
theorem content_programs_mem : ∀ (ws : List (ℕ × List Byte)) (h : History),
    (ws.map Prod.fst).Nodup → (p, data) ∈ ws → programmed h p = false → data.length = size →
      content size (replay (programs ws) h) p = data
  | [], _, _, hm, _, _ => absurd hm List.not_mem_nil
  | (q, d) :: ws, h, hn, hm, hp, hd => by
      rw [List.map_cons, List.nodup_cons] at hn
      rw [programs, List.map_cons, replay_cons]
      rcases List.mem_cons.mp hm with he | hm'
      · obtain ⟨rfl, rfl⟩ := Prod.mk.inj he
        exact (content_programs_not_mem ws _ hn.1).trans (content_program_self hp hd.le)
      · have hne : p ≠ q := by
          rintro rfl
          exact hn.1 (List.mem_map.mpr ⟨_, hm', rfl⟩)
        have hp' : programmed (.program q d :: h) p = false := by
          rw [programmed_program_ne hne]
          exact hp
        exact content_programs_mem ws _ hn.2 hm' hp' hd

theorem programmed_programs_mem : ∀ (ws : List (ℕ × List Byte)) (h : History),
    p ∈ ws.map Prod.fst ∨ programmed h p = true →
      programmed (replay (programs ws) h) p = true
  | [], _, hm => by simpa [programs] using hm
  | (q, d) :: ws, h, hm => by
      rw [programs, List.map_cons, replay_cons]
      apply programmed_programs_mem ws
      by_cases hq : p = q
      · subst hq
        exact Or.inr programmed_program_self
      · rw [programmed_program_ne hq]
        rcases hm with hm | hm
        · rw [List.map_cons, List.mem_cons] at hm
          exact Or.inl (hm.resolve_left hq)
        · exact Or.inr hm

/-- The program-once discipline of a batch: distinct erased pages inside the device. -/
theorem programOnce_programs {pages : ℕ} : ∀ (ws : List (ℕ × List Byte)) (h : History),
    (ws.map Prod.fst).Nodup → (∀ w ∈ ws, w.1 < pages ∧ programmed h w.1 = false) →
      ProgramOnce pages h → ProgramOnce pages (replay (programs ws) h)
  | [], _, _, _, hh => hh
  | (q, d) :: ws, h, hn, hw, hh => by
      rw [List.map_cons, List.nodup_cons] at hn
      rw [programs, List.map_cons, replay_cons]
      refine programOnce_programs ws _ hn.2 (fun w hm => ?_) ⟨hw (q, d) List.mem_cons_self, hh⟩
      have hne : w.1 ≠ q := by
        intro he
        exact hn.1 (List.mem_map.mpr ⟨w, hm, he⟩)
      rw [programmed_program_ne hne]
      exact hw w (List.mem_cons_of_mem _ hm)

/-- Of a page that some operation programmed with `data`, and that was not erased since, every bit that
is set is set in `data` too. -/
theorem content_and_of_mem (j : ℕ) : ∀ (ops : List Op) (h : History),
    (∀ o ∈ ops, ∃ q d, o = .program q d) → .program p data ∈ ops →
      (content size (ops ++ h) p).getD j 0 &&& data.getD j 0 = (content size (ops ++ h) p).getD j 0
  | [], _, _, hm => absurd hm List.not_mem_nil
  | o :: ops, h, hops, hm => by
      obtain ⟨q, d, rfl⟩ := hops o List.mem_cons_self
      have ih := content_and_of_mem j ops h fun o ho => hops o (List.mem_cons_of_mem _ ho)
      rw [List.cons_append]
      by_cases hp : p = q
      · subst hp
        have hc : content size (.program p d :: (ops ++ h)) p =
            clearBits (content size (ops ++ h) p) d := if_pos rfl
        rw [hc]
        by_cases hj : j < (clearBits (content size (ops ++ h) p) d).length
        · have hl : j < (content size (ops ++ h) p).length ∧ j < d.length := by
            simpa [clearBits] using hj
          have hget : (clearBits (content size (ops ++ h) p) d).getD j 0 =
              (content size (ops ++ h) p).getD j 0 &&& d.getD j 0 := by
            rw [List.getD_eq_getElem _ _ hj, List.getD_eq_getElem _ _ hl.1,
              List.getD_eq_getElem _ _ hl.2]
            simp [clearBits]
          rw [hget]
          rcases List.mem_cons.mp hm with he | hm
          · obtain ⟨-, rfl⟩ := Op.program.inj he
            rw [BitVec.and_assoc, BitVec.and_self]
          · rw [BitVec.and_assoc, BitVec.and_comm (d.getD j 0), ← BitVec.and_assoc, ih hm]
        · rw [List.getD_eq_default _ _ (Nat.le_of_not_lt hj)]
          exact BitVec.zero_and
      · rw [content_program_ne hp]
        rcases List.mem_cons.mp hm with he | hm
        · exact absurd (Op.program.inj he).1 hp
        · exact ih hm

/-- The counter of a block whose first `n` pages, and no others, are programmed. -/
theorem programmedIn_eq {n : ℕ} (hn : n ≤ count)
    (hp : ∀ i, i < count → (programmed h (first + i) = true ↔ i < n)) :
    programmedIn h first count = n := by
  have hf : (List.range count).filter (fun i => programmed h (first + i)) =
      (List.range count).filter (fun i => decide (i < n)) := by
    apply List.filter_congr
    intro i hi
    exact Bool.eq_iff_iff.mpr (by simpa using hp i (List.mem_range.mp hi))
  obtain ⟨m, rfl⟩ := Nat.exists_eq_add_of_le hn
  unfold programmedIn
  rw [hf, List.range_add, List.filter_append, List.length_append,
    List.filter_eq_self.mpr (by simp), List.filter_eq_nil_iff.mpr (by simp)]
  simp

end LkpProjects.Nand
