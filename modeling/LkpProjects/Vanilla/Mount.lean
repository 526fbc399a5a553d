import LkpProjects.Vanilla.Lookup

/-! # The vanilla store: mounting a flash that was used before

`init_scan` marks the pages that do not begin with four bytes of ones. On a flash that an earlier session
has filled from page 0 on the marks come out right (`initScan_spec`), but nothing sets the cursor: it
stays at page 0 of block 0, where the static configuration has it. That page is free in a used block for
no fill level, so a mount is only right when the flash is full and nothing will be written
(`mount_cursor_iff`).
-/
namespace LkpProjects.Vanilla
open Nand Bytes Stepwise
set_option autoImplicit false

/-! ## The scan -/

/-- The inner loop of `init_scan` over the pages of block `i` that are left; -1 on a read error. -/
def scanBlock (g : Geometry) (d : Driver) (i : ℕ) : List ℕ → Config → Except Fault (ℤ × Config)
  | [], s => .ok (0, s)
  | j :: js, s =>
      match readPage g d s.mtd (i * g.pagesPerBlock + j) with
      | none => .ok (-1, s)
      | some buffer =>
          if g.pageSize < 4 then .error .overread
          else if readLe (mem buffer) 0 = 0xFFFFFFFF then .ok (0, s)
          else
            let s := (s.setState i .blkUsed).setPage i j .pgValid
            scanBlock g d i js
              (if i = g.nbBlocks - 1 ∧ j = g.pagesPerBlock - 1 then { s with readOnly := true } else s)

/-- The outer loop of `init_scan` over the blocks that are left. -/
def scanBlocks (g : Geometry) (d : Driver) : List ℕ → Config → Except Fault (ℤ × Config)
  | [], s => .ok (0, s)
  | i :: is, s =>
      match scanBlock g d i (List.range g.pagesPerBlock) s with
      | .error f => .error f
      | .ok (ret, s) => if ret = 0 then scanBlocks g d is s else .ok (ret, s)

/-- `init_scan`. -/
def initScan (g : Geometry) (d : Driver) (s : Config) : Except Fault (ℤ × Config) :=
  scanBlocks g d (List.range g.nbBlocks) s.clear

/-- `init_config`, for a partition that exists. -/
def initConfig (g : Geometry) (d : Driver) (s : Config) : Except Fault (ℤ × Config) :=
  match initScan g d { s with formatDone := 0, readOnly := false } with
  | .error f => .error f
  | .ok (ret, s) => if ret ≠ 0 then .ok (-1, s) else .ok (0, s)

variable {g : Geometry} {d : Driver} {h₀ mtd : History} {ps : List (CStr × CStr)} {s s' : Config}

/-! ## What the scan finds -/

/-- `init_scan` takes the page for written. -/
def Begun (g : Geometry) (mtd : History) (p : ℕ) : Prop :=
  readLe (mem (content g.pageSize mtd p)) 0 ≠ 0xFFFFFFFF

instance (g : Geometry) (mtd : History) (p : ℕ) : Decidable (Begun g mtd p) :=
  inferInstanceAs (Decidable (_ ≠ _))

/-- The first `n` pages are begun, and no other. -/
structure Filled (g : Geometry) (n : ℕ) (mtd : History) : Prop where
  le : n ≤ g.nbPages
  begun : ∀ p < g.nbPages, Begun g mtd p ↔ p < n

theorem readLe_erased {n : ℕ} (hn : 4 ≤ n) : readLe (mem (erased n)) 0 = 0xFFFFFFFF := by
  have hbyte : ∀ i, i < 4 → mem (erased n) (0 + i) = leByte 0xFFFFFFFF i := by
    intro i hi
    have hget : mem (erased n) (0 + i) = BitVec.allOnes 8 := by
      rw [mem, erased, Nat.zero_add, List.getD_eq_getElem _ _ (by simp; omega), List.getElem_replicate]
    rw [hget]
    interval_cases i <;> rfl
  exact readLe_of_lt (by decide) hbyte

/-- A page that was not programmed is not begun. -/
theorem not_begun {p : ℕ} (hsize : 4 ≤ g.pageSize) (hp : programmed mtd p = false) : ¬ Begun g mtd p := by
  rw [Begun, content_of_not_programmed hp, not_not]
  exact readLe_erased hsize

theorem filled_blank (hsize : 4 ≤ g.pageSize) (hb : Blank g mtd) : Filled g 0 mtd where
  le := Nat.zero_le _
  begun p hp := iff_of_false (not_begun hsize (hb p hp)) (Nat.not_lt_zero p)

theorem Inv.filled (hI : Inv g h₀ ps s) (hb : Blank g h₀) (hsize : 4 ≤ g.pageSize) :
    Filled g ps.length s.mtd := by
  refine ⟨hI.le, fun p hp => ⟨fun hpage => ?_, fun hlt => ?_⟩⟩
  · by_contra hge
    refine not_begun hsize ?_ hpage
    rw [hI.mtd, programmed_programs_not_mem _ _ (by rw [laid_fst]; simpa using hge), hb p hp]
  · have hw : (ps[p], p) ∈ ps.zipIdx := List.mem_zipIdx_iff_getElem?.mpr (List.getElem?_eq_getElem hlt)
    have hfit := hI.fits ps[p] (List.getElem_mem hlt)
    have hpage := g.pageSize_lt
    rw [Begun, hI.content hb hw, record_keyLen hfit]
    omega

/-- Programming does not take the first bytes of a page back to ones. -/
theorem Begun.program {p q : ℕ} {data : List Byte} (h : Begun g mtd p) :
    Begun g (.program q data :: mtd) p := by
  rw [Begun, content]
  split
  · have hle := readLe_clearBits (content g.pageSize mtd p) data 0
    have hlt := readLe_lt (mem (content g.pageSize mtd p)) 0
    unfold Begun at h
    omega
  · exact h

theorem Begun.parts {p n : ℕ} : ∀ {left : List (List Byte)} {mtd : History}, Begun g mtd p →
    Begun g (replay (left.map (programPart g n)) mtd) p
  | [], _, h => h
  | _ :: left, _, h => by
      rw [List.map_cons, replay_cons]
      exact h.program.parts

theorem programmed_parts {p n : ℕ} (hne : p ≠ n) : ∀ {left : List (List Byte)} {mtd : History},
    programmed (replay (left.map (programPart g n)) mtd) p = programmed mtd p
  | [], _ => rfl
  | _ :: left, _ => by
      rw [List.map_cons, replay_cons, programmed_parts hne]
      exact programmed_program_ne hne

/-- The page of a pair is begun, over whatever it was programmed. -/
theorem begun_record {p : ℕ} {key val : CStr} (hfit : 8 + key.len + val.len ≤ g.pageSize) :
    Begun g (.program p (record g key val) :: mtd) p := by
  have hle := readLe_clearBits (content g.pageSize mtd p) (record g key val) 0
  have hlen : readLe (mem (record g key val)) 0 = key.len := @record_keyLen g (key, val) hfit
  have hsize := g.pageSize_lt
  rw [Begun, content, if_pos rfl]
  omega

/-- Requests in order on a flash with `n` pages begun and nothing behind page `n`: the pages that they write are begun
in their turn, and nothing is behind the page of the next one. -/
theorem InOrder.begun : ∀ {as : List Attempt} {n : ℕ} {mtd : History}, InOrder n as →
    (∀ a ∈ as, ∃ key val, 8 + key.len + val.len ≤ g.pageSize ∧ a.data = record g key val) →
    (∀ p < n, Begun g mtd p) → (∀ p < g.nbPages, n < p → programmed mtd p = false) →
    (∀ p < n + (written as).length, Begun g (replay (as.flatMap (Attempt.ops g)) mtd) p) ∧
      ∀ p < g.nbPages, n + (written as).length < p →
        programmed (replay (as.flatMap (Attempt.ops g)) mtd) p = false
  | [], _, _, _, _, hbegun, hfree => ⟨hbegun, hfree⟩
  | a :: as, n, mtd, ⟨hpage, has⟩, hdata, hbegun, hfree => by
      obtain ⟨⟨key, val, hfit, hd⟩, hdata⟩ := List.forall_mem_cons.mp hdata
      have hcons : written (a :: as) = written [a] ++ written as := written_append [a] as
      rw [hcons, List.length_append, ← Nat.add_assoc, List.flatMap_cons, replay_append]
      cases hres : a.result with
      | done =>
        have hops : a.ops g = [.program n (record g key val)] := by rw [Attempt.ops, hres, hpage, hd]
        rw [written_done hres] at has ⊢
        rw [hops]
        refine has.begun hdata (fun p hp => ?_) fun p hp hlt => ?_
        · rcases Nat.lt_succ_iff_lt_or_eq.mp hp with hlt | rfl
          · exact (hbegun p hlt).program
          · exact begun_record hfit
        · exact (programmed_program_ne (by simp at hlt; omega)).trans (hfree p hp (by simp at hlt; omega))
      | failed left =>
        have hops : a.ops g = left.map (programPart g n) := by rw [Attempt.ops, hres, hpage]
        rw [written_failed hres] at has ⊢
        rw [hops]
        refine has.begun hdata (fun p hp => ?_) fun p hp hlt => ?_
        · exact (hbegun p hp).parts
        · exact (programmed_parts (by simp at hlt; omega)).trans (hfree p hp (by simp at hlt; omega))

/-- The marks of a scan that has come to page `n`. -/
structure Marked (g : Geometry) (s₀ : Config) (n : ℕ) (s : Config) : Prop where
  le : n ≤ g.nbPages
  valid : ∀ b < g.nbBlocks, ∀ o < g.pagesPerBlock,
    (s.blocks b).pagesStates o = .pgValid ↔ b * g.pagesPerBlock + o < n
  used : ∀ b < g.nbBlocks, (s.blocks b).state = .blkUsed ↔ b * g.pagesPerBlock < n
  readOnly : s.readOnly = true ↔ n = g.nbPages
  currentBlock : s.currentBlock = s₀.currentBlock
  currentPageOffset : s.currentPageOffset = s₀.currentPageOffset
  mtd : s.mtd = s₀.mtd

variable {s₀ : Config}

theorem marked_clear (hro : s.readOnly = false) : Marked g s 0 s.clear where
  le := Nat.zero_le _
  valid b _ o _ := by simp [Config.clear]
  used b _ := by simp [Config.clear]
  readOnly := by simp [Config.clear, hro, g.nbPages_pos.ne]
  currentBlock := rfl
  currentPageOffset := rfl
  mtd := rfl

theorem Geometry.last_page_iff {i j : ℕ} (hi : i < g.nbBlocks) (hj : j < g.pagesPerBlock) :
    i * g.pagesPerBlock + j + 1 = g.nbPages ↔ i = g.nbBlocks - 1 ∧ j = g.pagesPerBlock - 1 := by
  have hle : (i + 1) * g.pagesPerBlock ≤ g.nbPages := Nat.mul_le_mul_right _ hi
  rw [Nat.succ_mul] at hle
  constructor
  · intro hend
    have hblk : ¬ i + 1 < g.nbBlocks := by
      intro hlt
      have := @Geometry.page_lt g (i + 1) 0 hlt g.pagesPerBlock_pos
      rw [Nat.succ_mul] at this
      omega
    omega
  · rintro ⟨hi', rfl⟩
    have hsucc : (i + 1) * g.pagesPerBlock = g.nbPages := by
      rw [hi', Nat.sub_add_cancel g.nbBlocks_pos, Geometry.nbPages]
    rw [Nat.succ_mul] at hsucc
    omega

/-- One more page holds something. -/
theorem Marked.page {i j : ℕ} (hi : i < g.nbBlocks) (hj : j < g.pagesPerBlock)
    (h : Marked g s₀ (i * g.pagesPerBlock + j) s) :
    Marked g s₀ (i * g.pagesPerBlock + j + 1)
      (if i = g.nbBlocks - 1 ∧ j = g.pagesPerBlock - 1 then
        { (s.setState i .blkUsed).setPage i j .pgValid with readOnly := true }
      else (s.setState i .blkUsed).setPage i j .pgValid) := by
  have hlt := Geometry.page_lt hi hj
  have hvalid : ∀ b < g.nbBlocks, ∀ o < g.pagesPerBlock,
      (((s.setState i .blkUsed).setPage i j .pgValid).blocks b).pagesStates o = .pgValid ↔
        b * g.pagesPerBlock + o < i * g.pagesPerBlock + j + 1 := by
    intro b hb o ho
    rw [Config.setPage_pagesStates, Config.setState_pagesStates]
    split
    · next hbo =>
      obtain ⟨rfl, rfl⟩ := hbo
      simp
    · next hbo =>
      rw [h.valid b hb o ho]
      have hne : b * g.pagesPerBlock + o ≠ i * g.pagesPerBlock + j := by
        intro he
        refine hbo ⟨?_, ?_⟩
        · rw [← Geometry.page_div (g := g) (b := b) ho, he, Geometry.page_div hj]
        · rw [← Geometry.page_mod (g := g) (b := b) ho, he, Geometry.page_mod hj]
      omega
  have hused : ∀ b < g.nbBlocks,
      (((s.setState i .blkUsed).setPage i j .pgValid).blocks b).state = .blkUsed ↔
        b * g.pagesPerBlock < i * g.pagesPerBlock + j + 1 := by
    intro b hb
    rw [Config.setPage_state, Config.setState_state]
    split
    · next hbi =>
      rw [hbi]
      simp only [true_iff]
      omega
    · next hbi =>
      rw [h.used b hb]
      have hne : b * g.pagesPerBlock ≠ i * g.pagesPerBlock + j := by
        intro he
        have := congrArg (fun p => p / g.pagesPerBlock) he
        simp only [Geometry.page_div hj, Nat.mul_div_cancel _ g.pagesPerBlock_pos] at this
        exact hbi this
      omega
  have hlast := Geometry.last_page_iff hi hj
  by_cases hij : i = g.nbBlocks - 1 ∧ j = g.pagesPerBlock - 1
  · rw [if_pos hij]
    exact ⟨(hlast.mpr hij).le, hvalid, hused, by simp [hlast.mpr hij], h.currentBlock,
      h.currentPageOffset, h.mtd⟩
  · rw [if_neg hij]
    have hro : s.readOnly = false := by
      rw [← Bool.not_eq_true, h.readOnly]
      exact hlt.ne
    exact ⟨hlt, hvalid, hused, by simp [hro, hlast.not.mpr hij], h.currentBlock,
      h.currentPageOffset, h.mtd⟩

section Scan
variable {n : ℕ} (hF : Filled g n s₀.mtd)
include hF

/-- The scan of one block, from page `j` of it on. It stops at the first page without a pair. -/
theorem Marked.block {i : ℕ} (hi : i < g.nbBlocks) : ∀ {k j : ℕ} {s s' : Config},
    j + k = g.pagesPerBlock → Marked g s₀ (min n (i * g.pagesPerBlock + j)) s →
      scanBlock g d i (List.range' j k) s = .ok (0, s') →
      Marked g s₀ (min n ((i + 1) * g.pagesPerBlock)) s'
  | 0, j, s, s', hjk, h, he => by
      obtain rfl := (Prod.mk.inj (Except.ok.inj he)).2
      have hj : j = g.pagesPerBlock := hjk
      rw [hj] at h
      rwa [Nat.succ_mul]
  | k + 1, j, s, s', hjk, h, he => by
      have hj : j < g.pagesPerBlock := by omega
      have hp := Geometry.page_lt hi hj
      rw [List.range'_succ, scanBlock, readPage, h.mtd] at he
      by_cases hread : d.readOk (i * g.pagesPerBlock + j) = false
      · rw [if_pos hread] at he
        cases (Prod.mk.inj (Except.ok.inj he)).1
      · rw [if_neg hread] at he
        by_cases hsize : g.pageSize < 4
        · simp only [if_pos hsize] at he
          cases he
        · simp only [if_neg hsize] at he
          rcases Nat.lt_or_ge (i * g.pagesPerBlock + j) n with hlt | hle
          · rw [if_neg ((hF.begun _ hp).mpr hlt)] at he
            rw [Nat.min_eq_right hlt.le] at h
            refine Marked.block hi (by omega) ?_ he
            rw [← Nat.add_assoc, Nat.min_eq_right hlt]
            exact h.page hi hj
          · rw [if_pos (not_not.mp ((hF.begun _ hp).not.mpr (not_lt.mpr hle)))] at he
            obtain rfl := (Prod.mk.inj (Except.ok.inj he)).2
            have hend : i * g.pagesPerBlock + j ≤ (i + 1) * g.pagesPerBlock := by
              rw [Nat.succ_mul]
              omega
            rw [Nat.min_eq_left hle] at h
            rwa [Nat.min_eq_left (hle.trans hend)]

theorem Marked.blocks : ∀ {k i : ℕ} {s s' : Config}, i + k = g.nbBlocks →
    Marked g s₀ (min n (i * g.pagesPerBlock)) s →
      scanBlocks g d (List.range' i k) s = .ok (0, s') → Marked g s₀ n s'
  | 0, i, s, s', hik, h, he => by
      obtain rfl := (Prod.mk.inj (Except.ok.inj he)).2
      rwa [show i = g.nbBlocks by omega, ← Geometry.nbPages, Nat.min_eq_left hF.le] at h
  | k + 1, i, s, s', hik, h, he => by
      rw [List.range'_succ, scanBlocks] at he
      cases hb : scanBlock g d i (List.range g.pagesPerBlock) s with
      | error f =>
        rw [hb] at he
        cases he
      | ok r =>
        obtain ⟨ret, s₁⟩ := r
        simp only [hb] at he
        by_cases hret : ret = 0
        · subst hret
          rw [if_pos rfl] at he
          rw [List.range_eq_range'] at hb
          exact Marked.blocks (by omega)
            (Marked.block hF (by omega) (Nat.zero_add _) (by rwa [Nat.add_zero]) hb) he
        · rw [if_neg hret] at he
          exact absurd (Prod.mk.inj (Except.ok.inj he)).1 hret

/-- A mount marks the pages that are begun, and leaves the cursor where it was. -/
theorem initConfig_spec (he : initConfig g d s₀ = .ok (0, s)) : Marked g s₀ n s := by
  unfold initConfig at he
  cases hscan : initScan g d { s₀ with formatDone := 0, readOnly := false } with
  | error f =>
    rw [hscan] at he
    cases he
  | ok r =>
    obtain ⟨ret, s₁⟩ := r
    simp only [hscan] at he
    by_cases hret : ret = 0
    · rw [if_neg (not_not.mpr hret)] at he
      obtain rfl := (Prod.mk.inj (Except.ok.inj he)).2
      rw [hret, initScan, List.range_eq_range'] at hscan
      have hM := @Marked.blocks g d { s₀ with formatDone := 0, readOnly := false } n hF _ 0 _ _
        (Nat.zero_add _) (by rw [Nat.zero_mul, Nat.min_zero]; exact marked_clear rfl) hscan
      exact ⟨hM.le, hM.valid, hM.used, hM.readOnly, hM.currentBlock, hM.currentPageOffset, hM.mtd⟩
    · rw [if_pos hret] at he
      cases (Prod.mk.inj (Except.ok.inj he)).1

end Scan

theorem scanBlock_small (hsize : g.pageSize < 4) {i j : ℕ} {js : List ℕ} :
    scanBlock g d i (j :: js) s ≠ .ok (0, s') := by
  intro he
  rw [scanBlock] at he
  cases hread : readPage g d s.mtd (i * g.pagesPerBlock + j) with
  | none =>
    rw [hread] at he
    cases (Prod.mk.inj (Except.ok.inj he)).1
  | some buffer =>
    simp only [hread, if_pos hsize] at he
    cases he

/-- A mount that succeeds has read the first four bytes of a page. -/
theorem pageSize_of_mounted (he : initConfig g d s₀ = .ok (0, s)) : 4 ≤ g.pageSize := by
  by_contra hsize
  obtain ⟨b, hb⟩ := Nat.exists_eq_succ_of_ne_zero g.nbBlocks_pos.ne'
  obtain ⟨o, ho⟩ := Nat.exists_eq_succ_of_ne_zero g.pagesPerBlock_pos.ne'
  obtain ⟨t, ht⟩ : ∃ t, initScan g d { s₀ with formatDone := 0, readOnly := false } = .ok (0, t) := by
    rw [initConfig] at he
    cases hscan : initScan g d { s₀ with formatDone := 0, readOnly := false } with
    | error f =>
      rw [hscan] at he
      cases he
    | ok r =>
      simp only [hscan] at he
      split at he
      · cases (Prod.mk.inj (Except.ok.inj he)).1
      · next hret => exact ⟨r.2, by rw [← not_not.mp hret]⟩
  rw [initScan, hb, List.range_succ_eq_map, scanBlocks, ho, List.range_succ_eq_map] at ht
  split at ht
  · cases ht
  · next ret _ hblock =>
    by_cases hret : ret = 0
    · exact scanBlock_small (not_le.mp hsize) (hret ▸ hblock)
    · rw [if_neg hret] at ht
      exact hret (Prod.mk.inj (Except.ok.inj ht)).1

/-! ## What a mount has to leave -/

/-- The flash that an earlier use of the device leaves: nothing was written since it was erased, or a
session has formatted it and made calls. -/
inductive Left (g : Geometry) : History → Prop
  | erased {mtd : History} (hb : Blank g mtd) : Left g mtd
  | session {d : Driver} {t s₀ s : Config} {es : List (Driver × Call × Result)}
      (hf : format g d t = (0, s₀)) (hr : Run (Step g) s₀ es s) : Left g s.mtd

/-- The pages that were written are begun, and perhaps the next one, which a request that failed was for. -/
theorem Tried.filled {as : List Attempt} (h : Tried g h₀ as s) (hb : Blank g h₀) (hsize : 4 ≤ g.pageSize) :
    ∃ n, Filled g n s.mtd := by
  obtain ⟨hbegun, hfree⟩ := h.inOrder.begun h.records (fun p hp => absurd hp (Nat.not_lt_zero p))
    fun p hp _ => hb p hp
  rw [← h.mtd, Nat.zero_add] at hbegun hfree
  have hle := h.table.le
  by_cases hnext : (written as).length < g.nbPages ∧ Begun g s.mtd (written as).length
  · refine ⟨(written as).length + 1, hnext.1, fun p hp => ⟨fun hpage => ?_, fun hlt => ?_⟩⟩
    · by_contra hge
      exact not_begun hsize (hfree p hp (by omega)) hpage
    · rcases Nat.lt_succ_iff_lt_or_eq.mp hlt with hlt | rfl
      · exact hbegun p hlt
      · exact hnext.2
  · refine ⟨(written as).length, hle, fun p hp => ⟨fun hpage => ?_, hbegun p⟩⟩
    by_contra hge
    rcases (not_lt.mp hge).lt_or_eq with hlt | rfl
    · exact not_begun hsize (hfree p hp hlt) hpage
    · exact hnext ⟨hp, hpage⟩

theorem Left.filled (h : Left g mtd) (hsize : 4 ≤ g.pageSize) : ∃ n, Filled g n mtd := by
  cases h with
  | erased hb => exact ⟨0, filled_blank hsize hb⟩
  | session hf hr =>
    obtain ⟨as, -, hT⟩ := (tried_format hf).run hr
    exact hT.filled (blank_format hf) hsize

/-- A store that can be written to has a free page in a used block under its cursor; the calls that
follow program no page that was written before, and what they store is found. -/
structure Writable (g : Geometry) (s : Config) : Prop where
  cursor : s.readOnly = false → ∃ b < g.nbBlocks, ∃ o < g.pagesPerBlock,
    s.currentBlock = b ∧ s.currentPageOffset = o ∧ (s.blocks b).state = .blkUsed ∧
      (s.blocks b).pagesStates o = .pgFree
  once : ∀ es s', Run (Step g) s es s' → ∃ writes : List (ℕ × List Byte),
    s'.mtd = replay (programs writes) s.mtd ∧ (writes.map Prod.fst).Nodup ∧
      ∀ w ∈ writes, programmed s.mtd w.1 = false
  found : ∀ es s', Run (Step g) s es s' → ∀ e ∈ es, ∀ key val, e.2.1 = .set key val →
    e.2.2.code = 0 → ∀ d : Driver, d.NoError →
      ∃ r, getKeyval g d key s' = .ok r ∧ 0 ≤ r.1

/-- A read-only store does not change, and no pair is stored in it. -/
theorem step_of_readOnly (hro : s.readOnly = true) {e : Driver × Call × Result}
    (hs : Step g s e s') :
    s' = s ∧ ∀ key val, e.2.1 = .set key val → e.2.2.code ≠ 0 := by
  obtain hsame | ⟨key, val, ret, -, -, hcode, hw⟩ := step_cases hs
  · exact hsame
  · rw [writePage, if_pos hro] at hw
    obtain ⟨rfl, rfl⟩ := Prod.mk.inj hw
    refine ⟨rfl, fun _ _ _ => ?_⟩
    rw [hcode]
    decide

theorem run_of_readOnly {es : List (Driver × Call × Result)} (hr : Run (Step g) s es s')
    (hro : s.readOnly = true) :
    s' = s ∧ ∀ e ∈ es, ∀ key val, e.2.1 = .set key val → e.2.2.code ≠ 0 := by
  induction hr with
  | nil s => exact ⟨rfl, by simp⟩
  | cons hs _ ih =>
    obtain ⟨rfl, hcode⟩ := step_of_readOnly hro hs
    obtain ⟨rfl, hcodes⟩ := ih hro
    refine ⟨rfl, fun e he => ?_⟩
    rcases List.mem_cons.mp he with rfl | he
    · exact hcode
    · exact hcodes e he

theorem writable_of_readOnly (hro : s.readOnly = true) : Writable g s where
  cursor h := by
    rw [hro] at h
    cases h
  once es s' hr := by
    obtain ⟨rfl, -⟩ := run_of_readOnly hr hro
    exact ⟨[], rfl, by simp, by simp⟩
  found es s' hr e he key val hset hcode :=
    absurd hcode ((run_of_readOnly hr hro).2 e he key val hset)

/-- Mounting a flash that an earlier session has left gives a store that can be written to properly
exactly when every page is begun, so that nothing will be written. -/
theorem mount_cursor_iff (h : Left g mtd) (hm : initConfig g d (.blank mtd) = .ok (0, s)) :
    Writable g s ↔ ∀ p < g.nbPages, Begun g mtd p := by
  obtain ⟨n, hF⟩ := h.filled (pageSize_of_mounted hm)
  have hM := @initConfig_spec g d s (.blank mtd) n hF hm
  have hfull : s.readOnly = true ↔ ∀ p < g.nbPages, Begun g mtd p := by
    rw [hM.readOnly]
    constructor
    · intro hn p hp
      exact (hF.begun p hp).mpr (hn ▸ hp)
    · intro hall
      refine Nat.le_antisymm hF.le (not_lt.mp fun hlt => ?_)
      exact (lt_irrefl _) ((hF.begun _ hlt).mp (hall _ hlt))
  rw [← hfull]
  refine ⟨fun hW => ?_, writable_of_readOnly⟩
  by_contra hro
  obtain ⟨b, hb, o, ho, hcb, hco, hused, hfree⟩ := hW.cursor (eq_false_of_ne_true hro)
  -- the cursor is still at page 0 of block 0
  have hb0 : b = 0 := by
    rw [hM.currentBlock] at hcb
    exact (Int.natCast_eq_zero.mp hcb.symm)
  have ho0 : o = 0 := hco.symm.trans hM.currentPageOffset
  subst hb0 ho0
  have hpos : 0 < n := by simpa using (hM.used 0 hb).mp hused
  have hvalid := (hM.valid 0 hb 0 ho).mpr (by simpa using hpos)
  rw [hfree] at hvalid
  cases hvalid

/-- A flash of one page. -/
def onePage : Geometry := .ofSizes 1 1 16 (by decide)

/-- Storing ("a", "") right after a format. -/
theorem left_one (g : Geometry) {code : ℤ} {s : Config}
    (he : setKeyval g .ideal ⟨[97], by decide⟩ ⟨[], by decide⟩ (format g .ideal (.blank [])).2 =
      .ok (code, s)) : Left g s.mtd := by
  have hstep : Step g (format g .ideal (.blank [])).2
      (.ideal, .set ⟨[97], by decide⟩ ⟨[], by decide⟩, ⟨code, []⟩) s :=
    congrArg (Except.map fun r : ℤ × Config => ((⟨r.1, []⟩ : Result), r.2)) he
  exact .session (d := .ideal) (t := .blank []) rfl (.cons hstep (.nil s))

/-- The session has filled the flash, and the mount finds it full. -/
theorem mount_cursor_iff_full : ∃ mtd s, Left onePage mtd ∧
    initConfig onePage .ideal (.blank mtd) = .ok (0, s) ∧ Writable onePage s := by
  obtain ⟨t, ht, hprog, s, hs⟩ : ∃ t, setKeyval onePage .ideal ⟨[97], by decide⟩ ⟨[], by decide⟩
      (format onePage .ideal (.blank [])).2 = .ok (-3, t) ∧
      (∀ p < onePage.nbPages, Begun onePage t.mtd p) ∧
      ∃ s, initConfig onePage .ideal (.blank t.mtd) = .ok (0, s) :=
    ⟨_, rfl, by decide +kernel, _, rfl⟩
  exact ⟨t.mtd, s, left_one onePage ht, hs, (mount_cursor_iff (left_one onePage ht) hs).mpr hprog⟩

/-- After a session that has stored one pair, the mount leaves the cursor on the page of that pair. -/
theorem mount_at_valid_page : ∃ mtd s, Left tinyGeometry mtd ∧
    initConfig tinyGeometry .ideal (.blank mtd) = .ok (0, s) ∧ s.readOnly = false ∧
    cursorPage tinyGeometry s = 0 ∧ (s.blocks 0).pagesStates 0 = .pgValid ∧
    ¬ Writable tinyGeometry s := by
  obtain ⟨t, ht, s, hs, hro, hb, ho, hvalid⟩ : ∃ t, setKeyval tinyGeometry .ideal
      ⟨[97], by decide⟩ ⟨[], by decide⟩ (format tinyGeometry .ideal (.blank [])).2 = .ok (0, t) ∧
      ∃ s, initConfig tinyGeometry .ideal (.blank t.mtd) = .ok (0, s) ∧ s.readOnly = false ∧
        s.currentBlock = 0 ∧ s.currentPageOffset = 0 ∧ (s.blocks 0).pagesStates 0 = .pgValid :=
    ⟨_, rfl, _, rfl, rfl, rfl, rfl, rfl⟩
  refine ⟨t.mtd, s, left_one tinyGeometry ht, hs, hro, ?_, hvalid, fun hW => ?_⟩
  · rw [cursorPage, hb, ho]
    rfl
  · obtain ⟨b, -, o, -, hcb, hco, -, hfree⟩ := hW.cursor hro
    have hb0 : b = 0 := Int.natCast_eq_zero.mp (hcb.symm.trans hb)
    have ho0 : o = 0 := hco.symm.trans ho
    rw [hb0, ho0, hvalid] at hfree
    cases hfree

end LkpProjects.Vanilla
