import LkpProjects.Vanilla.Store

/-! # The vanilla store: pages are taken in order

After a format the pairs are laid on the flash from page 0 on. `Table` says what the configuration is
when `n` pages are taken: which pages and blocks are marked, where the cursor stands, and that the store
is read-only exactly when no page is left. A call keeps it whatever the driver answers
(`Table.writePage`); a write that ends with an error leaves the page to the next call, with what the
driver has programmed on it. `Inv` adds the flash of a store whose driver leaves nothing behind.
-/
namespace LkpProjects.Vanilla
open Nand Bytes Stepwise
set_option autoImplicit false

/-! ## Pages and blocks as numbers -/

namespace Geometry
variable {g : Geometry} {b o p : ℕ}

theorem page_div (ho : o < g.pagesPerBlock) : (b * g.pagesPerBlock + o) / g.pagesPerBlock = b := by
  rw [Nat.mul_comm, Nat.mul_add_div g.pagesPerBlock_pos, Nat.div_eq_of_lt ho, Nat.add_zero]

theorem page_mod (ho : o < g.pagesPerBlock) : (b * g.pagesPerBlock + o) % g.pagesPerBlock = o := by
  rw [Nat.mul_comm, Nat.mul_add_mod, Nat.mod_eq_of_lt ho]

theorem page_lt (hb : b < g.nbBlocks) (ho : o < g.pagesPerBlock) :
    b * g.pagesPerBlock + o < g.nbPages := by
  have h : (b + 1) * g.pagesPerBlock ≤ g.nbBlocks * g.pagesPerBlock := Nat.mul_le_mul_right _ hb
  rw [Nat.succ_mul] at h
  unfold nbPages
  omega

theorem block_lt (hp : p < g.nbPages) : p / g.pagesPerBlock < g.nbBlocks :=
  (Nat.div_lt_iff_lt_mul g.pagesPerBlock_pos).mpr hp

theorem offset_lt (g : Geometry) (p : ℕ) : p % g.pagesPerBlock < g.pagesPerBlock :=
  Nat.mod_lt p g.pagesPerBlock_pos

theorem nbPages_pos (g : Geometry) : 0 < g.nbPages :=
  Nat.mul_pos g.nbBlocks_pos g.pagesPerBlock_pos

end Geometry

/-! ## The pairs on the flash -/

/-- The writes that store the pairs `ps` from page 0 on. -/
def laid (g : Geometry) (ps : List (CStr × CStr)) : List (ℕ × List Byte) :=
  ps.zipIdx.map fun x => (x.2, record g x.1.1 x.1.2)

theorem laid_fst (g : Geometry) (ps : List (CStr × CStr)) :
    (laid g ps).map Prod.fst = List.range ps.length := by
  have hfst : (laid g ps).map Prod.fst = ps.zipIdx.map Prod.snd := by
    rw [laid, List.map_map]
    rfl
  rw [hfst, List.zipIdx_map_snd, List.range_eq_range']

theorem laid_concat (g : Geometry) (ps : List (CStr × CStr)) (kv : CStr × CStr) :
    laid g (ps ++ [kv]) = laid g ps ++ [(ps.length, record g kv.1 kv.2)] := by
  simp [laid, List.zipIdx_append]

/-! ## The invariant -/

/-- The marks, the cursor and the flag when the first `n` pages are taken. -/
structure Table (g : Geometry) (n : ℕ) (s : Config) : Prop where
  le : n ≤ g.nbPages
  used : ∀ b < g.nbBlocks, (s.blocks b).state = .blkUsed ↔ b ≤ n / g.pagesPerBlock
  valid : ∀ b < g.nbBlocks, ∀ o < g.pagesPerBlock,
    (s.blocks b).pagesStates o = .pgValid ↔ b * g.pagesPerBlock + o < n
  cursor : n < g.nbPages → s.currentBlock = (n / g.pagesPerBlock : ℕ) ∧
    s.currentPageOffset = n % g.pagesPerBlock
  readOnly : s.readOnly = true ↔ n = g.nbPages

/-- The pairs `ps` have been stored since the flash was `h₀`, and nothing else was written. -/
structure Inv (g : Geometry) (h₀ : History) (ps : List (CStr × CStr)) (s : Config) : Prop
    extends Table g ps.length s where
  fits : ∀ kv ∈ ps, 8 + kv.1.len + kv.2.len ≤ g.pageSize
  mtd : s.mtd = replay (programs (laid g ps)) h₀

variable {g : Geometry} {d : Driver} {h₀ : History} {ps : List (CStr × CStr)} {n : ℕ} {s s' : Config}

/-- A format that returns 0 has erased the device and begins at its first page. -/
theorem format_ok {t : Config} (he : format g d t = (0, s)) :
    s = { t.clear.setState 0 .blkUsed with
          currentBlock := 0
          currentPageOffset := 0
          formatDone := 1
          readOnly := false
          mtd := .erase 0 g.nbPages :: t.mtd } := by
  unfold format at he
  cases hd : d.eraseResult with
  | refused =>
    rw [hd] at he
    cases (Prod.mk.inj he).1
  | failed =>
    rw [hd] at he
    cases (Prod.mk.inj he).1
  | done =>
    rw [hd] at he
    exact (Prod.mk.inj he).2.symm

/-- What a successful `format` leaves. -/
theorem table_format {t : Config} (he : format g d t = (0, s)) : Table g 0 s := by
  obtain rfl := format_ok he
  refine ⟨Nat.zero_le _, fun b _ => ?_, fun b _ o _ => ?_, fun _ => ?_, ?_⟩
  · rw [Config.setState_state]
    simp [Config.clear]
  · rw [Config.setState_pagesStates]
    simp [Config.clear]
  · simp
  · simp [g.nbPages_pos.ne]

theorem inv_format {t : Config} (he : format g d t = (0, s)) : Inv g s.mtd [] s :=
  ⟨table_format he, by simp, rfl⟩

namespace Table

/-- The page that the next pair goes to. -/
theorem cursorPage_eq (hT : Table g n s) (hlt : n < g.nbPages) : cursorPage g s = (n : ℕ) := by
  obtain ⟨hb, ho⟩ := hT.cursor hlt
  rw [cursorPage, hb, ho]
  exact_mod_cast Nat.div_add_mod' n g.pagesPerBlock

theorem lt_of_writable (hT : Table g n s) (hro : s.readOnly = false) : n < g.nbPages := by
  refine Nat.lt_of_le_of_ne hT.le fun he => ?_
  rw [hT.readOnly.mpr he] at hro
  cases hro

/-- The table does not depend on the flash. -/
theorem withMtd (hT : Table g n s) (mtd : History) : Table g n { s with mtd := mtd } :=
  ⟨hT.le, hT.used, hT.valid, hT.cursor, hT.readOnly⟩

end Table

/-! ## The next free block -/

theorem getNextFreeBlock_eq {m : ℕ} (hm : m < g.nbBlocks)
    (hused : ∀ b < g.nbBlocks, (s.blocks b).state = .blkUsed ↔ b ≤ m) :
    getNextFreeBlock g s = if m + 1 < g.nbBlocks then ((m + 1 : ℕ) : ℤ) else -1 := by
  have hfree : ∀ b < g.nbBlocks, (s.blocks b).state = .blkFree ↔ m < b := by
    intro b hb
    have := hused b hb
    cases hst : (s.blocks b).state <;> simp [hst] at this ⊢ <;> omega
  unfold getNextFreeBlock
  by_cases hlt : m + 1 < g.nbBlocks
  · have hfind : (List.range g.nbBlocks).find? (fun i => (s.blocks i).state = .blkFree) =
        some (m + 1) := by
      rw [List.find?_range_eq_some]
      refine ⟨?_, List.mem_range.mpr hlt, fun j hj => ?_⟩
      · simpa using (hfree (m + 1) hlt).mpr (Nat.lt_succ_self m)
      · have := (hfree j (by omega)).not.mpr (by omega)
        simpa using this
    rw [hfind, if_pos hlt]
  · have hfind : (List.range g.nbBlocks).find? (fun i => (s.blocks i).state = .blkFree) = none := by
      rw [List.find?_range_eq_none]
      intro j hj
      have := (hfree j hj).not.mpr (by omega)
      simpa using this
    rw [hfind, if_neg hlt]

/-! ## One page is written -/

/-- Page `n` was programmed: it is marked, and the other pages are as before. -/
theorem programPage_valid {n : ℕ} (buf : List Byte) {b o : ℕ} (ho : o < g.pagesPerBlock)
    (hs : (s.blocks b).pagesStates o = .pgValid ↔ b * g.pagesPerBlock + o < n) :
    ((programPage g n buf s).blocks b).pagesStates o = .pgValid ↔
      b * g.pagesPerBlock + o < n + 1 := by
  have hpage : (b = n / g.pagesPerBlock ∧ o = n % g.pagesPerBlock) ↔
      b * g.pagesPerBlock + o = n := by
    constructor
    · rintro ⟨rfl, rfl⟩
      exact Nat.div_add_mod' n g.pagesPerBlock
    · rintro rfl
      exact ⟨(Geometry.page_div ho).symm, (Geometry.page_mod ho).symm⟩
  have hset : ((programPage g n buf s).blocks b).pagesStates o =
      if b = n / g.pagesPerBlock ∧ o = n % g.pagesPerBlock then .pgValid
      else (s.blocks b).pagesStates o := Config.setPage_pagesStates ..
  rw [hset]
  split
  · next hbo =>
    have := hpage.mp hbo
    simp only [true_iff]
    omega
  · next hbo =>
    have := hpage.not.mp hbo
    rw [hs]
    omega

/-- One more page is taken, and the blocks, the cursor and the flag have followed. -/
theorem Table.extend (hT : Table g n s) (hlt : n < g.nbPages) {buf : List Byte}
    (hpages : ∀ b o, (s'.blocks b).pagesStates o = ((programPage g n buf s).blocks b).pagesStates o)
    (hused : ∀ b < g.nbBlocks, (s'.blocks b).state = .blkUsed ↔ b ≤ (n + 1) / g.pagesPerBlock)
    (hcursor : n + 1 < g.nbPages → s'.currentBlock = ((n + 1) / g.pagesPerBlock : ℕ) ∧
      s'.currentPageOffset = (n + 1) % g.pagesPerBlock)
    (hro : s'.readOnly = true ↔ n + 1 = g.nbPages) : Table g (n + 1) s' where
  le := hlt
  used := hused
  valid b hb o ho := by
    rw [hpages]
    exact programPage_valid _ ho (hT.valid b hb o ho)
  cursor := hcursor
  readOnly := hro

/-- The page of the cursor is taken, and the cursor has moved on. -/
theorem Table.advance (hT : Table g n s) (hro : s.readOnly = false) {buf : List Byte} {next : ℤ}
    {t : Config} (he : getNextPageIndexToWrite g (programPage g n buf s) = (next, t)) :
    t.mtd = .program n buf :: s.mtd ∧
      (next = -1 ∧ n + 1 = g.nbPages ∧ Table g (n + 1) { t with readOnly := true } ∨
        next ≠ -1 ∧ n + 1 < g.nbPages ∧ Table g (n + 1) t) := by
  have hlt := hT.lt_of_writable hro
  have hb : n / g.pagesPerBlock < g.nbBlocks := Geometry.block_lt hlt
  have ho := g.offset_lt n
  have hn := Nat.div_add_mod' n g.pagesPerBlock
  obtain ⟨hblk, hoff⟩ := hT.cursor hlt
  have hused : ∀ b < g.nbBlocks,
      ((programPage g n buf s).blocks b).state = .blkUsed ↔ b ≤ n / g.pagesPerBlock := by
    intro b hb
    rw [← hT.used b hb, programPage, Config.setPage_state]
  have hextend := fun t => @Table.extend g n s t hT hlt buf
  unfold getNextPageIndexToWrite at he
  have hoff' : (programPage g n buf s).currentPageOffset = n % g.pagesPerBlock := hoff
  simp only [hoff'] at he
  by_cases hlast : n % g.pagesPerBlock + 1 = g.pagesPerBlock
  · -- the block is full: the next one that is free, if any
    have hsucc : n + 1 = (n / g.pagesPerBlock + 1) * g.pagesPerBlock := by
      rw [Nat.succ_mul]
      omega
    have hdiv : (n + 1) / g.pagesPerBlock = n / g.pagesPerBlock + 1 := by
      rw [hsucc, Nat.mul_div_cancel _ g.pagesPerBlock_pos]
    have hmod : (n + 1) % g.pagesPerBlock = 0 := by
      rw [hsucc, Nat.mul_mod_left]
    have hnext := @getNextFreeBlock_eq g
      { programPage g n buf s with currentPageOffset := n % g.pagesPerBlock + 1 } _ hb hused
    rw [if_pos hlast, hnext] at he
    by_cases hfree : n / g.pagesPerBlock + 1 < g.nbBlocks
    · have hne : ((n / g.pagesPerBlock + 1 : ℕ) : ℤ) ≠ -1 :=
        (lt_of_lt_of_le neg_one_lt_zero (Int.natCast_nonneg _)).ne'
      simp only [if_pos hfree, if_neg hne] at he
      obtain ⟨rfl, rfl⟩ := Prod.mk.inj he
      have hroom : n + 1 < g.nbPages := by
        have := @Geometry.page_lt g _ 0 hfree g.pagesPerBlock_pos
        omega
      refine ⟨rfl, .inr ⟨by omega, hroom, hextend _ (fun b o => ?_) (fun b hb => ?_) (fun _ => ?_) ?_⟩⟩
      · rw [Config.setState_pagesStates]
      · rw [hdiv, Config.setState_state]
        split
        · next hbm =>
          rw [Int.toNat_natCast] at hbm
          simp [hbm]
        · next hbm =>
          rw [Int.toNat_natCast] at hbm
          rw [hused b hb]
          omega
      · rw [hdiv, hmod]
        exact ⟨rfl, rfl⟩
      · simp [programPage, hro, hroom.ne]
    · rw [if_neg hfree, if_pos rfl] at he
      obtain ⟨rfl, rfl⟩ := Prod.mk.inj he
      have hfull : n + 1 = g.nbPages := by
        rw [hsucc, Geometry.nbPages, show n / g.pagesPerBlock + 1 = g.nbBlocks by omega]
      refine ⟨rfl, .inl ⟨rfl, hfull,
        hextend _ (fun _ _ => rfl) (fun b hb => ?_) (fun hroom => ?_) ?_⟩⟩
      · rw [hdiv, hused b hb]
        omega
      · omega
      · simp [hfull]
  · -- the next page of the same block
    rw [if_neg hlast] at he
    obtain ⟨rfl, rfl⟩ := Prod.mk.inj he
    have hsucc : n + 1 =
        n / g.pagesPerBlock * g.pagesPerBlock + (n % g.pagesPerBlock + 1) := by omega
    have hroom : n + 1 < g.nbPages := hsucc ▸ Geometry.page_lt hb (by omega)
    have hdiv : (n + 1) / g.pagesPerBlock = n / g.pagesPerBlock := by
      conv_lhs => rw [hsucc]
      exact Geometry.page_div (by omega)
    have hmod : (n + 1) % g.pagesPerBlock = n % g.pagesPerBlock + 1 := by
      conv_lhs => rw [hsucc]
      exact Geometry.page_mod (by omega)
    refine ⟨rfl, .inr ⟨by omega, hroom,
      hextend _ (fun _ _ => rfl) (fun b hb => ?_) (fun _ => ?_) ?_⟩⟩
    · rw [hdiv]
      exact hused b hb
    · rw [hdiv, hmod]
      exact ⟨hblk, rfl⟩
    · simp [programPage, hro, hroom.ne]

/-- `write_page` at the cursor: the store is full, the driver reports an error, or the page is taken. -/
theorem Table.writePage (hT : Table g n s) {buf : List Byte} {ret : ℤ}
    (he : writePage g d (cursorPage g s) buf s = (ret, s')) :
    n = g.nbPages ∧ ret = -1 ∧ s' = s ∨
      n < g.nbPages ∧ ((∃ left, d.writeResult = .failed left ∧ ret = -2 ∧
          s' = { s with mtd := replay (left.map (programPart g n)) s.mtd }) ∨
        d.writeResult = .done ∧ ret = (if n + 1 = g.nbPages then -1 else 0) ∧
          s'.mtd = .program n buf :: s.mtd ∧ Table g (n + 1) s') := by
  unfold Vanilla.writePage at he
  split at he
  · next hro =>
    obtain ⟨rfl, rfl⟩ := Prod.mk.inj he
    exact .inl ⟨hT.readOnly.mp hro, rfl, rfl⟩
  · next hro =>
    have hro := eq_false_of_ne_true hro
    have hlt := hT.lt_of_writable hro
    rw [hT.cursorPage_eq hlt, Int.toNat_natCast] at he
    refine .inr ⟨hlt, ?_⟩
    cases hw : d.writeResult with
    | failed left =>
      rw [hw] at he
      obtain ⟨rfl, rfl⟩ := Prod.mk.inj he
      exact .inl ⟨left, rfl, rfl, rfl⟩
    | done =>
      rw [hw] at he
      obtain ⟨next, t, hnext⟩ : ∃ next t,
        getNextPageIndexToWrite g (programPage g n buf s) = (next, t) := ⟨_, _, rfl⟩
      simp only [hnext] at he
      obtain ⟨hmtd, ⟨hend, hfull, hT'⟩ | ⟨hend, hroom, hT'⟩⟩ := hT.advance hro hnext
      · rw [if_pos hend] at he
        obtain ⟨rfl, rfl⟩ := Prod.mk.inj he
        exact .inr ⟨rfl, (if_pos hfull).symm, hmtd, hT'⟩
      · rw [if_neg hend] at he
        obtain ⟨rfl, rfl⟩ := Prod.mk.inj he
        exact .inr ⟨rfl, (if_neg hroom.ne).symm, hmtd, hT'⟩

/-! ## Calls -/

/-- `write_page` at the cursor when errors leave nothing behind: nothing happens, or the pair is stored. -/
theorem Inv.writePage (hI : Inv g h₀ ps s) (hd : d.Clean) {kv : CStr × CStr}
    (hfit : 8 + kv.1.len + kv.2.len ≤ g.pageSize) {ret : ℤ}
    (he : Vanilla.writePage g d (cursorPage g s) (record g kv.1 kv.2) s = (ret, s')) :
    ps.length = g.nbPages ∧ ret = -1 ∧ s' = s ∨
      ps.length < g.nbPages ∧ ((∃ left, d.writeResult = .failed left ∧ ret = -2 ∧ s' = s) ∨
        d.writeResult = .done ∧ ret = (if ps.length + 1 = g.nbPages then -1 else 0) ∧
          Inv g h₀ (ps ++ [kv]) s') := by
  rcases hI.toTable.writePage he with h | ⟨hlt, ⟨left, hw, hret, hs'⟩ | ⟨hw, hret, hmtd, hT⟩⟩
  · exact .inl h
  · have hleft := hd.write
    rw [hw, WriteResult.left] at hleft
    rw [hleft] at hs'
    exact .inr ⟨hlt, .inl ⟨left, hw, hret, hs'⟩⟩
  · have hlen : (ps ++ [kv]).length = ps.length + 1 := by simp
    refine .inr ⟨hlt, .inr ⟨hw, hret, hlen ▸ hT, fun x hx => ?_, ?_⟩⟩
    · rcases List.mem_append.mp hx with hx | hx
      · exact hI.fits x hx
      · rw [List.mem_singleton.mp hx]
        exact hfit
    · rw [laid_concat, replay_programs_concat, ← hI.mtd, hmtd]

/-! ## The requests of a run -/

/-- A request to write a page, and how it ended. -/
structure Attempt where
  page : ℕ
  data : List Byte
  result : WriteResult

/-- What the driver has done for it. -/
def Attempt.ops (g : Geometry) (a : Attempt) : List Op :=
  match a.result with
  | .done => [.program a.page a.data]
  | .failed left => left.map (programPart g a.page)

/-- The pages that were written. -/
def written (as : List Attempt) : List (ℕ × List Byte) :=
  (as.filter fun a => a.result = .done).map fun a => (a.page, a.data)

/-- Each request is for the page behind those that were written before it, `n` pages at first. -/
def InOrder : ℕ → List Attempt → Prop
  | _, [] => True
  | n, a :: as => a.page = n ∧ InOrder (n + (written [a]).length) as

@[simp] theorem written_append (as bs : List Attempt) : written (as ++ bs) = written as ++ written bs := by
  simp [written]

theorem written_done {a : Attempt} (h : a.result = .done) : written [a] = [(a.page, a.data)] := by
  simp [written, h]

theorem written_failed {a : Attempt} {left : List (List Byte)} (h : a.result = .failed left) :
    written [a] = [] := by
  simp [written, h]

theorem InOrder.concat {a : Attempt} : ∀ {as : List Attempt} {n : ℕ}, InOrder n as →
    a.page = n + (written as).length → InOrder n (as ++ [a])
  | [], _, _, ha => ⟨ha, trivial⟩
  | b :: as, n, ⟨hb, has⟩, ha => by
      refine ⟨hb, has.concat ?_⟩
      have hcons : written (b :: as) = written [b] ++ written as := written_append [b] as
      rw [ha, hcons, List.length_append, Nat.add_assoc]

/-- The pages that were written are in a row. -/
theorem InOrder.written_fst : ∀ {as : List Attempt} {n : ℕ}, InOrder n as →
    (written as).map Prod.fst = List.range' n (written as).length
  | [], _, _ => rfl
  | a :: as, n, ⟨ha, has⟩ => by
      have hcons : written (a :: as) = written [a] ++ written as := written_append [a] as
      have ih := has.written_fst
      rw [hcons, List.map_append, List.length_append, ih]
      cases hres : a.result with
      | done =>
        rw [written_done hres, ← ha, List.length_singleton, Nat.add_comm 1, List.range'_succ]
        rfl
      | failed left =>
        rw [written_failed hres]
        simp

/-- These requests were made since the flash was `h₀`. -/
structure Tried (g : Geometry) (h₀ : History) (as : List Attempt) (s : Config) : Prop where
  table : Table g (written as).length s
  mtd : s.mtd = replay (as.flatMap (Attempt.ops g)) h₀
  inOrder : InOrder 0 as
  records : ∀ a ∈ as, ∃ key val, 8 + key.len + val.len ≤ g.pageSize ∧ a.data = record g key val

theorem tried_format {t : Config} (he : format g d t = (0, s)) : Tried g s.mtd [] s :=
  ⟨table_format he, rfl, trivial, by simp⟩

/-- Whatever the driver answers, a call changes nothing or makes one request. -/
theorem Tried.exec {as : List Attempt} (h : Tried g h₀ as s) {e : Driver × Call × Result}
    (hs : Step g s e s') :
    s' = s ∨ ∃ a : Attempt, a.result = e.1.writeResult ∧ Tried g h₀ (as ++ [a]) s' := by
  rcases step_cases hs with ⟨hsame, -⟩ | ⟨key, val, ret, -, hfit, -, hw⟩
  · exact .inl hsame
  · have hnext : ∀ a : Attempt, a.page = (written as).length → a.data = record g key val →
        Table g (written (as ++ [a])).length s' → s'.mtd = replay (a.ops g) s.mtd →
        Tried g h₀ (as ++ [a]) s' := by
      intro a hpage hdata hT hmtd
      refine ⟨hT, ?_, h.inOrder.concat (by rw [hpage, Nat.zero_add]), fun b hb => ?_⟩
      · rw [hmtd, h.mtd, List.flatMap_append, replay_append, List.flatMap_singleton]
      · rcases List.mem_append.mp hb with hb | hb
        · exact h.records b hb
        · rw [List.mem_singleton.mp hb]
          exact ⟨key, val, hfit, hdata⟩
    rcases h.table.writePage hw with ⟨-, -, hsame⟩ | ⟨-, ⟨left, hres, -, rfl⟩ | ⟨hres, -, hmtd, hT⟩⟩
    · exact .inl hsame
    · refine .inr ⟨⟨(written as).length, record g key val, .failed left⟩, hres.symm,
        hnext _ rfl rfl ?_ rfl⟩
      rw [written_append, written_failed rfl, List.append_nil]
      exact h.table.withMtd _
    · refine .inr ⟨⟨(written as).length, record g key val, .done⟩, hres.symm, hnext _ rfl rfl ?_ hmtd⟩
      rwa [written_append, List.length_append, written_done rfl]

/-- A run makes requests, each in one of its calls. -/
theorem Tried.run {es : List (Driver × Call × Result)} (hr : Run (Step g) s es s') :
    ∀ {as : List Attempt}, Tried g h₀ as s → ∃ bs : List Attempt,
      (bs.map Attempt.result).Sublist (es.map fun e => e.1.writeResult) ∧ Tried g h₀ (as ++ bs) s' := by
  induction hr with
  | nil s => exact fun {as} h => ⟨[], List.nil_sublist _, by rwa [List.append_nil]⟩
  | cons hs _ ih =>
    intro as h
    rcases h.exec hs with rfl | ⟨a, hres, h'⟩
    · obtain ⟨bs, hsub, hend⟩ := ih h
      exact ⟨bs, hsub.cons _, hend⟩
    · obtain ⟨bs, hsub, hend⟩ := ih h'
      refine ⟨a :: bs, ?_, by rwa [List.append_assoc] at hend⟩
      rw [List.map_cons, List.map_cons, hres]
      exact hsub.cons_cons _

/-! ## Allocation -/

/-- The marks, the cursor and the flag of a store that has written `n` pages. -/
structure AtPage (g : Geometry) (n : ℕ) (s : Config) : Prop where
  le : n ≤ g.nbPages
  valid : ∀ p < g.nbPages, ((s.blocks (p / g.pagesPerBlock)).state = .blkUsed ∧
    (s.blocks (p / g.pagesPerBlock)).pagesStates (p % g.pagesPerBlock) = .pgValid) ↔ p < n
  cursor : n < g.nbPages → cursorPage g s = n ∧ s.currentPageOffset < g.pagesPerBlock ∧
    ∃ b < g.nbBlocks, s.currentBlock = b ∧ (s.blocks b).state = .blkUsed
  readOnly : s.readOnly = true ↔ n = g.nbPages

theorem Table.atPage (hT : Table g n s) : AtPage g n s where
  le := hT.le
  valid p hp := by
    have hv := hT.valid _ (Geometry.block_lt hp) _ (g.offset_lt p)
    rw [Nat.div_add_mod'] at hv
    rw [hv, hT.used _ (Geometry.block_lt hp)]
    refine ⟨And.right, fun hlt => ⟨Nat.div_le_div_right hlt.le, hlt⟩⟩
  cursor hlt := by
    obtain ⟨hb, ho⟩ := hT.cursor hlt
    exact ⟨hT.cursorPage_eq hlt, ho ▸ g.offset_lt _, _, Geometry.block_lt hlt, hb,
      (hT.used _ (Geometry.block_lt hlt)).mpr le_rfl⟩
  readOnly := hT.readOnly

/-- After a format, and whatever the driver answers, the pages are written one after the other, and the
marks, the cursor and the flag tell how many. A request that fails is for the page of the next one. -/
theorem pages_written_in_order {t s₀ : Config} {es : List (Driver × Call × Result)}
    (hf : format g d t = (0, s₀)) (hr : Run (Step g) s₀ es s) :
    ∃ attempts : List Attempt, s.mtd = replay (attempts.flatMap (Attempt.ops g)) s₀.mtd ∧
      (attempts.map Attempt.result).Sublist (es.map fun e => e.1.writeResult) ∧ InOrder 0 attempts ∧
      (written attempts).map Prod.fst = List.range (written attempts).length ∧
      AtPage g (written attempts).length s := by
  obtain ⟨as, hsub, h⟩ := (tried_format hf).run hr
  rw [List.nil_append] at h
  exact ⟨as, h.mtd, hsub, h.inOrder, h.inOrder.written_fst.trans List.range_eq_range'.symm,
    h.table.atPage⟩

/-- The second page is programmed in part and then fails, and is written by the next call; the fourth page
fills the flash. -/
theorem pages_written_in_order_retry : ∃ es s,
    Run (Step tinyGeometry) (format tinyGeometry .ideal (.blank [])).2 es s ∧
      es.map (fun e => e.2.2.code) = [0, -4, 0, 0, 0, -3, -3] ∧
      ∃ attempts : List Attempt,
        s.mtd = replay (attempts.flatMap (Attempt.ops tinyGeometry)) (format tinyGeometry .ideal (.blank [])).2.mtd ∧
          (attempts.map Attempt.result).Sublist (es.map fun e => e.1.writeResult) ∧ InOrder 0 attempts ∧
          (written attempts).map Prod.fst = List.range (written attempts).length ∧
          AtPage tinyGeometry (written attempts).length s := by
  obtain ⟨es, s, hr, hcodes, -⟩ := @run_of_execAll tinyGeometry
    [(.ideal, .set ⟨[97], by decide⟩ ⟨[98], by decide⟩),
      (⟨.done, .failed [[1, 0]], fun _ => true⟩, .set ⟨[99], by decide⟩ ⟨[], by decide⟩),
      (.ideal, .set ⟨[99], by decide⟩ ⟨[], by decide⟩), (.ideal, .get ⟨[97], by decide⟩),
      (.ideal, .set ⟨[100], by decide⟩ ⟨[], by decide⟩),
      (.ideal, .set ⟨[101], by decide⟩ ⟨[], by decide⟩),
      (.ideal, .set ⟨[102], by decide⟩ ⟨[], by decide⟩)]
    (format tinyGeometry .ideal (.blank [])).2 [0, -4, 0, 0, 0, -3, -3] (by decide +kernel)
  exact ⟨es, s, hr, hcodes,
    pages_written_in_order (d := .ideal) (t := .blank []) rfl hr⟩

end LkpProjects.Vanilla
