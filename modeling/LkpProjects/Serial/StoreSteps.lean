import LkpProjects.Serial.Invariant

/-! # The serial store: what the steps of an update do to the invariant

An update frees the key's old bucket (`invalid_pg`), opens a block if it needs one (the header page of
`get_next_page`), programs the next page of that block and enters it in the hash table. Each step has
a lemma for its effect on the configuration and one for the invariant; `Inv.storeAt` puts the last
three together.
-/
namespace LkpProjects.Serial
open Nand Bytes
set_option autoImplicit false

variable {env : Env} {s : Config} {m : CStr → Option CStr}

namespace Inv

theorem invalidPg_eq (hI : Inv env s m) {h : ℕ} (hv : s.Valid env.toGeometry h) :
    invalidPg env.toGeometry h s = .ok (s.dropped env.toGeometry h) :=
  invalidPg_of_mem (hI.blkLt h hv) rfl ((hI.memList _ (hI.blkLt h hv) h).mpr ⟨hv, rfl⟩)

/-- Freeing a bucket removes its key from the map. -/
theorem drop (hI : Inv env s m) {h : ℕ} (hv : s.Valid env.toGeometry h) :
    Inv env (s.dropped env.toGeometry h) (Function.update m (s.hashtable h).key none) where
  table := hI.table.mono
    (fun i _ k hk => by
      obtain ⟨hp, hk'⟩ := Bucket.held_eq_some.mp hk
      by_cases hi : i = h
      · subst hi
        rw [dropped_hashtable_self] at hp
        cases hp
      · rwa [dropped_hashtable_ne hi] at hk)
    (fun i _ hm => by
      by_cases hi : i = h
      · rw [hi, dropped_hashtable_self]
        rwa [hi] at hm
      · rwa [dropped_hashtable_ne hi])
  keyLt j hj := by
    rw [dropped_key]
    exact hI.keyLt j (dropped_valid.mp hj).1
  blkLt j hj := by
    rw [dropped_blkOf]
    exact hI.blkLt j (dropped_valid.mp hj).1
  blkUsed j hj := by
    rw [dropped_blkOf, dropped_state]
    exact hI.blkUsed j (dropped_valid.mp hj).1
  offsetPos j hj := by
    rw [dropped_index]
    exact hI.offsetPos j (dropped_valid.mp hj).1
  offsetLt j hj := by
    rw [dropped_index, dropped_blkOf, dropped_offset]
    exact hI.offsetLt j (dropped_valid.mp hj).1
  pageInj i j hi hj he := by
    rw [dropped_index, dropped_index] at he
    exact hI.pageInj i j (dropped_valid.mp hi).1 (dropped_valid.mp hj).1 he
  nodup b hb := by
    rw [dropped_list]
    exact (hI.nodup b hb).erase h
  memList b hb j := by
    rw [dropped_list, (hI.nodup b hb).mem_erase_iff, hI.memList b hb, dropped_valid, dropped_blkOf]
    tauto
  notInvalid b hb := by
    rw [dropped_state]
    exact hI.notInvalid b hb
  offsetLe b hb := by
    rw [dropped_offset]
    exact hI.offsetLe b hb
  used b hb hst := by
    rw [dropped_state] at hst
    have hu := hI.used b hb hst
    rw [dropped_nbInvalid, dropped_offset, dropped_list]
    by_cases hbh : b = s.blkOf env.toGeometry h
    · have hmem := (hI.memList b hb h).mpr ⟨hv, hbh.symm⟩
      have := List.length_pos_of_mem hmem
      rw [if_pos hbh, List.length_erase_of_mem hmem]
      omega
    · have hmem : h ∉ (s.blocks b).list := fun hh => hbh ((hI.memList b hb h).mp hh).2.symm
      rw [if_neg hbh, List.erase_of_not_mem hmem]
      exact hu
  free b hb hst := by
    rw [dropped_state] at hst
    have hne : b ≠ s.blkOf env.toGeometry h := by
      rintro rfl
      rw [hI.blkUsed h hv] at hst
      cases hst
    rw [dropped_offset, dropped_nbInvalid, if_neg hne]
    exact hI.free b hb hst
  metaBlk b hb hst := by
    rw [dropped_state] at hst
    have hne : b ≠ s.blkOf env.toGeometry h := by
      rintro rfl
      rw [hI.blkUsed h hv] at hst
      cases hst
    rw [dropped_nbInvalid, if_neg hne]
    exact hI.metaBlk b hb hst
  fresh b hb hst o ho := by
    rw [dropped_state] at hst
    rw [dropped_offset] at ho
    exact hI.fresh b hb hst o ho
  stored j hj := by
    obtain ⟨hj, hne⟩ := dropped_valid.mp hj
    obtain ⟨v, hm, hh⟩ := hI.stored j hj
    have hk : (s.hashtable j).key ≠ (s.hashtable h).key := fun he => hne (hI.key_inj hj hv he)
    rw [dropped_key, dropped_index, Function.update_of_ne hk]
    exact ⟨v, hm, hh⟩
  complete k v hm := by
    by_cases hk : k = (s.hashtable h).key
    · rw [hk, Function.update_self] at hm
      cases hm
    · rw [Function.update_of_ne hk] at hm
      obtain ⟨j, hj, hjk⟩ := hI.complete k v hm
      refine ⟨j, dropped_valid.mpr ⟨hj, ?_⟩, by rw [dropped_key, hjk]⟩
      rintro rfl
      exact hk hjk.symm
  readOnly := by
    rw [dropped_readOnly, hI.readOnly]
    exact (isReadOnly_congr fun b _ => dropped_offset _ _ _ b).symm

/-- A key that the search does not find is not in the map. -/
theorem notFound (hI : Inv env s m) {key : CStr} {e : ℤ} (hs : hashSearch env.toGeometry s.hashtable key = .error e) :
    m key = none := by
  by_contra hne
  obtain ⟨v, hv⟩ := Option.ne_none_iff_exists'.mp hne
  obtain ⟨h, hval, hk⟩ := hI.complete key v hv
  exact hashSearch_error hI.table hs h hval.1 hval.2 hk

/-- After the search of an update, the key is in no bucket. -/
theorem invalidOld (hI : Inv env s m) (key : CStr) :
    ∃ s', invalidOld env key s = .ok s' ∧ Inv env s' (Function.update m key none) ∧
      (s' = s ∨ ∃ h, s.Valid env.toGeometry h ∧ s' = s.dropped env.toGeometry h) := by
  cases hs : hashSearch env.toGeometry s.hashtable key with
  | error e =>
    have hnone := hI.notFound hs
    refine ⟨s, by simp only [Serial.invalidOld, hs], ?_, Or.inl rfl⟩
    rw [← hnone, Function.update_eq_self]
    exact hI
  | ok h =>
    obtain ⟨hlt, hp, hk⟩ := hashSearch_sound hs
    refine ⟨s.dropped env.toGeometry h, ?_, ?_, Or.inr ⟨h, ⟨hlt, hp⟩, rfl⟩⟩
    · simp only [Serial.invalidOld, hs, hI.invalidPg_eq ⟨hlt, hp⟩]
    · rw [← hk]
      exact hI.drop ⟨hlt, hp⟩

/-! ## Opening a block -/

/-- A used block has its header, so a block at offset 0 is not in use. -/
theorem offset_pos (hI : Inv env s m) {b : ℕ} (hb : b < env.nbBlocks)
    (hst : (s.blocks b).state = .blkUsed) : 0 < (s.blocks b).currentPageOffset := by
  have := hI.used b hb hst
  omega

theorem state_cases (hI : Inv env s m) {b : ℕ} (hb : b < env.nbBlocks)
    (hst : (s.blocks b).state ≠ .blkMeta) :
    (s.blocks b).state = .blkFree ∨ (s.blocks b).state = .blkUsed := by
  have := hI.notInvalid b hb
  cases h : (s.blocks b).state <;> simp_all

/-- Block `b`, which no bucket points into, becomes a used block of one page. -/
theorem opens (hI : Inv env s m) {b : ℕ} {s' : Config} (hb : b < env.nbBlocks)
    (hnil : (s.blocks b).list = [])
    (hself : (s'.blocks b).list = [] ∧ (s'.blocks b).state = .blkUsed ∧
      (s'.blocks b).nbInvalid = 0 ∧ (s'.blocks b).currentPageOffset = 1)
    (hne : ∀ c, c ≠ b → s'.blocks c = s.blocks c) (hh : s'.hashtable = s.hashtable)
    (hbehind : ∀ o, 1 ≤ o → o < env.pagesPerBlock →
      programmed s'.mtd (b * env.pagesPerBlock + o) = false)
    (hother : ∀ p, p / env.pagesPerBlock ≠ b → programmed s'.mtd p = programmed s.mtd p ∧
      content env.pageSize s'.mtd p = content env.pageSize s.mtd p)
    (hro : s'.readOnly = isReadOnly env.toGeometry s') : Inv env s' m := by
  obtain ⟨hlist, hstate, hinvalid, hoffset⟩ := hself
  have hout : ∀ h, s.Valid env.toGeometry h → s.blkOf env.toGeometry h ≠ b := by
    rintro h hv rfl
    have hmem := (hI.memList _ hb h).mpr ⟨hv, rfl⟩
    rw [hnil] at hmem
    exact absurd hmem List.not_mem_nil
  have hval : ∀ h, s'.Valid env.toGeometry h ↔ s.Valid env.toGeometry h := fun _ => Config.valid_congr hh
  have hblk : ∀ h, s'.blkOf env.toGeometry h = s.blkOf env.toGeometry h := fun _ => Config.blkOf_congr hh
  constructor
  case table => rw [hh]; exact hI.table
  case keyLt => intro h hv; rw [hh]; exact hI.keyLt h ((hval h).mp hv)
  case blkLt => intro h hv; rw [hblk]; exact hI.blkLt h ((hval h).mp hv)
  case blkUsed =>
    intro h hv
    rw [hblk, hne _ (hout h ((hval h).mp hv))]
    exact hI.blkUsed h ((hval h).mp hv)
  case offsetPos => intro h hv; rw [hh]; exact hI.offsetPos h ((hval h).mp hv)
  case offsetLt =>
    intro h hv
    rw [hblk, hne _ (hout h ((hval h).mp hv)), hh]
    exact hI.offsetLt h ((hval h).mp hv)
  case pageInj =>
    intro h h' hv hv' he
    rw [hh] at he
    exact hI.pageInj h h' ((hval h).mp hv) ((hval h').mp hv') he
  case nodup =>
    intro c hc
    by_cases hcb : c = b
    · rw [hcb, hlist]
      exact List.nodup_nil
    · rw [hne c hcb]
      exact hI.nodup c hc
  case memList =>
    intro c hc h
    rw [hval, hblk, ← hI.memList c hc h]
    by_cases hcb : c = b
    · rw [hcb, hlist, hnil]
    · rw [hne c hcb]
  case notInvalid =>
    intro c hc
    by_cases hcb : c = b
    · rw [hcb, hstate]
      decide
    · rw [hne c hcb]
      exact hI.notInvalid c hc
  case offsetLe =>
    intro c hc
    by_cases hcb : c = b
    · rw [hcb, hoffset]
      exact env.pagesPerBlock_pos
    · rw [hne c hcb]
      exact hI.offsetLe c hc
  case used =>
    intro c hc hu
    by_cases hcb : c = b
    · rw [hcb, hinvalid, hlist, hoffset]
      rfl
    · rw [hne c hcb] at hu ⊢
      exact hI.used c hc hu
  case free =>
    intro c hc hf
    by_cases hcb : c = b
    · rw [hcb, hstate] at hf
      cases hf
    · rw [hne c hcb] at hf ⊢
      exact hI.free c hc hf
  case metaBlk =>
    intro c hc hf
    by_cases hcb : c = b
    · rw [hcb, hstate] at hf
      cases hf
    · rw [hne c hcb] at hf ⊢
      exact hI.metaBlk c hc hf
  case fresh =>
    intro c hc hm o ho hlt
    by_cases hcb : c = b
    · rw [hcb, hoffset] at ho
      rw [hcb]
      exact hbehind o ho hlt
    · rw [hne c hcb] at hm ho
      rw [(hother _ (by rwa [Geometry.page_div hlt])).1]
      exact hI.fresh c hc hm o ho hlt
  case stored =>
    intro h hv
    have hv' := (hval h).mp hv
    rw [hh, (hother _ (hout h hv')).2]
    exact hI.stored h hv'
  case complete =>
    intro k v hm
    obtain ⟨h, hv, hk⟩ := hI.complete k v hm
    exact ⟨h, (hval h).mpr hv, by rw [hh, hk]⟩
  case readOnly => exact hro

/-- A page of another block than `b` is not the first page of `b`. -/
theorem ne_first {b p : ℕ} (h : p / env.pagesPerBlock ≠ b) : p ≠ b * env.pagesPerBlock := by
  rintro rfl
  exact h (Nat.mul_div_cancel _ env.pagesPerBlock_pos)

/-- Opening an erased block changes nothing that the map is read from. -/
theorem opened (hI : Inv env s m) {b : ℕ} {s' : Config} (hb : b < env.nbBlocks)
    (hst : (s.blocks b).state = .blkFree) (hO : Opened env.toGeometry b s s') : Inv env s' m := by
  have hnil := hI.list_eq_nil hb (by simp [hst])
  have hfree := hI.free b hb hst
  refine hI.opens hb hnil (by rw [hO.block_self]; exact ⟨hnil, rfl, hfree.2, rfl⟩)
    (fun c hc => hO.block_ne hc) hO.hashtable (fun o ho hlt => ?_) (fun p hp => ?_) hO.readOnly
  · rw [hO.mtd, programmed_program_ne (by omega)]
    exact hI.fresh b hb (by simp [hst]) o (by rw [hfree.1]; omega) hlt
  · rw [hO.mtd]
    exact ⟨programmed_program_ne (ne_first hp), content_program_ne (ne_first hp)⟩

/-- Nor does erasing and opening a block that no bucket points into. -/
theorem reopened (hI : Inv env s m) {b : ℕ} {s' : Config} (hb : b < env.nbBlocks)
    (hnil : (s.blocks b).list = []) (hR : Reopened env.toGeometry b s s') : Inv env s' m := by
  refine hI.opens hb hnil (by rw [hR.block_self]; exact ⟨rfl, rfl, rfl, rfl⟩)
    (fun c hc => hR.block_ne hc) hR.hashtable (fun o ho hlt => ?_) (fun p hp => ?_) hR.readOnly
  · rw [hR.mtd, programmed_program_ne (by omega)]
    exact programmed_erase_mem ⟨by omega, by omega⟩
  · have hout : ¬ (b * env.pagesPerBlock ≤ p ∧ p < b * env.pagesPerBlock + env.pagesPerBlock) :=
      mt Geometry.mem_block_iff.mp hp
    rw [hR.mtd, programmed_program_ne (ne_first hp), content_program_ne (ne_first hp)]
    exact ⟨programmed_erase_not_mem hout, content_erase_not_mem hout⟩

/-- Whatever data block `get_next_page` picks, it hands out a used block with a page left. -/
theorem ready (hI : Inv env s m) {b : ℕ} {s' : Config} (hb : b < env.nbBlocks)
    (hst : (s.blocks b).state ≠ .blkMeta) (ho : (s.blocks b).currentPageOffset < env.pagesPerBlock)
    (hR : Ready env.toGeometry b s s') :
    Inv env s' m ∧ (s'.blocks b).state = .blkUsed ∧
      (s'.blocks b).currentPageOffset < env.pagesPerBlock := by
  refine ⟨?_, ?_, (hR.offset ho).2⟩
  · rcases hR with ⟨-, rfl⟩ | ⟨h0, hO⟩
    · exact hI
    · refine hI.opened hb ((hI.state_cases hb hst).resolve_right fun hu => ?_) hO
      have := hI.offset_pos hb hu
      omega
  · rcases hR with ⟨hpos, rfl⟩ | ⟨-, hO⟩
    · refine (hI.state_cases hb hst).resolve_left fun hf => ?_
      have := (hI.free b hb hf).1
      omega
    · rw [hO.block_self]

/-! ## Storing a page -/

/-- The next page of a used block is behind every valid bucket's page. -/
theorem index_ne_next (hI : Inv env s m) {b h : ℕ}
    (ho : (s.blocks b).currentPageOffset < env.pagesPerBlock) (hv : s.Valid env.toGeometry h) :
    (s.hashtable h).index ≠ b * env.pagesPerBlock + (s.blocks b).currentPageOffset := by
  intro he
  have hlt := hI.offsetLt h hv
  rw [Config.blkOf, he, Geometry.page_div ho, Geometry.page_mod ho] at hlt
  omega

/-- Storing a record under a key that is in no bucket adds the pair to the map. -/
theorem stored' (hI : Inv env s m) {key v : CStr} {data : List Byte} {b h : ℕ} {s' : Config}
    (hb : b < env.nbBlocks) (hst : (s.blocks b).state = .blkUsed)
    (ho : (s.blocks b).currentPageOffset < env.pagesPerBlock)
    (hS : Stored env.toGeometry key data b h s s') (htab : TableOk env.toGeometry s'.hashtable)
    (hlen : key.len < 128) (hh : Holds env.toGeometry data key v) (hm : m key = none) :
    Inv env s' (Function.update m key (some v)) := by
  have hpos := hI.offset_pos hb hst
  have hfresh := hI.fresh b hb (by simp [hst]) _ (Nat.le_refl _) ho
  constructor
  case table => exact htab
  case keyLt => exact fun j => hS.forall_key (p := fun k => k.len < 128) hlen hI.keyLt
  case blkLt => exact fun j => hS.forall_blkOf (p := (· < env.nbBlocks)) ho hb hI.blkLt
  case blkUsed =>
    intro j hj
    rw [hS.state]
    exact hS.forall_blkOf (p := fun c => (s.blocks c).state = .blkUsed) ho hst hI.blkUsed hj
  case offsetPos =>
    intro j hj
    rcases hS.blkOf_eq ho hj with ⟨rfl, -⟩ | ⟨hjh, hj', -⟩
    · rw [hS.index_self, Geometry.page_mod ho]
      exact hpos
    · rw [hS.index_ne hjh]
      exact hI.offsetPos j hj'
  case offsetLt =>
    intro j hj
    rcases hS.blkOf_eq ho hj with ⟨rfl, hjb⟩ | ⟨hjh, hj', hjb⟩
    · rw [hjb, hS.index_self, Geometry.page_mod ho, hS.block_self]
      exact Nat.lt_succ_self _
    · rw [hjb, hS.index_ne hjh]
      exact Nat.lt_of_lt_of_le (hI.offsetLt j hj') hS.offset_le
  case pageInj =>
    intro i j hi hj he
    rcases hS.blkOf_eq ho hi with ⟨rfl, -⟩ | ⟨hih, hi', -⟩
    · rcases hS.blkOf_eq ho hj with ⟨rfl, -⟩ | ⟨hjh, hj', -⟩
      · rfl
      · rw [hS.index_self, hS.index_ne hjh] at he
        exact absurd he.symm (hI.index_ne_next ho hj')
    · rcases hS.blkOf_eq ho hj with ⟨rfl, -⟩ | ⟨hjh, hj', -⟩
      · rw [hS.index_self, hS.index_ne hih] at he
        exact absurd he (hI.index_ne_next ho hi')
      · rw [hS.index_ne hih, hS.index_ne hjh] at he
        exact hI.pageInj i j hi' hj' he
  case nodup =>
    intro c hc
    by_cases hcb : c = b
    · rw [hcb, hS.block_self, List.nodup_cons]
      exact ⟨fun hmem => hS.not_valid ((hI.memList b hb h).mp hmem).1, hI.nodup b hb⟩
    · rw [hS.block_ne hcb]
      exact hI.nodup c hc
  case memList =>
    intro c hc j
    rw [hS.mem_list, hS.valid_iff, hI.memList c hc j]
    by_cases hjh : j = h
    · subst hjh
      simp only [hS.blkOf_self ho, hS.not_valid, true_and, or_false, false_and, eq_comm]
    · simp only [hS.blkOf_ne hjh, hjh, false_and, false_or]
  case notInvalid =>
    intro c hc
    rw [hS.state]
    exact hI.notInvalid c hc
  case offsetLe =>
    intro c hc
    by_cases hcb : c = b
    · rw [hcb, hS.block_self]
      exact ho
    · rw [hS.block_ne hcb]
      exact hI.offsetLe c hc
  case used =>
    intro c hc hu
    rw [hS.state] at hu
    have hle := hI.used c hc hu
    by_cases hcb : c = b
    · rw [hcb] at hle ⊢
      rw [hS.block_self]
      simp only [List.length_cons]
      omega
    · rw [hS.block_ne hcb]
      exact hle
  case free =>
    intro c hc hf
    rw [hS.state] at hf
    have hcb : c ≠ b := by
      rintro rfl
      rw [hst] at hf
      cases hf
    rw [hS.block_ne hcb]
    exact hI.free c hc hf
  case metaBlk =>
    intro c hc hf
    rw [hS.state] at hf
    rw [hS.nbInvalid]
    exact hI.metaBlk c hc hf
  case fresh =>
    intro c hc hms o hoff hlt
    rw [hS.state] at hms
    rw [hS.mtd]
    by_cases hcb : c = b
    · rw [hcb, hS.block_self] at hoff
      change (s.blocks b).currentPageOffset + 1 ≤ o at hoff
      rw [programmed_program_ne (by rw [hcb]; omega), hcb]
      exact hI.fresh b hb (by simp [hst]) o (by omega) hlt
    · rw [hS.block_ne hcb] at hoff
      rw [Geometry.programmed_program_block ho hlt hcb]
      exact hI.fresh c hc hms o hoff hlt
  case stored =>
    intro j hj
    rcases hS.blkOf_eq ho hj with ⟨rfl, -⟩ | ⟨hjh, hj', -⟩
    · refine ⟨v, ?_, ?_⟩
      · rw [hS.key_self, Function.update_self]
      · rw [hS.index_self, hS.mtd, hS.key_self, content_program_self hfresh hh.length.le]
        exact hh
    · obtain ⟨w, hw, hhw⟩ := hI.stored j hj'
      have hk : (s.hashtable j).key ≠ key := by
        intro hk
        rw [hk, hm] at hw
        cases hw
      rw [hS.key_ne hjh, hS.index_ne hjh, Function.update_of_ne hk, hS.mtd,
        content_program_ne (hI.index_ne_next ho hj')]
      exact ⟨w, hw, hhw⟩
  case complete =>
    intro k w hkw
    by_cases hk : k = key
    · subst hk
      exact ⟨h, hS.valid_iff.mpr (Or.inl rfl), hS.key_self⟩
    · rw [Function.update_of_ne hk] at hkw
      exact hS.exists_key (hI.complete k w hkw)
  case readOnly => exact hS.readOnly

/-- The hash table takes a new key whenever some used block has a page left. -/
theorem hashAdd (hI : Inv env s m) {key : CStr} {b : ℕ} (hb : b < env.nbBlocks)
    (hst : (s.blocks b).state = .blkUsed)
    (ho : (s.blocks b).currentPageOffset < env.pagesPerBlock) (hlen : key.len < 128)
    (hm : m key = none) :
    ∃ h t, Serial.hashAdd env.toGeometry key
        (b * env.pagesPerBlock + (s.blocks b).currentPageOffset) s.hashtable = .ok (.ok h, t) ∧
      TableOk env.toGeometry t := by
  have hpos := hI.offset_pos hb hst
  have habs : ∀ h < env.hashSize, (s.hashtable h).pState = .pgValid → (s.hashtable h).key ≠ key := by
    intro h hlt hp hk
    obtain ⟨v, hv, -⟩ := hI.stored h ⟨hlt, hp⟩
    rw [hk, hm] at hv
    cases hv
  obtain ⟨h, t, he, -, ht⟩ := hashAdd_ok hI.table hlen habs
    (hI.card_validSlots (Geometry.page_lt hb ho) (by omega) fun h hv => hI.index_ne_next ho hv)
  exact ⟨h, t, he, ht⟩

/-- The store phase behind `invalid_pg`: the record goes to the block that `get_healthy_block` picks,
and the map gains the pair. -/
theorem storeAt (hI : Inv env s m) (hdrv : env.NoDriverError) {key v : CStr} {data : List Byte}
    {b : ℕ} (hro : s.readOnly = false) (hb : getHealthyBlock env.toGeometry s = some b)
    (hst : (s.blocks b).state ≠ .blkMeta) (hlen : key.len < 128)
    (hh : Holds env.toGeometry data key v) (hm : m key = none) :
    ∃ s₁ h s', Ready env.toGeometry b s s₁ ∧ Stored env.toGeometry key data b h s₁ s' ∧
      Serial.storeAt env key data s = .ok (writeCode env.toGeometry s', s') ∧
      Inv env s' (Function.update m key (some v)) := by
  obtain ⟨hlt, -, ho⟩ := getHealthyBlock_some hb
  have hR := openBlock_ready (b := b) hdrv hro
  obtain ⟨hI₁, hst₁, ho₁⟩ := hI.ready hlt hst ho hR
  obtain ⟨h, t, he, ht⟩ := hI₁.hashAdd hlt hst₁ ho₁ hlen hm
  have hS := stored_of_hashAdd data ho₁ he
  refine ⟨_, h, _, hR, hS, ?_, hI₁.stored' hlt hst₁ ho₁ hS ht hlen hh hm⟩
  rw [writeCode, ← hS.readOnly]
  simp only [Serial.storeAt, getNextPage, hb, writePage_eq hdrv (hR.readOnly hlt hro), enterBucket,
    wrote_hashtable, he]
  rfl

/-! ## The other operations -/

/-- A writable store has a block for `get_healthy_block` as long as no erase counter has run out. -/
theorem getHealthyBlock_isSome (hI : Inv env s m) (hro : s.readOnly = false)
    (hw : ∀ b < env.nbBlocks, (s.blocks b).worn < intMax) :
    ∃ b, getHealthyBlock env.toGeometry s = some b := by
  have hex : ∃ b < env.nbBlocks, (s.blocks b).currentPageOffset < env.pagesPerBlock := by
    by_contra hno
    have hfull : isReadOnly env.toGeometry s = true := isReadOnly_iff.mpr fun b hb =>
      Nat.le_of_not_lt fun ho => hno ⟨b, hb, ho⟩
    rw [hI.readOnly, hfull] at hro
    cases hro
  obtain ⟨b, hb, ho⟩ := hex
  exact leastWorn_isSome _ _ hb (by simpa using ⟨hI.notInvalid b hb, ho⟩) (hw b hb)

/-- `del_key` removes the key from the map, and finds it exactly when it is there. -/
theorem delKey (hI : Inv env s m) (key : CStr) :
    ∃ ret s', Serial.delKey env key s = .ok (ret, s') ∧ (0 ≤ ret ↔ m key ≠ none) ∧
      Inv env s' (Function.update m key none) ∧
      (s' = s ∨ ∃ h, s.Valid env.toGeometry h ∧ s' = s.dropped env.toGeometry h) := by
  cases hs : hashSearch env.toGeometry s.hashtable key with
  | error e =>
    have hnone := hI.notFound hs
    refine ⟨-2, s, by simp only [Serial.delKey, hs], by simp [hnone], ?_, Or.inl rfl⟩
    rw [← hnone, Function.update_eq_self]
    exact hI
  | ok h =>
    obtain ⟨hlt, hp, hk⟩ := hashSearch_sound hs
    have hst := hI.blkUsed h ⟨hlt, hp⟩
    rw [Config.blkOf] at hst
    have hpv : (s.hashtable h).pState ≠ .pgFree := by
      rw [hp]
      decide
    obtain ⟨v, hv, -⟩ := hI.stored h ⟨hlt, hp⟩
    rw [hk] at hv
    refine ⟨(s.hashtable h).index, s.dropped env.toGeometry h, ?_, by simp [hv], ?_,
      Or.inr ⟨h, ⟨hlt, hp⟩, rfl⟩⟩
    · simp only [Serial.delKey, hs, if_pos hst, if_neg hpv, hI.invalidPg_eq ⟨hlt, hp⟩]
    · rw [← hk]
      exact hI.drop ⟨hlt, hp⟩

end Inv

/-- A successful `format` leaves the empty map, whatever was there before. -/
theorem format_inv (env : Env) {s s' : Config} (hf : format env s = (0, s')) :
    Inv env s' fun _ => none := by
  have hs' : s' = { s with
      readOnly := false
      mtd := .erase 0 env.hashSize :: s.mtd
      blocks := fun _ => .erased 0
      hashtable := fun h => { s.hashtable h with pState := .pgFree, dirty := false } } := by
    unfold format at hf
    split at hf
    · cases (Prod.mk.inj hf).1
    · cases (Prod.mk.inj hf).1
    · exact (Prod.mk.inj hf).2.symm
  have hinv : ∀ h, ¬ s'.Valid env.toGeometry h := by
    rintro h ⟨-, hp⟩
    rw [hs'] at hp
    cases hp
  have hkey : ∀ h, bucketLayout.key (s'.hashtable h) = none := fun h => by
    rw [hs']
    exact bucketLayout_key_eq_none.mpr rfl
  have hblk : ∀ b, s'.blocks b = .erased 0 := fun b => by rw [hs']
  constructor
  case table =>
    constructor
    · intro i _ j _ k hik
      rw [hkey] at hik
      cases hik
    · intro i _ k hik
      rw [hkey] at hik
      cases hik
  case keyLt => exact fun h hv => absurd hv (hinv h)
  case blkLt => exact fun h hv => absurd hv (hinv h)
  case blkUsed => exact fun h hv => absurd hv (hinv h)
  case offsetPos => exact fun h hv => absurd hv (hinv h)
  case offsetLt => exact fun h hv => absurd hv (hinv h)
  case pageInj => exact fun h _ hv => absurd hv (hinv h)
  case nodup =>
    intro b _
    rw [hblk]
    exact List.nodup_nil
  case memList =>
    intro b _ h
    rw [hblk]
    exact iff_of_false List.not_mem_nil fun hv => hinv h hv.1
  case notInvalid =>
    intro b _
    rw [hblk]
    simp [BlkInfo.erased]
  case offsetLe =>
    intro b _
    rw [hblk]
    exact Nat.zero_le _
  case used =>
    intro b _ hu
    rw [hblk] at hu
    cases hu
  case free =>
    intro b _ _
    rw [hblk]
    exact ⟨rfl, rfl⟩
  case metaBlk =>
    intro b _ hu
    rw [hblk] at hu
    cases hu
  case fresh =>
    intro b hb _ o _ ho
    rw [hs']
    exact programmed_erase_mem ⟨Nat.zero_le _, by simpa using Geometry.page_lt hb ho⟩
  case stored => exact fun h hv => absurd hv (hinv h)
  case complete =>
    intro k v hm
    cases hm
  case readOnly =>
    have hro : isReadOnly env.toGeometry s' = false :=
      isReadOnly_eq_false env.nbBlocks_pos (by rw [hblk]; exact env.pagesPerBlock_pos)
    rw [hro, hs']

end LkpProjects.Serial
