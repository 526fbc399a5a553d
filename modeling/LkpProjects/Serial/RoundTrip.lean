import LkpProjects.Serial.Mount

/-! # The serial store: a mount never gives back what a flush left in memory

`flush_metadata` copies the block records before it writes them, and writing them moves the offsets of
the metadata blocks on. The offset of a metadata block on flash is therefore smaller than the one in
memory, and since flash cells only ever lose bits it cannot become larger again. No driver behaviour
and no property of the configuration enters: whenever the flush returns 0, the next mount restores
some other configuration (`flush_never_round_trips`).
-/
namespace LkpProjects.Serial
open Nand Bytes
set_option autoImplicit false

/-- Mounting gave back the metadata of `s` as `t`. -/
structure RoundTrip (g : Geometry) (s t : Config) : Prop where
  blocks : ∀ b < g.nbBlocks, (t.blocks b).state = (s.blocks b).state ∧
    (t.blocks b).worn = (s.blocks b).worn ∧ (t.blocks b).nbInvalid = (s.blocks b).nbInvalid ∧
    (t.blocks b).currentPageOffset = (s.blocks b).currentPageOffset
  buckets : ∀ h < g.hashSize, (t.hashtable h).pState = (s.hashtable h).pState ∧
    (t.hashtable h).dirty = (s.hashtable h).dirty ∧ (t.hashtable h).key = (s.hashtable h).key ∧
    (t.hashtable h).index = (s.hashtable h).index
  ord : ∀ i < g.nbMetaBlocks, t.metaBlkordr i = s.metaBlkordr i
  readOnly : t.readOnly = s.readOnly
  lists : ∀ b < g.nbBlocks, ∀ h, h ∈ (t.blocks b).list ↔ t.Valid g h ∧ t.blkOf g h = b

variable {env : Env} {s s' t : Config} {mtd : History}

/-! ## The writes of a flush -/

/-- From `s` to `s'` pages were written, nothing was erased, and the offsets followed. -/
structure Wrote (s s' : Config) : Prop where
  ord : s'.metaBlkordr = s.metaBlkordr
  offset : ∀ b, (s.blocks b).currentPageOffset ≤ (s'.blocks b).currentPageOffset
  ops : ∃ ops, s'.mtd = ops ++ s.mtd ∧ ∀ o ∈ ops, ∃ p d, o = Op.program p d

theorem Wrote.refl (s : Config) : Wrote s s := ⟨rfl, fun _ => Nat.le_refl _, [], rfl, by simp⟩

theorem Wrote.trans {s₁ : Config} (h : Wrote s s₁) (h' : Wrote s₁ s') : Wrote s s' := by
  obtain ⟨ops, ho, hp⟩ := h.ops
  obtain ⟨ops', ho', hp'⟩ := h'.ops
  refine ⟨h'.ord.trans h.ord, fun b => Nat.le_trans (h.offset b) (h'.offset b), ops' ++ ops, ?_, ?_⟩
  · rw [ho', ho, List.append_assoc]
  · intro o hm
    rcases List.mem_append.mp hm with hm | hm
    · exact hp' o hm
    · exact hp o hm

theorem programPage_wrote (g : Geometry) (p : ℕ) (d : List Byte) (s : Config) (ro : Bool) :
    Wrote s { programPage g p d s with readOnly := ro } := by
  refine ⟨rfl, fun b => ?_, [.program p d], rfl, by simp⟩
  simp only [programPage, Config.modifyBlk_blocks]
  split_ifs with hb
  · rw [hb]
    exact Nat.le_succ _
  · exact Nat.le_refl _

/-- Whatever the code, `write_page` has stored the page or done nothing. -/
theorem writePage_wrote (env : Env) (s : Config) (p : ℕ) (d : List Byte) :
    Wrote s (writePage env p d s).2 := by
  unfold writePage
  split
  · exact Wrote.refl s
  · split
    · exact Wrote.refl s
    · simp only
      split
      · exact programPage_wrote _ p d s true
      · exact programPage_wrote _ p d s _

/-- A page is on the flash, not erased since, and its block's offset has moved past `o`. -/
def Landed (g : Geometry) (base : History) (s' : Config) (o : ℕ) (w : ℕ × List Byte) : Prop :=
  (∃ ops, s'.mtd = ops ++ base ∧ (∀ x ∈ ops, ∃ p d, x = Op.program p d) ∧
    Op.program w.1 w.2 ∈ ops) ∧ o < (s'.blocks (w.1 / g.pagesPerBlock)).currentPageOffset

theorem Landed.wrote {g : Geometry} {base : History} {o : ℕ} {w : ℕ × List Byte} {s₁ : Config}
    (h : Landed g base s₁ o w) (h' : Wrote s₁ s') : Landed g base s' o w := by
  obtain ⟨⟨ops, ho, hp, hm⟩, hlt⟩ := h
  obtain ⟨ops', ho', hp'⟩ := h'.ops
  refine ⟨⟨ops' ++ ops, by rw [ho', ho, List.append_assoc], fun x hx => ?_,
    List.mem_append_right _ hm⟩, Nat.lt_of_lt_of_le hlt (h'.offset _)⟩
  rcases List.mem_append.mp hx with hx | hx
  · exact hp' x hx
  · exact hp x hx

theorem writePage_landed {p : ℕ} {d : List Byte} (he : writePage env p d s = (0, s')) :
    Landed env.toGeometry s.mtd s' (s.blocks (p / env.pagesPerBlock)).currentPageOffset (p, d) := by
  unfold writePage at he
  split at he
  · cases (Prod.mk.inj he).1
  · split at he
    · cases (Prod.mk.inj he).1
    · simp only at he
      split at he
      · cases (Prod.mk.inj he).1
      · obtain rfl := (Prod.mk.inj he).2
        refine ⟨⟨[.program p d], rfl, by simp, by simp⟩, ?_⟩
        simp [programPage]

/-- All pages of a write loop that was not cut short. -/
theorem writePages_landed : ∀ {ws : List (ℕ × List Byte)} {s s' : Config},
    writePages env ws s = (true, s') → Wrote s s' ∧ ∀ w ∈ ws,
      ∃ s₁, Wrote s s₁ ∧ Landed env.toGeometry s₁.mtd s'
        (s₁.blocks (w.1 / env.pagesPerBlock)).currentPageOffset w
  | [], s, s', he => by
      obtain rfl := (Prod.mk.inj he).2
      exact ⟨Wrote.refl s, by simp⟩
  | (p, d) :: ws, s, s', he => by
      have hw := writePage_wrote env s p d
      rw [writePages] at he
      split at he
      · rename_i s₁ h₁
        rw [h₁] at hw
        obtain ⟨hw', hall⟩ := writePages_landed he
        refine ⟨hw.trans hw', fun w hm => ?_⟩
        rcases List.mem_cons.mp hm with rfl | hm
        · exact ⟨s, Wrote.refl s, (writePage_landed h₁).wrote hw'⟩
        · obtain ⟨s₂, hs₂, hl⟩ := hall w hm
          exact ⟨s₂, hw.trans hs₂, hl⟩
      · cases (Prod.mk.inj he).1

/-- A flush that returns 0 has written every page of every part. -/
theorem flushWrite_landed {snap : Config} : ∀ {is : List ℕ} {s s' : Config},
    flushWrite env snap is s = .ok (0, s') → Wrote s s' ∧ ∀ i ∈ is, ∃ b,
      s.metaBlkordr i = some b ∧ ∀ w ∈ metaWrites env snap i b, ∃ s₁, Wrote s s₁ ∧
        Landed env.toGeometry s₁.mtd s' (s₁.blocks (w.1 / env.pagesPerBlock)).currentPageOffset w
  | [], s, s', he => by
      obtain rfl := (Prod.mk.inj (Except.ok.inj he)).2
      exact ⟨Wrote.refl s, by simp⟩
  | i :: is, s, s', he => by
      rw [flushWrite] at he
      split at he
      · cases he
      · rename_i b hb
        have hw := writePage_wrote env s (b * env.pagesPerBlock)
          (hdrPage env.toGeometry (.nandMetaData i))
        simp only [writeHdr] at he
        generalize (writePage env (b * env.pagesPerBlock)
          (hdrPage env.toGeometry (.nandMetaData i)) s).2 = s₁ at he hw
        split at he
        · rename_i s₂ h₂
          obtain ⟨hw₂, hall₂⟩ := writePages_landed h₂
          obtain ⟨hw₃, hall₃⟩ := flushWrite_landed he
          have h02 : Wrote s s₂ := hw.trans hw₂
          refine ⟨h02.trans hw₃, fun j hj => ?_⟩
          rcases List.mem_cons.mp hj with rfl | hj
          · refine ⟨b, hb, fun w hm => ?_⟩
            obtain ⟨s₄, hs₄, hl⟩ := hall₂ w hm
            exact ⟨s₄, hw.trans hs₄, hl.wrote hw₃⟩
          · obtain ⟨c, hc, hall⟩ := hall₃ j hj
            refine ⟨c, by rw [← h02.ord, hc], fun w hm => ?_⟩
            obtain ⟨s₄, hs₄, hl⟩ := hall w hm
            exact ⟨s₄, h02.trans hs₄, hl⟩
        · cases (Prod.mk.inj (Except.ok.inj he)).1

/-! ## The choice of blocks -/

theorem writePage_ord {p : ℕ} {d : List Byte} :
    (writePage env p d s).2.metaBlkordr = s.metaBlkordr := (writePage_wrote env s p d).ord

theorem formatSingle_ord (b : ℕ) : (formatSingle env b s).2.metaBlkordr = s.metaBlkordr := by
  unfold formatSingle
  split <;> rfl

theorem openBlock_ord (b : ℕ) : (openBlock env b s).metaBlkordr = s.metaBlkordr := by
  unfold openBlock
  split
  · exact writePage_ord
  · rfl

theorem invalidPg_ord {h : ℕ} (he : invalidPg env.toGeometry h s = .ok s') :
    s'.metaBlkordr = s.metaBlkordr := by
  rw [(invalidPg_ok he).2]
  rfl

theorem storeAt_ord {key : CStr} {buf : List Byte} {ret : ℤ}
    (he : storeAt env key buf s = .ok (ret, s')) : s'.metaBlkordr = s.metaBlkordr := by
  obtain ⟨b, p, s₁, h, t, -, -, hw, -, rfl⟩ := storeAt_cases he
  have hsame : (writePage env p buf (openBlock env b s)).2.metaBlkordr = s.metaBlkordr :=
    writePage_ord.trans (openBlock_ord b)
  rwa [hw] at hsame

theorem moveOne_ord {page : List Byte} {key key' : ℕ → Byte}
    (he : moveOne env page key s = .ok (key', s')) : s'.metaBlkordr = s.metaBlkordr := by
  obtain rfl | ⟨_, _, _, _, hinv, hst⟩ := moveOne_ok he
  · rfl
  · exact (storeAt_ord hst).trans (invalidPg_ord hinv)

theorem moveLoop_ord {ps : List ℕ} {key : ℕ → Byte} {r : Option Config}
    (he : moveLoop env ps key s = .ok (r, s')) : s'.metaBlkordr = s.metaBlkordr :=
  moveLoop_invariant (I := fun t => t.metaBlkordr = s.metaBlkordr)
    (fun _ _ _ _ _ hI he₁ => (moveOne_ord he₁).trans hI) rfl he

/-- Relocating pages leaves `meta_blkordr` alone. -/
theorem movePages_ord {b : ℕ} {ret : ℤ} (he : movePagesToOtherBlock env b s = .ok (ret, s')) :
    s'.metaBlkordr = s.metaBlkordr := by
  obtain ⟨-, rfl⟩ | ⟨-, -, rfl⟩ | ⟨-, ps, r, s₁, he₁, ⟨-, rfl⟩ | rfl⟩ := movePages_cases he
  · rfl
  · exact formatSingle_ord b
  · exact (moveLoop_ord he₁).trans rfl
  · exact (formatSingle_ord b).trans ((moveLoop_ord he₁).trans rfl)

/-- Every part of the metadata gets a block of the device. -/
theorem flushSelect_lt : ∀ {is : List ℕ} {s s' : Config}, flushSelect env is s = .ok s' →
    ∀ i, (i ∈ is ∨ ∃ b < env.nbBlocks, s.metaBlkordr i = some b) →
      ∃ b < env.nbBlocks, s'.metaBlkordr i = some b
  | [], s, s', he, i, hi => by
      obtain rfl := Except.ok.inj he
      exact hi.resolve_left List.not_mem_nil
  | j :: is, s, s', he, i, hi => by
      rw [flushSelect] at he
      split at he
      · cases he
      · rename_i b hb
        split at he
        · cases he
        · rename_i s₁ h₁
          refine flushSelect_lt he i ?_
          by_cases hij : i = j
          · subst hij
            exact Or.inr ⟨b, getMetaBlock_lt hb, by simp [Config.setState]⟩
          · rcases hi with hi | ⟨c, hc, hic⟩
            · exact Or.inl ((List.mem_cons.mp hi).resolve_left hij)
            · refine Or.inr ⟨c, hc, ?_⟩
              simp only [Config.setState, Config.modifyBlk_metaBlkordr, Function.update_of_ne hij]
              rw [movePages_ord h₁, hic]

/-! ## What a mount can have read -/

/-- As many headers were counted as there are ranks entered. -/
theorem le_count_of_ord {ord : ℕ → Option ℕ} {n : ℕ}
    (hord : ord = (List.range env.nbBlocks).foldl (enterRank env mtd) fun _ => none)
    (hn : ∀ i < n, ord i ≠ none) :
    n ≤ ((List.range env.nbBlocks).filterMap (rankAt env mtd)).length := by
  have hsub : Finset.range n ⊆ ((List.range env.nbBlocks).filterMap (rankAt env mtd)).toFinset := by
    intro i hi
    obtain ⟨b, hb⟩ := Option.ne_none_iff_exists'.mp (hn i (Finset.mem_range.mp hi))
    rw [hord] at hb
    rcases rankAt_of_foldl _ _ _ _ hb with ⟨hm, hr⟩ | h
    · rw [List.mem_toFinset, List.mem_filterMap]
      exact ⟨b, hm, hr⟩
    · cases h
  have hcard := Finset.card_le_card hsub
  rw [Finset.card_range] at hcard
  exact Nat.le_trans hcard (List.toFinset_card_le _)

/-- A mount that returns 0 formatted the device, or decoded the pages it found. -/
theorem initScan_ok {t : Config} (he : initScan env mtd = .ok (0, t)) :
    ∃ ord cnt pages, ord = (List.range env.nbBlocks).foldl (enterRank env mtd) (fun _ => none) ∧
      cnt = ((List.range env.nbBlocks).filterMap (rankAt env mtd)).length ∧
      scanPages env mtd ord cnt = .ok (some pages) ∧
      ((cnt = 0 ∧ t.metaBlkordr = fun _ => none) ∨
        (t.metaBlkordr = ord ∧ ∀ b < env.nbBlocks, ∃ r, readBlkInfo (scanBuffer env mtd pages)
          (Geometry.sizeofBlkInfo * b) = some r ∧
            (t.blocks b).currentPageOffset = r.currentPageOffset)) := by
  unfold initScan at he
  split at he
  · cases he
  · cases (Prod.mk.inj (Except.ok.inj he)).1
  · rename_i ord cnt hscan
    obtain ⟨hord, hcnt⟩ := scanHeaders_ok hscan
    rw [Nat.zero_add] at hcnt
    split at he
    · cases he
    · cases (Prod.mk.inj (Except.ok.inj he)).1
    · rename_i pages hpages
      refine ⟨ord, cnt, pages, hord, hcnt, hpages, ?_⟩
      split at he
      · rename_i h0
        left
        refine ⟨h0, ?_⟩
        split at he
        · rename_i s hf
          obtain rfl := (Prod.mk.inj (Except.ok.inj he)).2
          unfold format at hf
          split at hf
          · cases (Prod.mk.inj hf).1
          · cases (Prod.mk.inj hf).1
          · obtain rfl := (Prod.mk.inj hf).2
            unfold checkReadOnly
            split <;> rfl
        · rename_i ret s hne hf
          obtain ⟨rfl, rfl⟩ := Prod.mk.inj (Except.ok.inj he)
          exact absurd rfl hne
      · right
        split at he
        · cases he
        · rename_i blocks table hmeta
          split at he
          · cases he
          · rename_i blocks' hrel
            obtain rfl := (Prod.mk.inj (Except.ok.inj he)).2
            rw [checkReadOnly_eq _ _ rfl]
            refine ⟨rfl, fun b hb => ⟨blocks b, (readMeta_some hmeta).1 b hb, ?_⟩⟩
            simp only [(relink_ok hrel).2 b]

/-! ## The counters on flash -/

/-- The offset that a mount finds for a metadata block is at most the one that was copied out. -/
theorem restored_le {snap : Config} {ord : ℕ → Option ℕ} {cnt : ℕ} {pages : List (List Byte)}
    (hcnt : env.nbMetaBlocks ≤ cnt) (hord : ∀ i < env.nbMetaBlocks, ord i ≠ none)
    (hpages : scanPages env mtd ord cnt = .ok (some pages))
    (hand : ∀ i < env.nbMetaBlocks, ∀ b, ord i = some b → ∀ w ∈ metaWrites env snap i b, ∀ j,
      (content env.pageSize mtd w.1).getD j 0 &&& w.2.getD j 0 =
        (content env.pageSize mtd w.1).getD j 0)
    {b : ℕ} (hb : b < env.nbBlocks) {r : BlkInfo}
    (hr : readBlkInfo (scanBuffer env mtd pages) (Geometry.sizeofBlkInfo * b) = some r) :
    r.currentPageOffset ≤ (snap.blocks b).currentPageOffset := by
  have hps : 0 < env.pageSize := Nat.lt_of_lt_of_le (by decide) env.eight_le_pageSize
  have hm : 0 < env.pagesPerBlock - 1 := by
    have := env.two_le_pagesPerBlock
    omega
  -- every byte of the metadata is a byte that was written, less some bits
  have hbyte : ∀ p < env.metadataSize, scanBuffer env mtd pages p &&& metaByte env snap p =
      scanBuffer env mtd pages p := by
    intro p hp
    have hq : p / env.pageSize < env.nbMetaBlocks * (env.pagesPerBlock - 1) :=
      Nat.lt_trans (metaPage_lt hp) (nbMetaPages_lt _)
    have hi : p / env.pageSize / (env.pagesPerBlock - 1) < env.nbMetaBlocks :=
      (Nat.div_lt_iff_lt_mul hm).mpr hq
    obtain ⟨c, hc⟩ := Option.ne_none_iff_exists'.mp (hord _ hi)
    have hget := scanPages_content hpages (p := p / env.pageSize)
      (Nat.lt_of_lt_of_le hq (Nat.mul_le_mul_right _ hcnt)) hc
    have hw : (c * env.pagesPerBlock + (p / env.pageSize % (env.pagesPerBlock - 1) + 1),
        metaPage env snap (p / env.pageSize)) ∈
        metaWrites env snap (p / env.pageSize / (env.pagesPerBlock - 1)) c := by
      refine List.mem_map.mpr ⟨p / env.pageSize % (env.pagesPerBlock - 1),
        List.mem_range.mpr (Nat.mod_lt _ hm), ?_⟩
      rw [Nat.mul_comm _ (env.pagesPerBlock - 1), Nat.div_add_mod]
    have h := hand _ hi c hc _ hw (p % env.pageSize)
    have hmb : (metaPage env snap (p / env.pageSize)).getD (p % env.pageSize) 0 =
        metaByte env snap p := by
      rw [metaPage, List.getD_eq_getElem _ _ (by simpa using Nat.mod_lt p hps)]
      simp only [List.getElem_map, List.getElem_range]
      rw [Nat.div_add_mod]
    simp only [hmb] at h
    rw [scanBuffer, hget]
    exact h
  have hrange : ∀ i, i < 4 → Geometry.sizeofBlkInfo * b + 20 + i < env.metadataSize := by
    intro i hi
    simp only [Geometry.metadataSize, Geometry.blockInfoSize, Geometry.sizeofBlkInfo]
    omega
  have hword : readLe (scanBuffer env mtd pages) (Geometry.sizeofBlkInfo * b + 20) ≤
      readLe (metaByte env snap) (Geometry.sizeofBlkInfo * b + 20) :=
    readLe_le_of_and fun i hi => hbyte _ (hrange i hi)
  have hsaved := readLe_blkInfo snap hb 20 (snap.blocks b).currentPageOffset (by omega)
    fun pad i hi => by
      rw [blkInfoByte, if_neg (by omega), if_neg (by omega), if_neg (by omega), if_neg (by omega),
        Nat.add_sub_cancel_left]
  have hoff : r.currentPageOffset =
      readLe (scanBuffer env mtd pages) (Geometry.sizeofBlkInfo * b + 20) := by
    unfold readBlkInfo at hr
    split at hr
    · rename_i st w n o _ _ _ ho
      rw [← Option.some.inj hr]
      exact counter_some ho
    · cases hr
  have := Nat.mod_le (snap.blocks b).currentPageOffset (2 ^ 32)
  omega

/-- A mount that lists the blocks of the flush finds some block's offset smaller than it is in
memory. -/
theorem restored_offset_lt {env : Env} {s s' t : Config} (hf : flushMetadata env s = .ok (0, s'))
    (hscan : initScan env s'.mtd = .ok (0, t))
    (hord : ∀ i < env.nbMetaBlocks, t.metaBlkordr i = s'.metaBlkordr i) :
    ∃ b < env.nbBlocks, (t.blocks b).currentPageOffset < (s'.blocks b).currentPageOffset := by
  unfold flushMetadata at hf
  split at hf
  · cases hf
  · rename_i snap hsel
    obtain ⟨hW, hall⟩ := flushWrite_landed hf
    have hpick : ∀ i < env.nbMetaBlocks, ∃ b < env.nbBlocks, snap.metaBlkordr i = some b :=
      fun i hi => flushSelect_lt hsel i (Or.inl (List.mem_range.mpr hi))
    have hord : ∀ i < env.nbMetaBlocks, t.metaBlkordr i = snap.metaBlkordr i := fun i hi => by
      rw [hord i hi, hW.ord]
    have hsome : ∀ i < env.nbMetaBlocks, t.metaBlkordr i ≠ none := fun i hi => by
      obtain ⟨b, -, hb⟩ := hpick i hi
      rw [hord i hi, hb]
      exact Option.some_ne_none b
    obtain ⟨b, hlt, hb⟩ := hpick 0 env.nbMetaBlocks_pos
    obtain ⟨ord, cnt, pages, ho, hcnt, hpages, hcase⟩ := initScan_ok hscan
    rcases hcase with ⟨-, hnone⟩ | ⟨htord, hblk⟩
    · exact absurd (by rw [hnone]) (hsome 0 env.nbMetaBlocks_pos)
    obtain ⟨r, hr, hoff⟩ := hblk b hlt
    have hle : r.currentPageOffset ≤ (snap.blocks b).currentPageOffset := by
      refine restored_le ?_ (fun i hi => htord ▸ hsome i hi) hpages ?_ hlt hr
      · rw [hcnt]
        exact le_count_of_ord ho fun i hi => htord ▸ hsome i hi
      · intro i hi c hc w hw j
        rw [← htord, hord i hi] at hc
        obtain ⟨c', hc', hland⟩ := hall i (List.mem_range.mpr hi)
        obtain rfl : c = c' := Option.some.inj (hc.symm.trans hc')
        obtain ⟨s₁, -, ⟨⟨ops, hmtd, hops, hmem⟩, -⟩⟩ := hland w hw
        rw [hmtd]
        exact content_and_of_mem j ops s₁.mtd hops hmem
    -- in memory the block's offset has moved on
    have htwo := env.two_le_pagesPerBlock
    obtain ⟨b', hb', hland⟩ := hall 0 (List.mem_range.mpr env.nbMetaBlocks_pos)
    obtain rfl : b = b' := Option.some.inj (hb.symm.trans hb')
    obtain ⟨s₁, hs₁, ⟨-, hgt⟩⟩ := hland (b * env.pagesPerBlock + (0 + 1), _)
      (List.mem_map.mpr ⟨0, List.mem_range.mpr (by omega), rfl⟩)
    simp only [Geometry.page_div (show 0 + 1 < env.pagesPerBlock by omega)] at hgt
    have hmono := hs₁.offset b
    exact ⟨b, hlt, by omega⟩

/-- In whatever state a flush is started: if it returns 0, no mount of the flash it leaves gives back
the metadata that is then in memory. -/
theorem flush_never_round_trips (env : Env) {s s' : Config}
    (hf : flushMetadata env s = .ok (0, s')) :
    ¬ ∃ t, initScan env s'.mtd = .ok (0, t) ∧ RoundTrip env.toGeometry s' t := by
  rintro ⟨t, hscan, hRT⟩
  obtain ⟨b, hb, hlt⟩ := restored_offset_lt hf hscan hRT.ord
  have := (hRT.blocks b hb).2.2.2
  omega

/-- The first flush of a new device. -/
theorem flush_never_round_trips_start :
    ¬ ∃ t, initScan (.ideal tinyGeometry) (final (.ideal tinyGeometry) [.flush]
        (Env.ideal tinyGeometry).start).mtd = .ok (0, t) ∧
      RoundTrip tinyGeometry (final (.ideal tinyGeometry) [.flush]
        (Env.ideal tinyGeometry).start) t := by
  have hf : flushMetadata (.ideal tinyGeometry) (Env.ideal tinyGeometry).start =
      .ok (0, final (.ideal tinyGeometry) [.flush] (Env.ideal tinyGeometry).start) := rfl
  exact flush_never_round_trips (.ideal tinyGeometry) hf

/-- The first flush of a new device returns 0, and so does the mount that follows, but it does not give
back what was in memory. -/
theorem first_flush_does_not_round_trip :
    ∃ s s' t, Fresh (.ideal roomyGeometry) s ∧
      flushMetadata (.ideal roomyGeometry) s = .ok (0, s') ∧
      initScan (.ideal roomyGeometry) s'.mtd = .ok (0, t) ∧ ¬ RoundTrip roomyGeometry s' t := by
  have hf : flushMetadata (.ideal roomyGeometry) (Env.ideal roomyGeometry).start =
      .ok (0, final (.ideal roomyGeometry) [.flush] (Env.ideal roomyGeometry).start) := rfl
  have hscan : outcome (initScan (.ideal roomyGeometry) (final (.ideal roomyGeometry) [.flush]
      (Env.ideal roomyGeometry).start).mtd) = some 0 := by decide +kernel
  obtain ⟨t, ht⟩ := of_outcome hscan
  refine ⟨(Env.ideal roomyGeometry).start, _, t, rfl, hf, ht, fun hRT => ?_⟩
  obtain ⟨b, hb, hlt⟩ := restored_offset_lt hf ht hRT.ord
  have := (hRT.blocks b hb).2.2.2
  omega

end LkpProjects.Serial
