import LkpProjects.Parallel.Ledger
import LkpProjects.Serial.Invariant

/-! # The parallel store: sets and flushes keep the ledger

A set appends a page to the block that `get_next_block_to_write` returns. That is the block picked if it
has its header; for a fresh one the code of the header comes back, which is a number of a block too. `PickOk`
says on the state before when the record goes to a data block all the same.

A flush chooses erased blocks and erases the old metadata blocks of the same ranks, one after the other:
a block is for data as long as neither the entries filled so far nor the old ones still to be erased have it.
-/
namespace LkpProjects.Parallel
open Nand Bytes Hoare
open Serial (Geometry HdrKind record)
set_option autoImplicit false

variable {env : Env} {P : CStr → List Byte → Prop} {s s' : Config} {b : ℕ} {key val : CStr}

/-! ## A header and a record -/

/-- The header of a data block without pages in use. -/
theorem writeHdr_orderly {ret : ℤ} {data : HdrKind} (hO : Orderly env.toGeometry P s)
    (h0 : (s.blocks b).currentPageOffset = 0)
    (he : writeHdr env (b * env.pagesPerBlock) data s = .ok (ret, s')) :
    Orderly env.toGeometry P s' := by
  obtain ⟨-, -, rfl⟩ | ⟨-, -, s₁, he₁, rfl⟩ := writeHdr_ok he
  · exact hO
  · obtain ⟨-, -, rfl⟩ | ⟨-, -, -, -, rfl⟩ := writePage_ok he₁
    · exact hO.setState _ _
    · have hO₁ : Orderly env.toGeometry P (programPage env.toGeometry (b * env.pagesPerBlock)
          (hdrPage env.toGeometry data) s) := ⟨hO.on.header h0, hO.ranks⟩
      refine Orderly.setState ?_ _ _
      exact hO₁.congr (.of_blocks rfl rfl rfl) rfl

/-- The page is written behind the others of its block and entered under the key. -/
theorem storeAt_stored {code : ℤ} (hro : s.readOnly = false)
    (he : storeAt env key val b s = .ok (code, s')) : key.len < keyRoom ∧ ∃ h t,
      Entered (hashSlots env.toGeometry) key (b * env.pagesPerBlock + (s.blocks b).currentPageOffset)
        s.hashtable h t ∧
      s' = s.stored env.toGeometry (b * env.pagesPerBlock + (s.blocks b).currentPageOffset)
        (record env.toGeometry key val) t b h := by
  rw [storeAt, get_bind_ok] at he
  obtain ⟨ret, s₁, he₁, henter⟩ := bind_ok.mp he
  obtain ⟨_, s₂, he₂, hend⟩ := bind_ok.mp henter
  obtain ⟨-, rfl⟩ := pure_ok.mp hend
  obtain ⟨hyes, -⟩ | ⟨-, -, -, -, rfl⟩ := writePage_ok he₁
  · exact absurd (hro.symm.trans hyes) Bool.false_ne_true
  obtain ⟨hfree, s₃, he₃, rfl⟩ := withLock_ok he₂
  obtain ⟨o, s₄, he₄, hlist⟩ := bind_ok.mp he₃
  obtain ⟨hroom, t, rfl, hentered⟩ := hashAdd_ok he₄
  refine ⟨hroom, ?_⟩
  cases o with
  | none => cases hlist
  | some h =>
    obtain rfl := modify_ok.mp hlist
    refine ⟨h, t, hentered h rfl, ?_⟩
    exact lock_back (s := s.stored env.toGeometry (b * env.pagesPerBlock +
      (s.blocks b).currentPageOffset) (record env.toGeometry key val) t b h) hfree

/-! ## `get_next_block_to_write` -/

/-- What `get_next_block_to_write` is for: -1, or a data block with its header and a page left that has not
been programmed since the block's erase. -/
def Served (g : Geometry) (s : Config) (ret : ℤ) : Prop :=
  ret = -1 ∨ ∃ b : ℕ, ret = b ∧ b < g.nbBlocks ∧ s.Unlisted b ∧ 1 ≤ (s.blocks b).currentPageOffset ∧
    (s.blocks b).currentPageOffset < g.pagesPerBlock ∧
    programmed s.mtd (b * g.pagesPerBlock + (s.blocks b).currentPageOffset) = false

/-- No block is found, or one that has its header, or block 0; or block 0 is for data and has a header and a
page left. -/
def PickOk (g : Geometry) (s : Config) : Prop :=
  NoBlock g s ∨ ∀ b, getHealthyBlock g s = some b → 0 < (s.blocks b).currentPageOffset ∨ b = 0 ∨
    s.Unlisted 0 ∧ 0 < (s.blocks 0).currentPageOffset ∧ (s.blocks 0).currentPageOffset < g.pagesPerBlock

theorem Orderly.served {g : Geometry} {ret : ℤ} (hO : Orderly g P s) (hret : ret = b)
    (hb : b < g.nbBlocks) (hun : s.Unlisted b) (hpos : 0 < (s.blocks b).currentPageOffset)
    (hlt : (s.blocks b).currentPageOffset < g.pagesPerBlock) : Served g s ret :=
  .inr ⟨b, hret, hb, hun, hpos, hlt, (hO.on.block b hb hun).unwritten _ le_rfl hlt⟩

theorem Orderly.healthy {g : Geometry} (hO : Orderly g P s) (hb : getHealthyBlock g s = some b) :
    b < g.nbBlocks ∧ s.Unlisted b ∧ (s.blocks b).currentPageOffset < g.pagesPerBlock := by
  obtain ⟨hlt, hord, ho⟩ := Space.mem_openData.mp (getHealthyBlock_some hb)
  exact ⟨hlt, hO.unlisted hord, ho⟩

/-- The call keeps the ledger, and what it returns is right exactly under `PickOk`. -/
theorem getNextBlockToWrite_orderly {ret : ℤ} (hO : Orderly env.toGeometry P s)
    (he : getNextBlockToWrite env s = .ok (ret, s')) : Orderly env.toGeometry P s' ∧
      (ret ≠ -1 → s.readOnly = false → s'.readOnly = false) ∧
        (Served env.toGeometry s' ret ↔ PickOk env.toGeometry s) := by
  have hcode := getNextBlockToWrite_code he
  obtain ⟨hnone, rfl, rfl⟩ | ⟨b, hb, ⟨hpos, rfl, rfl⟩ | ⟨h0, hhdr⟩⟩ := getNextBlockToWrite_ok he
  · exact ⟨hO, fun h => absurd rfl h, fun _ => .inl (hcode.mp rfl), fun _ => .inl rfl⟩
  · obtain ⟨hlt, hun, ho⟩ := hO.healthy hb
    have hO' : Orderly env.toGeometry P (s.setState b .blkUsed) := hO.setState _ _
    have hofs := (SameLedger.setState s b .blkUsed).offset b
    refine ⟨hO', fun _ => id, fun _ => .inr fun c hc => ?_, fun _ => ?_⟩
    · obtain rfl := Option.some.inj (hb.symm.trans hc)
      exact .inl hpos
    · exact hO'.served rfl hlt hun (by rwa [hofs]) (by rwa [hofs])
  · obtain ⟨hlt, hun, ho⟩ := hO.healthy hb
    have hO₁ : Orderly env.toGeometry P (s.setState b .blkUsed) := hO.setState _ _
    have hsame := SameLedger.setState s b .blkUsed
    have hO' := writeHdr_orderly hO₁ ((hsame.offset b).trans h0) hhdr
    obtain ⟨-, rfl, -⟩ | ⟨-, hwrite, hret⟩ := writeHdr_space hhdr
    · exact ⟨hO', fun h => absurd rfl h, fun _ => .inl (hcode.mp rfl), fun _ => .inl rfl⟩
    · rw [setState_space, Nat.mul_div_cancel _ env.pagesPerBlock_pos] at hwrite
      have hofs : ∀ c, (s'.blocks c).currentPageOffset =
          if c = b then 1 else (s.blocks c).currentPageOffset := by
        intro c
        have hc : (s'.blocks c).currentPageOffset = (s.space.write env.toGeometry b).offset c :=
          congrArg (fun x => Space.offset x c) hwrite
        rw [hc]
        split
        · next hcb =>
          rw [hcb, Space.write_offset_self]
          exact congrArg (· + 1) h0
        · next hcb => exact Space.write_offset_ne hcb
      have hord : s'.metaBlkordr = s.metaBlkordr := congrArg Space.order hwrite
      have hun' : ∀ c, s'.Unlisted c ↔ s.Unlisted c := fun c => by
        rw [Config.Unlisted, Config.Unlisted, hord]
      refine ⟨hO', fun hne _ => ?_, ?_⟩
      · by_contra hro
        rw [if_pos (eq_true_of_ne_false hro)] at hret
        exact hne hret
      · by_cases hfull : ret = -1
        · exact ⟨fun _ => .inl (hcode.mp hfull), fun _ => .inl hfull⟩
        · have hzero : ret = 0 := by
            rw [hret] at hfull ⊢
            exact if_neg fun h => hfull (if_pos h)
          subst hzero
          have hppb := env.two_le_pagesPerBlock
          constructor
          · rintro (hneg | ⟨c, hc, -, hc', hpos, hlt', -⟩)
            · exact absurd hneg hfull
            · obtain rfl : c = 0 := by omega
              rw [hofs] at hpos hlt'
              refine .inr fun d hd => ?_
              obtain rfl := Option.some.inj (hb.symm.trans hd)
              by_cases hb0 : b = 0
              · exact .inr (.inl hb0)
              · rw [if_neg (Ne.symm hb0)] at hpos hlt'
                exact .inr (.inr ⟨(hun' 0).mp hc', hpos, hlt'⟩)
          · rintro (hno | hpick)
            · exact absurd (hcode.mpr hno) hfull
            · have h0' := hofs 0
              obtain hpos | rfl | ⟨hun0, hpos, hlt0⟩ := hpick b hb
              · omega
              · rw [if_pos rfl] at h0'
                exact hO'.served (b := 0) rfl hlt ((hun' 0).mpr hun) (by omega) (by omega)
              · have hne : 0 ≠ b := by
                  rintro rfl
                  omega
                rw [if_neg hne] at h0'
                exact hO'.served (b := 0) rfl env.nbBlocks_pos ((hun' 0).mpr hun0) (by omega) (by omega)

/-! ## `set_keyval` -/

/-- The page that was written last is a data page of block `b`, behind its header, not programmed before, and
the page of one valid bucket, which has the key. -/
def Recorded (g : Geometry) (key : CStr) (b : ℕ) (s s' : Config) : Prop :=
  ∃ h data, s'.Valid g h ∧ (s'.hashtable h).key = key ∧ s'.blkOf g h = b ∧ s'.Unlisted b ∧
    0 < (s'.hashtable h).index % g.pagesPerBlock ∧
    s'.mtd = .program (s'.hashtable h).index data :: s.mtd ∧
    programmed s.mtd (s'.hashtable h).index = false ∧
    ∀ j, s'.Valid g j → (s'.hashtable j).index = (s'.hashtable h).index → j = h

/-- What the records of accepted pairs have of `P`. -/
def Records (g : Geometry) (P : CStr → List Byte → Prop) : Prop :=
  ∀ key val : CStr, key.len < keyRoom → 8 + key.len + val.len ≤ g.pageSize → P key (record g key val)

theorem storeAt_orderly {code : ℤ} (hP : Records env.toGeometry P) (hO : Orderly env.toGeometry P s)
    (hsize : 8 + key.len + val.len ≤ env.pageSize) (hb : b < env.nbBlocks) (hun : s.Unlisted b)
    (hpos : 0 < (s.blocks b).currentPageOffset) (hlt : (s.blocks b).currentPageOffset < env.pagesPerBlock)
    (hro : s.readOnly = false) (he : storeAt env key val b s = .ok (code, s')) :
    Orderly env.toGeometry P s' ∧ Recorded env.toGeometry key b s s' := by
  obtain ⟨hroom, h, t, hE, rfl⟩ := storeAt_stored hro he
  have hlen : (record env.toGeometry key val).length ≤ env.pageSize :=
    (Serial.record_holds hsize).length.le
  have hO' := hO.on.stored hb hun hpos hlt rfl hlen (hP key val hroom hsize) hE
  refine ⟨⟨hO', hO.ranks⟩, h, record env.toGeometry key val, hE.valid.mpr (.inr rfl), ?_, ?_, hun, ?_, ?_, ?_,
    fun j hj he' => hO'.inj j h hj (hE.valid.mpr (.inr rfl)) he'⟩
  all_goals simp only [Config.blkOf, stored_hashtable, stored_mtd, hE.self]
  · rfl
  · exact Geometry.page_div hlt
  · exact (Geometry.page_mod hlt).symm ▸ hpos
  · rfl
  · exact (hO.on.block b hb hun).unwritten _ le_rfl hlt

/-- The condition on a set: where it gets to `get_next_block_to_write`, this returns the block. -/
def SetPickOk (env : Env) (s : Config) : Option CStr → Option CStr → Prop
  | some key, some val => key.len + val.len + 8 ≤ env.pageSize → s.readOnly = false →
      PickOk env.toGeometry s
  | _, _ => True

/-- Where a record goes does not depend on the page that is invalidated before. -/
theorem invalidOld_pickOk {u : PUnit} (he : withLock .listLock (invalidOld env key) s = .ok (u, s')) :
    PickOk env.toGeometry s' ↔ PickOk env.toGeometry s := by
  have hspace := (space_withLock (invalidOld_space key)).eq he
  have hofs : ∀ b, (s'.blocks b).currentPageOffset = (s.blocks b).currentPageOffset := fun b =>
    congrArg (fun x => Space.offset x b) hspace
  have hord : s'.metaBlkordr = s.metaBlkordr := congrArg Space.order hspace
  rw [PickOk, PickOk, (invalidOld_noBlock key).of_ok he, getHealthyBlock_space hspace]
  simp only [hofs, Config.Unlisted, hord]

theorem setWrite_orderly {x : SetExit} (hP : Records env.toGeometry P) (hO : Orderly env.toGeometry P s)
    (hsize : 8 + key.len + val.len ≤ env.pageSize) (hro : s.readOnly = false)
    (hpick : PickOk env.toGeometry s) (he : setWrite env key val s = .ok (x, s')) :
    Orderly env.toGeometry P s' := by
  obtain ⟨_, s₁, ret, s₂, he₁, he₂, hend⟩ := setWrite_ok he
  have hO₁ := withLock_orderly hO (fun _ hO he => invalidOld_orderly hO he) he₁
  have hro₁ : s₁.readOnly = false :=
    (congrArg Space.readOnly ((space_withLock (invalidOld_space key)).eq he₁)).trans hro
  obtain ⟨hO₂, hro₂, hserved⟩ := getNextBlockToWrite_orderly hO₁ he₂
  obtain ⟨-, -, rfl⟩ | ⟨hne, code, s₃, he₃, -, rfl⟩ := hend
  · exact hO₂
  · obtain hneg | ⟨b, rfl, hb, hun, hpos, hlt, -⟩ := hserved.mpr ((invalidOld_pickOk he₁).mpr hpick)
    · exact absurd hneg hne
    · rw [Int.toNat_natCast] at he₃
      have hO₃ := (storeAt_orderly hP hO₂ hsize hb hun hpos hlt (hro₂ hne hro₁) he₃).1
      exact hO₃.congr (.of_blocks rfl rfl rfl) rfl

/-- A set up to `gc_check`. -/
theorem setStore_orderly {k v : Option CStr} {x : SetExit} (hP : Records env.toGeometry P)
    (hO : Orderly env.toGeometry P s) (hpick : SetPickOk env s k v)
    (he : setStore env k v s = .ok (x, s')) : Orderly env.toGeometry P s' := by
  obtain ⟨-, key, val, rfl, rfl, ⟨-, -, rfl⟩ | ⟨-, -, -, rfl⟩ | ⟨hsize, hro, hwrite⟩⟩ := setStore_ok he
  · exact hO.lock _ _
  · exact (hO.lock _ _).lock _ _
  · exact setWrite_orderly hP (hO.lock .eraseLock true) (by omega) hro (hpick hsize hro) hwrite

/-! ## `flush_metadata` -/

section Flush
variable {pre : ℕ → Option ℕ} {k w : ℕ}

/-- A block for data while the entries below `k` have been filled: no entry has it, and none of the old ones
still to be erased. -/
def Config.Spared (g : Geometry) (pre : ℕ → Option ℕ) (k : ℕ) (s : Config) (b : ℕ) : Prop :=
  s.Unlisted b ∧ ∀ j, k ≤ j → j < nbMetaBlocks g → pre j ≠ some b

/-- The ledger while a flush chooses its blocks. -/
structure Choosing (g : Geometry) (P : CStr → List Byte → Prop) (pre : ℕ → Option ℕ) (k : ℕ) (s : Config) :
    Prop where
  on : OrderlyOn g P (s.Spared g pre k) s
  ranks : ∀ j b, s.metaBlkordr j = some b → j < nbProbed g
  rest : ∀ j, k ≤ j → j < nbMetaBlocks g → s.metaBlkordr j = none

theorem Orderly.choosing {g : Geometry} (hO : Orderly g P s) :
    Choosing g P s.metaBlkordr 0 (clearOrder (nbMetaBlocks g) s) := by
  have hspared : (clearOrder (nbMetaBlocks g) s).Spared g s.metaBlkordr 0 = s.Unlisted := by
    funext b
    refine propext ⟨fun ⟨hun, hold⟩ j hj => ?_, fun hun => ⟨fun j hj => ?_, fun j _ _ => hun j⟩⟩
    · by_cases hlt : j < nbMetaBlocks g
      · exact hold j (Nat.zero_le _) hlt hj
      · exact hun j ((if_neg hlt).trans hj)
    · by_cases hlt : j < nbMetaBlocks g
      · cases (if_pos hlt).symm.trans hj
      · exact hun j ((if_neg hlt).symm.trans hj)
  refine ⟨?_, fun j b hj => ?_, fun j _ hj => if_pos hj⟩
  · rw [hspared]
    exact hO.on.congr (.of_blocks rfl rfl rfl)
  · by_cases hlt : j < nbMetaBlocks g
    · cases (if_pos hlt).symm.trans hj
    · exact hO.ranks j b ((if_neg hlt).symm.trans hj)

/-- The old metadata block is erased, if there is one: it may be used for data. -/
theorem formatEntry_orderlyOn (hdrv : env.NoDriverError) {D : ℕ → Prop} {o : Option ℕ} {u : PUnit}
    (hO : OrderlyOn env.toGeometry P D s) (hold : ∀ b, o = some b → ¬ D b)
    (he : formatEntry env o s = .ok (u, s')) :
    OrderlyOn env.toGeometry P (fun b => D b ∨ o = some b) s' ∧ s'.metaBlkordr = s.metaBlkordr ∧
      ∀ h, s'.Valid env.toGeometry h → s.Valid env.toGeometry h ∧
        s'.blkOf env.toGeometry h = s.blkOf env.toGeometry h := by
  cases o with
  | none =>
    obtain ⟨-, rfl⟩ := pure_ok.mp he
    exact ⟨hO.mono (fun b hb => hb.resolve_right nofun) fun h hv => .inl (hO.data h hv), rfl,
      fun h hv => ⟨hv, rfl⟩⟩
  | some b =>
    obtain ⟨ret, s₁, he₁, hend⟩ := bind_ok.mp he
    obtain ⟨-, rfl⟩ := pure_ok.mp hend
    obtain ⟨-, -, rfl⟩ | ⟨hfail, -, -⟩ := formatSingle_ok he₁
    · have hwiped := hO.wiped fun h hv (hb : s.blkOf env.toGeometry h = b) =>
        hold b rfl (hb ▸ hO.data h hv)
      refine ⟨hwiped.mono (fun c hc => hc.imp_right fun h => (Option.some.inj h).symm)
        fun h hv => .inl (hO.data h hv), rfl, fun h hv => ⟨hv, rfl⟩⟩
    · exact absurd (hdrv.erase _ _ _) hfail

/-- A block for data once `w` is chosen was one before, or is the old block of the entry. -/
theorem Choosing.spared {g : Geometry} {s₁ : Config} (hC : Choosing g P pre k s) (hk : k < nbMetaBlocks g)
    (hord : s₁.metaBlkordr = s.metaBlkordr) {b : ℕ}
    (hb : Config.Spared g pre (k + 1) { s₁ with metaBlkordr := Function.update s₁.metaBlkordr k (some w) } b) :
    s.Spared g pre k b ∨ pre k = some b := by
  obtain ⟨hun, hold⟩ := hb
  by_cases hpre : pre k = some b
  · exact .inr hpre
  · refine .inl ⟨fun j hj => ?_, fun j hkj hj => ?_⟩
    · have hjk : j ≠ k := by
        rintro rfl
        rw [hC.rest j le_rfl hk] at hj
        cases hj
      exact hun j ((Function.update_of_ne hjk _ _).trans ((congrFun hord j).trans hj))
    · obtain rfl | hlt := Nat.eq_or_lt_of_le hkj
      · exact hpre
      · exact hold j hlt hj

/-- One block is chosen. -/
theorem Choosing.step (hdrv : env.NoDriverError) {u : PUnit} {s₁ : Config}
    (hC : Choosing env.toGeometry P pre k s) (hk : k < nbMetaBlocks env.toGeometry)
    (hw : (s.blocks w).currentPageOffset = 0)
    (he : formatEntry env (pre k) (s.setState w .blkUsed) = .ok (u, s₁)) :
    Choosing env.toGeometry P pre (k + 1)
      { s₁ with metaBlkordr := Function.update s₁.metaBlkordr k (some w) } := by
  obtain ⟨hon, hord, hvalid⟩ := formatEntry_orderlyOn hdrv (hC.on.congr (.setState s w .blkUsed))
    (fun b hb hD => hD.2 k le_rfl hk hb) he
  have hord : s₁.metaBlkordr = s.metaBlkordr := hord
  refine ⟨?_, fun j b hj => ?_, fun j hkj hj => ?_⟩
  · refine OrderlyOn.congr (s := s₁) ?_ (.of_blocks rfl rfl rfl)
    refine hon.mono (fun b hb => hC.spared hk hord hb) fun h hv => ?_
    obtain ⟨hv₀, hblk⟩ := hvalid h hv
    have hv₀ : s.Valid env.toGeometry h := hv₀
    have hblk : s₁.blkOf env.toGeometry h = s.blkOf env.toGeometry h := hblk
    obtain ⟨hun, hold⟩ := hC.on.data h hv₀
    rw [hblk]
    refine ⟨fun j hj => ?_, fun j hkj hj => hold j (by omega) hj⟩
    by_cases hjk : j = k
    · subst hjk
      have hsome := (Function.update_self j (some w) s₁.metaBlkordr).symm.trans hj
      exact hC.on.blkOf_ne hw hv₀ (Option.some.inj hsome).symm
    · exact hun j ((congrFun hord j).symm.trans ((Function.update_of_ne hjk _ _).symm.trans hj))
  · by_cases hjk : j = k
    · rw [hjk]
      exact hk.trans_le (nbMetaBlocks_le_nbProbed _)
    · have hj₀ := (Function.update_of_ne hjk _ _).symm.trans hj
      exact hC.ranks j b ((congrFun hord j).symm.trans hj₀)
  · have hjk : j ≠ k := by omega
    exact (Function.update_of_ne hjk _ _).trans ((congrFun hord j).trans (hC.rest j (by omega) hj))

/-- The selection loop. -/
theorem flushSelect_choosing (hdrv : env.NoDriverError) {r : ℕ} (hC : Choosing env.toGeometry P pre 0 s)
    (he : flushSelect env pre (List.range env.nbBlocks) 0 s = .ok (r, s')) :
    Choosing env.toGeometry P pre r s' :=
  (flushSelect_invariant (I := Choosing env.toGeometry P pre)
    (fun _ _ _ _ _ hk hC hw he₁ => hC.step hdrv hk (flushCandidate_iff.mp hw).1 he₁)
    (fun _ hi => List.mem_range.mp hi) (Nat.succ_pos _) hC he).1

/-- A page of a listed block. -/
theorem Orderly.listed {g : Geometry} {p : ℕ} {buf : List Byte} (hO : Orderly g P s)
    (hb : s.metaBlkordr k = some (p / g.pagesPerBlock)) : Orderly g P (programPage g p buf s) :=
  ⟨hO.on.elsewhere fun hun => hun k hb, hO.ranks⟩

theorem writePage_listed {p : ℕ} {buf : List Byte} {ret : ℤ} (hO : Orderly env.toGeometry P s)
    (hb : s.metaBlkordr k = some (p / env.pagesPerBlock)) (he : writePage env p buf s = .ok (ret, s')) :
    Orderly env.toGeometry P s' ∧ s'.metaBlkordr = s.metaBlkordr := by
  obtain ⟨-, -, rfl⟩ | ⟨-, -, -, -, rfl⟩ := writePage_ok he
  · exact ⟨hO, rfl⟩
  · have hO₁ : Orderly env.toGeometry P (programPage env.toGeometry p buf s) := hO.listed hb
    exact ⟨hO₁.congr (.of_blocks rfl rfl rfl) rfl, rfl⟩

theorem flushHeader_orderly {i jackOfs : ℕ} {ret : ℤ} {r : ℕ × ℤ} (hO : Orderly env.toGeometry P s)
    (he : flushHeader env i jackOfs ret s = .ok (r, s')) : Orderly env.toGeometry P s' := by
  obtain ⟨-, -, -, b, hb, hhdr⟩ | ⟨-, -, rfl⟩ := flushHeader_ok he
  · obtain ⟨-, -, rfl⟩ | ⟨-, -, s₁, he₁, rfl⟩ := writeHdr_ok hhdr
    · exact hO
    · have hdiv : b * env.pagesPerBlock / env.pagesPerBlock = b :=
        Nat.mul_div_cancel _ env.pagesPerBlock_pos
      exact (writePage_listed hO (by rw [hdiv]; exact hb) he₁).1.setState _ _
  · exact hO

theorem flushPage_orderly {i jackOfs : ℕ} {ret : ℤ} {r : ℕ × ℤ × List Byte}
    (hO : Orderly env.toGeometry P s) (he : flushPage env i jackOfs ret s = .ok (r, s')) :
    Orderly env.toGeometry P s' := by
  obtain ⟨-, s₁, b, he₁, hb, he₂⟩ := flushPage_ok he
  exact (writePage_listed (flushHeader_orderly hO he₁) (by rw [Geometry.page_div (dataPg_lt _ i)]; exact hb) he₂).1

theorem flushWrite_orderly : ∀ {is : List ℕ} {jackOfs : ℕ} {ret : ℤ} {r : ℤ × List (List Byte)}
    {s s' : Config}, Orderly env.toGeometry P s → flushWrite env is jackOfs ret s = .ok (r, s') →
      Orderly env.toGeometry P s'
  | [], _, _, _, _, _, hO, he => by
    obtain ⟨-, rfl⟩ := pure_ok.mp he
    exact hO
  | i :: is, _, _, _, _, _, hO, he => by
    obtain ⟨x, s₁, he₁, hrest⟩ := bind_ok.mp he
    obtain ⟨r₂, s₂, he₂, hend⟩ := bind_ok.mp hrest
    obtain ⟨-, rfl⟩ := pure_ok.mp hend
    exact flushWrite_orderly (flushPage_orderly hO he₁) he₂

theorem markUsed_ledger (n : ℕ) (s : Config) : SameLedger s (markUsed n s) where
  table := markUsed_view (v := Config.hashtable) (fun _ _ => rfl) n s
  mtd := markUsed_view (v := Config.mtd) (fun _ _ => rfl) n s
  list b := markUsed_view (v := fun s => (s.blocks b).list)
    (fun s c => (SameLedger.setState s c .blkUsed).list b) n s
  nbInvalid b := markUsed_view (v := fun s => (s.blocks b).nbInvalid)
    (fun s c => (SameLedger.setState s c .blkUsed).nbInvalid b) n s
  offset b := markUsed_view (v := fun s => (s.blocks b).currentPageOffset)
    (fun s c => (SameLedger.setState s c .blkUsed).offset b) n s

theorem flushLocked_orderly (hdrv : env.NoDriverError) {ret : ℤ} (hO : Orderly env.toGeometry P s)
    (he : flushLocked env s = .ok (ret, s')) : Orderly env.toGeometry P s' := by
  obtain ⟨r, s₁, s₂, pages, hr, he₁, he₂, rfl⟩ := flushLocked_ok he
  have hC := flushSelect_choosing hdrv hO.choosing he₁
  -- all the old blocks have been erased
  have hO₁ : Orderly env.toGeometry P s₁ :=
    ⟨hC.on.mono (fun b hun => ⟨hun, fun j h1 h2 => absurd h2 (by omega)⟩)
      fun h hv => (hC.on.data h hv).1, hC.ranks⟩
  have hmark : Orderly env.toGeometry P (markUsed (nbMetaBlocks env.toGeometry) (s₁.lock .listLock true)) :=
    (hO₁.lock .listLock true).congr (markUsed_ledger _ _)
      (markUsed_view (v := Config.metaBlkordr) (fun _ _ => rfl) _ _)
  exact (flushWrite_orderly (hmark.lock .listLock false) he₂).congr (.of_blocks rfl rfl rfl) rfl

/-- What the ledger is about. -/
def Config.ledger (s : Config) : (ℕ → BlkInfo) × (ℕ → Bucket) × (ℕ → Option ℕ) × History :=
  (s.blocks, s.hashtable, s.metaBlkordr, s.mtd)

theorem Orderly.of_ledger {g : Geometry} (hO : Orderly g P s) (h : s'.ledger = s.ledger) :
    Orderly g P s' := by
  rw [Config.ledger, Config.ledger, Prod.mk.injEq, Prod.mk.injEq, Prod.mk.injEq] at h
  exact hO.congr (.of_blocks h.1 h.2.1 h.2.2.2) h.2.2.1

/-- `flush_metadata` keeps the ledger. -/
theorem flushMetadata_orderly (hdrv : env.NoDriverError) {force : Bool} {ret : ℤ}
    (hO : Orderly env.toGeometry P s) (he : flushMetadata env force s = .ok (ret, s')) :
    Orderly env.toGeometry P s' := by
  obtain ⟨-, n, rfl⟩ | ⟨-, -, b, n, s₁, he₁, rfl⟩ := flushMetadata_ok he
  · exact hO.of_ledger rfl
  · refine (flushLocked_orderly hdrv ?_ he₁).of_ledger rfl
    exact hO.of_ledger rfl

theorem flushIfNeeded_orderly (hdrv : env.NoDriverError) {u : PUnit} (hO : Orderly env.toGeometry P s)
    (he : flushIfNeeded env s = .ok (u, s')) : Orderly env.toGeometry P s' := by
  obtain rfl | ⟨-, ret, he₁⟩ := flushIfNeeded_ok he
  · exact hO.of_ledger rfl
  · refine flushMetadata_orderly hdrv ?_ he₁
    exact hO.of_ledger rfl

end Flush

/-! ## `get_keyval` -/

theorem ledger_withLock {α : Type} {l : Lock} {m : Kernel α} (h : Stable Config.ledger m) :
    Stable Config.ledger (withLock l m) := withLock_stable (fun _ _ => rfl) h

theorem getKeyval_ledger (key : Option CStr) : Stable Config.ledger (getKeyval env key) := by
  have hread : ∀ p, Stable Config.ledger (readPage env p) := fun p =>
    ledger_withLock (.get fun _ => .ite (.throw _) (.pure _))
  refine ledger_withLock (ledger_withLock (.bind ?_ fun k => .get fun s => ?_))
  · cases key with
    | none => exact .throw _
    | some k => exact .pure _
  · split
    · exact .pure _
    · exact .ite (.ite (.pure _) (.bind (hread _) fun _ => .ite (.pure _) (.pure _))) (.pure _)

end LkpProjects.Parallel
