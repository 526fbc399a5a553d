import LkpProjects.Serial.MapContract
import LkpProjects.Serial.FlushCut
import LkpProjects.Serial.BufferBounds

/-! # The serial store: power loss during a flush

A flush erases the blocks of the previous metadata one after the other, then writes header and pages of
the new ones block by block. A power loss leaves the flash at some point of that sequence. What the
next mount finds depends on the point alone (`CutOutcome`): the old table before the first erase, no
table between the erases, a device to format between the last erase and the first header, and the new
table once all of its pages are written. A session keeps track of the table that was flushed last
(`SessionStep`); its image stays on the flash while the operations leave metadata blocks alone.
-/
namespace LkpProjects.Serial
open Nand Bytes Stepwise
set_option autoImplicit false

variable {env : Env} {s s' snap t : Config} {f : ℕ → ℕ} {mtd mtd' : History} {T : ℕ → Bucket}

/-! ## The image between flushes -/

/-- The flash holds a mountable image of the table `T`, in the blocks that `meta_blkordr` lists. -/
structure SavedIn (env : Env) (f : ℕ → ℕ) (snap : Config) (T : ℕ → Bucket) (s : Config) : Prop where
  image : Image env env.nbMetaBlocks f snap s.mtd
  decodable : Decodable env.toGeometry snap
  table : snap.hashtable = T
  ord : ∀ i, s.metaBlkordr i = if i < env.nbMetaBlocks then some (f i) else none
  state : ∀ i < env.nbMetaBlocks, (s.blocks (f i)).state = .blkMeta

def Saved (env : Env) (T : ℕ → Bucket) (s : Config) : Prop := ∃ f snap, SavedIn env f snap T s

/-- Moves that leave metadata blocks alone leave their pages as they are. -/
theorem Move.content_meta {ok : ℕ → Prop} (hok : ∀ b, ok b → (s.blocks b).state ≠ .blkMeta)
    (hm : Move env ok s s') {p : ℕ} (hp : (s.blocks (p / env.pagesPerBlock)).state = .blkMeta) :
    content env.pageSize s'.mtd p = content env.pageSize s.mtd p := by
  have hne : ∀ b, ok b → p / env.pagesPerBlock ≠ b := by
    rintro b hb rfl
    exact hok _ hb hp
  cases hm with
  | dropped => rfl
  | @opened _ b hokb _ _ hO =>
    rw [hO.mtd]
    exact content_program_ne (Inv.ne_first (hne b hokb))
  | @stored _ _ _ b _ hokb _ _ ho hS =>
    rw [hS.mtd]
    refine content_program_ne ?_
    rintro rfl
    exact hne b hokb (Geometry.page_div ho)
  | @reopened _ b hokb _ hR =>
    rw [hR.mtd, content_program_ne (Inv.ne_first (hne b hokb))]
    exact content_erase_not_mem (mt Geometry.mem_block_iff.mp (hne b hokb))

theorem BlockInv.content_meta {ok : ℕ → Prop} (hB : BlockInv env s)
    (hok : ∀ b, ok b → (s.blocks b).state ≠ .blkMeta) (hm : Moves env ok s s') {p : ℕ}
    (hp : (s.blocks (p / env.pagesPerBlock)).state = .blkMeta) :
    content env.pageSize s'.mtd p = content env.pageSize s.mtd p := by
  refine (Moves.preserves (I := fun s₁ => (BlockInv env s₁ ∧ SameMeta s s₁) ∧
    content env.pageSize s₁.mtd p = content env.pageSize s.mtd p) (fun s₁ s₂ hI h₁ => ?_) hm
    ⟨⟨hB, rfl, fun _ => Iff.rfl⟩, rfl⟩).2
  obtain ⟨⟨hB₁, hS⟩, hc⟩ := hI
  have hok₁ : ∀ b, ok b → (s₁.blocks b).state ≠ .blkMeta := fun b hb => mt (hS.state b).mp (hok b hb)
  obtain ⟨hB₂, hord, hst⟩ := hB₁.move hok₁ h₁
  exact ⟨⟨hB₂, hord.trans hS.ord, fun b => (hst b).trans (hS.state b)⟩,
    (h₁.content_meta hok₁ ((hS.state _).mpr hp)).trans hc⟩

/-- An image is read from its own blocks, as long as no other block gets a metadata header. -/
theorem Image.frame {cnt : ℕ} (hIm : Image env cnt f snap mtd)
    (hsame : ∀ p, (∃ i < cnt, f i = p / env.pagesPerBlock) →
      content env.pageSize mtd' p = content env.pageSize mtd p)
    (hothers : ∀ b < env.nbBlocks, (∀ i < cnt, f i ≠ b) → rankAt env mtd' b = none) :
    Image env cnt f snap mtd' where
  le := hIm.le
  covers := hIm.covers
  lt := hIm.lt
  inj := hIm.inj
  header i hi := by
    rw [rankAt_congr (hsame _ ⟨i, hi, (Nat.mul_div_cancel _ env.pagesPerBlock_pos).symm⟩)]
    exact hIm.header i hi
  pages i hi j hj hp := by
    rw [hsame _ ⟨i, hi, (Geometry.page_div (by omega)).symm⟩]
    exact hIm.pages i hi j hj hp
  others := hothers

theorem SavedIn.moves {ok : ℕ → Prop} (hT : SavedIn env f snap T s) (hB : BlockInv env s)
    (hok : ∀ b, ok b → (s.blocks b).state ≠ .blkMeta) (hm : Moves env ok s s') :
    SavedIn env f snap T s' := by
  obtain ⟨hB', hS⟩ := hB.moves hok hm
  refine ⟨hT.image.frame (fun p hp => ?_) (fun b hb hne => ?_), hT.decodable, hT.table,
    fun i => by rw [hS.ord]; exact hT.ord i, fun i hi => (hS.state _).mpr (hT.state i hi)⟩
  · obtain ⟨i, hi, hp⟩ := hp
    exact hB.content_meta hok hm (hp ▸ hT.state i hi)
  · refine hB'.header b hb fun hst => ?_
    obtain ⟨i, hi, hib⟩ := hB'.metaListed b hb hst
    rw [hS.ord, hT.ord, if_pos hi] at hib
    exact hne i hi (Option.some.inj hib)

theorem Saved.moves {ok : ℕ → Prop} (hT : Saved env T s) (hB : BlockInv env s)
    (hok : ∀ b, ok b → (s.blocks b).state ≠ .blkMeta) (hm : Moves env ok s s') : Saved env T s' := by
  obtain ⟨f, snap, hT⟩ := hT
  exact ⟨f, snap, hT.moves hB hok hm⟩

namespace ContractInv
variable {m : CStr → Option CStr}

theorem saved (hC : ContractInv env s m) (hF : Flushed env f s snap s')
    (hok : FlushOk env.toGeometry s) : Saved env s.hashtable s' :=
  ⟨f, snap, hC.blocks.image hF, hC.decodable hF hok, hF.snapTable,
    fun i => by rw [hF.ord, hF.snapOrd], fun i hi => by rw [hF.blocks, if_pos ⟨i, hi, rfl⟩]⟩

theorem saved_mounted (hC : ContractInv env s m) (hF : Flushed env f s snap s')
    (hok : FlushOk env.toGeometry s) (hM : Mounted env env.nbMetaBlocks f snap s'.mtd t) :
    Saved env s.hashtable t :=
  ⟨f, snap, hM.mtd ▸ hC.blocks.image hF, hC.decodable hF hok, hF.snapTable, hM.ord,
    fun i hi => by rw [hM.blocks _ (hF.lt i hi), hF.snapBlocks, if_pos ⟨i, hi, rfl⟩]⟩

end ContractInv

/-! ## Sessions -/

/-- The table that was flushed last, after an operation. -/
def savedAfter (env : Env) (s s' : Config) (saved : Option (ℕ → Bucket)) :
    Request → Option (ℕ → Bucket)
  | .set key val elapsed =>
      if elapsed = true ∧ key.len + val.len + 8 ≤ env.pageSize ∧ s.readOnly = false then
        some s'.hashtable
      else saved
  | .flush => some s.hashtable
  | .format => none
  | .reload => some s.hashtable
  | _ => saved

/-- An operation, and what is on the flash. -/
def SessionStep (env : Env) (p : Config × Option (ℕ → Bucket)) (e : Request × Result)
    (p' : Config × Option (ℕ → Bucket)) : Prop :=
  Step env p.1 e p'.1 ∧ p'.2 = savedAfter env p.1 p'.1 p.2 e.1

/-- The configuration represents some map, and the table flushed last is on the flash. -/
structure SessionInv (env : Env) (p : Config × Option (ℕ → Bucket)) : Prop where
  contract : ∃ m, ContractInv env p.1 m
  saved : ∀ T, p.2 = some T → Saved env T p.1

namespace SessionInv

/-- The timed flush of `set_keyval`. -/
theorem timed {m : CStr → Option CStr} (hC : ContractInv env s m) (hdrv : env.NoDriverError)
    {elapsed : Bool} (hok : elapsed = true → SafeFlush env.toGeometry s)
    (he : timedFlush env elapsed s = .ok s') :
    (elapsed = false ∧ s' = s) ∨ (elapsed = true ∧ Saved env s'.hashtable s') := by
  rcases timedFlush_cases he with ⟨hel, rfl⟩ | ⟨hel, ret, hf⟩
  · exact Or.inl ⟨hel, rfl⟩
  · obtain ⟨f, snap, s₁, h₁, hF, -⟩ := hC.flush hdrv (hok hel)
    rw [h₁] at hf
    obtain rfl := (Prod.mk.inj (Except.ok.inj hf)).2
    exact Or.inr ⟨hel, hF.table ▸ hC.saved hF (hok hel).ok⟩

theorem set {m : CStr → Option CStr} (hC : ContractInv env s m) (hdrv : env.NoDriverError)
    {saved : Option (ℕ → Bucket)} (hT : ∀ T, saved = some T → Saved env T s) {key val : CStr}
    {elapsed : Bool} {ret : ℤ} (hok : ContractOk env s (.set key val elapsed))
    (he : setKeyval env key val elapsed s = .ok (ret, s')) :
    ∀ T, savedAfter env s s' saved (.set key val elapsed) = some T → Saved env T s' := by
  intro T hsaved
  rw [savedAfter] at hsaved
  rcases setKeyval_cases he with ⟨hbig, -, rfl⟩ | ⟨hro, -, rfl⟩ | ⟨ret₁, s₁, s₂, hsize, hro, h₁, h₂, h₃, -⟩
  · rw [if_neg (by omega)] at hsaved
    exact hT T hsaved
  · rw [if_neg (by simp [hro])] at hsaved
    exact hT T hsaved
  · obtain ⟨hstore, hrest⟩ := (hok.2.resolve_left (by omega)).resolve_left (by simp [hro])
    obtain ⟨hgc, hflush⟩ := hrest ret₁ s₁ h₁
    have hle : 8 + key.len + val.len ≤ env.pageSize := by omega
    obtain ⟨s₁', h₁', hC₁⟩ := hC.storePhase hdrv hok.1 hle hro hstore
    obtain rfl := (Prod.mk.inj (Except.ok.inj (h₁.symm.trans h₁'))).2
    obtain ⟨s₂', h₂', hC₂⟩ := hC₁.gc hdrv hgc
    obtain rfl := Except.ok.inj (h₂.symm.trans h₂')
    rcases timed hC₂ hdrv (hflush s₂ h₂) h₃ with ⟨hel, rfl⟩ | ⟨hel, hS⟩
    · rw [if_neg (by simp [hel])] at hsaved
      obtain ⟨b, hb, hm⟩ := storePhase_moves hdrv hro h₁
      obtain ⟨c, hc, hst, -⟩ := hstore
      rw [hc] at hb
      obtain rfl := Option.some.inj hb
      have hS₁ := (hT T hsaved).moves hC.blocks (by rintro d rfl; exact hst) hm
      exact hS₁.moves hC₁.blocks (fun d hd => hC₁.gcTarget_ne_meta hd)
        (gc_moves hdrv (fun d hd => hC₁.inv.gcTarget_fits hd) h₂)
    · rw [if_pos ⟨hel, hsize, hro⟩] at hsaved
      obtain rfl := Option.some.inj hsaved
      exact hS

theorem step (hdrv : env.NoDriverError) (p : Config × Option (ℕ → Bucket)) (e : Request × Result)
    (p' : Config × Option (ℕ → Bucket)) (hP : SessionInv env p)
    (h : ContractOk env p.1 e.1 ∧ SessionStep env p e p') : SessionInv env p' := by
  obtain ⟨hok, hstep, hsaved⟩ := h
  obtain ⟨m, hC⟩ := hP.contract
  refine ⟨⟨_, hC.step hdrv hok hstep⟩, fun T hT => ?_⟩
  rw [hsaved] at hT
  rcases step_cases hstep with ⟨key, val, elapsed, hreq, h⟩ | ⟨key, hreq, -, hs⟩ | ⟨key, hreq, h⟩ |
    ⟨hreq, h⟩ | ⟨hreq, h⟩ | ⟨hreq, h⟩ | ⟨hreq, h⟩
  · rw [hreq] at hok hT
    exact set hC hdrv hP.saved hok h T hT
  · rw [hreq] at hT
    rw [hs]
    exact hP.saved T hT
  · rw [hreq] at hT
    exact (hP.saved T hT).moves hC.blocks (fun _ hb => False.elim hb) (delKey_moves h)
  · rw [hreq] at hT
    exact (hP.saved T hT).moves hC.blocks (fun d hd => hC.gcTarget_ne_meta hd)
      (gc_moves hdrv (fun d hd => hC.inv.gcTarget_fits hd) h)
  · rw [hreq] at hok hT
    obtain rfl := Option.some.inj hT
    obtain ⟨f, snap, s₁, h₁, hF, -⟩ := hC.flush hdrv hok
    rw [h₁] at h
    rw [← (Prod.mk.inj (Except.ok.inj h)).2]
    exact hC.saved hF hok.ok
  · rw [hreq] at hT
    cases hT
  · rw [hreq] at hok hT
    obtain rfl := Option.some.inj hT
    obtain ⟨f, snap, s₁, h₁, hF, -⟩ := hC.flush hdrv hok.1
    rw [Serial.reload, h₁] at h
    exact hC.saved_mounted hF hok.1.ok ((hC.blocks.image hF).mount_ok hdrv h).2

end SessionInv

/-! ## The cut -/

/-- A mount of `mtd` succeeds with the hash table `T`, and leaves the flash as it is. -/
def Mounts (env : Env) (mtd : History) (T : ℕ → Bucket) : Prop :=
  ∃ w, Words.initScan env mtd = .ok (0, w) ∧ w.mtd = mtd ∧ ∀ h < env.hashSize, (w.hashtable h).Is (T h)

/-- `k` device operations into a flush, a mount reads beyond the memory of its buffer: all headers are
written, and there is no room for the pages of all blocks. -/
def Overruns (env : Env) (k : ℕ) : Prop :=
  ¬ env.RoomToMount ∧ (k = 0 ∨ env.nbMetaBlocks + (env.nbMetaBlocks - 1) * env.pagesPerBlock < k)

/-- What a mount finds `k` device operations into a flush of the table `T'`, over a flash that held the
table `T`. -/
structure CutOutcome (env : Env) (T T' : ℕ → Bucket) (k : ℕ) (mtd : History) : Prop where
  overruns : Overruns env k → Words.initScan env mtd = .error .overflow
  untouched : k = 0 → ¬ Overruns env k → Mounts env mtd T
  erasing : 0 < k → k < env.nbMetaBlocks → (∀ ret w, Words.initScan env mtd = .ok (ret, w) → w.mtd = mtd) ∧
    ((∀ x < 0, env.outside x = none) → ∃ w, Words.initScan env mtd = .ok (-4, w))
  erased : k = env.nbMetaBlocks → ∃ w, Words.initScan env mtd = .ok (0, w) ∧
    w.mtd = .erase 0 env.hashSize :: mtd ∧ ∀ h, (w.hashtable h).pState = PageState.pgFree.code
  writing : env.nbMetaBlocks < k → ¬ Overruns env k →
    (∃ w, Words.initScan env mtd = .ok (0, w) ∧ w.mtd = mtd) ∨ Words.initScan env mtd = .error .outOfBounds
  written : (∀ y < env.nbMetaPages, env.nbMetaBlocks + writeNumber env.toGeometry y < k) →
    ¬ Overruns env k → Mounts env mtd T'

theorem Image.mounts {cnt : ℕ} (hIm : Image env cnt f snap mtd) (hdrv : env.NoDriverError)
    (hD : Decodable env.toGeometry snap) (hroom : cnt * (env.pagesPerBlock - 1) ≤ env.metaRoom) :
    Mounts env mtd snap.hashtable := by
  obtain ⟨t, he, hM⟩ := hIm.mount_total hdrv hD hroom
  obtain ⟨w, hw, hH⟩ := Words.initScan_of he
  obtain ⟨hH, htab⟩ := hH rfl
  refine ⟨w, hw, hH.mtd.trans hM.mtd, fun h hh => ?_⟩
  rw [← hM.hashtable_eq hD hh]
  exact htab hM.mtd h hh

/-- Less than all blocks leave room in any buffer. -/
theorem room_of_lt {cnt : ℕ} (h : cnt < env.nbMetaBlocks) : cnt * (env.pagesPerBlock - 1) ≤ env.metaRoom := by
  rw [← Geometry.sizes_nbMetaBlocks] at h
  exact (env.sizes.le_nbMetaPages h).trans (Geometry.sizes_nbMetaPages _ ▸ env.nbMetaPages_le)

namespace SavedIn

/-- The listed blocks, in the order in which the next flush erases them. -/
theorem listed (hT : SavedIn env f snap T s) :
    (List.range env.nbMetaBlocks).filterMap s.metaBlkordr = (List.range env.nbMetaBlocks).map f := by
  rw [← List.filterMap_eq_map]
  refine List.filterMap_congr fun i hi => ?_
  rw [hT.ord, if_pos (List.mem_range.mp hi)]
  rfl

/-- Before the writes: `k` of the erases are done. -/
theorem cut_erasing (hT : SavedIn env f snap T s) (hdrv : env.NoDriverError) (T' : ℕ → Bucket) {k : ℕ}
    (hk : k ≤ env.nbMetaBlocks) : CutOutcome env T T' k
      (replay (eraseOps env.toGeometry ((List.range k).map f)) s.mtd) := by
  have hrank := fun b (hb : b < env.nbBlocks) i => hT.image.rankAt_erasing (k := k) (i := i) hb
  have hpos := env.nbMetaBlocks_pos
  have hmul := Nat.le_mul_of_pos_right (env.nbMetaBlocks - 1) env.pagesPerBlock_pos
  have hover : Overruns env k → k = 0 ∧ env.metaRoom < env.nbMetaBlocks * (env.pagesPerBlock - 1) :=
    fun h => ⟨h.2.resolve_right (by omega), not_le.mp h.1⟩
  constructor
  case overruns =>
    intro h
    obtain ⟨rfl, hroom⟩ := hover h
    exact (Words.mount_headers hT.image.toHeaders hdrv hpos).1 hroom
  case untouched =>
    rintro rfl hover
    rw [← hT.table]
    exact hT.image.mounts hdrv hT.decodable (not_not.mp fun h => hover ⟨h, .inl rfl⟩)
  case erasing =>
    intro hpos hlt
    have hk := (hrank _ (hT.image.lt k hlt) k).mpr ⟨Nat.le_refl _, hlt, rfl⟩
    have hlater : ∀ c < env.nbBlocks, ∀ j, rankAt env (replay (eraseOps env.toGeometry ((List.range k).map f))
        s.mtd) c = some j → 0 < j ∧ j < env.nbMetaBlocks := by
      intro c hc j hj
      obtain ⟨hkj, hj, -⟩ := (hrank c hc j).mp hj
      exact ⟨by omega, hj⟩
    exact ⟨fun ret w => Words.mount_keeps_flash (hT.image.lt k hlt) hk,
      fun hout => ⟨_, Words.mount_without_first hdrv hout (hT.image.lt k hlt) hk hlater⟩⟩
  case erased =>
    rintro rfl
    refine Words.mount_formats hdrv fun b hb => ?_
    rw [Option.eq_none_iff_forall_ne_some]
    intro i hi
    obtain ⟨h1, h2, -⟩ := (hrank b hb i).mp hi
    omega
  case writing => exact fun h => absurd h (by omega)
  case written =>
    intro h
    have := h 0 (Nat.succ_pos _)
    omega

end SavedIn

/-- Behind the erases: `q` of the writes are done. -/
theorem Flushed.cut_writing {m : CStr → Option CStr} (hF : Flushed env f s snap s')
    (hC : ContractInv env s m) (hdrv : env.NoDriverError) (hok : FlushOk env.toGeometry s) {q : ℕ}
    (hpos : 0 < q) (hq : q ≤ env.nbMetaBlocks * env.pagesPerBlock) :
    CutOutcome env T s.hashtable (env.nbMetaBlocks + q) (Serial.writing env snap f q) := by
  have hn := env.nbMetaBlocks_pos
  have hH := hF.headers_writing hC.blocks hq
  have hcnt : 0 < headersWritten env.toGeometry q := lt_headersWritten.mpr (by omega)
  have hall : headersWritten env.toGeometry q = env.nbMetaBlocks ↔
      (env.nbMetaBlocks - 1) * env.pagesPerBlock < q := by
    have hle := hH.le
    rw [← lt_headersWritten]
    omega
  have hroom : ¬ Overruns env (env.nbMetaBlocks + q) →
      headersWritten env.toGeometry q * (env.pagesPerBlock - 1) ≤ env.metaRoom := by
    intro h
    obtain hlt | heq := Nat.lt_or_eq_of_le hH.le
    · exact room_of_lt hlt
    · rw [heq]
      exact not_not.mp fun hno => h ⟨hno, .inr (Nat.add_lt_add_left (hall.mp heq) _)⟩
  constructor
  case overruns =>
    rintro ⟨hno, h⟩
    refine (Words.mount_headers hH hdrv hcnt).1 ?_
    rw [hall.mpr (by omega)]
    exact not_le.mp hno
  case untouched => exact fun h => absurd h (by omega)
  case erasing => exact fun _ h => absurd h (by omega)
  case erased => exact fun h => absurd h (by omega)
  case writing => exact fun _ h => (Words.mount_headers hH hdrv hcnt).2 (hroom h)
  case written =>
    intro hpages h
    have hIm := hF.image_writing hC.blocks hq fun y hy => by
      have := hpages y hy
      omega
    rw [← hF.snapTable]
    exact hIm.mounts hdrv (hC.decodable hF hok) (hroom h)

/-- In every session whose operations meet `ContractOk`, when metadata was flushed and not formatted
since, what a mount finds at any point of the next flush. -/
theorem power_loss_during_flush (env : Env) (hdrv : env.NoDriverError) {s₀ s s' : Config}
    {T : ℕ → Bucket} {es : List (Request × Result)} (hf : Fresh env s₀)
    (hr : Run (fun p e p' => ContractOk env p.1 e.1 ∧ SessionStep env p e p') (s₀, none) es
      (s, some T))
    (hok : SafeFlush env.toGeometry s) {ret : ℤ} (he : flushMetadata env s = .ok (ret, s'))
    {mtd : History} (h₁ : s.mtd <:+ mtd) (h₂ : mtd <:+ s'.mtd) :
    CutOutcome env T s.hashtable (mtd.length - s.mtd.length) mtd := by
  have h₀ : SessionInv env (s₀, none) := by
    rw [fresh_iff hdrv] at hf
    subst hf
    exact ⟨⟨_, ContractInv.start hdrv⟩, fun _ h => by cases h⟩
  have hS := hr.invariant (SessionInv.step hdrv) h₀
  obtain ⟨m, hC⟩ := hS.contract
  obtain ⟨f₀, snap₀, hT⟩ := hS.saved T rfl
  obtain ⟨f, snap, s₁, hfl, hF, -⟩ := hC.flush hdrv hok
  rw [hfl] at he
  obtain rfl := (Prod.mk.inj (Except.ok.inj he)).2
  have hsnap := hF.snapMtd
  have hend := hF.mtd
  simp only at hsnap hT
  rw [hT.listed] at hsnap
  rw [← allPages, allPages_eq, hsnap, ← replay_append] at hend
  rw [hend] at h₂
  obtain ⟨hcut, hlen⟩ := replay_cut h₁ h₂
  generalize mtd.length - s.mtd.length = k at hcut hlen
  rw [hcut]
  simp only [List.length_append, eraseOps, programs, List.length_map, List.length_range] at hlen
  by_cases hk : k ≤ env.nbMetaBlocks
  · rw [List.take_append_of_le_length (by simpa [eraseOps] using hk)]
    have htake : (eraseOps env.toGeometry ((List.range env.nbMetaBlocks).map f₀)).take k =
        eraseOps env.toGeometry ((List.range k).map f₀) := by
      simp only [eraseOps, ← List.map_take, List.take_range, Nat.min_eq_left hk]
    rw [htake]
    exact hT.cut_erasing hdrv _ hk
  · obtain ⟨q, rfl⟩ := Nat.exists_eq_add_of_le (Nat.le_of_not_le hk)
    have hlenE : (eraseOps env.toGeometry ((List.range env.nbMetaBlocks).map f₀)).length =
        env.nbMetaBlocks := by simp [eraseOps]
    have htake : (eraseOps env.toGeometry ((List.range env.nbMetaBlocks).map f₀) ++
        programs ((List.range (env.nbMetaBlocks * env.pagesPerBlock)).map
          (nthWrite env snap f))).take (env.nbMetaBlocks + q) =
        eraseOps env.toGeometry ((List.range env.nbMetaBlocks).map f₀) ++
          programs ((List.range q).map (nthWrite env snap f)) := by
      rw [List.take_append, hlenE, Nat.add_sub_cancel_left, List.take_of_length_le (by omega)]
      simp only [programs, ← List.map_take, List.take_range]
      rw [Nat.min_eq_left (by omega)]
    rw [htake, replay_append, ← hsnap]
    exact hF.cut_writing hC hdrv hok.ok (by omega) (by omega)

/-- Four blocks of five pages; the metadata fills two of them, and a mount has room for both. -/
def pairedGeometry : Geometry := .ofSizes 4 5 512 (by decide)

/-- What a new device of these blocks gets to. -/
def paired (rs : List Request) : Config := final (.ideal pairedGeometry) rs (Env.ideal pairedGeometry).start

/-- A pair. -/
def setK : Request := .set (.ofBytes [107]) (.ofBytes [118]) false

/-- Another. -/
def setJ : Request := .set (.ofBytes [106]) (.ofBytes [119]) false

/-- A pair is stored and flushed, then another is stored. The next flush is cut: before its first operation,
behind the first erase, behind the second, and at its end. -/
theorem power_loss_during_flush_paired :
    (paired [setK, .flush, setJ, .flush]).mtd.length = (paired [setK, .flush, setJ]).mtd.length + 12 ∧
      Mounts (.ideal pairedGeometry) ((paired [setK, .flush, setJ, .flush]).mtd.drop 12) (paired [setK]).hashtable ∧
      (∃ w, Words.initScan (.ideal pairedGeometry) ((paired [setK, .flush, setJ, .flush]).mtd.drop 11) =
        .ok (-4, w)) ∧
      (∃ w, Words.initScan (.ideal pairedGeometry) ((paired [setK, .flush, setJ, .flush]).mtd.drop 10) =
        .ok (0, w) ∧ ∀ h, (w.hashtable h).pState = PageState.pgFree.code) ∧
      Mounts (.ideal pairedGeometry) (paired [setK, .flush, setJ, .flush]).mtd
        (paired [setK, .flush, setJ]).hashtable := by
  have hdrv := Env.ideal_noDriverError pairedGeometry
  have hroom : ∀ k, ¬ Overruns (.ideal pairedGeometry) k := fun k h => h.1 (by decide)
  have hok : ContractOk (.ideal pairedGeometry) (paired []) setK ∧
      ContractOk (.ideal pairedGeometry) (paired [setK]) .flush ∧
      ContractOk (.ideal pairedGeometry) (paired [setK, .flush]) setJ ∧
      SafeFlush pairedGeometry (paired [setK, .flush, setJ]) := by decide +kernel
  have hlen : (paired [setK, .flush, setJ, .flush]).mtd.length = (paired [setK, .flush, setJ]).mtd.length + 12 := by
    decide +kernel
  have hsame : (paired [setK, .flush, setJ]).mtd = (paired [setK, .flush, setJ, .flush]).mtd.drop 12 := by
    decide +kernel
  have hpages : ∀ y < pairedGeometry.nbMetaPages,
      pairedGeometry.nbMetaBlocks + writeNumber pairedGeometry y < 12 := by decide
  have h₁ : ∃ x, Step (.ideal pairedGeometry) (paired []) (setK, x) (paired [setK]) :=
    @step_of_codes _ [] _ _ [0] (by decide +kernel)
  have h₂ : ∃ x, Step (.ideal pairedGeometry) (paired [setK]) (.flush, x) (paired [setK, .flush]) :=
    @step_of_codes _ [setK] _ _ [0, 0] (by decide +kernel)
  have h₃ : ∃ x, Step (.ideal pairedGeometry) (paired [setK, .flush]) (setJ, x) (paired [setK, .flush, setJ]) :=
    @step_of_codes _ [setK, .flush] _ _ [0, 0, 0] (by decide +kernel)
  have h₄ : ∃ x, Step (.ideal pairedGeometry) (paired [setK, .flush, setJ]) (.flush, x)
      (paired [setK, .flush, setJ, .flush]) :=
    @step_of_codes _ [setK, .flush, setJ] _ _ [0, 0, 0, 0] (by decide +kernel)
  have hf : Fresh (.ideal pairedGeometry) (paired []) := (fresh_iff hdrv).mpr rfl
  generalize paired [setK, .flush, setJ, .flush] = s' at *
  generalize paired [setK, .flush, setJ] = s at *
  generalize paired [setK, .flush] = s₂ at *
  generalize paired [setK] = s₁ at *
  generalize paired [] = s₀ at *
  obtain ⟨x₁, h₁⟩ := h₁
  obtain ⟨x₂, h₂⟩ := h₂
  obtain ⟨x₃, h₃⟩ := h₃
  obtain ⟨x₄, h₄⟩ := h₄
  have hflush : (flushMetadata (.ideal pairedGeometry) s).map (fun r => (Result.mk r.1 [], r.2)) = .ok (x₄, s') := h₄
  obtain ⟨r, hfl, hr⟩ := map_ok hflush
  obtain ⟨ret, s''⟩ := r
  obtain rfl : s'' = s' := (Prod.mk.inj hr).2
  have hrun : Run
      (fun p e p' => ContractOk (.ideal pairedGeometry) p.1 e.1 ∧ SessionStep (.ideal pairedGeometry) p e p')
      (s₀, none) [(setK, x₁), (.flush, x₂), (setJ, x₃)] (s, some s₁.hashtable) := by
    refine @Run.cons _ _ _ _ (s₁, none) _ _ _ ⟨hok.1, h₁, rfl⟩ ?_
    refine @Run.cons _ _ _ _ (s₂, some s₁.hashtable) _ _ _ ⟨hok.2.1, h₂, rfl⟩ ?_
    exact @Run.cons _ _ _ _ (s, some s₁.hashtable) _ _ _ ⟨hok.2.2.1, h₃, rfl⟩ (.nil _)
  have hcut : ∀ n ≤ 12, CutOutcome (.ideal pairedGeometry) s₁.hashtable s.hashtable (12 - n) (s''.mtd.drop n) := by
    intro n hn
    have hk : (s''.mtd.drop n).length - s.mtd.length = 12 - n := by
      rw [List.length_drop]
      omega
    have hsuf : s.mtd <:+ s''.mtd.drop n := by
      refine List.suffix_of_suffix_length_le ?_ (List.drop_suffix n _) (by rw [List.length_drop]; omega)
      rw [hsame]
      exact List.drop_suffix 12 _
    rw [← hk]
    exact power_loss_during_flush (.ideal pairedGeometry) hdrv hf hrun hok.2.2.2 hfl hsuf (List.drop_suffix n _)
  refine ⟨hlen, (hcut 12 (Nat.le_refl 12)).untouched rfl (hroom _), ?_, ?_, ?_⟩
  · exact ((hcut 11 (by decide)).erasing (by decide) (by decide)).2 fun _ _ => rfl
  · obtain ⟨w, hw, -, hfree⟩ := (hcut 10 (by decide)).erased rfl
    exact ⟨w, hw, hfree⟩
  · exact (hcut 0 (by decide)).written hpages (hroom _)

/-- A pair is stored and flushed. If the power fails in the next flush when the old metadata is erased
and no header is written, the next mount formats the device. -/
theorem cut_behind_erase_formats :
    ∃ es s ret s' mtd t, es.map Prod.fst =
        [Request.set (.ofBytes [107]) (.ofBytes [118]) false, .flush] ∧
      es.map (fun e => e.2.code) = [0, 0] ∧
      Fresh (.ideal tinyGeometry) (Env.ideal tinyGeometry).start ∧
      Run (Step (.ideal tinyGeometry)) (Env.ideal tinyGeometry).start es s ∧
      flushMetadata (.ideal tinyGeometry) s = .ok (ret, s') ∧ s.mtd <:+ mtd ∧ mtd <:+ s'.mtd ∧
      Words.initScan (.ideal tinyGeometry) mtd = .ok (0, t) ∧
      t.mtd = .erase 0 tinyGeometry.hashSize :: mtd ∧
      (∃ h, s.Valid tinyGeometry h) ∧ ∀ h, (t.hashtable h).pState = PageState.pgFree.code := by
  have hc : codes (.ideal tinyGeometry) [.set (.ofBytes [107]) (.ofBytes [118]) false, .flush]
      (Env.ideal tinyGeometry).start = some [0, 0] := by decide +kernel
  have hc' : codes (.ideal tinyGeometry)
      ([.set (.ofBytes [107]) (.ofBytes [118]) false, .flush] ++ [.flush])
      (Env.ideal tinyGeometry).start = some [0, 0, 0] := by decide +kernel
  have hsame : (final (.ideal tinyGeometry) [.set (.ofBytes [107]) (.ofBytes [118]) false, .flush]
      (Env.ideal tinyGeometry).start).mtd = ((final (.ideal tinyGeometry)
        ([.set (.ofBytes [107]) (.ofBytes [118]) false, .flush] ++ [.flush])
        (Env.ideal tinyGeometry).start).mtd.drop 3).drop 1 := by decide +kernel
  have hnone : ∀ b < tinyGeometry.nbBlocks, rankAt (.ideal tinyGeometry) ((final (.ideal tinyGeometry)
      ([.set (.ofBytes [107]) (.ofBytes [118]) false, .flush] ++ [.flush])
      (Env.ideal tinyGeometry).start).mtd.drop 3) b = none := by decide +kernel
  have hlive : ∃ h < tinyGeometry.hashSize, ((final (.ideal tinyGeometry)
      [.set (.ofBytes [107]) (.ofBytes [118]) false, .flush]
      (Env.ideal tinyGeometry).start).hashtable h).pState = .pgValid := by decide +kernel
  obtain ⟨es, hreq, hcodes, hr⟩ := run_of_codes hc
  obtain ⟨x, hx⟩ := step_of_codes hc'
  have hx' : (flushMetadata (.ideal tinyGeometry) (final (.ideal tinyGeometry)
      [.set (.ofBytes [107]) (.ofBytes [118]) false, .flush] (Env.ideal tinyGeometry).start)).map
        (fun r => (Result.mk r.1 [], r.2)) = .ok (x, _) := hx
  obtain ⟨r, hflush, hres⟩ := map_ok hx'
  obtain ⟨-, hend⟩ := Prod.mk.inj hres
  obtain ⟨t, ht, hmtd, hfree⟩ := Words.mount_formats (Env.ideal_noDriverError tinyGeometry) hnone
  have hstart : (final (.ideal tinyGeometry) [.set (.ofBytes [107]) (.ofBytes [118]) false, .flush]
      (Env.ideal tinyGeometry).start).mtd <:+ (final (.ideal tinyGeometry)
        ([.set (.ofBytes [107]) (.ofBytes [118]) false, .flush] ++ [.flush])
        (Env.ideal tinyGeometry).start).mtd.drop 3 := by
    rw [hsame]
    exact List.drop_suffix 1 _
  obtain ⟨h, hh, hv⟩ := hlive
  refine ⟨es, _, r.1, r.2, _, t, hreq, hcodes, (fresh_iff (Env.ideal_noDriverError _)).mpr rfl, hr,
    hflush, hstart, ?_, ht, hmtd, ⟨h, hh, hv⟩, hfree⟩
  rw [hend]
  exact List.drop_suffix 3 _

end LkpProjects.Serial
