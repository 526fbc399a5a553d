import LkpProjects.Serial.Collect
import LkpProjects.Serial.Ownership

/-! # The serial store: the map contract over whole sessions

`ContractInv env s m` adds to the representation invariant what a flush and a mount need: the block
records (`BlockInv`) and the range of every bucket's fields, the free ones included, because a mount
reads them all. Every operation keeps it on the map that the operation leaves, as long as the
operation meets `ContractOk`: the pair goes to a data block and does not use up the flash, `gc`
collects records that its buffer can hold, no flush relocates pages or erases a page in use, and the
buffer of a mount has room for the pages that it reads.
-/
namespace LkpProjects.Serial
open Nand Bytes Stepwise
set_option autoImplicit false

variable {env : Env} {s s' snap t : Config} {f : ℕ → ℕ} {m : CStr → Option CStr}

/-! ## The fields of all buckets -/

/-- Every bucket's fields are in the range of their types. -/
structure Fits (g : Geometry) (s : Config) : Prop where
  index : ∀ h < g.hashSize, (s.hashtable h).index < g.hashSize
  key : ∀ h < g.hashSize, (s.hashtable h).key.len < 128

theorem Fits.congr {g : Geometry} (hT : Fits g s)
    (h : ∀ j < g.hashSize, (s'.hashtable j).index = (s.hashtable j).index ∧
      (s'.hashtable j).key = (s.hashtable j).key) : Fits g s' where
  index j hj := by
    rw [(h j hj).1]
    exact hT.index j hj
  key j hj := by
    rw [(h j hj).2]
    exact hT.key j hj

theorem Fits.move {ok : ℕ → Prop} (hT : Fits env.toGeometry s) (hm : Move env ok s s') :
    Fits env.toGeometry s' := by
  cases hm with
  | dropped => exact hT.congr fun j _ => ⟨dropped_index, dropped_key⟩
  | opened _ _ _ hO => exact hT.congr fun j _ => by rw [hO.hashtable]; exact ⟨rfl, rfl⟩
  | @stored _ _ _ b h _ hb _ ho hS =>
    constructor
    · intro j hj
      by_cases hjh : j = h
      · rw [hjh, hS.index_self]
        exact Geometry.page_lt hb ho
      · rw [hS.index_ne hjh]
        exact hT.index j hj
    · intro j hj
      by_cases hjh : j = h
      · rw [hjh, hS.key_self]
        exact hS.keyLt
      · rw [hS.key_ne hjh]
        exact hT.key j hj
  | reopened _ _ hR => exact hT.congr fun j _ => by rw [hR.hashtable]; exact ⟨rfl, rfl⟩

/-! ## Flush and mount -/

/-- The map is unchanged in any configuration that has the buckets of a flushed store, the block
records of its snapshot and exact lists. -/
theorem Inv.afterFlush (hI : Inv env s m) (hB : BlockInv env t) (hF : Flushed env f s snap s')
    (hlive : ∀ h, s.Valid env.toGeometry h → ¬ s.Listed env.toGeometry (s.blkOf env.toGeometry h))
    (htab : ∀ h < env.hashSize, (t.hashtable h).pState = (s.hashtable h).pState ∧
      (t.hashtable h).dirty = (s.hashtable h).dirty ∧ (t.hashtable h).key = (s.hashtable h).key ∧
      (t.hashtable h).index = (s.hashtable h).index)
    (hblk : ∀ b < env.nbBlocks, (t.blocks b).state = (snap.blocks b).state ∧
      (t.blocks b).nbInvalid = (snap.blocks b).nbInvalid ∧
      (¬ Chosen env.toGeometry f b →
        (t.blocks b).currentPageOffset = (snap.blocks b).currentPageOffset))
    (hlist : ∀ b < env.nbBlocks, (t.blocks b).list.Nodup ∧
      ∀ h, h ∈ (t.blocks b).list ↔ t.Valid env.toGeometry h ∧ t.blkOf env.toGeometry h = b)
    (hmtd : t.mtd = s'.mtd) : Inv env t m := by
  have hval : ∀ h, t.Valid env.toGeometry h ↔ s.Valid env.toGeometry h := fun h =>
    and_congr_right fun hh => by rw [(htab h hh).1]
  have hidx : ∀ h, s.Valid env.toGeometry h → (t.hashtable h).index = (s.hashtable h).index :=
    fun h hv => (htab h hv.1).2.2.2
  have hblkOf : ∀ h, s.Valid env.toGeometry h →
      t.blkOf env.toGeometry h = s.blkOf env.toGeometry h := fun h hv => by
    rw [Config.blkOf, Config.blkOf, hidx h hv]
  -- a block that is not metadata now was neither chosen nor, if used, listed
  have hsame : ∀ b < env.nbBlocks, (t.blocks b).state ≠ .blkMeta → ¬ Chosen env.toGeometry f b ∧
      (t.blocks b).state = (s.afterErase env.toGeometry b).state ∧
      (t.blocks b).nbInvalid = (s.afterErase env.toGeometry b).nbInvalid ∧
      (t.blocks b).currentPageOffset = (s.afterErase env.toGeometry b).currentPageOffset := by
    intro b hb hm
    obtain ⟨h1, h2, h3⟩ := hblk b hb
    obtain ⟨hc, hs⟩ := hF.unchosen (h1 ▸ hm)
    rw [hs] at h1 h2 h3
    exact ⟨hc, h1, h2, h3 hc⟩
  have hused : ∀ b < env.nbBlocks, (t.blocks b).state = .blkUsed →
      ¬ s.Listed env.toGeometry b ∧ s.afterErase env.toGeometry b = s.blocks b := by
    intro b hb hu
    obtain ⟨-, h1, -⟩ := hsame b hb (by rw [hu]; decide)
    exact afterErase_eq (by rw [← h1, hu]; decide)
  have husedOf : ∀ h, s.Valid env.toGeometry h →
      (t.blocks (s.blkOf env.toGeometry h)).state = .blkUsed := fun h hv => by
    rw [← hblkOf h hv]
    exact (hB.validUsed h ((hval h).mpr hv)).2
  constructor
  case table =>
    refine hI.table.mono (fun i hi k hk => ?_) (fun i hi hk => ?_)
    · obtain ⟨hp, hk⟩ := Bucket.held_eq_some.mp hk
      obtain ⟨h1, -, h3, -⟩ := htab i hi
      exact Bucket.held_eq_some.mpr ⟨h1 ▸ hp, h3 ▸ hk⟩
    · exact (htab i hi).2.1.trans hk
  case keyLt =>
    intro h hv
    rw [(htab h hv.1).2.2.1]
    exact hI.keyLt h ((hval h).mp hv)
  case blkLt => exact fun h hv => (hB.validUsed h hv).1
  case blkUsed => exact fun h hv => (hB.validUsed h hv).2
  case offsetPos =>
    intro h hv
    have hv' := (hval h).mp hv
    rw [hidx h hv']
    exact hI.offsetPos h hv'
  case offsetLt =>
    intro h hv
    have hv' := (hval h).mp hv
    have hb := hI.blkLt h hv'
    have hu := husedOf h hv'
    rw [hidx h hv', hblkOf h hv', (hsame _ hb (by rw [hu]; decide)).2.2.2, (hused _ hb hu).2]
    exact hI.offsetLt h hv'
  case pageInj =>
    intro h h' hv hv' he
    have h1 := (hval h).mp hv
    have h2 := (hval h').mp hv'
    rw [hidx h h1, hidx h' h2] at he
    exact hI.pageInj h h' h1 h2 he
  case nodup => exact fun b hb => (hlist b hb).1
  case memList => exact fun b hb => (hlist b hb).2
  case notInvalid => exact hB.notInvalid
  case offsetLe => exact hB.offsetLe
  case used =>
    intro b hb hu
    obtain ⟨-, -, h2, h3⟩ := hsame b hb (by rw [hu]; decide)
    obtain ⟨-, he⟩ := hused b hb hu
    have hst : (s.blocks b).state = .blkUsed := by
      rw [← he, ← (hsame b hb (by rw [hu]; decide)).2.1, hu]
    have hperm : (t.blocks b).list.Perm (s.blocks b).list := by
      refine (List.perm_ext_iff_of_nodup (hlist b hb).1 (hI.nodup b hb)).mpr fun h => ?_
      rw [(hlist b hb).2, hI.memList b hb, hval]
      exact and_congr_right fun hv => by rw [hblkOf h hv]
    rw [h2, h3, he, hperm.length_eq]
    exact hI.used b hb hst
  case free => exact fun b hb hf => ⟨(hB.free b hb hf).1, (hB.free b hb hf).2.1⟩
  case metaBlk => exact hB.metaBlk
  case fresh =>
    intro b hb hm o ho hlt
    obtain ⟨hc, h1, -, h3⟩ := hsame b hb hm
    rw [hmtd, hF.programmed_ne (by rwa [Geometry.page_div hlt]), hF.programmed_snap,
      Geometry.page_div hlt]
    by_cases hl : s.Listed env.toGeometry b
    · rw [if_pos hl]
    · have he : s.afterErase env.toGeometry b = s.blocks b := if_neg hl
      rw [he] at h1 h3
      rw [if_neg hl]
      exact hI.fresh b hb (h1 ▸ hm) o (h3 ▸ ho) hlt
  case stored =>
    intro h hv
    have hv' := (hval h).mp hv
    have hu := husedOf h hv'
    obtain ⟨hc, -⟩ := hsame _ (hI.blkLt h hv') (by rw [hu]; decide)
    have hl := hlive h hv'
    rw [Config.blkOf] at hl
    rw [(htab h hv.1).2.2.1, hidx h hv', hmtd, hF.content_ne hc, hF.content_snap, if_neg hl]
    exact hI.stored h hv'
  case complete =>
    intro k v hk
    obtain ⟨h, hv, hkey⟩ := hI.complete k v hk
    exact ⟨h, (hval h).mpr hv, (htab h hv.1).2.2.1.trans hkey⟩
  case readOnly => exact hB.readOnly

theorem nodup_linked (g : Geometry) (table : ℕ → Bucket) (b : ℕ) :
    (linked g table (List.range g.hashSize) b).Nodup :=
  List.nodup_reverse.mpr (List.nodup_range.filter _)

theorem mem_linked {g : Geometry} {b h : ℕ} :
    h ∈ linked g t.hashtable (List.range g.hashSize) b ↔ t.Valid g h ∧ t.blkOf g h = b := by
  simp only [linked, List.mem_reverse, List.mem_filter, List.mem_range, decide_eq_true_eq,
    Config.Valid, Config.blkOf, and_assoc]

/-- A flush neither relocates pages nor erases a page in use. -/
structure SafeFlush (g : Geometry) (s : Config) : Prop where
  ok : FlushOk g s
  live : ∀ h, s.Valid g h → ¬ s.Listed g (s.blkOf g h)

/-- The configuration represents the map, and can be flushed and mounted. -/
structure ContractInv (env : Env) (s : Config) (m : CStr → Option CStr) : Prop where
  inv : Inv env s m
  blocks : BlockInv env s
  fits : Fits env.toGeometry s

namespace ContractInv

theorem moves {ok : ℕ → Prop} {m' : CStr → Option CStr} (hC : ContractInv env s m)
    (hok : ∀ b, ok b → (s.blocks b).state ≠ .blkMeta) (hm : Moves env ok s s')
    (hI : Inv env s' m') : ContractInv env s' m' :=
  ⟨hI, (hC.blocks.moves hok hm).1, hm.preserves (fun _ _ => Fits.move) hC.fits⟩

theorem flush (hC : ContractInv env s m) (hdrv : env.NoDriverError)
    (hok : SafeFlush env.toGeometry s) : ∃ f snap s', flushMetadata env s = .ok (flushCode s', s') ∧
      Flushed env f s snap s' ∧ ContractInv env s' m := by
  obtain ⟨f, snap, s', he, hF⟩ := flush_spec hdrv hC.blocks.metaOk hok.ok
  have hB := hC.blocks.flushed hF hok.live
  have hlist : ∀ b, (s'.blocks b).list = (s.afterErase env.toGeometry b).list := fun b => by
    rw [hF.blocks]
    split_ifs <;> rfl
  refine ⟨f, snap, s', he, hF, ?_, hB, hC.fits.congr fun j _ => by rw [hF.table]; exact ⟨rfl, rfl⟩⟩
  refine hC.inv.afterFlush hB hF hok.live (fun h _ => by rw [hF.table]; exact ⟨rfl, rfl, rfl, rfl⟩)
    (fun b _ => ?_) (fun b hb => ?_) rfl
  · rw [hF.blocks, hF.snapBlocks]
    by_cases hc : Chosen env.toGeometry f b
    · rw [if_pos hc, if_pos hc]
      exact ⟨rfl, rfl, fun h => absurd hc h⟩
    · rw [if_neg hc, if_neg hc]
      exact ⟨rfl, rfl, fun _ => rfl⟩
  · have hval : ∀ h, s'.Valid env.toGeometry h ↔ s.Valid env.toGeometry h := fun _ =>
      Config.valid_congr hF.table
    have hblk : ∀ h, s'.blkOf env.toGeometry h = s.blkOf env.toGeometry h := fun _ =>
      Config.blkOf_congr hF.table
    rw [hlist]
    rcases afterErase_cases env.toGeometry s b with ⟨hl, he⟩ | ⟨-, he⟩
    · rw [he]
      refine ⟨List.nodup_nil, fun h => iff_of_false List.not_mem_nil ?_⟩
      rintro ⟨hv, rfl⟩
      rw [hblk] at hl
      exact hok.live h ((hval h).mp hv) hl
    · rw [he]
      refine ⟨hC.inv.nodup b hb, fun h => ?_⟩
      rw [hval, hblk]
      exact hC.inv.memList b hb h

/-- The fields of a snapshot are in range, so a mount can decode it. -/
theorem decodable (hC : ContractInv env s m) (hF : Flushed env f s snap s')
    (hok : FlushOk env.toGeometry s) : Decodable env.toGeometry snap := by
  have hppb := BlockInv.ppb_lt env
  have hsize := env.hashSize_lt
  have hmax : intMax = 2 ^ 31 - 1 := rfl
  have hsnap : ∀ b, (snap.blocks b).worn = (s.afterErase env.toGeometry b).worn ∧
      (snap.blocks b).nbInvalid = (s.afterErase env.toGeometry b).nbInvalid := by
    intro b
    rw [hF.snapBlocks]
    split_ifs <;> exact ⟨rfl, rfl⟩
  have hle : ∀ b, (s.afterErase env.toGeometry b).worn ≤ (s.blocks b).worn + 1 ∧
      (s.afterErase env.toGeometry b).nbInvalid ≤ (s.blocks b).nbInvalid := by
    intro b
    rcases afterErase_cases env.toGeometry s b with ⟨-, he⟩ | ⟨-, he⟩
    · rw [he]
      exact ⟨Nat.le_refl _, Nat.zero_le _⟩
    · rw [he]
      exact ⟨Nat.le_succ _, Nat.le_refl _⟩
  constructor
  case worn =>
    intro b hb
    have := hok.worn b hb
    have := (hle b).1
    rw [(hsnap b).1]
    omega
  case nbInvalid =>
    intro b hb
    have hn : (s.blocks b).nbInvalid ≤ env.pagesPerBlock := by
      have hoff := hC.inv.offsetLe b hb
      cases hst : (s.blocks b).state with
      | blkUsed => have := hC.inv.used b hb hst; omega
      | blkFree => have := (hC.inv.free b hb hst).2; omega
      | blkMeta => have := hC.inv.metaBlk b hb hst; omega
      | blkInvalid => exact absurd hst (hC.inv.notInvalid b hb)
    have := (hle b).2
    rw [(hsnap b).2]
    omega
  case offset =>
    intro b hb
    have := hC.blocks.snap_offset_le hF hb
    omega
  case index =>
    intro h hh
    rw [hF.snapTable]
    exact Nat.lt_trans (hC.fits.index h hh) hsize
  case key =>
    intro h hh
    rw [hF.snapTable]
    exact hC.fits.key h hh
  case blkLt =>
    intro h hv
    rw [Config.Valid, hF.snapTable] at hv
    rw [Config.blkOf, hF.snapTable]
    exact (hC.blocks.validUsed h hv).1

theorem mounted (hC : ContractInv env s m) (hF : Flushed env f s snap s')
    (hok : SafeFlush env.toGeometry s) (hM : Mounted env env.nbMetaBlocks f snap s'.mtd t) :
    ContractInv env t m := by
  have hB := hC.blocks.mounted hF hok.live hM
  have hD := hC.decodable hF hok.ok
  have htab : ∀ h < env.hashSize, t.hashtable h = s.hashtable h := fun h hh => by
    rw [hM.hashtable_eq hD hh, hF.snapTable]
  refine ⟨?_, hB, hC.fits.congr fun h hh => by rw [htab h hh]; exact ⟨rfl, rfl⟩⟩
  refine hC.inv.afterFlush hB hF hok.live
    (fun h hh => by rw [htab h hh]; exact ⟨rfl, rfl, rfl, rfl⟩) (fun b hb => ?_) (fun b hb => ?_) hM.mtd
  · have hn := hD.nbInvalid b hb
    have ho := hD.offset b hb
    rw [hM.blocks b hb]
    exact ⟨rfl, Nat.mod_eq_of_lt (by omega), fun _ => Nat.mod_eq_of_lt (by omega)⟩
  · rw [hM.blocks b hb]
    exact ⟨nodup_linked _ _ _, fun h => mem_linked⟩

theorem reload (hC : ContractInv env s m) (hdrv : env.NoDriverError)
    (hok : SafeFlush env.toGeometry s) (hroom : env.RoomToMount) :
    ∃ t, Serial.reload env s = .ok (0, t) ∧ ContractInv env t m := by
  obtain ⟨f, snap, s', he, hF, -⟩ := hC.flush hdrv hok
  obtain ⟨t, hmount, hM⟩ := (hC.blocks.image hF).mount_total hdrv (hC.decodable hF hok.ok) hroom
  exact ⟨t, by rw [Serial.reload, he]; exact hmount, hC.mounted hF hok hM⟩

end ContractInv

/-! ## The operations -/

/-- A pair goes to a block that is not metadata, and some page is left behind it. -/
def StoreOk (g : Geometry) (s : Config) : Prop :=
  ∃ b, getHealthyBlock g s = some b ∧ (s.blocks b).state ≠ .blkMeta ∧
    ∃ c < g.nbBlocks, if c = b then max 1 (s.blocks b).currentPageOffset + 1 < g.pagesPerBlock
      else (s.blocks c).currentPageOffset < g.pagesPerBlock

/-- A call of `gc` finds records that its buffer can hold. -/
def GcOk (env : Env) (s : Config) : Prop :=
  ∀ b, gcTarget env.toGeometry s = some b → CollectOk env s b

/-- The condition on an operation, and on each call that it makes. -/
def ContractOk (env : Env) (s : Config) : Request → Prop
  | .set key val elapsed => key.len < 128 ∧
      (env.pageSize < key.len + val.len + 8 ∨ s.readOnly = true ∨
        (StoreOk env.toGeometry s ∧ ∀ ret s₁, storePhase env key val s = .ok (ret, s₁) →
          GcOk env s₁ ∧ ∀ s₂, Serial.gc env s₁ = .ok s₂ → elapsed = true →
            SafeFlush env.toGeometry s₂))
  | .get _ => True
  | .del _ => True
  | .gc => GcOk env s
  | .flush => SafeFlush env.toGeometry s
  | .format => True
  | .reload => SafeFlush env.toGeometry s ∧ env.RoomToMount

section Decisions
variable (g : Geometry)

instance : Decidable (SafeFlush g s) :=
  decidable_of_iff ((∀ b < g.nbBlocks, (s.blocks b).worn + 1 < intMax) ∧ g.nbMetaBlocks ≤ (reusable g s).card ∧
      ∀ h < g.hashSize, (s.hashtable h).pState = .pgValid → ¬ s.Listed g (s.blkOf g h))
    ⟨fun h => ⟨⟨h.1, h.2.1⟩, fun i hi => h.2.2 i hi.1 hi.2⟩,
      fun h => ⟨h.ok.worn, h.ok.room, fun i hi hv => h.live i ⟨hi, hv⟩⟩⟩

instance : Decidable (StoreOk g s) :=
  inferInstanceAs (Decidable (∃ b ∈ getHealthyBlock g s, _))

instance (b : ℕ) : Decidable (CollectOk env s b) :=
  decidable_of_iff (_ ∧ _) ⟨fun h => ⟨h.1, h.2⟩, fun h => ⟨h.room, h.short⟩⟩

instance : Decidable (GcOk env s) :=
  inferInstanceAs (Decidable (∀ b ∈ gcTarget env.toGeometry s, CollectOk env s b))

/-- A condition on what a call returns, if it does. -/
instance decidableForallOk {α : Type} {p : α → Prop} [DecidablePred p] :
    ∀ e : Except Fault α, Decidable (∀ x, e = .ok x → p x)
  | .error _ => isTrue fun _ h => by cases h
  | .ok x => decidable_of_iff (p x) ⟨fun h y hy => Except.ok.inj hy ▸ h, fun h => h x rfl⟩

instance decidableForallPairOk {α β : Type} {p : α → β → Prop} [∀ a, DecidablePred (p a)]
    (e : Except Fault (α × β)) : Decidable (∀ a b, e = .ok (a, b) → p a b) :=
  decidable_of_iff (∀ x, e = .ok x → p x.1 x.2) ⟨fun h a b => h (a, b), fun h x => h x.1 x.2⟩

instance : ∀ req, Decidable (ContractOk env s req)
  | .set _ _ _ => inferInstanceAs (Decidable (_ ∧ (_ ∨ _ ∨ (_ ∧ _))))
  | .get _ => isTrue trivial
  | .del _ => isTrue trivial
  | .gc => inferInstanceAs (Decidable (GcOk env s))
  | .flush => inferInstanceAs (Decidable (SafeFlush env.toGeometry s))
  | .format => isTrue trivial
  | .reload => inferInstanceAs (Decidable (_ ∧ _))

end Decisions

/-- The map after an operation: a `set_keyval` counts when it returned 0. -/
def mapAfter (m : CStr → Option CStr) (e : Request × Result) : CStr → Option CStr :=
  match e.1 with
  | .set key val _ => if e.2.code = 0 then Function.update m key (some val) else m
  | .del key => Function.update m key none
  | .format => fun _ => none
  | _ => m

theorem mapAfter_refused {key val : CStr} {elapsed : Bool} {r : Result} (h : r.code ≠ 0) :
    mapAfter m (.set key val elapsed, r) = m := if_neg h

theorem mapAfter_set {key val : CStr} {elapsed : Bool} {r : Result} (h : r.code = 0) :
    mapAfter m (.set key val elapsed, r) = Function.update m key (some val) := if_pos h

/-- `get_keyval` answers from the map. -/
def Answers (env : Env) (s : Config) (m : CStr → Option CStr) : Prop :=
  ∀ key, match m key with
    | some val => 0 ≤ (getKeyval env key s).1 ∧ (getKeyval env key s).2 = val.bytes
    | none => (getKeyval env key s).1 = -1

namespace ContractInv

theorem answers (hC : ContractInv env s m) (hdrv : env.NoDriverError) : Answers env s m := by
  intro key
  cases hm : m key with
  | none => rw [hC.inv.getKeyval_none hm]
  | some val =>
    obtain ⟨h, -, -, he⟩ := hC.inv.getKeyval_some hdrv hm
    rw [he]
    exact ⟨Int.natCast_nonneg _, rfl⟩

/-- `gc` does not collect a metadata block: it counts no invalid page. -/
theorem gcTarget_ne_meta (hC : ContractInv env s m) {b : ℕ}
    (ht : gcTarget env.toGeometry s = some b) : (s.blocks b).state ≠ .blkMeta := by
  intro hm
  obtain ⟨hlt, hinvalid⟩ := gcTarget_some ht
  rw [hC.inv.metaBlk b hlt hm] at hinvalid
  exact absurd hinvalid (by decide)

theorem gc (hC : ContractInv env s m) (hdrv : env.NoDriverError) (hok : GcOk env s) :
    ∃ s', Serial.gc env s = .ok s' ∧ ContractInv env s' m := by
  obtain ⟨s', he, hI⟩ := hC.inv.gc hdrv hok
  exact ⟨s', he, hC.moves (fun b hb => hC.gcTarget_ne_meta hb)
    (gc_moves hdrv (fun b hb => hC.inv.gcTarget_fits hb) he) hI⟩

/-- The store phase adds the pair; with a page to spare its code is that of success. -/
theorem storePhase (hC : ContractInv env s m) (hdrv : env.NoDriverError) {key val : CStr}
    (hlen : key.len < 128) (hsize : 8 + key.len + val.len ≤ env.pageSize) (hro : s.readOnly = false)
    (hok : StoreOk env.toGeometry s) :
    ∃ s', Serial.storePhase env key val s = .ok (0, s') ∧
      ContractInv env s' (Function.update m key (some val)) := by
  obtain ⟨b, hb, hst, c, hc, hroom⟩ := hok
  obtain ⟨s₁, he, hI₁, hs₁⟩ := hC.inv.invalidOld key
  obtain ⟨-, hro₁, hb₁⟩ := invalidOld_moves he
  rw [hb] at hb₁
  have hblk : ∀ d, (s₁.blocks d).state = (s.blocks d).state ∧
      (s₁.blocks d).currentPageOffset = (s.blocks d).currentPageOffset := by
    intro d
    rcases hs₁ with rfl | ⟨h, -, rfl⟩
    · exact ⟨rfl, rfl⟩
    · exact ⟨dropped_state _ _ _ d, dropped_offset _ _ _ d⟩
  obtain ⟨s₂, h, s₃, hR, hS, hstore, hI₃⟩ := hI₁.storeAt hdrv (hro₁.trans hro) hb₁
    (by rwa [(hblk b).1]) hlen (record_holds hsize) (Function.update_self ..)
  rw [Function.update_idem] at hI₃
  have hphase : Serial.storePhase env key val s = .ok (writeCode env.toGeometry s₃, s₃) := by
    simp only [Serial.storePhase, he, hstore]
  -- the page that is left
  have hleft : (s₃.blocks c).currentPageOffset < env.pagesPerBlock := by
    have hoff := (hblk b).2
    by_cases hcb : c = b
    · rw [if_pos hcb] at hroom
      rw [hcb, hS.block_self]
      rcases hR with ⟨-, rfl⟩ | ⟨h0, hO⟩
      · simp only
        omega
      · rw [hO.block_self]
        simp only
        omega
    · rw [if_neg hcb] at hroom
      rw [hS.block_ne hcb]
      rcases hR with ⟨-, rfl⟩ | ⟨-, hO⟩
      · rwa [(hblk c).2]
      · rwa [hO.block_ne hcb, (hblk c).2]
  have hcode : writeCode env.toGeometry s₃ = 0 := by
    rw [writeCode, isReadOnly_eq_false hc hleft]
    rfl
  obtain ⟨b', hb', hm⟩ := storePhase_moves hdrv hro hphase
  rw [hb] at hb'
  obtain rfl := Option.some.inj hb'
  exact ⟨s₃, hcode ▸ hphase, hC.moves (by rintro d rfl; exact hst) hm hI₃⟩

theorem set (hC : ContractInv env s m) (hdrv : env.NoDriverError) {key val : CStr} {elapsed : Bool}
    (hok : ContractOk env s (.set key val elapsed)) :
    ∃ ret s', setKeyval env key val elapsed s = .ok (ret, s') ∧
      ContractInv env s' (mapAfter m (.set key val elapsed, ⟨ret, []⟩)) := by
  obtain ⟨hlen, hok⟩ := hok
  by_cases hbig : env.pageSize < key.len + val.len + 8
  · refine ⟨-1, s, by rw [setKeyval, if_pos hbig], ?_⟩
    rwa [mapAfter_refused (by decide)]
  · cases hro : s.readOnly with
    | true =>
      refine ⟨-3, s, by rw [setKeyval, if_neg hbig, hro]; rfl, ?_⟩
      rwa [mapAfter_refused (by decide)]
    | false =>
      obtain ⟨hstore, hrest⟩ := (hok.resolve_left hbig).resolve_left (by simp [hro])
      have hsize : 8 + key.len + val.len ≤ env.pageSize := by omega
      obtain ⟨s₁, h₁, hC₁⟩ := hC.storePhase hdrv hlen hsize hro hstore
      obtain ⟨hgc, hflush⟩ := hrest 0 s₁ h₁
      obtain ⟨s₂, h₂, hC₂⟩ := hC₁.gc hdrv hgc
      have htimed : ∃ s₃, timedFlush env elapsed s₂ = .ok s₃ ∧
          ContractInv env s₃ (Function.update m key (some val)) := by
        cases helapsed : elapsed with
        | false => exact ⟨s₂, rfl, hC₂⟩
        | true =>
          obtain ⟨f, snap, s₃, h₃, -, hC₃⟩ := hC₂.flush hdrv (hflush s₂ h₂ helapsed)
          exact ⟨s₃, by simp only [timedFlush, h₃, if_true], hC₃⟩
      obtain ⟨s₃, h₃, hC₃⟩ := htimed
      refine ⟨0, s₃, ?_, by rwa [mapAfter_set rfl]⟩
      simp only [setKeyval, if_neg hbig, hro, Bool.false_eq_true, if_false, h₁, gbCheck_eq_gc, h₂, h₃]
      rfl

theorem format (hC : ContractInv env s m) (hdrv : env.NoDriverError) :
    ContractInv env (Serial.format env s).2 fun _ => none := by
  have he : Serial.format env s = (0, (Serial.format env s).2) := by rw [format_eq hdrv]
  refine ⟨format_inv env he, format_blockInv hdrv hC.blocks.entryLt hC.blocks.entryInj,
    hC.fits.congr fun j _ => ?_⟩
  rw [format_eq hdrv]
  exact ⟨rfl, rfl⟩

theorem start (hdrv : env.NoDriverError) : ContractInv env env.start fun _ => none := by
  refine ⟨format_inv env (s := .blank []) (by rw [Env.start, format_eq hdrv]), start_blockInv hdrv, ?_⟩
  rw [Env.start, format_eq hdrv]
  exact ⟨fun _ _ => env.hashSize_pos, fun _ _ => by simp [Config.blank, CStr.ofBytes, CStr.len]⟩

/-- One operation under its condition returns, and leaves the map that it should. -/
theorem exec (hC : ContractInv env s m) (hdrv : env.NoDriverError) {req : Request}
    (hok : ContractOk env s req) : ∃ r s', Serial.exec env s req = .ok (r, s') ∧
      ContractInv env s' (mapAfter m (req, r)) := by
  cases req with
  | set key val elapsed =>
    obtain ⟨ret, s', he, hC'⟩ := hC.set hdrv hok
    exact ⟨⟨ret, []⟩, s', by simp only [Serial.exec, he]; rfl, hC'⟩
  | get key => exact ⟨_, s, rfl, hC⟩
  | del key =>
    obtain ⟨ret, s', he, -, hI, -⟩ := hC.inv.delKey key
    exact ⟨⟨ret, []⟩, s', by simp only [Serial.exec, he]; rfl,
      hC.moves (fun _ hb => False.elim hb) (delKey_moves he) hI⟩
  | gc =>
    obtain ⟨s', he, hC'⟩ := hC.gc hdrv hok
    exact ⟨⟨0, []⟩, s', by simp only [Serial.exec, he]; rfl, hC'⟩
  | flush =>
    obtain ⟨f, snap, s', he, -, hC'⟩ := hC.flush hdrv hok
    exact ⟨⟨flushCode s', []⟩, s', by simp only [Serial.exec, he]; rfl, hC'⟩
  | format => exact ⟨_, _, rfl, hC.format hdrv⟩
  | reload =>
    obtain ⟨t, he, hC'⟩ := hC.reload hdrv hok.1 hok.2
    exact ⟨⟨0, []⟩, t, by simp only [Serial.exec, he]; rfl, hC'⟩

theorem step (hC : ContractInv env s m) (hdrv : env.NoDriverError) {e : Request × Result}
    (hok : ContractOk env s e.1) (he : Step env s e s') : ContractInv env s' (mapAfter m e) := by
  obtain ⟨r, s₁, h₁, hC₁⟩ := hC.exec hdrv hok
  rw [Step, h₁] at he
  obtain ⟨rfl, rfl⟩ := Prod.mk.inj (Except.ok.inj he)
  exact hC₁

end ContractInv

/-- In every run from a new device whose operations meet `ContractOk`, `get_keyval` answers from the
map of the operations so far, and the next operation that meets the condition returns. -/
theorem map_contract (env : Env) (hdrv : env.NoDriverError) {s₀ s : Config}
    {es : List (Request × Result)} (hf : Fresh env s₀)
    (hr : Run (fun s e s' => ContractOk env s e.1 ∧ Step env s e s') s₀ es s) :
    Answers env s (es.foldl mapAfter fun _ => none) ∧
      ∀ req, ContractOk env s req → ∃ r s', exec env s req = .ok (r, s') := by
  rw [fresh_iff hdrv] at hf
  subst hf
  have hC := hr.track (I := ContractInv env) (fun s m e s' hC hs => hC.step hdrv hs.1 hs.2) _
    (ContractInv.start hdrv)
  refine ⟨hC.answers hdrv, fun req hok => ?_⟩
  obtain ⟨r, s', he, -⟩ := hC.exec hdrv hok
  exact ⟨r, s', he⟩

/-- Three blocks of 64 pages; the metadata fits one block, and the buffer of a mount has room for it. -/
def busyGeometry : Geometry := .ofSizes 3 64 1000 (by decide)

/-- One key is stored over and over: with the 49th pair `gc` collects 48 invalid pages. The flushes behind
come from the clock, from the caller and from the reload. -/
def busySession : List Request :=
  List.replicate 50 (.set (.ofBytes [107]) (.ofBytes [118]) false) ++
    [.set (.ofBytes [106]) (.ofBytes [119]) true, .del (.ofBytes [107]), .gc, .flush, .get (.ofBytes [106])]

/-- That session, and a reload behind it. -/
theorem map_contract_busy : ∃ es s, es.map Prod.fst = busySession ++ [.reload] ∧
    Run (Step (.ideal busyGeometry)) (Env.ideal busyGeometry).start es s ∧
    Answers (.ideal busyGeometry) s (es.foldl mapAfter fun _ => none) := by
  have hdrv := Env.ideal_noDriverError busyGeometry
  have hf := (fresh_iff hdrv).mpr rfl
  have hall : allMeet (.ideal busyGeometry) (ContractOk (.ideal busyGeometry)) busySession
      (Env.ideal busyGeometry).start = true := by decide +kernel
  have hend : ContractOk (.ideal busyGeometry)
      (final (.ideal busyGeometry) busySession (Env.ideal busyGeometry).start) .reload := by decide +kernel
  obtain ⟨es, -, hes, hr⟩ := run_of_allMeet hall
  generalize final (.ideal busyGeometry) busySession (Env.ideal busyGeometry).start = s at hend hr
  obtain ⟨r, s', he⟩ := (map_contract _ hdrv hf hr).2 .reload hend
  have hstep : Step (.ideal busyGeometry) s (.reload, r) s' := he
  have hr' := hr.concat ⟨hend, hstep⟩
  exact ⟨_, s', by rw [List.map_append, hes]; rfl, hr'.mono fun _ _ _ h => h.2, (map_contract _ hdrv hf hr').1⟩

/-- After a flush, a `format` erases the metadata but keeps the list of its blocks. The next pair goes
to the block listed, and the next flush erases it. -/
theorem format_then_flush_loses_pair :
    ∃ s₀ es s, Fresh (.ideal tinyGeometry) s₀ ∧ Run (Step (.ideal tinyGeometry)) s₀ es s ∧
      es.map Prod.fst = [.flush, .format, .set (.ofBytes [107]) (.ofBytes [118]) false, .flush] ∧
      ¬ Answers (.ideal tinyGeometry) s (es.foldl mapAfter fun _ => none) := by
  have hc : codes (.ideal tinyGeometry)
      [.flush, .format, .set (.ofBytes [107]) (.ofBytes [118]) false, .flush]
      (Env.ideal tinyGeometry).start = some [0, 0, 0, 0] := by decide +kernel
  have hlost : (getKeyval (.ideal tinyGeometry) (.ofBytes [107]) (final (.ideal tinyGeometry)
      [.flush, .format, .set (.ofBytes [107]) (.ofBytes [118]) false, .flush]
      (Env.ideal tinyGeometry).start)).1 = -1 := by decide +kernel
  obtain ⟨es, hreq, hcodes, hr⟩ := run_of_codes hc
  refine ⟨_, es, _, rfl, hr, hreq, fun ha => ?_⟩
  have hmap : es.foldl mapAfter (fun _ => none) (.ofBytes [107]) = some (.ofBytes [118]) := by
    match es, hreq, hcodes with
    | [(_, r₁), (_, r₂), (_, r₃), (_, r₄)], hreq, hcodes =>
      simp only [List.map_cons, List.map_nil, List.cons.injEq, and_true] at hreq hcodes
      obtain ⟨rfl, rfl, rfl, rfl⟩ := hreq
      simp [mapAfter, hcodes.2.2.1]
  have hk := ha (.ofBytes [107])
  rw [hmap] at hk
  simp only [hlost] at hk
  exact absurd hk.1 (by decide)

end LkpProjects.Serial
