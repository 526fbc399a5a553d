import LkpProjects.Serial.StoreSteps
import LkpProjects.Library.Stepwise

/-! # The serial store: the update path refines a finite map

The operations of the update path are the store phase of `set_keyval` (from its read-only test to
`list_add`), `get_keyval`, `del_key` and `format`. From a successful `format` on, every sequence of
them runs without a fault, shows what the same sequence shows on a finite map, and keeps the
representation invariant `RepInv`.
-/
namespace LkpProjects.Serial
open Nand Bytes Stepwise
set_option autoImplicit false

/-! ## The two systems -/

/-- An operation of the update path. -/
inductive Update where
  | store (key val : CStr)
  | get (key : CStr)
  | del (key : CStr)
  | format

/-- The pairs that the store takes: the key fits a bucket, the record fits a page. -/
def Update.WellFormed (g : Geometry) : Update → Prop
  | .store key val => key.len < 128 ∧ 8 + key.len + val.len ≤ g.pageSize
  | _ => True

/-- One operation of the update path. -/
def update (env : Env) (s : Config) : Update → Except Fault (Result × Config)
  | .store key val =>
      if s.readOnly then .ok (⟨-3, []⟩, s)
      else (storePhase env key val s).map fun r => (⟨r.1, []⟩, r.2)
  | .get key => .ok (⟨(getKeyval env key s).1, (getKeyval env key s).2⟩, s)
  | .del key => (delKey env key s).map fun r => (⟨r.1, []⟩, r.2)
  | .format => .ok (⟨(format env s).1, []⟩, (format env s).2)

/-- What an operation shows: the request, whether the store was read-only, and the result. -/
structure Shown where
  req : Update
  readOnly : Bool
  result : Result

/-- The store as a system. -/
def UpdateStep (env : Env) (s : Config) (e : Shown) (s' : Config) : Prop :=
  e.readOnly = s.readOnly ∧ update env s e.req = .ok (e.result, s')

/-- The finite map as a system. -/
def MapStep (m : CStr → Option CStr) (e : Shown) (m' : CStr → Option CStr) : Prop :=
  match e.req with
  | .store key val => m' = if e.readOnly then m else Function.update m key (some val)
  | .get key => m' = m ∧
      match m key with
      | some val => 0 ≤ e.result.code ∧ e.result.val = val.bytes
      | none => e.result.code < 0
  | .del key => m' = Function.update m key none ∧ (0 ≤ e.result.code ↔ m key ≠ none)
  | .format => m' = fun _ => none

/-- The representation invariant, in the terms of the source. -/
structure RepInv (g : Geometry) (s : Config) : Prop where
  keys : ∀ h h', s.Valid g h → s.Valid g h' → (s.hashtable h).key = (s.hashtable h').key → h = h'
  pages : ∀ h h', s.Valid g h → s.Valid g h' →
    (s.hashtable h).index = (s.hashtable h').index → h = h'
  used : ∀ h, s.Valid g h → s.blkOf g h < g.nbBlocks ∧ (s.blocks (s.blkOf g h)).state = .blkUsed
  offset : ∀ h, s.Valid g h → 1 ≤ (s.hashtable h).index % g.pagesPerBlock ∧
    (s.hashtable h).index % g.pagesPerBlock + 1 ≤ (s.blocks (s.blkOf g h)).currentPageOffset
  decodes : ∀ h, s.Valid g h → ∃ val,
    Holds g (content g.pageSize s.mtd (s.hashtable h).index) (s.hashtable h).key val
  lists : ∀ b < g.nbBlocks, (s.blocks b).list.Nodup ∧
    ∀ h, h ∈ (s.blocks b).list ↔ s.Valid g h ∧ s.blkOf g h = b
  nbInvalid : ∀ b < g.nbBlocks, (s.blocks b).state = .blkUsed → ((s.blocks b).nbInvalid : ℤ) =
    (s.blocks b).currentPageOffset - 1 -
      ((validSlots g s.hashtable).filter fun h => s.blkOf g h = b).card

variable {env : Env} {s s' : Config} {m : CStr → Option CStr}

theorem Inv.card_block (hI : Inv env s m) {b : ℕ} (hb : b < env.nbBlocks) :
    ((validSlots env.toGeometry s.hashtable).filter fun h => s.blkOf env.toGeometry h = b).card =
      (s.blocks b).list.length := by
  rw [← List.toFinset_card_of_nodup (hI.nodup b hb)]
  congr 1
  ext h
  simp [hI.memList b hb h, validSlots, Config.Valid]

theorem Inv.repInv (hI : Inv env s m) : RepInv env.toGeometry s where
  keys _ _ hv hv' he := hI.key_inj hv hv' he
  pages := hI.pageInj
  used h hv := ⟨hI.blkLt h hv, hI.blkUsed h hv⟩
  offset h hv := ⟨hI.offsetPos h hv, hI.offsetLt h hv⟩
  decodes h hv := (hI.stored h hv).imp fun _ => And.right
  lists b hb := ⟨hI.nodup b hb, hI.memList b hb⟩
  nbInvalid b hb hst := by
    have := hI.used b hb hst
    rw [hI.card_block hb]
    omega

theorem Inv.finite (hI : Inv env s m) : {k | m k ≠ none}.Finite := by
  refine ((Finset.range env.hashSize).image fun h => (s.hashtable h).key).finite_toSet.subset ?_
  intro k hk
  obtain ⟨v, hv⟩ := Option.ne_none_iff_exists'.mp hk
  obtain ⟨h, hval, hkey⟩ := hI.complete k v hv
  simp only [Finset.coe_image, Finset.coe_range, Set.mem_image, Set.mem_Iio]
  exact ⟨h, hval.1, hkey⟩

/-! ## The simulation -/

/-- The update path never makes a metadata block and never erases a single one. -/
structure UpdateInv (env : Env) (s : Config) (m : CStr → Option CStr) : Prop where
  inv : Inv env s m
  notMeta : ∀ b < env.nbBlocks, (s.blocks b).state ≠ .blkMeta
  worn : ∀ b < env.nbBlocks, (s.blocks b).worn = 0

namespace UpdateInv

theorem format {s₀ : Config} (hf : Serial.format env s₀ = (0, s)) :
    UpdateInv env s fun _ => none := by
  have hblk : s.blocks = fun _ => .erased 0 := by
    unfold Serial.format at hf
    split at hf
    · cases (Prod.mk.inj hf).1
    · cases (Prod.mk.inj hf).1
    · rw [← (Prod.mk.inj hf).2]
  refine ⟨format_inv env hf, fun b _ => ?_, fun b _ => ?_⟩
  · rw [hblk]
    simp [BlkInfo.erased]
  · rw [hblk]
    rfl

theorem dropped (hU : UpdateInv env s m) {h : ℕ} {m' : CStr → Option CStr}
    (hI : Inv env (s.dropped env.toGeometry h) m') :
    UpdateInv env (s.dropped env.toGeometry h) m' :=
  ⟨hI, fun b hb => by rw [dropped_state]; exact hU.notMeta b hb,
    fun b hb => by rw [dropped_worn]; exact hU.worn b hb⟩

theorem stored (hU : UpdateInv env s m) {b h : ℕ} {key : CStr} {data : List Byte} {s₁ : Config}
    {m' : CStr → Option CStr} (hR : Ready env.toGeometry b s s₁)
    (hS : Stored env.toGeometry key data b h s₁ s') (hI : Inv env s' m') : UpdateInv env s' m' := by
  refine ⟨hI, fun c hc => ?_, fun c hc => ?_⟩
  · rw [hS.state]
    rcases hR with ⟨-, rfl⟩ | ⟨-, hO⟩
    · exact hU.notMeta c hc
    · by_cases hcb : c = b
      · rw [hcb, hO.block_self]
        simp
      · rw [hO.block_ne hcb]
        exact hU.notMeta c hc
  · rw [hS.worn]
    rcases hR with ⟨-, rfl⟩ | ⟨-, hO⟩
    · exact hU.worn c hc
    · by_cases hcb : c = b
      · rw [hcb, hO.block_self]
        exact hU.worn b (hcb ▸ hc)
      · rw [hO.block_ne hcb]
        exact hU.worn c hc

/-- The store phase of a writable store succeeds and adds the pair. -/
theorem storePhase (hU : UpdateInv env s m) (hdrv : env.NoDriverError) {key val : CStr}
    (hro : s.readOnly = false) (hlen : key.len < 128)
    (hsize : 8 + key.len + val.len ≤ env.pageSize) :
    ∃ ret s', Serial.storePhase env key val s = .ok (ret, s') ∧
      UpdateInv env s' (Function.update m key (some val)) := by
  obtain ⟨s₁, he, hI₁, hs₁⟩ := hU.inv.invalidOld key
  have hU₁ : UpdateInv env s₁ (Function.update m key none) := by
    rcases hs₁ with rfl | ⟨h, -, rfl⟩
    · exact ⟨hI₁, hU.notMeta, hU.worn⟩
    · exact hU.dropped hI₁
  have hro₁ : s₁.readOnly = false := by
    rcases hs₁ with rfl | ⟨h, -, rfl⟩
    · exact hro
    · exact hro
  obtain ⟨b, hb⟩ := hI₁.getHealthyBlock_isSome hro₁ fun c hc => by
    rw [hU₁.worn c hc]
    decide
  obtain ⟨s₂, h, s₃, hR, hS, hst, hI₃⟩ := hI₁.storeAt hdrv hro₁ hb
    (hU₁.notMeta b (getHealthyBlock_some hb).1) hlen (record_holds hsize) (Function.update_self ..)
  rw [Function.update_idem] at hI₃
  exact ⟨writeCode env.toGeometry s₃, s₃, by simp only [Serial.storePhase, he, hst],
    hU₁.stored hR hS hI₃⟩

/-- One operation of the update path, on the store and on the map. -/
theorem update (hU : UpdateInv env s m) (hdrv : env.NoDriverError) (u : Update)
    (hw : u.WellFormed env.toGeometry) : ∃ r s' m', Serial.update env s u = .ok (r, s') ∧
      MapStep m ⟨u, s.readOnly, r⟩ m' ∧ UpdateInv env s' m' := by
  cases u with
  | store key val =>
    cases hro : s.readOnly with
    | true =>
      exact ⟨⟨-3, []⟩, s, m, by simp only [Serial.update, hro, if_true], by simp [MapStep], hU⟩
    | false =>
      obtain ⟨ret, s', he, hU'⟩ := hU.storePhase hdrv hro hw.1 hw.2
      refine ⟨⟨ret, []⟩, s', _, ?_, by simp [MapStep], hU'⟩
      simp only [Serial.update, hro, Bool.false_eq_true, if_false, he]
      rfl
  | get key =>
    refine ⟨_, s, m, rfl, ⟨rfl, ?_⟩, hU⟩
    cases hm : m key with
    | none =>
      simp only [hU.inv.getKeyval_none hm]
      decide
    | some val =>
      obtain ⟨h, -, -, he⟩ := hU.inv.getKeyval_some hdrv hm
      simp only [he]
      exact ⟨Int.natCast_nonneg _, trivial⟩
  | del key =>
    obtain ⟨ret, s', he, hret, hI', hs'⟩ := hU.inv.delKey key
    refine ⟨⟨ret, []⟩, s', _, by simp only [Serial.update, he]; rfl, ⟨rfl, hret⟩, ?_⟩
    rcases hs' with rfl | ⟨h, -, rfl⟩
    · exact ⟨hI', hU.notMeta, hU.worn⟩
    · exact hU.dropped hI'
  | format =>
    have hf : Serial.format env s = (0, (Serial.format env s).2) := by
      simp [Serial.format, hdrv.erase]
    exact ⟨_, _, _, rfl, rfl, UpdateInv.format hf⟩

/-- A sequence of operations. -/
theorem run (hdrv : env.NoDriverError) : ∀ (us : List Update) (s : Config) (m : CStr → Option CStr),
    UpdateInv env s m → (∀ u ∈ us, u.WellFormed env.toGeometry) →
      ∃ es s' m', es.map Shown.req = us ∧ Run (UpdateStep env) s es s' ∧ Run MapStep m es m' ∧
        UpdateInv env s' m'
  | [], s, m, hU, _ => ⟨[], s, m, rfl, .nil s, .nil m, hU⟩
  | u :: us, s, m, hU, hw => by
      obtain ⟨r, s₁, m₁, he, hm, hU₁⟩ := hU.update hdrv u (hw u List.mem_cons_self)
      obtain ⟨es, s', m', hes, hr, hmr, hU'⟩ :=
        run hdrv us s₁ m₁ hU₁ fun u' hu' => hw u' (List.mem_cons_of_mem _ hu')
      refine ⟨⟨u, s.readOnly, r⟩ :: es, s', m', ?_, .cons ⟨rfl, he⟩ hr, .cons hm hmr, hU'⟩
      rw [List.map_cons, hes]

end UpdateInv

/-- From a successful `format`, every sequence of updates runs to its end (so `hash_add` and
`get_next_page` never return `-1` and no bucket is freed twice), a finite map shows the same events,
and the representation invariant holds where the sequence ends. -/
theorem update_path_refines_map (env : Env) (hdrv : env.NoDriverError) {s₀ s : Config}
    (hf : format env s₀ = (0, s)) (us : List Update)
    (hw : ∀ u ∈ us, u.WellFormed env.toGeometry) :
    ∃ es s' m, es.map Shown.req = us ∧ Run (UpdateStep env) s es s' ∧
      Run MapStep (fun _ => none) es m ∧ {k | m k ≠ none}.Finite ∧ RepInv env.toGeometry s' := by
  obtain ⟨es, s', m, hes, hr, hm, hU⟩ := UpdateInv.run hdrv us s _ (UpdateInv.format hf) hw
  exact ⟨es, s', m, hes, hr, hm, hU.inv.finite, hU.inv.repInv⟩

/-- A pair stored, read and deleted on a new device. -/
theorem update_path_refines_map_start :
    ∃ es s' m, es.map Shown.req = [.store (.ofBytes [107]) (.ofBytes [118]), .get (.ofBytes [107]),
        .del (.ofBytes [107])] ∧
      Run (UpdateStep (.ideal tinyGeometry)) (Env.ideal tinyGeometry).start es s' ∧
      Run MapStep (fun _ => none) es m ∧ {k | m k ≠ none}.Finite ∧ RepInv tinyGeometry s' := by
  have hf : format (.ideal tinyGeometry) (.blank []) = (0, (Env.ideal tinyGeometry).start) := rfl
  exact update_path_refines_map (.ideal tinyGeometry) (Env.ideal_noDriverError _) hf
    [.store (.ofBytes [107]) (.ofBytes [118]), .get (.ofBytes [107]), .del (.ofBytes [107])]
    (by simp [Update.WellFormed, Env.ideal, tinyGeometry, Geometry.ofSizes, CStr.len, CStr.ofBytes])

end LkpProjects.Serial
