import LkpProjects.Parallel.Merge

/-! # The parallel store: the map behind the ledger

`MapInv env s m` says that the store holds the map `m`: the ledger is right with `m` for what the pages hold,
every key of `m` has a bucket, `hash_search` finds every bucket under its key, a slot of the table is free, and
a data block with pages in use is marked used, without which `get_keyval` does not look at its pages.

A search gives up one slot before it has seen all, so a pair that takes the last but one free slot may not be
found. `set_keyval` keeps the invariant with two free slots.
-/
namespace LkpProjects.Parallel
open Nand Bytes Hoare
open Serial (Geometry HdrKind Holds GcRead record strncmpEq writtenBack rewriteBuffer cut)
set_option autoImplicit false

/-! ## Searching -/

section Table
variable {g : Geometry} {s s' : Config} {key : CStr} {h j index n : ℕ} {t t' : ℕ → Bucket}

theorem bucketLayout_key_eq_some {b : Bucket} :
    bucketLayout.key b = some key ↔ b.pState = .pgValid ∧ b.key = key := by
  cases h : b.pState <;> simp [bucketLayout, Bucket.held, h]

theorem searchLoop_eq : ∀ (fuel i : ℕ),
    searchLoop n t key fuel i = ProbeTable.lookupFrom bucketLayout n t key fuel i
  | 0, _ => rfl
  | fuel + 1, i => by
    rw [searchLoop, ProbeTable.lookupFrom, searchLoop_eq fuel]
    have hcond : ((t i).pState = .pgValid ∧ (t i).key = key) ↔ bucketLayout.key (t i) = some key :=
      bucketLayout_key_eq_some.symm
    by_cases hk : bucketLayout.key (t i) = some key
    · rw [if_pos (hcond.mpr hk), if_pos hk]
    · rw [if_neg (mt hcond.mp hk), if_neg hk]
      rfl

/-- Every key that the table holds is found, and no other. -/
abbrev TableOk (g : Geometry) (t : ℕ → Bucket) : Prop :=
  ProbeTable.WellPlaced bucketLayout (hashSlots g) Serial.home t

theorem TableOk.search_iff (hT : TableOk g s.hashtable) :
    hashSearch g s.hashtable key = some h ↔ s.Valid g h ∧ (s.hashtable h).key = key := by
  rw [hashSearch, searchLoop_eq, ProbeTable.lookup_iff hT (hashSlots_pos g), bucketLayout_key_eq_some,
    Config.Valid, and_assoc]

theorem TableOk.search_none (hT : TableOk g s.hashtable) :
    hashSearch g s.hashtable key = none ↔ ∀ h, s.Valid g h → (s.hashtable h).key ≠ key := by
  constructor
  · intro hnone h hv hk
    rw [hT.search_iff.mpr ⟨hv, hk⟩] at hnone
    cases hnone
  · intro hno
    cases hs : hashSearch g s.hashtable key with
    | none => rfl
    | some h =>
      obtain ⟨hv, hk⟩ := hT.search_iff.mp hs
      exact absurd hk (hno h hv)

theorem TableOk.key_inj (hT : TableOk g s.hashtable) (hv : s.Valid g h) (hv' : s.Valid g j)
    (he : (s.hashtable h).key = (s.hashtable j).key) : h = j :=
  hT.distinct h hv.1 j hv'.1 _ (bucketLayout_key_eq_some.mpr ⟨hv.2, he⟩)
    (bucketLayout_key_eq_some.mpr ⟨hv'.2, rfl⟩)

/-- A table without keys. -/
theorem tableOk_empty (hfree : ∀ h, (t h).pState = .pgFree) : TableOk g t where
  distinct i _ j _ k hk := by
    rw [bucketLayout_key_eq_some, hfree] at hk
    cases hk.1
  path i _ k hk := by
    rw [bucketLayout_key_eq_some, hfree] at hk
    cases hk.1

/-- Freeing slots keeps every other key found. -/
theorem TableOk.freed (hT : TableOk g t)
    (hsame : ∀ j, (t' j).dirty = (t j).dirty ∧ ((t' j).pState = .pgValid → (t j).pState = .pgValid ∧
      (t' j).key = (t j).key)) : TableOk g t' := by
  refine hT.mono (fun i _ k hk => ?_) fun i _ hm => ?_
  · obtain ⟨hv, hk⟩ := bucketLayout_key_eq_some.mp hk
    obtain ⟨hv', hk'⟩ := (hsame i).2 hv
    exact bucketLayout_key_eq_some.mpr ⟨hv', hk' ▸ hk⟩
  · exact (hsame i).1.trans hm

/-! ## Adding -/

/-- The table that `hash_add` leaves, and the slot it took. -/
def addTo (g : Geometry) (key : CStr) (index : ℕ) (t : ℕ → Bucket) : Option ℕ × (ℕ → Bucket) :=
  addLoop (hashSlots g) key index (hashSlots g - 1) (Serial.home key % hashSlots g) t

theorem hashAdd_addTo {o : Option ℕ} (he : hashAdd g key index s = .ok (o, s')) :
    key.len < keyRoom ∧ ∃ t, addTo g key index s.hashtable = (o, t) ∧ s' = { s with hashtable := t } ∧
      ∀ h, o = some h → Entered (hashSlots g) key index s.hashtable h t := by
  obtain ⟨hroom, t, rfl, hE⟩ := hashAdd_ok he
  rw [hashAdd, if_neg (not_le.mpr hroom), get_bind_ok] at he
  obtain ⟨_, s₁, he₁, hend⟩ := bind_ok.mp he
  obtain rfl := modify_ok.mp he₁
  obtain ⟨ho, hs⟩ := pure_ok.mp hend
  exact ⟨hroom, t, Prod.ext ho (congrArg Config.hashtable hs), rfl, hE⟩

/-- A new key, with two slots to spare. -/
theorem TableOk.added (hT : TableOk g t) (habs : ∀ i < hashSlots g, bucketLayout.key (t i) ≠ some key)
    (hcard : (ProbeTable.occupied bucketLayout (hashSlots g) t).card + 2 ≤ hashSlots g) :
    ∃ h t', addTo g key index t = (some h, t') ∧ TableOk g t' := by
  obtain ⟨d, -, -, heq, hok⟩ := ProbeTable.insert_spec hT (Bucket.fill key index) (k := key) (fun _ => rfl)
    (fun _ => rfl) habs hcard
  exact ⟨_, _, (addLoop_eq _ _ _).trans heq, hok⟩

end Table

/-! ## The invariant -/

/-- A page with a record of a key and its value in the map. -/
def PairIn (g : Geometry) (m : CStr → Option CStr) (key : CStr) (page : List Byte) : Prop :=
  key.len < keyRoom ∧ ∃ val, m key = some val ∧ Holds g page key val

/-- Of the blocks in `D`, those with pages in use are marked used. -/
def MarkedOn (D : ℕ → Prop) (s : Config) : Prop := ∀ b, D b → 0 < (s.blocks b).currentPageOffset →
  (s.blocks b).state = .blkUsed

/-- A data block with pages in use is marked used. -/
abbrev MarkedUsed (s : Config) : Prop := MarkedOn s.Unlisted s

/-- The store holds the map `m`. -/
structure MapInv (env : Env) (s : Config) (m : CStr → Option CStr) : Prop where
  ledger : Orderly env.toGeometry (PairIn env.toGeometry m) s
  table : TableOk env.toGeometry s.hashtable
  complete : ∀ k v, m k = some v → ∃ h, s.Valid env.toGeometry h ∧ (s.hashtable h).key = k
  spare : (s.inUse env.toGeometry).card < hashSlots env.toGeometry
  marked : MarkedUsed s

variable {env : Env} {g : Geometry} {s s' : Config} {m : CStr → Option CStr} {key val : CStr} {b h j : ℕ}

/-- The map may change at keys that no bucket has. -/
theorem Orderly.imp {P Q : CStr → List Byte → Prop} (hO : Orderly g P s)
    (hPQ : ∀ h, s.Valid g h → P (s.hashtable h).key (content g.pageSize s.mtd (s.hashtable h).index) →
      Q (s.hashtable h).key (content g.pageSize s.mtd (s.hashtable h).index)) : Orderly g Q s :=
  ⟨{ hO.on with page := fun h hv => hPQ h hv (hO.on.page h hv) }, hO.ranks⟩

theorem Orderly.pair (hO : Orderly g (PairIn g m) s) : Orderly g (Pair g) s :=
  hO.imp fun _ _ hp => ⟨hp.1, hp.2.choose, hp.2.choose_spec.2⟩

namespace MapInv

/-- The pair of a valid bucket. -/
theorem holds (hI : MapInv env s m) (hv : s.Valid env.toGeometry h) : (s.hashtable h).key.len < keyRoom ∧
    ∃ v, m (s.hashtable h).key = some v ∧ Holds env.toGeometry (pageOf env.toGeometry s h) (s.hashtable h).key v :=
  hI.ledger.on.page h hv

theorem search_some (hI : MapInv env s m) {v : CStr} (hm : m key = some v) :
    ∃ h, hashSearch env.toGeometry s.hashtable key = some h ∧ s.Valid env.toGeometry h ∧
      (s.hashtable h).key = key ∧ Holds env.toGeometry (pageOf env.toGeometry s h) key v := by
  obtain ⟨h, hv, rfl⟩ := hI.complete key v hm
  obtain ⟨-, w, hw, hp⟩ := hI.holds hv
  obtain rfl := Option.some.inj (hm.symm.trans hw)
  exact ⟨h, hI.table.search_iff.mpr ⟨hv, rfl⟩, hv, rfl, hp⟩

theorem search_none (hI : MapInv env s m) (hm : m key = none) :
    hashSearch env.toGeometry s.hashtable key = none := by
  refine hI.table.search_none.mpr fun h hv hk => ?_
  obtain ⟨-, v, hw, -⟩ := hI.holds hv
  rw [hk, hm] at hw
  cases hw

/-- A valid bucket's block is marked used. -/
theorem state (hI : MapInv env s m) (hv : s.Valid env.toGeometry h) :
    (s.blocks (s.blkOf env.toGeometry h)).state = .blkUsed :=
  hI.marked _ (hI.ledger.on.data h hv)
    (Nat.lt_of_le_of_lt (Nat.zero_le _) (hI.ledger.on.bucket h hv).written)

theorem of_ledger (hI : MapInv env s m) (he : s'.ledger = s.ledger) : MapInv env s' m := by
  have hL := he
  rw [Config.ledger, Config.ledger, Prod.mk.injEq, Prod.mk.injEq, Prod.mk.injEq] at he
  obtain ⟨hblk, htab, hord, -⟩ := he
  refine ⟨hI.ledger.of_ledger hL, by rw [htab]; exact hI.table, fun k v hm => ?_, ?_, fun b hun => ?_⟩
  · rw [htab]
    obtain ⟨h, hv, hk⟩ := hI.complete k v hm
    exact ⟨h, ⟨hv.1, by rw [htab]; exact hv.2⟩, hk⟩
  · rw [Config.inUse, htab]
    exact hI.spare
  · rw [hblk]
    exact hI.marked b (by rwa [Config.Unlisted, hord] at hun)

theorem lock (hI : MapInv env s m) (l : Lock) (held : Bool) : MapInv env (s.lock l held) m := hI.of_ledger rfl

end MapInv

end LkpProjects.Parallel
