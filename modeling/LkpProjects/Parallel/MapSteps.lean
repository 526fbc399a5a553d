import LkpProjects.Parallel.MapInvariant

/-! # The parallel store: lookups, deletions and stores on the map

What `get_keyval`, `del_key`, `format` and the first part of `set_keyval` do, as weakest preconditions without a
fault: each returns, with the result that the map asks for, and leaves a store that holds the next map. For
`set_keyval` this is under `SetOk`: the pair fits, a data block takes the record, and the table has a slot to
spare behind it.
-/
namespace LkpProjects.Parallel
open Nand Bytes Hoare
open Serial (Geometry HdrKind Holds record strncmpEq)
set_option autoImplicit false

variable {env : Env} {g : Geometry} {s s' : Config} {m : CStr → Option CStr} {key val : CStr} {b h j : ℕ}

/-! ## A page is invalidated -/

theorem dropped_state : ((s.dropped g h).blocks b).state = (s.blocks b).state := by
  by_cases hb : b = s.blkOf g h
  · simp [Config.dropped, hb, Config.modifyBlk_self]
  · simp [Config.dropped, Config.modifyBlk_ne hb]

theorem dropped_dirty : ((s.dropped g h).hashtable j).dirty = (s.hashtable j).dirty := by
  rw [dropped_hashtable]
  by_cases hj : j = h
  · rw [hj, Function.update_self]
  · rw [Function.update_of_ne hj]

theorem TableOk.dropped (hT : TableOk g s.hashtable) : TableOk g (s.dropped g h).hashtable := by
  refine hT.freed fun j => ⟨dropped_dirty, fun hv => ⟨?_, dropped_key⟩⟩
  rw [dropped_hashtable] at hv
  by_cases hj : j = h
  · rw [hj, Function.update_self] at hv
    cases hv
  · rwa [Function.update_of_ne hj] at hv

theorem inUse_dropped : (s.dropped g h).inUse g ⊆ s.inUse g := fun _ hj =>
  mem_inUse.mpr (dropped_valid.mp (mem_inUse.mp hj)).1

/-- The slots of the valid buckets with other keys. -/
def Config.others (g : Geometry) (s : Config) (key : CStr) : Finset ℕ :=
  (s.inUse g).filter fun h => (s.hashtable h).key ≠ key

theorem MarkedUsed.dropped (hM : MarkedUsed s) : MarkedUsed (s.dropped g h) := fun b hun hpos => by
  rw [dropped_offset] at hpos
  rw [dropped_state]
  exact hM b hun hpos

namespace MapInv

/-- Dropping the bucket of a key takes the key from the map. -/
theorem dropped (hI : MapInv env s m) (hv : s.Valid env.toGeometry h) :
    MapInv env (s.dropped env.toGeometry h) (Function.update m (s.hashtable h).key none) where
  ledger := by
    refine (hI.ledger.dropped hv).imp fun j hj hp => ?_
    obtain ⟨hvj, hne⟩ := dropped_valid.mp hj
    rw [dropped_key] at hp ⊢
    have hkey : (s.hashtable j).key ≠ (s.hashtable h).key := fun he => hne (hI.table.key_inj hvj hv he)
    rw [PairIn, Function.update_of_ne hkey]
    exact hp
  table := hI.table.dropped
  complete k v hm := by
    have hk : k ≠ (s.hashtable h).key := by
      rintro rfl
      rw [Function.update_self] at hm
      cases hm
    rw [Function.update_of_ne hk] at hm
    obtain ⟨j, hvj, rfl⟩ := hI.complete k v hm
    exact ⟨j, dropped_valid.mpr ⟨hvj, fun he => hk (by rw [he])⟩, dropped_key⟩
  spare := (Finset.card_le_card inUse_dropped).trans_lt hI.spare
  marked := hI.marked.dropped

theorem not_free {g : Geometry} (hv : s.Valid g h) : (s.hashtable h).pState ≠ .pgFree := by
  rw [hv.2]
  intro hfree
  cases hfree

/-- `invalid_pg` on a valid bucket returns. -/
theorem invalidPg_wp (hI : MapInv env s m) (hv : s.Valid env.toGeometry h) :
    wp (invalidPg env.toGeometry h) (fun _ s' => s' = s.dropped env.toGeometry h) (fun _ => False) s := by
  have hin := (hI.ledger.on.bucket h hv).inside
  have hmem := (hI.ledger.on.memList _ hin h).mpr ⟨hv, rfl⟩
  have hlist : onList env.toGeometry s h = true :=
    List.any_eq_true.mpr ⟨_, List.mem_range.mpr hin, List.contains_iff_mem.mpr hmem⟩
  rw [invalidPg, wp_bind, wp_get, wp_ite]
  refine ⟨fun hout => absurd hin (not_lt.mpr hout), fun _ => ?_⟩
  rw [wp_ite]
  exact ⟨fun hno => Bool.false_ne_true (hno.symm.trans hlist), fun _ => rfl⟩

/-- The part of `set_keyval` that invalidates the old page of a key. -/
theorem invalidOld_wp (hI : MapInv env s m) (key : CStr) : wp (invalidOld env key)
    (fun _ s' => MapInv env s' (Function.update m key none) ∧
      s'.inUse env.toGeometry = s.others env.toGeometry key) (fun _ => False) s := by
  rw [invalidOld, wp_bind, wp_get]
  cases hs : hashSearch env.toGeometry s.hashtable key with
  | none =>
    have hno := hI.table.search_none.mp hs
    have hm : m key = none := by
      by_contra hsome
      obtain ⟨v, hv⟩ := Option.ne_none_iff_exists'.mp hsome
      obtain ⟨h, hvh, hk⟩ := hI.complete key v hv
      exact hno h hvh hk
    refine ⟨?_, (Finset.filter_true_of_mem fun j hj => hno j (mem_inUse.mp hj)).symm⟩
    rw [← hm, Function.update_eq_self]
    exact hI
  | some h =>
    obtain ⟨hv, rfl⟩ := hI.table.search_iff.mp hs
    refine (hI.invalidPg_wp hv).post ?_
    rintro _ _ rfl
    refine ⟨hI.dropped hv, Finset.ext fun j => ?_⟩
    rw [mem_inUse, dropped_valid, Config.others, Finset.mem_filter, mem_inUse]
    exact and_congr_right fun hvj => not_congr ⟨fun he => by rw [he], fun he => hI.table.key_inj hvj hv he⟩

/-! ## `get_keyval` and `del_key` -/

/-- `get_keyval` answers from the map. -/
def Got (m : CStr → Option CStr) (key : CStr) (r : ℤ × List Byte) : Prop :=
  match m key with
  | some val => 0 ≤ r.1 ∧ r.2 = val.bytes
  | none => r.1 = -1

theorem getLocked_wp (hI : MapInv env s m) (hdrv : env.NoDriverError) (hone : s.locks .oneLock = false) :
    wp (getLocked env key) (fun r s' => Got m key r ∧ s' = s) (fun _ => False) s := by
  rw [getLocked, wp_bind, wp_get]
  cases hm : m key with
  | none =>
    rw [hI.search_none hm]
    refine ⟨?_, rfl⟩
    rw [Got, hm]
  | some v =>
    obtain ⟨h, hs, hv, rfl, hp⟩ := hI.search_some hm
    have hst := hI.state hv
    rw [Config.blkOf] at hst
    have hvalid : ¬ (s.hashtable h).pState = .pgFree := not_free hv
    rw [hs]
    simp only
    rw [wp_ite]
    refine ⟨fun _ => ?_, fun hno => absurd hst hno⟩
    rw [wp_ite]
    refine ⟨fun hfree => absurd hfree hvalid, fun _ => ?_⟩
    rw [wp_bind, readPage, wp_withLock]
    refine ⟨fun hheld => Bool.false_ne_true (hone.symm.trans hheld), fun _ => ?_⟩
    rw [wp_bind, wp_get, wp_ite]
    refine ⟨fun hfail => Bool.false_ne_true (hfail.symm.trans (hdrv.read _ _)), fun _ => ?_⟩
    rw [wp_pure, lock_back hone]
    have hpage : content env.pageSize (s.lock .oneLock true).mtd (s.hashtable h).index =
        pageOf env.toGeometry s h := rfl
    rw [hpage, wp_ite]
    refine ⟨fun _ => ?_, fun hno => absurd hp.strncmpEq hno⟩
    rw [wp_pure, Got, hm, hp.keyLen_eq, hp.valLen_eq]
    exact ⟨⟨Int.natCast_nonneg _, hp.val_bytes⟩, rfl⟩

/-- `get_keyval` between two operations. -/
theorem getKeyval_wp (hI : MapInv env s m) (hdrv : env.NoDriverError) (hidle : ∀ l, s.locks l = false) :
    wp (getKeyval env (some key)) (fun r s' => Got m key r ∧ s' = s) (fun _ => False) s := by
  rw [getKeyval, wp_withLock]
  refine ⟨fun hheld => Bool.false_ne_true ((hidle _).symm.trans hheld), fun _ => ?_⟩
  have hlist : (s.lock .eraseLock true).locks .listLock = false := hidle .listLock
  rw [wp_withLock]
  refine ⟨fun hheld => Bool.false_ne_true (hlist.symm.trans hheld), fun _ => ?_⟩
  rw [deref, wp_bind, wp_pure]
  refine (((hI.lock .eraseLock true).lock .listLock true).getLocked_wp hdrv (hidle .oneLock)).post ?_
  rintro r _ ⟨hr, rfl⟩
  exact ⟨hr, by rw [lock_back hlist, lock_back (hidle _)]⟩

/-- What `del_key` tells of a key. -/
def Deleted (m : CStr → Option CStr) (key : CStr) (ret : ℤ) : Prop :=
  if m key = none then ret = -1 else 0 ≤ ret

theorem delLocked_wp (hI : MapInv env s m) : wp (delLocked env key)
    (fun ret s' => Deleted m key ret ∧ MapInv env s' (Function.update m key none)) (fun _ => False) s := by
  rw [delLocked, wp_bind, wp_get]
  cases hm : m key with
  | none =>
    rw [hI.search_none hm]
    refine ⟨?_, ?_⟩
    · rw [Deleted, if_pos hm]
    · rw [← hm, Function.update_eq_self]
      exact hI
  | some v =>
    obtain ⟨h, hs, hv, rfl, -⟩ := hI.search_some hm
    have hst := hI.state hv
    rw [Config.blkOf] at hst
    have hvalid : ¬ (s.hashtable h).pState = .pgFree := not_free hv
    rw [hs]
    simp only
    rw [wp_ite]
    refine ⟨fun _ => ?_, fun hno => absurd hst hno⟩
    rw [wp_ite]
    refine ⟨fun hfree => absurd hfree hvalid, fun _ => ?_⟩
    refine (hI.invalidPg_wp hv).bind ?_
    rintro _ _ rfl
    refine ⟨?_, hI.dropped hv⟩
    rw [Deleted, if_neg (by rw [hm]; exact Option.some_ne_none v)]
    exact Int.natCast_nonneg _

theorem delKey_wp (hI : MapInv env s m) (hidle : ∀ l, s.locks l = false) : wp (delKey env (some key))
    (fun ret s' => Deleted m key ret ∧ MapInv env s' (Function.update m key none)) (fun _ => False) s := by
  rw [delKey, wp_withLock]
  refine ⟨fun hheld => Bool.false_ne_true ((hidle _).symm.trans hheld), fun _ => ?_⟩
  rw [wp_withLock]
  refine ⟨fun hheld => Bool.false_ne_true ((hidle .listLock).symm.trans hheld), fun _ => ?_⟩
  rw [deref, wp_bind, wp_pure]
  refine (((hI.lock .eraseLock true).lock .listLock true).delLocked_wp).post fun ret s' hs' => ?_
  exact ⟨hs'.1, (hs'.2.lock .listLock false).lock .eraseLock false⟩

/-! ## `format` -/

/-- A store that was formatted is empty. -/
theorem of_format {ret : ℤ}
    (hranks : ∀ j b, s.metaBlkordr j = some b → j < nbProbed env.toGeometry)
    (he : format env s = .ok (ret, s')) : MapInv env s' fun _ => none := by
  have hO := @format_orderly env (PairIn env.toGeometry fun _ => none) s s' ret hranks he
  obtain ⟨-, rfl⟩ := format_ok he
  refine ⟨hO, tableOk_empty fun _ => rfl, fun k v h => absurd h.symm (Option.some_ne_none v), ?_,
    fun b _ hpos => absurd hpos (Nat.lt_irrefl 0)⟩
  refine Nat.lt_of_le_of_lt (Nat.le_of_eq ?_) (hashSlots_pos env.toGeometry)
  rw [Finset.card_eq_zero]
  refine Finset.eq_empty_of_forall_notMem fun i hi => ?_
  obtain ⟨-, hv⟩ := mem_inUse.mp hi
  cases hv

end MapInv

/-- `format` returns 0 between two operations. -/
theorem format_returns (hdrv : env.NoDriverError) (hidle : ∀ l, s.locks l = false) :
    wp (format env) (fun ret _ => ret = 0) (fun _ => False) s := by
  rw [format, wp_withLock]
  refine ⟨fun hheld => Bool.false_ne_true ((hidle _).symm.trans hheld), fun _ => ?_⟩
  rw [wp_bind, wp_get, hdrv.erase]
  simp only
  rw [wp_bind, wp_modify, wp_bind, wp_withLock]
  refine ⟨fun hheld => Bool.false_ne_true ((hidle .listLock).symm.trans hheld), fun _ => ?_⟩
  rw [wp_modify, wp_bind, wp_modify, wp_pure]

/-! ## `set_keyval` up to its last unlock -/

section Marks
variable {D D' : ℕ → Prop}

theorem MarkedOn.mono (hM : MarkedOn D s) (hD : ∀ b, D' b → D b) : MarkedOn D' s :=
  fun b hb => hM b (hD b hb)

theorem MarkedOn.setUsed (hM : MarkedOn D s) (b : ℕ) : MarkedOn D (s.setState b .blkUsed) := fun c hc hpos => by
  by_cases hcb : c = b
  · rw [hcb, Config.setState, Config.modifyBlk_self]
  · rw [Config.setState, Config.modifyBlk_ne hcb] at hpos ⊢
    exact hM c hc hpos

/-- An erased block may be added to them. -/
theorem MarkedOn.wiped (hM : MarkedOn D s) : MarkedOn (fun c => D c ∨ c = b) (s.wiped g b) := fun c hc hpos => by
  by_cases hcb : c = b
  · rw [hcb, wiped_self] at hpos
    exact absurd hpos (lt_irrefl 0)
  · rw [wiped_ne hcb] at hpos ⊢
    exact hM c (hc.resolve_right hcb) hpos

/-- A page of another block is written. -/
theorem MarkedOn.program {p : ℕ} {buf : List Byte} (hM : MarkedOn D s) (hp : ¬ D (p / g.pagesPerBlock)) :
    MarkedOn D (programPage g p buf s) := fun c hc hpos => by
  have hne : c ≠ p / g.pagesPerBlock := fun he => hp (he ▸ hc)
  rw [programPage_blocks_ne hne] at hpos ⊢
  exact hM c hc hpos

end Marks

/-- A block that is written to and marked. -/
theorem MarkedUsed.written (hM : MarkedUsed s) (p : ℕ) (buf : List Byte) (full : Bool) :
    MarkedUsed (({ programPage g p buf s with readOnly := full } : Config).setState (p / g.pagesPerBlock)
      .blkUsed) := fun c hun hpos => by
  by_cases hc : c = p / g.pagesPerBlock
  · rw [hc, Config.setState, Config.modifyBlk_self]
  · rw [Config.setState, Config.modifyBlk_ne hc] at hpos ⊢
    have hsame : (programPage g p buf s).blocks c = s.blocks c := programPage_blocks_ne hc
    simp only [hsame] at hpos ⊢
    exact hM c hun hpos

theorem writeHdr_marked {p : ℕ} {data : HdrKind} {ret : ℤ} (hM : MarkedUsed s)
    (he : writeHdr env p data s = .ok (ret, s')) : MarkedUsed s' := by
  obtain ⟨-, -, rfl⟩ | ⟨-, -, s₁, he₁, rfl⟩ := writeHdr_ok he
  · exact hM
  · obtain ⟨-, -, rfl⟩ | ⟨-, -, -, -, rfl⟩ := writePage_ok he₁
    · exact hM.setUsed _
    · exact hM.written _ _ _

theorem getNextBlockToWrite_marked {ret : ℤ} (hM : MarkedUsed s)
    (he : getNextBlockToWrite env s = .ok (ret, s')) : MarkedUsed s' := by
  obtain ⟨-, -, rfl⟩ | ⟨b, -, ⟨-, -, rfl⟩ | ⟨-, hhdr⟩⟩ := getNextBlockToWrite_ok he
  · exact hM
  · exact hM.setUsed b
  · exact writeHdr_marked (hM.setUsed b) hhdr

theorem MapInv.picked {ret : ℤ} (hI : MapInv env s m) (he : getNextBlockToWrite env s = .ok (ret, s')) :
    MapInv env s' m ∧ s'.hashtable = s.hashtable := by
  have htable : s'.hashtable = s.hashtable := congrArg Prod.fst (getNextBlockToWrite_table.eq he)
  refine ⟨⟨(getNextBlockToWrite_orderly hI.ledger he).1, htable ▸ hI.table, fun k v hm => ?_, ?_,
    getNextBlockToWrite_marked hI.marked he⟩, htable⟩
  · obtain ⟨h, hv, hk⟩ := hI.complete k v hm
    exact ⟨h, by rw [Config.Valid, htable]; exact hv, by rw [htable]; exact hk⟩
  · rw [Config.inUse, htable]
    exact hI.spare

/-- `get_next_block_to_write` returns where the two locks are free. -/
theorem getNextBlockToWrite_wp (hdrv : env.NoDriverError) (hord : nbProbed env.toGeometry ≤ maxMetaBlk)
    (hone : s.locks .oneLock = false) (hlist : s.locks .listLock = false) :
    wp (getNextBlockToWrite env) (fun ret s' => getNextBlockToWrite env s = .ok (ret, s')) (fun _ => False) s := by
  refine wp_iff.mpr ⟨fun _ _ => id, fun f he => ?_⟩
  have hreturns : wp (getNextBlockToWrite env) (fun _ _ => True) (fun _ => False) s := by
    rw [getNextBlockToWrite, wp_bind, wp_withLock]
    refine ⟨fun hheld => Bool.false_ne_true (hlist.symm.trans hheld), fun _ => ?_⟩
    rw [wp_bind, checkOrder, wp_ite]
    refine ⟨fun hbig => absurd hord (not_le.mpr hbig), fun _ => ?_⟩
    rw [wp_pure, wp_bind, wp_get, wp_pure]
    cases hb : getHealthyBlock env.toGeometry (s.lock .listLock true) with
    | none => trivial
    | some b =>
      obtain ⟨hlt, -⟩ := Space.mem_openData.mp (getHealthyBlock_some (s := s.lock .listLock true) hb)
      rw [lock_back hlist]
      simp only
      rw [wp_bind, wp_modify, wp_bind, wp_get, wp_ite]
      refine ⟨fun h0 => ?_, fun _ => trivial⟩
      have hofs : ((s.setState b .blkUsed).blocks b).currentPageOffset = 0 := Nat.lt_one_iff.mp h0
      have hdiv : (b * env.pagesPerBlock + ((s.setState b .blkUsed).blocks b).currentPageOffset) /
          env.pagesPerBlock = b := by
        rw [hofs, Nat.add_zero, Nat.mul_div_cancel _ env.pagesPerBlock_pos]
      rw [writeHdr, wp_bind, wp_get, wp_ite]
      refine ⟨fun _ => trivial, fun _ => ?_⟩
      rw [wp_ite]
      refine ⟨fun hno => absurd hno (Nat.not_lt_zero _), fun _ => ?_⟩
      refine (writePage_wp (s := s.setState b .blkUsed) hdrv (by rwa [hdiv]) (.inr ⟨hone, hlist⟩)).bind
        fun ret s₁ _ => ?_
      rw [wp_bind, wp_modify, wp_pure]
      trivial
  exact hreturns.of_error he

/-- A page is written behind the others of a data block and entered in the table. -/
theorem MarkedUsed.stored {p : ℕ} {data : List Byte} {t : ℕ → Bucket} (hM : MarkedUsed s)
    (hun : s.Unlisted b) (hpos : 0 < (s.blocks b).currentPageOffset)
    (hlt : (s.blocks b).currentPageOffset < g.pagesPerBlock)
    (hp : p = b * g.pagesPerBlock + (s.blocks b).currentPageOffset) :
    MarkedUsed (s.stored g p data t b h) := fun c hc hofs => by
  have hdiv : p / g.pagesPerBlock = b := by rw [hp, Geometry.page_div hlt]
  have hstate : ((s.stored g p data t b h).blocks c).state = (s.blocks c).state := by
    by_cases hcb : c = b
    · rw [hcb, Config.stored, Config.listAdd, Config.modifyBlk_self, programPage, hdiv, Config.modifyBlk_self]
    · rw [stored_blocks_ne hcb hdiv]
  rw [hstate]
  rw [stored_offset, hdiv] at hofs
  split at hofs
  · next hcb => exact hcb ▸ hM b hun hpos
  · exact hM c hc hofs

/-- The condition on a set that gets past its first tests: a block is found, the record goes to a data block,
and the table has two slots that no other key takes. -/
structure SetOk (g : Geometry) (s : Config) (key : CStr) : Prop where
  block : ¬ NoBlock g s
  pick : PickOk g s
  spare : (s.others g key).card + 2 ≤ hashSlots g

namespace MapInv

/-- A record is written and entered under a key that the map does not have. -/
theorem stored {p : ℕ} {t : ℕ → Bucket} (hI : MapInv env s m) (hm : m key = none) (hlen : key.len < keyRoom)
    (hsize : 8 + key.len + val.len ≤ env.pageSize) (hb : b < env.nbBlocks) (hun : s.Unlisted b)
    (hpos : 0 < (s.blocks b).currentPageOffset) (hlt : (s.blocks b).currentPageOffset < env.pagesPerBlock)
    (hp : p = b * env.pagesPerBlock + (s.blocks b).currentPageOffset)
    (hE : Entered (hashSlots env.toGeometry) key p s.hashtable h t) (hT : TableOk env.toGeometry t)
    (hspare : (s.inUse env.toGeometry).card + 2 ≤ hashSlots env.toGeometry) :
    MapInv env (s.stored env.toGeometry p (record env.toGeometry key val) t b h)
      (Function.update m key (some val)) where
  ledger := by
    have hO : Orderly env.toGeometry (PairIn env.toGeometry (Function.update m key (some val))) s :=
      hI.ledger.imp fun j _ hpair => by
        obtain ⟨hroom, v, hv, hholds⟩ := hpair
        have hkey : (s.hashtable j).key ≠ key := by
          intro hk
          rw [hk, hm] at hv
          cases hv
        exact ⟨hroom, v, by rwa [Function.update_of_ne hkey], hholds⟩
    have hrec := Serial.record_holds (g := env.toGeometry) hsize
    exact ⟨hO.on.stored hb hun hpos hlt hp hrec.length.le ⟨hlen, val, Function.update_self .., hrec⟩ hE, hO.ranks⟩
  table := hT
  complete k v hk := by
    by_cases hkey : k = key
    · exact ⟨h, hE.valid.mpr (.inr rfl), by rw [stored_hashtable, hE.self, hkey]; rfl⟩
    · rw [Function.update_of_ne hkey] at hk
      obtain ⟨j, hv, hj⟩ := hI.complete k v hk
      exact ⟨j, hE.valid.mpr (.inl hv), by
        rw [stored_hashtable, (hE.other j (hE.ne_of_valid hv)).2.1, hj]⟩
  spare := by
    have hcard : ((s.stored env.toGeometry p (record env.toGeometry key val) t b h).inUse env.toGeometry).card ≤
        (s.inUse env.toGeometry).card + 1 := inUse_stored hE
    omega
  marked := hI.marked.stored hun hpos hlt hp

end MapInv

/-- `hash_add` of a key that has room in a bucket. -/
theorem hashAdd_of_addTo {index : ℕ} {t : ℕ → Bucket} (hlen : key.len < keyRoom)
    (ht : addTo g key index s.hashtable = (some h, t)) :
    hashAdd g key index s = .ok (some h, { s with hashtable := t }) := by
  have hadd : addLoop (hashSlots g) key index (hashSlots g - 1) (Serial.home key % hashSlots g) s.hashtable =
      (some h, t) := ht
  rw [hashAdd, if_neg (not_le.mpr hlen)]
  exact bind_ok.mpr ⟨s, s, rfl, by rw [hadd]; rfl⟩

namespace MapInv

/-- What a set that stores its pair leaves: the code is -1 when the page fills the store. -/
def Stored (env : Env) (m : CStr → Option CStr) (key val : CStr) (ret : ℤ) (s' : Config) : Prop :=
  MapInv env s' (Function.update m key (some val)) ∧ ret = if s'.readOnly then -1 else 0

theorem storeAt_wp (hI : MapInv env s m) (hdrv : env.NoDriverError) (hm : m key = none)
    (hlen : key.len < keyRoom) (hsize : 8 + key.len + val.len ≤ env.pageSize) (hb : b < env.nbBlocks)
    (hun : s.Unlisted b) (hpos : 0 < (s.blocks b).currentPageOffset)
    (hlt : (s.blocks b).currentPageOffset < env.pagesPerBlock) (hro : s.readOnly = false)
    (hone : s.locks .oneLock = false) (hlist : s.locks .listLock = false)
    (hspare : (s.inUse env.toGeometry).card + 2 ≤ hashSlots env.toGeometry) :
    wp (storeAt env key val b) (Stored env m key val) (fun _ => False) s := by
  have hdiv : (b * env.pagesPerBlock + (s.blocks b).currentPageOffset) / env.pagesPerBlock = b :=
    Geometry.page_div hlt
  have habs : ∀ i < hashSlots env.toGeometry, bucketLayout.key (s.hashtable i) ≠ some key := by
    intro i hi hk
    obtain ⟨hv, hk⟩ := bucketLayout_key_eq_some.mp hk
    obtain ⟨-, v, hsome, -⟩ := hI.holds ⟨hi, hv⟩
    rw [hk, hm] at hsome
    cases hsome
  obtain ⟨h, t, hadd, hT⟩ : ∃ h t, addTo env.toGeometry key
      (b * env.pagesPerBlock + (s.blocks b).currentPageOffset) s.hashtable = (some h, t) ∧
        TableOk env.toGeometry t := hI.table.added habs hspare
  rw [storeAt, wp_bind, wp_get]
  refine (writePage_wp hdrv (by rwa [hdiv]) (.inr ⟨hone, hlist⟩)).bind fun ret s₁ he₁ => ?_
  obtain ⟨hyes, -⟩ | ⟨-, -, -, hret, rfl⟩ := writePage_ok he₁
  · exact absurd (hro.symm.trans hyes) Bool.false_ne_true
  rw [wp_bind, wp_withLock]
  refine ⟨fun hheld => Bool.false_ne_true (hlist.symm.trans hheld), fun _ => ?_⟩
  have henter := hashAdd_of_addTo (s := ({ programPage env.toGeometry
      (b * env.pagesPerBlock + (s.blocks b).currentPageOffset) (record env.toGeometry key val) s with
        readOnly := isReadOnly env.toGeometry (programPage env.toGeometry
          (b * env.pagesPerBlock + (s.blocks b).currentPageOffset) (record env.toGeometry key val) s) } :
      Config).lock .listLock true) hlen hadd
  obtain ⟨-, t', hadd', hs', hE⟩ := hashAdd_addTo henter
  obtain ⟨-, rfl⟩ := Prod.mk.inj (hadd.symm.trans hadd')
  rw [enterBucket, wp_bind]
  refine wp_iff.mpr ⟨fun o s₂ he₂ => ?_, fun f he₂ => ?_⟩
  · obtain ⟨rfl, rfl⟩ := Prod.mk.inj (Except.ok.inj (henter.symm.trans he₂))
    have hdone := hI.stored hm hlen hsize hb hun hpos hlt rfl (hE h rfl) hT hspare
    rw [← lock_back (s := s.stored env.toGeometry (b * env.pagesPerBlock + (s.blocks b).currentPageOffset)
      (record env.toGeometry key val) t b h) hlist] at hdone
    exact ⟨hdone, hret⟩
  · cases henter.symm.trans he₂

/-- A set behind its first tests, with `erase_lock` held. -/
theorem setWrite_wp (hI : MapInv env s m) (hdrv : env.NoDriverError)
    (hord : nbProbed env.toGeometry ≤ maxMetaBlk) (hlen : key.len < keyRoom)
    (hsize : 8 + key.len + val.len ≤ env.pageSize) (hro : s.readOnly = false)
    (hone : s.locks .oneLock = false) (hlist : s.locks .listLock = false) (hok : SetOk env.toGeometry s key) :
    wp (setWrite env key val) (fun x s' => ∃ ret, x = .stored ret ∧ Stored env m key val ret s')
      (fun _ => False) s := by
  have hold : wp (withLock .listLock (invalidOld env key)) (fun _ s₁ =>
      withLock .listLock (invalidOld env key) s = .ok (⟨⟩, s₁) ∧ MapInv env s₁ (Function.update m key none) ∧
        s₁.inUse env.toGeometry = s.others env.toGeometry key) (fun _ => False) s := by
    have hbody : wp (withLock .listLock (invalidOld env key)) (fun _ s₁ =>
        MapInv env s₁ (Function.update m key none) ∧ s₁.inUse env.toGeometry = s.others env.toGeometry key)
        (fun _ => False) s := by
      rw [wp_withLock]
      refine ⟨fun hheld => Bool.false_ne_true (hlist.symm.trans hheld), fun _ => ?_⟩
      exact ((hI.lock .listLock true).invalidOld_wp key).post fun _ s₁ h₁ => ⟨h₁.1.lock _ _, h₁.2⟩
    exact wp_iff.mpr ⟨fun _ s₁ he => ⟨he, hbody.of_ok he⟩, fun f he => hbody.of_error he⟩
  rw [setWrite]
  refine hold.bind fun _ s₁ h₁ => ?_
  obtain ⟨he₁, hI₁, huse⟩ := h₁
  have hl₁ := (invalidOld_keeps key).locks_eq he₁
  have hro₁ : s₁.readOnly = false :=
    (congrArg Space.readOnly ((space_withLock (invalidOld_space key)).eq he₁)).trans hro
  have hno₁ : ¬ NoBlock env.toGeometry s₁ := fun hno => hok.block (((invalidOld_noBlock key).of_ok he₁).mp hno)
  refine (getNextBlockToWrite_wp hdrv hord (by rwa [hl₁]) (by rwa [hl₁])).bind fun ret s₂ he₂ => ?_
  have hne : ret ≠ -1 := fun h => hno₁ ((getNextBlockToWrite_code he₂).mp h)
  obtain ⟨-, hro₂, hserved⟩ := getNextBlockToWrite_orderly hI₁.ledger he₂
  obtain ⟨hI₂, htable₂⟩ := hI₁.picked he₂
  have hl₂ := getNextBlockToWrite_keeps.locks_eq he₂
  have huse₂ : s₂.inUse env.toGeometry = s.others env.toGeometry key := by
    rw [← huse, Config.inUse, Config.inUse, htable₂]
  rw [wp_ite]
  refine ⟨fun h => absurd h hne, fun _ => ?_⟩
  obtain hneg | ⟨b, rfl, hb, hun, hpos, hlt, -⟩ := hserved.mpr ((invalidOld_pickOk he₁).mpr hok.pick)
  · exact absurd hneg hne
  rw [Int.toNat_natCast]
  have hspare := hok.spare
  rw [← huse₂] at hspare
  have hstore : wp (storeAt env key val b) _ _ s₂ := hI₂.storeAt_wp hdrv (Function.update_self ..) hlen hsize hb
    hun hpos hlt (hro₂ hne hro₁) (by rwa [hl₂, hl₁]) (by rwa [hl₂, hl₁]) hspare
  refine hstore.bind fun code s₃ h₃ => ?_
  obtain ⟨hI₃, hcode⟩ := h₃
  rw [Function.update_idem] at hI₃
  rw [spinUnlock, wp_bind, wp_modify, wp_bind, wp_modify, wp_pure]
  exact ⟨code, rfl, hI₃.of_ledger rfl, hcode⟩

/-- `set_keyval` up to `gc_check`, with a pair that fits: it is refused by a read-only store, and stored by
another one. -/
theorem setStore_wp (hI : MapInv env s m) (hdrv : env.NoDriverError)
    (hord : nbProbed env.toGeometry ≤ maxMetaBlk) (hidle : ∀ l, s.locks l = false) (hlen : key.len < keyRoom)
    (hsize : 8 + key.len + val.len ≤ env.pageSize)
    (hok : s.readOnly = false → SetOk env.toGeometry s key) :
    wp (setStore env (some key) (some val)) (fun x s' =>
      s.readOnly = true ∧ x = .early (-3) ∧ s' = s ∨
        s.readOnly = false ∧ ∃ ret, x = .stored ret ∧ Stored env m key val ret s') (fun _ => False) s := by
  rw [setStore, wp_bind, wp_spinLock]
  refine ⟨fun hheld => Bool.false_ne_true ((hidle _).symm.trans hheld), fun _ => ?_⟩
  rw [deref, wp_bind, wp_pure, deref, wp_bind, wp_pure, wp_ite]
  refine ⟨fun hbig => absurd hbig (by omega), fun _ => ?_⟩
  rw [wp_bind, wp_get, wp_ite]
  refine ⟨fun hro => ?_, fun hro => ?_⟩
  · rw [spinUnlock, wp_bind, wp_modify, wp_pure]
    exact .inl ⟨hro, rfl, lock_back (hidle _)⟩
  · have hro := eq_false_of_ne_true hro
    obtain ⟨hblock, hpick, hspare⟩ := hok hro
    have hset : wp (setWrite env key val) _ _ (s.lock .eraseLock true) :=
      (hI.lock .eraseLock true).setWrite_wp hdrv hord hlen hsize hro (hidle .oneLock) (hidle .listLock)
        ⟨hblock, hpick, hspare⟩
    exact hset.post fun x s' hx => .inr ⟨hro, hx⟩

end MapInv

end LkpProjects.Parallel
