import LkpProjects.Parallel.MapSteps

/-! # The parallel store: a collection keeps the map

`gc` takes the keys of its target out of the table and adds those that are in its buffer (`AddsAll`). Where the
records survive in the buffer, these are the same pairs, so no key is added twice, the table has as many keys as
before, and every one of them is found.
-/
namespace LkpProjects.Parallel
open Nand Bytes Hoare
open Serial (Geometry HdrKind Holds GcRead writtenBack rewriteBuffer cut shown bytesOf valueOf recordLens smeared)
set_option autoImplicit false

variable {env : Env} {g : Geometry} {s s' : Config} {m : CStr → Option CStr} {key : CStr} {b h j v target : ℕ}

/-! ## Keys added one after the other -/

/-- `hash_add` of keys one after the other, each taking a slot. -/
inductive AddsAll (g : Geometry) : List CStr → (ℕ → Bucket) → (ℕ → Bucket) → Prop where
  | nil (t : ℕ → Bucket) : AddsAll g [] t t
  | cons {key : CStr} {keys : List CStr} {index h : ℕ} {t t₁ t' : ℕ → Bucket}
      (hadd : addTo g key index t = (some h, t₁)) (hrest : AddsAll g keys t₁ t') : AddsAll g (key :: keys) t t'

section Adds
variable {keys : List CStr} {index i : ℕ} {t t' : ℕ → Bucket}

theorem addTo_entered (he : addTo g key index t = (some h, t')) : Entered (hashSlots g) key index t h t' := by
  rw [addTo, addLoop_eq] at he
  have hframe : ProbeTable.Passed bucketLayout (hashSlots g) _ (fun b : Bucket => (b.pState, b.key, b.index))
      (Serial.home key) 0 _ t (some h) t' := ProbeTable.insertFrom_passed (fun _ => rfl) _ 0 he
  obtain ⟨hfree, hself⟩ := hframe.taken h rfl
  obtain ⟨c, -, hplace, -⟩ := hframe.place h rfl
  refine ⟨hplace ▸ Nat.mod_lt _ (hashSlots_pos g), bucketLayout_key_eq_none.mp hfree, hself, fun j hj => ?_⟩
  have hkept := hframe.kept j fun hsome => hj (Option.some.inj hsome).symm
  simp only [Prod.mk.injEq] at hkept
  exact hkept

/-- The keys of the table are the old ones and the new one. -/
theorem Entered.key_iff (hE : Entered (hashSlots g) key index t h t') {k : CStr} :
    bucketLayout.key (t' i) = some k ↔ bucketLayout.key (t i) = some k ∨ i = h ∧ k = key := by
  rw [bucketLayout_key_eq_some, bucketLayout_key_eq_some]
  by_cases hi : i = h
  · subst hi
    rw [hE.self, hE.free]
    simp [Bucket.fill, eq_comm]
  · obtain ⟨hp, hk, -⟩ := hE.other i hi
    rw [hp, hk]
    simp [hi]

theorem Entered.occupied_card (hE : Entered (hashSlots g) key index t h t') :
    (ProbeTable.occupied bucketLayout (hashSlots g) t').card ≤
      (ProbeTable.occupied bucketLayout (hashSlots g) t).card + 1 := by
  refine (Finset.card_le_card fun i hi => ?_).trans (Finset.card_insert_le h _)
  obtain ⟨hlt, hk⟩ := Finset.mem_filter.mp hi
  obtain ⟨k, hk⟩ := Option.ne_none_iff_exists'.mp hk
  rw [Finset.mem_insert]
  obtain hold | ⟨rfl, -⟩ := hE.key_iff.mp hk
  · exact .inr (Finset.mem_filter.mpr ⟨hlt, by rw [hold]; exact Option.some_ne_none k⟩)
  · exact .inl rfl

/-- The keys behind them all. -/
theorem AddsAll.key_iff (hA : AddsAll g keys t t') {k : CStr} :
    (∃ i < hashSlots g, bucketLayout.key (t' i) = some k) ↔
      (∃ i < hashSlots g, bucketLayout.key (t i) = some k) ∨ k ∈ keys := by
  induction hA with
  | nil t => simp
  | @cons key keys index h t t₁ t' hadd hrest ih =>
    have hE := addTo_entered hadd
    have hfirst : (∃ i < hashSlots g, bucketLayout.key (t₁ i) = some k) ↔
        (∃ i < hashSlots g, bucketLayout.key (t i) = some k) ∨ k = key := by
      constructor
      · rintro ⟨i, hi, hk⟩
        exact (hE.key_iff.mp hk).imp (fun hold => ⟨i, hi, hold⟩) And.right
      · rintro (⟨i, hi, hk⟩ | rfl)
        · exact ⟨i, hi, hE.key_iff.mpr (.inl hk)⟩
        · exact ⟨h, hE.lt, hE.key_iff.mpr (.inr ⟨rfl, rfl⟩)⟩
    rw [ih, hfirst, List.mem_cons, or_assoc]

theorem AddsAll.occupied_card (hA : AddsAll g keys t t') :
    (ProbeTable.occupied bucketLayout (hashSlots g) t').card ≤
      (ProbeTable.occupied bucketLayout (hashSlots g) t).card + keys.length := by
  induction hA with
  | nil t => exact le_rfl
  | cons hadd hrest ih =>
    have := (addTo_entered hadd).occupied_card
    rw [List.length_cons]
    omega

/-- Distinct new keys, with one slot to spare behind them all. -/
theorem AddsAll.tableOk (hA : AddsAll g keys t t') : TableOk g t → keys.Nodup →
    (∀ k ∈ keys, ∀ i < hashSlots g, bucketLayout.key (t i) ≠ some k) →
    (ProbeTable.occupied bucketLayout (hashSlots g) t).card + keys.length + 1 ≤ hashSlots g →
    TableOk g t' := by
  induction hA with
  | nil t => exact fun hT _ _ _ => hT
  | @cons key keys index h t t₁ t' hadd hrest ih =>
    intro hT hn habs hcard
    obtain ⟨hnot, hn⟩ := List.nodup_cons.mp hn
    rw [List.length_cons] at hcard
    obtain ⟨h', t₂, hadd', hT'⟩ : ∃ h' t₂, addTo g key index t = (some h', t₂) ∧ TableOk g t₂ :=
      hT.added (habs key List.mem_cons_self) (by omega)
    obtain ⟨-, rfl⟩ := Prod.mk.inj (hadd.symm.trans hadd')
    have hE := addTo_entered hadd
    have hone := hE.occupied_card
    refine ih hT' hn (fun k hk i hi hki => ?_) (by omega)
    obtain hold | ⟨-, rfl⟩ := hE.key_iff.mp hki
    · exact habs k (List.mem_cons_of_mem _ hk) i hi hold
    · exact hnot hk

end Adds

/-! ## The table behind the write loop -/

section Write
variable {i keyLen valLen : ℕ} {lens : List (ℕ × ℕ)} {buffer buf : ℕ → Byte} {u : PUnit}

theorem gcWriteOne_adds (he : gcWriteOne env v i keyLen valLen buffer s = .ok (buf, s')) :
    buf = rewriteBuffer (i * env.pagesPerBlock) keyLen valLen buffer ∧ ∃ index h,
      addTo env.toGeometry (.ofBytes (cut buf (i * env.pagesPerBlock + 8) keyLen)) index s.hashtable =
        (some h, s'.hashtable) := by
  rw [gcWriteOne] at he
  simp only at he
  split at he
  · cases he
  rw [get_bind_ok] at he
  obtain ⟨ret, s₁, he₁, hlock⟩ := bind_ok.mp he
  obtain ⟨_, s₂, he₂, hend⟩ := bind_ok.mp hlock
  obtain ⟨rfl, rfl⟩ := pure_ok.mp hend
  have htable : s₁.hashtable = s.hashtable := congrArg Prod.fst ((writePage_table _ _).eq he₁)
  obtain ⟨-, s₃, he₃, rfl⟩ := withLock_ok he₂
  obtain ⟨o, s₄, he₄, hlist⟩ := bind_ok.mp he₃
  obtain ⟨-, t, hadd, rfl, -⟩ := hashAdd_addTo he₄
  rw [lock_hashtable, htable] at hadd
  cases o with
  | none => cases hlist
  | some h =>
    simp only at hlist
    split at hlist
    · cases hlist
    · obtain rfl := modify_ok.mp hlist
      exact ⟨rfl, _, h, hadd⟩

theorem gcWrite_adds : ∀ {lens : List (ℕ × ℕ)} {i : ℕ} {buffer : ℕ → Byte} {s : Config},
    gcWrite env v i lens buffer s = .ok (u, s') →
      AddsAll env.toGeometry ((writtenBack env.toGeometry i lens buffer).map Prod.fst) s.hashtable s'.hashtable
  | [], _, _, _, he => by
    obtain ⟨-, rfl⟩ := pure_ok.mp he
    exact .nil _
  | (keyLen, valLen) :: lens, i, buffer, s, he => by
    obtain ⟨buf, s₁, he₁, hrest⟩ := bind_ok.mp he
    obtain ⟨rfl, index, h, hadd⟩ := gcWriteOne_adds he₁
    exact .cons hadd (gcWrite_adds hrest)

end Write

/-! ## The table behind the collection -/

section Collection
variable {P : CStr → List Byte → Prop} {u : PUnit}

theorem droppedAll_hashtable_congr (slots : List ℕ) : ∀ {s₁ s₂ : Config}, s₁.hashtable = s₂.hashtable →
    (s₁.droppedAll g slots).hashtable = (s₂.droppedAll g slots).hashtable := by
  induction slots with
  | nil => exact fun he => he
  | cons h slots ih => exact fun he => ih (by rw [dropped_hashtable, dropped_hashtable, he])

/-- The keys of the target are taken out of the table, and those in the buffer are added. -/
theorem gcBlock_adds (hdrv : env.NoDriverError) (hO : Orderly env.toGeometry P s)
    (hfull : ∀ key page, P key page → page.length = env.pageSize) (ht : target < env.nbBlocks)
    (hF : Findable env.toGeometry s (s.blocks target).list) (he : gcBlock env target s = .ok (u, s')) :
    AddsAll env.toGeometry ((gcRecs env.toGeometry s target).map Prod.fst)
      (s.droppedAll env.toGeometry (s.blocks target).list).hashtable s'.hashtable := by
  rw [gcBlock, get_bind_ok] at he
  generalize gcVictim env.toGeometry s target = v at he
  obtain ⟨_, s₁, he₁, hread⟩ := bind_ok.mp he
  obtain rfl := modify_ok.mp he₁
  obtain ⟨r, s₂, he₂, hformat⟩ := bind_ok.mp hread
  obtain ⟨-, s₃, he₃, rfl⟩ := withLock_ok he₂
  have hlist : (((s.setState v .blkUsed).lock .listLock true).blocks target).list = (s.blocks target).list :=
    (SameLedger.setState s v .blkUsed).list target
  rw [get_bind_ok, hlist] at he₃
  obtain ⟨rfl, rfl⟩ := (gcRead_wp hdrv ht hfull
    ((hO.setState v .blkUsed).lock .listLock true) hlist hF (.inl (trivial : True))).of_ok he₃
  obtain ⟨ret, s₄, he₄, hheader⟩ := bind_ok.mp hformat
  have ht₄ : s₄.hashtable = ((((s.setState v .blkUsed).lock .listLock true).droppedAll env.toGeometry
      (s.blocks target).list).lock .listLock false).hashtable := congrArg Prod.fst ((formatSingle_table _).eq he₄)
  rw [get_bind_ok] at hheader
  obtain ⟨_, s₅, he₅, hwrite⟩ := bind_ok.mp hheader
  have ht₅ : s₅.hashtable = s₄.hashtable := by
    have hstable : Config.table s₅ = Config.table s₄ := by
      refine Stable.eq (.ite (.bind (writeHdr_table _ _) fun _ => .pure _) (.pure _)) he₅
    exact congrArg Prod.fst hstable
  obtain ⟨_, s₆, he₆, hend⟩ := bind_ok.mp hwrite
  obtain ⟨-, s₇, he₇, rfl⟩ := withLock_ok hend
  obtain rfl := modify_ok.mp he₇
  have hadds := gcWrite_adds he₆
  have hsame : s₄.hashtable = (s.droppedAll env.toGeometry (s.blocks target).list).hashtable := by
    rw [ht₄, lock_hashtable]
    exact droppedAll_hashtable_congr _ rfl
  rw [ht₅, hsame] at hadds
  exact hadds

end Collection

/-! ## The map behind the collection -/

/-- `CollectOk` without what the map provides: the destination is a data block, the store is writable once the
target is erased, and the records survive in the buffer. -/
structure MoveOk (env : Env) (s : Config) (t : ℕ) : Prop where
  dest : DestOk env.toGeometry s t
  writable : (s.blocks t).list ≠ [] → isReadOnly env.toGeometry (s.wiped env.toGeometry t) = false
  room : (s.blocks t).list ≠ [] → ((s.blocks t).list.length - 1) * env.pagesPerBlock + env.pageSize ≤
    env.pageSize * env.pagesPerBlock
  short : ∀ kv ∈ (livePairs env.toGeometry s t).dropLast, 8 + kv.1.len + kv.2.len ≤ env.pagesPerBlock + 1
  same : (smeared env.pagesPerBlock (livePairs env.toGeometry s t)).Perm
    ((livePairs env.toGeometry s t).map bytesOf)

theorem TableOk.droppedAll : ∀ {slots : List ℕ} {s : Config}, TableOk g s.hashtable →
    TableOk g (s.droppedAll g slots).hashtable
  | [], _, hT => hT
  | h :: _, _, hT => droppedAll (s := Config.dropped _ _ h) hT.dropped

theorem MarkedUsed.droppedAll : ∀ {slots : List ℕ} {s : Config}, MarkedUsed s → MarkedUsed (s.droppedAll g slots)
  | [], _, hM => hM
  | h :: _, _, hM => droppedAll (s := Config.dropped _ _ h) hM.dropped

theorem MarkedUsed.erased (hM : MarkedUsed s) : MarkedUsed (s.wiped g b) := hM.wiped.mono fun _ hc => .inl hc

theorem MarkedUsed.opened (hM : MarkedUsed s) : MarkedUsed (s.opened g b) := by
  rw [Config.opened]
  split
  · have hmarked := hM.written (g := g) (b * g.pagesPerBlock) (hdrPage g .nandData)
      (isReadOnly g (programPage g (b * g.pagesPerBlock) (hdrPage g .nandData) s))
    rwa [Nat.mul_div_cancel _ g.pagesPerBlock_pos] at hmarked
  · exact hM

theorem Appended.marked {recs : List (CStr × List Byte)} (hA : Appended g v recs s s') : s.Unlisted v →
    0 < (s.blocks v).currentPageOffset → (s.blocks v).currentPageOffset + recs.length ≤ g.pagesPerBlock →
    MarkedUsed s → MarkedUsed s' := by
  induction hA with
  | nil s => exact fun _ _ _ hM => hM
  | @cons key data recs s s' h t hE hrest ih =>
    intro hun hpos hroom hM
    rw [List.length_cons] at hroom
    have hofs : ((s.stored g (v * g.pagesPerBlock + (s.blocks v).currentPageOffset) data t v h).blocks
        v).currentPageOffset = (s.blocks v).currentPageOffset + 1 := by
      rw [stored_offset, Geometry.page_div (by omega), if_pos rfl]
    exact ih hun (by omega) (by omega) (hM.stored hun hpos (by omega) rfl)

namespace MapInv

variable {t : ℕ}

/-- `hash_search` finds the buckets of a block under the keys on their pages. -/
theorem findable (hI : MapInv env s m) (ht : t < env.nbBlocks) :
    Findable env.toGeometry s (s.blocks t).list := fun h hh => by
  have hv := ((hI.ledger.on.memList t ht h).mp hh).1
  obtain ⟨-, v, -, hp⟩ := hI.holds hv
  rw [keyOn, hp.keyLen_eq, hp.key_bytes, CStr.ofBytes_bytes]
  exact hI.table.search_iff.mpr ⟨hv, rfl⟩

theorem collectOk (hI : MapInv env s m) (hord : nbProbed env.toGeometry ≤ maxMetaBlk) (ht : t < env.nbBlocks)
    (hok : MoveOk env s t) : CollectOk env s t :=
  ⟨hord, hok.dest, hI.findable ht, hok.writable, hok.room, hok.short, hok.same⟩

/-- What a collection writes are pairs of the map, under the keys of the target. -/
theorem gcRecs_pairs (hI : MapInv env s m) (hok : CollectOk env s t) (ht : t < env.nbBlocks)
    (hmany : 64 ≤ env.pagesPerBlock) :
    (∀ kd ∈ gcRecs env.toGeometry s t, PairIn env.toGeometry m kd.1 kd.2) ∧
      ((gcRecs env.toGeometry s t).map Prod.fst).Perm
        ((s.blocks t).list.map fun h => (s.hashtable h).key) := by
  obtain ⟨hperm, hholds⟩ := hok.shown_gcRecs hI.ledger.pair ht hmany
  refine ⟨fun kd hkd => ?_, ?_⟩
  · obtain ⟨val, hval⟩ := hholds kd hkd
    obtain ⟨kv, hkv, he⟩ := List.mem_map.mp (hperm.mem_iff.mp (List.mem_map_of_mem hkd))
    obtain ⟨h, hh, rfl⟩ := List.mem_map.mp hkv
    obtain ⟨hroom, v, hm, hp⟩ := hI.holds ((hI.ledger.on.memList t ht h).mp hh).1
    have hkey : (s.hashtable h).key = kd.1 := CStr.eq_of_bytes (congrArg Prod.fst he)
    have hsame : v = val := by
      have hbytes : (pairOf env.toGeometry s h).2.bytes = valueOf kd.2 := congrArg Prod.snd he
      have hv : (pairOf env.toGeometry s h).2 = v := hp.val_eq
      rw [← hval.val_eq, ← valueOf, ← hbytes, CStr.ofBytes_bytes, hv]
    rw [← hkey] at hval ⊢
    exact ⟨hroom, val, hsame ▸ hm, hval⟩
  · have hkeys := (hperm.map Prod.fst).map CStr.ofBytes
    simpa only [List.map_map, livePairs, Function.comp_def, shown, bytesOf, pairOf, CStr.ofBytes_bytes] using hkeys

/-- A collection that meets its condition keeps the map. -/
theorem collected {v : ℕ} {s₁ : Config} (hI : MapInv env s m) (htarget : gcTarget env.toGeometry s = some t)
    (hmany : 64 ≤ env.pagesPerBlock) (hok : CollectOk env s t) (hv : gcVictim env.toGeometry s t = v)
    (happ : Appended env.toGeometry v (gcRecs env.toGeometry s t) (s.emptied env.toGeometry t v) s₁)
    (hA : AddsAll env.toGeometry ((gcRecs env.toGeometry s t).map Prod.fst)
      (s.droppedAll env.toGeometry (s.blocks t).list).hashtable s₁.hashtable) :
    MapInv env (s₁.setState v .blkUsed) m := by
  obtain ⟨htlt, -⟩ := hI.ledger.target htarget
  obtain ⟨hvlt, hvun, hfit⟩ := gcVictim_data hI.ledger htarget hok.dest
  obtain ⟨hpairs, hkeys⟩ := hI.gcRecs_pairs hok htlt hmany
  have hvalid : ∀ h ∈ (s.blocks t).list, s.Valid env.toGeometry h := fun h hh =>
    ((hI.ledger.on.memList t htlt h).mp hh).1
  have hcard := inUse_droppedAll (g := env.toGeometry) hvalid (hI.ledger.on.nodup t htlt)
  have hlen : ((gcRecs env.toGeometry s t).map Prod.fst).length = (s.blocks t).list.length := by
    rw [List.length_map, gcRecs_length]
  have hspare := hI.spare
  have hkept : ∀ {k : CStr} {i : ℕ}, i < hashSlots env.toGeometry →
      bucketLayout.key ((s.droppedAll env.toGeometry (s.blocks t).list).hashtable i) = some k →
        s.Valid env.toGeometry i ∧ i ∉ (s.blocks t).list ∧ (s.hashtable i).key = k := by
    intro k i hi hk
    obtain ⟨hst, hk⟩ := bucketLayout_key_eq_some.mp hk
    obtain ⟨hv, hnot⟩ := droppedAll_valid.mp ⟨hi, hst⟩
    exact ⟨hv, hnot, hk ▸ (droppedAll_view (f := fun s => (s.hashtable i).key) (fun _ _ => dropped_key) _ _).symm⟩
  -- the destination, once the target is erased and the header is written
  subst hv
  have hE := emptied_spec env.toGeometry s t (gcVictim env.toGeometry s t)
  have hle := hE.le
  have hun : (s.emptied env.toGeometry t (gcVictim env.toGeometry s t)).Unlisted
      (gcVictim env.toGeometry s t) := by
    rw [Config.Unlisted, hE.order]
    exact hvun
  have hroom : ((s.emptied env.toGeometry t (gcVictim env.toGeometry s t)).blocks
      (gcVictim env.toGeometry s t)).currentPageOffset + (gcRecs env.toGeometry s t).length ≤
        env.pagesPerBlock := by
    rw [gcRecs_length]
    omega
  refine ⟨?_, ?_, fun k v hm => ?_, ?_, ?_⟩
  · have hO := happ.orderly hvlt hun hE.pos hroom
      (fun kd hkd => ⟨hpairs kd hkd, (writtenBack_page_length kd hkd).le⟩) (hI.ledger.emptied htlt)
    exact hO.setState _ _
  · refine hA.tableOk hI.table.droppedAll ?_ (fun k hk i hi hki => ?_) ?_
    · refine hkeys.nodup_iff.mpr (List.Nodup.map_on (fun h hh j hj he => ?_) (hI.ledger.on.nodup t htlt))
      exact hI.table.key_inj (hvalid h hh) (hvalid j hj) he
    · obtain ⟨h, hh, rfl⟩ := List.mem_map.mp (hkeys.mem_iff.mp hk)
      obtain ⟨hv, hnot, hsame⟩ := hkept hi hki
      exact hnot (hI.table.key_inj hv (hvalid h hh) hsame ▸ hh)
    · rw [hlen]
      rw [Config.inUse] at hcard
      omega
  · obtain ⟨h, hv, hk⟩ := hI.complete k v hm
    have hfound : ∃ i < hashSlots env.toGeometry, bucketLayout.key (s₁.hashtable i) = some k := by
      refine hA.key_iff.mpr ?_
      by_cases hh : h ∈ (s.blocks t).list
      · exact .inr (hkeys.mem_iff.mpr (List.mem_map.mpr ⟨h, hh, hk⟩))
      · have hv' := droppedAll_valid.mpr ⟨hv, hh⟩
        refine .inl ⟨h, hv.1, bucketLayout_key_eq_some.mpr ⟨hv'.2, ?_⟩⟩
        exact (droppedAll_view (f := fun s => (s.hashtable h).key) (fun _ _ => dropped_key) _ _).trans hk
    obtain ⟨i, hi, hki⟩ := hfound
    obtain ⟨hst, hki⟩ := bucketLayout_key_eq_some.mp hki
    exact ⟨i, ⟨hi, hst⟩, hki⟩
  · have hbound := hA.occupied_card
    rw [hlen] at hbound
    exact (hbound.trans hcard.le).trans_lt hspare
  · have hM : MarkedUsed (s.setState (gcVictim env.toGeometry s t) .blkUsed) := hI.marked.setUsed _
    have hM₁ : MarkedUsed s₁ := happ.marked hun hE.pos hroom hM.droppedAll.erased.opened
    exact hM₁.setUsed (gcVictim env.toGeometry s t)

/-- What runs under the lock of a `gc` returns and keeps the map, if its collection meets the condition. -/
theorem gcLocked_wp (hI : MapInv env s m) (hdrv : env.NoDriverError) (hord : nbProbed env.toGeometry ≤ maxMetaBlk)
    (hone : s.locks .oneLock = false) (hlist : s.locks .listLock = false) (hmany : 64 ≤ env.pagesPerBlock)
    (hok : ∀ t, gcTarget env.toGeometry s = some t → MoveOk env s t) :
    wp (gcLocked env) (fun _ s' => MapInv env s' m) (fun _ => False) s := by
  rw [gcLocked, wp_bind, checkOrder, wp_ite]
  refine ⟨fun hbig => absurd hord (not_le.mpr hbig), fun _ => ?_⟩
  rw [wp_pure, wp_bind, wp_get]
  cases htarget : gcTarget env.toGeometry s with
  | none => exact hI
  | some t =>
    obtain ⟨htlt, -⟩ := hI.ledger.target htarget
    have hcol := hI.collectOk hord htlt (hok t htarget)
    obtain ⟨hvlt, -, hfit⟩ := gcVictim_data hI.ledger htarget hcol.dest
    have hfull : ∀ key page, PairIn env.toGeometry m key page → page.length = env.pageSize :=
      fun _ _ hP => hP.2.choose_spec.2.length
    have hblock := @gcBlock_wp env _ s False t _ hdrv hI.ledger hfull htlt rfl hvlt hfit hcol.found
      (.inr (hcol.fits hI.ledger.pair htlt hmany hone hlist))
    refine wp_iff.mpr ⟨fun u s' he => ?_, fun f he => hblock.of_error he⟩
    obtain ⟨s₁, happ, rfl⟩ := hblock.of_ok he
    have hadds := gcBlock_adds hdrv hI.ledger hfull htlt hcol.found he
    exact hI.collected htarget hmany hcol rfl happ hadds

/-- `gc` returns and keeps the map. -/
theorem gc_wp (hI : MapInv env s m) (hdrv : env.NoDriverError) (hord : nbProbed env.toGeometry ≤ maxMetaBlk)
    (hone : s.locks .oneLock = false) (hlist : s.locks .listLock = false)
    (hok : ∀ t, Collects env s t → MoveOk env s t) :
    wp (gc env) (fun _ s' => MapInv env s' m) (fun _ => False) s := by
  rw [gc, wp_ite]
  refine ⟨fun _ => hI, fun hmany => ?_⟩
  rw [wp_bind, wp_get, wp_bind, wp_modify, wp_ite]
  refine ⟨fun _ => hI.of_ledger rfl, fun hset => ?_⟩
  rw [wp_bind, wp_spinTrylock]
  refine ⟨fun _ => hI.of_ledger rfl, fun hfree => ?_⟩
  have hI₁ : MapInv env s.gcStart m := hI.of_ledger rfl
  rw [if_pos rfl, wp_bind]
  refine (hI₁.gcLocked_wp hdrv hord hone hlist (not_lt.mp hmany) fun t ht => ?_).post fun _ s' hI' => ?_
  · have hmove := hok t ⟨not_lt.mp hmany, eq_true_of_ne_false hset, hfree, ht⟩
    exact ⟨hmove.dest, hmove.writable, hmove.room, hmove.short, hmove.same⟩
  · rw [wp_bind, spinUnlock, wp_modify, wp_modify]
    exact (hI'.lock .eraseLock false).of_ledger rfl

end MapInv

end LkpProjects.Parallel
