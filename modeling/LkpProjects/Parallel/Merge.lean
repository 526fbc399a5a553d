import LkpProjects.Parallel.Allocation
import LkpProjects.Serial.Overlap

/-! # The parallel store: where a collection moves its pages

`gc` looks for a block with room for the live pages of its target, then for an erased block, and else writes
them back to the target. Only the first search passes the metadata blocks over, and after a `format` these look
erased (`merge_into_metadata`). The records go through a buffer in which they overlap as in the serial store.
Where neither happens, the destination is a data block, and every live page is written to it behind its header
(`gc_moves_target`).
-/
namespace LkpProjects.Parallel
open Nand Bytes Hoare Stepwise
open Serial (Geometry Holds Laid RecordAt NulFree rawPairs smeared bytesOf shown recordLens valueOf writtenBack
  layPages pagesFrom cut)
set_option autoImplicit false

variable {env : Env} {g : Geometry} {s s' : Config} {t v h : ℕ}

/-! ## Records in the buffer -/

/-- A page with a record of its bucket's key. -/
def Pair (g : Geometry) (key : CStr) (page : List Byte) : Prop :=
  key.len < keyRoom ∧ ∃ val, Holds g page key val

theorem records_pair (g : Geometry) : Records g (Pair g) := fun _ val hlen hsize =>
  ⟨hlen, val, Serial.record_holds hsize⟩

/-- The pair that a bucket stands for. -/
def pairOf (g : Geometry) (s : Config) (h : ℕ) : CStr × CStr :=
  ((s.hashtable h).key, .ofBytes (valueOf (pageOf g s h)))

/-- The pairs of a block, in the order `gc` reads them. -/
def livePairs (g : Geometry) (s : Config) (b : ℕ) : List (CStr × CStr) := (s.blocks b).list.map (pairOf g s)

/-- Where no NUL has got into a record, each page that is written back holds one. -/
theorem holds_writtenBack {buf : ℕ → Byte} {recs : List (CStr × CStr)} {i : ℕ}
    (hstride : 8 ≤ g.pagesPerBlock) (hL : Laid g.pagesPerBlock buf i recs)
    (hsize : ∀ kv ∈ recs, 8 + kv.1.len + kv.2.len ≤ g.pageSize)
    (hfree : ∀ raw ∈ rawPairs g.pagesPerBlock buf i recs, NulFree raw) :
    ∀ kd ∈ writtenBack g i (recs.map recordLens) buf, ∃ val, Holds g kd.2 kd.1 val := by
  induction recs generalizing i with
  | nil => exact fun kd hkd => absurd hkd List.not_mem_nil
  | cons kv recs ih =>
    have hraw := hfree _ List.mem_cons_self
    obtain ⟨hk, hv⟩ := hL.lens hstride
    have hbuf := Serial.rewriteBuffer_eq hk hv hraw
    let key : CStr := ⟨cut buf (i * g.pagesPerBlock + 8) kv.1.len, hraw.1⟩
    let val : CStr := ⟨cut buf (i * g.pagesPerBlock + 8 + kv.1.len) kv.2.len, hraw.2⟩
    have hkey : key.len = kv.1.len := Serial.cut_length _ _ _
    have hval : val.len = kv.2.len := Serial.cut_length _ _ _
    have hrec : RecordAt buf (i * g.pagesPerBlock) key val := by
      intro x hx
      rw [hkey, hval] at hx
      by_cases h4 : x < 4
      · rw [@Serial.recordBytes_keyLen (key, val) x h4, hk x h4, hkey]
      · by_cases h8 : x < 8
        · obtain ⟨y, rfl⟩ := Nat.exists_eq_add_of_le (not_lt.mp h4)
          rw [@Serial.recordBytes_valLen (key, val) y (by omega), ← Nat.add_assoc, hv y (by omega), hval]
        · obtain ⟨y, rfl⟩ := Nat.exists_eq_add_of_le (not_lt.mp h8)
          have happ : key.bytes ++ val.bytes = cut buf (i * g.pagesPerBlock + 8) (kv.1.len + kv.2.len) :=
            Serial.raw_append _ _ _ _
          rw [Serial.recordBytes_val (key, val) y, happ, Serial.mem_cut_lt (by omega), Nat.add_assoc]
    rw [List.map_cons, recordLens, writtenBack, hbuf]
    intro kd hkd
    obtain rfl | hkd := List.mem_cons.mp hkd
    · have hlen := hsize kv List.mem_cons_self
      have hholds := hrec.holds (g := g) (by rw [hkey, hval]; exact hlen)
      exact ⟨val, (CStr.ofBytes_bytes key).symm ▸ hholds⟩
    · exact ih hL.2 (fun r hr => hsize r (List.mem_cons_of_mem _ hr))
        (fun raw hr => hfree raw (List.mem_cons_of_mem _ hr)) kd hkd

/-! ## What is moved -/

/-- The condition on a collection of block `t`: its destination is a data block, each search finds the page's
own bucket, the store is writable once the block is erased, and the records survive in the buffer. -/
structure CollectOk (env : Env) (s : Config) (t : ℕ) : Prop where
  order : nbProbed env.toGeometry ≤ maxMetaBlk
  dest : DestOk env.toGeometry s t
  found : Findable env.toGeometry s (s.blocks t).list
  writable : (s.blocks t).list ≠ [] → isReadOnly env.toGeometry (s.wiped env.toGeometry t) = false
  room : (s.blocks t).list ≠ [] → ((s.blocks t).list.length - 1) * env.pagesPerBlock + env.pageSize ≤
    env.pageSize * env.pagesPerBlock
  short : ∀ kv ∈ (livePairs env.toGeometry s t).dropLast, 8 + kv.1.len + kv.2.len ≤ env.pagesPerBlock + 1
  same : (smeared env.pagesPerBlock (livePairs env.toGeometry s t)).Perm
    ((livePairs env.toGeometry s t).map bytesOf)

section Pairs

theorem holds_pairOf (hO : Orderly g (Pair g) s) (hv : s.Valid g h) :
    Holds g (pageOf g s h) (pairOf g s h).1 (pairOf g s h).2 := by
  obtain ⟨-, val, hh⟩ := hO.on.page h hv
  have hval : (pairOf g s h).2 = val := hh.val_eq
  rw [hval]
  exact hh

theorem livePairs_size (hO : Orderly g (Pair g) s) (ht : t < g.nbBlocks) :
    ∀ kv ∈ livePairs g s t, 8 + kv.1.len + kv.2.len ≤ g.pageSize := by
  intro kv hkv
  obtain ⟨h, hh, rfl⟩ := List.mem_map.mp hkv
  exact (holds_pairOf hO ((hO.on.memList t ht h).mp hh).1).size_le

theorem lensOn_pageOf (hO : Orderly g (Pair g) s) (hv : s.Valid g h) :
    lensOn (pageOf g s h) = recordLens (pairOf g s h) :=
  Prod.ext (holds_pairOf hO hv).keyLen_eq (holds_pairOf hO hv).valLen_eq

/-- What is moved are the pairs of the block. -/
theorem CollectOk.shown_gcRecs (hok : CollectOk env s t) (hO : Orderly env.toGeometry (Pair env.toGeometry) s)
    (ht : t < env.nbBlocks) (hmany : 64 ≤ env.pagesPerBlock) :
    ((gcRecs env.toGeometry s t).map shown).Perm ((livePairs env.toGeometry s t).map bytesOf) ∧
      ∀ kd ∈ gcRecs env.toGeometry s t, ∃ val, Holds env.toGeometry kd.2 kd.1 val := by
  have hvalid : ∀ h ∈ (s.blocks t).list, s.Valid env.toGeometry h := fun h hh =>
    ((hO.on.memList t ht h).mp hh).1
  have hstride : 8 ≤ env.pagesPerBlock := by omega
  have hL : Laid env.pagesPerBlock (layPages env.pagesPerBlock 0
      ((s.blocks t).list.map (pageOf env.toGeometry s)) fun _ => 0) 0 (livePairs env.toGeometry s t) :=
    Serial.laid_layPages fun h hh => holds_pairOf hO (hvalid h hh)
  have hsize := livePairs_size hO ht
  have hraw := Serial.rawPairs_eq_smeared hstride hL hok.short
  have hfree : ∀ raw ∈ rawPairs env.pagesPerBlock (layPages env.pagesPerBlock 0
      ((s.blocks t).list.map (pageOf env.toGeometry s)) fun _ => 0) 0 (livePairs env.toGeometry s t),
      NulFree raw := by
    intro raw hmem
    rw [hraw] at hmem
    obtain ⟨kv, -, rfl⟩ := List.mem_map.mp (hok.same.mem_iff.mp hmem)
    exact Serial.nulFree_bytesOf kv
  have hlens : (s.blocks t).list.map (fun h => lensOn (pageOf env.toGeometry s h)) =
      (livePairs env.toGeometry s t).map recordLens := by
    rw [livePairs, List.map_map]
    exact List.map_congr_left fun h hh => lensOn_pageOf hO (hvalid h hh)
  rw [gcRecs, hlens]
  refine ⟨?_, holds_writtenBack hstride hL hsize hfree⟩
  rw [Serial.shown_writtenBack hstride hL hsize hfree, hraw]
  exact hok.same

variable (hok : CollectOk env s t) (hO : Orderly env.toGeometry (Pair env.toGeometry) s)
  (ht : t < env.nbBlocks) (hmany : 64 ≤ env.pagesPerBlock)
include hok hO ht hmany

/-- What is written is again a page with a record. -/
theorem CollectOk.pair : ∀ kd ∈ gcRecs env.toGeometry s t, Pair env.toGeometry kd.1 kd.2 := by
  obtain ⟨hperm, hholds⟩ := hok.shown_gcRecs hO ht hmany
  intro kd hkd
  refine ⟨?_, hholds kd hkd⟩
  obtain ⟨kv, hkv, he⟩ := List.mem_map.mp (hperm.mem_iff.mp (List.mem_map_of_mem hkd))
  obtain ⟨h, hh, rfl⟩ := List.mem_map.mp hkv
  have hkey : (s.hashtable h).key = kd.1 := CStr.eq_of_bytes (congrArg Prod.fst he)
  rw [← hkey]
  exact (hO.on.page h ((hO.on.memList t ht h).mp hh).1).1

/-- The pair of each bucket of the block is written. -/
theorem CollectOk.written (hh : h ∈ (s.blocks t).list) : ∃ kd ∈ gcRecs env.toGeometry s t,
    kd.1 = (s.hashtable h).key ∧ Holds env.toGeometry kd.2 kd.1 (pairOf env.toGeometry s h).2 := by
  obtain ⟨hperm, hholds⟩ := hok.shown_gcRecs hO ht hmany
  have hmem : bytesOf (pairOf env.toGeometry s h) ∈ (gcRecs env.toGeometry s t).map shown :=
    hperm.mem_iff.mpr (List.mem_map_of_mem (List.mem_map_of_mem hh))
  obtain ⟨kd, hkd, he⟩ := List.mem_map.mp hmem
  obtain ⟨val, hval⟩ := hholds kd hkd
  have hsame : (pairOf env.toGeometry s h).2 = val := by
    have hbytes : valueOf kd.2 = (pairOf env.toGeometry s h).2.bytes := congrArg Prod.snd he
    rw [← hval.val_eq, ← valueOf, hbytes, CStr.ofBytes_bytes]
  rw [hsame]
  exact ⟨kd, hkd, CStr.eq_of_bytes (congrArg Prod.fst he), hval⟩

/-- The collection returns where the two locks are free. -/
theorem CollectOk.fits (hone : s.locks .oneLock = false) (hlist : s.locks .listLock = false) :
    GcFits env s t where
  oneLock := hone
  listLock := hlist
  room := hok.room
  size h hh := by
    have hv := ((hO.on.memList t ht h).mp hh).1
    rw [lensOn_pageOf hO hv]
    exact (holds_pairOf hO hv).size_le
  keys kd hkd := (hok.pair hO ht hmany kd hkd).1
  writable := hok.writable

end Pairs

/-! ## After the write loop -/

/-- What the write loop leaves of hash table, blocks and flash. -/
structure Refilled (g : Geometry) (v : ℕ) (recs : List (CStr × List Byte)) (s s' : Config) : Prop where
  old : ∀ j, s.Valid g j → s'.Valid g j ∧ (s'.hashtable j).key = (s.hashtable j).key ∧
    (s'.hashtable j).index = (s.hashtable j).index
  new : ∀ (i : ℕ) (w : CStr × List Byte), recs[i]? = some w → ∃ j, s'.Valid g j ∧
    (s'.hashtable j).key = w.1 ∧
      (s'.hashtable j).index = v * g.pagesPerBlock + (s.blocks v).currentPageOffset + i
  mtd : s'.mtd = replay (programs
    (pagesFrom (v * g.pagesPerBlock + (s.blocks v).currentPageOffset) recs)) s.mtd
  other : ∀ b, b ≠ v → s'.blocks b = s.blocks b

theorem programPage_blocks_ne {p b : ℕ} {data : List Byte} (hb : b ≠ p / g.pagesPerBlock) :
    (programPage g p data s).blocks b = s.blocks b := by
  rw [programPage, Config.modifyBlk_ne hb]

theorem stored_blocks_ne {p b : ℕ} {data : List Byte} {table : ℕ → Bucket} (hb : b ≠ v)
    (hp : p / g.pagesPerBlock = v) : (s.stored g p data table v h).blocks b = s.blocks b := by
  have hne : b ≠ p / g.pagesPerBlock := by rwa [hp]
  rw [Config.stored, Config.listAdd, Config.modifyBlk_ne hb]
  exact @programPage_blocks_ne g s p b data hne

theorem Appended.refilled {recs : List (CStr × List Byte)} (hA : Appended g v recs s s')
    (hroom : (s.blocks v).currentPageOffset + recs.length ≤ g.pagesPerBlock) :
    Refilled g v recs s s' := by
  induction hA with
  | nil s =>
    refine ⟨fun j hv => ⟨hv, rfl, rfl⟩, fun i w hw => ?_, rfl, fun _ _ => rfl⟩
    cases hw
  | @cons key data recs s s' h table hE hrest ih =>
    rw [List.length_cons] at hroom
    have hdiv : (v * g.pagesPerBlock + (s.blocks v).currentPageOffset) / g.pagesPerBlock = v :=
      Geometry.page_div (by omega)
    have hofs : ((s.stored g (v * g.pagesPerBlock + (s.blocks v).currentPageOffset) data table v h).blocks
        v).currentPageOffset = (s.blocks v).currentPageOffset + 1 := by
      rw [stored_offset, hdiv, if_pos rfl]
    have ih := ih (by omega)
    refine ⟨fun j hv => ?_, fun i w hw => ?_, ?_, fun b hb => ?_⟩
    · obtain ⟨hv', hk, hi⟩ := ih.old j (hE.valid.mpr (.inl hv))
      obtain ⟨-, hk₀, hi₀⟩ := hE.other j (hE.ne_of_valid hv)
      exact ⟨hv', hk.trans hk₀, hi.trans hi₀⟩
    · cases i with
      | zero =>
        obtain rfl := Option.some.inj hw
        obtain ⟨hv', hk, hi⟩ := ih.old h (hE.valid.mpr (.inr rfl))
        rw [stored_hashtable, hE.self] at hk hi
        exact ⟨h, hv', hk, hi⟩
      | succ i =>
        obtain ⟨j, hv', hk, hi⟩ := ih.new i w hw
        exact ⟨j, hv', hk, by omega⟩
    · rw [ih.mtd, hofs, stored_mtd, ← replay_cons]
      rfl
    · rw [ih.other b hb, stored_blocks_ne hb hdiv]

/-! ## The whole collection -/

/-- The header page, if the destination is empty once the target is erased. -/
def openingPage (g : Geometry) (s : Config) (t v : ℕ) : List (ℕ × List Byte) :=
  if ((s.wiped g t).blocks v).currentPageOffset = 0 then [(v * g.pagesPerBlock, hdrPage g .nandData)] else []

/-- Block `t` has been collected to block `v`: a data block, in which all pages lie that were written, and
every page of the target is among them. -/
structure Moved (g : Geometry) (s : Config) (t v : ℕ) (s' : Config) : Prop where
  data : v < g.nbBlocks ∧ s.Unlisted v
  pages : ∃ ws, s'.mtd = replay (programs (openingPage g s t v ++ ws))
      (.erase (t * g.pagesPerBlock) g.pagesPerBlock :: s.mtd) ∧
    ws.length = (s.blocks t).list.length ∧ ∀ w ∈ openingPage g s t v ++ ws, w.1 / g.pagesPerBlock = v
  moved : ∀ h, s.Valid g h → s.blkOf g h = t → ∃ h', s'.Valid g h' ∧
    (s'.hashtable h').key = (s.hashtable h).key ∧ s'.blkOf g h' = v ∧
      ∃ val, Holds g (pageOf g s h) (s.hashtable h).key val ∧ Holds g (pageOf g s' h') (s.hashtable h).key val
  freed : v ≠ t → (s'.blocks t).state = .blkFree ∧ (s'.blocks t).currentPageOffset = 0

theorem emptied_offset : ((s.emptied g t v).blocks v).currentPageOffset =
    max ((s.wiped g t).blocks v).currentPageOffset 1 := by
  have hofs := reset_offset (g := g) (s := s) (t := t) (v := v) (b := v) (s.blocks t).list
  have hle := (emptied_spec g s t v).le
  have hpos := (emptied_spec g s t v).pos
  rw [Config.emptied, Config.opened] at hle hpos ⊢
  split at hle
  · next h0 => rw [if_pos h0] at hpos ⊢; omega
  · next h0 => rw [if_neg h0, hofs] at hpos ⊢; omega

theorem emptied_mtd : (s.emptied g t v).mtd = replay (programs (openingPage g s t v))
    (.erase (t * g.pagesPerBlock) g.pagesPerBlock :: s.mtd) := by
  have hofs := reset_offset (g := g) (s := s) (t := t) (v := v) (b := v) (s.blocks t).list
  have hmtd : (((s.setState v .blkUsed).droppedAll g (s.blocks t).list).wiped g t).mtd =
      .erase (t * g.pagesPerBlock) g.pagesPerBlock :: s.mtd :=
    congrArg (List.cons _) (droppedAll_view (f := Config.mtd) (fun _ _ => rfl) _ _)
  rw [Config.emptied, Config.opened, openingPage, hofs]
  split
  · exact congrArg (List.cons _) hmtd
  · exact hmtd

/-- A target that is not the destination is left as it was erased. -/
theorem emptied_target (hne : v ≠ t) : (s.emptied g t v).blocks t = .erased ((s.blocks t).worn + 1) := by
  have hworn : (((s.setState v .blkUsed).droppedAll g (s.blocks t).list).blocks t).worn = (s.blocks t).worn := by
    rw [droppedAll_view (f := fun s => (s.blocks t).worn) (fun s h => (dropped_same g h t).2),
      Config.setState, Config.modifyBlk_ne hne.symm]
  have hwiped := @wiped_self g ((s.setState v .blkUsed).droppedAll g (s.blocks t).list) t
  rw [hworn] at hwiped
  rw [Config.emptied, Config.opened]
  split
  · have hdiv : v * g.pagesPerBlock / g.pagesPerBlock = v := Nat.mul_div_cancel _ g.pagesPerBlock_pos
    have hne' : t ≠ v * g.pagesPerBlock / g.pagesPerBlock := by
      rw [hdiv]
      exact hne.symm
    rw [Config.headed, Config.setState, Config.modifyBlk_ne hne.symm]
    exact (@programPage_blocks_ne g _ _ t (hdrPage g .nandData) hne').trans hwiped
  · exact hwiped

/-- Each page that was written is the page of a valid bucket of its key. -/
theorem Refilled.page {recs : List (CStr × List Byte)} (hR : Refilled g v recs s s')
    (hroom : (s.blocks v).currentPageOffset + recs.length ≤ g.pagesPerBlock)
    (hfresh : ∀ o, (s.blocks v).currentPageOffset ≤ o → o < g.pagesPerBlock →
      programmed s.mtd (v * g.pagesPerBlock + o) = false) {w : CStr × List Byte} (hw : w ∈ recs)
    (hsize : w.2.length = g.pageSize) : ∃ j, s'.Valid g j ∧ (s'.hashtable j).key = w.1 ∧
      s'.blkOf g j = v ∧ pageOf g s' j = w.2 := by
  obtain ⟨i, hi, rfl⟩ := List.getElem_of_mem hw
  have hget := List.getElem?_eq_getElem hi
  obtain ⟨j, hv, hk, hindex⟩ := hR.new i _ hget
  rw [Nat.add_assoc] at hindex
  refine ⟨j, hv, hk, ?_, ?_⟩
  · rw [Config.blkOf, hindex, Geometry.page_div (by omega)]
  · rw [pageOf, hindex, hR.mtd]
    refine content_programs_mem _ _ ?_ ?_ (hfresh _ (by omega) (by omega)) hsize
    · rw [Serial.pagesFrom_pages]
      exact List.nodup_range'
    · rw [← Nat.add_assoc]
      exact Serial.mem_pagesFrom hget

/-- The pages of a collection lie in its destination. -/
theorem pagesFrom_div {recs : List (CStr × List Byte)} {o : ℕ} (hroom : o + recs.length ≤ g.pagesPerBlock) :
    ∀ w ∈ pagesFrom (v * g.pagesPerBlock + o) recs, w.1 / g.pagesPerBlock = v := by
  intro w hw
  have hmem := List.mem_map_of_mem (f := Prod.fst) hw
  rw [Serial.pagesFrom_pages, List.mem_range'_1] at hmem
  obtain ⟨i, hi⟩ := Nat.exists_eq_add_of_le hmem.1
  rw [hi, Nat.add_assoc]
  exact Geometry.page_div (by omega)

theorem openingPage_div : ∀ w ∈ openingPage g s t v, w.1 / g.pagesPerBlock = v := by
  rw [openingPage]
  split
  · rintro w hw
    obtain rfl := List.mem_singleton.mp hw
    exact Nat.mul_div_cancel _ g.pagesPerBlock_pos
  · exact fun w hw => absurd hw List.not_mem_nil

/-- A collection that meets its condition moves the target. -/
theorem CollectedTo.moved (hC : CollectedTo env.toGeometry s t s')
    (hO : Orderly env.toGeometry (Pair env.toGeometry) s) (hcol : Collects env s t) (hok : CollectOk env s t) :
    Moved env.toGeometry s t (gcVictim env.toGeometry s t) s' := by
  obtain ⟨hvlt, hvun, hfit⟩ := gcVictim_data hO hcol.target hok.dest
  obtain ⟨htlt, -⟩ := hO.target hcol.target
  obtain ⟨s₁, hA, hs'⟩ := hC
  generalize gcVictim env.toGeometry s t = v at hvlt hvun hfit hA hs' ⊢
  have hlen : (gcRecs env.toGeometry s t).length = (s.blocks t).list.length := gcRecs_length
  have hofs : ((s.gcStart.emptied env.toGeometry t v).blocks v).currentPageOffset =
      max ((s.wiped env.toGeometry t).blocks v).currentPageOffset 1 := emptied_offset
  have hroom : ((s.gcStart.emptied env.toGeometry t v).blocks v).currentPageOffset +
      (gcRecs env.toGeometry s t).length ≤ env.pagesPerBlock := by
    rw [hofs, hlen]
    exact hfit.le
  have hR := hA.refilled hroom
  have hmtd₀ : (s.gcStart.emptied env.toGeometry t v).mtd = replay (programs (openingPage env.toGeometry s t v))
      (.erase (t * env.pagesPerBlock) env.pagesPerBlock :: s.mtd) := emptied_mtd
  have htarget : v ≠ t → (s.gcStart.emptied env.toGeometry t v).blocks t = .erased ((s.blocks t).worn + 1) :=
    emptied_target
  have hO₀ : Orderly env.toGeometry (Pair env.toGeometry) s.gcStart := hO.of_ledger rfl
  have hO₁ : Orderly env.toGeometry (Pair env.toGeometry) (s.gcStart.emptied env.toGeometry t v) :=
    hO₀.emptied htlt
  have hun : (s.gcStart.emptied env.toGeometry t v).Unlisted v := by
    rw [Config.Unlisted, (emptied_spec env.toGeometry s.gcStart t v).order]
    exact hvun
  generalize s.gcStart.emptied env.toGeometry t v = e at hR hroom hmtd₀ htarget hO₁ hun
  rw [Config.ledger, Config.ledger, Prod.mk.injEq, Prod.mk.injEq, Prod.mk.injEq] at hs'
  obtain ⟨hblocks, htable, -, hmtd⟩ := hs'
  have hmtd : s'.mtd = s₁.mtd := hmtd
  have htable : s'.hashtable = s₁.hashtable := htable
  refine ⟨⟨hvlt, hvun⟩, ⟨pagesFrom (v * env.pagesPerBlock + (e.blocks v).currentPageOffset)
    (gcRecs env.toGeometry s t), ?_, ?_, ?_⟩, fun h hv hblk => ?_, fun hne => ?_⟩
  · have happ : programs (openingPage env.toGeometry s t v ++ pagesFrom (v * env.pagesPerBlock +
        (e.blocks v).currentPageOffset) (gcRecs env.toGeometry s t)) =
        programs (openingPage env.toGeometry s t v) ++ programs (pagesFrom (v * env.pagesPerBlock +
          (e.blocks v).currentPageOffset) (gcRecs env.toGeometry s t)) := List.map_append
    rw [happ, replay_append, ← hmtd₀, ← hR.mtd, hmtd]
  · have hpages := congrArg List.length (@Serial.pagesFrom_pages (gcRecs env.toGeometry s t)
      (v * env.pagesPerBlock + (e.blocks v).currentPageOffset))
    rwa [List.length_map, List.length_range', hlen] at hpages
  · intro w hw
    obtain hw | hw := List.mem_append.mp hw
    · exact openingPage_div w hw
    · exact pagesFrom_div hroom w hw
  · have hh : h ∈ (s.blocks t).list := (hO.on.memList t htlt h).mpr ⟨hv, hblk⟩
    obtain ⟨kd, hkd, hkey, hholds⟩ := hok.written hO htlt hcol.pages hh
    obtain ⟨j, hvj, hkj, hbj, hpj⟩ := hR.page hroom (hO₁.on.block v hvlt hun).unwritten hkd hholds.length
    rw [← hpj, hkey] at hholds
    refine ⟨j, ?_, ?_, ?_, (pairOf env.toGeometry s h).2, holds_pairOf hO hv, ?_⟩
    · rw [Config.Valid, htable]
      exact hvj
    · rw [htable, hkj, hkey]
    · rw [Config.blkOf, htable]
      exact hbj
    · rw [pageOf, htable, hmtd]
      exact hholds
  · have hblk : s'.blocks t = .erased ((s.blocks t).worn + 1) := by
      rw [hblocks, Config.setState, Config.modifyBlk_ne hne.symm, hR.other t hne.symm, htarget hne]
    rw [hblk]
    exact ⟨rfl, rfl⟩

/-- A collection that meets its condition returns. -/
theorem gc_moved (hdrv : env.NoDriverError) (hO : Orderly env.toGeometry (Pair env.toGeometry) s)
    (hone : s.locks .oneLock = false) (hlist : s.locks .listLock = false) (hcol : Collects env s t)
    (hok : CollectOk env s t) : ∃ s', gc env s = .ok (⟨⟩, s') ∧
      Moved env.toGeometry s t (gcVictim env.toGeometry s t) s' := by
  obtain ⟨htlt, -⟩ := hO.target hcol.target
  have hwp := @gc_wp env (Pair env.toGeometry) s False hdrv hO (fun _ _ hP => hP.2.choose_spec.length) (.inr hok.order)
    fun t' hcol' => by
      obtain rfl : t = t' := Option.some.inj (hcol.target.symm.trans hcol'.target)
      exact ⟨hok.dest, hok.found, .inr (hok.fits hO htlt hcol.pages hone hlist)⟩
  cases he : gc env s with
  | error f => exact (hwp.of_error he).elim
  | ok r =>
    obtain ⟨⟨⟩, s'⟩ := r
    obtain ⟨hno, -⟩ | ⟨t', hcol', hto⟩ := hwp.of_ok he
    · exact absurd hcol (hno t)
    · obtain rfl : t = t' := Option.some.inj (hcol.target.symm.trans hcol'.target)
      exact ⟨s', rfl, hto.moved hO hcol hok⟩

/-! ## Runs -/

/-- The number of valid buckets whose page lies in block `b`. -/
def nbValid (g : Geometry) (s : Config) (b : ℕ) : ℕ :=
  ((List.range (hashSlots g)).filter fun h => (s.hashtable h).pState = .pgValid ∧ s.blkOf g h = b).length

/-- The counters of each data block tell the number of its valid buckets. -/
def Exact (g : Geometry) (s : Config) : Prop := ∀ b < g.nbBlocks, s.Unlisted b →
  (s.blocks b).currentPageOffset = 0 ∧ (s.blocks b).nbInvalid = 0 ∧ nbValid g s b = 0 ∨
    (s.blocks b).nbInvalid + nbValid g s b + 1 = (s.blocks b).currentPageOffset

theorem Orderly.exact {P : CStr → List Byte → Prop} (hO : Orderly g P s) : Exact g s := by
  intro b hb hun
  have hmem : ∀ h, h ∈ (List.range (hashSlots g)).filter
      (fun h => (s.hashtable h).pState = .pgValid ∧ s.blkOf g h = b) ↔ h ∈ (s.blocks b).list := by
    intro h
    rw [hO.on.memList b hb, List.mem_filter, List.mem_range, decide_eq_true_iff, Config.Valid, and_assoc]
  have hperm := (List.perm_ext_iff_of_nodup (List.nodup_range.filter _) (hO.on.nodup b hb)).mpr hmem
  have hcount : nbValid g s b = (s.blocks b).list.length := hperm.length_eq
  rw [hcount]
  obtain ⟨-, -, ⟨h0, hinv, hnil⟩ | hsum⟩ := hO.on.block b hb hun
  · exact .inl ⟨h0, hinv, by rw [hnil]; rfl⟩
  · exact .inr (by omega)

theorem setStore_locks_ne {key val : Option CStr} {x : SetExit} {l : Lock}
    (he : setStore env key val s = .ok (x, s')) (hl : l ≠ .eraseLock) : s'.locks l = s.locks l := by
  obtain ⟨-, ⟨-, -, hheld⟩ | ⟨-, hsame⟩⟩ := setStore_locks he
  · rw [hheld, lock_locks, Function.update_of_ne hl]
  · rw [hsame]

/-- A call that returns changes no lock but `erase_lock`. -/
theorem Returns.locks_ne {c : Call} {l : Lock} (h : Returns env s c s') (hl : l ≠ .eraseLock) :
    s'.locks l = s.locks l := by
  obtain ⟨r, he⟩ := h
  by_cases hc : ∃ key val, c = .set key val
  · obtain ⟨key, val, rfl⟩ := hc
    obtain ⟨ret, s₁, he₁, hend⟩ := bind_ok.mp he
    obtain ⟨-, rfl⟩ := pure_ok.mp hend
    obtain ⟨x, s₂, he₂, hexit⟩ := bind_ok.mp he₁
    have hrest : s₁.locks = s₂.locks := by
      cases x with
      | early code => rw [(pure_ok.mp hexit).2]
      | stored ret =>
        obtain ⟨_, s₃, he₃, hcode⟩ := bind_ok.mp hexit
        rw [← (pure_ok.mp hcode).2]
        exact gcCheck_keeps.locks_eq he₃
    rw [hrest, setStore_locks_ne he₂ hl]
  · rw [(exec_keeps fun key val he => hc ⟨key, val, he⟩).locks_eq he]

/-- Each collection that starts in `s` and meets its condition returns, and moves its target. -/
def Collecting (env : Env) (s : Config) : Prop := ∀ t, Collects env s t → CollectOk env s t →
  ∃ s', gc env s = .ok (⟨⟩, s') ∧ Moved env.toGeometry s t (gcVictim env.toGeometry s t) s'

/-- In every state of a run from a formatted device whose calls meet their conditions, the accounting is exact,
and a collection that meets its condition moves its target as it should: one by `gc`, and one behind a set,
which starts in the state `s₁` that the set leaves. -/
theorem gc_moves_target (env : Env) (hdrv : env.NoDriverError) {s₀ s : Config} {cs : List Call}
    (hf : Formatted env s₀) (hidle : ∀ l, s₀.locks l = false)
    (hr : Run (fun s c s' => CallOk env (CollectOk env) s c ∧ Returns env s c s') s₀ cs s) :
    (Exact env.toGeometry s ∧ Collecting env s) ∧ ∀ key val ret s₁, SetPickOk env s key val →
      setStore env key val s = .ok (.stored ret, s₁) → Exact env.toGeometry s₁ ∧ Collecting env s₁ := by
  have hO : Orderly env.toGeometry (Pair env.toGeometry) s :=
    run_orderly hdrv (records_pair _) (fun _ _ hP => hP.2.choose_spec.length) (fun s t hO hcol hok =>
      ⟨hok.dest, hok.found, hok.pair hO (hO.target hcol.target).1 hcol.pages⟩) hf hr
  have hlocks : s.locks .oneLock = false ∧ s.locks .listLock = false :=
    hr.invariant (I := fun s => s.locks .oneLock = false ∧ s.locks .listLock = false)
      (fun s c s' hs hstep => by
        rwa [hstep.2.locks_ne (by decide), hstep.2.locks_ne (by decide)]) ⟨hidle _, hidle _⟩
  refine ⟨⟨hO.exact, fun t => gc_moved hdrv hO hlocks.1 hlocks.2⟩, fun key val ret s₁ hpick he => ?_⟩
  have hO₁ := setStore_orderly (records_pair _) hO hpick he
  refine ⟨hO₁.exact, fun t => gc_moved hdrv hO₁ ?_ ?_⟩
  · rw [setStore_locks_ne he (by decide)]
    exact hlocks.1
  · rw [setStore_locks_ne he (by decide)]
    exact hlocks.2

/-! ## Runs without a collection -/

/-- A call that starts no collection, and whose record, if it stores one, goes to the block picked. -/
def plain (env : Env) (s : Config) : Call → Bool
  | .set key val =>
      (match getHealthyBlock env.toGeometry s with
        | none => true
        | some b => 0 < (s.blocks b).currentPageOffset ∨ b = 0) &&
      match setStore env key val s with
        | .ok (_, s₁) => !s₁.isGb
        | .error _ => true
  | .gc => !s.isGb
  | _ => true

/-- The state behind a list of such calls. -/
def plainRun (env : Env) : List Call → Config → Option Config
  | [], s => some s
  | c :: cs, s =>
      match exec env c s with
      | .ok (_, s') => if plain env s c then plainRun env cs s' else none
      | .error _ => none

theorem not_collects (hgb : s.isGb = false) : ¬ Collects env s t := fun hcol =>
  Bool.false_ne_true (hgb.symm.trans hcol.flag)

theorem callOk_of_plain {C : Config → ℕ → Prop} {c : Call} (hp : plain env s c = true) : CallOk env C s c := by
  cases c with
  | set key val =>
    obtain ⟨hpick, hgb⟩ := Bool.and_eq_true_iff.mp hp
    refine ⟨?_, fun ret s₁ he _ t hcol => absurd hcol (not_collects ?_)⟩
    · cases key with
      | none => trivial
      | some key =>
        cases val with
        | none => trivial
        | some val =>
          refine fun _ _ => .inr fun b hb => ?_
          rw [hb] at hpick
          exact (of_decide_eq_true hpick).imp_right .inl
    · rw [he] at hgb
      exact Bool.not_eq_true' _ ▸ hgb
  | gc => exact fun t hcol => absurd hcol (not_collects (Bool.not_eq_true' _ ▸ hp))
  | get key => trivial
  | del key => trivial
  | format => trivial
  | flush force => trivial

theorem run_of_plain {C : Config → ℕ → Prop} : ∀ {cs : List Call} {s s' : Config},
    plainRun env cs s = some s' → Run (fun s c s' => CallOk env C s c ∧ Returns env s c s') s cs s'
  | [], s, s', h => by
    obtain rfl := Option.some.inj h
    exact .nil _
  | c :: cs, s, s', h => by
    rw [plainRun] at h
    split at h
    · next r s₁ he =>
      split at h
      · next hp => exact .cons ⟨callOk_of_plain hp, ⟨r, he⟩⟩ (run_of_plain h)
      · cases h
    · cases h

/-- A test of the last state, on a device that is loaded and formatted. -/
def plainTest (env : Env) (cs : List Call) (p : Config → Bool) : Bool :=
  match format env .start with
  | .ok (_, s₀) => (plainRun env cs s₀).any p
  | .error _ => false

theorem run_of_plainTest {C : Config → ℕ → Prop} {cs : List Call} {p : Config → Bool}
    (h : plainTest env cs p = true) : ∃ s₀ s, Formatted env s₀ ∧ (∀ l, s₀.locks l = false) ∧
      Run (fun s c s' => CallOk env C s c ∧ Returns env s c s') s₀ cs s ∧ p s = true := by
  rw [plainTest] at h
  split at h
  · next ret s₀ he =>
    obtain ⟨s, hs, hp⟩ := (Option.any_eq_true _ _).mp h
    refine ⟨s₀, s, ⟨ret, .start, nofun, he⟩, fun l => ?_, run_of_plain hs, hp⟩
    rw [format_keeps.locks_eq he]
    rfl
  · cases h

/-- Two blocks of 64 pages with 16384 bytes each, whose metadata fit one of them. -/
def wideBlocks : Geometry := .ofSizes 2 64 16384 (by decide)

/-- One key is stored 21 times, and the flag is set that the next `gc` asks for. -/
def hotKey : List Call := List.replicate 21 (.set (some (.ofBytes [107])) (some (.ofBytes [118]))) ++ [.gc]

/-- The page of the key is moved to the other block. -/
theorem gc_moves_target_one : ∃ s₀ s s', Formatted (Env.ideal wideBlocks) s₀ ∧
    Run (Returns (Env.ideal wideBlocks)) s₀ hotKey s ∧ gc (Env.ideal wideBlocks) s = .ok (⟨⟩, s') ∧
      Moved wideBlocks s 0 1 s' := by
  obtain ⟨s₀, s, hf, hidle, hr, hp⟩ := @run_of_plainTest (Env.ideal wideBlocks)
    (CollectOk (Env.ideal wideBlocks)) hotKey
    (fun s => s.isGb = true ∧ s.locks .eraseLock = false ∧ gcTarget wideBlocks s = some 0 ∧
      gcVictim wideBlocks s 0 = 1 ∧ inOrder s.metaBlkordr (nbProbed wideBlocks) 1 = false ∧
      targetValidCnt s 0 < (wideBlocks.pagesPerBlock : ℤ) - (s.blocks 1).currentPageOffset ∧
      (s.blocks 0).list = [20] ∧ hashSearch wideBlocks s.hashtable (keyOn (pageOf wideBlocks s 20)) = some 20 ∧
      isReadOnly wideBlocks (s.wiped wideBlocks 0) = false) (by decide +kernel)
  obtain ⟨hgb, hlock, htarget, hvictim, hord, hfit, hlist, hfound, hro⟩ := of_decide_eq_true hp
  have hcol : Collects (Env.ideal wideBlocks) s 0 := ⟨by decide, hgb, hlock, htarget⟩
  have hlive : livePairs (Env.ideal wideBlocks).toGeometry s 0 = [pairOf wideBlocks s 20] := by
    rw [livePairs, hlist]
    rfl
  have hok : CollectOk (Env.ideal wideBlocks) s 0 := by
    refine ⟨by decide, .inl ⟨1, by decide, by decide, hord, hfit⟩, fun h hh => ?_, fun _ => hro, fun _ => ?_,
      fun kv hkv => ?_, ?_⟩
    · rw [hlist] at hh
      obtain rfl := List.mem_singleton.mp hh
      exact hfound
    · rw [hlist]
      decide
    · rw [hlive] at hkv
      exact absurd hkv List.not_mem_nil
    · rw [hlive]
      exact List.Perm.refl _
  obtain ⟨s', he, hmoved⟩ := (gc_moves_target (Env.ideal wideBlocks) (Env.ideal_noDriverError _) hf hidle
    hr).1.2 0 hcol hok
  have hvictim : gcVictim (Env.ideal wideBlocks).toGeometry s 0 = 1 := hvictim
  rw [hvictim] at hmoved
  exact ⟨s₀, s, s', hf, hr.mono fun _ _ _ hstep => hstep.2, he, hmoved⟩

/-- A flush puts the metadata in block 1, which looks erased after a `format`: the page of the key is moved
there, although the accounting is exact. -/
theorem merge_into_metadata : ∃ s₀ s s', Formatted (Env.ideal wideBlocks) s₀ ∧
    Run (Returns (Env.ideal wideBlocks)) s₀ (.flush true :: .format :: hotKey) s ∧ Exact wideBlocks s ∧
      Collects (Env.ideal wideBlocks) s 0 ∧ ¬ s.Unlisted (gcVictim wideBlocks s 0) ∧
        gc (Env.ideal wideBlocks) s = .ok (⟨⟩, s') ∧ (s'.blocks (gcVictim wideBlocks s 0)).list ≠ [] := by
  obtain ⟨s₀, s, hf, -, hr, hp⟩ := @run_of_plainTest (Env.ideal wideBlocks)
    (CollectOk (Env.ideal wideBlocks)) (.flush true :: .format :: hotKey)
    (fun s => decide (s.isGb = true ∧ s.locks .eraseLock = false ∧ gcTarget wideBlocks s = some 0 ∧
      s.metaBlkordr 0 = some (gcVictim wideBlocks s 0)) && match gc (Env.ideal wideBlocks) s with
        | .ok (_, s') => (s'.blocks (gcVictim wideBlocks s 0)).list ≠ []
        | .error _ => false) (by decide +kernel)
  obtain ⟨hstate, hgc⟩ := Bool.and_eq_true_iff.mp hp
  obtain ⟨hgb, hlock, htarget, hlisted⟩ := of_decide_eq_true hstate
  have hO : Orderly wideBlocks (Pair wideBlocks) s :=
    run_orderly (Env.ideal_noDriverError wideBlocks) (records_pair _)
      (fun _ _ hP => hP.2.choose_spec.length) (fun s t hO hcol hok =>
        ⟨hok.dest, hok.found, hok.pair hO (hO.target hcol.target).1 hcol.pages⟩) hf hr
  split at hgc
  · next u s' he =>
    exact ⟨s₀, s, s', hf, hr.mono fun _ _ _ hstep => hstep.2, hO.exact, ⟨by decide, hgb, hlock, htarget⟩,
      fun hun => hun 0 hlisted, he, of_decide_eq_true hgc⟩
  · cases hgc

end LkpProjects.Parallel
