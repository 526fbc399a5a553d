import LkpProjects.Parallel.LedgerSteps
import LkpProjects.Serial.Reclaim

/-! # The parallel store: a collection on the ledger

`gc` reads the pages on the list of its target block and drops the bucket that it finds under each key, erases
the block, and appends what its buffer then holds to the destination. Where each search finds the page's own
bucket (`Findable`), the list ends empty, so no valid bucket is left in the erased block.

Each function is followed by its weakest precondition with a proposition `fails` for the faults: with `fails`
true the lemma is about calls that return, with `fails` false it says that the call returns, from what a
second hypothesis then adds.
-/
namespace LkpProjects.Parallel
open Nand Bytes Hoare
open Serial (Geometry HdrKind GcRead blit cut blit_in cut_eq_of_mem layPages writtenBack rewriteBuffer)
set_option autoImplicit false

variable {env : Env} {P : CStr → List Byte → Prop} {s s' : Config} {fails : Prop}

/-! ## Searching a table that loses buckets -/

section Search
variable {n : ℕ} {t : ℕ → Bucket} {key : CStr} {h j : ℕ}

/-- The bucket found stays found while another one is freed. -/
theorem searchLoop_freed (hne : j ≠ h) : ∀ {fuel i : ℕ}, searchLoop n t key fuel i = some j →
    searchLoop n (Function.update t h { t h with pState := .pgFree }) key fuel i = some j
  | 0, _, he => by cases he
  | fuel + 1, i, he => by
    rw [searchLoop] at he ⊢
    by_cases hi : i = h
    · have hnot : ¬ ((t i).pState = .pgValid ∧ (t i).key = key) := by
        intro hfound
        rw [if_pos hfound] at he
        exact hne ((Option.some.inj he).symm.trans hi)
      rw [if_neg hnot] at he
      have hself : Function.update t h { t h with pState := .pgFree } i = { t i with pState := .pgFree } := by
        rw [hi, Function.update_self]
      have hfree : Serial.PageState.pgFree ≠ .pgValid := by decide
      rw [hself, if_neg (fun hf => hfree hf.1)]
      split at he
      · cases he
      · next hdirty =>
        rw [if_neg hdirty]
        exact searchLoop_freed hne he
    · rw [Function.update_of_ne hi]
      split at he
      · next hfound => rw [if_pos hfound, he]
      · next hnot =>
        rw [if_neg hnot]
        split at he
        · cases he
        · next hdirty =>
          rw [if_neg hdirty]
          exact searchLoop_freed hne he

theorem hashSearch_dropped {g : Geometry} (hne : j ≠ h) (he : hashSearch g s.hashtable key = some j) :
    hashSearch g (s.dropped g h).hashtable key = some j := searchLoop_freed hne he

end Search

/-! ## The walk -/

/-- The key of the record on a page. -/
def keyOn (page : List Byte) : CStr := .ofBytes ((page.drop 8).take (readLe (mem page) 0))

/-- The lengths of the record on a page. -/
def lensOn (page : List Byte) : ℕ × ℕ := (readLe (mem page) 0, readLe (mem page) 4)

/-- The page of a bucket. -/
def pageOf (g : Geometry) (s : Config) (h : ℕ) : List Byte := content g.pageSize s.mtd (s.hashtable h).index

/-- The search for the key on each page of a block's list finds the page's bucket. -/
def Findable (g : Geometry) (s : Config) (slots : List ℕ) : Prop :=
  ∀ h ∈ slots, hashSearch g s.hashtable (keyOn (pageOf g s h)) = some h

/-- `invalid_pg` on one slot after the other. -/
def Config.droppedAll (g : Geometry) (s : Config) (slots : List ℕ) : Config :=
  slots.foldl (fun s h => s.dropped g h) s

section Blit
variable {buf : ℕ → Byte} {pos : ℕ} {page : List Byte}

theorem readLe_blit {o : ℕ} (h : o + 4 ≤ page.length) :
    readLe (blit buf pos page) (pos + o) = readLe (mem page) o :=
  readLe_congr fun i hi => by rw [Nat.add_assoc, blit_in (by omega)]

theorem cut_blit {o n : ℕ} (h : o + n ≤ page.length) :
    cut (blit buf pos page) (pos + o) n = (page.drop o).take n := by
  have hlen : ((page.drop o).take n).length = n := by
    rw [List.length_take, List.length_drop]
    omega
  have hcut := @cut_eq_of_mem (blit buf pos page) (pos + o) ((page.drop o).take n)
    fun i hi => by
      rw [hlen] at hi
      rw [Nat.add_assoc, blit_in (by omega), mem, mem, List.getD_eq_getElem _ _ (by omega),
        List.getD_eq_getElem _ _ (by rw [hlen]; exact hi), List.getElem_take, List.getElem_drop]
  rwa [hlen] at hcut

end Blit

section Walk
variable {g : Geometry} {h j t : ℕ} {slots : List ℕ} {r : GcRead}

theorem dropped_mtd : (s.dropped g h).mtd = s.mtd := rfl

theorem pageOf_dropped : pageOf g (s.dropped g h) j = pageOf g s j := by
  rw [pageOf, pageOf, dropped_mtd, dropped_index]

theorem Findable.tail (hF : Findable g s (h :: slots)) (hnd : (h :: slots).Nodup) :
    Findable g (s.dropped g h) slots := by
  intro j hj
  rw [pageOf_dropped]
  refine hashSearch_dropped ?_ (hF j (List.mem_cons_of_mem _ hj))
  rintro rfl
  exact (List.nodup_cons.mp hnd).1 hj

/-- What the walk needs to return: a lock, room in the buffer, and records no longer than their pages. -/
structure ReadFits (env : Env) (s : Config) (r : GcRead) (slots : List ℕ) : Prop where
  lock : s.locks .oneLock = false
  room : slots ≠ [] → (r.lens.length + slots.length - 1) * env.pagesPerBlock + env.pageSize ≤
    env.pageSize * env.pagesPerBlock
  count : r.lens.length + slots.length ≤ env.pagesPerBlock
  keys : ∀ h ∈ slots, 8 + (lensOn (pageOf env.toGeometry s h)).1 ≤ env.pageSize

/-- One round of the walk. -/
theorem gcReadOne_wp (hdrv : env.NoDriverError) (hO : Orderly env.toGeometry P s)
    (hfull : ∀ key page, P key page → page.length = env.pageSize) (hv : s.Valid env.toGeometry h)
    (hF : hashSearch env.toGeometry s.hashtable (keyOn (pageOf env.toGeometry s h)) = some h)
    (hfits : fails ∨ ReadFits env s r (h :: slots)) :
    wp (gcReadOne env r h) (fun x s' => x = (h,
      ⟨blit r.buffer (r.lens.length * env.pagesPerBlock) (pageOf env.toGeometry s h),
        r.lens ++ [lensOn (pageOf env.toGeometry s h)]⟩) ∧ s' = s.dropped env.toGeometry h)
      (fun _ => fails) s := by
  have hpage : (pageOf env.toGeometry s h).length = env.pageSize := hfull _ _ (hO.on.page h hv)
  have hsize := env.eight_le_pageSize
  have hmem := (hO.on.memList _ (hO.on.bucket h hv).inside h).mpr ⟨hv, rfl⟩
  have hlist : onList env.toGeometry s h = true :=
    List.any_eq_true.mpr ⟨_, List.mem_range.mpr (hO.on.bucket h hv).inside, List.contains_iff_mem.mpr hmem⟩
  rw [gcReadOne, wp_bind, wp_get, wp_bind, readPage, wp_withLock]
  refine ⟨fun hheld => hfits.resolve_right fun hf => ?_, fun hfree => ?_⟩
  · rw [hf.lock] at hheld
    cases hheld
  · rw [wp_bind, wp_get, wp_ite]
    refine ⟨fun hfail => absurd (hfail.symm.trans (hdrv.read _ _)) Bool.false_ne_true, fun _ => ?_⟩
    rw [wp_pure, lock_back hfree]
    have hk := @readLe_blit r.buffer (r.lens.length * env.pagesPerBlock) (pageOf env.toGeometry s h) 0 (by omega)
    have hvl := @readLe_blit r.buffer (r.lens.length * env.pagesPerBlock) (pageOf env.toGeometry s h) 4 (by omega)
    have hsame : content env.pageSize (s.lock .oneLock true).mtd (s.hashtable h).index =
        pageOf env.toGeometry s h := rfl
    rw [Nat.add_zero] at hk
    rw [hsame]
    simp only
    rw [hk, wp_ite]
    refine ⟨fun hbig => hfits.resolve_right fun hf => ?_, fun hfit => ?_⟩
    · have hroom := hf.room (List.cons_ne_nil h slots)
      have hcount := hf.count
      have hkey := hf.keys h List.mem_cons_self
      rw [List.length_cons] at hroom hcount
      have hpos : r.lens.length * env.pagesPerBlock ≤
          (r.lens.length + (slots.length + 1) - 1) * env.pagesPerBlock :=
        Nat.mul_le_mul_right _ (by omega)
      simp only [lensOn] at hkey
      omega
    · have hkey := @cut_blit r.buffer (r.lens.length * env.pagesPerBlock) (pageOf env.toGeometry s h) 8
        (readLe (mem (pageOf env.toGeometry s h)) 0) (by omega)
      rw [wp_bind, wp_get, hkey]
      simp only [keyOn] at hF
      simp only [hF]
      rw [wp_bind, invalidPg, wp_bind, wp_get, wp_ite]
      refine ⟨fun hb => absurd (hO.on.bucket h hv).inside (not_lt.mpr hb), fun _ => ?_⟩
      rw [wp_ite]
      refine ⟨fun hno => absurd (hno.symm.trans hlist) Bool.false_ne_true, fun _ => ?_⟩
      rw [wp_modify, wp_pure]
      refine ⟨?_, rfl⟩
      rw [lensOn, hvl]

theorem ReadFits.tail (hf : ReadFits env s r (h :: slots)) {page : List Byte} :
    ReadFits env (s.dropped env.toGeometry h)
      ⟨blit r.buffer (r.lens.length * env.pagesPerBlock) page, r.lens ++ [lensOn page]⟩ slots where
  lock := hf.lock
  room hne := by
    have hroom := hf.room (List.cons_ne_nil h slots)
    rw [List.length_cons, ← Nat.add_assoc, Nat.add_right_comm] at hroom
    rwa [List.length_append, List.length_singleton]
  count := by
    have hcount := hf.count
    rw [List.length_cons] at hcount
    rw [List.length_append, List.length_singleton]
    omega
  keys j hj := by
    rw [pageOf_dropped]
    exact hf.keys j (List.mem_cons_of_mem _ hj)

/-- The whole walk: the pages lie in the buffer, and their buckets are dropped. -/
theorem gcRead_wp (hdrv : env.NoDriverError) (ht : t < env.nbBlocks)
    (hfull : ∀ key page, P key page → page.length = env.pageSize) :
    ∀ {slots : List ℕ} {r : GcRead} {s : Config}, Orderly env.toGeometry P s → (s.blocks t).list = slots →
      Findable env.toGeometry s slots → fails ∨ ReadFits env s r slots →
      wp (gcRead env t slots.length r slots) (fun r' s' => s' = s.droppedAll env.toGeometry slots ∧ r' =
        ⟨layPages env.pagesPerBlock r.lens.length (slots.map (pageOf env.toGeometry s)) r.buffer,
          r.lens ++ slots.map fun h => lensOn (pageOf env.toGeometry s h)⟩) (fun _ => fails) s
  | [], r, s, hO, _, _, _ => by
    rw [gcRead.eq_def]
    simp only [List.map_nil, List.append_nil]
    exact ⟨rfl, rfl⟩
  | h :: slots, r, s, hO, hl, hF, hfits => by
    have hnd := hO.on.nodup t ht
    rw [hl] at hnd
    obtain ⟨hv, hblk⟩ := (hO.on.memList t ht h).mp (hl ▸ List.mem_cons_self)
    have hhere : ¬ (s.hashtable h).index / env.pagesPerBlock ≠ t := not_not.mpr hblk
    have hhead : slots.head? ≠ some h := fun he =>
      (List.nodup_cons.mp hnd).1 (List.mem_of_mem_head? he)
    have htail : ((s.dropped env.toGeometry h).blocks t).list = slots := by
      rw [dropped_list, hl, List.erase_cons_head]
    rw [List.length_cons, gcRead, wp_bind, wp_get, wp_ite]
    refine ⟨fun hno => absurd hno hhere, fun _ => ?_⟩
    refine (gcReadOne_wp hdrv hO hfull hv (hF h List.mem_cons_self) hfits).bind ?_
    rintro _ _ ⟨rfl, rfl⟩
    simp only [if_neg hhead, List.erase_of_not_mem (List.nodup_cons.mp hnd).1]
    refine (gcRead_wp hdrv ht hfull (hO.dropped hv) htail (hF.tail hnd)
      (hfits.imp_right fun hf => hf.tail)).post ?_
    rintro r' s' ⟨hs', hr'⟩
    refine ⟨hs', ?_⟩
    have hmap : slots.map (pageOf env.toGeometry (s.dropped env.toGeometry h)) =
        slots.map (pageOf env.toGeometry s) := List.map_congr_left fun j _ => pageOf_dropped
    simp only [hmap, pageOf_dropped, List.length_append, List.length_singleton, List.append_assoc] at hr'
    rw [hr']
    rfl

end Walk

/-! ## Slots in use -/

section Slots
variable {g : Geometry} {key : CStr} {index h j p v : ℕ} {slots : List ℕ} {data : List Byte} {t : ℕ → Bucket}

/-- The slots of the valid buckets. -/
def Config.inUse (g : Geometry) (s : Config) : Finset ℕ :=
  ProbeTable.occupied bucketLayout (hashSlots g) s.hashtable

theorem mem_inUse : j ∈ s.inUse g ↔ s.Valid g j := by
  rw [Config.inUse, ProbeTable.occupied, Finset.mem_filter, Finset.mem_range, Config.Valid, ne_eq,
    bucketLayout_key_eq_none]
  cases (s.hashtable j).pState <;> simp

theorem inUse_stored (hE : Entered (hashSlots g) key p s.hashtable h t) :
    ((s.stored g p data t v h).inUse g).card ≤ (s.inUse g).card + 1 := by
  have hsub : (s.stored g p data t v h).inUse g ⊆ insert h (s.inUse g) := fun j hj => by
    rw [Finset.mem_insert, mem_inUse]
    exact (hE.valid.mp (mem_inUse.mp hj)).symm
  exact (Finset.card_le_card hsub).trans (Finset.card_insert_le _ _)

theorem droppedAll_valid : (s.droppedAll g slots).Valid g j ↔ s.Valid g j ∧ j ∉ slots := by
  induction slots generalizing s with
  | nil => simp [Config.droppedAll]
  | cons h slots ih =>
    rw [Config.droppedAll, List.foldl_cons, ← Config.droppedAll, ih, dropped_valid, List.mem_cons, not_or,
      and_assoc]

/-- Dropping distinct valid buckets leaves as many fewer. -/
theorem inUse_droppedAll (hv : ∀ h ∈ slots, s.Valid g h) (hn : slots.Nodup) :
    ((s.droppedAll g slots).inUse g).card + slots.length = (s.inUse g).card := by
  have he : (s.droppedAll g slots).inUse g = s.inUse g \ slots.toFinset := by
    ext j
    rw [mem_inUse, droppedAll_valid, Finset.mem_sdiff, mem_inUse, List.mem_toFinset]
  have hsub : slots.toFinset ⊆ s.inUse g := fun h hh => mem_inUse.mpr (hv h (List.mem_toFinset.mp hh))
  rw [he, ← List.toFinset_card_of_nodup hn]
  exact Finset.card_sdiff_add_card_eq_card hsub

/-- `hash_add` takes a slot if the key has room in a bucket and a slot is free. -/
theorem hashAdd_wp (hfits : fails ∨ key.len < keyRoom ∧ (s.inUse g).card < hashSlots g) :
    wp (hashAdd g key index) (fun o s' => ∃ t, s' = { s with hashtable := t } ∧
      (∀ h, o = some h → Entered (hashSlots g) key index s.hashtable h t) ∧ (o = none → fails))
      (fun _ => fails) s := by
  refine wp_iff.mpr ⟨fun o s' he => ?_, fun f he => ?_⟩
  · obtain ⟨-, t, rfl, hentered⟩ := hashAdd_ok he
    refine ⟨t, rfl, hentered, fun ho => hfits.resolve_right ?_⟩
    rintro ⟨hlen, hcard⟩
    obtain ⟨d, hd⟩ := ProbeTable.insertFrom_isSome (L := bucketLayout) (Bucket.fill key index) (Serial.home key) hcard
    rw [hashAdd, if_neg (not_le.mpr hlen), get_bind_ok, addLoop_eq, hd] at he
    have hsome := (Prod.mk.inj (Except.ok.inj he)).1
    rw [ho] at hsome
    cases hsome
  · refine hfits.resolve_right ?_
    rintro ⟨hlen, -⟩
    obtain ⟨-, o, t, hok, -⟩ : ParallelAdds g key index s := parallelAdds_iff.mpr (Nat.le_of_lt_succ hlen)
    rw [hok] at he
    cases he

end Slots

/-! ## The write loop -/

/-- Pages written to block `v` one behind the other, each entered under its key. -/
inductive Appended (g : Geometry) (v : ℕ) : List (CStr × List Byte) → Config → Config → Prop where
  | nil (s : Config) : Appended g v [] s s
  | cons {key : CStr} {data : List Byte} {recs : List (CStr × List Byte)} {s s' : Config} {h : ℕ}
      {t : ℕ → Bucket}
      (hE : Entered (hashSlots g) key (v * g.pagesPerBlock + (s.blocks v).currentPageOffset) s.hashtable h t)
      (hrest : Appended g v recs
        (s.stored g (v * g.pagesPerBlock + (s.blocks v).currentPageOffset) data t v h) s') :
      Appended g v ((key, data) :: recs) s s'

section Write
variable {v i keyLen valLen : ℕ} {lens : List (ℕ × ℕ)} {buffer : ℕ → Byte}

/-- `write_page` returns where the two locks are free. -/
theorem writePage_wp (hdrv : env.NoDriverError) {p : ℕ} {buf : List Byte} (hp : p / env.pagesPerBlock < env.nbBlocks)
    (hfits : fails ∨ s.locks .oneLock = false ∧ s.locks .listLock = false) :
    wp (writePage env p buf) (fun ret s' => writePage env p buf s = .ok (ret, s')) (fun _ => fails) s := by
  refine wp_iff.mpr ⟨fun _ _ => id, fun f he => hfits.resolve_right ?_⟩
  rintro ⟨hone, hlist⟩
  have hreturns : wp (writePage env p buf) (fun _ _ => True) (fun _ => False) s := by
    rw [writePage, wp_withLock]
    refine ⟨fun hheld => absurd (hheld.symm.trans hone) Bool.true_eq_false.mp, fun _ => ?_⟩
    have hrest : ∀ (ret : ℤ) (s₁ : Config), wp (do
        if isReadOnly env.toGeometry (← get) then
          modify fun s => { s with readOnly := true }
          pure (-1)
        else pure ret : Kernel ℤ) (fun _ _ => True) (fun _ => False) s₁ := by
      intro ret s₁
      rw [wp_bind, wp_get, wp_ite]
      exact ⟨fun _ => trivial, fun _ => trivial⟩
    rw [wp_bind, writeFlash, wp_bind, wp_get, wp_ite]
    refine ⟨fun _ => hrest _ _, fun _ => ?_⟩
    rw [wp_ite]
    refine ⟨fun hfail => absurd (hfail.symm.trans (hdrv.write _ _)) Bool.false_ne_true, fun _ => ?_⟩
    rw [wp_ite]
    refine ⟨fun hno => absurd hp (not_lt.mpr hno), fun _ => ?_⟩
    rw [wp_bind, wp_withLock]
    refine ⟨fun hheld => absurd (hheld.symm.trans ?_) Bool.true_eq_false.mp, fun _ => hrest _ _⟩
    exact hlist
  exact hreturns.of_error he

/-- What the write loop needs to return: locks, a store that is writable, room in the buffer, keys that fit
their buckets, and free slots. -/
structure WriteFits (env : Env) (s : Config) (i : ℕ) (lens : List (ℕ × ℕ)) (buffer : ℕ → Byte) : Prop where
  oneLock : s.locks .oneLock = false
  listLock : s.locks .listLock = false
  readOnly : lens ≠ [] → s.readOnly = false
  notFull : lens ≠ [] → isReadOnly env.toGeometry s = false
  room : lens ≠ [] → (i + lens.length - 1) * env.pagesPerBlock + env.pageSize ≤
    env.pageSize * env.pagesPerBlock
  size : ∀ kl ∈ lens, 8 + kl.1 + kl.2 ≤ env.pageSize
  keys : ∀ kd ∈ writtenBack env.toGeometry i lens buffer, kd.1.len < keyRoom
  slots : (s.inUse env.toGeometry).card + lens.length ≤ hashSlots env.toGeometry

/-- A page that does not fill its block does not make the store read-only. -/
theorem isReadOnly_program {g : Geometry} {p : ℕ} {buf : List Byte}
    (hp : (s.blocks (p / g.pagesPerBlock)).currentPageOffset + 1 < g.pagesPerBlock) :
    isReadOnly g (programPage g p buf s) = isReadOnly g s :=
  isReadOnly_congr fun c _ => by
    rw [programPage_offset]
    split
    · next hc =>
      rw [hc]
      omega
    · rfl

/-- One round of the write loop. -/
theorem gcWriteOne_wp (hdrv : env.NoDriverError) (hv : v < env.nbBlocks)
    (hlt : (s.blocks v).currentPageOffset + 1 < env.pagesPerBlock)
    (hfits : fails ∨ WriteFits env s i ((keyLen, valLen) :: lens) buffer) :
    wp (gcWriteOne env v i keyLen valLen buffer) (fun buf s' =>
      buf = rewriteBuffer (i * env.pagesPerBlock) keyLen valLen buffer ∧ s'.readOnly = false ∧
        ∃ h t, Entered (hashSlots env.toGeometry)
          (.ofBytes (cut buf (i * env.pagesPerBlock + 8) keyLen))
          (v * env.pagesPerBlock + (s.blocks v).currentPageOffset) s.hashtable h t ∧
        s' = s.stored env.toGeometry (v * env.pagesPerBlock + (s.blocks v).currentPageOffset)
          (cut buf (i * env.pagesPerBlock) env.pageSize) t v h) (fun _ => fails) s := by
  have hdiv : (v * env.pagesPerBlock + (s.blocks v).currentPageOffset) / env.pagesPerBlock = v :=
    Geometry.page_div (by omega)
  have hbuf : Serial.strncpySelf (Serial.strncpySelf (blit (blit buffer (i * env.pagesPerBlock) (le32 keyLen))
      (i * env.pagesPerBlock + 4) (le32 valLen)) (i * env.pagesPerBlock + 8) keyLen)
      (i * env.pagesPerBlock + 8 + keyLen) valLen =
        rewriteBuffer (i * env.pagesPerBlock) keyLen valLen buffer := rfl
  have hkey : fails ∨ (CStr.ofBytes (cut (rewriteBuffer (i * env.pagesPerBlock) keyLen valLen buffer)
      (i * env.pagesPerBlock + 8) keyLen)).len < keyRoom :=
    hfits.imp_right fun hf => hf.keys _ List.mem_cons_self
  rw [gcWriteOne]
  simp only [hbuf]
  generalize rewriteBuffer (i * env.pagesPerBlock) keyLen valLen buffer = buf at hkey
  rw [wp_ite]
  refine ⟨fun hbig => hfits.resolve_right fun hf => ?_, fun _ => ?_⟩
  · have hroom := hf.room (List.cons_ne_nil _ _)
    have hsize := hf.size (keyLen, valLen) List.mem_cons_self
    rw [List.length_cons] at hroom
    have hpos : i * env.pagesPerBlock ≤ (i + (lens.length + 1) - 1) * env.pagesPerBlock :=
      Nat.mul_le_mul_right _ (by omega)
    simp only at hsize
    omega
  rw [wp_bind, wp_get]
  refine (writePage_wp hdrv (by rwa [hdiv]) (hfits.imp_right fun hf => ⟨hf.oneLock, hf.listLock⟩)).bind ?_
  intro ret s₁ he₁
  have hlocks := (writePage_keeps _ _).locks_eq he₁
  rw [wp_bind, wp_withLock]
  refine ⟨fun hheld => hfits.resolve_right fun hf => ?_, fun hfree => ?_⟩
  · rw [hlocks, hf.listLock] at hheld
    cases hheld
  have htable : s₁.hashtable = s.hashtable := by
    have := (writePage_table _ _).eq he₁
    exact congrArg Prod.fst this
  have hinuse : s₁.inUse env.toGeometry = s.inUse env.toGeometry := by
    rw [Config.inUse, Config.inUse, htable]
  rw [gcEnter]
  have hadd : fails ∨ (CStr.ofBytes (cut buf (i * env.pagesPerBlock + 8) keyLen)).len < keyRoom ∧
      ((s₁.lock .listLock true).inUse env.toGeometry).card < hashSlots env.toGeometry := by
    by_cases hfails : fails
    · exact .inl hfails
    · have hslots := (hfits.resolve_left hfails).slots
      have hcard : ((s₁.lock .listLock true).inUse env.toGeometry).card = (s.inUse env.toGeometry).card :=
        congrArg Finset.card hinuse
      rw [List.length_cons] at hslots
      exact .inr ⟨hkey.resolve_left hfails, by omega⟩
  refine (hashAdd_wp (s := s₁.lock .listLock true) hadd).bind ?_
  rintro (_ | h) _ ⟨t, rfl, hE, hnone⟩
  · exact hnone rfl
  simp only
  rw [wp_ite]
  refine ⟨fun hneg => hfits.resolve_right fun hf => ?_, fun hpos => ?_⟩
  · obtain ⟨hro, -⟩ | ⟨-, -, -, hret, -⟩ := writePage_ok he₁
    · exact Bool.false_ne_true ((hf.readOnly (List.cons_ne_nil _ _)).symm.trans hro)
    · rw [isReadOnly_program (by rwa [hdiv]), hf.notFull (List.cons_ne_nil _ _), if_neg Bool.false_ne_true] at hret
      omega
  · rw [wp_modify, wp_pure]
    obtain ⟨-, hret, -⟩ | ⟨-, -, -, hret, rfl⟩ := writePage_ok he₁
    · omega
    · have hfull : isReadOnly env.toGeometry (programPage env.toGeometry
          (v * env.pagesPerBlock + (s.blocks v).currentPageOffset)
          (cut buf (i * env.pagesPerBlock) env.pageSize) s) = false := by
        by_contra hyes
        rw [if_pos (eq_true_of_ne_false hyes)] at hret
        omega
      exact ⟨rfl, hfull, h, t, hE h rfl, lock_back (s := s.stored env.toGeometry
        (v * env.pagesPerBlock + (s.blocks v).currentPageOffset)
        (cut buf (i * env.pagesPerBlock) env.pageSize) t v h) hfree⟩

theorem WriteFits.tail {p h : ℕ} {key : CStr} {data : List Byte} {t : ℕ → Bucket}
    (hf : WriteFits env s i ((keyLen, valLen) :: lens) buffer)
    (hlt : (s.blocks (p / env.pagesPerBlock)).currentPageOffset + 1 < env.pagesPerBlock)
    (hE : Entered (hashSlots env.toGeometry) key p s.hashtable h t)
    (hro : (s.stored env.toGeometry p data t v h).readOnly = false) :
    WriteFits env (s.stored env.toGeometry p data t v h) (i + 1) lens
      (rewriteBuffer (i * env.pagesPerBlock) keyLen valLen buffer) where
  oneLock := hf.oneLock
  listLock := hf.listLock
  readOnly _ := hro
  notFull _ := by
    rw [← hf.notFull (List.cons_ne_nil _ _)]
    refine isReadOnly_congr fun c _ => ?_
    rw [stored_offset]
    split
    · next hc =>
      rw [hc]
      omega
    · rfl
  room hne := by
    have hroom := hf.room (List.cons_ne_nil _ _)
    rwa [List.length_cons, ← Nat.add_assoc, Nat.add_right_comm] at hroom
  size kl hkl := hf.size kl (List.mem_cons_of_mem _ hkl)
  keys kd hkd := hf.keys kd (List.mem_cons_of_mem _ hkd)
  slots := by
    have hslots := hf.slots
    have hcard : ((s.stored env.toGeometry p data t v h).inUse env.toGeometry).card ≤
        (s.inUse env.toGeometry).card + 1 := inUse_stored hE
    rw [List.length_cons] at hslots
    omega

/-- The write loop appends the pages that are in the buffer. -/
theorem gcWrite_wp (hdrv : env.NoDriverError) (hv : v < env.nbBlocks) :
    ∀ {lens : List (ℕ × ℕ)} {i : ℕ} {buffer : ℕ → Byte} {s : Config},
      (s.blocks v).currentPageOffset + lens.length < env.pagesPerBlock →
      fails ∨ WriteFits env s i lens buffer →
      wp (gcWrite env v i lens buffer) (fun _ s' =>
        Appended env.toGeometry v (writtenBack env.toGeometry i lens buffer) s s') (fun _ => fails) s
  | [], _, _, s, _, _ => Appended.nil s
  | (keyLen, valLen) :: lens, i, buffer, s, hlt, hfits => by
    rw [List.length_cons] at hlt
    refine (gcWriteOne_wp hdrv hv (by omega) hfits).bind ?_
    rintro _ _ ⟨rfl, hro, h, t, hE, rfl⟩
    have hdiv : (v * env.pagesPerBlock + (s.blocks v).currentPageOffset) / env.pagesPerBlock = v :=
      Geometry.page_div (by omega)
    refine (gcWrite_wp hdrv hv ?_ (hfits.imp_right fun hf => hf.tail ?_ hE hro)).post fun _ _ hrest =>
      .cons hE hrest
    · rw [stored_offset, hdiv, if_pos rfl]
      omega
    · rw [hdiv]
      omega

end Write

/-! ## What has been appended -/

section Appended
variable {g : Geometry} {v : ℕ} {recs : List (CStr × List Byte)}

/-- Pages appended to a data block behind its header keep the ledger. -/
theorem Appended.orderly (hA : Appended g v recs s s') (hv : v < g.nbBlocks) : s.Unlisted v →
    0 < (s.blocks v).currentPageOffset → (s.blocks v).currentPageOffset + recs.length ≤ g.pagesPerBlock →
    (∀ kd ∈ recs, P kd.1 kd.2 ∧ kd.2.length ≤ g.pageSize) → Orderly g P s → Orderly g P s' := by
  induction hA with
  | nil s => exact fun _ _ _ _ hO => hO
  | @cons key data recs s s' h t hE hrest ih =>
    intro hun hpos hle hrecs hO
    rw [List.length_cons] at hle
    obtain ⟨⟨hP, hlen⟩, htail⟩ := List.forall_mem_cons.mp hrecs
    have hdiv : (v * g.pagesPerBlock + (s.blocks v).currentPageOffset) / g.pagesPerBlock = v :=
      Geometry.page_div (by omega)
    have hofs : ((s.stored g (v * g.pagesPerBlock + (s.blocks v).currentPageOffset) data t v h).blocks
        v).currentPageOffset = (s.blocks v).currentPageOffset + 1 := by
      rw [stored_offset, hdiv, if_pos rfl]
    refine ih hun (by omega) (by omega) htail ⟨?_, hO.ranks⟩
    exact hO.on.stored hv hun hpos (by omega) rfl hlen hP hE

end Appended

/-! ## The collection -/

section Collect
variable {g : Geometry} {t v b : ℕ}

/-- The block is erased, where the list lock is free. -/
theorem formatSingle_wp (hdrv : env.NoDriverError) (hfits : fails ∨ s.locks .listLock = false) :
    wp (formatSingle env b) (fun _ s' => s' = s.wiped env.toGeometry b) (fun _ => fails) s := by
  refine wp_iff.mpr ⟨fun ret s' he => ?_, fun f he => hfits.resolve_right fun hfree => ?_⟩
  · obtain ⟨-, -, rfl⟩ | ⟨hfail, -⟩ := formatSingle_ok he
    · rfl
    · exact absurd (hdrv.erase _ _ _) hfail
  · have hreturns : wp (formatSingle env b) (fun _ _ => True) (fun _ => False) s := by
      rw [formatSingle, wp_bind, wp_get, hdrv.erase]
      simp only
      rw [wp_bind, wp_modify, wp_bind, wp_withLock]
      exact ⟨fun hheld => absurd (hheld.symm.trans hfree) Bool.true_eq_false.mp, fun _ => trivial⟩
    exact hreturns.of_error he

/-- The configuration in which block `b` has a header. -/
def Config.headed (g : Geometry) (s : Config) (b : ℕ) : Config :=
  { programPage g (b * g.pagesPerBlock) (hdrPage g .nandData) s with
    readOnly := isReadOnly g (programPage g (b * g.pagesPerBlock) (hdrPage g .nandData) s) }.setState b
      .blkUsed

/-- A block without pages in use gets its header. -/
def Config.opened (g : Geometry) (s : Config) (b : ℕ) : Config :=
  if (s.blocks b).currentPageOffset = 0 then s.headed g b else s

theorem gcHeader_wp (hdrv : env.NoDriverError) (hb : b < env.nbBlocks)
    (hlt : (s.blocks b).currentPageOffset < env.pagesPerBlock) (hro : s.readOnly = false)
    (hmro : s.metaReadOnly = false)
    (hfits : fails ∨ s.locks .oneLock = false ∧ s.locks .listLock = false) :
    wp (gcHeader env (b * env.pagesPerBlock + (s.blocks b).currentPageOffset))
      (fun _ s' => s' = s.opened env.toGeometry b) (fun _ => fails) s := by
  rw [gcHeader, wp_ite, Geometry.page_mod hlt, Config.opened]
  refine ⟨fun h0 => ?_, fun h0 => (if_neg h0).symm⟩
  have hdiv : b * env.pagesPerBlock / env.pagesPerBlock = b := Nat.mul_div_cancel _ env.pagesPerBlock_pos
  rw [if_pos h0, h0, Nat.add_zero, wp_bind, writeHdr, wp_bind, wp_get, wp_ite]
  refine ⟨fun hm => absurd (hm.symm.trans hmro) Bool.true_eq_false.mp, fun _ => ?_⟩
  rw [wp_ite]
  refine ⟨fun hno => absurd hno (Nat.not_lt_zero _), fun _ => ?_⟩
  refine (writePage_wp hdrv (by rwa [hdiv]) hfits).bind fun ret s₁ he => ?_
  rw [wp_bind, wp_modify, wp_pure, wp_pure]
  obtain ⟨hyes, -⟩ | ⟨-, -, -, -, rfl⟩ := writePage_ok he
  · exact absurd (hyes.symm.trans hro) Bool.true_eq_false.mp
  · rw [hdiv]
    rfl

/-- The keys and pages that a collection of block `t` moves. -/
def gcRecs (g : Geometry) (s : Config) (t : ℕ) : List (CStr × List Byte) :=
  writtenBack g 0 ((s.blocks t).list.map fun h => lensOn (pageOf g s h))
    (layPages g.pagesPerBlock 0 ((s.blocks t).list.map (pageOf g s)) fun _ => 0)

/-- The configuration once the target `t` has been erased and its destination `v` has a header. -/
def Config.emptied (g : Geometry) (s : Config) (t v : ℕ) : Config :=
  (((s.setState v .blkUsed).droppedAll g (s.blocks t).list).wiped g t).opened g v

theorem droppedAll_view {β : Type} {f : Config → β} (hview : ∀ s h, f (s.dropped g h) = f s)
    (slots : List ℕ) (s : Config) : f (s.droppedAll g slots) = f s := by
  induction slots generalizing s with
  | nil => rfl
  | cons h slots ih => exact (ih _).trans (hview s h)

theorem droppedAll_offset (slots : List ℕ) : ((s.droppedAll g slots).blocks b).currentPageOffset =
    (s.blocks b).currentPageOffset :=
  droppedAll_view (f := fun s => (s.blocks b).currentPageOffset) (fun _ _ => dropped_offset) slots s

theorem droppedAll_index {h : ℕ} (slots : List ℕ) : ((s.droppedAll g slots).hashtable h).index =
    (s.hashtable h).index :=
  droppedAll_view (f := fun s => (s.hashtable h).index) (fun _ _ => dropped_index) slots s

theorem Orderly.droppedAll {slots : List ℕ} (hO : Orderly g P s) (hv : ∀ h ∈ slots, s.Valid g h)
    (hn : slots.Nodup) : Orderly g P (s.droppedAll g slots) := by
  induction slots generalizing s with
  | nil => exact hO
  | cons h slots ih =>
    obtain ⟨hhead, htail⟩ := List.forall_mem_cons.mp hv
    obtain ⟨hnot, hn⟩ := List.nodup_cons.mp hn
    refine ih (hO.dropped hhead) (fun j hj => dropped_valid.mpr ⟨htail j hj, ?_⟩) hn
    rintro rfl
    exact hnot hj

/-- A block whose list has been dropped is erased. -/
theorem Orderly.reset (hO : Orderly g P s) (ht : t < g.nbBlocks) :
    Orderly g P ((s.droppedAll g (s.blocks t).list).wiped g t) := by
  have hlist : ∀ h ∈ (s.blocks t).list, s.Valid g h := fun h hh => ((hO.on.memList t ht h).mp hh).1
  have hO₁ := hO.droppedAll hlist (hO.on.nodup t ht)
  have hord : (s.droppedAll g (s.blocks t).list).metaBlkordr = s.metaBlkordr :=
    droppedAll_view (f := Config.metaBlkordr) (fun _ _ => rfl) _ s
  have hgone : ∀ h, (s.droppedAll g (s.blocks t).list).Valid g h →
      (s.droppedAll g (s.blocks t).list).blkOf g h ≠ t := by
    intro h hv hblk
    obtain ⟨hv₀, hnot⟩ := droppedAll_valid.mp hv
    rw [Config.blkOf, droppedAll_index] at hblk
    exact hnot ((hO.on.memList t ht h).mpr ⟨hv₀, hblk⟩)
  exact ⟨(hO₁.on.wiped hgone).mono (fun b hb => .inl hb) hO₁.on.data, hO₁.ranks⟩

theorem headed_offset : ((s.headed g b).blocks b).currentPageOffset =
    (s.blocks b).currentPageOffset + 1 := by
  have hprog := @programPage_offset g s b (b * g.pagesPerBlock) (hdrPage g .nandData)
  rw [Nat.mul_div_cancel _ g.pagesPerBlock_pos, if_pos rfl] at hprog
  rw [Config.headed, Config.setState, Config.modifyBlk_self]
  exact hprog

theorem Orderly.opened (hO : Orderly g P s) : Orderly g P (s.opened g b) := by
  rw [Config.opened]
  split
  · next h0 =>
    refine Orderly.setState ?_ _ _
    have hO₁ : Orderly g P (programPage g (b * g.pagesPerBlock) (hdrPage g .nandData) s) :=
      ⟨hO.on.header h0, hO.ranks⟩
    exact hO₁.congr (.of_blocks rfl rfl rfl) rfl
  · exact hO

theorem opened_offset_pos : 0 < ((s.opened g b).blocks b).currentPageOffset := by
  rw [Config.opened]
  split
  · rw [headed_offset]
    exact Nat.succ_pos _
  · next h0 => exact Nat.pos_of_ne_zero h0

theorem opened_offset_le : ((s.opened g b).blocks b).currentPageOffset ≤
    max (s.blocks b).currentPageOffset 1 := by
  rw [Config.opened]
  split
  · next h0 =>
    rw [headed_offset, h0]
    exact le_max_right _ _
  · exact le_max_left _ _

/-- What a collection of block `t` needs to return: locks, room in the buffer, records no longer than their
pages, keys that fit their buckets, and a store that is writable once the block is erased. -/
structure GcFits (env : Env) (s : Config) (t : ℕ) : Prop where
  oneLock : s.locks .oneLock = false
  listLock : s.locks .listLock = false
  room : (s.blocks t).list ≠ [] → ((s.blocks t).list.length - 1) * env.pagesPerBlock + env.pageSize ≤
    env.pageSize * env.pagesPerBlock
  size : ∀ h ∈ (s.blocks t).list, 8 + (lensOn (pageOf env.toGeometry s h)).1 +
    (lensOn (pageOf env.toGeometry s h)).2 ≤ env.pageSize
  keys : ∀ kd ∈ gcRecs env.toGeometry s t, kd.1.len < keyRoom
  writable : (s.blocks t).list ≠ [] → isReadOnly env.toGeometry (s.wiped env.toGeometry t) = false

theorem droppedAll_lock (l : Lock) (held : Bool) (slots : List ℕ) (s : Config) :
    (s.lock l held).droppedAll g slots = (s.droppedAll g slots).lock l held := by
  induction slots generalizing s with
  | nil => rfl
  | cons h slots ih => exact ih (s.dropped g h)

theorem Appended.locks {recs : List (CStr × List Byte)} (hA : Appended g v recs s s') :
    s'.locks = s.locks := by
  induction hA with
  | nil s => rfl
  | cons hE hrest ih => exact ih

/-- The erased target and the destination behind its header, in the terms of the state before. -/
structure Emptied (g : Geometry) (s : Config) (t v : ℕ) (e : Config) : Prop where
  locks : e.locks = s.locks
  pos : 0 < (e.blocks v).currentPageOffset
  le : (e.blocks v).currentPageOffset ≤ max ((s.wiped g t).blocks v).currentPageOffset 1
  readOnly : isReadOnly g (s.wiped g t) = false → e.readOnly = false ∧ isReadOnly g e = false
  order : e.metaBlkordr = s.metaBlkordr

theorem reset_offset (slots : List ℕ) : ((((s.setState v .blkUsed).droppedAll g slots).wiped g t).blocks
    b).currentPageOffset = ((s.wiped g t).blocks b).currentPageOffset := by
  by_cases hb : b = t
  · rw [hb, wiped_self, wiped_self]
    rfl
  · rw [wiped_ne hb, wiped_ne hb, droppedAll_offset]
    exact (SameLedger.setState s v .blkUsed).offset b

theorem emptied_spec (g : Geometry) (s : Config) (t v : ℕ) : Emptied g s t v (s.emptied g t v) := by
  have hview : ∀ {β : Type} {f : Config → β}, (∀ s b st, f (s.setState b st) = f s) →
      (∀ s h, f (s.dropped g h) = f s) → (∀ s, f (s.wiped g t) = f s) →
      (∀ s, f (s.headed g v) = f s) → f (s.emptied g t v) = f s := by
    intro β f hset hdrop hwipe hhead
    have hopen : ∀ s : Config, f (s.opened g v) = f s := by
      intro s
      rw [Config.opened]
      split
      · exact hhead s
      · rfl
    rw [Config.emptied, hopen, hwipe, droppedAll_view hdrop, hset]
  have hfull : isReadOnly g (((s.setState v .blkUsed).droppedAll g (s.blocks t).list).wiped g t) =
      isReadOnly g (s.wiped g t) := isReadOnly_congr fun b _ => by rw [reset_offset]
  refine ⟨hview (fun _ _ _ => rfl) (fun _ _ => rfl) (fun _ => rfl) fun _ => rfl, opened_offset_pos, ?_, ?_,
    hview (f := Config.metaBlkordr) (fun _ _ _ => rfl) (fun _ _ => rfl) (fun _ => rfl) fun _ => rfl⟩
  · rw [← reset_offset (s.blocks t).list]
    exact opened_offset_le
  · intro hwritable
    rw [← hfull] at hwritable
    rw [Config.emptied, Config.opened]
    split
    · next h0 =>
      have hhdr := @isReadOnly_header _ g _ (hdrPage g .nandData) h0
      rw [hwritable] at hhdr
      refine ⟨hhdr, ?_⟩
      rw [← hhdr]
      exact isReadOnly_congr fun b _ => by
        rw [Config.headed, (SameLedger.setState _ v .blkUsed).offset]
    · exact ⟨rfl, hwritable⟩

/-- A collection of block `t` whose pages fit their destination. -/
theorem gcBlock_wp (hdrv : env.NoDriverError) (hO : Orderly env.toGeometry P s)
    (hfull : ∀ key page, P key page → page.length = env.pageSize) (ht : t < env.nbBlocks)
    (hv : gcVictim env.toGeometry s t = v) (hvlt : v < env.nbBlocks)
    (hfit : max ((s.wiped env.toGeometry t).blocks v).currentPageOffset 1 + (s.blocks t).list.length <
      env.pagesPerBlock)
    (hF : Findable env.toGeometry s (s.blocks t).list) (hfits : fails ∨ GcFits env s t) :
    wp (gcBlock env t) (fun _ s' => ∃ s₁, Appended env.toGeometry v (gcRecs env.toGeometry s t)
      (s.emptied env.toGeometry t v) s₁ ∧ s' = s₁.setState v .blkUsed) (fun _ => fails) s := by
  have hslots : ∀ h ∈ (s.blocks t).list, s.Valid env.toGeometry h := fun h hh =>
    ((hO.on.memList t ht h).mp hh).1
  have hE := emptied_spec env.toGeometry s t v
  rw [gcBlock, wp_bind, wp_get, hv]
  simp only
  rw [wp_bind, wp_modify, wp_bind, wp_withLock]
  refine ⟨fun hheld => hfits.resolve_right fun hf => ?_, fun hfree => ?_⟩
  · exact Bool.false_ne_true (hf.listLock.symm.trans hheld)
  have hfree₀ : s.locks .listLock = false := hfree
  have hlist : (((s.setState v .blkUsed).lock .listLock true).blocks t).list = (s.blocks t).list :=
    (SameLedger.setState s v .blkUsed).list t
  have hO₁ : Orderly env.toGeometry P ((s.setState v .blkUsed).lock .listLock true) :=
    (hO.setState v .blkUsed).lock .listLock true
  rw [wp_bind, wp_get, hlist]
  refine (gcRead_wp hdrv ht hfull hO₁ hlist hF (hfits.imp_right fun hf => ⟨hf.oneLock, ?_, ?_, ?_⟩)).post ?_
  · rw [List.length_nil, Nat.zero_add]
    exact hf.room
  · rw [List.length_nil, Nat.zero_add]
    omega
  · exact fun h hh => (Nat.le_add_right _ _).trans (hf.size h hh)
  rintro _ _ ⟨rfl, rfl⟩
  have hfree₁ : ((s.setState v .blkUsed).droppedAll env.toGeometry (s.blocks t).list).locks .listLock =
      false := by
    rw [droppedAll_view (f := Config.locks) (fun _ _ => rfl)]
    exact hfree₀
  rw [droppedAll_lock, lock_back hfree₁, wp_bind]
  refine (formatSingle_wp hdrv (.inr hfree₁)).post ?_
  rintro _ _ rfl
  rw [wp_bind, wp_get]
  have hofs := reset_offset (g := env.toGeometry) (s := s) (t := t) (v := v) (b := v) (s.blocks t).list
  have hlocks : (((s.setState v .blkUsed).droppedAll env.toGeometry (s.blocks t).list).wiped
      env.toGeometry t).locks = s.locks := droppedAll_view (f := Config.locks) (fun _ _ => rfl) _ _
  refine (gcHeader_wp hdrv hvlt (by omega) rfl rfl (hfits.imp_right fun hf => ?_)).bind ?_
  · rw [hlocks]
    exact ⟨hf.oneLock, hf.listLock⟩
  rintro _ _ rfl
  have hle := hE.le
  refine (gcWrite_wp (s := s.emptied env.toGeometry t v) hdrv hvlt ?_ (hfits.imp_right fun hf => ?_)).bind ?_
  · rw [List.length_append, List.length_nil, List.length_map]
    omega
  · refine ⟨?_, ?_, fun hne => ?_, fun hne => ?_, fun hne => ?_, ?_, hf.keys, ?_⟩
    · rw [hE.locks]
      exact hf.oneLock
    · rw [hE.locks]
      exact hf.listLock
    · exact (hE.readOnly (hf.writable fun hnil => hne (by rw [hnil]; rfl))).1
    · exact (hE.readOnly (hf.writable fun hnil => hne (by rw [hnil]; rfl))).2
    · rw [Nat.zero_add, List.length_append, List.length_nil, Nat.zero_add, List.length_map]
      exact hf.room fun hnil => hne (by rw [hnil]; rfl)
    · intro kl hkl
      obtain ⟨h, hh, rfl⟩ := List.mem_map.mp hkl
      exact hf.size h hh
    · have hcard := inUse_droppedAll (g := env.toGeometry) (s := s.setState v .blkUsed) hslots
        (hO.on.nodup t ht)
      have hmost : ((s.setState v .blkUsed).inUse env.toGeometry).card ≤ hashSlots env.toGeometry := by
        have := Finset.card_filter_le (Finset.range (hashSlots env.toGeometry))
          fun i => bucketLayout.key ((s.setState v .blkUsed).hashtable i) ≠ none
        rwa [Finset.card_range] at this
      have hsame : (s.emptied env.toGeometry t v).inUse env.toGeometry =
          ((s.setState v .blkUsed).droppedAll env.toGeometry (s.blocks t).list).inUse env.toGeometry := by
        rw [Config.emptied, Config.opened]
        split <;> rfl
      rw [hsame, List.length_append, List.length_nil, Nat.zero_add, List.length_map]
      omega
  · intro _ s₁ hA
    rw [wp_withLock]
    refine ⟨fun hheld => ?_, fun hfree => ?_⟩
    · rw [hA.locks, hE.locks, hfree₀] at hheld
      cases hheld
    · rw [wp_modify]
      exact ⟨s₁, hA, lock_back (s := s₁.setState v .blkUsed) hfree⟩

/-! ## The destination -/

/-- The condition on the destination: another data block has more pages left than are to be moved, or no
listed block is erased and marked free. -/
def DestOk (g : Geometry) (s : Config) (t : ℕ) : Prop :=
  (∃ b < g.nbBlocks, b ≠ t ∧ inOrder s.metaBlkordr (nbProbed g) b = false ∧
    targetValidCnt s t < (g.pagesPerBlock : ℤ) - (s.blocks b).currentPageOffset) ∨
  ∀ b < g.nbBlocks, inOrder s.metaBlkordr (nbProbed g) b = true →
    ¬ ((s.blocks b).currentPageOffset = 0 ∧ (s.blocks b).state = .blkFree)

/-- The target has as many pages to be moved as buckets on its list, and they leave pages in a block. -/
theorem Orderly.target (hO : Orderly g P s) (ht : gcTarget g s = some t) : t < g.nbBlocks ∧ s.Unlisted t ∧
    targetValidCnt s t = (s.blocks t).list.length ∧
      (s.blocks t).list.length + invalidThreshold + 1 ≤ g.pagesPerBlock ∧
        0 < (s.blocks t).currentPageOffset := by
  obtain ⟨hlt, hord, hinv⟩ := gcTarget_some ht
  have hun := hO.unlisted hord
  obtain ⟨hle, -, ⟨-, h0, -⟩ | hcounts⟩ := hO.on.block t hlt hun
  · rw [h0] at hinv
    exact absurd hinv (by decide)
  · refine ⟨hlt, hun, ?_, by omega, by omega⟩
    rw [targetValidCnt]
    omega

/-- Where the condition holds, the pages are moved to a data block in which they leave a page. -/
theorem gcVictim_data (hO : Orderly g P s) (ht : gcTarget g s = some t) (hd : DestOk g s t) :
    gcVictim g s t < g.nbBlocks ∧ s.Unlisted (gcVictim g s t) ∧
      max ((s.wiped g t).blocks (gcVictim g s t)).currentPageOffset 1 + (s.blocks t).list.length <
        g.pagesPerBlock := by
  obtain ⟨htlt, htun, hvalid, hfew, hpos⟩ := hO.target ht
  rw [invalidThreshold] at hfew
  rw [gcVictim]
  cases hm : gcMerge g s t with
  | some b =>
    obtain ⟨hmem, -⟩ := leastWornOf_some hm
    obtain ⟨hb, hp⟩ := List.mem_filter.mp hmem
    rw [decide_eq_true_iff, hvalid] at hp
    obtain ⟨hne, hord, hroom⟩ := hp
    refine ⟨List.mem_range.mp hb, hO.unlisted hord, ?_⟩
    rw [wiped_ne hne]
    omega
  | none =>
    have hnone := leastWornOf_none hm
    have hno : ∀ b < g.nbBlocks, b ≠ t → inOrder s.metaBlkordr (nbProbed g) b = false →
        ¬ targetValidCnt s t < (g.pagesPerBlock : ℤ) - (s.blocks b).currentPageOffset := by
      intro b hb hne hord hroom
      have hmem : b ∈ (List.range g.nbBlocks).filter fun i => i ≠ t ∧
          inOrder s.metaBlkordr (nbProbed g) i = false ∧
            targetValidCnt s t < (g.pagesPerBlock : ℤ) - (s.blocks i).currentPageOffset :=
        List.mem_filter.mpr ⟨List.mem_range.mpr hb, decide_eq_true ⟨hne, hord, hroom⟩⟩
      rw [hnone] at hmem
      cases hmem
    cases hf : gcFree g s with
    | some b =>
      -- an erased block that is not listed would have been found before
      obtain ⟨hmem, -⟩ := leastWornOf_some hf
      obtain ⟨hb, hp⟩ := List.mem_filter.mp hmem
      rw [decide_eq_true_iff] at hp
      have hb := List.mem_range.mp hb
      exfalso
      cases hord : inOrder s.metaBlkordr (nbProbed g) b with
      | false =>
        refine hno b hb ?_ hord ?_
        · rintro rfl
          omega
        · rw [hvalid, hp.1]
          omega
      | true =>
        obtain ⟨c, hc, hne, hcord, hroom⟩ | hnot := hd
        · exact hno c hc hne hcord hroom
        · exact hnot b hb hord hp
    | none =>
      refine ⟨htlt, htun, ?_⟩
      rw [Option.getD_none, wiped_self]
      simp only [BlkInfo.erased]
      omega

/-! ## `gc` -/

/-- `gc` gets to a target block. -/
structure Collects (env : Env) (s : Config) (t : ℕ) : Prop where
  pages : 64 ≤ env.pagesPerBlock
  flag : s.isGb = true
  lock : s.locks .eraseLock = false
  target : gcTarget env.toGeometry s = some t

/-- The configuration in which `gc` has set its flag and taken its lock. -/
def Config.gcStart (s : Config) : Config := ({ s with isGb := true } : Config).lock .eraseLock true

/-- A collection: of block `t`, to the block that is chosen for it. -/
def CollectedTo (g : Geometry) (s : Config) (t : ℕ) (s' : Config) : Prop :=
  ∃ s₁, Appended g (gcVictim g s t) (gcRecs g s t) (s.gcStart.emptied g t (gcVictim g s t)) s₁ ∧
    s'.ledger = (s₁.setState (gcVictim g s t) .blkUsed).ledger

/-- `gc` changes nothing in the ledger or collects its target. -/
theorem gc_wp (hdrv : env.NoDriverError) (hO : Orderly env.toGeometry P s)
    (hfull : ∀ key page, P key page → page.length = env.pageSize)
    (hprobed : fails ∨ nbProbed env.toGeometry ≤ maxMetaBlk)
    (hok : ∀ t, Collects env s t → DestOk env.toGeometry s t ∧
      Findable env.toGeometry s (s.blocks t).list ∧ (fails ∨ GcFits env s t)) :
    wp (gc env) (fun _ s' => (∀ t, ¬ Collects env s t) ∧ s'.ledger = s.ledger ∨
      ∃ t, Collects env s t ∧ CollectedTo env.toGeometry s t s') (fun _ => fails) s := by
  rw [gc, wp_ite]
  refine ⟨fun hfew => .inl ⟨fun t hC => absurd hC.pages (not_le.mpr hfew), rfl⟩, fun hmany => ?_⟩
  rw [wp_bind, wp_get, wp_bind, wp_modify, wp_ite]
  refine ⟨fun hclear => .inl ⟨fun t hC => Bool.false_ne_true (hclear.symm.trans hC.flag), rfl⟩,
    fun hset => ?_⟩
  rw [wp_bind, wp_spinTrylock]
  refine ⟨fun hheld => .inl ⟨fun t hC => Bool.false_ne_true (hC.lock.symm.trans hheld), rfl⟩,
    fun hfree => ?_⟩
  rw [if_pos rfl, wp_bind, gcLocked, wp_bind, checkOrder, wp_ite]
  refine ⟨fun hbig => hprobed.resolve_right (not_le.mpr hbig), fun _ => ?_⟩
  rw [wp_pure, wp_bind, wp_get]
  have htarget : gcTarget env.toGeometry (({ s with isGb := true } : Config).lock .eraseLock true) =
      gcTarget env.toGeometry s := rfl
  rw [htarget]
  cases ht : gcTarget env.toGeometry s with
  | none =>
    refine .inl ⟨fun t hC => ?_, rfl⟩
    rw [hC.target] at ht
    cases ht
  | some t =>
    have hC : Collects env s t := ⟨not_lt.mp hmany, eq_true_of_ne_false hset, hfree, ht⟩
    obtain ⟨hd, hF, hfits⟩ := hok t hC
    obtain ⟨hvlt, -, hfit⟩ := gcVictim_data hO ht hd
    obtain ⟨htlt, -⟩ := hO.target ht
    have hO₁ : Orderly env.toGeometry P s.gcStart := hO.of_ledger rfl
    have hfits₁ : fails ∨ GcFits env s.gcStart t := hfits.imp_right fun hf =>
      ⟨hf.oneLock, hf.listLock, hf.room, hf.size, hf.keys, hf.writable⟩
    have hblock := gcBlock_wp (s := s.gcStart) hdrv hO₁ hfull htlt rfl hvlt hfit hF hfits₁
    refine hblock.post ?_
    rintro _ s' ⟨s₁, hA, rfl⟩
    exact .inr ⟨t, hC, s₁, hA, rfl⟩

/-- The pages in the buffer are full pages. -/
theorem writtenBack_page_length {i : ℕ} {lens : List (ℕ × ℕ)} {buffer : ℕ → Byte} :
    ∀ kd ∈ writtenBack g i lens buffer, kd.2.length = g.pageSize := by
  induction lens generalizing i buffer with
  | nil => exact fun kd hkd => absurd hkd List.not_mem_nil
  | cons kl lens ih =>
    intro kd hkd
    rw [writtenBack] at hkd
    obtain rfl | hkd := List.mem_cons.mp hkd
    · exact Serial.cut_length _ _ _
    · exact ih kd hkd

theorem gcRecs_length : (gcRecs g s t).length = (s.blocks t).list.length := by
  have hlen : ∀ {lens : List (ℕ × ℕ)} {i : ℕ} {buffer : ℕ → Byte},
      (writtenBack g i lens buffer).length = lens.length := by
    intro lens
    induction lens with
    | nil => exact fun {_ _} => rfl
    | cons kl lens ih =>
      intro i buffer
      rw [writtenBack, List.length_cons, ih, List.length_cons]
  rw [gcRecs, hlen, List.length_map]

/-- The ledger is right once the target is erased and the destination has its header. -/
theorem Orderly.emptied (hO : Orderly g P s) (ht : t < g.nbBlocks) : Orderly g P (s.emptied g t v) := by
  have hreset := (hO.setState v .blkUsed).reset ht
  rw [(SameLedger.setState s v .blkUsed).list t] at hreset
  exact hreset.opened

/-- A collection keeps the ledger, if its destination is a data block and what it moves is as required. -/
theorem CollectedTo.orderly (hC : CollectedTo g s t s') (hO : Orderly g P s)
    (ht : gcTarget g s = some t) (hd : DestOk g s t) (hP : ∀ kd ∈ gcRecs g s t, P kd.1 kd.2) :
    Orderly g P s' := by
  obtain ⟨hvlt, hvun, hfit⟩ := gcVictim_data hO ht hd
  obtain ⟨htlt, -⟩ := hO.target ht
  obtain ⟨s₁, hA, hs'⟩ := hC
  have hO₁ : Orderly g P s.gcStart := hO.of_ledger rfl
  have hE := emptied_spec g s.gcStart t (gcVictim g s t)
  have hle : ((s.gcStart.emptied g t (gcVictim g s t)).blocks (gcVictim g s t)).currentPageOffset ≤
      max ((s.wiped g t).blocks (gcVictim g s t)).currentPageOffset 1 := hE.le
  have hun : (s.gcStart.emptied g t (gcVictim g s t)).Unlisted (gcVictim g s t) := by
    rw [Config.Unlisted, hE.order]
    exact hvun
  have hO₂ := hA.orderly hvlt hun hE.pos (by rw [gcRecs_length]; omega)
    (fun kd hkd => ⟨hP kd hkd, (writtenBack_page_length kd hkd).le⟩) (hO₁.emptied htlt)
  exact (hO₂.setState _ _).of_ledger hs'

/-- A `gc` that returns keeps the ledger. -/
theorem gc_orderly (hdrv : env.NoDriverError) {u : PUnit} (hO : Orderly env.toGeometry P s)
    (hfull : ∀ key page, P key page → page.length = env.pageSize)
    (hok : ∀ t, Collects env s t → DestOk env.toGeometry s t ∧
      Findable env.toGeometry s (s.blocks t).list ∧ ∀ kd ∈ gcRecs env.toGeometry s t, P kd.1 kd.2)
    (he : gc env s = .ok (u, s')) : Orderly env.toGeometry P s' := by
  have hwp := @gc_wp env P s True hdrv hO hfull (.inl trivial) fun t hC =>
    ⟨(hok t hC).1, (hok t hC).2.1, .inl trivial⟩
  obtain ⟨-, hsame⟩ | ⟨t, hC, hto⟩ := hwp.of_ok he
  · exact hO.of_ledger hsame
  · exact hto.orderly hO hC.target (hok t hC).1 (hok t hC).2.2

end Collect

/-! ## Calls -/

section Calls
variable {C : Config → ℕ → Prop}

/-- `gc_check` calls `gc`. -/
def GcDue (g : Geometry) (s : Config) : Prop := ∃ b < g.nbBlocks, invalidThreshold2 ≤ (s.blocks b).nbInvalid

/-- The condition on a call: the record of a set goes to a data block, and each collection meets `C`, on the
configuration that it finds and its target. -/
def CallOk (env : Env) (C : Config → ℕ → Prop) (s : Config) : Call → Prop
  | .set key val => SetPickOk env s key val ∧ ∀ ret s₁, setStore env key val s = .ok (.stored ret, s₁) →
      GcDue env.toGeometry s₁ → ∀ t, Collects env s₁ t → C s₁ t
  | .gc => ∀ t, Collects env s t → C s t
  | _ => True

theorem gcIfNeeded_orderly (hdrv : env.NoDriverError) {u : PUnit} (hO : Orderly env.toGeometry P s)
    (hfull : ∀ key page, P key page → page.length = env.pageSize)
    (hok : GcDue env.toGeometry s → ∀ t, Collects env s t → DestOk env.toGeometry s t ∧
      Findable env.toGeometry s (s.blocks t).list ∧ ∀ kd ∈ gcRecs env.toGeometry s t, P kd.1 kd.2)
    (he : gcIfNeeded env s = .ok (u, s')) : Orderly env.toGeometry P s' := by
  rw [gcIfNeeded, get_bind_ok] at he
  split at he
  · next hdue =>
    obtain ⟨b, hb, hinv⟩ := List.any_eq_true.mp hdue
    exact gc_orderly hdrv hO hfull (hok ⟨b, List.mem_range.mp hb, of_decide_eq_true hinv⟩) he
  · obtain ⟨-, rfl⟩ := pure_ok.mp he
    exact hO

/-- A call that meets its condition keeps the ledger, if `C` is enough for a collection to keep it. -/
theorem exec_orderly (hdrv : env.NoDriverError) {c : Call} (hP : Records env.toGeometry P)
    (hfull : ∀ key page, P key page → page.length = env.pageSize)
    (hC : ∀ s t, Orderly env.toGeometry P s → Collects env s t → C s t → DestOk env.toGeometry s t ∧
      Findable env.toGeometry s (s.blocks t).list ∧ ∀ kd ∈ gcRecs env.toGeometry s t, P kd.1 kd.2)
    (hO : Orderly env.toGeometry P s) (hok : CallOk env C s c) (h : Returns env s c s') :
    Orderly env.toGeometry P s' := by
  obtain ⟨r, he⟩ := h
  cases c with
  | set key val =>
    obtain ⟨code, s₁, he₁, hend⟩ := bind_ok.mp he
    obtain ⟨-, rfl⟩ := pure_ok.mp hend
    obtain ⟨x, s₂, he₂, hexit⟩ := bind_ok.mp he₁
    have hO₂ := setStore_orderly hP hO hok.1 he₂
    cases x with
    | early ret =>
      obtain ⟨-, rfl⟩ := pure_ok.mp hexit
      exact hO₂
    | stored ret =>
      obtain ⟨_, s₃, he₃, hcode⟩ := bind_ok.mp hexit
      obtain ⟨-, rfl⟩ := pure_ok.mp hcode
      obtain ⟨u, s₄, he₄, he₅⟩ := bind_ok.mp he₃
      have hO₄ := gcIfNeeded_orderly hdrv hO₂ hfull
        (fun hdue t hcol => hC s₂ t hO₂ hcol (hok.2 ret s₂ he₂ hdue t hcol)) he₄
      exact flushIfNeeded_orderly hdrv hO₄ he₅
  | get key => exact hO.of_ledger ((getKeyval_ledger key).eq he)
  | del key =>
    obtain ⟨code, s₁, he₁, hend⟩ := bind_ok.mp he
    obtain ⟨-, rfl⟩ := pure_ok.mp hend
    exact delKey_orderly hO he₁
  | format =>
    obtain ⟨code, s₁, he₁, hend⟩ := bind_ok.mp he
    obtain ⟨-, rfl⟩ := pure_ok.mp hend
    exact format_orderly hO.ranks he₁
  | gc =>
    obtain ⟨_, s₁, he₁, hend⟩ := bind_ok.mp he
    obtain ⟨-, rfl⟩ := pure_ok.mp hend
    exact gc_orderly hdrv hO hfull (fun t hcol => hC s t hO hcol (hok t hcol)) he₁
  | flush force =>
    obtain ⟨code, s₁, he₁, hend⟩ := bind_ok.mp he
    obtain ⟨-, rfl⟩ := pure_ok.mp hend
    exact flushMetadata_orderly hdrv hO he₁

/-- A device whose store has just been formatted. `meta_blkordr` is kept by a `format`; before it, only the
entries that the functions look at are filled. -/
def Formatted (env : Env) (s : Config) : Prop :=
  ∃ ret s₀, (∀ j b, s₀.metaBlkordr j = some b → j < nbProbed env.toGeometry) ∧
    format env s₀ = .ok (ret, s)

/-- The ledger is right in every state of a run from a formatted device whose calls meet their conditions. -/
theorem run_orderly (hdrv : env.NoDriverError) {cs : List Call} (hP : Records env.toGeometry P)
    (hfull : ∀ key page, P key page → page.length = env.pageSize)
    (hC : ∀ s t, Orderly env.toGeometry P s → Collects env s t → C s t → DestOk env.toGeometry s t ∧
      Findable env.toGeometry s (s.blocks t).list ∧ ∀ kd ∈ gcRecs env.toGeometry s t, P kd.1 kd.2)
    (hf : Formatted env s) (hr : Stepwise.Run (fun s c s' => CallOk env C s c ∧ Returns env s c s') s cs s') :
    Orderly env.toGeometry P s' := by
  obtain ⟨ret, s₀, hranks, he⟩ := hf
  exact hr.invariant (I := Orderly env.toGeometry P)
    (fun s c s' hO hstep => exec_orderly hdrv hP hfull hC hO hstep.1 hstep.2)
    (format_orderly hranks he)

end Calls

end LkpProjects.Parallel
