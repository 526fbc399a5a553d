import LkpProjects.Serial.Collect

/-! # The serial store: what a collection reclaims

`gc` may spoil the records it copies, but its accounting does not depend on them: the walk frees every
bucket of the block, whatever the records are turned into in the buffer the write loop enters as many
buckets again, and the block ends with no invalid page (`gc_reclaims`). The walk and the write loop
have a closed form here, which the question what becomes of the records starts from.
-/
namespace LkpProjects.Serial
open Nand Bytes
set_option autoImplicit false

/-! ## The pairs of a block -/

/-- The value on the page that the bucket in slot `h` points to. -/
def valOf (env : Env) (s : Config) (h : ℕ) : CStr :=
  .ofBytes (((pageOf env s h).drop (8 + readLe (mem (pageOf env s h)) 0)).take
    (readLe (mem (pageOf env s h)) 4))

/-- The pair that a bucket stands for. -/
def pairOf (env : Env) (s : Config) (h : ℕ) : CStr × CStr := ((s.hashtable h).key, valOf env s h)

variable {env : Env} {s s' : Config} {b : ℕ}

theorem Holds.val_eq {g : Geometry} {page : List Byte} {key val : CStr} (h : Holds g page key val) :
    CStr.ofBytes ((page.drop (8 + readLe (mem page) 0)).take (readLe (mem page) 4)) = val := by
  rw [h.keyLen_eq, h.valLen_eq, h.val_bytes, CStr.ofBytes_bytes]

/-- The buckets whose page lies in block `b`. -/
def validIn (g : Geometry) (s : Config) (b : ℕ) : Finset ℕ :=
  (validSlots g s.hashtable).filter fun h => s.blkOf g h = b

theorem mem_validSlots {g : Geometry} {h : ℕ} :
    h ∈ validSlots g s.hashtable ↔ s.Valid g h := by
  simp [validSlots, Config.Valid]

namespace GcInv

theorem table (hI : GcInv env s) : TableOk env.toGeometry s.hashtable :=
  tableOk_of_found fun h hlt hv => hI.found h ⟨hlt, hv⟩

theorem holds (hI : GcInv env s) {h : ℕ} (hv : s.Valid env.toGeometry h) :
    Holds env.toGeometry (pageOf env s h) (s.hashtable h).key (valOf env s h) := by
  obtain ⟨val, hh⟩ := hI.decodes h hv
  have he : valOf env s h = val := hh.val_eq
  rwa [he]

theorem key_inj (hI : GcInv env s) {h h' : ℕ} (hv : s.Valid env.toGeometry h)
    (hv' : s.Valid env.toGeometry h') (he : (s.hashtable h).key = (s.hashtable h').key) : h = h' := by
  have hf := hI.found h hv
  rw [he, hI.found h' hv'] at hf
  exact (Except.ok.inj hf).symm

theorem page_inj (hI : GcInv env s) {h h' : ℕ} (hv : s.Valid env.toGeometry h)
    (hv' : s.Valid env.toGeometry h') (he : (s.hashtable h).index = (s.hashtable h').index) :
    h = h' := by
  apply hI.key_inj hv hv'
  have hh := hI.holds hv
  have hh' := hI.holds hv'
  have hp : pageOf env s h = pageOf env s h' := by rw [pageOf, pageOf, he]
  rw [hp] at hh
  have hlen : (s.hashtable h).key.len = (s.hashtable h').key.len :=
    hh.keyLen_eq.symm.trans hh'.keyLen_eq
  have hbytes : (s.hashtable h).key.bytes = (s.hashtable h').key.bytes := by
    rw [← hh.key_bytes, ← hh'.key_bytes, hlen]
  rw [← CStr.ofBytes_bytes (s.hashtable h).key, hbytes, CStr.ofBytes_bytes]

/-- The list of a block is as long as the number of its valid buckets. -/
theorem card_validIn (hI : GcInv env s) (hb : b < env.nbBlocks) :
    (validIn env.toGeometry s b).card = (s.blocks b).list.length := by
  have he : validIn env.toGeometry s b = (s.blocks b).list.toFinset := by
    ext h
    rw [validIn, Finset.mem_filter, mem_validSlots, List.mem_toFinset, hI.memList b hb]
  rw [he, List.toFinset_card_of_nodup (hI.nodup b hb)]

end GcInv

/-! ## The walk -/

/-- `invalid_pg` on one slot after the other. -/
def Config.droppedAll (g : Geometry) : Config → List ℕ → Config
  | s, [] => s
  | s, h :: slots => Config.droppedAll g (s.dropped g h) slots

section Dropped
variable {g : Geometry} {slots : List ℕ} {h j c : ℕ}

@[simp] theorem droppedAll_mtd : (s.droppedAll g slots).mtd = s.mtd := by
  induction slots generalizing s with
  | nil => rfl
  | cons h slots ih => exact ih

@[simp] theorem droppedAll_state :
    ((s.droppedAll g slots).blocks c).state = (s.blocks c).state := by
  induction slots generalizing s with
  | nil => rfl
  | cons h slots ih => exact ih.trans (dropped_state g s h c)

@[simp] theorem droppedAll_worn : ((s.droppedAll g slots).blocks c).worn = (s.blocks c).worn := by
  induction slots generalizing s with
  | nil => rfl
  | cons h slots ih => exact ih.trans (dropped_worn g s h c)

@[simp] theorem droppedAll_offset :
    ((s.droppedAll g slots).blocks c).currentPageOffset = (s.blocks c).currentPageOffset := by
  induction slots generalizing s with
  | nil => rfl
  | cons h slots ih => exact ih.trans (dropped_offset g s h c)

theorem droppedAll_nbInvalid (hne : ∀ h ∈ slots, s.blkOf g h ≠ c) :
    ((s.droppedAll g slots).blocks c).nbInvalid = (s.blocks c).nbInvalid := by
  induction slots generalizing s with
  | nil => rfl
  | cons h slots ih =>
    have hc : c ≠ s.blkOf g h := fun he => hne h List.mem_cons_self he.symm
    rw [Config.droppedAll, ih fun j hj => by
      rw [dropped_blkOf]
      exact hne j (List.mem_cons_of_mem _ hj), dropped_nbInvalid, if_neg hc]

theorem droppedAll_key : ((s.droppedAll g slots).hashtable j).key = (s.hashtable j).key := by
  induction slots generalizing s with
  | nil => rfl
  | cons h slots ih => exact ih.trans dropped_key

theorem droppedAll_index : ((s.droppedAll g slots).hashtable j).index = (s.hashtable j).index := by
  induction slots generalizing s with
  | nil => rfl
  | cons h slots ih => exact ih.trans dropped_index

theorem droppedAll_valid : (s.droppedAll g slots).Valid g j ↔ s.Valid g j ∧ j ∉ slots := by
  induction slots generalizing s with
  | nil => simp [Config.droppedAll]
  | cons h slots ih =>
    rw [Config.droppedAll, ih, dropped_valid, List.mem_cons, not_or, and_assoc]

theorem TableOk.dropped (hw : TableOk g s.hashtable) : TableOk g (s.dropped g h).hashtable := by
  refine hw.mono (fun i _ k hk => ?_) (fun i _ hm => ?_)
  · obtain ⟨hv, hkey⟩ := Bucket.held_eq_some.mp hk
    by_cases hi : i = h
    · subst hi
      rw [dropped_hashtable_self] at hv
      cases hv
    · rw [dropped_hashtable_ne hi] at hv hkey
      exact Bucket.held_eq_some.mpr ⟨hv, hkey⟩
  · by_cases hi : i = h
    · subst hi
      rw [dropped_hashtable_self]
      exact hm
    · rw [dropped_hashtable_ne hi]
      exact hm

theorem TableOk.droppedAll (hw : TableOk g s.hashtable) :
    TableOk g (s.droppedAll g slots).hashtable := by
  induction slots generalizing s with
  | nil => exact hw
  | cons h slots ih => exact ih hw.dropped

/-- Freeing distinct valid buckets leaves as many fewer. -/
theorem card_droppedAll (hv : ∀ h ∈ slots, s.Valid g h) (hn : slots.Nodup) :
    (validSlots g (s.droppedAll g slots).hashtable).card + slots.length =
      (validSlots g s.hashtable).card := by
  have he : validSlots g (s.droppedAll g slots).hashtable =
      validSlots g s.hashtable \ slots.toFinset := by
    ext j
    rw [mem_validSlots, droppedAll_valid, Finset.mem_sdiff, mem_validSlots, List.mem_toFinset]
  have hsub : slots.toFinset ⊆ validSlots g s.hashtable := fun h hh =>
    mem_validSlots.mpr (hv h (List.mem_toFinset.mp hh))
  rw [he, ← List.toFinset_card_of_nodup hn]
  exact Finset.card_sdiff_add_card_eq_card hsub

end Dropped

/-- The buffer after pages were read to `i * stride`, `(i + 1) * stride`, and so on. -/
def layPages (stride : ℕ) : ℕ → List (List Byte) → (ℕ → Byte) → ℕ → Byte
  | _, [], buf => buf
  | i, page :: pages, buf => layPages stride (i + 1) pages (blit buf (i * stride) page)

/-- What the walk finds: `slots` is what is left of the block's list. -/
structure Walk (env : Env) (b : ℕ) (slots : List ℕ) (s : Config) : Prop where
  table : TableOk env.toGeometry s.hashtable
  list : (s.blocks b).list = slots
  nodup : slots.Nodup
  here : ∀ h ∈ slots, s.Valid env.toGeometry h ∧ s.blkOf env.toGeometry h = b
  holds : ∀ h ∈ slots,
    Holds env.toGeometry (pageOf env s h) (s.hashtable h).key (valOf env s h)

theorem GcInv.walk (hI : GcInv env s) (hb : b < env.nbBlocks) :
    Walk env b (s.blocks b).list s where
  table := hI.table
  list := rfl
  nodup := hI.nodup b hb
  here h hh := (hI.memList b hb h).mp hh
  holds h hh := hI.holds ((hI.memList b hb h).mp hh).1

theorem pageOf_dropped (h j : ℕ) : pageOf env (s.dropped env.toGeometry h) j = pageOf env s j := by
  rw [pageOf, pageOf, dropped_mtd, dropped_index]

theorem pairOf_dropped (h j : ℕ) : pairOf env (s.dropped env.toGeometry h) j = pairOf env s j := by
  rw [pairOf, pairOf, valOf, valOf, pageOf_dropped, dropped_key]

theorem Walk.tail {h : ℕ} {slots : List ℕ} (hW : Walk env b (h :: slots) s) :
    Walk env b slots (s.dropped env.toGeometry h) := by
  have hn := List.nodup_cons.mp hW.nodup
  refine ⟨hW.table.dropped, ?_, hn.2, fun j hj => ?_, fun j hj => ?_⟩
  · rw [dropped_list, hW.list, List.erase_cons_head]
  · obtain ⟨hv, hblk⟩ := hW.here j (List.mem_cons_of_mem _ hj)
    rw [dropped_valid, dropped_blkOf]
    exact ⟨⟨hv, fun he => hn.1 (he ▸ hj)⟩, hblk⟩
  · have hh := hW.holds j (List.mem_cons_of_mem _ hj)
    have hval : valOf env (s.dropped env.toGeometry h) j = valOf env s j :=
      congrArg Prod.snd (pairOf_dropped h j)
    rwa [pageOf_dropped, dropped_key, hval]

/-- The whole walk, when the buffer holds the pages. -/
theorem gcRead_eq (hdrv : env.NoDriverError) (hb : b < env.nbBlocks) {slots : List ℕ} {r : GcRead}
    (hW : Walk env b slots s)
    (hfit : slots ≠ [] → (r.lens.length + slots.length - 1) * env.pagesPerBlock + env.pageSize ≤
      env.pageSize * env.pagesPerBlock) :
    gcRead env b slots.length r slots s = .ok
      (⟨layPages env.pagesPerBlock r.lens.length (slots.map (pageOf env s)) r.buffer,
        r.lens ++ (slots.map (pairOf env s)).map recordLens⟩, s.droppedAll env.toGeometry slots) := by
  induction slots generalizing r s with
  | nil =>
    rw [gcRead.eq_def]
    simp only [List.map_nil, List.append_nil]
    rfl
  | cons h slots ih =>
    obtain ⟨hv, hblk⟩ := hW.here h List.mem_cons_self
    have hn := List.nodup_cons.mp hW.nodup
    have hmem : h ∈ (s.blocks b).list := by rw [hW.list]; exact List.mem_cons_self
    have hfit' := hfit (List.cons_ne_nil h slots)
    rw [List.length_cons] at hfit'
    have hpos : r.lens.length * env.pagesPerBlock ≤
        (r.lens.length + (slots.length + 1) - 1) * env.pagesPerBlock :=
      Nat.mul_le_mul_right _ (by omega)
    have hone := gcReadOne_eq hdrv hW.table (r := r) hv hb hblk hmem (hW.holds h List.mem_cons_self)
      (by omega)
    have hhead : slots.head? ≠ some h := fun he => hn.1 (List.mem_of_mem_head? he)
    have hblk' : ¬ (s.hashtable h).index / env.pagesPerBlock ≠ b := not_not.mpr hblk
    have hmap : slots.map (pageOf env (s.dropped env.toGeometry h)) = slots.map (pageOf env s) :=
      List.map_congr_left fun j _ => pageOf_dropped h j
    have hpairs : slots.map (pairOf env (s.dropped env.toGeometry h)) = slots.map (pairOf env s) :=
      List.map_congr_left fun j _ => pairOf_dropped h j
    rw [List.length_cons, gcRead, if_neg hblk', hone]
    simp only [if_neg hhead, List.erase_of_not_mem hn.1]
    rw [ih hW.tail fun _ => by
      rw [List.length_append, List.length_singleton,
        show r.lens.length + 1 + slots.length - 1 = r.lens.length + (slots.length + 1) - 1 by omega]
      exact hfit', hmap, hpairs, List.length_append, List.length_singleton, List.append_assoc]
    rfl

/-! ## The write loop -/

/-- The buffer after the two `memcpy`s and the two `strncpy`s of one round. -/
def rewriteBuffer (pos keyLen valLen : ℕ) (buffer : ℕ → Byte) : ℕ → Byte :=
  strncpySelf (strncpySelf (blit (blit buffer pos (le32 keyLen)) (pos + 4) (le32 valLen)) (pos + 8)
    keyLen) (pos + 8 + keyLen) valLen

/-- The keys and pages that the write loop takes out of the buffer, from record `i` on. -/
def writtenBack (g : Geometry) : ℕ → List (ℕ × ℕ) → (ℕ → Byte) → List (CStr × List Byte)
  | _, [], _ => []
  | i, (keyLen, valLen) :: lens, buffer =>
      let pos := i * g.pagesPerBlock
      let buffer := rewriteBuffer pos keyLen valLen buffer
      (.ofBytes (cut buffer (pos + 8) keyLen), cut buffer pos g.pageSize) ::
        writtenBack g (i + 1) lens buffer

/-- Keys and pages stored in block `b` one after the other. -/
inductive Refill (g : Geometry) (b : ℕ) : List (CStr × List Byte) → Config → Config → Prop where
  | nil (s : Config) : Refill g b [] s s
  | cons {key : CStr} {data : List Byte} {recs : List (CStr × List Byte)} {s s' : Config} {h : ℕ}
      {t : ℕ → Bucket}
      (hadd : hashAdd g key (b * g.pagesPerBlock + (s.blocks b).currentPageOffset) s.hashtable =
        .ok (.ok h, t))
      (hrest : Refill g b recs ({ s.wrote g (b * g.pagesPerBlock + (s.blocks b).currentPageOffset) data
        with hashtable := t }.listAdd b h) s') : Refill g b ((key, data) :: recs) s s'

theorem CStr.ofBytes_len_le (l : List Byte) : (CStr.ofBytes l).len ≤ l.length :=
  (List.takeWhile_sublist _).length_le

theorem cut_length (buf : ℕ → Byte) (pos n : ℕ) : (cut buf pos n).length = n := by simp [cut]

/-- Storing fills one slot. -/
theorem Stored.card {g : Geometry} {key : CStr} {data : List Byte} {h : ℕ}
    (hS : Stored g key data b h s s') :
    (validSlots g s'.hashtable).card = (validSlots g s.hashtable).card + 1 := by
  have he : validSlots g s'.hashtable = insert h (validSlots g s.hashtable) := by
    ext j
    rw [Finset.mem_insert, mem_validSlots, mem_validSlots, hS.valid_iff]
  rw [he, Finset.card_insert_of_notMem fun hm => hS.not_valid (mem_validSlots.mp hm)]

theorem Reopened.offset_self {g : Geometry} (hR : Reopened g b s s') :
    (s'.blocks b).currentPageOffset = 1 := by
  rw [hR.block_self]

/-- One round of the write loop, when the block has more than one page left. -/
theorem gcWriteOne_entered (hdrv : env.NoDriverError) (hb : b < env.nbBlocks) (i : ℕ)
    (buffer : ℕ → Byte) {keyLen valLen : ℕ} (hro : s.readOnly = false)
    (hroom : (s.blocks b).currentPageOffset + 1 < env.pagesPerBlock)
    (hcard : (validSlots env.toGeometry s.hashtable).card < env.hashSize)
    (hkey : keyLen < 128) (hsize : 8 + keyLen + valLen ≤ env.pageSize)
    (hfit : i * env.pagesPerBlock + env.pageSize ≤ env.pageSize * env.pagesPerBlock) :
    let pos := i * env.pagesPerBlock
    let buffer' := rewriteBuffer pos keyLen valLen buffer
    let index := b * env.pagesPerBlock + (s.blocks b).currentPageOffset
    ∃ h t, hashAdd env.toGeometry (.ofBytes (cut buffer' (pos + 8) keyLen)) index s.hashtable =
        .ok (.ok h, t) ∧
      gcWriteOne env b i keyLen valLen buffer s = .ok (buffer',
        { s.wrote env.toGeometry index (cut buffer' pos env.pageSize) with
          hashtable := t }.listAdd b h) := by
  intro pos buffer' index
  -- the key shown to `hash_add` is no longer than the one that was read
  have hlen : (CStr.ofBytes (cut buffer' (pos + 8) keyLen)).len < 128 := by
    have h := CStr.ofBytes_len_le (cut buffer' (pos + 8) keyLen)
    rw [cut_length] at h
    omega
  obtain ⟨h, t, hadd⟩ : ∃ h t, hashAdd env.toGeometry (.ofBytes (cut buffer' (pos + 8) keyLen)) index
      s.hashtable = .ok (.ok h, t) := hashAdd_of_card hlen hcard
  refine ⟨h, t, hadd, ?_⟩
  have hS := stored_of_hashAdd (cut buffer' pos env.pageSize) (Nat.lt_of_succ_lt hroom) hadd
  have hwrote : (s.wrote env.toGeometry index (cut buffer' pos env.pageSize)).readOnly = false :=
    hS.readOnly.trans (isReadOnly_eq_false hb (by rw [hS.offset_self]; exact hroom))
  have hcode : ¬ writeCode env.toGeometry
      (s.wrote env.toGeometry index (cut buffer' pos env.pageSize)) < 0 := by
    rw [writeCode, ← wrote_readOnly, hwrote]
    decide
  have hbound : ¬ env.pageSize * env.pagesPerBlock <
      i * env.pagesPerBlock + (8 + keyLen + valLen) := by omega
  rw [gcWriteOne]
  simp only [if_neg hbound]
  rw [← rewriteBuffer]
  simp only [writePage_eq hdrv hro, wrote_hashtable]
  rw [hadd]
  simp only [if_neg hcode, buffer', pos, index]

/-- The write loop comes to its end when the block and the hash table have room for the records. -/
theorem gcWrite_refill (hdrv : env.NoDriverError) (hb : b < env.nbBlocks) (lens : List (ℕ × ℕ))
    (i : ℕ) (buffer : ℕ → Byte) (hro : s.readOnly = false)
    (hroom : (s.blocks b).currentPageOffset + lens.length < env.pagesPerBlock)
    (hcard : (validSlots env.toGeometry s.hashtable).card + lens.length ≤ env.hashSize)
    (hlens : ∀ x ∈ lens, x.1 < 128 ∧ 8 + x.1 + x.2 ≤ env.pageSize)
    (hfit : lens ≠ [] → (i + lens.length - 1) * env.pagesPerBlock + env.pageSize ≤
      env.pageSize * env.pagesPerBlock) :
    ∃ s', gcWrite env b i lens buffer s = .ok s' ∧
      Refill env.toGeometry b (writtenBack env.toGeometry i lens buffer) s s' := by
  induction lens generalizing i buffer s with
  | nil => exact ⟨s, rfl, .nil s⟩
  | cons x lens ih =>
    obtain ⟨keyLen, valLen⟩ := x
    obtain ⟨hkey, hsize⟩ := hlens _ List.mem_cons_self
    rw [List.length_cons] at hroom hcard
    have hfit' := hfit (List.cons_ne_nil _ lens)
    rw [List.length_cons] at hfit'
    have hpos : i * env.pagesPerBlock ≤ (i + (lens.length + 1) - 1) * env.pagesPerBlock :=
      Nat.mul_le_mul_right _ (by omega)
    obtain ⟨h, t, hadd, hone⟩ := gcWriteOne_entered hdrv hb i buffer hro
      (show (s.blocks b).currentPageOffset + 1 < env.pagesPerBlock by omega)
      (show (validSlots env.toGeometry s.hashtable).card < env.hashSize by omega) hkey hsize (by omega)
    have hS := stored_of_hashAdd
      (cut (rewriteBuffer (i * env.pagesPerBlock) keyLen valLen buffer) (i * env.pagesPerBlock)
        env.pageSize) (show (s.blocks b).currentPageOffset < env.pagesPerBlock by omega) hadd
    have hro' := hS.readOnly.trans (isReadOnly_eq_false hb (by rw [hS.offset_self]; omega))
    obtain ⟨s', he, hr⟩ := ih (i + 1)
      (rewriteBuffer (i * env.pagesPerBlock) keyLen valLen buffer) hro'
      (by rw [hS.offset_self]; omega) (by rw [hS.card]; omega)
      (fun x hx => hlens x (List.mem_cons_of_mem _ hx))
      (fun _ => by
        rw [show i + 1 + lens.length - 1 = i + (lens.length + 1) - 1 by omega]
        exact hfit')
    refine ⟨s', ?_, .cons hadd hr⟩
    rw [gcWrite, hone]
    exact he

/-- What the write loop leaves of blocks and counters, whatever it stored. -/
structure Refilled (g : Geometry) (b n : ℕ) (s s' : Config) : Prop where
  offset : (s'.blocks b).currentPageOffset = (s.blocks b).currentPageOffset + n
  state : ∀ c, (s'.blocks c).state = (s.blocks c).state
  nbInvalid : ∀ c, (s'.blocks c).nbInvalid = (s.blocks c).nbInvalid
  other : ∀ c, c ≠ b → s'.blocks c = s.blocks c
  card : (validSlots g s'.hashtable).card = (validSlots g s.hashtable).card + n
  readOnly : b < g.nbBlocks → s.readOnly = false →
    (s.blocks b).currentPageOffset + n < g.pagesPerBlock → s'.readOnly = false

theorem Refill.refilled {g : Geometry} {recs : List (CStr × List Byte)} (hR : Refill g b recs s s')
    (hroom : (s.blocks b).currentPageOffset + recs.length ≤ g.pagesPerBlock) :
    Refilled g b recs.length s s' := by
  induction hR with
  | nil s => exact ⟨rfl, fun _ => rfl, fun _ => rfl, fun _ _ => rfl, rfl, fun _ hro _ => hro⟩
  | @cons key data recs s s' h t hadd hrest ih =>
    rw [List.length_cons] at hroom
    have hS := stored_of_hashAdd data
      (show (s.blocks b).currentPageOffset < g.pagesPerBlock by omega) hadd
    have ih := ih (by rw [hS.offset_self]; omega)
    refine ⟨?_, fun c => (ih.state c).trans hS.state, fun c => (ih.nbInvalid c).trans hS.nbInvalid,
      fun c hc => (ih.other c hc).trans (hS.block_ne hc), ?_, fun hb _ hlt => ?_⟩
    · rw [ih.offset, hS.offset_self, List.length_cons]
      omega
    · rw [ih.card, hS.card, List.length_cons]
      omega
    · rw [List.length_cons] at hlt
      refine ih.readOnly hb (hS.readOnly.trans (isReadOnly_eq_false hb ?_)) ?_
      · rw [hS.offset_self]
        omega
      · rw [hS.offset_self]
        omega

theorem writtenBack_length {g : Geometry} {i : ℕ} {lens : List (ℕ × ℕ)} {buffer : ℕ → Byte} :
    (writtenBack g i lens buffer).length = lens.length := by
  induction lens generalizing i buffer with
  | nil => rfl
  | cons x lens ih => rw [writtenBack, List.length_cons, List.length_cons, ih]

/-! ## A block with some pairs -/

section Stocked
variable (g : Geometry) (recs : List (CStr × CStr))

/-- The slot a key goes to in an empty table. -/
def homeSlot (key : CStr) : ℕ := home key % g.hashSize

/-- Block 0 has its header, as many invalid pages as `gc` asks for, and behind them the pages of some
pairs; the other blocks are erased. -/
def stocked : Config where
  blocks := fun b =>
    if b = 0 then ⟨recs.map fun r => homeSlot g r.1, .blkUsed, 0, invalidThreshold,
      invalidThreshold + recs.length + 1⟩
    else .erased 0
  hashtable := fun h =>
    match recs.zipIdx.find? fun x => homeSlot g x.1.1 = h with
    | some x => ⟨false, invalidThreshold + 1 + x.2, x.1.1, .pgValid⟩
    | none => ⟨false, 0, .ofBytes [], .pgFree⟩
  metaBlkordr := fun _ => none
  readOnly := false
  mtd := replay (programs (recs.zipIdx.map fun x =>
    (invalidThreshold + 1 + x.2, record g x.1.1 x.1.2))) []

variable {g recs} {x : (CStr × CStr) × ℕ} {h : ℕ}

theorem stocked_valid (hv : (stocked g recs).Valid g h) : ∃ x ∈ recs.zipIdx, homeSlot g x.1.1 = h ∧
    (stocked g recs).hashtable h = ⟨false, invalidThreshold + 1 + x.2, x.1.1, .pgValid⟩ := by
  obtain ⟨-, hv⟩ := hv
  simp only [stocked] at hv ⊢
  cases hf : recs.zipIdx.find? fun x => decide (homeSlot g x.1.1 = h) with
  | none => simp [hf] at hv
  | some x => exact ⟨x, List.mem_of_find?_eq_some hf, by simpa using List.find?_some hf, rfl⟩

theorem stocked_slot (hn : (recs.map fun r => homeSlot g r.1).Nodup) (hx : x ∈ recs.zipIdx) :
    (stocked g recs).hashtable (homeSlot g x.1.1) =
      ⟨false, invalidThreshold + 1 + x.2, x.1.1, .pgValid⟩ := by
  have hf : (recs.zipIdx.find? fun y => homeSlot g y.1.1 = homeSlot g x.1.1) = some x := by
    obtain ⟨y, hy⟩ := Option.isSome_iff_exists.mp (List.find?_isSome.mpr ⟨x, hx, by simp⟩ :
      (recs.zipIdx.find? fun y => decide (homeSlot g y.1.1 = homeSlot g x.1.1)).isSome)
    have hslot : homeSlot g y.1.1 = homeSlot g x.1.1 := by simpa using List.find?_some hy
    have hyi := List.mem_zipIdx_iff_getElem?.mp (List.mem_of_find?_eq_some hy)
    have hxi := List.mem_zipIdx_iff_getElem?.mp hx
    have hidx : y.2 = x.2 := by
      obtain ⟨hy', hye⟩ := List.getElem?_eq_some_iff.mp hyi
      obtain ⟨hx', hxe⟩ := List.getElem?_eq_some_iff.mp hxi
      have hget : (recs.map fun r => homeSlot g r.1).get ⟨y.2, by rwa [List.length_map]⟩ =
          (recs.map fun r => homeSlot g r.1).get ⟨x.2, by rwa [List.length_map]⟩ := by
        rw [List.get_eq_getElem, List.get_eq_getElem, List.getElem_map, List.getElem_map, hye, hxe]
        exact hslot
      exact congrArg Fin.val (List.nodup_iff_injective_get.mp hn hget)
    rw [hy]
    refine congrArg some (Prod.ext ?_ hidx)
    rw [hidx, hxi] at hyi
    exact (Option.some.inj hyi).symm
  simp only [stocked]
  rw [hf]

theorem stocked_content (hsize : ∀ r ∈ recs, 8 + r.1.len + r.2.len ≤ g.pageSize)
    (hx : x ∈ recs.zipIdx) : Holds g
      (content g.pageSize (stocked g recs).mtd (invalidThreshold + 1 + x.2)) x.1.1 x.1.2 := by
  have hr : x.1 ∈ recs := by
    obtain ⟨hi, he⟩ := List.getElem?_eq_some_iff.mp (List.mem_zipIdx_iff_getElem?.mp hx)
    exact he ▸ List.getElem_mem hi
  have hh := record_holds (hsize x.1 hr)
  have hpages : (recs.zipIdx.map fun x =>
      (invalidThreshold + 1 + x.2, record g x.1.1 x.1.2)).map Prod.fst =
        (List.range recs.length).map fun i => invalidThreshold + 1 + i := by
    rw [List.map_map, List.range_eq_range', ← List.zipIdx_map_snd 0 recs, List.map_map]
    rfl
  have hn : ((recs.zipIdx.map fun x =>
      (invalidThreshold + 1 + x.2, record g x.1.1 x.1.2)).map Prod.fst).Nodup := by
    rw [hpages]
    exact List.nodup_range.map fun a b h => Nat.add_left_cancel h
  have hm := List.mem_map_of_mem (f := fun x : (CStr × CStr) × ℕ =>
    (invalidThreshold + 1 + x.2, record g x.1.1 x.1.2)) hx
  have hc : content g.pageSize (stocked g recs).mtd (invalidThreshold + 1 + x.2) =
      record g x.1.1 x.1.2 := content_programs_mem _ [] hn hm rfl hh.length
  rw [hc]
  exact hh

/-- Pairs that go to different slots, on a block that has room for them. -/
theorem stocked_gcInv {env : Env} (hn : (recs.map fun r => homeSlot env.toGeometry r.1).Nodup)
    (hsize : ∀ r ∈ recs, r.1.len < 128 ∧ 8 + r.1.len + r.2.len ≤ env.pageSize)
    (hroom : invalidThreshold + recs.length + 1 ≤ env.pagesPerBlock) :
    GcInv env (stocked env.toGeometry recs) := by
  have hmem : ∀ x ∈ recs.zipIdx, x.1 ∈ recs ∧ x.2 < recs.length := by
    intro x hx
    obtain ⟨hi, he⟩ := List.getElem?_eq_some_iff.mp (List.mem_zipIdx_iff_getElem?.mp hx)
    exact ⟨he ▸ List.getElem_mem hi, hi⟩
  have hblk : ∀ x ∈ recs.zipIdx, (invalidThreshold + 1 + x.2) / env.pagesPerBlock = 0 := by
    intro x hx
    have := (hmem x hx).2
    exact Nat.div_eq_of_lt (by omega)
  refine ⟨fun h hv => ?_, fun h hv => ?_, fun h hv => ?_, fun h hv => ?_, fun b _ => ?_,
    fun b _ h => ?_, fun b _ hst => ?_, fun b _ hpos => ?_⟩
  · obtain ⟨x, hx, rfl, he⟩ := stocked_valid hv
    rw [he]
    refine (searchLoop_ok_iff).mpr ?_
    obtain ⟨n, hn'⟩ := Nat.exists_eq_add_of_le env.two_le_hashSize
    have hkey : bucketLayout.key ((stocked env.toGeometry recs).hashtable
        (home x.1.1 % env.hashSize)) = some x.1.1 := Bucket.held_eq_some.mpr ⟨hv.2, by
      rw [homeSlot] at he
      rw [he]⟩
    rw [show env.hashSize - 1 = n + 1 by omega, ProbeTable.lookupFrom, if_pos hkey]
    rfl
  · obtain ⟨x, hx, -, he⟩ := stocked_valid hv
    rw [he]
    exact (hsize x.1 (hmem x hx).1).1
  · obtain ⟨x, hx, -, he⟩ := stocked_valid hv
    have hlt := Geometry.page_lt (g := env.toGeometry) (b := 0) (o := invalidThreshold + 1 + x.2)
      env.nbBlocks_pos (by have := (hmem x hx).2; omega)
    rw [he]
    rwa [Nat.zero_mul, Nat.zero_add] at hlt
  · obtain ⟨x, hx, -, he⟩ := stocked_valid hv
    rw [pageOf, he]
    exact ⟨x.1.2, stocked_content (fun r hr => (hsize r hr).2) hx⟩
  · by_cases hb : b = 0
    · simpa [stocked, hb] using hn
    · simp [stocked, hb, BlkInfo.erased]
  · by_cases hb : b = 0
    · subst hb
      simp only [stocked, if_true]
      constructor
      · intro hh
        obtain ⟨r, hr, rfl⟩ := List.mem_map.mp hh
        obtain ⟨i, hi, rfl⟩ := List.getElem_of_mem hr
        have hx : (recs[i], i) ∈ recs.zipIdx :=
          List.mem_zipIdx_iff_getElem?.mpr (List.getElem?_eq_getElem hi)
        have he := stocked_slot hn hx
        refine ⟨⟨Nat.mod_lt _ env.hashSize_pos, by simpa [stocked] using congrArg Bucket.pState he⟩, ?_⟩
        rw [Config.blkOf]
        have hidx := congrArg Bucket.index he
        simp only [stocked] at hidx ⊢
        rw [hidx]
        exact hblk _ hx
      · rintro ⟨hv, -⟩
        obtain ⟨x, hx, rfl, -⟩ := stocked_valid hv
        exact List.mem_map_of_mem (f := fun r => homeSlot env.toGeometry r.1) (hmem x hx).1
    · simp only [stocked, if_neg hb, BlkInfo.erased, List.not_mem_nil, false_iff, not_and]
      intro hv
      obtain ⟨x, hx, -, he⟩ := stocked_valid hv
      have hidx := congrArg Bucket.index he
      simp only [stocked] at hidx
      rw [Config.blkOf, hidx, hblk x hx]
      exact Ne.symm hb
  · by_cases hb : b = 0
    · simp only [stocked, if_pos hb, List.length_map]
      exact ⟨trivial, hroom⟩
    · simp [stocked, hb, BlkInfo.erased] at hst
  · by_cases hb : b = 0
    · simp [stocked, hb]
    · simp [stocked, hb, BlkInfo.erased] at hpos

theorem stocked_pairs {env : Env} (hn : (recs.map fun r => homeSlot env.toGeometry r.1).Nodup)
    (hsize : ∀ r ∈ recs, 8 + r.1.len + r.2.len ≤ env.pageSize) :
    ((stocked env.toGeometry recs).blocks 0).list.map (pairOf env (stocked env.toGeometry recs)) =
      recs := by
  have hlist : ((stocked env.toGeometry recs).blocks 0).list =
      recs.map fun r => homeSlot env.toGeometry r.1 := rfl
  rw [hlist, List.map_map]
  refine (List.map_congr_left fun r hr => ?_).trans (List.map_id _)
  obtain ⟨i, hi, rfl⟩ := List.getElem_of_mem hr
  have hx : (recs[i], i) ∈ recs.zipIdx :=
    List.mem_zipIdx_iff_getElem?.mpr (List.getElem?_eq_getElem hi)
  have hh := stocked_content hsize hx
  refine Prod.ext ?_ ?_
  · rw [Function.comp_apply, pairOf, stocked_slot hn hx]
    rfl
  · rw [Function.comp_apply, pairOf, valOf, pageOf, stocked_slot hn hx]
    exact hh.val_eq

end Stocked

/-! ## The collection -/

/-- The keys and pages that the collection of block `b` stores. -/
def collected (env : Env) (s : Config) (b : ℕ) : List (CStr × List Byte) :=
  writtenBack env.toGeometry 0 (((s.blocks b).list.map (pairOf env s)).map recordLens)
    (layPages env.pagesPerBlock 0 ((s.blocks b).list.map (pageOf env s)) fun _ => 0)

theorem collected_length (env : Env) (s : Config) (b : ℕ) :
    (collected env s b).length = (s.blocks b).list.length := by
  rw [collected, writtenBack_length, List.length_map, List.length_map]

/-- A collection comes to its end when its buffer holds the pages of the block. -/
theorem GcInv.gcBlock_refill (hI : GcInv env s) (hdrv : env.NoDriverError) (hb : b < env.nbBlocks)
    (hpos : 0 < (s.blocks b).nbInvalid)
    (hfit : (s.blocks b).list ≠ [] → ((s.blocks b).list.length - 1) * env.pagesPerBlock +
      env.pageSize ≤ env.pageSize * env.pagesPerBlock) :
    ∃ s₁ s', gcBlock env b s = .ok s' ∧
      Reopened env.toGeometry b (s.droppedAll env.toGeometry (s.blocks b).list) s₁ ∧
      Refill env.toGeometry b (collected env s b) s₁ s' := by
  have hst := hI.invalid b hb hpos
  obtain ⟨hused, hle⟩ := hI.used b hb hst
  have hW := hI.walk hb
  have hread := gcRead_eq (r := ⟨fun _ => 0, []⟩) hdrv hb hW fun hne => by
    rw [List.length_nil, Nat.zero_add]
    exact hfit hne
  have hE := (formatSingle_erased hdrv b (s.droppedAll env.toGeometry (s.blocks b).list)).2
  have hoff : ((formatSingle env b (s.droppedAll env.toGeometry (s.blocks b).list)).2.blocks
      b).currentPageOffset = 0 := by
    rw [hE.block_self]
    rfl
  have hR := hE.reopened (writeHdr_opened hdrv hE.readOnly hoff)
  have hcard : (validSlots env.toGeometry (s.droppedAll env.toGeometry
      (s.blocks b).list).hashtable).card + (s.blocks b).list.length ≤ env.hashSize := by
    rw [card_droppedAll (fun h hh => (hW.here h hh).1) hW.nodup]
    have := Finset.card_filter_le (Finset.range env.hashSize)
      fun h => (s.hashtable h).pState = .pgValid
    rwa [Finset.card_range] at this
  have hoff₁ := hR.offset_self
  obtain ⟨s', hwrite, hrefill⟩ := gcWrite_refill hdrv hb
    (((s.blocks b).list.map (pairOf env s)).map recordLens) 0
    (layPages env.pagesPerBlock 0 ((s.blocks b).list.map (pageOf env s)) fun _ => 0)
    (hR.not_readOnly hb) (by rw [hoff₁, List.length_map, List.length_map]; omega)
    (by rwa [hR.hashtable, List.length_map, List.length_map])
    (fun x hx => by
      rw [List.map_map, List.mem_map] at hx
      obtain ⟨h, hh, rfl⟩ := hx
      exact ⟨hI.keyLt h (hW.here h hh).1, (hW.holds h hh).size_le⟩)
    (fun hne => by
      rw [Nat.zero_add, List.length_map, List.length_map]
      exact hfit fun he => hne (by rw [he]; rfl))
  refine ⟨_, s', ?_, hR, hrefill⟩
  have hF := hrefill.refilled (by
    rw [hoff₁, writtenBack_length, List.length_map, List.length_map]
    omega)
  have hst' : (s'.blocks b).state = .blkUsed := by rw [hF.state, hR.block_self]
  simp only [gcBlock, gcVictim_eq_none, Option.getD_none, hread, List.nil_append, List.length_nil,
    hoff, Nat.add_zero, hwrite]
  rw [setState_eq_self hst']

/-- A collection of a block with enough invalid pages, on a flash whose pages have at least as many
bytes as its blocks have pages: no invalid page is left, the block holds its header and as many pages
as it had valid buckets, the store can be written again, and nothing is counted elsewhere. -/
theorem gc_reclaims (hdrv : env.NoDriverError) (hI : GcInv env s)
    (hpage : env.pagesPerBlock ≤ env.pageSize)
    (hfull : ∃ b < env.nbBlocks, invalidThreshold ≤ (s.blocks b).nbInvalid) :
    ∃ b s', gcTarget env.toGeometry s = some b ∧ gc env s = .ok s' ∧ (s'.blocks b).nbInvalid = 0 ∧
      (s'.blocks b).currentPageOffset = 1 + (validIn env.toGeometry s b).card ∧
      s'.readOnly = false ∧
      (∀ c, c ≠ b → (s'.blocks c).state = (s.blocks c).state ∧
        (s'.blocks c).worn = (s.blocks c).worn ∧ (s'.blocks c).nbInvalid = (s.blocks c).nbInvalid ∧
        (s'.blocks c).currentPageOffset = (s.blocks c).currentPageOffset) ∧
      (validSlots env.toGeometry s'.hashtable).card =
        (validSlots env.toGeometry s.hashtable).card := by
  obtain ⟨b, ht⟩ : ∃ b, gcTarget env.toGeometry s = some b := by
    obtain ⟨b, hb, hn⟩ := hfull
    rw [← Option.isSome_iff_exists, gcTarget, List.find?_isSome]
    exact ⟨b, List.mem_range.mpr hb, by simpa using hn⟩
  obtain ⟨hb, hn⟩ := gcTarget_some ht
  rw [invalidThreshold] at hn
  have hst := hI.invalid b hb (by omega)
  obtain ⟨hused, hle⟩ := hI.used b hb hst
  have hfit : ((s.blocks b).list.length - 1) * env.pagesPerBlock + env.pageSize ≤
      env.pageSize * env.pagesPerBlock := by
    have h1 : ((s.blocks b).list.length - 1) * env.pagesPerBlock ≤
        (env.pagesPerBlock - 1) * env.pageSize := Nat.mul_le_mul (by omega) hpage
    have h2 : (env.pagesPerBlock - 1) * env.pageSize + env.pageSize =
        env.pageSize * env.pagesPerBlock := by
      rw [← Nat.succ_mul, Nat.succ_eq_add_one, Nat.sub_add_cancel env.pagesPerBlock_pos, Nat.mul_comm]
    omega
  obtain ⟨s₁, s', he, hR, hrefill⟩ := hI.gcBlock_refill hdrv hb (by omega) fun _ => hfit
  have hoff₁ := hR.offset_self
  have hF := hrefill.refilled (by rw [hoff₁, collected_length]; omega)
  rw [collected_length] at hF
  have hW := hI.walk hb
  have hcard := card_droppedAll (fun h hh => (hW.here h hh).1) hW.nodup
  refine ⟨b, s', ht, ?_, ?_, ?_, ?_, fun c hc => ?_, ?_⟩
  · rw [gc, ht]
    exact he
  · rw [hF.nbInvalid, hR.block_self]
  · rw [hF.offset, hoff₁, hI.card_validIn hb]
  · exact hF.readOnly hb (hR.not_readOnly hb) (by rw [hoff₁]; omega)
  · rw [hF.other c hc, hR.block_ne hc]
    refine ⟨droppedAll_state, droppedAll_worn, droppedAll_nbInvalid fun h hh he => ?_,
      droppedAll_offset⟩
    exact hc (he.symm.trans (hW.here h hh).2)
  · rw [hF.card, hR.hashtable]
    exact hcard

/-- Two blocks of as many pages as a page has bytes. -/
def squareGeometry : Geometry := .ofSizes 2 64 64 (by decide)

/-- One pair on a block with 48 invalid pages. -/
theorem gc_reclaims_one : ∃ s', gc (Env.ideal squareGeometry)
      (stocked squareGeometry [(.ofBytes [107], .ofBytes [118])]) = .ok s' ∧
    (s'.blocks 0).nbInvalid = 0 ∧ (s'.blocks 0).currentPageOffset = 2 ∧ s'.readOnly = false := by
  have hI : GcInv (Env.ideal squareGeometry)
      (stocked squareGeometry [(.ofBytes [107], .ofBytes [118])]) :=
    stocked_gcInv (by decide) (by decide) (by decide)
  obtain ⟨b, s', ht, he, hn, ho, hro, -⟩ := gc_reclaims (Env.ideal_noDriverError squareGeometry) hI
    (by decide) ⟨0, by decide, by decide⟩
  obtain rfl : 0 = b := Option.some.inj ht
  rw [hI.card_validIn (by decide)] at ho
  exact ⟨s', he, hn, ho, hro⟩

end LkpProjects.Serial
