import LkpProjects.Serial.Moves
import LkpProjects.Serial.StoreSteps

/-! # The serial store: is `set_keyval` all or nothing?

`set_keyval` frees the key's old page, writes the new one, enters it in the hash table and only then
looks at the code of `write_page`. So a write that the driver refuses has cost the old value, and one
that fills the flash has stored the pair before -3 is returned. This module follows every outcome of
the two page writes (a block without header gets one first, and the code of that write is dropped) to
what `get_keyval` answers afterwards.
-/
namespace LkpProjects.Serial
open Nand Bytes
set_option autoImplicit false

/-! ## What `get_keyval` answers -/

/-- What `get_keyval` copies out of a page, with the two lengths as the `int`s they are. A copy that
leaves the page is no answer. -/
def pageAnswer (g : Geometry) (page : List Byte) (key : CStr) :
    Except Fault (Option (List Byte)) :=
  if strncmpEq (page.drop 8) key then
    let pos := 8 + intOfWord (readLe (mem page) 0)
    let valLen := intOfWord (readLe (mem page) 4)
    if pos < 0 ∨ valLen < 0 ∨ g.pageSize < pos + valLen then .error .overflow
    else .ok (some ((page.drop pos.toNat).take valLen.toNat))
  else .ok none

/-- `get_keyval` on a driver that reads: the value's bytes, or nothing for a negative code. -/
def lookup (env : Env) (s : Config) (key : CStr) : Except Fault (Option (List Byte)) :=
  match hashSearch env.toGeometry s.hashtable key with
  | .error _ => .ok none
  | .ok h =>
      let pageIndex := (s.hashtable h).index
      if (s.blocks (pageIndex / env.pagesPerBlock)).state = .blkUsed then
        pageAnswer env.toGeometry (content env.pageSize s.mtd pageIndex) key
      else .ok none

variable {env : Env} {s s' : Config} {m : CStr → Option CStr} {key val : CStr}

/-- `get_keyval` returns a page index exactly when there is an answer. -/
theorem getKeyval_of_lookup (hread : ∀ p, env.readOk s.mtd p = true) {r : Option (List Byte)}
    (hr : lookup env s key = .ok r) : 0 ≤ (getKeyval env key s).1 ↔ r ≠ none := by
  unfold lookup at hr
  unfold getKeyval
  cases hs : hashSearch env.toGeometry s.hashtable key with
  | error e =>
    simp only [hs] at hr ⊢
    obtain rfl := Except.ok.inj hr
    exact iff_of_false (by decide) (fun h => h rfl)
  | ok h =>
    have hp : (s.hashtable h).pState ≠ .pgFree := by
      rw [(hashSearch_sound hs).2.1]
      decide
    simp only [hs] at hr ⊢
    split_ifs at hr ⊢ with hst
    · simp only [readPage, hread, Bool.true_eq_false, if_false]
      simp only [pageAnswer] at hr
      by_cases hcmp : strncmpEq ((content env.pageSize s.mtd (s.hashtable h).index).drop 8) key
      · rw [if_pos hcmp] at hr ⊢
        split_ifs at hr
        obtain rfl := Except.ok.inj hr
        exact iff_of_true (Int.natCast_nonneg _) (Option.some_ne_none _)
      · rw [if_neg hcmp] at hr ⊢
        obtain rfl := Except.ok.inj hr
        exact iff_of_false (by decide) (fun h => h rfl)
    · obtain rfl := Except.ok.inj hr
      exact iff_of_false (by decide) (fun h => h rfl)

theorem pageAnswer_holds {g : Geometry} {page : List Byte} (hh : Holds g page key val) :
    pageAnswer g page key = .ok (some val.bytes) := by
  have hsize := hh.size_le
  have hlt := g.pageSize_lt
  have hpos : (8 + (key.len : ℤ)).toNat = 8 + key.len := by omega
  have hfit : ¬ (8 + (key.len : ℤ) < 0 ∨ (val.len : ℤ) < 0 ∨
      (g.pageSize : ℤ) < 8 + (key.len : ℤ) + val.len) := by omega
  simp only [pageAnswer, hh.strncmpEq, hh.keyLen_eq, hh.valLen_eq, if_true]
  rw [intOfWord_of_lt (by omega), intOfWord_of_lt (by omega), if_neg hfit, hpos, Int.toNat_natCast,
    hh.val_bytes]

/-- All bytes of the key are ones, as an erased page's are. -/
def AllOnes (key : CStr) : Prop := ∀ c ∈ key.bytes, c = BitVec.allOnes 8

theorem strncmpEq_erased {n : ℕ} (hlen : key.len ≤ n) :
    strncmpEq (erased n) key = true ↔ AllOnes key := by
  have htake : (erased n).take key.len = List.replicate key.len (BitVec.allOnes 8) := by
    rw [erased, List.take_replicate, Nat.min_eq_left hlen]
  rw [strncmpEq, htake, beq_iff_eq, eq_comm, List.eq_replicate_iff]
  exact ⟨fun h => h.2, fun h => ⟨rfl, h⟩⟩

/-- A length read from an erased page is -1. -/
theorem readLe_erased {n pos : ℕ} (hpos : pos + 4 ≤ n) :
    intOfWord (readLe (mem (erased n)) pos) = -1 := by
  have hbyte : ∀ i, i < 4 → mem (erased n) (pos + i) = BitVec.allOnes 8 := by
    intro i hi
    rw [mem, erased, List.getD_replicate _ (by omega)]
  have hword : readLe (mem (erased n)) pos = 2 ^ 32 - 1 := by
    have h0 := hbyte 0 (by omega)
    rw [Nat.add_zero] at h0
    rw [readLe, h0, hbyte 1 (by omega), hbyte 2 (by omega), hbyte 3 (by omega)]
    decide
  rw [hword]
  decide

/-- An erased page answers for such a key only, with a copy that leaves the page. -/
theorem pageAnswer_erased {g : Geometry} (hlen : 8 + key.len ≤ g.pageSize) :
    (AllOnes key → pageAnswer g (erased g.pageSize) key = .error .overflow) ∧
      (¬ AllOnes key → pageAnswer g (erased g.pageSize) key = .ok none) := by
  have hdrop : (erased g.pageSize).drop 8 = erased (g.pageSize - 8) := List.drop_replicate
  have hcmp := @strncmpEq_erased key (g.pageSize - 8) (by omega)
  constructor
  · intro hones
    simp only [pageAnswer, hdrop, hcmp.mpr hones, if_true]
    rw [readLe_erased (by omega), readLe_erased (by omega)]
    exact if_pos (.inr (.inl (by decide)))
  · intro hones
    rw [pageAnswer, hdrop, if_neg (mt hcmp.mp hones)]

/-- A valid bucket of a block in use is found, and its page answers. -/
theorem lookup_valid (htab : TableOk env.toGeometry s.hashtable) {h : ℕ}
    (hv : s.Valid env.toGeometry h)
    (hst : (s.blocks (s.blkOf env.toGeometry h)).state = .blkUsed) :
    lookup env s (s.hashtable h).key = pageAnswer env.toGeometry
      (content env.pageSize s.mtd (s.hashtable h).index) (s.hashtable h).key := by
  rw [Config.blkOf] at hst
  simp only [lookup, (hashSearch_ok_iff htab).mpr ⟨hv.1, hv.2, rfl⟩, if_pos hst]

/-- A key in no valid bucket is not found. -/
theorem lookup_absent (hno : ∀ h, s.Valid env.toGeometry h → (s.hashtable h).key ≠ key) :
    lookup env s key = .ok none := by
  cases hs : hashSearch env.toGeometry s.hashtable key with
  | error e => simp only [lookup, hs]
  | ok h =>
    obtain ⟨hlt, hp, hk⟩ := hashSearch_sound hs
    exact absurd hk (hno h ⟨hlt, hp⟩)

theorem Inv.absent (hI : Inv env s m) (hm : m key = none) :
    ∀ h, s.Valid env.toGeometry h → (s.hashtable h).key ≠ key := by
  intro h hv hk
  obtain ⟨v, hv', -⟩ := hI.stored h hv
  rw [hk, hm] at hv'
  cases hv'

/-- In a configuration that represents a map, `get_keyval` answers from it. -/
theorem Inv.lookup_eq (hI : Inv env s m) (k : CStr) :
    lookup env s k = .ok ((m k).map CStr.bytes) := by
  cases hm : m k with
  | none => exact lookup_absent (hI.absent hm)
  | some v =>
    obtain ⟨h, hv, rfl⟩ := hI.complete k v hm
    obtain ⟨v', hv', hh⟩ := hI.stored h hv
    rw [hm] at hv'
    rw [lookup_valid hI.table hv (hI.blkUsed h hv), pageAnswer_holds hh, Option.some.inj hv']
    rfl

/-! ## Where the record goes -/

section Target
variable (env : Env) (s : Config) (b : ℕ)

/-- The offset of the record in block `b`: behind the header, and in its place if the driver refuses
the header. -/
def recordOffset : ℕ :=
  if 0 < (s.blocks b).currentPageOffset then (s.blocks b).currentPageOffset
  else if env.writeOk s.mtd (b * env.pagesPerBlock) then 1 else 0

def recordPage : ℕ := b * env.pagesPerBlock + recordOffset env s b

/-- The flash just before the record is written. -/
def recordFlash : History :=
  if 0 < (s.blocks b).currentPageOffset then s.mtd
  else if env.writeOk s.mtd (b * env.pagesPerBlock) then
    .program (b * env.pagesPerBlock) (hdrPage env.toGeometry .nandData) :: s.mtd
  else s.mtd

/-- The driver accepts the record. -/
def recordAccepted : Bool := env.writeOk (recordFlash env s b) (recordPage env s b)

/-- The record is the last page of the flash. -/
def RecordFills : Prop :=
  (∀ c < env.nbBlocks, c ≠ b → env.pagesPerBlock ≤ (s.blocks c).currentPageOffset) ∧
    env.pagesPerBlock ≤ recordOffset env s b + 1

instance : Decidable (RecordFills env s b) := by
  unfold RecordFills
  infer_instance

/-- The flash after the attempt to write `buf`. -/
def flashAfter (buf : List Byte) : History :=
  if recordAccepted env s b then .program (recordPage env s b) buf :: recordFlash env s b
  else recordFlash env s b

/-- What the page of the record holds after the attempt to write `buf`. -/
def pageLeft (buf : List Byte) : List Byte :=
  if recordAccepted env s b then clearBits (content env.pageSize s.mtd (recordPage env s b)) buf
  else content env.pageSize s.mtd (recordPage env s b)

end Target

/-- Block `b` has been opened, or tried to. -/
structure Prepared (env : Env) (b : ℕ) (s s' : Config) : Prop where
  hashtable : s'.hashtable = s.hashtable
  mtd : s'.mtd = recordFlash env s b
  offset : (s'.blocks b).currentPageOffset = recordOffset env s b
  state : (s'.blocks b).state =
    if (s.blocks b).currentPageOffset = 0 then .blkUsed else (s.blocks b).state
  other : ∀ c, c ≠ b → s'.blocks c = s.blocks c
  readOnly : s'.readOnly = false

theorem openBlock_prepared {b : ℕ} (hb : b < env.nbBlocks) (hro : s.readOnly = false) :
    Prepared env b s (openBlock env b s) := by
  rcases Nat.eq_zero_or_pos (s.blocks b).currentPageOffset with h0 | hpos
  · have hnot : ¬ 0 < (s.blocks b).currentPageOffset := by omega
    cases hw : env.writeOk s.mtd (b * env.pagesPerBlock) with
    | true =>
      have hO := openBlock_accepted hw hro h0
      refine ⟨hO.hashtable, ?_, ?_, ?_, fun c hc => hO.block_ne hc, hO.not_readOnly hb⟩
      · rw [hO.mtd, recordFlash, if_neg hnot, if_pos hw]
      · rw [hO.block_self, recordOffset, if_neg hnot, if_pos hw]
      · rw [hO.block_self, if_pos h0]
    | false =>
      have hdiv : b * env.pagesPerBlock / env.pagesPerBlock = b :=
        Nat.mul_div_cancel _ env.pagesPerBlock_pos
      have hsame : openBlock env b s = (s.setState b .blkUsed).setState b .blkUsed := by
        rw [openBlock_eq_writeHdr h0, writeHdr, writePage_refused (s := s.setState b .blkUsed) hw hro,
          hdiv]
      have hno : ¬ env.writeOk s.mtd (b * env.pagesPerBlock) = true := by
        rw [hw]
        exact Bool.false_ne_true
      rw [hsame]
      refine ⟨rfl, ?_, ?_, ?_, fun c hc => ?_, hro⟩
      · rw [recordFlash, if_neg hnot, if_neg hno]
        rfl
      · rw [recordOffset, if_neg hnot, if_neg hno]
        simp [Config.setState, h0]
      · rw [if_pos h0]
        simp [Config.setState]
      · rw [Config.setState, Config.modifyBlk_blocks_ne hc, Config.setState,
          Config.modifyBlk_blocks_ne hc]
  · rw [openBlock_eq_self hpos]
    refine ⟨rfl, ?_, ?_, ?_, fun _ _ => rfl, hro⟩
    · rw [recordFlash, if_pos hpos]
    · rw [recordOffset, if_pos hpos]
    · rw [if_neg (by omega)]

/-- The record has been put, or tried to, to the next page of block `b`, and bucket `h` filled. -/
structure Put (env : Env) (key : CStr) (buf : List Byte) (b h : ℕ) (s : Config) (ret : ℤ)
    (s' : Config) : Prop where
  hash : hashAdd env.toGeometry key (recordPage env s b) s.hashtable = .ok (.ok h, s'.hashtable)
  state : ∀ c, (s'.blocks c).state =
    if c = b ∧ (s.blocks b).currentPageOffset = 0 then .blkUsed else (s.blocks c).state
  mtd : s'.mtd = flashAfter env s b buf
  refused : recordAccepted env s b = false → ret = -2
  filled : recordAccepted env s b = true → RecordFills env s b → ret = -1
  done : recordAccepted env s b = true → ¬ RecordFills env s b → ret = 0

theorem recordOffset_lt {b : ℕ} (ho : (s.blocks b).currentPageOffset < env.pagesPerBlock) :
    recordOffset env s b < env.pagesPerBlock := by
  have := env.two_le_pagesPerBlock
  unfold recordOffset
  split_ifs <;> omega

/-- The flash is full behind a write to block `b` exactly if the record fills it. -/
theorem isReadOnly_wrote_iff {b : ℕ} {buf : List Byte} {s₁ : Config} (hb : b < env.nbBlocks)
    (ho : (s.blocks b).currentPageOffset < env.pagesPerBlock) (hP : Prepared env b s s₁) :
    isReadOnly env.toGeometry (s₁.wrote env.toGeometry (recordPage env s b) buf) = true ↔
      RecordFills env s b := by
  have hdiv : recordPage env s b / env.pagesPerBlock = b := Geometry.page_div (recordOffset_lt ho)
  rw [isReadOnly_iff, wrote_blocks, hdiv, RecordFills]
  constructor
  · intro h
    refine ⟨fun c hc hcb => ?_, ?_⟩
    · have := h c hc
      rwa [Function.update_of_ne hcb, hP.other c hcb] at this
    · have := h b hb
      rwa [Function.update_self, hP.offset] at this
  · rintro ⟨hother, hself⟩ c hc
    by_cases hcb : c = b
    · rw [hcb, Function.update_self, hP.offset]
      exact hself
    · rw [Function.update_of_ne hcb, hP.other c hcb]
      exact hother c hc hcb

/-- The store phase behind `invalid_pg`, whatever the driver answers. -/
theorem storeAt_put {buf : List Byte} {ret : ℤ} (hro : s.readOnly = false)
    (he : storeAt env key buf s = .ok (ret, s')) :
    ∃ b h, getHealthyBlock env.toGeometry s = some b ∧ Put env key buf b h s ret s' := by
  obtain ⟨b, p, s₁, h, t, hb, hp, hw, hadd, rfl⟩ := storeAt_cases he
  obtain ⟨hlt, -, ho⟩ := getHealthyBlock_some hb
  have hP := openBlock_prepared hlt hro
  have hstate : ∀ c, ((openBlock env b s).blocks c).state =
      if c = b ∧ (s.blocks b).currentPageOffset = 0 then .blkUsed else (s.blocks c).state := by
    intro c
    by_cases hcb : c = b
    · rw [hcb, hP.state]
      simp only [true_and]
    · rw [hP.other c hcb, if_neg fun h => hcb h.1]
  have hpage : b * env.pagesPerBlock + ((openBlock env b s).blocks b).currentPageOffset =
      recordPage env s b := by rw [hP.offset, recordPage]
  have hoff : ((openBlock env b s).blocks b).currentPageOffset < env.pagesPerBlock := by
    rw [hP.offset]
    exact recordOffset_lt ho
  rw [hpage] at hp
  subst hp
  cases hacc : env.writeOk (recordFlash env s b) (recordPage env s b) with
  | true =>
    rw [writePage_accepted (by rw [hP.mtd]; exact hacc) hP.readOnly] at hw
    obtain ⟨rfl, rfl⟩ := Prod.mk.inj hw
    have hfills := @isReadOnly_wrote_iff env s b buf _ hlt ho hP
    rw [wrote_hashtable, ← hpage] at hadd
    have hS := stored_of_hashAdd buf hoff hadd
    rw [hpage] at hS
    refine ⟨b, h, hb, ?_, fun c => ?_, ?_, fun hno => ?_, fun _ hf => ?_, fun _ hf => ?_⟩
    · rwa [hpage, hP.hashtable] at hadd
    · rw [hS.state, hstate]
    · rw [hS.mtd, hpage, hP.mtd, flashAfter, recordAccepted, hacc, if_pos rfl]
    · rw [recordAccepted, hacc] at hno
      cases hno
    · rw [writeCode, if_pos (hfills.mpr hf)]
    · rw [writeCode, if_neg (mt hfills.mp hf)]
  | false =>
    rw [writePage_refused (by rw [hP.mtd]; exact hacc) hP.readOnly] at hw
    obtain ⟨rfl, rfl⟩ := Prod.mk.inj hw
    rw [hP.hashtable] at hadd
    refine ⟨b, h, hb, hadd, fun c => ?_, ?_, fun _ => rfl, fun hyes => ?_, fun hyes => ?_⟩
    · rw [← hstate, Config.listAdd, Config.modifyBlk_blocks]
      split_ifs with hc
      · rw [hc]
      · rfl
    · rw [flashAfter, recordAccepted, hacc, if_neg Bool.false_ne_true, ← hP.mtd]
      rfl
    · rw [recordAccepted, hacc] at hyes
      cases hyes
    · rw [recordAccepted, hacc] at hyes
      cases hyes

/-! ## What `get_keyval` answers behind the store phase -/

namespace Put
variable {buf : List Byte} {b h : ℕ} {ret : ℤ}

theorem added (hP : Put env key buf b h s ret s') :
    Added env.toGeometry key (recordPage env s b) h s.hashtable s'.hashtable :=
  hashAdd_added hP.hash

theorem valid_iff (hP : Put env key buf b h s ret s') {j : ℕ} :
    s'.Valid env.toGeometry j ↔ j = h ∨ s.Valid env.toGeometry j := by
  have hA := hP.added
  by_cases hj : j = h
  · refine iff_of_true ⟨?_, ?_⟩ (.inl hj)
    · rw [hj]
      exact hA.lt
    · rw [hj, hA.slot]
  · rw [Config.Valid, Config.Valid, (hA.other j hj).1]
    exact ⟨.inr, fun hv => hv.resolve_left hj⟩

/-- A bucket that was valid keeps its key and its page. -/
theorem kept (hP : Put env key buf b h s ret s') {j : ℕ} (hv : s.Valid env.toGeometry j) :
    (s'.hashtable j).key = (s.hashtable j).key ∧
      (s'.hashtable j).index = (s.hashtable j).index := by
  have hA := hP.added
  have hj : j ≠ h := by
    rintro rfl
    rw [Config.Valid, hA.wasFree] at hv
    cases hv.2
  exact ⟨(hA.other j hj).2.1, (hA.other j hj).2.2.1⟩

theorem blkUsed (hP : Put env key buf b h s ret s') {c : ℕ} (hc : (s.blocks c).state = .blkUsed) :
    (s'.blocks c).state = .blkUsed := by
  rw [hP.state]
  split_ifs
  · rfl
  · exact hc

/-- With the key in no bucket before, `hash_add` leaves a well-placed table. -/
theorem table (hP : Put env key buf b h s ret s') (hI : Inv env s m) (hb : b < env.nbBlocks)
    (ho : (s.blocks b).currentPageOffset < env.pagesPerBlock) (hm : m key = none) :
    TableOk env.toGeometry s'.hashtable := by
  have htwo := env.two_le_pagesPerBlock
  -- a page of block `b`, not its header page, that no bucket has
  have hfree : ∃ o, 0 < o ∧ (s.blocks b).currentPageOffset ≤ o ∧ o < env.pagesPerBlock :=
    ⟨max (s.blocks b).currentPageOffset 1, by omega, by omega, by omega⟩
  obtain ⟨o, hpos, hle, hlt⟩ := hfree
  have hcard := hI.card_validSlots (Geometry.page_lt hb hlt) (by omega) fun j hv he => by
    have := hI.offsetLt j hv
    rw [Config.blkOf, he, Geometry.page_div hlt, Geometry.page_mod hlt] at this
    omega
  obtain ⟨h', t, he, -, ht⟩ := @hashAdd_ok env.toGeometry _ key hI.table
    (recordPage env s b) (hashAdd_keyLt hP.hash) (fun j hj hp => hI.absent hm j ⟨hj, hp⟩) hcard
  obtain ⟨-, rfl⟩ := Prod.mk.inj (Except.ok.inj (he.symm.trans hP.hash))
  exact ht

/-- The page of a bucket that was valid is neither the header page nor the record's. -/
theorem content_kept (hP : Put env key buf b h s ret s') (hI : Inv env s m)
    (ho : (s.blocks b).currentPageOffset < env.pagesPerBlock) {j : ℕ}
    (hv : s.Valid env.toGeometry j) :
    content env.pageSize s'.mtd (s.hashtable j).index =
      content env.pageSize s.mtd (s.hashtable j).index := by
  have hoff := hI.offsetLt j hv
  have hhdr : (s.hashtable j).index ≠ b * env.pagesPerBlock := by
    intro he
    have := hI.offsetPos j hv
    rw [he, Nat.mul_mod_left] at this
    omega
  have hrec : (s.hashtable j).index ≠ recordPage env s b := by
    intro he
    rw [Config.blkOf, he, recordPage, Geometry.page_div (recordOffset_lt ho),
      Geometry.page_mod (recordOffset_lt ho), recordOffset] at hoff
    split_ifs at hoff <;> omega
  have hflash : content env.pageSize (recordFlash env s b) (s.hashtable j).index =
      content env.pageSize s.mtd (s.hashtable j).index := by
    unfold recordFlash
    split_ifs
    · rfl
    · exact content_program_ne hhdr
    · rfl
  rw [hP.mtd, flashAfter]
  split_ifs
  · rw [content_program_ne hrec, hflash]
  · exact hflash

/-- Every other key is answered as before. -/
theorem lookup_ne (hP : Put env key buf b h s ret s') (hI : Inv env s m) (hb : b < env.nbBlocks)
    (ho : (s.blocks b).currentPageOffset < env.pagesPerBlock) (hm : m key = none) {k : CStr}
    (hk : k ≠ key) : lookup env s' k = .ok ((m k).map CStr.bytes) := by
  have htab := hP.table hI hb ho hm
  cases hmk : m k with
  | none =>
    refine lookup_absent fun j hv hjk => ?_
    rcases hP.valid_iff.mp hv with rfl | hv
    · rw [hP.added.slot] at hjk
      exact hk hjk.symm
    · rw [(hP.kept hv).1] at hjk
      exact hI.absent hmk j hv hjk
  | some v =>
    obtain ⟨j, hv, rfl⟩ := hI.complete k v hmk
    obtain ⟨v', hv', hh⟩ := hI.stored j hv
    obtain ⟨hkey, hindex⟩ := hP.kept hv
    have hblk : s'.blkOf env.toGeometry j = s.blkOf env.toGeometry j := by
      rw [Config.blkOf, hindex, Config.blkOf]
    have hused := hP.blkUsed (hI.blkUsed j hv)
    rw [hmk] at hv'
    rw [← hkey, lookup_valid htab (hP.valid_iff.mpr (.inr hv)) (by rwa [hblk]), hkey, hindex,
      hP.content_kept hI ho hv, pageAnswer_holds hh, Option.some.inj hv']
    rfl

/-- The key is answered from the page that the record was to go to, if the block is in use. -/
theorem lookup_self (hP : Put env key buf b h s ret s') (hI : Inv env s m) (hb : b < env.nbBlocks)
    (ho : (s.blocks b).currentPageOffset < env.pagesPerBlock) (hm : m key = none) :
    lookup env s' key =
      if (s'.blocks b).state = .blkUsed then
        pageAnswer env.toGeometry (content env.pageSize s'.mtd (recordPage env s b)) key
      else .ok none := by
  have htab := hP.table hI hb ho hm
  have hv : s'.Valid env.toGeometry h := hP.valid_iff.mpr (.inl rfl)
  have hslot := hP.added.slot
  have hkey : (s'.hashtable h).key = key := by rw [hslot]
  have hindex : (s'.hashtable h).index = recordPage env s b := by rw [hslot]
  have hdiv : recordPage env s b / env.pagesPerBlock = b := Geometry.page_div (recordOffset_lt ho)
  simp only [lookup, (hashSearch_ok_iff htab).mpr ⟨hv.1, hv.2, hkey⟩, hindex, hdiv]

/-- What the record's page holds in the end. -/
theorem content_self (hP : Put env key buf b h s ret s') :
    content env.pageSize s'.mtd (recordPage env s b) = pageLeft env s b buf := by
  have hflash : content env.pageSize (recordFlash env s b) (recordPage env s b) =
      content env.pageSize s.mtd (recordPage env s b) := by
    unfold recordFlash
    split_ifs with hpos hw
    · rfl
    · refine content_program_ne ?_
      rw [recordPage, recordOffset, if_neg hpos, if_pos hw]
      omega
    · rfl
  rw [hP.mtd, flashAfter, pageLeft, ← hflash]
  split_ifs
  · exact if_pos rfl
  · rfl

/-- 0 is returned exactly for a record that the driver accepts and that does not fill the flash. -/
theorem setCode_eq_zero_iff (hP : Put env key buf b h s ret s') :
    setCode ret = 0 ↔ recordAccepted env s b = true ∧ ¬ RecordFills env s b := by
  cases hacc : recordAccepted env s b with
  | false =>
    rw [hP.refused hacc]
    exact iff_of_false (by decide) fun h => Bool.false_ne_true h.1
  | true =>
    by_cases hf : RecordFills env s b
    · rw [hP.filled hacc hf]
      exact iff_of_false (by decide) fun h => h.2 hf
    · rw [hP.done hacc hf]
      exact iff_of_true (by decide) ⟨rfl, hf⟩

end Put

/-! ## All or nothing -/

/-- The outcome of `set_keyval`: with code 0 the map has gained the pair, with any other code it is
the map before. The map is what `get_keyval` answers. -/
def AllOrNothing (env : Env) (m : CStr → Option CStr) (key val : CStr) (ret : ℤ) (s' : Config) :
    Prop :=
  (ret = 0 → ∀ k, lookup env s' k = .ok ((Function.update m key (some val) k).map CStr.bytes)) ∧
    (ret ≠ 0 → ∀ k, lookup env s' k = .ok ((m k).map CStr.bytes))

/-- With every other key answered as before, the key itself decides. -/
theorem allOrNothing_iff_lookup {ret : ℤ}
    (hne : ∀ k, k ≠ key → lookup env s' k = .ok ((m k).map CStr.bytes)) :
    AllOrNothing env m key val ret s' ↔
      lookup env s' key = .ok (if ret = 0 then some val.bytes else (m key).map CStr.bytes) := by
  by_cases hret : ret = 0
  · rw [if_pos hret]
    constructor
    · intro h
      have := h.1 hret key
      rwa [Function.update_self] at this
    · refine fun h => ⟨fun _ k => ?_, fun hno => absurd hret hno⟩
      by_cases hk : k = key
      · rw [hk, Function.update_self]
        exact h
      · rw [Function.update_of_ne hk]
        exact hne k hk
  · rw [if_neg hret]
    constructor
    · exact fun h => h.2 hret key
    · refine fun h => ⟨fun hyes => absurd hyes hret, fun _ k => ?_⟩
      by_cases hk : k = key
      · rw [hk]
        exact h
      · exact hne k hk

/-- What the driver's answers and the block must be for the attempt on block `b` to be all or
nothing. -/
structure PutOk (env : Env) (m : CStr → Option CStr) (key val : CStr) (s : Config) (b : ℕ) : Prop where
  /-- A record that fills the flash must be the one that is there already. A refused one must not
  replace another, and its bucket points to an erased page. -/
  data : (s.blocks b).state ≠ .blkMeta →
    (recordAccepted env s b = true → RecordFills env s b → m key = some val) ∧
      (recordAccepted env s b = false → m key = none ∧ ¬ AllOnes key)
  /-- `get_keyval` finds nothing in a metadata block. -/
  metaOpen : (s.blocks b).state = .blkMeta → 0 < (s.blocks b).currentPageOffset →
    m key = none ∧ (recordAccepted env s b = true → RecordFills env s b)
  /-- A metadata block at offset 0 becomes a data block, with old metadata on its pages. -/
  metaEmpty : (s.blocks b).state = .blkMeta → (s.blocks b).currentPageOffset = 0 →
    pageAnswer env.toGeometry (pageLeft env s b (record env.toGeometry key val)) key =
      .ok (if recordAccepted env s b = true ∧ ¬ RecordFills env s b then some val.bytes
        else (m key).map CStr.bytes)

theorem map_bytes_eq {o : Option CStr} : some val.bytes = o.map CStr.bytes ↔ o = some val := by
  cases o with
  | none => exact iff_of_false (Option.some_ne_none _) (Option.some_ne_none _).symm
  | some v =>
    rw [Option.map_some, Option.some.injEq, Option.some.injEq]
    constructor
    · exact fun h => (CStr.eq_of_bytes h).symm
    · rintro rfl
      rfl

theorem none_eq_map_bytes {o : Option CStr} : none = o.map CStr.bytes ↔ o = none := by
  rw [eq_comm, Option.map_eq_none_iff]

/-- A page behind the offset of a data block takes the record as it is, or stays erased. -/
theorem Inv.pageLeft_eq (hI : Inv env s m) {b : ℕ} {buf : List Byte} (hb : b < env.nbBlocks)
    (ho : (s.blocks b).currentPageOffset < env.pagesPerBlock) (hst : (s.blocks b).state ≠ .blkMeta)
    (hbuf : buf.length = env.pageSize) :
    pageLeft env s b buf = if recordAccepted env s b then buf else erased env.pageSize := by
  have hle : (s.blocks b).currentPageOffset ≤ recordOffset env s b := by
    unfold recordOffset
    split_ifs <;> omega
  have hfresh := hI.fresh b hb hst _ hle (recordOffset_lt ho)
  rw [pageLeft, recordPage, content_of_not_programmed hfresh]
  split_ifs
  · exact clearBits_erased hbuf.le
  · rfl

theorem Put.allOrNothing_iff {b h : ℕ} {ret : ℤ} (hI : Inv env s (Function.update m key none))
    (hb : getHealthyBlock env.toGeometry s = some b)
    (hsize : 8 + key.len + val.len ≤ env.pageSize)
    (hP : Put env key (record env.toGeometry key val) b h s ret s') :
    AllOrNothing env m key val (setCode ret) s' ↔ PutOk env m key val s b := by
  obtain ⟨hlt, hinv, ho⟩ := getHealthyBlock_some hb
  have hm : Function.update m key none key = none := Function.update_self ..
  have hh := record_holds hsize
  have hstate : (s'.blocks b).state =
      if (s.blocks b).currentPageOffset = 0 then .blkUsed else (s.blocks b).state := by
    rw [hP.state]
    simp only [true_and]
  have hself := hP.lookup_self hI hlt ho hm
  rw [hstate, hP.content_self] at hself
  rw [allOrNothing_iff_lookup fun k hk => by
    rw [hP.lookup_ne hI hlt ho hm hk, Function.update_of_ne hk]]
  simp only [hP.setCode_eq_zero_iff]
  by_cases hmeta : (s.blocks b).state = .blkMeta
  · rcases Nat.eq_zero_or_pos (s.blocks b).currentPageOffset with h0 | hpos
    · rw [if_pos h0, if_pos rfl] at hself
      rw [hself]
      exact ⟨fun h => ⟨fun hne => absurd hmeta hne, fun _ hp => by omega, fun _ _ => h⟩,
        fun h => h.metaEmpty hmeta h0⟩
    · rw [if_neg (Nat.ne_of_gt hpos), hmeta, if_neg (by decide)] at hself
      rw [hself, Except.ok.injEq]
      constructor
      · intro h
        split_ifs at h with hdone
        have hnone := none_eq_map_bytes.mp h
        exact ⟨fun hne => absurd hmeta hne,
          fun _ _ => ⟨hnone, fun hacc => by_contra fun hf => hdone ⟨hacc, hf⟩⟩,
          fun _ h0 => by omega⟩
      · intro h
        obtain ⟨hnone, hfills⟩ := h.metaOpen hmeta hpos
        rw [if_neg fun hdone => hdone.2 (hfills hdone.1), hnone, Option.map_none]
  · have hused : (if (s.blocks b).currentPageOffset = 0 then BlkState.blkUsed
        else (s.blocks b).state) = .blkUsed := by
      split_ifs with h0
      · rfl
      · exact (hI.state_cases hlt hmeta).resolve_left fun hf => h0 (hI.free b hlt hf).1
    rw [hused, if_pos rfl, hI.pageLeft_eq hlt ho hmeta hh.length] at hself
    rw [hself]
    have hiff : PutOk env m key val s b ↔
        (recordAccepted env s b = true → RecordFills env s b → m key = some val) ∧
          (recordAccepted env s b = false → m key = none ∧ ¬ AllOnes key) :=
      ⟨fun h => h.data hmeta, fun h => ⟨fun _ => h, fun hm' => absurd hm' hmeta,
        fun hm' => absurd hm' hmeta⟩⟩
    rw [hiff]
    cases hacc : recordAccepted env s b with
    | true =>
      rw [if_pos rfl, pageAnswer_holds hh, Except.ok.injEq]
      by_cases hf : RecordFills env s b
      · simpa only [hf, not_true_eq_false, and_false, if_false, true_implies, reduceCtorEq,
          false_implies, and_true] using map_bytes_eq
      · simp [hf]
    | false =>
      rw [if_neg Bool.false_ne_true]
      obtain ⟨hones, hno⟩ := @pageAnswer_erased key env.toGeometry (by omega)
      by_cases hk : AllOnes key
      · simp [hones hk, hk]
      · simp [hno hk, hk]

/-! ## The theorem -/

section Dropped
variable (h b : ℕ) (g : Geometry)

theorem getHealthyBlock_dropped : getHealthyBlock g (s.dropped g h) = getHealthyBlock g s := by
  simp [getHealthyBlock]

theorem recordOffset_dropped :
    recordOffset env (s.dropped env.toGeometry h) b = recordOffset env s b := by
  rw [recordOffset, recordOffset, dropped_offset, dropped_mtd]

theorem recordFlash_dropped :
    recordFlash env (s.dropped env.toGeometry h) b = recordFlash env s b := by
  rw [recordFlash, recordFlash, dropped_offset, dropped_mtd]

theorem recordAccepted_dropped :
    recordAccepted env (s.dropped env.toGeometry h) b = recordAccepted env s b := by
  rw [recordAccepted, recordFlash_dropped, recordPage, recordOffset_dropped]
  rfl

theorem recordFills_dropped :
    RecordFills env (s.dropped env.toGeometry h) b ↔ RecordFills env s b := by
  simp [RecordFills, recordOffset_dropped]

theorem pageLeft_dropped (buf : List Byte) :
    pageLeft env (s.dropped env.toGeometry h) b buf = pageLeft env s b buf := by
  rw [pageLeft, recordAccepted_dropped, recordPage, recordOffset_dropped, dropped_mtd]
  rfl

theorem putOk_dropped :
    PutOk env m key val (s.dropped env.toGeometry h) b ↔ PutOk env m key val s b := by
  constructor <;> intro hp <;> refine ⟨?_, ?_, ?_⟩
  · simpa [recordAccepted_dropped, recordFills_dropped] using hp.data
  · simpa [recordAccepted_dropped, recordFills_dropped] using hp.metaOpen
  · simpa [recordAccepted_dropped, recordFills_dropped, pageLeft_dropped] using hp.metaEmpty
  · simpa [recordAccepted_dropped, recordFills_dropped] using hp.data
  · simpa [recordAccepted_dropped, recordFills_dropped] using hp.metaOpen
  · simpa [recordAccepted_dropped, recordFills_dropped, pageLeft_dropped] using hp.metaEmpty

end Dropped

/-- When `set_keyval` is all or nothing: it refuses the pair before it does anything, or the attempt on
the block that `get_healthy_block` picks is. -/
def SetOk (env : Env) (m : CStr → Option CStr) (key val : CStr) (s : Config) : Prop :=
  env.pageSize < key.len + val.len + 8 ∨ s.readOnly = true ∨
    ∀ b, getHealthyBlock env.toGeometry s = some b → PutOk env m key val s b

theorem storePhase_allOrNothing_iff (hI : Inv env s m) {ret : ℤ} (hro : s.readOnly = false)
    (hsize : 8 + key.len + val.len ≤ env.pageSize)
    (he : storePhase env key val s = .ok (ret, s')) :
    AllOrNothing env m key val (setCode ret) s' ↔
      ∀ b, getHealthyBlock env.toGeometry s = some b → PutOk env m key val s b := by
  obtain ⟨s₁, h₁, hI₁, hs₁⟩ := hI.invalidOld key
  simp only [storePhase, h₁] at he
  rcases hs₁ with rfl | ⟨h, -, rfl⟩
  · obtain ⟨b, h, hb, hP⟩ := storeAt_put hro he
    rw [hP.allOrNothing_iff hI₁ hb hsize]
    constructor
    · intro hok c hc
      obtain rfl := Option.some.inj (hb.symm.trans hc)
      exact hok
    · exact fun hall => hall b hb
  · obtain ⟨b, j, hb, hP⟩ := storeAt_put (s := s.dropped env.toGeometry h) hro he
    rw [hP.allOrNothing_iff hI₁ hb hsize, putOk_dropped]
    rw [getHealthyBlock_dropped] at hb
    constructor
    · intro hok c hc
      obtain rfl := Option.some.inj (hb.symm.trans hc)
      exact hok
    · exact fun hall => hall b hb

/-- `set_keyval`, its garbage collection and its timed flush not triggered, is all or nothing exactly
when it refuses the pair at once or the attempt on the block is. -/
theorem setKeyval_allOrNothing_iff (hI : Inv env s m) {ret : ℤ}
    (hgc : ∀ ret₁ s₁, storePhase env key val s = .ok (ret₁, s₁) → gcTarget env.toGeometry s₁ = none)
    (he : setKeyval env key val false s = .ok (ret, s')) :
    AllOrNothing env m key val ret s' ↔ SetOk env m key val s := by
  have hsame : ∀ {ret : ℤ}, ret ≠ 0 → AllOrNothing env m key val ret s :=
    fun hret => ⟨fun h => absurd h hret, fun _ k => hI.lookup_eq k⟩
  rcases setKeyval_cases he with ⟨hbig, rfl, rfl⟩ | ⟨hro, rfl, rfl⟩ |
    ⟨ret₁, s₁, s₂, hsize, hro, hstore, hgc₂, hflush, rfl⟩
  · exact iff_of_true (hsame (by decide)) (.inl hbig)
  · exact iff_of_true (hsame (by decide)) (.inr (.inl hro))
  · rw [gc, hgc ret₁ s₁ hstore] at hgc₂
    obtain rfl := Except.ok.inj hgc₂
    obtain ⟨-, rfl⟩ | ⟨hno, -⟩ := timedFlush_cases hflush
    · rw [storePhase_allOrNothing_iff hI hro (by omega) hstore, SetOk, hro]
      constructor
      · exact fun h => .inr (.inr h)
      · exact fun h => (h.resolve_left (by omega)).resolve_left Bool.false_ne_true
    · cases hno

/-- The value of a key that is there is replaced, and `get_keyval` finds it. -/
theorem setKeyval_allOrNothing_replace :
    ∃ s m s', Inv (.ideal tinyGeometry) s m ∧ m (.ofBytes [107]) = some (.ofBytes [118]) ∧
      setKeyval (.ideal tinyGeometry) (.ofBytes [107]) (.ofBytes [119]) false s = .ok (0, s') ∧
      AllOrNothing (.ideal tinyGeometry) m (.ofBytes [107]) (.ofBytes [119]) 0 s' ∧
      0 ≤ (getKeyval (.ideal tinyGeometry) (.ofBytes [107]) s').1 := by
  have hI := format_inv (.ideal tinyGeometry) (s := .blank []) rfl
  obtain ⟨-, -, s, -, -, hs, hI⟩ := @Inv.storeAt _ _ _ hI (Env.ideal_noDriverError _)
    (.ofBytes [107]) (.ofBytes [118]) _ 0 rfl rfl (by decide) (by decide) (record_holds (by decide)) rfl
  have hfinal : storeAt (.ideal tinyGeometry) (.ofBytes [107])
      (record tinyGeometry (.ofBytes [107]) (.ofBytes [118])) (Env.ideal tinyGeometry).start =
        .ok (0, final (.ideal tinyGeometry)
          [.set (.ofBytes [107]) (.ofBytes [118]) false] (Env.ideal tinyGeometry).start) := rfl
  obtain ⟨-, rfl⟩ := Prod.mk.inj (Except.ok.inj (hs.symm.trans hfinal))
  obtain ⟨s', he⟩ : ∃ s', setKeyval (.ideal tinyGeometry) (.ofBytes [107]) (.ofBytes [119]) false
      (final (.ideal tinyGeometry) [.set (.ofBytes [107]) (.ofBytes [118]) false]
        (Env.ideal tinyGeometry).start) = .ok (0, s') := ⟨_, rfl⟩
  have hall := (setKeyval_allOrNothing_iff hI (fun ret₁ s₁ h₁ => by
    obtain ⟨rfl, rfl⟩ := Prod.mk.inj (Except.ok.inj h₁)
    rfl) he).mpr (.inr (.inr fun b hb => by
      obtain rfl : 0 = b := Option.some.inj hb
      refine ⟨fun _ => ⟨fun _ hfull => absurd hfull (by decide), fun h => absurd h (by decide)⟩,
        fun h => ?_, fun h => ?_⟩
      · exact absurd h (by decide)
      · exact absurd h (by decide)))
  refine ⟨_, _, s', hI, Function.update_self .., he, hall, ?_⟩
  refine (getKeyval_of_lookup (fun _ => rfl) (hall.1 rfl _)).mpr ?_
  rw [Function.update_self]
  exact Option.some_ne_none _

/-- A driver that refuses every write from its `n`th operation on. -/
def Env.refusesFrom (g : Geometry) (n : ℕ) : Env :=
  { Env.ideal g with writeOk := fun h _ => decide (h.length < n) }

/-- Erase, header and first record are accepted. The write of a new value of the key is refused, and
the old value is gone. -/
theorem refused_write_loses_value :
    ∃ s m s', Inv (.refusesFrom tinyGeometry 3) s m ∧
      (∀ ret₁ s₁, storePhase (.refusesFrom tinyGeometry 3) (.ofBytes [107]) (.ofBytes [119]) s =
        .ok (ret₁, s₁) → gcTarget tinyGeometry s₁ = none) ∧
      setKeyval (.refusesFrom tinyGeometry 3) (.ofBytes [107]) (.ofBytes [119]) false s =
        .ok (-4, s') ∧
      ¬ AllOrNothing (.refusesFrom tinyGeometry 3) m (.ofBytes [107]) (.ofBytes [119]) (-4) s' := by
  have hI := format_inv (.ideal tinyGeometry) (s := .blank []) rfl
  obtain ⟨-, -, s, -, -, hs, hI⟩ := @Inv.storeAt _ _ _ hI (Env.ideal_noDriverError _)
    (.ofBytes [107]) (.ofBytes [118]) _ 0 rfl rfl (by decide) (by decide) (record_holds (by decide)) rfl
  -- the same configuration, reached with the driver that will refuse the next write
  have hfinal : storeAt (.ideal tinyGeometry) (.ofBytes [107])
      (record tinyGeometry (.ofBytes [107]) (.ofBytes [118])) (Env.ideal tinyGeometry).start =
        .ok (0, final (.refusesFrom tinyGeometry 3)
          [.set (.ofBytes [107]) (.ofBytes [118]) false] (Env.ideal tinyGeometry).start) := rfl
  obtain ⟨-, rfl⟩ := Prod.mk.inj (Except.ok.inj (hs.symm.trans hfinal))
  refine ⟨_, _, _, { hI with }, ?_, rfl, fun hall => ?_⟩
  · intro ret₁ s₁ h₁
    obtain ⟨rfl, rfl⟩ := Prod.mk.inj (Except.ok.inj h₁)
    rfl
  · have hk := hall.2 (by decide) (.ofBytes [107])
    rw [Function.update_self] at hk
    exact absurd hk (by decide +kernel)

end LkpProjects.Serial
