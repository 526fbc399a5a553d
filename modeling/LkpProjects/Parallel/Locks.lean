import LkpProjects.Parallel.Store
import LkpProjects.Library.Stepwise

/-! # The parallel store: lock balance

Every function but `set_keyval` leaves the three locks as it found them, whatever state it starts in
(`Keeps`). `set_keyval` returns with `erase_lock` held in two cases: the pair is too big, or
`get_next_block_to_write` has returned -1. `LeavesLock` says on the state before the call when this is.
-/
namespace LkpProjects.Parallel
open Nand Bytes Hoare Stepwise
open Serial (Geometry HdrKind GcRead)
set_option autoImplicit false

variable {α β : Type} {env : Env} {s s' : Config} {l : Lock} {need : List Lock}

/-! ## Functions that keep the locks -/

/-- A run of `m` that returns leaves the locks as they were, and with the locks in `need` free it waits
for no lock (`hangs` is false). -/
def Keeps (need : List Lock) (m : Kernel α) : Prop :=
  ∀ (hangs : Prop) (s : Config), (hangs ∨ ∀ l ∈ need, s.locks l = false) →
    wp m (fun _ s' => s'.locks = s.locks) (fun f => f = .hang → hangs) s

namespace Keeps
variable {m : Kernel α}

theorem weaken {need' : List Lock} (h : Keeps need m) (hsub : need ⊆ need') : Keeps need' m :=
  fun hangs s hs => h hangs s (hs.imp id fun hl l hm => hl l (hsub hm))

theorem pure (a : α) : Keeps need (Pure.pure a : Kernel α) := fun _ _ _ => rfl

theorem throw {f : Fault} (hf : f ≠ .hang) : Keeps need (MonadExcept.throw f : Kernel α) :=
  fun _ _ _ h => absurd h hf

theorem update {f : Config → Config} (hf : ∀ s, (f s).locks = s.locks) :
    Keeps need (modify f : Kernel PUnit) := fun _ s _ => hf s

theorem bind {k : α → Kernel β} (h : Keeps need m) (hk : ∀ a, Keeps need (k a)) :
    Keeps need (m >>= k) := by
  intro hangs s hs
  refine (h hangs s hs).bind fun a s₁ h₁ => ?_
  rw [← h₁] at hs
  exact (hk a hangs s₁ hs).post fun _ _ h₂ => h₂.trans h₁

theorem get {k : Config → Kernel β} (hk : ∀ s, Keeps need (k s)) :
    Keeps need (MonadState.get >>= k) := fun hangs s hs => wp_bind.mpr (hk s hangs s hs)

theorem ite {c : Prop} [Decidable c] {m' : Kernel α} (h : Keeps need m) (h' : Keeps need m') :
    Keeps need (if c then m else m') := by
  split
  · exact h
  · exact h'

/-- What runs with the lock held, started where it is free, gives it back. -/
theorem held {k : α → Kernel β} {hangs : Prop} (h : Keeps need m) (hk : ∀ a, Keeps need (k a))
    (hl : l ∉ need) (hfree : s.locks l = false) (hs : hangs ∨ ∀ l' ∈ need, s.locks l' = false) :
    wp (m >>= fun a => spinUnlock l >>= fun _ => k a) (fun _ s' => s'.locks = s.locks)
      (fun f => f = .hang → hangs) (s.lock l true) := by
  have hs₁ : hangs ∨ ∀ l' ∈ need, (s.lock l true).locks l' = false :=
    hs.imp id fun hn l' hl' => by
      have hne : l' ≠ l := fun he => hl (he ▸ hl')
      rw [lock_locks, Function.update_of_ne hne]
      exact hn l' hl'
  refine (h hangs _ hs₁).bind fun a s₁ h₁ => ?_
  have hback := lock_unlock hfree h₁
  rw [wp_bind, spinUnlock, wp_modify]
  exact (hk a hangs _ (by rwa [hback])).post fun _ _ h₂ => h₂.trans hback

/-- A region behind `spin_lock_irqsave`, and what follows its end. -/
theorem locked {k : α → Kernel β} (h : Keeps need m) (hk : ∀ a, Keeps need (k a)) (hl : l ∉ need) :
    Keeps (l :: need) (spinLock l >>= fun _ => m >>= fun a => spinUnlock l >>= fun _ => k a) := by
  intro hangs s hs
  rw [wp_bind, wp_spinLock]
  constructor
  · intro hheld _
    refine hs.resolve_right fun hfree => ?_
    rw [hfree l List.mem_cons_self] at hheld
    cases hheld
  · intro hfree
    exact held h hk hl hfree (hs.imp id fun hn l' hl' => hn l' (.tail _ hl'))

/-- A region behind `spin_trylock`, which does not wait. -/
theorem tryLocked {k : α → Kernel β} {k' : Kernel β} (h : Keeps need m) (hk : ∀ a, Keeps need (k a))
    (hk' : Keeps need k') (hl : l ∉ need) :
    Keeps need (spinTrylock l >>= fun b =>
      if b = true then m >>= fun a => spinUnlock l >>= fun _ => k a else k') := by
  intro hangs s hs
  rw [wp_bind, wp_spinTrylock]
  exact ⟨fun _ => hk' hangs s hs, fun hfree => held h hk hl hfree hs⟩

/-- With its locks free, a function waits for none. -/
theorem no_hang (h : Keeps need m) (hfree : ∀ l ∈ need, s.locks l = false) : m s ≠ .error .hang :=
  fun he => (h False s (.inr hfree)).of_error he rfl

/-- The locks after a call that returned. -/
theorem locks_eq (h : Keeps need m) {a : α} (he : m s = .ok (a, s')) : s'.locks = s.locks :=
  (h True s (.inl trivial)).of_ok he

theorem withLock (h : Keeps need m) (hl : l ∉ need) : Keeps (l :: need) (withLock l m) :=
  locked h (fun a => .pure a) hl

end Keeps

/-! ## One lemma for each function -/

theorem writeFlash_keeps (p : ℕ) (buf : List Byte) : Keeps [.listLock] (writeFlash env p buf) := by
  refine .get fun s => .ite (.pure _) (.ite (.throw nofun) (.ite (.throw nofun) ?_))
  exact .bind (.withLock (.update fun _ => rfl) List.not_mem_nil) fun _ => .pure _

theorem writePage_keeps (p : ℕ) (buf : List Byte) :
    Keeps [.oneLock, .listLock] (writePage env p buf) := by
  refine .withLock (.bind (writeFlash_keeps p buf) fun ret => .get fun s => .ite ?_ (.pure _)) (by decide)
  exact .bind (.update fun _ => rfl) fun _ => .pure _

theorem readPage_keeps (p : ℕ) : Keeps [.oneLock] (readPage env p) :=
  .withLock (.get fun _ => .ite (.throw nofun) (.pure _)) List.not_mem_nil

theorem writeHdr_keeps (p : ℕ) (k : HdrKind) : Keeps [.oneLock, .listLock] (writeHdr env p k) := by
  refine .get fun s => .ite (.pure _) (.ite (.throw nofun) (.bind (writePage_keeps _ _) fun ret => ?_))
  exact .bind (.update fun _ => rfl) fun _ => .pure _

theorem formatSingle_keeps (b : ℕ) : Keeps [.listLock] (formatSingle env b) := by
  refine .get fun s => ?_
  split
  · refine .bind (.update fun _ => rfl) fun _ => ?_
    refine .bind (.withLock (.update fun _ => rfl) List.not_mem_nil) fun _ => ?_
    exact .bind (.update fun _ => rfl) fun _ => .pure _
  · exact .pure _

theorem format_keeps : Keeps [.eraseLock, .listLock] (format env) := by
  refine .withLock (.get fun s => ?_) (by decide)
  split
  · refine .bind (.update fun _ => rfl) fun _ => ?_
    refine .bind (.withLock (.update fun _ => rfl) List.not_mem_nil) fun _ => ?_
    exact .bind (.update fun _ => rfl) fun _ => .pure _
  · exact .throw nofun

theorem checkOrder_keeps (n : ℕ) : Keeps need (checkOrder n) := .ite (.throw nofun) (.pure _)

theorem getNextBlockToWrite_keeps : Keeps [.listLock, .oneLock] (getNextBlockToWrite env) := by
  refine .bind (.withLock (.bind (checkOrder_keeps _) fun _ => .get fun _ => .pure _) (by decide))
    fun target => ?_
  cases target with
  | none => exact .pure _
  | some b =>
    refine .bind (.update fun _ => rfl) fun _ => .get fun s => .ite ?_ (.pure _)
    exact (writeHdr_keeps _ _).weaken (by decide)

theorem hashAdd_keeps (g : Geometry) (key : CStr) (index : ℕ) : Keeps need (hashAdd g key index) :=
  .ite (.throw nofun) (.get fun _ => .bind (.update fun _ => rfl) fun _ => .pure _)

theorem invalidPg_keeps (g : Geometry) (h : ℕ) : Keeps need (invalidPg g h) :=
  .get fun _ => .ite (.throw nofun) (.ite (.throw nofun) (.update fun _ => rfl))

/-! ## `gc` -/

theorem gcReadOne_keeps (r : GcRead) (h : ℕ) : Keeps [.oneLock] (gcReadOne env r h) := by
  refine .get fun s => .bind (readPage_keeps _) fun page => .ite (.throw nofun) (.get fun s => ?_)
  split
  · exact .throw nofun
  · exact .bind (invalidPg_keeps _ _) fun _ => .pure _

theorem gcRead_keeps (target fuel : ℕ) (r : GcRead) (slots : List ℕ) :
    Keeps [.oneLock] (gcRead env target fuel r slots) := by
  induction fuel generalizing r slots with
  | zero => cases slots <;> exact .pure _
  | succ fuel ih =>
    cases slots with
    | nil => exact .pure _
    | cons h slots =>
      refine .get fun s => .ite (.pure _) (.bind (gcReadOne_keeps r h) fun x => ?_)
      exact .ite (.throw nofun) (ih _ _)

theorem gcEnter_keeps (key : CStr) (p b : ℕ) (ret : ℤ) : Keeps need (gcEnter env key p b ret) := by
  refine .bind (hashAdd_keeps _ _ _) fun slot => ?_
  cases slot with
  | none => exact .throw nofun
  | some h => exact .ite (.throw nofun) (.update fun _ => rfl)

theorem gcWriteOne_keeps (victim i keyLen valLen : ℕ) (buffer : ℕ → Byte) :
    Keeps [.oneLock, .listLock] (gcWriteOne env victim i keyLen valLen buffer) := by
  refine .ite (.throw nofun) (.get fun s => .bind (writePage_keeps _ _) fun ret => ?_)
  refine .bind ?_ fun _ => .pure _
  exact .weaken (.withLock (gcEnter_keeps _ _ _ _) List.not_mem_nil) (by decide)

theorem gcWrite_keeps (victim i : ℕ) (lens : List (ℕ × ℕ)) (buffer : ℕ → Byte) :
    Keeps [.oneLock, .listLock] (gcWrite env victim i lens buffer) := by
  induction lens generalizing i buffer with
  | nil => exact .pure _
  | cons x lens ih => exact .bind (gcWriteOne_keeps _ _ _ _ _) fun _ => ih _ _

theorem gcHeader_keeps (p : ℕ) : Keeps [.oneLock, .listLock] (gcHeader env p) :=
  .ite (.bind (writeHdr_keeps _ _) fun _ => .pure _) (.pure _)

theorem gcBlock_keeps (target : ℕ) : Keeps [.oneLock, .listLock] (gcBlock env target) := by
  refine .get fun s => .bind (.update fun _ => rfl) fun _ => .bind ?_ fun r => ?_
  · exact .weaken (.withLock (.get fun _ => gcRead_keeps _ _ _ _) (by decide)) (by decide)
  · refine .bind ((formatSingle_keeps _).weaken (by decide)) fun _ => .get fun s => ?_
    refine .bind (gcHeader_keeps _) fun _ => .bind (gcWrite_keeps _ _ _ _) fun _ => ?_
    exact .weaken (.withLock (.update fun _ => rfl) List.not_mem_nil) (by decide)

theorem gcLocked_keeps : Keeps [.oneLock, .listLock] (gcLocked env) := by
  refine .bind (checkOrder_keeps _) fun _ => .get fun s => ?_
  split
  · exact .pure _
  · exact gcBlock_keeps _

/-! ## `flush_metadata` -/

theorem formatEntry_keeps (o : Option ℕ) : Keeps [.listLock] (formatEntry env o) := by
  cases o with
  | none => exact .pure _
  | some b => exact .bind (formatSingle_keeps b) fun _ => .pure _

theorem flushSelect_keeps (pre : ℕ → Option ℕ) (is : List ℕ) (enough : ℕ) :
    Keeps [.listLock] (flushSelect env pre is enough) := by
  induction is generalizing enough with
  | nil => exact .pure _
  | cons i is ih =>
    refine .get fun s => .ite (.bind (.update fun _ => rfl) fun _ => ?_) (ih _)
    refine .bind (formatEntry_keeps _) fun _ => .bind (.update fun _ => rfl) fun _ => ?_
    exact .ite (.pure _) (ih _)

theorem orderBlock_keeps (k : ℕ) : Keeps need (orderBlock k) := by
  refine .ite (.throw nofun) (.get fun s => ?_)
  split
  · exact .throw nofun
  · exact .pure _

theorem flushHeader_keeps (i jackOfs : ℕ) (ret : ℤ) :
    Keeps [.oneLock, .listLock] (flushHeader env i jackOfs ret) := by
  refine .ite (.bind (orderBlock_keeps _) fun b => ?_) (.pure _)
  exact .bind (writeHdr_keeps _ _) fun _ => .pure _

theorem flushPage_keeps (i jackOfs : ℕ) (ret : ℤ) :
    Keeps [.oneLock, .listLock] (flushPage env i jackOfs ret) := by
  refine .get fun s => .bind (flushHeader_keeps _ _ _) fun x => ?_
  refine .bind (orderBlock_keeps _) fun b => .bind (writePage_keeps _ _) fun code => ?_
  exact .ite (.throw nofun) (.pure _)

theorem flushWrite_keeps (is : List ℕ) (jackOfs : ℕ) (ret : ℤ) :
    Keeps [.oneLock, .listLock] (flushWrite env is jackOfs ret) := by
  induction is generalizing jackOfs ret with
  | nil => exact .pure _
  | cons i is ih => exact .bind (flushPage_keeps _ _ _) fun _ => .bind (ih _ _) fun _ => .pure _

theorem markUsed_locks (n : ℕ) (s : Config) : (markUsed n s).locks = s.locks := by
  unfold markUsed
  induction List.range n generalizing s with
  | nil => rfl
  | cons j js ih =>
    rw [List.foldl_cons, ih]
    split <;> rfl

theorem flushLocked_keeps : Keeps [.oneLock, .listLock] (flushLocked env) := by
  refine .bind (checkOrder_keeps _) fun _ => .get fun s => .bind (.update fun _ => rfl) fun _ => ?_
  refine .bind ((flushSelect_keeps _ _ _).weaken (by decide)) fun enough => ?_
  refine .ite (.ite (.throw nofun) (.throw nofun)) (.bind ?_ fun _ => ?_)
  · exact .weaken (.withLock (.update (markUsed_locks _)) List.not_mem_nil) (by decide)
  · exact .bind (flushWrite_keeps _ _ _) fun _ => .bind (.update fun _ => rfl) fun _ => .pure _

theorem flushGate_keeps (force : Bool) : Keeps need (flushGate force) := by
  refine .ite (.pure _) (.get fun s => .bind (.update fun _ => rfl) fun _ => .ite (.pure _) ?_)
  refine .get fun s => .bind (.update fun _ => rfl) fun _ => .ite (.pure _) ?_
  exact .bind (.update fun _ => rfl) fun _ => .pure _

theorem flushExit_keeps (ret : ℤ) : Keeps need (flushExit ret) :=
  .bind (.update fun _ => rfl) fun _ => .pure _

/-! ## The entry points -/

theorem gc_keeps : Keeps [.oneLock, .listLock] (gc env) := by
  refine .ite (.pure _) (.get fun s => .bind (.update fun _ => rfl) fun _ => .ite (.pure _) ?_)
  exact .tryLocked gcLocked_keeps (fun _ => .update fun _ => rfl) (.pure _) (by decide)

theorem flushMetadata_keeps (force : Bool) :
    Keeps [.eraseLock, .oneLock, .listLock] (flushMetadata env force) := by
  refine .bind (flushGate_keeps force) fun goes => .ite ?_ (flushExit_keeps _)
  cases force with
  | false =>
    have h := Keeps.tryLocked (l := .eraseLock) (@flushLocked_keeps env) flushExit_keeps
      (flushExit_keeps 0) (by decide)
    exact h.weaken (by decide)
  | true =>
    have h := Keeps.locked (l := .eraseLock) (@flushLocked_keeps env) flushExit_keeps (by decide)
    simpa only [flushLock, if_true, bind_assoc, pure_bind] using h

theorem gcCheck_keeps : Keeps [.eraseLock, .oneLock, .listLock] (gcCheck env) := by
  refine .bind (.get fun s => .ite (gc_keeps.weaken (by decide)) (.pure _)) fun _ => ?_
  refine .get fun s => .bind (.update fun _ => rfl) fun _ => .ite ?_ (.pure _)
  exact .bind (.update fun _ => rfl) fun _ => .bind (flushMetadata_keeps true) fun _ => .pure _

theorem deref_keeps (p : Option CStr) : Keeps need (deref p) := by
  cases p with
  | none => exact .throw nofun
  | some str => exact .pure _

theorem getKeyval_keeps (key : Option CStr) :
    Keeps [.eraseLock, .listLock, .oneLock] (getKeyval env key) := by
  refine .withLock (.withLock (.bind (deref_keeps key) fun key => .get fun s => ?_) (by decide))
    (by decide)
  split
  · exact .pure _
  · refine .ite (.ite (.pure _) (.bind (readPage_keeps _) fun buffer => ?_)) (.pure _)
    exact .ite (.pure _) (.pure _)

theorem delKey_keeps (key : Option CStr) : Keeps [.eraseLock, .listLock] (delKey env key) := by
  refine .withLock (.withLock (.bind (deref_keeps key) fun key => .get fun s => ?_) (by decide))
    (by decide)
  split
  · exact .pure _
  · exact .ite (.ite (.pure _) (.bind (invalidPg_keeps _ _) fun _ => .pure _)) (.pure _)

/-! ## `set_keyval` -/

/-- `get_next_block_to_write` returns -1: no block has a page left, or the header of a new one is
refused. -/
def NoBlock (g : Geometry) (s : Config) : Prop :=
  match getHealthyBlock g s with
  | none => True
  | some b => (s.blocks b).currentPageOffset = 0 ∧
      (s.metaReadOnly = true ∨ s.readOnly = true ∨ isReadOnly g s = true)

/-- The two cases in which a call returns with `erase_lock` held. -/
def LeavesLock (env : Env) (s : Config) : Call → Prop
  | .set (some key) (some val) => env.pageSize < key.len + val.len + 8 ∨
      s.readOnly = false ∧ NoBlock env.toGeometry s
  | _ => False

theorem isReadOnly_congr {g : Geometry}
    (h : ∀ b < g.nbBlocks, (g.pagesPerBlock ≤ (s'.blocks b).currentPageOffset ↔
      g.pagesPerBlock ≤ (s.blocks b).currentPageOffset)) : isReadOnly g s' = isReadOnly g s := by
  have hfilter : ((List.range g.nbBlocks).filter fun i =>
        g.pagesPerBlock ≤ (s'.blocks i).currentPageOffset) =
      (List.range g.nbBlocks).filter fun i => g.pagesPerBlock ≤ (s.blocks i).currentPageOffset :=
    List.filter_congr fun b hb => decide_eq_decide.mpr (h b (List.mem_range.mp hb))
  rw [isReadOnly, isReadOnly, hfilter]

/-- A header does not fill its block. -/
theorem isReadOnly_header {g : Geometry} {b : ℕ} {buf : List Byte}
    (ho : (s.blocks b).currentPageOffset = 0) :
    isReadOnly g (programPage g (b * g.pagesPerBlock) buf s) = isReadOnly g s := by
  have hppb := g.two_le_pagesPerBlock
  refine isReadOnly_congr fun c _ => ?_
  rw [programPage, Nat.mul_div_cancel _ g.pagesPerBlock_pos]
  by_cases hc : c = b
  · rw [hc, Config.modifyBlk_self]
    simp only [ho]
    omega
  · simp only [Config.modifyBlk_ne hc]

theorem getHealthyBlock_congr {g : Geometry} (hord : s'.metaBlkordr = s.metaBlkordr)
    (h : ∀ b, (s'.blocks b).currentPageOffset = (s.blocks b).currentPageOffset ∧
      (s'.blocks b).worn = (s.blocks b).worn) : getHealthyBlock g s' = getHealthyBlock g s := by
  simp only [getHealthyBlock, hord, (h _).1, (h _).2]

theorem noBlock_congr {g : Geometry} (hord : s'.metaBlkordr = s.metaBlkordr)
    (hro : s'.readOnly = s.readOnly) (hmro : s'.metaReadOnly = s.metaReadOnly)
    (h : ∀ b, (s'.blocks b).currentPageOffset = (s.blocks b).currentPageOffset ∧
      (s'.blocks b).worn = (s.blocks b).worn) : NoBlock g s' ↔ NoBlock g s := by
  have hfull : isReadOnly g s' = isReadOnly g s := isReadOnly_congr fun b _ => by rw [(h b).1]
  rw [NoBlock, NoBlock, getHealthyBlock_congr hord h, hro, hmro, hfull]
  simp only [(h _).1]

/-- The code of `write_page`. -/
theorem writePage_code {p : ℕ} {buf : List Byte} {ret : ℤ}
    (he : writePage env p buf s = .ok (ret, s')) : ret = -1 ↔ s.readOnly = true ∨
      isReadOnly env.toGeometry (programPage env.toGeometry p buf s) = true := by
  obtain ⟨hro, rfl, -⟩ | ⟨hro, -, -, rfl, -⟩ := writePage_ok he
  · simp [hro]
  · simp [hro]

/-- The code of `write_hdr`. -/
theorem writeHdr_code {p : ℕ} {k : HdrKind} {ret : ℤ}
    (he : writeHdr env p k s = .ok (ret, s')) : ret = -1 ↔ s.metaReadOnly = true ∨ s.readOnly = true ∨
      isReadOnly env.toGeometry (programPage env.toGeometry p (hdrPage env.toGeometry k) s) = true := by
  obtain ⟨hm, rfl, -⟩ | ⟨hm, -, s₁, he₁, -⟩ := writeHdr_ok he
  · simp [hm]
  · rw [writePage_code he₁, hm]
    simp

/-- `get_next_block_to_write` returns -1 exactly under `NoBlock`. -/
theorem getNextBlockToWrite_code {ret : ℤ} (he : getNextBlockToWrite env s = .ok (ret, s')) :
    ret = -1 ↔ NoBlock env.toGeometry s := by
  obtain ⟨hb, rfl, -⟩ | ⟨b, hb, ⟨ho, rfl, -⟩ | ⟨ho, he⟩⟩ := getNextBlockToWrite_ok he
  · simp [NoBlock, hb]
  · simp only [NoBlock, hb]
    constructor
    · intro h
      omega
    · rintro ⟨h0, -⟩
      omega
  · have hofs : ((s.setState b .blkUsed).blocks b).currentPageOffset = 0 := by
      rw [Config.setState, Config.modifyBlk_self]
      exact ho
    have hfull : isReadOnly env.toGeometry (s.setState b .blkUsed) = isReadOnly env.toGeometry s :=
      isReadOnly_congr fun c _ => by
        by_cases hc : c = b
        · rw [hc, hofs, ho]
        · rw [Config.setState, Config.modifyBlk_ne hc]
    rw [writeHdr_code he, isReadOnly_header hofs, hfull]
    simp only [NoBlock, hb]
    exact ⟨fun h => ⟨ho, h⟩, fun h => h.2⟩

theorem dropped_same (g : Geometry) (h b : ℕ) :
    ((s.dropped g h).blocks b).currentPageOffset = (s.blocks b).currentPageOffset ∧
      ((s.dropped g h).blocks b).worn = (s.blocks b).worn := by
  by_cases hb : b = s.blkOf g h
  · subst hb
    simp [Config.dropped, Config.modifyBlk_self]
  · simp [Config.dropped, Config.modifyBlk_ne hb]

/-- Whether there is a block does not depend on the page that is invalidated before. -/
theorem invalidOld_noBlock (key : CStr) : wp (withLock .listLock (invalidOld env key))
    (fun _ s' => NoBlock env.toGeometry s' ↔ NoBlock env.toGeometry s) (fun _ => True) s := by
  rw [wp_withLock]
  refine ⟨fun _ => trivial, fun _ => ?_⟩
  rw [invalidOld, wp_bind, wp_get]
  cases hashSearch env.toGeometry (s.lock .listLock true).hashtable key with
  | none => exact Iff.rfl
  | some h =>
    simp only [invalidPg]
    rw [wp_bind, wp_get, wp_ite]
    refine ⟨fun _ => trivial, fun _ => ?_⟩
    rw [wp_ite]
    refine ⟨fun _ => trivial, fun _ => ?_⟩
    rw [wp_modify]
    exact noBlock_congr rfl rfl rfl fun b => dropped_same _ _ _

theorem invalidOld_keeps (key : CStr) :
    Keeps [.listLock] (withLock .listLock (invalidOld env key)) := by
  refine .withLock (.get fun _ => ?_) List.not_mem_nil
  split
  · exact .pure _
  · exact invalidPg_keeps _ _

theorem storeAt_keeps (key val : CStr) (b : ℕ) :
    Keeps [.oneLock, .listLock] (storeAt env key val b) := by
  refine .get fun _ => .bind (writePage_keeps _ _) fun _ => .bind ?_ fun _ => .pure _
  refine .weaken (.withLock (.bind (hashAdd_keeps _ _ _) fun slot => ?_) List.not_mem_nil) (by decide)
  cases slot with
  | none => exact .throw nofun
  | some h => exact .update fun _ => rfl

/-- Behind its first checks `set_keyval` gives `erase_lock` back unless there is no block. -/
theorem setWrite_locks (key val : CStr) : wp (setWrite env key val)
    (fun x s' => NoBlock env.toGeometry s ∧ x = .early (-3) ∧ s'.locks = s.locks ∨
      ¬ NoBlock env.toGeometry s ∧ s'.locks = (s.lock .eraseLock false).locks)
    (fun _ => True) s := by
  refine wp_of_ok fun x s' he => ?_
  obtain ⟨_, s₁, ret, s₂, he₁, he₂, hexit⟩ := setWrite_ok he
  have hl₁ := (invalidOld_keeps key).locks_eq he₁
  have hn₁ := (invalidOld_noBlock key).of_ok he₁
  have hl₂ := getNextBlockToWrite_keeps.locks_eq he₂
  have hn₂ := getNextBlockToWrite_code he₂
  rw [hn₁] at hn₂
  obtain ⟨hret, rfl, rfl⟩ | ⟨hret, code, s₃, he₃, -, rfl⟩ := hexit
  · exact .inl ⟨hn₂.mp hret, rfl, hl₂.trans hl₁⟩
  · have hl₃ := (storeAt_keeps _ _ _).locks_eq he₃
    refine .inr ⟨fun hno => hret (hn₂.mpr hno), ?_⟩
    simp only [lock_locks, hl₃, hl₂, hl₁]

/-- `set_keyval` before `gc_check`: it ends early with `erase_lock` held in one of the two cases, and
otherwise with the locks as they were. -/
theorem setStore_locks {key val : Option CStr} {x : SetExit}
    (he : setStore env key val s = .ok (x, s')) : s.locks .eraseLock = false ∧
      (LeavesLock env s (.set key val) ∧ (∃ code, x = .early code) ∧
        s'.locks = (s.lock .eraseLock true).locks ∨
      ¬ LeavesLock env s (.set key val) ∧ s'.locks = s.locks) := by
  obtain ⟨hfree, key, val, rfl, rfl, hexit⟩ := setStore_ok he
  have hback : ((s.lock .eraseLock true).lock .eraseLock false).locks = s.locks := lock_unlock hfree rfl
  refine ⟨hfree, ?_⟩
  obtain ⟨hbig, rfl, rfl⟩ | ⟨hfits, hro, rfl, rfl⟩ | ⟨hfits, hro, he⟩ := hexit
  · exact .inl ⟨.inl hbig, ⟨_, rfl⟩, rfl⟩
  · refine .inr ⟨fun h => ?_, hback⟩
    obtain h | ⟨h, -⟩ := h
    · exact not_lt.mpr hfits h
    · rw [hro] at h
      cases h
  · obtain ⟨hno, rfl, hl⟩ | ⟨hno, hl⟩ := (setWrite_locks key val).of_ok he
    · exact .inl ⟨.inr ⟨hro, hno⟩, ⟨_, rfl⟩, hl⟩
    · refine .inr ⟨fun h => ?_, hl.trans hback⟩
      exact hno (h.resolve_left (not_lt.mpr hfits)).2

/-- `set_keyval` returns with the locks as they were unless one of the two cases holds, and then with
`erase_lock` held, which was free before. -/
theorem setKeyval_locks {key val : Option CStr} {r : ℤ} (he : setKeyval env key val s = .ok (r, s')) :
    s'.locks = s.locks ↔ ¬ LeavesLock env s (.set key val) := by
  obtain ⟨x, s₁, he₁, he⟩ := bind_ok.mp he
  have hl : s'.locks = s₁.locks := by
    cases x with
    | early code => rw [(pure_ok.mp he).2]
    | stored ret =>
      obtain ⟨_, s₂, he₂, he⟩ := bind_ok.mp he
      rw [← (pure_ok.mp he).2]
      exact gcCheck_keeps.locks_eq he₂
  rw [hl]
  obtain ⟨hfree, ⟨hL, -, hheld⟩ | ⟨hL, hsame⟩⟩ := setStore_locks he₁
  · refine ⟨fun hsame => ?_, fun hno => absurd hL hno⟩
    rw [hheld] at hsame
    have := congrFun hsame .eraseLock
    rw [lock_locks, Function.update_self, hfree] at this
    cases this
  · exact ⟨fun _ => hL, fun _ => hsame⟩

/-- From free locks `set_keyval` waits for none. -/
theorem setKeyval_no_hang (key val : Option CStr) (hfree : ∀ l, s.locks l = false) :
    setKeyval env key val s ≠ .error .hang := by
  have hone : ∀ l, l ≠ .eraseLock → (s.lock .eraseLock true).locks l = false := fun l hl => by
    rw [lock_locks, Function.update_of_ne hl, hfree]
  have hwrite : ∀ key val, setWrite env key val (s.lock .eraseLock true) ≠ .error .hang := by
    intro key val he
    obtain he | ⟨_, s₁, he₁, he⟩ := bind_error.mp he
    · exact (invalidOld_keeps key).no_hang (fun l hl => hone l (by rintro rfl; simp at hl)) he
    have hl₁ := (invalidOld_keeps key).locks_eq he₁
    obtain he | ⟨ret, s₂, he₂, he⟩ := bind_error.mp he
    · refine getNextBlockToWrite_keeps.no_hang (fun l hl => ?_) he
      rw [hl₁]
      exact hone l (by rintro rfl; simp at hl)
    have hl₂ := getNextBlockToWrite_keeps.locks_eq he₂
    split at he
    · cases he
    · obtain he | ⟨code, s₃, he₃, he⟩ := bind_error.mp he
      · refine (storeAt_keeps _ _ _).no_hang (fun l hl => ?_) he
        rw [hl₂, hl₁]
        exact hone l (by rintro rfl; simp at hl)
      · cases he
  have hstore : setStore env key val s ≠ .error .hang := by
    intro he
    obtain he | ⟨_, s₁, he₁, he⟩ := bind_error.mp he
    · have h : wp (spinLock .eraseLock) (fun _ _ => True) (fun f => f ≠ .hang) s :=
        wp_spinLock.mpr ⟨fun hheld => absurd hheld (by rw [hfree]; decide), fun _ => trivial⟩
      exact h.of_error he rfl
    obtain ⟨-, rfl⟩ := spinLock_ok he₁
    cases key with
    | none => cases he
    | some key =>
      cases val with
      | none => cases he
      | some val =>
        obtain he | ⟨_, s₃, he₃, he⟩ := bind_error.mp he
        · cases he
        obtain ⟨rfl, rfl⟩ := pure_ok.mp he₃
        obtain he | ⟨_, s₃, he₃, he⟩ := bind_error.mp he
        · cases he
        obtain ⟨rfl, rfl⟩ := pure_ok.mp he₃
        split at he
        · cases he
        · obtain he | ⟨_, s₃, he₃, he⟩ := bind_error.mp he
          · cases he
          obtain ⟨rfl, rfl⟩ := Prod.mk.inj (Except.ok.inj he₃)
          split at he
          · cases he
          · exact hwrite _ _ he
  intro he
  obtain he | ⟨x, s₁, he₁, he⟩ := bind_error.mp he
  · exact hstore he
  cases x with
  | early code => cases he
  | stored ret =>
    have hl : s₁.locks = s.locks := by
      obtain ⟨-, ⟨-, ⟨code, hx⟩, -⟩ | ⟨-, hl⟩⟩ := setStore_locks he₁
      · cases hx
      · exact hl
    obtain he | ⟨_, s₂, -, he⟩ := bind_error.mp he
    · exact gcCheck_keeps.no_hang (fun l _ => by rw [hl, hfree]) he
    · cases he

/-! ## Calls and runs -/

/-- The calls other than `set_keyval`. -/
theorem exec_keeps {c : Call} (hc : ∀ key val, c ≠ .set key val) :
    Keeps [.eraseLock, .listLock, .oneLock] (exec env c) := by
  cases c with
  | set key val => exact absurd rfl (hc key val)
  | get key => exact (getKeyval_keeps key).weaken (by decide)
  | del key => exact .bind ((delKey_keeps key).weaken (by decide)) fun _ => .pure _
  | format => exact .bind (format_keeps.weaken (by decide)) fun _ => .pure _
  | gc => exact .bind (gc_keeps.weaken (by decide)) fun _ => .pure _
  | flush force => exact .bind ((flushMetadata_keeps force).weaken (by decide)) fun _ => .pure _

theorem exec_locks_iff {c : Call} (h : Returns env s c s') :
    s'.locks = s.locks ↔ ¬ LeavesLock env s c := by
  obtain ⟨r, he⟩ := h
  by_cases hc : ∃ key val, c = .set key val
  · obtain ⟨key, val, rfl⟩ := hc
    obtain ⟨ret, s₁, he₁, he⟩ := bind_ok.mp he
    obtain ⟨-, rfl⟩ := pure_ok.mp he
    exact setKeyval_locks he₁
  · have hkeep := (exec_keeps fun key val he => hc ⟨key, val, he⟩).locks_eq he
    refine ⟨fun _ => ?_, fun _ => hkeep⟩
    cases c with
    | set key val => exact absurd ⟨key, val, rfl⟩ hc
    | _ => exact id

theorem exec_no_hang (c : Call) (hfree : ∀ l, s.locks l = false) : exec env c s ≠ .error .hang := by
  by_cases hc : ∃ key val, c = .set key val
  · obtain ⟨key, val, rfl⟩ := hc
    intro he
    obtain he | ⟨ret, s₁, -, he⟩ := bind_error.mp he
    · exact setKeyval_no_hang key val hfree he
    · cases he
  · exact (exec_keeps fun key val he => hc ⟨key, val, he⟩).no_hang fun l _ => hfree l

/-- A call that returns leaves the locks as it found them exactly outside the two cases of
`LeavesLock`. In a run of such calls from free locks, no call waits for a lock. -/
theorem lock_balance_iff :
    (∀ s c s', Returns env s c s' → (s'.locks = s.locks ↔ ¬ LeavesLock env s c)) ∧
    ∀ s cs s', Run (fun s c s' => Returns env s c s' ∧ ¬ LeavesLock env s c) s cs s' →
      (∀ l, s.locks l = false) →
        (∀ l, s'.locks l = false) ∧ ∀ c, exec env c s' ≠ .error .hang := by
  refine ⟨fun s c s' h => exec_locks_iff h, fun s cs s' hrun hfree => ?_⟩
  have hall : ∀ l, s'.locks l = false :=
    hrun.invariant (I := fun s => ∀ l, s.locks l = false)
      (fun s c s' hs h l => by rw [(exec_locks_iff h.1).mpr h.2, hs]) hfree
  exact ⟨hall, fun c => exec_no_hang c hall⟩

/-- The smallest partition, with pages of 16 bytes. -/
def minimalGeometry : Geometry := .ofSizes 1 2 16 (by decide)

/-- Deleting a key that is not there, on a new device. -/
theorem lock_balance_iff_start : ∃ s', Returns (Env.ideal minimalGeometry) .start
    (.del (some (.ofBytes [107]))) s' ∧ s'.locks = Config.start.locks :=
  ⟨_, ⟨(-1, []), rfl⟩, ((@lock_balance_iff (Env.ideal minimalGeometry)).1 .start
    (.del (some (.ofBytes [107]))) _ ⟨(-1, []), rfl⟩).mpr fun h => h⟩

/-- A pair of one byte and eight does not fit a page; the next call finds `erase_lock` held. -/
theorem set_keeps_erase_lock : ∃ s', Returns (Env.ideal minimalGeometry) .start
    (.set (some (.ofBytes [107])) (some (.ofBytes [1, 1, 1, 1, 1, 1, 1, 1]))) s' ∧
      Config.start.locks .eraseLock = false ∧ s'.locks .eraseLock = true ∧
      exec (Env.ideal minimalGeometry) (.get (some (.ofBytes [107]))) s' = .error .hang :=
  ⟨_, ⟨(-1, []), rfl⟩, rfl, rfl, rfl⟩

end LkpProjects.Parallel
