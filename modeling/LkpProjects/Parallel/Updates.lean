import LkpProjects.Parallel.Locks

/-! # The parallel store: updates and the metadata on flash

`recent_update` is to say that the hash table in RAM is newer than the one on flash. The timer callback
clears it without writing: the gate of `flush_metadata` tests the flag `is_flush` the wrong way round,
and the label that it jumps to clears both flags. `Synced` is what the flag promises, `Watch` a
configuration beside the number of callbacks in a row that should have led to a write, and `Saves` says
on the state before a step when the promise is kept.
-/
namespace LkpProjects.Parallel
open Nand Bytes Hoare Stepwise
open Serial (Geometry HdrKind GcRead)
set_option autoImplicit false

variable {α : Type} {env : Env} {s s' : Config}

/-! ## What the functions leave alone -/

/-- The hash table, the two flags, and the table on flash. -/
def Config.table (s : Config) : (ℕ → Bucket) × Bool × Bool × (ℕ → Bucket) :=
  (s.hashtable, s.recentUpdate, s.isFlush, s.saved)

/-- The two flags and the table on flash. -/
def Config.flags (s : Config) : Bool × Bool × (ℕ → Bucket) := s.table.2

@[simp] theorem lock_table (l : Lock) (b : Bool) : (s.lock l b).table = s.table := rfl

section Stable
variable {γ : Type} {p : Config → γ}

/-- A region with a lock, for a view that does not see the locks. -/
theorem withLock_stable {l : Lock} {m : Kernel α} (hp : ∀ s b, p (s.lock l b) = p s)
    (h : Stable p m) : Stable p (withLock l m) := by
  refine .bind (.get fun s => .ite (.throw _) (.update fun s => hp s _)) fun _ => ?_
  exact .bind h fun a => .bind (.update fun s => hp s _) fun _ => .pure _

end Stable

theorem table_withLock {l : Lock} {m : Kernel α} (h : Stable Config.table m) :
    Stable Config.table (withLock l m) := withLock_stable (fun _ _ => rfl) h

theorem flags_withLock {l : Lock} {m : Kernel α} (h : Stable Config.flags m) :
    Stable Config.flags (withLock l m) := withLock_stable (fun _ _ => rfl) h

theorem table_flags {m : Kernel α} (h : Stable Config.table m) : Stable Config.flags m := h.map Prod.snd

theorem writePage_table (pg : ℕ) (buf : List Byte) : Stable Config.table (writePage env pg buf) := by
  have hflash : Stable Config.table (writeFlash env pg buf) := by
    refine .get fun s => .ite (.pure _) (.ite (.throw _) (.ite (.throw _) ?_))
    exact .bind (table_withLock (.update fun _ => rfl)) fun _ => .pure _
  refine table_withLock (.bind hflash fun ret => .get fun s => .ite ?_ (.pure _))
  exact .bind (.update fun _ => rfl) fun _ => .pure _

theorem readPage_table (pg : ℕ) : Stable Config.table (readPage env pg) :=
  table_withLock (.get fun _ => .ite (.throw _) (.pure _))

theorem writeHdr_table (pg : ℕ) (k : HdrKind) : Stable Config.table (writeHdr env pg k) := by
  refine .get fun s => .ite (.pure _) (.ite (.throw _) (.bind (writePage_table _ _) fun ret => ?_))
  exact .bind (.update fun _ => rfl) fun _ => .pure _

theorem formatSingle_table (b : ℕ) : Stable Config.table (formatSingle env b) := by
  refine .get fun s => ?_
  split
  · refine .bind (.update fun _ => rfl) fun _ => ?_
    refine .bind (table_withLock (.update fun _ => rfl)) fun _ => ?_
    exact .bind (.update fun _ => rfl) fun _ => .pure _
  · exact .pure _

theorem checkOrder_table (n : ℕ) : Stable Config.table (checkOrder n) := .ite (.throw _) (.pure _)

theorem getNextBlockToWrite_table : Stable Config.table (getNextBlockToWrite env) := by
  have hpick : Stable Config.table (checkOrder (nbProbed env.toGeometry) >>= fun _ =>
      (get >>= fun s => pure (getHealthyBlock env.toGeometry s) : Kernel (Option ℕ))) :=
    .bind (checkOrder_table _) fun _ => .get fun s => .pure _
  refine .bind (table_withLock hpick) fun target => ?_
  split
  · exact .pure _
  · exact .bind (.update fun _ => rfl) fun _ => .get fun s => .ite (writeHdr_table _ _) (.pure _)

/-! ## Garbage collection keeps the flags -/

theorem invalidPg_flags (h : ℕ) : Stable Config.flags (invalidPg env.toGeometry h) :=
  .get fun _ => .ite (.throw _) (.ite (.throw _) (.update fun _ => rfl))

theorem hashAdd_flags (key : CStr) (index : ℕ) :
    Stable Config.flags (hashAdd env.toGeometry key index) :=
  .ite (.throw _) (.get fun _ => .bind (.update fun _ => rfl) fun _ => .pure _)

theorem gcReadOne_flags (r : GcRead) (h : ℕ) : Stable Config.flags (gcReadOne env r h) := by
  refine .get fun s => .bind (table_flags (readPage_table _)) fun page => ?_
  refine .ite (.throw _) (.get fun s => ?_)
  split
  · exact .throw _
  · exact .bind (invalidPg_flags _) fun _ => .pure _

theorem gcRead_flags (target : ℕ) : ∀ (fuel : ℕ) (r : GcRead) (slots : List ℕ),
    Stable Config.flags (gcRead env target fuel r slots)
  | 0, _, [] => .pure _
  | _ + 1, _, [] => .pure _
  | 0, _, _ :: _ => .pure _
  | fuel + 1, r, h :: _ =>
    .get fun _ => .ite (.pure _) (.bind (gcReadOne_flags r h) fun _ =>
      .ite (.throw _) (gcRead_flags target fuel _ _))

theorem gcEnter_flags (key : CStr) (pg b : ℕ) (ret : ℤ) :
    Stable Config.flags (gcEnter env key pg b ret) := by
  refine .bind (hashAdd_flags _ _) fun slot => ?_
  cases slot with
  | none => exact .throw _
  | some h => exact .ite (.throw _) (.update fun _ => rfl)

theorem gcWriteOne_flags (victim i keyLen valLen : ℕ) (buffer : ℕ → Byte) :
    Stable Config.flags (gcWriteOne env victim i keyLen valLen buffer) := by
  refine .ite (.throw _) (.get fun s => .bind (table_flags (writePage_table _ _)) fun ret => ?_)
  exact .bind (flags_withLock (gcEnter_flags _ _ _ _)) fun _ => .pure _

theorem gcWrite_flags (victim : ℕ) : ∀ (lens : List (ℕ × ℕ)) (i : ℕ) (buffer : ℕ → Byte),
    Stable Config.flags (gcWrite env victim i lens buffer)
  | [], _, _ => .pure _
  | (_, _) :: lens, i, buffer =>
    .bind (gcWriteOne_flags victim i _ _ buffer) fun buffer => gcWrite_flags victim lens (i + 1) buffer

theorem gcBlock_flags (target : ℕ) : Stable Config.flags (gcBlock env target) := by
  refine .get fun s => .bind (.update fun _ => rfl) fun _ => ?_
  refine .bind (flags_withLock (.get fun s => gcRead_flags _ _ _ _)) fun r => ?_
  refine .bind (table_flags (formatSingle_table _)) fun _ => .get fun s => ?_
  refine .bind (.ite (.bind (table_flags (writeHdr_table _ _)) fun _ => .pure _) (.pure _)) fun _ => ?_
  exact .bind (gcWrite_flags _ _ _ _) fun _ => flags_withLock (.update fun _ => rfl)

theorem gc_flags : Stable Config.flags (gc env) := by
  refine .ite (.pure _) (.get fun s => .bind (.update fun _ => rfl) fun _ => .ite (.pure _) ?_)
  have htry : Stable Config.flags (spinTrylock .eraseLock) :=
    .get fun _ => .ite (.pure _) (.bind (.update fun _ => rfl) fun _ => .pure _)
  refine .bind htry fun b => .ite (.bind ?_ fun _ => ?_) (.pure _)
  · refine .bind (table_flags (checkOrder_table _)) fun _ => .get fun s => ?_
    split
    · exact .pure _
    · exact gcBlock_flags _
  · exact .bind (.update fun _ => rfl) fun _ => .update fun _ => rfl

/-! ## A flush saves the table -/

theorem flushSelect_table (pre : ℕ → Option ℕ) : ∀ (is : List ℕ) (enough : ℕ),
    Stable Config.table (flushSelect env pre is enough)
  | [], _ => .pure _
  | _ :: is, enough => by
    refine .get fun s => .ite (.bind (.update fun _ => rfl) fun _ => .bind ?_ fun _ => ?_)
      (flushSelect_table pre is enough)
    · unfold formatEntry
      split
      · exact .pure _
      · exact .bind (formatSingle_table _) fun _ => .pure _
    · exact .bind (.update fun _ => rfl) fun _ =>
        .ite (.pure _) (flushSelect_table pre is (enough + 1))

theorem markUsed_table (n : ℕ) (s : Config) : (markUsed n s).table = s.table := by
  unfold markUsed
  induction List.range n generalizing s with
  | nil => rfl
  | cons j js ih =>
    rw [List.foldl_cons, ih]
    split <;> rfl

theorem orderBlock_table (k : ℕ) : Stable Config.table (orderBlock k) := by
  refine .ite (.throw _) (.get fun s => ?_)
  split
  · exact .throw _
  · exact .pure _

theorem flushPage_table (i jackOfs : ℕ) (ret : ℤ) :
    Stable Config.table (flushPage env i jackOfs ret) := by
  have hheader : Stable Config.table (flushHeader env i jackOfs ret) :=
    .ite (.bind (orderBlock_table _) fun b => .bind (writeHdr_table _ _) fun _ => .pure _) (.pure _)
  refine .get fun s => .bind hheader fun r => .bind (orderBlock_table _) fun b => ?_
  exact .bind (writePage_table _ _) fun code => .ite (.throw _) (.pure _)

theorem flushWrite_table : ∀ (is : List ℕ) (jackOfs : ℕ) (ret : ℤ),
    Stable Config.table (flushWrite env is jackOfs ret)
  | [], _, _ => .pure _
  | _ :: is, _, _ =>
    .bind (flushPage_table _ _ _) fun _ => .bind (flushWrite_table is _ _) fun _ => .pure _

/-- A flush that returns has saved the hash table. -/
theorem flushLocked_saved {ret : ℤ} (h : flushLocked env s = .ok (ret, s')) :
    s'.hashtable = s.hashtable ∧ s'.saved = s.hashtable := by
  obtain ⟨enough, s₁, s₂, pages, -, h₁, h₂, rfl⟩ := flushLocked_ok h
  have hselect := (flushSelect_table _ _ _).eq h₁
  have hmark := markUsed_table (nbMetaBlocks env.toGeometry) (s₁.lock .listLock true)
  have hwrite := (flushWrite_table _ _ _).eq h₂
  have ht : s₂.table = s.table := hwrite.trans (hmark.trans hselect)
  exact ⟨congrArg Prod.fst ht, congrArg Prod.fst ht⟩

/-- The hash table on flash is the one in RAM. -/
def Synced (g : Geometry) (s : Config) : Prop := ∀ h < hashSlots g, s.saved h = s.hashtable h

theorem synced_lock {g : Geometry} (l : Lock) (b : Bool) : Synced g (s.lock l b) ↔ Synced g s := Iff.rfl

theorem flushMetadata_forced {ret : ℤ} (h : flushMetadata env true s = .ok (ret, s')) :
    Synced env.toGeometry s' ∧ s'.isFlush = false := by
  obtain ⟨hforce, -⟩ | ⟨-, -, b, n, s₁, he, rfl⟩ := flushMetadata_ok h
  · cases hforce
  · obtain ⟨htable, hsaved⟩ := flushLocked_saved he
    refine ⟨fun slot _ => ?_, rfl⟩
    change s₁.saved slot = s₁.hashtable slot
    rw [htable, hsaved]

/-- The gate lets no callback pass: all that a callback does is to clear `recent_update`. -/
theorem flushTimerCallback_eq (hf : s.isFlush = false) :
    flushTimerCallback env s = .ok ((), { s with recentUpdate := false }) := by
  cases hr : s.recentUpdate with
  | true =>
    have hs : { s with recentUpdate := false, isFlush := false } = { s with recentUpdate := false } := by rw [← hf]
    rw [flushTimerCallback, ← hs]
    refine get_bind_ok.mpr ?_
    rw [if_pos hr]
    refine bind_ok.mpr ⟨0, _, bind_ok.mpr ⟨false, { s with isFlush := true }, ?_, rfl⟩, rfl⟩
    rw [flushGate, if_neg Bool.false_ne_true]
    refine get_bind_ok.mpr (bind_ok.mpr ⟨⟨⟩, _, rfl, ?_⟩)
    rw [if_pos hf]
    rfl
  | false =>
    have hs : s = { s with recentUpdate := false } := by rw [← hr]
    conv_rhs => rw [← hs]
    exact get_bind_ok.mpr (by rw [hr]; rfl)

theorem flushTimerCallback_ok {u : PUnit} (hf : s.isFlush = false)
    (h : flushTimerCallback env s = .ok (u, s')) : s' = { s with recentUpdate := false } := by
  rw [flushTimerCallback_eq hf] at h
  exact (Prod.mk.inj (Except.ok.inj h)).2.symm

/-! ## Updates -/

/-- `set_keyval` finds no block after it has invalidated the old page of its key. -/
def DropsOld (env : Env) (s : Config) : Option CStr → Option CStr → Prop
  | some key, some val => key.len + val.len + 8 ≤ env.pageSize ∧ s.readOnly = false ∧
      NoBlock env.toGeometry s ∧ (hashSearch env.toGeometry s.hashtable key).isSome = true
  | _, _ => False

/-- `del_key` finds the key, in a block that is in use. -/
def Deletes (env : Env) (s : Config) : Option CStr → Prop
  | some key => ∃ h, hashSearch env.toGeometry s.hashtable key = some h ∧
      (s.blocks (s.blkOf env.toGeometry h)).state = .blkUsed
  | none => False

/-- A table that was saved is no longer so once a page of it is invalidated. -/
theorem dropped_not_synced {g : Geometry} {key : CStr} {h : ℕ} (hs : Synced g s)
    (hfound : hashSearch g s.hashtable key = some h) : ¬ Synced g (s.dropped g h) := by
  obtain ⟨hh, hvalid, -⟩ := hashSearch_some hfound
  intro hsync
  have hfree := hsync h hh
  change s.saved h = Function.update s.hashtable h _ h at hfree
  rw [hs h hh, Function.update_self] at hfree
  have := congrArg Bucket.pState hfree
  rw [hvalid] at this
  cases this

theorem Synced.congr {g : Geometry} (ht : s'.table = s.table) : Synced g s' ↔ Synced g s := by
  have hhash : s'.hashtable = s.hashtable := congrArg Prod.fst ht
  have hsaved : s'.saved = s.saved := congrArg (fun t => t.2.2.2) ht
  rw [Synced, Synced, hhash, hsaved]

theorem flags_recentUpdate (hf : s'.flags = s.flags) : s'.recentUpdate = s.recentUpdate :=
  congrArg Prod.fst hf

theorem flags_isFlush (hf : s'.flags = s.flags) : s'.isFlush = s.isFlush :=
  congrArg (fun t => t.2.1) hf

/-- `del_key` between its locks invalidates a page, or does nothing. -/
theorem delLocked_ok {key : CStr} {r : ℤ} (he : delLocked env key s = .ok (r, s')) :
    (∃ h, hashSearch env.toGeometry s.hashtable key = some h ∧
      (s.blocks (s.blkOf env.toGeometry h)).state = .blkUsed ∧ s' = s.dropped env.toGeometry h) ∨
    (¬ Deletes env s (some key) ∧ s' = s) := by
  rw [delLocked, get_bind_ok] at he
  cases hfound : hashSearch env.toGeometry s.hashtable key with
  | none =>
    rw [hfound] at he
    obtain ⟨-, rfl⟩ := pure_ok.mp he
    refine .inr ⟨?_, rfl⟩
    rintro ⟨h, hsome, -⟩
    rw [hfound] at hsome
    cases hsome
  | some h =>
    have hvalid := (hashSearch_some hfound).2.1
    rw [hfound] at he
    simp only [hvalid] at he
    split at he
    · next hused =>
      rw [if_neg nofun] at he
      obtain ⟨_, s₁, he₁, he⟩ := bind_ok.mp he
      obtain ⟨-, -, rfl⟩ := invalidPg_ok he₁
      obtain ⟨-, rfl⟩ := pure_ok.mp he
      exact .inl ⟨h, rfl, hused, rfl⟩
    · next hfree =>
      obtain ⟨-, rfl⟩ := pure_ok.mp he
      refine .inr ⟨?_, rfl⟩
      rintro ⟨h', hsome, hused⟩
      obtain rfl := Option.some.inj (hfound.symm.trans hsome)
      exact hfree hused

theorem delKey_table {key : Option CStr} {r : ℤ} (he : delKey env key s = .ok (r, s')) :
    (∃ k h, key = some k ∧ hashSearch env.toGeometry s.hashtable k = some h ∧ Deletes env s key ∧
      s'.table = (s.dropped env.toGeometry h).table) ∨
    (¬ Deletes env s key ∧ s'.table = s.table) := by
  obtain ⟨-, s₁, he₁, rfl⟩ := withLock_ok he
  obtain ⟨-, s₂, he₂, rfl⟩ := withLock_ok he₁
  obtain ⟨key', s₃, he₃, he₂⟩ := bind_ok.mp he₂
  cases key with
  | none => cases he₃
  | some key =>
    obtain ⟨rfl, rfl⟩ := pure_ok.mp he₃
    obtain ⟨h, hfound, hused, rfl⟩ | ⟨hno, rfl⟩ := delLocked_ok he₂
    · refine .inl ⟨key, h, rfl, hfound, ⟨h, hfound, hused⟩, ?_⟩
      simp only [lock_table]
      rfl
    · refine .inr ⟨hno, ?_⟩
      simp only [lock_table]

theorem delKey_synced {key : Option CStr} {r : ℤ} (he : delKey env key s = .ok (r, s')) :
    s'.flags = s.flags ∧ (Synced env.toGeometry s →
      (Synced env.toGeometry s' ↔ ¬ Deletes env s key)) := by
  obtain ⟨k, h, -, hfound, hdel, ht⟩ | ⟨hno, ht⟩ := delKey_table he
  · refine ⟨(congrArg Prod.snd ht).trans rfl, fun hs => ?_⟩
    rw [Synced.congr ht]
    exact iff_of_false (dropped_not_synced hs hfound) fun hno => hno hdel
  · refine ⟨congrArg Prod.snd ht, fun hs => ?_⟩
    rw [Synced.congr ht]
    exact iff_of_true hs hno

/-- The old page of a key is invalidated, if there is one. -/
theorem invalidOld_ok {key : CStr} {u : PUnit}
    (he : withLock .listLock (invalidOld env key) s = .ok (u, s')) :
    (∃ h, hashSearch env.toGeometry s.hashtable key = some h ∧
      s' = ((s.lock .listLock true).dropped env.toGeometry h).lock .listLock false) ∨
    (hashSearch env.toGeometry s.hashtable key = none ∧
      s' = (s.lock .listLock true).lock .listLock false) := by
  obtain ⟨-, s₁, he₁, rfl⟩ := withLock_ok he
  rw [invalidOld, get_bind_ok, lock_hashtable] at he₁
  cases hfound : hashSearch env.toGeometry s.hashtable key with
  | none =>
    rw [hfound] at he₁
    obtain ⟨-, rfl⟩ := pure_ok.mp he₁
    exact .inr ⟨rfl, rfl⟩
  | some h =>
    rw [hfound] at he₁
    obtain ⟨-, -, rfl⟩ := invalidPg_ok he₁
    exact .inl ⟨h, rfl, rfl⟩

theorem storeAt_flags (key val : CStr) (b : ℕ) : Stable Config.flags (storeAt env key val b) := by
  refine .get fun s => .bind (table_flags (writePage_table _ _)) fun ret => ?_
  refine .bind (flags_withLock (.bind (hashAdd_flags _ _) fun slot => ?_)) fun _ => .pure _
  cases slot with
  | none => exact .throw _
  | some h => exact .update fun _ => rfl

theorem setWrite_synced {key val : CStr} {x : SetExit} (he : setWrite env key val s = .ok (x, s')) :
    s'.isFlush = s.isFlush ∧
      match x with
      | .early _ => NoBlock env.toGeometry s ∧ s'.flags = s.flags ∧ (Synced env.toGeometry s →
          (Synced env.toGeometry s' ↔ ¬ (hashSearch env.toGeometry s.hashtable key).isSome = true))
      | .stored _ => ¬ NoBlock env.toGeometry s ∧ s'.recentUpdate = true := by
  obtain ⟨_, s₁, ret, s₂, he₁, he₂, hexit⟩ := setWrite_ok he
  have hn₁ := (invalidOld_noBlock key).of_ok he₁
  have ht₂ := getNextBlockToWrite_table.eq he₂
  have hn₂ := getNextBlockToWrite_code he₂
  have hf₁ : s₁.flags = s.flags := by
    obtain ⟨h, -, rfl⟩ | ⟨-, rfl⟩ := invalidOld_ok he₁ <;> rfl
  have hf₂ : s₂.flags = s.flags := (congrArg Prod.snd ht₂).trans hf₁
  obtain ⟨hret, rfl, rfl⟩ | ⟨hret, code, s₃, he₃, rfl, rfl⟩ := hexit
  · refine ⟨flags_isFlush hf₂, hn₁.mp (hn₂.mp hret), hf₂, fun hs => ?_⟩
    rw [Synced.congr ht₂]
    obtain ⟨h, hfound, rfl⟩ | ⟨hfound, rfl⟩ := invalidOld_ok he₁
    · rw [hfound]
      rw [synced_lock]
      exact iff_of_false (dropped_not_synced hs hfound) fun hno => hno rfl
    · rw [hfound]
      exact iff_of_true hs Bool.false_ne_true
  · have hf₃ : s₃.flags = s.flags := ((storeAt_flags _ _ _).eq he₃).trans hf₂
    exact ⟨(flags_isFlush hf₃ : s₃.isFlush = s.isFlush), fun hno => hret (hn₂.mpr (hn₁.mpr hno)), rfl⟩

/-- How `set_keyval` stands before `gc_check`. -/
theorem setStore_synced {key val : Option CStr} {x : SetExit}
    (he : setStore env key val s = .ok (x, s')) : s'.isFlush = s.isFlush ∧
      match x with
      | .early _ => s'.flags = s.flags ∧ (Synced env.toGeometry s →
          (Synced env.toGeometry s' ↔ ¬ DropsOld env s key val))
      | .stored _ => ¬ DropsOld env s key val ∧ s'.recentUpdate = true := by
  obtain ⟨-, key, val, rfl, rfl, hexit⟩ := setStore_ok he
  obtain ⟨hbig, rfl, rfl⟩ | ⟨-, hro, rfl, rfl⟩ | ⟨hfits, hro, he⟩ := hexit
  · exact ⟨rfl, rfl, fun hs => iff_of_true hs fun h => not_lt.mpr h.1 hbig⟩
  · refine ⟨rfl, rfl, fun hs => iff_of_true hs fun h => ?_⟩
    have := h.2.1
    rw [hro] at this
    cases this
  · obtain ⟨hflush, hexit⟩ := setWrite_synced he
    refine ⟨hflush, ?_⟩
    cases x with
    | early code =>
      obtain ⟨hno, hflags, hsync⟩ := hexit
      refine ⟨hflags, fun hs => (hsync hs).trans (not_congr ?_)⟩
      exact ⟨fun hfound => ⟨hfits, hro, hno, hfound⟩, fun h => h.2.2.2⟩
    | stored ret => exact ⟨fun h => hexit.1 h.2.2.1, hexit.2⟩

/-- `gc_check` behind a stored pair leaves `recent_update` set, or the table saved. -/
theorem gcCheck_synced {u : PUnit} (hr : s.recentUpdate = true) (hf : s.isFlush = false)
    (he : gcCheck env s = .ok (u, s')) :
    s'.isFlush = false ∧ (s'.recentUpdate = true ∨ Synced env.toGeometry s') := by
  obtain ⟨_, s₁, he₁, he⟩ := bind_ok.mp he
  have hgc : Stable Config.flags (gcIfNeeded env) := .get fun s => .ite gc_flags (.pure _)
  have hf₁ := hgc.eq he₁
  rw [flushIfNeeded, get_bind_ok] at he
  obtain ⟨_, s₂, he₂, he⟩ := bind_ok.mp he
  obtain rfl := modify_ok.mp he₂
  split at he
  · obtain ⟨_, s₃, -, he⟩ := bind_ok.mp he
    obtain ⟨ret, s₄, he₄, he⟩ := bind_ok.mp he
    obtain ⟨-, rfl⟩ := pure_ok.mp he
    obtain ⟨hsync, hflush⟩ := flushMetadata_forced he₄
    exact ⟨hflush, .inr hsync⟩
  · obtain ⟨-, rfl⟩ := pure_ok.mp he
    exact ⟨(flags_isFlush hf₁).trans hf, .inl ((flags_recentUpdate hf₁).trans hr)⟩

/-! ## Steps between whole operations -/

/-- A whole operation, or a timer callback; `held` when another processor holds `erase_lock` while the
callback runs. -/
inductive Event where
  | set (key val : Option CStr)
  | del (key : Option CStr)
  | tick (held : Bool)
  | flush

/-- A configuration with no operation in progress, and how many timer callbacks in a row, the last one
among them, have found `recent_update` set and `erase_lock` free and have written nothing. -/
structure Watch where
  config : Config
  streak : ℕ

/-- The count behind a callback that has led from `s` to `s'`. -/
def streakAfter (s s' : Config) (streak : ℕ) : ℕ :=
  if s.recentUpdate = true ∧ s.locks .eraseLock = false ∧ s'.mtd = s.mtd then streak + 1 else 0

inductive Moves (env : Env) : Watch → Event → Watch → Prop
  | set {s s' : Config} {streak : ℕ} {key val : Option CStr} (h : Returns env s (.set key val) s') :
      Moves env ⟨s, streak⟩ (.set key val) ⟨s', streak⟩
  | del {s s' : Config} {streak : ℕ} {key : Option CStr} (h : Returns env s (.del key) s') :
      Moves env ⟨s, streak⟩ (.del key) ⟨s', streak⟩
  | tick {s s₀ s' : Config} {streak : ℕ} {held : Bool} {u : PUnit}
      (hs₀ : s₀ = s.lock .eraseLock (held || s.locks .eraseLock))
      (h : flushTimerCallback env s₀ = .ok (u, s')) :
      Moves env ⟨s, streak⟩ (.tick held)
        ⟨s'.lock .eraseLock (s.locks .eraseLock), streakAfter s₀ s' streak⟩
  | flush {s s' : Config} {streak : ℕ} (h : Returns env s (.flush true) s') :
      Moves env ⟨s, streak⟩ .flush ⟨s', streak⟩

/-- With `recent_update` clear the table on flash is the one in RAM; and of `FLUSH_THRESHOLD + 1`
callbacks in a row that should write one has written. -/
structure Kept (g : Geometry) (w : Watch) : Prop where
  synced : w.config.recentUpdate = false → Synced g w.config
  written : w.streak ≤ flushThreshold

/-- The steps that keep this. -/
def Saves (env : Env) (w : Watch) : Event → Prop
  | .set key val => w.config.recentUpdate = false → ¬ DropsOld env w.config key val
  | .del key => w.config.recentUpdate = false → ¬ Deletes env w.config key
  | .tick held => w.config.recentUpdate = true → Synced env.toGeometry w.config ∧
      ((held || w.config.locks .eraseLock) = false → w.streak < flushThreshold)
  | .flush => True

theorem setKeyval_kept {key val : Option CStr} {r : ℤ} (hf : s.isFlush = false)
    (he : setKeyval env key val s = .ok (r, s')) : s'.isFlush = false ∧
      ((s.recentUpdate = false → Synced env.toGeometry s) →
        ((s'.recentUpdate = false → Synced env.toGeometry s') ↔
          (s.recentUpdate = false → ¬ DropsOld env s key val))) := by
  obtain ⟨x, s₁, he₁, he⟩ := bind_ok.mp he
  obtain ⟨hf₁, hexit⟩ := setStore_synced he₁
  cases x with
  | early code =>
    obtain ⟨-, rfl⟩ := pure_ok.mp he
    obtain ⟨hflags, hsync⟩ := hexit
    refine ⟨hf₁.trans hf, fun hs => ?_⟩
    rw [flags_recentUpdate hflags]
    exact forall_congr' fun hr => hsync (hs hr)
  | stored ret =>
    obtain ⟨_, s₂, he₂, he⟩ := bind_ok.mp he
    obtain ⟨-, rfl⟩ := pure_ok.mp he
    obtain ⟨hf₂, hkept⟩ := gcCheck_synced hexit.2 (hf₁.trans hf) he₂
    refine ⟨hf₂, fun _ => iff_of_true (fun hr => ?_) fun _ => hexit.1⟩
    refine hkept.resolve_left fun hset => ?_
    rw [hr] at hset
    cases hset

/-- One step keeps the promise exactly when it is one of `Saves`. -/
theorem moves_kept {w w' : Watch} {e : Event} (h : Moves env w e w') (hf : w.config.isFlush = false) :
    w'.config.isFlush = false ∧
      (Kept env.toGeometry w → (Kept env.toGeometry w' ↔ Saves env w e)) := by
  cases h with
  | set he =>
    obtain ⟨r, he⟩ := he
    obtain ⟨ret, s₁, he₁, he⟩ := bind_ok.mp he
    obtain ⟨-, rfl⟩ := pure_ok.mp he
    obtain ⟨hf', hset⟩ := setKeyval_kept hf he₁
    exact ⟨hf', fun hk => ⟨fun hk' => (hset hk.synced).mp hk'.synced,
      fun hsave => ⟨(hset hk.synced).mpr hsave, hk.written⟩⟩⟩
  | del he =>
    obtain ⟨r, he⟩ := he
    obtain ⟨ret, s₁, he₁, he⟩ := bind_ok.mp he
    obtain ⟨-, rfl⟩ := pure_ok.mp he
    obtain ⟨hflags, hsync⟩ := delKey_synced he₁
    have hr := flags_recentUpdate hflags
    refine ⟨(flags_isFlush hflags).trans hf, fun hk => ⟨fun hk' h₀ => ?_, fun hsave => ?_⟩⟩
    · exact (hsync (hk.synced h₀)).mp (hk'.synced (hr.trans h₀))
    · refine ⟨fun h₀ => ?_, hk.written⟩
      have h₀ : _ = false := hr.symm.trans h₀
      exact (hsync (hk.synced h₀)).mpr (hsave h₀)
  | flush he =>
    obtain ⟨r, he⟩ := he
    obtain ⟨ret, s₁, he₁, he⟩ := bind_ok.mp he
    obtain ⟨-, rfl⟩ := pure_ok.mp he
    obtain ⟨hsync, hf'⟩ := flushMetadata_forced he₁
    exact ⟨hf', fun hk => ⟨fun _ => trivial, fun _ => ⟨fun _ => hsync, hk.written⟩⟩⟩
  | @tick s s₀ s' streak held u hs₀ he =>
    obtain rfl := flushTimerCallback_ok (by rw [hs₀]; exact hf) he
    subst hs₀
    refine ⟨hf, fun hk => ?_⟩
    cases hr : s.recentUpdate with
    | false =>
      refine iff_of_true ⟨fun _ => hk.synced hr, ?_⟩ fun hset => ?_
      · change streakAfter _ _ streak ≤ flushThreshold
        simp [streakAfter, hr]
      · rw [show s.recentUpdate = true from hset] at hr
        cases hr
    | true =>
      have hstreak : streakAfter (s.lock .eraseLock (held || s.locks .eraseLock))
            { s.lock .eraseLock (held || s.locks .eraseLock) with recentUpdate := false } streak =
          if (held || s.locks .eraseLock) = false then streak + 1 else 0 := by
        simp [streakAfter, hr, lock_locks]
      constructor
      · intro hk' _
        refine ⟨hk'.synced rfl, fun hfree => ?_⟩
        have hle := hk'.written
        change streakAfter _ _ streak ≤ flushThreshold at hle
        rw [hstreak, if_pos hfree] at hle
        exact hle
      · intro hsave
        obtain ⟨hsync, hfew⟩ := hsave hr
        refine ⟨fun _ => hsync, ?_⟩
        change streakAfter _ _ streak ≤ flushThreshold
        rw [hstreak]
        split
        · next hfree => exact hfew hfree
        · exact Nat.zero_le _

/-- A run keeps what `recent_update` promises in all its states exactly when each of its steps is one of
`Saves`. No other step does: a callback that finds the flag set clears it and writes nothing. -/
theorem updates_kept_iff {w w' : Watch} {es : List Event} (hf : w.config.isFlush = false)
    (hk : Kept env.toGeometry w) :
    Run (fun w e w' => Moves env w e w' ∧ Kept env.toGeometry w') w es w' ↔
      Run (fun w e w' => Moves env w e w' ∧ Saves env w e) w es w' := by
  constructor
  · refine fun hrun => hrun.transfer (I := fun w => w.config.isFlush = false ∧ Kept env.toGeometry w)
      (fun w e w' hi h => ?_) ⟨hf, hk⟩
    obtain ⟨hf', hiff⟩ := moves_kept h.1 hi.1
    exact ⟨⟨h.1, (hiff hi.2).mp h.2⟩, hf', h.2⟩
  · refine fun hrun => hrun.transfer (I := fun w => w.config.isFlush = false ∧ Kept env.toGeometry w)
      (fun w e w' hi h => ?_) ⟨hf, hk⟩
    obtain ⟨hf', hiff⟩ := moves_kept h.1 hi.1
    have hk' := (hiff hi.2).mpr h.2
    exact ⟨⟨h.1, hk'⟩, hf', hk'⟩

/-- Two blocks of four pages of 1024 bytes: one metadata block is enough. -/
def smallGeometry : Geometry := .ofSizes 2 4 1024 (by decide)

/-- A new device keeps the promise. -/
theorem kept_start (g : Geometry) : Kept g ⟨.start, 0⟩ := ⟨fun _ _ _ => rfl, Nat.zero_le _⟩

/-- Two pairs are stored and one is deleted again; the callback behind a forced flush finds them on flash. -/
theorem updates_kept_iff_flush : ∃ w', Run (fun w e w' => Moves (Env.ideal smallGeometry) w e w' ∧
    Kept smallGeometry w') ⟨.start, 0⟩ [.set (some (.ofBytes [107])) (some (.ofBytes [118])),
      .set (some (.ofBytes [108])) (some (.ofBytes [119])), .del (some (.ofBytes [107])), .flush, .tick false] w' := by
  obtain ⟨s₁, h₁, hr₁, s₂, h₂, hr₂, s₃, h₃, s₄, h₄⟩ : ∃ s₁,
      setKeyval (Env.ideal smallGeometry) (some (.ofBytes [107])) (some (.ofBytes [118])) .start = .ok (0, s₁) ∧
      s₁.recentUpdate = true ∧ ∃ s₂,
      setKeyval (Env.ideal smallGeometry) (some (.ofBytes [108])) (some (.ofBytes [119])) s₁ = .ok (0, s₂) ∧
      s₂.recentUpdate = true ∧ ∃ s₃, delKey (Env.ideal smallGeometry) (some (.ofBytes [107])) s₂ = .ok (1, s₃) ∧
      ∃ s₄, flushMetadata (Env.ideal smallGeometry) true s₃ = .ok (0, s₄) :=
    ⟨_, rfl, rfl, _, rfl, rfl, _, rfl, _, rfl⟩
  obtain ⟨hsync, hf₄⟩ := flushMetadata_forced h₄
  refine ⟨_, (@updates_kept_iff (Env.ideal smallGeometry) _ _ _ rfl (kept_start _)).mpr
    (.cons ⟨.set ⟨_, bind_ok.mpr ⟨_, _, h₁, rfl⟩⟩, fun _ h => ?_⟩
    (.cons ⟨.set ⟨_, bind_ok.mpr ⟨_, _, h₂, rfl⟩⟩, fun h => ?_⟩
    (.cons ⟨.del ⟨_, bind_ok.mpr ⟨_, _, h₃, rfl⟩⟩, fun h => ?_⟩
    (.cons ⟨.flush ⟨_, bind_ok.mpr ⟨_, _, h₄, rfl⟩⟩, trivial⟩
    (.cons ⟨.tick rfl (flushTimerCallback_eq hf₄), fun _ => ⟨hsync, fun _ => Nat.succ_pos _⟩⟩ (.nil _))))))⟩
  · cases h.2.2.2
  · rw [hr₁] at h
    cases h
  · rw [hr₂] at h
    cases h
/-- A pair is stored; the next callback clears `recent_update`, with nothing on flash. -/
theorem tick_forgets_update : ∃ w, Run (Moves (Env.ideal smallGeometry)) ⟨.start, 0⟩
      [.set (some (.ofBytes [107])) (some (.ofBytes [118])), .tick false] w ∧
    w.config.recentUpdate = false ∧ ¬ Synced smallGeometry w.config := by
  refine ⟨_, .cons (.set ⟨(0, []), rfl⟩) (.cons (.tick rfl rfl) (.nil _)), rfl, fun hsync => ?_⟩
  cases congrArg Bucket.pState (hsync 2 (by decide))

end LkpProjects.Parallel
