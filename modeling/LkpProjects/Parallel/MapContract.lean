import LkpProjects.Library.Threads
import LkpProjects.Parallel.MapCollect
import LkpProjects.Parallel.MapFlush

/-! # The parallel store: one map for all threads

The entry points take `erase_lock` and do their work on the store before they give it back: `critical` is that
part of a call. What follows in `set_keyval`, and what the timers do, takes the lock again for a collection or a
flush, or touches flags and counters that no lock guards (`Background`).

Calls of any number of threads, interleaved in any order at these sections, are linearized with the map as the
object (`map_linearized`), and a call whose condition holds is never stuck at its section (`map_no_stuck`). A call
that runs alone is one of these interleavings (`exec_schedule`), so runs of calls refine the map
(`map_refined`).
-/
namespace LkpProjects.Parallel
open Nand Bytes Hoare Stepwise Threads
open Serial (Geometry)
open Relation (ReflTransGen)
set_option autoImplicit false

variable {env : Env} {s s' s₁ : Config} {m m' : CStr → Option CStr}

/-! ## Calls on the map -/

/-- A call on the map. -/
inductive Ask where
  | set (key val : CStr)
  | get (key : CStr)
  | del (key : CStr)
  | format

def Ask.call : Ask → Call
  | .set key val => .set (some key) (some val)
  | .get key => .get (some key)
  | .del key => .del (some key)
  | .format => .format

/-- A call from `erase_lock` to its unlock, with the result that is returned in the end. -/
def critical (env : Env) : Ask → Kernel (ℤ × List Byte)
  | .set key val => do
      match ← setStore env (some key) (some val) with
      | .early code => pure (code, [])
      | .stored ret => pure (if ret = -1 then -3 else 0, [])
  | .get key => getKeyval env (some key)
  | .del key => do pure (← delKey env (some key), [])
  | .format => do pure (← format env, [])

/-- What a call does to the map, and what it returns. A set that returns -3 has been refused by a read-only
store, or has filled the store. -/
def Answered (m : CStr → Option CStr) (e : Ask × (ℤ × List Byte)) (m' : CStr → Option CStr) : Prop :=
  match e.1 with
  | .set key val => m' = Function.update m key (some val) ∧ (e.2.1 = 0 ∨ e.2.1 = -3) ∨ m' = m ∧ e.2.1 = -3
  | .get key => m' = m ∧ MapInv.Got m key e.2
  | .del key => m' = Function.update m key none ∧ MapInv.Deleted m key e.2.1
  | .format => m' = (fun _ => none) ∧ e.2.1 = 0

/-- The condition on a call: a pair that fits its page and its bucket, and a store that is read-only or has room
for it. -/
def AskOk (env : Env) (s : Config) : Ask → Prop
  | .set key val => key.len < keyRoom ∧ 8 + key.len + val.len ≤ env.pageSize ∧
      (s.readOnly = false → SetOk env.toGeometry s key)
  | _ => True

/-- Between two sections the store holds the map, and no lock is taken. -/
structure Between (env : Env) (s : Config) (m : CStr → Option CStr) : Prop where
  holds : MapInv env s m
  idle : ∀ l, s.locks l = false

/-- What is shown of a call that keeps the locks, with them. -/
theorem Keeps.and_locks {α : Type} {need : List Lock} {c : Kernel α} {Q : α → Config → Prop} {E : Fault → Prop}
    (h : Keeps need c) (hw : wp c Q E s) : wp c (fun a s' => Q a s' ∧ s'.locks = s.locks) E s :=
  wp_iff.mpr ⟨fun _ _ he => ⟨hw.of_ok he, h.locks_eq he⟩, fun _ he => hw.of_error he⟩

theorem Between.of_locks (hI : MapInv env s' m) (hB : Between env s m') (hl : s'.locks = s.locks) :
    Between env s' m := ⟨hI, fun l => by rw [hl]; exact hB.idle l⟩

/-- A section returns what the map says, and leaves the next map. -/
theorem Between.critical_wp (hB : Between env s m) (hdrv : env.NoDriverError)
    (hord : nbProbed env.toGeometry ≤ maxMetaBlk) {a : Ask} (hok : AskOk env s a) :
    wp (critical env a) (fun r s' => ∃ m', Answered m (a, r) m' ∧ Between env s' m') (fun _ => False) s := by
  obtain ⟨hI, hidle⟩ := hB
  cases a with
  | set key val =>
    obtain ⟨hlen, hsize, hset⟩ := hok
    have hstore := hI.setStore_wp hdrv hord hidle hlen hsize hset
    rw [critical, wp_bind]
    refine wp_iff.mpr ⟨fun x s₁ he => ?_, fun f he => hstore.of_error he⟩
    obtain ⟨-, rfl, rfl⟩ | ⟨-, ret, rfl, hI', hret⟩ := hstore.of_ok he
    · exact ⟨m, .inr ⟨rfl, rfl⟩, hI, hidle⟩
    · have hl : s₁.locks = s.locks := by
        obtain ⟨-, ⟨-, ⟨code, hx⟩, -⟩ | ⟨-, hl⟩⟩ := setStore_locks he
        · cases hx
        · exact hl
      refine ⟨_, .inl ⟨rfl, ?_⟩, Between.of_locks hI' ⟨hI, hidle⟩ hl⟩
      rw [hret]
      cases s₁.readOnly with
      | false => exact .inl rfl
      | true => exact .inr rfl
  | get key =>
    refine (hI.getKeyval_wp hdrv hidle).post ?_
    rintro r _ ⟨hgot, rfl⟩
    exact ⟨m, ⟨rfl, hgot⟩, hI, hidle⟩
  | del key =>
    refine ((delKey_keeps _).and_locks (hI.delKey_wp hidle)).bind fun ret s₁ hs₁ => ?_
    exact ⟨_, ⟨rfl, hs₁.1.1⟩, Between.of_locks hs₁.1.2 ⟨hI, hidle⟩ hs₁.2⟩
  | format =>
    refine wp_bind.mpr (wp_iff.mpr ⟨fun ret s₁ he => ?_, fun f he => ?_⟩)
    · have hzero := (format_returns hdrv hidle).of_ok he
      have hI' : MapInv env s₁ fun _ => none := MapInv.of_format hI.ledger.ranks he
      exact ⟨_, ⟨rfl, hzero⟩, Between.of_locks hI' ⟨hI, hidle⟩ (format_keeps.locks_eq he)⟩
    · exact (format_returns hdrv hidle).of_error he

/-! ## The other steps -/

/-- What `erase_lock` guards: all but the flags and the counters. -/
def Config.guarded (s : Config) : (ℕ → BlkInfo) × (ℕ → Bucket) × (ℕ → Option ℕ) × Bool × Bool × History ×
    (Lock → Bool) × (ℕ → Bucket) :=
  (s.blocks, s.hashtable, s.metaBlkordr, s.readOnly, s.metaReadOnly, s.mtd, s.locks, s.saved)

/-- A collection or a flush that takes the lock, or a step that touches flags and counters only. -/
inductive Background (env : Env) : Config → Config → Prop
  | collect {s s' : Config} {u : PUnit} (hmany : 64 ≤ env.pagesPerBlock) (hfree : s.locks .eraseLock = false)
      (hok : ∀ t, gcTarget env.toGeometry s = some t → MoveOk env s t)
      (he : gcLocked env (s.lock .eraseLock true) = .ok (u, s')) : Background env s (s'.lock .eraseLock false)
  | flush {s s' : Config} {ret : ℤ} (hfree : s.locks .eraseLock = false)
      (he : flushLocked env (s.lock .eraseLock true) = .ok (ret, s')) :
      Background env s (s'.lock .eraseLock false)
  | flags {s s' : Config} (he : s'.guarded = s.guarded) : Background env s s'

theorem ledger_of_guarded (he : s'.guarded = s.guarded) : s'.ledger = s.ledger ∧ s'.locks = s.locks := by
  simp only [Config.guarded, Prod.mk.injEq] at he
  obtain ⟨hblk, htab, hord, -, -, hmtd, hlocks, -⟩ := he
  refine ⟨?_, hlocks⟩
  rw [Config.ledger, hblk, htab, hord, hmtd]
  rfl

/-- The map does not change between two sections of calls. -/
theorem Between.background (hB : Between env s m) (hdrv : env.NoDriverError)
    (hord : nbProbed env.toGeometry ≤ maxMetaBlk) (h : Background env s s') : Between env s' m := by
  obtain ⟨hI, hidle⟩ := hB
  cases h with
  | @collect s₁ u hmany hfree hok he =>
    have hlocked := hI.lock .eraseLock true
    have hI' := (hlocked.gcLocked_wp hdrv hord (hidle _) (hidle _) hmany fun t ht => by
      obtain ⟨hdest, hwritable, hroom, hshort, hsame⟩ := hok t ht
      exact ⟨hdest, hwritable, hroom, hshort, hsame⟩).of_ok he
    exact Between.of_locks (hI'.lock .eraseLock false) ⟨hI, hidle⟩ (lock_unlock hfree (gcLocked_keeps.locks_eq he))
  | @flush s₁ ret hfree he =>
    have hI' := (hI.lock .eraseLock true).flushed hdrv he
    exact Between.of_locks (hI'.lock .eraseLock false) ⟨hI, hidle⟩ (lock_unlock hfree (flushLocked_keeps.locks_eq he))
  | flags he =>
    obtain ⟨hledger, hlocks⟩ := ledger_of_guarded he
    exact Between.of_locks (hI.of_ledger hledger) ⟨hI, hidle⟩ hlocks

theorem Between.backgrounds (hB : Between env s m) (hdrv : env.NoDriverError)
    (hord : nbProbed env.toGeometry ≤ maxMetaBlk) (h : ReflTransGen (Background env) s s') : Between env s' m := by
  induction h with
  | refl => exact hB
  | tail _ hstep ih => exact ih.background hdrv hord hstep

/-! ## Many threads -/

/-- A section of a call whose condition holds. -/
def Commits (env : Env) (s : Config) (e : Ask × (ℤ × List Byte)) (s' : Config) : Prop :=
  AskOk env s e.1 ∧ critical env e.1 s = .ok (e.2, s')

theorem Between.commits (hB : Between env s m) (hdrv : env.NoDriverError)
    (hord : nbProbed env.toGeometry ≤ maxMetaBlk) {e : Ask × (ℤ × List Byte)} (h : Commits env s e s') :
    ∃ m', Answered m e m' ∧ Between env s' m' := (hB.critical_wp hdrv hord h.1).of_ok h.2

theorem Formatted.between (hf : Formatted env s) (hidle : ∀ l, s.locks l = false) :
    Between env s fun _ => none := by
  obtain ⟨ret, s₀, hranks, he⟩ := hf
  exact ⟨MapInv.of_format hranks he, hidle⟩

section Interleaved
variable {T : Type} [DecidableEq T] {y : State Config T Ask (ℤ × List Byte)}
  {es : List (Threads.Event T Ask (ℤ × List Byte))}

/-- Every history of calls by any number of threads, their sections interleaved with each other and with
collections and flushes in any order, is linearized: the sections are, in their order, calls on one map, and each
thread's calls take effect between their invocations and their responses. -/
theorem map_linearized (hdrv : env.NoDriverError) (hord : nbProbed env.toGeometry ≤ maxMetaBlk)
    (hf : Formatted env s) (hidle : ∀ l, s.locks l = false)
    (hr : Run (Threads.Step (Commits env) (Background env)) (.start s) es y) :
    Linearized Answered (fun _ => none) es :=
  linearized_of_run (fun _ _ _ _ hB h => hB.commits hdrv hord h) (fun _ _ _ hB h => hB.background hdrv hord h)
    (hf.between hidle) hr

/-- A thread stores a pair, and another one that has called before finds it. -/
theorem two_threads : ∃ (s : Config) (y : State Config Bool Ask (ℤ × List Byte)),
    Formatted (Env.ideal smallGeometry) s ∧ (∀ l, s.locks l = false) ∧
    Run (Threads.Step (Commits (Env.ideal smallGeometry)) (Background (Env.ideal smallGeometry))) (.start s)
      [.invoke false (.get (.ofBytes [107])), .invoke true (.set (.ofBytes [107]) (.ofBytes [118])),
        .commit true (.set (.ofBytes [107]) (.ofBytes [118])) (0, []),
        .commit false (.get (.ofBytes [107])) (1, [118])] y ∧
      y.pc false = .answered (.get (.ofBytes [107])) (1, [118]) := by
  refine ⟨_, _, ⟨0, .start, nofun, rfl⟩, fun l => ?_, .cons (.invoke rfl) (.cons (.invoke rfl)
    (.cons (.commit rfl ⟨⟨by decide, by decide, fun _ => ⟨fun hno => ?_, ?_, by decide⟩⟩, rfl⟩)
      (.cons (.commit rfl ⟨trivial, rfl⟩) (.nil _)))), rfl⟩
  · cases l <;> rfl
  · exact absurd hno.2 (by decide)
  · refine .inr fun b hb => ?_
    exact .inr (.inl (Option.some.inj (hb.symm.trans rfl)))

theorem map_linearized_two : Linearized Answered (fun _ => none)
    [.invoke false (.get (.ofBytes [107])), .invoke true (.set (.ofBytes [107]) (.ofBytes [118])),
      .commit true (.set (.ofBytes [107]) (.ofBytes [118])) (0, []),
      .commit false (.get (.ofBytes [107])) (1, [118])] := by
  obtain ⟨s, y, hf, hidle, hr, -⟩ := two_threads
  exact map_linearized (Env.ideal_noDriverError _) (by decide) hf hidle hr

/-- In every state of such a history, the section of a call whose condition holds returns. -/
theorem map_no_stuck (hdrv : env.NoDriverError) (hord : nbProbed env.toGeometry ≤ maxMetaBlk)
    (hf : Formatted env s) (hidle : ∀ l, s.locks l = false)
    (hr : Run (Threads.Step (Commits env) (Background env)) (.start s) es y) {t : T} {a : Ask}
    (hp : y.pc t = .pending a) (hok : AskOk env y.obj a) :
    ∃ r z, Threads.Step (Commits env) (Background env) y (.commit t a r) z := by
  obtain ⟨m, -, hB⟩ := commits_of_run (fun _ _ _ _ hB h => hB.commits hdrv hord h)
    (fun _ _ _ hB h => hB.background hdrv hord h) hr _ (hf.between hidle)
  cases he : critical env a y.obj with
  | error f => exact (hB.critical_wp hdrv hord hok).of_error he |>.elim
  | ok x => exact ⟨x.1, _, .commit hp ⟨hok, he⟩⟩

/-- The second thread asks again. -/
theorem map_no_stuck_two : ∃ (s : Config) (y z : State Config Bool Ask (ℤ × List Byte)) (r : ℤ × List Byte)
    (es : List (Threads.Event Bool Ask (ℤ × List Byte))),
    Run (Threads.Step (Commits (Env.ideal smallGeometry)) (Background (Env.ideal smallGeometry))) (.start s) es y ∧
      Threads.Step (Commits (Env.ideal smallGeometry)) (Background (Env.ideal smallGeometry)) y
        (.commit false (.del (.ofBytes [107])) r) z := by
  obtain ⟨s, y, hf, hidle, hr, hpc⟩ := two_threads
  have hagain := (hr.concat (.respond hpc)).concat (.invoke (t := false) (o := .del (.ofBytes [107])) rfl)
  obtain ⟨r, z, hz⟩ := map_no_stuck (Env.ideal_noDriverError _) (by decide) hf hidle
    hagain (Function.update_self ..) trivial
  exact ⟨s, _, z, r, _, hagain, hz⟩

end Interleaved

/-! ## A call that runs alone -/

theorem gc_schedule {u : PUnit} (hok : ∀ t, Collects env s t → MoveOk env s t) (he : gc env s = .ok (u, s')) :
    ReflTransGen (Background env) s s' := by
  have hset : Background env s { s with isGb := true } := .flags rfl
  obtain rfl | rfl | ⟨hmany, hflag, hfree, v, s₁, he₁, rfl⟩ := gc_ok he
  · exact .refl
  · exact .single hset
  · have hsection : Background env { s with isGb := true } (s₁.lock .eraseLock false) := by
      refine .collect hmany hfree (fun t ht => ?_) he₁
      obtain ⟨hdest, hwritable, hroom, hshort, hsame⟩ := hok t ⟨hmany, hflag, hfree, ht⟩
      exact ⟨hdest, hwritable, hroom, hshort, hsame⟩
    exact ((ReflTransGen.single hset).tail hsection).tail (.flags rfl)

theorem flushMetadata_schedule {force : Bool} {ret : ℤ} (he : flushMetadata env force s = .ok (ret, s')) :
    ReflTransGen (Background env) s s' := by
  obtain ⟨-, n, rfl⟩ | ⟨-, hfree, b, n, s₁, he₁, rfl⟩ := flushMetadata_ok he
  · exact .single (.flags rfl)
  · have hfirst : Background env s { s with isFlush := b, flushCnt := n } := .flags rfl
    exact ((ReflTransGen.single hfirst).tail (.flush hfree he₁)).tail (.flags rfl)

theorem flushIfNeeded_schedule {u : PUnit} (he : flushIfNeeded env s = .ok (u, s')) :
    ReflTransGen (Background env) s s' := by
  obtain rfl | ⟨-, ret, he₁⟩ := flushIfNeeded_ok he
  · exact .single (.flags rfl)
  · have hzero : Background env s { s with writeCnt := 0 } := .flags rfl
    exact ReflTransGen.head hzero (flushMetadata_schedule he₁)

/-- The condition on a call that runs alone: that on its section, and on each collection that it starts. -/
def LoneOk (env : Env) (s : Config) : Call → Prop
  | .set (some key) (some val) => AskOk env s (.set key val) ∧ ∀ ret s₁,
      setStore env (some key) (some val) s = .ok (.stored ret, s₁) → GcDue env.toGeometry s₁ →
        ∀ t, Collects env s₁ t → MoveOk env s₁ t
  | .gc => ∀ t, Collects env s t → MoveOk env s t
  | _ => True

theorem gcIfNeeded_schedule {u : PUnit} (hok : GcDue env.toGeometry s → ∀ t, Collects env s t → MoveOk env s t)
    (he : gcIfNeeded env s = .ok (u, s')) : ReflTransGen (Background env) s s' := by
  rw [gcIfNeeded, get_bind_ok] at he
  split at he
  · next hdue =>
    obtain ⟨b, hb, hinv⟩ := List.any_eq_true.mp hdue
    exact gc_schedule (hok ⟨b, List.mem_range.mp hb, of_decide_eq_true hinv⟩) he
  · obtain ⟨-, rfl⟩ := pure_ok.mp he
    exact .refl

/-- A call that returns has run its section and then other steps, or other steps only. -/
theorem exec_schedule {c : Call} {r : ℤ × List Byte} (hok : LoneOk env s c) (he : exec env c s = .ok (r, s')) :
    (∃ a s₁, c = a.call ∧ AskOk env s a ∧ critical env a s = .ok (r, s₁) ∧
      ReflTransGen (Background env) s₁ s') ∨
    (c = .gc ∨ ∃ force, c = .flush force) ∧ ReflTransGen (Background env) s s' := by
  cases c with
  | set key val =>
    obtain ⟨code, s₁, he₁, hend⟩ := bind_ok.mp he
    obtain ⟨rfl, rfl⟩ := pure_ok.mp hend
    obtain ⟨x, s₂, he₂, hexit⟩ := bind_ok.mp he₁
    obtain ⟨-, key, val, rfl, rfl, -⟩ := setStore_ok he₂
    obtain ⟨hask, hgc⟩ := hok
    refine .inl ⟨.set key val, s₂, rfl, hask, bind_ok.mpr ⟨x, s₂, he₂, ?_⟩, ?_⟩
    · cases x with
      | early ret => rw [(pure_ok.mp hexit).1]; rfl
      | stored ret =>
        obtain ⟨_, s₃, -, hcode⟩ := bind_ok.mp hexit
        rw [← (pure_ok.mp hcode).1]
        rfl
    · cases x with
      | early ret =>
        rw [(pure_ok.mp hexit).2]
      | stored ret =>
        obtain ⟨_, s₃, he₃, hcode⟩ := bind_ok.mp hexit
        obtain ⟨-, rfl⟩ := pure_ok.mp hcode
        obtain ⟨u, s₄, he₄, he₅⟩ := bind_ok.mp he₃
        exact (gcIfNeeded_schedule (hgc ret s₂ he₂) he₄).trans (flushIfNeeded_schedule he₅)
  | get key =>
    cases key with
    | none =>
      obtain ⟨-, s₁, he₁, -⟩ := withLock_ok he
      obtain ⟨-, s₂, he₂, -⟩ := withLock_ok he₁
      cases he₂
    | some key => exact .inl ⟨.get key, s', rfl, trivial, he, .refl⟩
  | del key =>
    cases key with
    | none =>
      obtain ⟨ret, s₁, he₁, -⟩ := bind_ok.mp he
      obtain ⟨-, s₂, he₂, -⟩ := withLock_ok he₁
      obtain ⟨-, s₃, he₃, -⟩ := withLock_ok he₂
      cases he₃
    | some key => exact .inl ⟨.del key, s', rfl, trivial, he, .refl⟩
  | format => exact .inl ⟨.format, s', rfl, trivial, he, .refl⟩
  | gc =>
    obtain ⟨_, s₁, he₁, hend⟩ := bind_ok.mp he
    obtain ⟨-, rfl⟩ := pure_ok.mp hend
    exact .inr ⟨.inl rfl, gc_schedule hok he₁⟩
  | flush force =>
    obtain ⟨ret, s₁, he₁, hend⟩ := bind_ok.mp he
    obtain ⟨-, rfl⟩ := pure_ok.mp hend
    exact .inr ⟨.inr ⟨force, rfl⟩, flushMetadata_schedule he₁⟩

/-! ## Runs of calls -/

/-- A call on the map, or one that leaves it. -/
def CallAnswered (m : CStr → Option CStr) (e : Call × (ℤ × List Byte)) (m' : CStr → Option CStr) : Prop :=
  (∃ a, e.1 = a.call ∧ Answered m (a, e.2) m') ∨ (e.1 = .gc ∨ ∃ force, e.1 = .flush force) ∧ m' = m

theorem Between.exec (hB : Between env s m) (hdrv : env.NoDriverError) (hord : nbProbed env.toGeometry ≤ maxMetaBlk)
    {e : Call × (ℤ × List Byte)} (hok : LoneOk env s e.1) (he : Parallel.exec env e.1 s = .ok (e.2, s')) :
    ∃ m', CallAnswered m e m' ∧ Between env s' m' := by
  obtain ⟨a, s₁, hc, hask, hcrit, hrest⟩ | ⟨hc, hrest⟩ := exec_schedule hok he
  · obtain ⟨m', hans, hB'⟩ := hB.commits (e := (a, e.2)) hdrv hord ⟨hask, hcrit⟩
    exact ⟨m', .inl ⟨a, hc, hans⟩, hB'.backgrounds hdrv hord hrest⟩
  · exact ⟨m, .inr ⟨hc, rfl⟩, hB.backgrounds hdrv hord hrest⟩

theorem Between.run (hdrv : env.NoDriverError) (hord : nbProbed env.toGeometry ≤ maxMetaBlk)
    {es : List (Call × (ℤ × List Byte))}
    (hr : Run (fun s e s' => LoneOk env s e.1 ∧ Parallel.exec env e.1 s = .ok (e.2, s')) s es s') :
    ∀ {m : CStr → Option CStr}, Between env s m → ∃ m', Run CallAnswered m es m' ∧ Between env s' m' := by
  induction hr with
  | nil s => exact fun {m} hB => ⟨m, .nil m, hB⟩
  | cons hstep hrest ih =>
    intro m hB
    obtain ⟨m₁, hans, hB₁⟩ := hB.exec hdrv hord hstep.1 hstep.2
    obtain ⟨m', hr', hB'⟩ := ih hB₁
    exact ⟨m', .cons hans hr', hB'⟩

/-- Runs of calls from a formatted device are runs of the map, in codes, bytes and contents; and behind each of
them every lookup answers from the map. -/
theorem map_refined (hdrv : env.NoDriverError) (hord : nbProbed env.toGeometry ≤ maxMetaBlk)
    (hf : Formatted env s) (hidle : ∀ l, s.locks l = false) {es : List (Call × (ℤ × List Byte))}
    (hr : Run (fun s e s' => LoneOk env s e.1 ∧ exec env e.1 s = .ok (e.2, s')) s es s') :
    ∃ m, Run CallAnswered (fun _ => none) es m ∧ ∀ key, ∃ r, getKeyval env (some key) s' = .ok (r, s') ∧
      MapInv.Got m key r := by
  obtain ⟨m, hspec, hB⟩ := Between.run hdrv hord hr (hf.between hidle)
  refine ⟨m, hspec, fun key => ?_⟩
  have hget : wp (getKeyval env (some key)) _ _ s' := hB.holds.getKeyval_wp hdrv hB.idle
  cases he : getKeyval env (some key) s' with
  | error f => exact (hget.of_error he).elim
  | ok x =>
    obtain ⟨hgot, hs⟩ := hget.of_ok he
    exact ⟨x.1, by rw [← hs], hgot⟩

/-- A pair is stored, deleted, and looked up. -/
theorem three_calls : ∃ s s', Formatted (Env.ideal smallGeometry) s ∧ (∀ l, s.locks l = false) ∧
    Run (fun s e s' => LoneOk (Env.ideal smallGeometry) s e.1 ∧
      exec (Env.ideal smallGeometry) e.1 s = .ok (e.2, s')) s
      [(.set (some (.ofBytes [107])) (some (.ofBytes [118])), (0, [])), (.del (some (.ofBytes [107])), (1, [])),
        (.get (some (.ofBytes [107])), (-1, []))] s' := by
  refine ⟨_, _, ⟨0, .start, nofun, rfl⟩, fun l => ?_, .cons ⟨⟨⟨by decide, by decide,
    fun _ => ⟨fun hno => ?_, ?_, by decide⟩⟩, fun ret s₁ _ _ t hcol => absurd hcol.pages (by decide)⟩, rfl⟩
      (.cons ⟨trivial, rfl⟩ (.cons ⟨trivial, rfl⟩ (.nil _)))⟩
  · cases l <;> rfl
  · exact absurd hno.2 (by decide)
  · refine .inr fun b hb => ?_
    exact .inr (.inl (Option.some.inj (hb.symm.trans rfl)))

theorem map_refined_three : ∃ s', ∃ m, Run CallAnswered (fun _ => none)
    [(.set (some (.ofBytes [107])) (some (.ofBytes [118])), (0, [])), (.del (some (.ofBytes [107])), (1, [])),
      (.get (some (.ofBytes [107])), (-1, []))] m ∧
    ∀ key, ∃ r, getKeyval (Env.ideal smallGeometry) (some key) s' = .ok (r, s') ∧ MapInv.Got m key r := by
  obtain ⟨s, s', hf, hidle, hr⟩ := three_calls
  exact ⟨s', map_refined (Env.ideal_noDriverError _) (by decide) hf hidle hr⟩

/-- A call with its strings that starts no flush. -/
def NoFlush (env : Env) (s : Config) : Call → Prop
  | .set (some key) (some val) => ∀ ret s₁ u s₂, setStore env (some key) (some val) s = .ok (.stored ret, s₁) →
      gcIfNeeded env s₁ = .ok (u, s₂) → s₂.writeCnt < flushThreshold2
  | .get (some _) => True
  | .del (some _) => True
  | .format => True
  | .gc => True
  | _ => False

theorem Between.gcIfNeeded_wp (hB : Between env s m) (hdrv : env.NoDriverError)
    (hord : nbProbed env.toGeometry ≤ maxMetaBlk)
    (hok : GcDue env.toGeometry s → ∀ t, Collects env s t → MoveOk env s t) :
    wp (gcIfNeeded env) (fun _ _ => True) (fun _ => False) s := by
  rw [gcIfNeeded, wp_bind, wp_get, wp_ite]
  refine ⟨fun hdue => ?_, fun _ => trivial⟩
  obtain ⟨b, hb, hinv⟩ := List.any_eq_true.mp hdue
  have hgc := hB.holds.gc_wp hdrv hord (hB.idle _) (hB.idle _)
    (hok ⟨b, List.mem_range.mp hb, of_decide_eq_true hinv⟩)
  exact hgc.post fun _ _ _ => trivial

/-- A call that meets its condition and starts no flush returns. -/
theorem Between.exec_wp (hB : Between env s m) (hdrv : env.NoDriverError)
    (hord : nbProbed env.toGeometry ≤ maxMetaBlk) {c : Call} (hok : LoneOk env s c) (hnone : NoFlush env s c) :
    wp (Parallel.exec env c) (fun _ _ => True) (fun _ => False) s := by
  have hlone : ∀ {a : Ask}, AskOk env s a → wp (critical env a) (fun _ _ => True) (fun _ => False) s :=
    fun ha => (hB.critical_wp hdrv hord ha).post fun _ _ _ => trivial
  cases c with
  | set key val =>
    cases key with
    | none => cases hnone
    | some key =>
      cases val with
      | none => cases hnone
      | some val =>
        obtain ⟨hask, hgc⟩ := hok
        obtain ⟨hlen, hsize, hset⟩ := hask
        have hstore := hB.holds.setStore_wp hdrv hord hB.idle hlen hsize hset
        rw [Parallel.exec, wp_bind, setKeyval, wp_bind]
        refine wp_iff.mpr ⟨fun x s₁ he => ?_, fun f he => hstore.of_error he⟩
        cases x with
        | early code => trivial
        | stored ret =>
          have hcrit : Commits env s (.set key val, (if ret = -1 then -3 else 0, [])) s₁ :=
            ⟨⟨hlen, hsize, hset⟩, bind_ok.mpr ⟨_, s₁, he, rfl⟩⟩
          obtain ⟨m', -, hB'⟩ := hB.commits hdrv hord hcrit
          have hcollect := hB'.gcIfNeeded_wp hdrv hord (hgc ret s₁ he)
          simp only
          rw [gcCheck, wp_bind, wp_bind]
          refine wp_iff.mpr ⟨fun u s₂ he₂ => ?_, fun f he₂ => hcollect.of_error he₂⟩
          have hcnt := hnone ret s₁ u s₂ he he₂
          rw [flushIfNeeded, wp_bind, wp_get, wp_bind, wp_modify, wp_ite]
          exact ⟨fun hflush => absurd hflush (not_le.mpr hcnt), fun _ => trivial⟩
  | get key =>
    cases key with
    | none => cases hnone
    | some key => exact hlone (a := .get key) trivial
  | del key =>
    cases key with
    | none => cases hnone
    | some key => exact hlone (a := .del key) trivial
  | format => exact hlone (a := .format) trivial
  | gc =>
    have hgc := hB.holds.gc_wp hdrv hord (hB.idle _) (hB.idle _) hok
    rw [Parallel.exec, wp_bind]
    exact hgc.post fun _ _ _ => trivial
  | flush force => cases hnone

/-- Behind a run of calls, each call that meets its condition and starts no flush returns. -/
theorem map_returns (hdrv : env.NoDriverError) (hord : nbProbed env.toGeometry ≤ maxMetaBlk)
    (hf : Formatted env s) (hidle : ∀ l, s.locks l = false) {es : List (Call × (ℤ × List Byte))}
    (hr : Run (fun s e s' => LoneOk env s e.1 ∧ exec env e.1 s = .ok (e.2, s')) s es s') {c : Call}
    (hok : LoneOk env s' c) (hnone : NoFlush env s' c) : ∃ r s₁, exec env c s' = .ok (r, s₁) := by
  obtain ⟨m, -, hB⟩ := Between.run hdrv hord hr (hf.between hidle)
  cases he : exec env c s' with
  | error f => exact ((hB.exec_wp hdrv hord hok hnone).of_error he).elim
  | ok x => exact ⟨x.1, x.2, rfl⟩

/-- A value is stored and then replaced. -/
theorem map_returns_set : ∃ s s' r s₁,
    Run (fun s e s' => LoneOk (Env.ideal smallGeometry) s e.1 ∧
      exec (Env.ideal smallGeometry) e.1 s = .ok (e.2, s')) s
      [(.set (some (.ofBytes [107])) (some (.ofBytes [118])), (0, []))] s' ∧
    exec (Env.ideal smallGeometry) (.set (some (.ofBytes [107])) (some (.ofBytes [119]))) s' = .ok (r, s₁) := by
  obtain ⟨s, hf, hidle, hok, s', hset, hok', hnone⟩ : ∃ s, Formatted (Env.ideal smallGeometry) s ∧
      (∀ l, s.locks l = false) ∧
      LoneOk (Env.ideal smallGeometry) s (.set (some (.ofBytes [107])) (some (.ofBytes [118]))) ∧
      ∃ s', exec (Env.ideal smallGeometry) (.set (some (.ofBytes [107])) (some (.ofBytes [118]))) s =
        .ok ((0, []), s') ∧
      LoneOk (Env.ideal smallGeometry) s' (.set (some (.ofBytes [107])) (some (.ofBytes [119]))) ∧
      NoFlush (Env.ideal smallGeometry) s' (.set (some (.ofBytes [107])) (some (.ofBytes [119]))) := by
    refine ⟨_, ⟨0, .start, nofun, rfl⟩, fun l => ?_, ⟨⟨by decide, by decide,
      fun _ => ⟨fun hno => absurd hno.2 (by decide), .inr fun b hb => ?_, by decide⟩⟩,
      fun ret s₁ _ _ t hcol => absurd hcol.pages (by decide)⟩, _, rfl, ⟨⟨by decide, by decide,
      fun _ => ⟨fun hno => absurd hno.2 (by decide), .inr fun b hb => ?_, by decide⟩⟩,
      fun ret s₁ _ _ t hcol => absurd hcol.pages (by decide)⟩, fun ret s₁ u s₂ h₁ h₂ => ?_⟩
    · cases l <;> rfl
    · exact .inr (.inl (Option.some.inj (hb.symm.trans rfl)))
    · exact .inr (.inl (Option.some.inj (hb.symm.trans rfl)))
    · obtain ⟨-, rfl⟩ := Prod.mk.inj (Except.ok.inj h₁)
      obtain ⟨-, rfl⟩ := Prod.mk.inj (Except.ok.inj h₂)
      decide
  have hr : Run (fun s e s' => LoneOk (Env.ideal smallGeometry) s e.1 ∧
      exec (Env.ideal smallGeometry) e.1 s = .ok (e.2, s')) s
      [(.set (some (.ofBytes [107])) (some (.ofBytes [118])), (0, []))] s' := .cons ⟨hok, hset⟩ (.nil s')
  obtain ⟨r, s₁, he⟩ := map_returns (Env.ideal_noDriverError _) (by decide) hf hidle hr hok' hnone
  exact ⟨s, s', r, s₁, hr, he⟩

end LkpProjects.Parallel
