import LkpProjects.Library.Erasures
import LkpProjects.Parallel.MapContract

/-! # The parallel store: the wear counters

`format_single` counts up `worn` of the block that it erases, `format` sets all of them back, and nothing else
writes them. So they count the erasures since the last `format`, in every configuration between two sections of any
number of threads, whatever sections come before it and whatever the driver answers (`wear_counts`). The block
that the next record goes to is then one that was erased no more often than the others.
-/
namespace LkpProjects.Parallel
open Nand Bytes Hoare
open Serial (Geometry GcRead HdrKind)
open Relation (ReflTransGen)
set_option autoImplicit false

variable {env : Env} {g : Geometry} {s s' : Config} {α : Type}

/-- The counters count the erasures. -/
def WearOk (g : Geometry) (s : Config) : Prop := Counts g.pagesPerBlock g.nbBlocks (fun b => (s.blocks b).worn) s.mtd

/-- A change of a record that leaves the counter. -/
theorem WearOk.modifyBlk (hW : WearOk g s) {b : ℕ} {f : BlkInfo → BlkInfo} (hf : ∀ i, (f i).worn = i.worn) :
    WearOk g (s.modifyBlk b f) := by
  intro c hc
  rw [Config.modifyBlk]
  by_cases hcb : c = b
  · subst hcb
    dsimp only
    rw [Function.update_self, hf]
    exact hW c hc
  · dsimp only
    rw [Function.update_of_ne hcb]
    exact hW c hc

theorem WearOk.setState (hW : WearOk g s) (b : ℕ) (st : BlkState) : WearOk g (s.setState b st) :=
  hW.modifyBlk fun _ => rfl

theorem WearOk.listAdd (hW : WearOk g s) (b h : ℕ) : WearOk g (s.listAdd b h) := hW.modifyBlk fun _ => rfl

theorem WearOk.program (hW : WearOk g s) (p : ℕ) (buf : List Byte) : WearOk g (programPage g p buf s) :=
  hW.modifyBlk (f := fun i => { i with currentPageOffset := i.currentPageOffset + 1 }) fun _ => rfl

theorem WearOk.dropped (hW : WearOk g s) (h : ℕ) : WearOk g (s.dropped g h) :=
  hW.modifyBlk (f := fun i => { i with nbInvalid := i.nbInvalid + 1 }) fun _ => rfl

theorem WearOk.erased (hW : WearOk g s) (hn : 1 < g.nbBlocks) {b : ℕ} {f : BlkInfo → BlkInfo}
    (hf : ∀ i, (f i).worn = i.worn + 1) :
    WearOk g { s.modifyBlk b f with mtd := .erase (b * g.pagesPerBlock) g.pagesPerBlock :: s.mtd } := by
  refine Counts.erase hW g.pagesPerBlock_pos hn (b := b) ?_ fun c hc => ?_
  · exact (congrArg BlkInfo.worn (Config.modifyBlk_self (f := f))).trans (hf _)
  · exact congrArg BlkInfo.worn (Config.modifyBlk_ne (f := f) hc)

/-! ## Function by function -/

theorem withLock_wear {l : Lock} {m : Kernel α} (h : Preserves (WearOk g) m) : Preserves (WearOk g) (withLock l m) := by
  refine .bind (.get fun s => .ite (.throw _) (.update fun _ hW => hW)) fun _ => ?_
  exact .bind h fun a => .bind (.update fun _ hW => hW) fun _ => .pure _

theorem checkOrder_wear (n : ℕ) : Preserves (WearOk g) (checkOrder n) := .ite (.throw _) (.pure _)

theorem deref_wear (p : Option CStr) : Preserves (WearOk g) (deref p) := by
  cases p with
  | none => exact .throw _
  | some str => exact .pure _

theorem writePage_wear (p : ℕ) (buf : List Byte) : Preserves (WearOk env.toGeometry) (writePage env p buf) := by
  have hflash : Preserves (WearOk env.toGeometry) (writeFlash env p buf) := by
    refine .get fun s => .ite (.pure _) (.ite (.throw _) (.ite (.throw _) ?_))
    exact .bind (withLock_wear (.update fun _ hW => hW.program p buf)) fun _ => .pure _
  refine withLock_wear (.bind hflash fun ret => .get fun s => .ite ?_ (.pure _))
  exact .bind (.update fun _ hW => hW) fun _ => .pure _

theorem readPage_wear (p : ℕ) : Preserves (WearOk g) (readPage env p) :=
  withLock_wear (.get fun _ => .ite (.throw _) (.pure _))

theorem writeHdr_wear (p : ℕ) (k : HdrKind) : Preserves (WearOk env.toGeometry) (writeHdr env p k) := by
  refine .get fun s => .ite (.pure _) (.ite (.throw _) (.bind (writePage_wear p _) fun ret => ?_))
  exact .bind (.update fun _ hW => hW.setState _ _) fun _ => .pure _

theorem getNextBlockToWrite_wear : Preserves (WearOk env.toGeometry) (getNextBlockToWrite env) := by
  refine .bind (withLock_wear (.bind (checkOrder_wear _) fun _ => .get fun s => .pure _)) fun target => ?_
  cases target with
  | none => exact .pure _
  | some b =>
    refine .bind (.update fun _ hW => hW.setState b .blkUsed) fun _ => .get fun s => ?_
    exact .ite (writeHdr_wear _ _) (.pure _)

theorem hashAdd_wear (key : CStr) (index : ℕ) : Preserves (WearOk g) (hashAdd env.toGeometry key index) :=
  .ite (.throw _) (.get fun _ => .bind (.update fun _ hW => hW) fun _ => .pure _)

theorem invalidPg_wear (h : ℕ) : Preserves (WearOk g) (invalidPg g h) :=
  .get fun _ => .ite (.throw _) (.ite (.throw _) (.update fun _ hW => hW.dropped h))

/-- `format_single` erases the block whose counter it counts up. -/
theorem formatSingle_wear (hn : 1 < env.nbBlocks) (b : ℕ) :
    Preserves (WearOk env.toGeometry) (formatSingle env b) := by
  refine .get fun s => ?_
  split
  · refine .bind (.update fun s hW => hW.erased hn fun _ => rfl) fun _ => ?_
    refine .bind (withLock_wear (.update fun s hW => hW.modifyBlk fun _ => rfl)) fun _ => ?_
    exact .bind (.update fun _ hW => hW) fun _ => .pure _
  · exact .pure _

/-- `format` erases the device and sets the counters back. -/
theorem format_wear {ret : ℤ} (he : format env s = .ok (ret, s')) : WearOk env.toGeometry s' := by
  obtain ⟨-, rfl⟩ := format_ok he
  exact Counts.whole fun _ _ => rfl

/-! ## `set_keyval`, `get_keyval`, `del_key` -/

theorem invalidOld_wear (key : CStr) : Preserves (WearOk env.toGeometry) (invalidOld env key) := by
  refine .get fun s => ?_
  split
  · exact .pure _
  · exact invalidPg_wear _

theorem storeAt_wear (key val : CStr) (b : ℕ) : Preserves (WearOk env.toGeometry) (storeAt env key val b) := by
  refine .get fun s => .bind (writePage_wear _ _) fun ret => ?_
  refine .bind (withLock_wear (.bind (hashAdd_wear _ _) fun slot => ?_)) fun _ => .pure _
  cases slot with
  | none => exact .throw _
  | some h => exact .update fun _ hW => hW.listAdd b h

theorem setStore_wear (key val : Option CStr) : Preserves (WearOk env.toGeometry) (setStore env key val) := by
  refine .bind (.get fun s => .ite (.throw _) (.update fun _ hW => hW)) fun _ => ?_
  refine .bind (deref_wear key) fun key => .bind (deref_wear val) fun val => ?_
  refine .ite (.pure _) (.get fun s => .ite (.bind (.update fun _ hW => hW) fun _ => .pure _) ?_)
  refine .bind (withLock_wear (invalidOld_wear key)) fun _ => .bind getNextBlockToWrite_wear fun b => ?_
  refine .ite (.pure _) (.bind (storeAt_wear key val _) fun ret => ?_)
  exact .bind (.update fun _ hW => hW) fun _ => .bind (.update fun _ hW => hW) fun _ => .pure _

theorem getKeyval_wear (key : Option CStr) : Preserves (WearOk g) (getKeyval env key) := by
  refine withLock_wear (withLock_wear (.bind (deref_wear key) fun key => .get fun s => ?_))
  split
  · exact .pure _
  · refine .ite (.ite (.pure _) (.bind (readPage_wear _) fun page => ?_)) (.pure _)
    exact .ite (.pure _) (.pure _)

theorem delKey_wear (key : Option CStr) : Preserves (WearOk env.toGeometry) (delKey env key) := by
  refine withLock_wear (withLock_wear (.bind (deref_wear key) fun key => .get fun s => ?_))
  split
  · exact .pure _
  · exact .ite (.ite (.pure _) (.bind (invalidPg_wear _) fun _ => .pure _)) (.pure _)

/-! ## Collections -/

theorem gcReadOne_wear (r : GcRead) (h : ℕ) : Preserves (WearOk env.toGeometry) (gcReadOne env r h) := by
  refine .get fun s => .bind (readPage_wear _) fun page => .ite (.throw _) (.get fun s' => ?_)
  split
  · exact .throw _
  · exact .bind (invalidPg_wear _) fun _ => .pure _

theorem gcRead_wear (target : ℕ) : ∀ (fuel : ℕ) (r : GcRead) (slots : List ℕ),
    Preserves (WearOk env.toGeometry) (gcRead env target fuel r slots)
  | fuel, r, [] => by
    cases fuel <;> exact .pure _
  | 0, r, _ :: _ => .pure _
  | fuel + 1, r, h :: slots => by
    refine .get fun s => .ite (.pure _) (.bind (gcReadOne_wear r h) fun y => ?_)
    exact .ite (.throw _) (gcRead_wear target fuel _ _)

theorem gcWriteOne_wear (victim i keyLen valLen : ℕ) (buffer : ℕ → Byte) :
    Preserves (WearOk env.toGeometry) (gcWriteOne env victim i keyLen valLen buffer) := by
  refine .ite (.throw _) (.get fun s => .bind (writePage_wear _ _) fun ret => ?_)
  refine .bind (withLock_wear (.bind (hashAdd_wear _ _) fun slot => ?_)) fun _ => .pure _
  cases slot with
  | none => exact .throw _
  | some h => exact .ite (.throw _) (.update fun _ hW => hW.listAdd victim h)

theorem gcWrite_wear (victim : ℕ) : ∀ (lens : List (ℕ × ℕ)) (i : ℕ) (buffer : ℕ → Byte),
    Preserves (WearOk env.toGeometry) (gcWrite env victim i lens buffer)
  | [], _, _ => .pure _
  | (_, _) :: lens, i, buffer =>
    .bind (gcWriteOne_wear victim i _ _ buffer) fun buffer => gcWrite_wear victim lens (i + 1) buffer

theorem gcLocked_wear (hn : 1 < env.nbBlocks) : Preserves (WearOk env.toGeometry) (gcLocked env) := by
  refine .bind (checkOrder_wear _) fun _ => .get fun s => ?_
  split
  · exact .pure _
  · refine .get fun s => .bind (.update fun _ hW => hW.setState _ _) fun _ => ?_
    refine .bind (withLock_wear (.get fun s => gcRead_wear _ _ _ _)) fun r => ?_
    refine .bind (formatSingle_wear hn _) fun _ => .get fun s => ?_
    refine .bind (.ite (.bind (writeHdr_wear _ _) fun _ => .pure _) (.pure _)) fun _ => ?_
    exact .bind (gcWrite_wear _ _ _ _) fun _ => withLock_wear (.update fun _ hW => hW.setState _ _)

theorem gc_wear (hn : 1 < env.nbBlocks) : Preserves (WearOk env.toGeometry) (gc env) := by
  refine .ite (.pure _) (.get fun s => .bind (.update fun _ hW => hW) fun _ => .ite (.pure _) ?_)
  have htry : Preserves (WearOk env.toGeometry) (spinTrylock .eraseLock) :=
    .get fun _ => .ite (.pure _) (.bind (.update fun _ hW => hW) fun _ => .pure _)
  refine .bind htry fun b => .ite (.bind (gcLocked_wear hn) fun _ => ?_) (.pure _)
  exact .bind (.update fun _ hW => hW) fun _ => .update fun _ hW => hW

/-! ## Flushes -/

theorem flushSelect_wear (hn : 1 < env.nbBlocks) (pre : ℕ → Option ℕ) : ∀ (is : List ℕ) (enough : ℕ),
    Preserves (WearOk env.toGeometry) (flushSelect env pre is enough)
  | [], _ => .pure _
  | _ :: is, enough => by
    refine .get fun s => .ite (.bind (.update fun _ hW => hW.setState _ _) fun _ => .bind ?_ fun _ => ?_)
      (flushSelect_wear hn pre is enough)
    · rw [formatEntry.eq_def]
      split
      · exact .pure _
      · exact .bind (formatSingle_wear hn _) fun _ => .pure _
    · exact .bind (.update fun _ hW => hW) fun _ => .ite (.pure _) (flushSelect_wear hn pre is (enough + 1))

theorem markUsed_wear (n : ℕ) (hW : WearOk g s) : WearOk g (markUsed n s) := by
  rw [markUsed]
  induction List.range n generalizing s with
  | nil => exact hW
  | cons j js ih =>
    rw [List.foldl_cons]
    refine ih ?_
    split
    · exact hW
    · exact hW.setState _ _

theorem orderBlock_wear (k : ℕ) : Preserves (WearOk g) (orderBlock k) := by
  refine .ite (.throw _) (.get fun s => ?_)
  split
  · exact .throw _
  · exact .pure _

theorem flushWrite_wear : ∀ (is : List ℕ) (jackOfs : ℕ) (ret : ℤ),
    Preserves (WearOk env.toGeometry) (flushWrite env is jackOfs ret)
  | [], _, _ => .pure _
  | i :: is, jackOfs, ret => by
    have hheader : Preserves (WearOk env.toGeometry) (flushHeader env i jackOfs ret) :=
      .ite (.bind (orderBlock_wear _) fun b => .bind (writeHdr_wear _ _) fun _ => .pure _) (.pure _)
    refine .bind (.get fun s => .bind hheader fun y => .bind (orderBlock_wear _) fun b => ?_) fun y => ?_
    · exact .bind (writePage_wear _ _) fun code => .ite (.throw _) (.pure _)
    · exact .bind (flushWrite_wear is _ _) fun _ => .pure _

theorem flushLocked_wear (hn : 1 < env.nbBlocks) : Preserves (WearOk env.toGeometry) (flushLocked env) := by
  refine .bind (checkOrder_wear _) fun _ => .get fun s => .bind (.update fun _ hW => hW) fun _ => ?_
  refine .bind (flushSelect_wear hn _ _ _) fun enough => .ite (.ite (.throw _) (.throw _)) ?_
  refine .bind (withLock_wear (.update fun _ hW => markUsed_wear _ hW)) fun _ => ?_
  exact .bind (flushWrite_wear _ _ _) fun y => .bind (.update fun _ hW => hW) fun _ => .pure _

theorem flushMetadata_wear (hn : 1 < env.nbBlocks) (force : Bool) :
    Preserves (WearOk env.toGeometry) (flushMetadata env force) := by
  refine fun s hW => wp_of_ok fun ret s' he => ?_
  obtain ⟨-, n, rfl⟩ | ⟨-, -, b, n, s₁, he₁, rfl⟩ := flushMetadata_ok he
  · exact hW
  · have hstart : WearOk env.toGeometry (({ s with isFlush := b, flushCnt := n } : Config).lock .eraseLock true) := hW
    have hW₁ := (flushLocked_wear hn).of_ok hstart he₁
    exact hW₁

theorem setKeyval_wear (hn : 1 < env.nbBlocks) (key val : Option CStr) :
    Preserves (WearOk env.toGeometry) (setKeyval env key val) := by
  refine .bind (setStore_wear key val) fun y => ?_
  cases y with
  | early code => exact .pure _
  | stored ret =>
    refine .bind (.bind (.get fun s => .ite (gc_wear hn) (.pure _)) fun _ => ?_) fun _ => .pure _
    refine .get fun s => .bind (.update fun _ hW => hW) fun _ => .ite ?_ (.pure _)
    exact .bind (.update fun _ hW => hW) fun _ => .bind (flushMetadata_wear hn true) fun _ => .pure _

theorem exec_wear (hn : 1 < env.nbBlocks) (c : Call) : Preserves (WearOk env.toGeometry) (exec env c) := by
  cases c with
  | set key val => exact .bind (setKeyval_wear hn key val) fun _ => .pure _
  | get key => exact getKeyval_wear key
  | del key => exact .bind (delKey_wear key) fun _ => .pure _
  | format => exact .bind (fun s _ => wp_of_ok fun _ _ he => format_wear he) fun _ => .pure _
  | gc => exact .bind (gc_wear hn) fun _ => .pure _
  | flush force => exact .bind (flushMetadata_wear hn force) fun _ => .pure _

theorem critical_wear (hn : 1 < env.nbBlocks) (a : Ask) : Preserves (WearOk env.toGeometry) (critical env a) := by
  cases a with
  | set key val =>
    refine .bind (setStore_wear _ _) fun y => ?_
    cases y with
    | early code => exact .pure _
    | stored ret => exact .pure _
  | get key => exact exec_wear hn (.get (some key))
  | del key => exact exec_wear hn (.del (some key))
  | format => exact exec_wear hn .format

/-! ## Runs -/

/-- What some thread does between two configurations that the others see: a call from `erase_lock` to its unlock,
a collection, a flush, a step on flags and counters, or a whole call. -/
inductive Section (env : Env) : Config → Config → Prop
  | critical {s s' : Config} {a : Ask} {r : ℤ × List Byte} (he : critical env a s = .ok (r, s')) : Section env s s'
  | collect {s s' : Config} {u : PUnit} (he : gcLocked env (s.lock .eraseLock true) = .ok (u, s')) :
      Section env s (s'.lock .eraseLock false)
  | flush {s s' : Config} {ret : ℤ} (he : flushLocked env (s.lock .eraseLock true) = .ok (ret, s')) :
      Section env s (s'.lock .eraseLock false)
  | flags {s s' : Config} (he : s'.guarded = s.guarded) : Section env s s'
  | call {s s' : Config} {c : Call} (h : Returns env s c s') : Section env s s'

theorem WearOk.step (hW : WearOk env.toGeometry s) (hn : 1 < env.nbBlocks) (h : Section env s s') :
    WearOk env.toGeometry s' := by
  cases h with
  | critical he => exact (critical_wear hn _).of_ok hW he
  | @collect s₁ u he =>
    have hW₁ : WearOk env.toGeometry s₁ := (gcLocked_wear hn).of_ok (s := s.lock .eraseLock true) hW he
    exact hW₁
  | @flush s₁ ret he =>
    have hW₁ : WearOk env.toGeometry s₁ := (flushLocked_wear hn).of_ok (s := s.lock .eraseLock true) hW he
    exact hW₁
  | flags he =>
    simp only [Config.guarded, Prod.mk.injEq] at he
    obtain ⟨hblk, -, -, -, -, hmtd, -, -⟩ := he
    rwa [WearOk, hblk, hmtd]
  | call h =>
    obtain ⟨r, he⟩ := h
    exact (exec_wear hn _).of_ok hW he

/-- After any sections behind a `format`, the counters count the erasures since the last `format`, and the block
that the allocator takes has been erased no more often than any other that has a page left and holds no metadata. -/
theorem sections_wear (hn : 1 < env.nbBlocks) {s₀ s₁ : Config} {ret : ℤ} (hf : format env s₀ = .ok (ret, s₁))
    (hr : ReflTransGen (Section env) s₁ s) :
    (∀ b < env.nbBlocks, (s.blocks b).worn =
      erasures env.pagesPerBlock (env.nbBlocks * env.pagesPerBlock) b s.mtd) ∧
    ∀ b, getHealthyBlock env.toGeometry s = some b → ∀ c < env.nbBlocks,
      inOrder s.metaBlkordr (nbProbed env.toGeometry) c = false →
      (s.blocks c).currentPageOffset < env.pagesPerBlock →
        erasures env.pagesPerBlock (env.nbBlocks * env.pagesPerBlock) b s.mtd ≤
          erasures env.pagesPerBlock (env.nbBlocks * env.pagesPerBlock) c s.mtd := by
  have hW : WearOk env.toGeometry s := by
    induction hr with
    | refl => exact format_wear hf
    | tail _ h ih => exact ih.step hn h
  refine ⟨hW, fun b hb c hc hord ho => ?_⟩
  obtain ⟨hlt, -, hleast⟩ := Serial.leastWorn_some hb
  have hle := hleast c hc (by simpa using ⟨hord, ho⟩)
  exact (hW b hlt).symm.le.trans (hle.trans (hW c hc).le)

/-- The second forced flush erases the block of the first. -/
theorem sections_wear_flushes : ∃ s : Config, (s.blocks 1).worn = 1 ∧
    ∀ b < smallGeometry.nbBlocks, (s.blocks b).worn =
      erasures smallGeometry.pagesPerBlock (smallGeometry.nbBlocks * smallGeometry.pagesPerBlock) b s.mtd := by
  obtain ⟨s₁, hf, s₂, h₂, s₃, h₃, hworn⟩ : ∃ s₁, format (Env.ideal smallGeometry) .start = .ok (0, s₁) ∧
      ∃ s₂, exec (Env.ideal smallGeometry) (.flush true) s₁ = .ok ((0, []), s₂) ∧
      ∃ s₃, exec (Env.ideal smallGeometry) (.flush true) s₂ = .ok ((0, []), s₃) ∧ (s₃.blocks 1).worn = 1 :=
    ⟨_, rfl, _, rfl, _, rfl, rfl⟩
  exact ⟨s₃, hworn, (sections_wear (by decide) hf
    ((ReflTransGen.single (.call ⟨_, h₂⟩)).tail (.call ⟨_, h₃⟩))).1⟩

end LkpProjects.Parallel
