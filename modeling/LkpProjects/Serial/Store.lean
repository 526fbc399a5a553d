import LkpProjects.Serial.Metadata
import LkpProjects.Library.Stepwise

/-! # The serial store: whole operations

`setKeyval` with everything behind its store phase, and `Request`, the operations a user or the module
loader can perform, each as a step on the configuration.
-/
namespace LkpProjects.Serial
open Nand Bytes Stepwise
set_option autoImplicit false

/-- `set_keyval`'s return code, from the code of `write_page`. -/
def setCode (ret : ℤ) : ℤ := if ret = -1 then -3 else if ret = -2 then -4 else 0

/-- The flush at the end of `set_keyval`; its code is dropped. -/
def timedFlush (env : Env) (elapsed : Bool) (s : Config) : Except Fault Config :=
  if elapsed then
    match flushMetadata env s with
    | .error f => .error f
    | .ok (_, s) => .ok s
  else .ok s

/-- `set_keyval`: 0, -1 when the pair is too big, -3 when the store is read-only, -4 on a driver
error. `elapsed` is the outcome of the test of `time_write - time_flush`. -/
def setKeyval (env : Env) (key val : CStr) (elapsed : Bool) (s : Config) :
    Except Fault (ℤ × Config) :=
  if env.pageSize < key.len + val.len + 8 then .ok (-1, s)
  else if s.readOnly then .ok (-3, s)
  else
    match storePhase env key val s with
    | .error f => .error f
    | .ok (ret, s) =>
        match gbCheck env s with
        | .error f => .error f
        | .ok s =>
            match timedFlush env elapsed s with
            | .error f => .error f
            | .ok s => .ok (setCode ret, s)

/-- Unloading the module and loading it again: `lkp_kv_exit` flushes the metadata, then `init_scan`
reads what is on the flash. -/
def reload (env : Env) (s : Config) : Except Fault (ℤ × Config) :=
  match flushMetadata env s with
  | .error f => .error f
  | .ok (_, s) => initScan env s.mtd

/-- An operation on the store. -/
inductive Request where
  | set (key val : CStr) (elapsed : Bool)
  | get (key : CStr)
  | del (key : CStr)
  | gc
  | flush
  | format
  | reload

/-- What an operation returns: its code, and the bytes that `get_keyval` copies out. -/
structure Result where
  code : ℤ
  val : List Byte
  deriving DecidableEq

/-- One operation. -/
def exec (env : Env) (s : Config) : Request → Except Fault (Result × Config)
  | .set key val elapsed => (setKeyval env key val elapsed s).map fun r => (⟨r.1, []⟩, r.2)
  | .get key => .ok (⟨(getKeyval env key s).1, (getKeyval env key s).2⟩, s)
  | .del key => (delKey env key s).map fun r => (⟨r.1, []⟩, r.2)
  | .gc => (gc env s).map fun s => (⟨0, []⟩, s)
  | .flush => (flushMetadata env s).map fun r => (⟨r.1, []⟩, r.2)
  | .format => .ok (⟨(format env s).1, []⟩, (format env s).2)
  | .reload => (reload env s).map fun r => (⟨r.1, []⟩, r.2)

/-- The configuration of a module loaded for the first time, on a partition that was only ever
erased: `init_scan` finds no metadata and formats. -/
def Fresh (env : Env) (s : Config) : Prop := initScan env [] = .ok (0, s)

/-- One operation that returns, with what it returns. -/
def Step (env : Env) (s : Config) (e : Request × Result) (s' : Config) : Prop :=
  exec env s e.1 = .ok (e.2, s')

/-- A configuration that a module loaded for the first time can get to. -/
def Reachable (env : Env) (s : Config) : Prop :=
  ∃ s₀ es, Fresh env s₀ ∧ Run (Step env) s₀ es s

/-! ## A device to evaluate the model on -/

/-- The size of the memory that `kmalloc` returns for a request of more than 192 bytes. -/
def kmallocSize (size : ℕ) : ℕ := 2 ^ (Nat.log2 (size - 1) + 1)

theorem le_kmallocSize (size : ℕ) : size ≤ kmallocSize size :=
  Nat.le_of_pred_lt Nat.lt_log2_self

/-- A driver that reports no error and refuses pages outside the device, and memory that reads zero. -/
def Env.ideal (g : Geometry) : Env where
  toGeometry := g
  eraseResult _ _ _ := .done
  writeOk _ _ := true
  readOk _ _ := true
  outside _ := none
  keyBuf _ _ := 0
  metaBuf _ _ := 0
  padding _ _ := 0
  metaRoom := kmallocSize (g.pageSize * g.nbMetaPages) / g.pageSize
  nbMetaPages_le := (Nat.le_div_iff_mul_le (Nat.lt_of_lt_of_le (by decide) g.eight_le_pageSize)).mpr
    (Nat.mul_comm _ _ ▸ le_kmallocSize _)

theorem Env.ideal_noDriverError (g : Geometry) : (Env.ideal g).NoDriverError :=
  ⟨fun _ _ _ => rfl, fun _ _ => rfl, fun _ _ => rfl⟩

/-- Two blocks of three pages; the metadata fits one block. -/
def tinyGeometry : Geometry := .ofSizes 2 3 1100 (by decide)

/-- Two blocks of five pages; the metadata fits one block, and the buffer of a mount has room for it. -/
def roomyGeometry : Geometry := .ofSizes 2 5 800 (by decide)

/-- The configuration after loading the module on an erased device. -/
def Env.start (env : Env) : Config := (format env (.blank [])).2

/-- The code of a call, if it returns. -/
def outcome (e : Except Fault (ℤ × Config)) : Option ℤ :=
  match e with
  | .error _ => none
  | .ok (ret, _) => some ret

theorem of_outcome {e : Except Fault (ℤ × Config)} {ret : ℤ} (h : outcome e = some ret) :
    ∃ s, e = .ok (ret, s) := by
  unfold outcome at h
  split at h
  · cases h
  · rename_i r s
    obtain rfl := Option.some.inj h
    exact ⟨s, rfl⟩

/-- Operations one after the other, with what each returns. -/
def execAll (env : Env) :
    List Request → Config → Except Fault (List (Request × Result) × Config)
  | [], s => .ok ([], s)
  | r :: rs, s =>
      match exec env s r with
      | .error f => .error f
      | .ok (x, s) =>
          match execAll env rs s with
          | .error f => .error f
          | .ok (es, s) => .ok ((r, x) :: es, s)

/-- The codes that a sequence of operations returns, if none of them crashes. -/
def codes (env : Env) (rs : List Request) (s : Config) : Option (List ℤ) :=
  match execAll env rs s with
  | .error _ => none
  | .ok (es, _) => some (es.map fun e => e.2.code)

/-- The configuration that a sequence of operations ends in. -/
def final (env : Env) (rs : List Request) (s : Config) : Config :=
  match execAll env rs s with
  | .error _ => s
  | .ok (_, s) => s

theorem execAll_run {env : Env} : ∀ {rs : List Request} {s s' : Config} {es : List (Request × Result)},
    execAll env rs s = .ok (es, s') → Run (Step env) s es s' ∧ es.map Prod.fst = rs
  | [], s, s', es, h => by
      obtain ⟨rfl, rfl⟩ := Prod.mk.inj (Except.ok.inj h)
      exact ⟨.nil s, rfl⟩
  | r :: rs, s, s', es, h => by
      rw [execAll] at h
      split at h
      · cases h
      · rename_i x s₁ h₁
        split at h
        · cases h
        · rename_i es' s₂ h₂
          obtain ⟨rfl, rfl⟩ := Prod.mk.inj (Except.ok.inj h)
          obtain ⟨hr, hes⟩ := execAll_run h₂
          exact ⟨.cons h₁ hr, by rw [List.map_cons, hes]⟩

/-- A sequence of operations that returns is a run to its final configuration. -/
theorem run_of_codes {env : Env} {rs : List Request} {s : Config} {cs : List ℤ}
    (h : codes env rs s = some cs) :
    ∃ es, es.map Prod.fst = rs ∧ es.map (fun e => e.2.code) = cs ∧
      Run (Step env) s es (final env rs s) := by
  unfold codes at h
  unfold final
  split at h
  · cases h
  · rename_i es s' he
    obtain ⟨hr, hes⟩ := execAll_run he
    exact ⟨es, hes, Option.some.inj h, hr⟩

theorem execAll_concat {env : Env} {r : Request} : ∀ (rs : List Request) (s : Config),
    execAll env (rs ++ [r]) s =
      match execAll env rs s with
      | .error f => .error f
      | .ok (es, s) =>
          match exec env s r with
          | .error f => .error f
          | .ok (x, s) => .ok (es ++ [(r, x)], s)
  | [], s => by
      simp only [List.nil_append, execAll]
  | r' :: rs, s => by
      simp only [List.cons_append, execAll]
      cases exec env s r' with
      | error f => rfl
      | ok p =>
        simp only [execAll_concat rs p.2]
        cases execAll env rs p.2 with
        | error f => rfl
        | ok q =>
          simp only
          cases exec env q.2 r <;> rfl

/-- The last step of such a sequence. -/
theorem step_of_codes {env : Env} {rs : List Request} {r : Request} {s : Config} {cs : List ℤ}
    (h : codes env (rs ++ [r]) s = some cs) :
    ∃ x, Step env (final env rs s) (r, x) (final env (rs ++ [r]) s) := by
  unfold codes at h
  unfold final Step
  rw [execAll_concat] at h ⊢
  cases h₁ : execAll env rs s with
  | error f =>
    rw [h₁] at h
    cases h
  | ok p =>
    rw [h₁] at h
    simp only at h ⊢
    cases h₂ : exec env p.2 r with
    | error f =>
      rw [h₂] at h
      cases h
    | ok q => exact ⟨q.1, rfl⟩

/-- The operations return one after the other, and each meets `ok` in the configuration before it. -/
def allMeet (env : Env) (ok : Config → Request → Prop) [∀ s r, Decidable (ok s r)] :
    List Request → Config → Bool
  | [], _ => true
  | r :: rs, s =>
      decide (ok s r) &&
        match exec env s r with
        | .error _ => false
        | .ok (_, s) => allMeet env ok rs s

/-- A sequence of such operations is a run of them. -/
theorem run_of_allMeet {env : Env} {ok : Config → Request → Prop} [∀ s r, Decidable (ok s r)] :
    ∀ {rs : List Request} {s : Config}, allMeet env ok rs s = true →
      ∃ es, execAll env rs s = .ok (es, final env rs s) ∧ es.map Prod.fst = rs ∧
        Run (fun s e s' => ok s e.1 ∧ Step env s e s') s es (final env rs s)
  | [], s, _ => ⟨[], rfl, rfl, .nil s⟩
  | r :: rs, s, h => by
      rw [allMeet, Bool.and_eq_true, decide_eq_true_eq] at h
      obtain ⟨hok, hrest⟩ := h
      cases he : exec env s r with
      | error f =>
        rw [he] at hrest
        cases hrest
      | ok p =>
        rw [he] at hrest
        obtain ⟨es, hall, hes, hr⟩ := run_of_allMeet hrest
        have hcons : execAll env (r :: rs) s = .ok ((r, p.1) :: es, final env rs p.2) := by
          simp only [execAll, he, hall]
        have hfinal : final env (r :: rs) s = final env rs p.2 := by
          rw [final, hcons]
        rw [hfinal]
        exact ⟨(r, p.1) :: es, hcons, by rw [List.map_cons, hes], .cons ⟨hok, he⟩ hr⟩

end LkpProjects.Serial
