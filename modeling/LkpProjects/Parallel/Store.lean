import LkpProjects.Parallel.Metadata

/-! # The parallel store: the operations

`set_keyval`, `get_keyval` and `del_key` with their locks, and `Call`, the functions that a user or a
timer starts. `set_keyval` is `setStore`, up to its last unlock or an early return, and then `gcCheck`.
-/
namespace LkpProjects.Parallel
open Nand Bytes Hoare
open Serial (Geometry record strncmpEq)
set_option autoImplicit false

/-- `INVALID_THRESHOLD2`. -/
def invalidThreshold2 : ℕ := 50

/-- `FLUSH_THRESHOLD2`. -/
def flushThreshold2 : ℕ := 1000

/-- A string argument is read. -/
def deref (p : Option CStr) : Kernel CStr :=
  match p with
  | none => throw .nullPointer
  | some str => pure str

/-! ## `set_keyval` -/

/-- The old page of a key is invalidated. -/
def invalidOld (env : Env) (key : CStr) : Kernel PUnit := do
  match hashSearch env.toGeometry (← get).hashtable key with
  | none => pure ⟨⟩
  | some h => invalidPg env.toGeometry h

/-- `hash_add` and `list_add`; for `-1` the source goes on with `hashtable[-1]`. -/
def enterBucket (env : Env) (key : CStr) (index b : ℕ) : Kernel PUnit := do
  match ← hashAdd env.toGeometry key index with
  | none => throw .outOfBounds
  | some h => modify fun s => s.listAdd b h

/-- The page is written to block `b` and entered; returns the code of `write_page`. -/
def storeAt (env : Env) (key val : CStr) (b : ℕ) : Kernel ℤ := do
  let index := b * env.pagesPerBlock + ((← get).blocks b).currentPageOffset
  let ret ← writePage env index (record env.toGeometry key val)
  withLock .listLock (enterBucket env key index b)
  pure ret

/-- How `set_keyval` gets to its end: early with a code, or with the code of `write_page`. -/
inductive SetExit where
  | early (code : ℤ)
  | stored (ret : ℤ)
  deriving DecidableEq, Repr

/-- `set_keyval` behind its size check and read-only test. Without a block it returns at once. -/
def setWrite (env : Env) (key val : CStr) : Kernel SetExit := do
  withLock .listLock (invalidOld env key)
  let targetBlock ← getNextBlockToWrite env
  if targetBlock = -1 then pure (.early (-3))
  else
    let ret ← storeAt env key val targetBlock.toNat
    spinUnlock .eraseLock
    modify fun s => { s with recentUpdate := true }
    pure (.stored ret)

/-- `set_keyval` up to `gc_check`. The return for a pair that is too big is without an unlock. -/
def setStore (env : Env) (key val : Option CStr) : Kernel SetExit := do
  spinLock .eraseLock
  let key ← deref key
  let val ← deref val
  if env.pageSize < key.len + val.len + 8 then pure (.early (-1))
  else if (← get).readOnly then
    spinUnlock .eraseLock
    pure (.early (-3))
  else setWrite env key val

section Exits
variable {env : Env} {s s' : Config} {x : SetExit}

/-- The steps of `setWrite`. -/
theorem setWrite_ok {key val : CStr} (he : setWrite env key val s = .ok (x, s')) :
    ∃ u s₁ ret s₂, withLock .listLock (invalidOld env key) s = .ok (u, s₁) ∧
      getNextBlockToWrite env s₁ = .ok (ret, s₂) ∧
      (ret = -1 ∧ x = .early (-3) ∧ s' = s₂ ∨
        ret ≠ -1 ∧ ∃ code s₃, storeAt env key val ret.toNat s₂ = .ok (code, s₃) ∧
          x = .stored code ∧ s' = { s₃.lock .eraseLock false with recentUpdate := true }) := by
  obtain ⟨u, s₁, he₁, he⟩ := bind_ok.mp he
  obtain ⟨ret, s₂, he₂, he⟩ := bind_ok.mp he
  refine ⟨u, s₁, ret, s₂, he₁, he₂, ?_⟩
  split at he
  · next hret =>
    obtain ⟨rfl, rfl⟩ := pure_ok.mp he
    exact .inl ⟨hret, rfl, rfl⟩
  · next hret =>
    obtain ⟨code, s₃, he₃, he⟩ := bind_ok.mp he
    obtain ⟨_, s₄, he₄, he⟩ := bind_ok.mp he
    obtain rfl := modify_ok.mp he₄
    obtain ⟨_, s₅, he₅, he⟩ := bind_ok.mp he
    obtain rfl := modify_ok.mp he₅
    obtain ⟨rfl, rfl⟩ := pure_ok.mp he
    exact .inr ⟨hret, code, s₃, he₃, rfl, rfl⟩

/-- The three ways through `setStore`. -/
theorem setStore_ok {key val : Option CStr} (he : setStore env key val s = .ok (x, s')) :
    s.locks .eraseLock = false ∧ ∃ k v, key = some k ∧ val = some v ∧
      (env.pageSize < k.len + v.len + 8 ∧ x = .early (-1) ∧ s' = s.lock .eraseLock true ∨
        k.len + v.len + 8 ≤ env.pageSize ∧ s.readOnly = true ∧ x = .early (-3) ∧
          s' = (s.lock .eraseLock true).lock .eraseLock false ∨
        k.len + v.len + 8 ≤ env.pageSize ∧ s.readOnly = false ∧
          setWrite env k v (s.lock .eraseLock true) = .ok (x, s')) := by
  obtain ⟨_, s₁, he₁, he⟩ := bind_ok.mp he
  obtain ⟨hfree, rfl⟩ := spinLock_ok he₁
  refine ⟨hfree, ?_⟩
  cases key with
  | none => cases he
  | some k =>
    cases val with
    | none => cases he
    | some v =>
      refine ⟨k, v, rfl, rfl, ?_⟩
      obtain ⟨_, s₂, he₂, he⟩ := bind_ok.mp he
      obtain ⟨rfl, rfl⟩ := pure_ok.mp he₂
      obtain ⟨_, s₂, he₂, he⟩ := bind_ok.mp he
      obtain ⟨rfl, rfl⟩ := pure_ok.mp he₂
      split at he
      · next hbig =>
        obtain ⟨rfl, rfl⟩ := pure_ok.mp he
        exact .inl ⟨hbig, rfl, rfl⟩
      · next hbig =>
        rw [get_bind_ok, lock_readOnly] at he
        split at he
        · next hro =>
          obtain ⟨_, s₃, he₃, he⟩ := bind_ok.mp he
          obtain rfl := modify_ok.mp he₃
          obtain ⟨rfl, rfl⟩ := pure_ok.mp he
          exact .inr (.inl ⟨not_lt.mp hbig, hro, rfl, rfl⟩)
        · next hro => exact .inr (.inr ⟨not_lt.mp hbig, eq_false_of_ne_true hro, he⟩)

end Exits

/-- The first part of `gc_check`. -/
def gcIfNeeded (env : Env) : Kernel PUnit := do
  let s ← get
  if (List.range env.nbBlocks).any fun i => invalidThreshold2 ≤ (s.blocks i).nbInvalid then gc env
  else pure ⟨⟩

/-- The second part of `gc_check`. -/
def flushIfNeeded (env : Env) : Kernel PUnit := do
  let cnt := (← get).writeCnt
  modify fun s => { s with writeCnt := cnt + 1 }
  if flushThreshold2 ≤ cnt then
    modify fun s => { s with writeCnt := 0 }
    let _ ← flushMetadata env true
  else pure ⟨⟩

theorem flushIfNeeded_ok {env : Env} {s s' : Config} {u : PUnit} (he : flushIfNeeded env s = .ok (u, s')) :
    s' = { s with writeCnt := s.writeCnt + 1 } ∨ flushThreshold2 ≤ s.writeCnt ∧
      ∃ ret, flushMetadata env true { s with writeCnt := 0 } = .ok (ret, s') := by
  rw [flushIfNeeded, get_bind_ok] at he
  obtain ⟨_, s₁, he₁, hcnt⟩ := bind_ok.mp he
  obtain rfl := modify_ok.mp he₁
  split at hcnt
  · next hmany =>
    obtain ⟨_, s₂, he₂, hflush⟩ := bind_ok.mp hcnt
    obtain rfl := modify_ok.mp he₂
    obtain ⟨ret, s₃, he₃, hend⟩ := bind_ok.mp hflush
    obtain ⟨-, rfl⟩ := pure_ok.mp hend
    exact .inr ⟨hmany, ret, he₃⟩
  · exact .inl (pure_ok.mp hcnt).2.symm

/-- `gc_check`. -/
def gcCheck (env : Env) : Kernel PUnit := do
  gcIfNeeded env
  flushIfNeeded env

/-- `set_keyval`: 0, -1 when the pair is too big, -3 when the store is read-only or full. -/
def setKeyval (env : Env) (key val : Option CStr) : Kernel ℤ := do
  match ← setStore env key val with
  | .early code => pure code
  | .stored ret =>
      gcCheck env
      pure (if ret = -1 then -3 else 0)

/-! ## `get_keyval` and `del_key` -/

/-- `get_keyval` between its locks: the page index, or a negative code; and the bytes copied out. -/
def getLocked (env : Env) (key : CStr) : Kernel (ℤ × List Byte) := do
  let s ← get
  match hashSearch env.toGeometry s.hashtable key with
  | none => pure (-1, [])
  | some h =>
      let pageIndex := (s.hashtable h).index
      if (s.blocks (pageIndex / env.pagesPerBlock)).state = .blkUsed then
        if (s.hashtable h).pState = .pgFree then pure (-1, [])
        else
          let buffer ← readPage env pageIndex
          let keyLen := readLe (mem buffer) 0
          let valLen := readLe (mem buffer) 4
          if strncmpEq (buffer.drop 8) key then
            pure (pageIndex, (buffer.drop (8 + keyLen)).take valLen)
          else pure (-3, [])
      else pure (-3, [])

/-- `get_keyval`. -/
def getKeyval (env : Env) (key : Option CStr) : Kernel (ℤ × List Byte) :=
  withLock .eraseLock (withLock .listLock do getLocked env (← deref key))

/-- `del_key` between its locks: the page index of the deleted key, or -1. -/
def delLocked (env : Env) (key : CStr) : Kernel ℤ := do
  let s ← get
  match hashSearch env.toGeometry s.hashtable key with
  | none => pure (-1)
  | some h =>
      let pageIndex := (s.hashtable h).index
      if (s.blocks (pageIndex / env.pagesPerBlock)).state = .blkUsed then
        if (s.hashtable h).pState = .pgFree then pure (-1)
        else
          invalidPg env.toGeometry h
          pure pageIndex
      else pure (-1)

/-- `del_key`. -/
def delKey (env : Env) (key : Option CStr) : Kernel ℤ :=
  withLock .eraseLock (withLock .listLock do delLocked env (← deref key))

/-! ## Calls -/

/-- The configuration of a module loaded on an erased partition. -/
def Config.start : Config where
  blocks := fun _ => .erased 0
  hashtable := fun _ => ⟨false, 0, .ofBytes [], .pgFree⟩
  metaBlkordr := fun _ => none
  readOnly := false
  metaReadOnly := false
  mtd := []
  recentUpdate := false
  isGb := false
  isFlush := false
  flushCnt := 0
  writeCnt := 0
  locks := fun _ => false
  saved := fun _ => ⟨false, 0, .ofBytes [], .pgFree⟩

/-- A call of one of the module's entry points. -/
inductive Call where
  | set (key val : Option CStr)
  | get (key : Option CStr)
  | del (key : Option CStr)
  | format
  | gc
  | flush (force : Bool)

/-- What a call returns: its code, and the bytes that `get_keyval` copies out. -/
def exec (env : Env) : Call → Kernel (ℤ × List Byte)
  | .set key val => do pure (← setKeyval env key val, [])
  | .get key => getKeyval env key
  | .del key => do pure (← delKey env key, [])
  | .format => do pure (← format env, [])
  | .gc => do
      gc env
      pure (0, [])
  | .flush force => do pure (← flushMetadata env force, [])

/-- A call that returns leads from one configuration to the next. -/
def Returns (env : Env) (s : Config) (c : Call) (s' : Config) : Prop :=
  ∃ r, exec env c s = .ok (r, s')

end LkpProjects.Parallel
