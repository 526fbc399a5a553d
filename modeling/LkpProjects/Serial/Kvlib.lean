import LkpProjects.Serial.MapContract

/-! # The user's library over the virtual device

`device_ioctl` copies a request in, calls the store, and copies value and code out; a function of `kvlib.c` opens
the device, sends one request, turns its status into a code of its own and closes the device. Here is what
happens while the device is open. Both sides may lose bytes on the way (`Transfer`), and the library reads memory
that it has not initialized (`Stale`): the status after a failed `put_user`, and the buffer of `kvlib_get` when
there is no value.

`Served` is what a call does to the map that the store holds. The library has no case for the statuses that tell
of a failed copy: such a call returns 0, and a set or a deletion so lost leaves the map as it was.
-/
namespace LkpProjects.Serial.Kvlib
open Nand Bytes
set_option autoImplicit false

/-! ## The device -/

/-- The numbers that `device_ioctl` knows, and the others. -/
inductive Command where
  | format
  | set
  | get
  | del
  | gc
  | print
  | other

/-- A `keyval` with what its pointers point to. For a format, `status` is the `int` that is passed. -/
structure Keyval where
  key : CStr
  val : List Byte
  status : ℤ

/-- What gets across during an `ioctl`: how many bytes of the key and of the value stay behind, and whether
`put_user` stores the code. -/
structure Transfer where
  keyLeft : ℕ
  valLeft : ℕ
  put : Bool

def putUser (x : Transfer) (ret : ℤ) (kv : Keyval) : Keyval :=
  if x.put then { kv with status := ret } else kv

/-- `copy_to_user`, with `left` bytes that do not arrive. -/
def copyToUser (left : ℕ) (src dst : List Byte) : List Byte :=
  src.take (src.length - left) ++ dst.drop (src.length - left)

/-- `device_ioctl`: its result, the request with what has been written to it, and the store. -/
def deviceIoctl (env : Env) (x : Transfer) (elapsed : Bool) (cmd : Command) (kv : Keyval) (s : Config) :
    Except Fault (ℤ × Keyval × Config) :=
  match cmd with
  | .format => .ok (0, putUser x (Serial.format env s).1 kv, (Serial.format env s).2)
  | .set =>
      if x.keyLeft + x.valLeft = 0 then
        (setKeyval env kv.key (.ofBytes kv.val) elapsed s).map fun r => (0, putUser x r.1 kv, r.2)
      else .ok (0, putUser x (-7) kv, s)
  | .get =>
      if x.keyLeft = 0 then
        let r := getKeyval env kv.key s
        if 0 ≤ r.1 then
          -- the copy stops at the first NUL of the value, and is as long as that
          let val := (CStr.ofBytes r.2).bytes ++ [0]
          if kv.val.length < val.length then .error .overflow
          else
            let ret := if x.valLeft = 0 then r.1 else -5
            .ok (0, putUser x ret { kv with val := copyToUser x.valLeft val kv.val }, s)
        else .ok (0, putUser x r.1 kv, s)
      else .ok (0, putUser x (-5) kv, s)
  | .del =>
      if x.keyLeft = 0 then (delKey env kv.key s).map fun r => (0, putUser x r.1 kv, r.2)
      else .ok (0, putUser x (-5) kv, s)
  | .gc => (Serial.gc env s).map fun s => (0, kv, s)
  | .print => .ok (0, kv, s)
  | .other => .ok (-8, kv, s)

/-! ## The library -/

/-- What a call finds in the memory that it leaves uninitialized: its status, and the 2049 bytes that
`kvlib_get` allocates for the value. -/
structure Stale where
  status : ℤ
  buffer : List Byte

section Functions
variable (env : Env) (x : Transfer) (j : Stale) (elapsed : Bool) (key val : CStr) (s : Config)

def kvlibFormat : Except Fault (ℤ × Config) := do
  let (err, kv, s) ← deviceIoctl env x elapsed .format ⟨.ofBytes [], [], j.status⟩ s
  pure (if err ≠ 0 then -2 else if kv.status ≠ 0 then -3 else kv.status, s)

/-- The code of `kvlib_set` for the status of its request. -/
def setStatus (status : ℤ) : ℤ :=
  if status = -1 then -3 else if status = -2 then -4 else if status = -3 then -5
  else if status = -4 then -6 else 0

def kvlibSet : Except Fault (ℤ × Config) := do
  let (err, kv, s) ← deviceIoctl env x elapsed .set ⟨key, val.bytes ++ [0], j.status⟩ s
  pure (if err ≠ 0 then -2 else setStatus kv.status, s)

/-- The code of `kvlib_get` and `kvlib_del`. -/
def findStatus (status : ℤ) : ℤ := if status = -1 then -3 else if status = -2 then -4 else 0

/-- The code, and the string that is printed to the caller's buffer. -/
def kvlibGet : Except Fault ((ℤ × List Byte) × Config) := do
  let (err, kv, s) ← deviceIoctl env x elapsed .get ⟨key, j.buffer, j.status⟩ s
  if err ≠ 0 then pure ((-2, []), s)
  else if kv.val.contains 0 then pure ((findStatus kv.status, (CStr.ofBytes kv.val).bytes), s)
  else throw .unterminated

def kvlibDel : Except Fault (ℤ × Config) := do
  let (err, kv, s) ← deviceIoctl env x elapsed .del ⟨key, [], j.status⟩ s
  pure (if err < 0 then -2 else findStatus kv.status, s)

def kvlibGc : Except Fault Config := do
  let (_, _, s) ← deviceIoctl env x elapsed .gc ⟨.ofBytes [], [], j.status⟩ s
  pure s

def kvlibPrint : Except Fault (ℤ × Config) := do
  let (err, _, s) ← deviceIoctl env x elapsed .print ⟨.ofBytes [], [], j.status⟩ s
  pure (if err ≠ 0 then -2 else 0, s)

end Functions

/-- A call of the library. -/
inductive Call where
  | format
  | set (key val : CStr)
  | get (key : CStr)
  | del (key : CStr)
  | gc
  | print

/-- What a call does while it has the device open; it returns a code and a string. -/
def Call.run (env : Env) (x : Transfer) (j : Stale) (elapsed : Bool) (c : Call) (s : Config) :
    Except Fault ((ℤ × List Byte) × Config) :=
  match c with
  | .format => (kvlibFormat env x j elapsed s).map fun r => ((r.1, []), r.2)
  | .set key val => (kvlibSet env x j elapsed key val s).map fun r => ((r.1, []), r.2)
  | .get key => kvlibGet env x j elapsed key s
  | .del key => (kvlibDel env x j elapsed key s).map fun r => ((r.1, []), r.2)
  | .gc => (kvlibGc env x j elapsed s).map fun s => ((0, []), s)
  | .print => (kvlibPrint env x j elapsed s).map fun r => ((r.1, []), r.2)

/-! ## What a call does to the map -/

/-- The map behind a call, and what the call returns. -/
def Served (g : Geometry) (m : CStr → Option CStr) (e : (Call × Transfer) × (ℤ × List Byte))
    (m' : CStr → Option CStr) : Prop :=
  match e.1.1 with
  | .format => m' = (fun _ => none) ∧ e.2.1 = 0
  | .set key val =>
      if e.1.2.keyLeft + e.1.2.valLeft ≠ 0 then m' = m ∧ e.2.1 = 0
      else if g.pageSize < key.len + val.len + 8 then m' = m ∧ e.2.1 = -3
      else m' = Function.update m key (some val) ∧ e.2.1 = 0 ∨ m' = m ∧ e.2.1 = -5
  | .get key => m' = m ∧
      if e.1.2.keyLeft ≠ 0 then e.2.1 = 0
      else match m key with
        | some val => e.2.1 = 0 ∧ (e.1.2.valLeft = 0 → e.2.2 = val.bytes)
        | none => e.2.1 = -3
  | .del key =>
      if e.1.2.keyLeft ≠ 0 then m' = m ∧ e.2.1 = 0
      else m' = Function.update m key none ∧ e.2.1 = if m key = none then -4 else 0
  | .gc => m' = m ∧ e.2.1 = 0
  | .print => m' = m ∧ e.2.1 = 0

/-- The request to the store behind a call. -/
def Call.request (elapsed : Bool) : Call → Option Request
  | .format => some .format
  | .set key val => some (.set key val elapsed)
  | .get key => some (.get key)
  | .del key => some (.del key)
  | .gc => some .gc
  | .print => none

/-- The condition on a call: the store meets `ContractOk`, the code gets across, and the buffer of `kvlib_get` ends
in a NUL. -/
structure CallOk (env : Env) (x : Transfer) (j : Stale) (elapsed : Bool) (s : Config) (c : Call) : Prop where
  request : ∀ req, c.request elapsed = some req → ContractOk env s req
  put : x.put = true
  length : j.buffer.length = 2 ^ 11 + 1
  terminated : j.buffer.getLast? = some 0

section Serving
variable {env : Env} {x : Transfer} {j : Stale} {elapsed : Bool} {c : Call} {key val : CStr} {s : Config}
  {m : CStr → Option CStr}

theorem setKeyval_big (h : env.pageSize < key.len + val.len + 8) :
    setKeyval env key val elapsed s = .ok (-1, s) := if_pos h

/-- The code of a `set_keyval` of a pair that is not too big, under its condition. -/
theorem setKeyval_code (hC : ContractInv env s m) (hdrv : env.NoDriverError)
    (hok : ContractOk env s (.set key val elapsed)) (hsize : ¬ env.pageSize < key.len + val.len + 8) {ret : ℤ}
    {s' : Config} (he : setKeyval env key val elapsed s = .ok (ret, s')) : ret = 0 ∨ ret = -3 := by
  obtain ⟨hlen, hok⟩ := hok
  rw [setKeyval, if_neg hsize] at he
  cases hro : s.readOnly with
  | true =>
    rw [hro, if_pos rfl] at he
    exact .inr (Prod.mk.inj (Except.ok.inj he)).1.symm
  | false =>
    obtain ⟨hstore, -⟩ := (hok.resolve_left hsize).resolve_left (by simp [hro])
    have hfits : 8 + key.len + val.len ≤ env.pageSize := by omega
    obtain ⟨s₁, h₁, -⟩ := hC.storePhase hdrv hlen hfits hro hstore
    rw [hro, if_neg Bool.false_ne_true, h₁] at he
    simp only at he
    split at he
    · cases he
    · split at he
      · cases he
      · exact .inl (Prod.mk.inj (Except.ok.inj he)).1.symm

theorem findStatus_found {ret : ℤ} (h : 0 ≤ ret) : findStatus ret = 0 := by
  rw [findStatus, if_neg (by omega), if_neg (by omega)]

theorem ofBytes_copied (v : CStr) (dst : List Byte) :
    CStr.ofBytes (copyToUser 0 (v.bytes ++ [0]) dst) = v := by
  rw [copyToUser, Nat.sub_zero, List.take_length, List.append_assoc, List.singleton_append, CStr.ofBytes_append]

theorem getLast_mem_drop {l : List Byte} {c : Byte} {n : ℕ} (h : l.getLast? = some c) (hn : n < l.length) :
    c ∈ l.drop n := by
  obtain ⟨init, rfl⟩ := List.getLast?_eq_some_iff.mp h
  rw [List.length_append, List.length_singleton] at hn
  rw [List.drop_append_of_le_length (by omega)]
  exact List.mem_append_right _ (List.mem_singleton_self c)

/-- What has been copied to a buffer that ends in a NUL is a string. -/
theorem nul_mem_copied {left : ℕ} {v : CStr} {dst : List Byte} (hfit : (v.bytes ++ [0]).length ≤ dst.length)
    (hlast : dst.getLast? = some 0) : (0 : Byte) ∈ copyToUser left (v.bytes ++ [0]) dst := by
  rw [copyToUser]
  cases left with
  | zero =>
    rw [Nat.sub_zero, List.take_length]
    exact List.mem_append_left _ (List.mem_append_right _ (List.mem_singleton_self 0))
  | succ n =>
    refine List.mem_append_right _ (getLast_mem_drop hlast ?_)
    rw [List.length_append, List.length_singleton] at hfit ⊢
    omega

/-- A stored value fits the buffer of `kvlib_get`. -/
theorem value_fits (hI : Inv env s m) (hpage : env.pageSize ≤ 2 ^ 11) (hm : m key = some val) :
    (val.bytes ++ [0]).length ≤ 2 ^ 11 + 1 := by
  obtain ⟨h, hv, hk⟩ := hI.complete key val hm
  obtain ⟨v, hv', hh⟩ := hI.stored h hv
  rw [hk, hm] at hv'
  obtain rfl := Option.some.inj hv'
  have hsize := hh.size_le
  have hlen : val.len = val.bytes.length := rfl
  rw [List.length_append, List.length_singleton]
  omega

/-! ## One call -/

section Calls
variable {kv : Keyval} {s' : Config}

theorem putUser_put (hput : x.put = true) (ret : ℤ) (kv : Keyval) : putUser x ret kv = { kv with status := ret } :=
  if_pos hput

/-- `kvlib_get` behind an `ioctl` that leaves a string in its buffer. -/
theorem kvlibGet_of (he : deviceIoctl env x elapsed .get ⟨key, j.buffer, j.status⟩ s = .ok (0, kv, s'))
    (hnul : (0 : Byte) ∈ kv.val) : kvlibGet env x j elapsed key s =
      .ok ((findStatus kv.status, (CStr.ofBytes kv.val).bytes), s') := by
  rw [kvlibGet, he]
  exact if_pos (List.contains_iff_mem.mpr hnul)

theorem get_served (hC : ContractInv env s m) (hdrv : env.NoDriverError) (hpage : env.pageSize ≤ 2 ^ 11)
    (hok : CallOk env x j elapsed s (.get key)) : ∃ r, kvlibGet env x j elapsed key s = .ok (r, s) ∧
      Served env.toGeometry m ((.get key, x), r) m := by
  have hnul : (0 : Byte) ∈ j.buffer := List.mem_of_getLast? hok.terminated
  by_cases hleft : x.keyLeft = 0
  · cases hm : m key with
    | none =>
      have hget := hC.inv.getKeyval_none hm
      have hio : deviceIoctl env x elapsed .get ⟨key, j.buffer, j.status⟩ s =
          .ok (0, ⟨key, j.buffer, -1⟩, s) := by
        rw [deviceIoctl, if_pos hleft, hget]
        exact congrArg (fun kv => Except.ok (0, kv, s)) (putUser_put hok.put _ _)
      refine ⟨_, kvlibGet_of hio hnul, rfl, ?_⟩
      rw [if_neg (not_not.mpr hleft), hm]
      rfl
    | some val =>
      obtain ⟨h, -, -, hget⟩ := hC.inv.getKeyval_some hdrv hm
      have hfit := value_fits hC.inv hpage hm
      have hroom : ¬ j.buffer.length < (val.bytes ++ [0]).length := by
        rw [hok.length]
        omega
      have hio : deviceIoctl env x elapsed .get ⟨key, j.buffer, j.status⟩ s =
          .ok (0, ⟨key, copyToUser x.valLeft (val.bytes ++ [0]) j.buffer,
            if x.valLeft = 0 then ((s.hashtable h).index : ℤ) else -5⟩, s) := by
        rw [deviceIoctl, if_pos hleft, hget]
        simp only
        rw [if_pos (Int.natCast_nonneg _), CStr.ofBytes_bytes, if_neg hroom, putUser_put hok.put]
      refine ⟨_, kvlibGet_of hio (nul_mem_copied (hfit.trans_eq hok.length.symm) hok.terminated), rfl, ?_⟩
      rw [if_neg (not_not.mpr hleft), hm]
      refine ⟨?_, fun hval => ?_⟩
      · simp only
        split
        · exact findStatus_found (Int.natCast_nonneg _)
        · rfl
      · simp only at hval
        rw [hval, ofBytes_copied]
  · have hio : deviceIoctl env x elapsed .get ⟨key, j.buffer, j.status⟩ s =
        .ok (0, ⟨key, j.buffer, -5⟩, s) := by
      rw [deviceIoctl, if_neg hleft]
      exact congrArg (fun kv => Except.ok (0, kv, s)) (putUser_put hok.put _ _)
    refine ⟨_, kvlibGet_of hio hnul, rfl, ?_⟩
    rw [if_pos hleft]
    rfl

/-- `kvlib_set` behind an `ioctl`. -/
theorem kvlibSet_of (he : deviceIoctl env x elapsed .set ⟨key, val.bytes ++ [0], j.status⟩ s = .ok (0, kv, s')) :
    kvlibSet env x j elapsed key val s = .ok (setStatus kv.status, s') := by
  rw [kvlibSet, he]
  rfl

theorem set_served (hC : ContractInv env s m) (hdrv : env.NoDriverError)
    (hok : CallOk env x j elapsed s (.set key val)) : ∃ ret s' m',
      kvlibSet env x j elapsed key val s = .ok (ret, s') ∧
        Served env.toGeometry m ((.set key val, x), (ret, [])) m' ∧ ContractInv env s' m' := by
  have hval : CStr.ofBytes (val.bytes ++ [0]) = val := CStr.ofBytes_append val []
  by_cases hleft : x.keyLeft + x.valLeft = 0
  · have hreq := hok.request _ rfl
    obtain ⟨ret, s', he, hC'⟩ := hC.set hdrv hreq
    have hio : deviceIoctl env x elapsed .set ⟨key, val.bytes ++ [0], j.status⟩ s =
        .ok (0, ⟨key, val.bytes ++ [0], ret⟩, s') := by
      rw [deviceIoctl, if_pos hleft, hval, he]
      exact congrArg (fun kv => Except.ok (0, kv, s')) (putUser_put hok.put _ _)
    refine ⟨_, s', _, kvlibSet_of hio, ?_, hC'⟩
    rw [Served]
    simp only
    rw [if_neg (not_not.mpr hleft)]
    split
    · next hbig =>
      rw [setKeyval_big hbig] at he
      obtain ⟨rfl, -⟩ := Prod.mk.inj (Except.ok.inj he)
      exact ⟨mapAfter_refused (by decide), rfl⟩
    · next hsize =>
      obtain rfl | rfl := setKeyval_code hC hdrv hreq hsize he
      · exact .inl ⟨mapAfter_set rfl, rfl⟩
      · exact .inr ⟨mapAfter_refused (by decide), rfl⟩
  · have hio : deviceIoctl env x elapsed .set ⟨key, val.bytes ++ [0], j.status⟩ s =
        .ok (0, ⟨key, val.bytes ++ [0], -7⟩, s) := by
      rw [deviceIoctl, if_neg hleft]
      exact congrArg (fun kv => Except.ok (0, kv, s)) (putUser_put hok.put _ _)
    refine ⟨_, s, m, kvlibSet_of hio, ?_, hC⟩
    rw [Served]
    exact (if_pos hleft).mpr ⟨rfl, rfl⟩

/-- `kvlib_del` behind an `ioctl`. -/
theorem kvlibDel_of (he : deviceIoctl env x elapsed .del ⟨key, [], j.status⟩ s = .ok (0, kv, s')) :
    kvlibDel env x j elapsed key s = .ok (findStatus kv.status, s') := by
  rw [kvlibDel, he]
  rfl

theorem del_served (hC : ContractInv env s m) (hdrv : env.NoDriverError)
    (hok : CallOk env x j elapsed s (.del key)) : ∃ ret s' m', kvlibDel env x j elapsed key s = .ok (ret, s') ∧
      Served env.toGeometry m ((.del key, x), (ret, [])) m' ∧ ContractInv env s' m' := by
  by_cases hleft : x.keyLeft = 0
  · obtain ⟨ret, s', he, hret, -⟩ := hC.inv.delKey key
    have hstep : Step env s (.del key, ⟨ret, []⟩) s' := by
      rw [Step, exec, he]
      rfl
    have hC' := hC.step hdrv (hok.request _ rfl) hstep
    have hio : deviceIoctl env x elapsed .del ⟨key, [], j.status⟩ s = .ok (0, ⟨key, [], ret⟩, s') := by
      rw [deviceIoctl, if_pos hleft, he]
      exact congrArg (fun kv => Except.ok (0, kv, s')) (putUser_put hok.put _ _)
    refine ⟨_, s', _, kvlibDel_of hio, ?_, hC'⟩
    rw [Served]
    simp only
    rw [if_neg (not_not.mpr hleft)]
    refine ⟨rfl, ?_⟩
    split
    · next hnone =>
      rw [hC.inv.delKey_absent hnone] at he
      obtain ⟨rfl, -⟩ := Prod.mk.inj (Except.ok.inj he)
      rfl
    · next hsome => exact findStatus_found (hret.mpr hsome)
  · have hio : deviceIoctl env x elapsed .del ⟨key, [], j.status⟩ s = .ok (0, ⟨key, [], -5⟩, s) := by
      rw [deviceIoctl, if_neg hleft]
      exact congrArg (fun kv => Except.ok (0, kv, s)) (putUser_put hok.put _ _)
    refine ⟨_, s, m, kvlibDel_of hio, ?_, hC⟩
    rw [Served]
    exact (if_pos hleft).mpr ⟨rfl, rfl⟩

/-- A call that meets its condition returns, and does to the map what its code says. -/
theorem run_served (hC : ContractInv env s m) (hdrv : env.NoDriverError) (hpage : env.pageSize ≤ 2 ^ 11)
    (hok : CallOk env x j elapsed s c) : ∃ r s' m', c.run env x j elapsed s = .ok (r, s') ∧
      Served env.toGeometry m ((c, x), r) m' ∧ ContractInv env s' m' := by
  cases c with
  | format =>
    have hcode : (Serial.format env s).1 = 0 := by rw [format_eq hdrv]
    refine ⟨(0, []), _, _, ?_, ⟨rfl, rfl⟩, hC.format hdrv⟩
    rw [Call.run, kvlibFormat, deviceIoctl, putUser_put hok.put, hcode]
    rfl
  | set key val =>
    obtain ⟨ret, s', m', he, hserved, hC'⟩ := set_served hC hdrv hok
    exact ⟨_, s', m', by rw [Call.run, he]; rfl, hserved, hC'⟩
  | get key =>
    obtain ⟨r, he, hserved⟩ := get_served hC hdrv hpage hok
    exact ⟨r, s, m, he, hserved, hC⟩
  | del key =>
    obtain ⟨ret, s', m', he, hserved, hC'⟩ := del_served hC hdrv hok
    exact ⟨_, s', m', by rw [Call.run, he]; rfl, hserved, hC'⟩
  | gc =>
    obtain ⟨s', he, hC'⟩ := hC.gc hdrv (hok.request _ rfl)
    refine ⟨(0, []), s', m, ?_, ⟨rfl, rfl⟩, hC'⟩
    rw [Call.run, kvlibGc, deviceIoctl, he]
    rfl
  | print => exact ⟨(0, []), s, m, rfl, ⟨rfl, rfl⟩, hC⟩

end Calls

end Serving

end LkpProjects.Serial.Kvlib
