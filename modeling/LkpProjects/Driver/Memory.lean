import LkpProjects.Library.Heap
import LkpProjects.Library.Hoare
import LkpProjects.Driver.Sweep

/-! # The memory of the data-structure driver

`lkp_init` runs a list twice, a queue, a map and the tree, one after the other, and stops at the first code that is
not 0. Each request for memory may be refused. A block that is freed twice and a null pointer that is followed are
faults of a run; `session_ledger` is that no run has one, and which blocks are out when the module is gone.
-/
namespace LkpProjects.Driver
open Hoare Heaps WeightedTree
set_option autoImplicit false

/-- A car of the list, the queue or the map. -/
structure Car where
  num : ℕ
  priceInDollars : ℤ
  deriving DecidableEq

/-- What the containers print: a car, a car under its id, and whether the id of a removed car is found. -/
inductive Line where
  | car (c : Car)
  | mapped (c : Car) (id : ℤ)
  | checked (num : ℕ) (id : ℤ) (found : Bool)
  deriving DecidableEq

/-- The kernel below the module: which request of which size is granted, the code and the capacity that `kfifo_init`
gives for a size, the id that `idr_alloc` gives beside those in use, and the balancing of the tree. -/
structure Services where
  grant : ℕ → ℕ → Bool
  sizeofIdr : ℕ
  kfifoInit : ℕ → ℤ × ℕ
  idrAlloc : List ℤ → ℤ → ℤ → ℤ
  rbInsertColor : ℤ → BinTree ℤ → BinTree ℤ
  rbErase : ℤ → BinTree ℤ → BinTree ℤ
  -- no slab allocator of the kernel serves more at once
  grant_le : ∀ r n, grant r n = true → n ≤ 2 ^ 25

/-- The global `g_rand_int_arry`, the place in the random stream and the lines printed, over the heap. -/
structure Machine where
  heap : Heap
  randIntArry : Option ℕ
  pos : ℕ
  log : List Line

def Machine.boot : Machine := ⟨.empty, none, 0, []⟩

inductive Fault where
  | stop (e : Stop)
  | badFree
  | nullDeref
  deriving DecidableEq

def sizeofInt : ℕ := 4
def sizeofCar : ℕ := 24
def sizeofCar2 : ℕ := 8
def sizeofEntry : ℕ := 32

def enospc : ℤ := 28
def enomem : ℤ := 12

def kmalloc (sv : Services) (size : ℕ) : Prog Machine Fault (Option ℕ) := fun m =>
  let r := m.heap.request (sv.grant m.heap.asked size)
  .ok (r.1, { m with heap := r.2 })

def kfree (b : ℕ) : Prog Machine Fault Unit := fun m =>
  match m.heap.free b with
  | some h => .ok ((), { m with heap := h })
  | none => .error .badFree

def getRandomBytes (draws : ℕ → ℤ) : Prog Machine Fault ℤ := fun m => .ok (draws m.pos, { m with pos := m.pos + 1 })

def printk (l : Line) : Prog Machine Fault Unit := modify fun m => { m with log := m.log ++ [l] }

/-- A function called by `lkp_init`, and what follows if it returns 0. -/
def orReturn (m k : Prog Machine Fault ℤ) : Prog Machine Fault ℤ := do
  let err ← m
  if err ≠ 0 then pure err else k

section Functions
variable (sv : Services) (ds : ℕ) (draws : ℕ → ℤ)

/-! ## The list -/

/-- The rounds `i`, `i + 1`, … of the first loop of `LinkedList` and of `LinkedList_1`, and whether all cars got
their memory. -/
def addCars : ℕ → ℕ → List (ℕ × Car) → Prog Machine Fault (Bool × List (ℕ × Car))
  | 0, _, l => pure (true, l)
  | rest + 1, i, l => do
    match ← kmalloc sv sizeofCar with
    | none => pure (false, l)
    | some b =>
      let price ← getRandomBytes draws
      addCars rest (i + 1) (l ++ [(b, ⟨i, price⟩)])

def linkedList : Prog Machine Fault ℤ := do
  let (ok, l) ← addCars sv draws ds 0 []
  if ok = false then pure (-1)
  else if l.isEmpty then pure (-1)
  else do
    l.forM fun e => do
      printk (.car e.2)
      kfree e.1
    pure 0

def linkedList1 : Prog Machine Fault (ℤ × List (ℕ × Car)) := do
  let (ok, l) ← addCars sv draws ds 0 []
  pure (if ok = false then -1 else 0, l)

def linkedList2 (l : List (ℕ × Car)) : Prog Machine Fault ℤ :=
  if l.isEmpty then pure (-1)
  else do
    l.forM fun e => printk (.car e.2)
    pure 0

def linkedList3 (l : List (ℕ × Car)) : Prog Machine Fault ℤ :=
  if l.isEmpty then pure (-1)
  else do
    l.forM fun e => kfree e.1
    pure 0

/-! ## The queue -/

/-- The rounds `i`, `i + 1`, … of the loop that fills the queue; with a code where `Queue` returns. -/
def fillQueue (capacity : ℕ) : ℕ → ℕ → List Car → Prog Machine Fault (Option ℤ × List Car)
  | 0, _, q => pure (none, q)
  | rest + 1, i, q =>
    if q.length * sizeofCar2 = capacity then pure (some 1, q)
    else do
      match ← kmalloc sv sizeofCar2 with
      | none => pure (some (-1), q)
      | some _ =>
        let price ← getRandomBytes draws
        let ret := min (capacity - q.length * sizeofCar2) sizeofCar2
        if ret ≠ sizeofCar2 then pure (some ret, q)
        else fillQueue capacity rest (i + 1) (q ++ [⟨i, price⟩])

/-- The cars are copied into the queue; their own blocks are never freed. -/
def queue : Prog Machine Fault ℤ := do
  match ← kmalloc sv (ds * sizeofCar2) with
  | none => pure (-1)
  | some buffer =>
    let (ret, capacity) := sv.kfifoInit (ds * sizeofCar2)
    if ret ≠ 0 then pure ret
    else
      let (ret, q) ← fillQueue sv draws capacity ds 0 []
      match ret with
      | some code => pure code
      | none => do
        q.forM fun c => printk (.car c)
        kfree buffer
        pure 0

/-! ## The map -/

/-- The map: under an id the block of a car. -/
abbrev Idr := List (ℤ × ℕ × Car)

def Idr.find (m : Idr) (id : ℤ) : Option (ℕ × Car) := (List.find? (fun e => e.1 == id) m).map Prod.snd

def Idr.remove (m : Idr) (id : ℤ) : Idr := List.filter (fun e => e.1 != id) m

def Idr.ids (m : Idr) : List ℤ := List.map Prod.fst m

/-- The first loop of `Map`, with the ids in `id_list`; with a code where `Map` returns. -/
def allocIds : ℕ → ℕ → Idr → List ℤ → Prog Machine Fault (Option ℤ × Idr × List ℤ)
  | 0, _, m, ids => pure (none, m, ids)
  | rest + 1, i, m, ids => do
    match ← kmalloc sv sizeofCar2 with
    | none => pure (some (-1), m, ids)
    | some b =>
      let price ← getRandomBytes draws
      let id := sv.idrAlloc m.ids 100 (100 + ds)
      if id = -enospc then pure (some id, m, ids)
      else if id = -enomem then pure (some id, m, ids)
      else allocIds rest (i + 1) (m ++ [(id, b, ⟨i, price⟩)]) (ids ++ [id])

/-- The second loop, which prints, removes and frees what is under each id. -/
def removeIds : List ℤ → Idr → Prog Machine Fault Idr
  | [], m => pure m
  | id :: ids, m =>
    match m.find id with
    | none => throw .nullDeref
    | some (b, c) => do
      printk (.mapped c id)
      kfree b
      removeIds ids (m.remove id)

/-- The third loop. -/
def checkIds (m : Idr) : ℕ → List ℤ → Prog Machine Fault Unit
  | _, [] => pure ()
  | i, id :: ids => do
    printk (.checked i id (m.find id).isSome)
    checkIds m (i + 1) ids

/-- The map itself is never freed. -/
def map : Prog Machine Fault ℤ := do
  match ← kmalloc sv sv.sizeofIdr with
  | none => pure (-1)
  | some _ =>
    let (ret, m, ids) ← allocIds sv ds draws ds 0 [] []
    match ret with
    | some code => pure code
    | none => do
      let m ← removeIds ids m
      checkIds m 0 ids
      pure 0

/-! ## The tree -/

/-- The kernel as `RBtree` sees it, whose first node is the request `first`. -/
def Services.kernel (first : ℕ) : Kernel where
  kmalloc n := sv.grant 0 n
  kmallocEntry i := sv.grant (first + i) sizeofEntry
  rbInsertColor := sv.rbInsertColor
  rbErase := sv.rbErase
  kmalloc_le n := sv.grant_le 0 n

/-- The rounds of the first loop as in `insertLoop`, with the block of the node of each offset. -/
def insertNodes (env : Kernel) (tries : ℕ) :
    ℕ → Locals → (ℤ → Option ℕ) → Prog Machine Fault (Option ℤ × Locals × (ℤ → Option ℕ))
  | 0, s, block => pure (none, s, block)
  | rest + 1, s, block =>
    match getIndependantNum ds draws tries s.arry s.pos with
    | .error e => throw (.stop e)
    | .ok (n, arry, pos) =>
      let s := { s with arry := arry, pos := pos, nums := s.nums ++ [n] }
      if n < 0 then pure (some n, s, block)
      else do
        match ← kmalloc sv sizeofEntry with
        | none => pure (some (-1), s, block)
        | some b =>
          let (ret, root) := zswapRbInsert env n s.rbroot
          let block := if ret = 0 then Function.update block n (some b) else block
          insertNodes env tries rest { s with rbroot := root, rets := s.rets ++ [ret] } block

/-- One range as in `sweepRange`. -/
def sweepNodesRange (env : Kernel) (block : ℤ → Option ℕ) : ℕ → ℕ → Locals → Prog Machine Fault Locals
  | 0, _, s => pure s
  | rest + 1, j, s =>
    match zswapRbSearch j s.rbroot with
    | some offset =>
      match block offset with
      | none => throw .badFree
      | some b => do
        kfree b
        sweepNodesRange env block rest (j + 1)
          { s with rbroot := env.rbErase offset s.rbroot, removed := s.removed ++ [offset] }
    | none => sweepNodesRange env block rest (j + 1) s

def sweepNodes (env : Kernel) (range : ℕ) (block : ℤ → Option ℕ) : ℕ → ℕ → Locals → Prog Machine Fault Locals
  | 0, _, _ => throw (.stop .outOfFuel)
  | rounds + 1, i, s =>
    if i < ds * 2 then do
      let s ← sweepNodesRange env block range i s
      sweepNodes env range block rounds (i + range) s
    else pure s

/-- `RBtree` draws on where the containers stopped. -/
def rbTreeNodes (gl : Globals) (tries rounds : ℕ) : Prog Machine Fault ℤ := do
  let m ← get
  let env := sv.kernel m.heap.asked
  let draws := fun i => draws (m.pos + i)
  let (ret, s, block) ←
    insertNodes sv gl.dstructSize draws env tries gl.dstructSize ⟨gl.randIntArry, 0, .nil, [], [], []⟩ fun _ => none
  match ret with
  | some code => pure code
  | none => do
    let _ ← sweepNodes gl.dstructSize env gl.range block rounds 0 s
    pure 0

/-! ## The module -/

/-- What `lkp_init` does once the array of the numbers is there. -/
def runAll (gl : Globals) (tries rounds : ℕ) : Prog Machine Fault ℤ :=
  orReturn (linkedList sv ds draws) do
    let (err, l) ← linkedList1 sv ds draws
    orReturn (pure err) <| orReturn (linkedList2 l) <| orReturn (linkedList3 l) <| orReturn (queue sv ds draws) <|
      orReturn (map sv ds draws) <| rbTreeNodes sv draws gl tries rounds

def lkpInitAll (dstructSize : ℤ) (tries rounds : ℕ) : Prog Machine Fault ℤ :=
  if dstructSize < 1 then pure (-1)
  else do
    let ds := dstructSize.toNat
    match ← kmalloc sv (sizeofInt * (ds + 1)) with
    | none => pure (-1)
    | some arry => do
      modify fun m => { m with randIntArry := some arry }
      runAll sv ds draws ⟨ds, ds / 2, List.replicate (ds + 1) (-1)⟩ tries rounds

def lkpExit : Prog Machine Fault Unit := do
  match (← get).randIntArry with
  | none => pure ()
  | some arry => kfree arry

/-- A load, and the unload if the load did not fail. -/
def session (dstructSize : ℤ) (tries rounds : ℕ) : Prog Machine Fault ℤ := do
  let err ← lkpInitAll sv draws dstructSize tries rounds
  if err < 0 then pure err
  else do
    lkpExit
    pure err

end Functions

end LkpProjects.Driver
