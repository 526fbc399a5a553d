import LkpProjects.Driver.Memory

/-! # Which blocks are out

The requests of a load are made at eight sites in a fixed order, so a block tells by its number where it comes from.
`Stage` is what holds between two steps of a load as long as nothing was refused: which requests were made, which
blocks are out and what was printed. A site that is through hands its blocks on to the next one, or frees them.
-/
namespace LkpProjects.Driver
open Hoare Heaps WeightedTree
set_option autoImplicit false

/-- Where the requests are made. -/
inductive Site where
  | array | list | list1 | buffer | queue | idr | map | tree

namespace Site

def count (ds : ℕ) : Site → ℕ
  | .array | .buffer | .idr => 1
  | .list | .list1 | .queue | .map | .tree => ds

def first (ds : ℕ) : Site → ℕ
  | .array => 0
  | .list => 1
  | .list1 => 1 + ds
  | .buffer => 1 + 2 * ds
  | .queue => 2 + 2 * ds
  | .idr => 2 + 3 * ds
  | .map => 3 + 3 * ds
  | .tree => 3 + 4 * ds

def size (sv : Services) (ds : ℕ) : Site → ℕ
  | .array => sizeofInt * (ds + 1)
  | .list | .list1 => sizeofCar
  | .buffer => ds * sizeofCar2
  | .queue | .map => sizeofCar2
  | .idr => sv.sizeofIdr
  | .tree => sizeofEntry

/-- The blocks that are out when a site makes its first request. -/
def before (ds : ℕ) : Site → List ℕ
  | .array => []
  | .list | .list1 | .buffer => [0]
  | .queue => [0, 1 + 2 * ds]
  | .idr => 0 :: List.range' (2 + 2 * ds) ds
  | .map | .tree => 0 :: List.range' (2 + 2 * ds) (ds + 1)

/-- The blocks that are out after `i` requests of a site. -/
def held (ds : ℕ) (s : Site) (i : ℕ) : List ℕ := s.before ds ++ List.range' (s.first ds) i

theorem held_succ (ds : ℕ) (s : Site) (i : ℕ) : s.held ds (i + 1) = s.held ds i ++ [s.first ds + i] := by
  rw [held, held, List.range'_concat, Nat.one_mul, List.append_assoc]

theorem held_zero (ds : ℕ) (s : Site) : s.held ds 0 = s.before ds := List.append_nil _

/-- Every request is made at one site. -/
theorem first_inj {ds i j : ℕ} {s t : Site} (hi : i < s.count ds) (hj : j < t.count ds)
    (he : s.first ds + i = t.first ds + j) : s = t ∧ i = j := by
  cases s <;> cases t <;> simp only [count, first] at hi hj he <;> first | exact ⟨rfl, by omega⟩ | (exfalso; omega)

end Site

/-- The requests before number `asked` were all granted. -/
def Granted (sv : Services) (ds asked : ℕ) : Prop :=
  ∀ (s : Site) (i : ℕ), i < s.count ds → s.first ds + i < asked → sv.grant (s.first ds + i) (s.size sv ds) = true

structure Stage (sv : Services) (ds asked : ℕ) (out : List ℕ) (pos : ℕ) (log : List Line) (m : Machine) : Prop where
  granted : Granted sv ds asked
  out : Out m.heap asked out
  arry : m.randIntArry = some 0
  pos : m.pos = pos
  log : m.log = log

/-- A request of a site that was refused. -/
structure Refused (sv : Services) (ds : ℕ) (s : Site) (i : ℕ) (m : Machine) : Prop where
  lt : i < s.count ds
  refused : sv.grant (s.first ds + i) (s.size sv ds) = false
  out : Out m.heap (s.first ds + i + 1) (s.held ds i)
  arry : m.randIntArry = some 0

/-- The only fault: a loop that was given too few rounds. -/
def OnlyFuel (e : Fault) : Prop := e = .stop .outOfFuel

variable {sv : Services} {ds i asked pos : ℕ} {draws : ℕ → ℤ} {out : List ℕ} {log : List Line} {m : Machine} {s : Site}
  {α : Type}

theorem Granted.succ (hg : Granted sv ds (s.first ds + i)) (hi : i < s.count ds)
    (hok : sv.grant (s.first ds + i) (s.size sv ds) = true) : Granted sv ds (s.first ds + i + 1) := by
  intro t j hj hlt
  obtain heq | hlt := Nat.eq_or_lt_of_le (Nat.le_of_lt_succ hlt)
  · obtain ⟨rfl, rfl⟩ := Site.first_inj hj hi heq
    exact hok
  · exact hg t j hj hlt

/-! ## The services -/

theorem wp_kmalloc (hS : Stage sv ds (s.first ds + i) (s.held ds i) pos log m) (hi : i < s.count ds) :
    wp (kmalloc sv (s.size sv ds))
      (fun b m' => (b = some (s.first ds + i) ∧ Stage sv ds (s.first ds + (i + 1)) (s.held ds (i + 1)) pos log m') ∨
        b = none ∧ Refused sv ds s i m') OnlyFuel m := by
  show _ ∨ _
  rw [hS.out.asked]
  cases hgrant : sv.grant (s.first ds + i) (s.size sv ds) with
  | false => exact .inr ⟨hS.out.refused.1, hi, hgrant, hS.out.refused.2, hS.arry⟩
  | true =>
    obtain ⟨hb, hout⟩ := hS.out.granted
    refine .inl ⟨hb, hS.granted.succ hi hgrant, ?_, hS.arry, hS.pos, hS.log⟩
    rw [Site.held_succ]
    exact hout

theorem wp_kfree {as bs : List ℕ} {b : ℕ} (hS : Stage sv ds asked (as ++ b :: bs) pos log m) :
    wp (kfree b) (fun _ => Stage sv ds asked (as ++ bs) pos log) OnlyFuel m := by
  obtain ⟨h, hfree, hout⟩ := hS.out.free
  rw [wp, kfree, hfree]
  exact ⟨hS.granted, hout, hS.arry, hS.pos, hS.log⟩

theorem wp_getRandomBytes (hS : Stage sv ds asked out pos log m) :
    wp (getRandomBytes draws) (fun x m' => x = draws pos ∧ Stage sv ds asked out (pos + 1) log m') OnlyFuel m :=
  ⟨congrArg draws hS.pos, hS.granted, hS.out, hS.arry, congrArg (· + 1) hS.pos, hS.log⟩

theorem wp_printk (hS : Stage sv ds asked out pos log m) (l : Line) :
    wp (printk l) (fun _ => Stage sv ds asked out pos (log ++ [l])) OnlyFuel m :=
  ⟨hS.granted, hS.out, hS.arry, hS.pos, congrArg (· ++ [l]) hS.log⟩

/-! ## The list -/

/-- The cars made from `n` draws, and their blocks from `first` on. -/
def cars (draws : ℕ → ℤ) (pos n : ℕ) : List Car := (List.range n).map fun i => ⟨i, draws (pos + i)⟩

def blocks (draws : ℕ → ℤ) (first pos n : ℕ) : List (ℕ × Car) := (List.range' first n).zip (cars draws pos n)

theorem cars_succ (draws : ℕ → ℤ) (pos n : ℕ) :
    cars draws pos (n + 1) = cars draws pos n ++ [⟨n, draws (pos + n)⟩] := by
  rw [cars, cars, List.range_succ, List.map_append]
  rfl

theorem cars_length (draws : ℕ → ℤ) (pos n : ℕ) : (cars draws pos n).length = n := by
  rw [cars, List.length_map, List.length_range]

theorem blocks_succ (draws : ℕ → ℤ) (first pos n : ℕ) :
    blocks draws first pos (n + 1) = blocks draws first pos n ++ [(first + n, ⟨n, draws (pos + n)⟩)] := by
  have hlen : (List.range' first n).length = (cars draws pos n).length := by
    rw [List.length_range', cars_length]
  rw [blocks, blocks, List.range'_concat, Nat.one_mul, cars_succ, List.zip_append hlen]
  rfl

theorem blocks_fst (draws : ℕ → ℤ) (first pos n : ℕ) : (blocks draws first pos n).map Prod.fst = List.range' first n :=
  List.map_fst_zip (by rw [cars_length, List.length_range'])

theorem blocks_snd (draws : ℕ → ℤ) (first pos n : ℕ) : (blocks draws first pos n).map Prod.snd = cars draws pos n :=
  List.map_snd_zip (by rw [cars_length, List.length_range'])

theorem blocks_ne_nil {first : ℕ} (hds : 1 ≤ ds) : (blocks draws first pos ds).isEmpty = false := by
  obtain ⟨n, rfl⟩ := Nat.exists_eq_add_of_le hds
  rw [Nat.add_comm, blocks_succ]
  exact List.isEmpty_eq_false_iff.mpr (List.append_ne_nil_of_right_ne_nil _ (List.cons_ne_nil _ _))

theorem wp_addCars (hsize : s.size sv ds = sizeofCar) (hcount : s.count ds = ds) : ∀ {rest i : ℕ} {m : Machine},
    i + rest = ds → Stage sv ds (s.first ds + i) (s.held ds i) (pos + i) log m →
      wp (addCars sv draws rest i (blocks draws (s.first ds) pos i))
        (fun r m' => (r = (true, blocks draws (s.first ds) pos ds) ∧
            Stage sv ds (s.first ds + ds) (s.held ds ds) (pos + ds) log m') ∨
          r.1 = false ∧ ∃ j, Refused sv ds s j m') OnlyFuel m := by
  intro rest
  induction rest with
  | zero =>
    intro i m hrest hS
    obtain rfl : i = ds := by omega
    exact .inl ⟨rfl, hS⟩
  | succ rest ih =>
    intro i m hrest hS
    rw [addCars, ← hsize]
    refine (wp_kmalloc hS (by omega)).bind fun b m₁ h => ?_
    obtain ⟨rfl, hS₁⟩ | ⟨rfl, hno⟩ := h
    · refine (wp_getRandomBytes hS₁).bind fun price m₂ h => ?_
      obtain ⟨rfl, hS₂⟩ := h
      rw [← blocks_succ]
      exact ih (by omega) hS₂
    · exact .inr ⟨rfl, i, hno⟩

/-- The lines of a loop that prints cars. -/
def carLines (l : List Car) : List Line := l.map .car

theorem wp_printFree {l : List (ℕ × Car)} (hS : Stage sv ds asked (out ++ l.map Prod.fst) pos log m) :
    wp (l.forM fun e => do printk (.car e.2); kfree e.1)
      (fun _ => Stage sv ds asked out pos (log ++ carLines (l.map Prod.snd))) OnlyFuel m := by
  have hstart : Stage sv ds asked (out ++ l.map Prod.fst) pos
      (log ++ carLines (([] : List (ℕ × Car)).map Prod.snd)) m := by
    rw [List.map_nil, carLines, List.map_nil, List.append_nil]
    exact hS
  have hloop := wp_forM (f := fun e : ℕ × Car => do printk (.car e.2); kfree e.1) (E := OnlyFuel)
    (I := fun xs ys => Stage sv ds asked (out ++ ys.map Prod.fst) pos (log ++ carLines (xs.map Prod.snd)))
    (fun xs e ys m hI => (wp_printk hI (.car e.2)).bind fun _ m₁ h₁ => (wp_kfree h₁).post fun _ m₂ h₂ => by
      rw [List.append_assoc] at h₂
      rw [List.map_append, carLines, List.map_append]
      exact h₂) hstart
  refine hloop.post fun _ m' h => ?_
  rw [List.map_nil, List.append_nil] at h
  exact h

theorem wp_print {ι : Type} {l : List ι} (f : ι → Car) (hS : Stage sv ds asked out pos log m) :
    wp (l.forM fun e => printk (.car (f e))) (fun _ => Stage sv ds asked out pos (log ++ carLines (l.map f)))
      OnlyFuel m := by
  have hstart : Stage sv ds asked out pos (log ++ carLines (([] : List ι).map f)) m := by
    rw [List.map_nil, carLines, List.map_nil, List.append_nil]
    exact hS
  exact wp_forM (I := fun xs _ => Stage sv ds asked out pos (log ++ carLines (xs.map f))) (fun xs e ys m hI =>
    (wp_printk hI (.car (f e))).post fun _ m' h => by
      rw [List.map_append, carLines, List.map_append, ← List.append_assoc]
      exact h) hstart

theorem wp_freeAll {l : List (ℕ × Car)} (hS : Stage sv ds asked (out ++ l.map Prod.fst) pos log m) :
    wp (l.forM fun e => kfree e.1) (fun _ => Stage sv ds asked out pos log) OnlyFuel m := by
  have hloop := wp_forM (I := fun _ ys => Stage sv ds asked (out ++ ys.map Prod.fst) pos log)
    (fun _ (e : ℕ × Car) ys m hI => wp_kfree hI) hS
  refine hloop.post fun _ m' h => ?_
  rw [List.map_nil, List.append_nil] at h
  exact h

/-! ## Where a load stops -/

/-- What stops a load, with its code, the requests made so far and the blocks that are out. -/
inductive Cause (sv : Services) (ds : ℕ) : ℤ → ℕ → List ℕ → Prop
  | refused {s : Site} {i : ℕ} (hi : i < s.count ds) (hno : sv.grant (s.first ds + i) (s.size sv ds) = false) :
      Cause sv ds (-1) (s.first ds + i + 1) (s.held ds i)
  | kfifoInit (hne : (sv.kfifoInit (ds * sizeofCar2)).1 ≠ 0) :
      Cause sv ds (sv.kfifoInit (ds * sizeofCar2)).1 (Site.queue.first ds) (Site.queue.held ds 0)
  | full {i : ℕ} (hi : i < ds) (hcap : (sv.kfifoInit (ds * sizeofCar2)).2 = i * sizeofCar2) :
      Cause sv ds 1 (Site.queue.first ds + i) (Site.queue.held ds i)
  | cut {i : ℕ} (hi : i < ds) (hlo : i * sizeofCar2 < (sv.kfifoInit (ds * sizeofCar2)).2)
      (hhi : (sv.kfifoInit (ds * sizeofCar2)).2 < (i + 1) * sizeofCar2) :
      Cause sv ds ((sv.kfifoInit (ds * sizeofCar2)).2 - i * sizeofCar2 : ℕ) (Site.queue.first ds + (i + 1))
        (Site.queue.held ds (i + 1))
  | idr {i : ℕ} (hi : i < ds) {used : List ℤ} (hused : used.length = i)
      (hno : sv.idrAlloc used 100 (100 + ds) = -enomem) :
      Cause sv ds (-enomem) (Site.map.first ds + (i + 1)) (Site.map.held ds (i + 1))

/-- A load that stopped before its end. -/
structure Stopped (sv : Services) (ds : ℕ) (code : ℤ) (m : Machine) : Prop where
  cause : ∃ out, Cause sv ds code m.heap.asked out ∧ m.heap.live.Perm out
  arry : m.randIntArry = some 0

theorem Refused.stopped (h : Refused sv ds s i m) : Stopped sv ds (-1) m where
  cause := by
    refine ⟨_, ?_, h.out.live⟩
    rw [h.out.asked]
    exact .refused h.lt h.refused
  arry := h.arry

theorem Stage.stopped {code : ℤ} (hS : Stage sv ds asked out pos log m) (h : Cause sv ds code asked out) :
    Stopped sv ds code m where
  cause := by
    refine ⟨out, ?_, hS.out.live⟩
    rw [hS.out.asked]
    exact h
  arry := hS.arry

theorem Stopped.ne_zero {code : ℤ} (h : Stopped sv ds code m) : code ≠ 0 := by
  obtain ⟨out, hcause, -⟩ := h.cause
  generalize m.heap.asked = asked at hcause
  cases hcause with
  | refused => decide
  | kfifoInit hne => exact hne
  | full => decide
  | cut _ hlo => omega
  | idr => decide

/-- What a function leaves, with what it returns: it did its work, or the load stops. -/
def Ends (sv : Services) (ds : ℕ) (P : Machine → Prop) (code : ℤ) (m : Machine) : Prop :=
  code = 0 ∧ P m ∨ Stopped sv ds code m

theorem wp_orReturn {f k : Prog Machine Fault ℤ} {P P' : Machine → Prop} (h : wp f (Ends sv ds P) OnlyFuel m)
    (hk : ∀ m', P m' → wp k (Ends sv ds P') OnlyFuel m') : wp (orReturn f k) (Ends sv ds P') OnlyFuel m := by
  refine h.bind fun code m' hends => ?_
  obtain ⟨rfl, hP⟩ | hstop := hends
  · exact hk m' hP
  · rw [if_pos hstop.ne_zero]
    exact .inr hstop

/-! ## The containers -/

/-- The loop that makes the cars of a list. -/
theorem wp_allCars (hsize : s.size sv ds = sizeofCar) (hcount : s.count ds = ds)
    (hS : Stage sv ds (s.first ds) (s.before ds) pos log m) : wp (addCars sv draws ds 0 [])
      (fun r m' => (r = (true, blocks draws (s.first ds) pos ds) ∧
          Stage sv ds (s.first ds + ds) (s.held ds ds) (pos + ds) log m') ∨
        r.1 = false ∧ Stopped sv ds (-1) m') OnlyFuel m := by
  have hstart : Stage sv ds (s.first ds + 0) (s.held ds 0) (pos + 0) log m := by
    rw [Site.held_zero]
    exact hS
  refine (wp_addCars hsize hcount (Nat.zero_add ds) hstart).post fun r m' h => ?_
  obtain h | ⟨hr, j, hno⟩ := h
  · exact .inl h
  · exact .inr ⟨hr, hno.stopped⟩

theorem linkedList1_spec (hS : Stage sv ds (Site.list1.first ds) (Site.list1.before ds) pos log m) :
    wp (linkedList1 sv ds draws) (fun r => Ends sv ds (fun m' => r.2 = blocks draws (Site.list1.first ds) pos ds ∧
      Stage sv ds (Site.buffer.first ds) (Site.list1.held ds ds) (pos + ds) log m') r.1) OnlyFuel m := by
  refine (wp_allCars (s := .list1) rfl rfl hS).bind fun r m₁ h => ?_
  obtain ⟨rfl, hS₁⟩ | ⟨hr, hstop⟩ := h
  · have hfirst : Site.list1.first ds + ds = Site.buffer.first ds := by
      simp only [Site.first]
      omega
    rw [hfirst] at hS₁
    exact .inl ⟨rfl, rfl, hS₁⟩
  · obtain ⟨ok, l⟩ := r
    obtain rfl : ok = false := hr
    exact .inr hstop

section List
variable (hds : 1 ≤ ds)
include hds

theorem linkedList_spec (hS : Stage sv ds (Site.list.first ds) (Site.list.before ds) pos log m) :
    wp (linkedList sv ds draws) (Ends sv ds (Stage sv ds (Site.list1.first ds) (Site.list1.before ds) (pos + ds)
      (log ++ carLines (cars draws pos ds)))) OnlyFuel m := by
  refine (wp_allCars (s := .list) rfl rfl hS).bind fun r m₁ h => ?_
  obtain ⟨rfl, hS₁⟩ | ⟨hr, hstop⟩ := h
  · simp only [Bool.true_eq_false, if_false, blocks_ne_nil hds]
    rw [Site.held, ← blocks_fst draws _ pos] at hS₁
    refine (wp_printFree hS₁).bind fun _ m₂ h₂ => ?_
    rw [blocks_snd] at h₂
    exact .inl ⟨rfl, h₂⟩
  · obtain ⟨ok, l⟩ := r
    obtain rfl : ok = false := hr
    exact .inr hstop

theorem linkedList2_spec {first pos' : ℕ} (hS : Stage sv ds asked out pos' log m) :
    wp (linkedList2 (blocks draws first pos ds))
      (Ends sv ds (Stage sv ds asked out pos' (log ++ carLines (cars draws pos ds)))) OnlyFuel m := by
  rw [linkedList2, blocks_ne_nil hds]
  refine (wp_print Prod.snd hS).bind fun _ m' h => ?_
  rw [blocks_snd] at h
  exact .inl ⟨rfl, h⟩

theorem linkedList3_spec {first pos' : ℕ} (hS : Stage sv ds asked (out ++ List.range' first ds) pos' log m) :
    wp (linkedList3 (blocks draws first pos ds)) (Ends sv ds (Stage sv ds asked out pos' log)) OnlyFuel m := by
  rw [linkedList3, blocks_ne_nil hds]
  rw [← blocks_fst draws first pos] at hS
  refine (wp_freeAll hS).bind fun _ m' h => ?_
  exact .inl ⟨rfl, h⟩

end List

/-- The queue has room for all cars. -/
def Fits (sv : Services) (ds : ℕ) : Prop :=
  (sv.kfifoInit (ds * sizeofCar2)).1 = 0 ∧ ds * sizeofCar2 ≤ (sv.kfifoInit (ds * sizeofCar2)).2

theorem wp_fillQueue {capacity : ℕ} (hcap : (sv.kfifoInit (ds * sizeofCar2)).2 = capacity) :
    ∀ {rest i : ℕ} {m : Machine}, i + rest = ds → i * sizeofCar2 ≤ capacity →
      Stage sv ds (Site.queue.first ds + i) (Site.queue.held ds i) (pos + i) log m →
      wp (fillQueue sv draws capacity rest i (cars draws pos i))
        (fun r m' => (r = (none, cars draws pos ds) ∧ ds * sizeofCar2 ≤ capacity ∧
            Stage sv ds (Site.queue.first ds + ds) (Site.queue.held ds ds) (pos + ds) log m') ∨
          ∃ code q, r = (some code, q) ∧ Stopped sv ds code m') OnlyFuel m := by
  intro rest
  induction rest with
  | zero =>
    intro i m hrest hle hS
    obtain rfl : i = ds := by omega
    exact .inl ⟨rfl, hle, hS⟩
  | succ rest ih =>
    intro i m hrest hle hS
    have hi : i < ds := by omega
    rw [fillQueue, cars_length]
    split
    · next hfull => exact .inr ⟨_, _, rfl, hS.stopped (.full hi (hcap.trans hfull.symm))⟩
    · next hroom =>
      refine (wp_kmalloc (s := .queue) hS hi).bind fun b m₁ h => ?_
      obtain ⟨rfl, hS₁⟩ | ⟨rfl, hno⟩ := h
      · refine (wp_getRandomBytes hS₁).bind fun price m₂ h => ?_
        obtain ⟨rfl, hS₂⟩ := h
        have hsucc : (i + 1) * sizeofCar2 = i * sizeofCar2 + sizeofCar2 := Nat.succ_mul i sizeofCar2
        dsimp only
        split
        · next hcut =>
          refine .inr ⟨_, _, rfl, hS₂.stopped ?_⟩
          have hmin : min (capacity - i * sizeofCar2) sizeofCar2 = capacity - i * sizeofCar2 := by omega
          rw [hmin, ← hcap]
          refine .cut hi ?_ ?_ <;> omega
        · next hwhole =>
          rw [← cars_succ]
          exact ih (by omega) (by omega) hS₂
      · exact .inr ⟨_, _, rfl, hno.stopped⟩

theorem queue_spec (hS : Stage sv ds (Site.buffer.first ds) (Site.buffer.before ds) pos log m) :
    wp (queue sv ds draws) (Ends sv ds fun m' => Fits sv ds ∧ Stage sv ds (Site.idr.first ds)
      (Site.idr.before ds) (pos + ds) (log ++ carLines (cars draws pos ds)) m') OnlyFuel m := by
  rw [← Site.held_zero] at hS
  refine (wp_kmalloc (s := .buffer) hS Nat.one_pos).bind fun b m₁ h => ?_
  obtain ⟨rfl, hS₁⟩ | ⟨rfl, hno⟩ := h
  · have hqueue : Stage sv ds (Site.queue.first ds) (Site.queue.held ds 0) pos log m₁ := by
      have hfirst : Site.buffer.first ds + (0 + 1) = Site.queue.first ds := by
        simp only [Site.first]
        omega
      rw [hfirst] at hS₁
      exact hS₁
    dsimp only
    split
    · next hne => exact .inr (hqueue.stopped (.kfifoInit hne))
    · next hok =>
      have hok : (sv.kfifoInit (ds * sizeofCar2)).1 = 0 := not_not.mp hok
      have hstart : Stage sv ds (Site.queue.first ds + 0) (Site.queue.held ds 0) (pos + 0) log m₁ := hqueue
      refine (wp_fillQueue rfl (Nat.zero_add ds) (by omega) hstart).bind fun r m₂ h => ?_
      obtain ⟨rfl, hroom, hS₂⟩ | ⟨code, q, rfl, hstop⟩ := h
      · refine (wp_print id hS₂).bind fun _ m₃ hS₃ => ?_
        have hnext : Site.queue.first ds + ds = Site.idr.first ds := by
          simp only [Site.first]
          omega
        rw [hnext, List.map_id] at hS₃
        -- the buffer is the second block that is out
        have hS₃ : Stage sv ds (Site.idr.first ds) ([0] ++ (1 + 2 * ds) :: List.range' (2 + 2 * ds) ds) _ _ m₃ := hS₃
        exact (wp_kfree hS₃).bind fun _ m₄ hS₄ => .inl ⟨rfl, ⟨hok, hroom⟩, hS₄⟩
      · exact .inr hstop
  · exact .inr hno.stopped

/-- Balancing keeps the nodes, and `idr_alloc` gives an id of the range that is not in use as long as there is one and
it has memory. -/
structure Services.Lawful (sv : Services) : Prop where
  insertColor : ∀ k t, (sv.rbInsertColor k t).inorder = t.inorder
  erase : ∀ k t, (sv.rbErase k t).inorder = t.inorder.erase k
  idrAlloc : ∀ used first last, (sv.idrAlloc used first last = -enospc ∧ ∀ id, first ≤ id → id < last → id ∈ used) ∨
    sv.idrAlloc used first last = -enomem ∨
    (first ≤ sv.idrAlloc used first last ∧ sv.idrAlloc used first last < last ∧ sv.idrAlloc used first last ∉ used)

theorem Services.Lawful.keepsOrder (hsv : sv.Lawful) (first : ℕ) : (sv.kernel first).KeepsOrder :=
  ⟨hsv.insertColor, hsv.erase⟩

/-- `n` ids given by the map. -/
structure Ids (ds n : ℕ) (ids : List ℤ) : Prop where
  length : ids.length = n
  nodup : ids.Nodup
  bounds : ∀ id ∈ ids, 100 ≤ id ∧ id < 100 + ds

theorem Ids.start (ds : ℕ) : Ids ds 0 [] := ⟨rfl, List.nodup_nil, fun _ h => absurd h List.not_mem_nil⟩

theorem Ids.succ {n : ℕ} {ids : List ℤ} {id : ℤ} (hI : Ids ds n ids) (hnew : id ∉ ids) (hb : 100 ≤ id ∧ id < 100 + ds) :
    Ids ds (n + 1) (ids ++ [id]) where
  length := by rw [List.length_append, hI.length, List.length_singleton]
  nodup := List.nodup_append.mpr ⟨hI.nodup, List.nodup_singleton id, fun a ha b hb => by
    rw [List.mem_singleton.mp hb]
    exact fun h => hnew (h ▸ ha)⟩
  bounds a ha := by
    obtain ha | ha := List.mem_append.mp ha
    · exact hI.bounds a ha
    · rw [List.mem_singleton.mp ha]
      exact hb

/-- With fewer ids than the range has, one is left. -/
theorem Ids.not_full {n : ℕ} {ids : List ℤ} (hI : Ids ds n ids) (hn : n < ds) :
    ¬ ∀ id : ℤ, 100 ≤ id → id < 100 + ds → id ∈ ids := by
  intro hall
  have hsub : ((List.range ds).map fun k : ℕ => (100 + k : ℤ)) ⊆ ids := by
    intro id hid
    obtain ⟨k, hk, rfl⟩ := List.mem_map.mp hid
    have hlt := List.mem_range.mp hk
    exact hall _ (by omega) (by omega)
  have hnodup : ((List.range ds).map fun k : ℕ => (100 + k : ℤ)).Nodup :=
    List.nodup_range.map fun a b hab => by simpa using hab
  have hle := (hnodup.subperm hsub).length_le
  rw [List.length_map, List.length_range, hI.length] at hle
  omega

theorem wp_allocIds (hsv : sv.Lawful) : ∀ {rest i : ℕ} {ids : List ℤ} {m : Machine}, i + rest = ds → Ids ds i ids →
    Stage sv ds (Site.map.first ds + i) (Site.map.held ds i) (pos + i) log m →
      wp (allocIds sv ds draws rest i (ids.zip (blocks draws (Site.map.first ds) pos i)) ids)
        (fun r m' => (∃ ids, r = (none, ids.zip (blocks draws (Site.map.first ds) pos ds), ids) ∧ Ids ds ds ids ∧
            Stage sv ds (Site.map.first ds + ds) (Site.map.held ds ds) (pos + ds) log m') ∨
          ∃ code mp ids, r = (some code, mp, ids) ∧ Stopped sv ds code m') OnlyFuel m := by
  intro rest
  induction rest with
  | zero =>
    intro i ids m hrest hI hS
    obtain rfl : i = ds := by omega
    exact .inl ⟨ids, rfl, hI, hS⟩
  | succ rest ih =>
    intro i ids m hrest hI hS
    have hi : i < ds := by omega
    have hlen : ids.length = (blocks draws (Site.map.first ds) pos i).length := by
      rw [hI.length, blocks, List.length_zip, List.length_range', cars_length, Nat.min_self]
    have hused : Idr.ids (ids.zip (blocks draws (Site.map.first ds) pos i)) = ids := List.map_fst_zip hlen.le
    rw [allocIds]
    refine (wp_kmalloc (s := .map) hS hi).bind fun b m₁ h => ?_
    obtain ⟨rfl, hS₁⟩ | ⟨rfl, hno⟩ := h
    · refine (wp_getRandomBytes hS₁).bind fun price m₂ h => ?_
      obtain ⟨rfl, hS₂⟩ := h
      rw [hused]
      dsimp only
      obtain ⟨-, hall⟩ | hno | ⟨hlo, hhi, hnew⟩ := hsv.idrAlloc ids 100 (100 + ds)
      · exact absurd hall (hI.not_full hi)
      · have hne : sv.idrAlloc ids 100 (100 + ds) ≠ -enospc := by
          rw [hno]
          decide
        rw [if_neg hne, if_pos hno, hno]
        exact .inr ⟨_, _, _, rfl, hS₂.stopped (.idr hi hI.length hno)⟩
      · have hne : sv.idrAlloc ids 100 (100 + ds) ≠ -enospc ∧ sv.idrAlloc ids 100 (100 + ds) ≠ -enomem := by
          simp only [enospc, enomem]
          omega
        rw [if_neg hne.1, if_neg hne.2]
        have hzip : ids.zip (blocks draws (Site.map.first ds) pos i) ++
            [(sv.idrAlloc ids 100 (100 + ds), Site.map.first ds + i, ⟨i, draws (pos + i)⟩)] =
              (ids ++ [sv.idrAlloc ids 100 (100 + ds)]).zip (blocks draws (Site.map.first ds) pos (i + 1)) := by
          rw [blocks_succ, List.zip_append hlen]
          rfl
        rw [hzip]
        exact ih (by omega) (hI.succ hnew ⟨hlo, hhi⟩) hS₂
    · exact .inr ⟨_, _, _, rfl, hno.stopped⟩

/-- What the second loop of `Map` prints. -/
def mappedLines (ids : List ℤ) (l : List Car) : List Line := (ids.zip l).map fun e => .mapped e.2 e.1

/-- What the third loop of `Map` prints when it finds nothing. -/
def goneLines (i : ℕ) (ids : List ℤ) : List Line := (ids.zipIdx i).map fun e => .checked e.2 e.1 false

/-- The block that is found is the one that was put under the id, and in the end the map is empty. -/
theorem wp_removeIds : ∀ {ids : List ℤ} {es : List (ℕ × Car)} {log : List Line} {m : Machine}, ids.Nodup →
    ids.length = es.length → Stage sv ds asked (out ++ es.map Prod.fst) pos log m →
      wp (removeIds ids (ids.zip es)) (fun mp m' => mp = [] ∧
        Stage sv ds asked out pos (log ++ mappedLines ids (es.map Prod.snd)) m') OnlyFuel m := by
  intro ids
  induction ids with
  | nil =>
    intro es log m _ hlen hS
    obtain rfl : es = [] := List.eq_nil_of_length_eq_zero hlen.symm
    rw [List.map_nil, List.append_nil] at hS
    refine wp_pure.mpr ⟨rfl, ?_⟩
    rw [mappedLines, List.zip_nil_left, List.map_nil, List.append_nil]
    exact hS
  | cons id ids ih =>
    intro es log m hnodup hlen hS
    obtain ⟨hnew, hnodup⟩ := List.nodup_cons.mp hnodup
    cases es with
    | nil => cases hlen
    | cons e es =>
      obtain ⟨b, c⟩ := e
      have hfind : Idr.find ((id :: ids).zip ((b, c) :: es)) id = some (b, c) := by simp [Idr.find]
      have hrest : ∀ e ∈ ids.zip es, (e.1 != id) = true := fun e he =>
        bne_iff_ne.mpr fun heq => hnew (heq ▸ (List.of_mem_zip he).1)
      have hremove : Idr.remove ((id :: ids).zip ((b, c) :: es)) id = ids.zip es := by
        rw [Idr.remove, List.zip_cons_cons, List.filter_cons_of_neg (by simp), List.filter_eq_self.mpr hrest]
      rw [removeIds, hfind]
      refine (wp_printk hS (.mapped c id)).bind fun _ m₁ h₁ => (wp_kfree h₁).bind fun _ m₂ h₂ => ?_
      rw [hremove]
      refine (ih hnodup (Nat.succ.inj hlen) h₂).post fun mp m₃ h₃ => ⟨h₃.1, ?_⟩
      have hlog := h₃.2
      rw [List.append_assoc] at hlog
      exact hlog

theorem wp_checkIds : ∀ {ids : List ℤ} {i : ℕ} {log : List Line} {m : Machine}, Stage sv ds asked out pos log m →
    wp (checkIds [] i ids) (fun _ => Stage sv ds asked out pos (log ++ goneLines i ids)) OnlyFuel m := by
  intro ids
  induction ids with
  | nil =>
    intro i log m hS
    refine wp_pure.mpr ?_
    rw [goneLines, List.zipIdx_nil, List.map_nil, List.append_nil]
    exact hS
  | cons id ids ih =>
    intro i log m hS
    rw [checkIds]
    refine (wp_printk hS _).bind fun _ m₁ h₁ => (ih h₁).post fun _ m₂ h₂ => ?_
    rw [List.append_assoc] at h₂
    exact h₂

theorem map_spec (hsv : sv.Lawful) (hS : Stage sv ds (Site.idr.first ds) (Site.idr.before ds) pos log m) :
    wp (map sv ds draws) (Ends sv ds fun m' => ∃ ids, Ids ds ds ids ∧
      Stage sv ds (Site.tree.first ds) (Site.tree.before ds) (pos + ds)
        (log ++ mappedLines ids (cars draws pos ds) ++ goneLines 0 ids) m') OnlyFuel m := by
  rw [← Site.held_zero] at hS
  refine (wp_kmalloc (s := .idr) hS Nat.one_pos).bind fun b m₁ h => ?_
  obtain ⟨rfl, hS₁⟩ | ⟨rfl, hno⟩ := h
  · have hmap : Stage sv ds (Site.map.first ds) (Site.map.held ds 0) pos log m₁ := by
      have hfirst : Site.idr.first ds + (0 + 1) = Site.map.first ds := by
        simp only [Site.first]
        omega
      have hheld : Site.idr.held ds (0 + 1) = Site.map.held ds 0 := by
        have hlast : 2 + 3 * ds = 2 + 2 * ds + 1 * ds := by omega
        rw [Site.held_zero]
        show 0 :: (List.range' (2 + 2 * ds) ds ++ [2 + 3 * ds]) = 0 :: List.range' (2 + 2 * ds) (ds + 1)
        rw [List.range'_concat, hlast]
      rw [hfirst, hheld] at hS₁
      exact hS₁
    have hstart : Stage sv ds (Site.map.first ds + 0) (Site.map.held ds 0) (pos + 0) log m₁ := hmap
    refine (wp_allocIds hsv (Nat.zero_add ds) (.start ds) hstart).bind fun r m₂ h => ?_
    obtain ⟨ids, rfl, hI, hS₂⟩ | ⟨code, mp, ids, rfl, hstop⟩ := h
    · rw [Site.held, ← blocks_fst draws _ pos] at hS₂
      have hlen : ids.length = (blocks draws (Site.map.first ds) pos ds).length := by
        rw [hI.length, blocks, List.length_zip, List.length_range', cars_length, Nat.min_self]
      refine (wp_removeIds hI.nodup hlen hS₂).bind fun mp m₃ h₃ => ?_
      obtain ⟨rfl, hS₃⟩ := h₃
      refine (wp_checkIds hS₃).bind fun _ m₄ hS₄ => ?_
      have hnext : Site.map.first ds + ds = Site.tree.first ds := by
        simp only [Site.first]
        omega
      rw [hnext, blocks_snd] at hS₄
      exact .inl ⟨rfl, ids, hI, hS₄⟩
    · exact .inr hstop
  · exact .inr hno.stopped

end LkpProjects.Driver
