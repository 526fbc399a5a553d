import Mathlib

/-! # Memory given out in blocks

A heap counts the requests it has seen, and a block has the number of the request that got it. A block that is not
out cannot be freed, so a program whose frees all succeed frees nothing twice. `Out h asked bs` says that `asked`
requests were made and that exactly the blocks `bs` are out, whoever holds them.
-/
namespace LkpProjects.Heaps
set_option autoImplicit false

structure Heap where
  asked : ℕ
  live : List ℕ
  nodup : live.Nodup
  below : ∀ b ∈ live, b < asked

namespace Heap

def empty : Heap := ⟨0, [], List.nodup_nil, fun _ hb => absurd hb List.not_mem_nil⟩

theorem nodup_cons (h : Heap) : (h.asked :: h.live).Nodup :=
  List.nodup_cons.mpr ⟨fun hb => lt_irrefl _ (h.below _ hb), h.nodup⟩

theorem below_cons (h : Heap) : ∀ b ∈ h.asked :: h.live, b < h.asked + 1 := by
  intro b hb
  obtain rfl | hb := List.mem_cons.mp hb
  · exact Nat.lt_succ_self _
  · exact (h.below b hb).trans (Nat.lt_succ_self _)

/-- One request, which is granted or refused. -/
def request (granted : Bool) (h : Heap) : Option ℕ × Heap :=
  if granted then (some h.asked, ⟨h.asked + 1, h.asked :: h.live, h.nodup_cons, h.below_cons⟩)
  else (none, ⟨h.asked + 1, h.live, h.nodup, fun b hb => (h.below b hb).trans (Nat.lt_succ_self _)⟩)

def free (b : ℕ) (h : Heap) : Option Heap :=
  if b ∈ h.live then
    some ⟨h.asked, h.live.erase b, h.nodup.erase b, fun c hc => h.below c (List.mem_of_mem_erase hc)⟩
  else none

end Heap

structure Out (h : Heap) (asked : ℕ) (bs : List ℕ) : Prop where
  asked : h.asked = asked
  live : h.live.Perm bs

namespace Out
variable {h : Heap} {asked b : ℕ} {as bs bs' : List ℕ}

theorem empty : Out .empty 0 [] := ⟨rfl, .refl _⟩

theorem perm (ho : Out h asked bs) (hp : bs.Perm bs') : Out h asked bs' := ⟨ho.asked, ho.live.trans hp⟩

theorem granted (ho : Out h asked bs) :
    (h.request true).1 = some asked ∧ Out (h.request true).2 (asked + 1) (bs ++ [asked]) := by
  refine ⟨congrArg some ho.asked, congrArg (· + 1) ho.asked, ?_⟩
  show (h.asked :: h.live).Perm _
  rw [ho.asked]
  exact (ho.live.cons asked).trans (List.perm_append_singleton asked bs).symm

theorem refused (ho : Out h asked bs) : (h.request false).1 = none ∧ Out (h.request false).2 (asked + 1) bs :=
  ⟨rfl, congrArg (· + 1) ho.asked, ho.live⟩

/-- Whoever holds a block can free it. -/
theorem free (ho : Out h asked (as ++ b :: bs)) : ∃ h', h.free b = some h' ∧ Out h' asked (as ++ bs) := by
  have hmid := ho.live.trans List.perm_middle
  have hmem : b ∈ h.live := hmid.mem_iff.mpr List.mem_cons_self
  refine ⟨_, if_pos hmem, ho.asked, ?_⟩
  have herase := hmid.erase b
  rw [List.erase_cons_head] at herase
  exact herase

end Out

end LkpProjects.Heaps
