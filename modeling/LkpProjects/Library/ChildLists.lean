import Mathlib

/-! # Trees by lists of children

A finite set of nodes is a tree when every node except the root is a child of exactly one node, once, and
all nodes can be reached from the root. The nodes then have depths (`IsTree.depth_unique`), so that a walk
that gives every child one round less than its parent does not run out of rounds, and the walk in preorder
comes to every node once (`IsTree.exists_rounds`).
-/
namespace LkpProjects.ChildLists
set_option autoImplicit false

variable {T : Type} {children : T → List T} {root : T} {nodes : Finset T} {p q t u : T} {m n : ℕ}

structure IsTree (children : T → List T) (root : T) (nodes : Finset T) : Prop where
  root_mem : root ∈ nodes
  closed : ∀ p ∈ nodes, ∀ c ∈ children p, c ∈ nodes
  top : ∀ p ∈ nodes, root ∉ children p
  once : ∀ p ∈ nodes, (children p).Nodup
  unique : ∀ p ∈ nodes, ∀ q ∈ nodes, ∀ c, c ∈ children p → c ∈ children q → p = q
  reached : ∀ t ∈ nodes, Relation.ReflTransGen (fun p c => c ∈ children p) root t

/-! ## Paths -/

/-- `u` is `m` generations below `p`. -/
def Path (children : T → List T) : ℕ → T → T → Prop
  | 0, p, u => p = u
  | m + 1, p, u => ∃ c ∈ children p, Path children m c u

theorem path_trans : ∀ {m n : ℕ} {p q u : T}, Path children m p q → Path children n q u →
    Path children (m + n) p u
  | 0, n, p, q, u, h, h' => by
    obtain rfl : p = q := h
    rwa [Nat.zero_add]
  | m + 1, n, p, q, u, ⟨c, hc, h⟩, h' => by
    rw [Nat.add_right_comm]
    exact ⟨c, hc, path_trans h h'⟩

/-- The last step of a path. -/
theorem path_succ_last : ∀ {m : ℕ} {p u : T}, Path children (m + 1) p u →
    ∃ q, Path children m p q ∧ u ∈ children q
  | 0, p, u, ⟨c, hc, h⟩ => by
    obtain rfl : c = u := h
    exact ⟨p, rfl, hc⟩
  | m + 1, p, u, ⟨c, hc, h⟩ => by
    obtain ⟨q, hq, hu⟩ := path_succ_last h
    exact ⟨q, ⟨c, hc, hq⟩, hu⟩

theorem path_of_mem {c : T} (h : c ∈ children p) : Path children 1 p c := ⟨c, h, rfl⟩

theorem exists_path (h : Relation.ReflTransGen (fun p c => c ∈ children p) t u) :
    ∃ m, Path children m t u := by
  induction h with
  | refl => exact ⟨0, rfl⟩
  | tail _ hc ih =>
    obtain ⟨m, hm⟩ := ih
    exact ⟨m + 1, path_trans hm (path_of_mem hc)⟩

namespace IsTree

theorem path_mem (hT : IsTree children root nodes) : ∀ {m : ℕ} {p : T}, p ∈ nodes →
    Path children m p u → u ∈ nodes
  | 0, p, hp, h => by
    obtain rfl : p = u := h
    exact hp
  | m + 1, p, hp, ⟨c, hc, h⟩ => hT.path_mem (hT.closed p hp c hc) h

/-- Going up from a node leads to one node. -/
theorem path_unique (hT : IsTree children root nodes) (hp : p ∈ nodes) (hq : q ∈ nodes) :
    ∀ {m : ℕ} {u : T}, Path children m p u → Path children m q u → p = q
  | 0, u, h, h' => by
    obtain rfl : p = u := h
    obtain rfl : q = p := h'
    rfl
  | m + 1, u, h, h' => by
    obtain ⟨a, ha, hua⟩ := path_succ_last h
    obtain ⟨b, hb, hub⟩ := path_succ_last h'
    obtain rfl := hT.unique a (hT.path_mem hp ha) b (hT.path_mem hq hb) u hua hub
    exact hT.path_unique hp hq ha hb

/-- A node has one depth. -/
theorem depth_unique (hT : IsTree children root nodes) : ∀ {m n : ℕ} {u : T},
    Path children m root u → Path children n root u → m = n
  | 0, 0, _, _, _ => rfl
  | 0, n + 1, u, h, h' => by
    obtain rfl : root = u := h
    obtain ⟨q, hq, hu⟩ := path_succ_last h'
    exact absurd hu (hT.top q (hT.path_mem hT.root_mem hq))
  | m + 1, 0, u, h, h' => by
    obtain rfl : root = u := h'
    obtain ⟨q, hq, hu⟩ := path_succ_last h
    exact absurd hu (hT.top q (hT.path_mem hT.root_mem hq))
  | m + 1, n + 1, u, h, h' => by
    obtain ⟨a, ha, hua⟩ := path_succ_last h
    obtain ⟨b, hb, hub⟩ := path_succ_last h'
    obtain rfl := hT.unique a (hT.path_mem hT.root_mem ha) b (hT.path_mem hT.root_mem hb) u hua hub
    rw [hT.depth_unique ha hb]

theorem exists_depth_le (hT : IsTree children root nodes) :
    ∃ d, ∀ u ∈ nodes, ∀ m, Path children m root u → m ≤ d := by
  have hdepth : ∀ u ∈ nodes, ∃ m, Path children m root u := fun u hu => exists_path (hT.reached u hu)
  choose! depth hdepth using hdepth
  refine ⟨nodes.sup depth, fun u hu m hm => ?_⟩
  rw [hT.depth_unique hm (hdepth u hu)]
  exact Finset.le_sup hu

end IsTree

/-! ## Walks -/

/-- A walk from `t` that gives each generation one round less ends within `n` rounds. -/
def Bounded (children : T → List T) : ℕ → T → Prop
  | 0, _ => False
  | n + 1, t => ∀ c ∈ children t, Bounded children n c

/-- The nodes below `t` in preorder, with a limit on the generations. -/
def preorder (children : T → List T) : ℕ → T → List T
  | 0, _ => []
  | n + 1, t => t :: (children t).flatMap (preorder children n)

theorem bounded_of_depth {d : ℕ} (hT : IsTree children root nodes)
    (hd : ∀ u ∈ nodes, ∀ m, Path children m root u → m ≤ d) :
    ∀ {n m : ℕ} {t : T}, Path children m root t → d < n + m → Bounded children n t
  | 0, m, t, hm, hlt => by
    have hle := hd t (hT.path_mem hT.root_mem hm) m hm
    omega
  | n + 1, m, t, hm, hlt => fun c hc =>
    bounded_of_depth hT hd (path_trans hm (path_of_mem hc)) (by omega)

theorem mem_preorder_iff : ∀ {n : ℕ} {t u : T},
    u ∈ preorder children n t ↔ ∃ m < n, Path children m t u
  | 0, t, u => by simp [preorder]
  | n + 1, t, u => by
    rw [preorder, List.mem_cons, List.mem_flatMap]
    constructor
    · rintro (rfl | ⟨c, hc, hu⟩)
      · exact ⟨0, Nat.succ_pos n, rfl⟩
      · obtain ⟨m, hm, h⟩ := mem_preorder_iff.mp hu
        exact ⟨m + 1, Nat.succ_lt_succ hm, c, hc, h⟩
    · rintro ⟨m, hm, h⟩
      cases m with
      | zero => exact .inl (Eq.symm h)
      | succ m =>
        obtain ⟨c, hc, h⟩ := h
        exact .inr ⟨c, hc, mem_preorder_iff.mpr ⟨m, Nat.lt_of_succ_lt_succ hm, h⟩⟩

namespace IsTree

/-- No node comes up twice below a node of the tree. -/
theorem nodup_preorder (hT : IsTree children root nodes) : ∀ {n m : ℕ} {t : T},
    Path children m root t → (preorder children n t).Nodup
  | 0, _, _, _ => List.nodup_nil
  | n + 1, m, t, hm => by
    have ht : t ∈ nodes := hT.path_mem hT.root_mem hm
    have hchild : ∀ c ∈ children t, Path children (m + 1) root c := fun c hc =>
      path_trans hm (path_of_mem hc)
    rw [preorder, List.nodup_cons, List.nodup_flatMap]
    refine ⟨fun hmem => ?_, fun c hc => hT.nodup_preorder (hchild c hc), ?_⟩
    · obtain ⟨c, hc, hu⟩ := List.mem_flatMap.mp hmem
      obtain ⟨j, -, hj⟩ := mem_preorder_iff.mp hu
      have heq := hT.depth_unique hm (path_trans (hchild c hc) hj)
      omega
    · refine (hT.once t ht).imp_of_mem fun {a b} ha hb hab => ?_
      intro u hua hub
      obtain ⟨i, -, hi⟩ := mem_preorder_iff.mp hua
      obtain ⟨j, -, hj⟩ := mem_preorder_iff.mp hub
      -- both ways down to `u` have the same length, so they start at the same child
      have heq := hT.depth_unique (path_trans (hchild a ha) hi) (path_trans (hchild b hb) hj)
      obtain rfl : i = j := by omega
      exact hab (hT.path_unique (hT.closed t ht a ha) (hT.closed t ht b hb) hi hj)

/-- With enough rounds a walk from the root ends and has come to every node. -/
theorem exists_rounds (hT : IsTree children root nodes) :
    ∃ n, Bounded children n root ∧ (preorder children n root).Nodup ∧
      ∀ u, u ∈ preorder children n root ↔ u ∈ nodes := by
  obtain ⟨d, hd⟩ := hT.exists_depth_le
  have hroot : Path children 0 root root := rfl
  refine ⟨d + 1, bounded_of_depth hT hd hroot (Nat.lt_succ_self d), hT.nodup_preorder hroot, fun u => ?_⟩
  rw [mem_preorder_iff]
  constructor
  · rintro ⟨m, -, h⟩
    exact hT.path_mem hT.root_mem h
  · intro hu
    obtain ⟨m, hm⟩ := exists_path (hT.reached u hu)
    exact ⟨m, Nat.lt_succ_of_le (hd u hu m hm), hm⟩

end IsTree

end LkpProjects.ChildLists
