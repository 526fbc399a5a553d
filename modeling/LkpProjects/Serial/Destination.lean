import LkpProjects.Serial.Reclaim

/-! # The serial store: the block that a collection writes to

`gc` looks for the least worn free block, but the test in its loop is the value of the constant
`BLK_FREE`, which is zero: the pages always go back to the block they come from. That is the right
block exactly when no block is free.
-/
namespace LkpProjects.Serial
open Nand Bytes
set_option autoImplicit false

variable {env : Env} {s s' : Config} {b : ℕ}

/-- The block that `gc` erases and writes the pages of block `target` back to. -/
def gcDestination (g : Geometry) (s : Config) (target : ℕ) : ℕ := (gcVictim g s).getD target

/-- Pages go to a least worn free block if there is a free block, and to the block they come from only
if there is none. -/
structure WearAware (g : Geometry) (s : Config) (target v : ℕ) : Prop where
  least : (∃ b < g.nbBlocks, (s.blocks b).state = .blkFree) → v < g.nbBlocks ∧
    (s.blocks v).state = .blkFree ∧
      ∀ b < g.nbBlocks, (s.blocks b).state = .blkFree → (s.blocks v).worn ≤ (s.blocks b).worn
  last : v = target → ∀ b < g.nbBlocks, (s.blocks b).state ≠ .blkFree

/-- Between two configurations the flash had block `v` erased and then pages of it programmed. -/
def WritesBackTo (g : Geometry) (v : ℕ) (s s' : Config) : Prop :=
  ∃ ops, s'.mtd = ops ++ .erase (v * g.pagesPerBlock) g.pagesPerBlock :: s.mtd ∧
    ∀ o ∈ ops, ∃ p data, o = .program p data ∧ p / g.pagesPerBlock = v

/-- Freeing buckets does nothing to the flash. -/
theorem Moves.mtd_eq (hm : Moves env (fun _ => False) s s') : s'.mtd = s.mtd := by
  refine hm.preserves (I := fun t => t.mtd = s.mtd) (fun t t' ht hmove => ?_) rfl
  cases hmove with
  | dropped => rw [dropped_mtd, ht]
  | opened hok => exact hok.elim
  | stored hok => exact hok.elim
  | reopened hok => exact hok.elim

/-- The write loop programs pages of its block, as long as it has that many left. -/
theorem gcWrite_ops (hdrv : env.NoDriverError) {lens : List (ℕ × ℕ)} {i : ℕ} {buffer : ℕ → Byte}
    (hro : s.readOnly = false)
    (hroom : (s.blocks b).currentPageOffset + lens.length ≤ env.pagesPerBlock)
    (he : gcWrite env b i lens buffer s = .ok s') :
    ∃ ops, s'.mtd = ops ++ s.mtd ∧
      ∀ o ∈ ops, ∃ p data, o = .program p data ∧ p / env.pagesPerBlock = b := by
  induction lens generalizing i buffer s with
  | nil =>
    obtain rfl := Except.ok.inj he
    exact ⟨[], rfl, fun o ho => absurd ho List.not_mem_nil⟩
  | cons x lens ih =>
    obtain ⟨keyLen, valLen⟩ := x
    rw [List.length_cons] at hroom
    rw [gcWrite] at he
    split at he
    · cases he
    · next buffer₁ s₁ he₁ =>
      have ho : (s.blocks b).currentPageOffset < env.pagesPerBlock := by omega
      obtain ⟨key, data, h, hS, hro₁⟩ := gcWriteOne_stored hdrv hro ho he₁
      obtain ⟨ops, hmtd, hops⟩ := ih hro₁ (by rw [hS.offset_self]; omega) he
      rw [hS.mtd] at hmtd
      refine ⟨_, hmtd.trans (List.append_cons _ _ _), fun o hm => ?_⟩
      rw [List.mem_append, List.mem_singleton] at hm
      obtain hm | rfl := hm
      · exact hops o hm
      · exact ⟨_, _, rfl, Geometry.page_div ho⟩

theorem gcBlock_writesBackTo (hdrv : env.NoDriverError) (hb : b < env.nbBlocks)
    (hlen : (s.blocks b).list.length < env.pagesPerBlock) (he : gcBlock env b s = .ok s') :
    WritesBackTo env.toGeometry b s s' := by
  unfold gcBlock at he
  simp only [gcVictim_eq_none, Option.getD_none] at he
  split at he
  · cases he
  · next r s₁ hread =>
    obtain ⟨hm, hlens⟩ := gcRead_moves hread
    have hE := (formatSingle_erased hdrv b s₁).2
    have hoff : ((formatSingle env b s₁).2.blocks b).currentPageOffset = 0 := by
      rw [hE.block_self]
      rfl
    rw [hoff, Nat.add_zero] at he
    have hR := hE.reopened (writeHdr_opened hdrv hE.readOnly hoff)
    rw [List.length_nil, Nat.zero_add] at hlens
    split at he
    · cases he
    · next s₂ hwrite =>
      obtain ⟨ops, hmtd, hops⟩ := gcWrite_ops hdrv (hR.not_readOnly hb)
        (by rw [hR.offset_self]; omega) hwrite
      obtain rfl := Except.ok.inj he
      rw [hR.mtd, hm.mtd_eq] at hmtd
      refine ⟨_, hmtd.trans (List.append_cons _ _ _), fun o ho => ?_⟩
      rw [List.mem_append, List.mem_singleton] at ho
      obtain ho | rfl := ho
      · exact hops o ho
      · exact ⟨_, _, rfl, Nat.mul_div_cancel _ env.pagesPerBlock_pos⟩

/-- The block that `gc` chooses is the one the pages should go to exactly when no block is free; and
it is the block that `gc` erases and writes. -/
theorem gc_wear_aware_iff {target : ℕ} (ht : gcTarget env.toGeometry s = some target) :
    (WearAware env.toGeometry s target (gcDestination env.toGeometry s target) ↔
      ∀ b < env.nbBlocks, (s.blocks b).state ≠ .blkFree) ∧
    ∀ s', env.NoDriverError → (s.blocks target).list.length < env.pagesPerBlock →
      gc env s = .ok s' → WritesBackTo env.toGeometry (gcDestination env.toGeometry s target) s s' := by
  have hdest : gcDestination env.toGeometry s target = target := by
    rw [gcDestination, gcVictim_eq_none, Option.getD_none]
  rw [hdest]
  refine ⟨⟨fun hw => hw.last rfl, fun hnone => ⟨?_, fun _ => hnone⟩⟩, fun s' hdrv hlen he => ?_⟩
  · rintro ⟨b, hb, hfree⟩
    exact absurd hfree (hnone b hb)
  · rw [gc, ht] at he
    exact gcBlock_writesBackTo hdrv (gcTarget_some ht).1 hlen he

/-- Block 0 has two live pairs and the invalid pages that `gc` asks for, and block 1 is in use too. -/
def bothUsed : Config :=
  let s := stocked squareGeometry [(.ofBytes [97], .ofBytes [120]), (.ofBytes [98], .ofBytes [118, 119])]
  { s with blocks := Function.update s.blocks 1 ⟨[], .blkUsed, 3, 0, 7⟩ }

/-- No block is free, and the two pairs are written back to block 0. -/
theorem gc_wear_aware_iff_full :
    WearAware squareGeometry bothUsed 0 (gcDestination squareGeometry bothUsed 0) ∧
      ∃ s', gc (Env.ideal squareGeometry) bothUsed = .ok s' ∧
        WritesBackTo squareGeometry (gcDestination squareGeometry bothUsed 0) bothUsed s' := by
  obtain ⟨s', he⟩ : ∃ s', gc (Env.ideal squareGeometry) bothUsed = .ok s' := ⟨_, rfl⟩
  obtain ⟨hiff, hback⟩ := @gc_wear_aware_iff (Env.ideal squareGeometry) bothUsed 0 rfl
  exact ⟨hiff.mpr (by decide), s', he, hback s' (Env.ideal_noDriverError _) (by decide) he⟩

/-- A free block is there, and the pages go back to the block they come from. -/
theorem gc_passes_free_block :
    gcTarget squareGeometry (stocked squareGeometry []) = some 0 ∧
      ((stocked squareGeometry []).blocks 1).state = .blkFree ∧
      ¬ WearAware squareGeometry (stocked squareGeometry []) 0
        (gcDestination squareGeometry (stocked squareGeometry []) 0) :=
  ⟨rfl, rfl, fun hw => hw.last rfl 1 (by decide) rfl⟩

end LkpProjects.Serial
