import LkpProjects.Parallel.LedgerGc

/-! # The parallel store: the block that a record is written to

`get_next_block_to_write` is to return a data block with a header and a page left, so that the page that
`set_keyval` writes is a data page of its own. For a block without header it returns the code of the header
instead, which is 0, and the record goes to block 0 whatever that holds (`PickOk` says when it is right all the
same). The other way to an unsound state is a collection: one that takes a listed block for its destination
(`DestOk`), or drops another bucket than that of the page it moves (`Findable`). In runs without these the
page is always right (`record_page_own`).
-/
namespace LkpProjects.Parallel
open Nand Bytes Hoare Stepwise
open Serial (Geometry record)
set_option autoImplicit false

variable {env : Env} {s s' : Config}

/-- The condition on a collection of block `t`: its destination is a data block, and the search for the key on
each page finds the page's bucket. -/
def WalkOk (g : Geometry) (s : Config) (t : ℕ) : Prop := DestOk g s t ∧ Findable g s (s.blocks t).list

/-- What a set does behind `invalid_pg`: it gets -1 or a data block, and the page it writes is the block's and
its own. -/
def SetServed (env : Env) (s : Config) (key val : CStr) : Prop :=
  ∀ u s₁ ret s₂, withLock .listLock (invalidOld env key) (s.lock .eraseLock true) = .ok (u, s₁) →
    getNextBlockToWrite env s₁ = .ok (ret, s₂) → Served env.toGeometry s₂ ret ∧
      ∀ code s₃, ret ≠ -1 → storeAt env key val ret.toNat s₂ = .ok (code, s₃) →
        Recorded env.toGeometry key ret.toNat s₂ s₃

/-- A page that is full holds what the allocation needs. -/
def FullPage (g : Geometry) (_ : CStr) (page : List Byte) : Prop := page.length = g.pageSize

theorem records_fullPage (g : Geometry) : Records g (FullPage g) := fun _ _ _ hsize =>
  (Serial.record_holds hsize).length

theorem setServed_of_orderly {key val : CStr} (hO : Orderly env.toGeometry (FullPage env.toGeometry) s)
    (hpick : PickOk env.toGeometry s) (hsize : 8 + key.len + val.len ≤ env.pageSize)
    (hro : s.readOnly = false) : SetServed env s key val := by
  intro u s₁ ret s₂ he₁ he₂
  have hO₁ := withLock_orderly (hO.lock .eraseLock true) (fun _ hO he => invalidOld_orderly hO he) he₁
  have hro₁ : s₁.readOnly = false :=
    (congrArg Space.readOnly ((space_withLock (invalidOld_space key)).eq he₁)).trans hro
  obtain ⟨hO₂, hro₂, hserved⟩ := getNextBlockToWrite_orderly hO₁ he₂
  have hserved := hserved.mpr ((invalidOld_pickOk he₁).mpr hpick)
  refine ⟨hserved, fun code s₃ hne he₃ => ?_⟩
  obtain hneg | ⟨b, rfl, hb, hun, hpos, hlt, -⟩ := hserved
  · exact absurd hneg hne
  · rw [Int.toNat_natCast] at he₃ ⊢
    exact (storeAt_orderly (records_fullPage _) hO₂ hsize hb hun hpos hlt (hro₂ hne hro₁) he₃).2

/-- In every state of a run from a formatted device whose calls meet their conditions,
`get_next_block_to_write` returns -1 or a data block with a page left behind its header exactly if the state
meets the condition; a set that does then writes its record to a data page of that block that no other valid
bucket has. -/
theorem record_page_own (env : Env) (hdrv : env.NoDriverError) {s₀ s : Config} {cs : List Call}
    (hf : Formatted env s₀)
    (hr : Run (fun s c s' => CallOk env (WalkOk env.toGeometry) s c ∧ Returns env s c s') s₀ cs s) :
    (∀ ret s', getNextBlockToWrite env s = .ok (ret, s') →
      (Served env.toGeometry s' ret ↔ PickOk env.toGeometry s)) ∧
    ∀ key val : CStr, 8 + key.len + val.len ≤ env.pageSize → s.readOnly = false →
      SetPickOk env s (some key) (some val) → SetServed env s key val := by
  have hO : Orderly env.toGeometry (FullPage env.toGeometry) s :=
    run_orderly hdrv (records_fullPage _) (fun _ _ h => h) (fun s t hO hcol hok =>
      ⟨hok.1, hok.2, fun kd hkd => writtenBack_page_length kd hkd⟩) hf hr
  refine ⟨fun ret s' he => (getNextBlockToWrite_orderly hO he).2.2, fun key val hsize hro hpick => ?_⟩
  exact setServed_of_orderly hO (hpick (by omega) hro) hsize hro

/-- Two pairs are stored on a device that has just been formatted, both in the block that the first one opens. -/
theorem record_page_own_two : ∃ s₀ s, Formatted (Env.ideal smallGeometry) s₀ ∧
    Run (fun s c s' => CallOk (Env.ideal smallGeometry) (WalkOk smallGeometry) s c ∧
      Returns (Env.ideal smallGeometry) s c s') s₀ [.set (some (.ofBytes [107])) (some (.ofBytes [118]))] s ∧
    SetServed (Env.ideal smallGeometry) s (.ofBytes [108]) (.ofBytes [119]) := by
  obtain ⟨s₀, hf, s, hr, hro, hpick⟩ : ∃ s₀, Formatted (Env.ideal smallGeometry) s₀ ∧
      ∃ s, Run (fun s c s' => CallOk (Env.ideal smallGeometry) (WalkOk smallGeometry) s c ∧
        Returns (Env.ideal smallGeometry) s c s') s₀
          [.set (some (.ofBytes [107])) (some (.ofBytes [118]))] s ∧
        s.readOnly = false ∧ PickOk smallGeometry s := by
    refine ⟨_, ⟨0, .start, nofun, rfl⟩, _, .cons ⟨⟨fun _ _ => .inr fun b hb => ?_,
      fun ret s₁ _ _ t hcol => absurd hcol.pages (by decide)⟩, ⟨(0, []), rfl⟩⟩ (.nil _), rfl,
      .inr fun b hb => ?_⟩
    · exact .inr (.inl (Option.some.inj (hb.symm.trans rfl)))
    · obtain rfl : b = 0 := Option.some.inj (hb.symm.trans rfl)
      exact .inl (by decide)
  exact ⟨s₀, s, hf, hr, (record_page_own (Env.ideal smallGeometry) (Env.ideal_noDriverError _) hf hr).2
    (.ofBytes [108]) (.ofBytes [119]) (by decide) hro fun _ _ => hpick⟩

/-- Three blocks of two pages. -/
def shortBlocks : Geometry := .ofSizes 3 2 1024 (by decide)

/-- The second pair opens a block, and is sent to block 0, which the first one has filled. -/
theorem record_page_lost : ∃ s₀ s, Formatted (Env.ideal shortBlocks) s₀ ∧
    Run (Returns (Env.ideal shortBlocks)) s₀ [.set (some (.ofBytes [107])) (some (.ofBytes [118]))] s ∧
    s.readOnly = false ∧ ∃ ret s', getNextBlockToWrite (Env.ideal shortBlocks) s = .ok (ret, s') ∧
      ¬ Served shortBlocks s' ret := by
  refine ⟨_, _, ⟨0, .start, nofun, rfl⟩, .cons ⟨(0, []), rfl⟩ (.nil _), rfl, 0, _, rfl, ?_⟩
  rintro (hneg | ⟨b, hb, -, -, -, hlt, -⟩)
  · cases hneg
  · obtain rfl : b = 0 := by omega
    exact absurd hlt (by decide)

end LkpProjects.Parallel
