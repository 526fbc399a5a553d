import LkpProjects.Parallel.MapSteps

/-! # The parallel store: a flush keeps the map

`flush_metadata` moves the metadata to other blocks. It touches neither the table nor a page of a data block, so
all that has to be shown beside the ledger is that a block which holds data is still marked used: the old metadata
blocks, which become data blocks, have been erased (`Choosing.step`), and the new ones leave the data blocks.
-/
namespace LkpProjects.Parallel
open Nand Bytes Hoare
open Serial (Geometry HdrKind)
set_option autoImplicit false

variable {env : Env} {g : Geometry} {s s' : Config} {m : CStr → Option CStr} {b : ℕ}

theorem MarkedOn.markUsed {D : ℕ → Prop} (hM : MarkedOn D s) (n : ℕ) : MarkedOn D (markUsed n s) := by
  rw [Parallel.markUsed]
  induction List.range n generalizing s with
  | nil => exact hM
  | cons j js ih =>
    rw [List.foldl_cons]
    refine ih ?_
    cases s.metaBlkordr j with
    | none => exact hM
    | some b => exact hM.setUsed b

/-! ## The selection loop -/

section Select
variable {pre : ℕ → Option ℕ} {k w : ℕ} {P : CStr → List Byte → Prop} {u : PUnit} {s₁ : Config}

theorem formatEntry_marked (hdrv : env.NoDriverError) {D : ℕ → Prop} {o : Option ℕ} (hM : MarkedOn D s)
    (he : formatEntry env o s = .ok (u, s')) :
    MarkedOn (fun b => D b ∨ o = some b) s' ∧ s'.metaBlkordr = s.metaBlkordr := by
  cases o with
  | none =>
    obtain ⟨-, rfl⟩ := pure_ok.mp he
    refine ⟨hM.mono fun b hb => hb.resolve_right ?_, rfl⟩
    exact fun hno => by cases hno
  | some b =>
    obtain ⟨ret, s₁, he₁, hend⟩ := bind_ok.mp he
    obtain ⟨-, rfl⟩ := pure_ok.mp hend
    obtain ⟨-, -, rfl⟩ | ⟨hfail, -⟩ := formatSingle_ok he₁
    · exact ⟨hM.wiped.mono fun c hc => hc.imp_right fun h => (Option.some.inj h).symm, rfl⟩
    · exact absurd (hdrv.erase _ _ _) hfail

/-- One block is chosen. -/
theorem Choosing.marked (hdrv : env.NoDriverError) (hC : Choosing env.toGeometry P pre k s)
    (hk : k < nbMetaBlocks env.toGeometry) (hM : MarkedOn (s.Spared env.toGeometry pre k) s)
    (he : formatEntry env (pre k) (s.setState w .blkUsed) = .ok (u, s₁)) :
    MarkedOn (Config.Spared env.toGeometry pre (k + 1)
        { s₁ with metaBlkordr := Function.update s₁.metaBlkordr k (some w) })
      { s₁ with metaBlkordr := Function.update s₁.metaBlkordr k (some w) } := by
  obtain ⟨hM₁, hord⟩ := formatEntry_marked hdrv (hM.setUsed w) he
  have hord : s₁.metaBlkordr = s.metaBlkordr := hord
  exact hM₁.mono fun b hb => hC.spared hk hord hb

theorem flushSelect_marked (hdrv : env.NoDriverError) {r : ℕ} (hC : Choosing env.toGeometry P pre 0 s)
    (hM : MarkedOn (s.Spared env.toGeometry pre 0) s)
    (he : flushSelect env pre (List.range env.nbBlocks) 0 s = .ok (r, s')) :
    MarkedOn (s'.Spared env.toGeometry pre r) s' := by
  refine (flushSelect_invariant
    (I := fun k s => Choosing env.toGeometry P pre k s ∧ MarkedOn (s.Spared env.toGeometry pre k) s)
    (fun k s₁ w u s₂ hk hI hw he₁ => ?_) (fun i hi => List.mem_range.mp hi) (Nat.succ_pos _) ⟨hC, hM⟩ he).1.2
  exact ⟨hI.1.step hdrv hk (flushCandidate_iff.mp hw).1 he₁, hI.1.marked hdrv hk hI.2 he₁⟩

end Select

/-! ## The write loop -/

section Write
variable {i jackOfs : ℕ} {ret : ℤ}

theorem writePage_marked {p k : ℕ} {buf : List Byte} (hM : MarkedUsed s)
    (hb : s.metaBlkordr k = some (p / env.pagesPerBlock)) (he : writePage env p buf s = .ok (ret, s')) :
    MarkedUsed s' ∧ s'.metaBlkordr = s.metaBlkordr := by
  obtain ⟨-, -, rfl⟩ | ⟨-, -, -, -, rfl⟩ := writePage_ok he
  · exact ⟨hM, rfl⟩
  · have hM₁ : MarkedUsed (programPage env.toGeometry p buf s) := hM.program fun hun => hun k hb
    exact ⟨hM₁, rfl⟩

theorem flushHeader_marked {r : ℕ × ℤ} (hM : MarkedUsed s) (he : flushHeader env i jackOfs ret s = .ok (r, s')) :
    MarkedUsed s' := by
  obtain ⟨-, -, -, b, hb, hhdr⟩ | ⟨-, -, rfl⟩ := flushHeader_ok he
  · obtain ⟨-, -, rfl⟩ | ⟨-, -, s₁, he₁, rfl⟩ := writeHdr_ok hhdr
    · exact hM
    · have hdiv : b * env.pagesPerBlock / env.pagesPerBlock = b :=
        Nat.mul_div_cancel _ env.pagesPerBlock_pos
      exact MarkedOn.setUsed (writePage_marked hM (by rw [hdiv]; exact hb) he₁).1 _
  · exact hM

theorem flushPage_marked {r : ℕ × ℤ × List Byte} (hM : MarkedUsed s)
    (he : flushPage env i jackOfs ret s = .ok (r, s')) : MarkedUsed s' := by
  obtain ⟨-, s₁, b, he₁, hb, he₂⟩ := flushPage_ok he
  exact (writePage_marked (flushHeader_marked hM he₁) (by rw [Geometry.page_div (dataPg_lt _ i)]; exact hb) he₂).1

theorem flushWrite_marked : ∀ {is : List ℕ} {jackOfs : ℕ} {ret : ℤ} {r : ℤ × List (List Byte)} {s s' : Config},
    MarkedUsed s → flushWrite env is jackOfs ret s = .ok (r, s') → MarkedUsed s'
  | [], _, _, _, _, _, hM, he => by
    obtain ⟨-, rfl⟩ := pure_ok.mp he
    exact hM
  | i :: is, _, _, _, _, _, hM, he => by
    obtain ⟨x, s₁, he₁, hrest⟩ := bind_ok.mp he
    obtain ⟨r₂, s₂, he₂, hend⟩ := bind_ok.mp hrest
    obtain ⟨-, rfl⟩ := pure_ok.mp hend
    exact flushWrite_marked (flushPage_marked hM he₁) he₂

end Write

/-! ## `flush_metadata` -/

theorem flushLocked_marked (hdrv : env.NoDriverError) {P : CStr → List Byte → Prop} {ret : ℤ}
    (hO : Orderly env.toGeometry P s) (hM : MarkedUsed s) (he : flushLocked env s = .ok (ret, s')) :
    MarkedUsed s' := by
  obtain ⟨r, s₁, s₂, pages, hr, he₁, he₂, rfl⟩ := flushLocked_ok he
  have hstart : MarkedOn (Config.Spared env.toGeometry s.metaBlkordr 0 (clearOrder (nbMetaBlocks env.toGeometry) s))
      (clearOrder (nbMetaBlocks env.toGeometry) s) := by
    rintro b ⟨hun, hold⟩
    refine hM b fun j hj => ?_
    by_cases hlt : j < nbMetaBlocks env.toGeometry
    · exact hold j (Nat.zero_le _) hlt hj
    · exact hun j ((if_neg hlt).trans hj)
  have hM₁ : MarkedUsed s₁ := (flushSelect_marked hdrv hO.choosing hstart he₁).mono fun b hun =>
    ⟨hun, fun j h1 h2 => absurd h2 (by omega)⟩
  have hord : (markUsed (nbMetaBlocks env.toGeometry) (s₁.lock .listLock true)).metaBlkordr = s₁.metaBlkordr :=
    markUsed_view (v := Config.metaBlkordr) (fun _ _ => rfl) _ _
  have hmark : MarkedUsed ((markUsed (nbMetaBlocks env.toGeometry) (s₁.lock .listLock true)).lock .listLock false) := by
    intro b hun
    have hlocked : MarkedOn s₁.Unlisted (s₁.lock .listLock true) := hM₁
    exact hlocked.markUsed _ b fun j hj => hun j ((congrFun hord j).trans hj)
  have hM₂ : MarkedUsed s₂ := flushWrite_marked hmark he₂
  exact hM₂

namespace MapInv

theorem flushed (hI : MapInv env s m) (hdrv : env.NoDriverError) {ret : ℤ}
    (he : flushLocked env s = .ok (ret, s')) : MapInv env s' m := by
  have htable : s'.hashtable = s.hashtable := (flushLocked_saved he).1
  refine ⟨flushLocked_orderly hdrv hI.ledger he, htable ▸ hI.table, fun k v hm => ?_, ?_,
    flushLocked_marked hdrv hI.ledger hI.marked he⟩
  · obtain ⟨h, hv, hk⟩ := hI.complete k v hm
    exact ⟨h, by rw [Config.Valid, htable]; exact hv, by rw [htable]; exact hk⟩
  · rw [Config.inUse, htable]
    exact hI.spare

end MapInv

end LkpProjects.Parallel
