import LkpProjects.Parallel.Mount
import LkpProjects.Parallel.Selection

/-! # The parallel store: is there a block to write to while the store is writable?

`is_read_only` counts full blocks against a reserve of one block less than the metadata takes, whatever
the metadata blocks hold; `get_healthy_block` passes over the blocks that `meta_blkordr` lists. With
`nb_blocks` metadata blocks the two agree as long as less than `nb_blocks` listed blocks have a page left.
Behind a flush the last metadata block usually has, and behind a mount or a `format` all of them have.

`Space` is what the two look at. A page write and an erase are operations on it (`write`, `erase`), every
function of the store is followed to the operations it does, and `RoomOk` says on the state before a
step when the last page outside the metadata blocks is not taken with the store still writable.
-/
namespace LkpProjects.Parallel
open Nand Bytes Hoare Stepwise
open Serial (Geometry HdrKind GcRead intMax)
set_option autoImplicit false

/-! ## Fill levels -/

/-- What the allocator and the read-only test look at. -/
structure Space where
  offset : ℕ → ℕ
  worn : ℕ → ℕ
  order : ℕ → Option ℕ
  readOnly : Bool

def Config.space (s : Config) : Space where
  offset b := (s.blocks b).currentPageOffset
  worn b := (s.blocks b).worn
  order := s.metaBlkordr
  readOnly := s.readOnly

namespace Space
section Ops
variable (g : Geometry) (x : Space)

/-- The blocks with a page left that `get_healthy_block` looks at. -/
def openData : Finset ℕ := (Finset.range g.nbBlocks).filter fun b =>
  inOrder x.order (nbProbed g) b = false ∧ x.offset b < g.pagesPerBlock

/-- The blocks with a page left that it passes over. -/
def openMeta : Finset ℕ := (Finset.range g.nbBlocks).filter fun b =>
  inOrder x.order (nbProbed g) b = true ∧ x.offset b < g.pagesPerBlock

/-- `is_read_only`. -/
def full : Bool :=
  g.nbBlocks ≤ ((List.range g.nbBlocks).filter fun i =>
    g.pagesPerBlock ≤ x.offset i).length + (nbMetaBlocks g - 1)

/-- A page of block `q` is written, and the read-only flag set. -/
def write (q : ℕ) : Space :=
  let y := { x with offset := Function.update x.offset q (x.offset q + 1) }
  { y with readOnly := y.full g }

/-- Block `b` is erased; the flag is cleared, not computed. -/
def erase (b : ℕ) : Space :=
  { x with
    offset := Function.update x.offset b 0
    worn := Function.update x.worn b (x.worn b + 1)
    readOnly := false }

end Ops

variable {g : Geometry} {x : Space} {b c q : ℕ}

theorem mem_openData : b ∈ x.openData g ↔
    b < g.nbBlocks ∧ inOrder x.order (nbProbed g) b = false ∧ x.offset b < g.pagesPerBlock := by
  rw [openData, Finset.mem_filter, Finset.mem_range]

theorem mem_openMeta : b ∈ x.openMeta g ↔
    b < g.nbBlocks ∧ inOrder x.order (nbProbed g) b = true ∧ x.offset b < g.pagesPerBlock := by
  rw [openMeta, Finset.mem_filter, Finset.mem_range]

/-- The flash counts as full when less blocks have a page left than the metadata takes. -/
theorem full_iff :
    x.full g = true ↔ (x.openData g).card + (x.openMeta g).card < nbMetaBlocks g := by
  have hlist : ((List.range g.nbBlocks).filter fun i => g.pagesPerBlock ≤ x.offset i).length =
      ((Finset.range g.nbBlocks).filter fun i => g.pagesPerBlock ≤ x.offset i).card := by
    rw [← List.toFinset_card_of_nodup (List.nodup_range.filter _), List.toFinset_filter,
      List.toFinset_range]
    simp only [decide_eq_true_eq]
  have hcount := Finset.card_filter_add_card_filter_not (s := Finset.range g.nbBlocks)
    fun i => g.pagesPerBlock ≤ x.offset i
  have hsplit : (Finset.range g.nbBlocks).filter (fun i => ¬ g.pagesPerBlock ≤ x.offset i) =
      x.openData g ∪ x.openMeta g := by
    ext i
    rw [Finset.mem_union, mem_openData, mem_openMeta, Finset.mem_filter, Finset.mem_range, not_le]
    cases inOrder x.order (nbProbed g) i <;> simp
  have hdisj : Disjoint (x.openData g) (x.openMeta g) :=
    Finset.disjoint_left.mpr fun i hi hi' => by
      have := (mem_openData.mp hi).2.1.symm.trans (mem_openMeta.mp hi').2.1
      cases this
  have hpos : 0 < nbMetaBlocks g := Nat.succ_pos _
  rw [hsplit, Finset.card_union_of_disjoint hdisj, Finset.card_range] at hcount
  rw [full, decide_eq_true_iff, hlist]
  omega

theorem write_readOnly : (x.write g q).readOnly = (x.write g q).full g := rfl

theorem write_offset_ne (h : c ≠ q) : (x.write g q).offset c = x.offset c := Function.update_of_ne h _ _

theorem write_offset_self : (x.write g q).offset q = x.offset q + 1 := Function.update_self _ _ _

theorem le_write_offset : x.offset c ≤ (x.write g q).offset c := by
  by_cases h : c = q
  · rw [h, write_offset_self]
    omega
  · rw [write_offset_ne h]

theorem openMeta_write : (x.write g q).openMeta g ⊆ x.openMeta g := fun c hc => by
  obtain ⟨hlt, hord, ho⟩ := mem_openMeta.mp hc
  exact mem_openMeta.mpr ⟨hlt, hord, le_write_offset.trans_lt ho⟩

theorem openData_write_ne (hc : c ∈ x.openData g) (h : c ≠ q) : c ∈ (x.write g q).openData g := by
  obtain ⟨hlt, hord, ho⟩ := mem_openData.mp hc
  exact mem_openData.mpr ⟨hlt, hord, by rwa [write_offset_ne h]⟩

theorem erase_offset_self : (x.erase b).offset b = 0 := Function.update_self _ _ _

theorem erase_worn_self : (x.erase b).worn b = x.worn b + 1 := Function.update_self _ _ _

theorem erase_worn_ne (h : c ≠ b) : (x.erase b).worn c = x.worn c := Function.update_of_ne h _ _

theorem erase_offset_ne (h : c ≠ b) : (x.erase b).offset c = x.offset c := Function.update_of_ne h _ _

/-- An erased block that is not listed has all its pages left. -/
theorem openData_erase (hb : b < g.nbBlocks) (hord : inOrder x.order (nbProbed g) b = false) :
    b ∈ (x.erase b).openData g :=
  mem_openData.mpr ⟨hb, hord, erase_offset_self.trans_lt g.pagesPerBlock_pos⟩

theorem openMeta_erase (hord : inOrder x.order (nbProbed g) b = false) :
    (x.erase b).openMeta g ⊆ x.openMeta g := fun c hc => by
  obtain ⟨hlt, hc', ho⟩ := mem_openMeta.mp hc
  have hne : c ≠ b := by
    rintro rfl
    exact Bool.false_ne_true (hord.symm.trans hc')
  exact mem_openMeta.mpr ⟨hlt, hc', by rwa [erase_offset_ne hne] at ho⟩

/-! ## When a writable store has a block -/

/-- Less metadata blocks have a page left than the metadata takes. -/
def Few (g : Geometry) (x : Space) : Prop := (x.openMeta g).card < nbMetaBlocks g

instance (g : Geometry) (x : Space) : Decidable (x.Few g) :=
  inferInstanceAs (Decidable ((x.openMeta g).card < nbMetaBlocks g))

/-- With few of them, a flag that was just computed tells whether there is a block for data. -/
theorem Few.room (h : x.Few g) (hro : x.readOnly = x.full g) (hw : x.readOnly = false) :
    (x.openData g).Nonempty := by
  rw [hro, ← Bool.not_eq_true, full_iff] at hw
  rw [Few] at h
  exact Finset.card_pos.mp (by omega)

theorem Few.write (h : x.Few g) : (x.write g q).Few g :=
  (Finset.card_le_card openMeta_write).trans_lt h

theorem Few.erase (h : x.Few g) (hord : inOrder x.order (nbProbed g) b = false) : (x.erase b).Few g :=
  (Finset.card_le_card (openMeta_erase hord)).trans_lt h

/-- A writable store has a block for data; `meta_blkordr` holds blocks of the flash in the entries that
are looked at; and no erase counter has run out. -/
structure Roomy (g : Geometry) (x : Space) : Prop where
  order : ∀ j b, x.order j = some b → j < nbProbed g ∧ b < g.nbBlocks
  worn : ∀ b < g.nbBlocks, x.worn b < intMax
  room : x.readOnly = false → (x.openData g).Nonempty

/-! ## Several page writes -/

/-- Page writes one after the other. -/
def writes (g : Geometry) (x : Space) (qs : List ℕ) : Space := qs.foldl (fun x q => x.write g q) x

theorem writes_cons (qs : List ℕ) : x.writes g (q :: qs) = (x.write g q).writes g qs := rfl

theorem writes_append (qs ps : List ℕ) : x.writes g (qs ++ ps) = (x.writes g qs).writes g ps :=
  List.foldl_append

theorem writes_order : ∀ (qs : List ℕ) (x : Space), (x.writes g qs).order = x.order
  | [], _ => rfl
  | _ :: qs, x => writes_order qs (x.write g _)

theorem writes_worn : ∀ (qs : List ℕ) (x : Space), (x.writes g qs).worn = x.worn
  | [], _ => rfl
  | _ :: qs, x => writes_worn qs (x.write g _)

theorem Few.writes : ∀ (qs : List ℕ) {x : Space}, x.Few g → (x.writes g qs).Few g
  | [], _, h => h
  | _ :: qs, _, h => Few.writes qs h.write

/-- Behind a write the flag has just been computed. -/
theorem writes_readOnly : ∀ (qs : List ℕ) (x : Space),
    x.writes g qs = x ∨ (x.writes g qs).readOnly = (x.writes g qs).full g
  | [], _ => .inl rfl
  | q :: qs, x => by
    rw [writes_cons]
    obtain h | h := writes_readOnly qs (x.write g q)
    · exact .inr (by rw [h, write_readOnly])
    · exact .inr h

/-- Each write takes a page of its block. -/
theorem writes_offset (c : ℕ) : ∀ (qs : List ℕ) (x : Space),
    (x.writes g qs).offset c = x.offset c + qs.count c
  | [], _ => rfl
  | p :: qs, x => by
    rw [writes_cons, writes_offset c qs (x.write g p), List.count_cons]
    by_cases hc : c = p
    · rw [← hc, write_offset_self, beq_self_eq_true, if_pos rfl]
      omega
    · rw [write_offset_ne hc, if_neg fun h => hc (eq_of_beq h).symm, Nat.add_zero]

theorem writes_offset_of_forall_eq {qs : List ℕ} (h : ∀ p ∈ qs, p = q) (c : ℕ) :
    (x.writes g qs).offset c = if c = q then x.offset c + qs.length else x.offset c := by
  rw [writes_offset]
  split
  · next hc => rw [List.count_eq_length.mpr fun p hp => hc.trans (h p hp).symm]
  · next hc => rw [List.count_eq_zero.mpr fun hmem => hc (h c hmem), Nat.add_zero]

theorem writes_offset_of_notMem {qs : List ℕ} (h : c ∉ qs) :
    (x.writes g qs).offset c = x.offset c := by
  rw [writes_offset, List.count_eq_zero.mpr h, Nat.add_zero]

end Space

/-! ## Functions that do not touch the fill levels -/

section Stable
variable {α : Type} {env : Env} {s s' : Config}

theorem space_withLock {l : Lock} {m : Kernel α} (h : Stable Config.space m) :
    Stable Config.space (withLock l m) := withLock_stable (fun _ _ => rfl) h

theorem space_congr (h : ∀ b, (s'.blocks b).currentPageOffset = (s.blocks b).currentPageOffset ∧
      (s'.blocks b).worn = (s.blocks b).worn) (hord : s'.metaBlkordr = s.metaBlkordr)
    (hro : s'.readOnly = s.readOnly) : s'.space = s.space := by
  simp only [Config.space, h, hord, hro]

theorem modifyBlk_space {b : ℕ} {f : BlkInfo → BlkInfo}
    (hf : ∀ i, (f i).currentPageOffset = i.currentPageOffset ∧ (f i).worn = i.worn) :
    (s.modifyBlk b f).space = s.space := by
  refine space_congr (fun c => ?_) rfl rfl
  by_cases hc : c = b
  · rw [hc, Config.modifyBlk_self]
    exact hf _
  · rw [Config.modifyBlk_ne hc]
    exact ⟨rfl, rfl⟩

@[simp] theorem setState_space (b : ℕ) (st : BlkState) : (s.setState b st).space = s.space :=
  modifyBlk_space fun _ => ⟨rfl, rfl⟩

@[simp] theorem listAdd_space (b h : ℕ) : (s.listAdd b h).space = s.space :=
  modifyBlk_space fun _ => ⟨rfl, rfl⟩

theorem dropped_space (g : Geometry) (h : ℕ) : (s.dropped g h).space = s.space :=
  space_congr (dropped_same g h) rfl rfl

theorem invalidPg_space (g : Geometry) (h : ℕ) : Stable Config.space (invalidPg g h) :=
  .get fun _ => .ite (.throw _) (.ite (.throw _) (.update fun _ => dropped_space _ _))

theorem hashAdd_space (g : Geometry) (key : CStr) (index : ℕ) :
    Stable Config.space (hashAdd g key index) :=
  .ite (.throw _) (.get fun _ => .bind (.update fun _ => rfl) fun _ => .pure _)

theorem readPage_space (p : ℕ) : Stable Config.space (readPage env p) :=
  space_withLock (.get fun _ => .ite (.throw _) (.pure _))

theorem gcReadOne_space (r : GcRead) (h : ℕ) : Stable Config.space (gcReadOne env r h) := by
  refine .get fun s => .bind (readPage_space _) fun page => .ite (.throw _) (.get fun s' => ?_)
  split
  · exact .throw _
  · exact .bind (invalidPg_space _ _) fun _ => .pure _

theorem gcRead_space (target : ℕ) : ∀ (fuel : ℕ) (r : GcRead) (slots : List ℕ),
    Stable Config.space (gcRead env target fuel r slots)
  | fuel, r, [] => by
    cases fuel <;> exact .pure _
  | 0, r, _ :: _ => .pure _
  | fuel + 1, r, h :: slots => by
    refine .get fun s => .ite (.pure _) (.bind (gcReadOne_space r h) fun x => ?_)
    exact .ite (.throw _) (gcRead_space target fuel _ _)

theorem enterBucket_space (key : CStr) (index b : ℕ) :
    Stable Config.space (enterBucket env key index b) := by
  refine .bind (hashAdd_space _ _ _) fun slot => ?_
  cases slot with
  | none => exact .throw _
  | some h => exact .update fun _ => listAdd_space _ _

theorem gcEnter_space (key : CStr) (p b : ℕ) (ret : ℤ) : Stable Config.space (gcEnter env key p b ret) := by
  refine .bind (hashAdd_space _ _ _) fun slot => ?_
  cases slot with
  | none => exact .throw _
  | some h => exact .ite (.throw _) (.update fun _ => listAdd_space _ _)

theorem invalidOld_space (key : CStr) : Stable Config.space (invalidOld env key) := by
  refine .get fun s => ?_
  split
  · exact .pure _
  · exact invalidPg_space _ _

theorem getLocked_space (key : CStr) : Stable Config.space (getLocked env key) := by
  refine .get fun s => ?_
  split
  · exact .pure _
  · refine .ite (.ite (.pure _) (.bind (readPage_space _) fun page => ?_)) (.pure _)
    exact .ite (.pure _) (.pure _)

theorem delLocked_space (key : CStr) : Stable Config.space (delLocked env key) := by
  refine .get fun s => ?_
  split
  · exact .pure _
  · exact .ite (.ite (.pure _) (.bind (invalidPg_space _ _) fun _ => .pure _)) (.pure _)

theorem deref_space (p : Option CStr) : Stable Config.space (deref p) := by
  cases p with
  | none => exact .throw _
  | some str => exact .pure _

theorem getKeyval_space (key : Option CStr) : Stable Config.space (getKeyval env key) :=
  space_withLock (space_withLock (.bind (deref_space key) fun k => getLocked_space k))

theorem delKey_space (key : Option CStr) : Stable Config.space (delKey env key) :=
  space_withLock (space_withLock (.bind (deref_space key) fun k => delLocked_space k))

theorem markUsed_view {β : Type} {v : Config → β} (hv : ∀ s b, v (s.setState b .blkUsed) = v s) (n : ℕ)
    (s : Config) : v (markUsed n s) = v s := by
  have hfold : ∀ (f : Config → ℕ → Config), (∀ s j, v (f s j) = v s) → ∀ (js : List ℕ) (s : Config),
      v (js.foldl f s) = v s := by
    intro f hf js
    induction js with
    | nil => exact fun s => rfl
    | cons j js ih => exact fun s => (ih (f s j)).trans (hf s j)
  refine hfold _ (fun s j => ?_) _ s
  split
  · rfl
  · exact hv _ _

end Stable

/-! ## Functions that write and erase -/

section Moves
variable {env : Env} {s s' : Config}

theorem programPage_space (g : Geometry) (p : ℕ) (buf : List Byte) :
    (programPage g p buf s).space = { s.space with
      offset := Function.update s.space.offset (p / g.pagesPerBlock)
        (s.space.offset (p / g.pagesPerBlock) + 1) } := by
  rw [Config.space, Space.mk.injEq]
  refine ⟨?_, ?_, rfl, rfl⟩ <;> funext c <;> by_cases hc : c = p / g.pagesPerBlock
  · subst hc
    rw [Function.update_self, programPage, Config.modifyBlk_self]
    rfl
  · rw [Function.update_of_ne hc, programPage, Config.modifyBlk_ne hc]
    rfl
  · subst hc
    rw [programPage, Config.modifyBlk_self]
    rfl
  · rw [programPage, Config.modifyBlk_ne hc]
    rfl

/-- A page write is a `write`, unless the store is read-only. -/
theorem writePage_space {p : ℕ} {buf : List Byte} {ret : ℤ}
    (he : writePage env p buf s = .ok (ret, s')) :
    s.readOnly = true ∧ ret = -1 ∧ s'.space = s.space ∨
      s.readOnly = false ∧ s'.space = s.space.write env.toGeometry (p / env.pagesPerBlock) ∧
        ret = if s'.readOnly then -1 else 0 := by
  obtain ⟨hro, rfl, rfl⟩ | ⟨hro, -, -, rfl, rfl⟩ := writePage_ok he
  · exact .inl ⟨hro, rfl, rfl⟩
  · refine .inr ⟨hro, ?_, rfl⟩
    have hflag : ∀ z : Config, ({ z with readOnly := isReadOnly env.toGeometry z } : Config).space =
        { z.space with readOnly := z.space.full env.toGeometry } := fun z => rfl
    rw [hflag, programPage_space, Space.write]

theorem writeHdr_space {p : ℕ} {k : HdrKind} {ret : ℤ} (he : writeHdr env p k s = .ok (ret, s')) :
    (s.metaReadOnly = true ∨ s.readOnly = true) ∧ ret = -1 ∧ s'.space = s.space ∨
      s.readOnly = false ∧ s'.space = s.space.write env.toGeometry (p / env.pagesPerBlock) ∧
        ret = if s'.readOnly then -1 else 0 := by
  obtain ⟨hmeta, rfl, rfl⟩ | ⟨-, -, s₁, he₁, rfl⟩ := writeHdr_ok he
  · exact .inl ⟨.inl hmeta, rfl, rfl⟩
  · rw [setState_space]
    obtain ⟨hro, rfl, hs⟩ | h := writePage_space he₁
    · exact .inl ⟨.inr hro, rfl, hs⟩
    · exact .inr h

theorem wiped_space (g : Geometry) (b : ℕ) : (s.wiped g b).space = s.space.erase b := by
  rw [Config.space, Space.erase, Space.mk.injEq]
  refine ⟨?_, ?_, rfl, rfl⟩ <;> funext c <;> by_cases hc : c = b
  · subst hc
    rw [Function.update_self, Config.wiped, Config.modifyBlk_self]
    rfl
  · rw [Function.update_of_ne hc, wiped_ne hc]
    rfl
  · subst hc
    rw [Function.update_self, Config.wiped, Config.modifyBlk_self]
    rfl
  · rw [Function.update_of_ne hc, wiped_ne hc]
    rfl

theorem formatSingle_space (hdrv : env.NoDriverError) {b : ℕ} {ret : ℤ}
    (he : formatSingle env b s = .ok (ret, s')) : s'.space = s.space.erase b := by
  obtain ⟨-, -, rfl⟩ | ⟨hno, -⟩ := formatSingle_ok he
  · exact wiped_space _ _
  · exact absurd (hdrv.erase _ _ _) hno

theorem storeAt_space {key val : CStr} {b : ℕ} {ret : ℤ} (he : storeAt env key val b s = .ok (ret, s')) :
    s.readOnly = true ∧ s'.space = s.space ∨ s.readOnly = false ∧ s'.space = s.space.write env.toGeometry
      ((b * env.pagesPerBlock + s.space.offset b) / env.pagesPerBlock) := by
  rw [storeAt, get_bind_ok] at he
  obtain ⟨code, s₁, he₁, he⟩ := bind_ok.mp he
  obtain ⟨_, s₂, he₂, he⟩ := bind_ok.mp he
  obtain ⟨rfl, rfl⟩ := pure_ok.mp he
  have hs := (space_withLock (enterBucket_space _ _ _)).eq he₂
  rw [hs]
  obtain ⟨hro, -, hsame⟩ | ⟨hro, hwrite, -⟩ := writePage_space he₁
  · exact .inl ⟨hro, hsame⟩
  · exact .inr ⟨hro, hwrite⟩

/-! ## Garbage collection -/

theorem gcReadOne_lens (r : GcRead) (h : ℕ) : wp (gcReadOne env r h)
    (fun x _ => x.2.lens.length = r.lens.length + 1) (fun _ => True) s := by
  rw [gcReadOne, wp_bind, wp_get]
  refine (wp_of_ok fun _ _ _ => trivial).bind fun page s₁ _ => wp_ite.mpr ⟨fun _ => trivial, fun _ => ?_⟩
  rw [wp_bind, wp_get]
  split
  · trivial
  · refine (wp_of_ok fun _ _ _ => trivial).bind fun _ s₂ _ => ?_
    rw [wp_pure, List.length_append, List.length_singleton]

/-- No more pages are read than the block's list has buckets. -/
theorem gcRead_lens {target : ℕ} : ∀ {fuel : ℕ} {r r' : GcRead} {slots : List ℕ} {s s' : Config},
    gcRead env target fuel r slots s = .ok (r', s') → r'.lens.length ≤ r.lens.length + slots.length
  | 0, r, _, [], _, _, he => by
    obtain ⟨rfl, -⟩ := pure_ok.mp he
    exact Nat.le_add_right _ _
  | _ + 1, r, _, [], _, _, he => by
    obtain ⟨rfl, -⟩ := pure_ok.mp he
    exact Nat.le_add_right _ _
  | 0, r, _, _ :: _, _, _, he => by
    obtain ⟨rfl, -⟩ := pure_ok.mp he
    exact Nat.le_add_right _ _
  | fuel + 1, r, _, h :: slots, _, _, he => by
    rw [gcRead, get_bind_ok] at he
    split at he
    · obtain ⟨rfl, -⟩ := pure_ok.mp he
      exact Nat.le_add_right _ _
    · obtain ⟨⟨h', r₁⟩, s₁, he₁, he⟩ := bind_ok.mp he
      have hone := (gcReadOne_lens r h).of_ok he₁
      simp only at hone he
      split at he
      · cases he
      · have ih := gcRead_lens he
        have herase := List.length_erase_le (a := h') (l := slots)
        rw [List.length_cons]
        omega

theorem gcWriteOne_space {v i keyLen valLen : ℕ} {buffer buffer' : ℕ → Byte}
    (he : gcWriteOne env v i keyLen valLen buffer s = .ok (buffer', s')) :
    s'.space = s.space.write env.toGeometry
      ((v * env.pagesPerBlock + s.space.offset v) / env.pagesPerBlock) := by
  rw [gcWriteOne] at he
  split at he
  · cases he
  · rw [get_bind_ok] at he
    obtain ⟨ret, s₁, he₁, he⟩ := bind_ok.mp he
    obtain ⟨_, s₂, he₂, he⟩ := bind_ok.mp he
    obtain ⟨-, rfl⟩ := pure_ok.mp he
    have hs := (space_withLock (gcEnter_space _ _ _ _)).eq he₂
    obtain ⟨-, rfl, -⟩ | ⟨-, hwrite, -⟩ := writePage_space he₁
    · -- a page that was refused is a `BUG()`
      obtain ⟨-, s₃, he₃, -⟩ := withLock_ok he₂
      obtain ⟨slot, s₄, he₄, he₃⟩ := bind_ok.mp he₃
      cases slot <;> cases he₃
    · rw [hs]
      exact hwrite

/-- The pages that are moved go to the block they are meant for, as long as they fit. -/
theorem gcWrite_space {v : ℕ} : ∀ {lens : List (ℕ × ℕ)} {i : ℕ} {buffer : ℕ → Byte} {u : PUnit}
    {s s' : Config}, gcWrite env v i lens buffer s = .ok (u, s') →
      ∃ qs : List ℕ, qs.length = lens.length ∧ s'.space = s.space.writes env.toGeometry qs ∧
        (s.space.offset v + lens.length ≤ env.pagesPerBlock → ∀ q ∈ qs, q = v)
  | [], _, _, _, _, _, he => by
    obtain ⟨-, rfl⟩ := pure_ok.mp he
    exact ⟨[], rfl, rfl, fun _ => nofun⟩
  | (keyLen, valLen) :: lens, i, buffer, _, s, _, he => by
    obtain ⟨buffer', s₁, he₁, he⟩ := bind_ok.mp he
    have hone := gcWriteOne_space he₁
    obtain ⟨qs, hlen, hspace, hall⟩ := gcWrite_space he
    refine ⟨(v * env.pagesPerBlock + s.space.offset v) / env.pagesPerBlock :: qs,
      by rw [List.length_cons, List.length_cons, hlen], ?_, fun hfit => ?_⟩
    · rw [Space.writes_cons, ← hone]
      exact hspace
    · rw [List.length_cons] at hfit
      have hq := Geometry.page_div (g := env.toGeometry) (b := v) (o := s.space.offset v) (by omega)
      refine List.forall_mem_cons.mpr ⟨hq, hall ?_⟩
      rw [hone, hq, Space.write_offset_self]
      omega

/-- The header is the first page of its block, or there is none. -/
theorem gcHeader_space {v : ℕ} {u : PUnit}
    (he : gcHeader env (v * env.pagesPerBlock + s.space.offset v) s = .ok (u, s')) :
    ∃ qs : List ℕ, s'.space = s.space.writes env.toGeometry qs ∧ (s.space.offset v < env.pagesPerBlock →
      (∀ q ∈ qs, q = v) ∧ s.space.offset v + qs.length ≤ max (s.space.offset v) 1) := by
  rw [gcHeader] at he
  split at he
  · next hfirst =>
    obtain ⟨ret, s₁, he₁, he⟩ := bind_ok.mp he
    obtain ⟨-, rfl⟩ := pure_ok.mp he
    obtain ⟨-, -, hsame⟩ | ⟨-, hwrite, -⟩ := writeHdr_space he₁
    · exact ⟨[], hsame, fun _ => ⟨nofun, le_max_left _ _⟩⟩
    · refine ⟨[_], hwrite, fun ho => ?_⟩
      rw [Geometry.page_mod ho] at hfirst
      rw [Geometry.page_div ho, List.length_singleton, hfirst]
      exact ⟨fun q hq => List.mem_singleton.mp hq, le_rfl⟩
  · obtain ⟨-, rfl⟩ := pure_ok.mp he
    exact ⟨[], rfl, fun _ => ⟨nofun, le_max_left _ _⟩⟩

/-- A collection erases its target and then writes a header and the pages. With the target's erase
behind it, block `v` has `o` pages in use; what is moved is at most what the target's list holds. -/
theorem gcBlock_space (hdrv : env.NoDriverError) {t : ℕ} {u : PUnit}
    (he : gcBlock env t s = .ok (u, s')) :
    ∃ qs : List ℕ, s'.space = (s.space.erase t).writes env.toGeometry qs ∧
      ∀ o, o = (s.space.erase t).offset (gcVictim env.toGeometry s t) → o < env.pagesPerBlock →
        max o 1 + (s.blocks t).list.length ≤ env.pagesPerBlock →
          (∀ q ∈ qs, q = gcVictim env.toGeometry s t) ∧
            o + qs.length ≤ max o 1 + (s.blocks t).list.length := by
  rw [gcBlock, get_bind_ok] at he
  generalize gcVictim env.toGeometry s t = v at he ⊢
  obtain ⟨_, s₁, he₁, he⟩ := bind_ok.mp he
  obtain rfl := modify_ok.mp he₁
  obtain ⟨r, s₂, he₂, he⟩ := bind_ok.mp he
  obtain ⟨ret, s₃, he₃, he⟩ := bind_ok.mp he
  rw [get_bind_ok] at he
  obtain ⟨_, s₄, he₄, he⟩ := bind_ok.mp he
  obtain ⟨_, s₅, he₅, he₆⟩ := bind_ok.mp he
  -- the buckets are read and freed, the target is erased
  have hlens : r.lens.length ≤ (s.blocks t).list.length := by
    obtain ⟨-, s₆, he₇, -⟩ := withLock_ok he₂
    rw [get_bind_ok] at he₇
    have hlist : (((s.setState v .blkUsed).lock .listLock true).blocks t).list = (s.blocks t).list := by
      by_cases hv : t = v
      · rw [hv, lock_blocks, Config.setState, Config.modifyBlk_self]
      · rw [lock_blocks, Config.setState, Config.modifyBlk_ne hv]
    have := gcRead_lens he₇
    rwa [hlist, List.length_nil, Nat.zero_add] at this
  have hread : s₂.space = s.space := by
    have hstable : Stable Config.space (get >>= fun s : Config => gcRead env t
        (s.blocks t).list.length ⟨fun _ => 0, []⟩ (s.blocks t).list : Kernel GcRead) :=
      .get fun s => gcRead_space _ _ _ _
    rw [(space_withLock hstable).eq he₂, setState_space]
  have herase : s₃.space = s.space.erase t := by rw [formatSingle_space hdrv he₃, hread]
  have hend : s'.space = s₅.space :=
    (space_withLock (.update fun _ => setState_space _ _)).eq he₆
  obtain ⟨hs, hhspace, hhfit⟩ := gcHeader_space he₄
  obtain ⟨ws, hwlen, hwspace, hwfit⟩ := gcWrite_space he₅
  rw [herase] at hhspace hhfit
  refine ⟨hs ++ ws, by rw [hend, hwspace, hhspace, Space.writes_append], fun o ho hlt hfit => ?_⟩
  rw [← ho] at hhfit
  obtain ⟨hall, hle⟩ := hhfit hlt
  have hofs : s₄.space.offset v = o + hs.length := by
    rw [hhspace, Space.writes_offset_of_forall_eq hall, if_pos rfl, ho]
  refine ⟨List.forall_mem_append.mpr ⟨hall, hwfit (by omega)⟩, ?_⟩
  rw [List.length_append]
  omega

/-- The target is not listed and has enough invalid pages. -/
theorem gcTarget_some {g : Geometry} {t : ℕ} (ht : gcTarget g s = some t) : t < g.nbBlocks ∧
    inOrder s.metaBlkordr (nbProbed g) t = false ∧ invalidThreshold ≤ (s.blocks t).nbInvalid := by
  have hmem := List.mem_of_find?_eq_some ht
  have hp := List.find?_some ht
  rw [decide_eq_true_iff] at hp
  exact ⟨List.mem_range.mp hmem, hp⟩

/-- When a collection leaves a block for data: few metadata blocks have a page left; or what the target's
list holds fits the block it is moved to, and leaves a page there or elsewhere. -/
def GcRoomOk (g : Geometry) (s : Config) : Prop :=
  ∀ t, gcTarget g s = some t → (s.blocks t).worn + 1 < intMax ∧
    (s.space.Few g ∨ ∀ o, o = (s.space.erase t).offset (gcVictim g s t) →
      o < g.pagesPerBlock ∧ max o 1 + (s.blocks t).list.length ≤ g.pagesPerBlock ∧
        (gcVictim g s t = t → (s.blocks t).list.length + 1 < g.pagesPerBlock ∨
          ∃ c ∈ s.space.openData g, c ≠ t))

theorem gcBlock_roomy (hdrv : env.NoDriverError) {t : ℕ} {u : PUnit}
    (hR : s.space.Roomy env.toGeometry) (hok : GcRoomOk env.toGeometry s)
    (ht : gcTarget env.toGeometry s = some t) (he : gcBlock env t s = .ok (u, s')) :
    s'.space.Roomy env.toGeometry := by
  obtain ⟨hlt, hord, -⟩ := gcTarget_some ht
  obtain ⟨hworn, hcase⟩ := hok t ht
  obtain ⟨qs, hspace, hfit⟩ := gcBlock_space hdrv he
  rw [hspace]
  refine ⟨?_, ?_, fun hro => ?_⟩
  · rw [Space.writes_order]
    exact hR.order
  · intro b hb
    rw [Space.writes_worn]
    by_cases hbt : b = t
    · rw [hbt, Space.erase_worn_self]
      exact hworn
    · rw [Space.erase_worn_ne hbt]
      exact hR.worn b hb
  · obtain hfew | hroom := hcase
    · obtain hsame | hfresh := Space.writes_readOnly (g := env.toGeometry) qs (s.space.erase t)
      · rw [hsame]
        exact ⟨t, Space.openData_erase hlt hord⟩
      · exact (Space.Few.writes qs (hfew.erase hord)).room hfresh hro
    · obtain ⟨ho, hmoved, hleft⟩ := hroom _ rfl
      obtain ⟨hall, hle⟩ := hfit _ rfl ho hmoved
      have hkept : ∀ c, c ≠ gcVictim env.toGeometry s t →
          ((s.space.erase t).writes env.toGeometry qs).offset c = (s.space.erase t).offset c :=
        fun c hc => Space.writes_offset_of_notMem fun hmem => hc (hall c hmem)
      by_cases hv : gcVictim env.toGeometry s t = t
      · obtain hshort | ⟨c, hc, hct⟩ := hleft hv
        · refine ⟨t, Space.mem_openData.mpr ⟨hlt, by rwa [Space.writes_order], ?_⟩⟩
          rw [hv, Space.erase_offset_self] at hle
          rw [Space.writes_offset_of_forall_eq hall, if_pos hv.symm, Space.erase_offset_self]
          omega
        · obtain ⟨hclt, hcord, hco⟩ := Space.mem_openData.mp hc
          refine ⟨c, Space.mem_openData.mpr ⟨hclt, by rwa [Space.writes_order], ?_⟩⟩
          rw [hkept c (hv.symm ▸ hct), Space.erase_offset_ne hct]
          exact hco
      · refine ⟨t, Space.mem_openData.mpr ⟨hlt, by rwa [Space.writes_order], ?_⟩⟩
        rw [hkept t (Ne.symm hv), Space.erase_offset_self]
        exact env.pagesPerBlock_pos

theorem gc_roomy (hdrv : env.NoDriverError) {u : PUnit} (hR : s.space.Roomy env.toGeometry)
    (hok : 64 ≤ env.pagesPerBlock → s.isGb = true → GcRoomOk env.toGeometry s)
    (he : gc env s = .ok (u, s')) : s'.space.Roomy env.toGeometry := by
  obtain rfl | rfl | ⟨hppb, hgb, -, v, s₁, he₁, rfl⟩ := gc_ok he
  · exact hR
  · exact hR
  · obtain ⟨-, rfl⟩ | ⟨t, ht, he₂⟩ := gcLocked_ok he₁
    · exact hR
    · have hR₁ := gcBlock_roomy (s := ({ s with isGb := true } : Config).lock .eraseLock true) hdrv hR
        (hok hppb hgb) ht he₂
      exact hR₁

/-! ## `set_keyval` -/

theorem getHealthyBlock_space {g : Geometry} (h : s'.space = s.space) :
    getHealthyBlock g s' = getHealthyBlock g s := by
  rw [Config.space, Config.space, Space.mk.injEq] at h
  exact getHealthyBlock_congr h.2.2.1 fun b => ⟨congrFun h.1 b, congrFun h.2.1 b⟩

theorem getHealthyBlock_some {g : Geometry} {b : ℕ} (h : getHealthyBlock g s = some b) :
    b ∈ s.space.openData g := by
  obtain ⟨hb, hc, -⟩ := Serial.leastWorn_some h
  rw [decide_eq_true_iff] at hc
  exact Space.mem_openData.mpr ⟨hb, hc⟩

/-- A block with a page left is found, unless its counter has run out. -/
theorem getHealthyBlock_isSome {g : Geometry} {b : ℕ} (hb : b ∈ s.space.openData g)
    (hw : (s.blocks b).worn < intMax) : ∃ c, getHealthyBlock g s = some c := by
  obtain ⟨hlt, hc⟩ := Space.mem_openData.mp hb
  exact Serial.leastWorn_isSome _ _ hlt (decide_eq_true_iff.mpr hc) hw

/-- The block that the record of a set is written to: the one picked, or for one without header the block
of the next page behind block 0, the header's code being taken for the block. -/
def recordBlock (g : Geometry) (s : Config) (b : ℕ) : ℕ :=
  if 0 < (s.blocks b).currentPageOffset then b
  else (if b = 0 then 1 else (s.blocks 0).currentPageOffset) / g.pagesPerBlock

/-- What a set does to the fill levels: nothing, one page, or a header and a page. -/
theorem setWrite_space {key val : CStr} {x : SetExit} (he : setWrite env key val s = .ok (x, s')) :
    s'.space = s.space ∨ ∃ b, getHealthyBlock env.toGeometry s = some b ∧
      (0 < (s.blocks b).currentPageOffset ∧ s'.space = s.space.write env.toGeometry b ∨
        (s.blocks b).currentPageOffset = 0 ∧ s'.readOnly = true ∧
          s'.space = s.space.write env.toGeometry b ∨
        (s.blocks b).currentPageOffset = 0 ∧ s'.space =
          (s.space.write env.toGeometry b).write env.toGeometry (recordBlock env.toGeometry s b)) := by
  obtain ⟨_, s₁, ret, s₂, he₁, he₂, hend⟩ := setWrite_ok he
  have hold := (space_withLock (invalidOld_space key)).eq he₁
  have hstored : ∀ {s₃ : Config}, s' = { s₃.lock .eraseLock false with recentUpdate := true } →
      s'.space = s₃.space := by
    rintro _ rfl
    rfl
  obtain ⟨hnone, rfl, rfl⟩ | ⟨b, hb, hcase⟩ := getNextBlockToWrite_ok he₂
  · obtain ⟨-, -, rfl⟩ | ⟨hne, -⟩ := hend
    · exact .inl hold
    · exact absurd rfl hne
  · have hofs : (s₁.blocks b).currentPageOffset = (s.blocks b).currentPageOffset :=
      congrFun (congrArg Space.offset hold) b
    rw [getHealthyBlock_space hold] at hb
    have hopen := Space.mem_openData.mp (getHealthyBlock_some hb)
    rw [hofs] at hcase
    obtain ⟨hpos, rfl, rfl⟩ | ⟨h0, hhdr⟩ := hcase
    · obtain ⟨hret, -⟩ | ⟨-, code, s₃, he₃, -, hs'⟩ := hend
      · omega
      · rw [hstored hs']
        rw [Int.toNat_natCast] at he₃
        obtain ⟨-, hsame⟩ | ⟨-, hwrite⟩ := storeAt_space he₃
        · exact .inl (by rw [hsame, setState_space, hold])
        · refine .inr ⟨b, hb, .inl ⟨hpos, ?_⟩⟩
          rw [hwrite, setState_space, hold, Geometry.page_div hopen.2.2]
    · obtain ⟨-, rfl, hsame⟩ | ⟨-, hwrite, hret⟩ := writeHdr_space hhdr
      · obtain ⟨-, -, rfl⟩ | ⟨hne, -⟩ := hend
        · exact .inl (by rw [hsame, setState_space, hold])
        · exact absurd rfl hne
      · rw [setState_space, hold, Nat.mul_div_cancel _ env.pagesPerBlock_pos] at hwrite
        refine .inr ⟨b, hb, .inr ?_⟩
        cases hro : s₂.readOnly with
        | true =>
          rw [hro, if_pos rfl] at hret
          obtain ⟨-, -, rfl⟩ | ⟨hne, -⟩ := hend
          · exact .inl ⟨h0, hro, hwrite⟩
          · exact absurd hret hne
        | false =>
          rw [hro, if_neg Bool.false_ne_true] at hret
          obtain ⟨hno, -⟩ | ⟨-, code, s₃, he₃, -, hs'⟩ := hend
          · omega
          · subst hret
            rw [hstored hs']
            refine .inr ⟨h0, ?_⟩
            obtain ⟨hyes, -⟩ | ⟨-, hrec⟩ := storeAt_space he₃
            · exact absurd (hro.symm.trans hyes) Bool.false_ne_true
            · have hfirst : (s.space.write env.toGeometry b).offset 0 =
                  if b = 0 then 1 else (s.blocks 0).currentPageOffset := by
                split
                · next hb0 =>
                  subst hb0
                  exact Space.write_offset_self.trans (congrArg (· + 1) h0)
                · next hb0 => exact Space.write_offset_ne (Ne.symm hb0)
              have hnot : ¬ 0 < (s.blocks b).currentPageOffset := by omega
              rw [hrec, hwrite, Int.toNat_zero, Nat.zero_mul, Nat.zero_add, hfirst, recordBlock,
                if_neg hnot]

/-- When a set leaves a block for data: few metadata blocks have a page left, or the block picked is not
the last one with a page, or its record goes elsewhere, or it is not its last page. -/
def SetRoomOk (g : Geometry) (s : Config) : Prop :=
  ∀ b, getHealthyBlock g s = some b → s.space.Few g ∨ s.space.openData g ≠ {b} ∨
    recordBlock g s b ≠ b ∨ max (s.blocks b).currentPageOffset 1 + 1 < g.pagesPerBlock

theorem setWrite_roomy {key val : CStr} {x : SetExit} (hR : s.space.Roomy env.toGeometry)
    (hok : SetRoomOk env.toGeometry s) (he : setWrite env key val s = .ok (x, s')) :
    s'.space.Roomy env.toGeometry := by
  obtain hsame | ⟨b, hb, hcase⟩ := setWrite_space he
  · rwa [hsame]
  have hopen := getHealthyBlock_some hb
  obtain ⟨hlt, hord, ho⟩ := Space.mem_openData.mp hopen
  have hppb := env.two_le_pagesPerBlock
  have hother : s.space.openData env.toGeometry ≠ {b} → ∃ c ∈ s.space.openData env.toGeometry, c ≠ b :=
    fun hne => by
      by_contra hno
      exact hne (Finset.eq_singleton_iff_unique_mem.mpr
        ⟨hopen, fun c hc => by_contra fun hcb => hno ⟨c, hc, hcb⟩⟩)
  obtain ⟨hpos, hspace⟩ | ⟨h0, hro, hspace⟩ | ⟨h0, hspace⟩ := hcase
  · rw [hspace]
    refine ⟨hR.order, hR.worn, fun hw => ?_⟩
    obtain hfew | hne | hrec | hfit := hok b hb
    · exact hfew.write.room rfl hw
    · obtain ⟨c, hc, hcb⟩ := hother hne
      exact ⟨c, Space.openData_write_ne hc hcb⟩
    · exact absurd (if_pos hpos) hrec
    · refine ⟨b, Space.mem_openData.mpr ⟨hlt, hord, ?_⟩⟩
      have hofs : s.space.offset b = (s.blocks b).currentPageOffset := rfl
      rw [Space.write_offset_self]
      omega
  · refine ⟨?_, ?_, fun hw => absurd (hro.symm.trans hw) Bool.true_eq_false.mp⟩
    · rw [hspace]
      exact hR.order
    · rw [hspace]
      exact hR.worn
  · rw [hspace]
    refine ⟨hR.order, hR.worn, fun hw => ?_⟩
    have h1 : (s.space.write env.toGeometry b).offset b = 1 :=
      Space.write_offset_self.trans (congrArg (· + 1) h0)
    by_cases hrec : recordBlock env.toGeometry s b = b
    · rw [hrec] at hw ⊢
      obtain hfew | hne | hno | hfit := hok b hb
      · exact hfew.write.write.room rfl hw
      · obtain ⟨c, hc, hcb⟩ := hother hne
        exact ⟨c, Space.openData_write_ne (Space.openData_write_ne hc hcb) hcb⟩
      · exact absurd hrec hno
      · refine ⟨b, Space.mem_openData.mpr ⟨hlt, hord, ?_⟩⟩
        rw [Space.write_offset_self, h1]
        omega
    · have hmem : b ∈ (s.space.write env.toGeometry b).openData env.toGeometry :=
        Space.mem_openData.mpr ⟨hlt, hord, by omega⟩
      exact ⟨b, Space.openData_write_ne hmem (Ne.symm hrec)⟩

theorem setStore_roomy {key val : Option CStr} {x : SetExit} (hR : s.space.Roomy env.toGeometry)
    (hok : SetRoomOk env.toGeometry s) (he : setStore env key val s = .ok (x, s')) :
    s'.space.Roomy env.toGeometry := by
  obtain ⟨-, k, v, -, -, ⟨-, -, rfl⟩ | ⟨-, -, -, rfl⟩ | ⟨-, -, he⟩⟩ := setStore_ok he
  · exact hR
  · exact hR
  · exact setWrite_roomy (s := s.lock .eraseLock true) hR hok he

/-! ## `flush_metadata` -/

/-- What the selection loop does to the fill levels: blocks are erased, among them the old metadata blocks
of the ranks that are filled, and no other entry of `meta_blkordr` changes. -/
structure SelectedSpace (pre : ℕ → Option ℕ) (enough r : ℕ) (x y : Space) : Prop where
  le : enough ≤ r
  offset : ∀ z, y.offset z ≤ x.offset z
  worn : ∀ z, y.worn z ≤ x.worn z + (r - enough)
  erased : ∀ j, enough ≤ j → j < r → ∀ m, pre j = some m → y.offset m = 0
  order : ∀ j, r ≤ j → y.order j = x.order j

theorem SelectedSpace.trans {pre : ℕ → Option ℕ} {e r t : ℕ} {x y z : Space}
    (h : SelectedSpace pre e r x y) (h' : SelectedSpace pre r t y z) : SelectedSpace pre e t x z := by
  have hle := h.le
  have hle' := h'.le
  refine ⟨hle.trans hle', fun b => (h'.offset b).trans (h.offset b), fun b => ?_,
    fun j h1 h2 m hm => ?_, fun j hj => ?_⟩
  · have h1 := h.worn b
    have h2 := h'.worn b
    omega
  · obtain hj | hj := Nat.lt_or_ge j r
    · have h3 := h'.offset m
      have h4 := h.erased j h1 hj m hm
      omega
    · exact h'.erased j hj h2 m hm
  · rw [h'.order j hj, h.order j (hle'.trans hj)]

theorem formatEntry_space (hdrv : env.NoDriverError) {o : Option ℕ} {u : PUnit}
    (he : formatEntry env o s = .ok (u, s')) :
    o = none ∧ s'.space = s.space ∨ ∃ b, o = some b ∧ s'.space = s.space.erase b := by
  cases o with
  | none =>
    obtain ⟨-, rfl⟩ := pure_ok.mp he
    exact .inl ⟨rfl, rfl⟩
  | some b =>
    obtain ⟨ret, s₁, he₁, he⟩ := bind_ok.mp he
    obtain ⟨-, rfl⟩ := pure_ok.mp he
    exact .inr ⟨b, rfl, formatSingle_space hdrv he₁⟩

theorem selectedSpace_one {pre : ℕ → Option ℕ} {enough : ℕ} {x y : Space}
    (h : pre enough = none ∧ y = x ∨ ∃ b, pre enough = some b ∧ y = x.erase b) (w : Option ℕ) :
    SelectedSpace pre enough (enough + 1) x { y with order := Function.update y.order enough w } := by
  have hord : ∀ j, enough + 1 ≤ j → Function.update y.order enough w j = y.order j :=
    fun j hj => Function.update_of_ne (by omega) _ _
  obtain ⟨hnone, rfl⟩ | ⟨b, hb, rfl⟩ := h
  · refine ⟨Nat.le_succ _, fun _ => le_rfl, fun _ => Nat.le_add_right _ _, fun j h1 h2 m hm => ?_, hord⟩
    obtain rfl : j = enough := by omega
    rw [hnone] at hm
    cases hm
  · refine ⟨Nat.le_succ _, fun z => ?_, fun z => ?_, fun j h1 h2 m hm => ?_, hord⟩
    · by_cases hz : z = b
      · subst hz
        exact Space.erase_offset_self.trans_le (Nat.zero_le _)
      · exact (Space.erase_offset_ne hz).le
    · by_cases hz : z = b
      · subst hz
        exact Space.erase_worn_self.le.trans (by omega)
      · exact (Space.erase_worn_ne hz).le.trans (Nat.le_add_right _ _)
    · obtain rfl : j = enough := by omega
      obtain rfl := Option.some.inj (hb.symm.trans hm)
      exact Space.erase_offset_self

theorem flushSelect_space (hdrv : env.NoDriverError) {pre : ℕ → Option ℕ} {r : ℕ}
    (he : flushSelect env pre (List.range env.nbBlocks) 0 s = .ok (r, s')) :
    SelectedSpace pre 0 r s.space s'.space ∧ r ≤ nbMetaBlocks env.toGeometry := by
  refine flushSelect_invariant (I := fun k s₁ => SelectedSpace pre 0 k s.space s₁.space)
    (fun k s₁ w u s₂ hk hI hw he₂ => ?_) (fun i hi => List.mem_range.mp hi) (Nat.succ_pos _) ?_ he
  · have hstep := formatEntry_space hdrv he₂
    rw [setState_space] at hstep
    exact hI.trans (selectedSpace_one hstep (some w))
  · exact ⟨le_rfl, fun _ => le_rfl, fun _ => Nat.le_add_right _ _, fun j h1 h2 => by omega, fun _ _ => rfl⟩

theorem flushHeader_space {i jackOfs : ℕ} {ret : ℤ} {r : ℕ × ℤ}
    (he : flushHeader env i jackOfs ret s = .ok (r, s')) :
    i % (env.pagesPerBlock - 1) = 0 ∧ r.1 = jackOfs + 1 ∧ (∃ b, s.metaBlkordr jackOfs = some b ∧
        (s'.space = s.space.write env.toGeometry b ∨
          (s.metaReadOnly = true ∨ s.readOnly = true) ∧ s'.space = s.space)) ∨
      i % (env.pagesPerBlock - 1) ≠ 0 ∧ r.1 = jackOfs ∧ s' = s := by
  obtain ⟨hfirst, -, hjack, b, hb, hhdr⟩ | ⟨hmid, rfl, rfl⟩ := flushHeader_ok he
  · refine .inl ⟨hfirst, hjack, b, hb, ?_⟩
    obtain ⟨hro, -, hsame⟩ | ⟨-, hwrite, -⟩ := writeHdr_space hhdr
    · exact .inr ⟨hro, hsame⟩
    · rw [Nat.mul_div_cancel _ env.pagesPerBlock_pos] at hwrite
      exact .inl hwrite
  · exact .inr ⟨hmid, rfl, rfl⟩

/-- A page of the metadata goes to a listed block, behind a header if it begins the block. -/
theorem flushPage_space {i jackOfs : ℕ} {ret : ℤ} {r : ℕ × ℤ × List Byte}
    (he : flushPage env i jackOfs ret s = .ok (r, s')) :
    ∃ s₁ b, s.metaBlkordr (r.1 - 1) = some b ∧ s₁.readOnly = false ∧
      s'.space = s₁.space.write env.toGeometry b ∧
        (i % (env.pagesPerBlock - 1) = 0 ∧ r.1 = jackOfs + 1 ∧
            (s₁.space = s.space.write env.toGeometry b ∨
              (s.metaReadOnly = true ∨ s.readOnly = true) ∧ s₁.space = s.space) ∨
          i % (env.pagesPerBlock - 1) ≠ 0 ∧ r.1 = jackOfs ∧ s₁ = s) := by
  obtain ⟨-, s₁, b, he₁, hb, he₂⟩ := flushPage_ok he
  obtain ⟨-, hcode, -⟩ | ⟨hro, hwrite, -⟩ := writePage_space he₂
  · cases hcode
  · rw [Geometry.page_div (dataPg_lt _ i)] at hwrite
    obtain ⟨hfirst, hjack, c, hc, hcase⟩ | ⟨hmid, hjack, rfl⟩ := flushHeader_space he₁
    · have hord : s₁.metaBlkordr = s.metaBlkordr := by
        obtain hw | ⟨-, hw⟩ := hcase <;> exact congrArg Space.order hw
      simp only at hjack
      rw [hord, hjack, Nat.add_sub_cancel, hc] at hb
      obtain rfl := Option.some.inj hb
      exact ⟨s₁, c, by rw [hjack]; exact hc, hro, hwrite, .inl ⟨hfirst, hjack, hcase⟩⟩
    · exact ⟨s₁, b, hb, hro, hwrite, .inr ⟨hmid, hjack, rfl⟩⟩

/-- The write loop writes to listed blocks only. -/
theorem flushWrite_space : ∀ {is : List ℕ} {jackOfs : ℕ} {ret : ℤ} {r : ℤ × List (List Byte)}
    {s s' : Config}, flushWrite env is jackOfs ret s = .ok (r, s') →
      ∃ qs : List ℕ, s'.space = s.space.writes env.toGeometry qs ∧
        ∀ q ∈ qs, ∃ k, s.metaBlkordr k = some q
  | [], _, _, _, _, _, he => by
    obtain ⟨-, rfl⟩ := pure_ok.mp he
    exact ⟨[], rfl, nofun⟩
  | i :: is, jackOfs, ret, r, s, s', he => by
    obtain ⟨x, s₁, he₁, hrest⟩ := bind_ok.mp he
    obtain ⟨r₂, s₂, he₂, hend⟩ := bind_ok.mp hrest
    obtain ⟨-, rfl⟩ := pure_ok.mp hend
    obtain ⟨s₃, b, hb, -, hwrite, hcase⟩ := flushPage_space he₁
    obtain ⟨ws, hwspace, hwall⟩ := flushWrite_space he₂
    have hhdr : ∃ hs : List ℕ, s₃.space = s.space.writes env.toGeometry hs ∧ ∀ q ∈ hs, q = b := by
      obtain ⟨-, -, hw | ⟨-, hsame⟩⟩ | ⟨-, -, rfl⟩ := hcase
      · exact ⟨[b], hw, fun q hq => List.mem_singleton.mp hq⟩
      · exact ⟨[], hsame, nofun⟩
      · exact ⟨[], rfl, nofun⟩
    obtain ⟨hs, hhspace, hhall⟩ := hhdr
    have hord : s₁.metaBlkordr = s.metaBlkordr := by
      have := congrArg Space.order hwrite
      rw [hhspace] at this
      exact this.trans (Space.writes_order _ _)
    refine ⟨hs ++ b :: ws, ?_, fun q hq => ?_⟩
    · rw [hwspace, hwrite, hhspace, Space.writes_append, Space.writes_cons]
    · obtain hq | hq := List.mem_append.mp hq
      · exact hhall q hq ▸ ⟨_, hb⟩
      · obtain rfl | hq := List.mem_cons.mp hq
        · exact ⟨_, hb⟩
        · exact hord ▸ hwall q hq

/-- The pages behind the first one fill the first block on. -/
theorem flushWrite_goes_on {b : ℕ} {is : List ℕ} : ∀ {n i : ℕ} {ret : ℤ} {r : ℤ × List (List Byte)}
    {s s' : Config}, 0 < i → i + n < env.pagesPerBlock → s.metaBlkordr 0 = some b →
    flushWrite env (List.range' i n ++ is) 1 ret s = .ok (r, s') →
      s.space.offset b + n ≤ s'.space.offset b
  | 0, i, _, _, s, s', _, _, _, he => by
    obtain ⟨qs, hspace, -⟩ := flushWrite_space he
    rw [hspace, Space.writes_offset]
    omega
  | n + 1, i, ret, r, s, s', hi, hn, hb, he => by
    rw [List.range'_succ, List.cons_append] at he
    obtain ⟨x, s₁, he₁, hrest⟩ := bind_ok.mp he
    obtain ⟨r₂, s₂, he₂, hend⟩ := bind_ok.mp hrest
    obtain ⟨-, rfl⟩ := pure_ok.mp hend
    obtain ⟨s₃, c, hc, -, hwrite, ⟨hfirst, -⟩ | ⟨-, hjack, rfl⟩⟩ := flushPage_space he₁
    · rw [Nat.mod_eq_of_lt (by omega)] at hfirst
      omega
    · rw [hjack] at hc he₂
      obtain rfl := Option.some.inj (hc.symm.trans hb)
      have ih := flushWrite_goes_on (Nat.succ_pos i) (by omega)
        ((congrFun (congrArg Space.order hwrite) 0).trans hb) he₂
      rw [hwrite, Space.write_offset_self] at ih
      omega

/-- Metadata that takes a whole block fills its first one. -/
theorem flushWrite_fills {b : ℕ} {ret : ℤ} {r : ℤ × List (List Byte)}
    (hflag : s.metaReadOnly = true → s.readOnly = true)
    (hmany : env.pagesPerBlock ≤ nbPages env.toGeometry + 1) (hb : s.metaBlkordr 0 = some b)
    (he : flushWrite env (List.range (nbPages env.toGeometry)) 0 ret s = .ok (r, s')) :
    s.space.offset b + env.pagesPerBlock ≤ s'.space.offset b := by
  have hppb := env.two_le_pagesPerBlock
  obtain ⟨n, hn⟩ := Nat.exists_eq_add_of_le hmany
  have hrange : List.range (nbPages env.toGeometry) =
      0 :: (List.range' 1 (env.pagesPerBlock - 2) ++ List.range' (env.pagesPerBlock - 1) n) := by
    have hadd : 1 + 1 * (env.pagesPerBlock - 2) = env.pagesPerBlock - 1 := by omega
    have hlen : nbPages env.toGeometry = env.pagesPerBlock - 2 + n + 1 := by omega
    rw [List.range_eq_range', ← hadd, List.range'_append, hlen, List.range'_succ]
  rw [hrange] at he
  obtain ⟨x, s₁, he₁, hrest⟩ := bind_ok.mp he
  obtain ⟨r₂, s₂, he₂, hend⟩ := bind_ok.mp hrest
  obtain ⟨-, rfl⟩ := pure_ok.mp hend
  obtain ⟨s₃, c, hc, hro, hwrite, ⟨-, hjack, hcase⟩ | ⟨hno, -⟩⟩ := flushPage_space he₁
  · rw [hjack] at hc he₂
    obtain rfl := Option.some.inj (hc.symm.trans hb)
    obtain hhdr | ⟨hflags, hsame⟩ := hcase
    · rw [hhdr] at hwrite
      have hrest := flushWrite_goes_on Nat.one_pos (by omega)
        ((congrFun (congrArg Space.order hwrite) 0).trans hb) he₂
      rw [hwrite, Space.write_offset_self, Space.write_offset_self] at hrest
      omega
    · -- a header that is refused is followed by a page that is
      have hsro : s.readOnly = true := hflags.elim hflag id
      have : s₃.readOnly = s.readOnly := congrArg Space.readOnly hsame
      rw [hro, hsro] at this
      cases this
  · exact absurd (Nat.zero_mod _) hno

/-- The selection leaves both read-only flags as they are or clears them. -/
theorem flushSelect_flags {pre : ℕ → Option ℕ} {r : ℕ} (hf : s.metaReadOnly = true → s.readOnly = true)
    (he : flushSelect env pre (List.range env.nbBlocks) 0 s = .ok (r, s')) :
    s'.metaReadOnly = true → s'.readOnly = true := by
  refine (flushSelect_invariant (I := fun _ s => s.metaReadOnly = true → s.readOnly = true)
    (fun k s₁ w u s₂ _ hI _ he₂ => ?_) (fun i hi => List.mem_range.mp hi) (Nat.succ_pos _) hf he).1
  obtain rfl | ⟨b, -, rfl⟩ := formatEntry_ok he₂
  · exact hI
  · exact fun h => absurd h Bool.false_ne_true

/-- A flush that gets through: it selects its blocks, erases the old ones, and writes to those selected,
filling the first of them if there is enough to write. -/
theorem flushLocked_space (hdrv : env.NoDriverError) {ret : ℤ} (he : flushLocked env s = .ok (ret, s')) :
    ∃ s₁ : Config, Selected env.toGeometry s.metaBlkordr s₁ (nbMetaBlocks env.toGeometry) ∧
      SelectedSpace s.metaBlkordr 0 (nbMetaBlocks env.toGeometry) s.space s₁.space ∧
      (∃ qs : List ℕ, s'.space = s₁.space.writes env.toGeometry qs ∧
        ∀ q ∈ qs, ∃ k, s₁.metaBlkordr k = some q) ∧
      ((s.metaReadOnly = true → s.readOnly = true) →
        env.pagesPerBlock ≤ nbPages env.toGeometry + 1 → ∀ b, s₁.metaBlkordr 0 = some b →
          s₁.space.offset b + env.pagesPerBlock ≤ s'.space.offset b) := by
  obtain ⟨r, s₁, s₂, pages, hr, he₁, he₂, rfl⟩ := flushLocked_ok he
  obtain ⟨hsel, -, -⟩ := flushSelect_start he₁
  obtain ⟨hspace, hle⟩ := flushSelect_space hdrv he₁
  obtain rfl := Nat.le_antisymm hle hr
  have hspace₁ := markUsed_view (v := Config.space) (fun s b => setState_space b _) (nbMetaBlocks env.toGeometry)
    (s₁.lock .listLock true)
  have hmeta₁ := markUsed_view (v := Config.metaReadOnly) (fun _ _ => rfl) (nbMetaBlocks env.toGeometry)
    (s₁.lock .listLock true)
  obtain ⟨s₃, he₃, hmark, hmeta⟩ : ∃ s₃ : Config,
      flushWrite env (List.range (nbPages env.toGeometry)) 0 0 s₃ = .ok ((ret, pages), s₂) ∧
        s₃.space = s₁.space ∧ s₃.metaReadOnly = s₁.metaReadOnly := ⟨_, he₂, hspace₁, hmeta₁⟩
  have hord : s₃.metaBlkordr = s₁.metaBlkordr := congrArg Space.order hmark
  have hread : s₃.readOnly = s₁.readOnly := congrArg Space.readOnly hmark
  obtain ⟨qs, hqspace, hqall⟩ := flushWrite_space he₃
  rw [hmark] at hqspace
  rw [hord] at hqall
  refine ⟨s₁, hsel, ⟨hspace.le, hspace.offset, hspace.worn, hspace.erased, fun j hj => ?_⟩,
    ⟨qs, hqspace, hqall⟩, fun hflag hmany b hb => ?_⟩
  · exact (hspace.order j hj).trans (if_neg (not_lt.mpr hj))
  · have hflag₁ := flushSelect_flags (s := clearOrder (nbMetaBlocks env.toGeometry) s) hflag he₁
    have hfills := flushWrite_fills (by rwa [hmeta, hread]) hmany (by rwa [hord]) he₃
    rwa [hmark] at hfills

/-- Block `b` is in none of the entries that `get_healthy_block` looks at and a flush does not fill. -/
def OffTail (g : Geometry) (s : Config) (b : ℕ) : Prop :=
  ∀ k, nbMetaBlocks g ≤ k → k < nbProbed g → s.metaBlkordr k ≠ some b

instance (g : Geometry) (s : Config) (b : ℕ) : Decidable (OffTail g s b) :=
  decidable_of_iff (∀ k < nbProbed g, nbMetaBlocks g ≤ k → s.metaBlkordr k ≠ some b)
    ⟨fun h k h1 h2 => h k h2 h1, fun h k h1 h2 => h k h2 h1⟩

/-- When a flush leaves a block for data: it erases an old metadata block, or more blocks have a page left
than it takes, or it fills one of those that it takes. -/
structure FlushRoomOk (g : Geometry) (s : Config) : Prop where
  worn : ∀ b < g.nbBlocks, (s.blocks b).worn + nbMetaBlocks g < intMax
  left : (∃ j < nbMetaBlocks g, ∃ m, s.metaBlkordr j = some m ∧ OffTail g s m) ∨
    nbMetaBlocks g < ((Finset.range g.nbBlocks).filter fun b =>
      OffTail g s b ∧ (s.blocks b).currentPageOffset < g.pagesPerBlock).card ∨
    (s.metaReadOnly = true → s.readOnly = true) ∧ g.pagesPerBlock ≤ nbPages g + 1 ∧
      ∀ k, nbMetaBlocks g ≤ k → s.metaBlkordr k = none

theorem nbMetaBlocks_le_nbProbed (g : Geometry) : nbMetaBlocks g ≤ nbProbed g :=
  Nat.succ_le_succ (Nat.div_le_div_right (Nat.le_succ _))

/-- Behind a flush that fills its first block, with no other block listed, few metadata blocks have a page
left. -/
theorem few_of_filled {g : Geometry} {x : Space} {b : ℕ} (hb : x.order 0 = some b)
    (hfull : g.pagesPerBlock ≤ x.offset b) (htail : ∀ k, nbMetaBlocks g ≤ k → x.order k = none) :
    x.Few g := by
  have hsub : x.openMeta g ⊆ (Finset.Ico 1 (nbMetaBlocks g)).image fun k => (x.order k).getD 0 := by
    intro c hc
    obtain ⟨-, hord, ho⟩ := Space.mem_openMeta.mp hc
    obtain ⟨k, hk, hkc⟩ := List.any_eq_true.mp hord
    have hkc := of_decide_eq_true hkc
    have hpos : k ≠ 0 := by
      rintro rfl
      obtain rfl := Option.some.inj (hkc.symm.trans hb)
      omega
    have hlt : k < nbMetaBlocks g := by
      by_contra hge
      rw [htail k (not_lt.mp hge)] at hkc
      cases hkc
    exact Finset.mem_image.mpr
      ⟨k, Finset.mem_Ico.mpr ⟨Nat.one_le_iff_ne_zero.mpr hpos, hlt⟩, by rw [hkc, Option.getD_some]⟩
  have hcard := (Finset.card_le_card hsub).trans Finset.card_image_le
  rw [Nat.card_Ico] at hcard
  have hmeta : 0 < nbMetaBlocks g := Nat.succ_pos _
  rw [Space.Few]
  omega

/-- Some block is not among those selected and has a page left when they are, or those selected are few. -/
theorem FlushRoomOk.block {g : Geometry} {s₁ : Config} (hok : FlushRoomOk g s)
    (hR : s.space.Roomy g) (hsel : Selected g s.metaBlkordr s₁ (nbMetaBlocks g))
    (hspace : SelectedSpace s.metaBlkordr 0 (nbMetaBlocks g) s.space s₁.space) :
    (∃ z < g.nbBlocks, (∀ k < nbMetaBlocks g, s₁.metaBlkordr k ≠ some z) ∧ OffTail g s z ∧
      s₁.space.offset z < g.pagesPerBlock) ∨
    (s.metaReadOnly = true → s.readOnly = true) ∧ g.pagesPerBlock ≤ nbPages g + 1 ∧
      ∀ k, nbMetaBlocks g ≤ k → s.metaBlkordr k = none := by
  obtain ⟨j, hj, m, hm, htail⟩ | hmany | hfills := hok.left
  · refine .inl ⟨m, (hR.order j m hm).2, fun k hk hkm => ?_, htail, ?_⟩
    · obtain ⟨b, -, hkb, -, -, hold⟩ := hsel.filled k hk
      obtain rfl := Option.some.inj (hkm.symm.trans hkb)
      exact inOrder_eq_false.mp hold j hj hm
    · rw [hspace.erased j (Nat.zero_le _) hj m hm]
      exact g.pagesPerBlock_pos
  · -- more blocks than entries
    have hcard : ((Finset.range (nbMetaBlocks g)).image fun k => (s₁.metaBlkordr k).getD 0).card ≤
        nbMetaBlocks g := Finset.card_image_le.trans_eq (Finset.card_range _)
    obtain ⟨z, hz, hnot⟩ := Finset.exists_mem_notMem_of_card_lt_card (hcard.trans_lt hmany)
    obtain ⟨hlt, htail, ho⟩ := Finset.mem_filter.mp hz
    refine .inl ⟨z, Finset.mem_range.mp hlt, fun k hk hkz => hnot ?_, htail, ?_⟩
    · exact Finset.mem_image.mpr ⟨k, Finset.mem_range.mpr hk, by rw [hkz, Option.getD_some]⟩
    · exact (hspace.offset z).trans_lt ho
  · exact .inr hfills

theorem flushLocked_roomy (hdrv : env.NoDriverError) {ret : ℤ} (hR : s.space.Roomy env.toGeometry)
    (hok : FlushRoomOk env.toGeometry s) (he : flushLocked env s = .ok (ret, s')) :
    s'.space.Roomy env.toGeometry := by
  obtain ⟨s₁, hsel, hspace, ⟨qs, hqspace, hqall⟩, hfills⟩ := flushLocked_space hdrv he
  have hle := nbMetaBlocks_le_nbProbed env.toGeometry
  have hord : ∀ j b, s₁.metaBlkordr j = some b → j < nbProbed env.toGeometry ∧ b < env.nbBlocks := by
    intro j b hb
    obtain hj | hj := Nat.lt_or_ge j (nbMetaBlocks env.toGeometry)
    · obtain ⟨b', hlt, hb', -⟩ := hsel.filled j hj
      obtain rfl := Option.some.inj (hb.symm.trans hb')
      exact ⟨hj.trans_le hle, hlt⟩
    · exact hR.order j b ((hspace.order j hj).symm.trans hb)
  have horder : s'.space.order = s₁.metaBlkordr := by
    rw [hqspace]
    exact Space.writes_order _ _
  refine ⟨?_, fun b hb => ?_, fun hro => ?_⟩
  · rw [horder]
    exact hord
  · rw [hqspace, Space.writes_worn]
    exact (hspace.worn b).trans_lt (hok.worn b hb)
  · obtain ⟨z, hlt, hnew, htail, ho⟩ | ⟨hflag, hmany, htail⟩ := hok.block hR hsel hspace
    · have hnone : ∀ k, s₁.metaBlkordr k ≠ some z := by
        intro k hkz
        obtain hk | hk := Nat.lt_or_ge k (nbMetaBlocks env.toGeometry)
        · exact hnew k hk hkz
        · exact htail k hk (hord k z hkz).1 ((hspace.order k hk).symm.trans hkz)
      refine ⟨z, Space.mem_openData.mpr ⟨hlt, ?_, ?_⟩⟩
      · rw [horder]
        exact inOrder_eq_false.mpr fun k _ => hnone k
      · rw [hqspace, Space.writes_offset_of_notMem fun hz => (hqall z hz).elim hnone]
        exact ho
    · obtain ⟨b, -, hb, -⟩ := hsel.filled 0 (Nat.succ_pos _)
      have hfull := hfills hflag hmany b hb
      have hfew : s'.space.Few env.toGeometry := by
        refine few_of_filled (b := b) (by rw [horder]; exact hb) (by omega) fun k hk => ?_
        rw [horder]
        exact (hspace.order k hk).trans (htail k hk)
      obtain hsame | hfresh := Space.writes_readOnly (g := env.toGeometry) qs s₁.space
      · -- no page was written
        have := env.pagesPerBlock_pos
        rw [hqspace, hsame] at hfull
        omega
      · exact hfew.room (by rw [hqspace]; exact hfresh) hro

theorem FlushRoomOk.congr {g : Geometry} (hb : s'.blocks = s.blocks)
    (ho : s'.metaBlkordr = s.metaBlkordr) (hr : s'.readOnly = s.readOnly)
    (hm : s'.metaReadOnly = s.metaReadOnly) (h : FlushRoomOk g s) : FlushRoomOk g s' := by
  obtain ⟨hworn, hleft⟩ := h
  constructor
  · rw [hb]
    exact hworn
  · have htail : ∀ b, OffTail g s' b ↔ OffTail g s b := fun b => by rw [OffTail, OffTail, ho]
    simp only [htail, hb, ho, hr, hm]
    exact hleft

theorem flushMetadata_roomy (hdrv : env.NoDriverError) {force : Bool} {ret : ℤ}
    (hR : s.space.Roomy env.toGeometry) (hok : FlushRuns s force → FlushRoomOk env.toGeometry s)
    (he : flushMetadata env force s = .ok (ret, s')) : s'.space.Roomy env.toGeometry := by
  obtain ⟨-, n, rfl⟩ | ⟨hruns, -, b, n, s₁, he₁, rfl⟩ := flushMetadata_ok he
  · exact hR
  · have hR₁ := flushLocked_roomy (s := ({ s with isFlush := b, flushCnt := n } : Config).lock .eraseLock true) hdrv
      hR (FlushRoomOk.congr (s := s) rfl rfl rfl rfl (hok hruns)) he₁
    exact hR₁

/-! ## Calls -/

theorem gcIfNeeded_roomy (hdrv : env.NoDriverError) {u : PUnit} (hR : s.space.Roomy env.toGeometry)
    (hok : 64 ≤ env.pagesPerBlock → s.isGb = true → GcRoomOk env.toGeometry s)
    (he : gcIfNeeded env s = .ok (u, s')) : s'.space.Roomy env.toGeometry := by
  rw [gcIfNeeded, get_bind_ok] at he
  split at he
  · exact gc_roomy hdrv hR hok he
  · obtain ⟨-, rfl⟩ := pure_ok.mp he
    exact hR

theorem flushIfNeeded_roomy (hdrv : env.NoDriverError) {u : PUnit} (hR : s.space.Roomy env.toGeometry)
    (hok : flushThreshold2 ≤ s.writeCnt → FlushRoomOk env.toGeometry s)
    (he : flushIfNeeded env s = .ok (u, s')) : s'.space.Roomy env.toGeometry := by
  obtain rfl | ⟨hmany, ret, he₁⟩ := flushIfNeeded_ok he
  · exact hR
  · refine flushMetadata_roomy hdrv ?_ (fun _ => ?_) he₁
    · exact hR
    · exact FlushRoomOk.congr (s := s) rfl rfl rfl rfl (hok hmany)

/-- A `format` keeps `meta_blkordr` and so leaves a block for data unless that lists all of them. -/
theorem format_roomy {ret : ℤ} (hR : s.space.Roomy env.toGeometry)
    (hok : ∃ b < env.nbBlocks, inOrder s.metaBlkordr (nbProbed env.toGeometry) b = false)
    (he : format env s = .ok (ret, s')) : s'.space.Roomy env.toGeometry := by
  obtain ⟨-, rfl⟩ := format_ok he
  obtain ⟨b, hb, hord⟩ := hok
  refine ⟨hR.order, fun _ _ => ?_, fun _ => ⟨b, Space.mem_openData.mpr ⟨hb, hord, ?_⟩⟩⟩
  · exact Nat.lt_of_lt_of_eq (Nat.succ_pos _) rfl
  · exact env.pagesPerBlock_pos

/-- When a mount leaves a block for data, of the ranks in the headers and the block records on the flash: the
ranks are among those that are looked at, no erase counter has run out, and less blocks with a header have a
page left than the metadata takes, or more blocks have a page left than have a header. -/
structure MountRoomOk (g : Geometry) (ord : ℕ → Option ℕ) (blocks : ℕ → BlkInfo) : Prop where
  rank : ∀ j, ord j ≠ none → j < nbProbed g
  worn : ∀ b < g.nbBlocks, (blocks b).worn < intMax
  left : ((Finset.range g.nbBlocks).filter fun b => inOrder ord (nbProbed g) b = true ∧
      (blocks b).currentPageOffset < g.pagesPerBlock).card < nbMetaBlocks g ∨
    ((Finset.range g.nbBlocks).filter fun b => inOrder ord (nbProbed g) b = true).card <
      ((Finset.range g.nbBlocks).filter fun b => (blocks b).currentPageOffset < g.pagesPerBlock).card

end Moves

/-! ## Runs -/

/-- What can happen to a loaded module: a call, or that it is loaded again, from headers with the ranks `ord`
and the block records `blocks`. -/
inductive Operation where
  | call (c : Call)
  | mount (ord : ℕ → Option ℕ) (blocks : ℕ → BlkInfo)

def Operates (env : Env) (s : Config) : Operation → Config → Prop
  | .call c, s' => Returns env s c s'
  | .mount ord blocks, s' => Mounts env s.mtd ord blocks s'

/-- The steps that operations are made of. A `set_keyval` is a `store` up to `gc_check`, and behind a pair that
was stored the two halves of `gc_check`; every other operation is one step. -/
inductive Action where
  | store (key val : Option CStr)
  | collect
  | writeBack
  | whole (o : Operation)

def Acts (env : Env) (s : Config) : Action → Config → Prop
  | .store key val, s' => ∃ x, setStore env key val s = .ok (x, s')
  | .collect, s' => ∃ u, gcIfNeeded env s = .ok (u, s')
  | .writeBack, s' => ∃ u, flushIfNeeded env s = .ok (u, s')
  | .whole (.call (.set _ _)), _ => False
  | .whole o, s' => Operates env s o s'

/-- On the state before a step: it leaves a block for data if it leaves the store writable. -/
def RoomOk (env : Env) (s : Config) : Action → Prop
  | .store _ _ => SetRoomOk env.toGeometry s
  | .collect => 64 ≤ env.pagesPerBlock → s.isGb = true → GcRoomOk env.toGeometry s
  | .writeBack => flushThreshold2 ≤ s.writeCnt → FlushRoomOk env.toGeometry s
  | .whole (.call .format) => ∃ b < env.nbBlocks, inOrder s.metaBlkordr (nbProbed env.toGeometry) b = false
  | .whole (.call .gc) => 64 ≤ env.pagesPerBlock → s.isGb = true → GcRoomOk env.toGeometry s
  | .whole (.call (.flush force)) => FlushRuns s force → FlushRoomOk env.toGeometry s
  | .whole (.call _) => True
  | .whole (.mount ord blocks) => MountRoomOk env.toGeometry ord blocks

section Runs
variable {env : Env} {s s' : Config}

/-- Every operation is a run of such steps. -/
theorem Operates.acts {o : Operation} (h : Operates env s o s') : ∃ as, Run (Acts env) s as s' := by
  obtain ⟨key, val, rfl⟩ | hother : (∃ key val, o = .call (.set key val)) ∨ Acts env s (.whole o) s' := by
    cases o with
    | mount ord blocks => exact .inr h
    | call c =>
      cases c with
      | set key val => exact .inl ⟨key, val, rfl⟩
      | _ => exact .inr h
  · obtain ⟨r, he⟩ := h
    obtain ⟨code, s₁, he₁, hend⟩ := bind_ok.mp he
    obtain ⟨-, rfl⟩ := pure_ok.mp hend
    obtain ⟨x, s₂, he₂, hexit⟩ := bind_ok.mp he₁
    have hstore : Acts env s (.store key val) s₂ := ⟨x, he₂⟩
    cases x with
    | early ret =>
      obtain ⟨-, rfl⟩ := pure_ok.mp hexit
      exact ⟨_, .cons hstore (.nil _)⟩
    | stored ret =>
      obtain ⟨_, s₃, he₃, hcode⟩ := bind_ok.mp hexit
      obtain ⟨-, rfl⟩ := pure_ok.mp hcode
      obtain ⟨u, s₄, he₄, he₅⟩ := bind_ok.mp he₃
      have hcollect : Acts env s₂ .collect s₄ := ⟨u, he₄⟩
      have hwrite : Acts env s₄ .writeBack _ := ⟨_, he₅⟩
      exact ⟨_, .cons hstore (.cons hcollect (.cons hwrite (.nil _)))⟩
  · exact ⟨_, .cons hother (.nil _)⟩

theorem scanPages_order {h : History} {i idx : ℕ} : ∀ {js : List ℕ} {t : Scan} {r : Bool × Scan},
    scanPages env h i idx js t = .ok r → r.2.metaBlkordr = t.metaBlkordr
  | [], _, _, he => by
    obtain rfl := Except.ok.inj he
    rfl
  | j :: js, t, r, he => by
    rw [scanPages] at he
    simp only at he
    split at he
    · obtain rfl := Except.ok.inj he
      rfl
    · split at he
      · cases he
      · split at he
        · exact (scanPages_order he :)
        · split at he
          · cases he
          · exact (scanPages_order he :)

/-- The scan lists blocks of the flash. -/
theorem scanBlocks_order {h : History} : ∀ {is : List ℕ} {t t' : Scan},
    (∀ i ∈ is, i < env.nbBlocks) → (∀ j b, t.metaBlkordr j = some b → b < env.nbBlocks) →
    scanBlocks env h is t = .ok t' → ∀ j b, t'.metaBlkordr j = some b → b < env.nbBlocks
  | [], t, _, _, ht, he => by
    obtain rfl := Except.ok.inj he
    exact ht
  | i :: is, t, t', hi, ht, he => by
    obtain ⟨hi, his⟩ := List.forall_mem_cons.mp hi
    rw [scanBlocks] at he
    simp only at he
    split at he
    · cases he
    · split at he
      · exact scanBlocks_order his ht he
      · obtain ⟨idx, -, he⟩ := except_bind_ok.mp he
        split at he
        · cases he
        · obtain ⟨r, hpages, he⟩ := except_bind_ok.mp he
          have hord : r.2.metaBlkordr = Function.update t.metaBlkordr idx.toNat (some i) :=
            scanPages_order hpages
          have hr : ∀ j b, r.2.metaBlkordr j = some b → b < env.nbBlocks := by
            intro j b hb
            rw [hord] at hb
            by_cases hj : j = idx.toNat
            · rw [hj, Function.update_self] at hb
              exact Option.some.inj hb ▸ hi
            · rw [Function.update_of_ne hj] at hb
              exact ht j b hb
          split at he
          · obtain rfl := Except.ok.inj he
            exact hr
          · exact scanBlocks_order his hr he

/-- A mount that meets its condition leaves a block for data, whatever was loaded before. -/
theorem mounts_roomy {h : History} {ord : ℕ → Option ℕ} {blocks : ℕ → BlkInfo}
    (hm : Mounts env h ord blocks s') (hok : MountRoomOk env.toGeometry ord blocks) :
    s'.space.Roomy env.toGeometry := by
  obtain ⟨t, table, hscan, hord, -, -, -, rfl⟩ := hm
  have hofs : ∀ b, (Config.loaded env.toGeometry h ord blocks table).space.offset b =
      (blocks b).currentPageOffset := fun b => (addLists_same _ _ _ b).1
  refine ⟨fun j b hb => ⟨hok.rank j (ne_of_eq_of_ne hb (Option.some_ne_none b)), ?_⟩, fun b hb => ?_,
    fun hro => ?_⟩
  · exact scanBlocks_order (fun i hi => List.mem_range.mp hi)
      (fun _ b hn => (Option.some_ne_none b hn.symm).elim) hscan j b (hord ▸ hb)
  · exact (addLists_same _ _ _ b).2.trans_lt (hok.worn b hb)
  · obtain hfew | hmany := hok.left
    · have hsame : (Config.loaded env.toGeometry h ord blocks table).space.openMeta env.toGeometry =
          (Finset.range env.nbBlocks).filter fun b => inOrder ord (nbProbed env.toGeometry) b = true ∧
            (blocks b).currentPageOffset < env.pagesPerBlock :=
        Finset.filter_congr fun b _ => by rw [hofs]; rfl
      refine Space.Few.room ?_ rfl hro
      rw [Space.Few, hsame]
      exact hfew
    · -- more blocks have a page left than are listed
      obtain ⟨b, hb, hnot⟩ := Finset.exists_mem_notMem_of_card_lt_card hmany
      obtain ⟨hlt, ho⟩ := Finset.mem_filter.mp hb
      refine ⟨b, Space.mem_openData.mpr ⟨Finset.mem_range.mp hlt, ?_, by rwa [hofs]⟩⟩
      exact eq_false_of_ne_true fun hlisted => hnot (Finset.mem_filter.mpr ⟨hlt, hlisted⟩)

/-- A step that meets its condition keeps a block for data. -/
theorem acts_roomy (hdrv : env.NoDriverError) {a : Action} (hR : s.space.Roomy env.toGeometry)
    (hok : RoomOk env s a) (h : Acts env s a s') : s'.space.Roomy env.toGeometry := by
  cases a with
  | store key val => exact h.elim fun _ he => setStore_roomy hR hok he
  | collect => exact h.elim fun _ he => gcIfNeeded_roomy hdrv hR hok he
  | writeBack => exact h.elim fun _ he => flushIfNeeded_roomy hdrv hR hok he
  | whole o =>
    cases o with
    | mount ord blocks => exact mounts_roomy h hok
    | call c =>
      cases c with
      | set key val => exact h.elim
      | get key =>
        obtain ⟨r, he⟩ := h
        rw [(getKeyval_space key).eq he]
        exact hR
      | del key =>
        obtain ⟨r, he⟩ := h
        obtain ⟨code, s₁, he₁, hend⟩ := bind_ok.mp he
        obtain ⟨-, rfl⟩ := pure_ok.mp hend
        rw [(delKey_space key).eq he₁]
        exact hR
      | format =>
        obtain ⟨r, he⟩ := h
        obtain ⟨code, s₁, he₁, hend⟩ := bind_ok.mp he
        obtain ⟨-, rfl⟩ := pure_ok.mp hend
        exact format_roomy hR hok he₁
      | gc =>
        obtain ⟨r, he⟩ := h
        obtain ⟨_, s₁, he₁, hend⟩ := bind_ok.mp he
        obtain ⟨-, rfl⟩ := pure_ok.mp hend
        exact gc_roomy hdrv hR hok he₁
      | flush force =>
        obtain ⟨r, he⟩ := h
        obtain ⟨code, s₁, he₁, hend⟩ := bind_ok.mp he
        obtain ⟨-, rfl⟩ := pure_ok.mp hend
        exact flushMetadata_roomy hdrv hR hok he₁

/-- While the store is writable, `get_healthy_block` finds a block of the flash, not a metadata block, with
a page left. -/
def Allocates (g : Geometry) (s : Config) : Prop :=
  s.readOnly = false → ∃ b, getHealthyBlock g s = some b ∧ b < g.nbBlocks ∧
    (∀ j, s.metaBlkordr j ≠ some b) ∧ (s.blocks b).currentPageOffset < g.pagesPerBlock

theorem allocates_of_roomy {g : Geometry} (hR : s.space.Roomy g) : Allocates g s := by
  intro hro
  obtain ⟨b, hb⟩ := hR.room hro
  obtain ⟨c, hc⟩ := getHealthyBlock_isSome hb (hR.worn b (Space.mem_openData.mp hb).1)
  obtain ⟨hlt, hord, ho⟩ := Space.mem_openData.mp (getHealthyBlock_some hc)
  exact ⟨c, hc, hlt, fun j hj => inOrder_eq_false.mp hord j (hR.order j c hj).1 hj, ho⟩

/-- A search for a block that fails, or a header that is refused, leaves the store read-only. -/
theorem getNextBlockToWrite_fails (ha : Allocates env.toGeometry s)
    (he : getNextBlockToWrite env s = .ok (-1, s')) :
    s'.readOnly = true ∨ s'.metaReadOnly = true := by
  obtain ⟨hnone, -, rfl⟩ | ⟨b, -, ⟨-, hret, -⟩ | ⟨-, hhdr⟩⟩ := getNextBlockToWrite_ok he
  · refine .inl (eq_true_of_ne_false fun hro => ?_)
    obtain ⟨b, hb, -⟩ := ha hro
    rw [hnone] at hb
    cases hb
  · omega
  · obtain ⟨hmeta, -, rfl⟩ | ⟨-, -, s₁, he₁, rfl⟩ := writeHdr_ok hhdr
    · exact .inr hmeta
    · obtain ⟨hro, -, rfl⟩ | ⟨-, -, -, hret, rfl⟩ := writePage_ok he₁
      · exact .inl hro
      · split at hret
        · next hfull => exact .inl hfull
        · omega

/-- In a run from a mount in which every step meets its condition, every state reached has a block to write to
while it is writable. So has a set behind its `invalid_pg`, and if it finds no page, the store is read-only
from there on. -/
theorem writable_allocates (env : Env) (hdrv : env.NoDriverError) {h : History} {ord : ℕ → Option ℕ}
    {blocks : ℕ → BlkInfo} {s₀ s : Config} {as : List Action} (hm : Mounts env h ord blocks s₀)
    (hok : MountRoomOk env.toGeometry ord blocks)
    (hr : Run (fun s a s' => RoomOk env s a ∧ Acts env s a s') s₀ as s) :
    Allocates env.toGeometry s ∧ ∀ key u s₁,
      withLock .listLock (invalidOld env key) (s.lock .eraseLock true) = .ok (u, s₁) →
        Allocates env.toGeometry s₁ ∧ ∀ s₂, getNextBlockToWrite env s₁ = .ok (-1, s₂) →
          s₂.readOnly = true ∨ s₂.metaReadOnly = true := by
  have hR : s.space.Roomy env.toGeometry := hr.invariant
    (I := fun s => s.space.Roomy env.toGeometry) (fun s a s' hs hstep =>
      acts_roomy hdrv hs hstep.1 hstep.2) (mounts_roomy hm hok)
  refine ⟨allocates_of_roomy hR, fun key u s₁ he => ?_⟩
  have hA : Allocates env.toGeometry s₁ := by
    refine allocates_of_roomy ?_
    rw [(space_withLock (invalidOld_space key)).eq he]
    exact hR
  exact ⟨hA, fun s₂ he₂ => getNextBlockToWrite_fails hA he₂⟩

/-- A device without metadata is loaded. -/
theorem mounts_start :
    Mounts (Env.ideal smallGeometry) [] (fun _ => none) (fun _ => .erased 0) .start := by
  refine ⟨.start (fun _ => List.replicate 1024 0) (fun _ => List.replicate 1024 0),
    fun _ => ⟨false, 0, .ofBytes [], .pgFree⟩, rfl, rfl, fun _ _ => rfl, fun _ _ => rfl, fun i _ h => ?_, rfl⟩
  cases h

/-- On a new device metadata is flushed, a pair is stored, and then deleted. -/
theorem writable_allocates_flushed : ∃ s,
    Run (fun s a s' => RoomOk (Env.ideal smallGeometry) s a ∧ Acts (Env.ideal smallGeometry) s a s') .start
      [.whole (.call (.flush true)), .store (some (.ofBytes [107])) (some (.ofBytes [118])), .collect, .writeBack,
        .whole (.call (.del (some (.ofBytes [107]))))] s ∧
    s.metaBlkordr 0 = some 1 ∧ Allocates smallGeometry s := by
  obtain ⟨s, hrun, hmeta⟩ : ∃ s,
      Run (fun s a s' => RoomOk (Env.ideal smallGeometry) s a ∧ Acts (Env.ideal smallGeometry) s a s') .start
        [.whole (.call (.flush true)), .store (some (.ofBytes [107])) (some (.ofBytes [118])), .collect, .writeBack,
          .whole (.call (.del (some (.ofBytes [107]))))] s ∧ s.metaBlkordr 0 = some 1 := by
    refine ⟨_, .cons ⟨fun _ => ⟨fun b _ => ?_, .inr (.inl ?_)⟩, ⟨_, rfl⟩⟩ (.cons ⟨?_, ⟨_, rfl⟩⟩
      (.cons ⟨fun hppb => absurd hppb (by decide), ⟨_, rfl⟩⟩ (.cons ⟨fun hcnt => absurd hcnt (by decide), ⟨_, rfl⟩⟩
        (.cons ⟨trivial, ⟨_, rfl⟩⟩ (.nil _))))), rfl⟩
    · exact (by decide : 0 + nbMetaBlocks smallGeometry < intMax)
    · decide
    · intro b hb
      obtain rfl : 0 = b := Option.some.inj hb
      exact .inr (.inr (.inr (by decide)))
  exact ⟨s, hrun, hmeta, (writable_allocates (Env.ideal smallGeometry) (Env.ideal_noDriverError _) mounts_start
    ⟨fun j hj => absurd rfl hj, fun b _ => (by decide : 0 < intMax), .inl (by decide)⟩ hrun).1⟩

/-- A forced flush leaves the last metadata block a page, and three pairs fill the other block: nothing is
left to write to, and the store is not read-only. -/
theorem writable_without_block : ∃ s₀ os s, Mounts (Env.ideal smallGeometry) [] (fun _ => none)
      (fun _ => .erased 0) s₀ ∧
    Run (Operates (Env.ideal smallGeometry)) s₀ os s ∧ ¬ Allocates smallGeometry s := by
  refine ⟨.start, [.call (.flush true), .call (.set (some (.ofBytes [107])) (some (.ofBytes [118]))),
    .call (.set (some (.ofBytes [107])) (some (.ofBytes [118]))),
    .call (.set (some (.ofBytes [107])) (some (.ofBytes [118])))], _, mounts_start,
    .cons ⟨_, rfl⟩ (.cons ⟨_, rfl⟩ (.cons ⟨_, rfl⟩ (.cons ⟨_, rfl⟩ (.nil _)))), fun h => ?_⟩
  obtain ⟨b, hb, -⟩ := h rfl
  cases hb

end Runs

end LkpProjects.Parallel
