import LkpProjects.Serial.MapContract

/-! # The serial store: what a session returns, and how much it stores

Until the metadata is flushed or a block is collected, no block is erased and no page is used twice. The store then
takes one record for each page that is not a header, and what each call returns depends on the calls alone: on the
map so far, on the number of records since the last `format` (`Book.stores`), and on the number of pages invalidated
since then (`Book.drops`), which is to stay below the threshold of `gc`.

`session_told` is that for all sessions, the ones that fill the store included: the record on the last page is
stored, though its code is -3, and every one behind it is refused.
-/
namespace LkpProjects.Serial
open Nand Bytes Stepwise
set_option autoImplicit false

variable {env : Env} {g : Geometry} {s s' : Config} {m : CStr → Option CStr} {b h n : ℕ}

/-! ## Pages written and pages invalidated -/

/-- The pages that are not headers. -/
def capacity (g : Geometry) : ℕ := g.nbBlocks * (g.pagesPerBlock - 1)

/-- The records written so far. -/
def filled (g : Geometry) (s : Config) : ℕ :=
  ∑ b ∈ Finset.range g.nbBlocks, ((s.blocks b).currentPageOffset - 1)

/-- The pages counted as invalid. -/
def invalidated (g : Geometry) (s : Config) : ℕ := ∑ b ∈ Finset.range g.nbBlocks, (s.blocks b).nbInvalid

/-- A sum of which one term grows. -/
theorem sum_step {f f' : ℕ → ℕ} {d : ℕ} (hb : b < n) (hself : f' b = f b + d) (hne : ∀ c, c ≠ b → f' c = f c) :
    ∑ c ∈ Finset.range n, f' c = ∑ c ∈ Finset.range n, f c + d := by
  have hmem : b ∈ Finset.range n := Finset.mem_range.mpr hb
  have hrest : ∑ c ∈ (Finset.range n).erase b, f' c = ∑ c ∈ (Finset.range n).erase b, f c :=
    Finset.sum_congr rfl fun c hc => hne c (Finset.ne_of_mem_erase hc)
  rw [← Finset.add_sum_erase _ f' hmem, ← Finset.add_sum_erase _ f hmem, hself, hrest]
  omega

theorem filled_le (hle : ∀ b < g.nbBlocks, (s.blocks b).currentPageOffset ≤ g.pagesPerBlock) :
    filled g s ≤ capacity g := by
  have hsum : filled g s ≤ ∑ _ ∈ Finset.range g.nbBlocks, (g.pagesPerBlock - 1) :=
    Finset.sum_le_sum fun b hb => Nat.sub_le_sub_right (hle b (Finset.mem_range.mp hb)) 1
  rwa [Finset.sum_const, Finset.card_range, smul_eq_mul] at hsum

/-- The store is full when it is read-only. -/
theorem full_iff (hle : ∀ b < g.nbBlocks, (s.blocks b).currentPageOffset ≤ g.pagesPerBlock) :
    isReadOnly g s = true ↔ filled g s = capacity g := by
  have htwo := g.two_le_pagesPerBlock
  have hconst : ∑ _ ∈ Finset.range g.nbBlocks, (g.pagesPerBlock - 1) = capacity g := by
    rw [Finset.sum_const, Finset.card_range, smul_eq_mul, capacity]
  rw [isReadOnly_iff]
  constructor
  · intro hfull
    rw [← hconst]
    refine Finset.sum_congr rfl fun b hb => ?_
    rw [Nat.le_antisymm (hle b (Finset.mem_range.mp hb)) (hfull b (Finset.mem_range.mp hb))]
  · intro hsum b hb
    by_contra hlt
    have hless : filled g s < ∑ _ ∈ Finset.range g.nbBlocks, (g.pagesPerBlock - 1) :=
      Finset.sum_lt_sum (fun c hc => Nat.sub_le_sub_right (hle c (Finset.mem_range.mp hc)) 1)
        ⟨b, Finset.mem_range.mpr hb, by omega⟩
    omega

/-- `dx` records are written, `dy` pages are invalidated, and no block is erased or taken for metadata. -/
structure Counted (g : Geometry) (dx dy : ℕ) (s s' : Config) : Prop where
  filled : filled g s' = filled g s + dx
  invalidated : invalidated g s' = invalidated g s + dy
  worn : ∀ b, (s'.blocks b).worn = (s.blocks b).worn
  data : ∀ b, (s'.blocks b).state = .blkMeta → (s.blocks b).state = .blkMeta

namespace Counted
variable {dx dy dx' dy' : ℕ} {t : Config}

theorem refl (s : Config) : Counted g 0 0 s s := ⟨rfl, rfl, fun _ => rfl, fun _ => id⟩

theorem trans (h : Counted g dx dy s s') (h' : Counted g dx' dy' s' t) :
    Counted g (dx + dx') (dy + dy') s t where
  filled := by rw [h'.filled, h.filled, Nat.add_assoc]
  invalidated := by rw [h'.invalidated, h.invalidated, Nat.add_assoc]
  worn b := (h'.worn b).trans (h.worn b)
  data b hb := h.data b (h'.data b hb)

theorem dropped (hb : s.blkOf g h < g.nbBlocks) : Counted g 0 1 s (s.dropped g h) where
  filled := Finset.sum_congr rfl fun b _ => by rw [dropped_offset]
  invalidated := by
    refine sum_step hb ?_ fun c hc => ?_
    · rw [dropped_nbInvalid, if_pos rfl]
    · rw [dropped_nbInvalid, if_neg hc]
  worn := dropped_worn g s h
  data b hst := by rwa [dropped_state] at hst

/-- A block gets its header, which is no record. -/
theorem ready (hR : Ready g b s s') : Counted g 0 0 s s' := by
  obtain ⟨-, rfl⟩ | ⟨hzero, hO⟩ := hR
  · exact .refl _
  · have hblk : ∀ c, (s'.blocks c).currentPageOffset - 1 = (s.blocks c).currentPageOffset - 1 ∧
        (s'.blocks c).nbInvalid = (s.blocks c).nbInvalid ∧ (s'.blocks c).worn = (s.blocks c).worn ∧
        ((s'.blocks c).state = .blkMeta → (s.blocks c).state = .blkMeta) := by
      intro c
      by_cases hc : c = b
      · rw [hc, hO.block_self, hzero]
        exact ⟨rfl, rfl, rfl, BlkState.noConfusion⟩
      · rw [hO.block_ne hc]
        exact ⟨rfl, rfl, rfl, id⟩
    exact ⟨Finset.sum_congr rfl fun c _ => (hblk c).1, Finset.sum_congr rfl fun c _ => (hblk c).2.1,
      fun c => (hblk c).2.2.1, fun c => (hblk c).2.2.2⟩

theorem stored {key : CStr} {data : List Byte} (hb : b < g.nbBlocks) (hpos : 0 < (s.blocks b).currentPageOffset)
    (hS : Stored g key data b h s s') : Counted g 1 0 s s' where
  filled := by
    refine sum_step hb ?_ fun c hc => by rw [hS.block_ne hc]
    rw [hS.offset_self]
    omega
  invalidated := Finset.sum_congr rfl fun c _ => hS.nbInvalid
  worn c := hS.worn
  data c hst := by rwa [hS.state] at hst

end Counted

/-! ## The page that a key has -/

namespace Inv

/-- A configuration represents one map. -/
theorem map_some (hI : Inv env s m) {key val : CStr} (hm : m key = some val) :
    ¬ Inv env s (Function.update m key none) := by
  intro hI'
  obtain ⟨h, hv, hk⟩ := hI.complete key val hm
  obtain ⟨v, hv', -⟩ := hI'.stored h hv
  rw [hk, Function.update_self] at hv'
  cases hv'

/-- `set_keyval` invalidates the page that the key has. -/
theorem invalidOld_counted (hI : Inv env s m) (key : CStr) : ∃ s', Serial.invalidOld env key s = .ok s' ∧
    Inv env s' (Function.update m key none) ∧
      Counted env.toGeometry 0 (if (m key).isSome then 1 else 0) s s' := by
  obtain ⟨s', he, hI', hcase⟩ := hI.invalidOld key
  refine ⟨s', he, hI', ?_⟩
  cases hm : m key with
  | none =>
    obtain ⟨e, hs⟩ := hI.search_absent hm
    rw [Serial.invalidOld, hs] at he
    obtain rfl := Except.ok.inj he
    exact .refl _
  | some val =>
    obtain rfl | ⟨h, hv, rfl⟩ := hcase
    · exact absurd hI' (hI.map_some hm)
    · exact .dropped (hI.blkLt h hv)

theorem delKey_counted (hI : Inv env s m) (key : CStr) : ∃ ret s', Serial.delKey env key s = .ok (ret, s') ∧
    (if (m key).isSome then 0 ≤ ret else ret = -2) ∧ Inv env s' (Function.update m key none) ∧
      Counted env.toGeometry 0 (if (m key).isSome then 1 else 0) s s' := by
  cases hm : m key with
  | none =>
    refine ⟨-2, s, hI.delKey_absent hm, rfl, ?_, .refl s⟩
    rw [← hm, Function.update_eq_self]
    exact hI
  | some val =>
    obtain ⟨ret, s', he, hret, hI', hcase⟩ := hI.delKey key
    refine ⟨ret, s', he, hret.mpr (by rw [hm]; exact Option.some_ne_none val), hI', ?_⟩
    obtain rfl | ⟨h, hv, rfl⟩ := hcase
    · exact absurd hI' (hI.map_some hm)
    · exact .dropped (hI.blkLt h hv)

end Inv

/-! ## What the calls alone tell -/

/-- The map, and the records written and the pages invalidated since the last `format`. -/
structure Book where
  map : CStr → Option CStr
  stores : ℕ
  drops : ℕ

namespace Book

def empty : Book := ⟨fun _ => none, 0, 0⟩

/-- A call that is not refused: a pair that fits its page, and a page for it. -/
def Takes (g : Geometry) (k : Book) (key val : CStr) : Prop :=
  key.len + val.len + 8 ≤ g.pageSize ∧ k.stores < capacity g

instance (g : Geometry) (k : Book) (key val : CStr) : Decidable (k.Takes g key val) :=
  inferInstanceAs (Decidable (_ ∧ _))

/-- The page that the key has is invalidated. -/
def drop (k : Book) (key : CStr) : Book :=
  ⟨Function.update k.map key none, k.stores, k.drops + if (k.map key).isSome then 1 else 0⟩

/-- A page is written under the key. -/
def store (k : Book) (key val : CStr) : Book := ⟨Function.update k.map key (some val), k.stores + 1, k.drops⟩

/-- The book after a call. -/
def after (g : Geometry) (k : Book) : Request → Book
  | .set key val _ => if k.Takes g key val then (k.drop key).store key val else k
  | .del key => k.drop key
  | .format => empty
  | _ => k

/-- What a call returns. The set that writes the last page is told that the store is read-only. -/
def Told (g : Geometry) (k : Book) (e : Request × Result) : Prop :=
  match e.1 with
  | .set key val _ => e.2.code =
      if g.pageSize < key.len + val.len + 8 then -1 else if k.stores + 1 < capacity g then 0 else -3
  | .get key =>
      match k.map key with
      | some val => 0 ≤ e.2.code ∧ e.2.val = val.bytes
      | none => e.2.code = -1
  | .del key => if (k.map key).isSome then 0 ≤ e.2.code else e.2.code = -2
  | _ => e.2.code = 0

/-- No block can have as many invalid pages as `gc` collects. -/
def Light (g : Geometry) (k : Book) : Prop := g.pagesPerBlock ≤ invalidThreshold ∨ k.drops < invalidThreshold

/-- A call that neither flushes nor mounts, with a key that fits its bucket. -/
def Plain : Request → Prop
  | .set key _ elapsed => key.len < 128 ∧ elapsed = false
  | .flush => False
  | .reload => False
  | _ => True

/-- A call with what it returns. -/
def Step (g : Geometry) (k : Book) (e : Request × Result) (k' : Book) : Prop := k.Told g e ∧ k' = k.after g e.1

/-- A session of such calls, in which nothing is collected. -/
def Session (g : Geometry) : Book → List Request → Prop
  | _, [] => True
  | k, r :: rs => Plain r ∧ (k.after g r).Light g ∧ Session g (k.after g r) rs

end Book

/-- The configuration is as the book says. -/
structure Booked (env : Env) (s : Config) (k : Book) : Prop where
  contract : ContractInv env s k.map
  data : ∀ b < env.nbBlocks, (s.blocks b).state ≠ .blkMeta
  worn : ∀ b < env.nbBlocks, (s.blocks b).worn = 0
  filled : filled env.toGeometry s = k.stores
  invalidated : invalidated env.toGeometry s = k.drops

namespace Booked
variable {k k' : Book} {key val : CStr}

theorem counted {dx dy : ℕ} (hB : Booked env s k) (hC : ContractInv env s' k'.map)
    (hcount : Counted env.toGeometry dx dy s s') (hs : k'.stores = k.stores + dx) (hd : k'.drops = k.drops + dy) :
    Booked env s' k' where
  contract := hC
  data b hb hst := hB.data b hb (hcount.data b hst)
  worn b hb := (hcount.worn b).trans (hB.worn b hb)
  filled := by rw [hcount.filled, hB.filled, hs]
  invalidated := by rw [hcount.invalidated, hB.invalidated, hd]

theorem readOnly_iff (hB : Booked env s k) : s.readOnly = true ↔ k.stores = capacity env.toGeometry := by
  rw [hB.contract.inv.readOnly, full_iff hB.contract.inv.offsetLe, hB.filled]

theorem stores_le (hB : Booked env s k) : k.stores ≤ capacity env.toGeometry := by
  rw [← hB.filled]
  exact filled_le hB.contract.inv.offsetLe

/-- Nothing is collected. -/
theorem gc (hB : Booked env s k) (hlight : k.Light env.toGeometry) : Serial.gc env s = .ok s := by
  have hnone : gcTarget env.toGeometry s = none := by
    cases htarget : gcTarget env.toGeometry s with
    | none => rfl
    | some b =>
      obtain ⟨hb, hinvalid⟩ := gcTarget_some htarget
      obtain hshort | hfew := hlight
      · have hI := hB.contract.inv
        have hle := hI.offsetLe b hb
        obtain hfree | hused := hB.contract.blocks.state_cases hb (hB.data b hb)
        · have hzero := (hI.free b hb hfree).2
          have hpos : 0 < invalidThreshold := by decide
          omega
        · have hsum := hI.used b hb hused
          omega
      · have hterm : (s.blocks b).nbInvalid ≤ Serial.invalidated env.toGeometry s :=
          Finset.single_le_sum (f := fun c => (s.blocks c).nbInvalid) (fun _ _ => Nat.zero_le _)
            (Finset.mem_range.mpr hb)
        rw [hB.invalidated] at hterm
        omega
  rw [Serial.gc, hnone]

/-- A record is written, and the page that its key had is invalidated. -/
theorem storePhase (hB : Booked env s k) (hdrv : env.NoDriverError) (hlen : key.len < 128)
    (hsize : key.len + val.len + 8 ≤ env.pageSize) (hro : s.readOnly = false) :
    ∃ s', Serial.storePhase env key val s = .ok (writeCode env.toGeometry s', s') ∧
      Booked env s' ((k.drop key).store key val) := by
  have hI := hB.contract.inv
  have hworn : ∀ b < env.nbBlocks, (s.blocks b).worn < intMax := fun b hb => by
    rw [hB.worn b hb]
    decide
  obtain ⟨b, hb⟩ := hI.getHealthyBlock_isSome hro hworn
  have hlt := (getHealthyBlock_some hb).1
  obtain ⟨s₁, he, hI₁, hcount₁⟩ := hI.invalidOld_counted key
  obtain ⟨-, hro₁, hb₁⟩ := invalidOld_moves he
  rw [hb] at hb₁
  have hst₁ : (s₁.blocks b).state ≠ .blkMeta := fun hmeta => hB.data b hlt (hcount₁.data b hmeta)
  have hrec := record_holds (g := env.toGeometry) (by omega : 8 + key.len + val.len ≤ env.pageSize)
  obtain ⟨s₂, h, s₃, hR, hS, hstore, hI₃⟩ :=
    hI₁.storeAt hdrv (hro₁.trans hro) hb₁ hst₁ hlen hrec (Function.update_self ..)
  rw [Function.update_idem] at hI₃
  have hphase : Serial.storePhase env key val s = .ok (writeCode env.toGeometry s₃, s₃) := by
    simp only [Serial.storePhase, he, hstore]
  have hpos : 0 < (s₂.blocks b).currentPageOffset := (hR.offset (getHealthyBlock_some hb₁).2.2).1
  have hcount : Counted env.toGeometry (0 + 0 + 1) ((if (k.map key).isSome then 1 else 0) + 0 + 0) s s₃ :=
    (hcount₁.trans (.ready hR)).trans (.stored hlt hpos hS)
  obtain ⟨c, hc, hm⟩ := storePhase_moves hdrv hro hphase
  have hC₃ : ContractInv env s₃ ((k.drop key).store key val).map := by
    refine hB.contract.moves (fun d hd => ?_) hm ?_
    · rw [hd]
      exact hB.data c (getHealthyBlock_some hc).1
    · rw [Book.store, Book.drop]
      dsimp only
      rw [Function.update_idem]
      exact hI₃
  exact ⟨s₃, hphase, hB.counted hC₃ hcount rfl rfl⟩

theorem set (hB : Booked env s k) (hdrv : env.NoDriverError) (hlen : key.len < 128)
    (hlight : (k.after env.toGeometry (.set key val false)).Light env.toGeometry) :
    ∃ ret s', setKeyval env key val false s = .ok (ret, s') ∧
      k.Told env.toGeometry (.set key val false, ⟨ret, []⟩) ∧
        Booked env s' (k.after env.toGeometry (.set key val false)) := by
  have hle := hB.stores_le
  by_cases hbig : env.pageSize < key.len + val.len + 8
  · refine ⟨-1, s, if_pos hbig, ?_, ?_⟩
    · rw [Book.Told]
      exact (if_pos hbig).symm
    · have hno : ¬ k.Takes env.toGeometry key val := fun htake => absurd htake.1 (not_le.mpr hbig)
      rwa [Book.after, if_neg hno]
  · by_cases hfull : k.stores = capacity env.toGeometry
    · have hro := hB.readOnly_iff.mpr hfull
      refine ⟨-3, s, by rw [setKeyval, if_neg hbig, hro]; rfl, ?_, ?_⟩
      · rw [Book.Told]
        dsimp only
        rw [if_neg hbig, if_neg (by omega)]
      · have hno : ¬ k.Takes env.toGeometry key val := fun htake => absurd htake.2 (by omega)
        rwa [Book.after, if_neg hno]
    · have hro : s.readOnly = false := eq_false_of_ne_true fun hro => hfull (hB.readOnly_iff.mp hro)
      have htake : k.Takes env.toGeometry key val := ⟨not_lt.mp hbig, by omega⟩
      obtain ⟨s₁, hphase, hB₁⟩ := hB.storePhase hdrv hlen (not_lt.mp hbig) hro
      rw [Book.after, if_pos htake] at hlight
      refine ⟨setCode (writeCode env.toGeometry s₁), s₁, ?_, ?_, by rwa [Book.after, if_pos htake]⟩
      · rw [setKeyval, if_neg hbig, hro, if_neg Bool.false_ne_true, hphase]
        dsimp only
        rw [gbCheck_eq_gc, hB₁.gc hlight]
        rfl
      · have hiff := full_iff hB₁.contract.inv.offsetLe
        have hcount : Serial.filled env.toGeometry s₁ = k.stores + 1 := hB₁.filled
        rw [hcount] at hiff
        rw [Book.Told]
        dsimp only
        rw [if_neg hbig, writeCode]
        by_cases hroom : k.stores + 1 < capacity env.toGeometry
        · rw [if_pos hroom, if_neg fun hro₁ => absurd (hiff.mp hro₁) hroom.ne]
          rfl
        · rw [if_neg hroom, if_pos (hiff.mpr (by omega))]
          rfl

theorem get (hB : Booked env s k) (hdrv : env.NoDriverError) (key : CStr) :
    k.Told env.toGeometry (.get key, ⟨(getKeyval env key s).1, (getKeyval env key s).2⟩) := by
  have hans := hB.contract.answers hdrv key
  rw [Book.Told]
  dsimp only
  cases hm : k.map key with
  | none => rwa [hm] at hans
  | some val => rwa [hm] at hans

theorem del (hB : Booked env s k) (key : CStr) : ∃ ret s', delKey env key s = .ok (ret, s') ∧
    k.Told env.toGeometry (.del key, ⟨ret, []⟩) ∧ Booked env s' (k.drop key) := by
  obtain ⟨ret, s', he, hret, hI, hcount⟩ := hB.contract.inv.delKey_counted key
  have hC : ContractInv env s' (k.drop key).map :=
    hB.contract.moves (fun _ hno => False.elim hno) (delKey_moves he) hI
  exact ⟨ret, s', he, hret, hB.counted hC hcount rfl rfl⟩

theorem format (hB : Booked env s k) (hdrv : env.NoDriverError) : Booked env (Serial.format env s).2 .empty where
  contract := hB.contract.format hdrv
  data b _ hst := by
    rw [format_eq hdrv] at hst
    cases hst
  worn b _ := by
    rw [format_eq hdrv]
    rfl
  filled := by
    rw [format_eq hdrv]
    exact Finset.sum_const_zero
  invalidated := by
    rw [format_eq hdrv]
    exact Finset.sum_const_zero

theorem start (hdrv : env.NoDriverError) : Booked env env.start .empty where
  contract := .start hdrv
  data b _ hst := by
    rw [Env.start, format_eq hdrv] at hst
    cases hst
  worn b _ := by
    rw [Env.start, format_eq hdrv]
    rfl
  filled := by
    rw [Env.start, format_eq hdrv]
    exact Finset.sum_const_zero
  invalidated := by
    rw [Env.start, format_eq hdrv]
    exact Finset.sum_const_zero

/-- A call returns what the book tells, and leaves the configuration as the book says. -/
theorem exec (hB : Booked env s k) (hdrv : env.NoDriverError) {r : Request} (hr : Book.Plain r)
    (hlight : (k.after env.toGeometry r).Light env.toGeometry) :
    ∃ x s', Serial.exec env s r = .ok (x, s') ∧ k.Told env.toGeometry (r, x) ∧
      Booked env s' (k.after env.toGeometry r) := by
  cases r with
  | set key val elapsed =>
    obtain ⟨hlen, rfl⟩ := hr
    obtain ⟨ret, s', he, htold, hB'⟩ := hB.set hdrv hlen hlight
    refine ⟨⟨ret, []⟩, s', ?_, htold, hB'⟩
    rw [Serial.exec, he]
    rfl
  | get key => exact ⟨_, s, rfl, hB.get hdrv key, hB⟩
  | del key =>
    obtain ⟨ret, s', he, htold, hB'⟩ := hB.del key
    refine ⟨⟨ret, []⟩, s', ?_, htold, hB'⟩
    rw [Serial.exec, he]
    rfl
  | gc =>
    refine ⟨⟨0, []⟩, s, ?_, rfl, hB⟩
    rw [Serial.exec, hB.gc hlight]
    rfl
  | flush => exact False.elim hr
  | format =>
    refine ⟨⟨0, []⟩, (Serial.format env s).2, ?_, rfl, hB.format hdrv⟩
    rw [Serial.exec, format_eq hdrv]
  | reload => exact False.elim hr

theorem session (hdrv : env.NoDriverError) {rs : List Request} (hB : Booked env s k)
    (hs : Book.Session env.toGeometry k rs) : ∃ es s', execAll env rs s = .ok (es, s') ∧
      Run (Book.Step env.toGeometry) k es (rs.foldl (Book.after env.toGeometry) k) := by
  induction rs generalizing s k with
  | nil => exact ⟨[], s, rfl, .nil k⟩
  | cons r rs ih =>
    obtain ⟨hr, hlight, hrs⟩ := hs
    obtain ⟨x, s₁, he, htold, hB₁⟩ := hB.exec hdrv hr hlight
    obtain ⟨es, s', hes, hrun⟩ := ih hB₁ hrs
    refine ⟨(r, x) :: es, s', ?_, .cons ⟨htold, rfl⟩ hrun⟩
    simp only [execAll, he, hes]

end Booked

/-- Every session of `set`, `get`, `del`, `gc` and `format` on a new device, with keys that fit their buckets and
fewer pages invalidated than `gc` collects, returns what the calls alone tell. -/
theorem session_told (env : Env) (hdrv : env.NoDriverError) {s₀ : Config} {rs : List Request} (hf : Fresh env s₀)
    (hs : Book.Session env.toGeometry .empty rs) : ∃ es s, execAll env rs s₀ = .ok (es, s) ∧
      Run (Book.Step env.toGeometry) .empty es (rs.foldl (Book.after env.toGeometry) .empty) := by
  rw [fresh_iff hdrv] at hf
  subst hf
  exact (Booked.start hdrv).session hdrv hs

/-- Four pairs fill two blocks of three pages; the fourth is told so, and the fifth is refused. -/
theorem session_told_full : ∃ es s, execAll (.ideal tinyGeometry)
      [.set (.ofBytes [97]) (.ofBytes [118]) false, .set (.ofBytes [98]) (.ofBytes [118]) false,
        .del (.ofBytes [97]), .get (.ofBytes [97]), .set (.ofBytes [97]) (.ofBytes [119]) false, .gc,
        .set (.ofBytes [99]) (.ofBytes [118]) false, .set (.ofBytes [100]) (.ofBytes [118]) false]
      (Env.ideal tinyGeometry).start = .ok (es, s) ∧
    Run (Book.Step tinyGeometry) .empty es ([Request.set (.ofBytes [97]) (.ofBytes [118]) false,
        .set (.ofBytes [98]) (.ofBytes [118]) false, .del (.ofBytes [97]), .get (.ofBytes [97]),
        .set (.ofBytes [97]) (.ofBytes [119]) false, .gc, .set (.ofBytes [99]) (.ofBytes [118]) false,
        .set (.ofBytes [100]) (.ofBytes [118]) false].foldl (Book.after tinyGeometry) .empty) := by
  have hshort : ∀ k : Book, k.Light tinyGeometry := fun _ => Or.inl (by decide)
  refine session_told (.ideal tinyGeometry) (Env.ideal_noDriverError _) rfl
    ⟨⟨by decide, rfl⟩, hshort _, ⟨by decide, rfl⟩, hshort _, trivial, hshort _, trivial, hshort _,
      ⟨by decide, rfl⟩, hshort _, trivial, hshort _, ⟨by decide, rfl⟩, hshort _, ⟨by decide, rfl⟩, hshort _, trivial⟩

end LkpProjects.Serial
