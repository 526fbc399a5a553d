import LkpProjects.Serial.Effects

/-! # The serial store: updates and garbage collection as sequences of moves

`set_keyval`, `del_key` and `gc` change the configuration by four kinds of moves: a valid bucket is
freed, an erased block is opened, a page is stored behind the last one of an open block, and a block is
erased and opened again. `Moves env ok` is any sequence of them in which blocks are written only where
`ok` allows it. What every move preserves, those operations preserve, whatever bytes they copy.
-/
namespace LkpProjects.Serial
open Nand Bytes
set_option autoImplicit false

/-- One move; `ok` tells which blocks may be written. -/
inductive Move (env : Env) (ok : ℕ → Prop) : Config → Config → Prop
  | dropped {s : Config} {h : ℕ} (hv : s.Valid env.toGeometry h)
      (hb : s.blkOf env.toGeometry h < env.nbBlocks) : Move env ok s (s.dropped env.toGeometry h)
  | opened {s s' : Config} {b : ℕ} (hok : ok b) (hb : b < env.nbBlocks)
      (ho : (s.blocks b).currentPageOffset = 0) (hO : Opened env.toGeometry b s s') :
      Move env ok s s'
  | stored {s s' : Config} {key : CStr} {data : List Byte} {b h : ℕ} (hok : ok b)
      (hb : b < env.nbBlocks) (hpos : 0 < (s.blocks b).currentPageOffset)
      (ho : (s.blocks b).currentPageOffset < env.pagesPerBlock)
      (hS : Stored env.toGeometry key data b h s s') : Move env ok s s'
  | reopened {s s' : Config} {b : ℕ} (hok : ok b) (hb : b < env.nbBlocks)
      (hR : Reopened env.toGeometry b s s') : Move env ok s s'

/-- Any number of moves. -/
abbrev Moves (env : Env) (ok : ℕ → Prop) : Config → Config → Prop :=
  Relation.ReflTransGen (Move env ok)

variable {env : Env} {s s' : Config} {ok ok' : ℕ → Prop}

theorem Move.mono (hle : ∀ b, ok b → ok' b) (h : Move env ok s s') : Move env ok' s s' := by
  cases h with
  | dropped hv hb => exact .dropped hv hb
  | opened hok hb ho hO => exact .opened (hle _ hok) hb ho hO
  | stored hok hb hpos ho hS => exact .stored (hle _ hok) hb hpos ho hS
  | reopened hok hb hR => exact .reopened (hle _ hok) hb hR

theorem Moves.mono (hle : ∀ b, ok b → ok' b) (h : Moves env ok s s') : Moves env ok' s s' :=
  Relation.ReflTransGen.mono (fun _ _ => Move.mono hle) s s' h

theorem Moves.preserves {I : Config → Prop} (hI : ∀ s s', I s → Move env ok s s' → I s')
    (h : Moves env ok s s') (hs : I s) : I s' := by
  induction h with
  | refl => exact hs
  | tail _ hm ih => exact hI _ _ ih hm

/-! ## `set_keyval` and `del_key` -/

theorem invalidPg_move {h : ℕ} (hv : s.Valid env.toGeometry h)
    (he : invalidPg env.toGeometry h s = .ok s') : Move env ok s s' := by
  obtain ⟨hb, rfl⟩ := invalidPg_ok he
  exact .dropped hv hb

theorem invalidOld_moves {key : CStr} (he : invalidOld env key s = .ok s') :
    Moves env (fun _ => False) s s' ∧ s'.readOnly = s.readOnly ∧
      getHealthyBlock env.toGeometry s' = getHealthyBlock env.toGeometry s := by
  unfold invalidOld at he
  split at he
  · obtain rfl := Except.ok.inj he
    exact ⟨.refl, rfl, rfl⟩
  · rename_i h hs
    obtain ⟨hlt, hp, -⟩ := hashSearch_sound hs
    obtain ⟨hb, rfl⟩ := invalidPg_ok he
    refine ⟨.single (.dropped ⟨hlt, hp⟩ hb), rfl, ?_⟩
    simp only [getHealthyBlock, dropped_state, dropped_offset, dropped_worn]

theorem storeAt_moves (hdrv : env.NoDriverError) (hro : s.readOnly = false) {key : CStr}
    {buf : List Byte} {ret : ℤ} (he : storeAt env key buf s = .ok (ret, s')) :
    ∃ b, getHealthyBlock env.toGeometry s = some b ∧ Moves env (· = b) s s' := by
  obtain ⟨b, s₁, h, hb, hR, hS, -⟩ := storeAt_ok hdrv hro he
  obtain ⟨hlt, -, ho⟩ := getHealthyBlock_some hb
  obtain ⟨hpos₁, ho₁⟩ := hR.offset ho
  have hst : Move env (· = b) s₁ s' := .stored rfl hlt hpos₁ ho₁ hS
  refine ⟨b, hb, ?_⟩
  rcases hR with ⟨-, rfl⟩ | ⟨h0, hO⟩
  · exact .single hst
  · exact .tail (.single (.opened rfl hlt h0 hO)) hst

theorem storePhase_moves (hdrv : env.NoDriverError) (hro : s.readOnly = false) {key val : CStr}
    {ret : ℤ} (he : storePhase env key val s = .ok (ret, s')) :
    ∃ b, getHealthyBlock env.toGeometry s = some b ∧ Moves env (· = b) s s' := by
  unfold storePhase at he
  split at he
  · cases he
  · rename_i s₁ h₁
    obtain ⟨hm₁, hro₁, hb₁⟩ := invalidOld_moves h₁
    obtain ⟨b, hb, hm⟩ := storeAt_moves hdrv (hro₁.trans hro) he
    exact ⟨b, hb₁ ▸ hb, (hm₁.mono fun _ h => h.elim).trans hm⟩

theorem delKey_moves {key : CStr} {ret : ℤ} (he : delKey env key s = .ok (ret, s')) :
    Moves env (fun _ => False) s s' := by
  unfold delKey at he
  split at he
  · obtain rfl := (Prod.mk.inj (Except.ok.inj he)).2
    exact .refl
  · rename_i h hs
    obtain ⟨hlt, hp, -⟩ := hashSearch_sound hs
    simp only at he
    split at he
    · split at he
      · obtain rfl := (Prod.mk.inj (Except.ok.inj he)).2
        exact .refl
      · split at he
        · cases he
        · rename_i s₁ h₁
          obtain rfl := (Prod.mk.inj (Except.ok.inj he)).2
          exact .single (invalidPg_move ⟨hlt, hp⟩ h₁)
    · obtain rfl := (Prod.mk.inj (Except.ok.inj he)).2
      exact .refl

/-! ## `gc` -/

/-- The test of the victim loop never holds, so `gc` writes back to the block it collects. -/
theorem gcVictim_eq_none (g : Geometry) (s : Config) : gcVictim g s = none := by
  have h0 : ¬ BlkState.blkFree.code ≠ 0 := by decide
  unfold gcVictim
  generalize List.range g.nbBlocks = l
  induction l with
  | nil => rfl
  | cons i l ih =>
    rw [List.foldl_cons, if_neg h0]
    exact ih

theorem gcReadOne_moves {r r' : GcRead} {h h' : ℕ}
    (he : gcReadOne env r h s = .ok (h', r', s')) :
    Moves env (fun _ => False) s s' ∧ r'.lens.length = r.lens.length + 1 := by
  unfold gcReadOne at he
  split at he
  · cases he
  · simp only at he
    split at he
    · cases he
    · split at he
      · cases he
      · rename_i h₁ hs
        split at he
        · cases he
        · rename_i s₁ h₁
          obtain ⟨rfl, rfl, rfl⟩ := Prod.mk.inj (Except.ok.inj he) |>.imp id Prod.mk.inj
          obtain ⟨hlt, hp, -⟩ := hashSearch_sound hs
          exact ⟨.single (invalidPg_move ⟨hlt, hp⟩ h₁), by simp⟩

/-- The walk only frees buckets, and notes no more records than the list had buckets. -/
theorem gcRead_moves {target : ℕ} : ∀ {fuel : ℕ} {r r' : GcRead} {slots : List ℕ} {s s' : Config},
    gcRead env target fuel r slots s = .ok (r', s') →
      Moves env (fun _ => False) s s' ∧ r'.lens.length ≤ r.lens.length + slots.length := by
  intro fuel
  induction fuel with
  | zero =>
    intro r r' slots s s' he
    cases slots <;>
    · rw [gcRead.eq_def] at he
      obtain ⟨rfl, rfl⟩ := Prod.mk.inj (Except.ok.inj he)
      exact ⟨.refl, Nat.le_add_right _ _⟩
  | succ fuel ih =>
    intro r r' slots s s' he
    cases slots with
    | nil =>
      rw [gcRead] at he
      obtain ⟨rfl, rfl⟩ := Prod.mk.inj (Except.ok.inj he)
      exact ⟨.refl, Nat.le_add_right _ _⟩
    | cons h slots =>
      rw [gcRead] at he
      split at he
      · obtain ⟨rfl, rfl⟩ := Prod.mk.inj (Except.ok.inj he)
        exact ⟨.refl, Nat.le_add_right _ _⟩
      · split at he
        · cases he
        · rename_i h₁ r₁ s₁ he₁
          split at he
          · cases he
          · obtain ⟨hm, hl⟩ := gcReadOne_moves he₁
            obtain ⟨hm', hl'⟩ := ih he
            have := List.length_erase_le (a := h₁) (l := slots)
            refine ⟨hm.trans hm', ?_⟩
            rw [List.length_cons]
            omega

theorem gcWriteOne_stored (hdrv : env.NoDriverError) {victim i keyLen valLen : ℕ}
    {buffer buffer' : ℕ → Byte} (hro : s.readOnly = false)
    (ho : (s.blocks victim).currentPageOffset < env.pagesPerBlock)
    (he : gcWriteOne env victim i keyLen valLen buffer s = .ok (buffer', s')) :
    ∃ key data h, Stored env.toGeometry key data victim h s s' ∧ s'.readOnly = false := by
  unfold gcWriteOne at he
  simp only [writePage_eq hdrv hro] at he
  split at he
  · cases he
  · split at he
    · cases he
    · cases he
    · rename_i h t hadd
      split at he
      · cases he
      · rename_i hret
        obtain ⟨-, rfl⟩ := Prod.mk.inj (Except.ok.inj he)
        refine ⟨_, _, h, stored_of_hashAdd _ ho hadd, ?_⟩
        rw [Config.listAdd, Config.modifyBlk_readOnly]
        simp only [wrote_readOnly]
        rw [writeCode] at hret
        split at hret
        · omega
        · rename_i hnot
          simpa using hnot

/-- The records go one behind the other into the block, as long as it has that many pages left. -/
theorem gcWrite_moves (hdrv : env.NoDriverError) {victim : ℕ} (hb : victim < env.nbBlocks) :
    ∀ {lens : List (ℕ × ℕ)} {i : ℕ} {buffer : ℕ → Byte} {s s' : Config}, s.readOnly = false →
      0 < (s.blocks victim).currentPageOffset →
      (s.blocks victim).currentPageOffset + lens.length ≤ env.pagesPerBlock →
      gcWrite env victim i lens buffer s = .ok s' →
      Moves env (· = victim) s s' ∧ (s'.blocks victim).state = (s.blocks victim).state
  | [], i, buffer, s, s', _, _, _, he => by
      rw [gcWrite] at he
      obtain rfl := Except.ok.inj he
      exact ⟨.refl, rfl⟩
  | (keyLen, valLen) :: lens, i, buffer, s, s', hro, hpos, hle, he => by
      rw [List.length_cons] at hle
      rw [gcWrite] at he
      split at he
      · cases he
      · rename_i buffer₁ s₁ he₁
        have ho : (s.blocks victim).currentPageOffset < env.pagesPerBlock := by omega
        obtain ⟨key, data, h, hS, hro₁⟩ := gcWriteOne_stored hdrv hro ho he₁
        have hoff : (s₁.blocks victim).currentPageOffset =
            (s.blocks victim).currentPageOffset + 1 := by rw [hS.block_self]
        obtain ⟨hm, hst⟩ := gcWrite_moves hdrv hb hro₁ (by omega) (by omega) he
        exact ⟨.head (.stored rfl hb hpos ho hS) hm, hst.trans hS.state⟩

theorem setState_eq_self {st : BlkState} {b : ℕ} (h : (s.blocks b).state = st) :
    s.setState b st = s := by
  subst h
  simp [Config.setState, Config.modifyBlk]

theorem gcTarget_some {g : Geometry} {b : ℕ} (h : gcTarget g s = some b) :
    b < g.nbBlocks ∧ invalidThreshold ≤ (s.blocks b).nbInvalid := by
  have h1 := List.mem_of_find?_eq_some h
  have h2 := List.find?_some h
  exact ⟨by simpa using h1, by simpa using h2⟩

/-- `gc` writes only to the block it collects. -/
theorem gcBlock_moves (hdrv : env.NoDriverError) {target : ℕ} (hb : target < env.nbBlocks)
    (hlen : (s.blocks target).list.length < env.pagesPerBlock)
    (he : gcBlock env target s = .ok s') : Moves env (· = target) s s' := by
  unfold gcBlock at he
  simp only [gcVictim_eq_none, Option.getD_none] at he
  split at he
  · cases he
  · rename_i r s₁ hread
    obtain ⟨hm₁, hlens⟩ := gcRead_moves hread
    have hE := (formatSingle_erased hdrv target s₁).2
    have hoff : ((formatSingle env target s₁).2.blocks target).currentPageOffset = 0 := by
      rw [hE.block_self]
      rfl
    rw [hoff, Nat.add_zero] at he
    have hR := hE.reopened (writeHdr_opened hdrv hE.readOnly hoff)
    split at he
    · cases he
    · rename_i s₂ hwrite
      obtain ⟨hm₂, hst⟩ := gcWrite_moves hdrv hb (hR.not_readOnly hb)
        (by rw [hR.block_self]; exact Nat.one_pos)
        (by
          rw [hR.block_self]
          simp only [List.length_nil, Nat.zero_add] at hlens
          simp only
          omega) hwrite
      rw [hR.block_self] at hst
      rw [setState_eq_self hst] at he
      obtain rfl := Except.ok.inj he
      have hm₁' : Moves env (· = target) s s₁ := hm₁.mono fun _ h => h.elim
      exact (hm₁'.tail (.reopened rfl hb hR)).trans hm₂

theorem gc_moves (hdrv : env.NoDriverError)
    (hlen : ∀ b, gcTarget env.toGeometry s = some b →
      (s.blocks b).list.length < env.pagesPerBlock)
    (he : gc env s = .ok s') :
    Moves env (fun b => gcTarget env.toGeometry s = some b) s s' := by
  unfold gc at he
  split at he
  · obtain rfl := Except.ok.inj he
    exact .refl
  · rename_i target ht
    refine Moves.mono ?_ (gcBlock_moves hdrv (gcTarget_some ht).1 (hlen target ht) he)
    rintro b rfl
    exact ht

/-- `gb_check` calls `gc` exactly when `gc` has a target. -/
theorem gbCheck_eq_gc (env : Env) (s : Config) : gbCheck env s = gc env s := by
  unfold gbCheck
  split
  · rfl
  · rename_i hany
    have ht : gcTarget env.toGeometry s = none := by
      rw [gcTarget, List.find?_eq_none]
      simpa using hany
    rw [gc, ht]

/-! ## Operations that return -/

/-- `set_keyval` refuses the pair, or stores it, collects and flushes. -/
theorem setKeyval_cases {key val : CStr} {elapsed : Bool} {ret : ℤ}
    (he : setKeyval env key val elapsed s = .ok (ret, s')) :
    (env.pageSize < key.len + val.len + 8 ∧ ret = -1 ∧ s' = s) ∨
    (s.readOnly = true ∧ ret = -3 ∧ s' = s) ∨
    ∃ ret₁ s₁ s₂, key.len + val.len + 8 ≤ env.pageSize ∧ s.readOnly = false ∧
      storePhase env key val s = .ok (ret₁, s₁) ∧ gc env s₁ = .ok s₂ ∧
      timedFlush env elapsed s₂ = .ok s' ∧ ret = setCode ret₁ := by
  unfold setKeyval at he
  split at he
  · rename_i hsize
    obtain ⟨rfl, rfl⟩ := Prod.mk.inj (Except.ok.inj he)
    exact Or.inl ⟨hsize, rfl, rfl⟩
  · rename_i hsize
    split at he
    · rename_i hro
      obtain ⟨rfl, rfl⟩ := Prod.mk.inj (Except.ok.inj he)
      exact Or.inr (Or.inl ⟨hro, rfl, rfl⟩)
    · rename_i hro
      split at he
      · cases he
      · rename_i ret₁ s₁ h₁
        rw [gbCheck_eq_gc] at he
        split at he
        · cases he
        · rename_i s₂ h₂
          split at he
          · cases he
          · rename_i s₃ h₃
            obtain ⟨rfl, rfl⟩ := Prod.mk.inj (Except.ok.inj he)
            exact Or.inr (Or.inr ⟨ret₁, s₁, s₂, Nat.le_of_not_lt hsize, by simpa using hro, h₁, h₂,
              h₃, rfl⟩)

theorem map_ok {α β ε : Type} {f : α → β} {x : Except ε α} {y : β} (h : x.map f = .ok y) :
    ∃ a, x = .ok a ∧ f a = y := by
  cases x with
  | error e => cases h
  | ok a => exact ⟨a, rfl, Except.ok.inj h⟩

/-- What each operation that returns has called. -/
theorem step_cases {e : Request × Result} (h : Step env s e s') :
    (∃ key val elapsed, e.1 = .set key val elapsed ∧
      setKeyval env key val elapsed s = .ok (e.2.code, s')) ∨
    (∃ key, e.1 = .get key ∧ getKeyval env key s = (e.2.code, e.2.val) ∧ s' = s) ∨
    (∃ key, e.1 = .del key ∧ delKey env key s = .ok (e.2.code, s')) ∨
    (e.1 = .gc ∧ gc env s = .ok s') ∨
    (e.1 = .flush ∧ flushMetadata env s = .ok (e.2.code, s')) ∨
    (e.1 = .format ∧ format env s = (e.2.code, s')) ∨
    (e.1 = .reload ∧ reload env s = .ok (e.2.code, s')) := by
  obtain ⟨req, res⟩ := e
  unfold Step at h
  cases req with
  | set key val elapsed =>
    obtain ⟨r, hr, hres⟩ := map_ok h
    obtain ⟨rfl, rfl⟩ := Prod.mk.inj hres
    exact Or.inl ⟨key, val, elapsed, rfl, hr⟩
  | get key =>
    obtain ⟨rfl, rfl⟩ := Prod.mk.inj (Except.ok.inj h)
    exact Or.inr (Or.inl ⟨key, rfl, rfl, rfl⟩)
  | del key =>
    obtain ⟨r, hr, hres⟩ := map_ok h
    obtain ⟨rfl, rfl⟩ := Prod.mk.inj hres
    exact Or.inr (Or.inr (Or.inl ⟨key, rfl, hr⟩))
  | gc =>
    obtain ⟨r, hr, hres⟩ := map_ok h
    obtain ⟨rfl, rfl⟩ := Prod.mk.inj hres
    exact Or.inr (Or.inr (Or.inr (Or.inl ⟨rfl, hr⟩)))
  | flush =>
    obtain ⟨r, hr, hres⟩ := map_ok h
    obtain ⟨rfl, rfl⟩ := Prod.mk.inj hres
    exact Or.inr (Or.inr (Or.inr (Or.inr (Or.inl ⟨rfl, hr⟩))))
  | format =>
    obtain ⟨rfl, rfl⟩ := Prod.mk.inj (Except.ok.inj h)
    exact Or.inr (Or.inr (Or.inr (Or.inr (Or.inr (Or.inl ⟨rfl, rfl⟩)))))
  | reload =>
    obtain ⟨r, hr, hres⟩ := map_ok h
    obtain ⟨rfl, rfl⟩ := Prod.mk.inj hres
    exact Or.inr (Or.inr (Or.inr (Or.inr (Or.inr (Or.inr ⟨rfl, hr⟩)))))

/-- The flush at the end of `set_keyval` is a flush, or nothing. -/
theorem timedFlush_cases {elapsed : Bool} (h : timedFlush env elapsed s = .ok s') :
    (elapsed = false ∧ s' = s) ∨
      (elapsed = true ∧ ∃ ret, flushMetadata env s = .ok (ret, s')) := by
  unfold timedFlush at h
  split at h
  · rename_i hel
    split at h
    · cases h
    · rename_i ret s₁ h₁
      obtain rfl := Except.ok.inj h
      exact Or.inr ⟨hel, ret, h₁⟩
  · rename_i hel
    exact Or.inl ⟨by simpa using hel, (Except.ok.inj h).symm⟩

end LkpProjects.Serial
