import LkpProjects.Library.Erasures
import LkpProjects.Serial.MapContract

/-! # The serial store: the wear counters

The allocator looks at `worn`, which `format_single` counts up, `format` sets back, a flush saves and a mount reads
back. Here it is compared with what the driver has done: `worn` is the number of erasures of the block since the
last `format`, whatever the driver answers, in every run of one module (`wear_counts`); and a run that unloads the
module and loads it again keeps that, as far as its operations meet their conditions (`wear_mounted`).

What does not erase leaves the view `Config.wear` alone, which is shown function by function.
-/
namespace LkpProjects.Serial
open Nand Bytes Stepwise
set_option autoImplicit false

variable {env : Env} {g : Geometry} {s s' : Config}

/-- The counters count the erasures. -/
def WearOk (g : Geometry) (s : Config) : Prop := Counts g.pagesPerBlock g.nbBlocks (fun b => (s.blocks b).worn) s.mtd

/-- Each block's counter, and the number of its erasures. -/
def Config.wear (g : Geometry) (s : Config) : ℕ → ℕ × ℕ :=
  fun b => ((s.blocks b).worn, erasures g.pagesPerBlock (g.nbBlocks * g.pagesPerBlock) b s.mtd)

theorem WearOk.of_wear (hW : WearOk g s) (h : s'.wear g = s.wear g) : WearOk g s' := by
  intro b hb
  obtain ⟨hworn, hcount⟩ := Prod.mk.inj (congrFun h b)
  exact hworn.trans ((hW b hb).trans hcount.symm)

/-! ## What does not erase -/

theorem modifyBlk_wear (b : ℕ) {f : BlkInfo → BlkInfo} (hf : ∀ i, (f i).worn = i.worn) :
    (s.modifyBlk b f).wear g = s.wear g := by
  funext c
  rw [Config.wear, Config.modifyBlk_blocks]
  split
  · next hc => rw [hf, hc]; rfl
  · rfl

theorem setState_wear (b : ℕ) (st : BlkState) : (s.setState b st).wear g = s.wear g := modifyBlk_wear b fun _ => rfl

theorem listAdd_wear (b h : ℕ) : (s.listAdd b h).wear g = s.wear g := modifyBlk_wear b fun _ => rfl

theorem writePage_wear (p : ℕ) (buf : List Byte) : (writePage env p buf s).2.wear g = s.wear g := by
  have hprogram : (programPage env.toGeometry p buf s).wear g = s.wear g :=
    modifyBlk_wear (f := fun i => { i with currentPageOffset := i.currentPageOffset + 1 })
      (p / env.pagesPerBlock) fun _ => rfl
  rw [writePage]
  split
  · rfl
  · split
    · rfl
    · dsimp only
      split
      · exact hprogram
      · exact hprogram

theorem writeHdr_wear (p : ℕ) (k : HdrKind) : (writeHdr env p k s).wear g = s.wear g := by
  cases k with
  | nandData => exact (setState_wear _ _).trans (writePage_wear p _)
  | nandMetaData n => exact writePage_wear p _

theorem openBlock_wear (b : ℕ) : (openBlock env b s).wear g = s.wear g := by
  rw [openBlock]
  split
  · exact (writeHdr_wear _ _).trans (setState_wear b _)
  · rfl

theorem dropped_wear (h : ℕ) : (s.dropped g h).wear g = s.wear g := by
  funext b
  rw [Config.wear, Config.wear, dropped_worn, dropped_mtd]

theorem invalidPg_wear {h : ℕ} (he : invalidPg g h s = .ok s') : s'.wear g = s.wear g := by
  obtain ⟨-, rfl⟩ := invalidPg_ok he
  exact dropped_wear h

theorem invalidOld_wear {key : CStr} (he : invalidOld env key s = .ok s') :
    s'.wear env.toGeometry = s.wear env.toGeometry := by
  rw [invalidOld] at he
  split at he
  · rw [Except.ok.inj he]
  · exact invalidPg_wear he

theorem storeAt_wear {key : CStr} {buf : List Byte} {ret : ℤ} (he : storeAt env key buf s = .ok (ret, s')) :
    s'.wear g = s.wear g := by
  obtain ⟨b, p, s₁, h, t, -, -, hw, -, rfl⟩ := storeAt_cases he
  have hsame : (writePage env p buf (openBlock env b s)).2.wear g = s.wear g :=
    (writePage_wear p buf).trans (openBlock_wear b)
  rw [hw] at hsame
  exact (listAdd_wear b h).trans hsame

theorem storePhase_wear {key val : CStr} {ret : ℤ} (he : storePhase env key val s = .ok (ret, s')) :
    s'.wear env.toGeometry = s.wear env.toGeometry := by
  rw [storePhase] at he
  split at he
  · cases he
  · next s₁ he₁ => exact (storeAt_wear he).trans (invalidOld_wear he₁)

/-- What only frees buckets. -/
theorem frees_wear (h : Moves env (fun _ => False) s s') : s'.wear env.toGeometry = s.wear env.toGeometry := by
  refine h.preserves (I := fun t => t.wear env.toGeometry = s.wear env.toGeometry) (fun t t' ht hm => ?_) rfl
  cases hm with
  | dropped hv hb => exact (dropped_wear _).trans ht
  | opened hok => exact hok.elim
  | stored hok => exact hok.elim
  | reopened hok => exact hok.elim

theorem gcWriteOne_wear {victim i keyLen valLen : ℕ} {buffer buffer' : ℕ → Byte}
    (he : gcWriteOne env victim i keyLen valLen buffer s = .ok (buffer', s')) : s'.wear g = s.wear g := by
  rw [gcWriteOne] at he
  split at he
  · cases he
  · dsimp only at he
    split at he
    · cases he
    · cases he
    · split at he
      · cases he
      · obtain ⟨-, rfl⟩ := Prod.mk.inj (Except.ok.inj he)
        exact (listAdd_wear _ _).trans (writePage_wear _ _)

theorem gcWrite_wear {victim : ℕ} : ∀ {lens : List (ℕ × ℕ)} {i : ℕ} {buffer : ℕ → Byte} {s s' : Config},
    gcWrite env victim i lens buffer s = .ok s' → s'.wear g = s.wear g
  | [], i, buffer, s, s', he => by
    rw [gcWrite] at he
    rw [Except.ok.inj he]
  | (keyLen, valLen) :: lens, i, buffer, s, s', he => by
    rw [gcWrite] at he
    split at he
    · cases he
    · next he₁ => exact (gcWrite_wear he).trans (gcWriteOne_wear he₁)

theorem moveOne_wear {page : List Byte} {key key' : ℕ → Byte} (he : moveOne env page key s = .ok (key', s')) :
    s'.wear env.toGeometry = s.wear env.toGeometry := by
  obtain rfl | ⟨_, _, _, _, he₁, he₂⟩ := moveOne_ok he
  · rfl
  · exact (storeAt_wear he₂).trans (invalidPg_wear he₁)

theorem moveLoop_wear {ps : List ℕ} {key : ℕ → Byte} {o : Option Config}
    (he : moveLoop env ps key s = .ok (o, s')) : s'.wear env.toGeometry = s.wear env.toGeometry :=
  moveLoop_invariant (I := fun t => t.wear env.toGeometry = s.wear env.toGeometry)
    (fun _ _ _ _ _ hI he₁ => (moveOne_wear he₁).trans hI) rfl he

theorem writePages_wear : ∀ (ws : List (ℕ × List Byte)) (s : Config), (writePages env ws s).2.wear g = s.wear g
  | [], s => rfl
  | (p, d) :: ws, s => by
    have hfirst : (writePage env p d s).2.wear g = s.wear g := writePage_wear p d
    rw [writePages]
    split
    · next s₁ he =>
      rw [he] at hfirst
      exact (writePages_wear ws s₁).trans hfirst
    · next s₁ _ he =>
      rw [he] at hfirst
      exact hfirst

theorem flushWrite_wear {snap : Config} : ∀ {is : List ℕ} {s s' : Config} {ret : ℤ},
    flushWrite env snap is s = .ok (ret, s') → s'.wear g = s.wear g
  | [], s, s', ret, he => by
    rw [flushWrite] at he
    rw [(Prod.mk.inj (Except.ok.inj he)).2]
  | i :: is, s, s', ret, he => by
    rw [flushWrite] at he
    split at he
    · cases he
    · next b hb =>
      have hpages : (writePages env (metaWrites env snap i b)
          (writeHdr env (b * env.pagesPerBlock) (.nandMetaData i) s)).2.wear g = s.wear g :=
        (writePages_wear _ _).trans (writeHdr_wear _ _)
      dsimp only at he
      split at he
      · next s₁ he₁ =>
        rw [he₁] at hpages
        exact (flushWrite_wear he).trans hpages
      · next s₁ he₁ =>
        rw [he₁] at hpages
        rw [← (Prod.mk.inj (Except.ok.inj he)).2]
        exact hpages

/-! ## What erases -/

theorem WearOk.formatSingle (hW : WearOk env.toGeometry s) (hn : 1 < env.nbBlocks) (b : ℕ) :
    WearOk env.toGeometry (formatSingle env b s).2 := by
  rw [Serial.formatSingle]
  split
  · refine hW.erase env.pagesPerBlock_pos hn (b := b) ?_ fun c hc => ?_
    · exact congrArg BlkInfo.worn (Config.modifyBlk_blocks_self s b fun i => .erased (i.worn + 1))
    · exact congrArg BlkInfo.worn (Config.modifyBlk_blocks_ne (f := fun i => .erased (i.worn + 1)) hc)
  · exact hW

theorem WearOk.formatEntry (hW : WearOk env.toGeometry s) (hn : 1 < env.nbBlocks) (o : Option ℕ) :
    WearOk env.toGeometry (formatEntry env o s).2 := by
  cases o with
  | none => exact hW
  | some b => exact hW.formatSingle hn b

theorem WearOk.format (hW : WearOk env.toGeometry s) : WearOk env.toGeometry (format env s).2 := by
  rw [Serial.format]
  split
  · exact hW
  · exact hW
  · exact Counts.whole fun _ _ => rfl

theorem WearOk.gc (hW : WearOk env.toGeometry s) (hn : 1 < env.nbBlocks) (he : gc env s = .ok s') :
    WearOk env.toGeometry s' := by
  rw [Serial.gc] at he
  split at he
  · rwa [← Except.ok.inj he]
  · rw [gcBlock] at he
    dsimp only at he
    split at he
    · cases he
    · next r s₁ he₁ =>
      split at he
      · cases he
      · next s₂ he₂ =>
        have hW₁ := (hW.of_wear (frees_wear (gcRead_moves he₁).1)).formatSingle hn
        rw [← Except.ok.inj he]
        exact (hW₁ _).of_wear ((setState_wear _ _).trans ((gcWrite_wear he₂).trans (writeHdr_wear _ _)))

theorem WearOk.movePages (hW : WearOk env.toGeometry s) (hn : 1 < env.nbBlocks) {b : ℕ} {ret : ℤ}
    (he : movePagesToOtherBlock env b s = .ok (ret, s')) : WearOk env.toGeometry s' := by
  obtain ⟨-, rfl⟩ | ⟨-, -, rfl⟩ | ⟨-, ps, r, s₁, he₁, hend⟩ := movePages_cases he
  · exact hW
  · exact hW.formatSingle hn b
  · have hW₁ := hW.of_wear ((moveLoop_wear he₁).trans (setState_wear _ _))
    obtain ⟨-, rfl⟩ | rfl := hend
    · exact hW₁
    · exact hW₁.formatSingle hn b

theorem WearOk.flushErase (hn : 1 < env.nbBlocks) : ∀ (is : List ℕ) {s : Config}, WearOk env.toGeometry s →
    WearOk env.toGeometry (flushErase env is s)
  | [], _, hW => hW
  | _ :: is, _, hW => WearOk.flushErase hn is (hW.formatEntry hn _)

theorem WearOk.flushSelect (hn : 1 < env.nbBlocks) : ∀ {is : List ℕ} {s s' : Config}, WearOk env.toGeometry s →
    flushSelect env is s = .ok s' → WearOk env.toGeometry s'
  | [], s, s', hW, he => by
    rw [Serial.flushSelect] at he
    rwa [← Except.ok.inj he]
  | i :: is, s, s', hW, he => by
    rw [Serial.flushSelect] at he
    split at he
    · cases he
    · next b hb =>
      split at he
      · cases he
      · next s₁ he₁ =>
        have hW₁ := hW.movePages hn he₁
        exact WearOk.flushSelect hn (hW₁.of_wear (setState_wear
          (s := { s₁ with metaBlkordr := Function.update s₁.metaBlkordr i (some b) }) b .blkMeta)) he

theorem WearOk.flush (hW : WearOk env.toGeometry s) (hn : 1 < env.nbBlocks) {ret : ℤ}
    (he : flushMetadata env s = .ok (ret, s')) : WearOk env.toGeometry s' := by
  rw [flushMetadata] at he
  split at he
  · cases he
  · next he₁ => exact (WearOk.flushSelect hn (WearOk.flushErase hn _ hW) he₁).of_wear (flushWrite_wear he)

/-- Every operation but a reload keeps the counters right. -/
theorem WearOk.step (hW : WearOk env.toGeometry s) (hn : 1 < env.nbBlocks) {e : Request × Result}
    (hne : e.1 ≠ .reload) (h : Step env s e s') : WearOk env.toGeometry s' := by
  obtain ⟨key, val, elapsed, -, he⟩ | ⟨key, -, -, rfl⟩ | ⟨key, -, he⟩ | ⟨-, he⟩ | ⟨-, he⟩ | ⟨-, he⟩ | ⟨hreq, -⟩ :=
    step_cases h
  · obtain ⟨-, -, rfl⟩ | ⟨-, -, rfl⟩ | ⟨ret, s₁, s₂, -, -, h₁, h₂, h₃, -⟩ := setKeyval_cases he
    · exact hW
    · exact hW
    · have hW₂ := (hW.of_wear (storePhase_wear h₁)).gc hn h₂
      obtain ⟨-, rfl⟩ | ⟨-, ret, hflush⟩ := timedFlush_cases h₃
      · exact hW₂
      · exact hW₂.flush hn hflush
  · exact hW
  · exact hW.of_wear (frees_wear (delKey_moves he))
  · exact hW.gc hn he
  · exact hW.flush hn he
  · have hs : (Serial.format env s).2 = s' := congrArg Prod.snd he
    rw [← hs]
    exact hW.format
  · exact absurd hreq hne

/-! ## Runs -/

/-- A device that was only ever erased holds no header. -/
theorem scanHeaders_nil (ord : ℕ → Option ℕ) : ∀ bs, scanHeaders env [] bs (ord, 0) = .ok none ∨
    scanHeaders env [] bs (ord, 0) = .ok (some (ord, 0))
  | [] => .inr rfl
  | b :: bs => by
    rw [scanHeaders, readPage]
    by_cases hread : env.readOk [] (b * env.pagesPerBlock) = false
    · rw [if_pos hread]
      exact .inl rfl
    · have hrank : rankAt env [] b = none := rankAt_erased rfl
      rw [rankAt] at hrank
      rw [if_neg hread]
      dsimp only
      split
      · next hmagic => rw [if_pos hmagic] at hrank; cases hrank
      · exact scanHeaders_nil ord bs

theorem Fresh.wearOk (hf : Fresh env s) : WearOk env.toGeometry s := by
  have hcheck : ∀ {t : Config}, WearOk env.toGeometry t → WearOk env.toGeometry (checkReadOnly env.toGeometry t) := by
    intro t ht
    rw [checkReadOnly]
    split
    · exact ht
    · exact ht
  rw [Fresh, initScan] at hf
  obtain hscan | hscan := @scanHeaders_nil env (fun _ => none) (List.range env.nbBlocks)
  · rw [hscan] at hf
    cases hf
  · have hpages : scanPages env [] (fun _ => none) 0 = .ok (some []) := rfl
    rw [hscan] at hf
    dsimp only at hf
    rw [hpages] at hf
    dsimp only at hf
    rw [if_pos rfl, format] at hf
    cases hres : env.eraseResult (Config.blank []).mtd 0 env.hashSize with
    | refused => rw [hres] at hf; cases hf
    | failed => rw [hres] at hf; cases hf
    | done =>
      rw [hres] at hf
      rw [← (Prod.mk.inj (Except.ok.inj hf)).2]
      exact hcheck (Counts.whole fun _ _ => rfl)

/-- The block that the allocator takes has been erased no more often than any other that has a page left. -/
theorem WearOk.healthy (hW : WearOk g s) {b : ℕ} (hb : getHealthyBlock g s = some b) :
    ∀ c < g.nbBlocks, (s.blocks c).state ≠ .blkInvalid → (s.blocks c).currentPageOffset < g.pagesPerBlock →
      erasures g.pagesPerBlock g.hashSize b s.mtd ≤ erasures g.pagesPerBlock g.hashSize c s.mtd := by
  intro c hc hst ho
  obtain ⟨hlt, -, hleast⟩ := leastWorn_some hb
  have hle := hleast c hc (by simpa using ⟨hst, ho⟩)
  exact (hW b hlt).symm.le.trans (hle.trans (hW c hc).le)

/-- What the counters tell: of each block, how often it was erased; and that the allocator takes a block that
was erased no more often than any other that has a page left. -/
def WearCounts (env : Env) (s : Config) : Prop :=
  (∀ b < env.nbBlocks, (s.blocks b).worn = erasures env.pagesPerBlock env.hashSize b s.mtd) ∧
    ∀ b, getHealthyBlock env.toGeometry s = some b → ∀ c < env.nbBlocks, (s.blocks c).state ≠ .blkInvalid →
      (s.blocks c).currentPageOffset < env.pagesPerBlock →
        erasures env.pagesPerBlock env.hashSize b s.mtd ≤ erasures env.pagesPerBlock env.hashSize c s.mtd

section Runs
variable {s₀ : Config} {es : List (Request × Result)}

/-- In every run of one module, whatever the driver answers, the counters count the erasures since the last
`format`. -/
theorem wear_counts (hn : 1 < env.nbBlocks) (hf : Fresh env s₀)
    (hr : Run (fun s e s' => e.1 ≠ .reload ∧ Step env s e s') s₀ es s) : WearCounts env s := by
  have hW : WearOk env.toGeometry s :=
    hr.invariant (fun s e s' hW hs => WearOk.step hW hn hs.1 hs.2) hf.wearOk
  exact ⟨hW, fun b hb => hW.healthy hb⟩

/-- The second flush erases the block of the first. -/
theorem wear_counts_two_flushes : ∃ s, WearCounts (.ideal tinyGeometry) s ∧
    (s.blocks 0).worn = 1 ∧ (s.blocks 1).worn = 0 := by
  have hc : codes (.ideal tinyGeometry) [.flush, .flush] (Env.ideal tinyGeometry).start = some [0, 0] := by
    decide +kernel
  have hworn : ((final (.ideal tinyGeometry) [.flush, .flush] (Env.ideal tinyGeometry).start).blocks 0).worn = 1 ∧
      ((final (.ideal tinyGeometry) [.flush, .flush] (Env.ideal tinyGeometry).start).blocks 1).worn = 0 := by
    decide +kernel
  obtain ⟨es, hreq, -, hr⟩ := run_of_codes hc
  have hf : Fresh (.ideal tinyGeometry) (Env.ideal tinyGeometry).start := rfl
  refine ⟨_, wear_counts (by decide) hf (hr.of_mem fun e he => ?_), hworn⟩
  have hmem := List.mem_map_of_mem (f := Prod.fst) he
  rw [hreq] at hmem
  intro hreload
  rw [hreload] at hmem
  simp at hmem

/-- A mount reads the counters of the flush before it. -/
theorem WearOk.mounted {f : ℕ → ℕ} {m : CStr → Option CStr} {snap t : Config} (hW : WearOk env.toGeometry s')
    (hC : ContractInv env s m) (hF : Flushed env f s snap s') (hok : FlushOk env.toGeometry s)
    (hM : Mounted env env.nbMetaBlocks f snap s'.mtd t) : WearOk env.toGeometry t := by
  intro b hb
  have hworn := (hC.decodable hF hok).worn b hb
  have hsame : (s'.blocks b).worn = (snap.blocks b).worn := by
    rw [hF.blocks, hF.snapBlocks]
    split
    · rfl
    · rfl
  have hread : (t.blocks b).worn = (snap.blocks b).worn := by
    rw [hM.blocks b hb]
    exact Nat.mod_eq_of_lt (by omega)
  rw [hM.mtd]
  exact (hread.trans hsame.symm).trans (hW b hb)

theorem WearOk.reload {m : CStr → Option CStr} {t : Config} {ret : ℤ} (hW : WearOk env.toGeometry s)
    (hC : ContractInv env s m) (hdrv : env.NoDriverError) (hn : 1 < env.nbBlocks)
    (hok : SafeFlush env.toGeometry s) (hroom : env.RoomToMount) (he : reload env s = .ok (ret, t)) :
    WearOk env.toGeometry t := by
  obtain ⟨f, snap, s', hflush, hF, -⟩ := hC.flush hdrv hok
  obtain ⟨t', hmount, hM⟩ := (hC.blocks.image hF).mount_total hdrv (hC.decodable hF hok.ok) hroom
  have hreload : Serial.reload env s = .ok (0, t') := by
    rw [Serial.reload, hflush]
    exact hmount
  obtain ⟨-, rfl⟩ := Prod.mk.inj (Except.ok.inj (he.symm.trans hreload))
  exact (hW.flush hn hflush).mounted hC hF hok.ok hM

/-- In every run whose operations meet their conditions, loads of the module included, they count them too. -/
theorem wear_mounted (hdrv : env.NoDriverError) (hn : 1 < env.nbBlocks) (hf : Fresh env s₀)
    (hr : Run (fun s e s' => ContractOk env s e.1 ∧ Step env s e s') s₀ es s) : WearCounts env s := by
  have hC₀ : ContractInv env s₀ fun _ => none := by
    rw [(fresh_iff hdrv).mp hf]
    exact .start hdrv
  obtain ⟨-, hW⟩ := hr.track (I := fun s m => ContractInv env s m ∧ WearOk env.toGeometry s)
    (fun s m e s' hI hs => by
      refine ⟨hI.1.step hdrv hs.1 hs.2, ?_⟩
      by_cases hreq : e.1 = .reload
      · obtain ⟨hok, hstep⟩ := hs
        obtain ⟨req, res⟩ := e
        obtain rfl : req = .reload := hreq
        obtain ⟨⟨ret, t⟩, he, hres⟩ := map_ok hstep
        obtain ⟨-, rfl⟩ := Prod.mk.inj hres
        exact hI.2.reload hI.1 hdrv hn hok.1 hok.2 he
      · exact hI.2.step hn hreq hs.2) _ ⟨hC₀, hf.wearOk⟩
  exact ⟨hW, fun b hb => hW.healthy hb⟩

/-- A new device is flushed, and flushed again by the reload, which erases the block of the first flush. -/
theorem wear_mounted_flushed : ∃ es s, es.map Prod.fst = [.flush, .reload] ∧
    Run (Step (.ideal roomyGeometry)) (Env.ideal roomyGeometry).start es s ∧
    WearCounts (.ideal roomyGeometry) s ∧ (s.blocks 0).worn = 1 := by
  have hdrv := Env.ideal_noDriverError roomyGeometry
  have hall : allMeet (.ideal roomyGeometry) (ContractOk (.ideal roomyGeometry)) [.flush, .reload]
      (Env.ideal roomyGeometry).start = true := by decide +kernel
  have hworn : ((final (.ideal roomyGeometry) [.flush, .reload]
      (Env.ideal roomyGeometry).start).blocks 0).worn = 1 := by decide +kernel
  obtain ⟨es, -, hes, hr⟩ := run_of_allMeet hall
  exact ⟨es, _, hes, hr.mono fun _ _ _ h => h.2, wear_mounted hdrv (by decide) ((fresh_iff hdrv).mpr rfl) hr, hworn⟩

end Runs

end LkpProjects.Serial
