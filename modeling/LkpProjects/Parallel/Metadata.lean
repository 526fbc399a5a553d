import LkpProjects.Parallel.Collect

/-! # The parallel store: metadata on flash

`flush_metadata` writes the block records and the hash table, page by page, to the blocks it chooses,
and `init_scan` reads them back: its loop over the blocks is `scanBlocks`. The pages are copied to the two
areas as they are; what `init_scan` does with the records afterwards is not modelled.
-/
namespace LkpProjects.Parallel
open Nand Bytes Hoare
open Serial (Geometry)
set_option autoImplicit false

/-- `FLUSH_THRESHOLD`. -/
def flushThreshold : ℕ := 100

/-! ## Choosing the metadata blocks -/

/-- An erased block that neither the old nor the new `meta_blkordr` lists. -/
def flushCandidate (g : Geometry) (pre : ℕ → Option ℕ) (s : Config) (z : ℕ) : Bool :=
  (s.blocks z).currentPageOffset = 0 ∧ (s.blocks z).state = .blkFree ∧
    inOrder s.metaBlkordr (nbMetaBlocks g) z = false ∧ inOrder pre (nbMetaBlocks g) z = false

/-- The least worn candidate behind block `i`, or else block `i`. -/
def flushWinner (g : Geometry) (pre : ℕ → Option ℕ) (s : Config) (i : ℕ) : ℕ :=
  (leastWornOf (fun z => (s.blocks z).worn)
    ((List.range' (i + 1) (g.nbBlocks - (i + 1))).filter fun z => flushCandidate g pre s z)).getD i

/-- `format_single` on an entry of `meta_blkordr`; nothing happens for `-1`. -/
def formatEntry (env : Env) (o : Option ℕ) : Kernel PUnit :=
  match o with
  | none => pure ⟨⟩
  | some b => do
      let _ ← formatSingle env b
      pure ⟨⟩

/-- The selection loop: `enough` blocks have been chosen so far. Each time, the old metadata block of
the same rank is erased. -/
def flushSelect (env : Env) (pre : ℕ → Option ℕ) : List ℕ → ℕ → Kernel ℕ
  | [], enough => pure enough
  | i :: is, enough => do
      let s ← get
      if flushCandidate env.toGeometry pre s i then
        let winner := flushWinner env.toGeometry pre s i
        modify fun s => s.setState winner .blkUsed
        formatEntry env (pre enough)
        modify fun s => { s with metaBlkordr := Function.update s.metaBlkordr enough (some winner) }
        if nbMetaBlocks env.toGeometry ≤ enough + 1 then pure (enough + 1)
        else flushSelect env pre is (enough + 1)
      else flushSelect env pre is enough

/-- `meta_blkordr` while the new blocks are chosen: `-2` and `-1` are both none. -/
def clearOrder (n : ℕ) (s : Config) : Config :=
  { s with metaBlkordr := fun i => if i < n then none else s.metaBlkordr i }

/-- The state `BLK_USED` for the blocks of the first `n` entries. -/
def markUsed (n : ℕ) (s : Config) : Config :=
  (List.range n).foldl (fun s j =>
    match s.metaBlkordr j with
    | none => s
    | some b => s.setState b .blkUsed) s

/-! ## Writing the pages -/

/-- Page number `i` of the metadata in memory. -/
def metaPage (env : Env) (s : Config) (i : ℕ) : List Byte :=
  if i < blkPgs env.toGeometry then env.blkPage s.blocks i
  else env.hashPage s.hashtable (i - blkPgs env.toGeometry)

/-- The block of entry `k` of `meta_blkordr`. -/
def orderBlock (k : ℕ) : Kernel ℕ := do
  if maxMetaBlk ≤ k then throw .outOfBounds
  else
    match (← get).metaBlkordr k with
    | none => throw .outOfBounds
    | some b => pure b

theorem orderBlock_ok {s s' : Config} {k b : ℕ} (he : orderBlock k s = .ok (b, s')) :
    k < maxMetaBlk ∧ s.metaBlkordr k = some b ∧ s' = s := by
  rw [orderBlock] at he
  split at he
  · cases he
  · next hk =>
    rw [get_bind_ok] at he
    cases ho : s.metaBlkordr k with
    | none =>
      rw [ho] at he
      cases he
    | some b' =>
      rw [ho] at he
      obtain ⟨rfl, rfl⟩ := pure_ok.mp he
      exact ⟨not_le.mp hk, rfl, rfl⟩

/-- A header when page `i` begins a new block. `jackOfs` is the number of headers written, `ret` the last
one's code. -/
def flushHeader (env : Env) (i jackOfs : ℕ) (ret : ℤ) : Kernel (ℕ × ℤ) :=
  if i % (env.pagesPerBlock - 1) = 0 then do
    let b ← orderBlock jackOfs
    let ret ← writeHdr env (b * env.pagesPerBlock) (.nandMetaData jackOfs)
    pure (jackOfs + 1, ret)
  else pure (jackOfs, ret)

/-- The header goes to the entry that is next, and is the only thing written. -/
theorem flushHeader_ok {env : Env} {s s' : Config} {i jackOfs : ℕ} {ret : ℤ} {r : ℕ × ℤ}
    (he : flushHeader env i jackOfs ret s = .ok (r, s')) :
    (i % (env.pagesPerBlock - 1) = 0 ∧ jackOfs < maxMetaBlk ∧ r.1 = jackOfs + 1 ∧
        ∃ b, s.metaBlkordr jackOfs = some b ∧
          writeHdr env (b * env.pagesPerBlock) (.nandMetaData jackOfs) s = .ok (r.2, s')) ∨
      i % (env.pagesPerBlock - 1) ≠ 0 ∧ r = (jackOfs, ret) ∧ s' = s := by
  rw [flushHeader] at he
  split at he
  · next hi =>
    obtain ⟨b, s₁, he₁, hhdr⟩ := bind_ok.mp he
    obtain ⟨hmax, hb, rfl⟩ := orderBlock_ok he₁
    obtain ⟨code, s₂, he₂, hend⟩ := bind_ok.mp hhdr
    obtain ⟨rfl, rfl⟩ := pure_ok.mp hend
    exact .inl ⟨hi, hmax, rfl, b, hb, he₂⟩
  · next hi =>
    obtain ⟨rfl, rfl⟩ := pure_ok.mp he
    exact .inr ⟨hi, rfl, rfl⟩

/-- One round of the write loop: page `i`, copied before the header is written. Returns also the page. -/
def flushPage (env : Env) (i jackOfs : ℕ) (ret : ℤ) : Kernel (ℕ × ℤ × List Byte) := do
  let buffer := metaPage env (← get) i
  let (jackOfs, ret) ← flushHeader env i jackOfs ret
  let b ← orderBlock (jackOfs - 1)
  let code ← writePage env (b * env.pagesPerBlock + (i % (env.pagesPerBlock - 1) + 1)) buffer
  if code ≠ 0 then throw .bug else pure (jackOfs, ret, buffer)

/-- A round that returns has written its page behind the header, to the block of the entry before. -/
theorem flushPage_ok {env : Env} {s s' : Config} {i jackOfs : ℕ} {ret : ℤ} {r : ℕ × ℤ × List Byte}
    (he : flushPage env i jackOfs ret s = .ok (r, s')) :
    r.2.2 = metaPage env s i ∧ ∃ s₁ b, flushHeader env i jackOfs ret s = .ok ((r.1, r.2.1), s₁) ∧
      s₁.metaBlkordr (r.1 - 1) = some b ∧
      writePage env (b * env.pagesPerBlock + (i % (env.pagesPerBlock - 1) + 1)) r.2.2 s₁ = .ok (0, s') := by
  rw [flushPage, get_bind_ok] at he
  obtain ⟨⟨jack, ret'⟩, s₁, he₁, hpage⟩ := bind_ok.mp he
  obtain ⟨b, s₂, he₂, hwrt⟩ := bind_ok.mp hpage
  obtain ⟨-, hb, rfl⟩ := orderBlock_ok he₂
  obtain ⟨code, s₃, he₃, hcheck⟩ := bind_ok.mp hwrt
  split at hcheck
  · cases hcheck
  · next hcode =>
    obtain ⟨rfl, rfl⟩ := pure_ok.mp hcheck
    rw [not_not.mp hcode] at he₃
    exact ⟨rfl, _, b, he₁, hb, he₃⟩

/-- The write loop; returns the code of the last header and the pages written. -/
def flushWrite (env : Env) : List ℕ → ℕ → ℤ → Kernel (ℤ × List (List Byte))
  | [], _, ret => pure (ret, [])
  | i :: is, jackOfs, ret => do
      let (jackOfs, ret, page) ← flushPage env i jackOfs ret
      let (ret, pages) ← flushWrite env is jackOfs ret
      pure (ret, page :: pages)

/-- `flush_metadata` between its lock and its unlock. With too few erased blocks the source erases the
old metadata blocks without entering them in `meta_blkordr` and goes on with `blocks[-2]`. -/
def flushLocked (env : Env) : Kernel ℤ := do
  let n := nbMetaBlocks env.toGeometry
  checkOrder n
  let pre := (← get).metaBlkordr
  modify (clearOrder n)
  let enough ← flushSelect env pre (List.range env.nbBlocks) 0
  if enough < n then
    if (List.range' enough (n - enough)).any fun k => pre k = none then throw .bug
    else throw .outOfBounds
  else
    withLock .listLock (modify (markUsed n))
    let (ret, _) ← flushWrite env (List.range (nbPages env.toGeometry)) 0 0
    modify fun s => { s with saved := s.hashtable }
    pure ret

/-- A flush that returns has found its blocks in the selection loop, and marked them before it writes. -/
theorem flushLocked_ok {env : Env} {s s' : Config} {ret : ℤ} (he : flushLocked env s = .ok (ret, s')) :
    ∃ enough s₁ s₂ pages, nbMetaBlocks env.toGeometry ≤ enough ∧
      flushSelect env s.metaBlkordr (List.range env.nbBlocks) 0
        (clearOrder (nbMetaBlocks env.toGeometry) s) = .ok (enough, s₁) ∧
      flushWrite env (List.range (nbPages env.toGeometry)) 0 0
        ((markUsed (nbMetaBlocks env.toGeometry) (s₁.lock .listLock true)).lock .listLock false) =
          .ok ((ret, pages), s₂) ∧
      s' = { s₂ with saved := s₂.hashtable } := by
  obtain ⟨_, s₃, he₃, hcopy⟩ := bind_ok.mp he
  obtain rfl := checkOrder_ok he₃
  rw [get_bind_ok] at hcopy
  obtain ⟨_, s₄, he₄, hsel⟩ := bind_ok.mp hcopy
  obtain rfl := modify_ok.mp he₄
  obtain ⟨enough, s₁, he₁, hcheck⟩ := bind_ok.mp hsel
  split at hcheck
  · split at hcheck <;> cases hcheck
  · next henough =>
    obtain ⟨_, s₅, he₅, hwrt⟩ := bind_ok.mp hcheck
    obtain ⟨-, s₆, he₆, rfl⟩ := withLock_ok he₅
    obtain rfl := modify_ok.mp he₆
    obtain ⟨⟨ret', pages⟩, s₂, he₂, hsave⟩ := bind_ok.mp hwrt
    obtain ⟨_, s₇, he₇, hend⟩ := bind_ok.mp hsave
    obtain rfl := modify_ok.mp he₇
    obtain ⟨rfl, rfl⟩ := pure_ok.mp hend
    exact ⟨enough, s₁, s₂, pages, not_lt.mp henough, he₁, he₂, rfl⟩

/-! ## `flush_metadata` -/

/-- Whether `flush_metadata` goes on to `force_flush`. The first test is on the old value of the flag,
so a call that finds it clear leaves. -/
def flushGate (force : Bool) : Kernel Bool := do
  if force then pure true
  else
    let old := (← get).isFlush
    modify fun s => { s with isFlush := true }
    if old = false then pure false
    else
      let cnt := (← get).flushCnt
      modify fun s => { s with flushCnt := cnt + 1 }
      if cnt < flushThreshold then pure false
      else
        modify fun s => { s with flushCnt := 0 }
        pure true

/-- `spin_trylock(&erase_lock)`, tried again for ever when the flush is forced. -/
def flushLock (force : Bool) : Kernel Bool := do
  if force then
    spinLock .eraseLock
    pure true
  else spinTrylock .eraseLock

/-- `flush_meta_exit2`. -/
def flushExit (ret : ℤ) : Kernel ℤ := do
  modify fun s => { s with recentUpdate := false, isFlush := false }
  pure ret

/-- `flush_metadata`. -/
def flushMetadata (env : Env) (force : Bool) : Kernel ℤ := do
  if ← flushGate force then
    if ← flushLock force then
      let ret ← flushLocked env
      spinUnlock .eraseLock
      flushExit ret
    else flushExit 0
  else flushExit 0

/-- A call of `flush_metadata` goes past its gate. -/
def FlushRuns (s : Config) (force : Bool) : Prop :=
  force = true ∨ s.isFlush = true ∧ flushThreshold ≤ s.flushCnt

theorem flushGate_ok {s s' : Config} {force passed : Bool} (he : flushGate force s = .ok (passed, s')) :
    (∃ b n, s' = { s with isFlush := b, flushCnt := n }) ∧ (passed = true → FlushRuns s force) ∧
      (force = true → passed = true) := by
  cases force with
  | true =>
    obtain ⟨rfl, rfl⟩ := pure_ok.mp he
    exact ⟨⟨_, _, rfl⟩, fun _ => .inl rfl, fun _ => rfl⟩
  | false =>
    rw [flushGate, if_neg Bool.false_ne_true, get_bind_ok] at he
    obtain ⟨_, s₁, he₁, hflag⟩ := bind_ok.mp he
    obtain rfl := modify_ok.mp he₁
    split at hflag
    · obtain ⟨rfl, rfl⟩ := pure_ok.mp hflag
      exact ⟨⟨_, _, rfl⟩, fun h => absurd h Bool.false_ne_true, id⟩
    · next hset =>
      rw [get_bind_ok] at hflag
      obtain ⟨_, s₂, he₂, hcnt⟩ := bind_ok.mp hflag
      obtain rfl := modify_ok.mp he₂
      split at hcnt
      · obtain ⟨rfl, rfl⟩ := pure_ok.mp hcnt
        exact ⟨⟨_, _, rfl⟩, fun h => absurd h Bool.false_ne_true, id⟩
      · next hmany =>
        obtain ⟨_, s₃, he₃, hend⟩ := bind_ok.mp hcnt
        obtain rfl := modify_ok.mp he₃
        obtain ⟨rfl, rfl⟩ := pure_ok.mp hend
        exact ⟨⟨_, _, rfl⟩, fun _ => .inr ⟨eq_true_of_ne_false hset, not_lt.mp hmany⟩, fun _ => rfl⟩

theorem flushLock_ok {s s' : Config} {force locked : Bool} (he : flushLock force s = .ok (locked, s')) :
    force = false ∧ locked = false ∧ s' = s ∨
      locked = true ∧ s.locks .eraseLock = false ∧ s' = s.lock .eraseLock true := by
  cases force with
  | true =>
    obtain ⟨_, s₁, he₁, hend⟩ := bind_ok.mp he
    obtain ⟨rfl, rfl⟩ := pure_ok.mp hend
    exact .inr ⟨rfl, spinLock_ok he₁⟩
  | false => exact (spinTrylock_ok he).imp_left fun h => ⟨rfl, h⟩

/-- A call of `flush_metadata` only clears its flags, or runs with its lock held. -/
theorem flushMetadata_ok {env : Env} {s s' : Config} {force : Bool} {ret : ℤ}
    (he : flushMetadata env force s = .ok (ret, s')) :
    (force = false ∧ ∃ n, s' = { s with recentUpdate := false, isFlush := false, flushCnt := n }) ∨
      FlushRuns s force ∧ s.locks .eraseLock = false ∧ ∃ b n s₁,
        flushLocked env (({ s with isFlush := b, flushCnt := n } : Config).lock .eraseLock true) = .ok (ret, s₁) ∧
          s' = { s₁.lock .eraseLock false with recentUpdate := false, isFlush := false } := by
  have hexit : ∀ {code ret : ℤ} {s s' : Config}, flushExit code s = .ok (ret, s') →
      code = ret ∧ s' = { s with recentUpdate := false, isFlush := false } := by
    intro code ret s s' he
    obtain ⟨_, s₁, he₁, hend⟩ := bind_ok.mp he
    obtain rfl := modify_ok.mp he₁
    exact (pure_ok.mp hend).imp_right Eq.symm
  obtain ⟨passed, s₁, he₁, hgate⟩ := bind_ok.mp he
  obtain ⟨⟨b, n, rfl⟩, hruns, hforced⟩ := flushGate_ok he₁
  cases passed with
  | false =>
    rw [if_neg Bool.false_ne_true] at hgate
    exact .inl ⟨eq_false_of_ne_true fun h => Bool.false_ne_true (hforced h), n, (hexit hgate).2⟩
  | true =>
    rw [if_pos rfl] at hgate
    obtain ⟨locked, s₂, he₂, hlock⟩ := bind_ok.mp hgate
    obtain ⟨hforce, rfl, rfl⟩ | ⟨rfl, hfree, rfl⟩ := flushLock_ok he₂
    · rw [if_neg Bool.false_ne_true] at hlock
      exact .inl ⟨hforce, n, (hexit hlock).2⟩
    · rw [if_pos rfl] at hlock
      obtain ⟨code, s₃, he₃, hunlock⟩ := bind_ok.mp hlock
      obtain ⟨_, s₄, he₄, hend⟩ := bind_ok.mp hunlock
      obtain rfl := modify_ok.mp he₄
      obtain ⟨rfl, rfl⟩ := hexit hend
      exact .inr ⟨hruns rfl, hfree, b, n, s₃, he₃, rfl⟩

/-- `flush_timer_callback`. -/
def flushTimerCallback (env : Env) : Kernel PUnit := do
  if (← get).recentUpdate then
    let _ ← flushMetadata env false
  else pure ⟨⟩

/-! ## Reading the pages back -/

/-- `simple_strtoul`, base 10: the number that a string begins with. -/
def simpleStrtoul (str : List Byte) : ℕ :=
  (str.takeWhile fun c => 48 ≤ c.toNat ∧ c.toNat ≤ 57).foldl (fun n c => 10 * n + (c.toNat - 48)) 0

/-- `simple_strtol`, base 10. -/
def simpleStrtol : List Byte → ℤ
  | [] => 0
  | c :: str => if c = 45 then -simpleStrtoul str else simpleStrtoul (c :: str)

/-- `idx_num`: what stands behind the magic string, up to the NUL, in a buffer of 100 bytes. -/
def headerRank (buf : List Byte) : Except Fault ℤ :=
  let str := (CStr.ofBytes buf).bytes.drop metaHdrBase.length
  if (0 : Byte) ∉ buf ∨ 100 ≤ str.length then throw .overflow
  else pure ((simpleStrtol str).bmod (2 ^ 32))

/-- What `init_scan` fills: `meta_blkordr`, the pages of the two areas, and its counters
`total_ram_pg_cnt` and `jack_ofs`. -/
structure Scan where
  metaBlkordr : ℕ → Option ℕ
  blkArea : ℕ → List Byte
  hashArea : ℕ → List Byte
  total : ℕ
  jackOfs : ℕ

/-- The areas as they were allocated. -/
def Scan.start (blkArea hashArea : ℕ → List Byte) : Scan := ⟨fun _ => none, blkArea, hashArea, 0, 0⟩

/-- The loop over the pages `js` of metadata block `i`, of rank `idx`; true for `goto construct_done`. -/
def scanPages (env : Env) (h : History) (i idx : ℕ) : List ℕ → Scan → Except Fault (Bool × Scan)
  | [], t => pure (false, t)
  | j :: js, t =>
      let total := t.total + 1
      if nbPages env.toGeometry < total then pure (true, t)
      else if env.readOk h (i * env.pagesPerBlock + j) = false then throw .bug
      else
        let buf := content env.pageSize h (i * env.pagesPerBlock + j)
        let ofs := idx * env.pagesPerBlock + (j - 1)
        if ofs < blkPgs env.toGeometry then
          scanPages env h i idx js
            { t with total := total, blkArea := Function.update t.blkArea ofs buf }
        else if hsPgs env.toGeometry ≤ t.jackOfs then throw .overflow
        else
          scanPages env h i idx js
            { t with
              total := total
              hashArea := Function.update t.hashArea t.jackOfs buf
              jackOfs := t.jackOfs + 1 }

/-- The loop over the blocks. -/
def scanBlocks (env : Env) (h : History) : List ℕ → Scan → Except Fault Scan
  | [], t => pure t
  | i :: is, t =>
      if env.readOk h (i * env.pagesPerBlock) = false then throw .bug
      else
        let buf := content env.pageSize h (i * env.pagesPerBlock)
        if buf.take metaHdrBase.length ≠ metaHdrBase then scanBlocks env h is t
        else do
          let idx ← headerRank buf
          if idx < 0 ∨ maxMetaBlk ≤ idx then throw .outOfBounds
          else
            let (done, t) ← scanPages env h i idx.toNat (List.range' 1 (env.pagesPerBlock - 1))
              { t with metaBlkordr := Function.update t.metaBlkordr idx.toNat (some i) }
            if done then pure t else scanBlocks env h is t

/-- `init_scan` up to `construct_done`, on a device with history `h`. -/
def initScan (env : Env) (h : History) (blkArea hashArea : ℕ → List Byte) : Except Fault Scan :=
  scanBlocks env h (List.range env.nbBlocks) (.start blkArea hashArea)

end LkpProjects.Parallel
