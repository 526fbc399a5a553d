import LkpProjects.Serial.Overlap
import LkpProjects.Serial.Flush

/-! # The serial store: moving the pages of a block

`move_pages_to_other_block` goes over the pages of its block one by one. Whatever page has a key length
and a value length above zero is stored again if its key is in the hash table, be it the live page of
the key or an outdated one, and a page with an empty key or value is not. The key is what the key
buffer holds up to its first NUL: the key of the page, and behind it what longer keys left there.

So the pages that are stored again are a list that depends on the block's content and on the buffer
only (`namedPages`), the last page stored under a key is what the key has afterwards (`lastNamed`), and
the relocation keeps the map exactly under `Relocates`.
-/
namespace LkpProjects.Serial
open Nand Bytes
set_option autoImplicit false

/-! ## The pages that are stored again -/

/-- What the loop makes of one page before it looks into the hash table: the key buffer, and the key
under which the page may be stored again. -/
def readKey (g : Geometry) (page : List Byte) (key : ℕ → Byte) :
    Except Fault ((ℕ → Byte) × Option CStr) :=
  let keyLen := intOfWord (readLe (mem page) 0)
  let valLen := intOfWord (readLe (mem page) 4)
  if keyLen ≤ 0 then .ok (key, none)
  else if 128 < keyLen then .error .overflow
  else
    let key := blit key 0 (cut (mem page) 8 keyLen.toNat)
    if valLen ≤ 0 then .ok (key, none)
    else if (g.pageSize : ℤ) < valLen then .error .overflow
    else if (cut key 0 128).contains 0 = false then .error .unterminated
    else .ok (key, some (.ofBytes (cut key 0 128)))

/-- The pages that name a key, with the key, in the order of the pages; none when a length does not fit
or no NUL follows. -/
def namedPages (g : Geometry) : List (List Byte) → (ℕ → Byte) → Option (List (CStr × List Byte))
  | [], _ => some []
  | page :: pages, key =>
      match readKey g page key with
      | .error _ => none
      | .ok (key, none) => namedPages g pages key
      | .ok (key, some str) => (namedPages g pages key).map ((str, page) :: ·)

/-- The last page that names a key. -/
def lastNamed : List (CStr × List Byte) → CStr → Option (List Byte)
  | [], _ => none
  | a :: as, k =>
      match lastNamed as k with
      | some page => some page
      | none => if a.1 = k then some a.2 else none

/-- The pages of a block behind its header. -/
def dataPages (g : Geometry) (b : ℕ) : List ℕ :=
  (List.range (g.pagesPerBlock - 1)).map fun i => b * g.pagesPerBlock + (i + 1)

/-- The pages that blocks other than `b` have left for `get_healthy_block`, a header not counted. -/
def roomOutside (g : Geometry) (b : ℕ) (s : Config) : ℕ :=
  ∑ c ∈ (Finset.range g.nbBlocks).filter fun c => c ≠ b ∧ (s.blocks c).worn < intMax,
    (g.pagesPerBlock - max 1 (s.blocks c).currentPageOffset)

/-- The key is in the hash table. -/
def present (g : Geometry) (s : Config) (k : CStr) : Bool := (hashSearch g s.hashtable k).isOk

/-- The condition under which the relocation of block `b` keeps the map. -/
structure Relocates (env : Env) (s : Config) (b : ℕ) (as : List (CStr × List Byte)) : Prop where
  named : namedPages env.toGeometry ((dataPages env.toGeometry b).map (content env.pageSize s.mtd))
    (env.keyBuf s.mtd) = some as
  room : (as.filter fun a => present env.toGeometry s a.1).length ≤ roomOutside env.toGeometry b s
  moved : ∀ h ∈ (s.blocks b).list, lastNamed as (s.hashtable h).key ≠ none
  current : ∀ h, s.Valid env.toGeometry h → ∀ page, lastNamed as (s.hashtable h).key = some page →
    strncmpEq (page.drop 8) (s.hashtable h).key = true ∧ valueOf page = (valOf env s h).bytes

variable {env : Env} {s s' : Config} {b : ℕ}

/-- One round of the loop, from the key on. -/
theorem moveOne_eq (page : List Byte) (key : ℕ → Byte) : moveOne env page key s =
    match readKey env.toGeometry page key with
    | .error f => .error f
    | .ok (key, none) => .ok (key, s)
    | .ok (key, some str) =>
        match hashSearch env.toGeometry s.hashtable str with
        | .error _ => .ok (key, s)
        | .ok h =>
            match invalidPg env.toGeometry h s with
            | .error f => .error f
            | .ok s =>
                match storeAt env str page s with
                | .error f => .error f
                | .ok (_, s) => .ok (key, s) := by
  simp only [moveOne, readKey]
  split_ifs <;> rfl

/-! ## Where a key is during the relocation -/

/-- A page is stored again: if its key has a page, this one takes its place, outside the block. -/
def restore (q : CStr → Option (Bool × List Byte)) (a : CStr × List Byte) :
    CStr → Option (Bool × List Byte) :=
  match q a.1 with
  | none => q
  | some _ => Function.update q a.1 (some (false, a.2))

theorem restore_some {q : CStr → Option (Bool × List Byte)} {a : CStr × List Byte} {k : CStr}
    {x : Bool × List Byte} (hq : q k = some x) :
    restore q a k = some (if a.1 = k then (false, a.2) else x) := by
  rw [restore]
  by_cases hk : a.1 = k
  · subst hk
    rw [hq, if_pos rfl]
    exact Function.update_self _ _ _
  · rw [if_neg hk]
    cases q a.1 with
    | none => exact hq
    | some y => exact (Function.update_of_ne (Ne.symm hk) _ _).trans hq

theorem restore_none {q : CStr → Option (Bool × List Byte)} {a : CStr × List Byte} {k : CStr}
    (hq : q k = none) : restore q a k = none := by
  rw [restore]
  cases ha : q a.1 with
  | none => exact hq
  | some y =>
    have hk : k ≠ a.1 := by
      rintro rfl
      rw [hq] at ha
      cases ha
    exact (Function.update_of_ne hk _ _).trans hq

/-- After all pages, a key has the last page that names it, or still its own. -/
theorem foldl_restore_some {q : CStr → Option (Bool × List Byte)} {as : List (CStr × List Byte)}
    {k : CStr} {x : Bool × List Byte} (hq : q k = some x) : as.foldl restore q k =
      some (match lastNamed as k with | some page => (false, page) | none => x) := by
  induction as generalizing q x with
  | nil => exact hq
  | cons a as ih =>
    rw [List.foldl_cons, ih (restore_some hq), lastNamed]
    cases lastNamed as k with
    | some page => rfl
    | none => by_cases hk : a.1 = k <;> simp [hk]

theorem foldl_restore_none {q : CStr → Option (Bool × List Byte)} {as : List (CStr × List Byte)}
    {k : CStr} (hq : q k = none) : as.foldl restore q k = none := by
  induction as generalizing q with
  | nil => exact hq
  | cons a as ih => exact ih (restore_none hq)

/-! ## The state during the relocation -/

/-- Between two rounds: `q` tells for each key in the table whether its page is still in the block, and
what the page holds. A block that `get_healthy_block` may pick is in use or erased. -/
structure Moving (env : Env) (b : ℕ) (q : CStr → Option (Bool × List Byte)) (s : Config) : Prop where
  table : TableOk env.toGeometry s.hashtable
  keyLt : ∀ h, s.Valid env.toGeometry h → (s.hashtable h).key.len < 128
  blkLt : ∀ h, s.Valid env.toGeometry h → s.blkOf env.toGeometry h < env.nbBlocks
  onList : ∀ h, s.Valid env.toGeometry h → h ∈ (s.blocks (s.blkOf env.toGeometry h)).list
  used : ∀ h, s.Valid env.toGeometry h → s.blkOf env.toGeometry h ≠ b →
    (s.blocks (s.blkOf env.toGeometry h)).state = .blkUsed
  offsetLt : ∀ h, s.Valid env.toGeometry h → s.blkOf env.toGeometry h ≠ b →
    (s.hashtable h).index % env.pagesPerBlock <
      (s.blocks (s.blkOf env.toGeometry h)).currentPageOffset
  ready : ∀ c < env.nbBlocks, c ≠ b → (s.blocks c).worn < intMax →
    (s.blocks c).currentPageOffset < env.pagesPerBlock → (s.blocks c).state ≠ .blkInvalid ∧
      ((s.blocks c).currentPageOffset = 0 ∨ (s.blocks c).state = .blkUsed)
  fresh : ∀ c < env.nbBlocks, c ≠ b → ∀ o, (s.blocks c).currentPageOffset ≤ o →
    o < env.pagesPerBlock → programmed s.mtd (c * env.pagesPerBlock + o) = false
  block : b < env.nbBlocks ∧ (s.blocks b).state = .blkInvalid ∧
    (s.blocks b).currentPageOffset < env.pagesPerBlock
  readOnly : s.readOnly = false
  pages : ∀ h, s.Valid env.toGeometry h → q (s.hashtable h).key =
    some (decide (s.blkOf env.toGeometry h = b), pageOf env s h)
  complete : ∀ k x, q k = some x → ∃ h, s.Valid env.toGeometry h ∧ (s.hashtable h).key = k

variable {q : CStr → Option (Bool × List Byte)} {key : CStr} {data : List Byte} {h h' c : ℕ}

theorem leastWorn_lt {n : ℕ} {candidate : ℕ → Bool} {worn : ℕ → ℕ}
    (hb : leastWorn n candidate worn = some b) : worn b < intMax := (leastBelow_some hb).2.2.1

/-- Only worn-out blocks have no share in the room. -/
theorem roomOutside_eq {g : Geometry} (hlt : c < g.nbBlocks) (hne : c ≠ b)
    (hw : (s.blocks c).worn < intMax) : roomOutside g b s =
      (g.pagesPerBlock - max 1 (s.blocks c).currentPageOffset) +
        ∑ d ∈ ((Finset.range g.nbBlocks).filter fun d => d ≠ b ∧ (s.blocks d).worn < intMax).erase c,
          (g.pagesPerBlock - max 1 (s.blocks d).currentPageOffset) := by
  refine (Finset.add_sum_erase _ _ ?_).symm
  simp [hlt, hne, hw]

theorem roomOutside_congr {g : Geometry} (h : ∀ d, (s'.blocks d).worn = (s.blocks d).worn ∧
    max 1 (s'.blocks d).currentPageOffset = max 1 (s.blocks d).currentPageOffset) :
    roomOutside g b s' = roomOutside g b s := by
  simp only [roomOutside, (h _).1, (h _).2]

/-- Freeing one bucket leaves one valid bucket fewer. -/
theorem card_dropped {g : Geometry} (hv : s.Valid g h) :
    (validSlots g (s.dropped g h).hashtable).card + 1 = (validSlots g s.hashtable).card := by
  have hcard : (validSlots g (s.droppedAll g [h]).hashtable).card + [h].length =
      (validSlots g s.hashtable).card :=
    card_droppedAll (fun j hj => by rw [List.mem_singleton.mp hj]; exact hv) (List.nodup_singleton h)
  exact hcard

theorem Opened.worn {g : Geometry} (hO : Opened g c s s') (d : ℕ) :
    (s'.blocks d).worn = (s.blocks d).worn := by
  by_cases hd : d = c
  · rw [hd, hO.block_self]
  · rw [hO.block_ne hd]

theorem Opened.blkOf {g : Geometry} (hO : Opened g c s s') : s'.blkOf g h = s.blkOf g h :=
  Config.blkOf_congr hO.hashtable

theorem Opened.valid {g : Geometry} (hO : Opened g c s s') : s'.Valid g h ↔ s.Valid g h :=
  Config.valid_congr hO.hashtable

namespace Moving

/-- What `get_healthy_block` picks is not the block that is emptied. -/
theorem healthy (hM : Moving env b q s) (hc : getHealthyBlock env.toGeometry s = some c) :
    c < env.nbBlocks ∧ c ≠ b ∧ (s.blocks c).worn < intMax ∧
      (s.blocks c).currentPageOffset < env.pagesPerBlock := by
  obtain ⟨hlt, hst, ho⟩ := getHealthyBlock_some hc
  refine ⟨hlt, ?_, leastWorn_lt hc, ho⟩
  rintro rfl
  exact hst hM.block.2.1

theorem roomOutside_pos (hM : Moving env b q s) (hc : getHealthyBlock env.toGeometry s = some c) :
    0 < roomOutside env.toGeometry b s := by
  obtain ⟨hlt, hne, hw, ho⟩ := hM.healthy hc
  have hppb := env.two_le_pagesPerBlock
  rw [roomOutside_eq hlt hne hw]
  omega

theorem healthy_of_room (hM : Moving env b q s) (hr : 0 < roomOutside env.toGeometry b s) :
    ∃ c, getHealthyBlock env.toGeometry s = some c := by
  by_contra hno
  refine Nat.lt_irrefl 0 (hr.trans_eq (Finset.sum_eq_zero fun c hc => ?_))
  rw [Finset.mem_filter, Finset.mem_range] at hc
  obtain ⟨hlt, hne, hw⟩ := hc
  by_contra hpos
  have ho : (s.blocks c).currentPageOffset < env.pagesPerBlock := by omega
  refine hno (leastWorn_isSome _ _ hlt ?_ hw)
  simpa [(hM.ready c hlt hne hw ho).1] using ho

theorem key_inj (hM : Moving env b q s) {j : ℕ} (hv : s.Valid env.toGeometry h)
    (hj : s.Valid env.toGeometry j) (he : (s.hashtable j).key = (s.hashtable h).key) : j = h :=
  hM.table.distinct j hj.1 h hv.1 (s.hashtable h).key (Bucket.held_eq_some.mpr ⟨hj.2, he⟩)
    (Bucket.held_eq_some.mpr ⟨hv.2, rfl⟩)

/-- The next page of a block that may be picked is no bucket's page. -/
theorem index_ne (hM : Moving env b q s) (hne : c ≠ b)
    (ho : (s.blocks c).currentPageOffset < env.pagesPerBlock) {j : ℕ}
    (hj : s.Valid env.toGeometry j) :
    (s.hashtable j).index ≠ c * env.pagesPerBlock + (s.blocks c).currentPageOffset := by
  intro he
  have hblk : s.blkOf env.toGeometry j = c := by rw [Config.blkOf, he, Geometry.page_div ho]
  have hlt := hM.offsetLt j hj (hblk ▸ hne)
  rw [hblk, he, Geometry.page_mod ho] at hlt
  exact Nat.lt_irrefl _ hlt

/-- The page that `c` gets next keeps the pages behind it free. -/
theorem fresh_program (hM : Moving env b q s) (ho : (s.blocks c).currentPageOffset < env.pagesPerBlock)
    {d o : ℕ} (hd : d < env.nbBlocks) (hdb : d ≠ b) (hdo : (s.blocks d).currentPageOffset ≤ o)
    (hdc : d = c → (s.blocks c).currentPageOffset < o) (hlto : o < env.pagesPerBlock) :
    programmed (.program (c * env.pagesPerBlock + (s.blocks c).currentPageOffset) data :: s.mtd)
      (d * env.pagesPerBlock + o) = false := by
  rw [programmed_program_ne]
  · exact hM.fresh d hd hdb o hdo hlto
  · intro he
    obtain ⟨hq, hoo⟩ := Geometry.page_inj hlto ho he
    have := hdc hq
    omega

/-- The bucket of a key is freed. -/
theorem dropped (hM : Moving env b q s) (hv : s.Valid env.toGeometry h) :
    Moving env b (Function.update q (s.hashtable h).key none) (s.dropped env.toGeometry h) where
  table := hM.table.dropped
  keyLt j hj := by
    rw [dropped_key]
    exact hM.keyLt j (dropped_valid.mp hj).1
  blkLt j hj := by
    rw [dropped_blkOf]
    exact hM.blkLt j (dropped_valid.mp hj).1
  onList j hj := by
    obtain ⟨hjv, hjne⟩ := dropped_valid.mp hj
    rw [dropped_blkOf, dropped_list]
    exact (List.mem_erase_of_ne hjne).mpr (hM.onList j hjv)
  used j hj hjb := by
    rw [dropped_blkOf] at hjb ⊢
    rw [dropped_state]
    exact hM.used j (dropped_valid.mp hj).1 hjb
  offsetLt j hj hjb := by
    rw [dropped_blkOf] at hjb ⊢
    rw [dropped_index, dropped_offset]
    exact hM.offsetLt j (dropped_valid.mp hj).1 hjb
  ready d hd hdb hdw hdo := by
    rw [dropped_worn] at hdw
    rw [dropped_offset] at hdo ⊢
    rw [dropped_state]
    exact hM.ready d hd hdb hdw hdo
  fresh d hd hdb o hdo hlto := by
    rw [dropped_offset] at hdo
    exact hM.fresh d hd hdb o hdo hlto
  block := by
    rw [dropped_state, dropped_offset]
    exact hM.block
  readOnly := hM.readOnly
  pages j hj := by
    obtain ⟨hjv, hjne⟩ := dropped_valid.mp hj
    have hkne : (s.hashtable j).key ≠ (s.hashtable h).key := fun he => hjne (hM.key_inj hv hjv he)
    rw [dropped_key, Function.update_of_ne hkne, hM.pages j hjv, dropped_blkOf, pageOf, pageOf,
      dropped_index, dropped_mtd]
  complete k x hx := by
    have hk : k ≠ (s.hashtable h).key := by
      rintro rfl
      rw [Function.update_self] at hx
      cases hx
    rw [Function.update_of_ne hk] at hx
    obtain ⟨j, hj, rfl⟩ := hM.complete k x hx
    have hjne : j ≠ h := by
      rintro rfl
      exact hk rfl
    exact ⟨j, dropped_valid.mpr ⟨hj, hjne⟩, dropped_key⟩

/-- An erased block gets its header. -/
theorem opened (hM : Moving env b q s) (hO : Opened env.toGeometry c s s') (hlt : c < env.nbBlocks)
    (hne : c ≠ b) (ho : (s.blocks c).currentPageOffset = 0) : Moving env b q s' := by
  have hroom : (s.blocks c).currentPageOffset < env.pagesPerBlock := by
    rw [ho]
    exact env.pagesPerBlock_pos
  have hmtd : s'.mtd = .program (c * env.pagesPerBlock + (s.blocks c).currentPageOffset)
      (hdrPage env.toGeometry .nandData) :: s.mtd := by rw [hO.mtd, ho, Nat.add_zero]
  -- an erased block holds no bucket's page
  have hempty : ∀ j, s.Valid env.toGeometry j → s.blkOf env.toGeometry j ≠ c := by
    rintro j hj rfl
    have := hM.offsetLt j hj hne
    omega
  constructor
  case table =>
    rw [hO.hashtable]
    exact hM.table
  case keyLt =>
    intro j hj
    rw [hO.hashtable]
    exact hM.keyLt j (hO.valid.mp hj)
  case blkLt =>
    intro j hj
    rw [hO.blkOf]
    exact hM.blkLt j (hO.valid.mp hj)
  case onList =>
    intro j hj
    have hj := hO.valid.mp hj
    rw [hO.blkOf, hO.block_ne (hempty j hj)]
    exact hM.onList j hj
  case used =>
    intro j hj hjb
    have hj := hO.valid.mp hj
    rw [hO.blkOf] at hjb ⊢
    rw [hO.block_ne (hempty j hj)]
    exact hM.used j hj hjb
  case offsetLt =>
    intro j hj hjb
    have hj := hO.valid.mp hj
    rw [hO.blkOf] at hjb ⊢
    rw [hO.block_ne (hempty j hj), hO.hashtable]
    exact hM.offsetLt j hj hjb
  case ready =>
    intro d hd hdb hdw hdo
    by_cases hdc : d = c
    · rw [hdc, hO.block_self]
      exact ⟨nofun, .inr rfl⟩
    · rw [hO.block_ne hdc] at hdw hdo ⊢
      exact hM.ready d hd hdb hdw hdo
  case fresh =>
    intro d hd hdb o hdo hlto
    rw [hmtd]
    by_cases hdc : d = c
    · rw [hdc, hO.block_self] at hdo
      refine hM.fresh_program hroom hd hdb ?_ (fun _ => ?_) hlto
      · rw [hdc, ho]
        exact Nat.zero_le o
      · rw [ho]
        exact hdo
    · rw [hO.block_ne hdc] at hdo
      exact hM.fresh_program hroom hd hdb hdo (fun h => absurd h hdc) hlto
  case block =>
    rw [hO.block_ne hne.symm]
    exact hM.block
  case readOnly => exact hO.not_readOnly hlt
  case pages =>
    intro j hj
    have hj := hO.valid.mp hj
    rw [hO.hashtable, hM.pages j hj, hO.blkOf, pageOf, pageOf, hO.hashtable, hmtd,
      content_program_ne (hM.index_ne hne hroom hj)]
  case complete =>
    intro k x hx
    obtain ⟨j, hj, hk⟩ := hM.complete k x hx
    exact ⟨j, hO.valid.mpr hj, by rw [hO.hashtable, hk]⟩

/-- A key that has no bucket gets one, and a page in block `c`. -/
theorem stored (hM : Moving env b q s) (hlt : c < env.nbBlocks) (hne : c ≠ b)
    (hused : (s.blocks c).state = .blkUsed) (ho : (s.blocks c).currentPageOffset < env.pagesPerBlock)
    (hS : Stored env.toGeometry key data c h s s') (hq : q key = none)
    (htab : TableOk env.toGeometry s'.hashtable) (hlen : data.length ≤ env.pageSize) :
    Moving env b (Function.update q key (some (false, data))) s' := by
  have hblk := hS.blkOf_self ho
  have hfresh := hM.fresh c hlt hne _ (Nat.le_refl _) ho
  constructor
  case table => exact htab
  case keyLt => exact fun j => hS.forall_key (p := fun k => k.len < 128) hS.keyLt hM.keyLt
  case blkLt => exact fun j => hS.forall_blkOf (p := (· < env.nbBlocks)) ho hlt hM.blkLt
  case onList =>
    intro j hj
    obtain ⟨rfl, hb⟩ | ⟨-, hjv, hb⟩ := hS.blkOf_eq ho hj
    · rw [hb, hS.block_self]
      exact List.mem_cons_self
    · rw [hb]
      exact hS.mem_list.mpr (.inr (hM.onList j hjv))
  case used =>
    intro j hj hjb
    obtain ⟨-, hb⟩ | ⟨-, hjv, hb⟩ := hS.blkOf_eq ho hj
    · rw [hb, hS.state, hused]
    · rw [hb] at hjb ⊢
      rw [hS.state]
      exact hM.used j hjv hjb
  case offsetLt =>
    intro j hj hjb
    obtain ⟨rfl, hb⟩ | ⟨hjh, hjv, hb⟩ := hS.blkOf_eq ho hj
    · rw [hb, hS.index_self, Geometry.page_mod ho, hS.offset_self]
      exact Nat.lt_succ_self _
    · rw [hb] at hjb ⊢
      rw [hS.index_ne hjh]
      exact Nat.lt_of_lt_of_le (hM.offsetLt j hjv hjb) hS.offset_le
  case ready =>
    intro d hd hdb hdw hdo
    by_cases hdc : d = c
    · rw [hdc, hS.state, hused]
      exact ⟨by decide, .inr rfl⟩
    · rw [hS.block_ne hdc] at hdw hdo ⊢
      exact hM.ready d hd hdb hdw hdo
  case fresh =>
    intro d hd hdb o hdo hlto
    rw [hS.mtd]
    by_cases hdc : d = c
    · subst hdc
      rw [hS.offset_self] at hdo
      exact hM.fresh_program ho hd hdb (by omega) (fun _ => by omega) hlto
    · rw [hS.block_ne hdc] at hdo
      exact hM.fresh_program ho hd hdb hdo (fun h => absurd h hdc) hlto
  case block =>
    rw [hS.block_ne hne.symm]
    exact hM.block
  case readOnly =>
    rw [hS.readOnly]
    refine isReadOnly_eq_false hM.block.1 ?_
    rw [hS.block_ne hne.symm]
    exact hM.block.2.2
  case pages =>
    intro j hj
    obtain ⟨rfl, hb⟩ | ⟨hjh, hjv, hb⟩ := hS.blkOf_eq ho hj
    · rw [hS.key_self, Function.update_self, hb, decide_eq_false hne, pageOf, hS.index_self, hS.mtd,
        content_program_self hfresh hlen]
    · have hkne : (s.hashtable j).key ≠ key := by
        intro he
        have := hM.pages j hjv
        rw [he, hq] at this
        cases this
      rw [hS.key_ne hjh, Function.update_of_ne hkne, hM.pages j hjv, hb, pageOf, pageOf,
        hS.index_ne hjh, hS.mtd, content_program_ne (hM.index_ne hne ho hjv)]
  case complete =>
    intro k x hx
    by_cases hk : k = key
    · subst hk
      exact ⟨h, hS.valid_iff.mpr (.inl rfl), hS.key_self⟩
    · rw [Function.update_of_ne hk] at hx
      exact hS.exists_key (hM.complete k x hx)

/-- Each page that is stored takes one page of the room. -/
theorem room_stored (hlt : c < env.nbBlocks) (hne : c ≠ b) (hw : (s.blocks c).worn < intMax)
    (hpos : 0 < (s.blocks c).currentPageOffset)
    (ho : (s.blocks c).currentPageOffset < env.pagesPerBlock)
    (hS : Stored env.toGeometry key data c h s s') :
    roomOutside env.toGeometry b s' + 1 = roomOutside env.toGeometry b s := by
  have hworn : ∀ d, (s'.blocks d).worn = (s.blocks d).worn := fun d => hS.worn
  rw [roomOutside_eq hlt hne hw, roomOutside_eq hlt hne (by rw [hworn]; exact hw)]
  simp only [hworn]
  have hsum : ∑ d ∈ ((Finset.range env.nbBlocks).filter fun d =>
        d ≠ b ∧ (s.blocks d).worn < intMax).erase c,
      (env.pagesPerBlock - max 1 (s'.blocks d).currentPageOffset) =
      ∑ d ∈ ((Finset.range env.nbBlocks).filter fun d =>
        d ≠ b ∧ (s.blocks d).worn < intMax).erase c,
      (env.pagesPerBlock - max 1 (s.blocks d).currentPageOffset) :=
    Finset.sum_congr rfl fun d hd => by rw [hS.block_ne (Finset.ne_of_mem_erase hd)]
  rw [hsum, hS.offset_self]
  omega

/-- `get_next_page` leaves a block in use with a page left. -/
theorem readied (hM : Moving env b q s) (hc : getHealthyBlock env.toGeometry s = some c)
    (hR : Ready env.toGeometry c s s') : Moving env b q s' ∧ (s'.blocks c).state = .blkUsed ∧
      roomOutside env.toGeometry b s' = roomOutside env.toGeometry b s ∧
      (s'.blocks c).worn = (s.blocks c).worn ∧ s'.hashtable = s.hashtable ∧
      ∀ p, p / env.pagesPerBlock ≠ c →
        content env.pageSize s'.mtd p = content env.pageSize s.mtd p := by
  obtain ⟨hlt, hne, hw, ho⟩ := hM.healthy hc
  obtain ⟨hpos, rfl⟩ | ⟨h0, hO⟩ := hR
  · exact ⟨hM, (hM.ready c hlt hne hw ho).2.resolve_left (by omega), rfl, rfl, rfl, fun _ _ => rfl⟩
  · refine ⟨hM.opened hO hlt hne h0, by rw [hO.block_self], roomOutside_congr fun d => ⟨hO.worn d, ?_⟩,
      hO.worn c, hO.hashtable, fun p hp => ?_⟩
    · by_cases hd : d = c
      · rw [hd, hO.block_self, h0]
        rfl
      · rw [hO.block_ne hd]
    · rw [hO.mtd]
      refine content_program_ne ?_
      rintro rfl
      exact hp (Nat.mul_div_cancel _ env.pagesPerBlock_pos)

/-- A key is in the table when `q` has an entry for it. -/
theorem present_eq (hM : Moving env b q s) (k : CStr) :
    present env.toGeometry s k = (q k).isSome := by
  rw [present]
  cases hs : hashSearch env.toGeometry s.hashtable k with
  | ok h =>
    obtain ⟨hlt, hp, rfl⟩ := hashSearch_sound hs
    rw [hM.pages h ⟨hlt, hp⟩]
    rfl
  | error e =>
    cases hq : q k with
    | none => rfl
    | some x =>
      obtain ⟨h, hv, hk⟩ := hM.complete k x hq
      exact absurd hk (hashSearch_error hM.table hs h hv.1 hv.2)

/-- Storing a page under a key without a bucket fails only for lack of a block. -/
theorem storeAt_absent (hM : Moving env b q s) (hdrv : env.NoDriverError) {page : List Byte}
    (hkey : key.len < 128) (hq : q key = none) (hlen : page.length ≤ env.pageSize)
    (hcard : (validSlots env.toGeometry s.hashtable).card + 2 ≤ env.hashSize) :
    (roomOutside env.toGeometry b s = 0 → storeAt env key page s = .error .outOfBounds) ∧
    (0 < roomOutside env.toGeometry b s → ∃ ret s', storeAt env key page s = .ok (ret, s') ∧
      Moving env b (Function.update q key (some (false, page))) s' ∧
      roomOutside env.toGeometry b s' + 1 = roomOutside env.toGeometry b s ∧
      (validSlots env.toGeometry s'.hashtable).card =
        (validSlots env.toGeometry s.hashtable).card + 1 ∧
      ∀ p, p / env.pagesPerBlock = b →
        content env.pageSize s'.mtd p = content env.pageSize s.mtd p) := by
  constructor
  · intro hr
    cases hc : getHealthyBlock env.toGeometry s with
    | none => simp only [storeAt, getNextPage, hc]
    | some c =>
      have := hM.roomOutside_pos hc
      omega
  · intro hr
    obtain ⟨c, hc⟩ := hM.healthy_of_room hr
    obtain ⟨hlt, hne, hw, ho⟩ := hM.healthy hc
    have hR := openBlock_ready (b := c) hdrv hM.readOnly
    obtain ⟨hM₁, hused, hroom, hworn, htab, hsame⟩ := hM.readied hc hR
    obtain ⟨hpos, ho₁⟩ := hR.offset ho
    have habs : ∀ j < env.hashSize, ((openBlock env c s).hashtable j).pState = .pgValid →
        ((openBlock env c s).hashtable j).key ≠ key := by
      intro j hj hp hk
      have := hM₁.pages j ⟨hj, hp⟩
      rw [hk, hq] at this
      cases this
    obtain ⟨h, t, hadd, -, ht⟩ : ∃ h t, hashAdd env.toGeometry key
        (c * env.pagesPerBlock + ((openBlock env c s).blocks c).currentPageOffset)
        (openBlock env c s).hashtable = .ok (.ok h, t) ∧ _ ∧ TableOk env.toGeometry t :=
      hashAdd_ok hM₁.table hkey habs (by rw [htab]; exact hcard)
    have hS := stored_of_hashAdd page ho₁ hadd
    refine ⟨writeCode env.toGeometry ((openBlock env c s).wrote env.toGeometry
      (c * env.pagesPerBlock + ((openBlock env c s).blocks c).currentPageOffset) page), _, ?_,
      hM₁.stored hlt hne hused ho₁ hS hq ht hlen, ?_, ?_, fun p hp => ?_⟩
    · simp only [storeAt, getNextPage, hc, writePage_eq hdrv (hR.readOnly hlt hM.readOnly),
        enterBucket, wrote_hashtable, hadd]
    · rw [room_stored hlt hne (by rw [hworn]; exact hw) hpos ho₁ hS, hroom]
    · rw [hS.card, htab]
    · rw [hS.mtd, content_program_ne, hsame p (by rw [hp]; exact hne.symm)]
      rintro rfl
      rw [Geometry.page_div ho₁] at hp
      exact hne hp

/-- One round on a page that names a key of the table. -/
theorem moveOne_present (hM : Moving env b q s) (hdrv : env.NoDriverError) {page : List Byte}
    {buf buf' : ℕ → Byte} {str : CStr} (hread : readKey env.toGeometry page buf = .ok (buf', some str))
    (hs : hashSearch env.toGeometry s.hashtable str = .ok h) (hlen : page.length ≤ env.pageSize)
    (hcard : (validSlots env.toGeometry s.hashtable).card < env.hashSize) :
    (roomOutside env.toGeometry b s = 0 → ∃ f, moveOne env page buf s = .error f) ∧
    (0 < roomOutside env.toGeometry b s → ∃ s', moveOne env page buf s = .ok (buf', s') ∧
      Moving env b (restore q (str, page)) s' ∧
      roomOutside env.toGeometry b s' + 1 = roomOutside env.toGeometry b s ∧
      (validSlots env.toGeometry s'.hashtable).card < env.hashSize ∧
      ∀ p, p / env.pagesPerBlock = b →
        content env.pageSize s'.mtd p = content env.pageSize s.mtd p) := by
  obtain ⟨hlt, hp, rfl⟩ := hashSearch_sound hs
  have hv : s.Valid env.toGeometry h := ⟨hlt, hp⟩
  have hinv := invalidPg_of_mem (hM.blkLt h hv) rfl (hM.onList h hv)
  have hcard' := card_dropped hv
  have hroom : roomOutside env.toGeometry b (s.dropped env.toGeometry h) =
      roomOutside env.toGeometry b s :=
    roomOutside_congr fun d => ⟨dropped_worn _ _ _ _, by rw [dropped_offset]⟩
  have hq : restore q ((s.hashtable h).key, page) = Function.update
      (Function.update q (s.hashtable h).key none) (s.hashtable h).key (some (false, page)) := by
    rw [restore, hM.pages h hv, Function.update_idem]
  obtain ⟨hnone, hsome⟩ := (hM.dropped hv).storeAt_absent hdrv (hM.keyLt h hv)
    (Function.update_self _ _ _) hlen (by omega)
  simp only [moveOne_eq, hread, hs, hinv, hq]
  rw [hroom] at hnone hsome
  constructor
  · intro hr
    rw [hnone hr]
    exact ⟨_, rfl⟩
  · intro hr
    obtain ⟨ret, s', hst, hM', hr', hc', hsame⟩ := hsome hr
    rw [hst]
    exact ⟨s', rfl, hM', hr', by omega, hsame⟩

theorem count_restore (as : List (CStr × List Byte)) (a : CStr × List Byte) :
    (as.filter fun x => (restore q a x.1).isSome) = as.filter fun x => (q x.1).isSome := by
  refine List.filter_congr fun x _ => ?_
  cases hq : q x.1 with
  | none => rw [restore_none hq]
  | some y =>
    rw [restore_some hq]
    rfl

/-- The whole loop, when no length is too long and the other blocks have enough pages left. -/
theorem moveLoop_ok (hM : Moving env b q s) (hdrv : env.NoDriverError)
    (hcard : (validSlots env.toGeometry s.hashtable).card < env.hashSize) {ps : List ℕ}
    (hps : ∀ p ∈ ps, p / env.pagesPerBlock = b) {buf : ℕ → Byte} {as : List (CStr × List Byte)}
    (hn : namedPages env.toGeometry (ps.map (content env.pageSize s.mtd)) buf = some as)
    (hroom : (as.filter fun x => (q x.1).isSome).length ≤ roomOutside env.toGeometry b s) :
    ∃ s', moveLoop env ps buf s = .ok (some s', s') ∧ Moving env b (as.foldl restore q) s' := by
  induction ps generalizing buf s q as with
  | nil =>
    obtain rfl := Option.some.inj hn
    exact ⟨s, rfl, hM⟩
  | cons p ps ih =>
    have hread : readPage env s.mtd p = some (content env.pageSize s.mtd p) := by
      simp [readPage, hdrv.read]
    have hps' : ∀ p ∈ ps, p / env.pagesPerBlock = b := fun p hp => hps p (List.mem_cons_of_mem _ hp)
    rw [List.map_cons, namedPages] at hn
    simp only [moveLoop, hread]
    cases hk : readKey env.toGeometry (content env.pageSize s.mtd p) buf with
    | error f =>
      rw [hk] at hn
      cases hn
    | ok r =>
      obtain ⟨buf', str⟩ := r
      rw [hk] at hn
      cases str with
      | none =>
        simp only [moveOne_eq, hk]
        exact ih hM hcard hps' hn hroom
      | some str =>
        simp only [Option.map_eq_some_iff] at hn
        obtain ⟨as, hn, rfl⟩ := hn
        cases hs : hashSearch env.toGeometry s.hashtable str with
        | error e =>
          have hq : q str = none := by
            have := hM.present_eq str
            rw [present, hs] at this
            exact Option.isSome_eq_false_iff.mp this.symm |> Option.isNone_iff_eq_none.mp
          have hres : restore q (str, content env.pageSize s.mtd p) = q := by rw [restore, hq]
          rw [List.filter_cons, if_neg (by simp [hq])] at hroom
          simp only [moveOne_eq, hk, hs, List.foldl_cons, hres]
          exact ih hM hcard hps' hn hroom
        | ok h =>
          have hq : (q str).isSome = true := by
            rw [← hM.present_eq str, present, hs]
            rfl
          rw [List.filter_cons, if_pos hq, List.length_cons] at hroom
          obtain ⟨s', he, hM', hr', hcard', hsame⟩ :=
            (hM.moveOne_present hdrv hk hs (content_length_le _ _ _) hcard).2 (by omega)
          have hmap : ps.map (content env.pageSize s'.mtd) = ps.map (content env.pageSize s.mtd) :=
            List.map_congr_left fun p hp => hsame p (hps' p hp)
          simp only [he, List.foldl_cons]
          exact ih hM' hcard' hps' (by rw [hmap]; exact hn) (by rw [count_restore]; omega)

/-- A loop that came to its end met no length that is too long, and found a page each time. -/
theorem moveLoop_named (hM : Moving env b q s) (hdrv : env.NoDriverError)
    (hcard : (validSlots env.toGeometry s.hashtable).card < env.hashSize) {ps : List ℕ}
    (hps : ∀ p ∈ ps, p / env.pagesPerBlock = b) {buf : ℕ → Byte} {r : Option Config × Config}
    (he : moveLoop env ps buf s = .ok r) :
    ∃ as, namedPages env.toGeometry (ps.map (content env.pageSize s.mtd)) buf = some as ∧
      (as.filter fun x => (q x.1).isSome).length ≤ roomOutside env.toGeometry b s := by
  induction ps generalizing buf s q with
  | nil => exact ⟨[], rfl, Nat.zero_le _⟩
  | cons p ps ih =>
    have hread : readPage env s.mtd p = some (content env.pageSize s.mtd p) := by
      simp [readPage, hdrv.read]
    have hps' : ∀ p ∈ ps, p / env.pagesPerBlock = b := fun p hp => hps p (List.mem_cons_of_mem _ hp)
    rw [List.map_cons, namedPages]
    simp only [moveLoop, hread] at he
    cases hk : readKey env.toGeometry (content env.pageSize s.mtd p) buf with
    | error f =>
      simp only [moveOne_eq, hk] at he
      cases he
    | ok r' =>
      obtain ⟨buf', str⟩ := r'
      cases str with
      | none =>
        simp only [moveOne_eq, hk] at he
        exact ih hM hcard hps' he
      | some str =>
        cases hs : hashSearch env.toGeometry s.hashtable str with
        | error e =>
          have hq : (q str).isSome = false := by
            rw [← hM.present_eq str, present, hs]
            rfl
          simp only [moveOne_eq, hk, hs] at he
          obtain ⟨as, hn, hcount⟩ := ih hM hcard hps' he
          refine ⟨(str, content env.pageSize s.mtd p) :: as, by simp only [hn, Option.map_some], ?_⟩
          rw [List.filter_cons, if_neg (by simp [hq])]
          exact hcount
        | ok h =>
          have hq : (q str).isSome = true := by
            rw [← hM.present_eq str, present, hs]
            rfl
          obtain ⟨hnone, hsome⟩ := hM.moveOne_present hdrv hk hs (content_length_le _ _ _) hcard
          have hpos : 0 < roomOutside env.toGeometry b s := by
            by_contra h0
            obtain ⟨f, hf⟩ := hnone (by omega)
            rw [hf] at he
            cases he
          obtain ⟨s', hone, hM', hr', hcard', hsame⟩ := hsome hpos
          rw [hone] at he
          have hmap : ps.map (content env.pageSize s'.mtd) = ps.map (content env.pageSize s.mtd) :=
            List.map_congr_left fun p hp => hsame p (hps' p hp)
          obtain ⟨as, hn, hcount⟩ := ih hM' hcard' hps' he
          rw [hmap] at hn
          rw [count_restore] at hcount
          refine ⟨(str, content env.pageSize s.mtd p) :: as, by simp only [hn, Option.map_some], ?_⟩
          rw [List.filter_cons, if_pos hq, List.length_cons]
          omega

/-- What the keys are answered once the emptied block is erased. -/
theorem answer_erased (hM : Moving env b q s) (hdrv : env.NoDriverError)
    (hE : Erased env.toGeometry b s s') (k : CStr) : answer env k s' =
      match q k with
      | some (false, page) =>
          if strncmpEq (page.drop 8) k = true then some (valueOf page) else none
      | _ => none := by
  cases hs : hashSearch env.toGeometry s.hashtable k with
  | error e =>
    have hq := hM.present_eq k
    rw [present, hs] at hq
    rw [Option.isSome_eq_false_iff.mp hq.symm |> Option.isNone_iff_eq_none.mp]
    exact answer_of_error (by rw [hE.hashtable]; exact hs)
  | ok h =>
    obtain ⟨hlt, hp, rfl⟩ := hashSearch_sound hs
    have hv : s.Valid env.toGeometry h := ⟨hlt, hp⟩
    have hblk : s'.blkOf env.toGeometry h = s.blkOf env.toGeometry h := Config.blkOf_congr hE.hashtable
    rw [answer_of_ok hdrv (by rw [hE.hashtable]; exact hs), hblk, hM.pages h hv]
    by_cases hb : s.blkOf env.toGeometry h = b
    · have hfree : (s'.blocks b).state = .blkFree := by
        rw [hE.block_self]
        rfl
      rw [hb, hfree, decide_eq_true rfl, if_neg (fun h => absurd h.1 (by decide))]
    · have hpage : pageOf env s' h = pageOf env s h := by
        rw [pageOf, pageOf, hE.hashtable, hE.mtd, content_erase_not_mem]
        rintro ⟨hle, hlt'⟩
        refine hb (Nat.div_eq_of_lt_le ?_ ?_)
        · exact hle
        · rw [Nat.succ_mul]
          exact hlt'
      rw [hE.block_ne hb, hM.used h hv hb, decide_eq_false hb, hpage]
      simp only [true_and]

end Moving

/-! ## Before and after -/

/-- The counter of a metadata block is exact: such a block is written whole, or, when it was chosen
earlier in the same flush, still erased. -/
def MetaExact (env : Env) (s : Config) : Prop :=
  ∀ c < env.nbBlocks, (s.blocks c).state = .blkMeta →
    (s.blocks c).currentPageOffset = env.pagesPerBlock ∨ (s.blocks c).currentPageOffset = 0 ∧
      ∀ o < env.pagesPerBlock, programmed s.mtd (c * env.pagesPerBlock + o) = false

/-- The pages of block `b` are moved away: the block ends erased, and every key is answered as before. -/
def MovedAway (env : Env) (s : Config) (b : ℕ) : Prop :=
  ∃ s', movePagesToOtherBlock env b s = .ok (0, s') ∧ (s'.blocks b).state = .blkFree ∧
    (∀ o < env.pagesPerBlock, programmed s'.mtd (b * env.pagesPerBlock + o) = false) ∧
    ∀ k, answer env k s' = answer env k s

/-- Where the page of each key is at the start. -/
def whereabouts (env : Env) (b : ℕ) (s : Config) (k : CStr) : Option (Bool × List Byte) :=
  match hashSearch env.toGeometry s.hashtable k with
  | .ok h => some (decide (s.blkOf env.toGeometry h = b), pageOf env s h)
  | .error _ => none

/-- What `get_meta_block` picks has a page left. -/
theorem getMetaBlock_offset {g : Geometry} (hb : getMetaBlock g s = some b) :
    (s.blocks b).currentPageOffset < g.pagesPerBlock := by
  unfold getMetaBlock at hb
  split at hb
  · rename_i b' h₁
    obtain rfl := Option.some.inj hb
    obtain ⟨-, hc, -⟩ := leastWorn_some h₁
    rw [decide_eq_true_eq] at hc
    rw [hc.2]
    exact g.pagesPerBlock_pos
  · obtain ⟨-, hc, -⟩ := leastWorn_some hb
    rw [decide_eq_true_eq] at hc
    exact hc.2

variable {m : CStr → Option CStr}

namespace Inv

theorem search_valid (hI : Inv env s m) (hv : s.Valid env.toGeometry h) :
    hashSearch env.toGeometry s.hashtable (s.hashtable h).key = .ok h :=
  (hashSearch_ok_iff hI.table).mpr ⟨hv.1, hv.2, rfl⟩

theorem whereabouts_valid (hI : Inv env s m) (hv : s.Valid env.toGeometry h) :
    whereabouts env b s (s.hashtable h).key =
      some (decide (s.blkOf env.toGeometry h = b), pageOf env s h) := by
  rw [whereabouts, hI.search_valid hv]

theorem answer_valid (hI : Inv env s m) (hdrv : env.NoDriverError) (hv : s.Valid env.toGeometry h) :
    answer env (s.hashtable h).key s = some (valOf env s h).bytes ∧
      valueOf (pageOf env s h) = (valOf env s h).bytes ∧
      strncmpEq ((pageOf env s h).drop 8) (s.hashtable h).key = true := by
  obtain ⟨v, -, hh⟩ := hI.stored h hv
  have hval : valueOf (pageOf env s h) = (valOf env s h).bytes := by
    rw [valOf, pageOf, Holds.val_eq hh, valueOf, hh.keyLen_eq, hh.valLen_eq, hh.val_bytes]
  refine ⟨?_, hval, hh.strncmpEq⟩
  rw [answer_of_ok hdrv (hI.search_valid hv), hI.blkUsed h hv, if_pos ⟨rfl, hh.strncmpEq⟩, hval]

/-- The state in which the loop starts. -/
theorem moving (hI : Inv env s m) (hmeta : MetaExact env s)
    (hb : getMetaBlock env.toGeometry s = some b) :
    Moving env b (whereabouts env b s) (s.setState b .blkInvalid) := by
  have hlt := getMetaBlock_lt hb
  have ho := getMetaBlock_offset hb
  have hne : ∀ c, c ≠ b → (s.setState b .blkInvalid).blocks c = s.blocks c := fun c hc => by
    rw [Config.setState, Config.modifyBlk_blocks_ne hc]
  have hself : (s.setState b .blkInvalid).blocks b = { s.blocks b with state := .blkInvalid } := by
    simp [Config.setState]
  constructor
  case table => exact hI.table
  case keyLt => exact hI.keyLt
  case blkLt => exact hI.blkLt
  case onList =>
    intro j hj
    have hmem := (hI.memList _ (hI.blkLt j hj) j).mpr ⟨hj, rfl⟩
    by_cases hjb : (s.setState b .blkInvalid).blkOf env.toGeometry j = b
    · rw [hjb, hself]
      exact hjb ▸ hmem
    · rw [hne _ hjb]
      exact hmem
  case used =>
    intro j hj hjb
    rw [hne _ hjb]
    exact hI.blkUsed j hj
  case offsetLt =>
    intro j hj hjb
    rw [hne _ hjb]
    exact hI.offsetLt j hj
  case ready =>
    intro c hc hcb hw hco
    rw [hne c hcb] at hw hco ⊢
    refine ⟨hI.notInvalid c hc, ?_⟩
    cases hcs : (s.blocks c).state with
    | blkFree => exact .inl (hI.free c hc hcs).1
    | blkUsed => exact .inr rfl
    | blkMeta =>
      obtain hfull | ⟨h0, -⟩ := hmeta c hc hcs
      · omega
      · exact .inl h0
    | blkInvalid => exact absurd hcs (hI.notInvalid c hc)
  case fresh =>
    intro c hc hcb o hco hlto
    rw [hne c hcb] at hco
    by_cases hcm : (s.blocks c).state = .blkMeta
    · obtain hfull | ⟨-, hfree⟩ := hmeta c hc hcm
      · omega
      · exact hfree o hlto
    · exact hI.fresh c hc hcm o hco hlto
  case block =>
    rw [hself]
    exact ⟨hlt, rfl, ho⟩
  case readOnly => exact hI.readOnly.trans (isReadOnly_eq_false hlt ho)
  case pages =>
    intro j hj
    exact hI.whereabouts_valid hj
  case complete =>
    intro k x hx
    rw [whereabouts] at hx
    split at hx
    · rename_i h hs
      obtain ⟨hhlt, hp, hk⟩ := hashSearch_sound hs
      exact ⟨h, ⟨hhlt, hp⟩, hk⟩
    · cases hx

/-- The page that the block gets next belongs to no bucket, so the table has a slot to spare. -/
theorem card_lt (hI : Inv env s m) (hb : getMetaBlock env.toGeometry s = some b)
    (hst : (s.blocks b).state = .blkUsed) :
    (validSlots env.toGeometry s.hashtable).card < env.hashSize := by
  have hlt := getMetaBlock_lt hb
  have ho := getMetaBlock_offset hb
  have hused := hI.used b hlt hst
  have hcard := hI.card_validSlots (Geometry.page_lt hlt ho) (by omega) fun j hj he => by
    have hblk : s.blkOf env.toGeometry j = b := by rw [Config.blkOf, he, Geometry.page_div ho]
    have hoj := hI.offsetLt j hj
    rw [hblk, he, Geometry.page_mod ho] at hoj
    exact Nat.lt_irrefl _ hoj
  omega

/-- A loop that comes to its end met no length that is too long and had room; with these it does come to
its end, and leaves each key with the last page that names it. -/
theorem moveLoop_spec (hI : Inv env s m) (hdrv : env.NoDriverError) (hmeta : MetaExact env s)
    (hb : getMetaBlock env.toGeometry s = some b) (hst : (s.blocks b).state = .blkUsed) :
    (∀ r, moveLoop env (dataPages env.toGeometry b) (env.keyBuf s.mtd) (s.setState b .blkInvalid) =
      .ok r → ∃ as, namedPages env.toGeometry ((dataPages env.toGeometry b).map
          (content env.pageSize s.mtd)) (env.keyBuf s.mtd) = some as ∧
        (as.filter fun a => present env.toGeometry s a.1).length ≤ roomOutside env.toGeometry b s) ∧
    ∀ as, namedPages env.toGeometry ((dataPages env.toGeometry b).map
        (content env.pageSize s.mtd)) (env.keyBuf s.mtd) = some as →
      (as.filter fun a => present env.toGeometry s a.1).length ≤ roomOutside env.toGeometry b s →
      ∃ s₁, moveLoop env (dataPages env.toGeometry b) (env.keyBuf s.mtd) (s.setState b .blkInvalid) =
        .ok (some s₁, s₁) ∧ Moving env b (as.foldl restore (whereabouts env b s)) s₁ := by
  have hM := hI.moving hmeta hb
  have hcard := hI.card_lt hb hst
  have hpages : ∀ p ∈ dataPages env.toGeometry b, p / env.pagesPerBlock = b := by
    intro p hp
    obtain ⟨i, hi, rfl⟩ := List.mem_map.mp hp
    exact Geometry.page_div (by rw [List.mem_range] at hi; omega)
  have hroom : roomOutside env.toGeometry b (s.setState b .blkInvalid) =
      roomOutside env.toGeometry b s := roomOutside_congr fun d => by
    rw [Config.setState, Config.modifyBlk_blocks]
    split_ifs with hd
    · rw [hd]
      exact ⟨rfl, rfl⟩
    · exact ⟨rfl, rfl⟩
  have hcount : ∀ as : List (CStr × List Byte),
      (as.filter fun a => present env.toGeometry s a.1) =
        as.filter fun a => (whereabouts env b s a.1).isSome :=
    fun as => List.filter_congr fun a _ => hM.present_eq a.1
  constructor
  · intro r he
    obtain ⟨as, hn, hle⟩ := hM.moveLoop_named hdrv hcard hpages he
    exact ⟨as, hn, by rw [hcount, ← hroom]; exact hle⟩
  · intro as hn hle
    exact hM.moveLoop_ok hdrv hcard hpages hn (by rw [hroom, ← hcount]; exact hle)

end Inv

/-- After all pages, each key is answered as before exactly when the keys of the block have a page
elsewhere and the last page that names a key holds its value. -/
theorem Moving.answers_iff {as : List (CStr × List Byte)} {s₁ : Config} (hI : Inv env s m)
    (hdrv : env.NoDriverError) (hb : b < env.nbBlocks)
    (hM : Moving env b (as.foldl restore (whereabouts env b s)) s₁)
    (hE : Erased env.toGeometry b s₁ s') : (∀ k, answer env k s' = answer env k s) ↔
      (∀ h ∈ (s.blocks b).list, lastNamed as (s.hashtable h).key ≠ none) ∧
      ∀ h, s.Valid env.toGeometry h → ∀ page, lastNamed as (s.hashtable h).key = some page →
        strncmpEq (page.drop 8) (s.hashtable h).key = true ∧
          valueOf page = (valOf env s h).bytes := by
  have hafter := hM.answer_erased hdrv hE
  have hvalid : ∀ h, s.Valid env.toGeometry h → answer env (s.hashtable h).key s' =
      match lastNamed as (s.hashtable h).key with
      | some page => if strncmpEq (page.drop 8) (s.hashtable h).key = true then some (valueOf page)
          else none
      | none => if s.blkOf env.toGeometry h = b then none else some (valOf env s h).bytes := by
    intro h hv
    obtain ⟨-, hval, hkey⟩ := hI.answer_valid hdrv hv
    rw [hafter, foldl_restore_some (hI.whereabouts_valid hv)]
    cases lastNamed as (s.hashtable h).key with
    | some page => rfl
    | none =>
      by_cases hblk : s.blkOf env.toGeometry h = b
      · simp [hblk]
      · simp [hblk, hkey, hval]
  constructor
  · refine fun hans => ⟨fun h hh hnone => ?_, fun h hv page hpage => ?_⟩
    · obtain ⟨hv, hblk⟩ := (hI.memList b hb h).mp hh
      have hlost := hvalid h hv
      rw [hnone, hans, (hI.answer_valid hdrv hv).1] at hlost
      simp [hblk] at hlost
    · have hkept := hvalid h hv
      rw [hpage, hans, (hI.answer_valid hdrv hv).1] at hkept
      by_cases hk : strncmpEq (page.drop 8) (s.hashtable h).key = true
      · simp only [hk, if_true] at hkept
        exact ⟨hk, (Option.some.inj hkept).symm⟩
      · simp [hk] at hkept
  · rintro ⟨hmoved, hcurrent⟩ k
    cases hs : hashSearch env.toGeometry s.hashtable k with
    | error e =>
      have hq : whereabouts env b s k = none := by rw [whereabouts, hs]
      rw [hafter, foldl_restore_none hq, answer_of_error hs]
    | ok h =>
      obtain ⟨hlt, hp, rfl⟩ := hashSearch_sound hs
      have hv : s.Valid env.toGeometry h := ⟨hlt, hp⟩
      rw [hvalid h hv, (hI.answer_valid hdrv hv).1]
      cases hl : lastNamed as (s.hashtable h).key with
      | some page =>
        obtain ⟨hk, hval⟩ := hcurrent h hv page hl
        simp [hk, hval]
      | none =>
        have hblk : s.blkOf env.toGeometry h ≠ b := fun he =>
          hmoved h ((hI.memList b hb h).mpr ⟨hv, he⟩) hl
        simp [hblk]

theorem movePages_error {f : Fault} (hst : (s.blocks b).state = .blkUsed)
    (hloop : moveLoop env (dataPages env.toGeometry b) (env.keyBuf s.mtd) (s.setState b .blkInvalid) =
      .error f) : movePagesToOtherBlock env b s = .error f := by
  rw [dataPages] at hloop
  rw [movePagesToOtherBlock, if_neg (by rw [hst]; decide), if_pos hst]
  simp only [hloop]

theorem movePages_ok {r s₁ : Config} (hst : (s.blocks b).state = .blkUsed)
    (hloop : moveLoop env (dataPages env.toGeometry b) (env.keyBuf s.mtd) (s.setState b .blkInvalid) =
      .ok (some r, s₁)) : movePagesToOtherBlock env b s = .ok (formatSingle env b s₁) := by
  rw [dataPages] at hloop
  rw [movePagesToOtherBlock, if_neg (by rw [hst]; decide), if_pos hst]
  simp only [hloop]

/-- The pages of a block in use that `get_meta_block` picks are moved away exactly under `Relocates`. -/
theorem move_pages_keeps_map_iff (hdrv : env.NoDriverError) (hI : Inv env s m)
    (hmeta : MetaExact env s) (hb : getMetaBlock env.toGeometry s = some b)
    (hst : (s.blocks b).state = .blkUsed) : MovedAway env s b ↔ ∃ as, Relocates env s b as := by
  have hlt := getMetaBlock_lt hb
  obtain ⟨hends, hfits⟩ := hI.moveLoop_spec hdrv hmeta hb hst
  constructor
  · rintro ⟨s', he, -, -, hans⟩
    cases hloop : moveLoop env (dataPages env.toGeometry b) (env.keyBuf s.mtd)
        (s.setState b .blkInvalid) with
    | error f =>
      rw [movePages_error hst hloop] at he
      cases he
    | ok r =>
      obtain ⟨as, hn, hroom⟩ := hends r hloop
      obtain ⟨s₁, hloop', hM⟩ := hfits as hn hroom
      rw [movePages_ok hst hloop'] at he
      have hE := (formatSingle_erased hdrv b s₁).2
      obtain rfl : (formatSingle env b s₁).2 = s' := congrArg Prod.snd (Except.ok.inj he)
      obtain ⟨hmoved, hcurrent⟩ := (hM.answers_iff hI hdrv hlt hE).mp hans
      exact ⟨as, hn, hroom, hmoved, hcurrent⟩
  · rintro ⟨as, hR⟩
    obtain ⟨s₁, hloop, hM⟩ := hfits as hR.named hR.room
    obtain ⟨hret, hE⟩ := formatSingle_erased hdrv b s₁
    refine ⟨(formatSingle env b s₁).2, ?_, ?_, fun o ho => ?_, ?_⟩
    · rw [movePages_ok hst hloop]
      exact congrArg Except.ok (Prod.ext hret rfl)
    · rw [hE.block_self]
      rfl
    · rw [hE.mtd]
      exact programmed_erase_mem ⟨Nat.le_add_right _ _, by omega⟩
    · exact (hM.answers_iff hI hdrv hlt hE).mpr ⟨hR.moved, hR.current⟩

theorem metaExact_of_ne (h : ∀ c < env.nbBlocks, (s.blocks c).state ≠ .blkMeta) : MetaExact env s :=
  fun c hc hst => absurd hst (h c hc)

/-- Two blocks of three pages, each page with room for a short pair. -/
def shortGeometry : Geometry := .ofSizes 2 3 16 (by decide)

/-- A formatted device on which block 1 was opened, and then one pair was stored on block 0. -/
def pairStored (env : Env) (key val : CStr) : Config :=
  match storeAt env key (record env.toGeometry key val) (openBlock env 1 env.start) with
  | .ok (_, s) => s
  | .error _ => env.start

theorem pairStored_inv (hdrv : env.NoDriverError) {key val : CStr} (hlen : key.len < 128)
    (hsize : 8 + key.len + val.len ≤ env.pageSize) (hblk : 1 < env.nbBlocks)
    (hpick : getHealthyBlock env.toGeometry (openBlock env 1 env.start) = some 0) :
    Inv env (pairStored env key val) (Function.update (fun _ => none) key (some val)) := by
  have hfmt : format env (.blank []) = (0, env.start) := by
    rw [Env.start, format, hdrv.erase]
  have hI₀ := format_inv env hfmt
  have hro : env.start.readOnly = false := by
    rw [Env.start, format, hdrv.erase]
  have hoff : ∀ b, (env.start.blocks b) = .erased 0 := by
    rw [Env.start, format, hdrv.erase]
    exact fun b => rfl
  have hO := openBlock_opened (b := 1) hdrv hro (by rw [hoff]; rfl)
  have hI₁ := hI₀.opened hblk (by rw [hoff]; rfl) hO
  obtain ⟨s₁, h, s', -, -, he, hI⟩ := hI₁.storeAt hdrv (hO.not_readOnly hblk) hpick
    (by rw [hO.block_ne (by decide), hoff]; nofun) hlen (record_holds hsize) rfl
  rw [pairStored, he]
  exact hI

/-- One pair is in the block, and its value is not empty. -/
theorem move_pages_keeps_map_one : MovedAway (Env.ideal shortGeometry)
    (pairStored (Env.ideal shortGeometry) (.ofBytes [107]) (.ofBytes [118])) 0 := by
  refine (move_pages_keeps_map_iff (Env.ideal_noDriverError _)
    (pairStored_inv (Env.ideal_noDriverError _) (by decide) (by decide) (by decide) (by decide))
    (metaExact_of_ne (by decide)) (by decide) (by decide)).mpr
      ⟨[(.ofBytes [107], record shortGeometry (.ofBytes [107]) (.ofBytes [118]))], by decide, by decide,
        by decide, ?_⟩
  have hcur : ∀ h < shortGeometry.hashSize, ((pairStored (Env.ideal shortGeometry) (.ofBytes [107])
      (.ofBytes [118])).hashtable h).pState = .pgValid →
      strncmpEq ((record shortGeometry (.ofBytes [107]) (.ofBytes [118])).drop 8)
        ((pairStored (Env.ideal shortGeometry) (.ofBytes [107]) (.ofBytes [118])).hashtable h).key =
          true ∧
      valueOf (record shortGeometry (.ofBytes [107]) (.ofBytes [118])) =
        (valOf (Env.ideal shortGeometry) (pairStored (Env.ideal shortGeometry) (.ofBytes [107])
          (.ofBytes [118])) h).bytes := by decide
  intro h hv page hpage
  simp only [lastNamed] at hpage
  split_ifs at hpage
  obtain rfl := Option.some.inj hpage
  exact hcur h hv.1 hv.2

/-- A key of one byte with an empty value is in the block, and block 1 has two pages left. The key is
not found afterwards. -/
theorem move_pages_loses_empty_value : ∃ s : Config,
    (∃ m, Inv (Env.ideal shortGeometry) s m) ∧ MetaExact (Env.ideal shortGeometry) s ∧
      getMetaBlock shortGeometry s = some 0 ∧ (s.blocks 0).state = .blkUsed ∧
      (s.blocks 0).list.length < roomOutside shortGeometry 0 s ∧
      answer (Env.ideal shortGeometry) (.ofBytes [107]) s = some [] ∧
      (∃ s', movePagesToOtherBlock (Env.ideal shortGeometry) 0 s = .ok (0, s') ∧
        answer (Env.ideal shortGeometry) (.ofBytes [107]) s' = none) ∧
      ¬ MovedAway (Env.ideal shortGeometry) s 0 := by
  have hmove : ∃ s', movePagesToOtherBlock (Env.ideal shortGeometry) 0
      (pairStored (Env.ideal shortGeometry) (.ofBytes [107]) (.ofBytes [])) = .ok (0, s') ∧
        answer (Env.ideal shortGeometry) (.ofBytes [107]) s' = none := ⟨_, rfl, by decide⟩
  have hbefore : answer (Env.ideal shortGeometry) (.ofBytes [107])
      (pairStored (Env.ideal shortGeometry) (.ofBytes [107]) (.ofBytes [])) = some [] := by decide
  refine ⟨pairStored (Env.ideal shortGeometry) (.ofBytes [107]) (.ofBytes []), ⟨_, pairStored_inv
    (Env.ideal_noDriverError _) (by decide) (by decide) (by decide) (by decide)⟩,
    metaExact_of_ne (by decide), by decide, by decide, by decide, hbefore, hmove, ?_⟩
  rintro ⟨s', he, -, -, hans⟩
  obtain ⟨s'', he', hnone⟩ := hmove
  obtain rfl : s'' = s' := congrArg Prod.snd (Except.ok.inj (he'.symm.trans he))
  rw [hans, hbefore] at hnone
  cases hnone

end LkpProjects.Serial
