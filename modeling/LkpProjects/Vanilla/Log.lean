import LkpProjects.Vanilla.Mount

/-! # The vanilla store is a log

What the store is for, without blocks and cursors: `Log` keeps the pairs in the order in which they came. A pair is
added at the end while there is room, a lookup takes the first pair whose text begins with the key, and a format
empties the log. `store_is_log` is that the store answers every sequence of calls as the log does, whatever the
driver answers to either, as long as a request that ends with an error leaves the flash as it was: what a failed write
has programmed stays under the next pair. `mount_keeps_log` is that a mount reads the log of the session before it.
-/
namespace LkpProjects.Vanilla
open Nand Bytes Stepwise
set_option autoImplicit false

variable {g : Geometry} {d : Driver} {h₀ mtd : History} {ps : List (CStr × CStr)} {s s' : Config} {key val : CStr}

/-! ## The calls of the device -/

inductive Request where
  | format
  | call (c : Call)

/-- A request to the store. -/
def serve (g : Geometry) (s : Config) : Driver × Request → Except Fault (Result × Config)
  | (d, .format) => .ok (⟨(format g d s).1, []⟩, (format g d s).2)
  | (d, .call c) => exec g d s c

/-! ## The log -/

namespace Log

/-- The first pair whose text begins with the key, with its page. -/
def lookup (g : Geometry) (d : Driver) (key : CStr) : List ((CStr × CStr) × ℕ) → Except Fault (ℤ × List Byte)
  | [] => .ok (-1, [])
  | (kv, p) :: ws =>
    if d.readOk p = false then .ok (-2, [])
    else if Overlaps g key kv then
      if key.len ≤ g.pageSize - 8 then .ok (p, kv.2.bytes) else .error .overread
    else lookup g d key ws

/-- The pair that takes the last page is stored, but its code is that of a full log. -/
def append (g : Geometry) (d : Driver) (key val : CStr) (ps : List (CStr × CStr)) : ℤ × List (CStr × CStr) :=
  if ps.length = g.nbPages then (-3, ps)
  else
    match d.writeResult with
    | .failed _ => (-4, ps)
    | .done => (if ps.length + 1 = g.nbPages then -3 else 0, ps ++ [(key, val)])

def set (g : Geometry) (d : Driver) (key val : CStr) (ps : List (CStr × CStr)) :
    Except Fault (ℤ × List (CStr × CStr)) :=
  if g.pageSize < key.len + val.len + 8 then .ok (-1, ps)
  else
    match lookup g d key ps.zipIdx with
    | .error f => .error f
    | .ok (found, _) => .ok (if 0 ≤ found then (-2, ps) else append g d key val ps)

/-- A request to the log. -/
def serve (g : Geometry) (ps : List (CStr × CStr)) : Driver × Request → Except Fault (Result × List (CStr × CStr))
  | (d, .format) => .ok (if d.eraseResult = .done then (⟨0, []⟩, []) else (⟨-1, []⟩, ps))
  | (d, .call (.set key val)) => (set g d key val ps).map fun r => (⟨r.1, []⟩, r.2)
  | (d, .call (.get key)) => (lookup g d key ps.zipIdx).map fun r => (⟨r.1, r.2⟩, ps)

end Log

/-- The store holds the pairs of the log, and nothing else. -/
def Holds (g : Geometry) (s : Config) (ps : List (CStr × CStr)) : Prop := ∃ h₀, Blank g h₀ ∧ Inv g h₀ ps s

/-! ## Reading -/

/-- The loop over pages that hold pairs is the lookup among these pairs. -/
theorem searchPages_eq_lookup {ws : List ((CStr × CStr) × ℕ)} (hw : ∀ w ∈ ws,
    8 + w.1.1.len + w.1.2.len ≤ g.pageSize ∧ content g.pageSize mtd w.2 = record g w.1.1 w.1.2) :
    searchPages g d mtd key (ws.map Prod.snd) = Log.lookup g d key ws := by
  induction ws with
  | nil => rfl
  | cons w ws ih =>
    obtain ⟨kv, p⟩ := w
    obtain ⟨⟨hfit, hc⟩, hws⟩ := List.forall_mem_cons.mp hw
    rw [List.map_cons, Log.lookup]
    by_cases hread : d.readOk p = false
    · rw [if_pos hread, searchPages, readPage, if_pos hread]
    · rw [if_neg hread, searchPages_cons (eq_true_of_ne_false hread) hfit hc, ih hws]

theorem Inv.getKeyval_eq_lookup (hI : Inv g h₀ ps s) (hb : Blank g h₀) :
    getKeyval g d key s = Log.lookup g d key ps.zipIdx := by
  rw [getKeyval, hI.validPages_eq]
  exact searchPages_eq_lookup fun w hw =>
    ⟨hI.fits w.1 (List.mem_of_getElem? (List.mem_zipIdx_iff_getElem?.mp hw)), hI.content hb hw⟩

/-! ## Writing -/

/-- `write_page` at the cursor answers as the log does. -/
theorem Inv.writePage_append (hI : Inv g h₀ ps s) (hd : d.Clean) (hfit : 8 + key.len + val.len ≤ g.pageSize)
    {ret : ℤ} (he : Vanilla.writePage g d (cursorPage g s) (record g key val) s = (ret, s')) :
    setCode ret = (Log.append g d key val ps).1 ∧ Inv g h₀ (Log.append g d key val ps).2 s' := by
  have hfit : 8 + (key, val).1.len + (key, val).2.len ≤ g.pageSize := hfit
  rw [Log.append]
  rcases hI.writePage hd hfit he with ⟨hfull, rfl, rfl⟩ | ⟨hlt, ⟨left, hw, rfl, rfl⟩ | ⟨hw, rfl, hI'⟩⟩
  · rw [if_pos hfull]
    exact ⟨rfl, hI⟩
  · rw [if_neg hlt.ne, hw]
    exact ⟨rfl, hI⟩
  · rw [if_neg hlt.ne, hw]
    refine ⟨?_, hI'⟩
    by_cases hlast : ps.length + 1 = g.nbPages
    · simp only [if_pos hlast]
      rfl
    · simp only [if_neg hlast]
      rfl

/-! ## The two machines -/

/-- Only the table and the flash count. -/
theorem Inv.withFormatDone (hI : Inv g h₀ ps s) (done : ℤ) : Inv g h₀ ps { s with formatDone := done } :=
  ⟨⟨hI.le, hI.used, hI.valid, hI.cursor, hI.readOnly⟩, hI.fits, hI.mtd⟩

section Machines
variable (hd : d.Clean)
include hd

theorem Holds.format (hH : Holds g s ps) :
    Agree (Holds g) (serve g s (d, .format)) (Log.serve g ps (d, .format)) := by
  obtain ⟨h₀, hb, hI⟩ := hH
  rw [serve, Log.serve]
  cases hres : d.eraseResult with
  | refused blocks =>
    have hleft := hd.erase
    rw [hres, EraseResult.left] at hleft
    rw [Vanilla.format, hres, hleft]
    exact .ok _ ⟨h₀, hb, hI.withFormatDone 0⟩
  | failed blocks =>
    have hleft := hd.erase
    rw [hres, EraseResult.left] at hleft
    rw [Vanilla.format, hres, hleft]
    exact .ok _ ⟨h₀, hb, hI.withFormatDone (-1)⟩
  | done =>
    have he : Vanilla.format g d s = (0, (Vanilla.format g d s).2) := by rw [Vanilla.format, hres]
    rw [he, if_pos rfl]
    exact .ok _ ⟨_, blank_format he, inv_format he⟩

theorem Holds.set (hH : Holds g s ps) :
    Agree (Holds g) (serve g s (d, .call (.set key val))) (Log.serve g ps (d, .call (.set key val))) := by
  obtain ⟨h₀, hb, hI⟩ := hH
  rw [serve, Log.serve, exec, setKeyval, Log.set]
  by_cases hbig : g.pageSize < key.len + val.len + 8
  · rw [if_pos hbig, if_pos hbig]
    exact .ok _ ⟨h₀, hb, hI⟩
  · rw [if_neg hbig, if_neg hbig, hI.getKeyval_eq_lookup hb]
    cases hfound : Log.lookup g d key ps.zipIdx with
    | error f => exact .error f
    | ok r =>
      obtain ⟨found, bytes⟩ := r
      dsimp only
      by_cases hpos : 0 ≤ found
      · rw [if_pos hpos, if_pos hpos]
        exact .ok _ ⟨h₀, hb, hI⟩
      · rw [if_neg hpos, if_neg hpos]
        obtain ⟨ret, t, hw⟩ : ∃ ret t,
          writePage g d (cursorPage g s) (record g key val) s = (ret, t) := ⟨_, _, rfl⟩
        obtain ⟨hcode, hI'⟩ := hI.writePage_append hd (by omega) hw
        rw [hw]
        dsimp only [Except.map]
        rw [hcode]
        exact .ok _ ⟨h₀, hb, hI'⟩

omit hd in
theorem Holds.get (hH : Holds g s ps) :
    Agree (Holds g) (serve g s (d, .call (.get key))) (Log.serve g ps (d, .call (.get key))) := by
  obtain ⟨h₀, hb, hI⟩ := hH
  rw [serve, Log.serve, exec, hI.getKeyval_eq_lookup hb]
  cases Log.lookup g d key ps.zipIdx with
  | error f => exact .error f
  | ok r => exact .ok _ ⟨h₀, hb, hI⟩

/-- A request is answered alike, and leaves the pairs of the log. -/
theorem Holds.serve (hH : Holds g s ps) (q : Request) :
    Agree (Holds g) (Vanilla.serve g s (d, q)) (Log.serve g ps (d, q)) := by
  cases q with
  | format => exact hH.format hd
  | call c =>
    cases c with
    | set key val => exact hH.set hd
    | get key => exact hH.get

end Machines

theorem Holds.answers_eq (hH : Holds g s ps) {is : List (Driver × Request)} (hc : ∀ i ∈ is, i.1.Clean) :
    answers (Vanilla.serve g) is s = answers (Log.serve g) is ps :=
  Stepwise.answers_eq (R := Holds g) (P := fun i => i.1.Clean) (fun _ _ i hi hH => Holds.serve hi hH i.2) hc hH

/-- From a format on the store answers every sequence of requests as the log does, whatever the driver answers, if its
errors leave the flash as it was. -/
theorem store_is_log {t s₀ : Config} (hf : format g d t = (0, s₀)) {is : List (Driver × Request)}
    (hc : ∀ i ∈ is, i.1.Clean) : answers (serve g) is s₀ = answers (Log.serve g) is [] :=
  Holds.answers_eq ⟨_, blank_format hf, inv_format hf⟩ hc

/-- Reading fails while "a" is looked up, so it is stored twice; the store is formatted when it is full. -/
def fillAndFormat : List (Driver × Request) :=
  [(.ideal, .call (.set (.ofBytes [97]) (.ofBytes [98]))),
    (⟨.done, .done, fun _ => false⟩, .call (.set (.ofBytes [97]) (.ofBytes [99]))),
    (.ideal, .call (.get (.ofBytes [97]))), (.stuck, .call (.set (.ofBytes [100]) (.ofBytes []))),
    (.ideal, .call (.set (.ofBytes [101]) (.ofBytes []))), (.ideal, .call (.set (.ofBytes [102]) (.ofBytes []))),
    (.ideal, .call (.set (.ofBytes [103]) (.ofBytes []))), (⟨.failed [], .done, fun _ => true⟩, .format),
    (.ideal, .format), (.ideal, .call (.get (.ofBytes [97])))]

theorem store_is_log_twice : answers (serve tinyGeometry) fillAndFormat (format tinyGeometry .ideal (.blank [])).2 =
    answers (Log.serve tinyGeometry) fillAndFormat [] :=
  store_is_log (d := .ideal) (t := .blank []) rfl (by decide)

/-! ## Mounting -/

/-- A request that returns. -/
def Serves (g : Geometry) (s : Config) (e : (Driver × Request) × Result) (s' : Config) : Prop :=
  serve g s e.1 = .ok (e.2, s')

theorem Holds.step {e : (Driver × Request) × Result} (hH : Holds g s ps) (hd : e.1.1.Clean) (he : Serves g s e s') :
    ∃ ps', Holds g s' ps' := by
  have hagree := hH.serve hd e.1.2
  rw [he] at hagree
  generalize Log.serve g ps e.1 = y at hagree
  cases hagree with
  | ok o h => exact ⟨_, h⟩

/-- The mounted store reads the pages of the pairs. -/
theorem Marked.validPages_eq {s₀ : Config} {n : ℕ} (hM : Marked g s₀ n s) : validPages g s = List.range n :=
  validPages_eq_range hM.le (fun b hb hst => not_lt.mp fun hlt => hst ((hM.used b hb).mpr hlt)) hM.valid

/-- A full store that is mounted is as before. -/
theorem Marked.inv_full {t : Config} (hI : Inv g h₀ ps s) (hfull : ps.length = g.nbPages)
    (hM : Marked g (.blank s.mtd) ps.length t) : Inv g h₀ ps t where
  le := hI.le
  fits := hI.fits
  mtd := hM.mtd.trans hI.mtd
  used b hb := by
    have hlt : b * g.pagesPerBlock < ps.length := by
      have hpage := @Geometry.page_lt g b 0 hb g.pagesPerBlock_pos
      omega
    have hle : b ≤ ps.length / g.pagesPerBlock := (Nat.le_div_iff_mul_le g.pagesPerBlock_pos).mpr hlt.le
    exact iff_of_true ((hM.used b hb).mpr hlt) hle
  valid := hM.valid
  cursor hlt := absurd hlt (by omega)
  readOnly := hM.readOnly

/-- A mount after any sequence of requests behind a format whose errors leave the flash as it was: every lookup gives
what it gave before, and a full store goes on as before. -/
theorem mount_keeps_log {d' : Driver} {t s₀ m : Config} {es : List ((Driver × Request) × Result)}
    (hf : format g d t = (0, s₀)) (hr : Run (Serves g) s₀ es s) (hc : ∀ e ∈ es, e.1.1.Clean)
    (hm : initConfig g d' (.blank s.mtd) = .ok (0, m)) :
    (∀ d key, getKeyval g d key m = getKeyval g d key s) ∧
      (s.readOnly = true → ∀ is : List (Driver × Request), (∀ i ∈ is, i.1.Clean) →
        answers (serve g) is m = answers (serve g) is s) := by
  have hstart : ∃ ps, Holds g s₀ ps := ⟨[], _, blank_format hf, inv_format hf⟩
  have hend := (hr.of_mem hc).invariant (I := fun s => ∃ ps, Holds g s ps)
    (fun _ _ _ hH he => hH.elim fun _ h => h.step he.1 he.2) hstart
  obtain ⟨ps, h₀, hb, hI⟩ := hend
  have hM : Marked g (.blank s.mtd) ps.length m := initConfig_spec (hI.filled hb (pageSize_of_mounted hm)) hm
  have hmtd : m.mtd = s.mtd := hM.mtd
  refine ⟨fun d key => ?_, fun hro is hc => ?_⟩
  · rw [getKeyval, getKeyval, hmtd, hM.validPages_eq, hI.validPages_eq, List.zipIdx_map_snd, List.range_eq_range']
  · have hsame : Holds g m ps := ⟨h₀, hb, hM.inv_full hI (hI.readOnly.mp hro)⟩
    have hold : Holds g s ps := ⟨h₀, hb, hI⟩
    rw [hsame.answers_eq hc, hold.answers_eq hc]

/-- One pair fills the flash of one page. -/
theorem mount_keeps_log_full : ∃ s m, s.readOnly = true ∧
    (∀ d key, getKeyval onePage d key m = getKeyval onePage d key s) ∧
      ∀ is : List (Driver × Request), (∀ i ∈ is, i.1.Clean) →
        answers (serve onePage) is m = answers (serve onePage) is s := by
  obtain ⟨s, hs, hro, m, hm⟩ : ∃ s, serve onePage (format onePage .ideal (.blank [])).2
      (.ideal, .call (.set (.ofBytes [97]) (.ofBytes []))) = .ok (⟨-3, []⟩, s) ∧ s.readOnly = true ∧
      ∃ m, initConfig onePage .ideal (.blank s.mtd) = .ok (0, m) := ⟨_, rfl, rfl, _, rfl⟩
  have hrun : Run (Serves onePage) (format onePage .ideal (.blank [])).2
    [((.ideal, .call (.set (.ofBytes [97]) (.ofBytes []))), ⟨-3, []⟩)] s := .cons hs (.nil s)
  obtain ⟨hget, hall⟩ := mount_keeps_log (d := .ideal) (t := .blank []) rfl hrun (by decide) hm
  exact ⟨s, m, hro, hget, hall hro⟩

end LkpProjects.Vanilla
