import Dune.Stdune.CompactPosition

/-!
# Compressed locations

`Loc.t` has one constructor for each encoding of a pair of positions, and locations are compared
with the polymorphic equality. `of_lexbuf_loc` chooses the encoding from the positions; only
`set_start_to_stop` keeps the encoding of its argument. `Op.stale` says where that is another one
than `of_lexbuf_loc` would choose.
-/

namespace Dune.Stdune

open Dune.Bits

/-- `Loc.t`. -/
inductive Loc0 where
  | noLoc
  | inFile (fname : String)
  | lexbufLoc (loc : Loc)
  | sameFile (fname : String) (start stop : CompactPosition)
  | sameLine (fname : String) (loc : SameLineLoc)
deriving DecidableEq, Repr

namespace Loc0

def toLexbufLoc : Loc0 → Loc
  | .noLoc => .none
  | .lexbufLoc loc => loc
  | .inFile fname => .inFile fname
  | .sameFile fname start stop => ⟨start.toPosition fname, stop.toPosition fname⟩
  | .sameLine fname loc => SameLineLoc.toLoc loc fname

/-- `equal`, which is the polymorphic equality. -/
def equal (a b : Loc0) : Bool := a = b

-- `Sys.int_size`.
variable (intSize : Nat)

/-- The location in the encoding that `Compact_position.of_loc` has chosen. -/
def ofCompact (loc : Loc) : CompactPosition.OfLoc → Loc0
  | .sameLine l => .sameLine loc.start.fname l
  | .loc start stop => .sameFile loc.start.fname start stop
  | .locDoesNotFit => .lexbufLoc loc

def ofLexbufLoc (loc : Loc) : Loc0 :=
  if Loc.none = loc then .noLoc
  else if loc.isFileOnly then .inFile loc.start.fname
  else ofCompact loc (CompactPosition.ofLoc intSize loc)

def setStop (t : Loc0) (stop : Position) : Loc0 := ofLexbufLoc intSize { t.toLexbufLoc with stop }

def setStart (t : Loc0) (start : Position) : Loc0 :=
  ofLexbufLoc intSize { t.toLexbufLoc with start }

def setStartToStop : Loc0 → Loc0
  | .noLoc => .noLoc
  | .inFile fname => .inFile fname
  | .lexbufLoc loc => ofLexbufLoc intSize { loc with start := loc.stop }
  | .sameFile fname _ stop => .sameFile fname stop stop
  | .sameLine fname loc => .sameLine fname (SameLineLoc.setStartToStop loc)

end Loc0

theorem Position.isFileOnly_iff {p : Position} : p.isFileOnly = true ↔ p = .inFile p.fname := by
  obtain ⟨fname, lnum, bol, cnum⟩ := p
  simp only [isFileOnly, inFile, Bool.and_eq_true, decide_eq_true_eq, Position.mk.injEq, true_and]
  tauto

theorem Loc.isFileOnly_iff {l : Loc} : l.isFileOnly = true ↔ l = .inFile l.start.fname := by
  obtain ⟨start, stop⟩ := l
  simp only [isFileOnly, inFile, Bool.and_eq_true, decide_eq_true_eq, Position.isFileOnly_iff,
    Loc.mk.injEq]
  constructor
  · rintro ⟨⟨hfname, hstart⟩, hstop⟩
    exact ⟨hstart, hfname ▸ hstop⟩
  · rintro ⟨hstart, hstop⟩
    refine ⟨⟨?_, hstart⟩, ?_⟩
    · rw [hstop]
      rfl
    · rw [hstop]
      rfl

open SameLineLoc

namespace Loc0

theorem toLexbufLoc_tryLoc {l : Loc} (hfname : l.start.fname = l.stop.fname) :
    toLexbufLoc (ofCompact l (CompactPosition.tryLoc l)) = l := by
  unfold CompactPosition.tryLoc
  split
  · next hsmall =>
    rw [Bool.and_eq_true] at hsmall
    have hstart := CompactPosition.toPosition_ofPosition hsmall.1
    have hstop := CompactPosition.toPosition_ofPosition hsmall.2
    rw [← hfname] at hstop
    simp only [ofCompact, toLexbufLoc, hstart, hstop]
  · rfl

theorem toLexbufLoc_ofLoc63 (l : Loc) :
    toLexbufLoc (ofCompact l (CompactPosition.ofLoc63 l)) = l := by
  unfold CompactPosition.ofLoc63
  split
  · rfl
  · next hfname =>
    have hfname : l.start.fname = l.stop.fname := not_not.mp hfname
    split
    · next hline =>
      split
      · next hsmall =>
        simp only [Bool.and_eq_true, smallEnough_iff] at hsmall
        obtain ⟨⟨⟨hbol, hlnum⟩, hstart⟩, hstop⟩ := hsmall
        obtain ⟨⟨fname, lnum, bol, cnum⟩, ⟨fname', lnum', bol', cnum'⟩⟩ := l
        obtain ⟨rfl, rfl⟩ : bol = bol' ∧ lnum = lnum' := hline
        obtain rfl : fname = fname' := hfname
        exact toLoc_create hbol hlnum hstart hstop fname
      · exact toLexbufLoc_tryLoc hfname
    · exact toLexbufLoc_tryLoc hfname

theorem toLexbufLoc_ofLexbufLoc (intSize : Nat) (l : Loc) :
    toLexbufLoc (ofLexbufLoc intSize l) = l := by
  unfold ofLexbufLoc
  split
  · next h => exact h
  · split
    · next h => exact (Loc.isFileOnly_iff.mp h).symm
    · unfold CompactPosition.ofLoc
      split
      · exact toLexbufLoc_ofLoc63 l
      · rfl

/-! ## Operations -/

/-- A location as the operations build it. -/
inductive Op where
  | ofLexbufLoc (loc : Loc)
  | setStart (t : Op) (start : Position)
  | setStop (t : Op) (stop : Position)
  | setStartToStop (t : Op)
deriving DecidableEq, Repr

variable (intSize : Nat)

def Op.run : Op → Loc0
  | .ofLexbufLoc loc => Loc0.ofLexbufLoc intSize loc
  | .setStart t start => (t.run).setStart intSize start
  | .setStop t stop => (t.run).setStop intSize stop
  | .setStartToStop t => (t.run).setStartToStop intSize

/-- The encodings that `set_start_to_stop` keeps where they are not the smallest ones. -/
inductive Stale where
  | sameFile
  | sameLine
deriving DecidableEq, Repr

/-- What becomes of the encoding when the start is set to the stop: a location with two compact
positions stays one though the stop fits the fields of a location on one line, and a location on one
line stays one though the stop is the start of the file. -/
def stale : Loc0 → Option Stale
  | .sameFile _ _ stop =>
    if smallEnough stop.bol && smallEnough stop.lnum &&
        smallEnough stop.cnum then some .sameFile
    else none
  | .sameLine fname loc =>
    if (toLoc loc fname).stop.isFileOnly then some .sameLine else none
  | _ => none

/-- The location was last changed by `set_start_to_stop` and kept a stale encoding. -/
def Op.stale : Op → Option Stale
  | .setStartToStop t => Loc0.stale (t.run intSize)
  | _ => none

/-- The file name of `Loc.none` is never the one of a whole file. -/
theorem run_ne_inFile_none (e : Op) : e.run intSize ≠ .inFile Loc.none.start.fname := by
  have hof (l : Loc) : Loc0.ofLexbufLoc intSize l ≠ .inFile Loc.none.start.fname := by
    intro h
    have hl := toLexbufLoc_ofLexbufLoc intSize l
    rw [h] at hl
    obtain rfl : Loc.none = l := hl
    simp [Loc0.ofLexbufLoc] at h
  induction e with
  | ofLexbufLoc l => exact hof l
  | setStart t start ih | setStop t stop ih => exact hof _
  | setStartToStop t ih =>
    rw [Op.run]
    cases h : t.run intSize with
    | noLoc => nofun
    | inFile fname =>
      rw [h] at ih
      exact ih
    | lexbufLoc loc => exact hof _
    | sameFile | sameLine => nofun

/-- Compact encodings are used on integers of 63 bits only. -/
theorem intSize_of_ofLexbufLoc {intSize : Nat} {l : Loc} (hsize : intSize ≠ 63) :
    ofLexbufLoc intSize l = .noLoc ∨ (∃ fname, ofLexbufLoc intSize l = .inFile fname) ∨
      ∃ loc, ofLexbufLoc intSize l = .lexbufLoc loc := by
  unfold ofLexbufLoc
  split
  · exact .inl rfl
  · split
    · exact .inr (.inl ⟨_, rfl⟩)
    · rw [CompactPosition.ofLoc, if_neg hsize]
      exact .inr (.inr ⟨l, rfl⟩)

theorem run_of_intSize_ne {intSize : Nat} (hsize : intSize ≠ 63) (e : Op) :
    e.run intSize = .noLoc ∨ (∃ fname, e.run intSize = .inFile fname) ∨
      ∃ loc, e.run intSize = .lexbufLoc loc := by
  induction e with
  | ofLexbufLoc l | setStart t start ih | setStop t stop ih => exact intSize_of_ofLexbufLoc hsize
  | setStartToStop t ih =>
    rw [Op.run]
    obtain h | ⟨fname, h⟩ | ⟨loc, h⟩ := ih
    · exact .inl (by rw [h]; rfl)
    · exact .inr (.inl ⟨fname, by rw [h]; rfl⟩)
    · rw [h]
      exact intSize_of_ofLexbufLoc hsize

/-! ## The encoding after `set_start_to_stop` -/

/-- A location of one position, on integers of 63 bits. -/
theorem ofLexbufLoc_point (p : Position) :
    ofLexbufLoc 63 ⟨p, p⟩ =
      if p = .inFile Loc.none.start.fname then .noLoc
      else if p.isFileOnly then .inFile p.fname
      else if smallEnough p.bol && smallEnough p.lnum &&
          smallEnough p.cnum then
        .sameLine p.fname (create p.bol p.lnum p.cnum p.cnum)
      else ofCompact ⟨p, p⟩ (CompactPosition.tryLoc ⟨p, p⟩) := by
  have hnone : Loc.none = ⟨p, p⟩ ↔ p = .inFile Loc.none.start.fname := by
    constructor
    · intro h
      exact (congrArg Loc.start h).symm
    · intro h
      rw [h]
      rfl
  have hfile : Loc.isFileOnly ⟨p, p⟩ = p.isFileOnly := by simp [Loc.isFileOnly]
  simp only [ofLexbufLoc, hnone, hfile, CompactPosition.ofLoc, CompactPosition.ofLoc63, if_true,
    ne_eq, not_true_eq_false, if_false, and_self, Bool.and_assoc, Bool.and_self]
  split
  · rfl
  · split
    · rfl
    · split <;> rfl

theorem smallEnough_of_isFileOnly {p : Position} (h : p.isFileOnly = true) :
    (smallEnough p.bol && smallEnough p.lnum &&
      smallEnough p.cnum) = true := by
  rw [Position.isFileOnly_iff] at h
  rw [h]
  change (smallEnough 0 && smallEnough 1 && smallEnough 0) = true
  decide

theorem ofLexbufLoc_sameFile (fname : String) (start stop : CompactPosition) :
    ofLexbufLoc 63 (toLexbufLoc (.sameFile fname stop stop)) = .sameFile fname stop stop ↔
      stale (.sameFile fname start stop) = none := by
  have hpoint := ofLexbufLoc_point (stop.toPosition fname)
  have htry : ofCompact ⟨stop.toPosition fname, stop.toPosition fname⟩
      (CompactPosition.tryLoc ⟨stop.toPosition fname, stop.toPosition fname⟩) =
        .sameFile fname stop stop := by
    simp only [CompactPosition.tryLoc, CompactPosition.smallEnough_toPosition, Bool.and_self,
      if_true, CompactPosition.ofPosition_toPosition, ofCompact]
    rfl
  rw [htry] at hpoint
  rw [toLexbufLoc, hpoint, stale]
  by_cases hsmall : (smallEnough stop.bol && smallEnough stop.lnum &&
      smallEnough stop.cnum) = true
  · rw [if_pos hsmall]
    have hsmall' : (smallEnough (stop.toPosition fname).bol &&
        smallEnough (stop.toPosition fname).lnum &&
        smallEnough (stop.toPosition fname).cnum) = true := hsmall
    rw [if_pos hsmall']
    split
    · simp
    · split <;> simp
  · rw [if_neg hsmall]
    have hfile : ¬(stop.toPosition fname).isFileOnly = true :=
      fun h => hsmall (smallEnough_of_isFileOnly h)
    have hnone : stop.toPosition fname ≠ .inFile Loc.none.start.fname :=
      fun h => hfile (Position.isFileOnly_iff.mpr (by rw [h]; rfl))
    rw [if_neg hnone, if_neg hfile, if_neg (by exact hsmall)]
    simp

theorem toLoc_setStartToStop (loc : SameLineLoc) (fname : String) :
    SameLineLoc.toLoc (SameLineLoc.setStartToStop loc) fname =
      ⟨(toLoc loc fname).stop, (toLoc loc fname).stop⟩ :=
  toLoc_create (fits_bol loc) (fits_lnum loc)
    (fits_stopCnum loc) (fits_stopCnum loc) fname

theorem ofLexbufLoc_sameLine (fname : String) (loc : SameLineLoc) :
    ofLexbufLoc 63 (toLexbufLoc (.sameLine fname (SameLineLoc.setStartToStop loc))) =
        .sameLine fname (SameLineLoc.setStartToStop loc) ↔
      stale (.sameLine fname loc) = none := by
  rw [toLexbufLoc, toLoc_setStartToStop, ofLexbufLoc_point, stale]
  have hsmall : (smallEnough (toLoc loc fname).stop.bol &&
      smallEnough (toLoc loc fname).stop.lnum &&
      smallEnough (toLoc loc fname).stop.cnum) = true := by
    simp only [Bool.and_eq_true, smallEnough_iff]
    exact ⟨⟨fits_bol loc, fits_lnum loc⟩, fits_stopCnum loc⟩
  rw [if_pos hsmall]
  split_ifs with hnone hfile hfile
  · simp
  · exact absurd (Position.isFileOnly_iff.mpr (by rw [hnone]; rfl)) hfile
  · simp
  · simp only [iff_true]
    rfl

/-! ## Equality -/

theorem intSize_of_run {intSize : Nat} {e : Op}
    (h : (∃ fname start stop, e.run intSize = .sameFile fname start stop) ∨
      ∃ fname loc, e.run intSize = .sameLine fname loc) : intSize = 63 := by
  by_contra hsize
  obtain h' | ⟨_, h'⟩ | ⟨_, h'⟩ := run_of_intSize_ne hsize e
  all_goals
    rw [h'] at h
    obtain ⟨_, _, _, h⟩ | ⟨_, _, h⟩ := h <;> cases h

/-- A location is stale when `of_lexbuf_loc` would encode its positions differently. -/
theorem ofLexbufLoc_run_iff (e : Op) :
    ofLexbufLoc intSize (toLexbufLoc (e.run intSize)) = e.run intSize ↔ e.stale intSize = none := by
  have hof (l : Loc) : ofLexbufLoc intSize (toLexbufLoc (ofLexbufLoc intSize l)) =
      ofLexbufLoc intSize l ↔ (none : Option Stale) = none := by
    rw [toLexbufLoc_ofLexbufLoc]
    simp
  cases e with
  | ofLexbufLoc l => exact hof l
  | setStart t start | setStop t stop => exact hof _
  | setStartToStop t =>
    rw [Op.stale, Op.run]
    cases h : t.run intSize with
    | noLoc => simp [stale, setStartToStop, toLexbufLoc, ofLexbufLoc]
    | inFile fname =>
      have hne : Loc.none ≠ Loc.inFile fname := by
        intro hnone
        refine run_ne_inFile_none intSize t ?_
        rw [h, show Loc.none.start.fname = fname from congrArg (fun l : Loc => l.start.fname) hnone]
      have hfile : (Loc.inFile fname).isFileOnly = true := Loc.isFileOnly_iff.mpr rfl
      simp only [stale, setStartToStop, toLexbufLoc, ofLexbufLoc, if_neg hne, hfile, if_true,
        iff_true]
      rfl
    | lexbufLoc loc => exact hof _
    | sameFile fname start stop =>
      obtain rfl := intSize_of_run (.inl ⟨_, _, _, h⟩)
      exact ofLexbufLoc_sameFile fname start stop
    | sameLine fname loc =>
      obtain rfl := intSize_of_run (.inr ⟨_, _, h⟩)
      exact ofLexbufLoc_sameLine fname loc

theorem run_of_stale {e : Op} {k : Stale} (h : e.stale intSize = some k) :
    (k = .sameFile ∧ ∃ fname start stop, e.run intSize = .sameFile fname start stop) ∨
      (k = .sameLine ∧ ∃ fname loc,
        e.run intSize = .sameLine fname (SameLineLoc.setStartToStop loc)) := by
  cases e with
  | setStartToStop t =>
    rw [Op.stale] at h
    rw [Op.run]
    cases hrun : t.run intSize with
    | sameFile fname start stop =>
      simp only [hrun, stale] at h
      split at h <;> cases h
      exact .inl ⟨rfl, _, _, _, rfl⟩
    | sameLine fname loc =>
      simp only [hrun, stale] at h
      split at h <;> cases h
      exact .inr ⟨rfl, _, _, rfl⟩
    | noLoc | inFile | lexbufLoc => simp [hrun, stale] at h
  | ofLexbufLoc | setStart | setStop => cases h

/-- Two locations are equal when their positions are and both, or none, are stale. -/
theorem run_eq_iff (e e' : Op) :
    e.run intSize = e'.run intSize ↔
      toLexbufLoc (e.run intSize) = toLexbufLoc (e'.run intSize) ∧
        e.stale intSize = e'.stale intSize := by
  constructor
  · intro h
    refine ⟨by rw [h], ?_⟩
    have hiff := ofLexbufLoc_run_iff intSize e
    rw [h, ofLexbufLoc_run_iff intSize e'] at hiff
    cases hs : e.stale intSize with
    | none => exact (hiff.mpr hs).symm
    | some k =>
      cases hs' : e'.stale intSize with
      | none => simp [hiff.mp hs'] at hs
      | some k' =>
        obtain ⟨rfl, _, _, _, hrun⟩ | ⟨rfl, _, _, hrun⟩ := run_of_stale intSize hs <;>
          obtain ⟨rfl, _, _, _, hrun'⟩ | ⟨rfl, _, _, hrun'⟩ := run_of_stale intSize hs'
        · rfl
        · rw [hrun, hrun'] at h
          cases h
        · rw [hrun, hrun'] at h
          cases h
        · rfl
  · rintro ⟨hloc, hstale⟩
    cases hs : e.stale intSize with
    | none =>
      rw [← (ofLexbufLoc_run_iff intSize e).mpr hs, hloc]
      exact (ofLexbufLoc_run_iff intSize e').mpr (hstale ▸ hs)
    | some k =>
      obtain ⟨rfl, fname, start, stop, hrun⟩ | ⟨rfl, fname, loc, hrun⟩ :=
        run_of_stale intSize hs <;>
        obtain ⟨hk, fname', hrun'⟩ | ⟨hk, fname', hrun'⟩ := run_of_stale intSize (hstale ▸ hs)
      · obtain ⟨start', stop', hrun'⟩ := hrun'
        rw [hrun, hrun'] at hloc ⊢
        have hstart : start.toPosition fname = start'.toPosition fname' := congrArg Loc.start hloc
        have hstop : stop.toPosition fname = stop'.toPosition fname' := congrArg Loc.stop hloc
        obtain rfl : fname = fname' := congrArg Position.fname hstart
        rw [← start.ofPosition_toPosition fname, hstart, ← stop.ofPosition_toPosition fname, hstop,
          start'.ofPosition_toPosition, stop'.ofPosition_toPosition]
      · cases hk
      · cases hk
      · obtain ⟨loc', hrun'⟩ := hrun'
        rw [hrun, hrun'] at hloc ⊢
        simp only [toLexbufLoc, toLoc_setStartToStop] at hloc
        have hfname : fname = fname' := congrArg (fun l : Loc => l.stop.fname) hloc
        have hlnum : lnum loc = lnum loc' :=
          congrArg (fun l : Loc => l.stop.lnum) hloc
        have hbol : bol loc = bol loc' :=
          congrArg (fun l : Loc => l.stop.bol) hloc
        have hcnum : stopCnum loc = stopCnum loc' :=
          congrArg (fun l : Loc => l.stop.cnum) hloc
        rw [hfname, SameLineLoc.setStartToStop, SameLineLoc.setStartToStop, hlnum, hbol, hcnum]

/-- Every pair of positions survives compression. Two locations that the operations have built are
equal exactly when they denote the same positions, unless `set_start_to_stop` has kept a stale
encoding in one of them and not in the other. -/
theorem loc_equal_iff :
    (∀ l, toLexbufLoc (ofLexbufLoc intSize l) = l) ∧
      ∀ e e' : Op,
        ((equal (e.run intSize) (e'.run intSize) = true ↔
            toLexbufLoc (e.run intSize) = toLexbufLoc (e'.run intSize)) ↔
          (toLexbufLoc (e.run intSize) = toLexbufLoc (e'.run intSize) →
            e.stale intSize = e'.stale intSize)) := by
  refine ⟨toLexbufLoc_ofLexbufLoc intSize, fun e e' => ?_⟩
  rw [equal, decide_eq_true_eq, run_eq_iff]
  tauto

/-- The end of a location on two lines, and the same position as a location of its own. -/
theorem loc_equal_stale : let start : Position := ⟨"dune", 1, 0, 0⟩
    let stop : Position := ⟨"dune", 2, 4, 5⟩
    let e : Op := .setStartToStop (.ofLexbufLoc ⟨start, stop⟩)
    let e' : Op := .ofLexbufLoc ⟨stop, stop⟩
    toLexbufLoc (e.run 63) = ⟨stop, stop⟩ ∧ toLexbufLoc (e'.run 63) = ⟨stop, stop⟩ ∧
      equal (e.run 63) (e'.run 63) = false := by
  decide

end Loc0

end Dune.Stdune
