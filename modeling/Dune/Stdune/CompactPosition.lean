import Dune.Bits.Fields
import Dune.Stdune.Loc

/-!
# Compact positions

A position without its file name is packed into three fields of 21 bits, and a location on one line
into four fields of 15 bits, of the 63 bits of an integer. `of_loc` chooses an encoding in which
every field fits.
-/

namespace Dune.Stdune

open Dune.Bits

def Position.isFileOnly (p : Position) : Bool := p.lnum = 1 && p.cnum = 0 && p.bol = 0

def Loc.isFileOnly (l : Loc) : Bool :=
  l.start.fname = l.stop.fname && l.start.isFileOnly && l.stop.isFileOnly

abbrev CompactPosition := BitVec 63

namespace CompactPosition

/-- The range check of both modules, for fields of `size` bits. -/
def test (size : Nat) (int : Int) : Bool := 0 ≤ int && int ≤ (mask 63 size).toInt

theorem test_iff {size : Nat} (hsize : size < 62) {x : Int} : test size x = true ↔ Fits size x := by
  have hmask : (mask 63 size).toInt = 2 ^ size - 1 := by
    have hnat : (mask 63 size).toNat = 2 ^ size - 1 := toNat_mask (by omega)
    have hlt : 2 ^ size < 2 ^ 62 := Nat.pow_lt_pow_right (by decide) hsize
    have hpos : 0 < 2 ^ size := Nat.two_pow_pos size
    rw [BitVec.toInt_eq_toNat_of_lt (by rw [hnat]; omega), hnat]
    push_cast [Nat.cast_sub (Nat.one_le_iff_ne_zero.mpr hpos.ne')]
    rfl
  simp only [test, hmask, Bool.and_eq_true, decide_eq_true_eq, Fits]
  omega

/-! ## Positions -/

def fieldSize : Nat := 21

def smallEnough (p : Position) : Bool :=
  test fieldSize p.bol && test fieldSize p.cnum && test fieldSize p.lnum

def ofPosition (p : Position) : CompactPosition :=
  put 63 fieldSize 0 p.bol ||| put 63 fieldSize fieldSize p.lnum |||
    put 63 fieldSize (2 * fieldSize) p.cnum

section

variable (t : CompactPosition)

def bol : Int := field fieldSize 0 t

def lnum : Int := field fieldSize fieldSize t

def cnum : Int := field fieldSize (2 * fieldSize) t

def toPosition (fname : String) : Position := ⟨fname, lnum t, bol t, cnum t⟩

theorem toPosition_ofPosition {p : Position} (h : smallEnough p = true) :
    toPosition (ofPosition p) p.fname = p := by
  have hsize : fieldSize < 62 := by decide
  simp only [smallEnough, Bool.and_eq_true, test_iff hsize] at h
  obtain ⟨⟨hbol, hcnum⟩, hlnum⟩ := h
  have hother {s s' : Nat} (hss : s + fieldSize ≤ s' ∨ s' + fieldSize ≤ s) (x : Int) :
      bits fieldSize s (put 63 fieldSize s' x) = 0 := bits_put_other (by decide) hss x
  have hb : bol (ofPosition p) = p.bol := by
    rw [bol, ofPosition, field_or_left (hother (by decide) _), field_or_left (hother (by decide) _)]
    exact field_put (by decide) (by decide) hbol
  have hl : lnum (ofPosition p) = p.lnum := by
    rw [lnum, ofPosition, field_or_left (hother (by decide) _),
      field_or_right (hother (by decide) _)]
    exact field_put (by decide) (by decide) hlnum
  have hc : cnum (ofPosition p) = p.cnum := by
    have hrest : bits fieldSize (2 * fieldSize)
        (put 63 fieldSize 0 p.bol ||| put 63 fieldSize fieldSize p.lnum) = 0 := by
      rw [bits_or, hother (by decide), hother (by decide)]
      rfl
    rw [cnum, ofPosition, field_or_right hrest]
    exact field_put (by decide) (by decide) hcnum
  rw [toPosition, hb, hl, hc]

theorem smallEnough_toPosition (fname : String) : smallEnough (toPosition t fname) = true := by
  have hsize : fieldSize < 62 := by decide
  simp only [smallEnough, Bool.and_eq_true, test_iff hsize]
  exact ⟨⟨field_fits (by decide) t, field_fits (by decide) t⟩, field_fits (by decide) t⟩

/-- The three fields are all the bits of the integer. -/
theorem ofPosition_toPosition (fname : String) : ofPosition (toPosition t fname) = t := by
  have hsize : fieldSize < 63 := by decide
  have hmask (i : Nat) : (mask 63 21).getLsbD i = decide (i < 21) := getLsbD_mask hsize i
  simp only [ofPosition, toPosition, bol, lnum, cnum, put_field hsize]
  apply BitVec.eq_of_getLsbD_eq
  intro i hi
  simp only [bits, BitVec.getLsbD_or, BitVec.getLsbD_shiftLeft, BitVec.getLsbD_and,
    BitVec.getLsbD_ushiftRight, fieldSize, hmask]
  by_cases h21 : i < 21
  · simp [h21, hi, show i < 42 by omega]
  · by_cases h42 : i < 42
    · simp [h21, hi, h42, show i - 21 < 21 by omega, show 21 + (i - 21) = i by omega]
    · simp [h21, hi, h42, show ¬i - 21 < 21 by omega, show i - 42 < 21 by omega,
        show 42 + (i - 42) = i by omega]

end

end CompactPosition

/-! ## Locations on one line -/

abbrev SameLineLoc := BitVec 63

namespace SameLineLoc

def fieldSize : Nat := 15

def create (bol lnum startCnum stopCnum : Int) : SameLineLoc :=
  put 63 fieldSize 0 bol ||| put 63 fieldSize fieldSize lnum |||
    put 63 fieldSize (2 * fieldSize) startCnum ||| put 63 fieldSize (3 * fieldSize) stopCnum

variable (t : SameLineLoc)

def bol : Int := field fieldSize 0 t

def lnum : Int := field fieldSize fieldSize t

def startCnum : Int := field fieldSize (2 * fieldSize) t

def stopCnum : Int := field fieldSize (3 * fieldSize) t

def setStartToStop : SameLineLoc :=
  create (bol t) (lnum t) (stopCnum t) (stopCnum t)

def smallEnough (int : Int) : Bool := CompactPosition.test fieldSize int

def toLoc (fname : String) : Loc :=
  let start : Position := ⟨fname, lnum t, bol t, startCnum t⟩
  ⟨start, { start with cnum := stopCnum t }⟩

theorem toLoc_create {b l c c' : Int} (hb : Fits fieldSize b) (hl : Fits fieldSize l)
    (hc : Fits fieldSize c) (hc' : Fits fieldSize c') (fname : String) :
    toLoc (create b l c c') fname = ⟨⟨fname, l, b, c⟩, ⟨fname, l, b, c'⟩⟩ := by
  have hother {s s' : Nat} (hss : s + fieldSize ≤ s' ∨ s' + fieldSize ≤ s) (x : Int) :
      bits fieldSize s (put 63 fieldSize s' x) = 0 := bits_put_other (by decide) hss x
  have hbol : bol (create b l c c') = b := by
    rw [bol, create, field_or_left (hother (by decide) _), field_or_left (hother (by decide) _),
      field_or_left (hother (by decide) _)]
    exact field_put (by decide) (by decide) hb
  have hlnum : lnum (create b l c c') = l := by
    rw [lnum, create, field_or_left (hother (by decide) _), field_or_left (hother (by decide) _),
      field_or_right (hother (by decide) _)]
    exact field_put (by decide) (by decide) hl
  have hstart : startCnum (create b l c c') = c := by
    have hrest : bits fieldSize (2 * fieldSize)
        (put 63 fieldSize 0 b ||| put 63 fieldSize fieldSize l) = 0 := by
      rw [bits_or, hother (by decide), hother (by decide)]
      rfl
    rw [startCnum, create, field_or_left (hother (by decide) _), field_or_right hrest]
    exact field_put (by decide) (by decide) hc
  have hstop : stopCnum (create b l c c') = c' := by
    have hrest : bits fieldSize (3 * fieldSize)
        (put 63 fieldSize 0 b ||| put 63 fieldSize fieldSize l |||
          put 63 fieldSize (2 * fieldSize) c) = 0 := by
      rw [bits_or, bits_or, hother (by decide), hother (by decide), hother (by decide)]
      rfl
    rw [stopCnum, create, field_or_right hrest]
    exact field_put (by decide) (by decide) hc'
  simp only [toLoc, hbol, hlnum, hstart, hstop]

theorem fits_bol : Fits fieldSize (bol t) := field_fits (by decide) t

theorem fits_lnum : Fits fieldSize (lnum t) := field_fits (by decide) t

theorem fits_stopCnum : Fits fieldSize (stopCnum t) := field_fits (by decide) t

theorem smallEnough_iff {x : Int} : smallEnough x = true ↔ Fits fieldSize x :=
  CompactPosition.test_iff (by decide)

end SameLineLoc

namespace CompactPosition

inductive OfLoc where
  | sameLine (loc : SameLineLoc)
  | loc (start stop : CompactPosition)
  | locDoesNotFit
deriving DecidableEq, Repr

def tryLoc (l : Loc) : OfLoc :=
  if smallEnough l.start && smallEnough l.stop then .loc (ofPosition l.start) (ofPosition l.stop)
  else .locDoesNotFit

/-- `of_loc` on integers of 63 bits. -/
def ofLoc63 (l : Loc) : OfLoc :=
  if l.start.fname ≠ l.stop.fname then .locDoesNotFit
  else if l.start.bol = l.stop.bol ∧ l.start.lnum = l.stop.lnum then
    if SameLineLoc.smallEnough l.start.bol && SameLineLoc.smallEnough l.start.lnum &&
        SameLineLoc.smallEnough l.start.cnum && SameLineLoc.smallEnough l.stop.cnum then
      .sameLine (SameLineLoc.create l.start.bol l.start.lnum l.start.cnum l.stop.cnum)
    else tryLoc l
  else tryLoc l

/-- `of_loc`, where `intSize` is `Sys.int_size`. -/
def ofLoc (intSize : Nat) (l : Loc) : OfLoc := if intSize = 63 then ofLoc63 l else .locDoesNotFit

end CompactPosition

end Dune.Stdune
