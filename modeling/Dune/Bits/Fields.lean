import Mathlib

/-!
# Integers packed into the fields of a word

`put size shift x` has the low `size` bits of `x` in the field that starts at bit `shift`, and
`field size shift` reads a field. A word is made with `|||` from fields that do not overlap: reading
one of them gives what was put there, the others read as zero.
-/

namespace Dune.Bits

open BitVec

variable {w size shift : Nat}

/-- The word whose low `size` bits are set. -/
def mask (w size : Nat) : BitVec w := (1#w <<< size) - 1#w

/-- The low bits of `x`, moved to the field at `shift`. -/
def put (w size shift : Nat) (x : Int) : BitVec w := (BitVec.ofInt w x &&& mask w size) <<< shift

/-- The bits of the field at `shift`. -/
def bits (size shift : Nat) (t : BitVec w) : BitVec w := (t >>> shift) &&& mask w size

/-- The field at `shift`, as an integer. -/
def field (size shift : Nat) (t : BitVec w) : Int := (bits size shift t).toNat

def Fits (size : Nat) (x : Int) : Prop := 0 ≤ x ∧ x < 2 ^ size

theorem toNat_mask (h : size < w) : (mask w size).toNat = 2 ^ size - 1 := by
  have hone : (1 : Nat) < 2 ^ w := Nat.one_lt_two_pow (by omega)
  have hpow : 2 ^ size < 2 ^ w := Nat.pow_lt_pow_right (by decide) h
  have hpos : 0 < 2 ^ size := Nat.two_pow_pos size
  rw [mask, toNat_sub, toNat_shiftLeft, toNat_ofNat, Nat.mod_eq_of_lt hone,
    Nat.one_shiftLeft, Nat.mod_eq_of_lt hpow]
  have hsum : 2 ^ w - 1 + 2 ^ size = 2 ^ size - 1 + 2 ^ w := by omega
  rw [hsum, Nat.add_mod_right, Nat.mod_eq_of_lt (by omega)]

theorem getLsbD_mask (h : size < w) (i : Nat) : (mask w size).getLsbD i = decide (i < size) := by
  rw [getLsbD, toNat_mask h, Nat.testBit_two_pow_sub_one]

theorem bits_or (a b : BitVec w) :
    bits size shift (a ||| b) = bits size shift a ||| bits size shift b := by
  ext i hi
  simp [bits, Bool.and_or_distrib_right]

section

variable (h : size < w)
include h

/-- A field reads what was put there. -/
theorem bits_put (hfit : shift + size ≤ w) (x : Int) :
    bits size shift (put w size shift x) = BitVec.ofInt w x &&& mask w size := by
  apply eq_of_getLsbD_eq
  intro i hi
  simp only [bits, put, getLsbD_and, getLsbD_ushiftRight, getLsbD_shiftLeft,
    getLsbD_mask h]
  by_cases hsize : i < size
  · have hw : shift + i < w := by omega
    simp [hsize, hw]
  · simp [hsize]

theorem bits_put_other {shift' : Nat} (hother : shift + size ≤ shift' ∨ shift' + size ≤ shift)
    (x : Int) : bits size shift (put w size shift' x) = 0#w := by
  apply eq_of_getLsbD_eq
  intro i hi
  simp only [bits, put, getLsbD_and, getLsbD_ushiftRight, getLsbD_shiftLeft,
    getLsbD_mask h, getLsbD_zero]
  by_cases hsize : i < size
  · rcases hother with hlow | hhigh
    · have hlt : shift + i < shift' := by omega
      simp [hlt]
    · have hge : ¬shift + i - shift' < size := by omega
      simp [hge]
  · simp [hsize]

theorem field_put (hfit : shift + size ≤ w) {x : Int} (hx : Fits size x) :
    field size shift (put w size shift x) = x := by
  have hpow : 2 ^ size < 2 ^ w := Nat.pow_lt_pow_right (by decide) h
  obtain ⟨n, rfl⟩ := Int.eq_ofNat_of_zero_le hx.1
  have hn : n < 2 ^ size := by exact_mod_cast hx.2
  rw [field, bits_put h hfit, toNat_and, toNat_mask h, toNat_ofInt,
    Nat.and_two_pow_sub_one_eq_mod]
  rw [Int.emod_eq_of_lt (Int.natCast_nonneg n) (by exact_mod_cast hn.trans hpow), Int.toNat_natCast,
    Nat.mod_eq_of_lt hn]

theorem put_field (t : BitVec w) :
    put w size shift (field size shift t) = bits size shift t <<< shift := by
  have hofInt : BitVec.ofInt w (field size shift t) = bits size shift t := by
    rw [field, BitVec.ofInt_natCast, BitVec.ofNat_toNat, BitVec.setWidth_eq]
  rw [put, hofInt]
  congr 1
  apply eq_of_getLsbD_eq
  intro i hi
  simp only [bits, getLsbD_and, getLsbD_mask h]
  by_cases hsize : i < size <;> simp [hsize]

theorem field_fits (t : BitVec w) : Fits size (field size shift t) := by
  refine ⟨Int.natCast_nonneg _, ?_⟩
  have hlt : (bits size shift t).toNat < 2 ^ size := by
    rw [bits, toNat_and, toNat_mask h, Nat.and_two_pow_sub_one_eq_mod]
    exact Nat.mod_lt _ (Nat.two_pow_pos size)
  rw [field]
  exact_mod_cast hlt

end

theorem field_or_left {a b : BitVec w} (hb : bits size shift b = 0#w) :
    field size shift (a ||| b) = field size shift a := by
  rw [field, bits_or, hb, or_zero, field]

theorem field_or_right {a b : BitVec w} (ha : bits size shift a = 0#w) :
    field size shift (a ||| b) = field size shift b := by
  rw [field, bits_or, ha, zero_or, field]

end Dune.Bits
