import Mathlib.Data.Int.ModEq
import Mathlib.Tactic.Ring

/-!
# The conversion of wide integers to `int`

An integer that does not fit into 32 bits is converted by taking its
residue modulo `2 ^ 32` between `-2 ^ 31` and `2 ^ 31`.  The conversion
keeps the integers that fit, and it takes two integers for one exactly when
they are congruent.  It is therefore one-to-one on any range of `2 ^ 32`
integers, and on no larger one.

Converted to an unsigned integer, an `int` below zero becomes a very large
number.
-/

namespace MQSSPasses.General.IntConversion

/-- The number of values of an `int`. -/
def intRange : ℕ := 4294967296

/-- The conversion of a 64-bit integer to an `int`. -/
def toInt (value : ℤ) : ℤ :=
  Int.bmod value intRange

theorem toInt_eq_iff {first second : ℤ} :
    toInt first = toInt second ↔ first ≡ second [ZMOD intRange] := by
  constructor
  · intro same
    have residues := congrArg (· % (intRange : ℤ)) same
    simp only [toInt, Int.bmod_emod] at residues
    exact residues
  · intro congruent
    exact Int.bmod_eq_bmod_iff_bmod_sub_eq_zero.mpr
      (Int.bmod_eq_zero_of_dvd
        (Int.modEq_iff_dvd.mp congruent.symm))

/-- An integer that fits is kept. -/
theorem toInt_of_fits {value : ℤ} (lower : -2147483648 ≤ value)
    (upper : value < 2147483648) : toInt value = value := by
  refine Int.bmod_eq_of_le ?_ ?_
  · simpa [intRange] using lower
  · simpa [intRange] using upper

theorem toInt_zero : toInt 0 = 0 :=
  toInt_of_fits (by omega) (by omega)

/-- What the conversion yields is an `int`. -/
theorem toInt_fits (value : ℤ) :
    -2147483648 ≤ toInt value ∧ toInt value < 2147483648 := by
  have positive : 0 < intRange := by decide
  have lower := Int.le_bmod (x := value) positive
  have upper := Int.bmod_lt (x := value) positive
  simp only [intRange] at lower upper
  rw [toInt, intRange]
  omega

/-- Natural numbers below the range are told apart. -/
theorem toInt_injOn {first second : ℕ} (firstFits : first < intRange)
    (secondFits : second < intRange)
    (same : toInt first = toInt second) : first = second := by
  have congruent := Int.natCast_modEq_iff.mp (toInt_eq_iff.mp same)
  exact congruent.eq_of_lt_of_lt firstFits secondFits

/-! ## Unsigned integers -/

/-- The conversion to an unsigned integer of 32 bits. -/
def toUnsigned (value : ℤ) : ℕ :=
  (value % intRange).toNat

theorem toUnsigned_toInt (value : ℤ) :
    toUnsigned (toInt value) = toUnsigned value := by
  rw [toUnsigned, toInt, Int.bmod_emod, toUnsigned]

/-- The conversion of an `int` to an unsigned integer of 64 bits. -/
def toSize (value : ℤ) : ℕ :=
  (value % 18446744073709551616).toNat

theorem toSize_of_fits {size : ℕ} (fits : size < 2147483648) :
    toSize size = size := by
  rw [toSize]
  omega

end MQSSPasses.General.IntConversion
