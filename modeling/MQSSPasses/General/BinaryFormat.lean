import Mathlib.Algebra.Order.Floor.Ring
import Mathlib.Data.Int.Log
import Mathlib.Data.Rat.Floor
import Mathlib.RingTheory.Int.Basic
import Mathlib.Tactic.LinearCombination
import Mathlib.Tactic.Linarith
import Mathlib.Tactic.NormNum
import Mathlib.Tactic.Positivity
import Mathlib.Tactic.Ring

/-!
# Binary floating-point formats over the rationals

A format is given by the number of its binary digits, the exponent of its
smallest positive value and the power of two that its values stay below.
`round` takes a rational to the nearest multiple of the last place it has
room for, ties to even, and `convert` is the conversion into the format,
with infinities where the rounded value has no room.

The last section compares a conversion with a modulus.  A number of a wider
format and what it is rounded to in a narrower one are multiples of powers
of two that lie close together, so they never differ by a multiple of a
number with a large odd numerator unless they are equal.
-/

namespace MQSSPasses.General.BinaryFormat

/-! ## Rounding to an integer -/

/-- The nearest integer, and of two nearest ones the even one. -/
def roundHalfEven (value : ℚ) : ℤ :=
  let below := ⌊value⌋
  if value - below < 1 / 2 then below
  else if 1 / 2 < value - below then below + 1
  else if Even below then below
  else below + 1

theorem roundHalfEven_intCast (value : ℤ) :
    roundHalfEven (value : ℚ) = value := by
  simp [roundHalfEven]

/-- The rounding error is at most one half. -/
theorem abs_roundHalfEven_sub (value : ℚ) :
    |(roundHalfEven value : ℚ) - value| ≤ 1 / 2 := by
  have below := Int.floor_le value
  have above := Int.lt_floor_add_one value
  unfold roundHalfEven
  dsimp only
  rw [abs_le]
  split_ifs <;> push_cast <;> constructor <;> linarith

/-- The rounding of a value that is no larger than one half is zero. -/
theorem roundHalfEven_eq_zero_iff {value : ℚ} :
    roundHalfEven value = 0 ↔ |value| ≤ 1 / 2 := by
  constructor
  · intro zero
    have error := abs_roundHalfEven_sub value
    rw [zero, Int.cast_zero, zero_sub, abs_neg] at error
    exact error
  · intro small
    rw [abs_le] at small
    have below := Int.floor_le value
    have above := Int.lt_floor_add_one value
    have floor : ⌊value⌋ = 0 ∨ ⌊value⌋ = -1 := by
      have upper : ⌊value⌋ < 1 := by
        exact_mod_cast show (⌊value⌋ : ℚ) < 1 by linarith
      have lower : -2 < ⌊value⌋ := by
        exact_mod_cast show (-2 : ℚ) < ⌊value⌋ by linarith
      omega
    unfold roundHalfEven
    rcases floor with zero | negative
    · rw [zero]
      simp only [Int.cast_zero, sub_zero]
      split_ifs with less more even
      · rfl
      · linarith
      · rfl
      · exact absurd Even.zero even
    · rw [negative]
      simp only [Int.cast_neg, Int.cast_one, sub_neg_eq_add]
      split_ifs with less more even
      · linarith
      · rfl
      · exact absurd even (by decide)
      · rfl

/-- Rounding stays within a bound that is an integer. -/
theorem abs_roundHalfEven_le {value : ℚ} {bound : ℤ}
    (inside : |value| < bound) : |roundHalfEven value| ≤ bound := by
  have error := abs_roundHalfEven_sub value
  have triangle :=
    abs_add_le ((roundHalfEven value : ℚ) - value) value
  rw [sub_add_cancel] at triangle
  have strict : (|roundHalfEven value| : ℚ) < bound + 1 := by linarith
  rw [← Int.cast_abs] at strict
  have integral : |roundHalfEven value| < bound + 1 := by
    exact_mod_cast strict
  omega

/-! ## Formats -/

/--
The number of binary digits, the exponent of the smallest positive value and
the exponent of the power of two that bounds the values.
-/
structure Format where
  precision : ℕ
  least : ℤ
  top : ℤ
  positive : 0 < precision

/-- The type `float`. -/
def binary32 : Format := ⟨24, -149, 128, by decide⟩

/-- The type `double`. -/
def binary64 : Format := ⟨53, -1074, 1024, by decide⟩

namespace Format

variable (format : Format)

/-- A finite value of the format. -/
def Represents (value : ℚ) : Prop :=
  |value| < 2 ^ format.top ∧
    ∃ significand exponent : ℤ, |significand| < 2 ^ format.precision ∧
      format.least ≤ exponent ∧ value = significand * 2 ^ exponent

/-- The exponent of the last place a value has room for. -/
def place (value : ℚ) : ℤ :=
  max (Int.log 2 |value| + 1 - format.precision) format.least

/-- The nearest multiple of the last place. -/
def round (value : ℚ) : ℚ :=
  roundHalfEven (value / 2 ^ format.place value) *
    2 ^ format.place value

variable {format}

theorem two_zpow_pos (exponent : ℤ) : (0 : ℚ) < 2 ^ exponent :=
  zpow_pos two_pos exponent

theorem least_le_place (value : ℚ) : format.least ≤ format.place value :=
  le_max_right _ _

/-- The rounding error is at most half the last place. -/
theorem abs_round_sub (value : ℚ) :
    |format.round value - value| ≤ 2 ^ (format.place value - 1) := by
  have power := two_zpow_pos (format.place value)
  have error := abs_roundHalfEven_sub (value / 2 ^ format.place value)
  have scaled :
      format.round value - value =
        (roundHalfEven (value / 2 ^ format.place value) -
            value / 2 ^ format.place value) *
          2 ^ format.place value := by
    rw [sub_mul, div_mul_cancel₀ _ power.ne']
    rfl
  rw [scaled, abs_mul, abs_of_pos power, zpow_sub_one₀ two_ne_zero]
  calc
    _ ≤ 1 / 2 * (2 : ℚ) ^ format.place value :=
      mul_le_mul_of_nonneg_right error power.le
    _ = 2 ^ format.place value * 2⁻¹ := by ring

/-- The rounding error of values below a power of two. -/
theorem abs_round_sub_le {value : ℚ} {bound : ℤ}
    (below : |value| < 2 ^ bound)
    (normal : format.least ≤ bound - format.precision) :
    |format.round value - value| ≤ 2 ^ (bound - format.precision - 1) := by
  by_cases zero : value = 0
  · have exact : format.round 0 = 0 := by
      rw [round, zero_div]
      simp [roundHalfEven]
    rw [zero, exact, sub_zero, abs_zero]
    exact (two_zpow_pos _).le
  · refine (abs_round_sub value).trans
      (zpow_le_zpow_right₀ one_le_two (sub_le_sub_right ?_ 1))
    have log :=
      (Int.lt_zpow_iff_log_lt one_lt_two (abs_pos.mpr zero)).mp
        (by exact_mod_cast below)
    unfold place
    omega

/-- A value of a format is a multiple of its last place. -/
theorem Represents.eq_mul {value : ℚ} (represents : format.Represents value)
    (nonzero : value ≠ 0) {place : ℤ}
    (within : place ≤ Int.log 2 |value| + 1 - format.precision ∨
      place ≤ format.least) :
    ∃ factor : ℤ, value = factor * 2 ^ place := by
  rcases represents.2 with ⟨significand, exponent, digits, least, equal⟩
  have low : place ≤ exponent := by
    rcases within with normal | subnormal
    · have size : |value| < 2 ^ (exponent + format.precision) := by
        rw [equal, abs_mul, abs_of_pos (two_zpow_pos exponent), add_comm,
          zpow_add₀ two_ne_zero, zpow_natCast, ← Int.cast_abs]
        exact mul_lt_mul_of_pos_right (by exact_mod_cast digits)
          (two_zpow_pos exponent)
      have log :=
        (Int.lt_zpow_iff_log_lt one_lt_two (abs_pos.mpr nonzero)).mp
          (by exact_mod_cast size)
      omega
    · exact subnormal.trans least
  have split : (exponent - place).toNat = exponent - place :=
    Int.toNat_of_nonneg (by omega)
  refine ⟨significand * 2 ^ (exponent - place).toNat, ?_⟩
  rw [equal, Int.cast_mul, Int.cast_pow, Int.cast_ofNat, mul_assoc,
    ← zpow_natCast, split, ← zpow_add₀ two_ne_zero, sub_add_cancel]

/-- A value of the format is rounded to itself. -/
theorem Represents.round_eq {value : ℚ}
    (represents : format.Represents value) :
    format.round value = value := by
  by_cases zero : value = 0
  · rw [zero, round, zero_div]
    simp [roundHalfEven]
  · have within :
        format.place value ≤
            Int.log 2 |value| + 1 - format.precision ∨
          format.place value ≤ format.least := by
      unfold place
      omega
    rcases represents.eq_mul zero within with ⟨factor, equal⟩
    rw [round]
    have quotient : value / 2 ^ format.place value = factor := by
      rw [div_eq_iff (two_zpow_pos _).ne']
      exact equal
    rw [quotient, roundHalfEven_intCast]
    exact equal.symm

/-- What a value is rounded to is in the format, if there is room for it. -/
theorem represents_round {value : ℚ}
    (room : |format.round value| < 2 ^ format.top) :
    format.Represents (format.round value) := by
  refine ⟨room, ?_⟩
  have inside :
      |value / 2 ^ format.place value| < (2 ^ format.precision : ℤ) := by
    rw [abs_div, abs_of_pos (two_zpow_pos _), div_lt_iff₀ (two_zpow_pos _)]
    have below := Int.lt_zpow_succ_log_self one_lt_two |value|
    refine lt_of_lt_of_le below ?_
    push_cast
    rw [← zpow_natCast, ← zpow_add₀ two_ne_zero]
    apply zpow_le_zpow_right₀ one_le_two
    unfold place
    omega
  have bounded := abs_roundHalfEven_le inside
  rcases bounded.lt_or_eq with less | full
  · exact ⟨_, _, less, least_le_place value, rfl⟩
  · have room : format.least ≤ format.place value + format.precision := by
      have low := @least_le_place format value
      omega
    have unit : (1 : ℤ) < 2 ^ format.precision :=
      one_lt_pow₀ one_lt_two format.positive.ne'
    have power :
        (2 : ℚ) ^ (format.place value + format.precision) =
          2 ^ format.precision * 2 ^ format.place value := by
      rw [add_comm, zpow_add₀ two_ne_zero, zpow_natCast]
    rcases abs_eq (by positivity) |>.mp full with positive | negative
    · refine ⟨1, _, by simpa using unit, room, ?_⟩
      rw [round, positive, power]
      push_cast
      ring
    · refine ⟨-1, _, by simpa using unit, room, ?_⟩
      rw [round, negative, power]
      push_cast
      ring

/-- The values of a format are those that are rounded to themselves. -/
theorem represents_iff {value : ℚ} :
    format.Represents value ↔
      format.round value = value ∧ |value| < 2 ^ format.top := by
  constructor
  · exact fun represents => ⟨represents.round_eq, represents.1⟩
  · rintro ⟨fixed, room⟩
    rw [← fixed] at room ⊢
    exact represents_round room

/-- What is rounded to zero. -/
theorem round_eq_zero_iff {value : ℚ} :
    format.round value = 0 ↔ |value| ≤ 2 ^ (format.least - 1) := by
  have power := two_zpow_pos (format.place value)
  have half :
      (2 : ℚ) ^ (format.place value - 1) =
        1 / 2 * 2 ^ format.place value := by
    rw [zpow_sub_one₀ two_ne_zero]
    ring
  have scaled :
      format.round value = 0 ↔ |value| ≤ 2 ^ (format.place value - 1) := by
    rw [round, mul_eq_zero, or_iff_left power.ne', Int.cast_eq_zero,
      roundHalfEven_eq_zero_iff, abs_div, abs_of_pos power,
      div_le_iff₀ power, half]
  rw [scaled]
  by_cases zero : value = 0
  · rw [zero, abs_zero]
    exact iff_of_true (two_zpow_pos _).le (two_zpow_pos _).le
  · constructor
    · intro small
      suffices low : format.place value = format.least by
        rwa [low] at small
      by_contra high
      have lower :=
        Int.zpow_log_le_self one_lt_two (abs_pos.mpr zero)
      have order :=
        (zpow_le_zpow_iff_right₀ one_lt_two).mp (lower.trans small)
      have positive := format.positive
      unfold place at high order
      omega
    · intro small
      exact small.trans
        (zpow_le_zpow_right₀ one_le_two
          (sub_le_sub_right (least_le_place value) 1))

/-! ## Multiples of a number with a large odd numerator -/

/-- Two exponents above a common one. -/
theorem exists_aligned (left right : ℤ) :
    ∃ (base : ℤ) (first second : ℕ),
      left = base + first ∧ right = base + second := by
  refine ⟨min left right, (left - min left right).toNat,
    (right - min left right).toNat, ?_, ?_⟩ <;> omega

/--
A small integer at one power of two is no multiple of a large odd integer at
another power of two, unless it is zero.
-/
theorem eq_zero_of_eq_multiple {numerator : ℤ} (odd : Odd numerator)
    {small multiple left right : ℤ} (less : |small| < numerator)
    (equal :
      (small : ℚ) * 2 ^ left = multiple * (numerator * 2 ^ right)) :
    small = 0 := by
  rcases exists_aligned left right with
    ⟨base, first, second, rfl, rfl⟩
  have power := two_zpow_pos base
  have integral :
      small * 2 ^ first = multiple * numerator * 2 ^ second := by
    have scaled :
        ((small * 2 ^ first : ℤ) : ℚ) * 2 ^ base =
          (multiple * numerator * 2 ^ second : ℤ) * 2 ^ base := by
      rw [zpow_add₀ two_ne_zero, zpow_add₀ two_ne_zero, zpow_natCast,
        zpow_natCast] at equal
      push_cast
      linear_combination equal
    exact_mod_cast mul_right_cancel₀ power.ne' scaled
  have coprime : IsCoprime numerator (2 ^ first) :=
    (Int.isCoprime_two_right.mpr odd).pow_right
  have divides : numerator ∣ small := by
    apply coprime.dvd_of_dvd_mul_right
    rw [integral]
    exact ⟨multiple * 2 ^ second, by ring⟩
  exact Int.eq_zero_of_abs_lt_dvd divides less

/-- A value of a format with few digits is no such multiple but zero. -/
theorem Represents.eq_zero_of_multiple {value : ℚ}
    (represents : format.Represents value) {numerator : ℤ}
    (odd : Odd numerator) (large : 2 ^ format.precision ≤ numerator)
    {multiple right : ℤ}
    (equal : value = multiple * (numerator * 2 ^ right)) :
    value = 0 := by
  rcases represents.2 with ⟨significand, exponent, digits, -, made⟩
  rw [made] at equal
  have zero := eq_zero_of_eq_multiple odd (digits.trans_le large) equal
  rw [made, zero, Int.cast_zero, zero_mul]

/-- In the normal range both values are multiples of a finer place. -/
theorem round_eq_of_normal {wide : Format}
    (wider : format.precision < wide.precision) {value : ℚ}
    (nonzero : value ≠ 0) (represents : wide.Represents value)
    (normal :
      format.place value = Int.log 2 |value| + 1 - format.precision)
    {numerator : ℤ} (odd : Odd numerator)
    (large : 2 ^ (wide.precision - format.precision) ≤ numerator)
    {multiple right : ℤ}
    (equal :
      format.round value - value = multiple * (numerator * 2 ^ right)) :
    format.round value = value := by
  have error := @abs_round_sub format value
  have within :
      format.place value - (wide.precision - format.precision : ℕ) ≤
        Int.log 2 |value| + 1 - wide.precision := by
    omega
  rcases represents.eq_mul nonzero (.inl within) with ⟨factor, made⟩
  have digit : 0 < wide.precision - format.precision :=
    Nat.sub_pos_of_lt wider
  generalize wide.precision - format.precision = digits
    at large made digit
  have rounded :
      format.round value =
        roundHalfEven (value / 2 ^ format.place value) *
          2 ^ format.place value := rfl
  generalize roundHalfEven (value / 2 ^ format.place value) = nearest
    at rounded
  generalize format.place value = place at made rounded error
  have power := two_zpow_pos (place - digits)
  have shifted : (2 : ℚ) ^ place = 2 ^ digits * 2 ^ (place - digits) := by
    rw [← zpow_natCast, ← zpow_add₀ two_ne_zero, add_sub_cancel]
  have difference :
      format.round value - value =
        (nearest * 2 ^ digits - factor : ℤ) * 2 ^ (place - digits) := by
    rw [rounded, shifted]
    conv_lhs => rw [made]
    push_cast
    ring
  have less : |nearest * 2 ^ digits - factor| < numerator := by
    rw [difference, abs_mul, abs_of_pos power, zpow_sub_one₀ two_ne_zero,
      shifted, mul_right_comm] at error
    have half := le_of_mul_le_mul_right error power
    have whole : (0 : ℚ) < 2 ^ digits := by positivity
    have strict :
        |((nearest * 2 ^ digits - factor : ℤ) : ℚ)| < 2 ^ digits := by
      linarith
    refine lt_of_lt_of_le ?_ large
    exact_mod_cast strict
  rw [difference] at equal
  have none := eq_zero_of_eq_multiple odd less equal
  rw [none, Int.cast_zero, zero_mul] at difference
  exact sub_eq_zero.mp difference

/-- At the least place the error is below the multiples. -/
theorem round_eq_of_subnormal {value : ℚ}
    (low : format.place value = format.least) {numerator : ℤ}
    (unit : 1 ≤ numerator) {multiple right : ℤ}
    (coarse : format.least ≤ right)
    (equal :
      format.round value - value = multiple * (numerator * 2 ^ right)) :
    format.round value = value := by
  have error := @abs_round_sub format value
  have period : (2 : ℚ) ^ right ≤ numerator * 2 ^ right :=
    le_mul_of_one_le_left (two_zpow_pos right).le (by exact_mod_cast unit)
  have small : (2 : ℚ) ^ (format.place value - 1) < 2 ^ right := by
    rw [low]
    exact zpow_lt_zpow_right₀ one_lt_two (by omega)
  have none : multiple = 0 := by
    by_contra some
    have size : (1 : ℚ) ≤ |(multiple : ℚ)| := by
      exact_mod_cast Int.one_le_abs some
    rw [equal, abs_mul,
      abs_of_pos ((two_zpow_pos right).trans_le period)] at error
    have far :=
      le_mul_of_one_le_left ((two_zpow_pos right).trans_le period).le
        size
    linarith
  rw [none, Int.cast_zero, zero_mul] at equal
  exact sub_eq_zero.mp equal

/--
Rounding a value of a wider format never changes it by such a multiple,
unless it does not change it.
-/
theorem round_eq_of_sub_eq_multiple {wide : Format}
    (wider : format.precision < wide.precision) {value : ℚ}
    (represents : wide.Represents value) {numerator : ℤ}
    (odd : Odd numerator)
    (large : 2 ^ (wide.precision - format.precision) ≤ numerator)
    {multiple right : ℤ} (coarse : format.least ≤ right)
    (equal :
      format.round value - value = multiple * (numerator * 2 ^ right)) :
    format.round value = value := by
  by_cases zero : value = 0
  · rw [zero, round, zero_div]
    simp [roundHalfEven]
  rcases max_choice (Int.log 2 |value| + 1 - format.precision)
    format.least with normal | subnormal
  · exact round_eq_of_normal wider zero represents normal odd large equal
  · have one : (1 : ℤ) ≤ 2 ^ (wide.precision - format.precision) :=
      one_le_pow₀ one_le_two
    exact round_eq_of_subnormal subnormal (one.trans large) coarse equal

end Format

/-! ## Values with infinities -/

/--
A rational number, an infinity or no number.  The sign of a zero is not
kept.
-/
inductive Extended where
  | finite (value : ℚ)
  | infinite (negative : Bool)
  | nan
  deriving DecidableEq

namespace Extended

/-- The integer part, towards zero. -/
def truncate (value : ℚ) : ℤ :=
  if 0 ≤ value then ⌊value⌋ else ⌈value⌉

def neg : Extended → Extended
  | .finite value => .finite (-value)
  | .infinite negative => .infinite (!negative)
  | .nan => .nan

def add : Extended → Extended → Extended
  | .finite first, .finite second => .finite (first + second)
  | .finite _, .infinite negative => .infinite negative
  | .infinite negative, .finite _ => .infinite negative
  | .infinite first, .infinite second =>
      if first = second then .infinite first else .nan
  | .nan, _ | _, .nan => .nan

def sub (first second : Extended) : Extended :=
  first.add second.neg

def mul : Extended → Extended → Extended
  | .finite first, .finite second => .finite (first * second)
  | .finite value, .infinite negative
  | .infinite negative, .finite value =>
      if value = 0 then .nan
      else .infinite (xor negative (decide (value < 0)))
  | .infinite first, .infinite second => .infinite (xor first second)
  | .nan, _ | _, .nan => .nan

def div : Extended → Extended → Extended
  | .finite first, .finite second =>
      if second = 0 then
        if first = 0 then .nan else .infinite (decide (first < 0))
      else .finite (first / second)
  | .finite _, .infinite _ => .finite 0
  | .infinite negative, .finite value =>
      .infinite (xor negative (decide (value < 0)))
  | .infinite _, .infinite _ => .nan
  | .nan, _ | _, .nan => .nan

/-- `std::floor`. -/
def floor : Extended → Extended
  | .finite value => .finite ⌊value⌋
  | .infinite negative => .infinite negative
  | .nan => .nan

/-- `std::fmod`. -/
def fmod : Extended → Extended → Extended
  | .finite first, .finite second =>
      if second = 0 then .nan
      else .finite (first - truncate (first / second) * second)
  | .finite first, .infinite _ => .finite first
  | .infinite _, _ => .nan
  | .nan, _ | _, .nan => .nan

/-- The comparison with zero. -/
def isZero : Extended → Bool
  | .finite value => decide (value = 0)
  | .infinite _ | .nan => false

theorem truncate_intCast (value : ℤ) : truncate (value : ℚ) = value := by
  unfold truncate
  rw [Int.floor_intCast, Int.ceil_intCast, ite_self]

/-- The remainder vanishes at the multiples. -/
theorem isZero_fmod_iff {first second : ℚ} (nonzero : second ≠ 0) :
    isZero (fmod (.finite first) (.finite second)) = true ↔
      ∃ multiple : ℤ, first = multiple * second := by
  rw [fmod, if_neg nonzero, isZero, decide_eq_true_eq, sub_eq_zero]
  constructor
  · exact fun equal => ⟨_, equal⟩
  · rintro ⟨multiple, rfl⟩
    rw [mul_div_cancel_right₀ _ nonzero, truncate_intCast]

end Extended

/-- The conversion into a format. -/
def Format.convert (format : Format) : Extended → Extended
  | .finite value =>
      if |format.round value| < 2 ^ format.top then
        .finite (format.round value)
      else .infinite (decide (value < 0))
  | .infinite negative => .infinite negative
  | .nan => .nan

namespace Format

variable {format : Format}

/-- A conversion does nothing to the values of the format. -/
theorem convert_eq_self_iff {value : ℚ} :
    format.convert (.finite value) = .finite value ↔
      format.Represents value := by
  rw [represents_iff, convert]
  constructor
  · intro same
    split_ifs at same with room
    rw [Extended.finite.injEq] at same
    rw [same] at room
    exact ⟨same, room⟩
  · rintro ⟨same, room⟩
    rw [same, if_pos room]

/-- The conversion of a number is a value of the format or infinite. -/
theorem convert_finite (value : ℚ) :
    (format.convert (.finite value) = .finite (format.round value) ∧
        format.Represents (format.round value)) ∨
      ∃ negative, format.convert (.finite value) = .infinite negative := by
  rw [convert]
  by_cases room : |format.round value| < 2 ^ format.top
  · rw [if_pos room]
    exact .inl ⟨rfl, represents_round room⟩
  · rw [if_neg room]
    exact .inr ⟨_, rfl⟩

end Format

end MQSSPasses.General.BinaryFormat
