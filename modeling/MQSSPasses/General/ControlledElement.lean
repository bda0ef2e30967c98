import Mathlib

/-!
# Controlled elements of a ring

A gate with controls acts as a given operator where a projection holds and
as the identity elsewhere.  In an arbitrary ring this is the element
`1 + p * (u - 1)` for an idempotent `p` commuting with `u`.  The file
develops the algebra of these elements: products, inverses, conjugation,
and an exact criterion for being carried across a third element.

The criterion is the point of the file.  If some involution `flip`
anticommutes with `u` and commutes with everything else in sight, then `m`
carries one controlled element to another exactly when it carries the
projections.  So whether a controlled gate may be moved across other gates
is decided by its control alone.  In the same way its target alone decides
where the projection commutes with `m`.
-/

namespace MQSSPasses.General.ControlledElement

variable {R : Type*} [Ring R]

/-- Act as `u` on the range of `p` and as the identity on its kernel. -/
def controlled (p u : R) : R :=
  1 + p * (u - 1)

@[simp]
theorem controlled_one_right (p : R) : controlled p 1 = 1 := by
  simp [controlled]

@[simp]
theorem controlled_one_left (u : R) : controlled 1 u = u := by
  simp [controlled]

/-- Controlled elements multiply like the elements they control. -/
theorem controlled_mul
    {p u : R} (idempotent : p * p = p) (commutes : Commute p u) (v : R) :
    controlled p u * controlled p v = controlled p (u * v) := by
  have absorbed : p * (u - 1) * (p * (v - 1)) = p * ((u - 1) * (v - 1)) := by
    have swapped : (u - 1) * p = p * (u - 1) := by
      rw [sub_mul, mul_sub, commutes.eq]
      simp
    calc
      p * (u - 1) * (p * (v - 1)) = p * ((u - 1) * p) * (v - 1) := by
        noncomm_ring
      _ = p * p * (u - 1) * (v - 1) := by
        rw [swapped]
        noncomm_ring
      _ = p * ((u - 1) * (v - 1)) := by
        rw [idempotent]
        noncomm_ring
  calc
    controlled p u * controlled p v =
        1 + p * (u - 1) + p * (v - 1) + p * (u - 1) * (p * (v - 1)) := by
      simp only [controlled]
      noncomm_ring
    _ = controlled p (u * v) := by
      rw [absorbed]
      simp only [controlled]
      noncomm_ring

/-- Conjugating a controlled element conjugates what it controls. -/
theorem controlled_conj
    {p u v w : R} (commutes : Commute v p) (inverse : v * w = 1) :
    v * controlled p u * w = controlled p (v * u * w) := by
  have moved : v * (p * (u - 1)) * w = p * (v * (u - 1) * w) := by
    rw [← mul_assoc v, commutes.eq, mul_assoc p, mul_assoc p]
  calc
    v * controlled p u * w = v * w + v * (p * (u - 1)) * w := by
      rw [controlled, mul_add, mul_one, add_mul]
    _ = 1 + p * (v * u * w - v * w) := by
      rw [moved, inverse, mul_sub, mul_one, sub_mul, inverse]
    _ = controlled p (v * u * w) := by
      rw [inverse, controlled]

/-- On the range of the projection a controlled element acts. -/
theorem mul_controlled {p : R} (idempotent : p * p = p) (u : R) :
    p * controlled p u = p * u := by
  rw [controlled, mul_add, mul_one, ← mul_assoc, idempotent, mul_sub,
    mul_one, add_sub_cancel]

/-- On the kernel of the projection a controlled element does nothing. -/
theorem mul_controlled_of_mul_eq_zero {p q : R} (apart : p * q = 0)
    (u : R) : p * controlled q u = p := by
  rw [controlled, mul_add, mul_one, ← mul_assoc, apart, zero_mul, add_zero]

/-- Controlling a reflection is symmetric in the two projections. -/
theorem controlled_reflection_symm
    {p q : R} (commutes : Commute p q) :
    controlled p (1 - (q + q)) = controlled q (1 - (p + p)) := by
  simp only [controlled, sub_sub_cancel_left, mul_neg, mul_add,
    commutes.eq]

/-- A controlled involution is an involution. -/
theorem controlled_mul_self
    {p u : R} (idempotent : p * p = p) (commutes : Commute p u)
    (involution : u * u = 1) :
    controlled p u * controlled p u = 1 := by
  rw [controlled_mul idempotent commutes, involution,
    controlled_one_right]

/-- An element commuting with the projection and the operator commutes. -/
theorem commute_controlled
    {p u m : R} (projection : Commute m p) (operator : Commute m u) :
    Commute m (controlled p u) :=
  (Commute.one_right m).add_right
    (projection.mul_right (operator.sub_right (Commute.one_right m)))

/-! ## Elements that are carried to one another -/

section Carried

variable {m a b x : R}

/-- What undoes an involution across an element carries it. -/
theorem carries_of_sandwich (square : a * a = 1)
    (unchanged : b * m * a = m) : SemiconjBy m a b := by
  calc
    m * a = b * m * a * a := by
      rw [unchanged]
    _ = b * m := by
      rw [mul_assoc, square, mul_one]

theorem sandwich_of_carries (square : a * a = 1)
    (carries : SemiconjBy m a b) : b * m * a = m := by
  rw [← carries.eq, mul_assoc, square, mul_one]

/-- What commutes with an element and the carrier commutes with the image. -/
theorem commute_right_of_carried (invertible : IsUnit m)
    (carries : SemiconjBy m a b) (carrier : Commute x m)
    (element : Commute x a) : Commute x b := by
  apply invertible.mul_right_cancel
  calc
    x * b * m = x * m * a := by
      rw [mul_assoc, ← carries.eq, mul_assoc]
    _ = m * a * x := by
      rw [carrier.eq, mul_assoc, element.eq, mul_assoc]
    _ = b * x * m := by
      rw [carries.eq, mul_assoc, ← carrier.eq, mul_assoc]

/-- What commutes with the image and the carrier commutes with the element. -/
theorem commute_left_of_carried (invertible : IsUnit m)
    (carries : SemiconjBy m a b) (carrier : Commute x m)
    (image : Commute x b) : Commute x a := by
  apply invertible.mul_left_cancel
  calc
    m * (x * a) = x * (b * m) := by
      rw [← mul_assoc, ← carrier.eq, mul_assoc, carries.eq]
    _ = b * m * x := by
      rw [← mul_assoc, image.eq, mul_assoc, carrier.eq, mul_assoc]
    _ = m * (a * x) := by
      rw [← carries.eq, mul_assoc]

/-- What commutes with the first factor commutes with the second or neither. -/
theorem commute_mul_iff_right {v : R} (invertible : IsUnit v)
    (commutes : Commute x v) : Commute x (v * m) ↔ Commute x m := by
  refine ⟨fun product => ?_, commutes.mul_right⟩
  apply invertible.mul_left_cancel
  rw [← mul_assoc, ← commutes.eq, mul_assoc, product.eq, mul_assoc]

theorem commute_mul_iff_left (invertible : IsUnit m)
    (commutes : Commute x m) {v : R} :
    Commute x (v * m) ↔ Commute x v := by
  refine ⟨fun product => ?_, fun factor => factor.mul_right commutes⟩
  apply invertible.mul_right_cancel
  rw [mul_assoc, product.eq, mul_assoc, ← commutes.eq, mul_assoc]

end Carried

/-! ## The exact commutation criterion -/

section Criterion

variable (twoCancels : ∀ x : R, x + x = 0 → x = 0)
variable {p q u m flip : R}

include twoCancels

/--
What absorbs an operator vanishes if some involution `flip` that
anticommutes with the operator commutes with it.
-/
theorem eq_zero_of_mul_sub_one {x : R}
    (vanishes : x * (u - 1) = 0)
    (involution : flip * flip = 1)
    (anticommutes : flip * u = -(u * flip))
    (flipElement : Commute flip x) : x = 0 := by
  have fixed : x * u = x := by
    rw [mul_sub, mul_one] at vanishes
    exact sub_eq_zero.mp vanishes
  -- Conjugating with `flip` turns that `u` into `-u`.
  have negated : x * u = -x := by
    have reordered : u * flip = -(flip * u) := by
      rw [anticommutes, neg_neg]
    calc
      x * u = x * u * (flip * flip) := by
        rw [involution, mul_one]
      _ = x * (u * flip) * flip := by
        noncomm_ring
      _ = x * (-(flip * u)) * flip := by
        rw [reordered]
      _ = -(x * flip * (u * flip)) := by
        noncomm_ring
      _ = -(flip * (x * u) * flip) := by
        rw [← flipElement.eq]
        noncomm_ring
      _ = -(flip * x * flip) := by
        rw [fixed]
      _ = -(x * (flip * flip)) := by
        rw [flipElement.eq]
        noncomm_ring
      _ = -x := by
        rw [involution, mul_one]
  apply twoCancels
  nth_rewrite 1 [← fixed]
  rw [negated, neg_add_cancel]

/--
An element carries one controlled element to another exactly when it carries
the projections, provided it commutes with the operator they control and
some involution `flip` anticommutes with the operator and commutes with the
rest.
-/
theorem semiconjBy_controlled_iff
    (operator : Commute u m)
    (involution : flip * flip = 1)
    (anticommutes : flip * u = -(u * flip))
    (flipFirst : Commute flip q)
    (flipSecond : Commute flip p)
    (flipElement : Commute flip m) :
    SemiconjBy m (controlled q u) (controlled p u) ↔ SemiconjBy m q p := by
  have operatorEq : u * m = m * u := operator.eq
  constructor
  · intro carries
    have vanishes : (p * m - m * q) * (u - 1) = 0 := by
      calc
        (p * m - m * q) * (u - 1) =
            p * (m * u) - p * m - m * q * u + m * q := by
          noncomm_ring
        _ = controlled p u * m - m * controlled q u := by
          rw [← operatorEq]
          simp only [controlled]
          noncomm_ring
        _ = 0 := sub_eq_zero.mpr carries.eq.symm
    have flipDifference : Commute flip (p * m - m * q) :=
      (flipSecond.mul_right flipElement).sub_right
        (flipElement.mul_right flipFirst)
    exact (sub_eq_zero.mp (eq_zero_of_mul_sub_one twoCancels vanishes
      involution anticommutes flipDifference)).symm
  · intro projections
    have same : SemiconjBy m u u := operatorEq.symm
    have one : SemiconjBy m 1 1 := SemiconjBy.one_right m
    exact one.add_right (projections.mul_right (same.sub_right one))

/--
A controlled element commutes with `m` exactly when its projection does,
provided `m` commutes with the operator and some involution `flip`
anticommutes with the operator and commutes with the rest.
-/
theorem commute_controlled_iff
    (operator : Commute u m)
    (involution : flip * flip = 1)
    (anticommutes : flip * u = -(u * flip))
    (flipProjection : Commute flip p)
    (flipElement : Commute flip m) :
    Commute (controlled p u) m ↔ Commute p m := by
  have carries :=
    semiconjBy_controlled_iff twoCancels operator involution anticommutes
      flipProjection flipProjection flipElement
  exact (Commute.symm_iff).trans (carries.trans Commute.symm_iff)

/-- What an involution that anticommutes can commute with is not there. -/
theorem eq_zero_of_commute_flip
    (involution : flip * flip = 1)
    (square : u * u = 1)
    (anticommutes : flip * u = -(u * flip))
    (flipProjection : Commute flip p)
    (commutes : Commute flip (controlled p u)) : p = 0 := by
  have moved : Commute flip (p * (u - 1)) := by
    have := commutes.sub_right (Commute.one_right flip)
    rwa [controlled, add_sub_cancel_left] at this
  -- `flip` also turns `p * (u - 1)` into `p * (-u - 1)`.
  have doubled : p * u + p * u = 0 := by
    have left : flip * (p * (u - 1)) * flip = p * (u - 1) := by
      rw [moved.eq, mul_assoc, involution, mul_one]
    have right : flip * (p * (u - 1)) * flip = p * (-u - 1) := by
      calc
        flip * (p * (u - 1)) * flip =
            p * (flip * u * flip - flip * flip) := by
          rw [← mul_assoc flip, flipProjection.eq]
          noncomm_ring
        _ = p * (-u - 1) := by
          rw [anticommutes, neg_mul, mul_assoc, involution, mul_one]
    have both := left.symm.trans right
    rw [mul_sub, mul_sub, sub_left_inj, mul_neg] at both
    nth_rewrite 1 [both]
    exact neg_add_cancel _
  have none : p * u = 0 := twoCancels _ doubled
  calc
    p = p * u * u := by
      rw [mul_assoc, square, mul_one]
    _ = 0 := by
      rw [none, zero_mul]

/--
Deleting controlled involutions on both sides of `m` changes nothing exactly
when `m` carries the one projection to the other.
-/
theorem sandwich_eq_iff
    (idempotent : q * q = q) (commutes : Commute q u)
    (square : u * u = 1)
    (operator : Commute u m)
    (involution : flip * flip = 1)
    (anticommutes : flip * u = -(u * flip))
    (flipFirst : Commute flip q)
    (flipSecond : Commute flip p)
    (flipElement : Commute flip m) :
    controlled p u * m * controlled q u = m ↔ SemiconjBy m q p := by
  rw [← semiconjBy_controlled_iff twoCancels operator involution
    anticommutes flipFirst flipSecond flipElement]
  have selfInverse :=
    controlled_mul_self idempotent commutes square
  exact ⟨carries_of_sandwich selfInverse, sandwich_of_carries selfInverse⟩

end Criterion

/-! ## When the projection commutes -/

/--
Where the projection commutes with `m`, the controlled element commutes with
`m` exactly when the operator does, provided some involution `flip` exchanges
the projection with its complement and commutes with the rest.
-/
theorem commute_controlled_iff_operator
    {p u m flip : R} (projection : Commute p m)
    (exchanges : flip * p * flip = 1 - p)
    (flipOperator : Commute flip u) (flipElement : Commute flip m) :
    Commute (controlled p u) m ↔ Commute u m := by
  constructor
  · intro commutes
    -- The commutator with `m` vanishes on the range of the projection ...
    have vanishes : p * (u * m - m * u) = 0 := by
      calc
        p * (u * m - m * u) = p * u * m - m * (p * u) := by
          rw [mul_sub, ← mul_assoc p m, projection.eq]
          simp only [mul_assoc]
        _ = controlled p u * m - m * controlled p u + (p * m - m * p) := by
          simp only [controlled]
          noncomm_ring
        _ = 0 := by
          rw [commutes.eq, projection.eq, sub_self, sub_self, add_zero]
    have flipCommutator : Commute flip (u * m - m * u) :=
      (flipOperator.mul_right flipElement).sub_right
        (flipElement.mul_right flipOperator)
    -- ... and conjugating with `flip` carries this to its kernel.
    have complement : (1 - p) * (u * m - m * u) = 0 := by
      calc
        (1 - p) * (u * m - m * u) =
            flip * p * (flip * (u * m - m * u)) := by
          rw [← exchanges]
          simp only [mul_assoc]
        _ = flip * (p * (u * m - m * u)) * flip := by
          rw [flipCommutator.eq]
          simp only [mul_assoc]
        _ = 0 := by
          rw [vanishes, mul_zero, zero_mul]
    have everywhere :
        p * (u * m - m * u) + (1 - p) * (u * m - m * u) =
          u * m - m * u := by
      rw [← add_mul, add_sub_cancel, one_mul]
    rw [vanishes, complement, add_zero] at everywhere
    exact sub_eq_zero.mp everywhere.symm
  · intro operator
    exact (commute_controlled projection.symm operator.symm).symm

end MQSSPasses.General.ControlledElement
