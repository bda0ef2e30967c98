import MQSSPasses.General.GateMatrices

/-!
# Operators that branch on one qubit

`branch control target left right` acts on the target with one matrix where
the control is clear and with another where it is set.  Branches multiply
entrywise, so a circuit of controlled gates and of gates that are diagonal
on the control is computed with two `2 × 2` products.  Rotations about a
product of two Pauli matrices are branches when the first is `Z`.
-/

noncomputable section

namespace MQSSPasses.General.Branches

open MQSSPasses.General.ControlledElement
open MQSSPasses.General.QubitOperators
open MQSSPasses.General.GateMatrices

variable {Q : Type} [DecidableEq Q]

/-- One matrix on the target where the control is clear, one where it is set. -/
def branch (control target : Q) (whenClear whenSet : BitMatrix) :
    Operator Q :=
  on control (projector false) * on target whenClear +
    on control (projector true) * on target whenSet

theorem projector_mul_not (value : Bool) :
    projector value * projector (!value) = 0 := by
  ext row column
  cases value <;> cases row <;> cases column <;>
    simp [projector, entries, Matrix.mul_apply]

theorem diagonal_eq (a d : ℂ) :
    entries a 0 0 d = a • projector false + d • projector true := by
  ext row column
  cases row <;> cases column <;> simp [projector, entries]

theorem branch_smul (control target : Q) (scalar : ℂ)
    (whenClear whenSet : BitMatrix) :
    branch control target (scalar • whenClear) (scalar • whenSet) =
      scalar • branch control target whenClear whenSet := by
  simp only [branch, map_smul, mul_smul_comm, smul_add]

theorem branch_sub (control target : Q)
    (left right left' right' : BitMatrix) :
    branch control target (left - left') (right - right') =
      branch control target left right -
        branch control target left' right' := by
  simp only [branch, map_sub, mul_sub]
  abel

theorem branch_self (control target : Q) (matrix : BitMatrix) :
    branch control target matrix matrix = on target matrix := by
  rw [branch, ← add_mul, ← map_add, projector_add, map_one, one_mul]

theorem branch_diagonal (control target : Q) (a d : ℂ) :
    branch control target (a • 1) (d • 1) =
      on control (entries a 0 0 d) := by
  rw [branch, diagonal_eq, map_add]
  simp only [map_smul, map_one, mul_smul_comm, mul_one]

/-- A controlled matrix is a branch with nothing to do on one side. -/
theorem controlled_eq_branch (control target : Q) (matrix : BitMatrix) :
    controlled (on control (projector true)) (on target matrix) =
      branch control target 1 matrix := by
  have split : (1 : Operator Q) =
      on control (projector false) + on control (projector true) := by
    rw [← map_add, projector_add, map_one]
  calc
    controlled (on control (projector true)) (on target matrix) =
        1 + on control (projector true) * (on target matrix - 1) := rfl
    _ = branch control target 1 matrix := by
      nth_rewrite 1 [split]
      rw [branch, map_one, mul_sub, mul_one, mul_one]
      abel

section Distinct

variable {control target : Q} (distinct : control ≠ target)

include distinct

/-- Branches multiply entrywise. -/
theorem branch_mul (left right left' right' : BitMatrix) :
    branch control target left right * branch control target left' right' =
      branch control target (left * left') (right * right') := by
  have pair (value value' : Bool) (matrix matrix' : BitMatrix) :
      on control (projector value) * on target matrix *
          (on control (projector value') * on target matrix') =
        on control (projector value * projector value') *
          on target (matrix * matrix') := by
    have moved := on_commute distinct (projector value') matrix
    rw [mul_assoc, ← mul_assoc (on target matrix), ← moved.eq, map_mul,
      map_mul, mul_assoc, mul_assoc]
  have clearSet := projector_mul_not false
  have setClear := projector_mul_not true
  rw [Bool.not_false] at clearSet
  rw [Bool.not_true] at setClear
  simp only [branch, add_mul, mul_add, pair, projector_mul_self, clearSet,
    setClear, map_zero, zero_mul, add_zero, zero_add]

/-- A matrix on the target between two controlled flips of the target. -/
theorem controlledX_mul_on_mul_controlledX (matrix : BitMatrix) :
    controlled (on control (projector true)) (on target pauliX) *
          on target matrix *
        controlled (on control (projector true)) (on target pauliX) =
      branch control target matrix (pauliX * matrix * pauliX) := by
  rw [controlled_eq_branch, ← branch_self control target matrix,
    branch_mul distinct, branch_mul distinct, one_mul, mul_one]

end Distinct

/-! ## Rotations about a product of Pauli matrices -/

/-- The combination `cos - i sin * element` of a rotation by an angle. -/
def rotation {R : Type*} [Ring R] [Algebra ℂ R] (angle : ℝ)
    (element : R) : R :=
  (Real.cos (angle / 2) : ℂ) • 1 -
    (Complex.I * Real.sin (angle / 2)) • element

theorem rotation_neg {R : Type*} [Ring R] [Algebra ℂ R] (angle : ℝ)
    (element : R) :
    rotation (-angle) element = rotation angle (-element) := by
  simp [rotation, neg_div]

/-- Conjugation acts on the axis of a rotation. -/
theorem conjugate_rotation {R : Type*} [Ring R] [Algebra ℂ R]
    {left right : R} (inverse : left * right = 1) (angle : ℝ)
    (element : R) :
    left * rotation angle element * right =
      rotation angle (left * element * right) := by
  rw [rotation, mul_sub, sub_mul, mul_smul_comm, mul_smul_comm, mul_one,
    smul_mul_assoc, smul_mul_assoc, inverse, rotation]

theorem rotationZ_eq_rotation (angle : ℝ) :
    rotationZ angle = rotation angle pauliZ := by
  rw [rotation, sub_eq_add_neg, pauliZ, one_eq_entries, entries_smul,
    entries_smul, entries_neg, entries_add, rotationZ, phase_eq, phase_eq]
  apply entries_congr <;> simp <;> ring

/-- A rotation about a pair of Pauli matrices on two qubits. -/
def pairRotation (angle : ℝ) (left right : BitMatrix) (first second : Q) :
    Operator Q :=
  rotation angle (on first left * on second right)

theorem pauliZ_mul_eq_branch (control target : Q) (matrix : BitMatrix) :
    on control pauliZ * on target matrix =
      branch control target matrix (-matrix) := by
  rw [pauliZ, diagonal_eq, branch, ← neg_one_smul ℂ matrix]
  simp only [map_add, map_smul, one_smul, add_mul, smul_mul_assoc,
    mul_smul_comm]

/-- A rotation about `Z` and a matrix turns the target both ways. -/
theorem pairRotation_pauliZ (angle : ℝ) (matrix : BitMatrix)
    (control target : Q) :
    pairRotation angle pauliZ matrix control target =
      branch control target (rotation angle matrix)
        (rotation (-angle) matrix) := by
  have unit : branch control target 1 1 = 1 := by
    rw [branch_self, map_one]
  rw [pairRotation, pauliZ_mul_eq_branch, rotation_neg, rotation, rotation,
    rotation, branch_sub, branch_smul, branch_smul, unit]

end MQSSPasses.General.Branches

end
