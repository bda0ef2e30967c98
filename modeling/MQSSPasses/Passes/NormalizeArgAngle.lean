import MQSSPasses.General.RotationTurns
import MQSSPasses.Passes.Rewriting
import MQSSPasses.Quake.Semantics

/-!
# Normalizing the angles of rotations

The pass replaces every rotation by one whose angles lie between zero and a
full turn.  It reads each angle as a constant, subtracts full turns, and
creates a constant for the result.  The builder of the constants stands
before the first operation of the body all the time, so the constants
gather there in the order of their creation; the new gate takes the place
of the old one.

A rotation by a full turn is `-1`.  So the pass changes the sign of every
rotation from which it takes an odd number of turns, and the second part of
the file says when this is no more than a global phase.
-/

noncomputable section

namespace MQSSPasses.Passes.NormalizeArgAngle

open MQSSPasses.General.TracedComputation
open MQSSPasses.General.OperationTree
open MQSSPasses.General.ControlledElement
open MQSSPasses.General.QubitOperators
open MQSSPasses.General.GateMatrices
open MQSSPasses.General.RotationTurns
open MQSSPasses.Quake.Syntax
open MQSSPasses.Quake.Operations
open MQSSPasses.Quake.Semantics
open MQSSPasses.Passes.Rewriting

/-! ## The pass -/

/-- The arithmetic of angles, with the constant `pi` and `std::floor`. -/
class AngleArithmetic (A : Type) extends
    Neg A, Sub A, Mul A, Div A, IntCast A, One A where
  pi : A
  floor : A → A
  /-- The conversion to `float` and back. -/
  narrow : A → A

/-- Exact angles. -/
scoped instance realAngles : AngleArithmetic ℝ where
  pi := Real.pi
  floor angle := (⌊angle⌋ : ℤ)
  narrow := id

/-- A rotation the pass has replaced, with its replacement. -/
structure Normalization (A : Type) where
  gate : Gate A
  normalized : Gate A

section Pass

variable {A : Type} [AngleArithmetic A]

/-- Two times `pi`. -/
def twoPi : A := ((2 : ℤ) : A) * AngleArithmetic.pi

/-- Take the full turns off an angle. -/
def normalizeAngle (param : A) : A :=
  param -
    AngleArithmetic.floor (param / twoPi) * ((2 : ℤ) : A) *
      AngleArithmetic.pi

/-- Read a parameter and create the constant of the normalized angle. -/
def normalizeParameter (parameter : FloatValue A) :
    Except Fault (FloatValue A) := do
  let param ←
    extractDoubleArgumentValue AngleArithmetic.narrow parameter
  return .constant (normalizeAngle param)

/-- `RxOp`, `RyOp` or `RzOp`. -/
def isRotation (kind : GateKind) : Bool :=
  kind = .rx ∨ kind = .ry ∨ kind = .rz

/-- The gate with normalized angles; it is built without negated controls. -/
def normalizeGate (gate : Gate A) : Except Fault (Gate A) := do
  let normParameters ← gate.parameters.mapM normalizeParameter
  return Gate.create gate.kind gate.isAdj normParameters gate.controls
    gate.targets

def normalizeAngleOfRotations :
    Callback (OpData A) Fault (Normalization A) := fun cursor =>
  match cursor.current.bind asOperator with
  | none => return cursor
  | some gate =>
      if isRotation gate.kind then do
        let newGate ← Traced.ofExcept (normalizeGate gate)
        Traced.record ⟨gate, newGate⟩
        return ⟨cursor.before, none, newGate.op :: cursor.inserted,
          cursor.rest⟩
      else return cursor

/-- The constants created for a sequence of replacements. -/
def createdConstants (normalizations : List (Normalization A)) : Block A :=
  normalizations.flatMap fun normalization =>
    normalization.normalized.parameters.map fun value =>
      .leaf (.constant value)

/-- Put the created constants before the first operation of the body. -/
def insertConstants (constants : Block A) : Op A → Op A
  | .mk label (entry :: others) =>
      .mk label ((constants ++ entry) :: others)
  | .mk label [] => .mk label []

/-- Run the pass over a kernel. -/
def run (kernel : Op A) : Traced Fault (Normalization A) (Op A) :=
  let walked := walkNode normalizeAngleOfRotations kernel
  ⟨walked.trace,
    walked.outcome.map (insertConstants (createdConstants walked.trace))⟩

/-! ## What a run does to a block -/

/-- The rotation an operation is, if it is one, with its replacement. -/
def normalizationOf (operation : Op A) : Option (Normalization A) :=
  match asOperator operation with
  | none => none
  | some gate =>
      if isRotation gate.kind then
        match normalizeGate gate with
        | .ok newGate => some ⟨gate, newGate⟩
        | .error _ => none
      else none

/-- What becomes of an operation. -/
def replacement (operation : Op A) : Block A :=
  match normalizationOf operation with
  | some normalization => [normalization.normalized.op]
  | none => [operation]

/-- Every rotation of a block has angles that can be read. -/
def AnglesReadable (block : Block A) : Prop :=
  ∀ operation ∈ block, ∀ gate, asOperator operation = some gate →
    isRotation gate.kind = true →
      ∃ newGate, normalizeGate gate = .ok newGate

/-- One call replaces the visited operation. -/
theorem call_replaces {operation : Op A}
    (readable :
      ∀ gate, asOperator operation = some gate →
        isRotation gate.kind = true →
          ∃ newGate, normalizeGate gate = .ok newGate)
    (visited rest : Block A) :
    (∃ after,
        (normalizeAngleOfRotations
            (.enter visited operation rest)).outcome = .ok after ∧
          after.visited = visited ++ replacement operation) ∧
      (normalizeAngleOfRotations
          (.enter visited operation rest)).trace =
        (normalizationOf operation).toList := by
  unfold normalizeAngleOfRotations replacement normalizationOf
  simp only [Cursor.enter, Option.bind_some]
  cases isGate : asOperator operation with
  | none => exact ⟨⟨_, rfl, by simp [Cursor.visited]⟩, rfl⟩
  | some gate =>
      dsimp only
      by_cases rotation : isRotation gate.kind = true
      · rcases readable gate isGate rotation with ⟨newGate, normalized⟩
        rw [if_pos rotation, if_pos rotation, normalized]
        exact ⟨⟨_, rfl, by simp [Cursor.visited]⟩, rfl⟩
      · rw [if_neg rotation, if_neg rotation]
        exact ⟨⟨_, rfl, by simp [Cursor.visited]⟩, rfl⟩

/-- The replacements a run makes in a block without regions. -/
def blockNormalizations (block : Block A) : List (Normalization A) :=
  block.filterMap normalizationOf

/-- The body after a run. -/
def normalizedBlock (block : Block A) : Block A :=
  createdConstants (blockNormalizations block) ++
    block.flatMap replacement

/-- A run over a block with readable angles completes. -/
theorem run_of_flat {block : Block A}
    (flat : ∀ operation ∈ block, operation.blocks = [])
    (readable : AnglesReadable block) :
    (run (kernelOf block)).trace = blockNormalizations block ∧
      (run (kernelOf block)).outcome =
        .ok (kernelOf (normalizedBlock block)) := by
  have walked :=
    walkBlock_replaces_of_flat [] block
      (fun visited operation member rest =>
        (call_replaces (readable operation member) visited rest).1)
      flat
  have recorded :
      (walkBlock normalizeAngleOfRotations [] block).trace =
        blockNormalizations block := by
    rw [walkBlock_trace_of_flat [] block
      (fun visited operation member rest => by
        rcases call_replaces (readable operation member) visited rest with
          ⟨⟨after, returned, -⟩, trace⟩
        exact ⟨⟨after, returned⟩, trace⟩)
      flat]
    rw [blockNormalizations, List.filterMap_eq_flatMap_toList]
  have trace :
      (run (kernelOf block)).trace = blockNormalizations block := by
    rw [← recorded]
    exact (walkNode_of_one_block _ _ _).1
  refine ⟨trace, ?_⟩
  rw [run, kernelOf, walkNode_returns_of_one_block walked]
  have created := (walkNode_of_one_block normalizeAngleOfRotations
    (.structured "func.func") block).1
  rw [created, recorded]
  rfl

end Pass

/-! ## The turns of a rotation -/

section Turns

/-- The number of full turns the pass takes off an angle. -/
def turns (angle : ℝ) : ℤ :=
  ⌊angle / (2 * Real.pi)⌋

theorem normalizeAngle_eq (angle : ℝ) :
    normalizeAngle angle = angle - turns angle * 2 * Real.pi := by
  simp [normalizeAngle, turns, twoPi, AngleArithmetic.pi,
    AngleArithmetic.floor]

/-- A normalized angle lies between zero and a full turn. -/
theorem normalizeAngle_mem (angle : ℝ) :
    0 ≤ normalizeAngle angle ∧ normalizeAngle angle < 2 * Real.pi := by
  have full : 0 < 2 * Real.pi := by positivity
  have below :=
    (le_div_iff₀ full).mp (Int.floor_le (angle / (2 * Real.pi)))
  have above :=
    (div_lt_iff₀ full).mp (Int.lt_floor_add_one (angle / (2 * Real.pi)))
  rw [normalizeAngle_eq, turns]
  constructor <;> linarith

/-- The matrix of a rotation gate by its kind and angle. -/
def axisRotation : GateKind → ℝ → BitMatrix
  | .ry => rotationY
  | .rz => rotationZ
  | _ => rotationX

theorem standardMatrix_of_rotation {kind : GateKind}
    (rotation : isRotation kind = true) (angle : ℝ) :
    standardMatrix kind [angle] = some (axisRotation kind angle) := by
  simp only [isRotation, decide_eq_true_eq] at rotation
  rcases rotation with rfl | rfl | rfl <;> rfl

theorem axisRotation_isRotationFamily (kind : GateKind) :
    IsRotationFamily (axisRotation kind) := by
  cases kind with
  | ry => exact rotationY_isRotationFamily
  | rz => exact rotationZ_isRotationFamily
  | _ => exact rotationX_isRotationFamily

theorem withAdjoint_smul (isAdj : Bool) (factor : ℂ) (matrix : BitMatrix) :
    withAdjoint isAdj (factor • matrix) =
      (if isAdj then star factor else factor) •
        withAdjoint isAdj matrix := by
  cases isAdj <;> simp [withAdjoint, Matrix.conjTranspose_smul]

theorem withAdjoint_one (isAdj : Bool) :
    withAdjoint isAdj (1 : BitMatrix) = 1 := by
  cases isAdj <;> simp [withAdjoint]

theorem withAdjoint_withAdjoint (isAdj : Bool) (matrix : BitMatrix) :
    withAdjoint isAdj (withAdjoint isAdj matrix) = matrix := by
  cases isAdj <;> simp [withAdjoint]

/-- Adjoint rotations are a family of rotations too. -/
theorem withAdjoint_isRotationFamily {rotation : ℝ → BitMatrix}
    (family : IsRotationFamily rotation) (isAdj : Bool) :
    IsRotationFamily fun angle => withAdjoint isAdj (rotation angle) where
  zero := by rw [family.zero, withAdjoint_one]
  turns := by
    intro angle turns
    rw [family.turns, withAdjoint_smul]
    congr 1
    cases isAdj <;> simp
  scalar := by
    intro angle factor isScalar
    have undone := congrArg (withAdjoint isAdj) isScalar
    rw [withAdjoint_withAdjoint, withAdjoint_smul, withAdjoint_one]
      at undone
    exact family.scalar angle _ undone

end Turns

/-! ## What replacing one rotation changes -/

section Deviation

variable {Q : Type} [DecidableEq Q] (interp : Interpretation ℝ Q)

/-- What a rotation gate does to its target when its controls hold. -/
def rotationMatrix (gate : Gate ℝ) (angle : ℝ) : BitMatrix :=
  withAdjoint gate.isAdj (axisRotation gate.kind angle)

theorem rotationMatrix_isRotationFamily (gate : Gate ℝ) :
    IsRotationFamily (rotationMatrix gate) :=
  withAdjoint_isRotationFamily (axisRotation_isRotationFamily gate.kind)
    gate.isAdj

theorem rotationMatrix_ne_zero {gate : Gate ℝ}
    (rotation : isRotation gate.kind = true) (angle : ℝ) :
    rotationMatrix gate angle ≠ 0 := by
  intro zero
  have unitary :=
    withAdjoint_isUnitary
      (standardMatrix_isUnitary (standardMatrix_of_rotation rotation angle))
      gate.isAdj
  rw [← rotationMatrix, zero, IsUnitary, Matrix.zero_mul] at unitary
  exact zero_ne_one unitary.1

/-- The gate with the same operands whose controls must all be set. -/
def withoutNegation (gate : Gate ℝ) : Gate ℝ :=
  { gate with negatedQubitControls := none }

/-- The controls of a gate, which must all be set. -/
def setControls (gate : Gate ℝ) : List (Q × Bool) :=
  gate.controls.map fun control => (interp.qubit control, true)

/--
The sign of the full turns taken off a rotation: a reflection, if the
number is odd, by the projection on the controls.
-/
def turnSign (gate : Gate ℝ) : Operator Q :=
  match gate.parameters with
  | [.constant angle] =>
      controlled (allOf (setControls interp gate))
        (((-1 : ℂ) ^ turns angle) • 1)
  | _ => 1

/-- What making negated controls ordinary ones changes. -/
def polarityChange (gate : Gate ℝ) : Operator Q :=
  gateOperator interp (withoutNegation gate) *
    Ring.inverse (gateOperator interp gate)

/-- By what the replacement of an operation differs from it. -/
def deviation (operation : Op ℝ) : Operator Q :=
  match asOperator operation with
  | some gate =>
      if isRotation gate.kind then
        turnSign interp gate * polarityChange interp gate
      else 1
  | none => 1

/-- The deviations in a block, each carried to the end of the block. -/
def deviations : Block ℝ → Operator Q
  | [] => 1
  | operation :: rest =>
      deviations rest *
        (denote interp rest * deviation interp operation *
          Ring.inverse (denote interp rest))

/--
Replacing a rotation changes it by no more than a phase: it has no
controls, or an even number of turns is taken off and either no control is
negated or nothing but full turns is left.
-/
def Harmless (operation : Op ℝ) : Prop :=
  ∀ gate, asOperator operation = some gate →
    isRotation gate.kind = true →
      ∀ angle, gate.parameters = [.constant angle] →
        gate.controls = [] ∨
          Even (turns angle) ∧
            (gate.Unnegated ∨ angle = turns angle * 2 * Real.pi)

/--
A block without regions whose gates name no qubit twice, and whose
rotations have a constant angle and one target.
-/
structure RotationKernel (block : Block ℝ) : Prop where
  flat : ∀ operation ∈ block, operation.blocks = []
  distinct : DistinctOperands interp block
  flags :
    ∀ operation ∈ block, ∀ gate, asOperator operation = some gate →
      gate.polarity.length = gate.controls.length
  rotations :
    ∀ operation ∈ block, ∀ gate, asOperator operation = some gate →
      isRotation gate.kind = true →
        ∃ angle target, gate.parameters = [.constant angle] ∧
          gate.targets = [target]

/-- A rotation by a constant angle, on one target, with distinct operands. -/
structure ConstantRotation (gate : Gate ℝ) (angle : ℝ)
    (target : QuantumValue) : Prop where
  rotation : isRotation gate.kind = true
  parameters : gate.parameters = [.constant angle]
  targets : gate.targets = [target]
  distinct : (gate.qubits.map interp.qubit).Nodup
  flags : gate.polarity.length = gate.controls.length

variable {interp} {gate : Gate ℝ} {angle : ℝ} {target : QuantumValue}

theorem RotationKernel.constantRotation {block : Block ℝ}
    (kernel : RotationKernel interp block) {operation : Op ℝ}
    (member : operation ∈ block) (isGate : asOperator operation = some gate)
    (rotation : isRotation gate.kind = true) :
    ∃ angle target, ConstantRotation interp gate angle target := by
  rcases kernel.rotations operation member gate isGate rotation with
    ⟨angle, target, parameters, targets⟩
  exact ⟨angle, target,
    { rotation := rotation
      parameters := parameters
      targets := targets
      distinct := kernel.distinct operation member gate isGate
      flags := kernel.flags operation member gate isGate }⟩

/-- The replacement of a rotation by a constant angle. -/
def normalizedRotation (gate : Gate ℝ) (angle : ℝ) : Gate ℝ :=
  Gate.create gate.kind gate.isAdj [.constant (normalizeAngle angle)]
    gate.controls gate.targets

theorem ConstantRotation.normalizeGate_eq
    (rotated : ConstantRotation interp gate angle target) :
    normalizeGate gate = .ok (normalizedRotation gate angle) := by
  rw [normalizeGate, rotated.parameters]
  rfl

theorem ConstantRotation.target_not_control
    (rotated : ConstantRotation interp gate angle target) :
    ∀ control ∈ gate.controls,
      interp.qubit control ≠ interp.qubit target := by
  have distinct := rotated.distinct
  rw [Gate.qubits, rotated.targets, List.map_append,
    List.nodup_append] at distinct
  intro control member
  exact distinct.2.2 _ (List.mem_map_of_mem member) _ (by simp)

theorem ConstantRotation.setControls_nodup
    (rotated : ConstantRotation interp gate angle target) :
    ((setControls interp gate).map Prod.fst).Nodup := by
  have distinct := rotated.distinct
  rw [Gate.qubits, List.map_append] at distinct
  simpa [setControls, Function.comp_def] using distinct.of_append_left

theorem ConstantRotation.setControls_apart
    (rotated : ConstantRotation interp gate angle target) :
    ∀ control ∈ setControls interp gate,
      control.1 ≠ interp.qubit target := by
  simpa [setControls] using rotated.target_not_control

/-- A negated control is a control on which the polarities differ. -/
theorem ConstantRotation.exists_negated
    (rotated : ConstantRotation interp gate angle target)
    (negated : ¬ gate.Unnegated) :
    ∃ control,
      (control, false) ∈ controlValues interp gate ∧
        (control, true) ∈ setControls interp gate := by
  have length := rotated.flags
  rw [Gate.Unnegated] at negated
  rw [controlValues_eq_zip, setControls]
  generalize gate.polarity = polarity at length negated
  generalize gate.controls = controls at length negated
  induction controls generalizing polarity with
  | nil =>
      rw [List.length_nil, List.length_eq_zero_iff] at length
      exact (negated length).elim
  | cons control others induction =>
      cases polarity with
      | nil => simp at length
      | cons value later =>
          cases value with
          | false =>
              exact ⟨interp.qubit control, by simp, by simp⟩
          | true =>
              rcases induction later (by simpa using length)
                (by simpa using negated) with ⟨wire, unset, set⟩
              exact ⟨wire, List.mem_cons_of_mem _ unset,
                List.mem_cons_of_mem _ set⟩

section Operators

variable (constants : ∀ angle, interp.angle (.constant angle) = angle)

include constants

theorem ConstantRotation.gateOperator_eq
    (rotated : ConstantRotation interp gate angle target) :
    gateOperator interp gate =
      controlled (allOf (controlValues interp gate))
        (on (interp.qubit target) (rotationMatrix gate angle)) := by
  rw [gateOperator, targetOperator, rotated.parameters, rotated.targets]
  simp [constants, standardMatrix_of_rotation rotated.rotation,
    rotationMatrix]

theorem ConstantRotation.gateOperator_withoutNegation
    (rotated : ConstantRotation interp gate angle target) :
    gateOperator interp (withoutNegation gate) =
      controlled (allOf (setControls interp gate))
        (on (interp.qubit target) (rotationMatrix gate angle)) := by
  have kept : ConstantRotation interp (withoutNegation gate) angle target :=
    ⟨rotated.rotation, rotated.parameters, rotated.targets,
      rotated.distinct, by simp [withoutNegation, Gate.polarity]⟩
  rw [kept.gateOperator_eq constants]
  rfl

theorem ConstantRotation.gateOperator_normalized
    (rotated : ConstantRotation interp gate angle target) :
    gateOperator interp (normalizedRotation gate angle) =
      controlled (allOf (setControls interp gate))
        (on (interp.qubit target)
          (((-1 : ℂ) ^ turns angle) • rotationMatrix gate angle)) := by
  have changed :
      ConstantRotation interp (normalizedRotation gate angle)
        (normalizeAngle angle) target :=
    ⟨rotated.rotation, rfl, rotated.targets, rotated.distinct,
      by simp [normalizedRotation, Gate.create, Gate.polarity]⟩
  rw [changed.gateOperator_eq constants,
    ← (rotationMatrix_isRotationFamily gate).turns, ← normalizeAngle_eq]
  rfl

/-- The deviation is what the replacement of a rotation differs by. -/
theorem ConstantRotation.gateOperator_normalized_eq
    (rotated : ConstantRotation interp gate angle target) :
    gateOperator interp (normalizedRotation gate angle) =
      turnSign interp gate * polarityChange interp gate *
        gateOperator interp gate := by
  have idempotent := allOf_mul_self rotated.setControls_nodup
  have sign :
      turnSign interp gate =
        controlled (allOf (setControls interp gate))
          (on (interp.qubit target) (((-1 : ℂ) ^ turns angle) • 1)) := by
    rw [turnSign, rotated.parameters, map_smul, map_one]
  have commutes :
      Commute (allOf (setControls interp gate))
        (on (interp.qubit target)
          (((-1 : ℂ) ^ turns angle) • (1 : BitMatrix))) := by
    rw [map_smul, map_one]
    exact (Commute.one_right _).smul_right _
  rw [polarityChange, mul_assoc, mul_assoc,
    Ring.inverse_mul_cancel _ (gateOperator_isUnit interp rotated.distinct),
    mul_one, rotated.gateOperator_normalized constants,
    rotated.gateOperator_withoutNegation constants, sign,
    controlled_mul idempotent commutes, ← map_mul, smul_mul_assoc, one_mul]

/--
With a negated control the replaced rotation acts elsewhere, so it has to be
an even number of turns.
-/
theorem ConstantRotation.harmless_iff_of_negated
    (rotated : ConstantRotation interp gate angle target)
    (negated : ¬ gate.Unnegated) :
    EqualUpToPhase (gateOperator interp (normalizedRotation gate angle))
        (gateOperator interp gate) ↔
      Even (turns angle) ∧ angle = turns angle * 2 * Real.pi := by
  have family := rotationMatrix_isRotationFamily gate
  rw [rotated.gateOperator_normalized constants,
    rotated.gateOperator_eq constants]
  constructor
  · intro equal
    rcases rotated.exists_negated negated with ⟨wire, unset, set⟩
    have distinct := rotated.distinct
    rw [Gate.qubits, List.map_append] at distinct
    have apart :
        ∀ control ∈ controlValues interp gate,
          control.1 ≠ interp.qubit target := by
      intro control member
      rcases controlValues_wires interp gate control member with
        ⟨value, operand, wireEq⟩
      rw [wireEq]
      exact rotated.target_not_control value operand
    rcases scalar_of_equalUpToPhase rotated.setControls_nodup
        (controlValues_nodup interp distinct.of_append_left)
        rotated.setControls_apart apart unset set equal with
      ⟨factor, reduced, inverse⟩
    have range := normalizeAngle_mem angle
    rw [normalizeAngle_eq] at range
    exact family.turns_of_scalar range.1 range.2 reduced inverse
  · rintro ⟨even, whole⟩
    rw [family.eq_one even whole, even.neg_one_zpow, one_smul, map_one,
      controlled_one_right, controlled_one_right]
    exact .refl 1

/-- When replacing a rotation changes it by no more than a phase. -/
theorem ConstantRotation.harmless_iff
    (rotated : ConstantRotation interp gate angle target) :
    EqualUpToPhase (gateOperator interp (normalizedRotation gate angle))
        (gateOperator interp gate) ↔
      gate.controls = [] ∨
        Even (turns angle) ∧
          (gate.Unnegated ∨ angle = turns angle * 2 * Real.pi) := by
  by_cases unnegated : gate.Unnegated
  · have values :
        controlValues interp gate = setControls interp gate :=
      controlValues_of_unnegated interp unnegated
    have uncontrolled :
        setControls interp gate = [] ↔ gate.controls = [] := by
      rw [setControls, List.map_eq_nil_iff]
    rw [rotated.gateOperator_normalized constants,
      rotated.gateOperator_eq constants, values,
      equalUpToPhase_sign_iff rotated.setControls_nodup
        rotated.setControls_apart
        (rotationMatrix_ne_zero rotated.rotation angle), uncontrolled]
    simp [unnegated]
  · have controlled : gate.controls ≠ [] := by
      intro none
      have length := rotated.flags
      rw [none, List.length_nil, List.length_eq_zero_iff] at length
      exact unnegated (by rw [Gate.Unnegated, length, none, List.map_nil])
    rw [rotated.harmless_iff_of_negated constants unnegated]
    simp only [controlled, unnegated, false_or]

end Operators

end Deviation

/-! ## Runs of the pass -/

section Runs

variable {Q : Type} [DecidableEq Q] {interp : Interpretation ℝ Q}

theorem RotationKernel.readable {block : Block ℝ}
    (kernel : RotationKernel interp block) : AnglesReadable block := by
  intro operation member gate isGate rotation
  rcases kernel.constantRotation member isGate rotation with
    ⟨angle, target, rotated⟩
  exact ⟨_, rotated.normalizeGate_eq⟩

theorem ConstantRotation.normalizationOf_eq {operation : Op ℝ}
    {gate : Gate ℝ} {angle : ℝ} {target : QuantumValue}
    (isGate : asOperator operation = some gate)
    (rotated : ConstantRotation interp gate angle target) :
    normalizationOf operation =
      some ⟨gate, normalizedRotation gate angle⟩ := by
  rw [normalizationOf, isGate]
  dsimp only
  rw [if_pos rotated.rotation, rotated.normalizeGate_eq]

/-- What is not a rotation stays as it is. -/
theorem normalizationOf_of_other {operation : Op ℝ}
    (other :
      ∀ gate, asOperator operation = some gate →
        isRotation gate.kind = false) :
    normalizationOf operation = none := by
  unfold normalizationOf
  cases isGate : asOperator operation with
  | none => rfl
  | some gate => simp [other gate isGate]

theorem deviation_of_other {operation : Op ℝ}
    (other :
      ∀ gate, asOperator operation = some gate →
        isRotation gate.kind = false) :
    deviation interp operation = 1 := by
  unfold deviation
  cases isGate : asOperator operation with
  | none => rfl
  | some gate => simp [other gate isGate]

/-- What holds of a block holds of every selection of its operations. -/
theorem RotationKernel.mono {block smaller : Block ℝ}
    (kernel : RotationKernel interp block)
    (subset : ∀ operation ∈ smaller, operation ∈ block) :
    RotationKernel interp smaller where
  flat := fun operation member =>
    kernel.flat operation (subset operation member)
  distinct := fun operation member =>
    kernel.distinct operation (subset operation member)
  flags := fun operation member =>
    kernel.flags operation (subset operation member)
  rotations := fun operation member =>
    kernel.rotations operation (subset operation member)

theorem RotationKernel.tail {operation : Op ℝ} {rest : Block ℝ}
    (kernel : RotationKernel interp (operation :: rest)) :
    RotationKernel interp rest :=
  kernel.mono fun _ member => List.mem_cons_of_mem operation member

/-- An operation is a rotation by a constant angle, or no rotation. -/
theorem RotationKernel.rotation_or_other {block : Block ℝ}
    (kernel : RotationKernel interp block) {operation : Op ℝ}
    (member : operation ∈ block) :
    (∃ gate angle target, asOperator operation = some gate ∧
        ConstantRotation interp gate angle target) ∨
      ∀ gate, asOperator operation = some gate →
        isRotation gate.kind = false := by
  by_cases rotation :
      ∃ gate, asOperator operation = some gate ∧
        isRotation gate.kind = true
  · rcases rotation with ⟨gate, isGate, rotation⟩
    rcases kernel.constantRotation member isGate rotation with
      ⟨angle, target, rotated⟩
    exact .inl ⟨gate, angle, target, isGate, rotated⟩
  · right
    intro gate isGate
    rw [← Bool.not_eq_true]
    exact fun isRotation => rotation ⟨gate, isGate, isRotation⟩

theorem harmless_of_other {operation : Op ℝ}
    (other :
      ∀ gate, asOperator operation = some gate →
        isRotation gate.kind = false) :
    Harmless operation := by
  intro gate isGate rotation
  rw [other gate isGate] at rotation
  cases rotation

theorem ConstantRotation.harmless_operation_iff {operation : Op ℝ}
    {gate : Gate ℝ} {angle : ℝ} {target : QuantumValue}
    (isGate : asOperator operation = some gate)
    (rotated : ConstantRotation interp gate angle target) :
    Harmless operation ↔
      gate.controls = [] ∨
        Even (turns angle) ∧
          (gate.Unnegated ∨ angle = turns angle * 2 * Real.pi) := by
  constructor
  · exact fun harmless =>
      harmless gate isGate rotated.rotation angle rotated.parameters
  · intro holds other isOther _ constant parameters
    rw [isGate, Option.some.injEq] at isOther
    subst isOther
    rw [rotated.parameters] at parameters
    cases parameters
    exact holds

variable (constants : ∀ angle, interp.angle (.constant angle) = angle)

include constants

/-- The replacement of an operation differs by the deviation. -/
theorem RotationKernel.denote_replacement {block : Block ℝ}
    (kernel : RotationKernel interp block) {operation : Op ℝ}
    (member : operation ∈ block) :
    denote interp (replacement operation) =
      deviation interp operation * operator interp operation := by
  rcases kernel.rotation_or_other member with
    ⟨gate, angle, target, isGate, rotated⟩ | other
  · rw [replacement, rotated.normalizationOf_eq isGate, deviation, isGate]
    dsimp only
    rw [if_pos rotated.rotation, operator_of_gate interp isGate,
      denote_cons, denote_nil, one_mul, operator_op]
    exact rotated.gateOperator_normalized_eq constants
  · rw [replacement, normalizationOf_of_other other,
      deviation_of_other other, one_mul, denote_cons, denote_nil, one_mul]

/-- Replacing an operation changes no more than a phase if harmless. -/
theorem RotationKernel.replacement_iff_harmless {block : Block ℝ}
    (kernel : RotationKernel interp block) {operation : Op ℝ}
    (member : operation ∈ block) :
    EqualUpToPhase (denote interp (replacement operation))
        (operator interp operation) ↔
      Harmless operation := by
  rcases kernel.rotation_or_other member with
    ⟨gate, angle, target, isGate, rotated⟩ | other
  · rw [rotated.harmless_operation_iff isGate,
      ← rotated.harmless_iff constants, replacement,
      rotated.normalizationOf_eq isGate, operator_of_gate interp isGate,
      denote_cons, denote_nil, one_mul, operator_op]
  · rw [replacement, normalizationOf_of_other other, denote_cons,
      denote_nil, one_mul]
    exact iff_of_true (.refl _) (harmless_of_other other)

/-- The deviations of a block are what its replacement differs by. -/
theorem RotationKernel.denote_flatMap_replacement {block : Block ℝ}
    (kernel : RotationKernel interp block) :
    denote interp (block.flatMap replacement) =
      deviations interp block * denote interp block := by
  induction block with
  | nil => simp [deviations]
  | cons operation rest induction =>
      have invertible :=
        denote_isUnit_of_distinct interp kernel.tail.distinct
      have cancelled :=
        Ring.inverse_mul_cancel _ invertible
      rw [List.flatMap_cons, denote_append, induction kernel.tail,
        kernel.denote_replacement constants List.mem_cons_self,
        deviations, denote_cons]
      calc
        deviations interp rest * denote interp rest *
            (deviation interp operation * operator interp operation) =
            deviations interp rest *
              (denote interp rest * deviation interp operation * 1) *
              operator interp operation := by
          rw [mul_one]
          simp only [mul_assoc]
        _ = deviations interp rest *
              (denote interp rest * deviation interp operation *
                Ring.inverse (denote interp rest)) *
              (denote interp rest * operator interp operation) := by
          rw [← cancelled]
          simp only [mul_assoc]

/-- Harmless replacements change no more than a phase together. -/
theorem RotationKernel.denote_flatMap_of_harmless {block : Block ℝ}
    (kernel : RotationKernel interp block)
    (harmless : ∀ operation ∈ block, Harmless operation) :
    EqualUpToPhase (denote interp (block.flatMap replacement))
      (denote interp block) := by
  induction block with
  | nil => exact .refl _
  | cons operation rest induction =>
      rw [List.flatMap_cons, denote_append, denote_cons]
      exact
        (induction kernel.tail fun later member =>
          harmless later (List.mem_cons_of_mem operation member)).mul
        ((kernel.replacement_iff_harmless constants
          List.mem_cons_self).mpr (harmless operation List.mem_cons_self))

/-- One rotation among harmless ones decides about the block. -/
theorem RotationKernel.one_rotation_iff {lower upper : Block ℝ}
    {operation : Op ℝ}
    (kernel : RotationKernel interp (lower ++ operation :: upper))
    (harmless : ∀ other ∈ lower ++ upper, Harmless other) :
    EqualUpToPhase
        (denote interp ((lower ++ operation :: upper).flatMap replacement))
        (denote interp (lower ++ operation :: upper)) ↔
      Harmless operation := by
  have lowerKernel : RotationKernel interp lower :=
    kernel.mono fun _ member => List.mem_append_left _ member
  have upperKernel : RotationKernel interp upper :=
    kernel.mono fun _ member =>
      List.mem_append_right _ (List.mem_cons_of_mem operation member)
  have below :=
    lowerKernel.denote_flatMap_of_harmless constants fun other member =>
      harmless other (List.mem_append_left _ member)
  have above :=
    upperKernel.denote_flatMap_of_harmless constants fun other member =>
      harmless other (List.mem_append_right _ member)
  have surrounded :
      EqualUpToPhase
        (denote interp ((lower ++ operation :: upper).flatMap replacement))
        (denote interp upper * denote interp (replacement operation) *
          denote interp lower) := by
    rw [List.flatMap_append, List.flatMap_cons, denote_append,
      denote_append]
    exact (above.mul (.refl _)).mul below
  have stripped :
      EqualUpToPhase
          (denote interp upper * denote interp (replacement operation) *
            denote interp lower)
          (denote interp upper * operator interp operation *
            denote interp lower) ↔
        EqualUpToPhase (denote interp (replacement operation))
          (operator interp operation) :=
    (EqualUpToPhase.mul_right_iff
      (denote_isUnit_of_distinct interp lowerKernel.distinct)).trans
    (EqualUpToPhase.mul_left_iff
      (denote_isUnit_of_distinct interp upperKernel.distinct))
  rw [← kernel.replacement_iff_harmless constants
      (List.mem_append_right lower List.mem_cons_self),
    ← stripped, denote_append, denote_cons]
  exact ⟨surrounded.symm.trans, surrounded.trans⟩

omit constants in
/-- The created constants do nothing. -/
theorem denote_createdConstants
    (normalizations : List (Normalization ℝ)) :
    denote interp (createdConstants normalizations) = 1 := by
  have idle :
      ∀ operation ∈ createdConstants normalizations,
        operator interp operation = 1 := by
    intro operation member
    rcases List.mem_flatMap.mp member with ⟨normalization, -, created⟩
    rcases List.mem_map.mp created with ⟨value, -, rfl⟩
    rfl
  generalize createdConstants normalizations = created at idle
  induction created with
  | nil => rfl
  | cons operation rest induction =>
      rw [denote_cons, idle operation List.mem_cons_self, mul_one,
        induction fun later member =>
          idle later (List.mem_cons_of_mem operation member)]

omit constants in
theorem denote_normalizedBlock (block : Block ℝ) :
    denote interp (normalizedBlock block) =
      denote interp (block.flatMap replacement) := by
  rw [normalizedBlock, denote_append, denote_createdConstants, mul_one]

/--
A run of the pass completes.  It preserves the unitary up to a phase exactly
if the deviations of the replaced rotations make up no more than a phase
together.  They do if every replacement is harmless, and not if exactly one
is harmful.
-/
theorem run_preserves_denote_iff_harmless {block : Block ℝ}
    (kernel : RotationKernel interp block) :
    ∃ result,
      (run (kernelOf block)).outcome = .ok (kernelOf result) ∧
        (EqualUpToPhase (denote interp result) (denote interp block) ↔
          EqualUpToPhase (deviations interp block) 1) ∧
        ((∀ operation ∈ block, Harmless operation) →
          EqualUpToPhase (deviations interp block) 1) ∧
        ∀ lower operation upper,
          block = lower ++ operation :: upper →
            (∀ other ∈ lower ++ upper, Harmless other) →
              (EqualUpToPhase (deviations interp block) 1 ↔
                Harmless operation) := by
  have deviates :
      EqualUpToPhase (denote interp (block.flatMap replacement))
          (denote interp block) ↔
        EqualUpToPhase (deviations interp block) 1 := by
    rw [kernel.denote_flatMap_replacement constants]
    have invertible := denote_isUnit_of_distinct interp kernel.distinct
    have cancelled :=
      @EqualUpToPhase.mul_right_iff Q (deviations interp block) 1 _
        invertible
    rwa [one_mul] at cancelled
  refine ⟨normalizedBlock block, (run_of_flat kernel.flat kernel.readable).2,
    ?_, ?_, ?_⟩
  · rw [denote_normalizedBlock, deviates]
  · intro harmless
    exact deviates.mp (kernel.denote_flatMap_of_harmless constants harmless)
  · rintro lower operation upper rfl harmless
    rw [← deviates, kernel.one_rotation_iff constants harmless]

end Runs

/-! ### A controlled rotation by a full turn -/

/-- A rotation by a full turn with one control. -/
def fullTurn : Gate ℝ :=
  Gate.create .rx false [.constant (2 * Real.pi)]
    [.extractRef (.veqAlloca 0 2) (.constant 0)]
    [.extractRef (.veqAlloca 0 2) (.constant 1)]

/-- The qubits of a register, with every constant for its own value. -/
def exactInterpretation : Interpretation ℝ (Fin 2) :=
  .ofRegister 1 fun
    | .constant value => value
    | _ => 0

theorem turns_fullTurn : turns (2 * Real.pi) = 1 := by
  have nonzero : 2 * Real.pi ≠ 0 := by positivity
  rw [turns, div_self nonzero, Int.floor_one]

theorem fullTurn_distinct :
    (fullTurn.qubits.map exactInterpretation.qubit).Nodup := by
  simp [fullTurn, Gate.qubits, Gate.create, exactInterpretation,
    Interpretation.ofRegister]

theorem fullTurn_kernel :
    RotationKernel exactInterpretation [fullTurn.op] where
  flat := by simp [Gate.op]
  distinct := by
    intro operation member gate isGate
    rw [List.mem_singleton] at member
    subst member
    cases isGate
    exact fullTurn_distinct
  flags := by
    intro operation member gate isGate
    rw [List.mem_singleton] at member
    subst member
    cases isGate
    rfl
  rotations := by
    intro operation member gate isGate rotation
    rw [List.mem_singleton] at member
    subst member
    cases isGate
    exact ⟨_, _, rfl, rfl⟩

theorem fullTurn_harmful : ¬ Harmless fullTurn.op := by
  intro harmless
  have holds := harmless fullTurn rfl rfl _ rfl
  rw [turns_fullTurn] at holds
  simp [fullTurn, Gate.create] at holds

/-- The pass turns a controlled `-1` into the identity. -/
theorem fullTurn_not_preserved :
    ∃ result,
      (run (kernelOf [fullTurn.op])).outcome = .ok (kernelOf result) ∧
        ¬ EqualUpToPhase (denote exactInterpretation result)
          (denote exactInterpretation [fullTurn.op]) := by
  refine ⟨normalizedBlock [fullTurn.op],
    (run_of_flat fullTurn_kernel.flat fullTurn_kernel.readable).2, ?_⟩
  rw [denote_normalizedBlock]
  intro equal
  apply fullTurn_harmful
  have alone :
      RotationKernel exactInterpretation ([] ++ fullTurn.op :: []) :=
    fullTurn_kernel
  exact (alone.one_rotation_iff (fun _ => rfl) (by simp)).mp equal

/-- The condition at a controlled rotation by a full turn. -/
theorem fullTurn_preserves_iff :
    ∃ result,
      (run (kernelOf [fullTurn.op])).outcome = .ok (kernelOf result) ∧
        (EqualUpToPhase (denote exactInterpretation result)
            (denote exactInterpretation [fullTurn.op]) ↔
          EqualUpToPhase (deviations exactInterpretation [fullTurn.op])
            1) ∧
        ((∀ operation ∈ [fullTurn.op], Harmless operation) →
          EqualUpToPhase (deviations exactInterpretation [fullTurn.op])
            1) ∧
        ∀ lower operation upper,
          [fullTurn.op] = lower ++ operation :: upper →
            (∀ other ∈ lower ++ upper, Harmless other) →
              (EqualUpToPhase
                  (deviations exactInterpretation [fullTurn.op]) 1 ↔
                Harmless operation) :=
  run_preserves_denote_iff_harmless (fun _ => rfl) fullTurn_kernel

end MQSSPasses.Passes.NormalizeArgAngle

end
