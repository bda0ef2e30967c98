import MQSSPasses.General.LabelwiseWalk
import MQSSPasses.Passes.NormalizeArgAngle

/-!
# Angles that are known at run time only

The helper that reads an angle returns `-1` for the result of an operation
which is not a constant, and it reads through the null pointer for a block
argument.  The normalization of the angles takes what it returns for the
angle.  So it keeps the angle of no rotation that is not a constant, in
whatever region of the kernel the rotation stands.
-/

noncomputable section

namespace MQSSPasses.Passes.RunTimeAngles

open MQSSPasses.General.TracedComputation
open MQSSPasses.General.OperationTree
open MQSSPasses.General.LabelwiseWalk
open MQSSPasses.Quake.Syntax
open MQSSPasses.Quake.Operations
open MQSSPasses.Passes.NormalizeArgAngle

section Runs

variable {A : Type} [AngleArithmetic A]

/-- The value is the result of a constant operation. -/
def IsConstant : FloatValue A → Prop
  | .constant _ => True
  | .argument _ | .computed _ => False

/-- A rotation somewhere in a kernel. -/
def RotationIn (kernel : Op A) (gate : Gate A) : Prop :=
  isRotation gate.kind = true ∧
    ∃ operation ∈ postOrderBlocks kernel.blocks,
      asOperator operation = some gate

/-- What the pass does at an operation with the label. -/
def rotationEffect (label : OpData A) :
    Traced Fault (Normalization A) Unit :=
  match label with
  | .gate gate =>
      if isRotation gate.kind then
        match normalizeGate gate with
        | .ok newGate => Traced.record ⟨gate, newGate⟩
        | .error fault => Traced.raise fault
      else pure ()
  | _ => pure ()

theorem normalizeAngleOfRotations_effects (visited : Block A)
    (operation : Op A) (rest : Block A) :
    effects
        (normalizeAngleOfRotations (.enter visited operation rest)) =
      rotationEffect operation.label := by
  unfold normalizeAngleOfRotations rotationEffect
  simp only [Cursor.enter, Option.bind_some, asOperator]
  cases operation.label with
  | gate gate =>
      dsimp only
      by_cases rotation : isRotation gate.kind = true
      · rw [if_pos rotation, if_pos rotation]
        cases normalizeGate gate <;> rfl
      · rw [if_neg rotation, if_neg rotation]
        rfl
  | _ => rfl

theorem rotationEffect_outcome (operation : Op A) :
    (rotationEffect operation.label).outcome = .ok () ↔
      ∀ gate, asOperator operation = some gate →
        isRotation gate.kind = true →
          ∃ newGate, normalizeGate gate = .ok newGate := by
  unfold rotationEffect asOperator
  cases operation.label with
  | gate gate =>
      by_cases rotation : isRotation gate.kind = true
      · cases normalized : normalizeGate gate <;>
          simp [rotation, normalized]
      · simp [rotation]
  | _ => simp

theorem mem_rotationEffect_trace {operation : Op A}
    {normalization : Normalization A} :
    normalization ∈ (rotationEffect operation.label).trace ↔
      asOperator operation = some normalization.gate ∧
        isRotation normalization.gate.kind = true ∧
        normalizeGate normalization.gate =
          .ok normalization.normalized := by
  unfold rotationEffect asOperator
  rcases normalization with ⟨gate, newGate⟩
  cases operation.label with
  | gate performed =>
      dsimp only
      rw [Option.some.injEq]
      by_cases same : performed = gate
      · subst same
        by_cases rotation : isRotation performed.kind = true
        · cases normalized : normalizeGate performed <;>
            simp [rotation, eq_comm]
        · simp [rotation]
      · by_cases rotation : isRotation performed.kind = true
        · cases normalized : normalizeGate performed <;>
            simp [rotation, same, Ne.symm same]
        · simp [rotation, same]
  | _ => simp

/-- A run completes exactly if every rotation can be normalized. -/
theorem run_returns_iff (kernel : Op A) :
    (∃ result, (run kernel).outcome = .ok result) ↔
      ∀ gate, RotationIn kernel gate →
        ∃ newGate, normalizeGate gate = .ok newGate := by
  have walked :=
    walkNode_effects normalizeAngleOfRotations_effects kernel
  have returns :
      (∃ result, (run kernel).outcome = .ok result) ↔
        ∃ result, (walkNode normalizeAngleOfRotations kernel).outcome =
          .ok result := by
    rw [run]
    cases (walkNode normalizeAngleOfRotations kernel).outcome <;>
      simp [Except.map]
  rw [returns, ← effects_returns_iff, walked, visitEach_returns_iff]
  simp only [rotationEffect_outcome]
  constructor
  · rintro each gate ⟨rotation, operation, member, isGate⟩
    exact each operation member gate isGate rotation
  · intro each operation member gate isGate rotation
    exact each gate ⟨rotation, operation, member, isGate⟩

/-- A run that completes records every rotation with its replacement. -/
theorem mem_run_trace_iff {kernel : Op A}
    (returned : ∃ result, (run kernel).outcome = .ok result)
    {normalization : Normalization A} :
    normalization ∈ (run kernel).trace ↔
      RotationIn kernel normalization.gate ∧
        normalizeGate normalization.gate =
          .ok normalization.normalized := by
  have walked :=
    walkNode_effects normalizeAngleOfRotations_effects kernel
  have completes :
      (visitEach rotationEffect
        (postOrderBlocks kernel.blocks)).outcome = .ok () := by
    rw [visitEach_returns_iff]
    intro operation member
    rw [rotationEffect_outcome]
    intro gate isGate rotation
    exact run_returns_iff kernel |>.mp returned gate
      ⟨rotation, operation, member, isGate⟩
  have trace :
      (run kernel).trace =
        (visitEach rotationEffect (postOrderBlocks kernel.blocks)).trace := by
    rw [← walked]
    rfl
  rw [trace, visitEach_trace _ completes, List.mem_flatMap]
  simp only [mem_rotationEffect_trace]
  constructor
  · rintro ⟨operation, member, isGate, rotation, normalized⟩
    exact ⟨⟨rotation, operation, member, isGate⟩, normalized⟩
  · rintro ⟨⟨rotation, operation, member, isGate⟩, normalized⟩
    exact ⟨operation, member, isGate, rotation, normalized⟩

/-- Every angle of a replacement is the result of a created constant. -/
theorem normalizeGate_parameters {gate newGate : Gate A}
    (normalized : normalizeGate gate = .ok newGate) :
    List.Forall₂
      (fun before after => normalizeParameter before = .ok after)
      gate.parameters newGate.parameters := by
  rcases except_bind_eq_ok.mp normalized with ⟨parameters, read, equal⟩
  cases equal
  exact mapM_eq_ok_iff.mp read

theorem isConstant_of_normalizeParameter {before after : FloatValue A}
    (normalized : normalizeParameter before = .ok after) :
    IsConstant after := by
  rcases except_bind_eq_ok.mp normalized with ⟨angle, read, equal⟩
  cases equal
  exact trivial

/-- A gate whose angles are all constants can be normalized. -/
theorem normalizeGate_of_constant {gate : Gate A}
    (constant : ∀ angle ∈ gate.parameters, IsConstant angle) :
    ∃ newGate, normalizeGate gate = .ok newGate := by
  have reads :
      ∀ angle ∈ gate.parameters,
        ∃ normalized, normalizeParameter angle = .ok normalized := by
    intro angle member
    cases angle with
    | constant value => exact ⟨_, rfl⟩
    | argument id => exact (constant _ member).elim
    | computed id => exact (constant _ member).elim
  rcases exists_forall₂_iff.mpr reads with ⟨normalized, read⟩
  exact ⟨_, by rw [normalizeGate, mapM_eq_ok_iff.mpr read]; rfl⟩

/--
The run completes, and where it replaces a rotation it keeps each angle that
is not a constant.
-/
def KeepsRunTimeAngles (kernel : Op A) : Prop :=
  (∃ result, (run kernel).outcome = .ok result) ∧
    ∀ normalization ∈ (run kernel).trace,
      List.Forall₂
        (fun before after => ¬ IsConstant before → after = before)
        normalization.gate.parameters normalization.normalized.parameters

/-- Run-time angles are kept exactly where there are none. -/
theorem keepsRunTimeAngles_iff (kernel : Op A) :
    KeepsRunTimeAngles kernel ↔
      ∀ gate, RotationIn kernel gate →
        ∀ angle ∈ gate.parameters, IsConstant angle := by
  constructor
  · rintro ⟨returned, kept⟩ gate rotation angle member
    rcases (run_returns_iff kernel).mp returned gate rotation with
      ⟨newGate, normalized⟩
    have recorded : ⟨gate, newGate⟩ ∈ (run kernel).trace :=
      (mem_run_trace_iff returned).mpr ⟨rotation, normalized⟩
    rcases List.get_of_mem member with ⟨index, rfl⟩
    by_contra runTime
    rcases List.forall₂_iff_get.mp (normalizeGate_parameters normalized)
      with ⟨length, created⟩
    have inside : index.val < newGate.parameters.length :=
      length ▸ index.isLt
    have same :=
      (List.forall₂_iff_get.mp (kept _ recorded)).2 index.val index.isLt
        inside runTime
    have constant :=
      isConstant_of_normalizeParameter
        (created index.val index.isLt inside)
    rw [same] at constant
    exact runTime constant
  · intro constant
    have returned :=
      (run_returns_iff kernel).mpr fun gate rotation =>
        normalizeGate_of_constant (constant gate rotation)
    refine ⟨returned, ?_⟩
    intro normalization recorded
    rcases (mem_run_trace_iff returned).mp recorded with
      ⟨rotation, normalized⟩
    have length := (normalizeGate_parameters normalized).length_eq
    refine List.forall₂_iff_get.mpr ⟨length, ?_⟩
    intro index inside _ runTime
    exact absurd (constant _ rotation _ (List.get_mem _ _)) runTime

end Runs

/-! ## A computed angle and an argument -/

/-- A rotation of one qubit by the given angle. -/
def rotationBy (angle : FloatValue ℝ) : Gate ℝ :=
  Gate.create .rx false [angle] [] [.refAlloca 0]

/--
An angle that some operation computes becomes the constant made of `-1`,
and at an angle that is an argument the pass breaks.
-/
theorem runTimeAngles_lost :
    (¬ KeepsRunTimeAngles
        (kernelOf [(rotationBy (.computed 0)).op]) ∧
      (run (kernelOf [(rotationBy (.computed 0)).op])).trace =
        [⟨rotationBy (.computed 0),
          rotationBy (.constant (normalizeAngle (-1)))⟩]) ∧
      (run (kernelOf [(rotationBy (.argument 0)).op])).outcome =
        .error .nullOperation := by
  have recorded :
      (run (kernelOf [(rotationBy (.computed 0)).op])).trace =
        [⟨rotationBy (.computed 0),
          rotationBy (.constant (normalizeAngle (-1)))⟩] := rfl
  refine ⟨⟨?_, recorded⟩, rfl⟩
  rintro ⟨-, kept⟩
  rw [recorded] at kept
  have angles := kept _ List.mem_cons_self
  rcases List.forall₂_cons.mp angles with ⟨first, -⟩
  cases first id

end MQSSPasses.Passes.RunTimeAngles

end
