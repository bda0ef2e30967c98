import MQSSPasses.General.BinaryFormat
import MQSSPasses.Passes.Confinement
import MQSSPasses.Passes.RunTimeAngles

/-!
# Angles that are read as `float`

The helper that reads an angle converts it to `float`, while the constants
of a kernel are of type `double`.  What the normalization subtracts full
turns from is the rounded angle, and what it writes is not rounded.  So the
angle it writes is congruent to the one it replaces only if that one is a
`float`, and a second run leaves it alone only if the result is one too.

Angles are the rational numbers they denote, with the infinities the
conversion can return, and the arithmetic is exact.
-/

noncomputable section

namespace MQSSPasses.Passes.NarrowedAngles

open MQSSPasses.General.TracedComputation
open MQSSPasses.General.OperationTree
open MQSSPasses.General.LabelwiseWalk
open MQSSPasses.General.BinaryFormat
open MQSSPasses.Quake.Syntax
open MQSSPasses.Quake.Operations
open MQSSPasses.Passes.NormalizeArgAngle
open MQSSPasses.Passes.Confinement
open MQSSPasses.Passes.RunTimeAngles

/-! ## The arithmetic -/

/-- The number `std::numbers::pi` denotes. -/
def pi : ℚ := 884279719003555 / 2 ^ 48

/-- A full turn, as the passes compute it. -/
def turn : ℚ := 2 * pi

/-- Exact arithmetic with a conversion to `float`. -/
scoped instance doubleAngles : TurnArithmetic Extended where
  neg := Extended.neg
  sub := Extended.sub
  mul := Extended.mul
  div := Extended.div
  intCast value := .finite value
  one := .finite 1
  pi := .finite pi
  floor := Extended.floor
  narrow := binary32.convert
  fmod := Extended.fmod
  isZero := Extended.isZero

theorem turn_pos : 0 < turn := by
  norm_num [turn, pi]

theorem turn_lt : turn < 2 ^ (3 : ℤ) := by
  norm_num [turn, pi]

/-- A full turn is a large odd number, divided by a power of two. -/
theorem turn_eq : turn = ((884279719003555 : ℤ) : ℚ) * 2 ^ (-47 : ℤ) := by
  norm_num [turn, pi, zpow_neg]

theorem numerator_odd : Odd (884279719003555 : ℤ) := by decide

/-- What is left of an angle without its full turns. -/
def remainder (angle : ℚ) : ℚ :=
  Int.fract (angle / turn) * turn

theorem remainder_add (angle : ℚ) :
    remainder angle + ⌊angle / turn⌋ * turn = angle := by
  rw [remainder, ← add_mul, Int.fract_add_floor,
    div_mul_cancel₀ _ turn_pos.ne']

theorem remainder_mem (angle : ℚ) :
    0 ≤ remainder angle ∧ remainder angle < turn :=
  Int.fract_div_mul_self_mem_Ico turn angle turn_pos

/-- The only congruent number between zero and a full turn. -/
theorem eq_remainder {angle reduced : ℚ} (nonneg : 0 ≤ reduced)
    (less : reduced < turn) (turns : ℤ)
    (congruent : angle - reduced = turns * turn) :
    reduced = remainder angle := by
  have quotient : angle / turn = reduced / turn + turns := by
    rw [eq_add_of_sub_eq congruent, add_div,
      mul_div_cancel_right₀ _ turn_pos.ne', add_comm]
  rw [remainder, quotient, Int.fract_add_intCast,
    Int.fract_eq_self.mpr
      ⟨div_nonneg nonneg turn_pos.le, (div_lt_one turn_pos).mpr less⟩,
    div_mul_cancel₀ _ turn_pos.ne']

theorem normalizeAngle_finite (angle : ℚ) :
    normalizeAngle (Extended.finite angle) =
      .finite (remainder angle) := by
  have quotient :
      Extended.div (.finite angle) (.finite turn) =
        .finite (angle / turn) :=
    if_neg turn_pos.ne'
  have unfolded :
      normalizeAngle (Extended.finite angle) =
        Extended.sub (.finite angle)
          (Extended.mul
            (Extended.mul
              (Extended.floor
                (Extended.div (.finite angle) (.finite turn)))
              (.finite (2 : ℤ)))
            (.finite pi)) := rfl
  have split := remainder_add angle
  rw [unfolded, quotient, Extended.floor, Extended.mul, Extended.mul,
    Extended.sub, Extended.neg, Extended.add, Extended.finite.injEq]
  rw [turn] at split ⊢
  push_cast
  linear_combination -split

theorem normalizeAngle_infinite (negative : Bool) :
    normalizeAngle (Extended.infinite negative) = .nan := by
  cases negative <;> decide +kernel

/-! ## One angle -/

/-- The constant is the angle without its full turns. -/
def IsNormalForm (angle : ℚ) (value : Extended) : Prop :=
  ∃ reduced : ℚ, value = .finite reduced ∧ 0 ≤ reduced ∧
    reduced < turn ∧ ∃ turns : ℤ, reduced - angle = turns * turn

/-- The angle and the congruent one in the first turn are both `float`. -/
def FloatModuloTurn (angle : ℚ) : Prop :=
  binary32.Represents angle ∧
    ∃ reduced : ℚ, binary32.Represents reduced ∧ 0 ≤ reduced ∧
      reduced < turn ∧ ∃ turns : ℤ, angle - reduced = turns * turn

theorem floatModuloTurn_iff {angle : ℚ} :
    FloatModuloTurn angle ↔
      binary32.Represents angle ∧
        binary32.Represents (remainder angle) := by
  constructor
  · rintro ⟨float, reduced, reducedFloat, nonneg, less, turns, congruent⟩
    rw [eq_remainder nonneg less _ congruent] at reducedFloat
    exact ⟨float, reducedFloat⟩
  · rintro ⟨float, reducedFloat⟩
    have inside := remainder_mem angle
    refine ⟨float, _, reducedFloat, inside.1, inside.2,
      ⌊angle / turn⌋, ?_⟩
    exact sub_eq_of_eq_add' (remainder_add angle).symm

/-- What the pass writes for a constant. -/
def written (angle : ℚ) : Extended :=
  normalizeAngle (binary32.convert (.finite angle))

/-- The number written is the remainder of the rounded angle. -/
theorem written_finite {angle reduced : ℚ}
    (made : written angle = .finite reduced) :
    reduced = remainder (binary32.round angle) ∧
      binary32.Represents (binary32.round angle) := by
  rw [written] at made
  rcases binary32.convert_finite angle with
    ⟨rounded, float⟩ | ⟨negative, overflow⟩
  · rw [rounded, normalizeAngle_finite, Extended.finite.injEq] at made
    exact ⟨made.symm, float⟩
  · rw [overflow, normalizeAngle_infinite] at made
    cases made

theorem written_of_float {angle : ℚ}
    (float : binary32.Represents angle) :
    written angle = .finite (remainder angle) := by
  rw [written, Format.convert_eq_self_iff.mpr float,
    normalizeAngle_finite]

/-- The pass writes a congruent angle exactly for the values of `float`. -/
theorem isNormalForm_written_iff {angle : ℚ}
    (double : binary64.Represents angle) :
    IsNormalForm angle (written angle) ↔ binary32.Represents angle := by
  constructor
  · rintro ⟨reduced, made, nonneg, less, turns, congruent⟩
    rcases written_finite made with ⟨equal, float⟩
    have split := remainder_add (binary32.round angle)
    rw [← equal] at split
    -- The rounding would move the angle by full turns.
    have moved :
        binary32.round angle - angle =
          (turns + ⌊binary32.round angle / turn⌋ : ℤ) *
            ((884279719003555 : ℤ) * 2 ^ (-47 : ℤ)) := by
      rw [← turn_eq]
      push_cast
      linear_combination congruent - split
    have same :=
      Format.round_eq_of_sub_eq_multiple (by decide) double numerator_odd
        (by decide) (by decide) moved
    rwa [same] at float
  · intro float
    have inside := remainder_mem angle
    have split := remainder_add angle
    refine ⟨_, written_of_float float, inside.1, inside.2,
      -⌊angle / turn⌋, ?_⟩
    push_cast
    linear_combination split

/-- A number in the first turn is kept exactly if it is a `float`. -/
theorem written_eq_self_iff {angle : ℚ} (nonneg : 0 ≤ angle)
    (less : angle < turn) :
    written angle = .finite angle ↔ binary32.Represents angle := by
  constructor
  · intro kept
    rcases written_finite kept with ⟨equal, float⟩
    have split := remainder_add (binary32.round angle)
    rw [← equal] at split
    have error :=
      @Format.abs_round_sub_le binary32 angle 3
        (by rw [abs_of_nonneg nonneg]; exact less.trans turn_lt)
        (by decide)
    -- The rounding error is less than a full turn.
    have small : (2 : ℚ) ^ (3 - (24 : ℕ) - 1 : ℤ) < turn := by
      norm_num [turn, pi, zpow_neg]
    generalize ⌊binary32.round angle / turn⌋ = turns at split
    have none : turns = 0 := by
      by_contra some
      have size : (1 : ℚ) ≤ |(turns : ℚ)| := by
        exact_mod_cast Int.one_le_abs some
      have far := le_mul_of_one_le_left turn_pos.le size
      rw [sub_eq_of_eq_add' split.symm, abs_mul, abs_of_pos turn_pos]
        at error
      exact absurd (far.trans error) (not_le.mpr small)
    rw [none, Int.cast_zero, zero_mul, add_zero] at split
    rwa [← split] at float
  · intro float
    rw [written_of_float float, Extended.finite.injEq]
    have same : angle - angle = (0 : ℤ) * turn := by simp
    exact (eq_remainder nonneg less _ same).symm

/-! ## The rotations a run leaves -/

section Result

variable {A : Type} [AngleArithmetic A]

/-- The gates of a kernel have no regions. -/
def GatesFlat (kernel : Op A) : Prop :=
  ∀ operation ∈ postOrderBlocks kernel.blocks,
    (asOperator operation).isSome → operation.blocks = []

omit [AngleArithmetic A] in
theorem rotationIn_iff {kernel : Op A} {gate : Gate A} :
    RotationIn kernel gate ↔
      isRotation gate.kind = true ∧
        OpData.gate gate ∈
          (postOrderBlocks kernel.blocks).map Node.label := by
  simp only [RotationIn, List.mem_map, asOperator_eq_some]

/-- What the pass makes of a label. -/
def normalizedLabel (label : OpData A) : Option (List (OpData A)) :=
  (normalizationOf (.leaf label)).map fun normalization =>
    [.gate normalization.normalized]

/-- A gate is a replacement exactly of the rotations it comes from. -/
theorem normalizationOf_eq_some {operation : Op A}
    {normalization : Normalization A} :
    normalizationOf operation = some normalization ↔
      asOperator operation = some normalization.gate ∧
        isRotation normalization.gate.kind = true ∧
        normalizeGate normalization.gate =
          .ok normalization.normalized := by
  rcases normalization with ⟨gate, newGate⟩
  unfold normalizationOf
  cases isGate : asOperator operation with
  | none => simp
  | some performed =>
      dsimp only
      rw [Option.some.injEq]
      by_cases rotation : isRotation performed.kind = true
      · rw [if_pos rotation]
        cases normalized : normalizeGate performed with
        | error fault =>
            simp only [reduceCtorEq, false_iff]
            rintro ⟨rfl, -, returned⟩
            rw [normalized] at returned
            cases returned
        | ok made =>
            rw [Option.some.injEq, Normalization.mk.injEq]
            constructor
            · rintro ⟨rfl, rfl⟩
              exact ⟨rfl, rotation, normalized⟩
            · rintro ⟨rfl, -, returned⟩
              rw [normalized, Except.ok.injEq] at returned
              exact ⟨rfl, returned⟩
      · rw [if_neg rotation]
        simp only [reduceCtorEq, false_iff]
        rintro ⟨rfl, holds, -⟩
        exact rotation holds

theorem normalizeGate_kind {gate newGate : Gate A}
    (normalized : normalizeGate gate = .ok newGate) :
    newGate.kind = gate.kind := by
  rcases except_bind_eq_ok.mp normalized with ⟨parameters, -, equal⟩
  cases equal
  rfl

/-- A call replaces the visited operation by the edited one. -/
theorem normalizeAngleOfRotations_carries {label : OpData A}
    (readable :
      ∀ gate, label = .gate gate → isRotation gate.kind = true →
        ∃ newGate, normalizeGate gate = .ok newGate) :
    Carries normalizeAngleOfRotations normalizedLabel label := by
  rintro visited operation rest rfl
  have normalizable :
      ∀ gate, asOperator operation = some gate →
        isRotation gate.kind = true →
          ∃ newGate, normalizeGate gate = .ok newGate :=
    fun gate isGate => readable gate (asOperator_eq_some.mp isGate)
  rcases (call_replaces normalizable visited rest).1 with
    ⟨after, returned, replaced⟩
  refine ⟨after, returned, ?_⟩
  have same :
      normalizationOf (.leaf operation.label) =
        normalizationOf operation := rfl
  rw [replaced, replacement, edited, normalizedLabel, same]
  cases normalizationOf operation <;> rfl

omit [AngleArithmetic A] in
/-- The created constants are no rotations. -/
theorem rotationIn_insertConstants
    {normalizations : List (Normalization A)} {kernel : Op A}
    {gate : Gate A} :
    RotationIn (insertConstants (createdConstants normalizations) kernel)
        gate ↔
      RotationIn kernel gate := by
  have none :
      OpData.gate gate ∉
        (createdConstants normalizations).map Node.label := by
    simp [createdConstants]
  have flat :
      ∀ operation ∈ createdConstants normalizations,
        operation.blocks = [] := by
    intro operation member
    simp only [createdConstants, List.mem_flatMap, List.mem_map] at member
    rcases member with ⟨-, -, -, -, rfl⟩
    rfl
  rcases kernel with ⟨label, blocks⟩
  cases blocks with
  | nil => exact Iff.rfl
  | cons entry others =>
      rw [rotationIn_iff, rotationIn_iff, insertConstants, Node.blocks_mk,
        Node.blocks_mk, postOrderBlocks, postOrderBlocks,
        postOrderBlock_append, postOrderBlock_of_flat flat,
        List.append_assoc, List.map_append, List.mem_append,
        or_iff_right none]

/-- What a run that returns has made of the kernel. -/
theorem run_result_eq {kernel result : Op A}
    (returned : (run kernel).outcome = .ok result) :
    result =
      insertConstants
        (createdConstants
          (walkNode normalizeAngleOfRotations kernel).trace)
        (rebuild normalizedLabel kernel) := by
  have readable := (run_returns_iff kernel).mp ⟨result, returned⟩
  have walked :
      (walkNode normalizeAngleOfRotations kernel).outcome =
        .ok (rebuild normalizedLabel kernel) := by
    apply walkNode_rebuild
    intro operation member
    apply normalizeAngleOfRotations_carries
    intro performed isGate rotation
    exact readable performed
      ⟨rotation, operation, member, asOperator_eq_some.mpr isGate⟩
  rw [run, walked] at returned
  cases returned
  rfl

theorem normalizedLabel_editsFlat {kernel : Op A}
    (flat : GatesFlat kernel) :
    EditsFlat normalizedLabel (postOrderBlocks kernel.blocks) := by
  intro operation member isEdited
  apply flat operation member
  rw [normalizedLabel, Option.isSome_map] at isEdited
  rcases Option.isSome_iff_exists.mp isEdited with ⟨normalization, made⟩
  have isGate : asOperator operation = some normalization.gate :=
    (normalizationOf_eq_some.mp made).1
  rw [isGate]
  rfl

/-- The rotations a run leaves are the normalized ones. -/
theorem rotationIn_run_iff {kernel result : Op A}
    (flat : GatesFlat kernel)
    (returned : (run kernel).outcome = .ok result) {gate : Gate A} :
    RotationIn result gate ↔
      ∃ before, RotationIn kernel before ∧
        normalizeGate before = .ok gate := by
  have readable := (run_returns_iff kernel).mp ⟨result, returned⟩
  rw [run_result_eq returned, rotationIn_insertConstants, rotationIn_iff,
    rebuild_labels kernel (normalizedLabel_editsFlat flat)]
  simp only [List.mem_flatMap]
  constructor
  · rintro ⟨rotation, operation, member, label⟩
    cases made : normalizationOf (.leaf operation.label) with
    | none =>
        -- A rotation that is not replaced could not have been read.
        rw [editedLabels, normalizedLabel, made] at label
        have isGate : asOperator operation = some gate :=
          asOperator_eq_some.mpr (List.mem_singleton.mp label).symm
        rcases readable gate ⟨rotation, operation, member, isGate⟩ with
          ⟨newGate, normalized⟩
        have replaced :
            normalizationOf (.leaf operation.label) =
              some ⟨gate, newGate⟩ :=
          normalizationOf_eq_some.mpr ⟨isGate, rotation, normalized⟩
        rw [made] at replaced
        cases replaced
    | some normalization =>
        rcases normalizationOf_eq_some.mp made with
          ⟨isGate, before, normalized⟩
        rw [editedLabels, normalizedLabel, made] at label
        have equal := List.mem_singleton.mp label
        rw [OpData.gate.injEq] at equal
        rw [equal]
        exact ⟨normalization.gate, ⟨before, operation, member, isGate⟩,
          normalized⟩
  · rintro ⟨before, ⟨rotation, operation, member, isGate⟩, normalized⟩
    have made :
        normalizationOf (.leaf operation.label) =
          some ⟨before, gate⟩ :=
      normalizationOf_eq_some.mpr ⟨isGate, rotation, normalized⟩
    refine ⟨?_, operation, member, ?_⟩
    · rw [normalizeGate_kind normalized]
      exact rotation
    · rw [editedLabels, normalizedLabel, made]
      exact List.mem_singleton_self _

end Result

/-! ## Whole runs -/

/-- The constants of the rotations are numbers of type `double`. -/
def DoubleConstants (kernel : Op Extended) : Prop :=
  ∀ gate, RotationIn kernel gate →
    ∀ value, FloatValue.constant value ∈ gate.parameters →
      ∃ angle, value = .finite angle ∧ binary64.Represents angle

/--
The run completes, each constant angle becomes the congruent one in the
first turn, and a second run completes and changes no angle.
-/
def NormalizesAngles (kernel : Op Extended) : Prop :=
  ∃ result, (run kernel).outcome = .ok result ∧
    (∀ normalization ∈ (run kernel).trace,
      List.Forall₂
        (fun before after =>
          ∀ angle, before = .constant (.finite angle) →
            ∃ value, after = .constant value ∧ IsNormalForm angle value)
        normalization.gate.parameters
        normalization.normalized.parameters) ∧
    (∃ again, (run result).outcome = .ok again) ∧
    ∀ normalization ∈ (run result).trace,
      normalization.normalized.parameters =
        normalization.gate.parameters

/-- What the two runs do to one angle. -/
def Settles (before after : FloatValue Extended) : Prop :=
  normalizeParameter before = .ok after ∧
    (∀ angle, before = .constant (.finite angle) →
      ∃ value, after = .constant value ∧ IsNormalForm angle value) ∧
    normalizeParameter after = .ok after

theorem normalizeParameter_constant (angle : ℚ) :
    normalizeParameter (.constant (.finite angle)) =
      .ok (.constant (written angle)) := rfl

/-- An odd multiple of the last place of a full turn is no `float`. -/
theorem not_represents_of_odd {numerator : ℤ} (odd : Odd numerator)
    (large : 2 ^ 24 ≤ numerator) {right : ℤ} :
    ¬ binary32.Represents ((numerator : ℚ) * 2 ^ right) := by
  intro float
  have whole :
      (numerator : ℚ) * 2 ^ right = (1 : ℤ) * (numerator * 2 ^ right) := by
    rw [Int.cast_one, one_mul]
  have zero := float.eq_zero_of_multiple odd large whole
  have positive : (0 : ℚ) < numerator := by
    exact_mod_cast lt_of_lt_of_le (by norm_num) large
  exact (mul_pos positive (Format.two_zpow_pos right)).ne' zero

theorem remainder_neg_one :
    remainder (-1) =
      ((743542230648227 : ℤ) : ℚ) * 2 ^ (-47 : ℤ) := by
  have reduced :
      ((743542230648227 : ℤ) : ℚ) * 2 ^ (-47 : ℤ) = turn - 1 := by
    norm_num [turn, pi, zpow_neg]
  rw [reduced]
  symm
  refine eq_remainder ?_ (sub_one_lt turn) (-1) ?_
  · norm_num [turn, pi]
  · push_cast
    ring

/-- An angle that is not a constant is read as `-1`. -/
theorem normalizeParameter_computed (id : ℕ) :
    normalizeParameter (.computed id : FloatValue Extended) =
      .ok (.constant (.finite (remainder (-1)))) := by
  rw [← normalizeAngle_finite]
  rfl

/-- The two runs settle an angle exactly if it is a `float` modulo turns. -/
theorem settles_iff {before : FloatValue Extended}
    (double :
      ∀ value, before = .constant value →
        ∃ angle, value = .finite angle ∧ binary64.Represents angle) :
    (∃ after, Settles before after) ↔
      ∃ angle, before = .constant (.finite angle) ∧
        FloatModuloTurn angle := by
  constructor
  · rintro ⟨after, made, normal, kept⟩
    cases before with
    | argument id => cases made
    | computed id =>
        rw [normalizeParameter_computed, Except.ok.injEq] at made
        have inside := remainder_mem (-1)
        rw [← made, normalizeParameter_constant, Except.ok.injEq,
          FloatValue.constant.injEq,
          written_eq_self_iff inside.1 inside.2, remainder_neg_one] at kept
        exact absurd kept (not_represents_of_odd (by decide) (by decide))
    | constant value =>
        rcases double value rfl with ⟨angle, rfl, represents⟩
        rw [normalizeParameter_constant, Except.ok.injEq] at made
        rcases normal angle rfl with ⟨value, equal, form⟩
        rw [← made, FloatValue.constant.injEq] at equal
        rw [← equal] at form
        have float := (isNormalForm_written_iff represents).mp form
        refine ⟨angle, rfl, floatModuloTurn_iff.mpr ⟨float, ?_⟩⟩
        have inside := remainder_mem angle
        apply (written_eq_self_iff inside.1 inside.2).mp
        rw [← made, written_of_float float, normalizeParameter_constant,
          Except.ok.injEq, FloatValue.constant.injEq] at kept
        exact kept
  · rintro ⟨angle, rfl, modulo⟩
    rcases floatModuloTurn_iff.mp modulo with ⟨float, reducedFloat⟩
    rcases double _ rfl with ⟨same, equal, represents⟩
    cases equal
    have inside := remainder_mem angle
    refine ⟨.constant (.finite (remainder angle)), ?_, ?_, ?_⟩
    · rw [normalizeParameter_constant, written_of_float float]
    · rintro other equal
      cases equal
      refine ⟨_, rfl, ?_⟩
      rw [← written_of_float float]
      exact (isNormalForm_written_iff represents).mpr float
    · rw [normalizeParameter_constant,
        (written_eq_self_iff inside.1 inside.2).mpr reducedFloat]

/-- A gate whose angles are normalized one by one. -/
theorem normalizeGate_eq_ok {gate : Gate Extended}
    {parameters : List (FloatValue Extended)}
    (normalized :
      List.Forall₂
        (fun before after => normalizeParameter before = .ok after)
        gate.parameters parameters) :
    normalizeGate gate =
      .ok (.create gate.kind gate.isAdj parameters gate.controls
        gate.targets) := by
  rw [normalizeGate, mapM_eq_ok_iff.mpr normalized]
  rfl

/-- Settled angles stay as they are. -/
theorem settled_again {parameters settled : List (FloatValue Extended)}
    (each : List.Forall₂ Settles parameters settled) :
    List.Forall₂
      (fun before after => normalizeParameter before = .ok after)
      settled settled := by
  induction each with
  | nil => exact .nil
  | cons first _ induction => exact .cons first.2.2 induction

theorem settles_of_normalizesAngles {kernel : Op Extended}
    (flat : GatesFlat kernel) (normalizes : NormalizesAngles kernel)
    {gate : Gate Extended} (rotation : RotationIn kernel gate) :
    ∀ parameter ∈ gate.parameters, ∃ after, Settles parameter after := by
  rcases normalizes with ⟨result, returned, normal, again, kept⟩
  rcases (run_returns_iff kernel).mp ⟨result, returned⟩ gate rotation
    with ⟨newGate, normalized⟩
  have left : RotationIn result newGate :=
    (rotationIn_run_iff flat returned).mpr ⟨gate, rotation, normalized⟩
  rcases (run_returns_iff result).mp again newGate left with
    ⟨lastGate, normalizedAgain⟩
  have first :=
    normal ⟨gate, newGate⟩
      ((mem_run_trace_iff ⟨result, returned⟩).mpr ⟨rotation, normalized⟩)
  have second :=
    kept ⟨newGate, lastGate⟩
      ((mem_run_trace_iff again).mpr ⟨left, normalizedAgain⟩)
  have made := normalizeGate_parameters normalized
  have madeAgain := normalizeGate_parameters normalizedAgain
  dsimp only at first second
  rw [second] at madeAgain
  intro parameter member
  rcases List.get_of_mem member with ⟨index, rfl⟩
  have inside : index.val < newGate.parameters.length :=
    made.length_eq ▸ index.isLt
  exact ⟨newGate.parameters.get ⟨index.val, inside⟩,
    made.get index.isLt inside, first.get index.isLt inside,
    madeAgain.get inside inside⟩

/-- A gate whose angles settle is normalized to settled ones. -/
theorem normalizeGate_settles {gate : Gate Extended}
    (settles :
      ∀ parameter ∈ gate.parameters, ∃ after, Settles parameter after) :
    ∃ newGate, normalizeGate gate = .ok newGate ∧
      List.Forall₂ Settles gate.parameters newGate.parameters := by
  rcases exists_forall₂_iff.mpr settles with ⟨parameters, settled⟩
  exact ⟨_, normalizeGate_eq_ok (settled.imp fun _ _ each => each.1),
    settled⟩

theorem normalizesAngles_of_settles {kernel : Op Extended}
    (flat : GatesFlat kernel)
    (settles :
      ∀ gate, RotationIn kernel gate →
        ∀ parameter ∈ gate.parameters,
          ∃ after, Settles parameter after) :
    NormalizesAngles kernel := by
  have completes : ∃ result, (run kernel).outcome = .ok result :=
    (run_returns_iff kernel).mpr fun gate rotation => by
      rcases normalizeGate_settles (settles gate rotation) with
        ⟨newGate, made, -⟩
      exact ⟨newGate, made⟩
  rcases completes with ⟨result, returned⟩
  have settled {gate newGate : Gate Extended}
      (rotation : RotationIn kernel gate)
      (normalized : normalizeGate gate = .ok newGate) :
      List.Forall₂ Settles gate.parameters newGate.parameters := by
    rcases normalizeGate_settles (settles gate rotation) with
      ⟨other, made, each⟩
    rw [normalized] at made
    cases made
    exact each
  have repeated {gate : Gate Extended}
      (rotation : RotationIn result gate) :
      normalizeGate gate =
        .ok (.create gate.kind gate.isAdj gate.parameters gate.controls
          gate.targets) := by
    rcases (rotationIn_run_iff flat returned).mp rotation with
      ⟨before, there, normalized⟩
    exact normalizeGate_eq_ok (settled_again (settled there normalized))
  have again : ∃ last, (run result).outcome = .ok last :=
    (run_returns_iff result).mpr fun gate rotation =>
      ⟨_, repeated rotation⟩
  refine ⟨result, returned, ?_, again, ?_⟩
  · intro normalization recorded
    rcases (mem_run_trace_iff ⟨result, returned⟩).mp recorded with
      ⟨rotation, normalized⟩
    exact (settled rotation normalized).imp fun _ _ each => each.2.1
  · intro normalization recorded
    rcases (mem_run_trace_iff again).mp recorded with
      ⟨rotation, normalized⟩
    rw [repeated rotation, Except.ok.injEq] at normalized
    exact (congrArg Gate.parameters normalized).symm

/-- The property of a kernel is that its angles are settled. -/
theorem normalizesAngles_iff_settles {kernel : Op Extended}
    (flat : GatesFlat kernel) :
    NormalizesAngles kernel ↔
      ∀ gate, RotationIn kernel gate →
        ∀ parameter ∈ gate.parameters,
          ∃ after, Settles parameter after :=
  ⟨fun normalizes _ => settles_of_normalizesAngles flat normalizes,
    normalizesAngles_of_settles flat⟩

/--
Two runs normalize the angles exactly if each is a constant that is a
`float`, and so is the congruent number in the first turn.
-/
theorem normalizesAngles_iff {kernel : Op Extended}
    (flat : GatesFlat kernel) (double : DoubleConstants kernel) :
    NormalizesAngles kernel ↔
      ∀ gate, RotationIn kernel gate →
        ∀ parameter ∈ gate.parameters,
          ∃ angle, parameter = .constant (.finite angle) ∧
            FloatModuloTurn angle := by
  rw [normalizesAngles_iff_settles flat]
  refine forall₂_congr fun gate rotation =>
    forall₂_congr fun parameter member => ?_
  apply settles_iff
  rintro value rfl
  exact double gate rotation value member

/-! ### One tenth -/

/-- The number of type `double` closest to one tenth. -/
def tenth : ℚ := 3602879701896397 / 2 ^ 55

/-- A rotation of one qubit by a constant. -/
def rotationByConstant (kind : GateKind) (angle : ℚ) : Gate Extended :=
  .create kind false [.constant (.finite angle)] []
    [.extractRef (.veqAlloca 0 1) (.constant 0)]

theorem rotationIn_single {gate other : Gate Extended} :
    RotationIn (kernelOf [gate.op]) other ↔
      isRotation gate.kind = true ∧ other = gate := by
  rw [rotationIn_iff]
  constructor
  · rintro ⟨rotation, member⟩
    have equal : other = gate := by
      simpa [kernelOf, Gate.op, Node.leaf, postOrderBlocks, postOrderBlock,
        postOrder] using member
    exact ⟨equal ▸ rotation, equal⟩
  · rintro ⟨rotation, rfl⟩
    refine ⟨rotation, ?_⟩
    simp [kernelOf, Gate.op, Node.leaf, postOrderBlocks, postOrderBlock,
      postOrder]

theorem tenth_eq : tenth = ((3602879701896397 : ℤ) : ℚ) * 2 ^ (-55 : ℤ) := by
  norm_num [tenth, zpow_neg]

/-- Small multiples of powers of two are numbers of type `double`. -/
theorem represents_double {angle : ℚ} (small : |angle| < 2 ^ (3 : ℤ))
    {significand exponent : ℤ} (digits : |significand| < 2 ^ 53)
    (least : -1074 ≤ exponent) (equal : angle = significand * 2 ^ exponent) :
    binary64.Represents angle := by
  have room : (2 : ℚ) ^ (3 : ℤ) ≤ 2 ^ (1024 : ℤ) :=
    zpow_le_zpow_right₀ one_le_two (by decide)
  exact ⟨small.trans_le room, significand, exponent, digits, least, equal⟩

/-- A kernel of one rotation by a constant is well formed. -/
theorem single_wellFormed {kind : GateKind} {angle : ℚ}
    (double : binary64.Represents angle) :
    GatesFlat (kernelOf [(rotationByConstant kind angle).op]) ∧
      DoubleConstants (kernelOf [(rotationByConstant kind angle).op]) := by
  constructor
  · intro operation member isGate
    have equal : operation = (rotationByConstant kind angle).op := by
      simpa [kernelOf, Gate.op, Node.leaf, postOrderBlocks, postOrderBlock,
        postOrder] using member
    rw [equal]
    rfl
  · intro gate rotation value member
    rw [rotationIn_single] at rotation
    rw [rotation.2] at member
    cases List.mem_singleton.mp member
    exact ⟨angle, rfl, double⟩

theorem tenth_double : binary64.Represents tenth := by
  refine represents_double ?_ (by decide) (by decide) tenth_eq
  norm_num [tenth, abs_lt]

/-- One tenth is rounded, so what the pass writes is not congruent to it. -/
theorem tenth_not_normalized :
    GatesFlat (kernelOf [(rotationByConstant .rx tenth).op]) ∧
      DoubleConstants (kernelOf [(rotationByConstant .rx tenth).op]) ∧
      ¬ IsNormalForm tenth (written tenth) ∧
      ¬ NormalizesAngles (kernelOf [(rotationByConstant .rx tenth).op]) := by
  have wellFormed := @single_wellFormed .rx tenth tenth_double
  have rounded : ¬ binary32.Represents tenth := by
    rw [tenth_eq]
    exact not_represents_of_odd (by decide) (by decide)
  refine ⟨wellFormed.1, wellFormed.2, ?_, ?_⟩
  · rw [isNormalForm_written_iff tenth_double]
    exact rounded
  · rw [normalizesAngles_iff_settles wellFormed.1]
    intro settles
    have here :
        RotationIn (kernelOf [(rotationByConstant .rx tenth).op])
          (rotationByConstant .rx tenth) :=
      rotationIn_single.mpr ⟨rfl, rfl⟩
    have settled := settles _ here _ List.mem_cons_self
    rw [settles_iff fun value equal => by
      cases equal
      exact ⟨tenth, rfl, tenth_double⟩] at settled
    rcases settled with ⟨angle, equal, modulo⟩
    cases equal
    exact rounded modulo.1

theorem half_double : binary64.Represents (1 / 2) := by
  refine @represents_double _ ?_ 1 (-1) (by decide) (by decide)
    (by norm_num)
  norm_num [abs_lt]

/-- One half is a `float` in the first turn. -/
theorem half_normalized_iff :
    NormalizesAngles (kernelOf [(rotationByConstant .rz (1 / 2)).op]) ↔
      ∀ gate,
        RotationIn (kernelOf [(rotationByConstant .rz (1 / 2)).op]) gate →
          ∀ parameter ∈ gate.parameters,
            ∃ angle, parameter = .constant (.finite angle) ∧
              FloatModuloTurn angle := by
  have wellFormed := @single_wellFormed .rz (1 / 2) half_double
  exact normalizesAngles_iff wellFormed.1 wellFormed.2

end MQSSPasses.Passes.NarrowedAngles

end
