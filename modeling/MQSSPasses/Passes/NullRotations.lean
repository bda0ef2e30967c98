import MQSSPasses.Passes.NarrowedAngles

/-!
# The null rotations that are found

The pass compares the remainder of an angle by a full turn with zero.  The
angle it compares is the one that was rounded to `float`, and a full turn
has more digits than a `float`.  So no angle passes the test but one that
is rounded to zero: the pass erases a rotation exactly if its angle is at
most half the smallest positive `float`, whatever its controls are.
-/

noncomputable section

namespace MQSSPasses.Passes.NullRotations

open MQSSPasses.General.TracedComputation
open MQSSPasses.General.OperationTree
open MQSSPasses.General.LabelwiseWalk
open MQSSPasses.General.BinaryFormat
open MQSSPasses.General.ControlledElement
open MQSSPasses.General.QubitOperators
open MQSSPasses.General.RotationTurns
open MQSSPasses.Quake.Syntax
open MQSSPasses.Quake.Operations
open MQSSPasses.Quake.Semantics
open MQSSPasses.Passes.Rewriting
open MQSSPasses.Passes.NormalizeArgAngle
open MQSSPasses.Passes.Confinement
open MQSSPasses.Passes.RunTimeAngles
open MQSSPasses.Passes.NarrowedAngles

/-! ## The decision at a gate -/

section Decision

variable {A : Type} [TurnArithmetic A]

/-- The test of one angle. -/
def isNull (parameter : FloatValue A) : Except Fault Bool := do
  let param ← extractDoubleArgumentValue AngleArithmetic.narrow parameter
  return checkDoublePiMultiplies param || TurnArithmetic.isZero param

/-- Every angle passes the test. -/
def allNull (gate : Gate A) : Except Fault Bool := do
  let null ← gate.parameters.mapM isNull
  return null.all id

/-- What the pass decides at an operation with a label. -/
def decision (label : OpData A) : Except Fault Bool :=
  match label with
  | .gate gate => if isRotation gate.kind then allNull gate else .ok false
  | _ => .ok false

theorem nullRotationCancellation_eq (before : Block A) (operation : Op A) :
    nullRotationCancellation before operation =
      (decision operation.label).map fun erased =>
        if erased then some ⟨[], before, none, []⟩ else none := by
  unfold nullRotationCancellation decision asOperator
  cases operation.label with
  | gate gate =>
      dsimp only
      by_cases rotation : isRotation gate.kind = true
      · rw [if_pos rotation, if_pos rotation, allNull]
        change gate.parameters.mapM isNull >>= _ = _
        cases gate.parameters.mapM isNull with
        | error fault => rfl
        | ok null =>
            simp only [bind, Except.bind, pure, Except.pure, Except.map]
            cases null.all id <;> rfl
      · rw [if_neg rotation, if_neg rotation]
        rfl
  | _ => rfl

/-- The erased labels. -/
def erasedLabel (label : OpData A) : Option (List (OpData A)) :=
  match decision label with
  | .ok true => some []
  | _ => none

theorem mem_editedLabels {label other : OpData A} {erased : Bool}
    (decided : decision label = .ok erased) :
    other ∈ editedLabels erasedLabel label ↔
      label = other ∧ decision label = .ok false := by
  rw [editedLabels, erasedLabel, decided]
  cases erased <;> simp [eq_comm]

variable {stale : StaleRead}

/-- A call that decides erases the visited operation or keeps it. -/
theorem call_carries {label : OpData A} {erased : Bool}
    (decided : decision label = .ok erased) :
    Carries (rewriteInOrder stale [nullRotationCancellation]) erasedLabel
      label := by
  rintro visited operation rest rfl
  have planned := nullRotationCancellation_eq visited operation
  rw [decided] at planned
  refine ⟨_, rewriteInOrder_decided planned, ?_⟩
  rw [edited, erasedLabel, decided]
  cases erased <;> simp [Plan.apply, Cursor.visited, Cursor.enter]

/-- The call of the pass, which only records that it erases. -/
def call (stale : StaleRead) : Callback (OpData A) Fault Unit :=
  fun cursor =>
    (rewriteInOrder stale [nullRotationCancellation] cursor).mapTrace
      fun _ => ()

/-- What a call records and whether it fails. -/
def nullEffect (label : OpData A) : Traced Fault Unit Unit := do
  if ← Traced.ofExcept (decision label) then
    Traced.record ()

theorem call_effects (visited : Block A) (operation : Op A)
    (rest : Block A) :
    effects (call stale (.enter visited operation rest)) =
      nullEffect operation.label := by
  have planned := nullRotationCancellation_eq visited operation
  have only :
      rewriteInOrder stale [nullRotationCancellation]
          (.enter visited operation rest) =
        rewrite stale nullRotationCancellation
          (.enter visited operation rest) :=
    Traced.bind_pure_eq _
  rw [call, only, nullEffect]
  simp only [rewrite, Cursor.enter, planned]
  cases decision operation.label with
  | error fault => rfl
  | ok erased => cases erased <;> rfl

theorem nullEffect_outcome (operation : Op A) :
    (nullEffect operation.label).outcome = .ok () ↔
      ∀ gate, asOperator operation = some gate →
        isRotation gate.kind = true →
          ∃ erased, allNull gate = .ok erased := by
  have decides :
      (nullEffect operation.label).outcome = .ok () ↔
        ∃ erased, decision operation.label = .ok erased := by
    rw [nullEffect]
    cases decision operation.label with
    | error fault =>
        rw [Traced.bind_of_error (Traced.ofExcept_outcome _)]
        simp
    | ok erased => cases erased <;> simp
  rw [decides]
  unfold decision asOperator
  cases operation.label with
  | gate gate =>
      by_cases rotation : isRotation gate.kind = true <;> simp [rotation]
  | _ => simp

/-- A run completes exactly if every angle can be read. -/
theorem run_returns_iff (stale : StaleRead) (kernel : Op A) :
    (∃ result,
        (operationsOnQuantumKernel stale [nullRotationCancellation]
          kernel).outcome = .ok result) ↔
      ∀ gate, RotationIn kernel gate →
        ∃ erased, allNull gate = .ok erased := by
  have outcomes (cursor : Cursor (Op A)) :
      (rewriteInOrder stale [nullRotationCancellation] cursor).outcome =
        (call stale cursor).outcome := rfl
  rw [operationsOnQuantumKernel, walkNode_outcome_congr outcomes kernel,
    ← effects_returns_iff, walkNode_effects call_effects,
    visitEach_returns_iff]
  simp only [nullEffect_outcome]
  constructor
  · rintro each gate ⟨rotation, operation, member, isGate⟩
    exact each operation member gate isGate rotation
  · intro each operation member gate isGate rotation
    exact each gate ⟨rotation, operation, member, isGate⟩

/-- The pass decides at each operation of a kernel whose run returns. -/
theorem decision_returns {kernel result : Op A}
    (returned :
      (operationsOnQuantumKernel stale [nullRotationCancellation]
        kernel).outcome = .ok result) :
    ∀ operation ∈ postOrderBlocks kernel.blocks,
      ∃ erased, decision operation.label = .ok erased := by
  have readable := (run_returns_iff stale kernel).mp ⟨result, returned⟩
  intro operation member
  unfold decision
  cases label : operation.label with
  | gate performed =>
      dsimp only
      by_cases rotation : isRotation performed.kind = true
      · rw [if_pos rotation]
        exact readable performed
          ⟨rotation, operation, member, asOperator_eq_some.mpr label⟩
      · exact ⟨false, if_neg rotation⟩
  | _ => exact ⟨false, rfl⟩

/-- What a run that returns has made of the kernel. -/
theorem result_eq_rebuild {kernel result : Op A}
    (returned :
      (operationsOnQuantumKernel stale [nullRotationCancellation]
        kernel).outcome = .ok result) :
    result = rebuild erasedLabel kernel := by
  have walked :
      (operationsOnQuantumKernel stale [nullRotationCancellation]
        kernel).outcome = .ok (rebuild erasedLabel kernel) := by
    apply walkNode_rebuild
    intro operation member
    rcases decision_returns returned operation member with
      ⟨erased, decided⟩
    exact call_carries decided
  rw [walked, Except.ok.injEq] at returned
  exact returned.symm

theorem erasedLabel_editsFlat {kernel : Op A} (flat : GatesFlat kernel) :
    EditsFlat (erasedLabel : OpData A → Option (List (OpData A)))
      (postOrderBlocks kernel.blocks) := by
  intro operation member isEdited
  apply flat operation member
  unfold erasedLabel decision at isEdited
  unfold asOperator
  cases label : operation.label with
  | gate performed => rfl
  | _ =>
      rw [label] at isEdited
      cases isEdited

/-- The rotations a run leaves are those that fail the test. -/
theorem rotationIn_result_iff {kernel result : Op A}
    (flat : GatesFlat kernel)
    (returned :
      (operationsOnQuantumKernel stale [nullRotationCancellation]
        kernel).outcome = .ok result) {gate : Gate A} :
    RotationIn result gate ↔
      RotationIn kernel gate ∧ allNull gate = .ok false := by
  have decides := decision_returns returned
  rw [result_eq_rebuild returned, rotationIn_iff,
    rebuild_labels kernel (erasedLabel_editsFlat flat), rotationIn_iff]
  simp only [List.mem_flatMap, List.mem_map]
  have rotates (rotation : isRotation gate.kind = true) :
      decision (.gate gate) = allNull gate :=
    if_pos rotation
  constructor
  · rintro ⟨rotation, operation, member, kept⟩
    rcases decides operation member with ⟨erased, decided⟩
    rcases (mem_editedLabels decided).mp kept with ⟨label, refused⟩
    rw [label, rotates rotation] at refused
    exact ⟨⟨rotation, operation, member, label⟩, refused⟩
  · rintro ⟨⟨rotation, operation, member, label⟩, refused⟩
    rcases decides operation member with ⟨erased, decided⟩
    refine ⟨rotation, operation, member, ?_⟩
    rw [mem_editedLabels decided, label, rotates rotation]
    exact ⟨rfl, refused⟩

end Decision

/-! ## The angles that pass the test -/

/-- The rounded angle passes the test exactly if it is zero. -/
theorem isNull_constant (angle : ℚ) :
    isNull (.constant (.finite angle) : FloatValue Extended) =
      .ok (decide (|angle| ≤ 2 ^ (-150 : ℤ))) := by
  have unfolded :
      isNull (.constant (.finite angle) : FloatValue Extended) =
        .ok
          (checkDoublePiMultiplies (binary32.convert (.finite angle)) ||
            Extended.isZero (binary32.convert (.finite angle))) := rfl
  have vanishes :
      binary32.round angle = 0 ↔ |angle| ≤ 2 ^ (-150 : ℤ) :=
    Format.round_eq_zero_iff
  rw [unfolded, Except.ok.injEq, Bool.eq_iff_iff, Bool.or_eq_true,
    decide_eq_true_eq, ← vanishes]
  rcases binary32.convert_finite angle with
    ⟨rounded, float⟩ | ⟨negative, overflow⟩
  · have zero :
        Extended.isZero (.finite (binary32.round angle)) = true ↔
          binary32.round angle = 0 :=
      decide_eq_true_iff
    rw [rounded, zero, or_iff_right_of_imp]
    intro multiple
    rcases (Extended.isZero_fmod_iff turn_pos.ne').mp multiple with
      ⟨turns, equal⟩
    rw [turn_eq] at equal
    -- A full turn has more digits than a value of type `float`.
    exact float.eq_zero_of_multiple numerator_odd (by decide) equal
  · rw [overflow]
    constructor
    · rintro (multiple | zero)
      · cases multiple
      · cases zero
    · intro zero
      rw [Format.convert, zero, abs_zero,
        if_pos (Format.two_zpow_pos _)] at overflow
      cases overflow

theorem allNull_constant {gate : Gate Extended} {angle : ℚ}
    (constant : gate.parameters = [.constant (.finite angle)]) :
    allNull gate = .ok (decide (|angle| ≤ 2 ^ (-150 : ℤ))) := by
  rw [allNull, constant, List.mapM_cons, isNull_constant, List.mapM_nil]
  simp [bind, Except.bind, pure, Except.pure]

/-- An angle that is not read at run time only can be read. -/
theorem allNull_returns_iff {gate : Gate Extended} :
    (∃ erased, allNull gate = .ok erased) ↔
      ∀ id, FloatValue.argument id ∉ gate.parameters := by
  have decides :
      (∃ erased, allNull gate = .ok erased) ↔
        ∃ null, gate.parameters.mapM isNull = .ok null := by
    rw [allNull]
    cases gate.parameters.mapM isNull <;>
      simp [bind, Except.bind, pure, Except.pure]
  simp only [decides, mapM_eq_ok_iff, exists_forall₂_iff]
  constructor
  · intro readable id member
    rcases readable _ member with ⟨null, read⟩
    cases read
  · intro none parameter member
    cases parameter with
    | argument id => exact absurd member (none id)
    | constant value => exact ⟨_, rfl⟩
    | computed id => exact ⟨_, rfl⟩

/-! ## Whole runs -/

/-- The rotations have no regions and one target. -/
structure WellFormedRotations (kernel : Op Extended) : Prop where
  flat : GatesFlat kernel
  target :
    ∀ gate, RotationIn kernel gate → ∃ target, gate.targets = [target]

section Runs

variable {Q : Type} [DecidableEq Q] (interp : Interpretation Extended Q)

/-- Constants are read as multiples of the constant `pi`. -/
def ReadsTurns : Prop :=
  ∀ angle : ℚ,
    interp.angle (.constant (.finite angle)) = (angle / pi : ℚ) * Real.pi

/--
The run completes; it erases a rotation without controls exactly if its
angle is a multiple of a full turn, one with controls only if its angle is
a multiple of two full turns, and only gates that are the identity up to a
phase.
-/
def CancelsNullRotations (stale : StaleRead) (kernel : Op Extended) :
    Prop :=
  ∃ result,
    (operationsOnQuantumKernel stale [nullRotationCancellation]
      kernel).outcome = .ok result ∧
    ∀ gate, RotationIn kernel gate →
      ∀ angle : ℚ, gate.parameters = [.constant (.finite angle)] →
        (gate.controls = [] →
          (¬ RotationIn result gate ↔
            ∃ turns : ℤ, angle = turns * turn)) ∧
        (gate.controls ≠ [] → ¬ RotationIn result gate →
          ∃ turns : ℤ, angle = turns * (2 * turn)) ∧
        (¬ RotationIn result gate →
          EqualUpToPhase (gateOperator interp gate) 1)

/-- No angle the pass has to read is an argument of the kernel. -/
def NoArgumentAngle (kernel : Op Extended) : Prop :=
  ∀ gate, RotationIn kernel gate →
    ∀ id, FloatValue.argument id ∉ gate.parameters

/-- The angle is zero, or it is not rounded to zero and is no null angle. -/
def SeenRight (gate : Gate Extended) (angle : ℚ) : Prop :=
  angle = 0 ∨
    2 ^ (-150 : ℤ) < |angle| ∧
      (gate.controls = [] → ∀ turns : ℤ, angle ≠ turns * turn)

/-- A rotation by nothing is the identity. -/
theorem gateOperator_of_zero (reads : ReadsTurns interp)
    {gate : Gate Extended} (rotation : isRotation gate.kind = true)
    {target : QuantumValue} (one : gate.targets = [target])
    (zero : gate.parameters = [.constant (.finite 0)]) :
    gateOperator interp gate = 1 := by
  have angle : interp.angle (.constant (.finite 0)) = 0 := by
    rw [reads, zero_div, Rat.cast_zero, zero_mul]
  have matrix :=
    standardMatrix_of_rotation rotation (interp.angle (.constant (.finite 0)))
  rw [angle, (axisRotation_isRotationFamily gate.kind).zero] at matrix
  have nothing : targetOperator interp gate = 1 := by
    rw [targetOperator, zero, one]
    simp only [List.map_cons, List.map_nil, angle, matrix]
    rw [withAdjoint_one, map_one]
  rw [gateOperator, nothing, controlled_one_right]

/-- What the run erases. -/
theorem not_rotationIn_result_iff {kernel result : Op Extended}
    {stale : StaleRead} (flat : GatesFlat kernel)
    (returned :
      (operationsOnQuantumKernel stale [nullRotationCancellation]
        kernel).outcome = .ok result)
    {gate : Gate Extended} (rotation : RotationIn kernel gate) {angle : ℚ}
    (constant : gate.parameters = [.constant (.finite angle)]) :
    ¬ RotationIn result gate ↔ |angle| ≤ 2 ^ (-150 : ℤ) := by
  rw [rotationIn_result_iff flat returned, allNull_constant constant,
    and_iff_right rotation, Except.ok.injEq, decide_eq_false_iff_not,
    not_not]

/-- No angle that is rounded to zero is a multiple of turns but zero. -/
theorem eq_zero_of_small {angle period : ℚ} (long : turn ≤ period)
    (small : |angle| ≤ 2 ^ (-150 : ℤ)) {turns : ℤ}
    (multiple : angle = turns * period) : angle = 0 := by
  have short : (2 : ℚ) ^ (-150 : ℤ) < turn := by
    norm_num [turn, pi, zpow_neg]
  have positive := turn_pos.trans_le long
  by_contra nonzero
  have some : turns ≠ 0 := by
    rintro rfl
    rw [Int.cast_zero, zero_mul] at multiple
    exact nonzero multiple
  have size : (1 : ℚ) ≤ |(turns : ℚ)| := by
    exact_mod_cast Int.one_le_abs some
  have far := le_mul_of_one_le_left positive.le size
  rw [multiple, abs_mul, abs_of_pos positive] at small
  exact absurd (long.trans (far.trans small)) (not_le.mpr short)

/-- Null rotations are cancelled exactly if every angle is seen right. -/
theorem cancelsNullRotations_iff (reads : ReadsTurns interp)
    {kernel : Op Extended} (wellFormed : WellFormedRotations kernel)
    (stale : StaleRead) :
    CancelsNullRotations interp stale kernel ↔
      NoArgumentAngle kernel ∧
        ∀ gate, RotationIn kernel gate →
          ∀ angle : ℚ, gate.parameters = [.constant (.finite angle)] →
            SeenRight gate angle := by
  constructor
  · rintro ⟨result, returned, each⟩
    refine ⟨fun gate rotation => ?_, fun gate rotation angle constant => ?_⟩
    · exact allNull_returns_iff.mp
        ((run_returns_iff stale kernel).mp ⟨result, returned⟩ gate rotation)
    have erased :=
      not_rotationIn_result_iff wellFormed.flat returned rotation constant
    rcases each gate rotation angle constant with
      ⟨uncontrolled, controlled, -⟩
    by_cases small : |angle| ≤ 2 ^ (-150 : ℤ)
    · left
      by_cases free : gate.controls = []
      · rcases (uncontrolled free).mp (erased.mpr small) with
          ⟨turns, multiple⟩
        exact eq_zero_of_small le_rfl small multiple
      · rcases controlled free (erased.mpr small) with ⟨turns, multiple⟩
        exact eq_zero_of_small (by linarith [turn_pos]) small multiple
    · refine .inr ⟨not_le.mp small, fun free turns multiple => ?_⟩
      exact small
        (erased.mp ((uncontrolled free).mpr ⟨turns, multiple⟩))
  · rintro ⟨readable, seen⟩
    have completes :=
      (run_returns_iff stale kernel).mpr fun gate rotation =>
        allNull_returns_iff.mpr (readable gate rotation)
    rcases completes with ⟨result, returned⟩
    refine ⟨result, returned, fun gate rotation angle constant => ?_⟩
    rw [not_rotationIn_result_iff wellFormed.flat returned rotation
      constant]
    rcases seen gate rotation angle constant with rfl | ⟨large, nonnull⟩
    · rcases wellFormed.target gate rotation with ⟨target, one⟩
      have identity :=
        gateOperator_of_zero interp reads rotation.1 one constant
      have small : |(0 : ℚ)| ≤ 2 ^ (-150 : ℤ) := by
        rw [abs_zero]
        exact (Format.two_zpow_pos _).le
      refine ⟨fun _ => iff_of_true small ⟨0, by simp⟩,
        fun _ _ => ⟨0, by simp⟩, fun _ => ?_⟩
      rw [identity]
      exact .refl 1
    · have kept := not_le.mpr large
      refine ⟨fun free => iff_of_false kept ?_, fun _ small => ?_,
        fun small => ?_⟩
      · rintro ⟨turns, multiple⟩
        exact nonnull free turns multiple
      · exact absurd small kept
      · exact absurd small kept

end Runs

/-! ### A full turn -/

/-- The full turn the pass compares with is a number of type `double`. -/
theorem turn_double : binary64.Represents turn := by
  refine represents_double ?_ (by decide) (by decide) turn_eq
  rw [abs_of_pos turn_pos]
  exact turn_lt

/-- The reading of constants on a register of one qubit. -/
def constantReading : Interpretation Extended (Fin 1) :=
  .ofRegister 0 fun
    | .constant (.finite angle) => (angle / pi : ℚ) * Real.pi
    | _ => 0

/-- The pass keeps a rotation by the full turn it compares with. -/
theorem fullTurn_kept :
    binary64.Represents turn ∧
      (operationsOnQuantumKernel .stops [nullRotationCancellation]
          (kernelOf [(rotationByConstant .rx turn).op])).outcome =
        .ok (kernelOf [(rotationByConstant .rx turn).op]) ∧
      ¬ CancelsNullRotations constantReading .stops
        (kernelOf [(rotationByConstant .rx turn).op]) := by
  have large : ¬ |turn| ≤ 2 ^ (-150 : ℤ) := by
    intro small
    have multiple : turn = (1 : ℤ) * turn := by simp
    exact turn_pos.ne' (eq_zero_of_small le_rfl small multiple)
  have flat := (@single_wellFormed .rx turn turn_double).1
  have here :
      RotationIn (kernelOf [(rotationByConstant .rx turn).op])
        (rotationByConstant .rx turn) :=
    rotationIn_single.mpr ⟨rfl, rfl⟩
  refine ⟨turn_double, ?_, ?_⟩
  · have refused :
        allNull (rotationByConstant .rx turn) = .ok false := by
      rw [allNull_constant rfl, decide_eq_false large]
    have decided :
        decision (.gate (rotationByConstant .rx turn)) = .ok false := by
      rw [← refused]
      rfl
    have kept :=
      nullRotationCancellation_eq [] (rotationByConstant .rx turn).op
    rw [show (rotationByConstant .rx turn).op.label =
      .gate (rotationByConstant .rx turn) from rfl, decided] at kept
    rw [operationsOnQuantumKernel_outcome (by simp [Gate.op]),
      List.foldlM_cons, advance, kept]
    rfl
  · rintro ⟨result, returned, each⟩
    have uncontrolled := (each _ here turn rfl).1 rfl
    have erased := uncontrolled.mpr ⟨1, by simp⟩
    exact large
      ((not_rotationIn_result_iff flat returned here rfl).mp erased)

/-- A rotation by one half is seen right. -/
theorem half_cancels_iff :
    CancelsNullRotations constantReading .stops
        (kernelOf [(rotationByConstant .rz (1 / 2)).op]) ↔
      NoArgumentAngle (kernelOf [(rotationByConstant .rz (1 / 2)).op]) ∧
        ∀ gate,
          RotationIn (kernelOf [(rotationByConstant .rz (1 / 2)).op])
              gate →
            ∀ angle : ℚ, gate.parameters = [.constant (.finite angle)] →
              SeenRight gate angle := by
  refine cancelsNullRotations_iff constantReading (fun _ => rfl)
    ⟨(@single_wellFormed .rz (1 / 2) half_double).1, ?_⟩ .stops
  intro gate rotation
  rw [rotationIn_single] at rotation
  rw [rotation.2]
  exact ⟨_, rfl⟩

end MQSSPasses.Passes.NullRotations

end
