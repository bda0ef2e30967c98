import MQSSPasses.General.GateMatrices
import MQSSPasses.Quake.Operations

/-!
# The unitary of a straight-line kernel

A gate denotes an operator on the register: its matrix on the target,
controlled by the control qubits, with the adjoint flag taking the
conjugate transpose.  A block of gates denotes the product, later gates on
the left.  Operations that only define values denote the identity.

An `Interpretation` says which qubit a value denotes and which number a
parameter has.  Gates without a fixed matrix, such as user-defined
operations, denote an arbitrary invertible operator on their targets.

`VeqBlock` are the blocks this meaning is for: gates with distinct operands
taken at constant indices from one register, and value definitions.  The
blocks without negated controls among them are `StraightLine`.
-/

noncomputable section

namespace MQSSPasses.Quake.Semantics

open MQSSPasses.General.IntConversion
open MQSSPasses.General.OperationTree
open MQSSPasses.General.ControlledElement
open MQSSPasses.General.QubitOperators
open MQSSPasses.General.GateMatrices
open MQSSPasses.Quake.Syntax
open MQSSPasses.Quake.Operations

/-- The values of operands and parameters, and the user-defined gates. -/
structure Interpretation (A Q : Type) [DecidableEq Q] where
  qubit : QuantumValue → Q
  angle : FloatValue A → ℝ
  custom : GateKind → Bool → List ℝ → List Q → Operator Q
  customUnit :
    ∀ kind isAdj angles targets,
      IsUnit (custom kind isAdj angles targets)
  customLocal :
    ∀ kind isAdj angles targets,
      custom kind isAdj angles targets ∈
        localAlgebra {wire | wire ∈ targets}

/--
The qubits of a register by their indices; user-defined gates do nothing.
-/
def Interpretation.ofRegister {A : Type} (n : ℕ)
    (angle : FloatValue A → ℝ) : Interpretation A (Fin (n + 1)) where
  qubit
    | .extractRef _ (.constant index) => Fin.ofNat (n + 1) index.toNat
    | _ => 0
  angle := angle
  custom _ _ _ _ := 1
  customUnit _ _ _ _ := isUnit_one
  customLocal _ _ _ _ := one_mem _

/-- The matrix of a gate kind with the given parameters. -/
def standardMatrix : GateKind → List ℝ → Option BitMatrix
  | .x, [] => some pauliX
  | .y, [] => some pauliY
  | .z, [] => some pauliZ
  | .h, [] => some hadamard
  | .s, [] => some (phaseShift (Real.pi / 2))
  | .t, [] => some (phaseShift (Real.pi / 4))
  | .r1, [angle] => some (phaseShift angle)
  | .rx, [angle] => some (rotationX angle)
  | .ry, [angle] => some (rotationY angle)
  | .rz, [angle] => some (rotationZ angle)
  | .phasedRx, [theta, phi] => some (phasedRotationX theta phi)
  | .u2, [phi, lambda] => some (universal (Real.pi / 2) phi lambda)
  | .u3, [theta, phi, lambda] => some (universal theta phi lambda)
  | _, _ => none

theorem standardMatrix_isUnitary {kind : GateKind} {angles : List ℝ}
    {matrix : BitMatrix}
    (standard : standardMatrix kind angles = some matrix) :
    IsUnitary matrix := by
  unfold standardMatrix at standard
  split at standard <;> cases standard
  · exact pauliX_isUnitary
  · exact pauliY_isUnitary
  · exact pauliZ_isUnitary
  · exact hadamard_isUnitary
  · exact phaseShift_isUnitary _
  · exact phaseShift_isUnitary _
  · exact phaseShift_isUnitary _
  · exact rotationX_isUnitary _
  · exact rotationY_isUnitary _
  · exact rotationZ_isUnitary _
  · exact phasedRotationX_isUnitary _ _
  · exact universal_isUnitary _ _ _
  · exact universal_isUnitary _ _ _

/-- The matrix or its adjoint. -/
def withAdjoint (isAdj : Bool) (matrix : BitMatrix) : BitMatrix :=
  if isAdj then matrix.conjTranspose else matrix

theorem withAdjoint_of_hermitian {matrix : BitMatrix}
    (hermitian : matrix.conjTranspose = matrix) (isAdj : Bool) :
    withAdjoint isAdj matrix = matrix := by
  cases isAdj <;> simp [withAdjoint, hermitian]

theorem withAdjoint_isUnitary {matrix : BitMatrix}
    (unitary : IsUnitary matrix) (isAdj : Bool) :
    IsUnitary (withAdjoint isAdj matrix) := by
  cases isAdj
  · exact unitary
  · exact unitary.conjTranspose

section Denotation

variable {A Q : Type} [DecidableEq Q] (interp : Interpretation A Q)

/-- The controls of a gate with the value each must have. -/
def controlValues (gate : Gate A) : List (Q × Bool) :=
  match gate.negatedQubitControls with
  | none => gate.controls.map fun control => (interp.qubit control, true)
  | some negated =>
      (gate.controls.zip negated).map fun control =>
        (interp.qubit control.1, !control.2)

/-- Every control takes effect at its value of the polarity. -/
theorem controlValues_eq_zip (gate : Gate A) :
    controlValues interp gate =
      (gate.controls.zip gate.polarity).map fun control =>
        (interp.qubit control.1, control.2) := by
  unfold controlValues Gate.polarity
  cases gate.negatedQubitControls with
  | none =>
      induction gate.controls with
      | nil => rfl
      | cons control others induction => simp [induction]
  | some negated => simp [List.zip_map_right]

/-- Controls that are not negated must be set. -/
theorem controlValues_of_unnegated {gate : Gate A}
    (unnegated : gate.Unnegated) :
    controlValues interp gate =
      gate.controls.map fun control => (interp.qubit control, true) := by
  rw [controlValues_eq_zip, unnegated]
  induction gate.controls with
  | nil => rfl
  | cons control others induction => simpa using induction

/-- What a gate does to its targets when the controls hold. -/
def targetOperator (gate : Gate A) : Operator Q :=
  let angles := gate.parameters.map interp.angle
  let targets := gate.targets.map interp.qubit
  match standardMatrix gate.kind angles, targets with
  | some matrix, [target] => on target (withAdjoint gate.isAdj matrix)
  | _, _ =>
      match gate.kind, targets with
      | .swap, [first, second] => swap first second
      | kind, _ => interp.custom kind gate.isAdj angles targets

/-- The operator of a gate. -/
def gateOperator (gate : Gate A) : Operator Q :=
  controlled (allOf (controlValues interp gate))
    (targetOperator interp gate)

/-- The operator of an operation of a straight-line block. -/
def operator (operation : Op A) : Operator Q :=
  match asOperator operation with
  | some gate => gateOperator interp gate
  | none => 1

/-- The operator of a block: later operations stand on the left. -/
def denote : Block A → Operator Q
  | [] => 1
  | operation :: rest => denote rest * operator interp operation

@[simp]
theorem denote_nil : denote interp [] = 1 := rfl

@[simp]
theorem denote_cons (operation : Op A) (rest : Block A) :
    denote interp (operation :: rest) =
      denote interp rest * operator interp operation := rfl

theorem denote_append (first second : Block A) :
    denote interp (first ++ second) =
      denote interp second * denote interp first := by
  induction first with
  | nil => simp
  | cons operation rest induction =>
      rw [List.cons_append, denote_cons, denote_cons, induction,
        mul_assoc]

@[simp]
theorem operator_op (gate : Gate A) :
    operator interp gate.op = gateOperator interp gate := rfl

theorem operator_of_gate {operation : Op A} {gate : Gate A}
    (isGate : asOperator operation = some gate) :
    operator interp operation = gateOperator interp gate := by
  rw [operator, isGate]

/-- The operator of a created gate with a matrix. -/
theorem gateOperator_create {kind : GateKind} {isAdj : Bool}
    {parameters : List (FloatValue A)}
    {controls : List QuantumValue} {target : QuantumValue}
    {matrix : BitMatrix}
    (standard :
      standardMatrix kind (parameters.map interp.angle) = some matrix) :
    gateOperator interp
        (Gate.create kind isAdj parameters controls [target]) =
      controlled
        (allOf (controls.map fun control => (interp.qubit control, true)))
        (on (interp.qubit target) (withAdjoint isAdj matrix)) := by
  simp [gateOperator, controlValues, targetOperator, Gate.create, standard]

/-- Replacing operations by blocks with their operators changes nothing. -/
theorem denote_flatMap {replacement : Op A → Block A} {block : Block A}
    (each :
      ∀ operation ∈ block,
        denote interp (replacement operation) =
          operator interp operation) :
    denote interp (block.flatMap replacement) = denote interp block := by
  induction block with
  | nil => rfl
  | cons operation rest induction =>
      rw [List.flatMap_cons, denote_append, denote_cons,
        each operation List.mem_cons_self,
        induction fun later member =>
          each later (List.mem_cons_of_mem operation member)]

/-- A block of operations that are no gates denotes the identity. -/
theorem denote_of_no_gates {block : Block A}
    (noGates : ∀ operation ∈ block, asOperator operation = none) :
    denote interp block = 1 := by
  induction block with
  | nil => rfl
  | cons operation rest induction =>
      rw [denote_cons, operator, noGates operation List.mem_cons_self,
        induction fun later member =>
          noGates later (List.mem_cons_of_mem operation member),
        mul_one]

/-- What commutes with every operation of a block commutes with the block. -/
theorem commute_denote {element : Operator Q} {block : Block A}
    (each :
      ∀ operation ∈ block, Commute element (operator interp operation)) :
    Commute element (denote interp block) := by
  induction block with
  | nil => exact Commute.one_right element
  | cons operation rest induction =>
      rw [denote_cons]
      exact (induction fun later member =>
        each later (List.mem_cons_of_mem operation member)).mul_right
          (each operation List.mem_cons_self)

/-! ## Locality and invertibility of gates -/

theorem controlValues_wires (gate : Gate A) :
    ∀ control ∈ controlValues interp gate,
      ∃ value ∈ gate.controls, control.1 = interp.qubit value := by
  intro control member
  unfold controlValues at member
  cases negated : gate.negatedQubitControls with
  | none =>
      simp only [negated, List.mem_map] at member
      rcases member with ⟨value, operand, rfl⟩
      exact ⟨value, operand, rfl⟩
  | some flags =>
      simp only [negated, List.mem_map] at member
      rcases member with ⟨⟨value, flag⟩, zipped, rfl⟩
      exact ⟨value, (List.of_mem_zip zipped).1, rfl⟩

/-- The target operator only acts on the targets. -/
theorem targetOperator_local {gate : Gate A}
    (distinct : (gate.targets.map interp.qubit).Nodup) :
    targetOperator interp gate ∈
      localAlgebra {wire | wire ∈ gate.targets.map interp.qubit} := by
  unfold targetOperator
  dsimp only
  split
  next matrix target _ targets =>
      rw [targets]
      exact on_mem_localAlgebra (by simp) _
  next =>
      split
      next first second _ targets =>
          rw [targets] at distinct ⊢
          have apart : first ≠ second := by
            simpa using distinct
          exact swap_mem_localAlgebra apart (by simp) (by simp)
      next => exact interp.customLocal _ _ _ _

theorem targetOperator_isUnit (gate : Gate A) :
    IsUnit (targetOperator interp gate) := by
  unfold targetOperator
  dsimp only
  split
  next matrix target standard _ =>
      have unitary :=
        withAdjoint_isUnitary (standardMatrix_isUnitary standard)
          gate.isAdj
      have invertible : IsUnit (withAdjoint gate.isAdj matrix) :=
        ⟨⟨_, _, unitary.1, unitary.2⟩, rfl⟩
      exact invertible.map (on target)
  next =>
      split
      next first second _ _ =>
          exact ⟨⟨_, _, swap_mul_self first second,
            swap_mul_self first second⟩, rfl⟩
      next => exact interp.customUnit _ _ _ _

/-- A gate only acts on the qubits it names. -/
theorem gateOperator_local {gate : Gate A}
    (distinct : (gate.targets.map interp.qubit).Nodup) :
    gateOperator interp gate ∈
      localAlgebra {wire | wire ∈ gate.qubits.map interp.qubit} := by
  apply controlled_mem_localAlgebra
  · apply allOf_mem_localAlgebra
    intro control member
    rcases controlValues_wires interp gate control member with
      ⟨value, operand, equal⟩
    rw [equal]
    exact List.mem_map_of_mem (List.mem_append_left _ operand)
  · refine localAlgebra_mono ?_ (targetOperator_local interp distinct)
    intro wire member
    rcases List.mem_map.mp member with ⟨value, operand, rfl⟩
    exact List.mem_map_of_mem (List.mem_append_right _ operand)

/-- A matrix on a qubit a gate does not name commutes with the gate. -/
theorem on_commute_gateOperator {gate : Gate A}
    (distinct : (gate.targets.map interp.qubit).Nodup)
    {wire : Q}
    (unnamed : ∀ value ∈ gate.qubits, interp.qubit value ≠ wire)
    (matrix : BitMatrix) :
    Commute (on wire matrix) (gateOperator interp gate) := by
  apply on_commute_local (gateOperator_local interp distinct)
  simp only [Set.mem_ofPred_eq, List.mem_map, not_exists, not_and]
  exact unnamed

/-- Gates without a common qubit commute. -/
theorem gateOperator_commute {first second : Gate A}
    (firstDistinct : (first.targets.map interp.qubit).Nodup)
    (secondDistinct : (second.targets.map interp.qubit).Nodup)
    (apart :
      ∀ value ∈ first.qubits, ∀ other ∈ second.qubits,
        interp.qubit value ≠ interp.qubit other) :
    Commute (gateOperator interp first) (gateOperator interp second) := by
  refine commute_of_disjoint ?_
    (gateOperator_local interp firstDistinct)
    (gateOperator_local interp secondDistinct)
  rw [Set.disjoint_left]
  intro wire named shared
  rcases List.mem_map.mp named with ⟨value, operand, rfl⟩
  rcases List.mem_map.mp shared with ⟨other, otherOperand, equal⟩
  exact apart value operand other otherOperand equal.symm

/-- The controls of a gate commute with what it does to its targets. -/
theorem controls_commute_targetOperator {gate : Gate A}
    (distinct : (gate.qubits.map interp.qubit).Nodup) :
    Commute (allOf (controlValues interp gate))
      (targetOperator interp gate) := by
  rw [Gate.qubits, List.map_append, List.nodup_append] at distinct
  apply Commute.symm
  apply commute_allOf
  intro control member
  rcases controlValues_wires interp gate control member with
    ⟨value, operand, equal⟩
  apply Commute.symm
  apply on_commute_local (targetOperator_local interp distinct.2.1)
  rw [equal]
  intro target
  exact distinct.2.2 _ (List.mem_map_of_mem operand) _ target rfl

/-- What is paired with flags is among the given values, in their order. -/
theorem map_fst_zip_sublist (controls : List QuantumValue)
    (flags : List Bool) :
    ((controls.zip flags).map Prod.fst).Sublist controls := by
  induction controls generalizing flags with
  | nil => simp
  | cons control others induction =>
      cases flags with
      | nil => simp
      | cons flag later => simpa using induction later

/-- Controls with distinct wires stay so when flags are attached. -/
theorem controlValues_nodup {gate : Gate A}
    (distinct : (gate.controls.map interp.qubit).Nodup) :
    ((controlValues interp gate).map Prod.fst).Nodup := by
  unfold controlValues
  cases gate.negatedQubitControls with
  | none => simpa [Function.comp_def] using distinct
  | some flags =>
      have wires :
          ((gate.controls.zip flags).map fun control =>
              (interp.qubit control.1, !control.2)).map Prod.fst =
            ((gate.controls.zip flags).map Prod.fst).map interp.qubit := by
        simp [Function.comp_def]
      rw [wires]
      exact distinct.sublist
        ((map_fst_zip_sublist gate.controls flags).map interp.qubit)

/-- A gate with distinct operands is invertible. -/
theorem gateOperator_isUnit {gate : Gate A}
    (distinct : (gate.qubits.map interp.qubit).Nodup) :
    IsUnit (gateOperator interp gate) := by
  have commutes := controls_commute_targetOperator interp distinct
  have controls : (gate.controls.map interp.qubit).Nodup := by
    rw [Gate.qubits, List.map_append] at distinct
    exact distinct.of_append_left
  have idempotent :=
    allOf_mul_self (controlValues_nodup interp controls)
  rcases targetOperator_isUnit interp gate with ⟨unit, unitEq⟩
  rw [← unitEq] at commutes
  have inverse :
      Commute (allOf (controlValues interp gate)) ↑unit⁻¹ :=
    commutes.units_inv_right
  rw [gateOperator, ← unitEq]
  refine ⟨⟨controlled (allOf (controlValues interp gate)) unit,
    controlled (allOf (controlValues interp gate)) ↑unit⁻¹,
    ?_, ?_⟩, rfl⟩
  · rw [controlled_mul idempotent commutes, unit.mul_inv,
      controlled_one_right]
  · rw [controlled_mul idempotent inverse, unit.inv_mul,
      controlled_one_right]

/-- No gate of a block names a qubit twice. -/
def DistinctOperands (block : Block A) : Prop :=
  ∀ operation ∈ block, ∀ gate, asOperator operation = some gate →
    (gate.qubits.map interp.qubit).Nodup

/-- A block whose gates name no qubit twice is invertible. -/
theorem denote_isUnit_of_distinct {block : Block A}
    (distinct : DistinctOperands interp block) :
    IsUnit (denote interp block) := by
  induction block with
  | nil => exact isUnit_one
  | cons operation rest induction =>
      rw [denote_cons]
      apply (induction fun later member =>
        distinct later (List.mem_cons_of_mem operation member)).mul
      cases isGate : asOperator operation with
      | none =>
          rw [operator, isGate]
          exact isUnit_one
      | some gate =>
          rw [operator_of_gate interp isGate]
          exact gateOperator_isUnit interp
            (distinct operation List.mem_cons_self gate isGate)

end Denotation

/-! ## Blocks of gates on one register -/

/-- The `int` as which the index of a qubit is read. -/
def intOf {n : ℕ} (wire : Fin n) : ℤ :=
  toInt wire.val

/-- The index which the passes read for an operand of a register. -/
def Interpretation.index {A : Type} {n : ℕ}
    (interp : Interpretation A (Fin n)) (value : QuantumValue) : ℤ :=
  intOf (interp.qubit value)

/-- A register that an `int` can index has its qubits told apart. -/
theorem intOf_injective {n : ℕ} (indexed : n ≤ intRange) :
    Function.Injective (intOf : Fin n → ℤ) := by
  intro first second same
  exact Fin.ext
    (toInt_injOn (first.isLt.trans_le indexed)
      (second.isLt.trans_le indexed) same)

section Register

variable {A : Type} {n : ℕ} (interp : Interpretation A (Fin n))
variable (veq : QuantumValue)

/-- A gate on distinct qubits of the register; controls may be negated. -/
structure OnVeq (gate : Gate A) : Prop where
  operands :
    ∀ value ∈ gate.qubits,
      value = .extractRef veq (.constant (interp.qubit value).val)
  distinct : gate.qubits.Nodup
  parameters :
    ∀ count, gate.kind.numParameters = some count →
      gate.parameters.length = count

/-- A gate on the register or the definition of a value. -/
inductive VeqOperation : Op A → Prop where
  | gate (gate : Gate A) (onVeq : OnVeq interp veq gate) :
      VeqOperation gate.op
  | alloca (result : QuantumValue) :
      VeqOperation (.leaf (.alloca result))
  | extractRef (result : QuantumValue) :
      VeqOperation (.leaf (.extractRef result))
  | constant (result : FloatValue A) :
      VeqOperation (.leaf (.constant result))
  | ret : VeqOperation (.leaf .ret)

/-- A block of gates on one register and of value definitions. -/
def VeqBlock (block : Block A) : Prop :=
  ∀ operation ∈ block, VeqOperation interp veq operation

variable {interp veq}

theorem veqBlock_append {first second : Block A} :
    VeqBlock interp veq (first ++ second) ↔
      VeqBlock interp veq first ∧ VeqBlock interp veq second := by
  simp [VeqBlock, or_imp, forall_and]

theorem veqBlock_cons {operation : Op A} {rest : Block A} :
    VeqBlock interp veq (operation :: rest) ↔
      VeqOperation interp veq operation ∧ VeqBlock interp veq rest := by
  simp [VeqBlock]

theorem VeqOperation.flat {operation : Op A}
    (onVeq : VeqOperation interp veq operation) :
    operation.blocks = [] := by
  cases onVeq <;> rfl

theorem VeqOperation.onVeq {operation : Op A}
    (onVeq : VeqOperation interp veq operation)
    {gate : Gate A} (isGate : asOperator operation = some gate) :
    OnVeq interp veq gate := by
  cases onVeq with
  | gate performed onVeq =>
      cases isGate
      exact onVeq
  | _ => cases isGate

/-- An operation that performs a gate is determined by the gate. -/
theorem VeqOperation.eq_op {operation : Op A}
    (onVeq : VeqOperation interp veq operation)
    {gate : Gate A} (isGate : asOperator operation = some gate) :
    operation = gate.op := by
  cases onVeq with
  | gate performed onVeq =>
      cases isGate
      rfl
  | _ => cases isGate

/-- An operand of the register is read as the `int` of its qubit. -/
theorem OnVeq.extractIndex {gate : Gate A}
    (onVeq : OnVeq interp veq gate)
    {value : QuantumValue} (operand : value ∈ gate.qubits) :
    qubitIndex value = .ok (intOf (interp.qubit value)) := by
  conv_lhs => rw [onVeq.operands value operand]
  rfl

theorem OnVeq.distinctWires {gate : Gate A}
    (onVeq : OnVeq interp veq gate) :
    (gate.qubits.map interp.qubit).Nodup := by
  apply List.Nodup.map_on _ onVeq.distinct
  intro first firstOperand second secondOperand equal
  rw [onVeq.operands first firstOperand,
    onVeq.operands second secondOperand, equal]

/-- Operands of the register on one qubit are one value. -/
theorem OnVeq.eq_of_qubit {first second : Gate A}
    (firstOnVeq : OnVeq interp veq first)
    (secondOnVeq : OnVeq interp veq second)
    {value other : QuantumValue}
    (operand : value ∈ first.qubits) (otherOperand : other ∈ second.qubits)
    (same : interp.qubit value = interp.qubit other) :
    value = other := by
  rw [firstOnVeq.operands value operand,
    secondOnVeq.operands other otherOperand, same]

/-- Operands that are read as one index have the same `int`. -/
theorem OnVeq.intOf_eq {first second : Gate A}
    (firstOnVeq : OnVeq interp veq first)
    (secondOnVeq : OnVeq interp veq second)
    {value other : QuantumValue}
    (operand : value ∈ first.qubits) (otherOperand : other ∈ second.qubits)
    (same : qubitIndex value = qubitIndex other) :
    intOf (interp.qubit value) = intOf (interp.qubit other) := by
  rw [firstOnVeq.extractIndex operand,
    secondOnVeq.extractIndex otherOperand] at same
  exact Except.ok.inj same

/-- In a register that an `int` can index, equal indices are one value. -/
theorem OnVeq.eq_of_extractIndex (indexed : n ≤ intRange)
    {first second : Gate A}
    (firstOnVeq : OnVeq interp veq first)
    (secondOnVeq : OnVeq interp veq second)
    {value other : QuantumValue}
    (operand : value ∈ first.qubits) (otherOperand : other ∈ second.qubits)
    (same : qubitIndex value = qubitIndex other) :
    value = other :=
  firstOnVeq.eq_of_qubit secondOnVeq operand otherOperand
    (intOf_injective indexed
      (firstOnVeq.intOf_eq secondOnVeq operand otherOperand same))

/-- Every operand of such a block can be read. -/
theorem VeqBlock.readable {block : Block A}
    (onVeq : VeqBlock interp veq block) :
    ∀ operation ∈ block, ∀ gate, asOperator operation = some gate →
      ∀ operand ∈ gate.qubits, IndexReadable operand := by
  intro operation member gate isGate operand named
  exact ⟨_, ((onVeq operation member).onVeq isGate).extractIndex named⟩

/-- Such a block is invertible. -/
theorem VeqBlock.denote_isUnit {block : Block A}
    (onVeq : VeqBlock interp veq block) :
    IsUnit (denote interp block) :=
  denote_isUnit_of_distinct interp fun operation member _ isGate =>
    ((onVeq operation member).onVeq isGate).distinctWires

/-- A matrix on a qubit commutes with an operation that does not name it. -/
theorem VeqOperation.on_commute {operation : Op A}
    (onVeq : VeqOperation interp veq operation) {wire : Fin n}
    (unnamed :
      ∀ gate, asOperator operation = some gate →
        ∀ value ∈ gate.qubits, interp.qubit value ≠ wire)
    (matrix : BitMatrix) :
    Commute (on wire matrix) (operator interp operation) := by
  cases isGate : asOperator operation with
  | none =>
      rw [operator, isGate]
      exact Commute.one_right _
  | some gate =>
      rw [operator_of_gate interp isGate]
      have distinct := (onVeq.onVeq isGate).distinctWires
      rw [Gate.qubits, List.map_append] at distinct
      exact on_commute_gateOperator interp distinct.of_append_right
        (unnamed gate isGate) matrix

end Register

/-! ## Straight-line blocks -/

section StraightLine

variable {A : Type} {n : ℕ} (interp : Interpretation A (Fin n))
variable (veq : QuantumValue)

/-- A gate on distinct qubits of the register, without negated controls. -/
structure OnRegister (gate : Gate A) : Prop where
  operands :
    ∀ value ∈ gate.qubits,
      value = .extractRef veq (.constant (interp.qubit value).val)
  distinct : gate.qubits.Nodup
  unnegated : gate.negatedQubitControls = none
  parameters :
    ∀ count, gate.kind.numParameters = some count →
      gate.parameters.length = count

/-- An operation of a straight-line block. -/
inductive StraightLineOperation : Op A → Prop where
  | gate (gate : Gate A) (onRegister : OnRegister interp veq gate) :
      StraightLineOperation gate.op
  | alloca (result : QuantumValue) :
      StraightLineOperation (.leaf (.alloca result))
  | extractRef (result : QuantumValue) :
      StraightLineOperation (.leaf (.extractRef result))
  | constant (result : FloatValue A) :
      StraightLineOperation (.leaf (.constant result))
  | ret : StraightLineOperation (.leaf .ret)

/-- A block of gates on one register and of value definitions. -/
def StraightLine (block : Block A) : Prop :=
  ∀ operation ∈ block, StraightLineOperation interp veq operation

variable {interp veq}

theorem OnRegister.onVeq {gate : Gate A}
    (onRegister : OnRegister interp veq gate) : OnVeq interp veq gate where
  operands := onRegister.operands
  distinct := onRegister.distinct
  parameters := onRegister.parameters

theorem StraightLineOperation.veqOperation {operation : Op A}
    (straight : StraightLineOperation interp veq operation) :
    VeqOperation interp veq operation := by
  cases straight with
  | gate performed onRegister => exact .gate performed onRegister.onVeq
  | alloca result => exact .alloca result
  | extractRef result => exact .extractRef result
  | constant result => exact .constant result
  | ret => exact .ret

theorem StraightLine.veqBlock {block : Block A}
    (straight : StraightLine interp veq block) :
    VeqBlock interp veq block :=
  fun operation member => (straight operation member).veqOperation

theorem straightLine_append {first second : Block A} :
    StraightLine interp veq (first ++ second) ↔
      StraightLine interp veq first ∧ StraightLine interp veq second := by
  simp [StraightLine, or_imp, forall_and]

theorem straightLine_cons {operation : Op A} {rest : Block A} :
    StraightLine interp veq (operation :: rest) ↔
      StraightLineOperation interp veq operation ∧
        StraightLine interp veq rest := by
  simp [StraightLine]

theorem StraightLineOperation.flat {operation : Op A}
    (straight : StraightLineOperation interp veq operation) :
    operation.blocks = [] :=
  straight.veqOperation.flat

theorem StraightLineOperation.onRegister {operation : Op A}
    (straight : StraightLineOperation interp veq operation)
    {gate : Gate A} (isGate : asOperator operation = some gate) :
    OnRegister interp veq gate := by
  cases straight with
  | gate performed onRegister =>
      cases isGate
      exact onRegister
  | _ => cases isGate

/-- An operand of the register is read as the `int` of its qubit. -/
theorem OnRegister.extractIndex {gate : Gate A}
    (onRegister : OnRegister interp veq gate)
    {value : QuantumValue} (operand : value ∈ gate.qubits) :
    qubitIndex value = .ok (intOf (interp.qubit value)) :=
  onRegister.onVeq.extractIndex operand

theorem OnRegister.distinctWires {gate : Gate A}
    (onRegister : OnRegister interp veq gate) :
    (gate.qubits.map interp.qubit).Nodup :=
  onRegister.onVeq.distinctWires

/-- An operation that performs a gate is determined by the gate. -/
theorem StraightLineOperation.eq_op {operation : Op A}
    (straight : StraightLineOperation interp veq operation)
    {gate : Gate A} (isGate : asOperator operation = some gate) :
    operation = gate.op :=
  straight.veqOperation.eq_op isGate

/-- Copying a gate on the register field by field yields the gate. -/
theorem OnRegister.create_eq {gate : Gate A}
    (onRegister : OnRegister interp veq gate) :
    Gate.create gate.kind gate.isAdj gate.parameters gate.controls
        gate.targets = gate := by
  rw [Gate.create, ← onRegister.unnegated]

/-- A gate created for distinct places of the register is a gate on it. -/
theorem OnRegister.create {kind : GateKind} {isAdj : Bool}
    {controls targets : List QuantumValue} (places : List (Fin n))
    (plain : kind.numParameters = some 0)
    (operands :
      controls ++ targets =
        places.map fun wire => .extractRef veq (.constant wire.val))
    (read :
      ∀ wire ∈ places,
        interp.qubit (.extractRef veq (.constant wire.val)) = wire)
    (distinct : places.Nodup) :
    OnRegister interp veq
      (Gate.create kind isAdj [] controls targets) where
  operands := by
    intro value operand
    change value ∈ controls ++ targets at operand
    rw [operands] at operand
    rcases List.mem_map.mp operand with ⟨wire, place, rfl⟩
    rw [read wire place]
  distinct := by
    change (controls ++ targets).Nodup
    rw [operands]
    refine distinct.map ?_
    intro first second same
    simpa [Fin.val_inj] using same
  unnegated := rfl
  parameters := by
    intro count takes
    cases plain.symm.trans takes
    rfl

/-- In a register that an `int` can index, equal indices are one value. -/
theorem OnRegister.eq_of_extractIndex (indexed : n ≤ intRange)
    {first second : Gate A}
    (firstOnRegister : OnRegister interp veq first)
    (secondOnRegister : OnRegister interp veq second)
    {value other : QuantumValue}
    (operand : value ∈ first.qubits) (otherOperand : other ∈ second.qubits)
    (same : qubitIndex value = qubitIndex other) :
    value = other :=
  firstOnRegister.onVeq.eq_of_extractIndex indexed secondOnRegister.onVeq
    operand otherOperand same

/-- Every operand of a straight-line block can be read. -/
theorem StraightLine.readable {block : Block A}
    (straight : StraightLine interp veq block) :
    ∀ operation ∈ block, ∀ gate, asOperator operation = some gate →
      ∀ operand ∈ gate.qubits, IndexReadable operand :=
  straight.veqBlock.readable

/-- A straight-line block is invertible. -/
theorem denote_isUnit {block : Block A}
    (straight : StraightLine interp veq block) :
    IsUnit (denote interp block) :=
  straight.veqBlock.denote_isUnit

/--
A matrix on a qubit commutes with a straight-line block whose gates do not
name the qubit.
-/
theorem on_commute_denote {block : Block A}
    (straight : StraightLine interp veq block) {wire : Fin n}
    (unnamed :
      ∀ operation ∈ block, ∀ gate,
        asOperator operation = some gate →
          ∀ value ∈ gate.qubits, interp.qubit value ≠ wire)
    (matrix : BitMatrix) :
    Commute (on wire matrix) (denote interp block) :=
  commute_denote interp fun operation member =>
    (straight operation member).veqOperation.on_commute
      (unnamed operation member) matrix

end StraightLine

end MQSSPasses.Quake.Semantics

end
