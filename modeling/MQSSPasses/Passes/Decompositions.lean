import MQSSPasses.Passes.Cancellation

/-!
# Decompositions of gates with one control

Three passes rewrite a controlled gate without looking at anything else:
`ReverseCx` exchanges the roles of control and target of a controlled `X`,
`CxToHCzH` and `CzToHCxH` turn controlled `X` and controlled `Z` into each
other.  All three surround the new gate with Hadamard gates.

Each is a replacement of one operation by a block.  The walk does not visit
what it has inserted, so a run replaces every operation of the input once,
and the result is the concatenation of the replacements.
-/

noncomputable section

namespace MQSSPasses.Passes.Decompositions

open MQSSPasses.General.TracedComputation
open MQSSPasses.General.OperationTree
open MQSSPasses.General.ControlledElement
open MQSSPasses.General.QubitOperators
open MQSSPasses.General.GateMatrices
open MQSSPasses.Quake.Syntax
open MQSSPasses.Quake.Operations
open MQSSPasses.Quake.Semantics
open MQSSPasses.Passes.Rewriting
open MQSSPasses.Passes.Matchers
open MQSSPasses.Passes.Cancellation

variable {A : Type}

/-! ## The passes -/

/-- `rewriter.create<quake::HOp>` with one target. -/
def createH (target : QuantumValue) : Op A :=
  (Gate.create .h false [] [] [target]).op

/-- `rewriter.create` of a gate with one control and one target. -/
def createControlled (kind : GateKind) (control target : QuantumValue) :
    Op A :=
  (Gate.create kind false [] [control] [target]).op

/-- Replace a gate with one control and one target. -/
def decompose (kind : GateKind)
    (inserted : QuantumValue → QuantumValue → Block A) : Matcher A :=
  fun before currentOp =>
    withGate kind 1 1 currentOp fun gate => do
      let control ← element gate.controls 0
      let target ← element gate.targets 0
      return some
        { pairings := []
          before := before
          current := none
          inserted := inserted control target }

/-- The gates `ReverseCNot` inserts. -/
def reversedCx (control target : QuantumValue) : Block A :=
  [createH target, createH control, createControlled .x target control,
    createH target, createH control]

/-- The gates `CxToHCzHPattern` inserts. -/
def hCzH (control target : QuantumValue) : Block A :=
  [createH target, createControlled .z target control, createH target]

/-- The gates `ReplaceCzToHCxH` inserts. -/
def hCxH (control target : QuantumValue) : Block A :=
  [createH target, createControlled .x control target, createH target]

def ReverseCNot : Matcher A :=
  decompose .x reversedCx

def CxToHCzHPattern : Matcher A :=
  decompose .x hCzH

def ReplaceCzToHCxH : Matcher A :=
  decompose .z hCxH

/-- The decompositions of gates with one control. -/
inductive DecompositionPass where
  | ReverseCx
  | CxToHCzH
  | CzToHCxH
  deriving DecidableEq, Repr

/-- The matcher a pass calls at each operation. -/
def DecompositionPass.matcher : DecompositionPass → Matcher A
  | .ReverseCx => ReverseCNot
  | .CxToHCzH => CxToHCzHPattern
  | .CzToHCxH => ReplaceCzToHCxH

/-- Run a decomposition over a kernel. -/
def DecompositionPass.run (decomposition : DecompositionPass)
    (stale : StaleRead) (kernel : Op A) : Traced Fault (Edit A) (Op A) :=
  operationsOnQuantumKernel stale [decomposition.matcher] kernel

/-! ## What a run does to a block -/

/-- What becomes of one operation. -/
def replacement (kind : GateKind)
    (inserted : QuantumValue → QuantumValue → Block A)
    (operation : Op A) : Block A :=
  match gateOfShape kind 1 1 operation with
  | some ⟨_, _, _, [control], [target], _⟩ => inserted control target
  | _ => [operation]

/-- The operands of a gate with one control and one target. -/
theorem operands_of_shape {kind : GateKind} {operation : Op A}
    {gate : Gate A}
    (shape : gateOfShape kind 1 1 operation = some gate) :
    ∃ control target, gate.controls = [control] ∧
      gate.targets = [target] := by
  rcases gateOfShape_eq_some.mp shape with ⟨-, controls, targets⟩
  rcases List.length_eq_one_iff.mp controls with ⟨control, controls⟩
  rcases List.length_eq_one_iff.mp targets with ⟨target, targets⟩
  exact ⟨control, target, controls, targets⟩

theorem replacement_of_shape {kind : GateKind}
    {inserted : QuantumValue → QuantumValue → Block A}
    {operation : Op A} {gate : Gate A} {control target : QuantumValue}
    (shape : gateOfShape kind 1 1 operation = some gate)
    (controls : gate.controls = [control])
    (targets : gate.targets = [target]) :
    replacement kind inserted operation = inserted control target := by
  cases gate with
  | mk kind isAdj parameters gateControls gateTargets negated =>
      subst controls targets
      rw [replacement, shape]

theorem replacement_of_other {kind : GateKind}
    {inserted : QuantumValue → QuantumValue → Block A}
    {operation : Op A} (other : gateOfShape kind 1 1 operation = none) :
    replacement kind inserted operation = [operation] := by
  rw [replacement, other]

/-- The matcher replaces the visited operation and never fails. -/
theorem decompose_replaces (stale : StaleRead) (kind : GateKind)
    (inserted : QuantumValue → QuantumValue → Block A)
    (visited : Block A) (operation : Op A) (rest : Block A) :
    ∃ after,
      (rewriteInOrder stale [decompose kind inserted]
          (.enter visited operation rest)).outcome = .ok after ∧
        after.visited =
          visited ++ replacement kind inserted operation := by
  cases shape : gateOfShape kind 1 1 operation with
  | none =>
      have decided :
          decompose kind inserted visited operation = .ok none := by
        rw [decompose, withGate, shape]
        rfl
      rw [replacement_of_other shape]
      exact ⟨_, rewriteInOrder_decided decided, by
        simp [Cursor.visited, Cursor.enter]⟩
  | some gate =>
      rcases operands_of_shape shape with
        ⟨control, target, controls, targets⟩
      have decided :
          decompose kind inserted visited operation =
            .ok (some
              ⟨[], visited, none, inserted control target⟩) := by
        rw [decompose, withGate, shape]
        dsimp only
        rw [controls, targets]
        rfl
      rw [replacement_of_shape shape controls targets]
      exact ⟨_, rewriteInOrder_decided decided, by
        simp [Plan.apply, Cursor.visited, Cursor.enter]⟩

/-- A run over a block replaces every operation once. -/
theorem decompose_run (stale : StaleRead) (kind : GateKind)
    (inserted : QuantumValue → QuantumValue → Block A) {block : Block A}
    (flat : ∀ operation ∈ block, operation.blocks = []) :
    (operationsOnQuantumKernel stale [decompose kind inserted]
        (kernelOf block)).outcome =
      .ok (kernelOf (block.flatMap (replacement kind inserted))) :=
  walkNode_returns_of_one_block
    (walkBlock_replaces_of_flat [] block
      (fun visited operation _ =>
        decompose_replaces stale kind inserted visited operation)
      flat)

/-! ## Replacements preserve the unitary -/

section Denotation

variable {Q : Type} [DecidableEq Q] (interp : Interpretation A Q)

@[simp]
theorem operator_createH (target : QuantumValue) :
    operator interp (createH target) =
      on (interp.qubit target) hadamard := by
  rw [createH, operator_op, gateOperator_create interp rfl]
  simp [withAdjoint]

theorem operator_createControlled (kind : GateKind) {matrix : BitMatrix}
    (standard : standardMatrix kind [] = some matrix)
    (control target : QuantumValue) :
    operator interp (createControlled kind control target) =
      controlledBy (interp.qubit control) (interp.qubit target)
        matrix := by
  rw [createControlled, operator_op, gateOperator_create interp standard]
  simp [withAdjoint, controlledBy]

theorem denote_hCzH {control target : QuantumValue}
    (apart : interp.qubit control ≠ interp.qubit target) :
    denote interp (hCzH control target : Block A) =
      controlledBy (interp.qubit control) (interp.qubit target)
        pauliX := by
  have acts :=
    operator_createControlled interp .z rfl target control
  simp only [hCzH, denote_cons, denote_nil, one_mul, operator_createH, acts]
  exact hadamard_controlledBy_pauliZ apart

theorem denote_hCxH {control target : QuantumValue}
    (apart : interp.qubit control ≠ interp.qubit target) :
    denote interp (hCxH control target : Block A) =
      controlledBy (interp.qubit control) (interp.qubit target)
        pauliZ := by
  have acts :=
    operator_createControlled interp .x rfl control target
  simp only [hCxH, denote_cons, denote_nil, one_mul, operator_createH, acts]
  exact hadamard_controlledBy_pauliX apart

theorem denote_reversedCx {control target : QuantumValue}
    (apart : interp.qubit control ≠ interp.qubit target) :
    denote interp (reversedCx control target : Block A) =
      controlledBy (interp.qubit control) (interp.qubit target)
        pauliX := by
  have acts :=
    operator_createControlled interp .x rfl target control
  have exchanged := (on_commute apart hadamard hadamard).eq
  simp only [reversedCx, denote_cons, denote_nil, one_mul,
    operator_createH, acts]
  rw [exchanged, ← hadamards_controlledBy_pauliX apart]
  simp only [mul_assoc]

/--
A block without regions whose gates name no qubit twice, carry no negated
control and have the parameters of their kind.
-/
structure GateKernel (block : Block A) : Prop where
  flat : ∀ operation ∈ block, operation.blocks = []
  distinct : DistinctOperands interp block
  unnegated :
    ∀ operation ∈ block, ∀ gate, asOperator operation = some gate →
      gate.Unnegated
  parameters :
    ∀ operation ∈ block, ∀ gate, asOperator operation = some gate →
      ∀ count, gate.kind.numParameters = some count →
        gate.parameters.length = count

variable {interp}

/-- The operator of a gate with one control and one target. -/
theorem GateKernel.operator_of_shape {block : Block A}
    (gates : GateKernel interp block) {kind : GateKind}
    {matrix : BitMatrix}
    (noParameters : kind.numParameters = some 0)
    (standard : standardMatrix kind [] = some matrix)
    (hermitian : matrix.conjTranspose = matrix)
    {operation : Op A} (member : operation ∈ block) {gate : Gate A}
    (shape : gateOfShape kind 1 1 operation = some gate)
    {control target : QuantumValue}
    (controls : gate.controls = [control])
    (targets : gate.targets = [target]) :
    interp.qubit control ≠ interp.qubit target ∧
      operator interp operation =
        controlledBy (interp.qubit control) (interp.qubit target)
          matrix := by
  rcases asGate_eq_some.mp (gateOfShape_eq_some.mp shape).1 with
    ⟨label, isKind⟩
  have isGate := asOperator_eq_some.mpr label
  have parameters : gate.parameters = [] :=
    List.eq_nil_of_length_eq_zero
      (gates.parameters operation member gate isGate 0
        (isKind ▸ noParameters))
  have values :=
    controlValues_of_unnegated interp
      (gates.unnegated operation member gate isGate)
  constructor
  · have wires := gates.distinct operation member gate isGate
    simpa [Gate.qubits, controls, targets] using wires
  · rw [operator_of_gate interp isGate, gateOperator, values, controls]
    simp [targetOperator, parameters, targets, isKind, standard,
      withAdjoint_of_hermitian hermitian, controlledBy]

end Denotation

/-! ## Runs of the decompositions -/

section Runs

/-- The kind of the gates a decomposition replaces. -/
def DecompositionPass.kind : DecompositionPass → GateKind
  | .ReverseCx | .CxToHCzH => .x
  | .CzToHCxH => .z

/-- What a decomposition inserts for a control and a target. -/
def DecompositionPass.inserted :
    DecompositionPass → QuantumValue → QuantumValue → Block A
  | .ReverseCx => reversedCx
  | .CxToHCzH => hCzH
  | .CzToHCxH => hCxH

theorem DecompositionPass.matcher_eq (decomposition : DecompositionPass) :
    (decomposition.matcher : Matcher A) =
      decompose decomposition.kind decomposition.inserted := by
  cases decomposition <;> rfl

/-- What a decomposition makes of one operation. -/
def DecompositionPass.replace (decomposition : DecompositionPass) :
    Op A → Block A :=
  replacement decomposition.kind decomposition.inserted

/-- The controlled `X` with control and target exchanged. -/
def exchanged (gate : Gate A) : Gate A :=
  Gate.create .x false [] gate.targets gate.controls

/-- The form of the kernel each decomposition is for. -/
def DecompositionPass.ReachesForm (decomposition : DecompositionPass)
    (block result : Block A) : Prop :=
  match decomposition with
  | .ReverseCx =>
      result.filterMap (gateOfShape .x 1 1) =
        (block.filterMap (gateOfShape .x 1 1)).map exchanged
  | .CxToHCzH =>
      ∀ operation ∈ result, gateOfShape .x 1 1 operation = none
  | .CzToHCxH =>
      ∀ operation ∈ result, gateOfShape .z 1 1 operation = none

/-- What replaces an operation has no gate of the replaced shape. -/
theorem shape_of_replacement {kind : GateKind}
    {inserted : QuantumValue → QuantumValue → Block A}
    (avoids :
      ∀ control target, ∀ operation ∈ inserted control target,
        gateOfShape kind 1 1 operation = none)
    {block : Block A} :
    ∀ operation ∈ block.flatMap (replacement kind inserted),
      gateOfShape kind 1 1 operation = none := by
  intro operation member
  rcases List.mem_flatMap.mp member with ⟨original, -, replaced⟩
  cases shape : gateOfShape kind 1 1 original with
  | none =>
      rw [replacement_of_other shape, List.mem_singleton] at replaced
      rw [replaced, shape]
  | some gate =>
      rcases operands_of_shape shape with
        ⟨control, target, controls, targets⟩
      rw [replacement_of_shape shape controls targets] at replaced
      exact avoids control target operation replaced

/-- Every controlled `X` becomes one with control and target exchanged. -/
theorem filterMap_reversed (block : Block A) :
    (block.flatMap (replacement .x reversedCx)).filterMap
        (gateOfShape .x 1 1) =
      (block.filterMap (gateOfShape .x 1 1)).map exchanged := by
  induction block with
  | nil => rfl
  | cons operation rest induction =>
      rw [List.flatMap_cons, List.filterMap_append, induction,
        List.filterMap_cons]
      cases shape : gateOfShape .x 1 1 operation with
      | none =>
          rw [replacement_of_other shape, List.filterMap_cons, shape]
          rfl
      | some gate =>
          rcases operands_of_shape shape with
            ⟨control, target, controls, targets⟩
          rw [replacement_of_shape shape controls targets]
          simp only [List.map_cons, exchanged, controls, targets]
          rfl

theorem DecompositionPass.reachesForm (decomposition : DecompositionPass)
    (block : Block A) :
    decomposition.ReachesForm block
      (block.flatMap decomposition.replace) := by
  cases decomposition with
  | ReverseCx => exact filterMap_reversed block
  | CxToHCzH =>
      apply shape_of_replacement
      intro control target operation member
      simp only [DecompositionPass.inserted, hCzH, List.mem_cons,
        List.not_mem_nil, or_false] at member
      rcases member with rfl | rfl | rfl <;> rfl
  | CzToHCxH =>
      apply shape_of_replacement
      intro control target operation member
      simp only [DecompositionPass.inserted, hCxH, List.mem_cons,
        List.not_mem_nil, or_false] at member
      rcases member with rfl | rfl | rfl <;> rfl

variable {Q : Type} [DecidableEq Q] {interp : Interpretation A Q}

/-- What replaces an operation has its operator. -/
theorem DecompositionPass.denote_replace
    (decomposition : DecompositionPass) {block : Block A}
    (gates : GateKernel interp block) :
    ∀ operation ∈ block,
      denote interp (decomposition.replace operation) =
        operator interp operation := by
  intro operation member
  rw [DecompositionPass.replace]
  cases shape : gateOfShape decomposition.kind 1 1 operation with
  | none => rw [replacement_of_other shape, denote_cons, denote_nil, one_mul]
  | some gate =>
      rcases operands_of_shape shape with
        ⟨control, target, controls, targets⟩
      rw [replacement_of_shape shape controls targets]
      cases decomposition with
      | ReverseCx =>
          rcases gates.operator_of_shape rfl rfl pauliX_conjTranspose
            member shape controls targets with ⟨apart, acts⟩
          rw [acts]
          exact denote_reversedCx interp apart
      | CxToHCzH =>
          rcases gates.operator_of_shape rfl rfl pauliX_conjTranspose
            member shape controls targets with ⟨apart, acts⟩
          rw [acts]
          exact denote_hCzH interp apart
      | CzToHCxH =>
          rcases gates.operator_of_shape rfl rfl pauliZ_conjTranspose
            member shape controls targets with ⟨apart, acts⟩
          rw [acts]
          exact denote_hCxH interp apart

theorem controlledX_gates :
    GateKernel pairInterpretation [controlledX.op] where
  flat := by simp [Gate.op]
  distinct := by
    intro operation member gate isGate
    rw [List.mem_singleton] at member
    subst member
    cases isGate
    exact controlledX_onRegister.distinctWires
  unnegated := by
    intro operation member gate isGate
    rw [List.mem_singleton] at member
    subst member
    cases isGate
    rfl
  parameters := by
    intro operation member gate isGate
    rw [List.mem_singleton] at member
    subst member
    cases isGate
    exact controlledX_onRegister.parameters

end Runs

end MQSSPasses.Passes.Decompositions

end
