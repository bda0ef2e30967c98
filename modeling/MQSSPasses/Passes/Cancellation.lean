import MQSSPasses.Passes.ErasedHandles
import MQSSPasses.Passes.Visits
import MQSSPasses.Quake.Semantics

/-!
# When cancelling two gates preserves the unitary

The cancellation passes delete the visited gate together with the gate the
look-back found.  The look-back follows the target, so no gate between the
two names the target; but gates between them may act on a control.

Deleting the pair is exact when the gates in between carry the projection
onto the one control being set to that onto the other, and changes the
unitary in every other case.  The controls are the same qubit unless their
indices are only congruent; two `Z` gates may then also have exchanged
control and target.  `Pair.deleted_iff` is this statement for one deletion.

A run returns a kernel unless a pattern reads what an earlier one erased.
`run_preserves_denote_iff` puts both together for whole runs.
-/

noncomputable section

namespace MQSSPasses.Passes.Cancellation

open MQSSPasses.General.IntConversion
open MQSSPasses.General.TracedComputation
open MQSSPasses.General.OperationTree
open MQSSPasses.General.VisitedPositions
open MQSSPasses.General.ControlledElement
open MQSSPasses.General.QubitOperators
open MQSSPasses.General.GateMatrices
open MQSSPasses.Quake.Syntax
open MQSSPasses.Quake.Operations
open MQSSPasses.Quake.Semantics
open MQSSPasses.Passes.Rewriting
open MQSSPasses.Passes.Matchers
open MQSSPasses.Passes.Visits
open MQSSPasses.Passes.ErasedHandles

variable {A : Type} {n : ℕ}

/-! ## The gates that are cancelled -/

/--
A gate kind whose matrix is its own inverse, with an involution that
anticommutes with the matrix.  Only the matrix of a `Z` gate is diagonal.
-/
structure Involutive (kind : GateKind) where
  matrix : BitMatrix
  flip : BitMatrix
  parameters : kind.numParameters = some 0
  standard : standardMatrix kind [] = some matrix
  hermitian : matrix.conjTranspose = matrix
  square : matrix * matrix = 1
  flipSquare : flip * flip = 1
  anticommutes : flip * matrix = -(matrix * flip)
  diagonal : Commute matrix (projector true) → kind = .z

def involutiveX : Involutive .x where
  matrix := pauliX
  flip := pauliZ
  parameters := rfl
  standard := rfl
  hermitian := pauliX_conjTranspose
  square := pauliX_mul_self
  flipSquare := pauliZ_mul_self
  anticommutes := pauliZ_mul_pauliX
  diagonal commutes := by
    exact absurd commutes (not_commute_projector one_ne_zero)

def involutiveY : Involutive .y where
  matrix := pauliY
  flip := pauliX
  parameters := rfl
  standard := rfl
  hermitian := pauliY_conjTranspose
  square := pauliY_mul_self
  flipSquare := pauliX_mul_self
  anticommutes := pauliX_mul_pauliY
  diagonal commutes := by
    exact absurd commutes
      (not_commute_projector (neg_ne_zero.mpr Complex.I_ne_zero))

def involutiveZ : Involutive .z where
  matrix := pauliZ
  flip := pauliX
  parameters := rfl
  standard := rfl
  hermitian := pauliZ_conjTranspose
  square := pauliZ_mul_self
  flipSquare := pauliX_mul_self
  anticommutes := pauliX_mul_pauliZ
  diagonal _ := rfl

def involutiveH : Involutive .h where
  matrix := hadamard
  flip := pauliY
  parameters := rfl
  standard := rfl
  hermitian := hadamard_conjTranspose
  square := hadamard_mul_self
  flipSquare := pauliY_mul_self
  anticommutes := pauliY_mul_hadamard
  diagonal commutes := by
    exact absurd commutes (not_commute_projector halfRoot_ne_zero)

theorem Involutive.matrix_of_z (involutive : Involutive .z) :
    involutive.matrix = pauliZ :=
  Option.some.inj (involutive.standard.symm.trans involutiveZ.standard)

/-! ## Gates on the register -/

section Gates

variable {interp : Interpretation A (Fin n)} {veq : QuantumValue}

/-- The controls of a gate without negated controls must all be set. -/
theorem controlValues_eq {gate : Gate A}
    (onRegister : OnRegister interp veq gate) :
    controlValues interp gate =
      gate.controls.map fun control => (interp.qubit control, true) := by
  simp [controlValues, onRegister.unnegated]

/-- What a self-inverse gate does to its target. -/
theorem targetOperator_of_involutive {kind : GateKind}
    (involutive : Involutive kind)
    {gate : Gate A} {target : QuantumValue} (isKind : gate.kind = kind)
    (onRegister : OnRegister interp veq gate)
    (targets : gate.targets = [target]) :
    targetOperator interp gate =
      on (interp.qubit target) involutive.matrix := by
  subst isKind
  have noParameters : gate.parameters = [] :=
    List.eq_nil_of_length_eq_zero
      (onRegister.parameters 0 involutive.parameters)
  simp only [targetOperator, noParameters, targets, List.map_nil,
    List.map_cons, involutive.standard,
    withAdjoint_of_hermitian involutive.hermitian]

theorem gateOperator_of_involutive {kind : GateKind}
    (involutive : Involutive kind)
    {gate : Gate A} {target : QuantumValue} (isKind : gate.kind = kind)
    (onRegister : OnRegister interp veq gate)
    (targets : gate.targets = [target]) :
    gateOperator interp gate =
      controlled (allOf (controlValues interp gate))
        (on (interp.qubit target) involutive.matrix) := by
  rw [gateOperator,
    targetOperator_of_involutive involutive isKind onRegister targets]

/-- Without controls the matrix acts on the target. -/
theorem gateOperator_of_uncontrolled {kind : GateKind}
    (involutive : Involutive kind)
    {gate : Gate A} {target : QuantumValue} (isKind : gate.kind = kind)
    (onRegister : OnRegister interp veq gate)
    (controls : gate.controls = []) (targets : gate.targets = [target]) :
    gateOperator interp gate =
      on (interp.qubit target) involutive.matrix := by
  rw [gateOperator_of_involutive involutive isKind onRegister targets,
    controlValues_eq onRegister, controls, List.map_nil, allOf_nil,
    controlled_one_left]

/-- A gate with one control, by its control and its target. -/
theorem gateOperator_of_control {kind : GateKind}
    (involutive : Involutive kind)
    {gate : Gate A} {target : QuantumValue} (isKind : gate.kind = kind)
    (onRegister : OnRegister interp veq gate)
    (targets : gate.targets = [target]) {control : Fin n}
    (controls : gate.controls.map interp.qubit = [control]) :
    gateOperator interp gate =
      controlledBy control (interp.qubit target) involutive.matrix := by
  have values :
      controlValues interp gate =
        (gate.controls.map interp.qubit).map fun wire => (wire, true) := by
    rw [controlValues_eq onRegister, List.map_map]
    rfl
  rw [gateOperator_of_involutive involutive isKind onRegister targets,
    values, controls, List.map_cons, List.map_nil, allOf_cons, allOf_nil,
    mul_one]
  rfl

/-- The operands of a gate with one control are different qubits. -/
theorem control_ne_target {gate : Gate A} {control target : QuantumValue}
    (onRegister : OnRegister interp veq gate)
    (controls : gate.controls = [control])
    (targets : gate.targets = [target]) :
    interp.qubit control ≠ interp.qubit target := by
  have wires := onRegister.distinctWires
  simpa [Gate.qubits, controls, targets] using wires

/-- A matrix on the target commutes with the projection onto the controls. -/
theorem on_target_commute_controls {gate : Gate A} {target : QuantumValue}
    (onRegister : OnRegister interp veq gate)
    (targets : gate.targets = [target]) (matrix : BitMatrix) :
    Commute (on (interp.qubit target) matrix)
      (allOf (controlValues interp gate)) := by
  have wires := onRegister.distinctWires
  rw [Gate.qubits, targets, List.map_append, List.nodup_append] at wires
  apply commute_allOf
  rw [controlValues_eq onRegister]
  intro control member
  rcases List.mem_map.mp member with ⟨value, isControl, rfl⟩
  apply on_commute
  exact (wires.2.2 _ (List.mem_map_of_mem isControl) _ (by simp)).symm

/-- The target of a gate is none of its controls. -/
theorem target_notMem_controls {gate : Gate A} {target : QuantumValue}
    (onRegister : OnRegister interp veq gate)
    (targets : gate.targets = [target]) :
    interp.qubit target ∉ gate.controls.map interp.qubit := by
  have wires := onRegister.distinctWires
  rw [Gate.qubits, targets, List.map_append, List.nodup_append] at wires
  intro control
  exact wires.2.2 _ control _ List.mem_cons_self rfl

theorem controls_idempotent {gate : Gate A}
    (onRegister : OnRegister interp veq gate) :
    allOf (controlValues interp gate) *
        allOf (controlValues interp gate) =
      allOf (controlValues interp gate) := by
  have wires := onRegister.distinctWires
  rw [Gate.qubits, List.map_append, List.nodup_append] at wires
  apply allOf_mul_self
  simpa [controlValues_eq onRegister, Function.comp_def] using wires.1

/-- A self-inverse gate is its own inverse with its controls. -/
theorem gateOperator_mul_self {kind : GateKind}
    (involutive : Involutive kind)
    {gate : Gate A} {target : QuantumValue} (isKind : gate.kind = kind)
    (onRegister : OnRegister interp veq gate)
    (targets : gate.targets = [target]) :
    gateOperator interp gate * gateOperator interp gate = 1 := by
  rw [gateOperator_of_involutive involutive isKind onRegister targets]
  refine controlled_mul_self (controls_idempotent onRegister)
    (on_target_commute_controls onRegister targets
      involutive.matrix).symm ?_
  rw [← map_mul, involutive.square, map_one]

/-- Gates the look-back goes past do not name a qubit with the index. -/
theorem unnamed_of_hidden {target : QuantumValue} {wire : Fin n}
    (read : qubitIndex target = .ok (intOf wire))
    {between : Block A} (straight : StraightLine interp veq between)
    (hidden : ∀ operation ∈ between, Hidden target operation) :
    ∀ operation ∈ between, ∀ other,
      asOperator operation = some other →
        ∀ value ∈ other.qubits, interp.qubit value ≠ wire := by
  intro operation member other isGate value named equal
  apply hidden operation member other isGate value named
  have otherOnRegister := (straight operation member).onRegister isGate
  rw [otherOnRegister.extractIndex named, read, equal]

/-- One control that is set is possible. -/
theorem allOf_ne_zero {gate : Gate A} (wire : Fin n)
    (onRegister : OnRegister interp veq gate)
    (short : gate.controls.length ≤ 1) :
    allOf (controlValues interp gate) ≠ 0 := by
  have injective (wire : Fin n) {matrix : BitMatrix}
      (vanishes : on wire matrix = 0) : matrix = 0 := by
    apply on_injective wire
    rw [vanishes, map_zero]
  rw [controlValues_eq onRegister]
  rcases Nat.le_one_iff_eq_zero_or_eq_one.mp short with none | one
  · rw [List.eq_nil_of_length_eq_zero none, List.map_nil, allOf_nil,
      ← map_one (on wire)]
    intro vanishes
    exact one_ne_zero (injective _ vanishes)
  · rcases List.length_eq_one_iff.mp one with ⟨control, single⟩
    rw [single, List.map_cons, List.map_nil, allOf_cons, allOf_nil,
      mul_one]
    intro vanishes
    have entry := congrFun (congrFun (injective _ vanishes) true) true
    exact one_ne_zero entry

end Gates

/-! ## The deletion of two gates -/

section Deletion

variable {interp : Interpretation A (Fin n)} {veq : QuantumValue}

/--
Two gates that are deleted together, and what stands between them.  Their
operands have the same indices, and nothing in between names the target's.
-/
structure Pair (interp : Interpretation A (Fin n)) (veq : QuantumValue)
    (kind : GateKind) (found gate : Gate A)
    (foundTarget target : QuantumValue) (between : Block A) : Prop where
  foundKind : found.kind = kind
  isKind : gate.kind = kind
  foundOnRegister : OnRegister interp veq found
  onRegister : OnRegister interp veq gate
  foundTargets : found.targets = [foundTarget]
  targets : gate.targets = [target]
  foundShort : found.controls.length ≤ 1
  short : gate.controls.length ≤ 1
  sameInt :
    intOf (interp.qubit foundTarget) = intOf (interp.qubit target)
  sameControlInts :
    (found.controls.map interp.qubit).map intOf =
      (gate.controls.map interp.qubit).map intOf
  straight : StraightLine interp veq between
  hidden : ∀ operation ∈ between, Hidden target operation

/--
Two equal gates around a block undo each other: either they have the same
target and the block carries the projection onto the control of the earlier
one to that of the later one, or they are `Z` gates which have exchanged
control and target.
-/
def CancelOut (interp : Interpretation A (Fin n)) (found gate : Gate A)
    (between : Block A) : Prop :=
  (found.targets.map interp.qubit = gate.targets.map interp.qubit ∧
      SemiconjBy (denote interp between)
        (allOf (controlValues interp found))
        (allOf (controlValues interp gate))) ∨
    (gate.kind = .z ∧
      found.targets.map interp.qubit = gate.controls.map interp.qubit ∧
      found.controls.map interp.qubit = gate.targets.map interp.qubit)

namespace Pair

variable {kind : GateKind} {found gate : Gate A}
variable {foundTarget target : QuantumValue} {between : Block A}

theorem target_read
    (pair : Pair interp veq kind found gate foundTarget target between) :
    qubitIndex target = .ok (intOf (interp.qubit target)) :=
  pair.onRegister.extractIndex (by simp [Gate.qubits, pair.targets])

theorem commute_target
    (pair : Pair interp veq kind found gate foundTarget target between)
    (matrix : BitMatrix) :
    Commute (on (interp.qubit target) matrix) (denote interp between) :=
  on_commute_denote pair.straight
    (unnamed_of_hidden pair.target_read pair.straight pair.hidden) matrix

theorem commute_foundTarget
    (pair : Pair interp veq kind found gate foundTarget target between)
    (matrix : BitMatrix) :
    Commute (on (interp.qubit foundTarget) matrix)
      (denote interp between) :=
  on_commute_denote pair.straight
    (unnamed_of_hidden (pair.target_read.trans
      (congrArg Except.ok pair.sameInt.symm)) pair.straight pair.hidden)
    matrix

/-- With one target the gates undo each other as their controls allow. -/
theorem deleted_iff_of_same
    (pair : Pair interp veq kind found gate foundTarget target between)
    (involutive : Involutive kind)
    (same : interp.qubit foundTarget = interp.qubit target) :
    gateOperator interp gate * denote interp between *
          gateOperator interp found = denote interp between ↔
      SemiconjBy (denote interp between)
        (allOf (controlValues interp found))
        (allOf (controlValues interp gate)) := by
  have foundCommutes :=
    on_target_commute_controls pair.foundOnRegister pair.foundTargets
  rw [same] at foundCommutes
  rw [gateOperator_of_involutive involutive pair.isKind pair.onRegister
      pair.targets,
    gateOperator_of_involutive involutive pair.foundKind
      pair.foundOnRegister pair.foundTargets, same]
  exact sandwich_eq_iff (fun _ doubled => eq_zero_of_add_self doubled)
    (controls_idempotent pair.foundOnRegister)
    (foundCommutes involutive.matrix).symm
    (by rw [← map_mul, involutive.square, map_one])
    (pair.commute_target involutive.matrix)
    (by rw [← map_mul, involutive.flipSquare, map_one])
    (by rw [← map_mul, ← map_mul, ← map_neg, involutive.anticommutes])
    (foundCommutes involutive.flip)
    (on_target_commute_controls pair.onRegister pair.targets
      involutive.flip)
    (pair.commute_target involutive.flip)

/-- An involution that anticommutes with a gate does not commute with it. -/
theorem not_commute_flip {gate : Gate A} {target : QuantumValue}
    (involutive : Involutive kind) (isKind : gate.kind = kind)
    (onRegister : OnRegister interp veq gate)
    (targets : gate.targets = [target])
    (short : gate.controls.length ≤ 1) :
    ¬ Commute (on (interp.qubit target) involutive.flip)
      (gateOperator interp gate) := by
  intro commutes
  rw [gateOperator_of_involutive involutive isKind onRegister targets]
    at commutes
  refine allOf_ne_zero (interp.qubit target) onRegister short ?_
  exact eq_zero_of_commute_flip (fun _ doubled => eq_zero_of_add_self doubled)
    (by rw [← map_mul, involutive.flipSquare, map_one])
    (by rw [← map_mul, involutive.square, map_one])
    (by rw [← map_mul, ← map_mul, ← map_neg, involutive.anticommutes])
    (on_target_commute_controls onRegister targets involutive.flip) commutes

/-- A matrix on a qubit that a gate does not name commutes with the gate. -/
theorem commute_of_unnamed {gate : Gate A} {target : QuantumValue}
    (onRegister : OnRegister interp veq gate)
    (targets : gate.targets = [target]) {wire : Fin n}
    (notTarget : interp.qubit target ≠ wire)
    (notControl : wire ∉ gate.controls.map interp.qubit)
    (matrix : BitMatrix) :
    Commute (on wire matrix) (gateOperator interp gate) := by
  have distinct := onRegister.distinctWires
  rw [Gate.qubits, List.map_append] at distinct
  refine on_commute_gateOperator interp distinct.of_append_right ?_ matrix
  intro value named equal
  rw [Gate.qubits, targets, List.mem_append, List.mem_singleton] at named
  rcases named with control | rfl
  · rw [← equal] at notControl
    exact notControl (List.mem_map_of_mem control)
  · exact notTarget equal

/-- What a list of at most one qubit with a given member is. -/
theorem controls_of_mem {controls : List QuantumValue} {wire : Fin n}
    (short : controls.length ≤ 1)
    (member : wire ∈ controls.map interp.qubit) :
    controls.map interp.qubit = [wire] := by
  rcases Nat.le_one_iff_eq_zero_or_eq_one.mp short with none | one
  · rw [List.eq_nil_of_length_eq_zero none] at member
    cases member
  · rcases List.length_eq_one_iff.mp one with ⟨control, single⟩
    rw [single, List.map_cons, List.map_nil] at member ⊢
    rw [List.mem_singleton.mp member]

/-- With two targets the gates name the same two qubits. -/
theorem exchanged_of_deleted
    (pair : Pair interp veq kind found gate foundTarget target between)
    (involutive : Involutive kind)
    (apart : interp.qubit foundTarget ≠ interp.qubit target)
    (carries :
      SemiconjBy (denote interp between) (gateOperator interp found)
        (gateOperator interp gate)) :
    found.controls.map interp.qubit = [interp.qubit target] ∧
      gate.controls.map interp.qubit = [interp.qubit foundTarget] := by
  have invertible := denote_isUnit pair.straight
  constructor
  · refine controls_of_mem pair.foundShort ?_
    by_contra notControl
    have moves :=
      commute_of_unnamed pair.foundOnRegister pair.foundTargets apart
        notControl involutive.flip
    refine not_commute_flip involutive pair.isKind pair.onRegister
      pair.targets pair.short ?_
    exact commute_right_of_carried invertible carries
      (pair.commute_target involutive.flip) moves
  · refine controls_of_mem pair.short ?_
    by_contra notControl
    have moves :=
      commute_of_unnamed pair.onRegister pair.targets apart.symm
        notControl involutive.flip
    refine not_commute_flip involutive pair.foundKind pair.foundOnRegister
      pair.foundTargets pair.foundShort ?_
    exact commute_left_of_carried invertible carries
      (pair.commute_foundTarget involutive.flip) moves

/-- With two targets only exchanged `Z` gates undo each other. -/
theorem deleted_iff_of_apart
    (pair : Pair interp veq kind found gate foundTarget target between)
    (involutive : Involutive kind)
    (apart : interp.qubit foundTarget ≠ interp.qubit target) :
    gateOperator interp gate * denote interp between *
          gateOperator interp found = denote interp between ↔
      kind = .z ∧ [interp.qubit foundTarget] =
          gate.controls.map interp.qubit ∧
        found.controls.map interp.qubit = [interp.qubit target] := by
  have foundSquare :=
    gateOperator_mul_self involutive pair.foundKind pair.foundOnRegister
      pair.foundTargets
  have actsAs
      (controls :
        found.controls.map interp.qubit = [interp.qubit target]) :=
    gateOperator_of_control involutive pair.foundKind pair.foundOnRegister
      pair.foundTargets controls
  have passes
      (controls :
        found.controls.map interp.qubit = [interp.qubit target]) :
      Commute (denote interp between) (gateOperator interp found) := by
    rw [actsAs controls]
    exact commute_controlled (pair.commute_target (projector true)).symm
      (pair.commute_foundTarget involutive.matrix).symm
  constructor
  · intro unchanged
    have carries := carries_of_sandwich foundSquare unchanged
    rcases pair.exchanged_of_deleted involutive apart carries with
      ⟨foundControls, controls⟩
    refine ⟨?_, controls.symm, foundControls⟩
    -- The block commutes with the earlier gate, so the gates are equal.
    have equal :
        gateOperator interp found = gateOperator interp gate := by
      apply (denote_isUnit pair.straight).mul_right_cancel
      rw [← (passes foundControls).eq, carries.eq]
    rw [actsAs foundControls,
      gateOperator_of_control involutive pair.isKind pair.onRegister
        pair.targets controls] at equal
    apply involutive.diagonal
    exact commute_projector_of_controlledBy_symm apart.symm equal
  · rintro ⟨rfl, controls, foundControls⟩
    have equal :
        gateOperator interp gate = gateOperator interp found := by
      rw [actsAs foundControls,
        gateOperator_of_control involutive pair.isKind pair.onRegister
          pair.targets controls.symm, involutive.matrix_of_z]
      exact controlledBy_pauliZ_symm apart
    rw [equal, mul_assoc, (passes foundControls).eq, ← mul_assoc,
      foundSquare, one_mul]

/-- Deleting the gates changes nothing exactly if they cancel out. -/
theorem deleted_iff
    (pair : Pair interp veq kind found gate foundTarget target between)
    (involutive : Involutive kind) :
    gateOperator interp gate * denote interp between *
          gateOperator interp found = denote interp between ↔
      CancelOut interp found gate between := by
  have targetOfBoth :
      found.targets.map interp.qubit = gate.targets.map interp.qubit ↔
        interp.qubit foundTarget = interp.qubit target := by
    rw [pair.foundTargets, pair.targets]
    simp
  unfold CancelOut
  rw [targetOfBoth, pair.isKind, pair.foundTargets, pair.targets,
    List.map_cons, List.map_nil, List.map_cons, List.map_nil]
  by_cases same : interp.qubit foundTarget = interp.qubit target
  · rw [pair.deleted_iff_of_same involutive same]
    constructor
    · exact fun carries => .inl ⟨same, carries⟩
    · rintro (⟨-, carries⟩ | ⟨-, control, -⟩)
      · exact carries
      · rw [same] at control
        refine absurd ?_
          (target_notMem_controls pair.onRegister pair.targets)
        rw [← control]
        exact List.mem_singleton_self _
  · rw [pair.deleted_iff_of_apart involutive same]
    simp [same]

/--
In a register that an `int` can index, the gates cancel out exactly if what
stands between them commutes with the projection onto the controls.
-/
theorem cancelOut_iff (indexed : n ≤ intRange)
    (pair : Pair interp veq kind found gate foundTarget target between) :
    CancelOut interp found gate between ↔
      Commute (allOf (controlValues interp gate))
        (denote interp between) := by
  have sameTarget := intOf_injective indexed pair.sameInt
  have sameControls :=
    (intOf_injective indexed).list_map pair.sameControlInts
  have sameTargets :
      found.targets.map interp.qubit = gate.targets.map interp.qubit := by
    rw [pair.foundTargets, pair.targets, List.map_singleton,
      List.map_singleton, sameTarget]
  have sameValues :
      controlValues interp found = controlValues interp gate := by
    have values := congrArg (List.map fun wire => (wire, true)) sameControls
    rw [List.map_map, List.map_map] at values
    rw [controlValues_eq pair.foundOnRegister,
      controlValues_eq pair.onRegister]
    exact values
  rw [CancelOut, sameValues]
  constructor
  · rintro (⟨-, carries⟩ | ⟨-, controls, -⟩)
    · exact carries.symm
    · rw [pair.foundTargets, List.map_singleton, sameTarget] at controls
      refine absurd ?_
        (target_notMem_controls pair.onRegister pair.targets)
      rw [← controls]
      exact List.mem_singleton_self _
  · exact fun commutes => .inl ⟨sameTargets, commutes.symm⟩

end Pair

end Deletion

/-! ## Calls on a straight-line block complete -/

section Completion

variable {interp : Interpretation A (Fin n)} {veq : QuantumValue}

/-- In a straight-line block the look-back from an operand completes. -/
theorem readable_of_straight {before rest : Block A} {currentOp : Op A}
    {gate : Gate A} {kind : GateKind} {nCtrls nTgts : ℕ}
    (straight : StraightLine interp veq (before ++ currentOp :: rest))
    (shape : gateOfShape kind nCtrls nTgts currentOp = some gate) :
    ∀ operand ∈ gate.qubits, IndexReadable operand := by
  have isGate :=
    asOperator_eq_some.mpr
      (asGate_eq_some.mp (gateOfShape_eq_some.mp shape).1).1
  exact straight.readable currentOp (by simp) gate isGate

theorem readable_before {before rest : Block A} {currentOp : Op A}
    (straight : StraightLine interp veq (before ++ currentOp :: rest)) :
    ∀ operation ∈ before, ∀ gate, asOperator operation = some gate →
      ∀ operand ∈ gate.qubits, IndexReadable operand :=
  (straightLine_append.mp straight).1.readable

/-- The operands of the gate a look-back found can be read. -/
theorem readable_found {before rest : Block A} {currentOp : Op A}
    {scanned : QuantumValue} {found : Found A} {gate : Gate A}
    {kind : GateKind} {nCtrls nTgts : ℕ}
    (straight : StraightLine interp veq (before ++ currentOp :: rest))
    (looked :
      getPreviousOperationOnTarget before scanned = .ok (some found))
    (shape : gateOfShape kind nCtrls nTgts found.operation = some gate) :
    ∀ operand ∈ gate.qubits, IndexReadable operand := by
  have correct := getPreviousOperationOnTarget_correct looked
  have isGate :=
    asOperator_eq_some.mpr
      (asGate_eq_some.mp (gateOfShape_eq_some.mp shape).1).1
  apply readable_before straight found.operation _ gate isGate
  rw [correct.position]
  simp

theorem indices_decide {values : List QuantumValue}
    (readable : ∀ value ∈ values, IndexReadable value) :
    Decides (getIndicesOfValueRange values) := by
  induction values with
  | nil => exact .pure []
  | cons value others induction =>
      rw [getIndicesOfValueRange, List.mapM_cons]
      refine Decides.bind (readable value List.mem_cons_self) ?_
      intro index _
      refine Decides.bind (induction fun other member =>
        readable other (List.mem_cons_of_mem value member)) ?_
      exact fun indices _ => .pure _

theorem sameIndices_decides {left right : List QuantumValue}
    (leftReadable : ∀ value ∈ left, IndexReadable value)
    (rightReadable : ∀ value ∈ right, IndexReadable value) :
    Decides (sameIndices left right) := by
  refine .ite ?_ (.pure false)
  refine Decides.bind (indices_decide leftReadable) fun _ _ => ?_
  exact Decides.bind (indices_decide rightReadable) fun _ _ => .pure _

theorem patternCancellation_decides {T1 T2 : GateKind}
    {nCtrlsOp1 nTgtsOp1 nCtrlsOp2 : ℕ}
    {before rest : Block A} {currentOp : Op A}
    (straight : StraightLine interp veq (before ++ currentOp :: rest)) :
    Decides
      (patternCancellation T1 T2 nCtrlsOp1 nTgtsOp1 nCtrlsOp2 1 before
        currentOp) := by
  apply withGate_decides
  intro currentGate shape
  have operands := readable_of_straight straight shape
  have count := (gateOfShape_eq_some.mp shape).2.2
  apply Decides.bind (element_decides (by omega))
  intro target operand
  have readable :=
    operands target (List.mem_append_right _ (element_mem operand))
  apply withPrevious_decides readable (readable_before straight)
  intro found looked
  apply withGate_decides
  intro previousGate previousShape
  have previousOperands := readable_found straight looked previousShape
  refine Decides.bind (sameIndices_decides
    (fun value member =>
      operands value (List.mem_append_left _ member))
    fun value member =>
      previousOperands value (List.mem_append_left _ member)) ?_
  intro sameControls _
  refine Decides.bind (sameIndices_decides
    (fun value member =>
      operands value (List.mem_append_right _ member))
    fun value member =>
      previousOperands value (List.mem_append_right _ member)) ?_
  intro sameTargets _
  exact .ite (.pure _) (.pure _)

end Completion

/-! ## Plans of `patternCancellation` -/

section Plans

variable {interp : Interpretation A (Fin n)} {veq : QuantumValue}
variable {kind : GateKind} {nCtrls : ℕ}
variable {cursor : Cursor (Op A)} {currentOp : Op A} {plan : Plan A}

/-- At most one control each, compared by the indices. -/
theorem intOf_controls {found gate : Gate A}
    (foundOnRegister : OnRegister interp veq found)
    (onRegister : OnRegister interp veq gate)
    (short : found.controls.length ≤ 1)
    (count : found.controls.length = gate.controls.length)
    (same : sameIndices gate.controls found.controls = .ok true) :
    (found.controls.map interp.qubit).map intOf =
      (gate.controls.map interp.qubit).map intOf := by
  rcases Nat.le_one_iff_eq_zero_or_eq_one.mp short with none | one
  · rw [List.eq_nil_of_length_eq_zero none,
      List.eq_nil_of_length_eq_zero (count.symm.trans none)]
  · rcases List.length_eq_one_iff.mp one with ⟨control, single⟩
    rcases List.length_eq_one_iff.mp (count.symm.trans one) with
      ⟨other, otherSingle⟩
    rw [single, otherSingle] at same ⊢
    have equal :=
      foundOnRegister.onVeq.intOf_eq onRegister.onVeq
        (by simp [Gate.qubits, single])
        (by simp [Gate.qubits, otherSingle]) (sameIndices_single same).symm
    simp [equal]

/-- What a pattern deletes from a straight-line block. -/
structure Deletes (interp : Interpretation A (Fin n))
    (veq : QuantumValue) (kind : GateKind) (cursor : Cursor (Op A))
    (currentOp : Op A) (plan : Plan A) (found : Found A)
    (gate : Gate A) (foundTarget target : QuantumValue) : Prop where
  looked :
    getPreviousOperationOnTarget cursor.before target = .ok (some found)
  isGate : asOperator currentOp = some gate
  pair :
    Pair interp veq kind found.gate gate foundTarget target found.between
  pairings : ∃ compared,
    plan.pairings = [⟨found, gate, target, compared⟩]
  result :
    (plan.apply cursor).contents =
      found.lower ++ found.between ++ (cursor.inserted ++ cursor.rest)

theorem patternCancellation_deletes (short : nCtrls ≤ 1)
    (straight : StraightLine interp veq cursor.contents)
    (visited : cursor.current = some currentOp)
    (planned :
      patternCancellation kind kind nCtrls 1 nCtrls 1
        cursor.before currentOp = .ok (some plan)) :
    ∃ found gate foundTarget target,
      Deletes interp veq kind cursor currentOp plan found gate
        foundTarget target := by
  rcases patternCancellation_inversion planned with
    ⟨found, gate, target, cancels⟩
  have correct := getPreviousOperationOnTarget_correct cancels.looked
  rw [contents_of_looked visited cancels.looked] at straight
  simp only [straightLine_append, straightLine_cons] at straight
  rcases straight with
    ⟨⟨-, foundStraight, betweenStraight⟩, currentStraight, -⟩
  rcases gateOfShape_eq_some.mp cancels.current with
    ⟨cast, controlCount, targetCount⟩
  rcases gateOfShape_eq_some.mp cancels.previous with
    ⟨foundCast, foundControlCount, foundTargetCount⟩
  rcases asGate_eq_some.mp cast with ⟨label, isKind⟩
  have isGate := asOperator_eq_some.mpr label
  have onRegister := currentStraight.onRegister isGate
  have foundOnRegister := foundStraight.onRegister correct.isGate
  have targets := eq_singleton_of_element targetCount cancels.operand
  rcases List.length_eq_one_iff.mp foundTargetCount with
    ⟨foundTarget, foundTargets⟩
  have sameTargets := cancels.sameTargets
  rw [targets, foundTargets] at sameTargets
  refine ⟨found, gate, foundTarget, target, cancels.looked, isGate,
    { foundKind := (asGate_eq_some.mp foundCast).2
      isKind := isKind
      foundOnRegister := foundOnRegister
      onRegister := onRegister
      foundTargets := foundTargets
      targets := targets
      foundShort := foundControlCount ▸ short
      short := controlCount ▸ short
      sameInt := ?_
      sameControlInts := ?_
      straight := betweenStraight
      hidden := correct.passed }, ⟨_, by rw [cancels.planned]⟩, ?_⟩
  · exact foundOnRegister.onVeq.intOf_eq onRegister.onVeq
      (by simp [Gate.qubits, foundTargets]) (by simp [Gate.qubits, targets])
      (sameIndices_single sameTargets).symm
  · exact intOf_controls foundOnRegister onRegister
      (foundControlCount ▸ short) (foundControlCount.trans controlCount.symm)
      cancels.sameControls
  · rw [plan.apply_contents, cancels.planned]
    simp

variable {found : Found A} {gate : Gate A}
variable {foundTarget target : QuantumValue}

/-- A deletion keeps the block straight-line. -/
theorem Deletes.straightLine
    (deletes :
      Deletes interp veq kind cursor currentOp plan found gate foundTarget
        target)
    (visited : cursor.current = some currentOp)
    (straight : StraightLine interp veq cursor.contents) :
    StraightLine interp veq (plan.apply cursor).contents := by
  rw [contents_of_looked visited deletes.looked] at straight
  rw [deletes.result]
  simp only [straightLine_append, straightLine_cons] at straight ⊢
  exact ⟨⟨straight.1.1, straight.1.2.2⟩, straight.2.2⟩

/-- A deletion preserves the unitary exactly if the gates cancel out. -/
theorem Deletes.preserves_iff
    (deletes :
      Deletes interp veq kind cursor currentOp plan found gate foundTarget
        target)
    (involutive : Involutive kind)
    (visited : cursor.current = some currentOp)
    (straight : StraightLine interp veq cursor.contents) :
    denote interp (plan.apply cursor).contents =
        denote interp cursor.contents ↔
      CancelOut interp found.gate gate found.between := by
  have correct := getPreviousOperationOnTarget_correct deletes.looked
  have source := contents_of_looked visited deletes.looked
  rw [source] at straight
  simp only [straightLine_append, straightLine_cons] at straight
  have rest :
      StraightLine interp veq (cursor.inserted ++ cursor.rest) :=
    straightLine_append.mpr straight.2.2
  have before :
      denote interp cursor.contents =
        denote interp (cursor.inserted ++ cursor.rest) *
          (gateOperator interp gate * denote interp found.between *
            gateOperator interp found.gate) *
          denote interp found.lower := by
    rw [source]
    simp only [denote_append, denote_cons, mul_assoc,
      operator_of_gate interp deletes.isGate,
      operator_of_gate interp correct.isGate]
  have after :
      denote interp (plan.apply cursor).contents =
        denote interp (cursor.inserted ++ cursor.rest) *
          denote interp found.between * denote interp found.lower := by
    rw [deletes.result]
    simp only [denote_append, mul_assoc]
  rw [before, after, (denote_isUnit straight.1.1).mul_left_inj,
    (denote_isUnit rest).mul_right_inj, eq_comm,
    deletes.pair.deleted_iff involutive]

end Plans

/-! ## Visits -/

section Visits

/-- The passes that only cancel pairs of equal gates. -/
def Cancelling (rewriting : RewritingPass) : Prop :=
  rewriting = .CancellationDoubleCx ∨ rewriting = .ReductionPattern

/-- The kinds and numbers of controls that such a pass cancels, in order. -/
def cancelPatterns : RewritingPass → List (GateKind × ℕ)
  | .CancellationDoubleCx => [(.x, 1)]
  | .ReductionPattern => reductionPatterns
  | _ => []

variable {rewriting : RewritingPass}

theorem cancelling_matchers (cancelling : Cancelling rewriting) :
    (rewriting.matchers : List (Matcher A)) =
      (cancelPatterns rewriting).map cancelEqual := by
  rcases cancelling with rfl | rfl <;> rfl

theorem cancelPatterns_nodup (cancelling : Cancelling rewriting) :
    (cancelPatterns rewriting).Nodup := by
  rcases cancelling with rfl | rfl
  · exact List.nodup_singleton _
  · exact reductionPatterns_nodup

theorem cancelPatterns_involutive (cancelling : Cancelling rewriting) :
    ∀ pattern ∈ cancelPatterns rewriting,
      Nonempty (Involutive pattern.1) ∧ pattern.2 ≤ 1 := by
  intro pattern member
  rcases cancelling with rfl | rfl <;>
    simp only [cancelPatterns, reductionPatterns, List.mem_cons,
      List.not_mem_nil, or_false] at member
  · rw [member]
    exact ⟨⟨involutiveX⟩, le_rfl⟩
  · rcases member with
      rfl | rfl | rfl | rfl | rfl | rfl | rfl | rfl
    · exact ⟨⟨involutiveX⟩, le_rfl⟩
    · exact ⟨⟨involutiveX⟩, zero_le_one⟩
    · exact ⟨⟨involutiveY⟩, le_rfl⟩
    · exact ⟨⟨involutiveY⟩, zero_le_one⟩
    · exact ⟨⟨involutiveZ⟩, le_rfl⟩
    · exact ⟨⟨involutiveZ⟩, zero_le_one⟩
    · exact ⟨⟨involutiveH⟩, le_rfl⟩
    · exact ⟨⟨involutiveH⟩, zero_le_one⟩

variable {interp : Interpretation A (Fin n)} {veq : QuantumValue}

/-- The deletion of a visit, from the pass's decision. -/
theorem deletes_of_decision (cancelling : Cancelling rewriting)
    {cursor : Cursor (Op A)} {currentOp : Op A} {plan : Plan A}
    (straight : StraightLine interp veq cursor.contents)
    (visited : cursor.current = some currentOp)
    (planned :
      ∃ matcher ∈ (rewriting.matchers : List (Matcher A)),
        matcher cursor.before currentOp = .ok (some plan)) :
    ∃ kind found gate foundTarget target,
      Nonempty (Involutive kind) ∧
        Deletes interp veq kind cursor currentOp plan found gate
          foundTarget target := by
  rcases planned with ⟨matcher, member, made⟩
  rw [cancelling_matchers cancelling] at member
  rcases List.mem_map.mp member with ⟨pattern, listed, rfl⟩
  rcases cancelPatterns_involutive cancelling pattern listed with
    ⟨involutive, short⟩
  rcases patternCancellation_deletes short straight visited made with
    ⟨found, gate, foundTarget, target, deletes⟩
  exact ⟨_, found, gate, foundTarget, target, involutive, deletes⟩

/-- A pass leaves a straight-line block straight-line. -/
theorem cancelling_straightLine (cancelling : Cancelling rewriting) :
    ∀ matcher ∈ (rewriting.matchers : List (Matcher A)),
      ∀ (cursor : Cursor (Op A)) currentOp plan,
        StraightLine interp veq cursor.contents →
        cursor.current = some currentOp →
        matcher cursor.before currentOp = .ok (some plan) →
          StraightLine interp veq (plan.apply cursor).contents := by
  intro matcher member cursor currentOp plan straight visited planned
  rcases deletes_of_decision cancelling straight visited
      ⟨matcher, member, planned⟩ with
    ⟨kind, found, gate, foundTarget, target, -, deletes⟩
  exact deletes.straightLine visited straight

/--
If a pattern applies, no other reads the operation behind it, and the gate
cancels out with the nearest one before it that names the index of its
target.
-/
def MayCancel (interp : Interpretation A (Fin n))
    (rewriting : RewritingPass) (stale : StaleRead) (before : Block A)
    (currentOp : Op A) : Prop :=
  ∀ pattern ∈ cancelPatterns rewriting, Applies pattern before currentOp →
    (stale = .stops → pattern ∉ (cancelPatterns rewriting).dropLast) ∧
      ∀ gate, asOperator currentOp = some gate →
        ∀ target ∈ gate.targets, ∀ found,
          getPreviousOperationOnTarget before target = .ok (some found) →
            CancelOut interp found.gate gate found.between

theorem applies_of_planned {matcher : Matcher A} {before : Block A}
    {currentOp : Op A} {plan : Plan A} (cancelling : Cancelling rewriting)
    (member : matcher ∈ (rewriting.matchers : List (Matcher A)))
    (planned : matcher before currentOp = .ok (some plan)) :
    ∃ pattern ∈ cancelPatterns rewriting,
      Applies pattern before currentOp := by
  rw [cancelling_matchers cancelling] at member
  rcases List.mem_map.mp member with ⟨pattern, listed, rfl⟩
  exact ⟨pattern, listed, plan, planned⟩

/-- The pattern that applies decides. -/
theorem decision_of_applies {patterns : List (GateKind × ℕ)}
    {pattern : GateKind × ℕ} {before : Block A} {currentOp : Op A}
    {plan : Plan A} (member : pattern ∈ patterns)
    (planned : cancelEqual pattern before currentOp = .ok (some plan)) :
    decideInOrder (patterns.map cancelEqual) before currentOp =
      .ok (some plan) := by
  induction patterns with
  | nil => cases member
  | cons first others induction =>
      rw [List.map_cons]
      by_cases same : first = pattern
      · rw [same]
        exact decideInOrder_of_some planned
      · have passes := cancelEqual_of_applies ⟨plan, planned⟩ same
        rw [decideInOrder_of_none passes]
        exact induction
          ((List.mem_cons.mp member).resolve_left (Ne.symm same))

/-- The edit of a visit preserves the unitary if the gates cancel out. -/
theorem visit_preserves_iff (cancelling : Cancelling rewriting)
    {cursor : Cursor (Op A)} {currentOp : Op A}
    (straight : StraightLine interp veq cursor.contents)
    (visited : cursor.current = some currentOp) :
    (∀ plan, decision rewriting cursor.before currentOp = .ok (some plan) →
        denote interp (editOf cursor plan).target =
          denote interp (editOf cursor plan).source) ↔
      ∀ pattern ∈ cancelPatterns rewriting,
        Applies pattern cursor.before currentOp →
          ∀ gate, asOperator currentOp = some gate →
            ∀ target ∈ gate.targets, ∀ found,
              getPreviousOperationOnTarget cursor.before target =
                  .ok (some found) →
                CancelOut interp found.gate gate found.between := by
  constructor
  · intro preserved pattern listed ⟨plan, planned⟩ gate isGate target
      operand found looked
    have decided :
        decision rewriting cursor.before currentOp = .ok (some plan) := by
      rw [decision, cancelling_matchers cancelling]
      exact decision_of_applies listed planned
    rcases deletes_of_decision cancelling straight visited
        (decision_planned decided) with
      ⟨kind, other, named, foundTarget, followed, ⟨involutive⟩, deletes⟩
    have same := isGate.symm.trans deletes.isGate
    cases same
    rw [deletes.pair.targets, List.mem_singleton] at operand
    rw [operand, deletes.looked] at looked
    cases looked
    exact (deletes.preserves_iff involutive visited straight).mp
      (preserved plan decided)
  · intro cancel plan decided
    rcases decision_planned decided with ⟨matcher, member, made⟩
    rcases applies_of_planned cancelling member made with
      ⟨pattern, listed, applies⟩
    rcases deletes_of_decision cancelling straight visited
        ⟨matcher, member, made⟩ with
      ⟨kind, found, gate, foundTarget, target, ⟨involutive⟩, deletes⟩
    refine (deletes.preserves_iff involutive visited straight).mpr ?_
    refine cancel pattern listed applies gate deletes.isGate target ?_ found
      deletes.looked
    rw [deletes.pair.targets]
    exact List.mem_singleton_self target

/-- A call returns unless a pattern before the last one applies. -/
theorem call_returns_iff (cancelling : Cancelling rewriting)
    {stale : StaleRead} {cursor : Cursor (Op A)} {currentOp : Op A}
    (visited : cursor.current = some currentOp)
    (straight :
      StraightLine interp veq (cursor.before ++ currentOp :: cursor.rest)) :
    (∃ after,
        (rewriteInOrder stale rewriting.matchers cursor).outcome =
          .ok after) ↔
      ∀ pattern ∈ cancelPatterns rewriting,
        Applies pattern cursor.before currentOp →
          stale = .stops →
            pattern ∉ (cancelPatterns rewriting).dropLast := by
  have erased :=
    @rewriteInOrder_erased_iff A _ (cancelPatterns_nodup cancelling) cursor
      currentOp visited
  rw [← cancelling_matchers cancelling] at erased
  constructor
  · rintro ⟨after, returned⟩ pattern listed applies rfl early
    rw [erased.mpr ⟨pattern, early, applies⟩] at returned
    cases returned
  · intro last
    have decides :
        ∀ matcher ∈ (rewriting.matchers : List (Matcher A)),
          Decides (matcher cursor.before currentOp) := by
      rw [cancelling_matchers cancelling]
      intro matcher member
      rcases List.mem_map.mp member with ⟨pattern, -, rfl⟩
      exact patternCancellation_decides straight
    have ends :=
      rewriteInOrder_ends stale (onePlan_matchers rewriting) visited
        decides
    rcases ends with returned | ⟨rfl, failed⟩
    · exact returned
    · rcases erased.mp failed with ⟨pattern, early, applies⟩
      exact absurd early
        (last pattern (List.dropLast_subset _ early) applies rfl)

end Visits

/-! ## Runs -/

section Runs

variable {interp : Interpretation A (Fin n)} {veq : QuantumValue}
variable {rewriting : RewritingPass}

/-- At every visit of a run the block is straight-line. -/
theorem visits_straightLine (cancelling : Cancelling rewriting)
    (stale : StaleRead) {block : Block A}
    (straight : StraightLine interp veq block) :
    ∀ cursor ∈ visitsOf rewriting stale (kernelOf block),
      StraightLine interp veq cursor.contents :=
  visits_invariant (cancelling_straightLine cancelling)
    (fun operation member => (straight operation member).flat) straight

/--
What stands between two paired gates commutes with the projection onto the
controls of the later gate being set.
-/
def ControlsUndisturbed (interp : Interpretation A (Fin n))
    (pairing : Pairing A) : Prop :=
  Commute (allOf (controlValues interp pairing.current))
    (denote interp pairing.found.between)

/--
In a register that an `int` can index, a deletion preserves the unitary
exactly when it disturbs no control.
-/
theorem run_exact (indexed : n ≤ intRange)
    (cancelling : Cancelling rewriting) (stale : StaleRead)
    {block : Block A} (straight : StraightLine interp veq block) :
    ∀ edit ∈ (rewriting.run stale (kernelOf block)).trace,
      (denote interp edit.target = denote interp edit.source ↔
        ∀ pairing ∈ edit.pairings, ControlsUndisturbed interp pairing) := by
  rw [run_trace_forall_iff]
  intro cursor visit currentOp plan visited planned
  have contents := visits_straightLine cancelling stale straight cursor visit
  rcases deletes_of_decision cancelling contents visited
      (decision_planned planned) with
    ⟨kind, found, gate, foundTarget, target, ⟨involutive⟩, deletes⟩
  rcases deletes.pairings with ⟨compared, pairings⟩
  have preserves := deletes.preserves_iff involutive visited contents
  rw [deletes.pair.cancelOut_iff indexed] at preserves
  rw [editOf, pairings]
  simp only [List.mem_singleton, forall_eq]
  exact preserves

/--
A run of a cancellation pass over a straight-line kernel returns a kernel
with the same unitary, and preserves it in every deletion, exactly when at
every visit at which a pattern applies no other reads the deleted operation
and the two gates cancel out.
-/
theorem run_preserves_denote_iff (cancelling : Cancelling rewriting)
    (stale : StaleRead) {block : Block A}
    (straight : StraightLine interp veq block) :
    ((∃ result,
          (rewriting.run stale (kernelOf block)).outcome =
              .ok (kernelOf result) ∧
            denote interp result = denote interp block) ∧
        ∀ edit ∈ (rewriting.run stale (kernelOf block)).trace,
          denote interp edit.target = denote interp edit.source) ↔
      ∀ cursor ∈ visitsOf rewriting stale (kernelOf block),
        ∀ currentOp, cursor.current = some currentOp →
          MayCancel interp rewriting stale cursor.before currentOp := by
  have flat : ∀ operation ∈ block, operation.blocks = [] :=
    fun operation member => (straight operation member).flat
  have visits := visits_straightLine cancelling stale straight
  have returns :
      (∃ kernel,
          (rewriting.run stale (kernelOf block)).outcome = .ok kernel) ↔
        ∀ cursor ∈ visitsOf rewriting stale (kernelOf block),
          ∀ currentOp, cursor.current = some currentOp →
            ∀ pattern ∈ cancelPatterns rewriting,
              Applies pattern cursor.before currentOp →
                stale = .stops →
                  pattern ∉ (cancelPatterns rewriting).dropLast := by
    rw [RewritingPass.run, operationsOnQuantumKernel, walkNode_returns_iff]
    refine forall₂_congr fun cursor visit => ?_
    rcases entered_of_mem_visits _ visit with
      ⟨before, currentOp, rest, rfl⟩
    have contents := visits _ visit
    rw [Cursor.contents_enter] at contents
    rw [call_returns_iff cancelling rfl contents]
    refine ⟨?_, fun last => last currentOp rfl⟩
    intro last other entered
    cases entered
    exact last
  have recorded :
      (∀ edit ∈ (rewriting.run stale (kernelOf block)).trace,
          denote interp edit.target = denote interp edit.source) ↔
        ∀ cursor ∈ visitsOf rewriting stale (kernelOf block),
          ∀ currentOp, cursor.current = some currentOp →
            ∀ plan,
              decision rewriting cursor.before currentOp =
                  .ok (some plan) →
                denote interp (editOf cursor plan).target =
                  denote interp (editOf cursor plan).source := by
    rw [run_trace_forall_iff]
    exact forall₃_congr fun cursor visit currentOp => forall_comm
  have at_visit (cursor : Cursor (Op A))
      (visit : cursor ∈ visitsOf rewriting stale (kernelOf block))
      (currentOp : Op A) (visited : cursor.current = some currentOp) :=
    visit_preserves_iff cancelling (visits cursor visit) visited
  constructor
  · rintro ⟨⟨result, returned, -⟩, preserved⟩ cursor visit currentOp
      visited pattern listed applies
    exact ⟨returns.mp ⟨_, returned⟩ cursor visit currentOp visited pattern
        listed applies,
      (at_visit cursor visit currentOp visited).mp
        (recorded.mp preserved cursor visit currentOp visited) pattern listed
        applies⟩
  · intro may
    have preserved := recorded.mpr fun cursor visit currentOp visited =>
      (at_visit cursor visit currentOp visited).mpr
        fun pattern listed applies =>
          (may cursor visit currentOp visited pattern listed applies).2
    rcases returns.mpr fun cursor visit currentOp visited pattern
      listed applies =>
        (may cursor visit currentOp visited pattern listed applies).1 with
      ⟨kernel, returned⟩
    rcases operationsOnQuantumKernel_preserves (denote interp) flat
        preserved kernel returned with ⟨result, rfl, same⟩
    exact ⟨⟨result, returned, same⟩, preserved⟩

end Runs

/-! ## A Hadamard gate on the control -/

section HadamardBetween

/-- A qubit of a register of size two. -/
def wire (index : ℕ) : QuantumValue :=
  .extractRef (.veqAlloca 0 2) (.constant index)

def controlledX : Gate ℤ := Gate.create .x false [] [wire 0] [wire 1]

def hadamardOnControl : Gate ℤ := Gate.create .h false [] [] [wire 0]

/-- Two equal controlled gates with a Hadamard gate on the control between. -/
def hadamardBetween : Block ℤ :=
  [controlledX.op, hadamardOnControl.op, controlledX.op]

def pairInterpretation : Interpretation ℤ (Fin 2) :=
  .ofRegister 1 fun _ => 0

theorem pairInterpretation_wire (place : Fin 2) :
    pairInterpretation.qubit (wire place.val) = place :=
  Fin.ext (Nat.mod_eq_of_lt place.isLt)

theorem controlledX_onRegister :
    OnRegister pairInterpretation (.veqAlloca 0 2) controlledX :=
  .create [0, 1] rfl rfl (fun place _ => pairInterpretation_wire place)
    (by decide)

theorem hadamardOnControl_onRegister :
    OnRegister pairInterpretation (.veqAlloca 0 2) hadamardOnControl :=
  .create [0] rfl rfl (fun place _ => pairInterpretation_wire place)
    (by decide)

theorem hadamardBetween_straightLine :
    StraightLine pairInterpretation (.veqAlloca 0 2) hadamardBetween := by
  simp only [hadamardBetween, straightLine_cons]
  exact ⟨.gate _ controlledX_onRegister,
    .gate _ hadamardOnControl_onRegister,
    .gate _ controlledX_onRegister, by simp [StraightLine]⟩

theorem projector_hadamard_not_commute :
    projector true * hadamard ≠ hadamard * projector true := by
  rw [projector, hadamard, entries_mul, entries_mul, Ne, entries_inj]
  simp [halfRoot]

/-- The Hadamard gate disturbs the control. -/
theorem hadamardOnControl_disturbs :
    ¬ Commute (allOf (controlValues pairInterpretation controlledX))
      (denote pairInterpretation [hadamardOnControl.op]) := by
  intro commutes
  have projection :
      allOf (controlValues pairInterpretation controlledX) =
        on 0 (projector true) := by
    rw [controlValues_eq controlledX_onRegister]
    simp [controlledX, Gate.create, pairInterpretation,
      Interpretation.ofRegister, wire]
  have between :
      denote pairInterpretation [hadamardOnControl.op] =
        on 0 hadamard := by
    rw [denote_cons, denote_nil, one_mul, operator_op,
      gateOperator_of_involutive involutiveH rfl
        hadamardOnControl_onRegister rfl,
      controlValues_eq hadamardOnControl_onRegister]
    simp [hadamardOnControl, Gate.create, pairInterpretation,
      Interpretation.ofRegister, wire, involutiveH]
  rw [projection, between] at commutes
  have equal := commutes.eq
  rw [← map_mul, ← map_mul] at equal
  exact projector_hadamard_not_commute (on_injective 0 equal)

/-- The run deletes the two controlled gates and changes the unitary. -/
theorem hadamardBetween_not_preserved :
    ¬ ∀ edit ∈ (RewritingPass.CancellationDoubleCx.run .stops
          (kernelOf hadamardBetween)).trace,
      denote pairInterpretation edit.target =
        denote pairInterpretation edit.source := by
  intro preserved
  have exactly :=
    run_exact (by decide) (Or.inl rfl) .stops hadamardBetween_straightLine
      _ List.mem_cons_self
  have undisturbed :=
    exactly.mp (preserved _ List.mem_cons_self) _ List.mem_cons_self
  exact hadamardOnControl_disturbs undisturbed

/-- The criterion at the kernel with the Hadamard gate. -/
theorem hadamardBetween_preserves_iff :
    ((∃ result,
          (RewritingPass.CancellationDoubleCx.run .stops
                (kernelOf hadamardBetween)).outcome =
              .ok (kernelOf result) ∧
            denote pairInterpretation result =
              denote pairInterpretation hadamardBetween) ∧
        ∀ edit ∈ (RewritingPass.CancellationDoubleCx.run .stops
            (kernelOf hadamardBetween)).trace,
          denote pairInterpretation edit.target =
            denote pairInterpretation edit.source) ↔
      ∀ cursor ∈ visitsOf .CancellationDoubleCx .stops
          (kernelOf hadamardBetween),
        ∀ currentOp, cursor.current = some currentOp →
          MayCancel pairInterpretation .CancellationDoubleCx .stops
            cursor.before currentOp :=
  run_preserves_denote_iff (Or.inl rfl) .stops
    hadamardBetween_straightLine

end HadamardBetween

end MQSSPasses.Passes.Cancellation

end
