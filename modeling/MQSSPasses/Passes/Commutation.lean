import MQSSPasses.Passes.Cancellation
import MQSSPasses.Passes.LookBack

/-!
# Moving a gate behind the visited one

The commutation passes take the gate the look-back found and put it behind
the visited gate.  Both gates stay as they are, so such an edit moves one
operation over a run of others, and it is sound exactly when the moved gate
commutes with them.

The look-back guarantees that nothing in between names the index it
followed.  So a moved gate without controls only has to commute with the
visited gate.  It does if it acts on the followed qubit, but the look-back
may have found it on another qubit with a congruent index.  A moved
controlled gate can be moved exactly when nothing disturbs its control.
-/

noncomputable section

namespace MQSSPasses.Passes.Commutation

open MQSSPasses.General.IntConversion
open MQSSPasses.General.TracedComputation
open MQSSPasses.General.OperationTree
open MQSSPasses.General.ControlledElement
open MQSSPasses.General.QubitOperators
open MQSSPasses.General.GateMatrices
open MQSSPasses.Quake.Syntax
open MQSSPasses.Quake.Operations
open MQSSPasses.Quake.Semantics
open MQSSPasses.Passes.Rewriting
open MQSSPasses.Passes.Matchers
open MQSSPasses.Passes.Visits
open MQSSPasses.Passes.LookBack
open MQSSPasses.Passes.Cancellation

variable {A : Type} {n : ℕ}
variable {interp : Interpretation A (Fin n)} {veq : QuantumValue}

/-! ## Edits that move one gate -/

/--
An edit that takes the gate the look-back found out of its place and puts it
behind the visited gate.
-/
structure MovesBehind (edit : Edit A) (pairing : Pairing A)
    (rest : Block A) : Prop where
  pairings : edit.pairings = [pairing]
  source :
    edit.source =
      pairing.found.lower ++ pairing.found.gate.op ::
        pairing.found.between ++ pairing.current.op :: rest
  target :
    edit.target =
      pairing.found.lower ++ pairing.found.between ++
        pairing.current.op :: pairing.found.gate.op :: rest
  hidden :
    ∀ operation ∈ pairing.found.between,
      Hidden pairing.scanned operation

/-- The parts of a straight-line block around a move. -/
structure StraightMove (interp : Interpretation A (Fin n))
    (veq : QuantumValue) (pairing : Pairing A) (rest : Block A) :
    Prop where
  lower : StraightLine interp veq pairing.found.lower
  found : OnRegister interp veq pairing.found.gate
  between : StraightLine interp veq pairing.found.between
  current : OnRegister interp veq pairing.current
  rest : StraightLine interp veq rest

section Moves

variable {edit : Edit A} {pairing : Pairing A} {rest : Block A}

theorem MovesBehind.parts (moves : MovesBehind edit pairing rest)
    (straight : StraightLine interp veq edit.source) :
    StraightMove interp veq pairing rest := by
  rw [moves.source] at straight
  simp only [straightLine_append, straightLine_cons] at straight
  rcases straight with ⟨⟨lower, found, between⟩, current, rest⟩
  exact
    { lower := lower
      found := found.onRegister rfl
      between := between
      current := current.onRegister rfl
      rest := rest }

theorem MovesBehind.straightLine (moves : MovesBehind edit pairing rest)
    (straight : StraightLine interp veq edit.source) :
    StraightLine interp veq edit.target := by
  have parts := moves.parts straight
  rw [moves.target]
  simp only [straightLine_append, straightLine_cons]
  exact ⟨⟨parts.lower, parts.between⟩, .gate _ parts.current,
    .gate _ parts.found, parts.rest⟩

/--
Moving a gate is sound exactly when it commutes with what it is moved over.
-/
theorem MovesBehind.denote_iff (moves : MovesBehind edit pairing rest)
    (straight : StraightLine interp veq edit.source) :
    denote interp edit.target = denote interp edit.source ↔
      Commute (gateOperator interp pairing.found.gate)
        (gateOperator interp pairing.current *
          denote interp pairing.found.between) := by
  have parts := moves.parts straight
  have source :
      denote interp edit.source =
        denote interp rest *
          (gateOperator interp pairing.current *
            denote interp pairing.found.between *
              gateOperator interp pairing.found.gate) *
          denote interp pairing.found.lower := by
    simp only [moves.source, denote_append, denote_cons, operator_op,
      mul_assoc]
  have target :
      denote interp edit.target =
        denote interp rest *
          (gateOperator interp pairing.found.gate *
            (gateOperator interp pairing.current *
              denote interp pairing.found.between)) *
          denote interp pairing.found.lower := by
    simp only [moves.target, denote_append, denote_cons, operator_op,
      mul_assoc]
  rw [source, target, (denote_isUnit parts.lower).mul_left_inj,
    (denote_isUnit parts.rest).mul_right_inj]
  exact Iff.rfl

/-- A matrix on a qubit with the followed index is not disturbed. -/
theorem MovesBehind.commute_between
    (moves : MovesBehind edit pairing rest)
    (straight : StraightLine interp veq edit.source) {wire : Fin n}
    (read : qubitIndex pairing.scanned = .ok (intOf wire))
    (matrix : BitMatrix) :
    Commute (on wire matrix) (denote interp pairing.found.between) := by
  have between := (moves.parts straight).between
  exact on_commute_denote between
    (unnamed_of_hidden read between moves.hidden) matrix

end Moves

/-! ## The plans of the commutation passes -/

section Plans

/-- The targets of the two gates of a pairing have the followed index. -/
structure OnOneTarget (T1 T2 : GateKind) (nCtrlsOp1 nCtrlsOp2 : ℕ)
    (pairing : Pairing A) (foundTarget : QuantumValue) : Prop where
  foundKind : pairing.found.gate.kind = T1
  foundControls : pairing.found.gate.controls.length = nCtrlsOp1
  foundTargets : pairing.found.gate.targets = [foundTarget]
  currentKind : pairing.current.kind = T2
  currentControls : pairing.current.controls.length = nCtrlsOp2
  currentTargets : pairing.current.targets = [pairing.scanned]
  sameIndex : qubitIndex foundTarget = qubitIndex pairing.scanned

/-- A phase gate has the index of the visited controlled gate's control. -/
structure OnControl (pairing : Pairing A) (foundTarget target : QuantumValue) :
    Prop where
  foundKind : pairing.found.gate.kind = .z
  foundControls : pairing.found.gate.controls = []
  foundTargets : pairing.found.gate.targets = [foundTarget]
  currentKind : pairing.current.kind = .x
  currentControls : pairing.current.controls = [pairing.scanned]
  currentTargets : pairing.current.targets = [target]
  sameIndex : qubitIndex foundTarget = qubitIndex pairing.scanned

variable {cursor : Cursor (Op A)} {currentOp : Op A} {plan : Plan A}

/--
A plan that leaves the visited gate, followed by the found gate, at the end
of the visited part moves the found gate.
-/
theorem movesBehind_of_plan
    (straight : StraightLine interp veq cursor.contents)
    (visited : cursor.current = some currentOp)
    {found : Found A} {currentGate : Gate A} {scanned : QuantumValue}
    {compared : List (QuantumValue × QuantumValue)}
    (isGate : asOperator currentOp = some currentGate)
    (looked :
      getPreviousOperationOnTarget cursor.before scanned =
        .ok (some found))
    (pairings : plan.pairings = [⟨found, currentGate, scanned, compared⟩])
    (before : plan.before = found.lower ++ found.between)
    (behind :
      plan.current.toList ++ plan.inserted =
        [currentGate.op, found.gate.op]) :
    MovesBehind (editOf cursor plan)
      ⟨found, currentGate, scanned, compared⟩
      (cursor.inserted ++ cursor.rest) := by
  have correct := getPreviousOperationOnTarget_correct looked
  have source := contents_of_looked visited looked
  rw [source] at straight
  simp only [straightLine_append, straightLine_cons] at straight
  have foundOp := straight.1.2.1.eq_op correct.isGate
  have visitedOp := straight.2.1.eq_op isGate
  constructor
  · exact pairings
  · rw [← foundOp, ← visitedOp]
    exact source
  · calc
      (plan.apply cursor).contents =
          plan.before ++ (plan.current.toList ++ plan.inserted) ++
            (cursor.inserted ++ cursor.rest) := by
        rw [plan.apply_contents, List.append_assoc plan.before]
      _ = _ := by
        rw [before, behind]
        simp
  · exact correct.passed

/-- The found gate and the visited gate act on the register. -/
theorem onRegister_of_looked
    (straight : StraightLine interp veq cursor.contents)
    (visited : cursor.current = some currentOp)
    {found : Found A} {currentGate : Gate A} {scanned : QuantumValue}
    (isGate : asOperator currentOp = some currentGate)
    (looked :
      getPreviousOperationOnTarget cursor.before scanned =
        .ok (some found)) :
    OnRegister interp veq found.gate ∧
      OnRegister interp veq currentGate := by
  have correct := getPreviousOperationOnTarget_correct looked
  have inside : found.operation ∈ cursor.contents := by
    rw [contents_of_looked visited looked]
    simp
  exact
    ⟨(straight _ inside).onRegister correct.isGate,
      (straight _ (mem_contents_of_visited visited)).onRegister isGate⟩

/-- A plan of `commuteOperation` moves the found gate. -/
theorem commuteOperation_moves {T1 T2 : GateKind}
    {nCtrlsOp1 nCtrlsOp2 : ℕ}
    (straight : StraightLine interp veq cursor.contents)
    (visited : cursor.current = some currentOp)
    (planned :
      commuteOperation T1 T2 nCtrlsOp1 1 nCtrlsOp2 1
        cursor.before currentOp = .ok (some plan)) :
    ∃ pairing rest foundTarget,
      MovesBehind (editOf cursor plan) pairing rest ∧
        OnOneTarget T1 T2 nCtrlsOp1 nCtrlsOp2 pairing foundTarget := by
  simp only [commuteOperation, withGate_eq_some, withPrevious_eq_some,
    except_bind_eq_ok, ite_none_eq_some, return_some_eq] at planned
  rcases planned with
    ⟨currentGate, current, target, operand, found, looked, previousGate,
      previous, previousTarget, previousOperand, targetPrev, first,
      targetCurr, second, equal, rfl⟩
  rcases gateOfShape_eq_some.mp current with
    ⟨cast, controlCount, targetCount⟩
  rcases gateOfShape_eq_some.mp previous with
    ⟨previousCast, previousControlCount, previousTargetCount⟩
  have same :=
    found_gate_eq (getPreviousOperationOnTarget_correct looked)
      previousCast
  subst same
  have isGate := asOperator_eq_some.mpr (asGate_eq_some.mp cast).1
  have isKind := (asGate_eq_some.mp cast).2
  have previousIsKind := (asGate_eq_some.mp previousCast).2
  rcases onRegister_of_looked straight visited isGate looked with
    ⟨foundOnRegister, onRegister⟩
  have targets := eq_singleton_of_element targetCount operand
  refine ⟨_, _, previousTarget, movesBehind_of_plan straight visited isGate
    looked rfl rfl ?_, ?_⟩
  · rw [← isKind, ← previousIsKind, onRegister.create_eq,
      foundOnRegister.create_eq]
    rfl
  · exact
      { foundKind := previousIsKind
        foundControls := previousControlCount
        foundTargets :=
          eq_singleton_of_element previousTargetCount previousOperand
        currentKind := isKind
        currentControls := controlCount
        currentTargets := targets
        sameIndex := by rw [first, second, equal] }

/-- A plan of `commuteZCNot` moves the found gate. -/
theorem commuteZCNot_moves
    (straight : StraightLine interp veq cursor.contents)
    (visited : cursor.current = some currentOp)
    (planned :
      commuteZCNot cursor.before currentOp = .ok (some plan)) :
    ∃ pairing rest foundTarget target,
      MovesBehind (editOf cursor plan) pairing rest ∧
        OnControl pairing foundTarget target := by
  simp only [commuteZCNot, withGate_eq_some, withPrevious_eq_some,
    except_bind_eq_ok, ite_none_eq_some, return_some_eq] at planned
  rcases planned with
    ⟨currentGate, current, control, operand, found, looked, previousGate,
      previous, previousTarget, previousOperand, targetPrev, first,
      controlCurr, second, equal, rfl⟩
  rcases gateOfShape_eq_some.mp current with
    ⟨cast, controlCount, targetCount⟩
  rcases gateOfShape_eq_some.mp previous with
    ⟨previousCast, previousControlCount, previousTargetCount⟩
  have same :=
    found_gate_eq (getPreviousOperationOnTarget_correct looked)
      previousCast
  subst same
  have isGate := asOperator_eq_some.mpr (asGate_eq_some.mp cast).1
  have previousIsKind := (asGate_eq_some.mp previousCast).2
  rcases onRegister_of_looked straight visited isGate looked with
    ⟨foundOnRegister, onRegister⟩
  rcases List.length_eq_one_iff.mp targetCount with ⟨target, targets⟩
  have currentOpEq : currentOp = currentGate.op :=
    (straight currentOp (mem_contents_of_visited visited)).eq_op isGate
  refine ⟨_, _, previousTarget, target, movesBehind_of_plan straight visited
    isGate looked rfl rfl ?_, ?_⟩
  · rw [← previousIsKind, foundOnRegister.create_eq, currentOpEq]
    rfl
  · exact
      { foundKind := previousIsKind
        foundControls := List.eq_nil_of_length_eq_zero previousControlCount
        foundTargets :=
          eq_singleton_of_element previousTargetCount previousOperand
        currentKind := (asGate_eq_some.mp cast).2
        currentControls := eq_singleton_of_element controlCount operand
        currentTargets := targets
        sameIndex := by rw [first, second, equal] }

end Plans

/-! ## The gates that are moved over each other -/

section Gates

theorem rotationX_commute_pauliX (angle : ℝ) :
    Commute (rotationX angle) pauliX := by
  rw [commute_iff_eq, rotationX, pauliX, entries_mul, entries_mul]
  apply entries_congr <;> ring

theorem pauliZ_commute_projector (value : Bool) :
    Commute pauliZ (projector value) := by
  cases value <;>
    simp [commute_iff_eq, pauliZ, projector, entries_mul]

/-- The gates about the `X` axis that the passes move over a target. -/
def AboutX (kind : GateKind) : Prop :=
  kind = .x ∨ kind = .rx

/-- An uncontrolled gate about the `X` axis. -/
theorem gateOperator_of_aboutX {gate : Gate A} {target : QuantumValue}
    (aboutX : AboutX gate.kind) (onRegister : OnRegister interp veq gate)
    (controls : gate.controls = []) (targets : gate.targets = [target]) :
    ∃ matrix, gateOperator interp gate = on (interp.qubit target) matrix ∧
      Commute matrix pauliX := by
  have uncontrolled : allOf (controlValues interp gate) = 1 := by
    rw [controlValues_eq onRegister, controls, List.map_nil, allOf_nil]
  rcases aboutX with isX | isRotation
  · refine ⟨pauliX, ?_, Commute.refl _⟩
    rw [gateOperator_of_involutive involutiveX isX onRegister targets,
      uncontrolled, controlled_one_left]
    rfl
  · rcases List.length_eq_one_iff.mp
      (onRegister.parameters 1 (by rw [isRotation]; rfl)) with
      ⟨parameter, parameters⟩
    refine
      ⟨withAdjoint gate.isAdj (rotationX (interp.angle parameter)), ?_, ?_⟩
    · rw [gateOperator, uncontrolled, controlled_one_left]
      simp only [targetOperator, isRotation, parameters, targets,
        List.map_cons, List.map_nil, standardMatrix]
    · cases gate.isAdj
      · exact rotationX_commute_pauliX _
      · rw [withAdjoint, if_pos rfl, rotationX_conjTranspose]
        exact rotationX_commute_pauliX _

/-- A gate about the `X` axis commutes with a controlled `X` on its target. -/
theorem aboutX_commute_controlledX {first second : Gate A}
    {firstTarget target : QuantumValue} (aboutX : AboutX first.kind)
    (firstOnRegister : OnRegister interp veq first)
    (firstControls : first.controls = [])
    (firstTargets : first.targets = [firstTarget])
    (isX : second.kind = .x)
    (secondOnRegister : OnRegister interp veq second)
    (secondTargets : second.targets = [target])
    (same : interp.qubit firstTarget = interp.qubit target) :
    Commute (gateOperator interp first) (gateOperator interp second) := by
  rcases gateOperator_of_aboutX aboutX firstOnRegister firstControls
    firstTargets with ⟨matrix, acts, commutes⟩
  rw [acts, same, gateOperator_of_involutive involutiveX isX
    secondOnRegister secondTargets]
  exact commute_controlled
    (on_target_commute_controls secondOnRegister secondTargets matrix)
    (commutes.map (on (interp.qubit target)))

/--
A controlled gate commutes with an element that does not act on its target
exactly when the projection onto its controls does.
-/
theorem controlled_commute_iff {kind : GateKind}
    (involutive : Involutive kind) {gate : Gate A} {target : QuantumValue}
    (isKind : gate.kind = kind) (onRegister : OnRegister interp veq gate)
    (targets : gate.targets = [target]) {element : Operator (Fin n)}
    (elsewhere :
      ∀ matrix, Commute (on (interp.qubit target) matrix) element) :
    Commute (gateOperator interp gate) element ↔
      Commute (allOf (controlValues interp gate)) element := by
  rw [gateOperator_of_involutive involutive isKind onRegister targets]
  exact commute_controlled_iff
    (fun _ doubled => eq_zero_of_add_self doubled)
    (elsewhere involutive.matrix)
    (by rw [← map_mul, involutive.flipSquare, map_one])
    (by rw [← map_mul, ← map_mul, ← map_neg, involutive.anticommutes])
    (on_target_commute_controls onRegister targets involutive.flip)
    (elsewhere involutive.flip)

/--
A controlled `X` commutes with an element that does not act on its control
exactly when the flip of its target does.
-/
theorem controlledX_commute_iff {gate : Gate A}
    {control target : QuantumValue} (isX : gate.kind = .x)
    (onRegister : OnRegister interp veq gate)
    (controls : gate.controls = [control])
    (targets : gate.targets = [target]) {element : Operator (Fin n)}
    (elsewhere :
      ∀ matrix, Commute (on (interp.qubit control) matrix) element) :
    Commute (gateOperator interp gate) element ↔
      Commute (on (interp.qubit target) pauliX) element := by
  have apart := control_ne_target onRegister controls targets
  rw [gateOperator_of_control involutiveX isX onRegister targets
    (by rw [controls, List.map_singleton]), controlledBy]
  have exchanges :
      on (interp.qubit control) pauliX *
            on (interp.qubit control) (projector true) *
          on (interp.qubit control) pauliX =
        1 - on (interp.qubit control) (projector true) := by
    rw [← map_mul, ← map_mul, pauliX_exchanges, map_sub, map_one]
  exact commute_controlled_iff_operator (elsewhere _) exchanges
    (on_commute apart _ _) (elsewhere _)

/-- The moved gate commutes with both parts of the visited one. -/
def PartsCommute (interp : Interpretation A (Fin n))
    (moved gate : Gate A) : Prop :=
  Commute (gateOperator interp moved) (allOf (controlValues interp gate)) ∧
    Commute (gateOperator interp moved) (targetOperator interp gate)

theorem PartsCommute.commute {moved gate : Gate A}
    (parts : PartsCommute interp moved gate) :
    Commute (gateOperator interp moved) (gateOperator interp gate) :=
  commute_controlled parts.1 parts.2

/-- A gate about the `X` axis commutes with flipping any target. -/
theorem aboutX_commute_iff {moved gate : Gate A}
    {movedTarget target : QuantumValue} (aboutX : AboutX moved.kind)
    (movedOnRegister : OnRegister interp veq moved)
    (movedControls : moved.controls = [])
    (movedTargets : moved.targets = [movedTarget])
    (isX : gate.kind = .x) (onRegister : OnRegister interp veq gate)
    (targets : gate.targets = [target]) :
    Commute (gateOperator interp moved) (gateOperator interp gate) ↔
      PartsCommute interp moved gate := by
  rcases gateOperator_of_aboutX aboutX movedOnRegister movedControls
    movedTargets with ⟨matrix, acts, commutes⟩
  refine ⟨fun commute => ?_, PartsCommute.commute⟩
  rw [PartsCommute, acts, targetOperator_of_involutive involutiveX isX
    onRegister targets]
  by_cases same : interp.qubit movedTarget = interp.qubit target
  · rw [same]
    exact ⟨on_target_commute_controls onRegister targets matrix,
      commutes.map (on (interp.qubit target))⟩
  · refine ⟨?_, on_commute same _ _⟩
    rw [acts] at commute
    exact ((controlled_commute_iff involutiveX isX onRegister targets
      fun _ => on_commute (Ne.symm same) _ _).mp commute.symm).symm

/-- A phase gate commutes with the projection onto any control. -/
theorem phase_commute_iff {moved gate : Gate A}
    {movedTarget control target : QuantumValue} (isZ : moved.kind = .z)
    (movedOnRegister : OnRegister interp veq moved)
    (movedControls : moved.controls = [])
    (movedTargets : moved.targets = [movedTarget])
    (isX : gate.kind = .x) (onRegister : OnRegister interp veq gate)
    (controls : gate.controls = [control])
    (targets : gate.targets = [target]) :
    Commute (gateOperator interp moved) (gateOperator interp gate) ↔
      PartsCommute interp moved gate := by
  have acts :
      gateOperator interp moved =
        on (interp.qubit movedTarget) pauliZ :=
    gateOperator_of_uncontrolled involutiveZ isZ movedOnRegister
      movedControls movedTargets
  refine ⟨fun commute => ?_, PartsCommute.commute⟩
  rw [PartsCommute, acts, targetOperator_of_involutive involutiveX isX
    onRegister targets, controlValues_eq onRegister, controls]
  by_cases same : interp.qubit movedTarget = interp.qubit control
  · have apart := control_ne_target onRegister controls targets
    rw [same]
    refine ⟨?_, on_commute apart _ _⟩
    simpa using
      (pauliZ_commute_projector true).map (on (interp.qubit control))
  · rw [acts] at commute
    refine ⟨?_, ((controlledX_commute_iff isX onRegister controls targets
      fun _ => on_commute (Ne.symm same) _ _).mp commute.symm).symm⟩
    simpa using on_commute same pauliZ (projector true)

end Gates

/-! ## The passes complete -/

section Completion

theorem commuteOperation_decides (T1 T2 : GateKind)
    (nCtrlsOp1 nCtrlsOp2 : ℕ)
    {before rest : Block A} {currentOp : Op A}
    (straight : StraightLine interp veq (before ++ currentOp :: rest)) :
    Decides
      (commuteOperation T1 T2 nCtrlsOp1 1 nCtrlsOp2 1 before currentOp) := by
  apply withGate_decides
  intro currentGate shape
  have operands := readable_of_straight straight shape
  have count := (gateOfShape_eq_some.mp shape).2.2
  apply Decides.bind (element_decides (by omega))
  intro target operand
  have readable :=
    operands target (List.mem_append_right _ (element_mem operand))
  apply withPrevious_decides readable (readable_before straight)
  intro found looked
  apply withGate_decides
  intro previousGate previousShape
  have previousOperands := readable_found straight looked previousShape
  have previousCount := (gateOfShape_eq_some.mp previousShape).2.2
  apply Decides.bind (element_decides (by omega))
  intro previousTarget previousOperand
  apply Decides.bind (previousOperands previousTarget
    (List.mem_append_right _ (element_mem previousOperand)))
  intro targetPrev _
  apply Decides.bind readable
  intro targetCurr _
  exact .ite (.pure _) (.pure _)

theorem commuteZCNot_decides
    {before rest : Block A} {currentOp : Op A}
    (straight : StraightLine interp veq (before ++ currentOp :: rest)) :
    Decides (commuteZCNot before currentOp) := by
  apply withGate_decides
  intro currentGate shape
  have operands := readable_of_straight straight shape
  have count := (gateOfShape_eq_some.mp shape).2.1
  apply Decides.bind (element_decides (by omega))
  intro control operand
  have readable :=
    operands control (List.mem_append_left _ (element_mem operand))
  apply withPrevious_decides readable (readable_before straight)
  intro found looked
  apply withGate_decides
  intro previousGate previousShape
  have previousOperands := readable_found straight looked previousShape
  have previousCount := (gateOfShape_eq_some.mp previousShape).2.2
  apply Decides.bind (element_decides (by omega))
  intro previousTarget previousOperand
  apply Decides.bind (previousOperands previousTarget
    (List.mem_append_right _ (element_mem previousOperand)))
  intro targetPrev _
  apply Decides.bind readable
  intro controlCurr _
  exact .ite (.pure _) (.pure _)

end Completion

/-! ## Passes that move one gate in each step -/

section Runs

/--
An edit that moves one gate and preserves the unitary exactly when what it
pairs meets the criterion.
-/
def ExactMove (interp : Interpretation A (Fin n))
    (criterion : Pairing A → Prop) (edit : Edit A) : Prop :=
  (∃ pairing rest, MovesBehind edit pairing rest) ∧
    (denote interp edit.target = denote interp edit.source ↔
      ∀ pairing ∈ edit.pairings, criterion pairing)

theorem exactMove_of_moves {criterion : Pairing A → Prop} {edit : Edit A}
    {pairing : Pairing A} {rest : Block A}
    (moves : MovesBehind edit pairing rest)
    (exactly :
      denote interp edit.target = denote interp edit.source ↔
        criterion pairing) :
    ExactMove interp criterion edit := by
  refine ⟨⟨pairing, rest, moves⟩, ?_⟩
  rw [exactly, moves.pairings, List.forall_mem_singleton]

/--
The one matcher of a pass always decides on a straight-line block, and
moves a gate as the criterion says.
-/
def MovesExactly (interp : Interpretation A (Fin n)) (veq : QuantumValue)
    (rewriting : RewritingPass) (criterion : Pairing A → Prop) : Prop :=
  ∃ matcher : Matcher A, rewriting.matchers = [matcher] ∧
    (∀ before currentOp rest,
      StraightLine interp veq (before ++ currentOp :: rest) →
        Decides (matcher before currentOp)) ∧
    ∀ (cursor : Cursor (Op A)) currentOp plan,
      StraightLine interp veq cursor.contents →
      cursor.current = some currentOp →
      matcher cursor.before currentOp = .ok (some plan) →
        ExactMove interp criterion (editOf cursor plan) ∧
          StraightLine interp veq (plan.apply cursor).contents

variable {rewriting : RewritingPass} {criterion : Pairing A → Prop}

/-- Every step of a run is exact as described. -/
theorem MovesExactly.run_exact
    (moves : MovesExactly interp veq rewriting criterion)
    (stale : StaleRead) {block : Block A}
    (straight : StraightLine interp veq block) :
    ∀ edit ∈ (rewriting.run stale (kernelOf block)).trace,
      ExactMove interp criterion edit := by
  rcases moves with ⟨matcher, only, -, exactly⟩
  rw [RewritingPass.run, only]
  refine operationsOnQuantumKernel_satisfies (StraightLine interp veq) ?_
    (fun node member => (straight node member).flat) straight
  intro other member cursor currentOp plan contents visited planned
  rw [List.mem_singleton.mp member] at planned
  exact exactly cursor currentOp plan contents visited planned

/-- A run over a straight-line kernel completes. -/
theorem MovesExactly.run_completes
    (moves : MovesExactly interp veq rewriting criterion)
    (stale : StaleRead) {block : Block A}
    (straight : StraightLine interp veq block) :
    ∃ result,
      (rewriting.run stale (kernelOf block)).outcome =
          .ok (kernelOf result) ∧
        StraightLine interp veq result := by
  rcases moves with ⟨matcher, only, decides, exactly⟩
  rw [RewritingPass.run, only]
  exact operationsOnQuantumKernel_returns decides
    (fun cursor currentOp plan contents visited planned =>
      (exactly cursor currentOp plan contents visited planned).2)
    (fun node member => (straight node member).flat) straight

/-- At every visit of a run the block is straight-line. -/
theorem MovesExactly.visits_straightLine
    (moves : MovesExactly interp veq rewriting criterion)
    (stale : StaleRead) {block : Block A}
    (straight : StraightLine interp veq block) :
    ∀ cursor ∈ visitsOf rewriting stale (kernelOf block),
      StraightLine interp veq cursor.contents := by
  refine visits_invariant ?_
    (fun operation member => (straight operation member).flat) straight
  rcases moves with ⟨matcher, only, -, exactly⟩
  rw [only]
  intro other member cursor currentOp plan contents visited planned
  rw [List.mem_singleton.mp member] at planned
  exact (exactly cursor currentOp plan contents visited planned).2

/--
A run preserves the unitary, in every step and in the result, exactly when
what it pairs meets the criterion.
-/
theorem MovesExactly.run_preserves_iff
    (moves : MovesExactly interp veq rewriting criterion)
    (stale : StaleRead) {block : Block A}
    (straight : StraightLine interp veq block) :
    ((∀ edit ∈ (rewriting.run stale (kernelOf block)).trace,
          denote interp edit.target = denote interp edit.source) ∧
        ∃ result,
          (rewriting.run stale (kernelOf block)).outcome =
              .ok (kernelOf result) ∧
            denote interp result = denote interp block) ↔
      ∀ edit ∈ (rewriting.run stale (kernelOf block)).trace,
        ∀ pairing ∈ edit.pairings, criterion pairing := by
  have each := moves.run_exact stale straight
  constructor
  · rintro ⟨preserved, -⟩ edit recorded
    exact (each edit recorded).2.mp (preserved edit recorded)
  · intro undisturbed
    have preserved :
        ∀ edit ∈ (rewriting.run stale (kernelOf block)).trace,
          denote interp edit.target = denote interp edit.source :=
      fun edit recorded =>
        (each edit recorded).2.mpr (undisturbed edit recorded)
    rcases moves.run_completes stale straight with ⟨result, returned, -⟩
    rcases operationsOnQuantumKernel_preserves (denote interp)
      (fun node member => (straight node member).flat)
      preserved _ returned with ⟨_, equal, same⟩
    cases equal
    exact ⟨preserved, result, returned, same⟩

end Runs

/-! ## Runs that move an uncontrolled gate -/

section UncontrolledMoves

/-- The passes that move an uncontrolled gate behind a controlled `X`. -/
inductive MovesUncontrolled : RewritingPass → Prop where
  | commuteXCx : MovesUncontrolled .CommuteXCx
  | commuteRxCx : MovesUncontrolled .CommuteRxCx
  | commuteZCx : MovesUncontrolled .CommuteZCx

/-- The moved gate commutes with both parts of the one it is put behind. -/
def MovedCommutes (interp : Interpretation A (Fin n))
    (pairing : Pairing A) : Prop :=
  PartsCommute interp pairing.found.gate pairing.current

/-- A moved gate on one qubit only has to commute with the visited gate. -/
theorem preserves_iff_of_uncontrolled {edit : Edit A} {pairing : Pairing A}
    {rest : Block A} (moves : MovesBehind edit pairing rest)
    (straight : StraightLine interp veq edit.source)
    {foundTarget : QuantumValue} {matrix : BitMatrix}
    (acts :
      gateOperator interp pairing.found.gate =
        on (interp.qubit foundTarget) matrix)
    (targets : pairing.found.gate.targets = [foundTarget])
    (same : qubitIndex foundTarget = qubitIndex pairing.scanned) :
    denote interp edit.target = denote interp edit.source ↔
      Commute (gateOperator interp pairing.found.gate)
        (gateOperator interp pairing.current) := by
  have parts := moves.parts straight
  have read :
      qubitIndex foundTarget = .ok (intOf (interp.qubit foundTarget)) :=
    parts.found.extractIndex (by simp [Gate.qubits, targets])
  have passes := moves.commute_between straight (same.symm.trans read) matrix
  rw [moves.denote_iff straight, acts]
  exact commute_mul_iff_left (denote_isUnit parts.between) passes

/-- Moving a gate about the `X` axis behind a controlled `X`. -/
theorem commuteOperation_uncontrolledMove {T1 : GateKind}
    (aboutX : AboutX T1) {nCtrlsOp2 : ℕ}
    {cursor : Cursor (Op A)} {currentOp : Op A} {plan : Plan A}
    (straight : StraightLine interp veq cursor.contents)
    (visited : cursor.current = some currentOp)
    (planned :
      commuteOperation T1 .x 0 1 nCtrlsOp2 1
        cursor.before currentOp = .ok (some plan)) :
    ExactMove interp (MovedCommutes interp) (editOf cursor plan) ∧
      StraightLine interp veq (plan.apply cursor).contents := by
  rcases commuteOperation_moves straight visited planned with
    ⟨pairing, rest, foundTarget, moves, onTarget⟩
  have parts := moves.parts straight
  have controls := List.eq_nil_of_length_eq_zero onTarget.foundControls
  have about : AboutX pairing.found.gate.kind := onTarget.foundKind ▸ aboutX
  rcases gateOperator_of_aboutX about parts.found controls
    onTarget.foundTargets with ⟨matrix, acts, -⟩
  refine ⟨exactMove_of_moves moves ?_, moves.straightLine straight⟩
  rw [preserves_iff_of_uncontrolled moves straight acts
    onTarget.foundTargets onTarget.sameIndex]
  exact aboutX_commute_iff about parts.found controls onTarget.foundTargets
    onTarget.currentKind parts.current onTarget.currentTargets

/-- Moving a phase gate behind a controlled `X`. -/
theorem commuteZCNot_uncontrolledMove
    {cursor : Cursor (Op A)} {currentOp : Op A} {plan : Plan A}
    (straight : StraightLine interp veq cursor.contents)
    (visited : cursor.current = some currentOp)
    (planned :
      commuteZCNot cursor.before currentOp = .ok (some plan)) :
    ExactMove interp (MovedCommutes interp) (editOf cursor plan) ∧
      StraightLine interp veq (plan.apply cursor).contents := by
  rcases commuteZCNot_moves straight visited planned with
    ⟨pairing, rest, foundTarget, target, moves, onControl⟩
  have parts := moves.parts straight
  have acts :
      gateOperator interp pairing.found.gate =
        on (interp.qubit foundTarget) pauliZ :=
    gateOperator_of_uncontrolled involutiveZ onControl.foundKind
      parts.found onControl.foundControls onControl.foundTargets
  refine ⟨exactMove_of_moves moves ?_, moves.straightLine straight⟩
  rw [preserves_iff_of_uncontrolled moves straight acts
    onControl.foundTargets onControl.sameIndex]
  exact phase_commute_iff onControl.foundKind parts.found
    onControl.foundControls onControl.foundTargets onControl.currentKind
    parts.current onControl.currentControls onControl.currentTargets

theorem MovesUncontrolled.movesExactly {rewriting : RewritingPass}
    (moves : MovesUncontrolled rewriting) :
    MovesExactly interp veq rewriting
      (MovedCommutes interp : Pairing A → Prop) := by
  cases moves with
  | commuteXCx =>
      exact ⟨_, rfl, fun _ _ _ => commuteOperation_decides _ _ _ _,
        fun _ _ _ => commuteOperation_uncontrolledMove (.inl rfl)⟩
  | commuteRxCx =>
      exact ⟨_, rfl, fun _ _ _ => commuteOperation_decides _ _ _ _,
        fun _ _ _ => commuteOperation_uncontrolledMove (.inr rfl)⟩
  | commuteZCx =>
      exact ⟨_, rfl, fun _ _ _ => commuteZCNot_decides,
        fun _ _ _ => commuteZCNot_uncontrolledMove⟩

/-- An edit that moves one gate and preserves the unitary. -/
def SoundMove (interp : Interpretation A (Fin n)) (edit : Edit A) : Prop :=
  (∃ pairing rest, MovesBehind edit pairing rest) ∧
    denote interp edit.target = denote interp edit.source

/--
If the pass rewrites, the nearest gate that names the followed index
commutes with both parts of the visited gate: with the projection onto its
control being set, and with what it does to its target.
-/
def MayMove (interp : Interpretation A (Fin n)) (rewriting : RewritingPass)
    (before : Block A) (currentOp : Op A) : Prop :=
  Rewrites rewriting before currentOp →
    ∀ gate, asOperator currentOp = some gate →
      ∀ scanned ∈ followed rewriting gate, ∀ found,
        NearestGate scanned 1 before found → PartsCommute interp found gate

/-- What is paired at a visit is what stands in the block there. -/
theorem movedCommutes_iff {rewriting : RewritingPass}
    (moves : MovesUncontrolled rewriting) {before : Block A}
    {currentOp : Op A} :
    MayMove interp rewriting before currentOp ↔
      ∀ plan, decision rewriting before currentOp = .ok (some plan) →
        ∀ pairing ∈ plan.pairings, MovedCommutes interp pairing := by
  have single : lookBacks rewriting = 1 := by
    cases moves <;> rfl
  have nearest {gate : Gate A} {scanned : QuantumValue}
      {pairings : List (Pairing A)}
      (pairs : Pairs rewriting before gate scanned pairings) :
      (∀ pairing ∈ pairings, MovedCommutes interp pairing) ↔
        ∀ found, NearestGate scanned 1 before found →
          PartsCommute interp found gate := by
    cases pairs with
    | one found compared _ correct _ =>
        simp only [nearestGate_succ_iff correct, not_nearestGate_zero,
          or_false, List.mem_singleton, forall_eq]
        rfl
    | two found earlier middle double =>
        rw [single] at double
        cases double
  constructor
  · intro may plan planned
    rcases decision_pairings planned with
      ⟨gate, scanned, isGate, follows, pairs⟩
    exact (nearest pairs).mpr (may ⟨plan, planned⟩ gate isGate scanned follows)
  · rintro commute ⟨plan, planned⟩ gate isGate scanned follows
    rcases decision_pairings planned with
      ⟨other, qubit, isOther, followsQubit, pairs⟩
    cases isGate.symm.trans isOther
    cases follows.symm.trans followsQubit
    exact (nearest pairs).mp (commute plan planned)

/--
A run over a straight-line kernel completes.  It preserves the unitary, in
every step and in the result, exactly when at every visit at which the pass
rewrites the gate that it moves commutes with both parts of the visited one.
-/
theorem run_moves_soundly_iff {rewriting : RewritingPass}
    (moves : MovesUncontrolled rewriting) (stale : StaleRead)
    {block : Block A} (straight : StraightLine interp veq block) :
    ((∀ edit ∈ (rewriting.run stale (kernelOf block)).trace,
          SoundMove interp edit) ∧
        ∃ result,
          (rewriting.run stale (kernelOf block)).outcome =
              .ok (kernelOf result) ∧
            StraightLine interp veq result ∧
            denote interp result = denote interp block) ↔
      ∀ cursor ∈ visitsOf rewriting stale (kernelOf block),
        ∀ currentOp, cursor.current = some currentOp →
          MayMove interp rewriting cursor.before currentOp := by
  have exactly := @MovesUncontrolled.movesExactly A n interp veq _ moves
  have criterion :
      (∀ cursor ∈ visitsOf rewriting stale (kernelOf block),
        ∀ currentOp, cursor.current = some currentOp →
          MayMove interp rewriting cursor.before currentOp) ↔
        ∀ edit ∈ (rewriting.run stale (kernelOf block)).trace,
          ∀ pairing ∈ edit.pairings, MovedCommutes interp pairing := by
    rw [run_trace_forall_iff]
    refine forall₃_congr fun cursor visit currentOp => ?_
    rw [movedCommutes_iff moves]
    exact forall_comm
  rw [criterion, ← exactly.run_preserves_iff stale straight]
  constructor
  · rintro ⟨sound, result, returned, -, same⟩
    exact ⟨fun edit recorded => (sound edit recorded).2, result, returned,
      same⟩
  · rintro ⟨preserved, result, returned, same⟩
    refine ⟨fun edit recorded =>
      ⟨(exactly.run_exact stale straight edit recorded).1,
        preserved edit recorded⟩, result, returned, ?_, same⟩
    rcases exactly.run_completes stale straight with
      ⟨other, otherReturned, otherStraight⟩
    rw [returned] at otherReturned
    cases otherReturned
    exact otherStraight

/-- An `X` gate on the qubit of the target. -/
def flipOnTarget : Gate ℤ := Gate.create .x false [] [] [wire 1]

theorem flipOnTarget_onRegister :
    OnRegister pairInterpretation (.veqAlloca 0 2) flipOnTarget :=
  .create [1] rfl rfl (fun place _ => pairInterpretation_wire place)
    (by decide)

/-- A flip of the target, a Hadamard gate on the control, a controlled `X`. -/
def flipBefore : Block ℤ :=
  [flipOnTarget.op, hadamardOnControl.op, controlledX.op]

theorem flipBefore_straightLine :
    StraightLine pairInterpretation (.veqAlloca 0 2) flipBefore := by
  simp only [flipBefore, straightLine_cons]
  exact ⟨.gate _ flipOnTarget_onRegister,
    .gate _ hadamardOnControl_onRegister,
    .gate _ controlledX_onRegister, by simp [StraightLine]⟩

/-- The flip is moved over the Hadamard gate and the controlled `X`. -/
theorem flipBefore_moves_soundly_iff :
    ((∀ edit ∈ (RewritingPass.CommuteXCx.run .stops
            (kernelOf flipBefore)).trace,
          SoundMove pairInterpretation edit) ∧
        ∃ result,
          (RewritingPass.CommuteXCx.run .stops
              (kernelOf flipBefore)).outcome = .ok (kernelOf result) ∧
            StraightLine pairInterpretation (.veqAlloca 0 2) result ∧
            denote pairInterpretation result =
              denote pairInterpretation flipBefore) ↔
      ∀ cursor ∈ visitsOf .CommuteXCx .stops (kernelOf flipBefore),
        ∀ currentOp, cursor.current = some currentOp →
          MayMove pairInterpretation .CommuteXCx cursor.before currentOp :=
  run_moves_soundly_iff .commuteXCx .stops flipBefore_straightLine

/--
In a register that an `int` can index, the moved gate acts on the followed
qubit, and so it always commutes with the visited gate.
-/
theorem movedCommutes_of_indexed (indexed : n ≤ intRange)
    {rewriting : RewritingPass} (moves : MovesUncontrolled rewriting)
    {cursor : Cursor (Op A)} {currentOp : Op A} {plan : Plan A}
    (straight : StraightLine interp veq cursor.contents)
    (visited : cursor.current = some currentOp)
    (planned :
      ∃ matcher ∈ (rewriting.matchers : List (Matcher A)),
        matcher cursor.before currentOp = .ok (some plan)) :
    ∀ pairing ∈ plan.pairings, MovedCommutes interp pairing := by
  have onTarget {T1 : GateKind} (aboutX : AboutX T1)
      (made :
        commuteOperation T1 .x 0 1 1 1 cursor.before currentOp =
          .ok (some plan)) :
      ∀ pairing ∈ plan.pairings, MovedCommutes interp pairing := by
    rcases commuteOperation_moves straight visited made with
      ⟨pairing, rest, foundTarget, moved, onTarget⟩
    have parts := moved.parts straight
    have controls := List.eq_nil_of_length_eq_zero onTarget.foundControls
    have same :=
      parts.found.eq_of_extractIndex indexed parts.current
        (by simp [Gate.qubits, onTarget.foundTargets])
        (by simp [Gate.qubits, onTarget.currentTargets]) onTarget.sameIndex
    have about : AboutX pairing.found.gate.kind :=
      onTarget.foundKind ▸ aboutX
    have pairings : plan.pairings = [pairing] := moved.pairings
    rw [pairings, List.forall_mem_singleton]
    exact (aboutX_commute_iff about parts.found controls
      onTarget.foundTargets onTarget.currentKind parts.current
      onTarget.currentTargets).mp
        (aboutX_commute_controlledX about parts.found controls
          onTarget.foundTargets onTarget.currentKind parts.current
          onTarget.currentTargets (by rw [same]))
  rcases planned with ⟨matcher, member, made⟩
  cases moves with
  | commuteXCx =>
      rw [List.mem_singleton.mp member] at made
      exact onTarget (.inl rfl) made
  | commuteRxCx =>
      rw [List.mem_singleton.mp member] at made
      exact onTarget (.inr rfl) made
  | commuteZCx =>
      rw [List.mem_singleton.mp member] at made
      rcases commuteZCNot_moves straight visited made with
        ⟨pairing, rest, foundTarget, target, moved, onControl⟩
      have parts := moved.parts straight
      have same :=
        parts.found.eq_of_extractIndex indexed parts.current
          (by simp [Gate.qubits, onControl.foundTargets])
          (by simp [Gate.qubits, onControl.currentControls])
          onControl.sameIndex
      have apart :=
        control_ne_target parts.current onControl.currentControls
          onControl.currentTargets
      have pairings : plan.pairings = [pairing] := moved.pairings
      rw [pairings, List.forall_mem_singleton]
      refine (phase_commute_iff onControl.foundKind parts.found
        onControl.foundControls onControl.foundTargets
        onControl.currentKind parts.current onControl.currentControls
        onControl.currentTargets).mp ?_
      rw [gateOperator_of_uncontrolled involutiveZ onControl.foundKind
          parts.found onControl.foundControls onControl.foundTargets, same,
        gateOperator_of_control involutiveX onControl.currentKind
          parts.current onControl.currentTargets
          (by rw [onControl.currentControls, List.map_singleton]),
        controlledBy]
      exact commute_controlled
        ((pauliZ_commute_projector true).map _) (on_commute apart _ _)

/-! ### A register with more qubits than an `int` has values -/

/-- A qubit of such a register. -/
def farWire (index : ℕ) : QuantumValue :=
  .extractRef (.veqAlloca 0 4294967298) (.constant index)

def farInterpretation : Interpretation ℤ (Fin 4294967298) :=
  .ofRegister 4294967297 fun _ => 0

theorem farInterpretation_wire (place : Fin 4294967298) :
    farInterpretation.qubit (farWire place.val) = place :=
  Fin.ext (Nat.mod_eq_of_lt place.isLt)

/-- An `X` gate on the control of the next gate. -/
def flipOfControl : Gate ℤ := Gate.create .x false [] [] [farWire 4294967297]

/-- The index of its control is congruent to that of its target. -/
def congruentX : Gate ℤ :=
  Gate.create .x false [] [farWire 4294967297] [farWire 1]

theorem flipOfControl_onRegister :
    OnRegister farInterpretation (.veqAlloca 0 4294967298)
      flipOfControl :=
  .create [4294967297] rfl rfl (fun place _ => farInterpretation_wire place)
    (by decide)

theorem congruentX_onRegister :
    OnRegister farInterpretation (.veqAlloca 0 4294967298) congruentX :=
  .create [4294967297, 1] rfl rfl
    (fun place _ => farInterpretation_wire place) (by decide)

/-- The flip is found from the target, and moved behind the gate. -/
theorem flipOfControl_not_moved_soundly :
    StraightLine farInterpretation (.veqAlloca 0 4294967298)
        [flipOfControl.op, congruentX.op] ∧
      (RewritingPass.CommuteXCx.run .stops
          (kernelOf [flipOfControl.op, congruentX.op])).outcome =
        .ok (kernelOf [congruentX.op, flipOfControl.op]) ∧
      denote farInterpretation [congruentX.op, flipOfControl.op] ≠
        denote farInterpretation [flipOfControl.op, congruentX.op] := by
  have straight :
      StraightLine farInterpretation (.veqAlloca 0 4294967298)
        [flipOfControl.op, congruentX.op] := by
    simp only [straightLine_cons]
    exact ⟨.gate _ flipOfControl_onRegister,
      .gate _ congruentX_onRegister, by simp [StraightLine]⟩
  refine ⟨straight, rfl, fun preserved => ?_⟩
  have exactly :=
    MovesUncontrolled.commuteXCx.movesExactly.run_exact .stops straight
      _ List.mem_cons_self
  have commutes :=
    (exactly.2.mp preserved _ List.mem_cons_self).1
  rw [gateOperator_of_uncontrolled involutiveX rfl
      flipOfControl_onRegister rfl rfl,
    controlValues_eq congruentX_onRegister] at commutes
  have equal := commutes.eq
  simp only [congruentX, Gate.create, List.map_cons, List.map_nil,
    allOf_cons, allOf_nil, mul_one, ← map_mul] at equal
  exact not_commute_projector one_ne_zero (on_injective _ equal)

end UncontrolledMoves

/-! ## Runs that move a controlled gate -/

section ControlledMoves

/-- The passes that move a controlled `X` behind an uncontrolled gate. -/
inductive MovesControlled : RewritingPass → Prop where
  | commuteCxX : MovesControlled .CommuteCxX
  | commuteCxRx : MovesControlled .CommuteCxRx

/--
What stands between the two gates, and the visited gate, commutes with the
projection onto the control of the moved gate being set.
-/
def MovedControlUndisturbed (interp : Interpretation A (Fin n))
    (pairing : Pairing A) : Prop :=
  Commute (allOf (controlValues interp pairing.found.gate))
    (denote interp (pairing.found.between ++ [pairing.current.op]))

/--
A controlled `X` commutes with what it is moved over exactly when the
projection onto its control does.
-/
theorem overTarget_commute_iff {T2 : GateKind} (aboutX : AboutX T2)
    {edit : Edit A} {pairing : Pairing A} {rest : Block A}
    (moves : MovesBehind edit pairing rest)
    (straight : StraightLine interp veq edit.source)
    {foundTarget : QuantumValue}
    (onTarget : OnOneTarget .x T2 1 0 pairing foundTarget) :
    Commute (gateOperator interp pairing.found.gate)
        (gateOperator interp pairing.current *
          denote interp pairing.found.between) ↔
      Commute (allOf (controlValues interp pairing.found.gate))
        (gateOperator interp pairing.current *
          denote interp pairing.found.between) := by
  have parts := moves.parts straight
  have controls := List.eq_nil_of_length_eq_zero onTarget.currentControls
  have about : AboutX pairing.current.kind :=
    onTarget.currentKind ▸ aboutX
  rcases gateOperator_of_aboutX about parts.current controls
    onTarget.currentTargets with ⟨matrix, acts, -⟩
  have read :
      qubitIndex pairing.scanned =
        .ok (intOf (interp.qubit foundTarget)) := by
    rw [← onTarget.sameIndex]
    exact parts.found.extractIndex
      (by simp [Gate.qubits, onTarget.foundTargets])
  have passes := moves.commute_between straight read
  by_cases same :
      interp.qubit foundTarget = interp.qubit pairing.scanned
  · -- On its target the visited gate commutes with the whole gate.
    have visited := gateOperator_isUnit interp parts.current.distinctWires
    have whole :
        Commute (gateOperator interp pairing.found.gate)
          (gateOperator interp pairing.current) :=
      (aboutX_commute_controlledX about parts.current controls
        onTarget.currentTargets onTarget.foundKind parts.found
        onTarget.foundTargets same.symm).symm
    have controls :
        Commute (allOf (controlValues interp pairing.found.gate))
          (gateOperator interp pairing.current) := by
      rw [acts, ← same]
      exact (on_target_commute_controls parts.found onTarget.foundTargets
        matrix).symm
    rw [commute_mul_iff_right visited whole,
      commute_mul_iff_right visited controls]
    exact controlled_commute_iff involutiveX onTarget.foundKind parts.found
      onTarget.foundTargets passes
  · refine controlled_commute_iff involutiveX onTarget.foundKind parts.found
      onTarget.foundTargets fun other => ?_
    rw [acts]
    exact (on_commute same _ _).mul_right (passes other)

/-- Moving a controlled `X` behind a gate about the `X` axis. -/
theorem commuteOperation_exactMove {T2 : GateKind} (aboutX : AboutX T2)
    {cursor : Cursor (Op A)} {currentOp : Op A} {plan : Plan A}
    (straight : StraightLine interp veq cursor.contents)
    (visited : cursor.current = some currentOp)
    (planned :
      commuteOperation .x T2 1 1 0 1
        cursor.before currentOp = .ok (some plan)) :
    ExactMove interp (MovedControlUndisturbed interp) (editOf cursor plan) ∧
      StraightLine interp veq (plan.apply cursor).contents := by
  rcases commuteOperation_moves straight visited planned with
    ⟨pairing, rest, foundTarget, moves, onTarget⟩
  refine ⟨exactMove_of_moves moves ?_, moves.straightLine straight⟩
  rw [moves.denote_iff straight,
    overTarget_commute_iff aboutX moves straight onTarget,
    MovedControlUndisturbed, denote_append, denote_cons, denote_nil,
    one_mul, operator_op]

theorem MovesControlled.movesExactly {rewriting : RewritingPass}
    (moves : MovesControlled rewriting) :
    MovesExactly interp veq rewriting
      (MovedControlUndisturbed interp : Pairing A → Prop) := by
  cases moves with
  | commuteCxX =>
      exact ⟨_, rfl, fun _ _ _ => commuteOperation_decides _ _ _ _,
        fun _ _ _ => commuteOperation_exactMove (.inl rfl)⟩
  | commuteCxRx =>
      exact ⟨_, rfl, fun _ _ _ => commuteOperation_decides _ _ _ _,
        fun _ _ _ => commuteOperation_exactMove (.inr rfl)⟩

/--
A run over a straight-line kernel completes, and it preserves the unitary,
in every step and in the result, exactly when no step moves a controlled
gate over operations that disturb its control.
-/
theorem run_preserves_denote_iff_control_undisturbed
    {rewriting : RewritingPass}
    (moves : MovesControlled rewriting) (stale : StaleRead)
    {block : Block A} (straight : StraightLine interp veq block) :
    ((∀ edit ∈ (rewriting.run stale (kernelOf block)).trace,
          denote interp edit.target = denote interp edit.source) ∧
        ∃ result,
          (rewriting.run stale (kernelOf block)).outcome =
              .ok (kernelOf result) ∧
            denote interp result = denote interp block) ↔
      ∀ edit ∈ (rewriting.run stale (kernelOf block)).trace,
        ∀ pairing ∈ edit.pairings,
          MovedControlUndisturbed interp pairing :=
  moves.movesExactly.run_preserves_iff stale straight

/-- A controlled `X`, a Hadamard gate on its control, a flip of the target. -/
def flipBehind : Block ℤ :=
  [controlledX.op, hadamardOnControl.op, flipOnTarget.op]

theorem flipBehind_straightLine :
    StraightLine pairInterpretation (.veqAlloca 0 2) flipBehind := by
  simp only [flipBehind, straightLine_cons]
  exact ⟨.gate _ controlledX_onRegister,
    .gate _ hadamardOnControl_onRegister,
    .gate _ flipOnTarget_onRegister, by simp [StraightLine]⟩

/-- The criterion at the kernel with the Hadamard gate on the control. -/
theorem flipBehind_preserves_iff :
    ((∀ edit ∈ (RewritingPass.CommuteCxX.run .stops
            (kernelOf flipBehind)).trace,
          denote pairInterpretation edit.target =
            denote pairInterpretation edit.source) ∧
        ∃ result,
          (RewritingPass.CommuteCxX.run .stops
              (kernelOf flipBehind)).outcome = .ok (kernelOf result) ∧
            denote pairInterpretation result =
              denote pairInterpretation flipBehind) ↔
      ∀ edit ∈ (RewritingPass.CommuteCxX.run .stops
          (kernelOf flipBehind)).trace,
        ∀ pairing ∈ edit.pairings,
          MovedControlUndisturbed pairInterpretation pairing :=
  run_preserves_denote_iff_control_undisturbed .commuteCxX .stops
    flipBehind_straightLine

/-- The run moves the controlled gate and changes the unitary. -/
theorem flipBehind_not_preserved :
    ∃ result,
      (RewritingPass.CommuteCxX.run .stops
          (kernelOf flipBehind)).outcome = .ok (kernelOf result) ∧
        denote pairInterpretation result ≠
          denote pairInterpretation flipBehind := by
  refine ⟨[hadamardOnControl.op, flipOnTarget.op, controlledX.op], rfl, ?_⟩
  have exactly :=
    MovesControlled.commuteCxX.movesExactly.run_exact .stops
      flipBehind_straightLine _ List.mem_cons_self
  intro preserved
  have undisturbed := exactly.2.mp preserved _ List.mem_cons_self
  rw [MovedControlUndisturbed, denote_append, denote_cons, denote_nil,
    one_mul, operator_op] at undisturbed
  have visited :=
    gateOperator_isUnit pairInterpretation
      flipOnTarget_onRegister.distinctWires
  have apart :
      Commute (allOf (controlValues pairInterpretation controlledX))
        (gateOperator pairInterpretation flipOnTarget) := by
    rw [gateOperator_of_uncontrolled involutiveX rfl
      flipOnTarget_onRegister rfl rfl]
    exact (on_target_commute_controls controlledX_onRegister rfl _).symm
  exact hadamardOnControl_disturbs
    ((commute_mul_iff_right visited apart).mp undisturbed)

end ControlledMoves

end MQSSPasses.Passes.Commutation

end
