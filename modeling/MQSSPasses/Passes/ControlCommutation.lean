import MQSSPasses.Passes.Commutation

/-!
# Moving a controlled gate behind a phase gate on its control

`CommuteCxZ` looks back from a phase gate and follows the qubit the phase
gate acts on.  If the gate found there is a controlled `X` with this qubit as
its control, the pass puts it behind the phase gate.

Here the control is what the look-back watches, and the target is what it
does not.  So such a move is sound exactly when the operations in between
commute with the flip of the target.
-/

noncomputable section

namespace MQSSPasses.Passes.ControlCommutation

open MQSSPasses.General.TracedComputation
open MQSSPasses.General.OperationTree
open MQSSPasses.General.ControlledElement
open MQSSPasses.General.QubitOperators
open MQSSPasses.General.GateMatrices
open MQSSPasses.Quake.Syntax
open MQSSPasses.Quake.Operations
open MQSSPasses.Quake.Semantics
open MQSSPasses.Passes.Rewriting
open MQSSPasses.Passes.Matchers
open MQSSPasses.Passes.Visits
open MQSSPasses.Passes.Cancellation
open MQSSPasses.Passes.Commutation

variable {A : Type} {n : ℕ}
variable {interp : Interpretation A (Fin n)} {veq : QuantumValue}

/-! ## The plans of the pass -/

/-- A controlled `X` whose control has the index of a later phase gate. -/
structure BehindPhase (pairing : Pairing A)
    (control target : QuantumValue) : Prop where
  foundKind : pairing.found.gate.kind = .x
  foundControls : pairing.found.gate.controls = [control]
  foundTargets : pairing.found.gate.targets = [target]
  currentKind : pairing.current.kind = .z
  currentControls : pairing.current.controls = []
  currentTargets : pairing.current.targets = [pairing.scanned]
  sameIndex : qubitIndex control = qubitIndex pairing.scanned

variable {cursor : Cursor (Op A)} {currentOp : Op A} {plan : Plan A}

/-- A plan of `commuteCNotZ` moves the found gate. -/
theorem commuteCNotZ_moves
    (straight : StraightLine interp veq cursor.contents)
    (visited : cursor.current = some currentOp)
    (planned :
      commuteCNotZ cursor.before currentOp = .ok (some plan)) :
    ∃ pairing rest control target,
      MovesBehind (editOf cursor plan) pairing rest ∧
        BehindPhase pairing control target := by
  simp only [commuteCNotZ, withGate_eq_some, withPrevious_eq_some,
    except_bind_eq_ok, ite_none_eq_some, return_some_eq] at planned
  rcases planned with
    ⟨currentGate, current, target, operand, found, looked, previousGate,
      previous, previousTarget, previousOperand, _, -, previousControl,
      controlOperand, controlPrev, first, targetCurr, second, equal, rfl⟩
  rcases gateOfShape_eq_some.mp current with
    ⟨cast, controlCount, targetCount⟩
  rcases gateOfShape_eq_some.mp previous with
    ⟨previousCast, previousControlCount, previousTargetCount⟩
  have same :=
    found_gate_eq (getPreviousOperationOnTarget_correct looked)
      previousCast
  subst same
  have isGate := asOperator_eq_some.mpr (asGate_eq_some.mp cast).1
  have previousIsKind := (asGate_eq_some.mp previousCast).2
  rcases onRegister_of_looked straight visited isGate looked with
    ⟨foundOnRegister, onRegister⟩
  have currentOpEq : currentOp = currentGate.op :=
    (straight currentOp (mem_contents_of_visited visited)).eq_op isGate
  refine ⟨_, _, previousControl, previousTarget, movesBehind_of_plan
    straight visited isGate looked rfl rfl ?_, ?_⟩
  · rw [← previousIsKind, foundOnRegister.create_eq, currentOpEq]
    rfl
  · exact
      { foundKind := previousIsKind
        foundControls :=
          eq_singleton_of_element previousControlCount controlOperand
        foundTargets :=
          eq_singleton_of_element previousTargetCount previousOperand
        currentKind := (asGate_eq_some.mp cast).2
        currentControls := List.eq_nil_of_length_eq_zero controlCount
        currentTargets := eq_singleton_of_element targetCount operand
        sameIndex := by rw [first, second, equal] }

/-- In a straight-line block the matcher always decides. -/
theorem commuteCNotZ_decides
    {before rest : Block A} {currentOp : Op A}
    (straight : StraightLine interp veq (before ++ currentOp :: rest)) :
    Decides (commuteCNotZ before currentOp) := by
  apply withGate_decides
  intro currentGate shape
  have operands := readable_of_straight straight shape
  have count := (gateOfShape_eq_some.mp shape).2.2
  apply Decides.bind (element_decides (by omega))
  intro target operand
  have readable :=
    operands target (List.mem_append_right _ (element_mem operand))
  apply withPrevious_decides readable (readable_before straight)
  intro found looked
  apply withGate_decides
  intro previousGate previousShape
  have previousOperands := readable_found straight looked previousShape
  have counts := (gateOfShape_eq_some.mp previousShape).2
  apply Decides.bind (element_decides (by omega))
  intro previousTarget previousOperand
  apply Decides.bind (previousOperands previousTarget
    (List.mem_append_right _ (element_mem previousOperand)))
  intro targetPrev _
  apply Decides.bind (element_decides (by omega))
  intro previousControl controlOperand
  apply Decides.bind (previousOperands previousControl
    (List.mem_append_left _ (element_mem controlOperand)))
  intro controlPrev _
  apply Decides.bind readable
  intro targetCurr _
  exact .ite (.pure _) (.pure _)

/-! ## The target decides -/

/--
What stands between the two gates, and the visited gate, commutes with
flipping the targets of the moved gate.
-/
def MovedTargetUndisturbed (interp : Interpretation A (Fin n))
    (pairing : Pairing A) : Prop :=
  ∀ target ∈ pairing.found.gate.targets,
    Commute (on (interp.qubit target) pauliX)
      (denote interp (pairing.found.between ++ [pairing.current.op]))

/--
A controlled `X` commutes with what it is moved over exactly when the flip
of its target does.
-/
theorem overPhase_commute_iff {edit : Edit A} {pairing : Pairing A}
    {rest : Block A} (moves : MovesBehind edit pairing rest)
    (straight : StraightLine interp veq edit.source)
    {control target : QuantumValue}
    (behind : BehindPhase pairing control target) :
    Commute (gateOperator interp pairing.found.gate)
        (gateOperator interp pairing.current *
          denote interp pairing.found.between) ↔
      Commute (on (interp.qubit target) pauliX)
        (gateOperator interp pairing.current *
          denote interp pairing.found.between) := by
  have parts := moves.parts straight
  have phase :
      gateOperator interp pairing.current =
        on (interp.qubit pairing.scanned) pauliZ :=
    gateOperator_of_uncontrolled involutiveZ behind.currentKind
      parts.current behind.currentControls behind.currentTargets
  have read :
      qubitIndex pairing.scanned =
        .ok (intOf (interp.qubit control)) := by
    rw [← behind.sameIndex]
    exact parts.found.extractIndex
      (by simp [Gate.qubits, behind.foundControls])
  have passes := moves.commute_between straight read
  by_cases same :
      interp.qubit control = interp.qubit pairing.scanned
  · -- On its control the phase gate commutes with the whole gate.
    have apart :=
      control_ne_target parts.found behind.foundControls behind.foundTargets
    have visited := gateOperator_isUnit interp parts.current.distinctWires
    have whole :
        Commute (gateOperator interp pairing.found.gate)
          (gateOperator interp pairing.current) := by
      rw [phase, gateOperator_of_control involutiveX behind.foundKind
        parts.found behind.foundTargets
        (by rw [behind.foundControls, List.map_singleton]), controlledBy,
        ← same]
      exact (commute_controlled
        ((pauliZ_commute_projector true).map (on (interp.qubit control)))
        (on_commute apart _ _)).symm
    have flips :
        Commute (on (interp.qubit target) pauliX)
          (gateOperator interp pairing.current) := by
      rw [phase, ← same]
      exact on_commute apart.symm _ _
    rw [commute_mul_iff_right visited whole,
      commute_mul_iff_right visited flips]
    exact controlledX_commute_iff behind.foundKind parts.found
      behind.foundControls behind.foundTargets passes
  · refine controlledX_commute_iff behind.foundKind parts.found
      behind.foundControls behind.foundTargets fun matrix => ?_
    rw [phase]
    exact (on_commute same _ _).mul_right (passes matrix)

/-- Moving a controlled `X` behind a phase gate on its control. -/
theorem commuteCNotZ_exactMove
    (straight : StraightLine interp veq cursor.contents)
    (visited : cursor.current = some currentOp)
    (planned :
      commuteCNotZ cursor.before currentOp = .ok (some plan)) :
    ExactMove interp (MovedTargetUndisturbed interp) (editOf cursor plan) ∧
      StraightLine interp veq (plan.apply cursor).contents := by
  rcases commuteCNotZ_moves straight visited planned with
    ⟨pairing, rest, control, target, moves, behind⟩
  refine ⟨exactMove_of_moves moves ?_, moves.straightLine straight⟩
  rw [moves.denote_iff straight,
    overPhase_commute_iff moves straight behind, MovedTargetUndisturbed,
    behind.foundTargets, List.forall_mem_singleton, denote_append,
    denote_cons, denote_nil, one_mul, operator_op]

/-! ## Runs -/

theorem commuteCxZ_movesExactly :
    MovesExactly interp veq .CommuteCxZ
      (MovedTargetUndisturbed interp : Pairing A → Prop) :=
  ⟨_, rfl, fun _ _ _ => commuteCNotZ_decides,
    fun _ _ _ => commuteCNotZ_exactMove⟩

/--
A run over a straight-line kernel completes, and it preserves the unitary,
in every step and in the result, exactly when no step moves a controlled
gate over operations that disturb its target.
-/
theorem run_preserves_denote_iff_target_undisturbed (stale : StaleRead)
    {block : Block A} (straight : StraightLine interp veq block) :
    ((∀ edit ∈ (RewritingPass.CommuteCxZ.run stale
            (kernelOf block)).trace,
          denote interp edit.target = denote interp edit.source) ∧
        ∃ result,
          (RewritingPass.CommuteCxZ.run stale (kernelOf block)).outcome =
              .ok (kernelOf result) ∧
            denote interp result = denote interp block) ↔
      ∀ edit ∈ (RewritingPass.CommuteCxZ.run stale
          (kernelOf block)).trace,
        ∀ pairing ∈ edit.pairings,
          MovedTargetUndisturbed interp pairing :=
  commuteCxZ_movesExactly.run_preserves_iff stale straight

/-! ### A Hadamard gate on the target -/

def hadamardOnTarget : Gate ℤ := Gate.create .h false [] [] [wire 1]

def phaseOnControl : Gate ℤ := Gate.create .z false [] [] [wire 0]

/-- A controlled `X`, a Hadamard gate on its target, `Z` on its control. -/
def phaseBehind : Block ℤ :=
  [controlledX.op, hadamardOnTarget.op, phaseOnControl.op]

theorem hadamardOnTarget_onRegister :
    OnRegister pairInterpretation (.veqAlloca 0 2) hadamardOnTarget :=
  .create [1] rfl rfl (fun place _ => pairInterpretation_wire place)
    (by decide)

theorem phaseOnControl_onRegister :
    OnRegister pairInterpretation (.veqAlloca 0 2) phaseOnControl :=
  .create [0] rfl rfl (fun place _ => pairInterpretation_wire place)
    (by decide)

theorem phaseBehind_straightLine :
    StraightLine pairInterpretation (.veqAlloca 0 2) phaseBehind := by
  simp only [phaseBehind, straightLine_cons]
  exact ⟨.gate _ controlledX_onRegister,
    .gate _ hadamardOnTarget_onRegister,
    .gate _ phaseOnControl_onRegister, by simp [StraightLine]⟩

theorem pauliX_hadamard_not_commute :
    pauliX * hadamard ≠ hadamard * pauliX := by
  rw [pauliX, hadamard, entries_mul, entries_mul, Ne, entries_inj]
  simp [halfRoot, neg_eq_iff_add_eq_zero, ← two_mul]

/-- The criterion at the kernel with the Hadamard gate on the target. -/
theorem phaseBehind_preserves_iff :
    ((∀ edit ∈ (RewritingPass.CommuteCxZ.run .stops
            (kernelOf phaseBehind)).trace,
          denote pairInterpretation edit.target =
            denote pairInterpretation edit.source) ∧
        ∃ result,
          (RewritingPass.CommuteCxZ.run .stops
              (kernelOf phaseBehind)).outcome = .ok (kernelOf result) ∧
            denote pairInterpretation result =
              denote pairInterpretation phaseBehind) ↔
      ∀ edit ∈ (RewritingPass.CommuteCxZ.run .stops
          (kernelOf phaseBehind)).trace,
        ∀ pairing ∈ edit.pairings,
          MovedTargetUndisturbed pairInterpretation pairing :=
  run_preserves_denote_iff_target_undisturbed .stops
    phaseBehind_straightLine

/-- The Hadamard gate disturbs the target. -/
theorem hadamardOnTarget_disturbs :
    ¬ Commute (on (pairInterpretation.qubit (wire 1)) pauliX)
      (denote pairInterpretation [hadamardOnTarget.op]) := by
  have between :
      denote pairInterpretation [hadamardOnTarget.op] =
        on (pairInterpretation.qubit (wire 1)) hadamard := by
    rw [denote_cons, denote_nil, one_mul, operator_op,
      gateOperator_of_involutive involutiveH rfl
        hadamardOnTarget_onRegister rfl,
      controlValues_eq hadamardOnTarget_onRegister]
    simp [hadamardOnTarget, Gate.create, involutiveH]
  intro commutes
  have equal := commutes.eq
  rw [between, ← map_mul, ← map_mul] at equal
  exact pauliX_hadamard_not_commute (on_injective _ equal)

/-- The run moves the controlled gate and changes the unitary. -/
theorem phaseBehind_not_preserved :
    ∃ result,
      (RewritingPass.CommuteCxZ.run .stops
          (kernelOf phaseBehind)).outcome = .ok (kernelOf result) ∧
        denote pairInterpretation result ≠
          denote pairInterpretation phaseBehind := by
  refine ⟨[hadamardOnTarget.op, phaseOnControl.op, controlledX.op], rfl,
    ?_⟩
  have exactly :=
    commuteCxZ_movesExactly.run_exact .stops phaseBehind_straightLine
      _ List.mem_cons_self
  intro preserved
  have undisturbed :=
    exactly.2.mp preserved _ List.mem_cons_self _ List.mem_cons_self
  rw [denote_append, denote_cons, denote_nil, one_mul, operator_op]
    at undisturbed
  have visited :=
    gateOperator_isUnit pairInterpretation
      phaseOnControl_onRegister.distinctWires
  have apart :
      Commute (on (pairInterpretation.qubit (wire 1)) pauliX)
        (gateOperator pairInterpretation phaseOnControl) := by
    rw [gateOperator_of_uncontrolled involutiveZ rfl
      phaseOnControl_onRegister rfl rfl]
    exact on_commute (by decide) _ _
  exact hadamardOnTarget_disturbs
    ((commute_mul_iff_right visited apart).mp undisturbed)

end MQSSPasses.Passes.ControlCommutation

end
