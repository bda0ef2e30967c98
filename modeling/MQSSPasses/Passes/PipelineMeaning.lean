import MQSSPasses.Passes.ControlCommutation
import MQSSPasses.Passes.Fusion
import MQSSPasses.Passes.LeftoverPairs
import MQSSPasses.Passes.Pipelines

/-!
# The unitary of a kernel after a pipeline

Every pass maps straight-line kernels to straight-line kernels, so what is
known of single passes applies at each place of a pipeline.  In a register
that an `int` can index, some passes preserve the unitary only if they pair
no two gates across operations that disturb the pair.  If none of the edits
of a pipeline does, the kernel it returns has the unitary it started from, up
to a phase.

The passes that move an uncontrolled gate behind a controlled one, the
fusions of a phase gate with `Z`, the move of Pauli gates behind Hadamard
gates and the decompositions need no other condition.  They also never
break, so pipelines of these passes always return an equivalent kernel.
-/

noncomputable section

namespace MQSSPasses.Passes.PipelineMeaning

open MQSSPasses.General.IntConversion
open MQSSPasses.General.TracedComputation
open MQSSPasses.General.OperationTree
open MQSSPasses.General.QubitOperators
open MQSSPasses.Quake.Syntax
open MQSSPasses.Quake.Operations
open MQSSPasses.Quake.Semantics
open MQSSPasses.Quake.WireGates
open MQSSPasses.Passes.Rewriting
open MQSSPasses.Passes.Matchers
open MQSSPasses.Passes.Visits
open MQSSPasses.Passes.WirePasses
open MQSSPasses.Passes.Cancellation
open MQSSPasses.Passes.Commutation
open MQSSPasses.Passes.ControlCommutation
open MQSSPasses.Passes.Decompositions
open MQSSPasses.Passes.Switching
open MQSSPasses.Passes.Fusion
open MQSSPasses.Passes.LeftoverPairs
open MQSSPasses.Passes.Pipelines

variable {A : Type} {n : ℕ}
variable {interp : Interpretation A (Fin n)} {veq : QuantumValue}

/-! ## Straight-line kernels stay straight-line -/

/-- A gate built from operands of a gate on the register is on it. -/
theorem onRegister_of_builtFrom {gate source : Gate A}
    (built : BuiltFrom gate source)
    (onRegister : OnRegister interp veq source) :
    OnRegister interp veq gate where
  operands := fun value named =>
    onRegister.operands value (built.qubits.subset named)
  distinct := by
    rcases built.qubits with ⟨arranged, permuted, sublist⟩
    exact (permuted.nodup_iff).mp (onRegister.distinct.sublist sublist)
  unnegated := built.unnegated
  parameters := built.arity onRegister.parameters

/-- A plan that edits gates keeps a straight-line block straight-line. -/
theorem straightLine_of_editsGates {gain : ℤ} {cursor : Cursor (Op A)}
    {currentOp : Op A} {plan : Plan A}
    (edits : EditsGates gain cursor.before currentOp plan)
    (straight : StraightLine interp veq cursor.contents)
    (visited : cursor.current = some currentOp) :
    StraightLine interp veq (plan.apply cursor).contents := by
  have source :
      cursor.contents =
        (cursor.before ++ [currentOp]) ++
          (cursor.inserted ++ cursor.rest) := by
    rw [contents_of_visited visited, List.append_assoc]
    rfl
  rw [source, straightLine_append] at straight
  rw [plan.apply_contents, List.append_assoc _ plan.inserted]
  refine straightLine_append.mpr
    ⟨?_, straightLine_append.mpr ⟨?_, straight.2⟩⟩
  · rcases edits.removes with ⟨count, removes, -⟩
    exact fun operation member =>
      straight.1 operation (removes.subset member)
  · intro operation member
    rcases edits.inserts operation member with
      ⟨gate, source, original, rfl, present, isGate, built⟩
    exact .gate gate
      (onRegister_of_builtFrom built
        ((straight.1 original present).onRegister isGate))

/-- What a pass returns for a straight-line kernel is straight-line. -/
theorem returned_straightLine (pass : KernelPass) {stale : StaleRead}
    {block : Block A} (straight : StraightLine interp veq block) :
    ∀ kernel, (pass.run stale (kernelOf block)).outcome = .ok kernel →
      ∃ result, kernel = kernelOf result ∧
        StraightLine interp veq result := by
  have each :
      ∀ edit ∈ (operationsOnQuantumKernel stale pass.matchers
          (kernelOf block)).trace,
        StraightLine interp veq edit.target := by
    refine operationsOnQuantumKernel_satisfies (StraightLine interp veq) ?_
      (fun operation member => (straight operation member).flat) straight
    intro matcher member cursor currentOp plan contents visited planned
    have kept :=
      straightLine_of_editsGates
        (pass.balanced matcher member _ _ _ planned) contents visited
    exact ⟨kept, kept⟩
  intro kernel returned
  rcases operationsOnQuantumKernel_leads
    (fun operation member => (straight operation member).flat) returned with
    ⟨result, rfl, path⟩
  refine ⟨result, rfl, ?_⟩
  exact path.relates
    (fun after before =>
      StraightLine interp veq before → StraightLine interp veq after)
    (fun _ holds => holds) (fun later early holds => later (early holds))
    (fun edit recorded _ => each edit recorded) straight

/-! ## What one pass does to the unitary -/

/--
The condition under which an edit of a pass is sound: the pass does not pair
gates across operations that disturb the pair.
-/
def Undisturbing (interp : Interpretation A (Fin n)) :
    KernelPass → Edit A → Prop
  | .rewriting .ReductionPattern, edit
  | .rewriting .CancellationDoubleCx, edit =>
      ∀ pairing ∈ edit.pairings, ControlsUndisturbed interp pairing
  | .rewriting .CommuteCxX, edit | .rewriting .CommuteCxRx, edit =>
      ∀ pairing ∈ edit.pairings, MovedControlUndisturbed interp pairing
  | .rewriting .CommuteCxZ, edit =>
      ∀ pairing ∈ edit.pairings, MovedTargetUndisturbed interp pairing
  | _, _ => True

/-- A run of a pass, if it returns, changes the unitary by a phase only. -/
def Preserves (interp : Interpretation A (Fin n)) (pass : KernelPass)
    (stale : StaleRead) (block : Block A) : Prop :=
  ∀ result,
    (pass.run stale (kernelOf block)).outcome = .ok (kernelOf result) →
      EqualUpToPhase (denote interp result) (denote interp block)

/-- Edits that preserve the unitary make a run that does. -/
theorem preserves_of_edits {pass : KernelPass} {stale : StaleRead}
    {block : Block A} (straight : StraightLine interp veq block)
    (each :
      ∀ edit ∈ (pass.run stale (kernelOf block)).trace,
        denote interp edit.target = denote interp edit.source) :
    Preserves interp pass stale block := by
  intro result returned
  rcases operationsOnQuantumKernel_preserves (denote interp)
    (fun operation member => (straight operation member).flat) each _
    returned with ⟨_, same, preserved⟩
  cases same
  rw [preserved]
  exact .refl _

/-- A pass that follows a rule with scalars of absolute value one. -/
theorem preserves_of_follows (indexed : n ≤ intRange) {kind : GateKind}
    {rule : WireRule A}
    {matcher : Matcher A} (pass : KernelPass) {stale : StaleRead}
    {admissible : ℂ → Prop}
    (follows : Follows interp veq kind rule matcher)
    (only : pass.matchers = [matcher])
    (scales : Scales kind rule admissible) (has : HasMatrix kind)
    (unimodular : ∀ scalar, admissible scalar → ‖scalar‖ = 1)
    {block : Block A} (onVeq : VeqBlock interp veq block) :
    Preserves interp pass stale block := by
  intro result returned
  rw [KernelPass.run, only] at returned
  have phases : Scales kind rule fun scalar => ‖scalar‖ = 1 := by
    intro view gate exchange isPlain decided
    rcases scales view gate exchange isPlain decided with
      ⟨taken, placed, scalar, admitted, equal⟩
    exact ⟨taken, placed, scalar, unimodular scalar admitted, equal⟩
  exact follows.denote_eq phases has (by simp)
    (fun first second => by simp [first, second]) onVeq
    (fun edit recorded =>
      (follows.edits stale onVeq edit recorded).together_of_indexed indexed)
    returned

/-- A straight-line block is a kernel for the decompositions. -/
theorem gateKernel_of_straightLine {block : Block A}
    (straight : StraightLine interp veq block) :
    GateKernel interp block where
  flat := fun operation member => (straight operation member).flat
  distinct := fun operation member _ isGate =>
    ((straight operation member).onRegister isGate).distinctWires
  unnegated := by
    intro operation member gate isGate
    have unnegated :=
      ((straight operation member).onRegister isGate).unnegated
    rw [Gate.Unnegated, Gate.polarity, unnegated]
  parameters := fun operation member _ isGate =>
    ((straight operation member).onRegister isGate).parameters

/-- What a decomposition returns. -/
theorem decomposition_outcome (decomposition : DecompositionPass)
    (stale : StaleRead) {block : Block A}
    (flat : ∀ operation ∈ block, operation.blocks = []) :
    ((KernelPass.decomposing decomposition).run stale
        (kernelOf block)).outcome =
      .ok (kernelOf (block.flatMap decomposition.replace)) := by
  rw [KernelPass.run, KernelPass.matchers, DecompositionPass.matcher_eq]
  exact decompose_run stale _ _ flat

/-- Moving a gate preserves the unitary if what is paired allows it. -/
theorem preserves_of_moves {rewriting : RewritingPass}
    {criterion : Pairing A → Prop}
    (moves : MovesExactly interp veq rewriting criterion)
    {stale : StaleRead} {block : Block A}
    (straight : StraightLine interp veq block)
    (allowed :
      ∀ edit ∈ (rewriting.run stale (kernelOf block)).trace,
        ∀ pairing ∈ edit.pairings, criterion pairing) :
    Preserves interp (.rewriting rewriting) stale block :=
  preserves_of_edits straight fun edit recorded =>
    (moves.run_exact stale straight edit recorded).2.mpr
      (allowed edit recorded)

/--
A run over a straight-line kernel preserves the unitary if none of its edits
disturbs a pair.
-/
theorem preserves_of_undisturbing (indexed : n ≤ intRange)
    (pass : KernelPass) {stale : StaleRead}
    {block : Block A} (straight : StraightLine interp veq block)
    (undisturbing :
      ∀ edit ∈ (pass.run stale (kernelOf block)).trace,
        Undisturbing interp pass edit) :
    Preserves interp pass stale block := by
  cases pass with
  | decomposing decomposition =>
      intro result returned
      rw [decomposition_outcome decomposition stale
        fun operation member => (straight operation member).flat] at returned
      cases returned
      rw [denote_flatMap interp
        (decomposition.denote_replace (gateKernel_of_straightLine straight))]
      exact .refl _
  | rewriting pass =>
      have moved {rewriting : RewritingPass}
          (moves : MovesUncontrolled rewriting) :
          Preserves interp (.rewriting rewriting) stale block := by
        refine preserves_of_moves moves.movesExactly straight ?_
        rw [run_trace_forall_iff]
        intro cursor visit currentOp plan visited planned
        exact movedCommutes_of_indexed indexed moves
          (moves.movesExactly.visits_straightLine stale straight cursor
            visit)
          visited (decision_planned planned)
      have switched (switch : SwitchPass) :
          Preserves interp (.rewriting switch.rewriting) stale block :=
        preserves_of_follows indexed (.rewriting switch.rewriting)
          (patternSwitch_follows switch) switch.matchers_eq
          (switchRule_scales switch) switch.hasMatrix.2.1
          (fun _ unit => unit) straight.veqBlock
      have replaced (conjugation : ConjugationPass) :
          Preserves interp (.rewriting conjugation.rewriting) stale
            block :=
        preserves_of_follows indexed (.rewriting conjugation.rewriting)
          (replaceConjugated_follows conjugation) conjugation.matchers_eq
          (conjugatedRule_scales conjugation)
          (hasMatrix_of_involutive involutiveH) (by simp)
          straight.veqBlock
      have fused (adjoint : Bool) :
          Preserves interp (.rewriting (phasePass adjoint)) stale
            block :=
        preserves_of_follows indexed (.rewriting (phasePass adjoint))
          (fusePhase_follows adjoint) (phasePass_matchers adjoint)
          (phaseRule_scales adjoint)
          (hasMatrix_of_involutive involutiveZ) (by simp)
          straight.veqBlock
      cases pass with
      | ReductionPattern =>
          exact preserves_of_edits straight fun edit recorded =>
            (run_exact indexed (.inr rfl) stale straight edit
              recorded).mpr (undisturbing edit recorded)
      | CancellationDoubleCx =>
          exact preserves_of_edits straight fun edit recorded =>
            (run_exact indexed (.inl rfl) stale straight edit
              recorded).mpr (undisturbing edit recorded)
      | CommuteCxRx =>
          exact preserves_of_moves
            MovesControlled.commuteCxRx.movesExactly straight undisturbing
      | CommuteCxX =>
          exact preserves_of_moves
            MovesControlled.commuteCxX.movesExactly straight undisturbing
      | CommuteCxZ =>
          exact preserves_of_moves commuteCxZ_movesExactly straight
            undisturbing
      | CommuteRxCx => exact moved .commuteRxCx
      | CommuteXCx => exact moved .commuteXCx
      | CommuteZCx => exact moved .commuteZCx
      | SwitchHX => exact switched .HX
      | SwitchHY => exact switched .HY
      | SwitchHZ => exact switched .HZ
      | SwitchXH => exact switched .XH
      | SwitchYH => exact switched .YH
      | SwitchZH => exact switched .ZH
      | SwitchPauliH =>
          exact preserves_of_follows indexed _
            SwitchPauliHOperation_follows rfl pauliRule_scales
            (hasMatrix_of_involutive involutiveH) (fun _ unit => unit)
            straight.veqBlock
      | HXHToZ => exact replaced .HXHToZ
      | HZHToX => exact replaced .HZHToX
      | SZToSAdj => exact fused false
      | SAdjZToS => exact fused true

/-! ## Pipelines -/

/-- A straight-line kernel that has an operator up to a phase. -/
def Realises (interp : Interpretation A (Fin n)) (veq : QuantumValue)
    (operator : Operator (Fin n)) (kernel : Op A) : Prop :=
  ∃ block, kernel = kernelOf block ∧ StraightLine interp veq block ∧
    EqualUpToPhase (denote interp block) operator

/-- A pipeline none of whose edits disturbs a pair keeps the operator. -/
theorem runPipeline_realises (indexed : n ≤ intRange) {stale : StaleRead}
    {passes : List KernelPass} {operator : Operator (Fin n)}
    {kernel result : Op A} (initially : Realises interp veq operator kernel)
    (undisturbing :
      ∀ event ∈ (runPipeline stale passes kernel).trace,
        Undisturbing interp event.1 event.2)
    (returned : (runPipeline stale passes kernel).outcome = .ok result) :
    Realises interp veq operator result := by
  refine @runPipeline_keeps A stale passes (Realises interp veq operator)
    (fun event => Undisturbing interp event.1 event.2)
    ?_ kernel result initially undisturbing returned
  rintro pass - _ ⟨before, rfl, beforeStraight, reached⟩ good after
    passReturned
  rcases returned_straightLine pass beforeStraight after passReturned with
    ⟨block, rfl, blockStraight⟩
  exact ⟨block, rfl, blockStraight,
    (preserves_of_undisturbing indexed pass beforeStraight good block
      passReturned).trans reached⟩

/--
If no edit of a pipeline disturbs a pair, and an `int` can index the
register, the kernel it returns is straight-line and has the unitary of the
input up to a phase.
-/
theorem runPipeline_preserves (indexed : n ≤ intRange) {stale : StaleRead}
    {passes : List KernelPass} {block : Block A} {kernel : Op A}
    (straight : StraightLine interp veq block)
    (undisturbing :
      ∀ event ∈ (runPipeline stale passes (kernelOf block)).trace,
        Undisturbing interp event.1 event.2)
    (returned :
      (runPipeline stale passes (kernelOf block)).outcome = .ok kernel) :
    ∃ result, kernel = kernelOf result ∧
      StraightLine interp veq result ∧
      EqualUpToPhase (denote interp result) (denote interp block) :=
  runPipeline_realises indexed ⟨block, rfl, straight, .refl _⟩
    undisturbing returned

/-! ### An `X` gate between two controlled ones -/

/-- An `X` gate on the target between two equal controlled ones. -/
def flipBetween : Block ℤ :=
  [controlledX.op, flipOnTarget.op, controlledX.op]

theorem flipBetween_straightLine :
    StraightLine pairInterpretation (.veqAlloca 0 2) flipBetween := by
  simp only [flipBetween, straightLine_cons]
  exact ⟨.gate _ controlledX_onRegister, .gate _ flipOnTarget_onRegister,
    .gate _ controlledX_onRegister, by simp [StraightLine]⟩

/-- Move the `X` gate away and cancel the two others. -/
def commuteThenCancel : List KernelPass :=
  [.rewriting .CommuteXCx, .rewriting .CancellationDoubleCx]

theorem flipBetween_preserved :
    ∃ result, kernelOf [flipOnTarget.op] = kernelOf result ∧
      StraightLine pairInterpretation (.veqAlloca 0 2) result ∧
      EqualUpToPhase (denote pairInterpretation result)
        (denote pairInterpretation flipBetween) := by
  refine @runPipeline_preserves ℤ 2 pairInterpretation (.veqAlloca 0 2)
    (by decide) .stops commuteThenCancel flipBetween
    (kernelOf [flipOnTarget.op]) flipBetween_straightLine ?_ rfl
  refine List.forall_mem_cons.mpr ⟨trivial, ?_⟩
  refine List.forall_mem_cons.mpr ⟨?_, fun _ member => by cases member⟩
  refine List.forall_mem_cons.mpr ⟨?_, fun _ member => by cases member⟩
  exact Commute.one_right _

/-! ### Pipelines that always return -/

/-- The passes that complete on every straight-line kernel. -/
inductive NeverBreaks : KernelPass → Prop where
  | moving {pass : RewritingPass} (moves : MovesUncontrolled pass) :
      NeverBreaks (.rewriting pass)
  | movingControlled {pass : RewritingPass} (moves : MovesControlled pass) :
      NeverBreaks (.rewriting pass)
  | commuteCxZ : NeverBreaks (.rewriting .CommuteCxZ)
  | cancellationDoubleCx : NeverBreaks (.rewriting .CancellationDoubleCx)
  | switchPauliH : NeverBreaks (.rewriting .SwitchPauliH)
  | fusing (adjoint : Bool) : NeverBreaks (.rewriting (phasePass adjoint))
  | decomposing (pass : DecompositionPass) :
      NeverBreaks (.decomposing pass)

/-- The passes among them that preserve every unitary. -/
inductive Unconditional : KernelPass → Prop where
  | moving {pass : RewritingPass} (moves : MovesUncontrolled pass) :
      Unconditional (.rewriting pass)
  | switchPauliH : Unconditional (.rewriting .SwitchPauliH)
  | fusing (adjoint : Bool) : Unconditional (.rewriting (phasePass adjoint))
  | decomposing (pass : DecompositionPass) :
      Unconditional (.decomposing pass)

/-- Such a pass has no edit that needs a condition. -/
theorem Unconditional.undisturbing {pass : KernelPass}
    (unconditional : Unconditional pass) (edit : Edit A) :
    Undisturbing interp pass edit := by
  cases unconditional with
  | moving moves => cases moves <;> trivial
  | switchPauliH => trivial
  | fusing adjoint => cases adjoint <;> trivial
  | decomposing pass => trivial

/-- A run of such a pass returns. -/
theorem NeverBreaks.returns {pass : KernelPass}
    (complete : NeverBreaks pass) (stale : StaleRead) {block : Block A}
    (straight : StraightLine interp veq block) :
    ∃ result,
      (pass.run stale (kernelOf block)).outcome =
        .ok (kernelOf result) := by
  have flat := fun operation member => (straight operation member).flat
  have onVeq := straight.veqBlock
  cases complete with
  | moving moves =>
      rcases moves.movesExactly.run_completes stale straight with
        ⟨result, returned, -⟩
      exact ⟨result, returned⟩
  | movingControlled moves =>
      rcases moves.movesExactly.run_completes stale straight with
        ⟨result, returned, -⟩
      exact ⟨result, returned⟩
  | commuteCxZ =>
      rcases commuteCxZ_movesExactly.run_completes stale straight with
        ⟨result, returned, -⟩
      exact ⟨result, returned⟩
  | cancellationDoubleCx =>
      have empty : VeqBlock interp veq ([] : Block A) := by
        simp [VeqBlock]
      rcases foldlM_past onVeq empty with ⟨result, folded, -, -⟩
      have returned := run_outcome stale onVeq
      rw [folded] at returned
      exact ⟨result, returned⟩
  | switchPauliH =>
      exact SwitchPauliHOperation_follows.returns_of_total
        pauliRule_decides stale onVeq
  | fusing adjoint =>
      rw [KernelPass.run, KernelPass.matchers, phasePass_matchers]
      exact (fusePhase_follows adjoint).returns_of_total
        (phaseRule_decides adjoint) stale onVeq
  | decomposing pass =>
      exact ⟨_, decomposition_outcome pass stale flat⟩

/-- A pipeline of passes that never break returns on a straight line. -/
theorem runPipeline_neverBreaks (stale : StaleRead)
    {passes : List KernelPass}
    (complete : ∀ pass ∈ passes, NeverBreaks pass) {block : Block A}
    (straight : StraightLine interp veq block) :
    ∃ result,
      (runPipeline stale passes (kernelOf block)).outcome =
          .ok (kernelOf result) ∧
        StraightLine interp veq result := by
  rcases @runPipeline_completes A stale passes
    (fun reached => ∃ result, reached = kernelOf result ∧
      StraightLine interp veq result)
    (by
      rintro pass member _ ⟨before, rfl, beforeStraight⟩
      rcases (complete pass member).returns stale beforeStraight with
        ⟨result, returned⟩
      exact ⟨_, returned, returned_straightLine pass beforeStraight _
        returned⟩)
    (kernelOf block) ⟨block, rfl, straight⟩ with
    ⟨_, returned, result, rfl, holds⟩
  exact ⟨result, returned, holds⟩

/--
A pipeline of passes that never break returns a straight-line kernel.  If an
`int` can index the register and none of the passes needs another condition,
the kernel has the unitary of the input up to a phase.
-/
theorem runPipeline_returns {stale : StaleRead} {passes : List KernelPass}
    (complete : ∀ pass ∈ passes, NeverBreaks pass) {block : Block A}
    (straight : StraightLine interp veq block) :
    ∃ result,
      (runPipeline stale passes (kernelOf block)).outcome =
          .ok (kernelOf result) ∧
        StraightLine interp veq result ∧
        (n ≤ intRange → (∀ pass ∈ passes, Unconditional pass) →
          EqualUpToPhase (denote interp result) (denote interp block)) := by
  rcases runPipeline_neverBreaks _ complete straight with
    ⟨result, returned, resultStraight⟩
  refine ⟨result, returned, resultStraight, ?_⟩
  intro indexed unconditional
  have undisturbing :
      ∀ event ∈ (runPipeline stale passes (kernelOf block)).trace,
        Undisturbing interp event.1 event.2 :=
    fun event recorded =>
      (unconditional event.1 (pass_of_recorded recorded)).undisturbing event.2
  rcases runPipeline_realises indexed ⟨block, rfl, straight, .refl _⟩
    undisturbing returned with ⟨_, same, -, preserved⟩
  cases same
  exact preserved

theorem flipBetween_returned :
    ∃ result,
      (runPipeline .stops
          [.rewriting .CommuteXCx, .decomposing .CxToHCzH,
            .rewriting .SwitchPauliH] (kernelOf flipBetween)).outcome =
          .ok (kernelOf result) ∧
        StraightLine pairInterpretation (.veqAlloca 0 2) result ∧
        (2 ≤ intRange → (∀ pass ∈
            ([.rewriting .CommuteXCx, .decomposing .CxToHCzH,
              .rewriting .SwitchPauliH] : List KernelPass),
            Unconditional pass) →
          EqualUpToPhase (denote pairInterpretation result)
            (denote pairInterpretation flipBetween)) := by
  refine runPipeline_returns ?_ flipBetween_straightLine
  simp only [List.forall_mem_cons, List.not_mem_nil, false_imp_iff,
    implies_true, and_true]
  exact ⟨.moving .commuteXCx, .decomposing .CxToHCzH, .switchPauliH⟩

end MQSSPasses.Passes.PipelineMeaning

end
