import MQSSPasses.Passes.Decompositions
import MQSSPasses.Passes.LookBack
import MQSSPasses.Passes.NormalizeArgAngle

/-!
# Negated controls in the rewriting passes

A gate may carry an attribute that negates some of its controls.  The
builders the passes use create gates without the attribute, and the
cancellation compares kinds, counts and indices but never the attribute.
So a pass respects the polarity of the controls exactly in the runs in which
no gate it rebuilds has a negated control, and where it cancels, the visited
gate and the nearest one before it have the same ones.

An `Edit` does not tell which gate was made from which.  The file therefore
lets the walk record the plans themselves; forgetting everything but the
edits gives the runs of the passes back.
-/

namespace MQSSPasses.Passes.Polarity

open MQSSPasses.General.TracedComputation
open MQSSPasses.General.OperationTree
open MQSSPasses.Quake.Syntax
open MQSSPasses.Quake.Operations
open MQSSPasses.Passes.Rewriting
open MQSSPasses.Passes.Matchers
open MQSSPasses.Passes.Cancellation
open MQSSPasses.Passes.Decompositions
open MQSSPasses.Passes.LookBack
open MQSSPasses.Passes.NormalizeArgAngle
open MQSSPasses.Passes.Visits

variable {A : Type}

/-! ## Runs that record their plans -/

/-- A rewrite with the decision that led to it. -/
structure Commit (A : Type) where
  cursor : Cursor (Op A)
  currentOp : Op A
  plan : Plan A

/-- The edit a rewrite is recorded as. -/
def Commit.edit (commit : Commit A) : Edit A :=
  ⟨commit.plan.pairings, commit.cursor.contents,
    (commit.plan.apply commit.cursor).contents⟩

/-- Carry out what a matcher decides, and record the decision. -/
def commit (stale : StaleRead) (matcher : Matcher A) :
    Callback (OpData A) Fault (Commit A) := fun cursor =>
  match cursor.current with
  | none =>
      match stale with
      | .stops => Traced.raise .erasedOperation
      | .findsNothing => return cursor
  | some currentOp => do
      match ← Traced.ofExcept (matcher cursor.before currentOp) with
      | none => return cursor
      | some plan =>
          Traced.record ⟨cursor, currentOp, plan⟩
          return plan.apply cursor

/-- The plans carried out in a run of a matcher over a kernel. -/
def commits (stale : StaleRead) (matcher : Matcher A) (kernel : Op A) :
    Traced Fault (Commit A) (Op A) :=
  walkNode (commit stale matcher) kernel

theorem commit_mapTrace (stale : StaleRead) (matcher : Matcher A)
    (cursor : Cursor (Op A)) :
    rewriteInOrder stale [matcher] cursor =
      (commit stale matcher cursor).mapTrace Commit.edit := by
  have only :
      rewriteInOrder stale [matcher] cursor =
        rewrite stale matcher cursor >>= pure := rfl
  rw [only]
  unfold rewrite commit
  cases visited : cursor.current with
  | none =>
      cases stale with
      | stops => rfl
      | findsNothing => rfl
  | some currentOp =>
      dsimp only
      cases matcher cursor.before currentOp with
      | error fault => rfl
      | ok decision =>
          cases decision with
          | none => rfl
          | some plan => rfl

/-- Runs that record plans are the runs of the passes. -/
theorem commits_mapTrace (stale : StaleRead) (matcher : Matcher A)
    (kernel : Op A) :
    operationsOnQuantumKernel stale [matcher] kernel =
      (commits stale matcher kernel).mapTrace Commit.edit :=
  walkNode_mapTrace (commit_mapTrace stale matcher) kernel

/-- Every recorded plan was made by the matcher. -/
theorem commits_planned (stale : StaleRead) (matcher : Matcher A)
    (kernel : Op A) :
    ∀ made ∈ (commits stale matcher kernel).trace,
      matcher made.cursor.before made.currentOp = .ok (some made.plan) := by
  have each (cursor : Cursor (Op A)) :
      (commit stale matcher cursor).Satisfies
        (fun made =>
          matcher made.cursor.before made.currentOp =
            .ok (some made.plan))
        (fun _ => True) := by
    unfold commit
    cases cursor.current with
    | none => cases stale <;> simp [Traced.Satisfies]
    | some currentOp =>
        dsimp only
        cases planned : matcher cursor.before currentOp with
        | error fault =>
            rw [Traced.bind_of_error (Traced.ofExcept_outcome _)]
            simp [Traced.Satisfies]
        | ok decision =>
            rw [Traced.bind_of_ok (Traced.ofExcept_outcome _)]
            cases decision with
            | none => simp [Traced.Satisfies]
            | some plan => simp [Traced.Satisfies, planned]
  exact (walkNode_satisfies each kernel).1

/-! ## The gates a pass rebuilds -/

/-- The passes that create controlled gates in the place of others. -/
inductive RebuildingPass where
  | CommuteCxRx
  | CommuteCxX
  | CommuteCxZ
  | CommuteRxCx
  | CommuteXCx
  | ReverseCx
  | CxToHCzH
  | CzToHCxH
  deriving DecidableEq, Repr

/-- The matcher a pass calls at each operation. -/
def RebuildingPass.matcher : RebuildingPass → Matcher A
  | .CommuteCxRx => commuteOperation .x .rx 1 1 0 1
  | .CommuteCxX => commuteOperation .x .x 1 1 0 1
  | .CommuteCxZ => commuteCNotZ
  | .CommuteRxCx => commuteOperation .rx .x 0 1 1 1
  | .CommuteXCx => commuteOperation .x .x 0 1 1 1
  | .ReverseCx => ReverseCNot
  | .CxToHCzH => CxToHCzHPattern
  | .CzToHCxH => ReplaceCzToHCxH

/-- The plans carried out in a run of a pass over a kernel. -/
def RebuildingPass.commits (rebuilding : RebuildingPass)
    (stale : StaleRead) (kernel : Op A) :
    Traced Fault (Commit A) (Op A) :=
  Polarity.commits stale rebuilding.matcher kernel

/-- Run a pass over a kernel. -/
def RebuildingPass.run (rebuilding : RebuildingPass) (stale : StaleRead)
    (kernel : Op A) : Traced Fault (Edit A) (Op A) :=
  match rebuilding with
  | .CommuteCxRx => RewritingPass.CommuteCxRx.run stale kernel
  | .CommuteCxX => RewritingPass.CommuteCxX.run stale kernel
  | .CommuteCxZ => RewritingPass.CommuteCxZ.run stale kernel
  | .CommuteRxCx => RewritingPass.CommuteRxCx.run stale kernel
  | .CommuteXCx => RewritingPass.CommuteXCx.run stale kernel
  | .ReverseCx => DecompositionPass.ReverseCx.run stale kernel
  | .CxToHCzH => DecompositionPass.CxToHCzH.run stale kernel
  | .CzToHCxH => DecompositionPass.CzToHCxH.run stale kernel

theorem RebuildingPass.run_eq (rebuilding : RebuildingPass)
    (stale : StaleRead) (kernel : Op A) :
    rebuilding.run stale kernel =
      (rebuilding.commits stale kernel).mapTrace Commit.edit := by
  rw [RebuildingPass.commits, ← commits_mapTrace]
  cases rebuilding <;> rfl

/--
The gates a rewrite erases and creates again, in the order of the new ones:
`commuteOperation` rebuilds the visited and the found gate, `commuteCNotZ`
the found one, a decomposition the visited one.
-/
def RebuildingPass.replaced (rebuilding : RebuildingPass)
    (made : Commit A) : List (Gate A) :=
  match rebuilding with
  | .CommuteCxRx | .CommuteCxX | .CommuteRxCx | .CommuteXCx =>
      made.plan.pairings.flatMap fun pairing =>
        [pairing.current, pairing.found.gate]
  | .CommuteCxZ => made.plan.pairings.map fun pairing => pairing.found.gate
  | .ReverseCx | .CxToHCzH | .CzToHCxH =>
      (asOperator made.currentOp).toList

/--
The gates created for them.  A decomposition surrounds the gate it rebuilds
with Hadamard gates, which have no controls.
-/
def RebuildingPass.created (rebuilding : RebuildingPass)
    (made : Commit A) : List (Gate A) :=
  let gates := made.plan.inserted.filterMap asOperator
  match rebuilding with
  | .CommuteCxRx | .CommuteCxX | .CommuteRxCx | .CommuteXCx
  | .CommuteCxZ => gates
  | .ReverseCx | .CxToHCzH | .CzToHCxH =>
      gates.filter fun gate => gate.controls ≠ []

/-- The created gates have the polarities of the ones they replace. -/
def RebuildingPass.RespectsPolarity (rebuilding : RebuildingPass)
    (made : Commit A) : Prop :=
  (rebuilding.created made).map Gate.polarity =
    (rebuilding.replaced made).map Gate.polarity

/-- A gate created for another, without the attribute. -/
structure Rebuilt (created replaced : Gate A) : Prop where
  unset : created.negatedQubitControls = none
  count : created.controls.length = replaced.controls.length

/-- The polarity is lost exactly if a control was negated. -/
theorem Rebuilt.polarity_iff {created replaced : Gate A}
    (rebuilt : Rebuilt created replaced) :
    created.polarity = replaced.polarity ↔ replaced.Unnegated := by
  have ordinary :
      created.polarity = replaced.controls.map fun _ => true := by
    rw [Gate.polarity, rebuilt.unset]
    dsimp only
    rw [List.map_const', List.map_const', rebuilt.count]
  rw [ordinary, Gate.Unnegated, eq_comm]

theorem rebuilt_polarities {created replaced : List (Gate A)}
    (rebuilt : List.Forall₂ Rebuilt created replaced) :
    created.map Gate.polarity = replaced.map Gate.polarity ↔
      ∀ gate ∈ replaced, gate.Unnegated := by
  induction rebuilt with
  | nil => simp
  | cons first _ induction =>
      rw [List.map_cons, List.map_cons, List.cons.injEq,
        first.polarity_iff, induction, List.forall_mem_cons]

theorem decompose_rebuilds {kind : GateKind}
    {inserted : QuantumValue → QuantumValue → Block A}
    (one :
      ∀ control target, ∃ created : Gate A,
        created.negatedQubitControls = none ∧
          created.controls.length = 1 ∧
          ((inserted control target).filterMap asOperator).filter
              (fun gate => gate.controls ≠ []) = [created])
    {before : Block A} {currentOp : Op A} {plan : Plan A}
    (planned :
      decompose kind inserted before currentOp = .ok (some plan)) :
    List.Forall₂ Rebuilt
      ((plan.inserted.filterMap asOperator).filter
        fun gate => gate.controls ≠ [])
      (asOperator currentOp).toList := by
  simp only [decompose, withGate_eq_some, except_bind_eq_ok,
    return_some_eq] at planned
  rcases planned with ⟨gate, shape, control, -, target, -, rfl⟩
  rcases gateOfShape_eq_some.mp shape with ⟨cast, controls, -⟩
  have isGate := asOperator_eq_some.mpr (asGate_eq_some.mp cast).1
  rcases one control target with ⟨created, unset, count, only⟩
  rw [only, isGate]
  exact .cons ⟨unset, count.trans controls.symm⟩ .nil

theorem commuteOperation_rebuilds {T1 T2 : GateKind}
    {nCtrlsOp1 nTgtsOp1 nCtrlsOp2 nTgtsOp2 : ℕ}
    {before : Block A} {currentOp : Op A} {plan : Plan A}
    (planned :
      commuteOperation T1 T2 nCtrlsOp1 nTgtsOp1 nCtrlsOp2 nTgtsOp2
        before currentOp = .ok (some plan)) :
    List.Forall₂ Rebuilt (plan.inserted.filterMap asOperator)
      (plan.pairings.flatMap fun pairing =>
        [pairing.current, pairing.found.gate]) := by
  simp only [commuteOperation, withGate_eq_some, withPrevious_eq_some,
    except_bind_eq_ok, ite_none_eq_some, return_some_eq] at planned
  rcases planned with
    ⟨currentGate, -, target, -, found, looked, previousGate, previous,
      _, -, _, -, _, -, -, rfl⟩
  have same :=
    found_gate_eq (getPreviousOperationOnTarget_correct looked)
      (gateOfShape_eq_some.mp previous).1
  have count := congrArg (fun gate => gate.controls.length) same
  exact .cons ⟨rfl, rfl⟩ (.cons ⟨rfl, count.symm⟩ .nil)

theorem commuteCNotZ_rebuilds
    {before : Block A} {currentOp : Op A} {plan : Plan A}
    (planned : commuteCNotZ before currentOp = .ok (some plan)) :
    List.Forall₂ Rebuilt (plan.inserted.filterMap asOperator)
      (plan.pairings.map fun pairing => pairing.found.gate) := by
  simp only [commuteCNotZ, withGate_eq_some, withPrevious_eq_some,
    except_bind_eq_ok, ite_none_eq_some, return_some_eq] at planned
  rcases planned with
    ⟨currentGate, -, target, -, found, looked, previousGate, previous,
      _, -, _, -, _, -, _, -, _, -, -, rfl⟩
  have same :=
    found_gate_eq (getPreviousOperationOnTarget_correct looked)
      (gateOfShape_eq_some.mp previous).1
  have count := congrArg (fun gate => gate.controls.length) same
  exact .cons ⟨rfl, count.symm⟩ .nil

/-- Every gate of a pass is rebuilt without the attribute. -/
theorem RebuildingPass.rebuilds (rebuilding : RebuildingPass)
    {stale : StaleRead} {kernel : Op A} {made : Commit A}
    (member : made ∈ (rebuilding.commits stale kernel).trace) :
    List.Forall₂ Rebuilt (rebuilding.created made)
      (rebuilding.replaced made) := by
  have planned := commits_planned _ _ _ made member
  cases rebuilding with
  | CommuteCxRx | CommuteCxX | CommuteRxCx | CommuteXCx =>
      exact commuteOperation_rebuilds planned
  | CommuteCxZ => exact commuteCNotZ_rebuilds planned
  | ReverseCx | CxToHCzH | CzToHCxH =>
      exact decompose_rebuilds
        (fun _ _ => ⟨_, rfl, rfl, rfl⟩) planned

/-! ## The gates a cancellation matches -/

/-- The passes that call `patternCancellation`. -/
inductive CancellationPass where
  | ReductionPattern
  | CancellationDoubleCx
  deriving DecidableEq, Repr

def CancellationPass.rewriting : CancellationPass → RewritingPass
  | .ReductionPattern => .ReductionPattern
  | .CancellationDoubleCx => .CancellationDoubleCx

/-- Run a cancellation over a kernel. -/
def CancellationPass.run (cancellation : CancellationPass)
    (stale : StaleRead) (kernel : Op A) :
    Traced Fault (Edit A) (Op A) :=
  cancellation.rewriting.run stale kernel

/-- Which controls are negated; without the attribute none is. -/
def negations (gate : Gate A) : List Bool :=
  gate.negatedQubitControls.getD (gate.controls.map fun _ => false)

theorem polarity_eq_map_negations (gate : Gate A) :
    gate.polarity = (negations gate).map not := by
  unfold Gate.polarity negations
  cases gate.negatedQubitControls with
  | none => simp
  | some negated => rfl

theorem polarity_eq_iff {first second : Gate A} :
    first.polarity = second.polarity ↔
      negations first = negations second := by
  rw [polarity_eq_map_negations, polarity_eq_map_negations]
  exact (List.map_injective_iff.mpr Bool.not_injective).eq_iff

/--
If the pass erases the visited gate, the nearest gate before it that names
its target has the same negated controls.
-/
def CancellationPass.NegationsAgree (cancellation : CancellationPass)
    (before : Block A) (currentOp : Op A) : Prop :=
  Rewrites cancellation.rewriting before currentOp →
    ∀ gate, asOperator currentOp = some gate →
      ∀ target ∈ gate.targets.head?, ∀ earlier,
        NearestGate target 1 before earlier →
          negations gate = negations earlier

/-- A cancellation pairs the visited gate with the nearest one before it. -/
theorem CancellationPass.polarity_iff {cancellation : CancellationPass}
    {before : Block A} {currentOp : Op A} {plan : Plan A}
    (planned :
      decision cancellation.rewriting before currentOp =
        .ok (some plan)) :
    (∀ pairing ∈ plan.pairings,
        pairing.current.polarity = pairing.found.gate.polarity) ↔
      cancellation.NegationsAgree before currentOp := by
  have follows (gate : Gate A) :
      followed cancellation.rewriting gate = gate.targets.head? := by
    cases cancellation <;> rfl
  have single : lookBacks cancellation.rewriting = 1 := by
    cases cancellation <;> rfl
  rcases decision_pairings planned with
    ⟨gate, target, isGate, scanned, pairs⟩
  rw [follows] at scanned
  generalize plan.pairings = pairings at pairs ⊢
  cases pairs with
  | two found earlier middle double => omega
  | one found compared depth correct =>
      have nearest (earlier : Gate A) :
          NearestGate target 1 before earlier ↔ earlier = found.gate := by
        rw [nearestGate_succ_iff correct]
        exact or_iff_left not_nearestGate_zero
      simp only [List.mem_singleton, forall_eq, polarity_eq_iff]
      constructor
      · rintro same - other isOther qubit followed earlier near
        cases isGate.symm.trans isOther
        cases scanned.symm.trans followed
        rw [(nearest earlier).mp near]
        exact same
      · intro agree
        exact agree ⟨plan, planned⟩ gate isGate target scanned found.gate
          ((nearest found.gate).mpr rfl)

/-! ## The polarity in every run -/

/-- Every replacement of a rotation is created without the attribute. -/
theorem normalizations_rebuilt [AngleArithmetic A] (kernel : Op A) :
    ∀ made ∈ (run kernel).trace, Rebuilt made.normalized made.gate := by
  have each (cursor : Cursor (Op A)) :
      (normalizeAngleOfRotations cursor).Satisfies
        (fun made => Rebuilt made.normalized made.gate)
        (fun _ => True) := by
    unfold normalizeAngleOfRotations
    cases cursor.current.bind asOperator with
    | none => simp [Traced.Satisfies]
    | some gate =>
        dsimp only
        by_cases rotation : isRotation gate.kind = true
        · rw [if_pos rotation]
          cases normalized : normalizeGate gate with
          | error fault =>
              rw [Traced.bind_of_error (Traced.ofExcept_outcome _)]
              simp [Traced.Satisfies]
          | ok newGate =>
              rw [normalizeGate, except_bind_eq_ok] at normalized
              rcases normalized with ⟨parameters, -, made⟩
              cases made
              rw [Traced.bind_of_ok (Traced.ofExcept_outcome _)]
              have rebuilt :
                  Rebuilt
                    (Gate.create gate.kind gate.isAdj parameters
                      gate.controls gate.targets) gate :=
                ⟨rfl, rfl⟩
              simp [Traced.Satisfies, rebuilt]
        · rw [if_neg rotation]
          simp [Traced.Satisfies]
  exact (walkNode_satisfies each kernel).1

/--
The passes respect the polarity of controls exactly in the runs that rebuild
no gate with a negated control and erase a visited gate only if the nearest
gate before it has the same negations.
-/
theorem respectsPolarity_iff [AngleArithmetic A] :
    (∀ (rebuilding : RebuildingPass) (stale : StaleRead) (kernel : Op A),
        (∀ made ∈ (rebuilding.commits stale kernel).trace,
            rebuilding.RespectsPolarity made) ↔
          ∀ made ∈ (rebuilding.commits stale kernel).trace,
            ∀ gate ∈ rebuilding.replaced made, gate.Unnegated) ∧
      (∀ kernel : Op A,
        (∀ made ∈ (run kernel).trace,
            made.normalized.polarity = made.gate.polarity) ↔
          ∀ made ∈ (run kernel).trace, made.gate.Unnegated) ∧
      ∀ (cancellation : CancellationPass) (stale : StaleRead)
        (kernel : Op A),
        (∀ edit ∈ (cancellation.run stale kernel).trace,
            ∀ pairing ∈ edit.pairings,
              pairing.current.polarity = pairing.found.gate.polarity) ↔
          ∀ cursor ∈ visitsOf cancellation.rewriting stale kernel,
            ∀ currentOp, cursor.current = some currentOp →
              cancellation.NegationsAgree cursor.before currentOp := by
  refine ⟨?_, ?_, ?_⟩
  · intro rebuilding stale kernel
    exact forall₂_congr fun made member =>
      rebuilt_polarities (rebuilding.rebuilds member)
  · intro kernel
    exact forall₂_congr fun made member =>
      (normalizations_rebuilt kernel made member).polarity_iff
  · intro cancellation stale kernel
    rw [CancellationPass.run, run_trace_forall_iff]
    refine forall₂_congr fun cursor _ => forall_congr' fun currentOp => ?_
    constructor
    · intro respected visited rewrites
      rcases rewrites with ⟨plan, planned⟩
      exact (CancellationPass.polarity_iff planned).mp
        (respected plan visited planned) ⟨plan, planned⟩
    · intro agree plan visited planned
      exact (CancellationPass.polarity_iff planned).mpr (agree visited)

/-! ### A controlled gate that acts when its control is not set -/

/-- A controlled `X` with a negated control. -/
def negatedX : Gate ℤ :=
  { controlledX with negatedQubitControls := some [true] }

/--
`ReverseCx` gives the gate an ordinary control, and the gate cancels with a
controlled `X` that acts when the control is set.
-/
theorem negatedX_not_respected :
    ¬ ((∀ made ∈ (RebuildingPass.ReverseCx.commits .stops
            (kernelOf [negatedX.op])).trace,
          RebuildingPass.ReverseCx.RespectsPolarity made) ∨
        ∀ edit ∈ (CancellationPass.CancellationDoubleCx.run .stops
            (kernelOf [negatedX.op, controlledX.op])).trace,
          ∀ pairing ∈ edit.pairings,
            pairing.current.polarity = pairing.found.gate.polarity) := by
  rintro (rebuilt | cancelled)
  · have respected := rebuilt _ List.mem_cons_self
    cases respected
  · have equal :=
      cancelled _ List.mem_cons_self _ List.mem_cons_self
    cases equal

end MQSSPasses.Passes.Polarity
