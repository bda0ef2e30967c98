import MQSSPasses.General.TreeReadings
import MQSSPasses.Passes.Confinement

/-!
# Passes one after the other

A pass manager runs the passes it was given in order, each on the kernel
the one before it left.  A pipeline is such a list of rewriting passes and
decompositions, in any order and with any repetitions.

This module is about what no pipeline does, whatever the kernel contains.
Every edit of a pass takes out gates and puts in gates, so measurements,
resets, calls, conditionals and loops stay where they are, at any depth of
regions.  A gate that was not there before is built from the operands of
gates that were.  Each pass adds or removes a fixed number of gates with
every edit it records.
-/

noncomputable section

namespace MQSSPasses.Passes.Pipelines

open MQSSPasses.General.TracedComputation
open MQSSPasses.General.OperationTree
open MQSSPasses.General.TreeReadings
open MQSSPasses.Quake.Syntax
open MQSSPasses.Quake.Operations
open MQSSPasses.Passes.Rewriting
open MQSSPasses.Passes.Matchers
open MQSSPasses.Passes.Decompositions
open MQSSPasses.Passes.Confinement

variable {A : Type}

/-! ## Pipelines -/

/-- The passes that look back from the gates they visit, and the others. -/
inductive KernelPass where
  | rewriting (pass : RewritingPass)
  | decomposing (pass : DecompositionPass)
  deriving DecidableEq, Repr

/-- The matchers a pass calls, in order, at each operation. -/
def KernelPass.matchers : KernelPass → List (Matcher A)
  | .rewriting pass => pass.matchers
  | .decomposing pass => [pass.matcher]

/-- Run one pass over a kernel. -/
def KernelPass.run (pass : KernelPass) (stale : StaleRead)
    (kernel : Op A) : Traced Fault (Edit A) (Op A) :=
  operationsOnQuantumKernel stale pass.matchers kernel

/-- Run passes over a kernel in order; each edit is recorded with its pass. -/
def runPipeline (stale : StaleRead) :
    List KernelPass → Op A → Traced Fault (KernelPass × Edit A) (Op A)
  | [], kernel => return kernel
  | pass :: later, kernel => do
      let kernel ← (pass.run stale kernel).mapTrace (Prod.mk pass)
      runPipeline stale later kernel

/--
The invariant rule for pipelines: a property that every pass keeps is kept
by the pipeline.
-/
theorem runPipeline_keeps {stale : StaleRead} {passes : List KernelPass}
    {invariant : Op A → Prop}
    {onEvent : KernelPass × Edit A → Prop}
    (each :
      ∀ pass ∈ passes, ∀ kernel, invariant kernel →
        (∀ edit ∈ (pass.run stale kernel).trace, onEvent (pass, edit)) →
          ∀ result, (pass.run stale kernel).outcome = .ok result →
            invariant result)
    {kernel result : Op A} (initially : invariant kernel)
    (good :
      ∀ event ∈ (runPipeline stale passes kernel).trace, onEvent event)
    (returned :
      (runPipeline stale passes kernel).outcome = .ok result) :
    invariant result := by
  induction passes generalizing kernel with
  | nil =>
      cases returned
      exact initially
  | cons pass later induction =>
      rw [runPipeline] at good returned
      rcases Traced.bind_ok_iff.mp returned with
        ⟨next, first, continued, trace⟩
      rw [trace] at good
      refine induction
        (fun other member => each other (List.mem_cons_of_mem pass member))
        (each pass List.mem_cons_self kernel initially ?_ next first)
        (fun event recorded =>
          good event (List.mem_append_right _ recorded))
        continued
      intro edit recorded
      exact good (pass, edit)
        (List.mem_append_left _ (List.mem_map_of_mem recorded))

/--
The completion rule for pipelines: if every pass completes where a property
holds and keeps it, the pipeline completes.
-/
theorem runPipeline_completes {stale : StaleRead}
    {passes : List KernelPass} {invariant : Op A → Prop}
    (each :
      ∀ pass ∈ passes, ∀ kernel, invariant kernel →
        ∃ result, (pass.run stale kernel).outcome = .ok result ∧
          invariant result)
    {kernel : Op A} (initially : invariant kernel) :
    ∃ result, (runPipeline stale passes kernel).outcome = .ok result ∧
      invariant result := by
  induction passes generalizing kernel with
  | nil => exact ⟨kernel, rfl, initially⟩
  | cons pass later induction =>
      rcases each pass List.mem_cons_self kernel initially with
        ⟨next, first, kept⟩
      rcases induction
        (fun other member => each other (List.mem_cons_of_mem pass member))
        kept with ⟨result, continued, holds⟩
      refine ⟨result, ?_, holds⟩
      rw [runPipeline, Traced.bind_of_ok]
      · exact continued
      · exact first

/-- The pass of a recorded edit is one of the pipeline. -/
theorem pass_of_recorded {stale : StaleRead} {passes : List KernelPass}
    {kernel : Op A} {event : KernelPass × Edit A}
    (recorded : event ∈ (runPipeline stale passes kernel).trace) :
    event.1 ∈ passes := by
  induction passes generalizing kernel with
  | nil => cases recorded
  | cons pass later induction =>
      have own
          (early : event ∈ ((pass.run stale kernel).mapTrace
            (Prod.mk pass)).trace) : event.1 ∈ pass :: later := by
        rcases List.mem_map.mp early with ⟨edit, -, rfl⟩
        exact List.mem_cons_self
      rw [runPipeline] at recorded
      cases returned : (pass.run stale kernel).outcome with
      | error fault =>
          rw [Traced.bind_of_error
            ((Traced.mapTrace_outcome _ _).trans returned)] at recorded
          exact own recorded
      | ok next =>
          rw [Traced.bind_of_ok
            ((Traced.mapTrace_outcome _ _).trans returned)] at recorded
          rcases List.mem_append.mp recorded with early | late
          · exact own early
          · exact List.mem_cons_of_mem pass (induction late)

/-! ## What an edit takes out and puts in -/

/-- The second block is the first one without some of its gates. -/
inductive RemovesGates : ℕ → Block A → Block A → Prop where
  | nil : RemovesGates 0 [] []
  | keep {count : ℕ} {before after : Block A} (operation : Op A)
      (rest : RemovesGates count before after) :
      RemovesGates count (operation :: before) (operation :: after)
  | drop {count : ℕ} {before after : Block A} {operation : Op A}
      {gate : Gate A} (isGate : asOperator operation = some gate)
      (rest : RemovesGates count before after) :
      RemovesGates (count + 1) (operation :: before) after

namespace RemovesGates

theorem refl : ∀ block : Block A, RemovesGates 0 block block
  | [] => .nil
  | operation :: rest => .keep operation (refl rest)

theorem append {first second : ℕ}
    {before after other remaining : Block A}
    (head : RemovesGates first before after)
    (tail : RemovesGates second other remaining) :
    RemovesGates (first + second) (before ++ other)
      (after ++ remaining) := by
  induction head with
  | nil => simpa using tail
  | keep operation rest induction => exact .keep operation induction
  | drop isGate rest induction =>
      rw [Nat.add_right_comm]
      exact .drop isGate induction

theorem single {operation : Op A} {gate : Gate A}
    (isGate : asOperator operation = some gate) :
    RemovesGates 1 [operation] [] :=
  .drop isGate .nil

/-- Taking out the gate a look-back found. -/
theorem found {before : Block A} {scanned : QuantumValue}
    {found : Found A} (correct : found.Correct before scanned) :
    RemovesGates 1 before (found.lower ++ found.between) := by
  have removed :=
    (refl found.lower).append
      (.drop correct.isGate (refl found.between))
  rw [correct.position]
  simpa using removed

theorem trans {first second : ℕ} {before between after : Block A}
    (head : RemovesGates first before between)
    (tail : RemovesGates second between after) :
    RemovesGates (first + second) before after := by
  induction head generalizing second after with
  | nil => simpa using tail
  | drop isGate rest induction =>
      rw [Nat.add_right_comm]
      exact .drop isGate (induction tail)
  | keep operation rest induction =>
      cases tail with
      | keep _ later => exact .keep operation (induction later)
      | drop isGate later =>
          rw [← Nat.add_assoc]
          exact .drop isGate (induction later)

theorem subset {count : ℕ} {before after : Block A}
    (removes : RemovesGates count before after) : after ⊆ before := by
  induction removes with
  | nil => exact List.Subset.refl _
  | keep operation rest induction =>
      exact List.cons_subset_cons operation induction
  | drop isGate rest induction =>
      exact List.subset_cons_of_subset _ induction

end RemovesGates

/-- A gate built from the operands of another one. -/
structure BuiltFrom (gate source : Gate A) : Prop where
  unnegated : gate.negatedQubitControls = none
  parameters : gate.parameters ⊆ source.parameters
  qubits : gate.qubits.Subperm source.qubits
  arity :
    (∀ count, source.kind.numParameters = some count →
        source.parameters.length = count) →
      ∀ count, gate.kind.numParameters = some count →
        gate.parameters.length = count

theorem BuiltFrom.usesOperandsOf {gate source : Gate A}
    (built : BuiltFrom gate source) : UsesOperandsOf gate source :=
  ⟨built.parameters, built.qubits.subset⟩

/-- A gate created from the operands of a gate with the same arity. -/
theorem builtFrom_create {kind : GateKind} (isAdj : Bool) {gate : Gate A}
    (same : kind.numParameters = gate.kind.numParameters) :
    BuiltFrom
      (Gate.create kind isAdj gate.parameters gate.controls gate.targets)
      gate where
  unnegated := rfl
  parameters := List.Subset.refl _
  qubits := List.Subperm.refl _
  arity := by
    intro arity count parameters
    exact arity count (same ▸ parameters)

/--
A plan takes out some gates behind the walk and puts in gates built from
operands of the visited gate or of earlier ones; the gates become more by
`gain`.
-/
structure EditsGates (gain : ℤ) (before : Block A) (currentOp : Op A)
    (plan : Plan A) : Prop where
  removes :
    ∃ count,
      RemovesGates count (before ++ [currentOp])
          (plan.before ++ plan.current.toList) ∧
        (plan.inserted.length : ℤ) = count + gain
  inserts :
    ∀ operation ∈ plan.inserted, ∃ gate source original,
      operation = gate.op ∧ original ∈ before ++ [currentOp] ∧
        asOperator original = some source ∧ BuiltFrom gate source

/-- A matcher all whose plans edit gates with one balance. -/
def Balanced (gain : ℤ) (matcher : Matcher A) : Prop :=
  ∀ before currentOp plan,
    matcher before currentOp = .ok (some plan) →
      EditsGates gain before currentOp plan

/-! ### The matchers edit gates -/

section Plans

variable {before : Block A} {currentOp : Op A} {found : Found A}
variable {currentGate : Gate A} {scanned : QuantumValue}

/-- The kind of a gate of a given shape. -/
theorem kind_of_shape {kind : GateKind} {nCtrls nTgts : ℕ}
    {operation : Op A} {gate : Gate A}
    (shape : gateOfShape kind nCtrls nTgts operation = some gate) :
    gate.kind = kind :=
  (asGate_eq_some.mp (gateOfShape_eq_some.mp shape).1).2

/-- Taking out the visited and the found gate. -/
theorem removesGates_both (correct : found.Correct before scanned)
    (isGate : asOperator currentOp = some currentGate) :
    RemovesGates 2 (before ++ [currentOp])
      ((found.lower ++ found.between) ++ []) :=
  (RemovesGates.found correct).append (.single isGate)

/-- Taking out the found gate only. -/
theorem removesGates_found (correct : found.Correct before scanned) :
    RemovesGates 1 (before ++ [currentOp])
      ((found.lower ++ found.between) ++ [currentOp]) :=
  (RemovesGates.found correct).append (.refl _)

/-- A plan that moves the found gate behind the visited one. -/
theorem editsGates_move (correct : found.Correct before scanned)
    {pairings : List (Pairing A)} {kind : GateKind}
    {previousGate : Gate A}
    (isGate : asOperator found.operation = some previousGate)
    (same : kind.numParameters = previousGate.kind.numParameters) :
    EditsGates 0 before currentOp
      { pairings := pairings
        before := found.lower ++ found.between
        current := some currentOp
        inserted :=
          [(Gate.create kind previousGate.isAdj previousGate.parameters
            previousGate.controls previousGate.targets).op] } where
  removes := ⟨1, removesGates_found correct, rfl⟩
  inserts := by
    intro operation member
    rw [List.mem_singleton.mp member]
    exact ⟨_, previousGate, found.operation, rfl, found_mem correct,
      isGate, builtFrom_create _ same⟩

/-- A plan that replaces the found and the visited gate by two others. -/
theorem editsGates_exchange (correct : found.Correct before scanned)
    {pairings : List (Pairing A)} {first second : GateKind}
    {previousGate : Gate A}
    (isCurrent : asOperator currentOp = some currentGate)
    (isGate : asOperator found.operation = some previousGate)
    (sameFirst : first.numParameters = currentGate.kind.numParameters)
    (sameSecond : second.numParameters = previousGate.kind.numParameters) :
    EditsGates 0 before currentOp
      { pairings := pairings
        before := found.lower ++ found.between
        current := none
        inserted :=
          [(Gate.create first currentGate.isAdj currentGate.parameters
              currentGate.controls currentGate.targets).op,
            (Gate.create second previousGate.isAdj previousGate.parameters
              previousGate.controls previousGate.targets).op] } where
  removes := ⟨2, removesGates_both correct isCurrent, rfl⟩
  inserts := by
    intro operation member
    simp only [List.mem_cons, List.not_mem_nil, or_false] at member
    rcases member with rfl | rfl
    · exact ⟨_, currentGate, currentOp, rfl, by simp, isCurrent,
        builtFrom_create _ sameFirst⟩
    · exact ⟨_, previousGate, found.operation, rfl, found_mem correct,
        isGate, builtFrom_create _ sameSecond⟩

end Plans

theorem patternCancellation_balanced {T1 T2 : GateKind}
    {nCtrlsOp1 nTgtsOp1 nCtrlsOp2 nTgtsOp2 : ℕ} :
    Balanced (-2)
      (patternCancellation T1 T2 nCtrlsOp1 nTgtsOp1 nCtrlsOp2 nTgtsOp2 :
        Matcher A) := by
  intro before currentOp plan planned
  rcases patternCancellation_inversion planned with
    ⟨found, currentGate, target, cancels⟩
  have made := cancels.planned
  subst made
  have removed :=
    removesGates_both (getPreviousOperationOnTarget_correct cancels.looked)
      (asOperator_of_shape cancels.current)
  exact ⟨⟨2, removed, rfl⟩, by simp⟩

theorem commuteOperation_balanced {T1 T2 : GateKind}
    {nCtrlsOp1 nTgtsOp1 nCtrlsOp2 nTgtsOp2 : ℕ} :
    Balanced 0
      (commuteOperation T1 T2 nCtrlsOp1 nTgtsOp1 nCtrlsOp2 nTgtsOp2 :
        Matcher A) := by
  intro before currentOp plan planned
  simp only [commuteOperation, withGate_eq_some, withPrevious_eq_some,
    except_bind_eq_ok, ite_none_eq_some, return_some_eq] at planned
  rcases planned with
    ⟨currentGate, current, target, -, found, looked, previousGate,
      previous, _, -, _, -, _, -, -, rfl⟩
  exact editsGates_exchange (getPreviousOperationOnTarget_correct looked)
    (asOperator_of_shape current) (asOperator_of_shape previous)
    (by rw [kind_of_shape current]) (by rw [kind_of_shape previous])

theorem commuteCNotZ_balanced :
    Balanced 0 (commuteCNotZ : Matcher A) := by
  intro before currentOp plan planned
  simp only [commuteCNotZ, withGate_eq_some, withPrevious_eq_some,
    except_bind_eq_ok, ite_none_eq_some, return_some_eq] at planned
  rcases planned with
    ⟨currentGate, -, target, -, found, looked, previousGate, previous,
      _, -, _, -, _, -, _, -, _, -, -, rfl⟩
  exact editsGates_move (getPreviousOperationOnTarget_correct looked)
    (asOperator_of_shape previous) (by rw [kind_of_shape previous])

theorem commuteZCNot_balanced :
    Balanced 0 (commuteZCNot : Matcher A) := by
  intro before currentOp plan planned
  simp only [commuteZCNot, withGate_eq_some, withPrevious_eq_some,
    except_bind_eq_ok, ite_none_eq_some, return_some_eq] at planned
  rcases planned with
    ⟨currentGate, -, control, -, found, looked, previousGate, previous,
      _, -, _, -, _, -, -, rfl⟩
  exact editsGates_move (getPreviousOperationOnTarget_correct looked)
    (asOperator_of_shape previous) (by rw [kind_of_shape previous])

/-- A switch of gates without parameters. -/
theorem patternSwitch_balanced {T1 T2 T3 T4 : GateKind}
    (sameFirst : T3.numParameters = T2.numParameters)
    (sameSecond : T4.numParameters = T1.numParameters) :
    Balanced 0 (patternSwitch T1 T2 T3 T4 : Matcher A) := by
  intro before currentOp plan planned
  simp only [patternSwitch, withGate_eq_some, withPrevious_eq_some,
    except_bind_eq_ok, ite_none_eq_some, return_some_eq] at planned
  rcases planned with
    ⟨currentGate, current, target, -, found, looked, prevGate, cast, -,
      rfl⟩
  have isGate := asOperator_of_castGate cast
  have isKind : prevGate.kind = T1 := by
    unfold castGate at cast
    cases found : asGate T1 found.operation with
    | none => simp [found] at cast
    | some performed =>
        rw [found, Except.ok.injEq] at cast
        exact cast ▸ (asGate_eq_some.mp found).2
  exact editsGates_exchange (getPreviousOperationOnTarget_correct looked)
    (asOperator_of_shape current) isGate
    (by rw [kind_of_shape current, sameFirst])
    (by rw [isKind, sameSecond])

/-- Pauli gates have no parameters, before and after a switch. -/
theorem switchedPauli_numParameters {kind pauli : GateKind}
    (switched : switchedPauli kind = some pauli) :
    pauli.numParameters = kind.numParameters := by
  unfold switchedPauli at switched
  split at switched <;> cases switched <;> rfl

theorem SwitchPauliHOperation_balanced :
    Balanced 0 (SwitchPauliHOperation : Matcher A) := by
  intro before currentOp plan planned
  simp only [SwitchPauliHOperation, withGate_eq_some,
    withPrevious_eq_some, except_bind_eq_ok] at planned
  rcases planned with ⟨currentGate, -, target, -, found, looked, planned⟩
  have correct := getPreviousOperationOnTarget_correct looked
  cases switched : switchedPauli found.gate.kind with
  | none => simp [switched, pure, Except.pure] at planned
  | some pauli =>
      simp only [switched, ite_none_eq_some, return_some_eq] at planned
      rcases planned with ⟨-, rfl⟩
      exact editsGates_move correct correct.isGate
        (switchedPauli_numParameters switched)

theorem replaceConjugated_balanced {middle replacement : GateKind}
    (plain : replacement.numParameters = some 0) :
    Balanced (-2) (replaceConjugated middle replacement : Matcher A) := by
  intro before currentOp plan planned
  simp only [replaceConjugated, withGate_eq_some, withPrevious_eq_some,
    except_bind_eq_ok, ite_none_eq_some, return_some_eq] at planned
  rcases planned with
    ⟨currentGate, current, target, -, found, looked, prevGate, -, earlier,
      lookedAgain, _, -, -, rfl⟩
  have correct := getPreviousOperationOnTarget_correct looked
  have correctAgain := getPreviousOperationOnTarget_correct lookedAgain
  have isGate := asOperator_of_shape current
  constructor
  · have inner :
        RemovesGates 1 (found.lower ++ found.between)
          (earlier.lower ++ earlier.between ++ found.between) :=
      (RemovesGates.found correctAgain).append (.refl _)
    exact ⟨3, ((RemovesGates.found correct).trans inner).append
      (.single isGate), rfl⟩
  · intro operation member
    rw [List.mem_singleton.mp member]
    refine ⟨_, currentGate, currentOp, rfl, by simp, isGate, ?_⟩
    exact
      { unnegated := rfl
        parameters := List.nil_subset _
        qubits := List.Subperm.refl _
        arity := by
          intro _ count parameters
          have fixed : some 0 = some count := plain ▸ parameters
          exact Option.some.inj fixed }

theorem fusePhase_balanced (adjoint : Bool) :
    Balanced (-1) (fusePhase adjoint : Matcher A) := by
  intro before currentOp plan planned
  simp only [fusePhase, withGate_eq_some, withPrevious_eq_some,
    except_bind_eq_ok, ite_none_eq_some, return_some_eq] at planned
  rcases planned with
    ⟨currentGate, current, target, -, found, looked, prevGate, previous, -,
      rfl⟩
  have correct := getPreviousOperationOnTarget_correct looked
  refine ⟨⟨2, removesGates_both correct (asOperator_of_shape current),
    rfl⟩, ?_⟩
  intro operation member
  rw [List.mem_singleton.mp member]
  exact ⟨_, prevGate, found.operation, rfl, found_mem correct,
    asOperator_of_shape previous,
    builtFrom_create _ (by rw [kind_of_shape previous])⟩

/-- A gate without parameters on some of the operands of another one. -/
theorem builtFrom_plain {kind : GateKind} {gate : Gate A}
    {controls targets : List QuantumValue}
    (plain : kind.numParameters = some 0)
    (qubits : (controls ++ targets).Subperm gate.qubits) :
    BuiltFrom (Gate.create kind false [] controls targets) gate where
  unnegated := rfl
  parameters := List.nil_subset _
  qubits := qubits
  arity := by
    intro _ count parameters
    have fixed : some 0 = some count := plain ▸ parameters
    exact Option.some.inj fixed

theorem decompose_balanced {kind : GateKind} {gain : ℤ}
    {made : QuantumValue → QuantumValue → Block A}
    (size :
      ∀ control target, ((made control target).length : ℤ) = 1 + gain)
    (builds :
      ∀ (gate : Gate A) control target, gate.controls = [control] →
        gate.targets = [target] → ∀ operation ∈ made control target,
          ∃ created, operation = created.op ∧ BuiltFrom created gate) :
    Balanced gain (decompose kind made) := by
  intro before currentOp plan planned
  simp only [decompose, withGate_eq_some, except_bind_eq_ok,
    return_some_eq] at planned
  rcases planned with
    ⟨gate, shape, control, controlRead, target, targetRead, rfl⟩
  have isGate := asOperator_of_shape shape
  have counts := (gateOfShape_eq_some.mp shape).2
  refine ⟨⟨1, ?_, size control target⟩, ?_⟩
  · have removed :=
      (RemovesGates.refl before).append (.single isGate)
    simpa using removed
  · intro operation member
    rcases builds gate control target
      (eq_singleton_of_element counts.1 controlRead)
      (eq_singleton_of_element counts.2 targetRead) operation member with
      ⟨created, rfl, built⟩
    exact ⟨created, gate, currentOp, rfl, by simp, isGate, built⟩

/-- The gates a decomposition has more than the one it replaces. -/
def decompositionGain : DecompositionPass → ℤ
  | .ReverseCx => 4
  | .CxToHCzH | .CzToHCxH => 2

theorem DecompositionPass_balanced (decomposition : DecompositionPass) :
    Balanced (decompositionGain decomposition)
      (decomposition.matcher : Matcher A) := by
  rw [DecompositionPass.matcher_eq]
  apply decompose_balanced
  · intro control target
    cases decomposition <;> rfl
  · intro gate control target controls targets operation member
    have operands : gate.qubits = [control, target] := by
      rw [Gate.qubits, controls, targets]
      rfl
    have onControl : [control].Subperm gate.qubits := by
      rw [operands]
      exact List.singleton_subperm_iff.mpr (by simp)
    have onTarget : [target].Subperm gate.qubits := by
      rw [operands]
      exact List.singleton_subperm_iff.mpr (by simp)
    have forward : ([control] ++ [target]).Subperm gate.qubits := by
      rw [operands]
      exact List.Subperm.refl _
    have backward : ([target] ++ [control]).Subperm gate.qubits := by
      rw [operands]
      exact (List.Perm.swap control target []).subperm
    cases decomposition <;>
      simp only [DecompositionPass.inserted, reversedCx, hCzH, hCxH,
        List.mem_cons, List.not_mem_nil, or_false] at member
    case ReverseCx =>
      rcases member with rfl | rfl | rfl | rfl | rfl
      · exact ⟨_, rfl, builtFrom_plain rfl onTarget⟩
      · exact ⟨_, rfl, builtFrom_plain rfl onControl⟩
      · exact ⟨_, rfl, builtFrom_plain rfl backward⟩
      · exact ⟨_, rfl, builtFrom_plain rfl onTarget⟩
      · exact ⟨_, rfl, builtFrom_plain rfl onControl⟩
    all_goals
      rcases member with rfl | rfl | rfl
      · exact ⟨_, rfl, builtFrom_plain rfl onTarget⟩
      · exact ⟨_, rfl, builtFrom_plain rfl (by assumption)⟩
      · exact ⟨_, rfl, builtFrom_plain rfl onTarget⟩

/-- By how many gates a kernel grows with every edit of a pass. -/
def KernelPass.gain : KernelPass → ℤ
  | .rewriting .ReductionPattern | .rewriting .CancellationDoubleCx
  | .rewriting .HXHToZ | .rewriting .HZHToX => -2
  | .rewriting .SZToSAdj | .rewriting .SAdjZToS => -1
  | .rewriting _ => 0
  | .decomposing pass => decompositionGain pass

theorem KernelPass.balanced (pass : KernelPass) :
    ∀ matcher ∈ (pass.matchers : List (Matcher A)),
      Balanced pass.gain matcher := by
  intro matcher member
  cases pass with
  | decomposing pass =>
      rw [List.mem_singleton.mp member]
      exact DecompositionPass_balanced pass
  | rewriting pass =>
      cases pass <;>
        simp only [KernelPass.matchers, RewritingPass.matchers,
          List.mem_cons, List.not_mem_nil, or_false] at member
      case ReductionPattern =>
          rcases member with
            rfl | rfl | rfl | rfl | rfl | rfl | rfl | rfl <;>
            exact patternCancellation_balanced
      all_goals subst member
      case CancellationDoubleCx =>
          exact patternCancellation_balanced
      case CommuteCxZ => exact commuteCNotZ_balanced
      case CommuteZCx => exact commuteZCNot_balanced
      case SwitchPauliH => exact SwitchPauliHOperation_balanced
      case HXHToZ | HZHToX => exact replaceConjugated_balanced rfl
      case SZToSAdj | SAdjZToS => exact fusePhase_balanced _
      case CommuteCxRx | CommuteCxX | CommuteRxCx | CommuteXCx =>
          exact commuteOperation_balanced
      case SwitchHX | SwitchHY | SwitchHZ | SwitchXH | SwitchYH
        | SwitchZH =>
          exact patternSwitch_balanced rfl rfl

/-! ## What stays -/

/-- An operation that is no gate, with what is left of its blocks. -/
def nodeWithoutGates (label : OpData A) (blocks : List (Block A)) :
    Block A :=
  match asOperator (.leaf label) with
  | some _ => []
  | none => [.mk label blocks]

/-- A tree without its gates. -/
def skeleton : Reading (OpData A) (Block A) where
  empty := []
  join := List.append
  node := nodeWithoutGates
  empty_join := List.nil_append
  join_empty := List.append_nil
  join_assoc := List.append_assoc

/-- The operations of a kernel that are no gates, with their regions. -/
def withoutGates (kernel : Op A) : Block A :=
  skeleton.readNode kernel

theorem skeleton_gate {operation : Op A} {gate : Gate A}
    (isGate : asOperator operation = some gate) :
    skeleton.readNode operation = [] := by
  cases operation with
  | mk label blocks =>
      have own : asOperator (.leaf label) = some gate := isGate
      rw [Reading.readNode]
      change nodeWithoutGates label _ = []
      rw [nodeWithoutGates, own]

theorem skeleton_changes {Event : Type} :
    (skeleton : Reading (OpData A) (Block A)).Changes
      fun (_ : List Event) before after => before = after where
  none _ := rfl
  compose := Eq.trans
  before _ same := by rw [same]
  after _ same := by rw [same]
  inside _ _ _ same := by rw [same]

theorem RemovesGates.skeleton_eq {count : ℕ} {before after : Block A}
    (removes : RemovesGates count before after) :
    skeleton.readBlock before = skeleton.readBlock after := by
  induction removes with
  | nil => rfl
  | keep operation rest induction =>
      rw [Reading.readBlock_cons, Reading.readBlock_cons, induction]
  | drop isGate rest induction =>
      rw [Reading.readBlock_cons, skeleton_gate isGate]
      exact induction

/-- Gates leave nothing in the skeleton of a block. -/
theorem skeleton_of_gates {block : Block A}
    (gates : ∀ operation ∈ block, ∃ gate : Gate A, operation = gate.op) :
    skeleton.readBlock block = [] := by
  induction block with
  | nil => exact skeleton.readBlock_nil
  | cons operation rest induction =>
      rcases gates operation List.mem_cons_self with ⟨gate, rfl⟩
      rw [Reading.readBlock_cons, @skeleton_gate A gate.op gate rfl,
        induction fun other member =>
          gates other (List.mem_cons_of_mem _ member)]
      rfl

/-! ## Calls of a pass and the reading of a tree -/

/--
What every plan of the matchers does to the part of the block behind the
walk, the calls of the pass do.
-/
theorem rewriteInOrder_changes {Value : Type}
    {reading : Reading (OpData A) Value}
    {allowed : List (Edit A) → Value → Value → Prop}
    (changes : reading.Changes allowed) {stale : StaleRead}
    {matchers : List (Matcher A)}
    (planned :
      ∀ matcher ∈ matchers, ∀ before currentOp plan,
        matcher before currentOp = .ok (some plan) →
          ∀ edit, allowed [edit] (reading.readBlock (before ++ [currentOp]))
            (reading.readBlock
              (plan.before ++ plan.current.toList ++ plan.inserted))) :
    Reading.CallChanges reading allowed
      (rewriteInOrder stale matchers) := by
  induction matchers with
  | nil => exact fun cursor => changes.pure cursor
  | cons matcher others induction =>
      intro cursor
      rw [rewriteInOrder]
      refine changes.bind ?_ fun next _ =>
        induction
          (fun other member =>
            planned other (List.mem_cons_of_mem matcher member))
          next
      have outcome := rewrite_outcome stale matcher cursor
      generalize rewrite stale matcher cursor = result at outcome
      cases outcome with
      | unchanged => exact changes.pure cursor
      | stopped fault =>
          refine ⟨_, changes.none _, ?_⟩
          intro after impossible
          cases impossible
      | edited currentOp plan visited made =>
          have source :
              cursor.visited =
                cursor.before ++ [currentOp] ++ cursor.inserted := by
            rw [Cursor.visited, visited, Option.toList_some]
          have target :
              (plan.apply cursor).visited =
                plan.before ++ plan.current.toList ++ plan.inserted ++
                  cursor.inserted := by
            simp [Cursor.visited, Plan.apply]
          refine ⟨reading.readBlock (plan.apply cursor).visited, ?_, ?_⟩
          · rw [source, target, Reading.readBlock_append _ (_ ++ [_]),
              Reading.readBlock_append _ (_ ++ _ ++ _)]
            exact changes.after _
              (planned matcher List.mem_cons_self _ _ _ made _)
          · rintro after ⟨⟩
            rfl

/-- No pass changes anything but gates. -/
theorem KernelPass.withoutGates_eq (pass : KernelPass) {stale : StaleRead}
    {kernel result : Op A}
    (returned : (pass.run stale kernel).outcome = .ok result) :
    withoutGates result = withoutGates kernel := by
  have calls :
      Reading.CallChanges (skeleton : Reading (OpData A) (Block A))
        (fun _ before after => before = after)
        (rewriteInOrder stale pass.matchers) := by
    apply rewriteInOrder_changes skeleton_changes
    intro matcher member before currentOp plan planned _
    have edits := pass.balanced matcher member before currentOp plan planned
    rcases edits.removes with ⟨count, removes, -⟩
    have placed :
        skeleton.readBlock plan.inserted = ([] : Block A) := by
      apply skeleton_of_gates
      intro operation inserted
      rcases edits.inserts operation inserted with ⟨gate, _, _, made, -⟩
      exact ⟨gate, made⟩
    rw [Reading.readBlock_append _ (_ ++ _), placed, removes.skeleton_eq]
    exact (skeleton.join_empty _).symm
  exact ((skeleton_changes.walkNode calls kernel).of_returned
    returned).symm

/-! ## The gates of a kernel -/

/-- The gates of a kernel, in the order of the walk. -/
def gatesIn (kernel : Op A) : List (Gate A) :=
  (postOrder kernel).filterMap asOperator

/-- The gates of a kernel have no regions. -/
def LeafGates (kernel : Op A) : Prop :=
  ∀ operation ∈ postOrder kernel,
    (asOperator operation).isSome → operation.blocks = []

/-- The operands of some gates. -/
def operandsOf (gates : List (Gate A)) : Set (KernelValue A) :=
  {value | ∃ gate ∈ gates, value ∈ gateOperands gate}

/--
Gates that come from others: there are `balance` more of them, and each is
one of the others or is built from operands of the others, without negated
controls.
-/
structure Derived (balance : ℤ) (before after : List (Gate A)) : Prop where
  length : (after.length : ℤ) = before.length + balance
  origin :
    ∀ gate ∈ after, gate ∈ before ∨
      gate.negatedQubitControls = none ∧
        gateOperands gate ⊆ operandsOf before

namespace Derived

theorem refl (gates : List (Gate A)) : Derived 0 gates gates where
  length := (add_zero _).symm
  origin := fun _ member => .inl member

theorem operands {balance : ℤ} {before after : List (Gate A)}
    (derived : Derived balance before after) :
    operandsOf after ⊆ operandsOf before := by
  rintro value ⟨gate, member, used⟩
  rcases derived.origin gate member with old | ⟨-, built⟩
  · exact ⟨gate, old, used⟩
  · exact built used

theorem trans {first second : ℤ} {before between after : List (Gate A)}
    (head : Derived first before between)
    (tail : Derived second between after) :
    Derived (first + second) before after where
  length := by
    rw [tail.length, head.length, add_assoc]
  origin := by
    intro gate member
    rcases tail.origin gate member with middle | ⟨unnegated, built⟩
    · exact head.origin gate middle
    · exact .inr ⟨unnegated, built.trans head.operands⟩

theorem append {first second : ℤ}
    {before after other remaining : List (Gate A)}
    (left : Derived first before after)
    (right : Derived second other remaining) :
    Derived (first + second) (before ++ other) (after ++ remaining) where
  length := by
    have leftLength := left.length
    have rightLength := right.length
    simp only [List.length_append, Nat.cast_add]
    omega
  origin := by
    intro gate member
    rcases List.mem_append.mp member with early | late
    · rcases left.origin gate early with old | ⟨unnegated, built⟩
      · exact .inl (List.mem_append_left _ old)
      · refine .inr ⟨unnegated, built.trans ?_⟩
        rintro value ⟨source, listed, used⟩
        exact ⟨source, List.mem_append_left _ listed, used⟩
    · rcases right.origin gate late with old | ⟨unnegated, built⟩
      · exact .inl (List.mem_append_right _ old)
      · refine .inr ⟨unnegated, built.trans ?_⟩
        rintro value ⟨source, listed, used⟩
        exact ⟨source, List.mem_append_right _ listed, used⟩

end Derived

/-! ### The gates of a tree as a reading -/

/-- The gates of a tree, and whether none of them has regions. -/
@[ext]
structure Census (A : Type) where
  gates : List (Gate A)
  flat : Prop

/-- The gates of an operation and of its blocks. -/
def Census.ofNode (label : OpData A) (blocks : List (Census A)) :
    Census A where
  gates :=
    blocks.flatMap Census.gates ++ (asOperator (.leaf label)).toList
  flat :=
    (∀ block ∈ blocks, block.flat) ∧
      ((asOperator (.leaf label)).isSome → blocks = [])

/-- The gates of a tree. -/
def census : Reading (OpData A) (Census A) where
  empty := ⟨[], True⟩
  join first second :=
    ⟨first.gates ++ second.gates, first.flat ∧ second.flat⟩
  node := Census.ofNode
  empty_join := fun _ => by simp
  join_empty := fun _ => by simp
  join_assoc := fun _ _ _ => by simp [and_assoc]

@[simp]
theorem census_join_gates (first second : Census A) :
    (census.join first second).gates = first.gates ++ second.gates := rfl

@[simp]
theorem census_join_flat (first second : Census A) :
    (census.join first second).flat = (first.flat ∧ second.flat) := rfl

mutual

/-- The census of a tree lists the gates the walk comes across. -/
theorem census_node :
    ∀ operation : Op A,
      (census.readNode operation).gates = gatesIn operation ∧
        ((census.readNode operation).flat ↔ LeafGates operation)
  | .mk label blocks => by
      have inner := census_blocks blocks
      have same :
          asOperator (.mk label blocks : Op A) =
            asOperator (.leaf label) := rfl
      rw [Reading.readNode]
      refine ⟨?_, ?_⟩
      · rw [gatesIn, postOrder, List.filterMap_append, ← inner.1,
          List.filterMap_cons, same]
        change _ ++ (asOperator (.leaf label)).toList = _
        cases asOperator (.leaf label) <;> rfl
      · have empty : census.readBlocks blocks = [] ↔ blocks = [] := by
          cases blocks <;> simp [Reading.readBlocks]
        rw [LeafGates, postOrder, List.forall_mem_append, ← inner.2,
          List.forall_mem_singleton, same, Node.blocks_mk, ← empty]
        exact Iff.rfl

theorem census_blocks :
    ∀ blocks : List (Block A),
      (census.readBlocks blocks).flatMap Census.gates =
          (postOrderBlocks blocks).filterMap asOperator ∧
        ((∀ block ∈ census.readBlocks blocks, block.flat) ↔
          ∀ operation ∈ postOrderBlocks blocks,
            (asOperator operation).isSome → operation.blocks = [])
  | [] => by
      rw [Reading.readBlocks, postOrderBlocks]
      simp
  | block :: others => by
      have first := census_block block
      have later := census_blocks others
      rw [Reading.readBlocks, postOrderBlocks, List.flatMap_cons,
        List.filterMap_append, first.1, later.1, List.forall_mem_cons,
        List.forall_mem_append, first.2, later.2]
      exact ⟨rfl, Iff.rfl⟩

theorem census_block :
    ∀ block : Block A,
      (census.readBlock block).gates =
          (postOrderBlock block).filterMap asOperator ∧
        ((census.readBlock block).flat ↔
          ∀ operation ∈ postOrderBlock block,
            (asOperator operation).isSome → operation.blocks = [])
  | [] => by
      rw [Reading.readBlock, postOrderBlock]
      simp [census]
  | operation :: rest => by
      have first := census_node operation
      have later := census_block rest
      rw [Reading.readBlock_cons, postOrderBlock, List.filterMap_append,
        List.forall_mem_append, ← later.1, ← later.2]
      exact ⟨congrArg (· ++ _) first.1, and_congr_left' first.2⟩

end

/-! ### What the edits of a pass do to the gates -/

/-- Where gates have no regions, the edits derive them from the old ones. -/
def DerivedBy (gain : ℤ) (edits : List (Edit A)) (before after : Census A) :
    Prop :=
  before.flat →
    after.flat ∧ Derived (gain * edits.length) before.gates after.gates

/--
What counted edits do to the gates is read off a tree, if it can be done
anywhere among other gates.
-/
theorem census_changes_of
    {allowed : ℕ → List (Gate A) → List (Gate A) → Prop}
    (none : ∀ gates, allowed 0 gates gates)
    (compose :
      ∀ {early late first second third}, allowed early first second →
        allowed late second third → allowed (early + late) first third)
    (around :
      ∀ {count before after}, allowed count before after →
        ∀ left right,
          allowed count (left ++ (before ++ right))
            (left ++ (after ++ right))) :
    (census : Reading (OpData A) (Census A)).Changes
      fun (edits : List (Edit A)) before after =>
        before.flat →
          after.flat ∧ allowed edits.length before.gates after.gates where
  none := fun census flat => ⟨flat, none _⟩
  compose := by
    intro early late first second third head tail flat
    rcases head flat with ⟨middleFlat, changed⟩
    rcases tail middleFlat with ⟨lastFlat, further⟩
    rw [List.length_append]
    exact ⟨lastFlat, compose changed further⟩
  before := by
    rintro events first second value changed ⟨here, inner⟩
    rcases changed inner with ⟨kept, gates⟩
    refine ⟨⟨here, kept⟩, ?_⟩
    simpa using around gates value.gates []
  after := by
    rintro events first second value changed ⟨inner, here⟩
    rcases changed inner with ⟨kept, gates⟩
    exact ⟨⟨kept, here⟩, around gates [] value.gates⟩
  inside := by
    rintro events first second label left right changed ⟨inner, leaf⟩
    rw [List.forall_mem_append, List.forall_mem_cons] at inner
    rcases changed inner.2.1 with ⟨kept, gates⟩
    refine ⟨⟨?_, ?_⟩, ?_⟩
    · rw [List.forall_mem_append, List.forall_mem_cons]
      exact ⟨inner.1, kept, inner.2.2⟩
    · intro isGate
      have none := leaf isGate
      simp at none
    · simpa [census, Census.ofNode] using
        around gates (left.flatMap Census.gates)
          (right.flatMap Census.gates ++ (asOperator (.leaf label)).toList)

theorem census_changes (gain : ℤ) :
    (census : Reading (OpData A) (Census A)).Changes (DerivedBy gain) :=
  @census_changes_of A
    (fun count before after => Derived (gain * count) before after)
    (fun gates => by simpa using Derived.refl gates)
    (fun head tail => by
      rw [Nat.cast_add, mul_add]
      exact head.trans tail)
    (fun derived left right => by
      simpa using
        (Derived.refl left).append (derived.append (.refl right)))

/-- Taking out gates without regions. -/
theorem RemovesGates.census {count : ℕ} {before after : Block A}
    (removes : RemovesGates count before after)
    (flat : (Pipelines.census.readBlock before).flat) :
    (Pipelines.census.readBlock after).flat ∧
      (Pipelines.census.readBlock after).gates.Sublist
        (Pipelines.census.readBlock before).gates ∧
      (Pipelines.census.readBlock after).gates.length + count =
        (Pipelines.census.readBlock before).gates.length := by
  induction removes with
  | nil => exact ⟨flat, List.Sublist.refl _, rfl⟩
  | keep operation rest induction =>
      rw [Reading.readBlock_cons] at flat ⊢
      rcases induction flat.2 with ⟨kept, sublist, length⟩
      rw [Reading.readBlock_cons]
      refine ⟨⟨flat.1, kept⟩, sublist.append_left _, ?_⟩
      rw [census_join_gates, census_join_gates, List.length_append,
        List.length_append, add_assoc, length]
  | @drop _ _ _ operation gate isGate rest induction =>
      rw [Reading.readBlock_cons] at flat ⊢
      rcases induction flat.2 with ⟨kept, sublist, length⟩
      have leaf :=
        (census_node operation).2.mp flat.1 operation
          (by cases operation; rw [postOrder]; simp) (by simp [isGate])
      have own : (Pipelines.census.readNode operation).gates = [gate] := by
        rw [(census_node operation).1, Node.eq_leaf leaf, gatesIn,
          Node.leaf, postOrder, postOrderBlocks, List.nil_append]
        have same :
            asOperator (.mk operation.label [] : Op A) = some gate := isGate
        rw [List.filterMap_cons_some same, List.filterMap_nil]
      rw [census_join_gates, own, List.length_append,
        List.length_singleton]
      refine ⟨kept, sublist.trans (List.sublist_append_right _ _), ?_⟩
      omega

/-- The census of a block of created gates. -/
theorem census_of_gates {block : Block A}
    (gates : ∀ operation ∈ block, ∃ gate : Gate A, operation = gate.op) :
    (census.readBlock block).flat ∧
      (census.readBlock block).gates.length = block.length ∧
      ∀ gate ∈ (census.readBlock block).gates, gate.op ∈ block := by
  induction block with
  | nil =>
      rw [Reading.readBlock_nil]
      exact ⟨trivial, rfl, fun _ member => (List.not_mem_nil member).elim⟩
  | cons operation rest induction =>
      rcases gates operation List.mem_cons_self with ⟨gate, rfl⟩
      rcases induction fun other member =>
        gates other (List.mem_cons_of_mem _ member) with
        ⟨flat, length, listed⟩
      have own : census.readNode gate.op = ⟨[gate], True⟩ := by
        rw [Gate.op, Reading.readNode_leaf]
        ext1
        · rfl
        · simp [census, Census.ofNode]
      rw [Reading.readBlock_cons, own]
      refine ⟨⟨trivial, flat⟩, congrArg (· + 1) length, ?_⟩
      intro other member
      rcases List.mem_cons.mp member with rfl | later
      · exact List.mem_cons_self
      · exact List.mem_cons_of_mem _ (listed other later)

/-- The gate of an operation of a block is listed in its census. -/
theorem mem_census_of_mem {block : Block A} {operation : Op A}
    {gate : Gate A} (member : operation ∈ block)
    (isGate : asOperator operation = some gate) :
    gate ∈ (census.readBlock block).gates := by
  induction block with
  | nil => cases member
  | cons first rest induction =>
      rw [Reading.readBlock_cons]
      rcases List.mem_cons.mp member with rfl | later
      · apply List.mem_append_left
        rw [(census_node operation).1, gatesIn]
        refine List.mem_filterMap.mpr ⟨operation, ?_, isGate⟩
        cases operation
        rw [postOrder]
        simp
      · exact List.mem_append_right _ (induction later)

/-- A plan derives the gates behind the walk from those that were there. -/
theorem EditsGates.derives {gain : ℤ} {before : Block A}
    {currentOp : Op A} {plan : Plan A}
    (edits : EditsGates gain before currentOp plan) (edit : Edit A) :
    DerivedBy gain [edit] (census.readBlock (before ++ [currentOp]))
      (census.readBlock
        (plan.before ++ plan.current.toList ++ plan.inserted)) := by
  intro flat
  rcases edits.removes with ⟨count, removes, size⟩
  rcases removes.census flat with ⟨remaining, sublist, length⟩
  rcases @census_of_gates A plan.inserted fun operation member => by
    rcases edits.inserts operation member with ⟨gate, _, _, made, -⟩
    exact ⟨gate, made⟩ with ⟨placedFlat, placed, listed⟩
  rw [Reading.readBlock_append _ (_ ++ _)]
  refine ⟨⟨remaining, placedFlat⟩, ?_, ?_⟩
  · rw [census_join_gates, List.length_append, placed,
      List.length_singleton]
    push_cast
    omega
  · intro gate member
    rcases List.mem_append.mp member with kept | new
    · exact .inl (sublist.subset kept)
    · rcases edits.inserts gate.op (listed gate new) with
        ⟨created, source, original, same, present, isGate, built⟩
      have equal : gate = created := by
        have labels := congrArg asOperator same
        exact Option.some.inj labels
      subst equal
      refine .inr ⟨built.unnegated, ?_⟩
      intro value used
      exact ⟨source, mem_census_of_mem present isGate,
        built.usesOperandsOf.subset used⟩

/-- What a pass does to the gates of a kernel. -/
theorem KernelPass.derives (pass : KernelPass) {stale : StaleRead}
    {kernel result : Op A} (leaves : LeafGates kernel)
    (returned : (pass.run stale kernel).outcome = .ok result) :
    LeafGates result ∧
      Derived (pass.gain * (pass.run stale kernel).trace.length)
        (gatesIn kernel) (gatesIn result) := by
  have calls :
      Reading.CallChanges (census : Reading (OpData A) (Census A))
        (DerivedBy pass.gain) (rewriteInOrder stale pass.matchers) :=
    rewriteInOrder_changes (census_changes pass.gain)
      fun matcher member before currentOp plan planned =>
        (pass.balanced matcher member before currentOp plan
          planned).derives
  have changed :=
    ((census_changes pass.gain).walkNode calls kernel).of_returned returned
      ((census_node kernel).2.mpr leaves)
  rw [(census_node result).2, (census_node kernel).1,
    (census_node result).1] at changed
  exact changed

/-! ## What a pipeline does to a kernel -/

/--
No pipeline changes anything but gates: the other operations stay where
they are, at any depth of regions.
-/
theorem runPipeline_keeps_rest {stale : StaleRead}
    {passes : List KernelPass} {kernel result : Op A}
    (returned :
      (runPipeline stale passes kernel).outcome = .ok result) :
    withoutGates result = withoutGates kernel :=
  @runPipeline_keeps A stale passes
    (fun reached => withoutGates reached = withoutGates kernel)
    (fun _ => True)
    (fun pass _ _ same _ _ left =>
      (pass.withoutGates_eq left).trans same)
    kernel result rfl (fun _ _ => trivial) returned

/-- How many gates the edits of a pipeline add. -/
def balance (events : List (KernelPass × Edit A)) : ℤ :=
  (events.map fun event => event.1.gain).sum

theorem balance_append (early late : List (KernelPass × Edit A)) :
    balance (early ++ late) = balance early + balance late := by
  rw [balance, List.map_append, List.sum_append]
  rfl

/--
A pipeline derives the gates of a kernel from those it had: their number
changes by the balance of the edits, and new gates use old operands only.
-/
theorem runPipeline_derives {stale : StaleRead}
    {passes : List KernelPass} {kernel result : Op A}
    (leaves : LeafGates kernel)
    (returned :
      (runPipeline stale passes kernel).outcome = .ok result) :
    LeafGates result ∧
      Derived (balance (runPipeline stale passes kernel).trace)
        (gatesIn kernel) (gatesIn result) := by
  induction passes generalizing kernel with
  | nil =>
      cases returned
      exact ⟨leaves, .refl _⟩
  | cons pass later induction =>
      rw [runPipeline] at returned ⊢
      rcases Traced.bind_ok_iff.mp returned with
        ⟨next, first, continued, trace⟩
      rcases pass.derives leaves first with ⟨nextLeaves, derived⟩
      rcases induction nextLeaves continued with ⟨settled, further⟩
      refine ⟨settled, ?_⟩
      have early :
          balance
              ((pass.run stale kernel).mapTrace (Prod.mk pass)).trace =
            pass.gain * (pass.run stale kernel).trace.length := by
        simp [balance, Function.comp_def, mul_comm]
      rw [trace, balance_append, early]
      exact derived.trans further

/-! ### A conditional and a measurement -/

/-- Two gates in a conditional, and a measurement behind it. -/
def conditional (first second : Gate ℤ) : Op ℤ :=
  kernelOf
    [.mk (.structured "cc.if") [[first.op, second.op]],
      .leaf (.measure .mz [.refAlloca 0])]

def plainX : Gate ℤ := Gate.create .x false [] [] [.refAlloca 0]

def plainZ : Gate ℤ := Gate.create .z false [] [] [.refAlloca 0]

def plainH : Gate ℤ := Gate.create .h false [] [] [.refAlloca 0]

def switchThenCommute : List KernelPass :=
  [.rewriting .SwitchPauliH, .rewriting .CommuteXCx,
    .decomposing .CxToHCzH]

theorem conditional_switched :
    (runPipeline .stops switchThenCommute
        (conditional plainX plainH)).outcome =
      .ok (conditional plainH plainZ) := rfl

theorem conditional_keeps_rest :
    withoutGates (conditional plainH plainZ) =
      withoutGates (conditional plainX plainH) :=
  runPipeline_keeps_rest conditional_switched

theorem conditional_leafGates : LeafGates (conditional plainX plainH) := by
  intro operation member isGate
  simp only [conditional, kernelOf, postOrder, postOrderBlocks,
    postOrderBlock, Gate.op, Node.leaf, List.nil_append,
    List.append_nil, List.cons_append, List.mem_cons, List.not_mem_nil,
    or_false] at member
  rcases member with rfl | rfl | rfl | rfl | rfl
  · rfl
  · rfl
  · cases isGate
  · rfl
  · cases isGate

theorem conditional_derives :
    LeafGates (conditional plainH plainZ) ∧
      Derived
        (balance
          (runPipeline .stops switchThenCommute
            (conditional plainX plainH)).trace)
        (gatesIn (conditional plainX plainH))
        (gatesIn (conditional plainH plainZ)) :=
  runPipeline_derives conditional_leafGates conditional_switched

end MQSSPasses.Passes.Pipelines

end
