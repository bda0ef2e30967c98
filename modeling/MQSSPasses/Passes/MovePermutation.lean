import MQSSPasses.General.Reordering
import MQSSPasses.Passes.Matchers

/-!
# The commute passes reorder the gates of a kernel

Each of the six passes takes the gate that its look-back found out of the
block and puts a copy of it behind the visited gate; four of them also
replace the visited gate by a copy.  A copy has no negated controls.  So a
run over a kernel without negated controls reorders the operations, and it
moves only gates that were found.

A run does not return if it reads the index of a block argument, which no
operation defines.  The last part says when this does not happen, from the
operands that are read at each visit.
-/

namespace MQSSPasses.Passes.MovePermutation

open MQSSPasses.General.TracedComputation
open MQSSPasses.General.OperationTree
open MQSSPasses.General.Reordering
open MQSSPasses.Quake.Syntax
open MQSSPasses.Quake.Operations
open MQSSPasses.Passes.Rewriting
open MQSSPasses.Passes.Matchers

variable {A : Type}

/-! ## The passes -/

/-- The passes that commute two gates. -/
inductive CommutePass where
  | CxX
  | XCx
  | CxRx
  | RxCx
  | CxZ
  | ZCx
  deriving DecidableEq, Repr

def CommutePass.rewriting : CommutePass → RewritingPass
  | .CxX => .CommuteCxX
  | .XCx => .CommuteXCx
  | .CxRx => .CommuteCxRx
  | .RxCx => .CommuteRxCx
  | .CxZ => .CommuteCxZ
  | .ZCx => .CommuteZCx

def CommutePass.matcher : CommutePass → Matcher A
  | .CxX => commuteOperation .x .x 1 1 0 1
  | .XCx => commuteOperation .x .x 0 1 1 1
  | .CxRx => commuteOperation .x .rx 1 1 0 1
  | .RxCx => commuteOperation .rx .x 0 1 1 1
  | .CxZ => commuteCNotZ
  | .ZCx => commuteZCNot

theorem CommutePass.matchers (pass : CommutePass) :
    (pass.rewriting.matchers : List (Matcher A)) = [pass.matcher] := by
  cases pass <;> rfl

/-! ## Reorderings of a block -/

/-- The operation without the attribute for negated controls. -/
def unmarked (operation : Op A) : Op A :=
  match asOperator operation with
  | some gate =>
      Gate.op { gate with negatedQubitControls := none }
  | none => operation

theorem unmarked_of_gate {operation : Op A} {gate : Gate A}
    (isGate : asOperator operation = some gate) :
    unmarked operation =
      (Gate.create gate.kind gate.isAdj gate.parameters gate.controls
        gate.targets).op := by
  rw [unmarked, isGate]
  rfl

theorem unmarked_create (kind : GateKind) (isAdj : Bool)
    (parameters : List (FloatValue A))
    (controls targets : List QuantumValue) :
    unmarked (Gate.create kind isAdj parameters controls targets).op =
      (Gate.create kind isAdj parameters controls targets).op := rfl

theorem asOperator_unmarked (operation : Op A) :
    asOperator (unmarked operation) =
      (asOperator operation).map fun gate =>
        { gate with negatedQubitControls := none } := by
  cases isGate : asOperator operation with
  | none => rw [unmarked, isGate, isGate]; rfl
  | some gate => rw [unmarked, isGate]; rfl

/-- No gate of the block has a negated control. -/
def AllUnnegated (block : Block A) : Prop :=
  ∀ operation ∈ block, ∀ gate, asOperator operation = some gate →
    gate.Unnegated

theorem unnegated_of_created {block : Block A}
    (created :
      ∀ operation ∈ block, unmarked operation = operation) :
    AllUnnegated block := by
  intro operation member gate isGate
  have performed := congrArg asOperator (created operation member)
  rw [asOperator_unmarked, isGate] at performed
  have plain : { gate with negatedQubitControls := none } = gate :=
    Option.some.inj performed
  rw [← plain]
  rfl

/-- The gates that the recorded edits took from their places. -/
def movedGates (trace : List (Edit A)) : Block A :=
  trace.flatMap fun edit =>
    edit.pairings.map fun pairing => unmarked pairing.found.operation

/-- A copy of the visited gate, or the gate itself. -/
def Restates (operation copy : Op A) : Prop :=
  unmarked copy = unmarked operation ∧
    ∀ gate, asOperator operation = some gate → gate.Unnegated →
      ∀ other, asOperator copy = some other → other.Unnegated

theorem Restates.refl (operation : Op A) :
    Restates operation operation := by
  refine ⟨rfl, ?_⟩
  intro gate isGate unnegated other isOther
  rw [isGate, Option.some.injEq] at isOther
  exact isOther ▸ unnegated

theorem Restates.create {operation : Op A} {gate : Gate A}
    (isGate : asOperator operation = some gate) :
    Restates operation
      (Gate.create gate.kind gate.isAdj gate.parameters gate.controls
        gate.targets).op := by
  refine ⟨(unmarked_of_gate isGate).symm, ?_⟩
  rintro - - - other ⟨⟩
  rfl

/-- A plan that moves the found gate behind the visited one. -/
structure MovesFound (before : Block A) (currentOp : Op A)
    (plan : Plan A) (pairing : Pairing A) : Prop where
  pairings : plan.pairings = [pairing]
  found : pairing.found.Correct before pairing.scanned
  before : plan.before = pairing.found.lower ++ pairing.found.between
  isGate : ∃ gate, asOperator currentOp = some gate
  placed :
    ∃ visited moved,
      plan.current.toList ++ plan.inserted = [visited, moved] ∧
        Restates currentOp visited ∧
        Restates pairing.found.operation moved

theorem commuteOperation_movesFound {T1 T2 : GateKind}
    {nCtrlsOp1 nTgtsOp1 nCtrlsOp2 nTgtsOp2 : ℕ} {before : Block A}
    {currentOp : Op A} {plan : Plan A}
    (planned :
      commuteOperation T1 T2 nCtrlsOp1 nTgtsOp1 nCtrlsOp2 nTgtsOp2 before
        currentOp = .ok (some plan)) :
    ∃ pairing, MovesFound before currentOp plan pairing := by
  simp only [commuteOperation, withGate_eq_some, withPrevious_eq_some,
    except_bind_eq_ok, ite_none_eq_some, return_some_eq] at planned
  rcases planned with
    ⟨currentGate, current, target, -, found, looked, previousGate,
      previous, previousTarget, -, targetPrev, -, targetCurr, -, -, rfl⟩
  have cast := asGate_eq_some.mp (gateOfShape_eq_some.mp current).1
  have previousCast :=
    asGate_eq_some.mp (gateOfShape_eq_some.mp previous).1
  have copied := Restates.create (asOperator_eq_some.mpr cast.1)
  have moved := Restates.create (asOperator_eq_some.mpr previousCast.1)
  rw [cast.2] at copied
  rw [previousCast.2] at moved
  exact ⟨_,
    { pairings := rfl
      found := getPreviousOperationOnTarget_correct looked
      before := rfl
      isGate := ⟨_, asOperator_eq_some.mpr cast.1⟩
      placed := ⟨_, _, rfl, copied, moved⟩ }⟩

/-- A plan that keeps the visited gate and puts a copy behind it. -/
theorem movesFound_of_kept {before : Block A} {currentOp : Op A}
    {kind currentKind : GateKind} {nCtrls nTgts nCtrlsOp nTgtsOp : ℕ}
    {currentGate previousGate : Gate A} {found : Found A}
    {scanned : QuantumValue}
    (compared : List (QuantumValue × QuantumValue))
    (current :
      gateOfShape currentKind nCtrlsOp nTgtsOp currentOp =
        some currentGate)
    (looked :
      getPreviousOperationOnTarget before scanned = .ok (some found))
    (previous :
      gateOfShape kind nCtrls nTgts found.operation = some previousGate) :
    MovesFound before currentOp
      ⟨[⟨found, currentGate, scanned, compared⟩],
        found.lower ++ found.between, some currentOp,
        [(Gate.create kind previousGate.isAdj previousGate.parameters
          previousGate.controls previousGate.targets).op]⟩
      ⟨found, currentGate, scanned, compared⟩ := by
  have cast := asGate_eq_some.mp (gateOfShape_eq_some.mp current).1
  have previousCast :=
    asGate_eq_some.mp (gateOfShape_eq_some.mp previous).1
  have moved := Restates.create (asOperator_eq_some.mpr previousCast.1)
  rw [previousCast.2] at moved
  exact
    { pairings := rfl
      found := getPreviousOperationOnTarget_correct looked
      before := rfl
      isGate := ⟨_, asOperator_eq_some.mpr cast.1⟩
      placed := ⟨_, _, rfl, .refl currentOp, moved⟩ }

theorem commuteCNotZ_movesFound {before : Block A} {currentOp : Op A}
    {plan : Plan A}
    (planned : commuteCNotZ before currentOp = .ok (some plan)) :
    ∃ pairing, MovesFound before currentOp plan pairing := by
  simp only [commuteCNotZ, withGate_eq_some, withPrevious_eq_some,
    except_bind_eq_ok, ite_none_eq_some, return_some_eq] at planned
  rcases planned with
    ⟨currentGate, current, target, -, found, looked, previousGate,
      previous, _, -, _, -, _, -, _, -, _, -, -, rfl⟩
  exact ⟨_, movesFound_of_kept _ current looked previous⟩

theorem commuteZCNot_movesFound {before : Block A} {currentOp : Op A}
    {plan : Plan A}
    (planned : commuteZCNot before currentOp = .ok (some plan)) :
    ∃ pairing, MovesFound before currentOp plan pairing := by
  simp only [commuteZCNot, withGate_eq_some, withPrevious_eq_some,
    except_bind_eq_ok, ite_none_eq_some, return_some_eq] at planned
  rcases planned with
    ⟨currentGate, current, control, -, found, looked, previousGate,
      previous, _, -, _, -, _, -, -, rfl⟩
  exact ⟨_, movesFound_of_kept _ current looked previous⟩

/-- Every plan of the passes moves the found gate. -/
theorem CommutePass.movesFound {pass : CommutePass} {before : Block A}
    {currentOp : Op A} {plan : Plan A}
    (planned : pass.matcher before currentOp = .ok (some plan)) :
    ∃ pairing, MovesFound before currentOp plan pairing := by
  cases pass with
  | CxZ => exact commuteCNotZ_movesFound planned
  | ZCx => exact commuteZCNot_movesFound planned
  | _ => exact commuteOperation_movesFound planned

/-- The first block is the second one with the listed gates moved. -/
def ComesFrom (moves after before : Block A) : Prop :=
  Reordered moves (before.map unmarked) (after.map unmarked) ∧
    (AllUnnegated before → AllUnnegated after)

/-- Carrying out such a plan reorders the block. -/
theorem MovesFound.comesFrom {before : Block A} {currentOp : Op A}
    {plan : Plan A} {pairing : Pairing A}
    (moves : MovesFound before currentOp plan pairing) (rest : Block A) :
    ComesFrom [unmarked pairing.found.operation]
      (plan.before ++ (plan.current.toList ++ plan.inserted) ++ rest)
      (before ++ currentOp :: rest) := by
  rcases moves.placed with ⟨visited, moved, placed, current, copy⟩
  rcases moves.isGate with ⟨gate, isGate⟩
  have position := moves.found.position
  rw [moves.before, placed, position]
  constructor
  · have reordered :=
      Reordered.move (unmarked pairing.found.operation)
        (pairing.found.lower.map unmarked)
        (pairing.found.between.map unmarked ++ [unmarked currentOp])
        (rest.map unmarked)
    simpa [current.1, copy.1] using reordered
  · intro unnegated operation member
    have visitedGood :=
      current.2 gate isGate
        (unnegated currentOp (by simp) gate isGate)
    have movedGood :=
      copy.2 _ moves.found.isGate
        (unnegated pairing.found.operation (by simp) _
          moves.found.isGate)
    simp only [List.mem_append, List.mem_cons, List.not_mem_nil, or_false]
      at member
    rcases member with ((lower | between) | rfl | rfl) | upper
    · exact unnegated operation (by simp [lower])
    · exact unnegated operation (by simp [between])
    · exact visitedGood
    · exact movedGood
    · exact unnegated operation (by simp [upper])

/-- What a path of such edits does to the block. -/
theorem comesFrom_of_leads {start finish : Block A}
    {trace : List (Edit A)}
    (path : Traced.Leads Edit.source Edit.target start trace finish)
    (each :
      ∀ edit ∈ trace,
        ComesFrom (movedGates [edit]) edit.target edit.source) :
    ComesFrom (movedGates trace) finish start := by
  induction path with
  | done state => exact ⟨.refl _, id⟩
  | step edit tail induction =>
      have first := each edit List.mem_cons_self
      have later :=
        induction fun next member =>
          each next (List.mem_cons_of_mem edit member)
      have split (rest : List (Edit A)) :
          movedGates (edit :: rest) =
            movedGates [edit] ++ movedGates rest := by
        simp [movedGates]
      rw [split]
      exact ⟨first.1.trans later.1, fun good => later.2 (first.2 good)⟩

section Runs

variable {pass : CommutePass} {stale : StaleRead} {block : Block A}

/-- Every recorded edit moves one gate. -/
theorem CommutePass.edits
    (flat : ∀ operation ∈ block, operation.blocks = []) :
    ∀ edit ∈ (pass.rewriting.run stale (kernelOf block)).trace,
      ComesFrom (movedGates [edit]) edit.target edit.source := by
  rw [RewritingPass.run, pass.matchers]
  refine operationsOnQuantumKernel_satisfies (fun _ => True) ?_ flat trivial
  intro other member cursor currentOp plan _ visited planned
  rw [List.mem_singleton.mp member] at planned
  rcases CommutePass.movesFound planned with ⟨pairing, moves⟩
  have source := contents_of_visited visited
  have target :
      (plan.apply cursor).contents =
        plan.before ++ (plan.current.toList ++ plan.inserted) ++
          (cursor.inserted ++ cursor.rest) := by
    rw [plan.apply_contents, List.append_assoc plan.before]
  have moved :
      movedGates
          [⟨plan.pairings, cursor.contents,
            (plan.apply cursor).contents⟩] =
        [unmarked pairing.found.operation] := by
    simp [movedGates, moves.pairings]
  refine ⟨?_, trivial⟩
  rw [moved, source, target]
  exact moves.comesFrom (cursor.inserted ++ cursor.rest)

/-- A run that returns has reordered the block. -/
theorem CommutePass.run_comesFrom
    (flat : ∀ operation ∈ block, operation.blocks = [])
    {kernel : Op A}
    (returned :
      (pass.rewriting.run stale (kernelOf block)).outcome = .ok kernel) :
    ∃ result, kernel = kernelOf result ∧
      ComesFrom
        (movedGates (pass.rewriting.run stale (kernelOf block)).trace)
        result block := by
  rcases operationsOnQuantumKernel_leads flat returned with
    ⟨result, equal, path⟩
  exact ⟨result, equal,
    comesFrom_of_leads path (CommutePass.edits flat)⟩

end Runs

/-! ## When a run returns -/

/-- The kind and the number of controls of the gates a pass is for. -/
def CommutePass.visits : CommutePass → GateKind × ℕ
  | .CxX => (.x, 0)
  | .XCx => (.x, 1)
  | .CxRx => (.rx, 0)
  | .RxCx => (.x, 1)
  | .CxZ => (.z, 0)
  | .ZCx => (.x, 1)

/-- The operand along which a pass looks back from such a gate. -/
def CommutePass.scanned (pass : CommutePass) (operation : Op A) :
    Option QuantumValue :=
  (gateOfShape pass.visits.1 pass.visits.2 1 operation).bind fun gate =>
    match pass with
    | .ZCx => gate.controls.head?
    | _ => gate.targets.head?

/--
Every operand that the pass reads at a visit is defined by an operation.
`CommuteCxZ` also reads the control of a CX that it finds.
-/
def CommutePass.ReadsDefined (pass : CommutePass) (before : Block A)
    (operation : Op A) : Prop :=
  ∀ scanned, pass.scanned operation = some scanned →
    LookBackDefined before scanned ∧
      (pass = .CxZ →
        ∀ found gate,
          getPreviousOperationOnTarget before scanned =
              .ok (some found) →
            gateOfShape .x 1 1 found.operation = some gate →
              ∀ control ∈ gate.controls, Defined control)

theorem withPrevious_decides_iff {before : Block A}
    {scanned : QuantumValue}
    {next : Found A → Except Fault (Option (Plan A))} :
    Decides (withPrevious before scanned next) ↔
      LookBackDefined before scanned ∧
        ∀ found,
          getPreviousOperationOnTarget before scanned =
              .ok (some found) →
            Decides (next found) := by
  rw [← getPreviousOperationOnTarget_returns_iff, withPrevious]
  cases getPreviousOperationOnTarget before scanned with
  | error fault => simp [Decides, bind, Except.bind]
  | ok result =>
      cases result <;>
        simp [Decides, bind, Except.bind, pure, Except.pure]

theorem withGate_decides_iff {kind : GateKind} {nCtrls nTgts : ℕ}
    {op : Op A} {next : Gate A → Except Fault (Option (Plan A))} :
    Decides (withGate kind nCtrls nTgts op next) ↔
      ∀ gate, gateOfShape kind nCtrls nTgts op = some gate →
        Decides (next gate) := by
  rw [withGate]
  cases gateOfShape kind nCtrls nTgts op <;>
    simp [Decides, pure, Except.pure]

/-- What a look-back that returned has read of the gate it found. -/
theorem defined_of_found {before : Block A} {scanned : QuantumValue}
    (defined : LookBackDefined before scanned) {found : Found A}
    (looked :
      getPreviousOperationOnTarget before scanned = .ok (some found))
    {kind : GateKind} {nCtrls : ℕ} {gate : Gate A}
    (shape : gateOfShape kind nCtrls 1 found.operation = some gate)
    {target : QuantumValue} (operand : element gate.targets 0 = .ok target) :
    IndexReadable scanned ∧ IndexReadable target := by
  have correct := getPreviousOperationOnTarget_correct looked
  have same :=
    found_gate_eq correct (gateOfShape_eq_some.mp shape).1
  have targets :=
    eq_singleton_of_element (gateOfShape_eq_some.mp shape).2.2 operand
  have read :=
    defined _ _ _ _ correct.position correct.isGate correct.passed
  rw [same, targets, List.singleton_append, searchDefined_cons] at read
  exact ⟨indexReadable_iff.mpr read.1, indexReadable_iff.mpr read.2.1⟩

theorem element_zero {values : List QuantumValue}
    (single : values.length = 1) :
    ∃ value, element values 0 = .ok value ∧ values = [value] := by
  rcases List.length_eq_one_iff.mp single with ⟨value, rfl⟩
  exact ⟨value, rfl, rfl⟩

/-- `commuteOperation` decides exactly if the look-back returns. -/
theorem commuteOperation_decides_iff {T1 T2 : GateKind}
    {nCtrlsOp1 nCtrlsOp2 : ℕ} {before : Block A} {operation : Op A} :
    Decides
        (commuteOperation T1 T2 nCtrlsOp1 1 nCtrlsOp2 1 before
          operation) ↔
      ∀ gate, gateOfShape T2 nCtrlsOp2 1 operation = some gate →
        ∀ target, element gate.targets 0 = .ok target →
          LookBackDefined before target := by
  rw [commuteOperation, withGate_decides_iff]
  refine forall₂_congr fun gate shape => ?_
  rcases element_zero (gateOfShape_eq_some.mp shape).2.2 with
    ⟨target, operand, -⟩
  simp only [operand, Except.ok.injEq, forall_eq']
  change Decides (withPrevious before target _) ↔ _
  rw [withPrevious_decides_iff]
  refine and_iff_left_of_imp fun defined found looked => ?_
  apply withGate_decides
  intro previousGate previous
  apply Decides.bind (element_decides (by
    have := (gateOfShape_eq_some.mp previous).2.2
    omega))
  intro previousTarget previousOperand
  have readable :=
    defined_of_found defined looked previous previousOperand
  apply Decides.bind readable.2
  intro targetPrev _
  apply Decides.bind readable.1
  intro targetCurr _
  exact .ite (.pure _) (.pure _)

/-- `commuteCNotZ` also reads the control of a CX that it finds. -/
theorem commuteCNotZ_decides_iff {before : Block A} {operation : Op A} :
    Decides (commuteCNotZ before operation) ↔
      ∀ gate, gateOfShape .z 0 1 operation = some gate →
        ∀ target, element gate.targets 0 = .ok target →
          LookBackDefined before target ∧
            ∀ found previousGate,
              getPreviousOperationOnTarget before target =
                  .ok (some found) →
                gateOfShape .x 1 1 found.operation = some previousGate →
                  ∀ control ∈ previousGate.controls, Defined control := by
  rw [commuteCNotZ, withGate_decides_iff]
  refine forall₂_congr fun gate shape => ?_
  rcases element_zero (gateOfShape_eq_some.mp shape).2.2 with
    ⟨target, operand, -⟩
  simp only [operand, Except.ok.injEq, forall_eq']
  change Decides (withPrevious before target _) ↔ _
  rw [withPrevious_decides_iff]
  refine and_congr_right fun defined => forall_congr' fun found => ?_
  rw [forall_comm]
  refine forall_congr' fun looked => ?_
  rw [withGate_decides_iff]
  refine forall₂_congr fun previousGate previous => ?_
  rcases (gateOfShape_eq_some.mp previous).2 with
    ⟨controlCount, targetCount⟩
  rcases element_zero controlCount with ⟨control, controlOperand, controls⟩
  rcases element_zero targetCount with ⟨other, otherOperand, -⟩
  rcases defined_of_found defined looked previous otherOperand with
    ⟨⟨scannedIndex, scannedRead⟩, otherIndex, otherRead⟩
  have only :
      (∀ value ∈ previousGate.controls, Defined value) ↔
        IndexReadable control := by
    rw [controls, indexReadable_iff]
    simp
  rw [only, otherOperand, controlOperand]
  change Decides (qubitIndex other >>= _) ↔ _
  rw [otherRead]
  change Decides (qubitIndex control >>= _) ↔ _
  constructor
  · rintro ⟨result, returned⟩
    rcases except_bind_eq_ok.mp returned with ⟨index, read, -⟩
    exact ⟨index, read⟩
  · intro readable
    apply Decides.bind readable
    intro controlPrev _
    apply Decides.bind ⟨scannedIndex, scannedRead⟩
    intro targetCurr _
    exact .ite (.pure _) (.pure _)

/-- `commuteZCNot` decides exactly if the look-back returns. -/
theorem commuteZCNot_decides_iff {before : Block A} {operation : Op A} :
    Decides (commuteZCNot before operation) ↔
      ∀ gate, gateOfShape .x 1 1 operation = some gate →
        ∀ control, element gate.controls 0 = .ok control →
          LookBackDefined before control := by
  rw [commuteZCNot, withGate_decides_iff]
  refine forall₂_congr fun gate shape => ?_
  rcases element_zero (gateOfShape_eq_some.mp shape).2.1 with
    ⟨control, operand, -⟩
  simp only [operand, Except.ok.injEq, forall_eq']
  change Decides (withPrevious before control _) ↔ _
  rw [withPrevious_decides_iff]
  refine and_iff_left_of_imp fun defined found looked => ?_
  apply withGate_decides
  intro previousGate previous
  rcases element_zero (gateOfShape_eq_some.mp previous).2.2 with
    ⟨previousTarget, previousOperand, -⟩
  have readable :=
    defined_of_found defined looked previous previousOperand
  apply Decides.bind ⟨previousTarget, previousOperand⟩
  intro value read
  cases previousOperand.symm.trans read
  apply Decides.bind readable.2
  intro targetPrev _
  apply Decides.bind readable.1
  intro controlCurr _
  exact .ite (.pure _) (.pure _)

theorem head?_eq_some_iff {values : List QuantumValue}
    {value : QuantumValue} :
    values.head? = some value ↔ element values 0 = .ok value := by
  rw [element_eq_ok, List.head?_eq_getElem?]

/-- A visit does not break exactly if what it reads is defined. -/
theorem CommutePass.decides_iff {pass : CommutePass} {before : Block A}
    {operation : Op A} :
    Decides (pass.matcher before operation) ↔
      pass.ReadsDefined before operation := by
  rw [ReadsDefined]
  simp only [scanned, Option.bind_eq_some_iff, forall_exists_index,
    and_imp]
  rw [forall_comm]
  cases pass with
  | CxZ =>
      refine Iff.trans commuteCNotZ_decides_iff ?_
      simp only [visits, head?_eq_some_iff, forall_const]
      exact forall_congr' fun gate => forall_comm
  | ZCx =>
      refine Iff.trans commuteZCNot_decides_iff ?_
      simp only [visits, head?_eq_some_iff, reduceCtorEq, false_imp_iff,
        and_true]
      exact forall_congr' fun gate => forall_comm
  | _ =>
      refine Iff.trans commuteOperation_decides_iff ?_
      simp only [visits, head?_eq_some_iff, reduceCtorEq, false_imp_iff,
        and_true]
      exact forall_congr' fun gate => forall_comm

/-- A fold returns exactly if the pass decides at each visit. -/
theorem foldlM_returns_iff {matcher : Matcher A} {block visited : Block A} :
    (∃ result, block.foldlM (advance matcher) visited = .ok result) ↔
      ∀ done operation rest before,
        block = done ++ operation :: rest →
          done.foldlM (advance matcher) visited = .ok before →
            Decides (matcher before operation) := by
  induction block generalizing visited with
  | nil =>
      refine iff_of_true ⟨visited, rfl⟩ ?_
      intro done operation rest before split
      cases done <;> cases split
  | cons operation rest induction =>
      rw [List.foldlM_cons]
      cases advanced : advance matcher visited operation with
      | error fault =>
          refine iff_of_false (by simp [bind, Except.bind]) ?_
          intro each
          rcases each [] operation rest visited rfl rfl with
            ⟨decision, decided⟩
          rw [advance_eq_error.mp advanced] at decided
          cases decided
      | ok after =>
          change (∃ result, rest.foldlM (advance matcher) after = _) ↔ _
          rw [induction]
          have decided : Decides (matcher visited operation) := by
            rcases advance_eq_ok.mp advanced with
              ⟨kept, -⟩ | ⟨plan, planned, -⟩
            · exact ⟨_, kept⟩
            · exact ⟨_, planned⟩
          constructor
          · intro each done other upper before split returned
            cases done with
            | nil =>
                cases split
                cases returned
                exact decided
            | cons first done =>
                cases split
                rw [List.foldlM_cons, advanced] at returned
                exact each done other upper before rfl returned
          · intro each done other upper before split returned
            refine each (operation :: done) other upper before
              (by rw [split]; rfl) ?_
            rw [List.foldlM_cons, advanced]
            exact returned

/-- Every operand which the pass reads at some visit is defined. -/
def CommutePass.AlwaysReadsDefined (pass : CommutePass)
    (block : Block A) : Prop :=
  ∀ done operation rest before,
    block = done ++ operation :: rest →
      done.foldlM (advance pass.matcher) [] = .ok before →
        pass.ReadsDefined before operation

/-! ### Blocks without arguments as operands -/

/-- Every operand of a gate of the block is defined by an operation. -/
def OperandsDefined (block : Block A) : Prop :=
  ∀ operation ∈ block, ∀ gate, asOperator operation = some gate →
    ∀ operand ∈ gate.qubits, Defined operand

theorem qubits_of_unmarked {operation other : Op A} {gate : Gate A}
    (same : unmarked other = unmarked operation)
    (isGate : asOperator operation = some gate) :
    ∃ otherGate, asOperator other = some otherGate ∧
      otherGate.qubits = gate.qubits := by
  have performed := congrArg asOperator same
  rw [asOperator_unmarked, asOperator_unmarked, isGate] at performed
  rcases Option.map_eq_some_iff.mp performed with
    ⟨otherGate, otherIsGate, equal⟩
  have qubits := congrArg Gate.qubits equal
  exact ⟨otherGate, otherIsGate, qubits⟩

/-- The operands stay what they are in a reordering. -/
theorem OperandsDefined.of_perm {before after : Block A}
    (defined : OperandsDefined before)
    (same : (after.map unmarked).Perm (before.map unmarked)) :
    OperandsDefined after := by
  intro operation member gate isGate operand inside
  have listed :=
    same.mem_iff.mp (List.mem_map_of_mem member)
  rcases List.mem_map.mp listed with ⟨other, otherMember, equal⟩
  rcases qubits_of_unmarked equal isGate with
    ⟨otherGate, otherIsGate, qubits⟩
  refine defined other otherMember otherGate otherIsGate operand ?_
  rw [qubits]
  exact inside

theorem CommutePass.run_outcome {pass : CommutePass} (stale : StaleRead)
    {block : Block A} (flat : ∀ operation ∈ block, operation.blocks = []) :
    (pass.rewriting.run stale (kernelOf block)).outcome =
      (block.foldlM (advance pass.matcher) []).map kernelOf := by
  rw [RewritingPass.run, pass.matchers]
  exact operationsOnQuantumKernel_outcome flat

/-- Along such a block no visit reads an argument. -/
theorem OperandsDefined.alwaysReads (pass : CommutePass) {block : Block A}
    (defined : OperandsDefined block)
    (flat : ∀ operation ∈ block, operation.blocks = []) :
    pass.AlwaysReadsDefined block := by
  rintro done operation rest before rfl returned
  have outcome :=
    @CommutePass.run_outcome A pass .stops done fun other member =>
      flat other (List.mem_append_left _ member)
  rw [returned] at outcome
  rcases
    CommutePass.run_comesFrom
      (fun other member => flat other (List.mem_append_left _ member))
      outcome with
    ⟨result, equal, reordered, -⟩
  cases equal
  have behind : OperandsDefined before :=
    OperandsDefined.of_perm
      (fun other member => defined other (List.mem_append_left _ member))
      reordered.perm
  intro scanned reads
  rcases Option.bind_eq_some_iff.mp reads with ⟨gate, shape, first⟩
  have isGate :=
    asOperator_eq_some.mpr
      (asGate_eq_some.mp (gateOfShape_eq_some.mp shape).1).1
  have operand : scanned ∈ gate.qubits := by
    cases pass with
    | ZCx => exact List.mem_append_left _ (List.mem_of_head? first)
    | _ => exact List.mem_append_right _ (List.mem_of_head? first)
  have scannedDefined :=
    defined operation (by simp) gate isGate scanned operand
  refine ⟨lookBackDefined_of_defined scannedDefined behind, ?_⟩
  intro _ found other looked otherShape control member
  have correct := getPreviousOperationOnTarget_correct looked
  have otherIsGate :=
    asOperator_eq_some.mpr
      (asGate_eq_some.mp (gateOfShape_eq_some.mp otherShape).1).1
  refine behind found.operation (by rw [correct.position]; simp) other
    otherIsGate control ?_
  exact List.mem_append_left _ member

/-! ## What the passes return -/

/--
The run returns the operations of the block, none lost and none doubled,
and all but the gates it moved stand in their order.
-/
def ReturnsReordering (pass : CommutePass) (stale : StaleRead)
    (block : Block A) : Prop :=
  ∃ result,
    (pass.rewriting.run stale (kernelOf block)).outcome =
      .ok (kernelOf result) ∧
    (result.map unmarked).Perm (block.map unmarked) ∧
    Reordered
      (movedGates (pass.rewriting.run stale (kernelOf block)).trace)
      (block.map unmarked) (result.map unmarked) ∧
    AllUnnegated result

/-- A run returns a reordering exactly if no visit reads an argument. -/
theorem returnsReordering_iff (pass : CommutePass) (stale : StaleRead)
    {block : Block A} (flat : ∀ operation ∈ block, operation.blocks = [])
    (unnegated : AllUnnegated block) :
    ReturnsReordering pass stale block ↔ pass.AlwaysReadsDefined block := by
  have outcome := @CommutePass.run_outcome A pass stale block flat
  have returns :
      (∃ result, block.foldlM (advance pass.matcher) [] = .ok result) ↔
        pass.AlwaysReadsDefined block := by
    rw [foldlM_returns_iff]
    simp only [CommutePass.decides_iff]
    rfl
  rw [← returns]
  constructor
  · rintro ⟨result, returned, -⟩
    rw [outcome] at returned
    cases folded : block.foldlM (advance pass.matcher) [] with
    | error fault =>
        rw [folded] at returned
        cases returned
    | ok result => exact ⟨result, rfl⟩
  · rintro ⟨result, folded⟩
    rw [folded] at outcome
    rcases CommutePass.run_comesFrom flat outcome with
      ⟨other, equal, reordered, good⟩
    cases equal
    exact ⟨result, outcome, reordered.perm, reordered, good unnegated⟩

/-! ### Two kernels -/

/-- A qubit of a register of size two. -/
def ofTwo (index : ℤ) : QuantumValue :=
  .extractRef (.veqAlloca 0 2) (.constant index)

/-- A CX with a gate behind it on its target. -/
def crossed : Block ℤ :=
  [(Gate.create .x false [] [ofTwo 0] [ofTwo 1]).op,
    (Gate.create .x false [] [] [ofTwo 1]).op]

theorem crossed_returnsReordering :
    ReturnsReordering .CxX .stops crossed := by
  have flat : ∀ operation ∈ crossed, operation.blocks = [] := by
    simp [crossed, Gate.op, Node.leaf, Node.blocks]
  have created : ∀ operation ∈ crossed, unmarked operation = operation := by
    simp [crossed, unmarked_create]
  have defined : OperandsDefined crossed := by
    simp [OperandsDefined, crossed, Gate.op, asOperator, Node.leaf,
      Node.label, Gate.qubits, Gate.create, ofTwo, Defined]
  exact (returnsReordering_iff .CxX .stops flat
    (unnegated_of_created created)).mpr (defined.alwaysReads .CxX flat)

/-- The look-back from the second gate reads a qubit passed in. -/
def onArgument : Block ℤ :=
  [(Gate.create .h false [] [] [.refArgument 0]).op,
    (Gate.create .x false [] [] [ofTwo 0]).op]

theorem onArgument_breaks :
    (∀ operation ∈ onArgument, operation.blocks = []) ∧
      AllUnnegated onArgument ∧
      (RewritingPass.CommuteCxX.run .stops
        (kernelOf onArgument)).outcome = .error .nullOperation ∧
      ¬ ReturnsReordering .CxX .stops onArgument := by
  have broken :
      (RewritingPass.CommuteCxX.run .stops
        (kernelOf onArgument)).outcome = .error .nullOperation := rfl
  have created :
      ∀ operation ∈ onArgument, unmarked operation = operation := by
    simp [onArgument, unmarked_create]
  refine ⟨?_, unnegated_of_created created, broken, ?_⟩
  · simp [onArgument, Gate.op, Node.leaf, Node.blocks]
  · rintro ⟨result, returned, -⟩
    rw [CommutePass.rewriting, broken] at returned
    cases returned

end MQSSPasses.Passes.MovePermutation
