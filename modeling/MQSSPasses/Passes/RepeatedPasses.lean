import MQSSPasses.General.SettlingMoves
import MQSSPasses.Passes.PipelineMeaning

/-!
# Passes that are repeated until nothing changes

A pass manager may run a pipeline again and again.  The rewriting passes
work in opposite directions: some move a controlled `X` behind the gates it
commutes with and some in front of them, some move a Hadamard gate behind
the Pauli gates and some in front of them, and one decomposition undoes the
other.

A pipeline whose passes agree on the directions settles.  The edits take
gates out or bring pairs of gates into order, so however often the pipeline
is repeated, it edits a kernel no more than a fixed number of times, and
then it has broken or leaves the kernel alone.  Of the passes on their own
only `ReverseCx` does not settle.
-/

noncomputable section

namespace MQSSPasses.Passes.RepeatedPasses

open MQSSPasses.General.TracedComputation
open MQSSPasses.General.IntConversion
open MQSSPasses.General.OperationTree
open MQSSPasses.General.TreeReadings
open MQSSPasses.General.SettlingMoves
open MQSSPasses.General.QubitOperators
open MQSSPasses.Quake.Syntax
open MQSSPasses.Quake.Operations
open MQSSPasses.Passes.Rewriting
open MQSSPasses.Passes.Matchers
open MQSSPasses.Passes.Decompositions
open MQSSPasses.Passes.Cancellation
open MQSSPasses.Passes.Confinement
open MQSSPasses.Passes.Pipelines
open MQSSPasses.Passes.PipelineMeaning
open MQSSPasses.Quake.Semantics

variable {A : Type}

/-! ## Directions -/

/-- The kind of a gate and the numbers of its controls and targets. -/
abbrev Shape : Type := GateKind × ℕ × ℕ

def shape (gate : Gate A) : Shape :=
  (gate.kind, gate.controls.length, gate.targets.length)

/-- Where a pipeline moves gates, and what it decomposes. -/
structure Directions where
  cxLater : Bool
  hadamardLater : Bool
  cxToCz : Bool
  deriving DecidableEq, Repr

/-- The pass keeps to the directions. -/
def KernelPass.Follows (directions : Directions) : KernelPass → Prop
  | .rewriting .CommuteCxRx | .rewriting .CommuteCxX
  | .rewriting .CommuteCxZ => directions.cxLater = true
  | .rewriting .CommuteRxCx | .rewriting .CommuteXCx
  | .rewriting .CommuteZCx => directions.cxLater = false
  | .rewriting .SwitchHX | .rewriting .SwitchHY
  | .rewriting .SwitchHZ => directions.hadamardLater = true
  | .rewriting .SwitchPauliH | .rewriting .SwitchXH
  | .rewriting .SwitchYH | .rewriting .SwitchZH =>
      directions.hadamardLater = false
  | .rewriting _ => True
  | .decomposing .ReverseCx => False
  | .decomposing .CxToHCzH => directions.cxToCz = true
  | .decomposing .CzToHCxH => directions.cxToCz = false

def isCx (shape : Shape) : Bool :=
  shape = (.x, 1, 1)

/-- The gates that are moved past a controlled `X`. -/
def passesCx (shape : Shape) : Bool :=
  shape = (.x, 0, 1) || shape = (.z, 0, 1) || shape = (.rx, 0, 1)

def isHadamard (shape : Shape) : Bool :=
  shape = (.h, 0, 1)

def isPauli (shape : Shape) : Bool :=
  shape = (.x, 0, 1) || shape = (.y, 0, 1) || shape = (.z, 0, 1)

namespace Directions

def cxSorting (directions : Directions) : Sorting Shape :=
  if directions.cxLater then ⟨isCx, passesCx⟩ else ⟨passesCx, isCx⟩

def hadamardSorting (directions : Directions) : Sorting Shape :=
  if directions.hadamardLater then ⟨isHadamard, isPauli⟩
  else ⟨isPauli, isHadamard⟩

/-- The gate that is decomposed weighs more than what it is made into. -/
def weight (directions : Directions) (shape : Shape) : ℕ :=
  if shape = (if directions.cxToCz then (.x, 1, 1) else (.z, 1, 1)) then 4
  else 1

/--
A gate that is moved past a controlled `X` may pass Hadamard gates on other
qubits, but a controlled `X` passes neither these nor Pauli gates.  So what
comes first depends on which of the two is moved.
-/
def ranking (directions : Directions) : Ranking Shape where
  weight := directions.weight
  weight_pos := by
    intro shape
    unfold weight
    split_ifs <;> decide
  first :=
    if directions.cxLater then directions.hadamardSorting
    else directions.cxSorting
  second :=
    if directions.cxLater then directions.cxSorting
    else directions.hadamardSorting

end Directions

/-! ## The edits of a pass as steps -/

/-- The shapes of the gates of a block, in order. -/
def shapesOf (block : Block A) : List Shape :=
  (census.readBlock block).gates.map shape

theorem shapesOf_append (first second : Block A) :
    shapesOf (first ++ second) = shapesOf first ++ shapesOf second := by
  rw [shapesOf, Reading.readBlock_append, census_join_gates,
    List.map_append]
  rfl

/-- A gate without regions. -/
theorem shapesOf_gate {operation : Op A} {gate : Gate A}
    (isGate : asOperator operation = some gate)
    (flat : (census.readNode operation).flat) :
    shapesOf [operation] = [shape gate] := by
  have leaf :=
    (census_node operation).2.mp flat operation
      (by cases operation; rw [postOrder]; simp) (by simp [isGate])
  have own : (census.readNode operation).gates = [gate] := by
    rw [(census_node operation).1, Node.eq_leaf leaf, gatesIn,
      Node.leaf, postOrder, postOrderBlocks, List.nil_append]
    have same :
        asOperator (.mk operation.label [] : Op A) = some gate := isGate
    rw [List.filterMap_cons_some same, List.filterMap_nil]
  rw [shapesOf, Reading.readBlock_singleton, own]
  rfl

theorem shapesOf_ops (gates : List (Gate A)) :
    shapesOf (gates.map Gate.op) = gates.map shape := by
  induction gates with
  | nil => rfl
  | cons gate rest induction =>
      have flat : (census.readNode gate.op).flat :=
        (census_node gate.op).2.mpr (by
          intro operation member _
          have same : operation = gate.op := by
            simpa [Gate.op, Node.leaf, postOrder, postOrderBlocks] using
              member
          rw [same]
          rfl)
      rw [List.map_cons, ← List.singleton_append, shapesOf_append,
        shapesOf_gate rfl flat, induction]
      rfl

theorem shapesOf_single (gate : Gate A) :
    shapesOf [gate.op] = [shape gate] :=
  shapesOf_ops [gate]

/-- Every plan of the matcher is a step for the gates behind the walk. -/
def Descends (ranking : Ranking Shape) (matcher : Matcher A) : Prop :=
  ∀ before currentOp plan,
    matcher before currentOp = .ok (some plan) →
      (census.readBlock (before ++ [currentOp])).flat →
        ranking.Step (shapesOf (before ++ [currentOp]))
          (shapesOf
            (plan.before ++ plan.current.toList ++ plan.inserted))

section Plans

variable {ranking : Ranking Shape}
variable {before : Block A} {currentOp : Op A} {found : Found A}
variable {currentGate : Gate A} {scanned : QuantumValue}

/-- The found gate stands before the visited one. -/
theorem shapesOf_found (correct : found.Correct before scanned)
    (isGate : asOperator currentOp = some currentGate)
    (flat : (census.readBlock (before ++ [currentOp])).flat) :
    shapesOf (before ++ [currentOp]) =
      shapesOf found.lower ++ ([shape found.gate] ++
        (shapesOf found.between ++ ([shape currentGate] ++ []))) ∧
      shapesOf [currentOp] = [shape currentGate] := by
  have split :
      before ++ [currentOp] =
        found.lower ++ ([found.operation] ++
          (found.between ++ [currentOp])) := by
    rw [correct.position]
    simp
  rw [split] at flat ⊢
  rw [Reading.readBlock_append, census_join_flat,
    Reading.readBlock_append, census_join_flat, Reading.readBlock_append,
    census_join_flat, Reading.readBlock_singleton,
    Reading.readBlock_singleton] at flat
  have own := shapesOf_gate isGate flat.2.2.2
  refine ⟨?_, own⟩
  rw [shapesOf_append, shapesOf_append, shapesOf_append, own,
    shapesOf_gate correct.isGate flat.2.1, List.append_nil]

/-- A plan that puts two gates in the place of the found and visited one. -/
theorem step_exchange (correct : found.Correct before scanned)
    (isGate : asOperator currentOp = some currentGate)
    (flat : (census.readBlock (before ++ [currentOp])).flat)
    {left moved : Gate A}
    (permitted :
      ranking.Permits (shape found.gate) (shape currentGate) (shape moved)
        (shape left)) :
    ranking.Step (shapesOf (before ++ [currentOp]))
      (shapesOf ((found.lower ++ found.between) ++ [] ++
        [left.op, moved.op])) := by
  have inserted :
      shapesOf [left.op, moved.op] = [shape left] ++ ([shape moved] ++ []) :=
    shapesOf_ops [left, moved]
  rw [(shapesOf_found correct isGate flat).1, List.append_assoc,
    List.nil_append, List.append_assoc, shapesOf_append, shapesOf_append,
    inserted]
  exact .moves permitted _ _ []

/-- A plan that moves the found gate behind the visited one. -/
theorem step_move (correct : found.Correct before scanned)
    (isGate : asOperator currentOp = some currentGate)
    (flat : (census.readBlock (before ++ [currentOp])).flat)
    {moved : Gate A}
    (permitted :
      ranking.Permits (shape found.gate) (shape currentGate) (shape moved)
        (shape currentGate)) :
    ranking.Step (shapesOf (before ++ [currentOp]))
      (shapesOf ((found.lower ++ found.between) ++ [currentOp] ++
        [moved.op])) := by
  have inserted : shapesOf [moved.op] = [shape moved] ++ [] :=
    shapesOf_ops [moved]
  have gates := shapesOf_found correct isGate flat
  rw [gates.1, List.append_assoc, List.append_assoc, shapesOf_append,
    shapesOf_append, shapesOf_append, inserted, gates.2]
  exact .moves permitted _ _ []

/-- A plan that takes out more gates than it puts in. -/
theorem step_lighter {plan : Plan A} {count : ℕ}
    (removes :
      RemovesGates count (before ++ [currentOp])
        (plan.before ++ plan.current.toList))
    (flat : (census.readBlock (before ++ [currentOp])).flat)
    (less : ranking.totalWeight (shapesOf plan.inserted) < count) :
    ranking.Step (shapesOf (before ++ [currentOp]))
      (shapesOf (plan.before ++ plan.current.toList ++ plan.inserted)) := by
  rcases removes.census flat with ⟨-, sublist, length⟩
  have weight := ranking.totalWeight_of_sublist (sublist.map shape)
  rw [List.length_map, List.length_map] at weight
  apply Ranking.Step.lighter
  rw [shapesOf_append, ranking.totalWeight_append]
  unfold shapesOf at less ⊢
  omega

end Plans

/-! ### The matchers -/

section Matchers

variable {ranking : Ranking Shape}

theorem shape_eq {kind : GateKind} {nCtrls nTgts : ℕ} {operation : Op A}
    {gate : Gate A}
    (shaped : gateOfShape kind nCtrls nTgts operation = some gate) :
    shape gate = (kind, nCtrls, nTgts) := by
  rcases gateOfShape_eq_some.mp shaped with ⟨-, controls, targets⟩
  rw [shape, kind_of_shape shaped, controls, targets]

/-- A gate on the operands of another one. -/
theorem shape_recreate {kind other : GateKind} {nCtrls nTgts : ℕ}
    {isAdj : Bool} {parameters : List (FloatValue A)} {gate : Gate A}
    (same : shape gate = (kind, nCtrls, nTgts)) :
    shape
        (Gate.create other isAdj parameters gate.controls gate.targets) =
      (other, nCtrls, nTgts) := by
  have counts : (shape gate).2 = (nCtrls, nTgts) := by rw [same]
  exact Prod.ext rfl counts

theorem castGate_eq_ok {kind : GateKind} {operation : Op A}
    {gate : Gate A} :
    castGate kind operation = .ok gate ↔
      asGate kind operation = some gate := by
  unfold castGate
  cases asGate kind operation <;> simp

/-- The found gate, read through a checked cast. -/
theorem shape_found {before : Block A} {scanned : QuantumValue}
    {found : Found A} {kind : GateKind} {nCtrls nTgts : ℕ} {gate : Gate A}
    (looked :
      getPreviousOperationOnTarget before scanned = .ok (some found))
    (shaped :
      gateOfShape kind nCtrls nTgts found.operation = some gate) :
    found.gate = gate ∧ shape gate = (kind, nCtrls, nTgts) :=
  ⟨found_gate_eq (getPreviousOperationOnTarget_correct looked)
      (gateOfShape_eq_some.mp shaped).1,
    shape_eq shaped⟩

theorem patternCancellation_descends {T1 T2 : GateKind}
    {nCtrlsOp1 nTgtsOp1 nCtrlsOp2 nTgtsOp2 : ℕ} :
    Descends ranking
      (patternCancellation T1 T2 nCtrlsOp1 nTgtsOp1 nCtrlsOp2 nTgtsOp2 :
        Matcher A) := by
  intro before currentOp plan planned flat
  rcases patternCancellation_inversion planned with
    ⟨found, currentGate, target, cancels⟩
  have made := cancels.planned
  subst made
  have removed :=
    removesGates_both (getPreviousOperationOnTarget_correct cancels.looked)
      (asOperator_of_shape cancels.current)
  exact step_lighter removed flat (by decide : 0 < 2)

theorem commuteOperation_descends {T1 T2 : GateKind}
    {nCtrlsOp1 nTgtsOp1 nCtrlsOp2 nTgtsOp2 : ℕ}
    (permitted :
      ranking.Permits (T1, nCtrlsOp1, nTgtsOp1) (T2, nCtrlsOp2, nTgtsOp2)
        (T1, nCtrlsOp1, nTgtsOp1) (T2, nCtrlsOp2, nTgtsOp2)) :
    Descends ranking
      (commuteOperation T1 T2 nCtrlsOp1 nTgtsOp1 nCtrlsOp2 nTgtsOp2 :
        Matcher A) := by
  intro before currentOp plan planned flat
  simp only [commuteOperation, withGate_eq_some, withPrevious_eq_some,
    except_bind_eq_ok, ite_none_eq_some, return_some_eq] at planned
  rcases planned with
    ⟨currentGate, current, target, -, found, looked, previousGate,
      previous, _, -, _, -, _, -, -, rfl⟩
  rcases shape_found looked previous with ⟨same, previousShape⟩
  have currentShape := shape_eq current
  refine step_exchange (getPreviousOperationOnTarget_correct looked)
    (asOperator_of_shape current) flat ?_
  rw [same, shape_recreate previousShape, shape_recreate currentShape,
    previousShape, currentShape]
  exact permitted

theorem commuteCNotZ_descends
    (permitted :
      ranking.Permits (.x, 1, 1) (.z, 0, 1) (.x, 1, 1) (.z, 0, 1)) :
    Descends ranking (commuteCNotZ : Matcher A) := by
  intro before currentOp plan planned flat
  simp only [commuteCNotZ, withGate_eq_some, withPrevious_eq_some,
    except_bind_eq_ok, ite_none_eq_some, return_some_eq] at planned
  rcases planned with
    ⟨currentGate, current, target, -, found, looked, previousGate, previous,
      _, -, _, -, _, -, _, -, _, -, -, rfl⟩
  rcases shape_found looked previous with ⟨same, previousShape⟩
  refine step_move (getPreviousOperationOnTarget_correct looked)
    (asOperator_of_shape current) flat ?_
  rw [same, shape_recreate previousShape, previousShape, shape_eq current]
  exact permitted

theorem commuteZCNot_descends
    (permitted :
      ranking.Permits (.z, 0, 1) (.x, 1, 1) (.z, 0, 1) (.x, 1, 1)) :
    Descends ranking (commuteZCNot : Matcher A) := by
  intro before currentOp plan planned flat
  simp only [commuteZCNot, withGate_eq_some, withPrevious_eq_some,
    except_bind_eq_ok, ite_none_eq_some, return_some_eq] at planned
  rcases planned with
    ⟨currentGate, current, control, -, found, looked, previousGate,
      previous, _, -, _, -, _, -, -, rfl⟩
  rcases shape_found looked previous with ⟨same, previousShape⟩
  refine step_move (getPreviousOperationOnTarget_correct looked)
    (asOperator_of_shape current) flat ?_
  rw [same, shape_recreate previousShape, previousShape, shape_eq current]
  exact permitted

theorem patternSwitch_descends {T1 T2 T3 T4 : GateKind}
    (permitted :
      ranking.Permits (T1, 0, 1) (T2, 0, 1) (T4, 0, 1) (T3, 0, 1)) :
    Descends ranking (patternSwitch T1 T2 T3 T4 : Matcher A) := by
  intro before currentOp plan planned flat
  simp only [patternSwitch, withGate_eq_some, withPrevious_eq_some,
    except_bind_eq_ok, ite_none_eq_some, return_some_eq] at planned
  rcases planned with
    ⟨currentGate, current, target, -, found, looked, prevGate, cast, counts,
      rfl⟩
  have previous :
      gateOfShape T1 0 1 found.operation = some prevGate :=
    gateOfShape_eq_some.mpr ⟨castGate_eq_ok.mp cast, counts⟩
  rcases shape_found looked previous with ⟨same, previousShape⟩
  have currentShape := shape_eq current
  refine step_exchange (getPreviousOperationOnTarget_correct looked)
    (asOperator_of_shape current) flat ?_
  rw [same, shape_recreate previousShape, shape_recreate currentShape,
    previousShape, currentShape]
  exact permitted

theorem SwitchPauliHOperation_descends
    (permitted :
      ∀ kind pauli, switchedPauli kind = some pauli →
        ranking.Permits (kind, 0, 1) (.h, 0, 1) (pauli, 0, 1) (.h, 0, 1)) :
    Descends ranking (SwitchPauliHOperation : Matcher A) := by
  intro before currentOp plan planned flat
  simp only [SwitchPauliHOperation, withGate_eq_some,
    withPrevious_eq_some, except_bind_eq_ok] at planned
  rcases planned with
    ⟨currentGate, current, target, -, found, looked, planned⟩
  cases switched : switchedPauli found.gate.kind with
  | none => simp [switched, pure, Except.pure] at planned
  | some pauli =>
      simp only [switched, ite_none_eq_some, return_some_eq] at planned
      rcases planned with ⟨⟨controls, targets⟩, rfl⟩
      have foundShape : shape found.gate = (found.gate.kind, 0, 1) := by
        rw [shape, controls, targets]
      refine step_move (getPreviousOperationOnTarget_correct looked)
        (asOperator_of_shape current) flat ?_
      rw [shape_recreate foundShape, foundShape, shape_eq current]
      exact permitted _ _ switched

/-- A Hadamard gate on either side is taken out with the gate between. -/
theorem replaceConjugated_descends {middle replacement : GateKind}
    (light : ranking.weight (replacement, 0, 1) < 3) :
    Descends ranking (replaceConjugated middle replacement : Matcher A) := by
  intro before currentOp plan planned flat
  simp only [replaceConjugated, withGate_eq_some, withPrevious_eq_some,
    except_bind_eq_ok, ite_none_eq_some, return_some_eq] at planned
  rcases planned with
    ⟨currentGate, current, target, -, found, looked, prevGate, -, earlier,
      lookedAgain, _, -, -, rfl⟩
  have correct := getPreviousOperationOnTarget_correct looked
  have correctAgain := getPreviousOperationOnTarget_correct lookedAgain
  have inner :
      RemovesGates 1 (found.lower ++ found.between)
        (earlier.lower ++ earlier.between ++ found.between) :=
    (RemovesGates.found correctAgain).append (.refl _)
  have removed :=
    ((RemovesGates.found correct).trans inner).append
      (.single (asOperator_of_shape current))
  refine step_lighter removed flat ?_
  rw [shapesOf_single, shape_recreate (shape_eq current),
    Ranking.totalWeight_singleton]
  exact light

theorem fusePhase_descends (adjoint : Bool)
    (light : ranking.weight (.s, 0, 1) < 2) :
    Descends ranking (fusePhase adjoint : Matcher A) := by
  intro before currentOp plan planned flat
  simp only [fusePhase, withGate_eq_some, withPrevious_eq_some,
    except_bind_eq_ok, ite_none_eq_some, return_some_eq] at planned
  rcases planned with
    ⟨currentGate, current, target, -, found, looked, prevGate, previous, -,
      rfl⟩
  have removed :=
    removesGates_both (getPreviousOperationOnTarget_correct looked)
      (asOperator_of_shape current)
  refine step_lighter removed flat ?_
  rw [shapesOf_single, shape_recreate (shape_eq previous),
    Ranking.totalWeight_singleton]
  exact light

/-- What a decomposition inserts weighs less than the gate it replaces. -/
theorem decompose_descends {kind : GateKind}
    {made : QuantumValue → QuantumValue → Block A}
    (light :
      ∀ control target,
        ranking.totalWeight (shapesOf (made control target)) <
          ranking.weight (kind, 1, 1)) :
    Descends ranking (decompose kind made) := by
  intro before currentOp plan planned flat
  simp only [decompose, withGate_eq_some, except_bind_eq_ok,
    return_some_eq] at planned
  rcases planned with ⟨gate, shaped, control, -, target, -, rfl⟩
  rw [Reading.readBlock_append, census_join_flat,
    Reading.readBlock_singleton] at flat
  apply Ranking.Step.lighter
  rw [Option.toList_none, List.append_nil, shapesOf_append,
    shapesOf_append, Ranking.totalWeight_append,
    Ranking.totalWeight_append,
    shapesOf_gate (asOperator_of_shape shaped) flat.2, shape_eq shaped,
    Ranking.totalWeight_singleton]
  exact Nat.add_lt_add_left (light control target) _

end Matchers

/-! ### The passes -/

section Passes

variable {directions : Directions}

theorem permits_cx_later (later : directions.cxLater = true)
    {passed : Shape} (passes : passesCx passed = true) :
    directions.ranking.Permits (.x, 1, 1) passed (.x, 1, 1) passed := by
  rcases directions with ⟨_, hadamardLater, cxToCz⟩
  cases later
  simp only [passesCx, Bool.or_eq_true, decide_eq_true_eq] at passes
  rcases passes with (rfl | rfl) | rfl <;>
    cases hadamardLater <;> cases cxToCz <;> decide

theorem permits_cx_earlier (earlier : directions.cxLater = false)
    {item : Shape} (passes : passesCx item = true) :
    directions.ranking.Permits item (.x, 1, 1) item (.x, 1, 1) := by
  rcases directions with ⟨_, hadamardLater, cxToCz⟩
  cases earlier
  simp only [passesCx, Bool.or_eq_true, decide_eq_true_eq] at passes
  rcases passes with (rfl | rfl) | rfl <;>
    cases hadamardLater <;> cases cxToCz <;> decide

/-- A Pauli gate and what a Hadamard gate turns it into. -/
theorem switchedPauli_cases {kind pauli : GateKind}
    (switched : switchedPauli kind = some pauli) :
    kind = .x ∧ pauli = .z ∨ kind = .y ∧ pauli = .y ∨
      kind = .z ∧ pauli = .x := by
  unfold switchedPauli at switched
  split at switched <;> cases switched <;> simp

theorem permits_hadamard_later (later : directions.hadamardLater = true)
    {kind pauli : GateKind} (switched : switchedPauli kind = some pauli) :
    directions.ranking.Permits (.h, 0, 1) (kind, 0, 1) (.h, 0, 1)
      (pauli, 0, 1) := by
  rcases directions with ⟨cxLater, _, cxToCz⟩
  cases later
  rcases switchedPauli_cases switched with
    ⟨rfl, rfl⟩ | ⟨rfl, rfl⟩ | ⟨rfl, rfl⟩ <;>
    cases cxLater <;> cases cxToCz <;> decide

theorem permits_hadamard_earlier
    (earlier : directions.hadamardLater = false) {kind pauli : GateKind}
    (switched : switchedPauli kind = some pauli) :
    directions.ranking.Permits (kind, 0, 1) (.h, 0, 1) (pauli, 0, 1)
      (.h, 0, 1) := by
  rcases directions with ⟨cxLater, _, cxToCz⟩
  cases earlier
  rcases switchedPauli_cases switched with
    ⟨rfl, rfl⟩ | ⟨rfl, rfl⟩ | ⟨rfl, rfl⟩ <;>
    cases cxLater <;> cases cxToCz <;> decide

/-- Only a gate with one control and one target may weigh more. -/
theorem weight_uncontrolled (kind : GateKind) :
    directions.ranking.weight (kind, 0, 1) = 1 := by
  refine if_neg ?_
  intro same
  split_ifs at same <;> cases same

theorem decomposition_descends {decomposition : DecompositionPass}
    (follows :
      KernelPass.Follows directions (.decomposing decomposition)) :
    Descends directions.ranking
      (decomposition.matcher : Matcher A) := by
  rcases directions with ⟨cxLater, hadamardLater, cxToCz⟩
  cases decomposition with
  | ReverseCx => exact follows.elim
  | CxToHCzH =>
      cases follows
      refine decompose_descends fun control target => ?_
      have made :
          shapesOf (hCzH control target : Block A) =
            [(.h, 0, 1), (.z, 1, 1), (.h, 0, 1)] :=
        shapesOf_ops
          [Gate.create .h false [] [] [target],
            Gate.create .z false [] [control] [target],
            Gate.create .h false [] [] [target]]
      rw [made]
      decide +revert
  | CzToHCxH =>
      cases follows
      refine decompose_descends fun control target => ?_
      have made :
          shapesOf (hCxH control target : Block A) =
            [(.h, 0, 1), (.x, 1, 1), (.h, 0, 1)] :=
        shapesOf_ops
          [Gate.create .h false [] [] [target],
            Gate.create .x false [] [control] [target],
            Gate.create .h false [] [] [target]]
      rw [made]
      decide +revert

/-- Every edit of a pass that keeps to the directions is a step. -/
theorem KernelPass.descends {pass : KernelPass}
    (follows : KernelPass.Follows directions pass) :
    ∀ matcher ∈ (pass.matchers : List (Matcher A)),
      Descends directions.ranking matcher := by
  intro matcher member
  cases pass with
  | decomposing pass =>
      rw [List.mem_singleton.mp member]
      exact decomposition_descends follows
  | rewriting pass =>
      cases pass <;>
        simp only [KernelPass.matchers, RewritingPass.matchers,
          List.mem_cons, List.not_mem_nil, or_false] at member
      case ReductionPattern =>
          rcases member with
            rfl | rfl | rfl | rfl | rfl | rfl | rfl | rfl <;>
            exact patternCancellation_descends
      all_goals subst member
      case CancellationDoubleCx =>
          exact patternCancellation_descends
      case CommuteCxRx | CommuteCxX =>
          exact commuteOperation_descends (permits_cx_later follows rfl)
      case CommuteRxCx | CommuteXCx =>
          exact commuteOperation_descends (permits_cx_earlier follows rfl)
      case CommuteCxZ =>
          exact commuteCNotZ_descends (permits_cx_later follows rfl)
      case CommuteZCx =>
          exact commuteZCNot_descends (permits_cx_earlier follows rfl)
      case SwitchHX | SwitchHY | SwitchHZ =>
          exact patternSwitch_descends (permits_hadamard_later follows rfl)
      case SwitchXH | SwitchYH | SwitchZH =>
          exact patternSwitch_descends
            (permits_hadamard_earlier follows rfl)
      case SwitchPauliH =>
          exact SwitchPauliHOperation_descends fun _ _ switched =>
            permits_hadamard_earlier follows switched
      case HXHToZ | HZHToX =>
          refine replaceConjugated_descends ?_
          rw [weight_uncontrolled]
          decide
      case SZToSAdj | SAdjZToS =>
          refine fusePhase_descends _ ?_
          rw [weight_uncontrolled]
          decide

end Passes

/-! ## The edits of a run as steps -/

/-- The shapes of the gates of a kernel, in the order of the walk. -/
def shapesIn (kernel : Op A) : List Shape :=
  (gatesIn kernel).map shape

theorem census_steps (ranking : Ranking Shape) :
    (census : Reading (OpData A) (Census A)).Changes
      fun (edits : List (Edit A)) before after =>
        before.flat →
          after.flat ∧
            ranking.Steps edits.length (before.gates.map shape)
              (after.gates.map shape) :=
  @census_changes_of A
    (fun count before after =>
      ranking.Steps count (before.map shape) (after.map shape))
    (fun _ => .none _)
    (fun head tail => head.trans tail)
    (fun steps left right => by
      rw [List.map_append, List.map_append, List.map_append,
        List.map_append]
      exact steps.around _ _)

/-- A run of a pass makes one step with every edit, also if it breaks. -/
theorem KernelPass.steps {directions : Directions} {pass : KernelPass}
    (follows : KernelPass.Follows directions pass) (stale : StaleRead)
    {kernel : Op A} (leaves : LeafGates kernel) :
    ∃ shapes,
      directions.ranking.Steps (pass.run stale kernel).trace.length
          (shapesIn kernel) shapes ∧
        ∀ result, (pass.run stale kernel).outcome = .ok result →
          LeafGates result ∧ shapesIn result = shapes := by
  have calls :
      Reading.CallChanges (census : Reading (OpData A) (Census A)) _
        (rewriteInOrder stale pass.matchers) :=
    rewriteInOrder_changes (census_steps directions.ranking)
      fun matcher member before currentOp plan planned edit flat =>
        ⟨((pass.balanced matcher member before currentOp plan
            planned).derives edit flat).1,
          .single
            (KernelPass.descends follows matcher member before currentOp
              plan planned flat)⟩
  rcases (census_steps directions.ranking).walkNode calls kernel with
    ⟨last, changed, same⟩
  rcases changed ((census_node kernel).2.mpr leaves) with ⟨flat, steps⟩
  rw [(census_node kernel).1] at steps
  refine ⟨last.gates.map shape, steps, ?_⟩
  intro result returned
  rw [← same result returned] at flat ⊢
  rw [(census_node result).1]
  exact ⟨(census_node result).2.mp flat, rfl⟩

theorem runPipeline_steps {directions : Directions} (stale : StaleRead)
    {passes : List KernelPass}
    (follows : ∀ pass ∈ passes, KernelPass.Follows directions pass)
    {kernel : Op A} (leaves : LeafGates kernel) :
    ∃ shapes,
      directions.ranking.Steps
        (runPipeline stale passes kernel).trace.length (shapesIn kernel)
        shapes := by
  induction passes generalizing kernel with
  | nil => exact ⟨_, .none _⟩
  | cons pass later induction =>
      rw [List.forall_mem_cons] at follows
      rcases KernelPass.steps follows.1 stale leaves with
        ⟨shapes, steps, returns⟩
      rw [runPipeline]
      cases first :
          ((pass.run stale kernel).mapTrace (Prod.mk pass)).outcome with
      | error fault =>
          refine ⟨shapes, ?_⟩
          rw [Traced.bind_of_error first, Traced.mapTrace_trace,
            List.length_map]
          exact steps
      | ok next =>
          rcases returns next first with ⟨nextLeaves, rfl⟩
          rcases induction follows.2 nextLeaves with ⟨last, further⟩
          refine ⟨last, ?_⟩
          rw [Traced.bind_of_ok first, List.length_append,
            Traced.mapTrace_trace, List.length_map]
          exact steps.trans further

/-! ## Runs without edits -/

/-- A tree as it is. -/
def copy : Reading (OpData A) (Block A) :=
  { skeleton with node := fun label blocks => [.mk label blocks] }

mutual

theorem copy_node : ∀ operation : Op A, copy.readNode operation = [operation]
  | .mk label blocks => by
      rw [Reading.readNode, copy_blocks blocks]
      rfl

theorem copy_blocks :
    ∀ blocks : List (Block A), copy.readBlocks blocks = blocks
  | [] => by rw [Reading.readBlocks]
  | block :: others => by
      rw [Reading.readBlocks, copy_block block, copy_blocks others]

theorem copy_block : ∀ block : Block A, copy.readBlock block = block
  | [] => copy.readBlock_nil
  | operation :: rest => by
      rw [Reading.readBlock_cons, copy_node operation, copy_block rest]
      rfl

end

theorem copy_changes {Event : Type} :
    (copy : Reading (OpData A) (Block A)).Changes
      fun (events : List Event) before after =>
        events = [] → before = after where
  none _ _ := rfl
  compose head tail silent :=
    (head (List.append_eq_nil_iff.mp silent).1).trans
      (tail (List.append_eq_nil_iff.mp silent).2)
  before _ same silent := by rw [same silent]
  after _ same silent := by rw [same silent]
  inside _ _ _ same silent := by rw [same silent]

/-- A run that records no edit returns the kernel it was given. -/
theorem KernelPass.run_silent {pass : KernelPass} {stale : StaleRead}
    {kernel result : Op A}
    (returned : (pass.run stale kernel).outcome = .ok result)
    (silent : (pass.run stale kernel).trace = []) : kernel = result := by
  have calls :
      Reading.CallChanges (copy : Reading (OpData A) (Block A)) _
        (rewriteInOrder stale pass.matchers) :=
    rewriteInOrder_changes copy_changes
      fun _ _ _ _ _ _ _ impossible => absurd impossible (by simp)
  have same :=
    (copy_changes.walkNode calls kernel).of_returned returned silent
  rw [copy_node, copy_node] at same
  exact List.head_eq_of_cons_eq same

theorem runPipeline_silent {stale : StaleRead} {passes : List KernelPass}
    {kernel result : Op A}
    (returned :
      (runPipeline stale passes kernel).outcome = .ok result)
    (silent : (runPipeline stale passes kernel).trace = []) :
    kernel = result := by
  induction passes generalizing kernel with
  | nil =>
      cases returned
      rfl
  | cons pass later induction =>
      rw [runPipeline] at returned silent
      rcases Traced.bind_ok_iff.mp returned with
        ⟨next, first, continued, trace⟩
      rw [trace, List.append_eq_nil_iff, Traced.mapTrace_trace,
        List.map_eq_nil_iff] at silent
      exact (KernelPass.run_silent first silent.1).trans
        (induction continued silent.2)

/-! ## Repetitions -/

/-- A pipeline a number of times in a row. -/
def repeated : ℕ → List KernelPass → List KernelPass
  | 0, _ => []
  | count + 1, passes => passes ++ repeated count passes

theorem repeated_subset {count : ℕ} {passes : List KernelPass} :
    repeated count passes ⊆ passes := by
  induction count with
  | zero => exact List.nil_subset _
  | succ count induction =>
      exact List.append_subset.mpr ⟨List.Subset.refl _, induction⟩

theorem runPipeline_concat (stale : StaleRead)
    (first second : List KernelPass) (kernel : Op A) :
    runPipeline stale (first ++ second) kernel =
      (runPipeline stale first kernel >>= runPipeline stale second) := by
  induction first generalizing kernel with
  | nil => exact (Traced.pure_bind_eq _ _).symm
  | cons pass later induction =>
      rw [List.cons_append, runPipeline, runPipeline,
        Traced.bind_assoc_eq]
      congr 1
      funext next
      exact induction next

/-- The pipeline leaves the kernel alone. -/
def Settled (stale : StaleRead) (passes : List KernelPass)
    (kernel : Op A) : Prop :=
  runPipeline stale passes kernel = ⟨[], .ok kernel⟩

theorem Settled.repeated {stale : StaleRead} {passes : List KernelPass}
    {kernel : Op A} (settled : Settled stale passes kernel) (count : ℕ) :
    Settled stale (repeated count passes) kernel := by
  induction count with
  | zero => rfl
  | succ count induction =>
      unfold Settled at settled induction ⊢
      rw [RepeatedPasses.repeated, runPipeline_concat, settled]
      exact (Traced.pure_bind_eq kernel _).trans induction

/--
A kernel that is still edited was edited in every repetition before.
-/
theorem count_le_or_settled {stale : StaleRead}
    {passes : List KernelPass} {count : ℕ} {kernel result : Op A}
    (returned :
      (runPipeline stale (repeated count passes) kernel).outcome =
        .ok result) :
    count ≤ (runPipeline stale (repeated count passes) kernel).trace.length ∨
      Settled stale passes result := by
  induction count generalizing kernel with
  | zero => exact .inl (Nat.zero_le _)
  | succ count induction =>
      rw [repeated, runPipeline_concat] at returned ⊢
      rcases Traced.bind_ok_iff.mp returned with
        ⟨next, first, continued, trace⟩
      rw [trace, List.length_append]
      by_cases silent : (runPipeline stale passes kernel).trace = []
      · -- The first repetition changes nothing, so no later one does.
        have same := runPipeline_silent first silent
        subst same
        have settled : Settled stale passes kernel := by
          rw [Settled, ← silent, ← first]
        have unchanged := settled.repeated count
        rw [Settled] at unchanged
        rw [unchanged, Except.ok.injEq] at continued
        exact .inr (continued ▸ settled)
      · have edited := List.length_pos_iff.mpr silent
        rcases induction continued with many | settled
        · exact .inl (by omega)
        · exact .inr settled

/-- More edits than this the repetitions do not make. -/
def settlingBound (directions : Directions) (kernel : Op A) : ℕ :=
  directions.ranking.bound (shapesIn kernel)

section Settling

variable {directions : Directions} {stale : StaleRead}
variable {passes : List KernelPass} {kernel : Op A}

theorem edits_le_settlingBound (stale : StaleRead)
    (follows : ∀ pass ∈ passes, KernelPass.Follows directions pass)
    (leaves : LeafGates kernel) (count : ℕ) :
    (runPipeline stale (repeated count passes) kernel).trace.length ≤
      settlingBound directions kernel := by
  rcases runPipeline_steps stale
      (fun pass member => follows pass (repeated_subset member)) leaves with
    ⟨shapes, steps⟩
  exact steps.count_le

/-- After more repetitions than the bound the kernel is settled. -/
theorem settles_beyond
    (follows : ∀ pass ∈ passes, KernelPass.Follows directions pass)
    (leaves : LeafGates kernel) {count : ℕ} {result : Op A}
    (returned :
      (runPipeline stale (repeated count passes) kernel).outcome =
        .ok result)
    (enough : settlingBound directions kernel < count) :
    Settled stale passes result := by
  rcases count_le_or_settled returned with many | settled
  · have few := edits_le_settlingBound stale follows leaves count
    exact absurd (many.trans few) (not_le.mpr enough)
  · exact settled

theorem repeated_add (early late : ℕ) (passes : List KernelPass) :
    repeated (early + late) passes =
      repeated early passes ++ repeated late passes := by
  induction early with
  | zero => rw [Nat.zero_add, repeated, List.nil_append]
  | succ early induction =>
      rw [Nat.add_right_comm, repeated, repeated, induction,
        List.append_assoc]

/--
A pipeline whose passes agree on the directions edits a kernel no more than
a fixed number of times, however often it is repeated.  Once it has been
repeated more often than that, further repetitions do nothing: it has
broken, or it leaves the kernel alone.
-/
theorem repeated_settles
    (follows : ∀ pass ∈ passes, KernelPass.Follows directions pass)
    (leaves : LeafGates kernel) (count : ℕ) :
    (runPipeline stale (repeated count passes) kernel).trace.length ≤
        settlingBound directions kernel ∧
      (settlingBound directions kernel < count →
        ∀ later, count ≤ later →
          runPipeline stale (repeated later passes) kernel =
            runPipeline stale (repeated count passes) kernel) := by
  refine ⟨edits_le_settlingBound stale follows leaves count, ?_⟩
  intro enough later longer
  rcases Nat.exists_eq_add_of_le longer with ⟨more, rfl⟩
  rw [repeated_add, runPipeline_concat]
  cases ended :
      (runPipeline stale (repeated count passes) kernel).outcome with
  | error fault => rw [Traced.bind_of_error ended, ← ended]
  | ok result =>
      have silent :=
        (settles_beyond follows leaves ended enough).repeated more
      rw [Settled] at silent
      rw [Traced.bind_of_ok ended, silent, List.append_nil, ← ended]

end Settling

/-- Two gates in a conditional are exchanged once. -/
theorem conditional_repeated :
    (runPipeline .stops (repeated 2 [.rewriting .SwitchPauliH])
          (conditional plainX plainH)).trace.length ≤
        settlingBound ⟨true, false, true⟩ (conditional plainX plainH) ∧
      (settlingBound ⟨true, false, true⟩ (conditional plainX plainH) < 2 →
        ∀ later, 2 ≤ later →
          runPipeline .stops (repeated later [.rewriting .SwitchPauliH])
              (conditional plainX plainH) =
            runPipeline .stops (repeated 2 [.rewriting .SwitchPauliH])
              (conditional plainX plainH)) :=
  @repeated_settles ℤ ⟨true, false, true⟩ .stops
    [.rewriting .SwitchPauliH] (conditional plainX plainH)
    (List.forall_mem_singleton.mpr rfl) conditional_leafGates 2

/-! ## What a settled kernel looks like -/

section Idle

variable {stale : StaleRead}

variable {visited rest : Block A} {operation : Op A}

/-- A call that records nothing has found nothing to rewrite. -/
theorem rewrite_silent {matcher : Matcher A} {after : Cursor (Op A)}
    (returned :
      (rewrite stale matcher (.enter visited operation rest)).outcome =
        .ok after)
    (silent :
      (rewrite stale matcher (.enter visited operation rest)).trace = []) :
    matcher visited operation = .ok none ∧
      after = .enter visited operation rest := by
  cases decided : matcher visited operation with
  | error fault =>
      simp only [rewrite, Cursor.enter, decided] at returned
      rw [Traced.bind_of_error rfl] at returned
      cases returned
  | ok decision =>
      simp only [rewrite, Cursor.enter, decided, Traced.ofExcept_ok_bind]
        at returned silent
      cases decision with
      | none =>
          cases returned
          exact ⟨rfl, rfl⟩
      | some plan =>
          dsimp only at silent
          rw [Traced.record_bind_trace] at silent
          cases silent

theorem rewriteInOrder_silent {matchers : List (Matcher A)}
    {after : Cursor (Op A)}
    (returned :
      (rewriteInOrder stale matchers
        (.enter visited operation rest)).outcome = .ok after)
    (silent :
      (rewriteInOrder stale matchers
        (.enter visited operation rest)).trace = []) :
    (∀ matcher ∈ matchers, matcher visited operation = .ok none) ∧
      after = .enter visited operation rest := by
  induction matchers with
  | nil =>
      cases returned
      exact ⟨fun _ member => (List.not_mem_nil member).elim, rfl⟩
  | cons matcher others induction =>
      rw [rewriteInOrder] at returned silent
      rcases Traced.bind_ok_iff.mp returned with
        ⟨next, first, continued, trace⟩
      rw [trace, List.append_eq_nil_iff] at silent
      rcases rewrite_silent first silent.1 with ⟨idle, rfl⟩
      rcases induction continued silent.2 with ⟨later, unchanged⟩
      exact ⟨List.forall_mem_cons.mpr ⟨idle, later⟩, unchanged⟩

/-- Where no matcher finds anything, the calls change nothing. -/
theorem rewriteInOrder_idle {matchers : List (Matcher A)}
    (idle : ∀ matcher ∈ matchers, matcher visited operation = .ok none) :
    rewriteInOrder stale matchers (.enter visited operation rest) =
      pure (.enter visited operation rest) := by
  induction matchers with
  | nil => rfl
  | cons matcher others induction =>
      rw [List.forall_mem_cons] at idle
      have called :
          rewrite stale matcher (.enter visited operation rest) =
            pure (.enter visited operation rest) := by
        simp only [rewrite, Cursor.enter, idle.1, Traced.ofExcept_ok_bind]
      rw [rewriteInOrder]
      dsimp only
      rw [called, Traced.pure_bind_eq]
      exact induction idle.2

/-- No matcher finds anything to rewrite at any operation of the block. -/
def Idle (matchers : List (Matcher A)) (block : Block A) : Prop :=
  ∀ before currentOp rest, block = before ++ currentOp :: rest →
    ∀ matcher ∈ matchers, matcher before currentOp = .ok none

theorem walkBlock_silent_iff {matchers : List (Matcher A)}
    {nodes : Block A} (flat : ∀ node ∈ nodes, node.blocks = [])
    (visited : Block A) :
    walkBlock (rewriteInOrder stale matchers) visited nodes =
        ⟨[], .ok (visited ++ nodes)⟩ ↔
      ∀ before currentOp rest, nodes = before ++ currentOp :: rest →
        ∀ matcher ∈ matchers,
          matcher (visited ++ before) currentOp = .ok none := by
  induction nodes generalizing visited with
  | nil =>
      rw [walkBlock, List.append_nil]
      refine iff_of_true rfl ?_
      intro before currentOp rest split
      simp at split
  | cons node rest induction =>
      rw [List.forall_mem_cons] at flat
      have entered :
          (Cursor.enter visited node rest).visited = visited ++ [node] := by
        simp [Cursor.visited, Cursor.enter]
      have onward := induction flat.2 (visited ++ [node])
      rw [List.append_assoc, List.singleton_append] at onward
      rw [walkBlock_cons_of_flat _ flat.1]
      constructor
      · intro silent before currentOp later split
        rcases Traced.bind_ok_iff.mp (congrArg Traced.outcome silent) with
          ⟨cursor, called, continued, trace⟩
        rw [silent] at trace
        rcases List.append_eq_nil_iff.mp trace.symm with
          ⟨callSilent, laterSilent⟩
        rcases rewriteInOrder_silent called callSilent with ⟨idle, rfl⟩
        rw [entered] at continued laterSilent
        cases before with
        | nil =>
            cases split
            rw [List.append_nil]
            exact idle
        | cons first others =>
            rw [List.cons_append, List.cons.injEq] at split
            rcases split with ⟨rfl, split⟩
            have walked :
                walkBlock (rewriteInOrder stale matchers)
                    (visited ++ [node]) rest =
                  ⟨[], .ok (visited ++ node :: rest)⟩ := by
              rw [← laterSilent, ← continued]
            rw [List.append_cons]
            exact onward.mp walked others currentOp later split
      · intro idle
        have here := idle [] node rest rfl
        rw [List.append_nil] at here
        rw [rewriteInOrder_idle here, Traced.pure_bind_eq, entered]
        refine onward.mpr fun before currentOp later split => ?_
        rw [List.append_assoc, List.singleton_append]
        exact idle (node :: before) currentOp later (by rw [split]; rfl)

theorem KernelPass.run_silent_iff {pass : KernelPass} {block : Block A}
    (flat : ∀ operation ∈ block, operation.blocks = []) :
    pass.run stale (kernelOf block) = ⟨[], .ok (kernelOf block)⟩ ↔
      Idle pass.matchers block := by
  have walked :=
    @walkBlock_silent_iff A stale pass.matchers block flat []
  simp only [List.nil_append] at walked
  rw [Idle, ← walked, KernelPass.run, operationsOnQuantumKernel, kernelOf]
  rw [walkNode, walkBlocks, walkBlocks]
  constructor
  · intro silent
    rcases Traced.bind_ok_iff.mp (congrArg Traced.outcome silent) with
      ⟨blocks, inner, made, trace⟩
    rw [silent] at trace
    have innerSilent := (List.append_eq_nil_iff.mp trace.symm).1
    rcases Traced.bind_ok_iff.mp inner with
      ⟨result, first, continued, innerTrace⟩
    rw [innerTrace] at innerSilent
    have firstSilent := (List.append_eq_nil_iff.mp innerSilent).1
    cases continued
    cases made
    rw [← firstSilent, ← first]
  · intro silent
    rw [silent]
    rfl

/-- A kernel is settled exactly if there is nothing left to rewrite. -/
theorem settled_iff_idle {passes : List KernelPass} {block : Block A}
    (flat : ∀ operation ∈ block, operation.blocks = []) :
    Settled stale passes (kernelOf block) ↔
      ∀ pass ∈ passes, Idle (pass.matchers : List (Matcher A)) block := by
  induction passes with
  | nil => exact iff_of_true rfl (fun _ member => by cases member)
  | cons pass later induction =>
      rw [List.forall_mem_cons, ← induction,
        ← @KernelPass.run_silent_iff A stale pass block flat]
      unfold Settled
      rw [runPipeline]
      constructor
      · intro settled
        rcases Traced.bind_ok_iff.mp (congrArg Traced.outcome settled) with
          ⟨next, first, continued, trace⟩
        rw [settled] at trace
        rcases List.append_eq_nil_iff.mp trace.symm with
          ⟨mapped, laterSilent⟩
        rw [Traced.mapTrace_trace, List.map_eq_nil_iff] at mapped
        have same := KernelPass.run_silent first mapped
        subst same
        rw [Traced.mapTrace_outcome] at first
        exact ⟨by rw [← mapped, ← first],
          by rw [← laterSilent, ← continued]⟩
      · rintro ⟨silent, settled⟩
        rw [silent]
        exact (Traced.pure_bind_eq _ _).trans settled

end Idle

/-! ## Running a pipeline until it settles -/

theorem leafGates_of_flat {block : Block A}
    (flat : ∀ operation ∈ block, operation.blocks = []) :
    LeafGates (kernelOf block) := by
  intro operation member isGate
  rw [kernelOf, postOrder_of_one_block _ flat] at member
  rcases List.mem_append.mp member with inner | outer
  · exact flat operation inner
  · rw [List.mem_singleton.mp outer] at isGate
    cases isGate

/--
On a straight-line kernel, a pipeline of passes that never break and agree
on the directions can be repeated until nothing is left to rewrite.  If no
edit disturbs a pair and an `int` holds the index of every qubit, the kernel
reached has the unitary of the input up to a phase.
-/
theorem repeated_reaches_settled {n : ℕ}
    {interp : Interpretation A (Fin n)} {veq : QuantumValue}
    {directions : Directions} {stale : StaleRead}
    {passes : List KernelPass}
    (complete : ∀ pass ∈ passes, NeverBreaks pass)
    (follows : ∀ pass ∈ passes, KernelPass.Follows directions pass)
    {block : Block A} (straight : StraightLine interp veq block) :
    ∃ result,
      (runPipeline stale
          (repeated (settlingBound directions (kernelOf block) + 1) passes)
          (kernelOf block)).outcome = .ok (kernelOf result) ∧
        StraightLine interp veq result ∧
        (∀ pass ∈ passes, Idle (pass.matchers : List (Matcher A)) result) ∧
        (n ≤ intRange →
          (∀ event ∈
            (runPipeline stale
              (repeated (settlingBound directions (kernelOf block) + 1)
                passes) (kernelOf block)).trace,
            Undisturbing interp event.1 event.2) →
          EqualUpToPhase (denote interp result) (denote interp block)) := by
  have leaves :=
    leafGates_of_flat fun operation member =>
      (straight operation member).flat
  have allComplete :
      ∀ pass ∈ repeated (settlingBound directions (kernelOf block) + 1)
        passes, NeverBreaks pass :=
    fun pass member => complete pass (repeated_subset member)
  rcases runPipeline_neverBreaks stale allComplete straight with
    ⟨result, returned, resultStraight⟩
  have settled :=
    settles_beyond follows leaves returned (Nat.lt_succ_self _)
  refine ⟨result, returned, resultStraight, ?_, ?_⟩
  · exact (settled_iff_idle fun operation member =>
      (resultStraight operation member).flat).mp settled
  · intro indexed undisturbing
    rcases runPipeline_realises indexed ⟨block, rfl, straight, .refl _⟩
      undisturbing returned with ⟨_, same, -, preserved⟩
    cases same
    exact preserved

theorem flipBetween_settled :
    ∃ result,
      (runPipeline .stops
          (repeated
            (settlingBound ⟨false, true, true⟩ (kernelOf flipBetween) + 1)
            commuteThenCancel)
          (kernelOf flipBetween)).outcome = .ok (kernelOf result) ∧
        StraightLine pairInterpretation (.veqAlloca 0 2) result ∧
        (∀ pass ∈ commuteThenCancel,
          Idle (pass.matchers : List (Matcher ℤ)) result) ∧
        (2 ≤ intRange →
          (∀ event ∈
            (runPipeline .stops
              (repeated
                (settlingBound ⟨false, true, true⟩ (kernelOf flipBetween) +
                  1)
                commuteThenCancel) (kernelOf flipBetween)).trace,
            Undisturbing pairInterpretation event.1 event.2) →
          EqualUpToPhase (denote pairInterpretation result)
            (denote pairInterpretation flipBetween)) := by
  refine repeated_reaches_settled ?_ ?_ flipBetween_straightLine
  · exact List.forall_mem_cons.mpr ⟨.moving .commuteXCx,
      List.forall_mem_singleton.mpr .cancellationDoubleCx⟩
  · exact List.forall_mem_cons.mpr ⟨rfl,
      List.forall_mem_singleton.mpr trivial⟩

/-! ## Single passes -/

/-- Directions a pass keeps to, if there are any. -/
def ownDirections : KernelPass → Directions
  | .rewriting .CommuteRxCx | .rewriting .CommuteXCx
  | .rewriting .CommuteZCx => ⟨false, true, true⟩
  | .rewriting .SwitchPauliH | .rewriting .SwitchXH
  | .rewriting .SwitchYH | .rewriting .SwitchZH => ⟨true, false, true⟩
  | .decomposing .CzToHCxH => ⟨true, true, false⟩
  | _ => ⟨true, true, true⟩

theorem follows_ownDirections {pass : KernelPass}
    (other : pass ≠ .decomposing .ReverseCx) :
    KernelPass.Follows (ownDirections pass) pass := by
  cases pass with
  | rewriting pass => cases pass <;> trivial
  | decomposing pass =>
      cases pass with
      | ReverseCx => exact absurd rfl other
      | CxToHCzH | CzToHCxH => rfl

/-- A block without regions that has a gate `ReverseCx` replaces. -/
structure HasCx (block : Block A) : Prop where
  flat : ∀ operation ∈ block, operation.blocks = []
  present :
    ∃ operation ∈ block, (gateOfShape .x 1 1 operation).isSome = true

theorem reversed_flat {operation : Op A} (flat : operation.blocks = []) :
    ∀ created ∈ replacement .x reversedCx operation, created.blocks = [] := by
  cases shaped : gateOfShape .x 1 1 operation with
  | none =>
      rw [replacement_of_other shaped]
      exact List.forall_mem_singleton.mpr flat
  | some gate =>
      rcases operands_of_shape shaped with
        ⟨control, target, controls, targets⟩
      rw [replacement_of_shape shaped controls targets, reversedCx]
      simp [createH, createControlled, Gate.op]

/-- The reversed gate is a controlled `X` again, among four others. -/
theorem reversed_of_cx {operation : Op A}
    (isCx : (gateOfShape .x 1 1 operation).isSome = true) :
    1 < (replacement .x reversedCx operation).length ∧
      ∃ created ∈ replacement .x reversedCx operation,
        (gateOfShape .x 1 1 created).isSome = true := by
  rcases Option.isSome_iff_exists.mp isCx with ⟨gate, shaped⟩
  rcases operands_of_shape shaped with ⟨control, target, controls, targets⟩
  rw [replacement_of_shape shaped controls targets]
  refine ⟨?_, createControlled .x target control, ?_, rfl⟩
  · simp [reversedCx]
  · simp [reversedCx]

theorem HasCx.reversed {block : Block A} (has : HasCx block) :
    HasCx (block.flatMap (replacement .x reversedCx)) ∧
      block.length < (block.flatMap (replacement .x reversedCx)).length := by
  rcases has with ⟨flat, operation, member, isCx⟩
  rcases reversed_of_cx isCx with ⟨longer, created, made, createdCx⟩
  have nonempty (other : Op A) :
      1 ≤ (replacement .x reversedCx other).length := by
    cases shaped : gateOfShape .x 1 1 other with
    | none => rw [replacement_of_other shaped, List.length_singleton]
    | some gate => exact (reversed_of_cx (by rw [shaped]; rfl)).1.le
  refine ⟨⟨?_, created, List.mem_flatMap.mpr ⟨operation, member, made⟩,
    createdCx⟩, ?_⟩
  · intro other inResult
    rcases List.mem_flatMap.mp inResult with ⟨source, there, fromSource⟩
    exact reversed_flat (flat source there) other fromSource
  · rw [List.length_flatMap]
    calc
      block.length = (block.map fun _ => 1).sum := by simp
      _ < (block.map fun other =>
            (replacement .x reversedCx other).length).sum :=
        List.sum_lt_sum _ _ (fun other _ => nonempty other)
          ⟨operation, member, longer⟩

theorem reverseCx_run (stale : StaleRead) {block : Block A}
    (flat : ∀ operation ∈ block, operation.blocks = []) :
    (KernelPass.run (.decomposing .ReverseCx) stale
        (kernelOf block)).outcome =
      .ok (kernelOf (block.flatMap (replacement .x reversedCx))) :=
  decompose_run stale .x reversedCx flat

theorem HasCx.reverseCx_once (stale : StaleRead) {block : Block A}
    (has : HasCx block) :
    (runPipeline stale (RepeatedPasses.repeated 1 [.decomposing .ReverseCx])
        (kernelOf block)).outcome =
      .ok (kernelOf (block.flatMap (replacement .x reversedCx))) := by
  have first :
      ((KernelPass.run (.decomposing .ReverseCx) stale
          (kernelOf block)).mapTrace
        (Prod.mk (KernelPass.decomposing .ReverseCx))).outcome =
        .ok (kernelOf (block.flatMap (replacement .x reversedCx))) :=
    reverseCx_run stale has.flat
  rw [RepeatedPasses.repeated, List.singleton_append, runPipeline,
    Traced.bind_of_ok first]
  rfl

theorem HasCx.repeated {stale : StaleRead} {block : Block A}
    (has : HasCx block) (count : ℕ) :
    ∃ result,
      (runPipeline stale
          (RepeatedPasses.repeated count [.decomposing .ReverseCx])
          (kernelOf block)).outcome = .ok (kernelOf result) ∧
        HasCx result := by
  induction count generalizing block with
  | zero => exact ⟨block, rfl, has⟩
  | succ count induction =>
      rcases induction has.reversed.1 with ⟨result, returned, still⟩
      refine ⟨result, ?_, still⟩
      rw [Nat.add_comm, repeated_add, runPipeline_concat,
        Traced.bind_of_ok (has.reverseCx_once stale)]
      exact returned

/--
Repeated often enough, the pass has broken or returned a kernel that it
leaves alone.
-/
def AlwaysSettles (A : Type) (pass : KernelPass) : Prop :=
  ∀ (stale : StaleRead) (kernel : Op A), LeafGates kernel →
    ∃ bound, ∀ count, bound < count →
      (∃ fault,
        (runPipeline stale (repeated count [pass]) kernel).outcome =
          .error fault) ∨
        ∃ result,
          (runPipeline stale (repeated count [pass]) kernel).outcome =
              .ok result ∧
            Settled stale [pass] result

/-- Every further repetition returns a longer kernel. -/
def AlwaysGrows (A : Type) (pass : KernelPass) : Prop :=
  ∀ (stale : StaleRead) (block : Block A), HasCx block → ∀ count,
    ∃ result longer,
      (runPipeline stale (repeated count [pass]) (kernelOf block)).outcome =
          .ok (kernelOf result) ∧
        (runPipeline stale (repeated (count + 1) [pass])
            (kernelOf block)).outcome = .ok (kernelOf longer) ∧
        result.length < longer.length

theorem reverseCx_alwaysGrows :
    AlwaysGrows A (.decomposing .ReverseCx) := by
  intro stale block has count
  rcases has.repeated count with ⟨result, returned, still⟩
  refine ⟨result, _, returned, ?_, still.reversed.2⟩
  have once := HasCx.reverseCx_once stale still
  rw [repeated_add, runPipeline_concat, Traced.bind_of_ok returned]
  exact once

/-- A kernel of one gate that `ReverseCx` replaces. -/
def oneCx (A : Type) : Block A :=
  [createControlled .x (.refAlloca 0) (.refAlloca 1)]

theorem oneCx_hasCx : HasCx (oneCx A) :=
  ⟨List.forall_mem_singleton.mpr rfl, _, List.mem_singleton_self _, rfl⟩

/-- A pass that makes the kernel longer does not leave it alone. -/
theorem AlwaysGrows.not_alwaysSettles {pass : KernelPass}
    (grows : AlwaysGrows A pass) : ¬AlwaysSettles A pass := by
  intro settles
  rcases settles .stops (kernelOf (oneCx A))
      (leafGates_of_flat oneCx_hasCx.flat) with ⟨bound, ends⟩
  rcases grows .stops (oneCx A) oneCx_hasCx (bound + 1) with
    ⟨result, longer, returned, further, less⟩
  rcases ends (bound + 1) (Nat.lt_succ_self bound) with
    ⟨fault, broken⟩ | ⟨last, ended, settled⟩
  · rw [returned] at broken
    cases broken
  · rw [returned, Except.ok.injEq] at ended
    subst ended
    have unchanged := settled.repeated 1
    rw [Settled] at unchanged
    rw [repeated_add, runPipeline_concat, Traced.bind_of_ok returned,
      unchanged, Except.ok.injEq] at further
    injection further with _ blocks
    rw [List.head_eq_of_cons_eq blocks] at less
    exact lt_irrefl _ less

theorem alwaysSettles_of_ne {pass : KernelPass}
    (other : pass ≠ .decomposing .ReverseCx) : AlwaysSettles A pass := by
  intro stale kernel leaves
  refine ⟨settlingBound (ownDirections pass) kernel, ?_⟩
  intro count enough
  cases ended :
      (runPipeline stale (repeated count [pass]) kernel).outcome with
  | error fault => exact .inl ⟨fault, rfl⟩
  | ok result =>
      exact .inr ⟨result, rfl,
        settles_beyond
          (List.forall_mem_singleton.mpr (follows_ownDirections other))
          leaves ended enough⟩

/--
A pass settles on every kernel exactly if it is not `ReverseCx`, which makes
every kernel with a controlled `X` longer with every repetition.
-/
theorem alwaysSettles_iff (pass : KernelPass) :
    (AlwaysSettles A pass ↔ pass ≠ .decomposing .ReverseCx) ∧
      (AlwaysGrows A pass ↔ pass = .decomposing .ReverseCx) := by
  refine ⟨⟨?_, alwaysSettles_of_ne⟩, ⟨?_, ?_⟩⟩
  · rintro settles rfl
    exact reverseCx_alwaysGrows.not_alwaysSettles settles
  · intro grows
    by_contra other
    exact grows.not_alwaysSettles (alwaysSettles_of_ne other)
  · rintro rfl
    exact reverseCx_alwaysGrows

end MQSSPasses.Passes.RepeatedPasses

end
