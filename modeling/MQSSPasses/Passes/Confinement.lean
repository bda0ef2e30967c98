import MQSSPasses.General.DefinedBeforeUse
import MQSSPasses.Passes.NormalizeArgAngle
import MQSSPasses.Passes.RewriterScripts

/-!
# The passes behind the walk

The operations of a kernel are kept at addresses, and the walk reads the
next address before each call.  Every call of a pass is confined: it erases
the visited operation and earlier ones, and inserts right behind the visited
one or, in `NormalizeArgAngle`, before the first operation of the body.  So
every walk visits the operations of the input once and in order, comes to an
end, and leaves what the walk over a list leaves.

A kernel in which every value is defined before its use stays so.  What a
pass removes are gates, which define nothing in memory semantics, and what
it inserts uses the operands of gates that stood no later.
-/

noncomputable section

namespace MQSSPasses.Passes.Confinement

open MQSSPasses.General.TracedComputation
open MQSSPasses.General.OperationTree
open MQSSPasses.General.EarlyIncrementWalk
open MQSSPasses.General.DefinedBeforeUse
open MQSSPasses.Quake.Syntax
open MQSSPasses.Quake.Operations
open MQSSPasses.Passes.Rewriting
open MQSSPasses.Passes.Matchers
open MQSSPasses.Passes.Decompositions
open MQSSPasses.Passes.NormalizeArgAngle
open MQSSPasses.Passes.RewriterScripts

variable {A : Type}

/-! ## The cancellation of null rotations -/

/-- The arithmetic the test for full turns needs. -/
class TurnArithmetic (A : Type) extends AngleArithmetic A where
  fmod : A → A → A
  /-- The comparison with zero. -/
  isZero : A → Bool

def checkDoublePiMultiplies [TurnArithmetic A] (angle : A) : Bool :=
  TurnArithmetic.isZero (TurnArithmetic.fmod angle twoPi)

/-- Erase a rotation all whose angles are full turns. -/
def nullRotationCancellation [TurnArithmetic A] : Matcher A :=
  fun before currentOp =>
    match asOperator currentOp with
    | none => return none
    | some gate =>
        if isRotation gate.kind then do
          let null ← gate.parameters.mapM fun parameter => do
            let param ←
              extractDoubleArgumentValue AngleArithmetic.narrow parameter
            return checkDoublePiMultiplies param ||
              TurnArithmetic.isZero param
          if null.all id then
            return some
              { pairings := []
                before := before
                current := none
                inserted := [] }
          else return none
        else return none

def nullRotationScript : Script A := fun _ =>
  [.eraseOp .visited]

theorem nullRotationCancellation_inversion [TurnArithmetic A]
    {before : Block A} {currentOp : Op A} {plan : Plan A}
    (planned :
      nullRotationCancellation before currentOp = .ok (some plan)) :
    (∃ gate, asOperator currentOp = some gate) ∧
      plan = ⟨[], before, none, []⟩ := by
  unfold nullRotationCancellation at planned
  cases isGate : asOperator currentOp with
  | none => simp [isGate, pure, Except.pure] at planned
  | some gate =>
      refine ⟨⟨gate, rfl⟩, ?_⟩
      simp only [isGate, ite_none_eq_some, except_bind_eq_ok,
        return_some_eq] at planned
      rcases planned with ⟨-, null, -, -, made⟩
      exact made.symm

theorem nullRotation_sound [TurnArithmetic A] :
    Procedure.Sound
      (⟨nullRotationCancellation, nullRotationScript⟩ : Procedure A) := by
  intro memory lower cell upper plan cells planned
  rcases nullRotationCancellation_inversion planned with ⟨-, rfl⟩
  exact (prepared_start cells).erase_visited rfl rfl rfl rfl

/-! ## The normalization of angles at an address -/

section Normalize

variable [AngleArithmetic A]

/-- The constant operation of a parameter. -/
def constantOp (value : FloatValue A) : Op A :=
  .leaf (.constant value)

/--
Create the constants where the builder stands, then the new gate behind the
visited one, and erase the visited one.
-/
def replaceRotation (builder : Option ℕ) (address : ℕ) (newGate : Gate A)
    (memory : Memory (Op A)) : Option (Memory (Op A)) := do
  let constants ←
    Rewriter.performAll address [] ⟨memory, some builder, []⟩
      (newGate.parameters.map fun value => .create (constantOp value))
  let rewriter ←
    Rewriter.performAll address [] ⟨constants.memory, none, []⟩
      [.setInsertionPointAfter .visited, .create newGate.op,
        .eraseOp .visited]
  return rewriter.memory

/--
`normalizeAngleOfRotations` with a builder that stands before an operation.
-/
def normalizeAt (builder : Option ℕ) (address : ℕ)
    (memory : Memory (Op A)) : Except Fault (Memory (Op A)) :=
  match splitAt address memory.cells with
  | none => .error .erasedOperation
  | some (_, cell, _) =>
      match asOperator cell.item with
      | none => return memory
      | some gate =>
          if isRotation gate.kind then do
            let newGate ← normalizeGate gate
            match replaceRotation builder address newGate memory with
            | some after => return after
            | none => .error .erasedOperation
          else return memory

variable {memory : Memory (Op A)}
variable {head lower upper : List (Cell (Op A))} {cell : Cell (Op A)}

omit [AngleArithmetic A] in
/-- The constants go in front of the body, the gate behind the visited. -/
theorem replaceRotation_eq {first : ℕ} (newGate : Gate A)
    (cells : memory.cells = head ++ lower ++ cell :: upper)
    (begins : front (lower ++ [cell]) = some first) :
    ∃ after created inserted,
      replaceRotation (some first) cell.address newGate memory =
          some after ∧
        after.cells = head ++ created ++ lower ++ inserted ++ upper ∧
        items created = newGate.parameters.map constantOp ∧
        items inserted = [newGate.op] ∧
        (∀ new ∈ created ++ inserted, memory.fresh ≤ new.address) ∧
        memory.fresh ≤ after.fresh := by
  have body : front (lower ++ cell :: upper) = some first := by
    rw [front_append_cons] at begins ⊢
    exact begins
  rcases
    @Rewriter.create_steps _ cell.address []
      ⟨memory, some (some first), []⟩ head (lower ++ cell :: upper) []
      (newGate.parameters.map constantOp) (by rw [body])
      (by rw [cells, List.append_assoc]) with
    ⟨constants, created, performed, stored, contents, unused, supply, -⟩
  rw [List.append_nil, List.map_map] at performed
  have behind :
      constants.memory.cells =
        (head ++ created ++ lower) ++ cell :: upper := by
    rw [stored]
    simp only [List.append_assoc]
  rcases prepared_create behind [] [newGate.op] [.eraseOp .visited] with
    ⟨rewriter, inserted, createdGate, prepared, gate, -⟩
  rcases
    Rewriter.eraseOp_step cell.address [] cell .visited [] rfl
      prepared.cells with
    ⟨final, erased, left, finalSupply, -⟩
  have increased := prepared.supply
  refine ⟨final.memory, created, inserted, ?_, ?_, contents, gate, ?_, ?_⟩
  · have constantsPerformed :
        Rewriter.performAll cell.address [] ⟨memory, some (some first), []⟩
            (newGate.parameters.map fun value =>
              Command.create (constantOp value)) = some constants :=
      performed
    have gatePerformed :
        Rewriter.performAll cell.address [] ⟨constants.memory, none, []⟩
            [.setInsertionPointAfter .visited, .create newGate.op,
              .eraseOp .visited] = some final :=
      createdGate.trans erased
    rw [replaceRotation, constantsPerformed]
    simp only [Option.bind_eq_bind, Option.bind_some, gatePerformed]
    rfl
  · rw [left]
    simp only [List.append_assoc]
  · intro new member
    dsimp only at unused supply
    rcases List.mem_append.mp member with constant | last
    · exact unused new constant
    · exact supply.trans (prepared.unused new last)
  · rw [finalSupply]
    exact supply.trans increased

/-- No rotation with readable angles. -/
def NeverNormalized (operation : Op A) : Prop :=
  ∀ gate newGate, asOperator operation = some gate →
    isRotation gate.kind = true → normalizeGate gate ≠ .ok newGate

/-- The body begins with the operation it began with. -/
def BeginsWith (cell : Cell (Op A)) (body : List (Cell (Op A))) : Prop :=
  body.head? = some cell

omit [AngleArithmetic A] in
/-- Doing nothing at an operation is confined. -/
theorem unchanged_confined (first : ℕ)
    (cells : memory.cells = head ++ lower ++ cell :: upper) :
    Confined first cell.address memory memory :=
  ⟨{ head := head
     lower := lower
     cell := cell
     upper := upper
     created := []
     kept := lower ++ [cell]
     inserted := []
     entered := cells
     visited := rfl
     left := by rw [cells]; simp
     erased := .refl _
     unused := by simp
     supply := Nat.le_refl _
     behind := .inl rfl }⟩

/-- What the pass at an address has to do at a position of the walk. -/
def NormalizationFollows (begin : Cell (Op A)) (memory : Memory (Op A))
    (head upper : List (Cell (Op A))) (address : ℕ)
    (described : Traced Fault (Normalization A) (Cursor (Op A)))
    (performed : Except Fault (Memory (Op A))) : Prop :=
  Follows begin.address
    (fun made : Normalization A =>
      made.normalized.parameters.map constantOp)
    (fun _ body => BeginsWith begin body) memory head upper address
    described performed

omit [AngleArithmetic A] in
/-- Passing over an operation does as described. -/
theorem unchanged_follows {begin : Cell (Op A)}
    (cells : memory.cells = head ++ lower ++ cell :: upper)
    (begins : BeginsWith begin (lower ++ cell :: upper)) :
    NormalizationFollows begin memory head upper cell.address
      (pure (Cursor.enter (items lower) cell.item (items upper)))
      (.ok memory) := by
  refine ⟨fun fault failed => (by cases failed), ?_⟩
  rintro cursor ⟨⟩
  refine ⟨memory, head, lower ++ [cell], rfl, by rw [cells]; simp,
    by simp, by simp [Cursor.visited, Cursor.enter],
    unchanged_confined begin.address cells, ?_⟩
  simpa using begins

omit [AngleArithmetic A] in
/-- Replacing a rotation behind the first operation does as described. -/
theorem replaced_follows {begin : Cell (Op A)} (gate newGate : Gate A)
    (cells : memory.cells = head ++ lower ++ cell :: upper)
    (later : BeginsWith begin lower) :
    NormalizationFollows begin memory head upper cell.address
      (do
        Traced.record ⟨gate, newGate⟩
        return ⟨items lower, none, [newGate.op], items upper⟩)
      (match
          replaceRotation (some begin.address) cell.address newGate memory
        with
      | some after => .ok after
      | none => .error .erasedOperation) := by
  have opens : front (lower ++ [cell]) = some begin.address := by
    rw [front_append_cons, front, later]
    rfl
  rcases replaceRotation_eq newGate cells opens with
    ⟨after, created, inserted, replaced, stored, constants, gates, unused,
      supply⟩
  rw [replaced]
  constructor
  · rintro other ⟨⟩
  · rintro cursor ⟨⟩
    refine ⟨after, head ++ created, lower ++ inserted, rfl, ?_, ?_, ?_,
      ⟨?_⟩, ?_⟩
    · rw [stored]
      simp only [List.append_assoc]
    · rw [items_append, constants]
      simp
    · simp [Cursor.visited, gates]
    · exact
        { head := head
          lower := lower
          cell := cell
          upper := upper
          created := created
          kept := lower
          inserted := inserted
          entered := cells
          visited := rfl
          left := stored
          erased := List.sublist_append_left _ _
          unused := unused
          supply := supply
          behind := .inr opens }
    · rw [BeginsWith, List.append_assoc, List.head?_append, later]
      rfl

/--
The pass at an address follows its description, as long as the body begins
with an operation the pass does not replace.
-/
theorem normalizeAt_follows {begin : Cell (Op A)}
    (never : NeverNormalized begin.item)
    (cells : memory.cells = head ++ lower ++ cell :: upper)
    (begins : BeginsWith begin (lower ++ cell :: upper)) :
    NormalizationFollows begin memory head upper cell.address
      (normalizeAngleOfRotations
        (.enter (items lower) cell.item (items upper)))
      (normalizeAt (some begin.address) cell.address memory) := by
  unfold normalizeAngleOfRotations normalizeAt
  rw [Memory.splitAt_eq cells]
  dsimp only [Cursor.enter]
  rw [Option.bind_some]
  cases isGate : asOperator cell.item with
  | none => exact unchanged_follows cells begins
  | some gate =>
      dsimp only
      by_cases rotation : isRotation gate.kind = true
      · rw [if_pos rotation, if_pos rotation]
        cases normalized : normalizeGate gate with
        | error fault =>
            constructor
            · rintro other ⟨⟩
              rfl
            · rintro cursor ⟨⟩
        | ok newGate =>
            -- The visited operation is not the first one, which stays.
            have later : BeginsWith begin lower := by
              cases lower with
              | nil =>
                  cases begins
                  exact (never gate newGate isGate rotation
                    normalized).elim
              | cons _ _ => exact begins
            exact replaced_follows gate newGate cells later
      · rw [if_neg rotation, if_neg rotation]
        exact unchanged_follows cells begins

end Normalize

/-! ## Definitions and uses in a kernel -/

/-- A value of a kernel. -/
inductive KernelValue (A : Type) where
  | quantum (value : QuantumValue)
  | float (value : FloatValue A)
  | index (id : ℕ)
  deriving DecidableEq

/-- The values a gate uses. -/
def gateOperands (gate : Gate A) : Set (KernelValue A) :=
  {value |
    (∃ parameter ∈ gate.parameters, value = .float parameter) ∨
      ∃ qubit ∈ gate.qubits, value = .quantum qubit}

/--
Which values the operations of a kernel define and use, and which are its
arguments.  In memory semantics gates define nothing.
-/
structure ValueFlow (A : Type) where
  results : OpData A → Set (KernelValue A)
  operands : OpData A → Set (KernelValue A)
  arguments : Set (KernelValue A)
  gateResults : ∀ gate, results (.gate gate) = ∅
  gateOperands : ∀ gate, operands (.gate gate) = gateOperands gate
  constantResults : ∀ value, .float value ∈ results (.constant value)
  constantOperands : ∀ value, operands (.constant value) = ∅
  floatArguments :
    ∀ value, .float value ∈ arguments → ∃ id, value = .argument id

/-- The definitions and uses of operations without regions. -/
def ValueFlow.flow (values : ValueFlow A) :
    Flow (Op A) (KernelValue A) where
  defines operation := values.results operation.label
  uses operation := values.operands operation.label

/-- A kernel body without regions in which definitions precede uses. -/
structure ValidBody (values : ValueFlow A) (block : Block A) : Prop where
  flat : ∀ operation ∈ block, operation.blocks = []
  ordered : values.flow.Ordered values.arguments block
  parameters :
    ∀ operation ∈ block, ∀ gate, asOperator operation = some gate →
      ∀ count, gate.kind.numParameters = some count →
        gate.parameters.length = count

section Values

variable {values : ValueFlow A}

theorem defines_gate {operation : Op A} {gate : Gate A}
    (isGate : asOperator operation = some gate) :
    values.flow.defines operation = ∅ := by
  change values.results operation.label = ∅
  rw [asOperator_eq_some.mp isGate, values.gateResults]

theorem uses_gate {operation : Op A} {gate : Gate A}
    (isGate : asOperator operation = some gate) :
    values.flow.uses operation = gateOperands gate := by
  change values.operands operation.label = _
  rw [asOperator_eq_some.mp isGate, values.gateOperands]

/-- A gate which only uses operands of another. -/
structure UsesOperandsOf (gate source : Gate A) : Prop where
  parameters : gate.parameters ⊆ source.parameters
  qubits : gate.qubits ⊆ source.qubits

theorem UsesOperandsOf.subset {gate source : Gate A}
    (uses : UsesOperandsOf gate source) :
    gateOperands gate ⊆ gateOperands source := by
  rintro value (⟨parameter, member, rfl⟩ | ⟨qubit, member, rfl⟩)
  · exact .inl ⟨parameter, uses.parameters member, rfl⟩
  · exact .inr ⟨qubit, uses.qubits member, rfl⟩

/-- A gate copied field by field uses the operands of the original. -/
theorem copy_uses (kind : GateKind) (isAdj : Bool) (gate : Gate A) :
    UsesOperandsOf
      (Gate.create kind isAdj gate.parameters gate.controls gate.targets)
      gate :=
  ⟨List.Subset.refl _, List.Subset.refl _⟩

/--
A plan removes gates only, and inserts gates that use operands of the
visited gate or of earlier ones.
-/
structure Conservative (values : ValueFlow A) (before : Block A)
    (currentOp : Op A) (plan : Plan A) : Prop where
  removes :
    values.flow.Prunes (before ++ [currentOp])
      (plan.before ++ plan.current.toList)
  inserts :
    ∀ operation ∈ plan.inserted, ∃ gate source original,
      operation = gate.op ∧ original ∈ before ++ [currentOp] ∧
        asOperator original = some source ∧ UsesOperandsOf gate source

/-- A matcher all whose plans are conservative. -/
def IsConservative (values : ValueFlow A) (matcher : Matcher A) : Prop :=
  ∀ before currentOp plan,
    matcher before currentOp = .ok (some plan) →
      Conservative values before currentOp plan

theorem asOperator_of_shape {kind : GateKind} {nCtrls nTgts : ℕ}
    {operation : Op A} {gate : Gate A}
    (shape : gateOfShape kind nCtrls nTgts operation = some gate) :
    asOperator operation = some gate :=
  asOperator_eq_some.mpr
    (asGate_eq_some.mp (gateOfShape_eq_some.mp shape).1).1

theorem asOperator_of_castGate {kind : GateKind} {operation : Op A}
    {gate : Gate A} (cast : castGate kind operation = .ok gate) :
    asOperator operation = some gate := by
  unfold castGate at cast
  cases isGate : asGate kind operation with
  | none => simp [isGate] at cast
  | some performed =>
      rw [isGate, Except.ok.injEq] at cast
      subst cast
      exact asOperator_eq_some.mpr (asGate_eq_some.mp isGate).1

section Plans

variable {before : Block A} {currentOp : Op A} {found : Found A}
variable {currentGate : Gate A} {scanned : QuantumValue}

/-- The found gate is an earlier operation. -/
theorem found_mem (correct : found.Correct before scanned) :
    found.operation ∈ before ++ [currentOp] := by
  rw [correct.position]
  simp

theorem prunes_found (correct : found.Correct before scanned) :
    values.flow.Prunes before (found.lower ++ found.between) := by
  rw [correct.position]
  exact .one (defines_gate correct.isGate) _ _

theorem prunes_current (isGate : asOperator currentOp = some currentGate) :
    values.flow.Prunes [currentOp] [] :=
  .drop currentOp (defines_gate isGate) .nil

/-- Erasing the visited and the found gate. -/
theorem removes_both (correct : found.Correct before scanned)
    (isGate : asOperator currentOp = some currentGate) :
    values.flow.Prunes (before ++ [currentOp])
      ((found.lower ++ found.between) ++ []) :=
  (prunes_found correct).append (prunes_current isGate)

/-- Erasing the found gate only. -/
theorem removes_found (correct : found.Correct before scanned) :
    values.flow.Prunes (before ++ [currentOp])
      ((found.lower ++ found.between) ++ [currentOp]) :=
  (prunes_found correct).append (.refl _)

end Plans

/-! ### The matchers are conservative -/

theorem patternCancellation_conservative {T1 T2 : GateKind}
    {nCtrlsOp1 nTgtsOp1 nCtrlsOp2 nTgtsOp2 : ℕ} :
    IsConservative values
      (patternCancellation T1 T2 nCtrlsOp1 nTgtsOp1 nCtrlsOp2
        nTgtsOp2) := by
  intro before currentOp plan planned
  rcases patternCancellation_inversion planned with
    ⟨found, currentGate, target, cancels⟩
  have made := cancels.planned
  subst made
  exact
    { removes :=
        removes_both (getPreviousOperationOnTarget_correct cancels.looked)
          (asOperator_of_shape cancels.current)
      inserts := by simp }

theorem commuteOperation_conservative {T1 T2 : GateKind}
    {nCtrlsOp1 nTgtsOp1 nCtrlsOp2 nTgtsOp2 : ℕ} :
    IsConservative values
      (commuteOperation T1 T2 nCtrlsOp1 nTgtsOp1 nCtrlsOp2
        nTgtsOp2) := by
  intro before currentOp plan planned
  simp only [commuteOperation, withGate_eq_some, withPrevious_eq_some,
    except_bind_eq_ok, ite_none_eq_some, return_some_eq] at planned
  rcases planned with
    ⟨currentGate, current, target, -, found, looked, previousGate,
      previous, _, -, _, -, _, -, -, rfl⟩
  have correct := getPreviousOperationOnTarget_correct looked
  refine ⟨removes_both correct (asOperator_of_shape current), ?_⟩
  intro operation member
  simp only [List.mem_cons, List.not_mem_nil, or_false] at member
  rcases member with rfl | rfl
  · exact ⟨_, currentGate, currentOp, rfl, by simp,
      asOperator_of_shape current, copy_uses _ _ _⟩
  · exact ⟨_, previousGate, found.operation, rfl, found_mem correct,
      asOperator_of_shape previous, copy_uses _ _ _⟩

theorem commuteCNotZ_conservative :
    IsConservative values (commuteCNotZ : Matcher A) := by
  intro before currentOp plan planned
  simp only [commuteCNotZ, withGate_eq_some, withPrevious_eq_some,
    except_bind_eq_ok, ite_none_eq_some, return_some_eq] at planned
  rcases planned with
    ⟨currentGate, -, target, -, found, looked, previousGate, previous,
      _, -, _, -, _, -, _, -, _, -, -, rfl⟩
  have correct := getPreviousOperationOnTarget_correct looked
  refine ⟨removes_found correct, ?_⟩
  intro operation member
  rw [List.mem_singleton.mp member]
  exact ⟨_, previousGate, found.operation, rfl, found_mem correct,
    asOperator_of_shape previous, copy_uses _ _ _⟩

theorem commuteZCNot_conservative :
    IsConservative values (commuteZCNot : Matcher A) := by
  intro before currentOp plan planned
  simp only [commuteZCNot, withGate_eq_some, withPrevious_eq_some,
    except_bind_eq_ok, ite_none_eq_some, return_some_eq] at planned
  rcases planned with
    ⟨currentGate, -, control, -, found, looked, previousGate, previous,
      _, -, _, -, _, -, -, rfl⟩
  have correct := getPreviousOperationOnTarget_correct looked
  refine ⟨removes_found correct, ?_⟩
  intro operation member
  rw [List.mem_singleton.mp member]
  exact ⟨_, previousGate, found.operation, rfl, found_mem correct,
    asOperator_of_shape previous, copy_uses _ _ _⟩

theorem patternSwitch_conservative {T1 T2 T3 T4 : GateKind} :
    IsConservative values (patternSwitch T1 T2 T3 T4) := by
  intro before currentOp plan planned
  simp only [patternSwitch, withGate_eq_some, withPrevious_eq_some,
    except_bind_eq_ok, ite_none_eq_some, return_some_eq] at planned
  rcases planned with
    ⟨currentGate, current, target, -, found, looked, prevGate, cast, -,
      rfl⟩
  have correct := getPreviousOperationOnTarget_correct looked
  refine ⟨removes_both correct (asOperator_of_shape current), ?_⟩
  intro operation member
  simp only [List.mem_cons, List.not_mem_nil, or_false] at member
  rcases member with rfl | rfl
  · exact ⟨_, currentGate, currentOp, rfl, by simp,
      asOperator_of_shape current, copy_uses _ _ _⟩
  · exact ⟨_, prevGate, found.operation, rfl, found_mem correct,
      asOperator_of_castGate cast, copy_uses _ _ _⟩

theorem SwitchPauliHOperation_conservative :
    IsConservative values (SwitchPauliHOperation : Matcher A) := by
  intro before currentOp plan planned
  simp only [SwitchPauliHOperation, withGate_eq_some,
    withPrevious_eq_some, except_bind_eq_ok] at planned
  rcases planned with ⟨currentGate, -, target, -, found, looked, planned⟩
  have correct := getPreviousOperationOnTarget_correct looked
  cases switched : switchedPauli found.gate.kind with
  | none => simp [switched, pure, Except.pure] at planned
  | some pauli =>
      simp only [switched, ite_none_eq_some, return_some_eq] at planned
      rcases planned with ⟨-, rfl⟩
      refine ⟨removes_found correct, ?_⟩
      intro operation member
      rw [List.mem_singleton.mp member]
      exact ⟨_, found.gate, found.operation, rfl, found_mem correct,
        correct.isGate, copy_uses _ _ _⟩

theorem replaceConjugated_conservative (middle replacement : GateKind) :
    IsConservative values
      (replaceConjugated middle replacement : Matcher A) := by
  intro before currentOp plan planned
  simp only [replaceConjugated, withGate_eq_some, withPrevious_eq_some,
    except_bind_eq_ok, ite_none_eq_some, return_some_eq] at planned
  rcases planned with
    ⟨currentGate, current, target, -, found, looked, prevGate, -, earlier,
      lookedAgain, _, -, -, rfl⟩
  have correct := getPreviousOperationOnTarget_correct looked
  have correctAgain := getPreviousOperationOnTarget_correct lookedAgain
  constructor
  · have inner :
        values.flow.Prunes (found.lower ++ found.between)
          (earlier.lower ++ earlier.between ++ found.between) :=
      (prunes_found correctAgain).append (.refl _)
    exact ((prunes_found correct).trans inner).append
      (prunes_current (asOperator_of_shape current))
  · intro operation member
    rw [List.mem_singleton.mp member]
    exact ⟨_, currentGate, currentOp, rfl, by simp,
      asOperator_of_shape current,
      ⟨List.nil_subset _, List.Subset.refl _⟩⟩

theorem fusePhase_conservative (adjoint : Bool) :
    IsConservative values (fusePhase adjoint : Matcher A) := by
  intro before currentOp plan planned
  simp only [fusePhase, withGate_eq_some, withPrevious_eq_some,
    except_bind_eq_ok, ite_none_eq_some, return_some_eq] at planned
  rcases planned with
    ⟨currentGate, current, target, -, found, looked, prevGate, previous, -,
      rfl⟩
  have correct := getPreviousOperationOnTarget_correct looked
  refine ⟨removes_both correct (asOperator_of_shape current), ?_⟩
  intro operation member
  rw [List.mem_singleton.mp member]
  exact ⟨_, prevGate, found.operation, rfl, found_mem correct,
    asOperator_of_shape previous, copy_uses _ _ _⟩

/-- Gates on a control and a target, without parameters. -/
def OnPair (control target : QuantumValue) (block : Block A) : Prop :=
  ∀ operation ∈ block, ∃ gate : Gate A, operation = gate.op ∧
    gate.parameters = [] ∧
    ∀ qubit ∈ gate.qubits, qubit = control ∨ qubit = target

theorem decompose_conservative {kind : GateKind}
    {made : QuantumValue → QuantumValue → Block A}
    (onPair : ∀ control target, OnPair control target (made control target)) :
    IsConservative values (decompose kind made) := by
  intro before currentOp plan planned
  simp only [decompose, withGate_eq_some, except_bind_eq_ok,
    return_some_eq] at planned
  rcases planned with
    ⟨gate, shape, control, controlRead, target, targetRead, rfl⟩
  have isGate := asOperator_of_shape shape
  refine ⟨(Flow.Prunes.refl before).append (prunes_current isGate), ?_⟩
  intro operation member
  rcases onPair control target operation member with
    ⟨created, rfl, noParameters, pair⟩
  refine ⟨created, gate, currentOp, rfl, by simp, isGate, ?_, ?_⟩
  · rw [noParameters]
    exact List.nil_subset _
  · intro qubit named
    rcases pair qubit named with rfl | rfl
    · exact List.mem_append_left _ (element_mem controlRead)
    · exact List.mem_append_right _ (element_mem targetRead)

theorem DecompositionPass_conservative
    (decomposition : DecompositionPass) :
    IsConservative values
      (decomposition.matcher : Matcher A) := by
  rw [DecompositionPass.matcher_eq]
  apply decompose_conservative
  intro control target operation member
  cases decomposition <;>
    simp only [DecompositionPass.inserted, reversedCx, hCzH, hCxH,
      List.mem_cons, List.not_mem_nil, or_false] at member
  case ReverseCx =>
      rcases member with rfl | rfl | rfl | rfl | rfl <;>
        exact ⟨_, rfl, rfl, by simp [Gate.create, Gate.qubits]⟩
  all_goals
      rcases member with rfl | rfl | rfl <;>
        exact ⟨_, rfl, rfl, by simp [Gate.create, Gate.qubits]⟩

theorem nullRotationCancellation_conservative [TurnArithmetic A] :
    IsConservative values (nullRotationCancellation : Matcher A) := by
  intro before currentOp plan planned
  rcases nullRotationCancellation_inversion planned with
    ⟨⟨gate, isGate⟩, rfl⟩
  exact
    { removes := (Flow.Prunes.refl before).append (prunes_current isGate)
      inserts := by simp }

theorem RewritingPass_conservative (rewriting : RewritingPass) :
    ∀ matcher ∈ (rewriting.matchers : List (Matcher A)),
      IsConservative values matcher := by
  intro matcher member
  cases rewriting <;>
    simp only [RewritingPass.matchers, List.mem_cons, List.not_mem_nil,
      or_false] at member
  case ReductionPattern =>
      rcases member with
        rfl | rfl | rfl | rfl | rfl | rfl | rfl | rfl <;>
        exact patternCancellation_conservative
  all_goals subst member
  case CancellationDoubleCx =>
      exact patternCancellation_conservative
  case CommuteCxZ => exact commuteCNotZ_conservative
  case CommuteZCx => exact commuteZCNot_conservative
  case SwitchPauliH => exact SwitchPauliHOperation_conservative
  case HXHToZ | HZHToX => exact replaceConjugated_conservative _ _
  case SZToSAdj | SAdjZToS => exact fusePhase_conservative _
  case CommuteCxRx | CommuteCxX | CommuteRxCx | CommuteXCx =>
      exact commuteOperation_conservative
  case SwitchHX | SwitchHY | SwitchHZ | SwitchXH | SwitchYH | SwitchZH =>
      exact patternSwitch_conservative

/-! ### Runs keep definitions before uses -/

/-- Carrying out a conservative plan keeps definitions before uses. -/
theorem Conservative.ordered {known : Set (KernelValue A)}
    {cursor : Cursor (Op A)} {currentOp : Op A} {plan : Plan A}
    (conservative : Conservative values cursor.before currentOp plan)
    (present : cursor.current = some currentOp)
    (ordered : values.flow.Ordered known cursor.contents) :
    values.flow.Ordered known (plan.apply cursor).contents := by
  have split :
      cursor.contents =
        (cursor.before ++ [currentOp]) ++
          (cursor.inserted ++ cursor.rest) := by
    rw [contents_of_visited present, List.append_assoc]
    rfl
  rw [split] at ordered
  rw [plan.apply_contents]
  refine conservative.removes.ordered_insert ?_ ordered
  intro operation member
  rcases conservative.inserts operation member with
    ⟨gate, source, original, rfl, earlier, isSource, uses⟩
  have known :=
    (ordered_append.mp ordered).1.uses_subset earlier
  rw [uses_gate isSource] at known
  have own : asOperator gate.op = some gate := rfl
  rw [uses_gate own]
  exact uses.subset.trans known

/-- A run of conservative matchers keeps definitions before uses. -/
theorem walkBlock_ordered {stale : StaleRead}
    {matchers : List (Matcher A)}
    (conservative :
      ∀ matcher ∈ matchers, IsConservative values matcher)
    {known : Set (KernelValue A)} {block : Block A}
    (flat : ∀ operation ∈ block, operation.blocks = [])
    (ordered : values.flow.Ordered known block) :
    ∀ result,
      (walkBlock (rewriteInOrder stale matchers) [] block).outcome =
          .ok result →
        values.flow.Ordered known result := by
  have kept (cursor : Cursor (Op A))
      (initially : values.flow.Ordered known cursor.contents) :=
    rewriteInOrder_keeps stale
      (values.flow.Ordered known) (fun _ => True)
      (fun matcher member cursor currentOp plan holds present planned =>
        ⟨trivial,
          (conservative matcher member _ _ _ planned).ordered present
            holds⟩)
      cursor initially
  exact (walkBlock_satisfies_of_flat kept [] block flat ordered).2

/-! ### Normalizing keeps definitions before uses -/

section Normalizing

variable [AngleArithmetic A]

theorem normalizeGate_qubits {gate newGate : Gate A}
    (normalized : normalizeGate gate = .ok newGate) :
    newGate.qubits = gate.qubits := by
  rw [normalizeGate, except_bind_eq_ok] at normalized
  rcases normalized with ⟨parameters, -, made⟩
  cases made
  rfl

theorem normalizationOf_eq_some {operation : Op A}
    {normalization : Normalization A}
    (made : normalizationOf operation = some normalization) :
    asOperator operation = some normalization.gate ∧
      normalizeGate normalization.gate = .ok normalization.normalized := by
  unfold normalizationOf at made
  cases isGate : asOperator operation with
  | none => simp [isGate] at made
  | some gate =>
      rw [isGate] at made
      dsimp only at made
      by_cases rotation : isRotation gate.kind = true
      · rw [if_pos rotation] at made
        cases normalized : normalizeGate gate with
        | error fault => simp [normalized] at made
        | ok newGate =>
            rw [normalized] at made
            cases made
            exact ⟨rfl, normalized⟩
      · rw [if_neg rotation] at made
        cases made

omit [AngleArithmetic A] in
/-- The created constants define the parameters of the new gates. -/
theorem parameter_defined {normalizations : List (Normalization A)}
    {normalization : Normalization A}
    (member : normalization ∈ normalizations) {parameter : FloatValue A}
    (named : parameter ∈ normalization.normalized.parameters) :
    .float parameter ∈
      values.flow.defined (createdConstants normalizations) := by
  refine ⟨.leaf (.constant parameter), ?_, values.constantResults parameter⟩
  exact List.mem_flatMap.mpr
    ⟨normalization, member, List.mem_map_of_mem named⟩

/-- Replacing rotations keeps the order once the constants are known. -/
theorem ordered_flatMap_replacement
    {constants known more : Set (KernelValue A)} {block : Block A}
    (ordered : values.flow.Ordered known block)
    (larger : known ⊆ more) (included : constants ⊆ more)
    (created :
      ∀ normalization ∈ blockNormalizations block,
        ∀ parameter ∈ normalization.normalized.parameters,
          .float parameter ∈ constants) :
    values.flow.Ordered more
      (block.flatMap NormalizeArgAngle.replacement) := by
  induction block generalizing known more with
  | nil => trivial
  | cons operation rest induction =>
      have tail :=
        @induction (known ∪ values.flow.defines operation)
          (more ∪ values.flow.defines operation) ordered.2
          (Set.union_subset_union_left _ larger)
          (included.trans Set.subset_union_left)
          (fun normalization member =>
            created normalization (by
              rw [blockNormalizations, List.filterMap_cons]
              split
              · exact member
              · exact List.mem_cons_of_mem _ member))
      rw [List.flatMap_cons, NormalizeArgAngle.replacement]
      cases made : normalizationOf operation with
      | none => exact ⟨ordered.1.trans larger, tail⟩
      | some normalization =>
          rcases normalizationOf_eq_some made with ⟨isGate, normalized⟩
          have own :
              asOperator normalization.normalized.op =
                some normalization.normalized := rfl
          rw [defines_gate isGate] at tail
          refine ⟨?_, by rw [defines_gate own]; exact tail⟩
          rw [uses_gate own]
          rintro value (⟨parameter, named, rfl⟩ | ⟨qubit, named, rfl⟩)
          · apply included
            apply created normalization _ parameter named
            rw [blockNormalizations, List.filterMap_cons, made]
            exact List.mem_cons_self
          · apply larger
            apply ordered.1
            rw [uses_gate isGate]
            rw [normalizeGate_qubits normalized] at named
            exact .inr ⟨qubit, named, rfl⟩

theorem ordered_normalizedBlock {known : Set (KernelValue A)}
    {block : Block A} (ordered : values.flow.Ordered known block) :
    values.flow.Ordered known (normalizedBlock block) := by
  rw [normalizedBlock, ordered_append]
  constructor
  · apply ordered_of_uses
    intro operation member
    rcases List.mem_flatMap.mp member with ⟨normalization, -, created⟩
    rcases List.mem_map.mp created with ⟨value, -, rfl⟩
    change values.operands (.constant value) ⊆ known
    rw [values.constantOperands]
    exact Set.empty_subset _
  · exact ordered_flatMap_replacement ordered Set.subset_union_left
      Set.subset_union_right
      (fun _ member _ named => parameter_defined member named)

/-- If a walk completes, every angle could be read. -/
theorem readable_of_completes {block visited result : Block A}
    (flat : ∀ operation ∈ block, operation.blocks = [])
    (completes :
      (walkBlock normalizeAngleOfRotations visited block).outcome =
        .ok result) :
    AnglesReadable block := by
  induction block generalizing visited with
  | nil => simp [AnglesReadable]
  | cons operation rest induction =>
      rw [walkBlock_cons_of_flat _ (flat operation List.mem_cons_self)]
        at completes
      cases called :
          (normalizeAngleOfRotations
            (.enter visited operation rest)).outcome with
      | error fault =>
          rw [Traced.bind_of_error called] at completes
          cases completes
      | ok cursor =>
          rw [Traced.bind_of_ok called] at completes
          have later :=
            induction
              (fun other member =>
                flat other (List.mem_cons_of_mem operation member))
              completes
          intro other member gate isGate rotation
          rcases List.mem_cons.mp member with rfl | tail
          · unfold normalizeAngleOfRotations at called
            simp only [Cursor.enter, Option.bind_some, isGate, rotation,
              if_true] at called
            cases normalized : normalizeGate gate with
            | error fault =>
                rw [normalized,
                  Traced.bind_of_error (Traced.ofExcept_outcome _)]
                  at called
                cases called
            | ok newGate => exact ⟨newGate, rfl⟩
          · exact later other tail gate isGate rotation

/-- A kernel cannot begin with a rotation that the pass replaces. -/
theorem ValidBody.never_first {operation : Op A} {rest : Block A}
    (valid : ValidBody values (operation :: rest)) :
    NeverNormalized operation := by
  intro gate newGate isGate rotation normalized
  have count : gate.kind.numParameters = some 1 := by
    simp only [isRotation, decide_eq_true_eq] at rotation
    rcases rotation with kind | kind | kind <;> rw [kind] <;> rfl
  have single :=
    valid.parameters operation List.mem_cons_self gate isGate 1 count
  rcases List.length_eq_one_iff.mp single with ⟨parameter, only⟩
  have known : KernelValue.float parameter ∈ values.arguments := by
    apply valid.ordered.1
    rw [uses_gate isGate]
    exact .inl ⟨parameter, by rw [only]; exact List.mem_cons_self, rfl⟩
  rcases values.floatArguments parameter known with ⟨id, rfl⟩
  rw [normalizeGate, only] at normalized
  cases normalized

end Normalizing

end Values

/-! ## The passes -/

/-- The passes that rewrite a kernel while they walk over it. -/
inductive WalkPass where
  | rewriting (pass : RewritingPass)
  | decomposition (pass : DecompositionPass)
  | CancellationNullRotation
  | NormalizeArgAngle
  deriving DecidableEq, Repr

/-- What the matchers of a pass tell their rewriter. -/
def scriptOf : RewritingPass → Script A
  | .ReductionPattern | .CancellationDoubleCx => cancellationScript
  | .CommuteCxRx | .CommuteCxX | .CommuteRxCx | .CommuteXCx =>
      commutationScript
  | .CommuteCxZ | .CommuteZCx | .SwitchPauliH => moveScript
  | .SwitchHX | .SwitchHY | .SwitchHZ | .SwitchXH | .SwitchYH
  | .SwitchZH => switchScript
  | .HXHToZ | .HZHToX => conjugationScript
  | .SZToSAdj | .SAdjZToS => fusionScript

/-- The procedures a pass calls, in order, at each operation. -/
def proceduresOf (rewriting : RewritingPass) : List (Procedure A) :=
  rewriting.matchers.map fun matcher => ⟨matcher, scriptOf rewriting⟩

/-- What a pass does at an address; a builder stands before an operation. -/
def WalkPass.call [TurnArithmetic A] (pass : WalkPass)
    (stale : StaleRead) (builder : Option ℕ) :
    ℕ → Memory (Op A) → Except Fault (Memory (Op A)) :=
  match pass with
  | .rewriting inner => callInOrder stale (proceduresOf inner)
  | .decomposition inner =>
      callInOrder stale [⟨inner.matcher, decompositionScript⟩]
  | .CancellationNullRotation =>
      callInOrder stale [⟨nullRotationCancellation, nullRotationScript⟩]
  | .NormalizeArgAngle => normalizeAt builder

/-- Walk a pass over a body in memory. -/
def WalkPass.walk [TurnArithmetic A] (pass : WalkPass)
    (stale : StaleRead) (fuel : ℕ) (block : Block A) :
    WalkRun Fault (Op A) :=
  let memory := Memory.load block
  General.EarlyIncrementWalk.walk (pass.call stale (front memory.cells)) fuel
    memory (front memory.cells)

/-- What a pass makes of a kernel. -/
def WalkPass.run [TurnArithmetic A] (pass : WalkPass) (stale : StaleRead)
    (kernel : Op A) : Except Fault (Op A) :=
  match pass with
  | .rewriting inner => (inner.run stale kernel).outcome
  | .decomposition inner => (inner.run stale kernel).outcome
  | .CancellationNullRotation =>
      (operationsOnQuantumKernel stale [nullRotationCancellation]
        kernel).outcome
  | .NormalizeArgAngle => (NormalizeArgAngle.run kernel).outcome

/-! ## Walks of the passes -/

section Walks

variable {values : ValueFlow A}

theorem procedures_sound (rewriting : RewritingPass) :
    ∀ procedure ∈ (proceduresOf rewriting : List (Procedure A)),
      procedure.Sound := by
  intro procedure member
  rcases List.mem_map.mp member with ⟨matcher, called, rfl⟩
  cases rewriting <;>
    simp only [RewritingPass.matchers, List.mem_cons, List.not_mem_nil,
      or_false] at called
  case ReductionPattern =>
      rcases called with
        rfl | rfl | rfl | rfl | rfl | rfl | rfl | rfl <;>
        exact cancellation_sound
  all_goals subst called
  case CancellationDoubleCx => exact cancellation_sound
  case CommuteCxZ => exact commuteCNotZ_procedure_sound
  case CommuteZCx => exact commuteZCNot_procedure_sound
  case SwitchPauliH => exact SwitchPauliHOperation_procedure_sound
  case HXHToZ | HZHToX => exact conjugation_sound _ _
  case SZToSAdj | SAdjZToS => exact fusion_sound _
  case CommuteCxRx | CommuteCxX | CommuteRxCx | CommuteXCx =>
      exact commutation_sound
  case SwitchHX | SwitchHY | SwitchHZ | SwitchXH | SwitchYH | SwitchZH =>
      exact switch_sound

/--
A walk over a body that stays behind itself, ends, and keeps definitions
before uses: it goes to the operations of the input, once each and in order,
and ends as the pass does on the kernel.
-/
structure StaysBehind (values : ValueFlow A) (block : Block A)
    (outcome : Except Fault (Op A)) (run : WalkRun Fault (Op A)) :
    Prop where
  confined :
    ∀ call ∈ run.calls, Confined 0 call.address call.before call.after
  created : ∀ call ∈ run.calls, block.length ≤ call.before.fresh
  inOrder : run.visited <+: List.range block.length
  ends :
    (∃ fault, run.ending = .failed fault ∧ outcome = .error fault) ∨
      ∃ after, run.ending = .finished after ∧
        run.visited = List.range block.length ∧
        values.flow.Ordered values.arguments (items after.cells) ∧
        outcome = .ok (kernelOf (items after.cells))

/-- A walk with procedures stays behind itself. -/
theorem procedures_stayBehind (stale : StaleRead)
    (procedures : List (Procedure A))
    (sound : ∀ procedure ∈ procedures, procedure.Sound)
    (conservative :
      ∀ procedure ∈ procedures,
        IsConservative values procedure.matcher)
    {block : Block A} (valid : ValidBody values block) {fuel : ℕ}
    (enough : block.length ≤ fuel) :
    StaysBehind values block
      (operationsOnQuantumKernel stale
        (procedures.map Procedure.matcher) (kernelOf block)).outcome
      (General.EarlyIncrementWalk.walk (callInOrder stale procedures) fuel
        (Memory.load block) (front (Memory.load block).cells)) := by
  have loaded :
      (Memory.load block).cells = [] ++ [] ++ cellsOf block := rfl
  have agrees :=
    walk_agrees 0 (fun _ => []) (fun head _ => head = [])
      (fun memory head lower cell upper cells nothing =>
        callInOrder_follows stale 0 sound cells nothing)
      loaded rfl (by simpa using valid.flat)
      (by simpa [cellsOf] using enough)
  rw [addresses_cellsOf, items_cellsOf, items_nil] at agrees
  refine
    { confined := agrees.confined
      created := agrees.supply
      inOrder := agrees.inOrder
      ends := ?_ }
  cases walked :
      (walkBlock
        (rewriteInOrder stale (procedures.map Procedure.matcher)) []
        block).outcome with
  | error fault =>
      refine .inl ⟨fault, agrees.fails fault walked, ?_⟩
      exact walkNode_fails_of_one_block walked
  | ok result =>
      rcases agrees.returns result walked with
        ⟨after, finished, visited, left⟩
      have nothing :
          (walkBlock
            (rewriteInOrder stale (procedures.map Procedure.matcher)) []
            block).trace.flatMap (fun _ => ([] : Block A)) = [] :=
        List.flatMap_eq_nil_iff.mpr fun _ _ => rfl
      have contents : items after.cells = result := by
        rw [left, nothing]
        rfl
      refine .inr ⟨after, finished, visited, ?_, ?_⟩
      · rw [contents]
        refine walkBlock_ordered ?_ valid.flat valid.ordered result walked
        intro matcher member
        rcases List.mem_map.mp member with ⟨procedure, called, rfl⟩
        exact conservative procedure called
      · rw [contents]
        exact walkNode_returns_of_one_block walked

/-- The walk of `NormalizeArgAngle` stays behind itself. -/
theorem normalize_staysBehind [AngleArithmetic A]
    {block : Block A} (valid : ValidBody values block) {fuel : ℕ}
    (enough : block.length ≤ fuel) :
    StaysBehind values block (run (kernelOf block)).outcome
      (General.EarlyIncrementWalk.walk
        (normalizeAt (front (Memory.load block).cells)) fuel
        (Memory.load block) (front (Memory.load block).cells)) := by
  cases block with
  | nil =>
      have ended :
          General.EarlyIncrementWalk.walk
              (normalizeAt (front (Memory.load ([] : Block A)).cells)) fuel
              (Memory.load ([] : Block A))
              (front (Memory.load ([] : Block A)).cells) =
            ⟨[], [], .finished (Memory.load [])⟩ := by
        cases fuel <;> rfl
      rw [ended]
      exact
        { confined := by simp
          created := by simp
          inOrder := List.prefix_rfl
          ends := .inr ⟨Memory.load [], rfl, rfl, trivial,
            (run_of_flat (by simp) (by simp [AnglesReadable])).2⟩ }
  | cons operation rest =>
      have loaded :
          (Memory.load (operation :: rest)).cells =
            [] ++ [] ++ cellsOf (operation :: rest) := rfl
      have agrees :=
        walk_agrees 0
          (fun made : Normalization A =>
            made.normalized.parameters.map constantOp)
          (fun _ body => BeginsWith ⟨0, operation⟩ body)
          (fun memory head lower cell upper cells begins =>
            normalizeAt_follows valid.never_first cells begins)
          loaded rfl (by simpa using valid.flat)
          (by simpa [cellsOf] using enough)
      rw [addresses_cellsOf, items_cellsOf, items_nil] at agrees
      refine
        { confined := agrees.confined
          created := agrees.supply
          inOrder := agrees.inOrder
          ends := ?_ }
      cases walked :
          (walkBlock normalizeAngleOfRotations []
            (operation :: rest)).outcome with
      | error fault =>
          refine .inl ⟨fault, agrees.fails fault walked, ?_⟩
          rw [run, kernelOf, walkNode_fails_of_one_block walked]
          rfl
      | ok result =>
          rcases agrees.returns result walked with
            ⟨after, finished, visited, left⟩
          have readable := readable_of_completes valid.flat walked
          have closed := run_of_flat valid.flat readable
          have computed :
              (run (kernelOf (operation :: rest))).outcome =
                .ok (kernelOf
                  (createdConstants
                      (walkBlock normalizeAngleOfRotations []
                        (operation :: rest)).trace ++ result)) := by
            rw [run, kernelOf, walkNode_returns_of_one_block walked,
              (walkNode_of_one_block _ _ _).1]
            rfl
          have contents :
              items after.cells = normalizedBlock (operation :: rest) := by
            rw [closed.2] at computed
            simp only [kernelOf, Except.ok.injEq, Node.mk.injEq, true_and,
              List.cons.injEq, and_true] at computed
            rw [computed, left]
            rfl
          refine .inr ⟨after, finished, visited, ?_, ?_⟩
          · rw [contents]
            exact ordered_normalizedBlock valid.ordered
          · rw [contents]
            exact closed.2

/--
Every pass stays behind its walk: its calls are confined, the walk goes to
the operations of a valid body once each and in order and comes to an end,
and if the pass completes, definitions still precede uses.
-/
theorem walk_staysBehind [TurnArithmetic A] (pass : WalkPass)
    (stale : StaleRead) {block : Block A}
    (valid : ValidBody values block) {fuel : ℕ}
    (enough : block.length ≤ fuel) :
    StaysBehind values block (pass.run stale (kernelOf block))
      (pass.walk stale fuel block) := by
  cases pass with
  | rewriting inner =>
      have matchers :
          (proceduresOf inner : List (Procedure A)).map
            Procedure.matcher = inner.matchers := by
        rw [proceduresOf, List.map_map]
        exact List.map_id _
      have stays :=
        procedures_stayBehind stale _ (procedures_sound inner)
          (fun procedure member =>
            RewritingPass_conservative inner _ (by
              rw [← matchers]
              exact List.mem_map_of_mem member))
          valid enough
      rw [matchers] at stays
      exact stays
  | decomposition inner =>
      refine
        procedures_stayBehind stale [⟨inner.matcher, decompositionScript⟩]
          ?_ ?_ valid enough
      · intro procedure member
        rw [List.mem_singleton.mp member, inner.matcher_eq]
        exact decomposition_sound _ _
      · intro procedure member
        rw [List.mem_singleton.mp member]
        exact DecompositionPass_conservative inner
  | CancellationNullRotation =>
      refine
        procedures_stayBehind stale
          [⟨nullRotationCancellation, nullRotationScript⟩] ?_ ?_ valid
          enough
      · intro procedure member
        rw [List.mem_singleton.mp member]
        exact nullRotation_sound
      · intro procedure member
        rw [List.mem_singleton.mp member]
        exact nullRotationCancellation_conservative
  | NormalizeArgAngle => exact normalize_staysBehind valid enough

/-! ### A walk that replaces gates -/

/-- The remainder with the sign of the dividend. -/
scoped instance realTurns : TurnArithmetic ℝ where
  fmod angle divisor :=
    angle - (if 0 ≤ angle / divisor then ⌊angle / divisor⌋
      else ⌈angle / divisor⌉ : ℤ) * divisor
  isZero angle := decide (angle = 0)

/-- Allocations, extracted references and constants are the definitions. -/
def referenceFlow (A : Type) : ValueFlow A where
  results
    | .alloca result | .extractRef result => {.quantum result}
    | .constant result => {.float result}
    | _ => ∅
  operands
    | .gate gate => gateOperands gate
    | .extractRef (.extractRef veq (.dynamic value)) =>
        {.quantum veq, .index value}
    | .extractRef (.extractRef veq (.constant _)) => {.quantum veq}
    | operation => {value | ∃ qubit ∈ operation.acted, value = .quantum qubit}
  arguments :=
    {value |
      (∃ id, value = .index id) ∨ (∃ id, value = .float (.argument id)) ∨
        (∃ id, value = .quantum (.refArgument id)) ∨
          ∃ id, value = .quantum (.veqArgument id)}
  gateResults _ := rfl
  gateOperands _ := rfl
  constantResults _ := rfl
  constantOperands value := by
    ext
    simp [OpData.acted]
  floatArguments value member := by
    rcases member with ⟨id, equal⟩ | ⟨id, equal⟩ | ⟨id, equal⟩ | ⟨id, equal⟩
    · cases equal
    · exact ⟨id, KernelValue.float.inj equal⟩
    · cases equal
    · cases equal

/-- Allocate a qubit and surround an `x` with two `h`. -/
def conjugatedX : Block ℝ :=
  let register := QuantumValue.veqAlloca 0 1
  let qubit := QuantumValue.extractRef register (.constant 0)
  [.leaf (.alloca register), .leaf (.extractRef qubit),
    (Gate.create .h false [] [] [qubit]).op,
    (Gate.create .x false [] [] [qubit]).op,
    (Gate.create .h false [] [] [qubit]).op, .leaf .ret]

theorem conjugatedX_valid : ValidBody (referenceFlow ℝ) conjugatedX where
  flat := by
    intro operation member
    simp only [conjugatedX, List.mem_cons, List.not_mem_nil, or_false]
      at member
    rcases member with rfl | rfl | rfl | rfl | rfl | rfl <;> rfl
  ordered := by
    simp [conjugatedX, ordered_cons, ValueFlow.flow, referenceFlow,
      OpData.acted, gateOperands, Gate.qubits, Gate.create, Gate.op,
      Node.leaf, Node.label]
  parameters := by
    intro operation member gate isGate count fixed
    simp only [conjugatedX, List.mem_cons, List.not_mem_nil, or_false]
      at member
    rcases member with rfl | rfl | rfl | rfl | rfl | rfl <;>
      cases isGate <;> cases fixed <;> rfl

theorem conjugatedX_staysBehind :
    StaysBehind (referenceFlow ℝ) conjugatedX
      ((WalkPass.rewriting .HXHToZ).run .findsNothing
        (kernelOf conjugatedX))
      ((WalkPass.rewriting .HXHToZ).walk .findsNothing 6 conjugatedX) :=
  walk_staysBehind (.rewriting .HXHToZ) .findsNothing conjugatedX_valid
    (Nat.le_refl 6)

end Walks

end MQSSPasses.Passes.Confinement

end
