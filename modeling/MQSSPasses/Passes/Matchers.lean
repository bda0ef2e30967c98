import MQSSPasses.Passes.Rewriting

/-!
# The matchers of the rewriting passes

Each matcher follows its source function: the checks on the visited gate,
the look-back, the checks on the gate found, and the rewrite.  A failed
`dyn_cast` whose result is used without a check is a fault.

What a matcher decides is taken apart where it is proved about.  Several
files treat the cancellation passes, so for `patternCancellation` an
inversion theorem describes its plan completely.
-/

namespace MQSSPasses.Passes.Matchers

open MQSSPasses.General.TracedComputation
open MQSSPasses.General.OperationTree
open MQSSPasses.Quake.Syntax
open MQSSPasses.Quake.Operations
open MQSSPasses.Passes.Rewriting

variable {A : Type}

/-! ## The steps the matchers share -/

/-- An element of a range of operands. -/
def element (values : List QuantumValue) (index : ℕ) :
    Except Fault QuantumValue :=
  match values[index]? with
  | some value => .ok value
  | none => .error .outOfRange

/-- `dyn_cast` to a gate and the check of its operand counts. -/
def gateOfShape (kind : GateKind) (nCtrls nTgts : ℕ) (op : Op A) :
    Option (Gate A) :=
  match asGate kind op with
  | some gate =>
      if gate.controls.length = nCtrls ∧ gate.targets.length = nTgts then
        some gate
      else none
  | none => none

/-- Go on if the operation is a gate of the given shape. -/
def withGate (kind : GateKind) (nCtrls nTgts : ℕ) (op : Op A)
    (next : Gate A → Except Fault (Option (Plan A))) :
    Except Fault (Option (Plan A)) :=
  match gateOfShape kind nCtrls nTgts op with
  | none => return none
  | some gate => next gate

/-- Go on if the look-back finds a gate. -/
def withPrevious (before : Block A) (scanned : QuantumValue)
    (next : Found A → Except Fault (Option (Plan A))) :
    Except Fault (Option (Plan A)) := do
  match ← getPreviousOperationOnTarget before scanned with
  | none => return none
  | some found => next found

/-- Use the result of a `dyn_cast` without a check. -/
def castGate (kind : GateKind) (op : Op A) : Except Fault (Gate A) :=
  match asGate kind op with
  | some gate => .ok gate
  | none => .error .failedCast

theorem element_eq_ok {values : List QuantumValue} {index : ℕ}
    {value : QuantumValue} :
    element values index = .ok value ↔ values[index]? = some value := by
  unfold element
  cases values[index]? <;> simp

theorem gateOfShape_eq_some {kind : GateKind} {nCtrls nTgts : ℕ}
    {op : Op A} {gate : Gate A} :
    gateOfShape kind nCtrls nTgts op = some gate ↔
      asGate kind op = some gate ∧ gate.controls.length = nCtrls ∧
        gate.targets.length = nTgts := by
  unfold gateOfShape
  cases cast : asGate kind op with
  | none => simp
  | some other =>
      by_cases counts :
          other.controls.length = nCtrls ∧ other.targets.length = nTgts
      · simp only [counts, and_self, if_true, Option.some.injEq]
        constructor
        · rintro rfl
          exact ⟨rfl, counts⟩
        · exact And.left
      · simp only [counts, if_false, reduceCtorEq, Option.some.injEq,
          false_iff, not_and]
        rintro rfl
        exact fun first second => counts ⟨first, second⟩

theorem withGate_eq_some {kind : GateKind} {nCtrls nTgts : ℕ}
    {op : Op A} {next : Gate A → Except Fault (Option (Plan A))}
    {plan : Plan A} :
    withGate kind nCtrls nTgts op next = .ok (some plan) ↔
      ∃ gate, gateOfShape kind nCtrls nTgts op = some gate ∧
        next gate = .ok (some plan) := by
  unfold withGate
  cases gateOfShape kind nCtrls nTgts op <;>
    simp [pure, Except.pure]

theorem withPrevious_eq_some {before : Block A} {scanned : QuantumValue}
    {next : Found A → Except Fault (Option (Plan A))} {plan : Plan A} :
    withPrevious before scanned next = .ok (some plan) ↔
      ∃ found,
        getPreviousOperationOnTarget before scanned = .ok (some found) ∧
          next found = .ok (some plan) := by
  unfold withPrevious
  rw [except_bind_eq_ok]
  constructor
  · rintro ⟨result, looked, continued⟩
    cases result with
    | none => simp [pure, Except.pure] at continued
    | some found => exact ⟨found, looked, continued⟩
  · rintro ⟨found, looked, continued⟩
    exact ⟨some found, looked, continued⟩

theorem ite_none_eq_some {condition : Prop} [Decidable condition]
    {decision : Except Fault (Option (Plan A))} {plan : Plan A} :
    (if condition then decision else return none) = .ok (some plan) ↔
      condition ∧ decision = .ok (some plan) := by
  by_cases holds : condition <;> simp [holds, pure, Except.pure]

theorem return_some_eq {made plan : Plan A} :
    (return some made : Except Fault (Option (Plan A))) =
        .ok (some plan) ↔
      made = plan := by
  simp [pure, Except.pure]

/-! ### Matchers that complete -/

/-- A computation that returns. -/
def Decides {Value : Type} (decision : Except Fault Value) : Prop :=
  ∃ value, decision = .ok value

theorem Decides.pure {Value : Type} (value : Value) :
    Decides (return value) :=
  ⟨value, rfl⟩

theorem Decides.bind {First Second : Type} {first : Except Fault First}
    {next : First → Except Fault Second}
    (head : Decides first)
    (tail : ∀ value, first = .ok value → Decides (next value)) :
    Decides (first >>= next) := by
  rcases head with ⟨value, returned⟩
  rw [returned]
  exact tail value returned

theorem Decides.ite {Value : Type} {condition : Prop}
    [Decidable condition] {first second : Except Fault Value}
    (left : Decides first) (right : Decides second) :
    Decides (if condition then first else second) := by
  by_cases holds : condition
  · rw [if_pos holds]
    exact left
  · rw [if_neg holds]
    exact right

theorem withGate_decides {kind : GateKind} {nCtrls nTgts : ℕ}
    {op : Op A} {next : Gate A → Except Fault (Option (Plan A))}
    (continues :
      ∀ gate, gateOfShape kind nCtrls nTgts op = some gate →
        Decides (next gate)) :
    Decides (withGate kind nCtrls nTgts op next) := by
  unfold withGate
  cases shape : gateOfShape kind nCtrls nTgts op with
  | none => exact .pure none
  | some gate => exact continues gate shape

theorem withPrevious_decides {before : Block A} {scanned : QuantumValue}
    {next : Found A → Except Fault (Option (Plan A))}
    (target : IndexReadable scanned)
    (readable :
      ∀ operation ∈ before, ∀ gate,
        asOperator operation = some gate →
          ∀ operand ∈ gate.qubits, IndexReadable operand)
    (continues :
      ∀ found,
        getPreviousOperationOnTarget before scanned = .ok (some found) →
          Decides (next found)) :
    Decides (withPrevious before scanned next) := by
  apply Decides.bind (getPreviousOperationOnTarget_returns target readable)
  intro result looked
  cases result with
  | none => exact .pure none
  | some found => exact continues found looked

theorem element_decides {values : List QuantumValue} {index : ℕ}
    (inside : index < values.length) : Decides (element values index) :=
  ⟨values.get ⟨index, inside⟩, by
    rw [element_eq_ok, List.getElem?_eq_getElem inside]
    rfl⟩

theorem element_mem {values : List QuantumValue} {index : ℕ}
    {value : QuantumValue} (read : element values index = .ok value) :
    value ∈ values :=
  List.mem_of_getElem? (element_eq_ok.mp read)

/-- The first of one operand. -/
theorem eq_singleton_of_element {values : List QuantumValue}
    {value : QuantumValue} (single : values.length = 1)
    (read : element values 0 = .ok value) : values = [value] := by
  rcases List.length_eq_one_iff.mp single with ⟨only, list⟩
  rw [element_eq_ok, list] at read
  rw [list, Option.some.inj read]

/-- The gate a look-back found, read through a `dyn_cast`. -/
theorem found_gate_eq {found : Found A} {before : Block A}
    {scanned : QuantumValue} (correct : found.Correct before scanned)
    {kind : GateKind} {gate : Gate A}
    (cast : asGate kind found.operation = some gate) :
    found.gate = gate := by
  have label := (asGate_eq_some.mp cast).1
  have read := correct.isGate
  rw [asOperator_eq_some.mpr label, Option.some.injEq] at read
  exact read.symm

/-! ## Cancellation -/

/-- The pairs of operands that have one index. -/
def matched (left right : List QuantumValue) :
    List (QuantumValue × QuantumValue) :=
  (left.product right).filter fun operands =>
    qubitIndex operands.1 = qubitIndex operands.2

/-- Compare two ranges of operands by their indices in descending order. -/
def sameIndices (left right : List QuantumValue) : Except Fault Bool :=
  if left.length = right.length then do
    let leftIndices ← getIndicesOfValueRange left
    let rightIndices ← getIndicesOfValueRange right
    return leftIndices.insertionSort (· ≥ ·) =
      rightIndices.insertionSort (· ≥ ·)
  else return false

/-- Two single operands compare as their indices do. -/
theorem sameIndices_single {value other : QuantumValue}
    (same : sameIndices [value] [other] = .ok true) :
    qubitIndex value = qubitIndex other := by
  cases read : qubitIndex value with
  | error fault =>
      simp [sameIndices, getIndicesOfValueRange, read, bind,
        Except.bind] at same
  | ok index =>
      cases readOther : qubitIndex other with
      | error fault =>
          simp [sameIndices, getIndicesOfValueRange, read, readOther, bind,
            Except.bind, pure, Except.pure] at same
      | ok otherIndex =>
          simp [sameIndices, getIndicesOfValueRange, read, readOther, bind,
            Except.bind, pure, Except.pure] at same
          rw [same]

/-- `patternCancellation<T1, T2>`. -/
def patternCancellation (T1 T2 : GateKind)
    (nCtrlsOp1 nTgtsOp1 nCtrlsOp2 nTgtsOp2 : ℕ) : Matcher A :=
  fun before currentOp =>
    withGate T2 nCtrlsOp2 nTgtsOp2 currentOp fun currentGate => do
      let target ← element currentGate.targets 0
      withPrevious before target fun found =>
        withGate T1 nCtrlsOp1 nTgtsOp1 found.operation
          fun previousGate => do
            let sameControls ←
              sameIndices currentGate.controls previousGate.controls
            let sameTargets ←
              sameIndices currentGate.targets previousGate.targets
            if sameControls && sameTargets then
              return some
                { pairings :=
                    [⟨found, currentGate, target,
                      (target, found.named) ::
                        (matched currentGate.controls
                            previousGate.controls ++
                          matched currentGate.targets
                            previousGate.targets)⟩]
                  before := found.lower ++ found.between
                  current := none
                  inserted := [] }
            else return none

/-- A plan of `patternCancellation` deletes the visited and the found gate. -/
structure Cancels (T1 T2 : GateKind)
    (nCtrlsOp1 nTgtsOp1 nCtrlsOp2 nTgtsOp2 : ℕ)
    (before : Block A) (currentOp : Op A) (plan : Plan A)
    (found : Found A) (currentGate : Gate A) (target : QuantumValue) :
    Prop where
  looked :
    getPreviousOperationOnTarget before target = .ok (some found)
  current :
    gateOfShape T2 nCtrlsOp2 nTgtsOp2 currentOp = some currentGate
  previous :
    gateOfShape T1 nCtrlsOp1 nTgtsOp1 found.operation = some found.gate
  operand : element currentGate.targets 0 = .ok target
  sameControls :
    sameIndices currentGate.controls found.gate.controls = .ok true
  sameTargets :
    sameIndices currentGate.targets found.gate.targets = .ok true
  planned :
    plan =
      { pairings :=
          [⟨found, currentGate, target,
            (target, found.named) ::
              (matched currentGate.controls found.gate.controls ++
                matched currentGate.targets found.gate.targets)⟩]
        before := found.lower ++ found.between
        current := none
        inserted := [] }

theorem patternCancellation_inversion {T1 T2 : GateKind}
    {nCtrlsOp1 nTgtsOp1 nCtrlsOp2 nTgtsOp2 : ℕ}
    {before : Block A} {currentOp : Op A} {plan : Plan A}
    (planned :
      patternCancellation T1 T2 nCtrlsOp1 nTgtsOp1 nCtrlsOp2 nTgtsOp2
        before currentOp = .ok (some plan)) :
    ∃ found currentGate target,
      Cancels T1 T2 nCtrlsOp1 nTgtsOp1 nCtrlsOp2 nTgtsOp2
        before currentOp plan found currentGate target := by
  simp only [patternCancellation, withGate_eq_some,
    withPrevious_eq_some, except_bind_eq_ok, ite_none_eq_some,
    return_some_eq] at planned
  rcases planned with
    ⟨currentGate, current, target, operand, found, looked, previousGate,
      previous, sameControls, controls, sameTargets, targets, both, made⟩
  have correct := getPreviousOperationOnTarget_correct looked
  have same :=
    found_gate_eq correct (gateOfShape_eq_some.mp previous).1
  subst same
  simp only [Bool.and_eq_true] at both
  rw [both.1] at controls
  rw [both.2] at targets
  exact ⟨found, currentGate, target,
    { looked := looked
      current := current
      previous := previous
      operand := operand
      sameControls := controls
      sameTargets := targets
      planned := made.symm }⟩

theorem matched_sameIndex {left right : List QuantumValue} :
    ∀ operands ∈ matched left right,
      qubitIndex operands.1 = qubitIndex operands.2 := by
  intro operands member
  simpa using (List.mem_filter.mp member).2

/-! ## Commutation -/

/-- `commuteOperation<T1, T2>`. -/
def commuteOperation (T1 T2 : GateKind)
    (nCtrlsOp1 nTgtsOp1 nCtrlsOp2 nTgtsOp2 : ℕ) : Matcher A :=
  fun before currentOp =>
    withGate T2 nCtrlsOp2 nTgtsOp2 currentOp fun currentGate => do
      let target ← element currentGate.targets 0
      withPrevious before target fun found =>
        withGate T1 nCtrlsOp1 nTgtsOp1 found.operation
          fun previousGate => do
            let previousTarget ← element previousGate.targets 0
            let targetPrev ←
              qubitIndex previousTarget
            let targetCurr ← qubitIndex target
            if targetPrev = targetCurr then
              return some
                { pairings :=
                    [⟨found, currentGate, target,
                      [(target, found.named),
                        (previousTarget, target)]⟩]
                  before := found.lower ++ found.between
                  current := none
                  inserted :=
                    [(Gate.create T2 currentGate.isAdj
                        currentGate.parameters currentGate.controls
                        currentGate.targets).op,
                      (Gate.create T1 previousGate.isAdj
                        previousGate.parameters previousGate.controls
                        previousGate.targets).op] }
            else return none

/-- A phase gate on the control of an earlier controlled gate. -/
def commuteCNotZ : Matcher A := fun before currentOp =>
  withGate .z 0 1 currentOp fun currentGate => do
    let target ← element currentGate.targets 0
    withPrevious before target fun found =>
      withGate .x 1 1 found.operation fun previousGate => do
        let previousTarget ← element previousGate.targets 0
        let _targetPrev ←
          qubitIndex previousTarget
        let previousControl ← element previousGate.controls 0
        let controlPrev ←
          qubitIndex previousControl
        let targetCurr ← qubitIndex target
        if targetCurr = controlPrev then
          return some
            { pairings :=
                [⟨found, currentGate, target,
                  [(target, found.named), (target, previousControl)]⟩]
              before := found.lower ++ found.between
              current := some currentOp
              inserted :=
                [(Gate.create .x previousGate.isAdj
                  previousGate.parameters previousGate.controls
                  previousGate.targets).op] }
        else return none

/-- A controlled gate whose control carries an earlier phase gate. -/
def commuteZCNot : Matcher A := fun before currentOp =>
  withGate .x 1 1 currentOp fun currentGate => do
    let control ← element currentGate.controls 0
    withPrevious before control fun found =>
      withGate .z 0 1 found.operation fun previousGate => do
        let previousTarget ← element previousGate.targets 0
        let targetPrev ←
          qubitIndex previousTarget
        let controlCurr ← qubitIndex control
        if targetPrev = controlCurr then
          return some
            { pairings :=
                [⟨found, currentGate, control,
                  [(control, found.named),
                    (previousTarget, control)]⟩]
              before := found.lower ++ found.between
              current := some currentOp
              inserted :=
                [(Gate.create .z previousGate.isAdj
                  previousGate.parameters previousGate.controls
                  previousGate.targets).op] }
        else return none

/-! ## Switches -/

/-- `patternSwitch<T1, T2, T3, T4>`; the cast to `T1` is not checked. -/
def patternSwitch (T1 T2 T3 T4 : GateKind) : Matcher A :=
  fun before currentOp =>
    withGate T2 0 1 currentOp fun currentGate => do
      let target ← element currentGate.targets 0
      withPrevious before target fun found => do
        let prevGate ← castGate T1 found.operation
        if prevGate.controls.length = 0 ∧
            prevGate.targets.length = 1 then
          return some
            { pairings :=
                [⟨found, currentGate, target,
                  [(target, found.named)]⟩]
              before := found.lower ++ found.between
              current := none
              inserted :=
                [(Gate.create T3 currentGate.isAdj
                    currentGate.parameters currentGate.controls
                    currentGate.targets).op,
                  (Gate.create T4 prevGate.isAdj prevGate.parameters
                    prevGate.controls prevGate.targets).op] }
        else return none

/-- The Pauli gate a Hadamard gate turns a Pauli gate into. -/
def switchedPauli : GateKind → Option GateKind
  | .x => some .z
  | .y => some .y
  | .z => some .x
  | _ => none

/-- Move an earlier Pauli gate behind the visited Hadamard gate. -/
def SwitchPauliHOperation : Matcher A := fun before currentOp =>
  withGate .h 0 1 currentOp fun currentGate => do
    let target ← element currentGate.targets 0
    withPrevious before target fun found =>
      match switchedPauli found.gate.kind with
      | none => return none
      | some pauli =>
          if found.gate.controls.length = 0 ∧
              found.gate.targets.length = 1 then
            return some
              { pairings :=
                  [⟨found, currentGate, target,
                    [(target, found.named)]⟩]
                before := found.lower ++ found.between
                current := some currentOp
                inserted :=
                  [(Gate.create pauli found.gate.isAdj
                    found.gate.parameters found.gate.controls
                    found.gate.targets).op] }
          else return none

/-! ## Fusion -/

/--
Replace a Hadamard gate, a `middle` gate and a Hadamard gate by one gate.
The cast of the earliest gate is not checked.
-/
def replaceConjugated (middle replacement : GateKind) : Matcher A :=
  fun before currentOp =>
    withGate .h 0 1 currentOp fun currentGate => do
      let target ← element currentGate.targets 0
      withPrevious before target fun found =>
        withGate middle 0 1 found.operation fun prevGate =>
          withPrevious found.lower target fun earlier => do
            let prevPrevGate ← castGate .h earlier.operation
            if prevPrevGate.controls.length = 0 ∧
                prevPrevGate.targets.length = 1 then
              return some
                { pairings :=
                    [⟨found, currentGate, target,
                        [(target, found.named)]⟩,
                      ⟨earlier, prevGate, target,
                        [(target, earlier.named)]⟩]
                  before :=
                    earlier.lower ++ earlier.between ++ found.between
                  current := none
                  inserted :=
                    [(Gate.create replacement false []
                      currentGate.controls currentGate.targets).op] }
            else return none

def ReplaceHXHToZ : Matcher A :=
  replaceConjugated .x .z

def ReplaceHZHToX : Matcher A :=
  replaceConjugated .z .x

/-- Fuse `Z` with an earlier `S` whose adjoint flag is `adjoint`. -/
def fusePhase (adjoint : Bool) : Matcher A := fun before currentOp =>
  withGate .z 0 1 currentOp fun currentGate => do
    let target ← element currentGate.targets 0
    withPrevious before target fun found =>
      withGate .s 0 1 found.operation fun prevGate =>
        if prevGate.isAdj = adjoint then
          return some
            { pairings :=
                [⟨found, currentGate, target,
                  [(target, found.named)]⟩]
              before := found.lower ++ found.between
              current := none
              inserted :=
                [(Gate.create .s (!adjoint) prevGate.parameters
                  prevGate.controls prevGate.targets).op] }
        else return none

def ReplaceSZToSAdj : Matcher A :=
  fusePhase false

def ReplaceSAdjZToS : Matcher A :=
  fusePhase true

/-! ## The passes -/

/-- The rewriting passes. -/
inductive RewritingPass where
  | ReductionPattern
  | CancellationDoubleCx
  | CommuteCxRx
  | CommuteCxX
  | CommuteCxZ
  | CommuteRxCx
  | CommuteXCx
  | CommuteZCx
  | SwitchHX
  | SwitchHY
  | SwitchHZ
  | SwitchPauliH
  | SwitchXH
  | SwitchYH
  | SwitchZH
  | HXHToZ
  | HZHToX
  | SZToSAdj
  | SAdjZToS
  deriving DecidableEq, Repr

/-- The matchers a pass calls, in order, at each operation. -/
def RewritingPass.matchers : RewritingPass → List (Matcher A)
  | .ReductionPattern =>
      [patternCancellation .x .x 1 1 1 1,
        patternCancellation .x .x 0 1 0 1,
        patternCancellation .y .y 1 1 1 1,
        patternCancellation .y .y 0 1 0 1,
        patternCancellation .z .z 1 1 1 1,
        patternCancellation .z .z 0 1 0 1,
        patternCancellation .h .h 1 1 1 1,
        patternCancellation .h .h 0 1 0 1]
  | .CancellationDoubleCx => [patternCancellation .x .x 1 1 1 1]
  | .CommuteCxRx => [commuteOperation .x .rx 1 1 0 1]
  | .CommuteCxX => [commuteOperation .x .x 1 1 0 1]
  | .CommuteCxZ => [commuteCNotZ]
  | .CommuteRxCx => [commuteOperation .rx .x 0 1 1 1]
  | .CommuteXCx => [commuteOperation .x .x 0 1 1 1]
  | .CommuteZCx => [commuteZCNot]
  | .SwitchHX => [patternSwitch .h .x .z .h]
  | .SwitchHY => [patternSwitch .h .y .y .h]
  | .SwitchHZ => [patternSwitch .h .z .x .h]
  | .SwitchPauliH => [SwitchPauliHOperation]
  | .SwitchXH => [patternSwitch .x .h .h .z]
  | .SwitchYH => [patternSwitch .y .h .h .y]
  | .SwitchZH => [patternSwitch .z .h .h .x]
  | .HXHToZ => [ReplaceHXHToZ]
  | .HZHToX => [ReplaceHZHToX]
  | .SZToSAdj => [ReplaceSZToSAdj]
  | .SAdjZToS => [ReplaceSAdjZToS]

/-- Run a rewriting pass over a kernel. -/
def RewritingPass.run (rewriting : RewritingPass) (stale : StaleRead)
    (kernel : Op A) : Traced Fault (Edit A) (Op A) :=
  operationsOnQuantumKernel stale rewriting.matchers kernel

end MQSSPasses.Passes.Matchers
