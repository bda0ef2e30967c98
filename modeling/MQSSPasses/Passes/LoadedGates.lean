import MQSSPasses.General.BinaryFormat
import MQSSPasses.Passes.QuakeQMap

/-!
# Which gates the mapping loaders accept

The loaders tell a missing angle or index from a legal one by the number
`-1`, and they read the angle as a `float` and the index as an `int`.  A gate
without a loader, or with an operand count that its loader does not ask for,
is passed over without an error.  The file says for every gate what becomes
of it.
-/

namespace MQSSPasses.Passes.LoadedGates

open MQSSPasses.General.IntConversion
open MQSSPasses.General.TracedComputation
open MQSSPasses.General.OperationTree
open MQSSPasses.General.BinaryFormat
open MQSSPasses.Quake.Syntax
open MQSSPasses.Quake.Operations
open MQSSPasses.Passes.QuakeQMap

variable {A : Type}

/-! ## What one loader does -/

/-- The gate kind of an operation, if it is a gate. -/
def kindOf : QCOperation A → Option GateKind
  | .rx _ _ => some .rx
  | .ry _ _ => some .ry
  | .rz _ _ => some .rz
  | .x _ | .cx _ _ => some .x
  | .y _ | .cy _ _ => some .y
  | .z _ | .cz _ _ => some .z
  | .s _ => some .s
  | .t _ => some .t
  | .h _ => some .h
  | .measure _ _ | .measureAll => none

def anglesOf : QCOperation A → List A
  | .rx angle _ | .ry angle _ | .rz angle _ => [angle]
  | _ => []

def qubitsOf : QCOperation A → List ℤ
  | .rx _ qubit | .ry _ qubit | .rz _ qubit => [qubit]
  | .x qubit | .y qubit | .z qubit | .s qubit | .t qubit | .h qubit =>
      [qubit]
  | .cx control target | .cy control target | .cz control target =>
      [control, target]
  | .measure qubit _ => [qubit]
  | .measureAll => []

/-- The load stops with an error. -/
def Stops (load : Load A Unit) : Prop :=
  ∃ fault, load.outcome = .error fault

/-- The load appends one operation with the given data, and goes on. -/
def Appends (load : Load A Unit) (kind : GateKind) (angles : List A)
    (qubits : List ℤ) : Prop :=
  ∃ operation, load = Traced.record operation ∧
    kindOf operation = some kind ∧ anglesOf operation = angles ∧
    qubitsOf operation = qubits

theorem not_stops_pure : ¬ Stops (pure () : Load A Unit) := by
  rintro ⟨fault, ⟨⟩⟩

theorem not_appends_pure {kind : GateKind} {angles : List A}
    {qubits : List ℤ} :
    ¬ Appends (pure () : Load A Unit) kind angles qubits := by
  rintro ⟨operation, equal, -⟩
  have traces := congrArg Traced.trace equal
  cases traces

/-- An index is read, and it is not taken for a failure. -/
def ReadIndex (operand : Operand A) (qubit : ℤ) : Prop :=
  indexOf operand = .ok qubit ∧ qubit ≠ -1

/-- An operand with a valid index is a qubit. -/
theorem ReadIndex.isQubit {operand : Operand A} {qubit : ℤ}
    (read : ReadIndex operand qubit) :
    ∃ value, operand = .qubit value ∧
      qubitIndex value = .ok qubit := by
  cases operand with
  | qubit value => exact ⟨value, rfl, read.1⟩
  | parameter value =>
      rcases read with ⟨number, valid⟩
      cases value with
      | argument id => cases number
      | constant value => exact absurd (Except.ok.inj number).symm valid
      | computed id => exact absurd (Except.ok.inj number).symm valid

/-- An operand with a valid angle is a constant. -/
theorem isConstant_of_doubleOf [Neg A] [One A] {narrow : A → A}
    {operand : Operand A} {angle : A}
    (read : doubleOf narrow operand = .ok angle) (valid : angle ≠ -1) :
    ∃ value, operand = .parameter (.constant value) ∧
      narrow value = angle := by
  cases operand with
  | parameter value =>
      cases value with
      | constant value => exact ⟨value, rfl, Except.ok.inj read⟩
      | argument id => cases read
      | computed id => exact absurd (Except.ok.inj read).symm valid
  | qubit value =>
      cases value with
      | refArgument id => cases read
      | veqArgument id => cases read
      | refAlloca id => exact absurd (Except.ok.inj read).symm valid
      | veqAlloca id size => exact absurd (Except.ok.inj read).symm valid
      | extractRef veq index =>
          exact absurd (Except.ok.inj read).symm valid

/-- Read something and stop if that fails. -/
theorem stops_of_read_error {Value : Type} {result : Except Fault Value}
    {fault : Fault} (failed : result = .error fault)
    (next : Value → Load A Unit) :
    Stops (Traced.ofExcept result >>= next) := by
  rw [failed]
  exact ⟨fault, rfl⟩

theorem stops_of_assertion {condition : Prop} [Decidable condition]
    (fails : ¬ condition) (message : String) (next : Load A Unit) :
    Stops (assertThat condition message >>= fun _ => next) := by
  rw [assertThat_bind, if_neg fails]
  exact ⟨_, rfl⟩

theorem loadSingle_cases (single : ℤ → QCOperation A) (message : String)
    (operand : Operand A) :
    Stops (loadSingle single message operand) ∨
      ∃ qubit, ReadIndex operand qubit ∧
        loadSingle single message operand =
          Traced.record (single qubit) := by
  rw [loadSingle]
  cases read : indexOf operand with
  | error fault => exact .inl (stops_of_read_error rfl _)
  | ok qubit =>
      rw [Traced.ofExcept_ok_bind]
      by_cases valid : qubit ≠ -1
      · refine .inr ⟨qubit, ⟨read, valid⟩, ?_⟩
        rw [assertThat_bind, if_pos valid]
      · exact .inl (stops_of_assertion valid _ _)

theorem loadPair_cases (single : ℤ → QCOperation A)
    (controlled : ℤ → ℤ → QCOperation A) (first second : Operand A) :
    Stops (loadControlled single controlled [first, second]) ∨
      ∃ control target, ReadIndex first control ∧
        ReadIndex second target ∧
        loadControlled single controlled [first, second] =
          Traced.record (controlled control target) := by
  rw [loadControlled]
  cases readControl : indexOf first with
  | error fault => exact .inl (stops_of_read_error rfl _)
  | ok control =>
      rw [Traced.ofExcept_ok_bind]
      cases readTarget : indexOf second with
      | error fault => exact .inl (stops_of_read_error rfl _)
      | ok target =>
          rw [Traced.ofExcept_ok_bind]
          by_cases valid : ¬ (control = -1 ∨ target = -1)
          · have apart := not_or.mp valid
            refine .inr ⟨control, target, ⟨readControl, apart.1⟩,
              ⟨readTarget, apart.2⟩, ?_⟩
            rw [assertThat_bind, if_pos valid]
          · exact .inl (stops_of_assertion valid _ _)

theorem loadRotation_cases [DecidableEq A] [Neg A] [One A]
    (narrow : A → A) (append : A → ℤ → QCOperation A)
    (operands : List (Operand A)) :
    Stops (loadRotation narrow append operands) ∨
      ∃ value operand qubit,
        operands = [.parameter (.constant value), operand] ∧
        ReadIndex operand qubit ∧
        loadRotation narrow append operands =
          Traced.record (append (narrow value) qubit) := by
  rcases operands with - | ⟨first, - | ⟨second, - | -⟩⟩
  · exact .inl ⟨_, rfl⟩
  · exact .inl ⟨_, rfl⟩
  · rw [loadRotation]
    cases readAngle : doubleOf narrow first with
    | error fault => exact .inl (stops_of_read_error rfl _)
    | ok angle =>
        rw [Traced.ofExcept_ok_bind]
        cases readQubit : indexOf second with
        | error fault => exact .inl (stops_of_read_error rfl _)
        | ok qubit =>
            rw [Traced.ofExcept_ok_bind]
            by_cases valid : ¬ (angle = -1 ∨ qubit = -1)
            · have apart := not_or.mp valid
              rcases isConstant_of_doubleOf readAngle apart.1 with
                ⟨value, rfl, rfl⟩
              refine .inr ⟨value, second, qubit, rfl,
                ⟨readQubit, apart.2⟩, ?_⟩
              rw [assertThat_bind, if_pos valid]
            · exact .inl (stops_of_assertion valid _ _)
  · exact .inl ⟨_, rfl⟩

/-- Two kinds of items that differ can be told apart in a list. -/
theorem map_append_map_inj {First Second Item : Type}
    {left : First → Item} {right : Second → Item}
    (leftInjective : left.Injective) (rightInjective : right.Injective)
    (different : ∀ first second, left first ≠ right second)
    {firsts otherFirsts : List First} {seconds otherSeconds : List Second}
    (same :
      firsts.map left ++ seconds.map right =
        otherFirsts.map left ++ otherSeconds.map right) :
    firsts = otherFirsts ∧ seconds = otherSeconds := by
  induction firsts generalizing otherFirsts with
  | nil =>
      cases otherFirsts with
      | nil => exact ⟨rfl, List.map_injective_iff.mpr rightInjective same⟩
      | cons other others =>
          cases seconds with
          | nil => cases same
          | cons second rest =>
              exact (different _ _ (List.cons.inj same).1.symm).elim
  | cons first rest induction =>
      cases otherFirsts with
      | nil =>
          cases otherSeconds with
          | nil => cases same
          | cons second others =>
              exact (different _ _ (List.cons.inj same).1).elim
      | cons other others =>
          rcases List.cons.inj same with ⟨head, tail⟩
          rcases induction tail with ⟨equal, remaining⟩
          exact ⟨congrArg₂ List.cons (leftInjective head) equal, remaining⟩

/-- The operands of a gate are its parameters and then its qubits. -/
theorem operands_inj {gate : Gate A} (parameters : List (FloatValue A))
    (qubits : List QuantumValue)
    (shape :
      getOperands gate = parameters.map .parameter ++ qubits.map .qubit) :
    gate.parameters = parameters ∧ gate.qubits = qubits :=
  map_append_map_inj (fun _ _ => Operand.parameter.inj)
    (fun _ _ => Operand.qubit.inj) (fun _ _ => nofun) shape

/-! ## What becomes of a gate -/

section Gates

variable [DecidableEq A] [Neg A] [One A] (narrow : A → A)

/-- The loader of a gate, if there is one. -/
def loadGate (gate : Gate A) : Load A Unit :=
  match gate.kind with
  | .rx => loadRotation narrow .rx (getOperands gate)
  | .ry => loadRotation narrow .ry (getOperands gate)
  | .rz => loadRotation narrow .rz (getOperands gate)
  | .x => loadControlled .x .cx (getOperands gate)
  | .y => loadControlled .y .cy (getOperands gate)
  | .z => loadControlled .z .cz (getOperands gate)
  | .s => loadUncontrolled .s (getOperands gate)
  | .t => loadUncontrolled .t (getOperands gate)
  | .h => loadUncontrolled .h (getOperands gate)
  | _ => return ()

/-- At a gate at most one of the four loaders does something. -/
theorem loadOperation_of_gate (measurements : List (ℤ × ℤ)) {op : Op A}
    {gate : Gate A} (isGate : asOperator op = some gate) :
    loadOperation narrow measurements op = loadGate narrow gate := by
  have measures :
      loadMeasurementsToQC measurements op = (pure () : Load A Unit) := by
    rw [loadMeasurementsToQC, asOperator_eq_some.mp isGate]
  rw [loadOperation, loadRotationGatesToQC, loadXYZGatesToQC,
    loadSTHGatesToQC, measures, isGate, loadGate]
  rcases gate with ⟨kind, isAdj, parameters, controls, targets, negated⟩
  cases kind <;> simp only [Traced.pure_bind_eq]
  all_goals exact Traced.bind_pure_eq _

/--
The gates that a loader takes up.  The loader of rotations fails at another
number of operands, and the others pass over it.
-/
def Handled (gate : Gate A) : Prop :=
  match gate.kind with
  | .rx | .ry | .rz => True
  | .x | .y | .z =>
      (getOperands gate).length = 1 ∨ (getOperands gate).length = 2
  | .s | .t | .h => (getOperands gate).length = 1
  | _ => False

/-- The gate stops the load, or is appended with its angles and qubits. -/
def Accounted (gate : Gate A) (load : Load A Unit) : Prop :=
  Stops load ∨
    ∃ angles qubits,
      gate.parameters.mapM (extractDoubleArgumentValue narrow) =
          .ok angles ∧
        getIndicesOfValueRange gate.qubits = .ok qubits ∧
        Appends load gate.kind angles qubits

variable {narrow}

theorem rotation_accounted {gate : Gate A}
    {append : A → ℤ → QCOperation A}
    (appended :
      ∀ angle qubit, kindOf (append angle qubit) = some gate.kind ∧
        anglesOf (append angle qubit) = [angle] ∧
        qubitsOf (append angle qubit) = [qubit]) :
    Accounted narrow gate
      (loadRotation narrow append (getOperands gate)) := by
  rcases loadRotation_cases narrow append (getOperands gate) with
    stops | ⟨value, operand, qubit, shape, read, loaded⟩
  · exact .inl stops
  · rcases read.isQubit with ⟨reference, rfl, index⟩
    have parts := operands_inj [.constant value] [reference] shape
    refine .inr ⟨[narrow value], [qubit], ?_, ?_, _, loaded,
      appended _ _⟩
    · rw [parts.1]
      rfl
    · rw [parts.2, getIndicesOfValueRange, List.mapM_cons, index]
      rfl

omit [DecidableEq A] in
/-- A load that does nothing leaves the gate out. -/
theorem not_accounted_pure {gate : Gate A} :
    ¬ Accounted narrow gate (pure ()) := by
  rintro (stops | ⟨angles, qubits, -, -, appends⟩)
  · exact not_stops_pure stops
  · exact not_appends_pure appends

omit [DecidableEq A] in
theorem single_accounted {gate : Gate A} {operand : Operand A}
    (shape : getOperands gate = [operand])
    {single : ℤ → QCOperation A} (message : String)
    (appended :
      ∀ qubit, kindOf (single qubit) = some gate.kind ∧
        anglesOf (single qubit) = [] ∧ qubitsOf (single qubit) = [qubit]) :
    Accounted narrow gate (loadSingle single message operand) := by
  rcases loadSingle_cases single message operand with
    stops | ⟨qubit, read, loaded⟩
  · exact .inl stops
  · rcases read.isQubit with ⟨reference, rfl, index⟩
    have parts := operands_inj [] [reference] shape
    refine .inr ⟨[], [qubit], ?_, ?_, _, loaded, appended _⟩
    · rw [parts.1]
      rfl
    · rw [parts.2, getIndicesOfValueRange, List.mapM_cons, index]
      rfl

omit [DecidableEq A] in
theorem pair_accounted {gate : Gate A} {first second : Operand A}
    (shape : getOperands gate = [first, second])
    (single : ℤ → QCOperation A) {controlled : ℤ → ℤ → QCOperation A}
    (appended :
      ∀ control target,
        kindOf (controlled control target) = some gate.kind ∧
        anglesOf (controlled control target) = [] ∧
        qubitsOf (controlled control target) = [control, target]) :
    Accounted narrow gate
      (loadControlled single controlled [first, second]) := by
  rcases loadPair_cases single controlled first second with
    stops | ⟨control, target, readControl, readTarget, loaded⟩
  · exact .inl stops
  · rcases readControl.isQubit with ⟨reference, rfl, index⟩
    rcases readTarget.isQubit with ⟨other, rfl, otherIndex⟩
    have parts := operands_inj [] [reference, other] shape
    refine .inr ⟨[], [control, target], ?_, ?_, _, loaded, appended _ _⟩
    · rw [parts.1]
      rfl
    · rw [parts.2, getIndicesOfValueRange, List.mapM_cons, index,
        List.mapM_cons, otherIndex]
      rfl

omit [DecidableEq A] in
theorem controlled_accounted_iff {gate : Gate A}
    {single : ℤ → QCOperation A} {controlled : ℤ → ℤ → QCOperation A}
    (appendedSingle :
      ∀ qubit, kindOf (single qubit) = some gate.kind ∧
        anglesOf (single qubit) = [] ∧ qubitsOf (single qubit) = [qubit])
    (appended :
      ∀ control target,
        kindOf (controlled control target) = some gate.kind ∧
        anglesOf (controlled control target) = [] ∧
        qubitsOf (controlled control target) = [control, target]) :
    Accounted narrow gate
        (loadControlled single controlled (getOperands gate)) ↔
      (getOperands gate).length = 1 ∨ (getOperands gate).length = 2 := by
  rcases shape : getOperands gate with
    - | ⟨first, - | ⟨second, - | ⟨third, rest⟩⟩⟩
  · exact iff_of_false not_accounted_pure (by simp)
  · exact iff_of_true (single_accounted shape _ appendedSingle) (by simp)
  · exact iff_of_true (pair_accounted shape single appended) (by simp)
  · exact iff_of_false not_accounted_pure (by simp)

omit [DecidableEq A] in
theorem uncontrolled_accounted_iff {gate : Gate A}
    {single : ℤ → QCOperation A}
    (appended :
      ∀ qubit, kindOf (single qubit) = some gate.kind ∧
        anglesOf (single qubit) = [] ∧ qubitsOf (single qubit) = [qubit]) :
    Accounted narrow gate (loadUncontrolled single (getOperands gate)) ↔
      (getOperands gate).length = 1 := by
  rcases shape : getOperands gate with - | ⟨first, - | ⟨second, rest⟩⟩
  · exact iff_of_false not_accounted_pure (by simp)
  · exact iff_of_true (single_accounted shape _ appended) (by simp)
  · exact iff_of_false not_accounted_pure (by simp)

variable (narrow) in
/-- A gate is accounted for exactly if it has a loader for its operands. -/
theorem loadGate_accounted_iff (gate : Gate A) :
    Accounted narrow gate (loadGate narrow gate) ↔ Handled gate := by
  rw [loadGate, Handled]
  cases kind : gate.kind with
  | rx | ry | rz =>
      exact iff_of_true
        (rotation_accounted fun _ _ => ⟨kind ▸ rfl, rfl, rfl⟩) trivial
  | x | y | z =>
      exact controlled_accounted_iff (fun _ => ⟨kind ▸ rfl, rfl, rfl⟩)
        fun _ _ => ⟨kind ▸ rfl, rfl, rfl⟩
  | s | t | h =>
      exact uncontrolled_accounted_iff fun _ => ⟨kind ▸ rfl, rfl, rfl⟩
  | _ => exact iff_of_false not_accounted_pure id

/-! ## A whole kernel -/

variable (narrow) in
/-- An operation that the walk visits: what comes before it is loaded. -/
def Visited (measurements : List (ℤ × ℤ)) (kernel op : Op A) : Prop :=
  ∃ before after, postOrder kernel = before ++ op :: after ∧
    (loadOperations narrow measurements before).outcome = .ok ()

theorem loadOperations_append (measurements : List (ℤ × ℤ))
    (before after : Block A) :
    loadOperations narrow measurements (before ++ after) =
      loadOperations narrow measurements before >>= fun _ =>
        loadOperations narrow measurements after := by
  induction before with
  | nil => rw [List.nil_append, loadOperations, Traced.pure_bind_eq]
  | cons op rest induction =>
      rw [List.cons_append, loadOperations, loadOperations, induction,
        Traced.bind_assoc_eq]

/-- The load of a kernel stops where the load of an operation does. -/
theorem loadKernel_of_visited (measurements : List (ℤ × ℤ))
    {kernel op : Op A} {before after : Block A}
    (split : postOrder kernel = before ++ op :: after)
    (loaded : (loadOperations narrow measurements before).outcome = .ok ()) :
    (Stops (loadOperation narrow measurements op) →
      Stops (loadKernel narrow measurements kernel)) ∧
    ∃ later,
      (loadKernel narrow measurements kernel).trace =
        (loadOperations narrow measurements before).trace ++
          ((loadOperation narrow measurements op).trace ++ later) := by
  rw [loadKernel, split, loadOperations_append, Traced.bind_of_ok loaded,
    loadOperations]
  cases result : (loadOperation narrow measurements op).outcome with
  | error fault =>
      rw [Traced.bind_of_error result]
      exact ⟨fun _ => ⟨fault, rfl⟩, [], by simp⟩
  | ok value =>
      rw [Traced.bind_of_ok result]
      refine ⟨?_, _, rfl⟩
      rintro ⟨fault, failed⟩
      rw [result] at failed
      cases failed

/--
No visited gate is silently left out of the circuit exactly if the loaders
take up every visited gate.
-/
theorem visited_gates_accounted_iff (narrow : A → A)
    (measurements : List (ℤ × ℤ)) (kernel : Op A) :
    (∀ op gate, Visited narrow measurements kernel op →
        asOperator op = some gate →
          Accounted narrow gate (loadOperation narrow measurements op)) ↔
      ∀ op gate, Visited narrow measurements kernel op →
        asOperator op = some gate → Handled gate := by
  refine forall_congr' fun op => forall_congr' fun gate => ?_
  refine forall_congr' fun _ => forall_congr' fun isGate => ?_
  rw [loadOperation_of_gate narrow measurements isGate]
  exact loadGate_accounted_iff narrow gate

end Gates

/-! ## Rotations -/

/-- The loader rejects a rotation. -/
def IllFormed (load : Load A Unit) : Prop :=
  load.outcome = .error (.assertion "ill-formed rotation gate!")

/-- The angle is a floating-point constant. -/
def IsConstant (angle : FloatValue A) : Prop :=
  ∃ value, angle = .constant value

/-- The qubit is an `extract_ref` with a constant index. -/
def HasConstantIndex (qubit : QuantumValue) : Prop :=
  ∃ veq index, qubit = .extractRef veq (.constant index)

/--
Exactly the rotations without a constant angle or a constant index are
rejected, and the others are loaded by their angle, on the index as an
`int`.
-/
structure ChecksRotation (load : Load A Unit) (kind : GateKind)
    (angle : FloatValue A) (qubit : QuantumValue) : Prop where
  rejects :
    IllFormed load ↔ ¬ (IsConstant angle ∧ HasConstantIndex qubit)
  loads :
    ∀ value veq index, angle = .constant value →
      qubit = .extractRef veq (.constant index) →
        Appends load kind [value] [toInt index]

section Rotations

variable [DecidableEq A] [Neg A] [One A] {narrow : A → A}
variable {append : A → ℤ → QCOperation A}

/--
The operands are no block arguments, and what is read from a constant angle
and a constant index is the angle and the index as an `int`, none of which
is `-1`.
-/
def ReadExactly (narrow : A → A) (angle : FloatValue A)
    (qubit : QuantumValue) : Prop :=
  (∀ id, angle ≠ .argument id) ∧ Defined qubit ∧
    ∀ value veq index, angle = .constant value →
      qubit = .extractRef veq (.constant index) →
        narrow value = value ∧ value ≠ -1 ∧ toInt index ≠ -1

variable (narrow append) in
/-- A block argument is not rejected: reading it is a fault. -/
theorem loadRotation_argument {angle : FloatValue A}
    {qubit : QuantumValue}
    (argument : (∃ id, angle = .argument id) ∨ ¬ Defined qubit) :
    (loadRotation narrow append [.parameter angle, .qubit qubit]).outcome =
      .error .nullOperation := by
  rw [loadRotation]
  cases angle with
  | argument id => rfl
  | constant value | computed value =>
      have undefined := argument.resolve_left (by rintro ⟨id, ⟨⟩⟩)
      cases qubit with
      | refArgument id | veqArgument id => rfl
      | _ => exact absurd trivial undefined

/-- What is defined otherwise is rejected. -/
theorem loadRotation_improper {angle : FloatValue A}
    {qubit : QuantumValue} (noArgument : ∀ id, angle ≠ .argument id)
    (defined : Defined qubit)
    (improper : ¬ (IsConstant angle ∧ HasConstantIndex qubit)) :
    IllFormed
      (loadRotation narrow append [.parameter angle, .qubit qubit]) := by
  rcases indexReadable_iff.mpr defined with ⟨index, read⟩
  have readQubit : indexOf (.qubit qubit : Operand A) = .ok index := read
  rw [loadRotation, readQubit, IllFormed]
  cases angle with
  | argument id => exact absurd rfl (noArgument id)
  | computed id =>
      rw [doubleOf, extractDoubleArgumentValue, Traced.ofExcept_ok_bind,
        Traced.ofExcept_ok_bind, assertThat_bind,
        if_neg fun valid => valid (.inl rfl)]
      rfl
  | constant value =>
      have failed : index = -1 := by
        cases qubit with
        | refArgument id | veqArgument id => cases defined
        | refAlloca id | veqAlloca id size =>
            exact (Except.ok.inj read).symm
        | extractRef veq place =>
            cases place with
            | dynamic id => exact (Except.ok.inj read).symm
            | constant place =>
                exact absurd ⟨⟨value, rfl⟩, ⟨veq, place, rfl⟩⟩ improper
      rw [doubleOf, extractDoubleArgumentValue, Traced.ofExcept_ok_bind,
        Traced.ofExcept_ok_bind, assertThat_bind,
        if_neg fun valid => valid (.inr failed)]
      rfl

/-- A constant angle on a constant index is asserted not to be `-1`. -/
theorem loadRotation_constant (value : A) (veq : QuantumValue)
    (index : ℤ) :
    loadRotation narrow append
        [.parameter (.constant value),
          .qubit (.extractRef veq (.constant index))] =
      if ¬ (narrow value = -1 ∨ toInt index = -1) then
        Traced.record (append (narrow value) (toInt index))
      else Traced.raise (.assertion "ill-formed rotation gate!") := by
  have read :
      indexOf (.qubit (.extractRef veq (.constant index)) : Operand A) =
        .ok (toInt index) := rfl
  rw [loadRotation, read, doubleOf, extractDoubleArgumentValue,
    Traced.ofExcept_ok_bind, Traced.ofExcept_ok_bind, assertThat_bind]

/-- A rotation by a constant is checked unless the value read is `-1`. -/
theorem loadRotation_constant_checks_iff {kind : GateKind}
    (appended :
      ∀ angle qubit, kindOf (append angle qubit) = some kind ∧
        anglesOf (append angle qubit) = [angle] ∧
        qubitsOf (append angle qubit) = [qubit])
    (value : A) (veq : QuantumValue) (index : ℤ) :
    ChecksRotation
        (loadRotation narrow append
          [.parameter (.constant value),
            .qubit (.extractRef veq (.constant index))])
        kind (.constant value) (.extractRef veq (.constant index)) ↔
      ReadExactly narrow (.constant value)
        (.extractRef veq (.constant index)) := by
  rw [loadRotation_constant]
  constructor
  · rintro ⟨-, loads⟩
    rcases loads value veq index rfl rfl with
      ⟨operation, loaded, -, angles, -⟩
    by_cases invalid : narrow value = -1 ∨ toInt index = -1
    · rw [if_neg (not_not.mpr invalid)] at loaded
      have outcomes := congrArg Traced.outcome loaded
      cases outcomes
    · rw [if_pos invalid] at loaded
      have same := List.cons.inj (congrArg Traced.trace loaded)
      rw [← same.1, (appended _ _).2.1, List.cons.injEq] at angles
      rw [not_or, angles.1] at invalid
      refine ⟨fun _ => nofun, trivial, ?_⟩
      rintro _ _ _ ⟨⟩ ⟨⟩
      exact ⟨angles.1, invalid⟩
  · rintro ⟨-, -, exactly⟩
    rcases exactly value veq index rfl rfl with ⟨same, notMinusOne, valid⟩
    rw [same, if_pos (not_or.mpr ⟨notMinusOne, valid⟩)]
    refine ⟨iff_of_false (by rintro ⟨⟩) ?_, ?_⟩
    · exact fun improper => improper ⟨⟨value, rfl⟩, ⟨veq, index, rfl⟩⟩
    · rintro _ _ _ ⟨⟩ ⟨⟩
      exact ⟨_, rfl, appended _ _⟩

/-- A rotation whose operands are read through a null pointer. -/
theorem loadRotation_argument_not_checks {kind : GateKind}
    {angle : FloatValue A} {qubit : QuantumValue}
    (argument : (∃ id, angle = .argument id) ∨ ¬ Defined qubit) :
    ¬ ChecksRotation
        (loadRotation narrow append [.parameter angle, .qubit qubit]) kind
        angle qubit := by
  intro checks
  have fault := loadRotation_argument narrow append argument
  have accepted : IsConstant angle ∧ HasConstantIndex qubit := by
    by_contra improper
    have rejected := checks.rejects.mpr improper
    rw [IllFormed, fault] at rejected
    cases rejected
  rcases accepted with ⟨⟨value, rfl⟩, ⟨veq, index, rfl⟩⟩
  rcases argument with ⟨id, ⟨⟩⟩ | undefined
  exact undefined trivial

theorem loadRotation_checks_iff {kind : GateKind}
    (appended :
      ∀ angle qubit, kindOf (append angle qubit) = some kind ∧
        anglesOf (append angle qubit) = [angle] ∧
        qubitsOf (append angle qubit) = [qubit])
    (angle : FloatValue A) (qubit : QuantumValue) :
    ChecksRotation
        (loadRotation narrow append [.parameter angle, .qubit qubit]) kind
        angle qubit ↔
      ReadExactly narrow angle qubit := by
  by_cases argument : (∃ id, angle = .argument id) ∨ ¬ Defined qubit
  · refine iff_of_false (loadRotation_argument_not_checks argument) ?_
    rintro ⟨noArgument, defined, -⟩
    rcases argument with ⟨id, rfl⟩ | undefined
    · exact noArgument id rfl
    · exact undefined defined
  · rw [not_or, not_exists, not_not] at argument
    rcases argument with ⟨noArgument, defined⟩
    by_cases proper : IsConstant angle ∧ HasConstantIndex qubit
    · rcases proper with ⟨⟨value, rfl⟩, ⟨veq, index, rfl⟩⟩
      exact loadRotation_constant_checks_iff appended value veq index
    · refine iff_of_true ⟨iff_of_true
        (loadRotation_improper noArgument defined proper) proper, ?_⟩
        ⟨noArgument, defined, ?_⟩
      · rintro value veq index rfl rfl
        exact absurd ⟨⟨value, rfl⟩, ⟨veq, index, rfl⟩⟩ proper
      · rintro value veq index rfl rfl
        exact absurd ⟨⟨value, rfl⟩, ⟨veq, index, rfl⟩⟩ proper

end Rotations

/-! ## Angles of type `double` -/

section Doubles

scoped instance : Neg Extended := ⟨Extended.neg⟩

scoped instance : One Extended := ⟨.finite 1⟩

/-- The loaders, with the conversion to `float`. -/
def loadRotationOfDouble (op : Op Extended) : Load Extended Unit :=
  loadRotationGatesToQC binary32.convert op

/--
An uncontrolled rotation is checked and loaded as its operands are exactly
if these are read exactly.
-/
theorem rotation_checked_iff {kind : GateKind}
    (isRotation : kind ∈ [.rx, .ry, .rz]) (isAdj : Bool)
    (angle : FloatValue Extended) (qubit : QuantumValue)
    (negated : Option (List Bool)) :
    ChecksRotation
        (loadRotationOfDouble
          (Gate.op ⟨kind, isAdj, [angle], [], [qubit], negated⟩))
        kind angle qubit ↔
      ReadExactly binary32.convert angle qubit := by
  simp only [List.mem_cons, List.not_mem_nil, or_false] at isRotation
  rcases isRotation with rfl | rfl | rfl
  all_goals
    exact loadRotation_checks_iff (fun _ _ => ⟨rfl, rfl, rfl⟩) angle qubit

/-- A rotation by one on a qubit with a constant index. -/
theorem rotation_checked_of_one :
    ChecksRotation
      (loadRotationOfDouble
        (Gate.op ⟨.rx, false, [.constant (.finite 1)], [],
          [.extractRef (.veqAlloca 0 2) (.constant 1)], none⟩))
      .rx (.constant (.finite 1))
      (.extractRef (.veqAlloca 0 2) (.constant 1)) := by
  refine (rotation_checked_iff (by simp) false _ _ none).mpr
    ⟨by rintro _ ⟨⟩, trivial, ?_⟩
  rintro _ _ _ ⟨⟩ ⟨⟩
  refine ⟨Format.convert_eq_self_iff.mpr ⟨by norm_num [binary32], 1, 0,
    by norm_num [binary32], by norm_num [binary32], by norm_num⟩,
    ?_, by decide⟩
  intro equal
  have values := Extended.finite.inj equal
  norm_num at values

/-- A rotation by minus one is rejected. -/
theorem rotation_by_minus_one_rejected :
    ¬ ChecksRotation
      (loadRotationOfDouble
        (Gate.op ⟨.rx, false, [.constant (.finite (-1))], [],
          [.extractRef (.veqAlloca 0 1) (.constant 0)], none⟩))
      .rx (.constant (.finite (-1)))
      (.extractRef (.veqAlloca 0 1) (.constant 0)) := by
  intro checks
  have rejected :
      IllFormed
        (loadRotationOfDouble
          (Gate.op ⟨.rx, false, [.constant (.finite (-1))], [],
            [.extractRef (.veqAlloca 0 1) (.constant 0)], none⟩)) := by
    have minusOne : binary32.convert (.finite (-1)) = -1 :=
      Format.convert_eq_self_iff.mpr ⟨by norm_num [binary32], -1, 0,
        by norm_num [binary32], by norm_num [binary32], by norm_num⟩
    change IllFormed (loadRotation binary32.convert .rx
      [.parameter (.constant (.finite (-1))),
        .qubit (.extractRef (.veqAlloca 0 1) (.constant 0))])
    rw [loadRotation_constant, if_neg (not_not.mpr (.inl minusOne))]
    rfl
  exact checks.rejects.mp rejected ⟨⟨_, rfl⟩, ⟨_, _, rfl⟩⟩

/-- A swap and a gate with two controls are missing from the circuit. -/
theorem gates_missing_from_circuit :
    ∃ kernel : Op Extended,
      kernel = kernelOf
        [(Gate.create .swap false [] []
            [.extractRef (.veqAlloca 0 3) (.constant 0),
              .extractRef (.veqAlloca 0 3) (.constant 1)]).op,
          (Gate.create .x false []
            [.extractRef (.veqAlloca 0 3) (.constant 0),
              .extractRef (.veqAlloca 0 3) (.constant 1)]
            [.extractRef (.veqAlloca 0 3) (.constant 2)]).op] ∧
      loadKernel binary32.convert [] kernel = ⟨[], .ok ()⟩ ∧
      ¬ ∀ op gate, Visited binary32.convert [] kernel op →
          asOperator op = some gate →
            Accounted binary32.convert gate
              (loadOperation binary32.convert [] op) := by
  refine ⟨_, rfl, rfl, ?_⟩
  intro accounted
  rcases accounted _ _ ⟨[], _, rfl, rfl⟩ rfl with
    ⟨fault, ⟨⟩⟩ | ⟨angles, qubits, -, -, operation, equal, -⟩
  have traces := congrArg Traced.trace equal
  cases traces

end Doubles

end MQSSPasses.Passes.LoadedGates
