import MQSSPasses.LinAlg.QuakeToLinAlg
import MQSSPasses.Quake.ClassicalBits
import MQSSPasses.Quake.Semantics

/-!
# Loading a kernel into a `qc::QuantumComputation`

The mapping pass makes a circuit of the mapping tool, with the qubits that
the kernel allocates, walks the kernel and hands every operation to four
loaders, which append operations to the circuit.  The loaders read the
operands of a gate by position and its class, and nothing else: the adjoint
flag and the flags of negated controls are dropped.  An angle is read
through a conversion to `float`, which is a parameter, and an index through
one to `int`, which the circuit takes for an unsigned number.

So the circuit implements the kernel as it is read, without these flags.
The file proves this for every kernel of the supported gates, and derives
when the circuit implements the kernel itself.
-/

namespace MQSSPasses.Passes.QuakeQMap

open MQSSPasses.General.IntConversion
open MQSSPasses.General.TracedComputation
open MQSSPasses.General.OperationTree
open MQSSPasses.General.ControlledElement
open MQSSPasses.General.QubitOperators
open MQSSPasses.General.GateMatrices
open MQSSPasses.Quake.Syntax
open MQSSPasses.Quake.Operations
open MQSSPasses.Quake.Semantics
open MQSSPasses.Quake.ClassicalBits (getNumberOfClassicalBits BitCount
  measuredOperands events getNumberOfClassicalBits_of_countable)
open MQSSPasses.LinAlg.QuakeToLinAlg (getNumberOfQubits)

/-! ## Operands by position -/

/-- An operand of an operation. -/
inductive Operand (A : Type) where
  | parameter (value : FloatValue A)
  | qubit (value : QuantumValue)
  deriving DecidableEq, Repr

/-- `op->getOperands()` of a gate. -/
def getOperands {A : Type} (gate : Gate A) : List (Operand A) :=
  gate.parameters.map .parameter ++ gate.qubits.map .qubit

section Loaders

variable {A : Type} [DecidableEq A] [Neg A] [One A] (narrow : A → A)

/-- `extractDoubleArgumentValue` on any operand. -/
def doubleOf : Operand A → Except Fault A
  | .parameter value => extractDoubleArgumentValue narrow value
  | .qubit (.refArgument _) | .qubit (.veqArgument _) =>
      .error .nullOperation
  | .qubit _ => .ok (-1)

/-- `qubitIndex` on any operand. -/
def indexOf : Operand A → Except Fault ℤ
  | .parameter (.argument _) => .error .nullOperation
  | .parameter _ => .ok (-1)
  | .qubit value => qubitIndex value

/-! ## The loaders -/

/-- The operations that the loaders append to a `qc::QuantumComputation`. -/
inductive QCOperation (A : Type) where
  | rx (angle : A) (qubit : ℤ)
  | ry (angle : A) (qubit : ℤ)
  | rz (angle : A) (qubit : ℤ)
  | x (qubit : ℤ)
  | y (qubit : ℤ)
  | z (qubit : ℤ)
  | cx (control target : ℤ)
  | cy (control target : ℤ)
  | cz (control target : ℤ)
  | s (qubit : ℤ)
  | t (qubit : ℤ)
  | h (qubit : ℤ)
  | measure (qubit bit : ℤ)
  | measureAll
  deriving DecidableEq, Repr

/-- A computation that appends to the circuit. -/
abbrev Load (A Value : Type) : Type := Traced Fault (QCOperation A) Value

/-- `assert(condition && message)`. -/
def assertThat (condition : Prop) [Decidable condition]
    (message : String) : Load A Unit :=
  if condition then return () else Traced.raise (.assertion message)

/-- Load a rotation from an angle and a qubit. -/
def loadRotation (append : A → ℤ → QCOperation A) :
    List (Operand A) → Load A Unit
  | [operand1, operand2] => do
      let angle ← Traced.ofExcept (doubleOf narrow operand1)
      let qubit ← Traced.ofExcept (indexOf operand2)
      assertThat (¬ (angle = -1 ∨ qubit = -1)) "ill-formed rotation gate!"
      Traced.record (append angle qubit)
  | _ => Traced.raise (.assertion "ill-formed rotation gate!")

def loadRotationGatesToQC (op : Op A) : Load A Unit :=
  match asOperator op with
  | some gate =>
      match gate.kind with
      | .rx => loadRotation narrow .rx (getOperands gate)
      | .ry => loadRotation narrow .ry (getOperands gate)
      | .rz => loadRotation narrow .rz (getOperands gate)
      | _ => return ()
  | none => return ()

/-- Load a gate from one qubit. -/
def loadSingle (single : ℤ → QCOperation A) (message : String)
    (operand1 : Operand A) : Load A Unit := do
  let qubit ← Traced.ofExcept (indexOf operand1)
  assertThat (qubit ≠ -1) message
  Traced.record (single qubit)

/-- Load a gate from a control and a target, or from a target. -/
def loadControlled (single : ℤ → QCOperation A)
    (controlled : ℤ → ℤ → QCOperation A) :
    List (Operand A) → Load A Unit
  | [operand1, operand2] => do
      let qubit_ctrl ← Traced.ofExcept (indexOf operand1)
      let qubit_target ← Traced.ofExcept (indexOf operand2)
      assertThat (¬ (qubit_ctrl = -1 ∨ qubit_target = -1))
        "ill-formed controlled gate!"
      Traced.record (controlled qubit_ctrl qubit_target)
  | [operand1] =>
      loadSingle single "ill-formed single gate X, Y and Z!" operand1
  | _ => return ()

def loadXYZGatesToQC (op : Op A) : Load A Unit :=
  match asOperator op with
  | some gate =>
      match gate.kind with
      | .x => loadControlled .x .cx (getOperands gate)
      | .y => loadControlled .y .cy (getOperands gate)
      | .z => loadControlled .z .cz (getOperands gate)
      | _ => return ()
  | none => return ()

/-- Load a gate that has one operand, and no other gate. -/
def loadUncontrolled (single : ℤ → QCOperation A) :
    List (Operand A) → Load A Unit
  | [operand1] =>
      loadSingle single "ill-formed single gate, S, T or H !" operand1
  | _ => return ()

def loadSTHGatesToQC (op : Op A) : Load A Unit :=
  match asOperator op with
  | some gate =>
      match gate.kind with
      | .s => loadUncontrolled .s (getOperands gate)
      | .t => loadUncontrolled .t (getOperands gate)
      | .h => loadUncontrolled .h (getOperands gate)
      | _ => return ()
  | none => return ()

/-- A value of type `!quake.veq`. -/
def isVeq : QuantumValue → Bool
  | .veqArgument _ | .veqAlloca _ _ => true
  | _ => false

def loadMeasurementsToQC (measurements : List (ℤ × ℤ)) (op : Op A) :
    Load A Unit :=
  match op.label with
  | .measure _ [operand] =>
      if isVeq operand then Traced.record .measureAll
      else do
        let qubitIndex ← Traced.ofExcept
          (qubitIndex operand)
        assertThat (qubitIndex ≠ -1)
          "Non valid qubit index for measurement!"
        match measurements.lookup qubitIndex with
        | some bit => Traced.record (.measure qubitIndex bit)
        | none => Traced.raise .outOfRange
  | .measure _ _ =>
      Traced.raise (.assertion "ill-formed measurement gate!")
  | _ => return ()

/-- What the walk does at one operation. -/
def loadOperation (measurements : List (ℤ × ℤ)) (op : Op A) :
    Load A Unit := do
  loadRotationGatesToQC narrow op
  loadXYZGatesToQC op
  loadSTHGatesToQC op
  loadMeasurementsToQC measurements op

def loadOperations (measurements : List (ℤ × ℤ)) : Block A → Load A Unit
  | [] => return ()
  | op :: rest => do
      loadOperation narrow measurements op
      loadOperations measurements rest

/--
The operations of the circuit of a kernel.  `measurements` maps measured
qubits to their classical bits.
-/
def loadKernel (measurements : List (ℤ × ℤ)) (kernel : Op A) :
    Load A Unit :=
  loadOperations narrow measurements (postOrder kernel)

/-- A `qc::QuantumComputation`: its qubits and bits, and its operations. -/
structure QuantumComputation (A : Type) where
  nqubits : ℕ
  nclassics : ℕ
  operations : List (QCOperation A)
  deriving DecidableEq, Repr

/--
The circuit that the pass makes of a kernel.  The size in the type of a
register argument counts for the bits only.
-/
def quantumComputation (argumentSize : ℕ → ℕ) (circuit : Op A) :
    Except Fault (QuantumComputation A) := do
  let count ← getNumberOfClassicalBits argumentSize circuit
  let qc := loadKernel narrow count.measurements circuit
  qc.outcome
  return ⟨toSize (getNumberOfQubits circuit), count.numBits, qc.trace⟩

end Loaders

/-! ## The unitary of a circuit -/

noncomputable section Circuits

variable {A Q : Type} [DecidableEq Q] (interp : Interpretation A Q)
variable (veq : QuantumValue)

/-- The qubit of the kernel with the number of a qubit of the circuit. -/
def wire (qubit : ℤ) : Q :=
  interp.qubit (.extractRef veq (.constant (toUnsigned qubit)))

/-- A matrix controlled by one qubit. -/
def controlledOn (control target : Q) (matrix : BitMatrix) : Operator Q :=
  controlled (on control (projector true)) (on target matrix)

/-- The operator of an operation; measurements are left aside. -/
def circuitOperator : QCOperation A → Operator Q
  | .rx angle qubit =>
      on (wire interp veq qubit)
        (rotationX (interp.angle (.constant angle)))
  | .ry angle qubit =>
      on (wire interp veq qubit)
        (rotationY (interp.angle (.constant angle)))
  | .rz angle qubit =>
      on (wire interp veq qubit)
        (rotationZ (interp.angle (.constant angle)))
  | .x qubit => on (wire interp veq qubit) pauliX
  | .y qubit => on (wire interp veq qubit) pauliY
  | .z qubit => on (wire interp veq qubit) pauliZ
  | .cx control target =>
      controlledOn (wire interp veq control) (wire interp veq target) pauliX
  | .cy control target =>
      controlledOn (wire interp veq control) (wire interp veq target) pauliY
  | .cz control target =>
      controlledOn (wire interp veq control) (wire interp veq target) pauliZ
  | .s qubit => on (wire interp veq qubit) (phaseShift (Real.pi / 2))
  | .t qubit => on (wire interp veq qubit) (phaseShift (Real.pi / 4))
  | .h qubit => on (wire interp veq qubit) hadamard
  | .measure _ _ | .measureAll => 1

/-- The operator of a circuit: later operations stand on the left. -/
def denoteCircuit : List (QCOperation A) → Operator Q
  | [] => 1
  | operation :: rest =>
      denoteCircuit rest * circuitOperator interp veq operation

theorem denoteCircuit_append (first second : List (QCOperation A)) :
    denoteCircuit interp veq (first ++ second) =
      denoteCircuit interp veq second * denoteCircuit interp veq first := by
  induction first with
  | nil => simp [denoteCircuit]
  | cons operation rest induction =>
      rw [List.cons_append, denoteCircuit, denoteCircuit, induction,
        mul_assoc]

/-! ## The kernels the loaders support -/

/-- A parameter as the loaders read it. -/
def narrowed (narrow : A → A) : FloatValue A → FloatValue A
  | .constant value => .constant (narrow value)
  | other => other

/-- A reference with its index as the circuit holds it. -/
def loadedQubit : QuantumValue → QuantumValue
  | .extractRef veq (.constant index) =>
      .extractRef veq (.constant (toUnsigned index))
  | other => other

/-- A gate as the loaders read it, without the flags that they drop. -/
def loadedGate (narrow : A → A) (gate : Gate A) : Gate A :=
  { kind := gate.kind
    isAdj := false
    parameters := gate.parameters.map (narrowed narrow)
    controls := gate.controls.map loadedQubit
    targets := gate.targets.map loadedQubit
    negatedQubitControls := none }

/-- An operation whose gate, if it is one, is as the loaders read it. -/
def asLoaded (narrow : A → A) (operation : Op A) : Op A :=
  match asOperator operation with
  | some gate => (loadedGate narrow gate).op
  | none => operation

/-- The gates of the fragment, with any flags. -/
inductive SupportedGate : Gate A → Prop where
  | rotation (kind : GateKind) (isRotation : kind ∈ [.rx, .ry, .rz])
      (isAdj : Bool) (parameter : FloatValue A) (index : ExtractIndex)
      (negated : Option (List Bool)) :
      SupportedGate
        ⟨kind, isAdj, [parameter], [], [.extractRef veq index], negated⟩
  | single (kind : GateKind) (isSingle : kind ∈ [.x, .y, .z, .s, .t, .h])
      (isAdj : Bool) (index : ExtractIndex)
      (negated : Option (List Bool)) :
      SupportedGate ⟨kind, isAdj, [], [], [.extractRef veq index], negated⟩
  | controlled (kind : GateKind) (isPauli : kind ∈ [.x, .y, .z])
      (isAdj : Bool) (control target : ExtractIndex)
      (negated : Option (List Bool)) :
      SupportedGate
        ⟨kind, isAdj, [], [.extractRef veq control],
          [.extractRef veq target], negated⟩

/-- A supported gate, or the definition of the register or of a value. -/
inductive SupportedOperation : Op A → Prop where
  | gate (gate : Gate A) (supported : SupportedGate veq gate) :
      SupportedOperation gate.op
  | alloca : SupportedOperation (.leaf (.alloca veq))
  | extractRef (result : QuantumValue) :
      SupportedOperation (.leaf (.extractRef result))
  | constant (result : FloatValue A) :
      SupportedOperation (.leaf (.constant result))
  | ret : SupportedOperation (.leaf .ret)

/-- A parameter that the loaders do not take for a failure. -/
def ReadableParameter [Neg A] [One A] (narrow : A → A)
    (parameter : FloatValue A) : Prop :=
  ∃ angle, parameter = .constant angle ∧ narrow angle ≠ -1

/-- An index that the loaders do not take for a failure. -/
def ReadableIndex (value : QuantumValue) : Prop :=
  ∃ index, value = .extractRef veq (.constant index) ∧ toInt index ≠ -1

/-- An operation the loaders can read, if it is a gate. -/
def Readable [Neg A] [One A] (narrow : A → A) (operation : Op A) : Prop :=
  ∀ gate, asOperator operation = some gate →
    (∀ parameter ∈ gate.parameters, ReadableParameter narrow parameter) ∧
      ∀ value ∈ gate.qubits, ReadableIndex veq value

end Circuits

/-! ## What the loaders build -/

section Loading

variable {A Q : Type} [DecidableEq Q] {interp : Interpretation A Q}
variable {veq : QuantumValue}

/--
The load succeeds exactly under a condition, and the operations it appends
then have the given operator.
-/
def Loads (interp : Interpretation A Q) (veq : QuantumValue)
    (computation : Load A Unit) (readable : Prop)
    (operator : Operator Q) : Prop :=
  (computation.outcome = .ok () ↔ readable) ∧
    (readable → denoteCircuit interp veq computation.trace = operator)

theorem Loads.nothing {computation : Load A Unit}
    (nothing : computation = pure ()) :
    Loads interp veq computation True 1 := by
  subst nothing
  exact ⟨iff_of_true rfl trivial, fun _ => rfl⟩

theorem Loads.bind {first second : Load A Unit} {early late : Prop}
    {operator later : Operator Q}
    (loadsFirst : Loads interp veq first early operator)
    (loadsSecond : Loads interp veq second late later) :
    Loads interp veq (first >>= fun _ => second) (early ∧ late)
      (later * operator) := by
  constructor
  · rw [← loadsFirst.1, ← loadsSecond.1, Traced.bind_ok_iff]
    constructor
    · rintro ⟨_, returned, follows, -⟩
      exact ⟨returned, follows⟩
    · rintro ⟨returned, follows⟩
      refine ⟨(), returned, follows, ?_⟩
      rw [Traced.bind_of_ok returned]
  · rintro ⟨holds, holdsLater⟩
    rw [Traced.bind_of_ok (loadsFirst.1.mpr holds), denoteCircuit_append,
      loadsFirst.2 holds, loadsSecond.2 holdsLater]

theorem Loads.congr {computation : Load A Unit} {readable other : Prop}
    {operator replaced : Operator Q}
    (loads : Loads interp veq computation readable operator)
    (same : readable ↔ other) (equal : other → operator = replaced) :
    Loads interp veq computation other replaced :=
  ⟨loads.1.trans same,
    fun holds => (loads.2 (same.mpr holds)).trans (equal holds)⟩

theorem Loads.failing {readable : Prop} {operator : Operator Q}
    (fails : ¬ readable) (fault : Fault) :
    Loads interp veq (Traced.raise fault) readable operator :=
  ⟨iff_of_false (by rintro ⟨⟩) fails, fun holds => (fails holds).elim⟩

/-- Append an operation if a condition holds, and fail otherwise. -/
theorem Loads.guarded (condition : Prop) [Decidable condition]
    (operation : QCOperation A) (fault : Fault) :
    Loads interp veq
      (if condition then Traced.record operation else Traced.raise fault)
      condition (circuitOperator interp veq operation) := by
  split
  next holds =>
      exact ⟨iff_of_true rfl holds, fun _ => one_mul _⟩
  next fails =>
      exact .failing fails fault

/-- The number the loaders read for the index of a reference. -/
def rawIndex : ExtractIndex → ℤ
  | .constant index => toInt index
  | .dynamic _ => kDynamicIndex

theorem indexOf_extractRef (index : ExtractIndex) :
    (indexOf (.qubit (.extractRef veq index) : Operand A)) =
      .ok (rawIndex index) := by
  cases index <;> rfl

theorem readableIndex_iff {index : ExtractIndex} :
    ReadableIndex veq (.extractRef veq index) ↔ rawIndex index ≠ -1 := by
  cases index with
  | constant value =>
      constructor
      · rintro ⟨other, ⟨⟩, valid⟩
        exact valid
      · exact fun valid => ⟨value, rfl, valid⟩
  | dynamic value =>
      refine iff_of_false ?_ fun valid => valid rfl
      rintro ⟨other, ⟨⟩, valid⟩

/-- A readable reference is held as the qubit of its number. -/
theorem wire_rawIndex {index : ExtractIndex}
    (readable : ReadableIndex veq (.extractRef veq index)) :
    wire interp veq (rawIndex index) =
      interp.qubit (loadedQubit (.extractRef veq index)) := by
  rcases readable with ⟨value, ⟨⟩, -⟩
  rw [wire, rawIndex, toUnsigned_toInt, loadedQubit]

theorem assertThat_bind (condition : Prop) [Decidable condition]
    (message : String) (next : Load A Unit) :
    (assertThat condition message >>= fun _ => next) =
      if condition then next else Traced.raise (.assertion message) := by
  rw [assertThat]
  split
  · rw [Traced.pure_bind_eq]
  · rw [Traced.raise_bind]

/-- A gate on one qubit is loaded if its index is readable. -/
theorem loadSingle_loads {single : ℤ → QCOperation A} (message : String)
    {matrix : BitMatrix}
    (appended :
      ∀ qubit, circuitOperator interp veq (single qubit) =
        on (wire interp veq qubit) matrix)
    (index : ExtractIndex) :
    Loads interp veq
      (loadSingle single message (.qubit (.extractRef veq index)))
      (ReadableIndex veq (.extractRef veq index))
      (on (interp.qubit (loadedQubit (.extractRef veq index))) matrix) := by
  rw [loadSingle, indexOf_extractRef, Traced.ofExcept_ok_bind, assertThat_bind]
  refine (Loads.guarded _ _ _).congr readableIndex_iff.symm ?_
  intro readable
  rw [appended, wire_rawIndex readable]

theorem loadControlled_loads {single : ℤ → QCOperation A}
    {controlled : ℤ → ℤ → QCOperation A} {matrix : BitMatrix}
    (appended :
      ∀ control target,
        circuitOperator interp veq (controlled control target) =
          controlledOn (wire interp veq control) (wire interp veq target)
            matrix)
    (control target : ExtractIndex) :
    Loads interp veq
      (loadControlled single controlled
        [.qubit (.extractRef veq control), .qubit (.extractRef veq target)])
      (ReadableIndex veq (.extractRef veq control) ∧
        ReadableIndex veq (.extractRef veq target))
      (controlledOn (interp.qubit (loadedQubit (.extractRef veq control)))
        (interp.qubit (loadedQubit (.extractRef veq target))) matrix) := by
  rw [loadControlled, indexOf_extractRef, indexOf_extractRef,
    Traced.ofExcept_ok_bind, Traced.ofExcept_ok_bind, assertThat_bind]
  refine (Loads.guarded _ _ _).congr ?_ ?_
  · rw [readableIndex_iff, readableIndex_iff, not_or]
  · rintro ⟨controlReadable, targetReadable⟩
    rw [appended, wire_rawIndex controlReadable,
      wire_rawIndex targetReadable]

section Numbers

variable [DecidableEq A] [Neg A] [One A] {narrow : A → A}

theorem loadRotation_loads {append : A → ℤ → QCOperation A}
    {matrix : ℝ → BitMatrix}
    (appended :
      ∀ angle qubit, circuitOperator interp veq (append angle qubit) =
        on (wire interp veq qubit)
          (matrix (interp.angle (.constant angle))))
    (parameter : FloatValue A) (index : ExtractIndex) :
    Loads interp veq
      (loadRotation narrow append
        [.parameter parameter, .qubit (.extractRef veq index)])
      (ReadableParameter narrow parameter ∧
        ReadableIndex veq (.extractRef veq index))
      (on (interp.qubit (loadedQubit (.extractRef veq index)))
        (matrix (interp.angle (narrowed narrow parameter)))) := by
  cases parameter with
  | constant angle =>
      have readable :
          ReadableParameter narrow (.constant angle) ↔
            narrow angle ≠ -1 := by
        constructor
        · rintro ⟨other, ⟨⟩, valid⟩
          exact valid
        · exact fun valid => ⟨angle, rfl, valid⟩
      rw [loadRotation, indexOf_extractRef, doubleOf,
        extractDoubleArgumentValue, Traced.ofExcept_ok_bind,
        Traced.ofExcept_ok_bind, assertThat_bind]
      refine (Loads.guarded _ _ _).congr ?_ ?_
      · rw [readable, readableIndex_iff, not_or]
      · rintro ⟨-, indexReadable⟩
        rw [appended, wire_rawIndex indexReadable, narrowed]
  | argument id =>
      refine Loads.failing ?_ .nullOperation
      rintro ⟨⟨_, ⟨⟩, _⟩, _⟩
  | computed id =>
      have asserted :
          loadRotation narrow append
              [.parameter (.computed id), .qubit (.extractRef veq index)] =
            Traced.raise (.assertion "ill-formed rotation gate!") := by
        rw [loadRotation, indexOf_extractRef, doubleOf,
          extractDoubleArgumentValue, Traced.ofExcept_ok_bind,
          Traced.ofExcept_ok_bind, assertThat_bind,
          if_neg fun valid => valid (.inl rfl)]
      rw [asserted]
      refine Loads.failing ?_ _
      rintro ⟨⟨_, ⟨⟩, _⟩, _⟩

/-! ## One operation and a whole kernel -/

variable (measurements : List (ℤ × ℤ))

/-- The walk does what the loaders do one after the other. -/
theorem Loads.of_operation {operation : Op A}
    {rotation pauli other : Prop} {first second third : Operator Q}
    (rotations :
      Loads interp veq (loadRotationGatesToQC narrow operation) rotation
        first)
    (paulis :
      Loads interp veq (loadXYZGatesToQC operation) pauli second)
    (others :
      Loads interp veq (loadSTHGatesToQC operation) other third)
    (measures : loadMeasurementsToQC measurements operation = pure ()) :
    Loads interp veq (loadOperation narrow measurements operation)
      (rotation ∧ pauli ∧ other) (third * second * first) := by
  refine (rotations.bind (paulis.bind
    (others.bind (.nothing measures)))).congr ?_ ?_
  · rw [and_true]
  · intro _
    rw [one_mul]

section OneLoader

variable {operation : Op A} {readable : Prop} {operator : Operator Q}

theorem Loads.of_rotation
    (loads :
      Loads interp veq (loadRotationGatesToQC narrow operation) readable
        operator)
    (paulis : loadXYZGatesToQC operation = pure ())
    (others : loadSTHGatesToQC operation = pure ())
    (measures : loadMeasurementsToQC measurements operation = pure ()) :
    Loads interp veq (loadOperation narrow measurements operation) readable
      operator :=
  (loads.of_operation measurements (.nothing paulis)
    (.nothing others) measures).congr (by simp) fun _ => by simp

theorem Loads.of_pauli
    (loads :
      Loads interp veq (loadXYZGatesToQC operation) readable operator)
    (rotations : loadRotationGatesToQC narrow operation = pure ())
    (others : loadSTHGatesToQC operation = pure ())
    (measures : loadMeasurementsToQC measurements operation = pure ()) :
    Loads interp veq (loadOperation narrow measurements operation) readable
      operator :=
  (Loads.of_operation measurements (.nothing rotations) loads
    (.nothing others) measures).congr (by simp) fun _ => by simp

theorem Loads.of_other
    (loads :
      Loads interp veq (loadSTHGatesToQC operation) readable operator)
    (rotations : loadRotationGatesToQC narrow operation = pure ())
    (paulis : loadXYZGatesToQC operation = pure ())
    (measures : loadMeasurementsToQC measurements operation = pure ()) :
    Loads interp veq (loadOperation narrow measurements operation) readable
      operator :=
  (Loads.of_operation measurements (.nothing rotations)
    (.nothing paulis) loads measures).congr (by simp) fun _ => by simp

end OneLoader

omit [DecidableEq A] in
theorem readable_op_iff {gate : Gate A} :
    Readable veq narrow gate.op ↔
      (∀ parameter ∈ gate.parameters, ReadableParameter narrow parameter) ∧
        ∀ value ∈ gate.qubits, ReadableIndex veq value := by
  constructor
  · exact fun readable => readable gate rfl
  · rintro readable other ⟨⟩
    exact readable

/-- A rotation is loaded as it is read. -/
theorem rotationGate_loads {kind : GateKind} {parameter : FloatValue A}
    (append : A → ℤ → QCOperation A) (matrix : ℝ → BitMatrix)
    (appended :
      ∀ angle qubit, circuitOperator interp veq (append angle qubit) =
        on (wire interp veq qubit)
          (matrix (interp.angle (.constant angle))))
    (standard : ∀ angle, standardMatrix kind [angle] = some (matrix angle))
    (index : ExtractIndex) :
    Loads interp veq
      (loadRotation narrow append
        [.parameter parameter, .qubit (.extractRef veq index)])
      ((∀ other ∈ [parameter], ReadableParameter narrow other) ∧
        ∀ value ∈ [QuantumValue.extractRef veq index],
          ReadableIndex veq value)
      (gateOperator interp
        (Gate.create kind false [narrowed narrow parameter] []
          [loadedQubit (.extractRef veq index)])) := by
  refine (loadRotation_loads appended parameter index).congr ?_ ?_
  · simp
  · intro _
    rw [gateOperator_create interp (standard _)]
    simp [withAdjoint]

omit [DecidableEq A] in
/-- A gate on one qubit is loaded as it is read. -/
theorem singleGate_loads {kind : GateKind} {message : String}
    (append : ℤ → QCOperation A) (matrix : BitMatrix)
    (appended :
      ∀ qubit, circuitOperator interp veq (append qubit) =
        on (wire interp veq qubit) matrix)
    (standard : standardMatrix kind [] = some matrix)
    (index : ExtractIndex) :
    Loads interp veq
      (loadSingle append message (.qubit (.extractRef veq index)))
      ((∀ other ∈ ([] : List (FloatValue A)), ReadableParameter narrow other) ∧
        ∀ value ∈ [QuantumValue.extractRef veq index],
          ReadableIndex veq value)
      (gateOperator interp
        (Gate.create kind false [] []
          [loadedQubit (.extractRef veq index)])) := by
  refine (loadSingle_loads message appended index).congr ?_ ?_
  · simp
  · intro _
    rw [gateOperator_create interp standard]
    simp [withAdjoint]

omit [DecidableEq A] in
/-- A gate with one control is loaded as it is read. -/
theorem controlledGate_loads {kind : GateKind}
    (single : ℤ → QCOperation A) (append : ℤ → ℤ → QCOperation A)
    (matrix : BitMatrix)
    (appended :
      ∀ first second,
        circuitOperator interp veq (append first second) =
          controlledOn (wire interp veq first)
            (wire interp veq second) matrix)
    (standard : standardMatrix kind [] = some matrix)
    (control target : ExtractIndex) :
    Loads interp veq
      (loadControlled single append
        [.qubit (.extractRef veq control),
          .qubit (.extractRef veq target)])
      ((∀ other ∈ ([] : List (FloatValue A)), ReadableParameter narrow other) ∧
        ∀ value ∈ [QuantumValue.extractRef veq control,
            .extractRef veq target],
          ReadableIndex veq value)
      (gateOperator interp
        (Gate.create kind false [] [loadedQubit (.extractRef veq control)]
          [loadedQubit (.extractRef veq target)])) := by
  refine (loadControlled_loads appended control target).congr ?_ ?_
  · simp
  · intro _
    rw [gateOperator_create interp standard]
    simp [withAdjoint, controlledOn]

/-- A supported gate is loaded as it is read. -/
theorem loadOperation_gate {gate : Gate A}
    (supported : SupportedGate veq gate) :
    Loads interp veq (loadOperation narrow measurements gate.op)
      (Readable veq narrow gate.op)
      (gateOperator interp (loadedGate narrow gate)) := by
  rw [readable_op_iff]
  cases supported with
  | rotation kind isRotation isAdj parameter index negated =>
      simp only [List.mem_cons, List.not_mem_nil, or_false] at isRotation
      rcases isRotation with rfl | rfl | rfl
      · exact .of_rotation measurements
          (rotationGate_loads .rx rotationX (fun _ _ => rfl) (fun _ => rfl)
            index) rfl rfl rfl
      · exact .of_rotation measurements
          (rotationGate_loads .ry rotationY (fun _ _ => rfl) (fun _ => rfl)
            index) rfl rfl rfl
      · exact .of_rotation measurements
          (rotationGate_loads .rz rotationZ (fun _ _ => rfl) (fun _ => rfl)
            index) rfl rfl rfl
  | single kind isSingle isAdj index negated =>
      simp only [List.mem_cons, List.not_mem_nil, or_false] at isSingle
      rcases isSingle with rfl | rfl | rfl | rfl | rfl | rfl
      · exact .of_pauli measurements
          (singleGate_loads .x pauliX (fun _ => rfl) rfl index)
          rfl rfl rfl
      · exact .of_pauli measurements
          (singleGate_loads .y pauliY (fun _ => rfl) rfl index)
          rfl rfl rfl
      · exact .of_pauli measurements
          (singleGate_loads .z pauliZ (fun _ => rfl) rfl index)
          rfl rfl rfl
      · exact .of_other measurements
          (singleGate_loads .s (phaseShift (Real.pi / 2))
            (fun _ => rfl) rfl index) rfl rfl rfl
      · exact .of_other measurements
          (singleGate_loads .t (phaseShift (Real.pi / 4))
            (fun _ => rfl) rfl index) rfl rfl rfl
      · exact .of_other measurements
          (singleGate_loads .h hadamard (fun _ => rfl) rfl index)
          rfl rfl rfl
  | controlled kind isPauli isAdj control target negated =>
      simp only [List.mem_cons, List.not_mem_nil, or_false] at isPauli
      rcases isPauli with rfl | rfl | rfl
      · exact .of_pauli measurements
          (controlledGate_loads .x .cx pauliX (fun _ _ => rfl) rfl
            control target) rfl rfl rfl
      · exact .of_pauli measurements
          (controlledGate_loads .y .cy pauliY (fun _ _ => rfl) rfl
            control target) rfl rfl rfl
      · exact .of_pauli measurements
          (controlledGate_loads .z .cz pauliZ (fun _ _ => rfl) rfl
            control target) rfl rfl rfl

theorem loadOperation_loads {operation : Op A}
    (supported : SupportedOperation veq operation) :
    Loads interp veq (loadOperation narrow measurements operation)
      (Readable veq narrow operation)
      (operator interp (asLoaded narrow operation)) := by
  cases supported with
  | gate gate supported => exact loadOperation_gate measurements supported
  | _ =>
      refine (Loads.of_operation measurements (.nothing rfl)
        (.nothing rfl) (.nothing rfl) rfl).congr ?_ fun _ => mul_one _
      exact iff_of_true ⟨trivial, trivial, trivial⟩ (by rintro gate ⟨⟩)

/-- A list of operations is loaded in order. -/
theorem loadOperations_loads {operations : Block A}
    (each :
      ∀ operation ∈ operations,
        Loads interp veq (loadOperation narrow measurements operation)
          (Readable veq narrow operation)
          (operator interp (asLoaded narrow operation))) :
    Loads interp veq (loadOperations narrow measurements operations)
      (∀ operation ∈ operations, Readable veq narrow operation)
      (denote interp (operations.map (asLoaded narrow))) := by
  induction operations with
  | nil => exact (Loads.nothing rfl).congr (by simp) fun _ => rfl
  | cons operation rest induction =>
      refine ((each operation List.mem_cons_self).bind
        (induction fun other member =>
          each other (List.mem_cons_of_mem operation member))).congr ?_ ?_
      · rw [List.forall_mem_cons]
      · exact fun _ => rfl

omit [DecidableEq A] [Neg A] [One A] in
theorem postOrder_supported {block : Block A}
    (supported :
      ∀ operation ∈ block, SupportedOperation veq operation) :
    postOrder (kernelOf block) = block ++ [kernelOf block] := by
  refine postOrder_of_one_block _ fun operation member => ?_
  cases supported operation member <;> rfl

/-- The circuit of a kernel implements the kernel as it is read. -/
theorem loadKernel_loads {block : Block A}
    (supported :
      ∀ operation ∈ block, SupportedOperation veq operation) :
    Loads interp veq (loadKernel narrow measurements (kernelOf block))
      (∀ operation ∈ block, Readable veq narrow operation)
      (denote interp (block.map (asLoaded narrow))) := by
  have function :
      Loads interp veq
        (loadOperation narrow measurements (kernelOf block))
        (Readable veq narrow (kernelOf block))
        (operator interp (asLoaded narrow (kernelOf block))) := by
    refine (Loads.of_operation measurements (.nothing rfl) (.nothing rfl)
      (.nothing rfl) rfl).congr ?_ fun _ => mul_one _
    exact iff_of_true ⟨trivial, trivial, trivial⟩ (by rintro gate ⟨⟩)
  rw [loadKernel, postOrder_supported supported]
  refine (loadOperations_loads measurements
    (List.forall_mem_append.mpr
      ⟨fun operation member =>
          loadOperation_loads measurements (supported operation member),
        List.forall_mem_singleton.mpr function⟩)).congr ?_ ?_
  · rw [List.forall_mem_append, List.forall_mem_singleton]
    exact and_iff_left (by rintro gate ⟨⟩)
  · intro _
    rw [List.map_append, denote_append]
    exact one_mul _

/-! ## The whole circuit -/

section Circuit

variable {argumentSize : ℕ → ℕ}

/-- A circuit is made if the operations are loaded. -/
theorem quantumComputation_eq_ok_iff {circuit : Op A} {count : BitCount}
    (counted : getNumberOfClassicalBits argumentSize circuit = .ok count)
    (qc : QuantumComputation A) :
    quantumComputation narrow argumentSize circuit = .ok qc ↔
      (loadKernel narrow count.measurements circuit).outcome = .ok () ∧
        qc = ⟨toSize (getNumberOfQubits circuit), count.numBits,
          (loadKernel narrow count.measurements circuit).trace⟩ := by
  rw [quantumComputation, counted, except_bind_eq_ok]
  simp only [Except.ok.injEq, exists_eq_left', except_bind_eq_ok]
  constructor
  · rintro ⟨⟨⟩, loaded, returned⟩
    exact ⟨loaded, (Except.ok.inj returned).symm⟩
  · rintro ⟨loaded, rfl⟩
    exact ⟨(), loaded, rfl⟩

omit [DecidableEq A] [Neg A] [One A] in
/-- A kernel of supported operations has no classical bits. -/
theorem getNumberOfClassicalBits_of_supported {block : Block A}
    (supported :
      ∀ operation ∈ block, SupportedOperation veq operation) :
    getNumberOfClassicalBits argumentSize (kernelOf block) =
      .ok ⟨0, []⟩ := by
  have none : measuredOperands (kernelOf block) = [] := by
    rw [measuredOperands, postOrder_supported supported,
      List.flatMap_append, List.append_eq_nil_iff]
    refine ⟨List.flatMap_eq_nil_iff.mpr fun operation member => ?_, rfl⟩
    cases supported operation member <;> rfl
  rw [getNumberOfClassicalBits_of_countable argumentSize, events, none]
  · rfl
  · rw [none]
    intro operand member
    cases member

/--
The pass makes a circuit of the kernel that has the qubits of the register
and the unitary of the kernel.  The angles are read as they are.
-/
def SameUnitary {size : ℕ} (interp : Interpretation A (Fin size))
    (veq : QuantumValue) (argumentSize : ℕ → ℕ) (block : Block A) : Prop :=
  ∃ qc, quantumComputation id argumentSize (kernelOf block) = .ok qc ∧
    qc.nqubits = size ∧
    denoteCircuit interp veq qc.operations = denote interp block

/--
The circuit implements the kernel exactly when every angle and every index
can be read, the qubits that the kernel allocates are counted as many as the
register has, and the gates as they are read, without the flags, have the
kernel's unitary.
-/
theorem loadKernel_sameUnitary_iff {size : ℕ}
    {interp : Interpretation A (Fin size)} {block : Block A}
    (supported :
      ∀ operation ∈ block, SupportedOperation veq operation) :
    SameUnitary interp veq argumentSize block ↔
      (∀ operation ∈ block, Readable veq id operation) ∧
        toSize (getNumberOfQubits (kernelOf block)) = size ∧
        denote interp (block.map (asLoaded id)) = denote interp block := by
  have loads :
      Loads interp veq (loadKernel id [] (kernelOf block))
        (∀ operation ∈ block, Readable veq id operation)
        (denote interp (block.map (asLoaded id))) :=
    loadKernel_loads [] supported
  simp only [SameUnitary, quantumComputation_eq_ok_iff
    (getNumberOfClassicalBits_of_supported supported)]
  rw [← loads.1]
  constructor
  · rintro ⟨_, ⟨loaded, rfl⟩, counted, same⟩
    exact ⟨loaded, counted, (loads.2 (loads.1.mp loaded)).symm.trans same⟩
  · rintro ⟨loaded, counted, same⟩
    exact ⟨_, ⟨loaded, rfl⟩, counted,
      (loads.2 (loads.1.mp loaded)).trans same⟩

end Circuit

end Numbers

end Loading

/-! ## An adjoint `S` gate -/

section AdjointS

/-- `quake.s<adj> %q0` on the qubit of a register of size one. -/
def adjointS : Block ℤ :=
  [.leaf (.alloca (.veqAlloca 0 1)),
    .leaf (.extractRef (.extractRef (.veqAlloca 0 1) (.constant 0))),
    (⟨.s, true, [], [], [.extractRef (.veqAlloca 0 1) (.constant 0)],
      none⟩ : Gate ℤ).op,
    .leaf .ret]

theorem adjointS_sameUnitary_iff :
    SameUnitary (Interpretation.ofRegister 0 fun _ => 0) (.veqAlloca 0 1)
        (fun _ => 0) adjointS ↔
      (∀ operation ∈ adjointS, Readable (.veqAlloca 0 1) id operation) ∧
        toSize (getNumberOfQubits (kernelOf adjointS)) = 1 ∧
        denote (Interpretation.ofRegister 0 fun _ => 0)
            (adjointS.map (asLoaded id)) =
          denote (Interpretation.ofRegister 0 fun _ => 0) adjointS := by
  apply loadKernel_sameUnitary_iff
  simp only [adjointS, List.forall_mem_cons, List.not_mem_nil,
    false_implies, implies_true, and_true]
  exact ⟨.alloca, .extractRef _,
    .gate _ (.single .s (by decide) true (.constant 0) none), .ret⟩

/-- The circuit has an `S` gate where the kernel has its inverse. -/
theorem adjointS_not_sameUnitary :
    ¬ SameUnitary (Interpretation.ofRegister 0 fun _ => 0)
      (.veqAlloca 0 1) (fun _ => 0) adjointS := by
  rintro ⟨qc, loaded, -, same⟩
  have made :
      quantumComputation id (fun _ => 0) (kernelOf adjointS) =
        .ok ⟨1, 0, [.s 0]⟩ := rfl
  have circuit :
      denoteCircuit (Interpretation.ofRegister 0 fun _ => 0)
          (.veqAlloca 0 1) [(.s 0 : QCOperation ℤ)] =
        on (0 : Fin 1) (phaseShift (Real.pi / 2)) :=
    one_mul _
  have kernel :
      denote (Interpretation.ofRegister 0 fun _ => 0) adjointS =
        on (0 : Fin 1) (phaseShift (Real.pi / 2)).conjTranspose := by
    simp [adjointS, operator, asOperator, Gate.op, gateOperator,
      controlValues, targetOperator, standardMatrix, withAdjoint,
      Interpretation.ofRegister]
  cases made.symm.trans loaded
  rw [circuit, kernel] at same
  have equal := on_injective (0 : Fin 1) same
  rw [phaseShift, entries_conjTranspose, entries_inj, phase_pi_div_two]
    at equal
  have imaginary := congrArg Complex.im equal.2.2.2
  norm_num at imaginary

end AdjointS

end MQSSPasses.Passes.QuakeQMap
