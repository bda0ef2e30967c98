import MQSSPasses.General.OrderedMap
import MQSSPasses.QASM.GatesMap

/-!
# The conversion of OpenQASM programs

The conversion goes over the statements of a program three times: the
declarations allocate the registers, the gate calls insert gates, and the
assignments are collected into a map of measurements which is written out
at the end.  Statements of every other kind are passed over.

Every inserted operation is recorded with the place of the statement it
comes from, so that the emitted kernel can be compared with the program.
-/

namespace MQSSPasses.QASM.QASMToQuake

open MQSSPasses.General.IntConversion
open MQSSPasses.General.TracedComputation
open MQSSPasses.General.OperationTree
open MQSSPasses.General
open MQSSPasses.Quake.Syntax
open MQSSPasses.Quake.Operations
open MQSSPasses.QASM.Syntax
open MQSSPasses.QASM.GatesMap

variable {A : Type}

/-- The registers of a program with the values that hold their qubits. -/
abbrev QASMVectorToQuakeVector : Type := List (String × QuantumValue)

/-- Whether a pattern occurs in a text. -/
def regexSearch (text pattern : String) : Bool :=
  decide (pattern.toList <:+: text.toList)

/-- `std::unordered_map::at`. -/
def vectorAt (vectors : QASMVectorToQuakeVector) (name : String) :
    Except Fault QuantumValue :=
  match vectors.lookup name with
  | some value => .ok value
  | none => .error .outOfRange

/-! ## Registers -/

/-- The register a statement declares, if its type mentions `qubit`. -/
def declaredRegister : Statement A → Except Fault (Option (String × ℤ))
  | .declaration ⟨.designated text (some (.constant size)), name, _⟩ =>
      if regexSearch text "qubit" then do
        let size ← size.getSInt
        return some (name, toInt size)
      else return none
  | _ => return none

/-- The declared registers in the order of the program. -/
def declaredRegisters : Program A → Except Fault (List (String × ℤ))
  | [] => return []
  | statement :: rest => do
      let register ← declaredRegister statement
      let others ← declaredRegisters rest
      return register.toList ++ others

/-- The total number of qubits, which is an `int`. -/
def totalQubits (registers : List (String × ℤ)) : ℤ :=
  toInt (registers.map Prod.snd).sum

/-- The value of the register allocated at the given place. -/
def registerValue (place : ℕ) (register : String × ℤ) : QuantumValue :=
  .veqAlloca place register.2.toNat

/-- Insert an allocation for each register. -/
def insertAllocations (place : ℕ) :
    List (String × ℤ) →
      Traced Fault (Op A) QASMVectorToQuakeVector
  | [] => return []
  | register :: others => do
      let value := registerValue place register
      Traced.record (.leaf (.alloca value))
      let vectors ← insertAllocations (place + 1) others
      return (register.1, value) :: vectors

/-- Allocate the declared registers; without qubits nothing is inserted. -/
def insertAllocatedQubits (program : Program A) :
    Traced Fault (Op A)
      (QASMVectorToQuakeVector × List (String × ℤ)) := do
  let orderVectors ← Traced.ofExcept (declaredRegisters program)
  if totalQubits orderVectors = 0 ∨ totalQubits orderVectors = -1 then
    return ([], orderVectors)
  else
    let vectors ← insertAllocations 0 orderVectors
    return (vectors, orderVectors)

/-! ## Gates -/

/-- The gates whose first operands are controls. -/
def isMultiQubitGate (gateType : String) : Bool :=
  gateType ∈
    ["cx", "cy", "cz", "ch", "ccx", "cswap", "crx", "cry", "cp", "cphase",
      "CX", "cu1", "cu3"]

/-- The number of implicit controls of a gate. -/
def getNumControls (gateType : String) : ℕ :=
  if gateType ∈
      ["cx", "CX", "cy", "crx", "cry", "cp", "cphase", "cz", "cu1", "cu3",
        "ch"] then 1
  else if gateType = "ccx" then 2
  else if gateType = "cswap" then 1
  else 0

/--
The loop over the modifiers.  The number it reads goes to a variable of the
loop body, so it only ends the loop.
-/
def readModifiers : List (GateModifier A) → Except Fault Unit
  | [] => return ()
  | .ctrl _ (some (.constant count)) :: _ => do
      let _numControls ← count.getSInt
      return ()
  | _ :: others => readModifiers others

/-- The index of an operand; `-1` if it has none that is a constant. -/
def operandIndex (operand : GateOperand A) : Except Fault ℤ :=
  match operand.expression with
  | some (.constant index) => do
      let index ← index.getSInt
      return toInt index
  | _ => return -1

/-- Insert the reference to the qubit of an operand. -/
def extractOperand (vectors : QASMVectorToQuakeVector)
    (operand : GateOperand A) : Emit A QuantumValue := do
  let qubitOp ← Traced.ofExcept (operandIndex operand)
  if qubitOp = -1 then
    assertFailure "Fatal error, this must not happen!"
  else
    let selectedVector ← Traced.ofExcept
      (vectorAt vectors operand.identifier)
    let qubit : QuantumValue :=
      .extractRef selectedVector (.constant qubitOp)
    Traced.record (.leaf (.extractRef qubit))
    return qubit

/-- Insert the references to all operands, the first of which are controls. -/
def insertOperands (vectors : QASMVectorToQuakeVector)
    (numControls : ℕ) :
    ℕ → List (GateOperand A) →
      Emit A (List QuantumValue × List QuantumValue)
  | _, [] => return ([], [])
  | i, operand :: others => do
      let qubit ← extractOperand vectors operand
      let rest ← insertOperands vectors numControls (i + 1) others
      if i < numControls then return (qubit :: rest.1, rest.2)
      else return (rest.1, qubit :: rest.2)

section Arithmetic

variable [FloatArithmetic A]

/-- The value of a parameter. -/
def evaluateExpression : Expression A → Except Fault A
  | .constant (.integer value) => return (value : A)
  | .constant (.floating value) => return value
  | .unary op operand => do
      let operandValue ← evaluateExpression operand
      match op with
      | .negate => return -operandValue
      | _ => throw (.assertion "Unsupported unary operation")
  | .binary op lhs rhs => do
      let lhsValue ← evaluateExpression lhs
      let rhsValue ← evaluateExpression rhs
      match op with
      | .add => return lhsValue + rhsValue
      | .subtract => return lhsValue - rhsValue
      | .multiply => return lhsValue * rhsValue
      | .divide => return lhsValue / rhsValue
      | _ => throw (.assertion "Unsupported binary operation")
  | .identifier name =>
      if name = "pi" then return FloatArithmetic.pi
      else throw (.assertion ("Unsupported identifier: " ++ name))
  | _ => throw (.assertion "Unsupported expression type")

/-- Insert a constant for each argument. -/
def insertArguments :
    List (Expression A) → Emit A (List (FloatValue A))
  | [] => return []
  | argument :: others => do
      let value ← Traced.ofExcept (evaluateExpression argument)
      let parameter ← createFloatValue value
      let parameters ← insertArguments others
      return parameter :: parameters

/-- The controls and targets of a gate call. -/
def insertControlsAndTargets (gateCall : GateCall A)
    (vectors : QASMVectorToQuakeVector) :
    Emit A (List QuantumValue × List QuantumValue) :=
  if gateCall.operands = [] then return ([], [])
  else do
    Traced.ofExcept (readModifiers gateCall.modifiers)
    let numControls :=
      if isMultiQubitGate gateCall.identifier then
        getNumControls gateCall.identifier
      else 0
    insertOperands vectors numControls 0 gateCall.operands

/-- Insert the operations of a gate call. -/
def insertGate (gateCall : GateCall A)
    (vectors : QASMVectorToQuakeVector) : Emit A Unit := do
  let parameters ← insertArguments gateCall.arguments
  let operands ← insertControlsAndTargets gateCall vectors
  let isAdj := regexSearch gateCall.identifier "dg"
  insertQASMGateIntoQuakeModule gateCall.identifier parameters
    operands.1 operands.2 isAdj

end Arithmetic

/-! ## Measurements -/

/-- An entry of the map of measurements, with the place it comes from. -/
structure Measurement where
  classicalIndex : ℤ
  qVector : String
  qubit : ℤ
  statement : ℕ
  deriving DecidableEq, Repr

/-- The measurement an assignment asks for, if it is one. -/
def measurementOf (place : ℕ) (assignment : Assignment A) :
    Except Fault (Option Measurement) :=
  match assignment.indexExpression with
  | some (.constant index) => do
      let classicalIndex ← index.getSInt
      match assignment.expression with
      | some (.declaration (some (.measure (some (name, some (.constant
          operand)))))) => do
          let localQubit ← operand.getSInt
          return some
            ⟨toInt classicalIndex, name, toInt localQubit, place⟩
      | some (.declaration (some (.measure none))) =>
          throw
            (.assertion "Measurement has not qubit associated to it!")
      | _ => return none
  | _ => throw (.assertion "Unsupported classical index expression")

/-- Insert into the map of measurements, whose keys are classical indices. -/
def emplace : Measurement → List Measurement → List Measurement :=
  OrderedMap.emplace Measurement.classicalIndex

/-- Collect the measurements of the statements from a place on. -/
def collectMeasurements (place : ℕ) (entries : List Measurement) :
    Program A → Except Fault (List Measurement)
  | [] => return entries
  | .assignment statement :: rest => do
      match ← measurementOf place statement with
      | some entry =>
          collectMeasurements (place + 1) (emplace entry entries) rest
      | none => collectMeasurements (place + 1) entries rest
  | _ :: rest => collectMeasurements (place + 1) entries rest

/-- An inserted operation and the statement it comes from. -/
structure Emission (A : Type) where
  statement : Option ℕ
  operation : Op A

/-- Insert the measurement of an entry. -/
def insertMeasurement (vectors : QASMVectorToQuakeVector)
    (entry : Measurement) : Emit A Unit := do
  let selectedQuakeVector ← Traced.ofExcept
    (vectorAt vectors entry.qVector)
  let measRef : QuantumValue :=
    .extractRef selectedQuakeVector (.constant entry.qubit)
  Traced.record (.leaf (.extractRef measRef))
  Traced.record (.leaf (.measure .mz [measRef]))

/-- Insert the measurements of the map in the order of its keys. -/
def insertMeasurements (vectors : QASMVectorToQuakeVector) :
    List Measurement → Traced Fault (Emission A) Unit
  | [] => return ()
  | entry :: others => do
      (insertMeasurement vectors entry).mapTrace
        (Emission.mk (some entry.statement))
      insertMeasurements vectors others

/-- Collect the measurements of a program and insert them. -/
def parseAndInsertMeasurements (statements : Program A)
    (vectors : QASMVectorToQuakeVector) :
    Traced Fault (Emission A) Unit := do
  let entries ← Traced.ofExcept (collectMeasurements 0 [] statements)
  insertMeasurements vectors entries

/-! ## The pass -/

/-- Insert the gates of the statements from a place on. -/
def insertGates [FloatArithmetic A]
    (vectors : QASMVectorToQuakeVector) (place : ℕ) :
    Program A → Traced Fault (Emission A) Unit
  | [] => return ()
  | .gateCall statement :: rest => do
      (insertGate statement vectors).mapTrace
        (Emission.mk (some place))
      insertGates vectors (place + 1) rest
  | _ :: rest => insertGates vectors (place + 1) rest

/-- Insert a measurement of each register. -/
def measureRegisters (vectors : QASMVectorToQuakeVector) :
    List (String × ℤ) → Traced Fault (Emission A) Unit
  | [] => return ()
  | register :: others => do
      let value ← Traced.ofExcept (vectorAt vectors register.1)
      Traced.record ⟨none, .leaf (.measure .mz [value])⟩
      measureRegisters vectors others

/-- The prefix of the names of the kernels. -/
def CUDAQ_PREFIX_FUNCTION : String := "__nvqpp__mlirgen__"

/-- Convert a program into the body of the kernel with the given name. -/
def runOnOperation [FloatArithmetic A] (funcName : String)
    (measureAllQubits : Bool) (program : Program A) :
    Traced Fault (Emission A) Unit :=
  if regexSearch funcName CUDAQ_PREFIX_FUNCTION then do
    let allocated ←
      (insertAllocatedQubits program).mapTrace (Emission.mk none)
    if allocated.1 = [] then return ()
    else
      insertGates allocated.1 0 program
      if measureAllQubits then
        measureRegisters allocated.1 allocated.2
      else parseAndInsertMeasurements program allocated.1
  else return ()

end MQSSPasses.QASM.QASMToQuake
