import MQSSPasses.Quake.Operations

/-!
# The conversion of kernels to linear algebra

A kernel becomes a function that multiplies matrices onto a state vector:
an initial tensor, and for every gate the call of a function that returns
the gate's matrix and a matrix-vector product into a fresh tensor.  The
functions for the matrices are declared without a body, one for each name,
and the name is made of the gate's mnemonic and its qubits.

The body is built one operation at a time, and a value is the place of the
operation that defines it together with its shape.

The number of qubits is summed up in an `int`, and so may come out negative.
-/

namespace MQSSPasses.LinAlg.QuakeToLinAlg

open MQSSPasses.General.IntConversion
open MQSSPasses.General.OperationTree
open MQSSPasses.Quake.Syntax
open MQSSPasses.Quake.Operations

/-! ## The emitted program -/

/-- A tensor value: the place of its operation, and its shape. -/
structure TensorValue where
  place : ℕ
  shape : List ℕ
  deriving DecidableEq, Repr

/-- The operations of the emitted function; operands are places. -/
inductive LinAlgOp (A : Type) where
  /-- `arith.constant` of complex numbers. -/
  | denseComplex (data : List (ℚ × ℚ))
  /-- `arith.constant` of doubles. -/
  | denseDouble (data : List A)
  | call (callee : String) (arguments : Option ℕ)
  /-- `tensor.empty`. -/
  | empty (shape : List ℕ)
  /-- `complex.mul`. -/
  | complexMul (lhs rhs : ℕ)
  /-- `linalg.generic` with the product of the elements. -/
  | generic (lhs rhs init : ℕ)
  | matvec (matrix vector init : ℕ)
  | matmul (lhs rhs init : ℕ)
  deriving DecidableEq, Repr

/-- A declared function, and the gate it was created for. -/
structure PrivateFunction (A : Type) where
  name : String
  numberParameters : ℕ
  createdFor : Gate A
  deriving DecidableEq, Repr

/-- The functions of the module and the body that is being built. -/
structure Builder (A : Type) where
  functions : List (PrivateFunction A)
  operations : List (LinAlgOp A)

variable {A : Type}

/-- Append an operation with a result of the given shape. -/
def Builder.create (builder : Builder A) (operation : LinAlgOp A)
    (shape : List ℕ) : TensorValue × Builder A :=
  (⟨builder.operations.length, shape⟩,
    { builder with operations := builder.operations ++ [operation] })

/-! ## Products -/

/-- Append the product of two values, by their ranks. -/
def insertMul (builder : Builder A) (lhs rhs : TensorValue) :
    Except Fault (TensorValue × Builder A) :=
  match lhs.shape, rhs.shape with
  | [], [] => return builder.create (.complexMul lhs.place rhs.place) []
  | [m], [n] =>
      if m = n then
        let (init, builder) := builder.create (.empty [m]) [m]
        return builder.create (.generic lhs.place rhs.place init.place) [m]
      else throw (.assertion "Unsupported operand shapes for insertMul")
  | [m, k], [n] =>
      if k = n then
        let (init, builder) := builder.create (.empty [m]) [m]
        return builder.create (.matvec lhs.place rhs.place init.place) [m]
      else throw (.assertion "Unsupported operand shapes for insertMul")
  | [m, k], [l, n] =>
      if k = l then
        let (init, builder) := builder.create (.empty [m, n]) [m, n]
        return builder.create (.matmul lhs.place rhs.place init.place)
          [m, n]
      else throw (.assertion "Unsupported operand shapes for insertMul")
  | _, _ => throw (.assertion "Unsupported operand shapes for insertMul")

/-- Multiply further values onto a product. -/
def insertFactors (builder : Builder A) (acc : TensorValue) :
    List TensorValue → Except Fault (TensorValue × Builder A)
  | [] => return (acc, builder)
  | factor :: others => do
      let (acc, builder) ← insertMul builder acc factor
      insertFactors builder acc others

/-- Append the product of at least two values. -/
def insertMulN (builder : Builder A) :
    List TensorValue → Except Fault (TensorValue × Builder A)
  | first :: second :: others => do
      let (acc, builder) ← insertMul builder first second
      insertFactors builder acc others
  | _ => throw (.assertion "Need at least two operands to multiply")

theorem insertMulN_pair (builder : Builder A) (lhs rhs : TensorValue) :
    insertMulN builder [lhs, rhs] = insertMul builder lhs rhs := by
  rw [insertMulN]
  cases insertMul builder lhs rhs <;> rfl

/-! ## The number of qubits -/

/-- The number of qubits an operation allocates. -/
def allocatedQubits (op : Op A) : ℕ :=
  match op.label with
  | .alloca (.veqAlloca _ size) => size
  | .alloca _ => 1
  | _ => 0

/-- The sum is kept in an `int`. -/
def getNumberOfQubits (circuit : Op A) : ℤ :=
  (postOrder circuit).foldl
    (fun numQubits op => toInt (numQubits + allocatedQubits op)) 0

/-- The number is the sum of what is allocated, as an `int`. -/
theorem getNumberOfQubits_eq (circuit : Op A) :
    getNumberOfQubits circuit =
      toInt ((postOrder circuit).map allocatedQubits).sum := by
  have summed (ops : Block A) (count : ℤ) :
      ops.foldl (fun numQubits op => toInt (numQubits + allocatedQubits op))
          (toInt count) =
        toInt (count + ((ops.map allocatedQubits).sum : ℕ)) := by
    induction ops generalizing count with
    | nil => simp
    | cons op rest induction =>
        have step :
            toInt (toInt count + allocatedQubits op) =
              toInt (count + allocatedQubits op) :=
          Int.bmod_add_bmod
        rw [List.foldl_cons, step, induction, List.map_cons, List.sum_cons,
          Nat.cast_add, add_assoc]
  have start := summed (postOrder circuit) 0
  rw [zero_add] at start
  exact start

/-! ## The conversion -/

/-- `std::pow(2, numQubits)` as the size of a dimension. -/
def dimension (numQubits : ℤ) : ℕ :=
  if 0 ≤ numQubits then 2 ^ numQubits.toNat else 0

@[simp]
theorem dimension_natCast (n : ℕ) : dimension (n : ℤ) = 2 ^ n := by
  simp [dimension]

/--
The initial tensor.  The loop counts from zero up to `std::pow(2, numQubits)`,
so it fills in one entry if that is a fraction.
-/
def initializeQubits (builder : Builder A) (numberOfQubits : ℤ)
    (tensorType : List ℕ) : TensorValue × Builder A :=
  let data :=
    List.replicate (2 ^ numberOfQubits.toNat) ((0, 0) : ℚ × ℚ)
  builder.create (.denseComplex data) tensorType

/-- The function with a name, declared now if there is none. -/
def inlineFunction (builder : Builder A) (operationName : String)
    (numberParameters : ℕ) (gate : Gate A) : Builder A :=
  if builder.functions.any fun function =>
      function.name = operationName then builder
  else
    { builder with
      functions :=
        ⟨operationName, numberParameters, gate⟩ :: builder.functions }

@[simp]
theorem inlineFunction_operations (builder : Builder A) (name : String)
    (numberParameters : ℕ) (gate : Gate A) :
    (inlineFunction builder name numberParameters gate).operations =
      builder.operations := by
  unfold inlineFunction
  split <;> rfl

/-- The values of the parameters, as they are read. -/
def getParametersValues [Neg A] [One A] (narrow : A → A)
    (array : List (FloatValue A)) : Except Fault (List A) :=
  array.mapM (extractDoubleArgumentValue narrow)

/-- The indices of the operands between brackets, without separators. -/
def indexString (indices : List ℤ) : String :=
  "[" ++ String.join (indices.map toString) ++ "]"

/-- The name of the function for the matrix of a gate. -/
def functionName (numberOfQubits : ℤ) (gateName : String)
    (controls targets : List ℤ) : String :=
  gateName ++ "_" ++ toString numberOfQubits ++ "qubits_" ++ "control" ++
    indexString controls ++ "_target" ++ indexString targets

/-- Append the call for a gate's matrix. -/
def insertCall (builder : Builder A) (functionName : String)
    (matrixType : List ℕ) (params : List A) : TensorValue × Builder A :=
  if params.length > 0 then
    let (arguments, builder) :=
      builder.create (.denseDouble params) [params.length]
    builder.create (.call functionName (some arguments.place)) matrixType
  else builder.create (.call functionName none) matrixType

section Conversion

variable [Neg A] [One A] (narrow : A → A)

/-- What the walk does at a gate: a call and a product with the state. -/
def convertGate (numberOfQubits : ℤ) (matrixType : List ℕ)
    (builder : Builder A) (state : TensorValue) (gate : Gate A) :
    Except Fault (TensorValue × Builder A) := do
  let controls ← getIndicesOfValueRange gate.controls
  let targets ← getIndicesOfValueRange gate.targets
  let params ← getParametersValues narrow gate.parameters
  let name :=
    functionName numberOfQubits gate.kind.mnemonic controls targets
  let builder := inlineFunction builder name params.length gate
  let (matrixValue, builder) := insertCall builder name matrixType params
  insertMulN builder [matrixValue, state]

/-- The walk over the operations of a kernel. -/
def convertOperations (numberOfQubits : ℤ) (matrixType : List ℕ) :
    Builder A → TensorValue → Block A →
      Except Fault (TensorValue × Builder A)
  | builder, state, [] => return (state, builder)
  | builder, state, op :: rest =>
      match asOperator op with
      | some gate => do
          let (state, builder) ←
            convertGate narrow numberOfQubits matrixType builder state gate
          convertOperations numberOfQubits matrixType builder state rest
      | none =>
          convertOperations numberOfQubits matrixType builder state rest

/-- Convert a kernel into the body of a function. -/
def convertQuakeToLinAlg (functions : List (PrivateFunction A))
    (quakeFunction : Op A) (tensorType matrixType : List ℕ)
    (numberOfQubits : ℤ) : Except Fault (TensorValue × Builder A) :=
  let (state, builder) :=
    initializeQubits ⟨functions, []⟩ numberOfQubits tensorType
  convertOperations narrow numberOfQubits matrixType builder state
    (postOrder quakeFunction)

/-- An emitted function: its body and the value it returns. -/
structure GpuFunction (A : Type) where
  name : String
  operations : List (LinAlgOp A)
  result : TensorValue

/--
Convert the kernels of a module, given by their names and functions.  The
declared functions are shared.
-/
def runOnOperation :
    List (PrivateFunction A) → List (String × Op A) →
      Except Fault (List (PrivateFunction A) × List (GpuFunction A))
  | functions, [] => return (functions, [])
  | functions, (name, kernel) :: others => do
      let numQubits := getNumberOfQubits kernel
      let tensorType := [dimension numQubits]
      let matrixType := [dimension numQubits, dimension numQubits]
      let (result, builder) ←
        convertQuakeToLinAlg narrow functions kernel tensorType matrixType
          numQubits
      let (functions, emitted) ←
        runOnOperation builder.functions others
      return (functions,
        ⟨"mqss_gpu" ++ name, builder.operations, result⟩ :: emitted)

end Conversion

end MQSSPasses.LinAlg.QuakeToLinAlg
