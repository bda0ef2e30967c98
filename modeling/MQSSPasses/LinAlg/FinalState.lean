import MQSSPasses.General.StraightLineProgram
import MQSSPasses.LinAlg.QuakeToLinAlg
import MQSSPasses.Quake.Semantics

/-!
# The state a converted kernel returns

An emitted body runs as a straight-line program over tensors.  For `n`
qubits a vector of `2 ^ n` numbers is a state and a matrix an operator.
`linalg.matvec` and `linalg.matmul` add the product to their output
operand, and what `tensor.empty` holds is not specified, so a run depends
on these contents, and on the matrices that the called functions return.

The walk over a kernel keeps one invariant: with accumulators that hold
zeros, the current state is the product of the matrices called so far,
later calls on the left, applied to the initial tensor.  The initial tensor
holds zeros too.  The returned state is then zero, which the final state of
no circuit is.
-/

noncomputable section

namespace MQSSPasses.LinAlg.FinalState

open MQSSPasses.General.TracedComputation
open MQSSPasses.General.OperationTree
open MQSSPasses.General.QubitOperators
open MQSSPasses.General.GateMatrices
open MQSSPasses.General.StraightLineProgram
open MQSSPasses.Quake.Syntax
open MQSSPasses.Quake.Operations
open MQSSPasses.Quake.Semantics
open MQSSPasses.LinAlg.QuakeToLinAlg

/-! ## Tensors and runs -/

/-- What a tensor of an emitted body holds. -/
inductive TensorData (A : Type) (n : ℕ) where
  | doubles (values : List A)
  | scalar (value : ℂ)
  | vector (state : State (Fin n))
  | matrix (operator : Operator (Fin n))

/-- What `tensor.empty` holds at each place. -/
structure Contents (n : ℕ) where
  vectors : ℕ → State (Fin n)
  matrices : ℕ → Operator (Fin n)

/-- Everything a run depends on apart from the body. -/
structure Environment (A : Type) (n : ℕ) where
  matrixOf : String → List A → Operator (Fin n)
  contents : Contents n

variable {A : Type} {n : ℕ}

/-- The place of a basis state in a vector. -/
def tensorIndex (bits : Fin n → Bool) : ℕ :=
  ∑ qubit, if bits qubit then 2 ^ qubit.val else 0

/-- The vector with the given elements. -/
def denseState (data : List (ℚ × ℚ)) : State (Fin n) :=
  fun bits =>
    let element := data.getD (tensorIndex bits) (0, 0)
    ⟨element.1, element.2⟩

/-- What an operation of an emitted body computes. -/
def meaning (environment : Environment A n) :
    Meaning (LinAlgOp A) (TensorData A n)
  | _, .denseComplex data =>
      if data.length = 2 ^ n then some (.vector (denseState data)) else none
  | _, .denseDouble data => some (.doubles data)
  | _, .call callee none =>
      some (.matrix (environment.matrixOf callee []))
  | values, .call callee (some arguments) =>
      match values[arguments]? with
      | some (.doubles parameters) =>
          some (.matrix (environment.matrixOf callee parameters))
      | _ => none
  | values, .empty shape =>
      if shape = [2 ^ n] then
        some (.vector (environment.contents.vectors values.length))
      else if shape = [2 ^ n, 2 ^ n] then
        some (.matrix (environment.contents.matrices values.length))
      else none
  | values, .complexMul lhs rhs =>
      match values[lhs]?, values[rhs]? with
      | some (.scalar left), some (.scalar right) =>
          some (.scalar (left * right))
      | _, _ => none
  | values, .generic lhs rhs _ =>
      match values[lhs]?, values[rhs]? with
      | some (.vector left), some (.vector right) =>
          some (.vector (left * right))
      | _, _ => none
  | values, .matvec matrix vector init =>
      match values[matrix]?, values[vector]?, values[init]? with
      | some (.matrix operator), some (.vector state),
          some (.vector accumulator) =>
          some (.vector (accumulator + operator state))
      | _, _, _ => none
  | values, .matmul lhs rhs init =>
      match values[lhs]?, values[rhs]?, values[init]? with
      | some (.matrix left), some (.matrix right),
          some (.matrix accumulator) =>
          some (.matrix (accumulator + left * right))
      | _, _, _ => none

theorem meaning_call {environment : Environment A n}
    {values : List (TensorData A n)} {callee : String} {arguments : ℕ}
    {parameters : List A}
    (read : values[arguments]? = some (.doubles parameters)) :
    meaning environment values (.call callee (some arguments)) =
      some (.matrix (environment.matrixOf callee parameters)) := by
  simp only [meaning, read]

/-- A matrix-vector product adds to what its accumulator held. -/
theorem meaning_matvec {environment : Environment A n}
    {values : List (TensorData A n)} {matrix vector init : ℕ}
    {operator : Operator (Fin n)} {state accumulator : State (Fin n)}
    (readMatrix : values[matrix]? = some (.matrix operator))
    (readVector : values[vector]? = some (.vector state))
    (readInit : values[init]? = some (.vector accumulator)) :
    meaning environment values (.matvec matrix vector init) =
      some (.vector (accumulator + operator state)) := by
  simp only [meaning, readMatrix, readVector, readInit]

/-- What a value holds after the body has run. -/
def returned (environment : Environment A n) (builder : Builder A)
    (value : TensorValue) : Option (TensorData A n) := do
  let values ← run (meaning environment) builder.operations
  values[value.place]?

/-- A value of a body that has run, with its shape and what it holds. -/
structure Holds (environment : Environment A n) (builder : Builder A)
    (values : List (TensorData A n)) (value : TensorValue)
    (shape : List ℕ) (data : TensorData A n) : Prop where
  runs : run (meaning environment) builder.operations = some values
  shaped : value.shape = shape
  holds : values[value.place]? = some data

namespace Holds

variable {environment : Environment A n} {builder grown : Builder A}
variable {values extended : List (TensorData A n)}
variable {value : TensorValue} {shape : List ℕ} {data : TensorData A n}

/-- What a value holds it still holds when the body has grown. -/
theorem mono (initially : Holds environment builder values value shape data)
    (runs : run (meaning environment) grown.operations = some extended)
    (more : values <+: extended) :
    Holds environment grown extended value shape data :=
  ⟨runs, initially.shaped, getElem?_of_prefix more initially.holds⟩

/-- A created operation holds what it computes. -/
theorem create (operation : LinAlgOp A) (shape : List ℕ)
    (runs : run (meaning environment) builder.operations = some values)
    (computes : meaning environment values operation = some data) :
    Holds environment (builder.create operation shape).2
      (values ++ [data]) (builder.create operation shape).1 shape data where
  runs := run_concat runs computes
  shaped := rfl
  holds := by
    have newest : (builder.create operation shape).1.place =
        values.length := (length_of_run runs).symm
    rw [newest]
    exact List.getElem?_concat_length

theorem returned_eq
    (ended : Holds environment builder values value shape data) :
    returned environment builder value = some data := by
  simp [returned, ended.runs, ended.holds]

end Holds

/-! ## One gate -/

section Steps

variable {environment : Environment A n}

/-- The called matrix is that of the function, at the given parameters. -/
theorem insertCall_holds {builder : Builder A}
    {values : List (TensorData A n)}
    (runs : run (meaning environment) builder.operations = some values)
    (name : String) (matrixType : List ℕ) (params : List A) :
    ∃ extended, values <+: extended ∧
      Holds environment (insertCall builder name matrixType params).2
        extended (insertCall builder name matrixType params).1 matrixType
        (.matrix (environment.matrixOf name params)) := by
  cases params with
  | nil =>
      exact ⟨_, List.prefix_append _ _, Holds.create _ _ runs rfl⟩
  | cons first others =>
      have arguments :=
        Holds.create (.denseDouble (first :: others))
          [(first :: others).length] runs rfl
      refine ⟨_, ?_,
        Holds.create _ _ arguments.runs (meaning_call arguments.holds)⟩
      exact (List.prefix_append _ _).trans (List.prefix_append _ _)

/-- The product of a matrix and a vector is emitted and evaluates. -/
theorem insertMul_holds {builder : Builder A}
    {values : List (TensorData A n)} {lhs rhs : TensorValue}
    {operator : Operator (Fin n)} {state : State (Fin n)}
    (matrix :
      Holds environment builder values lhs [2 ^ n, 2 ^ n]
        (.matrix operator))
    (vector :
      Holds environment builder values rhs [2 ^ n] (.vector state)) :
    ∃ product grown extended,
      insertMul builder lhs rhs = .ok (product, grown) ∧
        Holds environment grown extended product [2 ^ n]
          (.vector
            (environment.contents.vectors values.length +
              operator state)) := by
  have unspecified :
      meaning environment values (.empty [2 ^ n]) =
        some (.vector (environment.contents.vectors values.length)) :=
    if_pos rfl
  have init :=
    Holds.create (.empty [2 ^ n]) [2 ^ n] matrix.runs unspecified
  have left := matrix.mono init.runs (List.prefix_append _ _)
  have right := vector.mono init.runs (List.prefix_append _ _)
  have product :=
    Holds.create _ [2 ^ n] init.runs
      (meaning_matvec left.holds right.holds init.holds)
  refine ⟨_, _, _, ?_, product⟩
  simp only [insertMul, matrix.shaped, vector.shaped, if_true]
  rfl

end Steps

/-! ## The walk over a kernel -/

section Walk

variable [Neg A] [One A] (narrow : A → A) (environment : Environment A n)

/-- The matrix that is called for a gate. -/
def calledOperator (gate : Gate A) : Except Fault (Operator (Fin n)) := do
  let controls ← getIndicesOfValueRange gate.controls
  let targets ← getIndicesOfValueRange gate.targets
  let params ← getParametersValues narrow gate.parameters
  return environment.matrixOf
    (functionName n gate.kind.mnemonic controls targets) params

/-- The product of the matrices called for a block. -/
def calledOperators : Block A → Except Fault (Operator (Fin n))
  | [] => return 1
  | operation :: rest =>
      match asOperator operation with
      | some gate => do
          let called ← calledOperator narrow environment gate
          let later ← calledOperators rest
          return later * called
      | none => calledOperators rest

/-- When each gate calls its own matrix, a block calls its operator. -/
theorem calledOperators_eq_denote
    (interp : Interpretation A (Fin n)) {block : Block A}
    (own :
      ∀ operation ∈ block, ∀ gate, asOperator operation = some gate →
        calledOperator narrow environment gate =
          .ok (gateOperator interp gate)) :
    calledOperators narrow environment block =
      .ok (denote interp block) := by
  induction block with
  | nil => rfl
  | cons operation rest induction =>
      have later := induction fun next member =>
        own next (List.mem_cons_of_mem operation member)
      rw [calledOperators, denote_cons, operator]
      cases isGate : asOperator operation with
      | none => simpa using later
      | some gate =>
          have called := own operation List.mem_cons_self gate isGate
          simp only [called, later]
          rfl

variable {narrow environment}
variable (zeroed : environment.contents.vectors = 0)
include zeroed

/-- A gate applies the matrix that is called for it to the state. -/
theorem convertGate_holds {builder grown : Builder A}
    {values : List (TensorData A n)} {value next : TensorValue}
    {state : State (Fin n)} {gate : Gate A}
    (initially :
      Holds environment builder values value [2 ^ n] (.vector state))
    (converts :
      convertGate narrow n [2 ^ n, 2 ^ n] builder value gate =
        .ok (next, grown)) :
    ∃ called extended,
      calledOperator narrow environment gate = .ok called ∧
        Holds environment grown extended next [2 ^ n]
          (.vector (called state)) := by
  simp only [convertGate, except_bind_eq_ok, insertMulN_pair] at converts
  rcases converts with
    ⟨controls, readControls, targets, readTargets, params, readParams,
      multiplies⟩
  have declared :
      run (meaning environment)
          (inlineFunction builder
            (functionName n gate.kind.mnemonic controls targets)
            params.length gate).operations = some values := by
    rw [inlineFunction_operations]
    exact initially.runs
  rcases insertCall_holds declared
      (functionName n gate.kind.mnemonic controls targets)
      [2 ^ n, 2 ^ n] params with
    ⟨middle, more, matrix⟩
  rcases insertMul_holds matrix (initially.mono matrix.runs more) with
    ⟨product, final, extended, emitted, computed⟩
  rw [emitted, Except.ok.injEq, Prod.mk.injEq] at multiplies
  rcases multiplies with ⟨rfl, rfl⟩
  refine ⟨environment.matrixOf
    (functionName n gate.kind.mnemonic controls targets) params,
    extended, ?_, ?_⟩
  · simp only [calledOperator, readControls, readTargets, readParams]
    rfl
  · simpa [zeroed] using computed

/-- A block applies the product of the called matrices to the state. -/
theorem convertOperations_holds {block : Block A}
    {builder grown : Builder A}
    {values : List (TensorData A n)} {value result : TensorValue}
    {state : State (Fin n)}
    (initially :
      Holds environment builder values value [2 ^ n] (.vector state))
    (converts :
      convertOperations narrow n [2 ^ n, 2 ^ n] builder value block =
        .ok (result, grown)) :
    ∃ called extended,
      calledOperators narrow environment block = .ok called ∧
        Holds environment grown extended result [2 ^ n]
          (.vector (called state)) := by
  induction block generalizing builder values value state with
  | nil =>
      cases converts
      exact ⟨1, values, rfl, initially⟩
  | cons operation rest induction =>
      rw [convertOperations] at converts
      cases isGate : asOperator operation with
      | none =>
          simp only [isGate] at converts
          simpa only [calledOperators, isGate] using
            induction initially converts
      | some gate =>
          simp only [isGate, except_bind_eq_ok] at converts
          rcases converts with ⟨⟨next, middle⟩, first, others⟩
          rcases convertGate_holds zeroed initially first with
            ⟨called, between, call, stepped⟩
          rcases induction stepped others with
            ⟨later, extended, calls, ended⟩
          refine ⟨later * called, extended, ?_, ended⟩
          simp only [calledOperators, isGate, call, calls]
          rfl

/--
Apart from the initial tensor and the accumulators the conversion is right:
when each gate calls its own matrix, a block applies its operator.
-/
theorem convertOperations_denote
    (interp : Interpretation A (Fin n)) {block : Block A}
    (own :
      ∀ operation ∈ block, ∀ gate, asOperator operation = some gate →
        calledOperator narrow environment gate =
          .ok (gateOperator interp gate))
    {builder grown : Builder A}
    {values : List (TensorData A n)} {value result : TensorValue}
    {state : State (Fin n)}
    (initially :
      Holds environment builder values value [2 ^ n] (.vector state))
    (converts :
      convertOperations narrow n [2 ^ n, 2 ^ n] builder value block =
        .ok (result, grown)) :
    ∃ extended,
      Holds environment grown extended result [2 ^ n]
        (.vector (denote interp block state)) := by
  rcases convertOperations_holds zeroed initially converts with
    ⟨called, extended, calls, ended⟩
  rw [calledOperators_eq_denote narrow environment interp own,
    Except.ok.injEq] at calls
  subst calls
  exact ⟨extended, ended⟩

end Walk

/-! ## The returned state -/

/-- The state in which every qubit is zero. -/
def groundState : State (Fin n) :=
  Pi.single (fun _ => false) 1

theorem groundState_ne_zero : (groundState : State (Fin n)) ≠ 0 :=
  Pi.single_ne_zero_iff.mpr one_ne_zero

/-- The initial tensor holds zeros. -/
theorem initializeQubits_holds (environment : Environment A n)
    (functions : List (PrivateFunction A)) :
    Holds environment
      (initializeQubits ⟨functions, []⟩ n [2 ^ n]).2
      [.vector 0]
      (initializeQubits ⟨functions, []⟩ n [2 ^ n]).1 [2 ^ n]
      (.vector 0) := by
  have zeros :
      (denseState (List.replicate (2 ^ n) ((0, 0) : ℚ × ℚ)) :
        State (Fin n)) = 0 := by
    funext bits
    rw [denseState, List.getD_eq_getElem?_getD,
      List.getElem?_getD_replicate_default_eq]
    simp [Complex.ext_iff]
  have computes :
      meaning environment []
          (.denseComplex (List.replicate (2 ^ n) (0, 0))) =
        some (.vector 0) := by
    rw [meaning, if_pos List.length_replicate, zeros]
  have empty :
      run (meaning environment)
        (Builder.mk functions []).operations = some [] := rfl
  exact Holds.create _ [2 ^ n] empty computes

/--
The private functions return the matrix of the gate that each was created
for, at the parameters they are called with.
-/
def gateMatrices (interp : Interpretation A (Fin n))
    (functions : List (PrivateFunction A)) (callee : String)
    (parameters : List A) : Operator (Fin n) :=
  match functions.find? fun function => function.name = callee with
  | some function =>
      gateOperator interp
        { function.createdFor with
          parameters := parameters.map .constant }
  | none => 0

section FinalState

variable [Neg A] [One A] (narrow : A → A)
variable (interp : Interpretation A (Fin n))

/--
The function that a kernel of `n` qubits is converted into returns the final
state of the kernel's circuit, whatever `tensor.empty` holds.
-/
def ComputesFinalState (functions : List (PrivateFunction A))
    (block : Block A) : Prop :=
  ∃ result builder,
    convertQuakeToLinAlg narrow functions (kernelOf block)
        [2 ^ n] [2 ^ n, 2 ^ n] n = .ok (result, builder) ∧
      ∀ contents,
        returned ⟨gateMatrices interp builder.functions, contents⟩
            builder result =
          some (.vector (denote interp block groundState))

/-- With accumulators that hold zeros the returned state is zero. -/
theorem convertQuakeToLinAlg_returns_zero
    {environment : Environment A n}
    (zeroed : environment.contents.vectors = 0)
    {functions : List (PrivateFunction A)} {quakeFunction : Op A}
    {result : TensorValue} {builder : Builder A}
    (converts :
      convertQuakeToLinAlg narrow functions quakeFunction
          [2 ^ n] [2 ^ n, 2 ^ n] n = .ok (result, builder)) :
    returned environment builder result = some (.vector 0) := by
  rcases convertOperations_holds zeroed
      (initializeQubits_holds environment functions) converts with
    ⟨called, values, -, ended⟩
  simpa using ended.returned_eq

/-- A circuit with a final state other than zero is not computed. -/
theorem not_computesFinalState_of_ne_zero
    {functions : List (PrivateFunction A)} {block : Block A}
    (nonzero : denote interp block groundState ≠ 0) :
    ¬ ComputesFinalState narrow interp functions block := by
  rintro ⟨result, builder, converts, computes⟩
  have zeroed :
      (Environment.mk (gateMatrices interp builder.functions)
        (⟨0, 0⟩ : Contents n)).contents.vectors = 0 := rfl
  have zero := convertQuakeToLinAlg_returns_zero narrow zeroed converts
  rw [computes ⟨0, 0⟩, Option.some.injEq, TensorData.vector.injEq] at zero
  exact nonzero zero

/-- The function converted from a kernel never returns the final state. -/
theorem convertQuakeToLinAlg_not_computesFinalState
    (functions : List (PrivateFunction A)) {block : Block A}
    (distinct : DistinctOperands interp block) :
    ¬ ComputesFinalState narrow interp functions block := by
  apply not_computesFinalState_of_ne_zero
  intro zero
  have injective :=
    (Module.End.isUnit_iff _).mp
      (denote_isUnit_of_distinct interp distinct) |>.injective
  exact groundState_ne_zero (injective (zero.trans (map_zero _).symm))

end FinalState

/-! ## Two kernels -/

/-- A qubit of a register. -/
def wire (size : ℕ) (index : ℤ) : QuantumValue :=
  .extractRef (.veqAlloca 0 size) (.constant index)

/-- One qubit, and a gate that flips it. -/
def flipped : Block ℤ :=
  [.leaf (.alloca (.veqAlloca 0 1)), .leaf (.extractRef (wire 1 0)),
    (Gate.create .x false [] [] [wire 1 0]).op]

/-- The flipped qubit is not returned. -/
theorem flipped_not_computed :
    getNumberOfQubits (kernelOf flipped) = 1 ∧
      ¬ ComputesFinalState id (.ofRegister 0 fun _ => 0) [] flipped := by
  refine ⟨rfl, not_computesFinalState_of_ne_zero _ _ ?_⟩
  have flips :
      denote (.ofRegister 0 fun _ => 0) flipped = on 0 pauliX := by
    have standard :
        standardMatrix .x ([] : List ℝ) = some pauliX := rfl
    rw [flipped, denote_cons, denote_cons, denote_cons, operator_op,
      gateOperator_create _ standard]
    simp [operator, asOperator, withAdjoint, wire,
      Interpretation.ofRegister]
  have cleared :
      Function.update (fun _ : Fin 1 => true) 0 false =
        fun _ => false := by decide
  intro zero
  have amplitude := congrFun zero fun _ => true
  rw [flips, on_apply, cleared] at amplitude
  simp [groundState, pauliX, entries] at amplitude

/-- Two qubits, and the gates that entangle them. -/
def entangled : Block ℤ :=
  [.leaf (.alloca (.veqAlloca 0 2)), .leaf (.extractRef (wire 2 0)),
    .leaf (.extractRef (wire 2 1)),
    (Gate.create .h false [] [] [wire 2 0]).op,
    (Gate.create .x false [] [wire 2 0] [wire 2 1]).op]

theorem entangled_distinct :
    DistinctOperands (Interpretation.ofRegister 1 fun _ => 0)
      entangled := by
  intro operation member gate isGate
  simp only [entangled, List.mem_cons, List.not_mem_nil, or_false] at member
  rcases member with rfl | rfl | rfl | rfl | rfl <;> cases isGate
  · decide
  · decide

/-- The entangled state is not returned. -/
theorem entangled_not_computed :
    ¬ ComputesFinalState id (.ofRegister 1 fun _ => 0) [] entangled :=
  convertQuakeToLinAlg_not_computesFinalState _ _ _ entangled_distinct

end MQSSPasses.LinAlg.FinalState

end
