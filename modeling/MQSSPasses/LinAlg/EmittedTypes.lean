import MQSSPasses.DAG.Construction
import MQSSPasses.LinAlg.FinalState
import MQSSPasses.LinAlg.GateSymbols
import MQSSPasses.Lowerings.QuakeToTikz

/-!
# The types of the emitted functions

The values of an emitted body are tensors, and every operation asks for
operands of certain shapes.  A call asks for a declared function, which
takes one tensor of as many doubles as it has parameters, or nothing if it
has none.

A body whose operations all get what they ask for never gets stuck.  The
conversion of a module emits such bodies, and symbols that do not meet, as
long as the gates that share a symbol have as many parameters.
-/

noncomputable section

namespace MQSSPasses.LinAlg.EmittedTypes

open MQSSPasses.General.TracedComputation
open MQSSPasses.General.OperationTree
open MQSSPasses.General.LabelwiseWalk
open MQSSPasses.General.QubitOperators
open MQSSPasses.General.StraightLineProgram
open MQSSPasses.Quake.Syntax
open MQSSPasses.Quake.Operations
open MQSSPasses.LinAlg.QuakeToLinAlg
open MQSSPasses.LinAlg.GateSymbols
open MQSSPasses.LinAlg.FinalState
open MQSSPasses.DAG.Construction (split_last_underscore)
open MQSSPasses.Lowerings.QuakeToTikz (exists_indices_iff
  exists_parameters_iff)

variable {A : Type} {n : ℤ}

/-! ## Types -/

/-- The types of tensors, by their elements and shapes. -/
inductive TensorType where
  | doubles (size : ℕ)
  | complex (shape : List ℕ)
  deriving DecidableEq, Repr

/-- The type of a state of `n` qubits. -/
def stateType (n : ℤ) : TensorType := .complex [dimension n]

/-- The type of an operator on `n` qubits. -/
def operatorType (n : ℤ) : TensorType :=
  .complex [dimension n, dimension n]

theorem stateType_natCast (n : ℕ) :
    stateType n = .complex [2 ^ n] := by
  rw [stateType, dimension_natCast]

theorem operatorType_natCast (n : ℕ) :
    operatorType n = .complex [2 ^ n, 2 ^ n] := by
  rw [operatorType, dimension_natCast]

/-- The function with a name. -/
def lookupFunction (functions : List (PrivateFunction A))
    (callee : String) : Option (PrivateFunction A) :=
  functions.find? fun function => function.name = callee

/-- A function that returns operators on `n` qubits. -/
def Declared (n : ℤ) (function : PrivateFunction A) : Prop :=
  symbol n function.createdFor = .ok function.name

instance (n : ℤ) (function : PrivateFunction A) :
    Decidable (Declared n function) :=
  match named : symbol n function.createdFor with
  | .ok name =>
      decidable_of_iff (name = function.name) (by simp [Declared, named])
  | .error fault => .isFalse (by simp [Declared, named])

/-- The operand of a call is what the function takes. -/
def Takes (types : List TensorType) (numberParameters : ℕ) :
    Option ℕ → Prop
  | none => numberParameters = 0
  | some place =>
      0 < numberParameters ∧
        types[place]? = some (.doubles numberParameters)

instance (types : List TensorType) (numberParameters : ℕ) :
    (arguments : Option ℕ) →
      Decidable (Takes types numberParameters arguments)
  | none => inferInstanceAs (Decidable (_ = _))
  | some _ => inferInstanceAs (Decidable (_ ∧ _))

/--
The type of an operation in a function on `n` qubits, if its operands have
the types that it asks for.  A tensor without entries may be given by one.
-/
def typeOf (n : ℤ) (functions : List (PrivateFunction A)) :
    Meaning (LinAlgOp A) TensorType
  | _, .denseComplex data =>
      if data.length = 2 ^ n.toNat then some (stateType n) else none
  | _, .denseDouble data => some (.doubles data.length)
  | types, .call callee arguments =>
      match lookupFunction functions callee with
      | some function =>
          if Declared n function ∧
              Takes types function.numberParameters arguments then
            some (operatorType n)
          else none
      | none => none
  | _, .empty shape =>
      if shape = [dimension n] ∨ shape = [dimension n, dimension n] then
        some (.complex shape)
      else none
  | types, .complexMul lhs rhs =>
      if types[lhs]? = some (.complex []) ∧
          types[rhs]? = some (.complex []) then
        some (.complex [])
      else none
  | types, .generic lhs rhs init =>
      if types[lhs]? = some (stateType n) ∧
          types[rhs]? = some (stateType n) ∧
          types[init]? = some (stateType n) then
        some (stateType n)
      else none
  | types, .matvec matrix vector init =>
      if types[matrix]? = some (operatorType n) ∧
          types[vector]? = some (stateType n) ∧
          types[init]? = some (stateType n) then
        some (stateType n)
      else none
  | types, .matmul lhs rhs init =>
      if types[lhs]? = some (operatorType n) ∧
          types[rhs]? = some (operatorType n) ∧
          types[init]? = some (operatorType n) then
        some (operatorType n)
      else none

/-- An emitted function all whose operations get the types they ask for. -/
def WellTyped (n : ℤ) (functions : List (PrivateFunction A))
    (gpu : GpuFunction A) : Prop :=
  ∃ types, run (typeOf n functions) gpu.operations = some types ∧
    types[gpu.result.place]? = some (stateType n)

/-! ## Typed functions run -/

section Soundness

variable {n : ℕ}

/-- What a tensor of a type holds. -/
inductive HasType : TensorData A n → TensorType → Prop where
  | doubles (values : List A) :
      HasType (.doubles values) (.doubles values.length)
  | scalar (value : ℂ) : HasType (.scalar value) (.complex [])
  | vector (state : State (Fin n)) : HasType (.vector state) (stateType n)
  | matrix (operator : Operator (Fin n)) :
      HasType (.matrix operator) (operatorType n)

theorem HasType.doubles_inv {data : TensorData A n} {size : ℕ}
    (typed : HasType data (.doubles size)) :
    ∃ values, data = .doubles values := by
  cases typed with
  | doubles values => exact ⟨values, rfl⟩

theorem HasType.scalar_inv {data : TensorData A n}
    (typed : HasType data (.complex [])) :
    ∃ value, data = .scalar value := by
  cases typed with
  | scalar value => exact ⟨value, rfl⟩

theorem HasType.vector_inv {data : TensorData A n}
    (typed : HasType data (stateType n)) :
    ∃ state, data = .vector state := by
  generalize type : stateType n = tensorType at typed
  cases typed with
  | vector state => exact ⟨state, rfl⟩
  | doubles values | scalar value | matrix operator => cases type

theorem HasType.matrix_inv {data : TensorData A n}
    (typed : HasType data (operatorType n)) :
    ∃ operator, data = .matrix operator := by
  generalize type : operatorType n = tensorType at typed
  cases typed with
  | matrix operator => exact ⟨operator, rfl⟩
  | doubles values | scalar value | vector state => cases type

/-- What a typed place holds. -/
theorem holds_of_typed {values : List (TensorData A n)}
    {types : List TensorType} (related : List.Forall₂ HasType values types)
    {place : ℕ} {type : TensorType} (typed : types[place]? = some type) :
    ∃ data, values[place]? = some data ∧ HasType data type := by
  rcases List.getElem?_eq_some_iff.mp typed with ⟨inside, rfl⟩
  have bound : place < values.length := by
    rw [related.length_eq]
    exact inside
  exact ⟨values[place], List.getElem?_eq_getElem bound,
    related.get bound inside⟩

/-- An operation computes a tensor of its type. -/
theorem typeOf_simulated (environment : Environment A n)
    (functions : List (PrivateFunction A)) :
    Simulates HasType (meaning environment) (typeOf n functions) := by
  intro values types operation type related computes
  cases operation with
  | denseComplex data =>
      simp only [typeOf, Option.ite_none_right_eq_some,
        Option.some.injEq] at computes
      rcases computes with ⟨size, rfl⟩
      rw [Int.toNat_natCast] at size
      exact ⟨_, if_pos size, .vector _⟩
  | denseDouble data =>
      cases computes
      exact ⟨_, rfl, .doubles data⟩
  | call callee arguments =>
      rw [typeOf] at computes
      cases found : lookupFunction functions callee with
      | none =>
          rw [found] at computes
          cases computes
      | some function =>
          simp only [found, Option.ite_none_right_eq_some,
            Option.some.injEq] at computes
          rcases computes with ⟨⟨-, takes⟩, rfl⟩
          cases arguments with
          | none => exact ⟨_, rfl, .matrix _⟩
          | some place =>
              rcases holds_of_typed related takes.2 with ⟨_, held, typed⟩
              rcases typed.doubles_inv with ⟨parameters, rfl⟩
              exact ⟨_, meaning_call held, .matrix _⟩
  | empty shape =>
      simp only [typeOf, Option.ite_none_right_eq_some,
        Option.some.injEq] at computes
      rw [dimension_natCast] at computes
      rcases computes with ⟨rfl | rfl, same⟩
      · rw [← stateType_natCast] at same
        subst same
        exact ⟨_, if_pos rfl, .vector _⟩
      · rw [← operatorType_natCast] at same
        subst same
        exact ⟨_, (if_neg (by simp)).trans (if_pos rfl), .matrix _⟩
  | complexMul lhs rhs =>
      simp only [typeOf, Option.ite_none_right_eq_some,
        Option.some.injEq] at computes
      rcases computes with ⟨⟨left, right⟩, rfl⟩
      rcases holds_of_typed related left with ⟨_, heldLeft, typedLeft⟩
      rcases holds_of_typed related right with ⟨_, heldRight, typedRight⟩
      rcases typedLeft.scalar_inv with ⟨first, rfl⟩
      rcases typedRight.scalar_inv with ⟨second, rfl⟩
      exact ⟨.scalar (first * second),
        by simp only [meaning, heldLeft, heldRight], .scalar _⟩
  | generic lhs rhs init =>
      simp only [typeOf, Option.ite_none_right_eq_some,
        Option.some.injEq] at computes
      rcases computes with ⟨⟨left, right, -⟩, rfl⟩
      rcases holds_of_typed related left with ⟨_, heldLeft, typedLeft⟩
      rcases holds_of_typed related right with ⟨_, heldRight, typedRight⟩
      rcases typedLeft.vector_inv with ⟨first, rfl⟩
      rcases typedRight.vector_inv with ⟨second, rfl⟩
      exact ⟨.vector (first * second),
        by simp only [meaning, heldLeft, heldRight], .vector _⟩
  | matvec matrix vector init =>
      simp only [typeOf, Option.ite_none_right_eq_some,
        Option.some.injEq] at computes
      rcases computes with ⟨⟨left, right, output⟩, rfl⟩
      rcases holds_of_typed related left with ⟨_, heldLeft, typedLeft⟩
      rcases holds_of_typed related right with ⟨_, heldRight, typedRight⟩
      rcases holds_of_typed related output with ⟨_, heldInit, typedInit⟩
      rcases typedLeft.matrix_inv with ⟨operator, rfl⟩
      rcases typedRight.vector_inv with ⟨state, rfl⟩
      rcases typedInit.vector_inv with ⟨accumulator, rfl⟩
      exact ⟨_, meaning_matvec heldLeft heldRight heldInit, .vector _⟩
  | matmul lhs rhs init =>
      simp only [typeOf, Option.ite_none_right_eq_some,
        Option.some.injEq] at computes
      rcases computes with ⟨⟨left, right, output⟩, rfl⟩
      rcases holds_of_typed related left with ⟨_, heldLeft, typedLeft⟩
      rcases holds_of_typed related right with ⟨_, heldRight, typedRight⟩
      rcases holds_of_typed related output with ⟨_, heldInit, typedInit⟩
      rcases typedLeft.matrix_inv with ⟨first, rfl⟩
      rcases typedRight.matrix_inv with ⟨second, rfl⟩
      rcases typedInit.matrix_inv with ⟨accumulator, rfl⟩
      exact ⟨.matrix (accumulator + first * second),
        by simp only [meaning, heldLeft, heldRight, heldInit], .matrix _⟩

/--
A well-typed function returns a state, whatever its matrix functions return
and whatever `tensor.empty` holds.
-/
theorem WellTyped.returns_state {functions : List (PrivateFunction A)}
    {gpu : GpuFunction A} (typed : WellTyped n functions gpu)
    (environment : Environment A n) :
    ∃ state : State (Fin n),
      returned environment ⟨functions, gpu.operations⟩ gpu.result =
        some (.vector state) := by
  rcases typed with ⟨types, checked, result⟩
  rcases (typeOf_simulated environment functions).run_related checked with
    ⟨values, ran, related⟩
  rcases holds_of_typed related result with ⟨_, held, holds⟩
  rcases holds.vector_inv with ⟨state, rfl⟩
  exact ⟨state, by simp [returned, ran, held]⟩

end Soundness

/-! ## What is emitted for a gate -/

/-- The call for a gate's matrix, at the end of a body. -/
def emittedCall (place : ℕ) (name : String) (params : List A) :
    List (LinAlgOp A) :=
  match params with
  | [] => [.call name none]
  | _ => [.denseDouble params, .call name (some place)]

/-- The call and the product with the state. -/
def emittedGate (n : ℤ) (place state : ℕ) (name : String)
    (params : List A) : List (LinAlgOp A) :=
  let called := emittedCall place name params
  called ++
    [.empty [dimension n],
      .matvec (place + called.length - 1) state (place + called.length)]

theorem emittedCall_length_pos (place : ℕ) (name : String)
    (params : List A) : 0 < (emittedCall place name params).length := by
  cases params <;> simp [emittedCall]

theorem emittedGate_length (place state : ℕ) (name : String)
    (params : List A) :
    (emittedGate n place state name params).length =
      (emittedCall place name params).length + 2 := by
  rw [emittedGate, List.length_append]
  rfl

theorem insertCall_eq (builder : Builder A) (name : String)
    (matrixType : List ℕ) (params : List A) :
    insertCall builder name matrixType params =
      (⟨builder.operations.length +
            (emittedCall builder.operations.length name params).length - 1,
          matrixType⟩,
        { builder with
          operations :=
            builder.operations ++
              emittedCall builder.operations.length name params }) := by
  cases params with
  | nil => rfl
  | cons first others =>
      simp [insertCall, emittedCall, Builder.create]

section Conversion

variable [Neg A] [One A] {narrow : A → A}

theorem getParametersValues_length {parameters : List (FloatValue A)}
    {params : List A}
    (read : getParametersValues narrow parameters = .ok params) :
    parameters.length = params.length :=
  (mapM_eq_ok_iff.mp read).length_eq

/-- What a gate with readable operands adds to the body. -/
theorem convertGate_eq_emitted {gate : Gate A} {name : String}
    {params : List A} (named : symbol n gate = .ok name)
    (read : getParametersValues narrow gate.parameters = .ok params)
    (builder : Builder A) {state : TensorValue}
    (shaped : state.shape = [dimension n]) :
    convertGate narrow n [dimension n, dimension n] builder state gate =
      .ok
        (⟨builder.operations.length +
            (emittedGate n builder.operations.length state.place name
              params).length - 1, [dimension n]⟩,
          ⟨(inlineFunction builder name params.length gate).functions,
            builder.operations ++
              emittedGate n builder.operations.length state.place name
                params⟩) := by
  have positive :=
    emittedCall_length_pos builder.operations.length name params
  rw [convertGate_eq_symbol, named, read]
  simp only [bind, Except.bind, insertMulN_pair, insertCall_eq,
    inlineFunction_operations]
  rw [insertMul, shaped]
  simp only [if_true, Builder.create, emittedGate, List.append_assoc,
    List.length_append, List.length_cons, List.length_nil, pure,
    Except.pure, List.cons_append, List.nil_append]
  rfl

/-- The conversion of a gate asks for nothing but readable operands. -/
theorem convertGate_reads {gate : Gate A} {builder : Builder A}
    {state : TensorValue} {result : TensorValue × Builder A}
    (converts :
      convertGate narrow n [dimension n, dimension n] builder state gate =
        .ok result) :
    ∃ name params, symbol n gate = .ok name ∧
      getParametersValues narrow gate.parameters = .ok params := by
  rw [convertGate_eq_symbol] at converts
  rcases except_bind_eq_ok.mp converts with ⟨name, named, rest⟩
  rcases except_bind_eq_ok.mp rest with ⟨params, read, -⟩
  exact ⟨name, params, named, read⟩

/-! ### The types of what is emitted -/

section Gate

variable {functions : List (PrivateFunction A)} {types : List TensorType}
variable {name : String} {params : List A} {place state : ℕ}

/-- The function that is called takes the parameters of the call. -/
def Accepts (n : ℤ) (functions : List (PrivateFunction A)) (name : String)
    (numberParameters : ℕ) : Prop :=
  ∃ function, lookupFunction functions name = some function ∧
    Declared n function ∧ function.numberParameters = numberParameters

omit [Neg A] [One A] in
theorem typeOf_call_iff {arguments : Option ℕ} {type : TensorType} :
    typeOf n functions types (.call name arguments) = some type ↔
      (∃ function, lookupFunction functions name = some function ∧
        Declared n function ∧
          Takes types function.numberParameters arguments) ∧
        type = operatorType n := by
  rw [typeOf]
  cases lookupFunction functions name with
  | none => simp
  | some function => simp [eq_comm]

omit [Neg A] [One A] in
/-- A call is typed if its function takes the parameters. -/
theorem emittedCall_typed (length : types.length = place) :
    (∃ final,
        runFrom (typeOf n functions) types
          (emittedCall place name params) = some final) ↔
      Accepts n functions name params.length := by
  cases params with
  | nil =>
      simp only [emittedCall, runFrom, Option.bind_eq_bind,
        Option.bind_eq_some_iff, typeOf_call_iff, Takes, Accepts,
        List.length_nil]
      simp
  | cons first others =>
      have newest :
          (types ++ [TensorType.doubles (first :: others).length])[place]? =
            some (.doubles (first :: others).length) := by
        rw [← length]
        exact List.getElem?_concat_length
      have doubles :
          typeOf n functions types (.denseDouble (first :: others)) =
            some (.doubles (first :: others).length) := rfl
      simp only [emittedCall, runFrom, doubles, Option.bind_eq_bind,
        Option.bind_eq_some_iff, typeOf_call_iff, Takes, Accepts,
        Option.some.injEq]
      constructor
      · rintro ⟨_, _, rfl, _, ⟨⟨function, found, declared, -, same⟩, -⟩, -⟩
        rw [newest, Option.some.injEq, TensorType.doubles.injEq] at same
        exact ⟨function, found, declared, same.symm⟩
      · rintro ⟨function, found, declared, same⟩
        refine ⟨_, _, rfl, _, ⟨⟨function, found, declared, ?_, ?_⟩, rfl⟩,
          rfl⟩
        · rw [same]
          exact Nat.zero_lt_succ _
        · rw [newest, same]

omit [Neg A] [One A] in
/-- The last value of a typed call is an operator. -/
theorem emittedCall_last {final : List TensorType}
    (length : types.length = place)
    (runs :
      runFrom (typeOf n functions) types (emittedCall place name params) =
        some final) :
    types <+: final ∧
      final[place + (emittedCall place name params).length - 1]? =
        some (operatorType n) := by
  cases params with
  | nil =>
      simp only [emittedCall, runFrom, Option.bind_eq_bind,
        Option.bind_eq_some_iff, typeOf_call_iff,
        Option.some.injEq] at runs
      rcases runs with ⟨_, ⟨-, rfl⟩, rfl⟩
      refine ⟨List.prefix_append _ _, ?_⟩
      simp [emittedCall, ← length]
  | cons first others =>
      have doubles :
          typeOf n functions types (.denseDouble (first :: others)) =
            some (.doubles (first :: others).length) := rfl
      simp only [emittedCall, runFrom, doubles, Option.bind_eq_bind,
        Option.bind_eq_some_iff, typeOf_call_iff,
        Option.some.injEq] at runs
      rcases runs with ⟨_, rfl, _, ⟨-, rfl⟩, rfl⟩
      refine ⟨(List.prefix_append _ _).trans (List.prefix_append _ _), ?_⟩
      simp [emittedCall, ← length]

omit [Neg A] [One A] in
/-- The product with the state is typed if the call is. -/
theorem emittedGate_typed (length : types.length = place)
    (typed : types[state]? = some (stateType n)) :
    (∃ final,
        runFrom (typeOf n functions) types
            (emittedGate n place state name params) = some final ∧
          final[place +
              (emittedGate n place state name params).length - 1]? =
            some (stateType n)) ↔
      Accepts n functions name params.length := by
  rw [← emittedCall_typed length]
  constructor
  · rintro ⟨final, runs, -⟩
    rw [emittedGate, runFrom_append, Option.bind_eq_some_iff] at runs
    rcases runs with ⟨middle, calls, -⟩
    exact ⟨middle, calls⟩
  · rintro ⟨middle, calls⟩
    rcases emittedCall_last length calls with ⟨grown, called⟩
    have places :
        place + (emittedCall place name params).length = middle.length := by
      rw [length_of_runFrom calls, length]
    have inside := (List.getElem?_eq_some_iff.mp called).1
    have isState := getElem?_of_prefix grown typed
    have empty :
        typeOf n functions middle (.empty [dimension n]) =
          some (stateType n) :=
      if_pos (.inl rfl)
    have product :
        typeOf n functions (middle ++ [stateType n])
            (.matvec
              (place + (emittedCall place name params).length - 1) state
              (place + (emittedCall place name params).length)) =
          some (stateType n) := by
      refine if_pos ⟨?_, ?_, ?_⟩
      · exact getElem?_of_prefix (List.prefix_append _ _) called
      · exact getElem?_of_prefix (List.prefix_append _ _) isState
      · rw [places]
        exact List.getElem?_concat_length
    refine ⟨middle ++ [stateType n] ++ [stateType n], ?_, ?_⟩
    · rw [emittedGate, runFrom_append, calls]
      simp only [Option.bind_some, runFrom, empty, Option.bind_eq_bind,
        product]
    · have last :
          place + (emittedGate n place state name params).length - 1 =
            (middle ++ [stateType n]).length := by
        rw [emittedGate_length, List.length_append, ← places,
          List.length_singleton]
        omega
      rw [last]
      exact List.getElem?_concat_length

end Gate

/-! ### The walk over a kernel -/

/-- The gates of a block, in order. -/
def gatesIn (block : Block A) : List (Gate A) :=
  block.filterMap asOperator

/-- The function of a gate takes as many parameters as the gate has. -/
def Fits (n : ℤ) (functions : List (PrivateFunction A)) (gate : Gate A) :
    Prop :=
  ∃ name, symbol n gate = .ok name ∧
    Accepts n functions name gate.parameters.length

omit [Neg A] [One A] in
theorem gatesIn_cons (operation : Op A) (rest : Block A) :
    gatesIn (operation :: rest) =
      (asOperator operation).toList ++ gatesIn rest := by
  rw [gatesIn, gatesIn, List.filterMap_cons]
  cases asOperator operation <;> rfl

section Walk

variable {functions : List (PrivateFunction A)} {block : Block A}
variable {builder grown : Builder A} {state result : TensorValue}

/-- A kernel adds operations to the body and nothing else to it. -/
theorem convertOperations_grows (shaped : state.shape = [dimension n])
    (converts :
      convertOperations narrow n [dimension n, dimension n] builder state
          block =
        .ok (result, grown)) :
    builder.operations <+: grown.operations := by
  induction block generalizing builder state with
  | nil =>
      cases converts
      exact List.prefix_rfl
  | cons operation rest induction =>
      rw [convertOperations] at converts
      cases isGate : asOperator operation with
      | none =>
          rw [isGate] at converts
          exact induction shaped converts
      | some gate =>
          rw [isGate] at converts
          rcases except_bind_eq_ok.mp converts with
            ⟨⟨next, middle⟩, first, later⟩
          rcases convertGate_reads first with ⟨name, params, named, read⟩
          rw [convertGate_eq_emitted named read builder shaped,
            Except.ok.injEq, Prod.mk.injEq] at first
          rcases first with ⟨rfl, rfl⟩
          exact (List.prefix_append _ _).trans (induction rfl later)

/-- The body of a kernel is typed if every gate fits its function. -/
theorem convertOperations_typed {types : List TensorType}
    (runs : run (typeOf n functions) builder.operations = some types)
    (typed : types[state.place]? = some (stateType n))
    (shaped : state.shape = [dimension n])
    (converts :
      convertOperations narrow n [dimension n, dimension n] builder state
          block =
        .ok (result, grown)) :
    (∃ final,
        run (typeOf n functions) grown.operations = some final ∧
          final[result.place]? = some (stateType n)) ↔
      ∀ gate ∈ gatesIn block, Fits n functions gate := by
  induction block generalizing builder state types with
  | nil =>
      cases converts
      exact iff_of_true ⟨types, runs, typed⟩ (by simp [gatesIn])
  | cons operation rest induction =>
      rw [convertOperations] at converts
      rw [gatesIn_cons]
      cases isGate : asOperator operation with
      | none =>
          rw [isGate] at converts
          exact induction runs typed shaped converts
      | some gate =>
          rw [isGate] at converts
          rcases except_bind_eq_ok.mp converts with
            ⟨⟨next, middle⟩, first, later⟩
          rcases convertGate_reads first with ⟨name, params, named, read⟩
          rw [convertGate_eq_emitted named read builder shaped,
            Except.ok.injEq, Prod.mk.injEq] at first
          rcases first with ⟨rfl, rfl⟩
          have length := length_of_run runs
          have fits :
              Fits n functions gate ↔
                Accepts n functions name params.length := by
            rw [← getParametersValues_length read]
            constructor
            · rintro ⟨other, same, accepts⟩
              rw [named, Except.ok.injEq] at same
              rw [same]
              exact accepts
            · exact fun accepts => ⟨name, named, accepts⟩
          rw [Option.toList_some, List.singleton_append,
            List.forall_mem_cons, fits,
            ← @emittedGate_typed A n functions types name params _
              state.place length typed]
          have continued {reached : List TensorType}
              (steps :
                runFrom (typeOf n functions) types
                    (emittedGate n builder.operations.length state.place
                      name params) = some reached) :
              run (typeOf n functions)
                  (builder.operations ++
                    emittedGate n builder.operations.length state.place
                      name params) = some reached := by
            rw [run_append, runs]
            exact steps
          constructor
          · rintro ⟨final, ran, ends⟩
            rcases convertOperations_grows rfl later with ⟨added, whole⟩
            have own := ran
            rw [← whole, run_append, run_append, runs, Option.bind_some,
              Option.bind_eq_some_iff] at own
            rcases own with ⟨between, own, -⟩
            rw [emittedGate, runFrom_append,
              Option.bind_eq_some_iff] at own
            rcases own with ⟨called, calls, -⟩
            rcases (emittedGate_typed length typed).mpr
                ((emittedCall_typed length).mp ⟨called, calls⟩) with
              ⟨reached, steps, last⟩
            exact ⟨⟨reached, steps, last⟩,
              (induction (continued steps) last rfl later).mp
                ⟨final, ran, ends⟩⟩
          · rintro ⟨⟨reached, steps, last⟩, others⟩
            exact (induction (continued steps) last rfl later).mpr others

end Walk

/-! ## The declared functions -/

/--
The functions declared for calls, each with the number of qubits it was made
for: one for every symbol, and none without a call.
-/
structure Declares (calls : List (ℤ × Gate A))
    (functions : List (PrivateFunction A)) : Prop where
  names : (functions.map PrivateFunction.name).Nodup
  called :
    ∀ function ∈ functions, ∃ numQubits,
      (numQubits, function.createdFor) ∈ calls ∧
        Declared numQubits function ∧
        function.numberParameters = function.createdFor.parameters.length
  covers :
    ∀ call ∈ calls, ∃ function ∈ functions,
      symbol call.1 call.2 = .ok function.name

section Declarations

variable {calls : List (ℤ × Gate A)}
variable {functions : List (PrivateFunction A)}

omit [Neg A] [One A] in
theorem declares_nil : Declares ([] : List (ℤ × Gate A)) [] :=
  ⟨List.nodup_nil, by simp, by simp⟩

omit [Neg A] [One A] in
/-- Functions are told apart by their names. -/
theorem Declares.eq_of_name (declares : Declares calls functions)
    {first second : PrivateFunction A} (member : first ∈ functions)
    (other : second ∈ functions) (same : first.name = second.name) :
    first = second :=
  List.inj_on_of_nodup_map declares.names member other same

omit [Neg A] [One A] in
theorem Declares.lookup_eq_some_iff (declares : Declares calls functions)
    {name : String} {function : PrivateFunction A} :
    lookupFunction functions name = some function ↔
      function ∈ functions ∧ function.name = name := by
  have looked {other : PrivateFunction A}
      (found : lookupFunction functions name = some other) :
      other ∈ functions ∧ other.name = name := by
    rw [lookupFunction] at found
    exact ⟨List.mem_of_find?_eq_some found,
      by simpa using List.find?_some found⟩
  constructor
  · exact looked
  · rintro ⟨member, named⟩
    cases found : lookupFunction functions name with
    | none =>
        have absent := List.find?_eq_none.mp found function member
        exact (absent (decide_eq_true named)).elim
    | some other =>
        rcases looked found with ⟨inside, same⟩
        rw [declares.eq_of_name inside member (same.trans named.symm)]

omit [Neg A] [One A] in
/-- The function of a gate is declared if it is not there yet. -/
theorem Declares.inlineFunction {builder : Builder A} {gate : Gate A}
    {name : String} (declares : Declares calls builder.functions)
    (named : symbol n gate = .ok name) :
    Declares (calls ++ [(n, gate)])
      (inlineFunction builder name gate.parameters.length
        gate).functions := by
  rw [QuakeToLinAlg.inlineFunction]
  split_ifs with present
  · simp only [List.any_eq_true, decide_eq_true_eq] at present
    rcases present with ⟨function, member, same⟩
    refine ⟨declares.names, ?_, ?_⟩
    · intro other inside
      rcases declares.called other inside with
        ⟨numQubits, call, declared, count⟩
      exact ⟨numQubits, List.mem_append_left _ call, declared, count⟩
    · intro call inside
      rcases List.mem_append.mp inside with old | new
      · exact declares.covers call old
      · rw [List.mem_singleton.mp new]
        exact ⟨function, member, by rw [same]; exact named⟩
  · simp only [List.any_eq_true, decide_eq_true_eq, not_exists,
      not_and] at present
    refine ⟨?_, ?_, ?_⟩
    · rw [List.map_cons, List.nodup_cons]
      refine ⟨?_, declares.names⟩
      intro taken
      rcases List.mem_map.mp taken with ⟨function, member, same⟩
      exact present function member same
    · intro function inside
      rcases List.mem_cons.mp inside with rfl | old
      · exact ⟨n, by simp, named, rfl⟩
      · rcases declares.called function old with
          ⟨numQubits, call, declared, count⟩
        exact ⟨numQubits, List.mem_append_left _ call, declared, count⟩
    · intro call inside
      rcases List.mem_append.mp inside with old | new
      · rcases declares.covers call old with ⟨function, member, same⟩
        exact ⟨function, List.mem_cons_of_mem _ member, same⟩
      · rw [List.mem_singleton.mp new]
        exact ⟨_, List.mem_cons_self, named⟩

/-- A kernel declares the functions of its gates. -/
theorem Declares.convertOperations {block : Block A}
    {builder grown : Builder A} {state result : TensorValue}
    (declares : Declares calls builder.functions)
    (shaped : state.shape = [dimension n])
    (converts :
      convertOperations narrow n [dimension n, dimension n] builder state
          block =
        .ok (result, grown)) :
    Declares (calls ++ (gatesIn block).map (Prod.mk n))
      grown.functions := by
  induction block generalizing calls builder state with
  | nil =>
      cases converts
      simpa [gatesIn] using declares
  | cons operation rest induction =>
      rw [QuakeToLinAlg.convertOperations] at converts
      rw [gatesIn_cons]
      cases isGate : asOperator operation with
      | none =>
          rw [isGate] at converts
          exact induction declares shaped converts
      | some gate =>
          rw [isGate] at converts
          rcases except_bind_eq_ok.mp converts with
            ⟨⟨next, middle⟩, first, later⟩
          rcases convertGate_reads first with ⟨name, params, named, read⟩
          rw [convertGate_eq_emitted named read builder shaped,
            Except.ok.injEq, Prod.mk.injEq] at first
          rcases first with ⟨rfl, rfl⟩
          have declared := declares.inlineFunction named
          rw [getParametersValues_length read] at declared
          rw [Option.toList_some, List.singleton_append, List.map_cons,
            List.append_cons]
          exact induction (by exact declared) rfl later

end Declarations

/-! ## Modules -/

/-- The gates of a module, each with the number of qubits of its kernel. -/
def kernelCalls (kernels : List (String × Op A)) : List (ℤ × Gate A) :=
  kernels.flatMap fun kernel =>
    (gatesIn (postOrder kernel.2)).map
      (Prod.mk (getNumberOfQubits kernel.2))

/-- A gate whose operands and parameters can be read. -/
def ReadableGate (gate : Gate A) : Prop :=
  (∀ operand ∈ gate.qubits, Defined operand) ∧
    ∀ parameter ∈ gate.parameters, ∀ id, parameter ≠ .argument id

/-- Gates that share a symbol have as many parameters. -/
def OneSignature (calls : List (ℤ × Gate A)) : Prop :=
  ∀ first ∈ calls, ∀ second ∈ calls, ∀ name,
    symbol first.1 first.2 = .ok name →
      symbol second.1 second.2 = .ok name →
        first.2.parameters.length = second.2.parameters.length

/--
The symbols of an emitted module are distinct, and each kernel has become a
well-typed function that calls the declared ones.
-/
structure Verifies (kernels : List (String × Op A))
    (functions : List (PrivateFunction A)) (emitted : List (GpuFunction A)) :
    Prop where
  symbols :
    (functions.map PrivateFunction.name ++
      emitted.map GpuFunction.name).Nodup
  bodies :
    List.Forall₂
      (fun kernel gpu => gpu.name = "mqss_gpu" ++ kernel.1 ∧
        WellTyped (getNumberOfQubits kernel.2) functions gpu)
      kernels emitted

omit [Neg A] [One A] in
/-- A gate gets a symbol if its operands can be read. -/
theorem exists_symbol_iff {gate : Gate A} :
    (∃ name, symbol n gate = .ok name) ↔
      ∀ operand ∈ gate.qubits, Defined operand := by
  rw [Gate.qubits, List.forall_mem_append, ← exists_indices_iff,
    ← exists_indices_iff]
  simp only [symbol_eq_ok, GateSymbols.Reads]
  constructor
  · rintro ⟨_, controls, targets, ⟨readControls, readTargets⟩, -⟩
    exact ⟨⟨controls, readControls⟩, ⟨targets, readTargets⟩⟩
  · rintro ⟨⟨controls, readControls⟩, targets, readTargets⟩
    exact ⟨_, controls, targets, ⟨readControls, readTargets⟩, rfl⟩

/-- A walk ends if every gate can be read. -/
theorem convertOperations_returns_iff {block : Block A}
    {builder : Builder A} {state : TensorValue}
    (shaped : state.shape = [dimension n]) :
    (∃ result,
        convertOperations narrow n [dimension n, dimension n] builder state
            block =
          .ok result) ↔
      ∀ gate ∈ gatesIn block, ReadableGate gate := by
  induction block generalizing builder state with
  | nil => exact iff_of_true ⟨_, rfl⟩ (by simp [gatesIn])
  | cons operation rest induction =>
      rw [convertOperations, gatesIn_cons]
      cases isGate : asOperator operation with
      | none => exact induction shaped
      | some gate =>
          simp only [Option.toList_some, List.singleton_append,
            List.forall_mem_cons, except_bind_eq_ok]
          constructor
          · rintro ⟨result, ⟨next, middle⟩, first, later⟩
            rcases convertGate_reads first with
              ⟨name, params, named, read⟩
            rw [convertGate_eq_emitted named read builder shaped,
              Except.ok.injEq, Prod.mk.injEq] at first
            rcases first with ⟨rfl, rfl⟩
            exact ⟨⟨exists_symbol_iff.mp ⟨name, named⟩,
              (exists_parameters_iff narrow).mp ⟨params, read⟩⟩,
              (induction rfl).mp ⟨result, later⟩⟩
          · rintro ⟨⟨operands, parameters⟩, others⟩
            rcases (@exists_symbol_iff A n gate).mpr operands with
              ⟨name, named⟩
            rcases (exists_parameters_iff narrow).mpr parameters with
              ⟨params, read⟩
            have first :=
              convertGate_eq_emitted named read builder shaped
            exact Exists.imp (fun result later => ⟨_, first, later⟩)
              ((induction (by rfl)).mpr others)

omit [Neg A] [One A] in
/-- The body before the first gate holds the initial tensor. -/
theorem initializeQubits_typed (functions callees : List (PrivateFunction A)) :
    run (typeOf n callees)
        (initializeQubits ⟨functions, []⟩ n [dimension n]).2.operations =
      some [stateType n] := by
  have constant :
      typeOf n callees []
          (.denseComplex (List.replicate (2 ^ n.toNat) (0, 0))) =
        some (stateType n) :=
    if_pos List.length_replicate
  simp [initializeQubits, Builder.create, run, runFrom, constant]

section Module

variable {calls : List (ℤ × Gate A)}
variable {functions final : List (PrivateFunction A)}
variable {kernels : List (String × Op A)} {emitted : List (GpuFunction A)}

omit [Neg A] [One A] in
theorem kernelCalls_cons (kernel : String × Op A)
    (others : List (String × Op A)) :
    kernelCalls (kernel :: others) =
      (gatesIn (postOrder kernel.2)).map
          (Prod.mk (getNumberOfQubits kernel.2)) ++
        kernelCalls others :=
  List.flatMap_cons

/-- The conversion of a module takes its kernels one after the other. -/
theorem runOnOperation_cons_eq_ok {name : String} {kernel : Op A} :
    runOnOperation narrow functions ((name, kernel) :: kernels) =
        .ok (final, emitted) ↔
      ∃ result builder others,
        convertQuakeToLinAlg narrow functions kernel
            [dimension (getNumberOfQubits kernel)]
            [dimension (getNumberOfQubits kernel),
              dimension (getNumberOfQubits kernel)]
            (getNumberOfQubits kernel) = .ok (result, builder) ∧
          runOnOperation narrow builder.functions kernels =
            .ok (final, others) ∧
          emitted =
            ⟨"mqss_gpu" ++ name, builder.operations, result⟩ :: others := by
  rw [runOnOperation, except_bind_eq_ok]
  constructor
  · rintro ⟨⟨result, builder⟩, converts, rest⟩
    rcases except_bind_eq_ok.mp rest with ⟨⟨_, others⟩, later, ⟨⟩⟩
    exact ⟨result, builder, others, converts, later, rfl⟩
  · rintro ⟨result, builder, others, converts, later, rfl⟩
    refine ⟨_, converts, ?_⟩
    dsimp only
    rw [later]
    rfl

theorem runOnOperation_declares (declares : Declares calls functions)
    (returns :
      runOnOperation narrow functions kernels = .ok (final, emitted)) :
    Declares (calls ++ kernelCalls kernels) final := by
  induction kernels generalizing calls functions emitted with
  | nil =>
      cases returns
      simpa [kernelCalls] using declares
  | cons kernel others induction =>
      rcases runOnOperation_cons_eq_ok.mp returns with
        ⟨result, builder, later, converts, continued, rfl⟩
      rw [kernelCalls_cons, ← List.append_assoc]
      exact induction
        (Declares.convertOperations (by exact declares) rfl converts)
        continued

/-- Every kernel becomes a typed function if its gates fit their functions. -/
theorem runOnOperation_typed (callees : List (PrivateFunction A))
    (returns :
      runOnOperation narrow functions kernels = .ok (final, emitted)) :
    List.Forall₂
        (fun kernel gpu => gpu.name = "mqss_gpu" ++ kernel.1 ∧
          WellTyped (getNumberOfQubits kernel.2) callees gpu)
        kernels emitted ↔
      ∀ call ∈ kernelCalls kernels, Fits call.1 callees call.2 := by
  induction kernels generalizing functions emitted with
  | nil =>
      cases returns
      exact iff_of_true .nil (by simp [kernelCalls])
  | cons kernel others induction =>
      rcases runOnOperation_cons_eq_ok.mp returns with
        ⟨result, builder, later, converts, continued, rfl⟩
      have body :=
        convertOperations_typed (initializeQubits_typed functions callees)
          rfl rfl converts
      rw [List.forall₂_cons, induction continued, kernelCalls_cons,
        List.forall_mem_append, List.forall_mem_map, ← body]
      exact and_congr_left fun _ => and_iff_right rfl

theorem runOnOperation_names
    (returns :
      runOnOperation narrow functions kernels = .ok (final, emitted)) :
    emitted.map GpuFunction.name =
      (kernels.map Prod.fst).map ("mqss_gpu" ++ ·) := by
  induction kernels generalizing functions emitted with
  | nil =>
      cases returns
      rfl
  | cons kernel others induction =>
      rcases runOnOperation_cons_eq_ok.mp returns with
        ⟨result, builder, later, converts, continued, rfl⟩
      rw [List.map_cons, induction continued]
      rfl

variable (narrow functions) in
theorem runOnOperation_returns_iff :
    (∃ result, runOnOperation narrow functions kernels = .ok result) ↔
      ∀ call ∈ kernelCalls kernels, ReadableGate call.2 := by
  induction kernels generalizing functions with
  | nil => exact iff_of_true ⟨_, rfl⟩ (by simp [kernelCalls])
  | cons kernel others induction =>
      have own (callees : List (PrivateFunction A)) :
          (∃ result,
              convertQuakeToLinAlg narrow callees kernel.2
                  [dimension (getNumberOfQubits kernel.2)]
                  [dimension (getNumberOfQubits kernel.2),
                    dimension (getNumberOfQubits kernel.2)]
                  (getNumberOfQubits kernel.2) = .ok result) ↔
            ∀ gate ∈ gatesIn (postOrder kernel.2), ReadableGate gate :=
        convertOperations_returns_iff rfl
      rw [kernelCalls_cons, List.forall_mem_append, List.forall_mem_map,
        ← own functions]
      constructor
      · rintro ⟨⟨final, emitted⟩, returns⟩
        rcases runOnOperation_cons_eq_ok.mp returns with
          ⟨result, builder, later, converts, continued, -⟩
        exact ⟨⟨_, converts⟩, (induction _).mp ⟨_, continued⟩⟩
      · rintro ⟨⟨⟨result, builder⟩, converts⟩, readable⟩
        rcases (induction builder.functions).mpr readable with
          ⟨⟨final, later⟩, continued⟩
        exact ⟨_, runOnOperation_cons_eq_ok.mpr
          ⟨result, builder, later, converts, continued, rfl⟩⟩

end Module

/-! ### Symbols -/

theorem underscore_not_mem_toString (number : ℤ) :
    '_' ∉ (toString number).toList := fun member =>
  absurd (isDecimal_of_mem_toString member) (by decide)

omit [Neg A] [One A] in
/-- The symbol of a gate tells the number of qubits. -/
theorem size_of_symbol {first second : Gate A} {size other : ℤ}
    {name : String} (named : symbol size first = .ok name)
    (same : symbol other second = .ok name) : size = other := by
  rcases symbol_eq_ok.mp named with ⟨controls, targets, -, rfl⟩
  rcases symbol_eq_ok.mp same with ⟨others, otherTargets, -, equal⟩
  have letters := congrArg String.toList equal
  rw [functionName_toList, functionName_toList] at letters
  have stems :=
    (append_cons_inj (not_mem_stem other second.kind)
      (not_mem_stem size first.kind) letters).1
  rw [stem, stem] at stems
  have numbered := List.append_cancel_right stems
  rw [List.append_assoc, List.append_assoc] at numbered
  have digits :=
    (split_last_underscore (underscore_not_mem_toString other)
      (underscore_not_mem_toString size) numbered).2
  have same := String.toList_inj.mp digits
  rw [Int.toString_eq_repr, Int.toString_eq_repr] at same
  exact (Int.repr_inj.mp same).symm

omit [Neg A] [One A] in
/-- No matrix function is called like a converted kernel. -/
theorem symbol_ne_gpu {gate : Gate A} {size : ℤ} {symbolName : String}
    (named : symbol size gate = .ok symbolName) (name : String) :
    symbolName ≠ "mqss_gpu" ++ name := by
  intro equal
  rcases symbol_eq_ok.mp named with ⟨controls, targets, -, rfl⟩
  have letters := congrArg (fun word => word.toList.head?) equal
  rw [functionName_toList] at letters
  cases kind : gate.kind <;>
    simp [kind, stem, GateKind.mnemonic] at letters

section Signatures

variable {calls : List (ℤ × Gate A)}
variable {functions : List (PrivateFunction A)}

omit [Neg A] [One A] in
/-- Every gate fits its function if no symbol is shared wrongly. -/
theorem Declares.fits_iff (declares : Declares calls functions) :
    (∀ call ∈ calls, Fits call.1 functions call.2) ↔
      OneSignature calls := by
  constructor
  · intro fits first member second other name named same
    rcases fits first member with
      ⟨_, ofFirst, function, found, -, count⟩
    rcases fits second other with
      ⟨_, ofSecond, callee, foundToo, -, countToo⟩
    rw [named, Except.ok.injEq] at ofFirst
    rw [same, Except.ok.injEq] at ofSecond
    rw [← ofFirst] at found
    rw [← ofSecond, found, Option.some.injEq] at foundToo
    rw [← count, ← countToo, foundToo]
  · intro signature call member
    rcases declares.covers call member with ⟨function, inside, named⟩
    rcases declares.called function inside with
      ⟨numQubits, created, declared, count⟩
    have size := size_of_symbol named declared
    refine ⟨function.name, named, function,
      declares.lookup_eq_some_iff.mpr ⟨inside, rfl⟩, ?_, ?_⟩
    · rw [size]
      exact declared
    · rw [count]
      exact signature _ created call member function.name declared named

end Signatures

end Conversion

/-! ### A flipped qubit -/

/-- The function of an `X` gate on the only qubit. -/
def flipFunction : PrivateFunction ℤ where
  name := "x_1qubits_control[]_target[0]"
  numberParameters := 0
  createdFor := Gate.create .x false [] [] [wire 1 0]

/-- The function that a kernel with this gate becomes. -/
def flippedFunction : GpuFunction ℤ where
  name := "mqss_gpuflip"
  operations :=
    [.denseComplex [(0, 0), (0, 0)],
      .call "x_1qubits_control[]_target[0]" none, .empty [2],
      .matvec 1 0 2]
  result := ⟨3, [2]⟩

/-- The conversion of the kernel emits these functions. -/
example :
    runOnOperation id [] [("flip", kernelOf flipped)] =
      .ok ([flipFunction], [flippedFunction]) := rfl

theorem flippedFunction_wellTyped :
    WellTyped 1 [flipFunction] flippedFunction := by
  have called :
      typeOf 1 [flipFunction] [stateType 1]
          (.call "x_1qubits_control[]_target[0]" none) =
        some (operatorType 1) :=
    typeOf_call_iff.mpr ⟨⟨flipFunction, rfl, rfl, rfl⟩, rfl⟩
  refine ⟨[stateType 1, operatorType 1, stateType 1, stateType 1], ?_, rfl⟩
  rw [run, flippedFunction]
  simp only [runFrom, Option.bind_eq_bind, List.nil_append,
    List.cons_append]
  rw [show typeOf 1 [flipFunction] [] (.denseComplex [(0, 0), (0, 0)]) =
    some (stateType 1) from rfl, Option.bind_some, called]
  rfl

theorem flippedFunction_returns_state :
    ∃ state : State (Fin 1),
      returned ⟨fun _ _ => 1, ⟨0, 0⟩⟩
          ⟨[flipFunction], flippedFunction.operations⟩
          flippedFunction.result =
        some (.vector state) :=
  flippedFunction_wellTyped.returns_state _

end MQSSPasses.LinAlg.EmittedTypes

end
