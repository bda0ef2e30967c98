import MQSSPasses.LinAlg.QuakeToLinAlg
import MQSSPasses.Passes.LookBack
import MQSSPasses.Passes.QuakeQMap

/-!
# The integers by which the lowerings name qubits

Four lowerings leave the kernel's values behind and name qubits by integers:
the rows of a drawn circuit, the indices in the name of a matrix function,
the wires of a graph, and the qubits of a circuit for the mapping tool.  All
of them read the integer from the operand alone and keep it in an `int`,
while the number of qubits is summed over all allocations of the kernel.

The file says for which kernels these integers are in range and tell the
qubits apart.
-/

namespace MQSSPasses.Lowerings.QubitNames

open MQSSPasses.General.IntConversion
open MQSSPasses.General.OperationTree
open MQSSPasses.Quake.Syntax
open MQSSPasses.Quake.Operations
open MQSSPasses.Passes.LookBack
open MQSSPasses.Passes.QuakeQMap
open MQSSPasses.LinAlg.QuakeToLinAlg

variable {A : Type}

/-! ## How a lowering names an operand -/

/-- The lowerings that name qubits by integers. -/
inductive Lowering where
  | QuakeToTikz
  | QuakeToLinAlg
  | QuakeDAG
  | QuakeQMap
  deriving DecidableEq, Repr

/-- The operands of a gate that the mapping loaders append, if they do. -/
def loadedQubits (gate : Gate A) : List QuantumValue :=
  let count := (getOperands gate).length
  match gate.kind with
  | .rx | .ry | .rz => if count = 2 then gate.qubits else []
  | .x | .y | .z => if count = 1 ∨ count = 2 then gate.qubits else []
  | .s | .t | .h => if count = 1 then gate.qubits else []
  | _ => []

/-- What the loaders assert about an index of a gate. -/
def loaderMessage (gate : Gate A) : String :=
  match gate.kind with
  | .rx | .ry | .rz => "ill-formed rotation gate!"
  | .x | .y | .z =>
      if (getOperands gate).length = 2 then "ill-formed controlled gate!"
      else "ill-formed single gate X, Y and Z!"
  | _ => "ill-formed single gate, S, T or H !"

/-- The measured references; a measured register is not named. -/
def measuredRefs (targets : List QuantumValue) : List QuantumValue :=
  targets.filter fun value => !isVeq value

/-- The qubit operands of an operation which a lowering names. -/
def Lowering.operands (lowering : Lowering) (op : Op A) :
    List QuantumValue :=
  match lowering, op.label with
  | .QuakeToTikz, .gate gate => gate.targets ++ gate.controls
  | .QuakeToTikz, .measure _ targets => measuredRefs targets
  | .QuakeToLinAlg, .gate gate => gate.controls ++ gate.targets
  | .QuakeDAG, .gate gate => gate.targets ++ gate.controls
  | .QuakeQMap, .gate gate => loadedQubits gate
  | .QuakeQMap, .measure _ targets => measuredRefs targets
  | _, _ => []

/-- The index of an operand, asserted to be valid. -/
def assertedIndex (message : String) (value : QuantumValue) :
    Except Fault ℤ := do
  let qubitIndex ← qubitIndex value
  if qubitIndex = -1 then throw (.assertion message)
  return qubitIndex

/--
The integer by which a lowering names an operand of an operation.  Measured
references and operands for the mapping tool are asserted not to be `-1`.
-/
def Lowering.name (lowering : Lowering) (op : Op A)
    (value : QuantumValue) : Except Fault ℤ :=
  match lowering, op.label with
  | .QuakeToTikz, .measure _ _ | .QuakeQMap, .measure _ _ =>
      assertedIndex "Non valid qubit index for measurement!" value
  | .QuakeQMap, .gate gate => assertedIndex (loaderMessage gate) value
  | _, _ => qubitIndex value

/-- The indices of a range are the names of its operands. -/
theorem getIndicesOfValueRange_eq_names (gate : Gate A)
    (values : List QuantumValue) :
    getIndicesOfValueRange values =
      values.mapM (Lowering.QuakeToLinAlg.name gate.op) := rfl

theorem assertedIndex_eq_ok {message : String} {value : QuantumValue}
    {name : ℤ} :
    assertedIndex message value = .ok name ↔
      qubitIndex value = .ok name ∧ name ≠ -1 := by
  unfold assertedIndex
  cases read : qubitIndex value with
  | error fault => simp [bind, Except.bind]
  | ok index =>
      simp only [bind, Except.bind, Except.ok.injEq]
      by_cases invalid : index = -1
      · simp only [invalid, if_true, throw, throwThe, MonadExceptOf.throw,
          reduceCtorEq, false_iff, not_and, not_not]
        exact Eq.symm
      · simp only [invalid, if_false, pure, Except.pure, Except.ok.injEq]
        constructor
        · rintro rfl
          exact ⟨rfl, invalid⟩
        · exact And.left

/-- A loader appends a gate on the name of its target. -/
theorem loadSingle_names {single : ℤ → QCOperation A} {message : String}
    {value : QuantumValue} {name : ℤ}
    (named : assertedIndex message value = .ok name) :
    (loadSingle single message (.qubit value)).trace = [single name] := by
  rcases assertedIndex_eq_ok.mp named with ⟨read, valid⟩
  simp [loadSingle, indexOf, read, valid, assertThat]

/-- A loader appends a gate on the names of its control and its target. -/
theorem loadControlled_names {single : ℤ → QCOperation A}
    {controlled : ℤ → ℤ → QCOperation A} {message : String}
    {control target : QuantumValue} {controlName targetName : ℤ}
    (controlNamed : assertedIndex message control = .ok controlName)
    (targetNamed : assertedIndex message target = .ok targetName) :
    (loadControlled single controlled
        [.qubit control, .qubit target]).trace =
      [controlled controlName targetName] := by
  rcases assertedIndex_eq_ok.mp controlNamed with ⟨controlRead, first⟩
  rcases assertedIndex_eq_ok.mp targetNamed with ⟨targetRead, second⟩
  simp [loadControlled, indexOf, controlRead, targetRead, first, second,
    assertThat]

/-! ## The kernels the lowerings are given -/

/-- A qubit taken from an allocation of the kernel, inside its register. -/
inductive Allocated (dynamic : ℕ → ℤ) (kernel : Op A) :
    QuantumValue → Prop where
  | ref (id : ℕ) {operation : Op A} (member : operation ∈ postOrder kernel)
      (allocates : operation.label = .alloca (.refAlloca id)) :
      Allocated dynamic kernel (.refAlloca id)
  | element (id size : ℕ) (index : ExtractIndex)
      {operation : Op A} (member : operation ∈ postOrder kernel)
      (allocates : operation.label = .alloca (.veqAlloca id size))
      (nonneg :
        0 ≤ ((QuantumValue.extractRef (.veqAlloca id size) index).qubit
          dynamic).index)
      (inside :
        ((QuantumValue.extractRef (.veqAlloca id size) index).qubit
          dynamic).index < size) :
      Allocated dynamic kernel (.extractRef (.veqAlloca id size) index)

/-- Every operand the lowering names is such a qubit. -/
def ValidKernel (lowering : Lowering) (dynamic : ℕ → ℤ)
    (kernel : Op A) : Prop :=
  ∀ op ∈ postOrder kernel, ∀ value ∈ lowering.operands op,
    Allocated dynamic kernel value

/-! ## When the names are faithful -/

/--
The names are qubit numbers of the kernel, and two operands have one name
exactly when they denote one qubit.
-/
structure NamesQubits (lowering : Lowering) (dynamic : ℕ → ℤ)
    (kernel : Op A) : Prop where
  range :
    ∀ op ∈ postOrder kernel, ∀ value ∈ lowering.operands op,
      ∃ name : ℤ, lowering.name op value = .ok name ∧ 0 ≤ name ∧
        name < getNumberOfQubits kernel
  incidence :
    ∀ op ∈ postOrder kernel, ∀ value ∈ lowering.operands op,
      ∀ other ∈ postOrder kernel, ∀ operand ∈ lowering.operands other,
        lowering.name op value = lowering.name other operand ↔
          value.qubit dynamic = operand.qubit dynamic

/-- The number of qubits that the kernel allocates. -/
def numberAllocated (kernel : Op A) : ℕ :=
  ((postOrder kernel).map allocatedQubits).sum

/--
Every named operand is taken at a constant index of a register, which as an
`int` is below the number of qubits as an `int`; and no two qubits have
indices that differ by a multiple of `2 ^ 32`, neither in two registers nor
in one.
-/
structure OneQubitPerIndex (lowering : Lowering) (dynamic : ℕ → ℤ)
    (kernel : Op A) : Prop where
  constant :
    ∀ op ∈ postOrder kernel, ∀ value ∈ lowering.operands op,
      HasConstantIndex value
  inside :
    ∀ op ∈ postOrder kernel, ∀ value ∈ lowering.operands op,
      0 ≤ toInt (value.qubit dynamic).index ∧
        toInt (value.qubit dynamic).index < toInt (numberAllocated kernel)
  single :
    ∀ op ∈ postOrder kernel, ∀ value ∈ lowering.operands op,
      ∀ other ∈ postOrder kernel, ∀ operand ∈ lowering.operands other,
        (value.qubit dynamic).index ≡ (operand.qubit dynamic).index
            [ZMOD intRange] →
          value.root = operand.root ∧
            (value.qubit dynamic).index = (operand.qubit dynamic).index

/-- The name of a constant index is the index, if that is not negative. -/
theorem Lowering.name_of_constant (lowering : Lowering) (op : Op A)
    (dynamic : ℕ → ℤ) {value : QuantumValue}
    (constant : HasConstantIndex value)
    (nonneg : 0 ≤ toInt (value.qubit dynamic).index) :
    lowering.name op value = .ok (toInt (value.qubit dynamic).index) := by
  have read := qubitIndex_of_constant dynamic constant
  have valid : toInt (value.qubit dynamic).index ≠ -1 := by omega
  have asserted (message : String) :
      assertedIndex message value =
        .ok (toInt (value.qubit dynamic).index) :=
    assertedIndex_eq_ok.mpr ⟨read, valid⟩
  unfold Lowering.name
  split
  · exact asserted _
  · exact asserted _
  · exact asserted _
  · exact read

/-- A name is the index that is read. -/
theorem Lowering.qubitIndex_of_name (lowering : Lowering) (op : Op A)
    {value : QuantumValue} {name : ℤ}
    (named : lowering.name op value = .ok name) :
    qubitIndex value = .ok name := by
  unfold Lowering.name at named
  split at named
  · exact (assertedIndex_eq_ok.mp named).1
  · exact (assertedIndex_eq_ok.mp named).1
  · exact (assertedIndex_eq_ok.mp named).1
  · exact named

/-- An index that is not negative was read from a constant index. -/
theorem hasConstantIndex_of_nonneg {value : QuantumValue} {name : ℤ}
    (read : qubitIndex value = .ok name) (nonneg : 0 ≤ name) :
    HasConstantIndex value := by
  cases value with
  | refArgument id | veqArgument id => cases read
  | refAlloca id | veqAlloca id size =>
      cases read
      exact absurd nonneg (by decide)
  | extractRef veq index =>
      cases index with
      | constant index => trivial
      | dynamic index =>
          cases read
          exact absurd nonneg (by decide)

theorem qubit_eq_iff (dynamic : ℕ → ℤ) (value operand : QuantumValue) :
    value.qubit dynamic = operand.qubit dynamic ↔
      value.root = operand.root ∧
        (value.qubit dynamic).index = (operand.qubit dynamic).index := by
  rw [← qubit_root dynamic value, ← qubit_root dynamic operand]
  cases value.qubit dynamic
  cases operand.qubit dynamic
  simp

/--
A lowering names the qubits of a kernel faithfully exactly when it only
meets constant indices, which as `int`s are inside the number of qubits, and
no index stands for two qubits.
-/
theorem namesQubits_iff (lowering : Lowering) (dynamic : ℕ → ℤ)
    (kernel : Op A) :
    NamesQubits lowering dynamic kernel ↔
      OneQubitPerIndex lowering dynamic kernel := by
  have total :
      getNumberOfQubits kernel = toInt (numberAllocated kernel) :=
    getNumberOfQubits_eq kernel
  constructor
  · intro names
    have constant :
        ∀ op ∈ postOrder kernel, ∀ value ∈ lowering.operands op,
          HasConstantIndex value := by
      intro op member value operand
      rcases names.range op member value operand with
        ⟨name, named, nonneg, -⟩
      exact hasConstantIndex_of_nonneg
        (lowering.qubitIndex_of_name op named) nonneg
    have inside :
        ∀ op ∈ postOrder kernel, ∀ value ∈ lowering.operands op,
          0 ≤ toInt (value.qubit dynamic).index ∧
            toInt (value.qubit dynamic).index <
              toInt (numberAllocated kernel) := by
      intro op member value operand
      rcases names.range op member value operand with
        ⟨name, named, nonneg, below⟩
      have read := lowering.qubitIndex_of_name op named
      rw [qubitIndex_of_constant dynamic (constant op member value operand),
        Except.ok.injEq] at read
      rw [read, ← total]
      exact ⟨nonneg, below⟩
    refine ⟨constant, inside, ?_⟩
    intro op member value isOperand other otherMember operand
      otherIsOperand congruent
    have sameName :
        lowering.name op value = lowering.name other operand := by
      rw [lowering.name_of_constant op dynamic
          (constant op member value isOperand)
          (inside op member value isOperand).1,
        lowering.name_of_constant other dynamic
          (constant other otherMember operand otherIsOperand)
          (inside other otherMember operand otherIsOperand).1,
        toInt_eq_iff.mpr congruent]
    exact (qubit_eq_iff dynamic value operand).mp
      ((names.incidence op member value isOperand other otherMember operand
        otherIsOperand).mp sameName)
  · intro indices
    have named (op : Op A) (member : op ∈ postOrder kernel)
        (value : QuantumValue) (operand : value ∈ lowering.operands op) :
        lowering.name op value =
          .ok (toInt (value.qubit dynamic).index) :=
      lowering.name_of_constant op dynamic
        (indices.constant op member value operand)
        (indices.inside op member value operand).1
    constructor
    · intro op member value operand
      have inside := indices.inside op member value operand
      rw [total]
      exact ⟨_, named op member value operand, inside.1, inside.2⟩
    · intro op member value isOperand other otherMember operand
        otherIsOperand
      rw [named op member value isOperand,
        named other otherMember operand otherIsOperand,
        Except.ok.injEq, qubit_eq_iff, toInt_eq_iff]
      constructor
      · exact indices.single op member value isOperand other otherMember
          operand otherIsOperand
      · rintro ⟨-, sameIndex⟩
        rw [sameIndex]

section TwoRegisters

/-- Two registers of one qubit and a gate on each. -/
def twoAllocations : Op ℤ :=
  kernelOf
    [.leaf (.alloca (.veqAlloca 0 1)), .leaf (.alloca (.veqAlloca 1 1)),
      (Gate.create .x false [] [] [firstQubit 0]).op,
      (Gate.create .x false [] [] [firstQubit 1]).op]

theorem mem_twoAllocations {op : Op ℤ}
    (member : op ∈ postOrder twoAllocations) {value : QuantumValue}
    (operand : value ∈ Lowering.QuakeToTikz.operands op) :
    (op = (Gate.create .x false [] [] [firstQubit 0]).op ∧
        value = firstQubit 0) ∨
      op = (Gate.create .x false [] [] [firstQubit 1]).op ∧
        value = firstQubit 1 := by
  simp only [twoAllocations, kernelOf, postOrder, postOrderBlocks,
    postOrderBlock, Gate.op, Node.leaf, List.append_nil, List.nil_append,
    List.cons_append, List.mem_cons, List.not_mem_nil, or_false] at member
  rcases member with rfl | rfl | rfl | rfl | rfl
  · cases operand
  · cases operand
  · exact .inl ⟨rfl, List.mem_singleton.mp operand⟩
  · exact .inr ⟨rfl, List.mem_singleton.mp operand⟩
  · cases operand

theorem twoAllocations_valid :
    ValidKernel .QuakeToTikz (fun _ => 0) twoAllocations := by
  intro op member value operand
  rcases mem_twoAllocations member operand with ⟨-, rfl⟩ | ⟨-, rfl⟩
  · exact .element 0 1 (.constant 0) List.mem_cons_self rfl
      (by decide) (by decide)
  · exact .element 1 1 (.constant 0)
      (List.mem_cons_of_mem _ List.mem_cons_self) rfl
      (by decide) (by decide)

/-- The qubits of the two registers are drawn in one row. -/
theorem twoAllocations_not_named :
    ValidKernel .QuakeToTikz (fun _ => 0) twoAllocations ∧
      ¬ NamesQubits .QuakeToTikz (fun _ => 0) twoAllocations := by
  refine ⟨twoAllocations_valid, ?_⟩
  intro names
  have inside (register : ℕ) (isGate : register = 0 ∨ register = 1) :
      (Gate.create .x false [] [] [firstQubit register]).op ∈
        postOrder twoAllocations := by
    rcases isGate with rfl | rfl <;>
      simp [twoAllocations, kernelOf, postOrder, postOrderBlocks,
        postOrderBlock, Gate.op, Node.leaf]
  have same :=
    (names.incidence _ (inside 0 (.inl rfl)) (firstQubit 0)
      List.mem_cons_self _ (inside 1 (.inr rfl)) (firstQubit 1)
      List.mem_cons_self).mp rfl
  exact absurd same (by decide)

end TwoRegisters

end MQSSPasses.Lowerings.QubitNames
