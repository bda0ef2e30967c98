import MQSSPasses.General.OperationTree

/-!
# Quake kernels in memory semantics

A kernel body is a block of operations.  Gates name their operands by SSA
values; what a pass can ask of such a value is which operation defines it.
Values are therefore identified with their defining operation: a reference
is a block argument, a `quake.alloca`, or a `quake.extract_ref` of a
register at a constant or run-time index, and a parameter is a constant, a
block argument or the result of some other operation.

The type `A` of floating-point constants is a parameter of the syntax.
-/

namespace MQSSPasses.Quake.Syntax

open MQSSPasses.General.OperationTree

/-- The index operand of a `quake.extract_ref`. -/
inductive ExtractIndex where
  | constant (index : ℤ)
  | dynamic (value : ℕ)
  deriving DecidableEq, Repr

/-- A value of type `!quake.ref` or `!quake.veq`, by its definition. -/
inductive QuantumValue where
  | refArgument (id : ℕ)
  | veqArgument (id : ℕ)
  | refAlloca (id : ℕ)
  | veqAlloca (id size : ℕ)
  | extractRef (veq : QuantumValue) (index : ExtractIndex)
  deriving DecidableEq, Repr

/-- A value of floating-point type, by its definition. -/
inductive FloatValue (A : Type) where
  | constant (value : A)
  | argument (id : ℕ)
  | computed (id : ℕ)
  deriving DecidableEq, Repr

/-- The operations of the dialect that implement `OperatorInterface`. -/
inductive GateKind where
  | x
  | y
  | z
  | h
  | s
  | t
  | r1
  | rx
  | ry
  | rz
  | phasedRx
  | u2
  | u3
  | swap
  | expPauli (word : String)
  | customOp (symbol : String)
  deriving DecidableEq, Repr

/-- The operation name without the dialect prefix. -/
def GateKind.mnemonic : GateKind → String
  | .x => "x"
  | .y => "y"
  | .z => "z"
  | .h => "h"
  | .s => "s"
  | .t => "t"
  | .r1 => "r1"
  | .rx => "rx"
  | .ry => "ry"
  | .rz => "rz"
  | .phasedRx => "phased_rx"
  | .u2 => "u2"
  | .u3 => "u3"
  | .swap => "swap"
  | .expPauli _ => "exp_pauli"
  | .customOp _ => "custom_op"

/-- The number of parameters of a gate kind, where the dialect fixes it. -/
def GateKind.numParameters : GateKind → Option ℕ
  | .x | .y | .z | .h | .s | .t | .swap => some 0
  | .r1 | .rx | .ry | .rz | .expPauli _ => some 1
  | .phasedRx | .u2 => some 2
  | .u3 => some 3
  | .customOp _ => none

/--
A gate operation.  `negatedQubitControls` is the optional attribute with one
flag for each control.
-/
structure Gate (A : Type) where
  kind : GateKind
  isAdj : Bool
  parameters : List (FloatValue A)
  controls : List QuantumValue
  targets : List QuantumValue
  negatedQubitControls : Option (List Bool)
  deriving DecidableEq, Repr

/-- The builder overload used by the passes: no control is negated. -/
def Gate.create {A : Type} (kind : GateKind) (isAdj : Bool)
    (parameters : List (FloatValue A))
    (controls targets : List QuantumValue) : Gate A :=
  ⟨kind, isAdj, parameters, controls, targets, none⟩

/--
The value at which each control takes effect: a control without the
attribute must be set, a negated one must not.
-/
def Gate.polarity {A : Type} (gate : Gate A) : List Bool :=
  match gate.negatedQubitControls with
  | none => gate.controls.map fun _ => true
  | some negated => negated.map fun flag => !flag

/-- No control of the gate is negated. -/
def Gate.Unnegated {A : Type} (gate : Gate A) : Prop :=
  gate.polarity = gate.controls.map fun _ => true

/-- The quantum operands of a gate, in operand order. -/
def Gate.qubits {A : Type} (gate : Gate A) : List QuantumValue :=
  gate.controls ++ gate.targets

/-- The basis of a measurement: `quake.mx`, `quake.my` or `quake.mz`. -/
inductive MeasureBasis where
  | mx
  | my
  | mz
  deriving DecidableEq, Repr

/-- What an operation of a kernel is, apart from its regions. -/
inductive OpData (A : Type) where
  | gate (gate : Gate A)
  | alloca (result : QuantumValue)
  | extractRef (result : QuantumValue)
  | constant (result : FloatValue A)
  | measure (basis : MeasureBasis) (targets : List QuantumValue)
  | reset (target : QuantumValue)
  | apply (callee : String) (controls arguments : List QuantumValue)
  | call (callee : String) (arguments : List QuantumValue)
  /-- An operation with regions, such as a conditional or a loop. -/
  | structured (mnemonic : String)
  /-- Any other operation, with the qubits and registers it acts on. -/
  | other (mnemonic : String) (operands : List QuantumValue)
  | ret
  deriving DecidableEq, Repr

/-- An operation of a kernel. -/
abbrev Op (A : Type) : Type := Node (OpData A)

/-- A block of a kernel. -/
abbrev Block (A : Type) : Type := List (Op A)

/-- A kernel with one block. -/
def kernelOf {A : Type} (block : Block A) : Op A :=
  .mk (.structured "func.func") [block]

/-- The operation that performs a gate. -/
def Gate.op {A : Type} (gate : Gate A) : Op A :=
  .leaf (.gate gate)

/-- `dyn_cast<quake::OperatorInterface>`. -/
def asOperator {A : Type} (op : Op A) : Option (Gate A) :=
  match op.label with
  | .gate gate => some gate
  | _ => none

/-- `dyn_cast` to the operation class of one gate kind. -/
def asGate {A : Type} (kind : GateKind) (op : Op A) :
    Option (Gate A) :=
  match asOperator op with
  | some gate => if gate.kind = kind then some gate else none
  | none => none

theorem asOperator_eq_some {A : Type} {op : Op A} {gate : Gate A} :
    asOperator op = some gate ↔ op.label = .gate gate := by
  unfold asOperator
  cases op.label <;> simp

theorem asGate_eq_some {A : Type} {kind : GateKind} {op : Op A}
    {gate : Gate A} :
    asGate kind op = some gate ↔
      op.label = .gate gate ∧ gate.kind = kind := by
  unfold asGate
  cases found : asOperator op with
  | none =>
      constructor
      · simp
      · rintro ⟨label, -⟩
        rw [asOperator_eq_some.mpr label] at found
        simp at found
  | some other =>
      have label := asOperator_eq_some.mp found
      rw [label]
      by_cases same : other.kind = kind
      · simp only [same, if_true, Option.some.injEq, OpData.gate.injEq]
        constructor
        · rintro rfl
          exact ⟨rfl, same⟩
        · rintro ⟨rfl, -⟩
          rfl
      · simp only [same, if_false, OpData.gate.injEq]
        constructor
        · simp
        · rintro ⟨rfl, kindEq⟩
          exact (same kindEq).elim

/-! ## Which qubits a value denotes -/

/-- The block argument or allocation a value is taken from. -/
def QuantumValue.root : QuantumValue → QuantumValue
  | .extractRef veq _ => veq.root
  | value => value

/-- A physical qubit: a place in an allocation. -/
structure Qubit where
  root : QuantumValue
  index : ℤ
  deriving DecidableEq, Repr

/--
The qubit a reference denotes when the run-time indices have the given
values.
-/
def QuantumValue.qubit (dynamic : ℕ → ℤ) (value : QuantumValue) : Qubit :=
  match value with
  | .extractRef veq (.constant index) => ⟨veq.root, index⟩
  | .extractRef veq (.dynamic index) => ⟨veq.root, dynamic index⟩
  | value => ⟨value, 0⟩

/-- A register covers all its qubits and a reference covers its own. -/
def QuantumValue.Covers (dynamic : ℕ → ℤ) (value : QuantumValue)
    (qubit : Qubit) : Prop :=
  match value with
  | .veqArgument _ | .veqAlloca _ _ => qubit.root = value
  | value => qubit = value.qubit dynamic

/-- The qubits and registers an operation itself acts on. -/
def OpData.acted {A : Type} : OpData A → List QuantumValue
  | .gate performed => performed.qubits
  | .measure _ targets => targets
  | .reset target => [target]
  | .apply _ controls arguments => controls ++ arguments
  | .call _ arguments => arguments
  | .other _ operands => operands
  | .alloca _ | .extractRef _ | .constant _ | .structured _ | .ret => []

/-- An operation acts on a qubit itself or through a nested operation. -/
inductive ActsOn {A : Type} (dynamic : ℕ → ℤ) (qubit : Qubit) :
    Op A → Prop where
  | itself {op : Op A} {value : QuantumValue}
      (operand : value ∈ op.label.acted)
      (covers : value.Covers dynamic qubit) :
      ActsOn dynamic qubit op
  | nested {op inner : Op A} {block : Block A}
      (region : block ∈ op.blocks) (member : inner ∈ block)
      (acts : ActsOn dynamic qubit inner) :
      ActsOn dynamic qubit op

end MQSSPasses.Quake.Syntax
