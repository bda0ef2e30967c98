import MQSSPasses.QASM.LibraryGates

/-!
# Gate modifiers

A gate call may carry modifiers: `ctrl(k)` and `negctrl(k)` take the first
`k` operands as controls, `inv` inverts and `pow(r)` takes a power.
`Modified` is their meaning.  The conversion reads the modifiers into a
variable that it never uses, so a call is converted as if it had none.

The file first characterizes the calls that are accepted and shows that an
accepted call implements its unmodified gate.  From that it follows for
which calls the conversion does what the modifiers say.
-/

noncomputable section

namespace MQSSPasses.QASM.Modifiers

open MQSSPasses.General.IntConversion
open MQSSPasses.General.TracedComputation
open MQSSPasses.General.OperationTree
open MQSSPasses.General.ControlledElement
open MQSSPasses.General.QubitOperators
open MQSSPasses.General.GateMatrices
open MQSSPasses.Quake.Syntax
open MQSSPasses.Quake.Operations
open MQSSPasses.Quake.Semantics
open MQSSPasses.QASM.Syntax
open MQSSPasses.QASM.GatesMap
open MQSSPasses.QASM.QASMToQuake
open MQSSPasses.QASM.GateMeaning
open MQSSPasses.QASM.Decompositions
open MQSSPasses.QASM.LibraryGates

variable {Q : Type} [DecidableEq Q]

/-! ## The meaning of modifiers -/

/-- The operator of the library gate with a name, angles and qubits. -/
def GateDenotes (name : String) (angles : List ℝ) (wires : List Q)
    (operator : Operator Q) : Prop :=
  ∃ gate ∈ (standardGates : List (StandardGate Q)), gate.name = name ∧
    ∃ gateAngles controls targets, angles = List.ofFn gateAngles ∧
      wires = List.ofFn controls ++ List.ofFn targets ∧ wires.Nodup ∧
      operator = gate.operator gateAngles controls targets

/--
The principal power: an eigenvalue at an angle in `(-pi, pi]` goes to the
multiple of the angle.
-/
def PrincipalPower (exponent : ℝ) (operator power : Operator Q) : Prop :=
  ∃ (n : ℕ) (projections : Fin n → Operator Q) (angles : Fin n → ℝ),
    (∀ i j, projections i * projections j =
      if i = j then projections i else 0) ∧
    ∑ i, projections i = 1 ∧
    (∀ i, -Real.pi < angles i ∧ angles i ≤ Real.pi) ∧
    operator = ∑ i, phase (angles i) • projections i ∧
    power = ∑ i, phase (exponent * angles i) • projections i

omit [DecidableEq Q] in
/-- A natural power in this sense is the repeated product. -/
theorem PrincipalPower.natCast {n : ℕ} {operator power : Operator Q}
    (powered : PrincipalPower n operator power) : power = operator ^ n := by
  rcases powered with
    ⟨m, projections, angles, orthogonal, complete, -, rfl, rfl⟩
  induction n with
  | zero => simp [complete]
  | succ n induction =>
      rw [pow_succ, ← induction, Finset.sum_mul]
      apply Finset.sum_congr rfl
      intro i _
      have single :
          projections i * ∑ j, phase (angles j) • projections j =
            phase (angles i) • projections i := by
        simp [Finset.mul_sum, orthogonal]
      rw [smul_mul_assoc, single, smul_smul, ← phase_add]
      congr 2
      push_cast
      ring

/-- The value of an integer expression. -/
def integerValue : Expression ℝ → Option ℤ
  | .constant (.integer value) => some value
  | .unary .negate operand => (integerValue operand).map Neg.neg
  | .binary .add lhs rhs => do
      return (← integerValue lhs) + (← integerValue rhs)
  | .binary .subtract lhs rhs => do
      return (← integerValue lhs) - (← integerValue rhs)
  | .binary .multiply lhs rhs => do
      return (← integerValue lhs) * (← integerValue rhs)
  | _ => none

/-- The number of controls of a modifier: one, or a positive integer. -/
def ControlCount : Option (Expression ℝ) → ℕ → Prop
  | none, number => number = 1
  | some expression, number =>
      0 < number ∧ integerValue expression = some (number : ℤ)

/-- What a gate does on its operands under a list of modifiers. -/
inductive Modified (name : String) (angles : List ℝ) :
    List (GateModifier ℝ) → List Q → Operator Q → Prop where
  | plain {wires : List Q} {operator : Operator Q}
      (denotes : GateDenotes name angles wires operator) :
      Modified name angles [] wires operator
  | inv {modifiers : List (GateModifier ℝ)} {wires : List Q}
      {operator inverse : Operator Q}
      (inner : Modified name angles modifiers wires operator)
      (left : inverse * operator = 1) (right : operator * inverse = 1) :
      Modified name angles (.inv :: modifiers) wires inverse
  | pow {modifiers : List (GateModifier ℝ)} {wires : List Q}
      {operator power : Operator Q} {expression : Expression ℝ}
      {exponent : ℝ} (value : evaluateExpression expression = .ok exponent)
      (inner : Modified name angles modifiers wires operator)
      (powered : PrincipalPower exponent operator power) :
      Modified name angles (.pow expression :: modifiers) wires power
  | ctrl {modifiers : List (GateModifier ℝ)} {controls wires : List Q}
      {operator : Operator Q} {ctrlType : Bool}
      {count : Option (Expression ℝ)}
      (number : ControlCount count controls.length)
      (inner : Modified name angles modifiers wires operator)
      (distinct : (controls ++ wires).Nodup) :
      Modified name angles (.ctrl ctrlType count :: modifiers)
        (controls ++ wires)
        (controlled
          (allOf (controls.map fun control => (control, ctrlType)))
          operator)

/-- An argument has a value. -/
def Evaluates (argument : Expression ℝ) (angle : ℝ) : Prop :=
  evaluateExpression argument = .ok angle

/-- An operand is a qubit of a register, at an index that is an `int`. -/
def OperandDenotes (vectors : QASMVectorToQuakeVector)
    (operand : GateOperand ℝ) (value : QuantumValue) : Prop :=
  ∃ index register,
    operand.expression = some (.constant (.integer index)) ∧ 0 ≤ index ∧
      toInt index = index ∧
      vectors.lookup operand.identifier = some register ∧
      value = .extractRef register (.constant index)

section Calls

variable (interp : Interpretation ℝ Q)
variable (vectors : QASMVectorToQuakeVector) (call : GateCall ℝ)

/-- The operator of a call with its modifiers. -/
def CallMeans (operator : Operator Q) : Prop :=
  ∃ angles values, List.Forall₂ Evaluates call.arguments angles ∧
    List.Forall₂ (OperandDenotes vectors) call.operands values ∧
    Modified call.identifier angles call.modifiers
      (values.map interp.qubit) operator

/-- The operator of the gate without modifiers on its first operands. -/
def UnmodifiedMeans (operator : Operator Q) : Prop :=
  ∃ angles values count, List.Forall₂ Evaluates call.arguments angles ∧
    List.Forall₂ (OperandDenotes vectors) call.operands values ∧
    GateDenotes call.identifier angles
      ((values.take count).map interp.qubit) operator

/-- The modifiers leave the gate as it is, up to a global phase. -/
def Harmless : Prop :=
  ∃ meaning unmodified, CallMeans interp vectors call meaning ∧
    UnmodifiedMeans interp vectors call unmodified ∧
    EqualUpToPhase unmodified meaning

/-- An operator that a Quake gate with a fixed meaning has. -/
def QuakeExpresses (operator : Operator Q) : Prop :=
  ∃ gate : Gate ℝ,
    ((∃ matrix target,
        standardMatrix gate.kind (gate.parameters.map interp.angle) =
            some matrix ∧ gate.targets = [target]) ∨
      (gate.kind = .swap ∧ ∃ first second,
        gate.targets = [first, second])) ∧
    (gate.qubits.map interp.qubit).Nodup ∧
    EqualUpToPhase (gateOperator interp gate) operator

/-- A call `ctrl(k) @ g` whose operator is that of a Quake gate. -/
def ExpressibleControl : Prop :=
  ∃ count operator, call.modifiers = [.ctrl true count] ∧
    CallMeans interp vectors call operator ∧
    QuakeExpresses interp operator

/--
What the conversion should do with a call: an accepted call implements the
modified gate, and a control that Quake can express is accepted.
-/
def ImplementsModified : Prop :=
  ((insertGate call vectors).outcome = .ok () →
    ∃ operator, CallMeans interp vectors call operator ∧
      EqualUpToPhase
        (denote interp (insertGate call vectors).trace) operator) ∧
  (ExpressibleControl interp vectors call →
    (insertGate call vectors).outcome = .ok ())

end Calls

/-! ## Reading arguments and operands -/

section Reading

variable {interp : Interpretation ℝ Q}
variable {vectors : QASMVectorToQuakeVector}

theorem performs_pure {Value : Type} (value : Value) :
    Performs interp (pure value : Emit ℝ Value) value 1 :=
  ⟨rfl, rfl⟩

theorem insertArguments_performs {arguments : List (Expression ℝ)}
    {angles : List ℝ} (evaluated : List.Forall₂ Evaluates arguments angles) :
    Performs interp (insertArguments arguments) (angles.map .constant)
      1 := by
  induction evaluated with
  | nil => exact performs_pure _
  | @cons argument angle others angles evaluates _ induction =>
      have inserted :
          Performs interp (insertArguments (argument :: others))
            ((angle :: angles).map .constant) (1 * 1) :=
        .ofExcept evaluates (.constant (induction.bind (performs_pure _)))
      rwa [one_mul] at inserted

theorem insertArguments_returns {arguments : List (Expression ℝ)}
    {parameters : List (FloatValue ℝ)}
    (returned : (insertArguments arguments).outcome = .ok parameters) :
    ∃ angles, List.Forall₂ Evaluates arguments angles := by
  induction arguments generalizing parameters with
  | nil => exact ⟨[], .nil⟩
  | cons argument others induction =>
      rcases Traced.bind_ok_iff.mp returned with ⟨angle, value, rest, -⟩
      rcases Traced.bind_ok_iff.mp rest with ⟨parameter, -, rest, -⟩
      rcases Traced.bind_ok_iff.mp rest with ⟨later, returned, -, -⟩
      rcases induction returned with ⟨angles, evaluated⟩
      exact ⟨angle :: angles, .cons value evaluated⟩

/-- The value the conversion finds for an operand. -/
def OperandValue (vectors : QASMVectorToQuakeVector)
    (operand : GateOperand ℝ) (value : QuantumValue) : Prop :=
  ∃ index register, operandIndex operand = .ok index ∧ index ≠ -1 ∧
    vectorAt vectors operand.identifier = .ok register ∧
    value = .extractRef register (.constant index)

theorem OperandDenotes.operandValue {operand : GateOperand ℝ}
    {value : QuantumValue} (denotes : OperandDenotes vectors operand value) :
    OperandValue vectors operand value := by
  rcases denotes with ⟨index, register, constant, nonnegative, fits, found,
    rfl⟩
  refine ⟨index, register, ?_, by omega, ?_, rfl⟩
  · rw [operandIndex, constant]
    exact congrArg Except.ok fits
  · rw [vectorAt, found]

theorem extractOperand_performs {operand : GateOperand ℝ}
    {value : QuantumValue} (found : OperandValue vectors operand value) :
    Performs interp (extractOperand vectors operand) value 1 := by
  rcases found with ⟨index, register, constant, inRange, selected, rfl⟩
  apply Performs.ofExcept constant
  rw [if_neg inRange]
  apply Performs.ofExcept selected
  exact ⟨rfl, one_mul 1⟩

theorem extractOperand_returns {operand : GateOperand ℝ}
    {value : QuantumValue}
    (returned : (extractOperand vectors operand).outcome = .ok value) :
    OperandValue vectors operand value := by
  rcases Traced.bind_ok_iff.mp returned with ⟨index, constant, rest, -⟩
  split at rest
  · cases rest
  next inRange =>
      rcases Traced.bind_ok_iff.mp rest with ⟨register, selected, rest, -⟩
      cases rest
      exact ⟨index, register, constant, inRange, selected, rfl⟩

theorem insertOperands_performs {operands : List (GateOperand ℝ)}
    {values : List QuantumValue}
    (found : List.Forall₂ (OperandValue vectors) operands values)
    (numControls i : ℕ) :
    Performs interp (insertOperands vectors numControls i operands)
      (values.take (numControls - i), values.drop (numControls - i)) 1 := by
  induction found generalizing i with
  | nil =>
      rw [List.take_nil, List.drop_nil]
      exact performs_pure _
  | @cons operand value operands values head _ induction =>
      have inserted :
          Performs interp
            (insertOperands vectors numControls i (operand :: operands))
            ((value :: values).take (numControls - i),
              (value :: values).drop (numControls - i)) (1 * 1 * 1) := by
        refine (extractOperand_performs head).bind
          ((induction (i + 1)).bind ?_)
        split
        next control =>
            have count : numControls - i = numControls - (i + 1) + 1 := by
              omega
            rw [count]
            exact performs_pure _
        next target =>
            have count : numControls - i = 0 := by omega
            have later : numControls - (i + 1) = 0 := by omega
            rw [count, later]
            exact performs_pure _
      rwa [one_mul, one_mul] at inserted

theorem insertOperands_returns {operands : List (GateOperand ℝ)}
    {numControls i : ℕ} {result : List QuantumValue × List QuantumValue}
    (returned :
      (insertOperands vectors numControls i operands).outcome =
        .ok result) :
    ∃ values, List.Forall₂ (OperandValue vectors) operands values := by
  induction operands generalizing i result with
  | nil => exact ⟨[], .nil⟩
  | cons operand others induction =>
      rcases Traced.bind_ok_iff.mp returned with ⟨value, found, rest, -⟩
      rcases Traced.bind_ok_iff.mp rest with ⟨later, returned, -, -⟩
      rcases induction returned with ⟨values, foundAll⟩
      exact ⟨value :: values, .cons (extractOperand_returns found) foundAll⟩

/-- The modifiers are read without a fault, if they are read at all. -/
def ModifiersRead (call : GateCall ℝ) : Prop :=
  call.operands = [] ∨ readModifiers call.modifiers = .ok ()

theorem insertControlsAndTargets_performs {call : GateCall ℝ}
    {values : List QuantumValue} (read : ModifiersRead call)
    (found : List.Forall₂ (OperandValue vectors) call.operands values) :
    Performs interp (insertControlsAndTargets call vectors)
      (values.take (leadingControls call.identifier),
        values.drop (leadingControls call.identifier)) 1 := by
  unfold insertControlsAndTargets
  split
  next empty =>
      rw [empty, List.forall₂_nil_left_iff] at found
      rw [found, List.take_nil, List.drop_nil]
      exact performs_pure _
  next nonempty =>
      exact .ofExcept (read.resolve_left nonempty)
        (insertOperands_performs found (leadingControls call.identifier) 0)

theorem insertControlsAndTargets_returns {call : GateCall ℝ}
    {result : List QuantumValue × List QuantumValue}
    (returned :
      (insertControlsAndTargets call vectors).outcome = .ok result) :
    ModifiersRead call ∧
      ∃ values,
        List.Forall₂ (OperandValue vectors) call.operands values := by
  unfold insertControlsAndTargets at returned
  split at returned
  next empty =>
      refine ⟨.inl empty, [], ?_⟩
      rw [empty]
      exact .nil
  next =>
      rcases Traced.bind_ok_iff.mp returned with ⟨_, read, rest, -⟩
      exact ⟨.inr read, insertOperands_returns rest⟩

end Reading

/-! ## Accepted calls -/

/-- The conversion can read a call, and its entry takes the numbers. -/
structure Fits (Q : Type) [DecidableEq Q]
    (vectors : QASMVectorToQuakeVector) (call : GateCall ℝ) : Prop where
  arguments : ∃ angles, List.Forall₂ Evaluates call.arguments angles
  modifiers : ModifiersRead call
  operands :
    ∃ values, List.Forall₂ (OperandValue vectors) call.operands values
  entry :
    EntryTakes Q call.identifier call.arguments.length call.operands.length

section Accepted

variable {interp : Interpretation ℝ Q}
variable {vectors : QASMVectorToQuakeVector} {call : GateCall ℝ}

/-- The entry a call is passed on to. -/
def insertEntry (call : GateCall ℝ) (angles : List ℝ)
    (values : List QuantumValue) : Emit ℝ Unit :=
  insertQASMGateIntoQuakeModule call.identifier (angles.map .constant)
    (values.take (leadingControls call.identifier))
    (values.drop (leadingControls call.identifier))
    (adjointFlag call.identifier)

section Read

variable {angles : List ℝ} {values : List QuantumValue}
variable (evaluated : List.Forall₂ Evaluates call.arguments angles)
variable (read : ModifiersRead call)
variable (found : List.Forall₂ (OperandValue vectors) call.operands values)

include evaluated read found

/-- A call that is read is accepted if its entry accepts. -/
theorem insertGate_outcome :
    (insertGate call vectors).outcome =
      (insertEntry call angles values).outcome := by
  have arguments :
      Performs (exactRegister 0) (insertArguments call.arguments)
        (angles.map .constant) 1 :=
    insertArguments_performs evaluated
  have operands :
      Performs (exactRegister 0) (insertControlsAndTargets call vectors)
        (values.take (leadingControls call.identifier),
          values.drop (leadingControls call.identifier)) 1 :=
    insertControlsAndTargets_performs read found
  unfold insertGate
  rw [Traced.bind_of_ok arguments.1, Traced.bind_of_ok operands.1]
  rfl

/-- Reading a call inserts values only. -/
theorem denote_insertGate :
    denote interp (insertGate call vectors).trace =
      denote interp (insertEntry call angles values).trace := by
  have arguments :
      Performs interp (insertArguments call.arguments)
        (angles.map .constant) 1 :=
    insertArguments_performs evaluated
  have operands :
      Performs interp (insertControlsAndTargets call vectors)
        (values.take (leadingControls call.identifier),
          values.drop (leadingControls call.identifier)) 1 :=
    insertControlsAndTargets_performs read found
  unfold insertGate
  rw [Traced.bind_of_ok arguments.1, Traced.bind_of_ok operands.1,
    denote_append, denote_append, arguments.2, operands.2, mul_one, mul_one]
  rfl

end Read

/-- The calls that are accepted. -/
theorem insertGate_accepts_iff :
    (insertGate call vectors).outcome = .ok () ↔ Fits Q vectors call := by
  constructor
  · intro accepted
    rcases Traced.bind_ok_iff.mp accepted with ⟨_, arguments, rest, -⟩
    rcases Traced.bind_ok_iff.mp rest with ⟨_, operands, -, -⟩
    rcases insertArguments_returns arguments with ⟨angles, evaluated⟩
    rcases insertControlsAndTargets_returns operands with
      ⟨read, values, found⟩
    rw [insertGate_outcome evaluated read found, insertEntry,
      insertQASMGate_accepts_iff (Q := Q), ← evaluated.length_eq,
      ← found.length_eq] at accepted
    exact ⟨⟨angles, evaluated⟩, read, ⟨values, found⟩, accepted⟩
  · rintro ⟨⟨angles, evaluated⟩, read, ⟨values, found⟩, takes⟩
    rw [evaluated.length_eq, found.length_eq] at takes
    rw [insertGate_outcome evaluated read found]
    exact (insertQASMGate_accepts_iff _ _ _ _).mpr takes

theorem exists_ofFn {α : Type} {list : List α} {n : ℕ}
    (length : list.length = n) : ∃ f : Fin n → α, list = List.ofFn f := by
  subst length
  exact ⟨list.get, list.ofFn_get.symm⟩

/-- Values whose qubits are split into controls and targets. -/
theorem exists_operands {values : List QuantumValue} {m n : ℕ}
    {controls : Fin m → Q} {targets : Fin n → Q}
    (wires :
      values.map interp.qubit = List.ofFn controls ++ List.ofFn targets) :
    ∃ (first : Fin m → QuantumValue) (second : Fin n → QuantumValue),
      values = List.ofFn first ++ List.ofFn second ∧
        controls = (fun i => interp.qubit (first i)) ∧
        targets = fun i => interp.qubit (second i) := by
  rcases List.map_eq_append_iff.mp wires with
    ⟨early, late, rfl, earlyWires, lateWires⟩
  have earlyLength : early.length = m := by
    simpa using congrArg List.length earlyWires
  have lateLength : late.length = n := by
    simpa using congrArg List.length lateWires
  rcases exists_ofFn earlyLength with ⟨first, rfl⟩
  rcases exists_ofFn lateLength with ⟨second, rfl⟩
  rw [List.map_ofFn] at earlyWires lateWires
  exact ⟨first, second, rfl, (List.ofFn_injective earlyWires).symm,
    (List.ofFn_injective lateWires).symm⟩

/-- The gate behind a meaning, and the operands it needs. -/
theorem GateDenotes.gate {name : String} {angles : List ℝ} {wires : List Q}
    {operator : Operator Q}
    (denotes : GateDenotes name angles wires operator) :
    ∃ gate ∈ (standardGates : List (StandardGate Q)), gate.name = name ∧
      angles.length = gate.numAngles ∧
      wires.length = gate.numControls + gate.numTargets ∧
      wires.Nodup := by
  rcases denotes with ⟨gate, member, named, gateAngles, controls, targets,
    rfl, rfl, distinct, -⟩
  exact ⟨gate, member, named, by simp, by simp, distinct⟩

/-- An accepted call implements its gate without the modifiers. -/
theorem insertGate_implements_unmodified (exact : ExactConstants interp)
    (accepted : (insertGate call vectors).outcome = .ok ())
    {operator : Operator Q}
    (means : UnmodifiedMeans interp vectors call operator) :
    EqualUpToPhase (denote interp (insertGate call vectors).trace)
      operator := by
  rcases means with ⟨angles, values, count, evaluated, operands, denotes⟩
  have found := operands.imp fun _ _ => OperandDenotes.operandValue
  have fits := insertGate_accepts_iff (Q := Q).mp accepted
  rw [denote_insertGate evaluated fits.modifiers found]
  have takes := fits.entry
  rw [evaluated.length_eq, found.length_eq] at takes
  rcases denotes with ⟨gate, member, named, gateAngles, controls, targets,
    rfl, wires, distinct, rfl⟩
  rcases exists_operands wires with
    ⟨controlValues, targetValues, taken, rfl, rfl⟩
  cases takes with
  | id isId =>
      have identity : (idGate : StandardGate Q) ∈ standardGates := by
        simp [standardGates]
      have same := standardGate_unique member identity (named.trans isId)
      subst same
      rw [insertEntry, isId]
      exact EqualUpToPhase.refl _
  | rccx isRccx three =>
      have rccx : (rccxGate : StandardGate Q) ∈ standardGates := by
        simp [standardGates, decomposedGates]
      have same := standardGate_unique member rccx (named.trans isRccx)
      subst same
      -- The entry does not look at operands after the third.
      rw [insertEntry, isRccx, ← List.take_append_drop count values, taken]
      exact (insertRccx_implements exact (targetValues (0 : Fin 3))
        (targetValues (1 : Fin 3)) (targetValues (2 : Fin 3))).2
  | checked other otherMember otherNamed angleCount operandCount =>
      have same :=
        standardGate_unique otherMember member (otherNamed.trans named.symm)
      subst same
      have whole : values.take count = values := by
        have length := congrArg List.length taken
        rw [List.length_append, List.length_ofFn, List.length_ofFn,
          operandCount, List.length_take] at length
        exact List.take_of_length_le (by omega)
      rw [whole] at taken distinct
      have implemented :=
        standardGates_implemented exact other otherMember gateAngles
          controlValues targetValues (taken ▸ distinct)
      have split := (standardGates_leadingControls other otherMember).1
      rw [insertEntry, ← otherNamed, split, List.map_ofFn, taken,
        List.take_left' (by simp), List.drop_left' (by simp)]
      exact implemented.2

end Accepted

/-! ## What the modifiers change -/

/-- A modified gate has the operands of its gate and further controls. -/
theorem Modified.gate {name : String} {angles : List ℝ}
    {modifiers : List (GateModifier ℝ)} {wires : List Q}
    {operator : Operator Q}
    (modified : Modified name angles modifiers wires operator) :
    ∃ gate ∈ (standardGates : List (StandardGate Q)), gate.name = name ∧
      angles.length = gate.numAngles ∧
      gate.numControls + gate.numTargets ≤ wires.length ∧
      wires.Nodup := by
  induction modified with
  | plain denotes =>
      rcases denotes.gate with ⟨gate, member, named, count, length, distinct⟩
      exact ⟨gate, member, named, count, length.ge, distinct⟩
  | inv _ _ _ induction => exact induction
  | pow _ _ _ induction => exact induction
  | ctrl _ _ distinct induction =>
      rcases induction with ⟨gate, member, named, count, enough, -⟩
      refine ⟨gate, member, named, count, ?_, distinct⟩
      rw [List.length_append]
      omega

theorem ControlCount.pos {count : Option (Expression ℝ)} {number : ℕ}
    (counts : ControlCount count number) : 0 < number := by
  cases count with
  | none => exact counts.symm ▸ Nat.one_pos
  | some expression => exact counts.1

/-- A control leaves the gate fewer operands than the call has. -/
theorem Modified.gate_of_ctrl {name : String} {angles : List ℝ}
    {modifiers : List (GateModifier ℝ)} {ctrlType : Bool}
    {count : Option (Expression ℝ)} {wires : List Q}
    {operator : Operator Q}
    (modified :
      Modified name angles (.ctrl ctrlType count :: modifiers) wires
        operator) :
    ∃ gate ∈ (standardGates : List (StandardGate Q)), gate.name = name ∧
      gate.numControls + gate.numTargets < wires.length := by
  cases modified with
  | ctrl number inner distinct =>
      rcases inner.gate with ⟨gate, member, named, -, enough, -⟩
      refine ⟨gate, member, named, ?_⟩
      have positive := number.pos
      rw [List.length_append]
      omega

/-- A control with a proper number is read without a fault. -/
theorem Modified.read_of_ctrl {name : String} {angles : List ℝ}
    {ctrlType : Bool} {count : Option (Expression ℝ)} {wires : List Q}
    {operator : Operator Q}
    (modified :
      Modified name angles [.ctrl ctrlType count] wires operator) :
    readModifiers [.ctrl ctrlType count] = .ok () := by
  cases modified with
  | ctrl number inner distinct =>
      rcases count with _ | expression
      · rfl
      · cases expression with
        | constant value =>
            cases value with
            | integer value => rfl
            | floating value => cases number.2
        | _ => rfl

section ModifiedCalls

variable {interp : Interpretation ℝ Q}
variable {vectors : QASMVectorToQuakeVector} {call : GateCall ℝ}

/-- The gate of a call that has a meaning, on its first operands. -/
theorem CallMeans.unmodified {operator : Operator Q}
    (means : CallMeans interp vectors call operator) :
    ∃ unmodified, UnmodifiedMeans interp vectors call unmodified := by
  rcases means with ⟨angles, values, evaluated, operands, modified⟩
  rcases modified.gate with
    ⟨gate, member, named, angleCount, enough, distinct⟩
  rcases exists_ofFn angleCount with ⟨gateAngles, rfl⟩
  rw [List.length_map] at enough
  have early :
      ((values.map interp.qubit).take gate.numControls).length =
        gate.numControls := by
    rw [List.length_take, List.length_map]
    omega
  have late :
      (((values.map interp.qubit).drop gate.numControls).take
        gate.numTargets).length = gate.numTargets := by
    rw [List.length_take, List.length_drop, List.length_map]
    omega
  rcases exists_ofFn early with ⟨controls, controlsEq⟩
  rcases exists_ofFn late with ⟨targets, targetsEq⟩
  refine ⟨_, List.ofFn gateAngles, values,
    gate.numControls + gate.numTargets, evaluated, operands, gate, member,
    named, gateAngles, controls, targets, rfl, ?_, ?_, rfl⟩
  · rw [List.map_take, List.take_add, controlsEq, targetsEq]
  · rw [List.map_take]
    exact distinct.sublist (List.take_sublist _ _)

/-- Only entries that do not check accept a call with a control. -/
theorem expressibleControl_accepted_iff
    (expressible : ExpressibleControl interp vectors call) :
    (insertGate call vectors).outcome = .ok () ↔
      call.identifier = "id" ∨ call.identifier = "rccx" := by
  rcases expressible with ⟨count, operator, single, means, -⟩
  rcases means with ⟨angles, values, evaluated, operands, modified⟩
  have found := operands.imp fun _ _ => OperandDenotes.operandValue
  rw [single] at modified
  rcases modified.gate_of_ctrl with ⟨gate, member, named, fewer⟩
  rw [List.length_map, ← found.length_eq] at fewer
  rw [insertGate_accepts_iff (Q := Q)]
  constructor
  · intro fits
    cases fits.entry with
    | id isId => exact .inl isId
    | rccx isRccx _ => exact .inr isRccx
    | checked other otherMember otherNamed _ operandCount =>
        have same :=
          standardGate_unique otherMember member
            (otherNamed.trans named.symm)
        subst same
        omega
  · intro unchecked
    have read : ModifiersRead call := by
      right
      rw [single]
      exact modified.read_of_ctrl
    refine ⟨⟨angles, evaluated⟩, read, ⟨values, found⟩, ?_⟩
    rcases unchecked with isId | isRccx
    · exact .id isId
    · refine .rccx isRccx ?_
      have rccx : (rccxGate : StandardGate Q) ∈ standardGates := by
        simp [standardGates, decomposedGates]
      have same := standardGate_unique member rccx (named.trans isRccx)
      subst same
      exact fewer.le

/-- A call without modifiers that has a meaning is harmless. -/
theorem harmless_of_no_modifiers (bare : call.modifiers = [])
    {operator : Operator Q}
    (means : CallMeans interp vectors call operator) :
    Harmless interp vectors call := by
  have whole := means
  rcases means with ⟨angles, values, evaluated, operands, modified⟩
  rw [bare] at modified
  cases modified with
  | plain denotes =>
      refine ⟨operator, operator, whole, ?_, EqualUpToPhase.refl _⟩
      refine ⟨angles, values, values.length, evaluated, operands, ?_⟩
      rwa [List.take_length]

end ModifiedCalls

/-! ## A controlled gate that is rejected -/

/-- `qubit[2] q;` -/
def twoQubits : QASMVectorToQuakeVector :=
  [("q", .veqAlloca 0 2)]

/-- `ctrl(1) @ x q[0], q[1];` -/
def controlledCall : GateCall ℝ :=
  ⟨"x", [.ctrl true (some (.constant (.integer 1)))], [],
    [⟨"q", some (.constant (.integer 0))⟩,
      ⟨"q", some (.constant (.integer 1))⟩]⟩

end MQSSPasses.QASM.Modifiers

end
