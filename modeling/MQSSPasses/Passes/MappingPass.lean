import MQSSPasses.General.MeasuredOutcomes
import MQSSPasses.LinAlg.FinalState
import MQSSPasses.Passes.LoadedGates
import MQSSPasses.Passes.MappedCircuits
import MQSSPasses.QASM.QASMToQuake
import MQSSPasses.Quake.ClassicalBits

/-!
# The mapping pass as a whole

The pass counts the bits of a kernel, loads the kernel into a circuit, has
the mapping tool map the circuit, and puts the mapped circuit in the place
of the body.  The tool is a parameter: a function from the numbers of
qubits and bits and the circuit to the mapped circuit that is read back.

A mapping renames the qubits on the way, so the mapped kernel does not
have the operator of the kernel.  What it has to keep are the outcomes of
the measurements.  The file proves that they are kept, for a kernel which
measures its qubits at the end, whenever the tool is right about the
circuit, the mapped circuit fits into the register of the kernel and its
measurements come in the order of their bits.  No gate of the mapped circuit
may come after a measurement of its qubit.
-/

namespace MQSSPasses.Passes.MappingPass

open MQSSPasses.General.IntConversion
open MQSSPasses.General.TracedComputation
open MQSSPasses.General.OperationTree
open MQSSPasses.General.ControlledElement
open MQSSPasses.General.QubitOperators
open MQSSPasses.General.GateMatrices
open MQSSPasses.General.MeasuredOutcomes
open MQSSPasses.Quake.Syntax
open MQSSPasses.Quake.Operations
open MQSSPasses.Quake.Semantics
open MQSSPasses.Quake
open MQSSPasses.Quake.ClassicalBits
  (getNumberOfClassicalBits measuredBy Measured BitCount)
open MQSSPasses.LinAlg.QuakeToLinAlg (getNumberOfQubits
  getNumberOfQubits_eq)
open MQSSPasses.LinAlg.FinalState (groundState)
open MQSSPasses.QASM.QASMToQuake (regexSearch CUDAQ_PREFIX_FUNCTION)
open MQSSPasses.Passes.QuakeQMap
open MQSSPasses.Passes.QuakeQMapRebuild
open MQSSPasses.Passes.MappedCircuits (Kept)
open MQSSPasses.Passes.LoadedGates

variable {A : Type}

/-! ## The pass -/

/-- The mapping tool: the circuit that it makes of a circuit. -/
abbrev Mapper (A : Type) : Type :=
  QuantumComputation A → MappedCircuit A

/-- The blocks are cleared, and the first one takes the rebuilt body. -/
def rebuildBlocks (numQubits : ℕ) (qcMapped : MappedCircuit A) :
    List (Block A) → List (Block A)
  | [] => []
  | _ :: others => rebuild numQubits qcMapped :: others.map fun _ => []

section Pass

variable [DecidableEq A] [Neg A] [One A] (narrow : A → A)
variable (argumentSize : ℕ → ℕ) (mapper : Mapper A)

def runOnOperation (funcName : String) (circuit : Op A) :
    Except Fault (Op A) :=
  if regexSearch funcName CUDAQ_PREFIX_FUNCTION then do
    let qc ← quantumComputation narrow argumentSize circuit
    let numQubits := toSize (getNumberOfQubits circuit)
    return .mk circuit.label
      (rebuildBlocks numQubits (mapper qc) circuit.blocks)
  else return circuit

end Pass

/-! ## The kernels -/

/-- The operations at the end of a kernel that measures single qubits. -/
inductive ReadoutOperation (veq : QuantumValue) : Op A → Prop where
  | measure (index : ℤ) :
      ReadoutOperation veq
        (.leaf (.measure .mz [.extractRef veq (.constant index)]))
  | extractRef (result : QuantumValue) :
      ReadoutOperation veq (.leaf (.extractRef result))
  | constant (result : FloatValue A) :
      ReadoutOperation veq (.leaf (.constant result))
  | ret : ReadoutOperation veq (.leaf .ret)

/-- The end of a kernel measures the given qubits, each of them once. -/
structure ReadsOut {n : ℕ} (veq : QuantumValue) (back : Block A)
    (readout : List (Fin (n + 1))) : Prop where
  operations : ∀ operation ∈ back, ReadoutOperation veq operation
  measured :
    back.flatMap measuredBy =
      readout.map fun qubit => .extractRef veq (.constant qubit)
  once : readout.Nodup

/-! ## The meaning of a mapped circuit -/

noncomputable section Meaning

variable {n : ℕ} (angle : FloatValue A → ℝ)

/-- The matrix of a type of operations with the given parameters. -/
def typeMatrix : OpType → List ℝ → Option BitMatrix
  | .X, [] => some pauliX
  | .Y, [] => some pauliY
  | .Z, [] => some pauliZ
  | .H, [] => some hadamard
  | .S, [] => some (phaseShift (Real.pi / 2))
  | .T, [] => some (phaseShift (Real.pi / 4))
  | .RX, [theta] => some (rotationX theta)
  | .RY, [theta] => some (rotationY theta)
  | .RZ, [theta] => some (rotationZ theta)
  | _, _ => none

/-- What an operation does to its targets; measurements are left aside. -/
def targetsOperator {Q : Type} [DecidableEq Q] (type : OpType)
    (parameter : List ℝ) (targets : List Q) : Operator Q :=
  match typeMatrix type parameter, targets with
  | some matrix, [target] => on target matrix
  | _, _ =>
      match type, targets with
      | .SWAP, [first, second] => swap first second
      | _, _ => 1

/-- The qubit of the register with an index of the circuit. -/
def registerQubit (n index : ℕ) : Fin (n + 1) :=
  @Fin.ofNat (n + 1) Nat.instNeZeroSucc index

/-- The operator of an operation, under controls of either polarity. -/
def mappedOperator (op : MappedOperation A) : Operator (Fin (n + 1)) :=
  controlled
    (allOf (op.controls.map fun control =>
      (registerQubit n control.qubit, control.positive)))
    (targetsOperator op.type
      (op.parameter.map fun value => angle (.constant value))
      (op.targets.map (registerQubit n)))

/-- The operator of a mapped circuit: later operations stand on the left. -/
def denoteMapped : MappedCircuit A → Operator (Fin (n + 1))
  | [] => 1
  | op :: rest => denoteMapped rest * mappedOperator angle op

/-- No operation comes after a measurement of one of its qubits. -/
def MeasuredLast (qcMapped : MappedCircuit A) : Prop :=
  qcMapped.Pairwise fun earlier later =>
    earlier.type = .Measure → later.type ≠ .Measure →
      later.type ≠ .Barrier →
        ∀ target ∈ earlier.targets,
          target ∉ MappedCircuits.namedQubits later

/--
The tool is right about a circuit: up to a phase the mapped circuit ends in
the state of the circuit with its qubits renamed, and it measures what the
circuit measures into the same bits.  The measured qubits are left alone
afterwards, so that they have these states when they are measured.
-/
structure CorrectlyMapped (veq : QuantumValue) (qc : QuantumComputation A)
    (qcMapped : MappedCircuit A) (output : Equiv.Perm (Fin (n + 1))) :
    Prop where
  state :
    Relabelled output
      (denoteCircuit (Interpretation.ofRegister n angle) veq qc.operations
        groundState)
      (denoteMapped angle qcMapped groundState)
  records :
    ∀ (qubit : Fin (n + 1)) (bit : ℕ),
      .measure qubit bit ∈ qc.operations ↔
        Records qcMapped (output qubit) bit
  oneToOne : OneToOne qcMapped
  measuredLast : MeasuredLast qcMapped

variable (n)

/-- The steps of an operation: its operator, or what it measures. -/
def stepsOf (op : Op A) : List (Step (Fin (n + 1))) :=
  match mzTargets op with
  | some targets =>
      targets.map fun target =>
        .measure ((Interpretation.ofRegister n angle).qubit target)
  | none => [.apply (operator (Interpretation.ofRegister n angle) op)]

/-- The steps of a block, in the order of its operations. -/
def steps (block : Block A) : List (Step (Fin (n + 1))) :=
  block.flatMap (stepsOf n angle)

variable {n}

/-- The probability that the measurements of a kernel yield an outcome. -/
def outcomes (n : ℕ) (angle : FloatValue A → ℝ) (block : Block A)
    (outcome : List Bool) : ℝ :=
  weight (observe (steps n angle block) outcome groundState)

/-- The qubits that a kernel measures, in the order of the measurements. -/
def measuredWires (block : Block A) : List (Fin (n + 1)) :=
  (block.filterMap mzTargets).flatten.map
    (Interpretation.ofRegister n angle).qubit

theorem product_measures (wires : List (Fin (n + 1))) :
    product (wires.map Step.measure) = 1 := by
  induction wires with
  | nil => rfl
  | cons wire rest induction => exact induction

theorem measuredIn_measures (wires : List (Fin (n + 1))) :
    measuredIn (wires.map Step.measure) = wires := by
  induction wires with
  | nil => rfl
  | cons wire rest induction => exact congrArg (List.cons wire) induction

theorem stepsOf_of_mzTargets {op : Op A} {targets : List QuantumValue}
    (measures : mzTargets op = some targets) :
    stepsOf n angle op =
      (targets.map (Interpretation.ofRegister n angle).qubit).map
        .measure := by
  rw [stepsOf, measures, List.map_map]
  rfl

/-- The steps of a block have its operator and its measurements. -/
theorem steps_spec (block : Block A) :
    product (steps n angle block) =
        denote (Interpretation.ofRegister n angle) block ∧
      measuredIn (steps n angle block) = measuredWires angle block := by
  induction block with
  | nil => exact ⟨rfl, rfl⟩
  | cons op rest induction =>
      have split :
          steps n angle (op :: rest) =
            stepsOf n angle op ++ steps n angle rest := List.flatMap_cons
      rw [split, product_append, measuredIn_append, induction.1,
        induction.2, denote_cons, measuredWires, measuredWires]
      cases measures : mzTargets op with
      | none =>
          rw [stepsOf, measures, List.filterMap_cons_none measures]
          exact ⟨congrArg (_ * ·) (one_mul _), rfl⟩
      | some targets =>
          have noGate :
              operator (Interpretation.ofRegister n angle) op = 1 := by
            rw [operator]
            rw [mzTargets] at measures
            cases label : op.label with
            | gate gate =>
                rw [label] at measures
                cases measures
            | _ => rw [asOperator, label]
          rw [stepsOf_of_mzTargets angle measures, product_measures,
            measuredIn_measures, List.filterMap_cons_some measures, noGate,
            List.flatten_cons, List.map_append]
          exact ⟨rfl, rfl⟩

/-- If its measurements may be deferred, a kernel is measured at the end. -/
theorem outcomes_eq {block : Block A}
    (deferrable : (steps n angle block).Pairwise Deferrable)
    (outcome : List Bool) :
    outcomes n angle block outcome =
      outcomeWeight
        (denote (Interpretation.ofRegister n angle) block groundState)
        (measuredWires angle block) outcome := by
  rw [outcomes, weight_observe deferrable, (steps_spec angle block).1,
    (steps_spec angle block).2]

end Meaning

/-! ## What the loaders make of a kernel -/

section Loading

variable [DecidableEq A] [Neg A] [One A] {narrow : A → A}
variable {n : ℕ} {veq : QuantumValue} (measurements : List (ℤ × ℤ))

omit [DecidableEq A] [Neg A] [One A] in
/-- A supported gate is taken up by its loader. -/
theorem handled_of_supportedGate {gate : Gate A}
    (supported : SupportedGate veq gate) : Handled gate := by
  cases supported with
  | rotation kind isRotation isAdj parameter index negated =>
      simp only [List.mem_cons, List.not_mem_nil, or_false] at isRotation
      rcases isRotation with rfl | rfl | rfl <;> exact trivial
  | single kind isSingle isAdj index negated =>
      simp only [List.mem_cons, List.not_mem_nil, or_false] at isSingle
      rcases isSingle with rfl | rfl | rfl | rfl | rfl | rfl
      · exact .inl rfl
      · exact .inl rfl
      · exact .inl rfl
      · exact rfl
      · exact rfl
      · exact rfl
  | controlled kind isPauli isAdj control target negated =>
      simp only [List.mem_cons, List.not_mem_nil, or_false] at isPauli
      rcases isPauli with rfl | rfl | rfl <;> exact .inr rfl

/-- Loading a supported operation appends no measurement. -/
theorem loadOperation_kindOf {operation : Op A}
    (supported : SupportedOperation veq operation)
    (loaded :
      (loadOperation narrow measurements operation).outcome = .ok ()) :
    ∀ appended ∈ (loadOperation narrow measurements operation).trace,
      kindOf appended ≠ none := by
  cases supported with
  | gate gate supported =>
      have itself : asOperator gate.op = some gate := rfl
      rw [loadOperation_of_gate narrow measurements itself] at loaded ⊢
      rcases (loadGate_accounted_iff narrow gate).mpr
          (handled_of_supportedGate supported) with
        ⟨fault, stops⟩ | ⟨_, _, -, -, appended, record, kind, -⟩
      · rw [loaded] at stops
        cases stops
      · intro other member
        rw [record] at member
        rw [List.mem_singleton.mp member, kind]
        exact Option.some_ne_none _
  | _ => exact fun _ member => absurd member List.not_mem_nil

theorem loadOperations_kindOf {operations : Block A}
    (supported :
      ∀ operation ∈ operations, SupportedOperation veq operation)
    (loaded :
      (loadOperations narrow measurements operations).outcome = .ok ()) :
    ∀ appended ∈ (loadOperations narrow measurements operations).trace,
      kindOf appended ≠ none := by
  induction operations with
  | nil => exact fun _ member => absurd member List.not_mem_nil
  | cons operation rest induction =>
      rw [loadOperations] at loaded ⊢
      rw [Traced.bind_ok_iff] at loaded
      rcases loaded with ⟨⟨⟩, first, others, -⟩
      rw [Traced.bind_of_ok first]
      intro appended member
      rcases List.mem_append.mp member with here | later
      · exact loadOperation_kindOf measurements
          (supported operation List.mem_cons_self) first appended here
      · exact induction (fun other member =>
          supported other (List.mem_cons_of_mem operation member))
          others appended later

end Loading

/-! ## The measurements at the end -/

section Readout

variable {n : ℕ} {veq : QuantumValue} {back : Block A}
variable {readout : List (Fin (n + 1))}

/-- The operands at the end of a kernel, one measurement after the other. -/
theorem ReadsOut.cases {operation : Op A}
    (readsOut : ReadsOut veq (operation :: back) readout) :
    (measuredBy operation = [] ∧ ReadsOut veq back readout ∧
        operation.blocks = [] ∧ asOperator operation = none ∧
        mzTargets operation = none) ∨
      ∃ (qubit : Fin (n + 1)) (rest : List (Fin (n + 1))),
        operation =
            .leaf (.measure .mz [.extractRef veq (.constant qubit)]) ∧
          readout = qubit :: rest ∧ ReadsOut veq back rest := by
  rcases readsOut with ⟨operations, measured, once⟩
  have others : ∀ other ∈ back, ReadoutOperation veq other :=
    fun other member => operations other (List.mem_cons_of_mem _ member)
  rw [List.flatMap_cons] at measured
  cases operations operation List.mem_cons_self with
  | measure index =>
      cases readout with
      | nil => cases measured
      | cons qubit rest =>
          rcases List.cons.inj measured with ⟨same, later⟩
          cases same
          exact .inr ⟨qubit, rest, rfl, rfl, others, later, once.of_cons⟩
  | extractRef result => exact .inl ⟨rfl, ⟨others, measured, once⟩,
      rfl, rfl, rfl⟩
  | constant result => exact .inl ⟨rfl, ⟨others, measured, once⟩,
      rfl, rfl, rfl⟩
  | ret => exact .inl ⟨rfl, ⟨others, measured, once⟩, rfl, rfl, rfl⟩

theorem ReadsOut.flat (readsOut : ReadsOut veq back readout) :
    ∀ operation ∈ back, operation.blocks = [] := by
  intro operation member
  cases readsOut.operations operation member <;> rfl

theorem ReadsOut.noGates (readsOut : ReadsOut veq back readout) :
    ∀ operation ∈ back, asOperator operation = none := by
  intro operation member
  cases readsOut.operations operation member <;> rfl

/-- The targets of the measurements at the end. -/
theorem ReadsOut.filterMap_mzTargets
    (readsOut : ReadsOut veq back readout) :
    back.filterMap mzTargets =
      readout.map fun qubit => [.extractRef veq (.constant qubit)] := by
  induction back generalizing readout with
  | nil =>
      have none := readsOut.measured
      rw [List.flatMap_nil, eq_comm, List.map_eq_nil_iff] at none
      rw [none]
      rfl
  | cons operation back induction =>
      rcases readsOut.cases with
        ⟨-, later, -, -, none⟩ | ⟨qubit, rest, rfl, rfl, later⟩
      · rw [List.filterMap_cons_none none, induction later]
      · exact congrArg
          (List.cons [.extractRef veq (.constant qubit)]) (induction later)

/-- Each measurement is appended with the bit of its qubit. -/
theorem ReadsOut.loadOperations_eq [DecidableEq A] [Neg A] [One A]
    {narrow : A → A} {measurements : List (ℤ × ℤ)}
    (few : n < 2147483647) (readsOut : ReadsOut veq back readout)
    (bit : Fin (n + 1) → ℤ)
    (found :
      ∀ qubit ∈ readout,
        measurements.lookup (qubit : ℤ) = some (bit qubit)) :
    loadOperations narrow measurements back =
      ⟨readout.map fun (qubit : Fin (n + 1)) =>
        .measure (qubit : ℤ) (bit qubit), .ok ()⟩ := by
  induction back generalizing readout with
  | nil =>
      have none := readsOut.measured
      rw [List.flatMap_nil, eq_comm, List.map_eq_nil_iff] at none
      rw [none]
      rfl
  | cons operation back induction =>
      rw [loadOperations]
      rcases readsOut.cases with
        ⟨nothing, later, -, noGate, -⟩ | ⟨qubit, rest, rfl, rfl, later⟩
      · have passed :
            loadOperation narrow measurements operation =
              (pure () : Load A Unit) := by
          cases readsOut.operations operation List.mem_cons_self with
          | measure index => cases nothing
          | _ => rfl
        rw [passed, Traced.pure_bind_eq, induction later found]
      · have valid : (qubit : ℤ) ≠ -1 := by omega
        have fits : toInt (qubit : ℤ) = qubit :=
          toInt_of_fits (by omega) (by omega)
        have appended :
            loadOperation narrow measurements
                (.leaf (.measure .mz
                  [.extractRef veq (.constant qubit)])) =
              (Traced.record (.measure qubit (bit qubit)) :
                Load A Unit) := by
          have place := found qubit List.mem_cons_self
          rw [loadOperation]
          change (pure () >>= fun _ => pure () >>= fun _ => pure () >>=
            fun _ => loadMeasurementsToQC measurements _) = _
          rw [Traced.pure_bind_eq, Traced.pure_bind_eq,
            Traced.pure_bind_eq, loadMeasurementsToQC]
          simp only [Node.label_leaf, isVeq, qubitIndex_constant, fits,
            Bool.false_eq_true, if_false]
          rw [Traced.ofExcept_ok_bind, assertThat_bind, if_pos valid,
            place]
        rw [appended, induction later fun other member =>
          found other (List.mem_cons_of_mem qubit member)]
        rfl

/-- The bit of a qubit is its place among the measured qubits. -/
theorem lookup_run_readout (once : readout.Nodup) {place : ℕ}
    {qubit : Fin (n + 1)} (reached : readout[place]? = some qubit) :
    (ClassicalBits.run
        (readout.map fun (other : Fin (n + 1)) =>
          .reference (other : ℤ))).measurements.lookup (qubit : ℤ) =
      some (place : ℤ) := by
  rcases List.getElem?_eq_some_iff.mp reached with ⟨inside, rfl⟩
  have split :
      readout = readout.take place ++ readout[place] ::
        readout.drop (place + 1) := by
    rw [← List.drop_eq_getElem_cons inside, List.take_append_drop]
  have after : readout[place] ∉ readout.drop (place + 1) := by
    rw [split] at once
    exact (List.nodup_cons.mp (List.nodup_append.mp once).2.1).1
  have counted :
      ClassicalBits.bits ((readout.take place).map
        fun (other : Fin (n + 1)) => Measured.reference (other : ℤ)) =
          place := by
    simp [ClassicalBits.bits, List.map_map, Function.comp_def,
      Measured.bits, inside.le]
  rw [congrArg (List.map fun (other : Fin (n + 1)) =>
      Measured.reference (other : ℤ)) split,
    List.map_append, List.map_cons, List.append_cons,
    ClassicalBits.lookup_run_append ?_ (.inl ?_),
    ClassicalBits.lookup_run_reference, if_pos rfl, counted]
  · intro member
    rcases List.mem_map.mp member with ⟨other, later, equal⟩
    have same : other = readout[place] := by
      simpa [Fin.ext_iff] using equal
    exact after (same ▸ later)
  · intro size member
    rcases List.mem_map.mp member with ⟨other, -, ⟨⟩⟩

end Readout

/-! ## The circuit of a kernel -/

section Reading

variable {n : ℕ} {veq : QuantumValue} {front back : Block A}
variable {readout : List (Fin (n + 1))}

theorem flat_of_supported
    (supported :
      ∀ operation ∈ front, SupportedOperation veq operation) :
    ∀ operation ∈ front, operation.blocks = [] := by
  intro operation member
  cases supported operation member <;> rfl

theorem postOrder_kernelOf
    (supported :
      ∀ operation ∈ front, SupportedOperation veq operation)
    (readsOut : ReadsOut veq back readout) :
    postOrder (kernelOf (front ++ back)) =
      front ++ back ++ [kernelOf (front ++ back)] :=
  postOrder_of_one_block _ (List.forall_mem_append.mpr
    ⟨flat_of_supported supported, readsOut.flat⟩)

/-- Only the end of the kernel measures. -/
theorem measuredOperands_eq
    (supported :
      ∀ operation ∈ front, SupportedOperation veq operation)
    (readsOut : ReadsOut veq back readout) :
    ClassicalBits.measuredOperands (kernelOf (front ++ back)) =
      readout.map fun qubit => .extractRef veq (.constant qubit) := by
  have none : front.flatMap measuredBy = [] := by
    rw [List.flatMap_eq_nil_iff]
    intro operation member
    cases supported operation member <;> rfl
  rw [ClassicalBits.measuredOperands, postOrder_kernelOf supported readsOut,
    List.flatMap_append, List.flatMap_append, none, readsOut.measured]
  exact List.append_nil _

/-- Every measured qubit takes one bit. -/
theorem getNumberOfClassicalBits_eq_readout (argumentSize : ℕ → ℕ)
    (few : n < 2147483647)
    (supported :
      ∀ operation ∈ front, SupportedOperation veq operation)
    (readsOut : ReadsOut veq back readout) :
    getNumberOfClassicalBits argumentSize (kernelOf (front ++ back)) =
      .ok (ClassicalBits.run
        (readout.map fun (other : Fin (n + 1)) =>
          .reference (other : ℤ))) := by
  have operands := measuredOperands_eq supported readsOut
  have fits (qubit : Fin (n + 1)) : toInt (qubit : ℤ) = qubit :=
    toInt_of_fits (by omega) (by omega)
  rw [ClassicalBits.getNumberOfClassicalBits_of_countable argumentSize,
    ClassicalBits.events, operands, List.map_map]
  · refine congrArg (Except.ok <| ClassicalBits.run ·) ?_
    refine List.map_congr_left fun qubit _ => ?_
    exact congrArg Measured.reference (fits qubit)
  · rw [operands]
    intro operand member
    rcases List.mem_map.mp member with ⟨qubit, -, rfl⟩
    have valid : toInt (qubit : ℤ) ≠ -1 := by
      rw [fits]
      omega
    exact valid

/-- Measurements leave the operator of a circuit alone. -/
theorem denoteCircuit_of_measurements
    {interp : Interpretation A (Fin (n + 1))} (readout : List (Fin (n + 1)))
    (bit : Fin (n + 1) → ℤ) :
    denoteCircuit interp veq
        (readout.map fun (qubit : Fin (n + 1)) =>
          .measure (qubit : ℤ) (bit qubit)) = 1 := by
  induction readout with
  | nil => rfl
  | cons qubit rest induction =>
      rw [List.map_cons, denoteCircuit, induction]
      exact one_mul _

variable [DecidableEq A] [Neg A] [One A] {narrow : A → A}

/-- The gates are loaded, and then the measurements are appended. -/
theorem loadKernel_eq_front {measurements : List (ℤ × ℤ)}
    (supported :
      ∀ operation ∈ front, SupportedOperation veq operation)
    (few : n < 2147483647) (readsOut : ReadsOut veq back readout)
    (bit : Fin (n + 1) → ℤ)
    (found :
      ∀ qubit ∈ readout,
        measurements.lookup (qubit : ℤ) = some (bit qubit)) :
    loadKernel narrow measurements (kernelOf (front ++ back)) =
      loadOperations narrow measurements front >>= fun _ =>
        ⟨readout.map fun (qubit : Fin (n + 1)) =>
          .measure (qubit : ℤ) (bit qubit), .ok ()⟩ := by
  rw [loadKernel, postOrder_kernelOf supported readsOut,
    loadOperations_append, loadOperations_append,
    readsOut.loadOperations_eq few bit found]
  exact Traced.bind_pure_eq _

variable (narrow) in
/--
The circuit can be read exactly if the loaders can read every gate; it has
the gates as they are read, and measures every qubit into the bit of its
place.
-/
theorem quantumComputation_spec (argumentSize : ℕ → ℕ)
    (interp : Interpretation A (Fin (n + 1))) (few : n < 2147483647)
    (supported :
      ∀ operation ∈ front, SupportedOperation veq operation)
    (readsOut : ReadsOut veq back readout) :
    ((∃ qc, quantumComputation narrow argumentSize
            (kernelOf (front ++ back)) = .ok qc) ↔
        ∀ operation ∈ front, Readable veq narrow operation) ∧
      ∀ qc, quantumComputation narrow argumentSize
          (kernelOf (front ++ back)) = .ok qc →
        denoteCircuit interp veq qc.operations =
            denote interp (front.map (asLoaded narrow)) ∧
          ∀ (qubit : Fin (n + 1)) (bit : ℕ),
            .measure qubit bit ∈ qc.operations ↔
              readout[bit]? = some qubit := by
  have counted :=
    getNumberOfClassicalBits_eq_readout argumentSize few supported readsOut
  have found (qubit : Fin (n + 1)) (member : qubit ∈ readout) :=
    lookup_run_readout readsOut.once (List.getElem?_idxOf member)
  generalize ClassicalBits.run (readout.map fun (other : Fin (n + 1)) =>
    Measured.reference (other : ℤ)) = count at counted found
  have kernel :
      loadKernel narrow count.measurements (kernelOf (front ++ back)) = _ :=
    loadKernel_eq_front supported few readsOut
      (fun qubit => (readout.idxOf qubit : ℤ)) found
  have gates :
      Loads interp veq (loadOperations narrow count.measurements front)
        (∀ operation ∈ front, Readable veq narrow operation)
        (denote interp (front.map (asLoaded narrow))) :=
    loadOperations_loads count.measurements fun operation member =>
      loadOperation_loads count.measurements (supported operation member)
  simp only [quantumComputation_eq_ok_iff counted]
  constructor
  · rw [← gates.1, kernel]
    constructor
    · rintro ⟨_, loaded, -⟩
      rcases Traced.bind_ok_iff.mp loaded with ⟨_, first, -, -⟩
      exact first
    · intro first
      exact ⟨_, by rw [Traced.bind_of_ok first], rfl⟩
  · rintro _ ⟨loaded, rfl⟩
    rw [kernel] at loaded ⊢
    rcases Traced.bind_ok_iff.mp loaded with ⟨_, first, -, -⟩
    rw [Traced.bind_of_ok first]
    refine ⟨?_, fun qubit bit => ?_⟩
    · rw [denoteCircuit_append, gates.2 (gates.1.mp first)]
      exact (congrArg (· * _) (denoteCircuit_of_measurements _ _)).trans
        (one_mul _)
    · rw [List.mem_append, List.mem_map]
      constructor
      · rintro (gate | ⟨other, member, equal⟩)
        · exact absurd rfl
            (loadOperations_kindOf count.measurements supported first _ gate)
        · injection equal with sameQubit sameBit
          have same : other = qubit := by
            rw [Fin.ext_iff]
            exact_mod_cast sameQubit
          rw [← same, ← Int.ofNat_inj.mp sameBit]
          exact List.getElem?_idxOf member
      · intro reached
        rcases List.getElem?_eq_some_iff.mp reached with ⟨inside, rfl⟩
        refine .inr ⟨_, List.getElem_mem inside, ?_⟩
        rw [readsOut.once.idxOf_getElem bit inside]

end Reading

/-! ## The rebuilt kernel -/

section Rebuilding

variable {n : ℕ} {angle : FloatValue A → ℝ}

/-- The references and constants of an operation denote the identity. -/
theorem denote_annotate_eq {op : MappedOperation A}
    (noBarrier : op.type ≠ .Barrier) :
    denote (Interpretation.ofRegister n angle) (annotate (n + 1) op) =
      denote (Interpretation.ofRegister n angle)
        (createOperation op.type (op.parameter.map .constant)
          (op.controls.map fun q => qubitRef (n + 1) q.qubit)
          (op.targets.map (qubitRef (n + 1)))) := by
  rw [annotate, if_neg noBarrier]
  dsimp only
  rw [denote_append]
  refine (congrArg (_ * ·) (denote_of_no_gates _ ?_)).trans (mul_one _)
  intro operation member
  simp only [List.mem_append, List.mem_map] at member
  rcases member with
    (⟨value, -, rfl⟩ | ⟨value, -, rfl⟩) | ⟨value, -, rfl⟩ <;> rfl

/-- The gate of a type has the matrix of the type. -/
theorem standardMatrix_eq_typeMatrix {type : OpType} {kind : GateKind}
    (known : type.gateKind = some kind) (angles : List ℝ) :
    standardMatrix kind angles = typeMatrix type angles := by
  cases type <;> cases known <;>
    rcases angles with - | ⟨first, - | ⟨second, - | ⟨third, rest⟩⟩⟩ <;> rfl

/-- The targets of a created gate are acted on as those of its type. -/
theorem targetOperator_create {type : OpType} {kind : GateKind}
    (known : type.gateKind = some kind) (parameter : List A)
    (controls : List QCControl) (targets : List ℕ) :
    targetOperator (Interpretation.ofRegister n angle)
        (Gate.create kind false (parameter.map .constant)
          (controls.map fun q => qubitRef (n + 1) q.qubit)
          (targets.map (qubitRef (n + 1)))) =
      targetsOperator type
        (parameter.map fun value => angle (.constant value))
        (targets.map (registerQubit n)) := by
  have wires :
      (targets.map (qubitRef (n + 1))).map
          (@Interpretation.ofRegister A n angle).qubit =
        targets.map (registerQubit n) := by
    rw [List.map_map]
    rfl
  have values :
      (parameter.map FloatValue.constant).map
          (@Interpretation.ofRegister A n angle).angle =
        parameter.map fun value => angle (.constant value) := by
    rw [List.map_map]
    rfl
  unfold targetOperator targetsOperator
  dsimp only [Gate.create]
  rw [wires, values, standardMatrix_eq_typeMatrix known]
  generalize typeMatrix type _ = matrix
  generalize targets.map (registerQubit n) = targets
  rcases matrix with - | matrix <;>
    rcases targets with - | ⟨first, - | ⟨second, - | ⟨third, rest⟩⟩⟩ <;>
    cases type <;> cases known <;> rfl

/-- The gate created for an operation has its operator. -/
theorem operator_create {op : MappedOperation A} {kind : GateKind}
    (known : op.type.gateKind = some kind) (keeps : Kept (n + 1) op) :
    operator (Interpretation.ofRegister n angle)
        (Gate.create kind false (op.parameter.map .constant)
          (op.controls.map fun q => qubitRef (n + 1) q.qubit)
          (op.targets.map (qubitRef (n + 1)))).op =
      mappedOperator angle op := by
  rw [operator_op, gateOperator, targetOperator_create known, mappedOperator]
  congr 2
  rw [controlValues]
  dsimp only [Gate.create]
  rw [List.map_map, List.map_inj_left]
  intro control member
  rw [keeps.positive control member]
  rfl

theorem createOperation_of_kind {type : OpType} {kind : GateKind}
    (known : type.gateKind = some kind) (parameters : List (FloatValue A))
    (controls targets : List QuantumValue) :
    createOperation type parameters controls targets =
      [(Gate.create kind false parameters controls targets).op] := by
  rw [createOperation]
  · simp only [known]
  · rintro rfl
    cases known

/-- What the pass creates for an operation has its operator. -/
theorem denote_annotate {op : MappedOperation A}
    (kept : op.type ≠ .Barrier → Kept (n + 1) op) :
    denote (Interpretation.ofRegister n angle) (annotate (n + 1) op) =
      mappedOperator angle op := by
  by_cases noBarrier : op.type = .Barrier
  · rw [annotate, if_pos noBarrier, denote_nil, mappedOperator, noBarrier]
    exact (controlled_one_right _).symm
  · rw [denote_annotate_eq noBarrier]
    have keeps := kept noBarrier
    cases known : op.type.gateKind with
    | none =>
        have measures : op.type = .Measure :=
          keeps.type.resolve_right fun some => some known
        rw [mappedOperator, measures]
        exact (one_mul _).trans (controlled_one_right _).symm
    | some kind =>
        rw [createOperation_of_kind known, denote_cons, denote_nil, one_mul,
          operator_create known keeps]

theorem denote_rebuild {qcMapped : MappedCircuit A}
    (kept :
      ∀ op ∈ qcMapped, op.type ≠ .Barrier → Kept (n + 1) op) :
    denote (Interpretation.ofRegister n angle) (rebuild (n + 1) qcMapped) =
      denoteMapped angle qcMapped := by
  have traversed :
      denote (Interpretation.ofRegister n angle)
          (qcMapped.flatMap (annotate (n + 1))) =
        denoteMapped angle qcMapped := by
    induction qcMapped with
    | nil => rfl
    | cons op rest induction =>
        rw [List.forall_mem_cons] at kept
        rw [List.flatMap_cons, denote_append, denoteMapped,
          denote_annotate kept.1, induction kept.2]
  have returned :
      denote (Interpretation.ofRegister n angle)
        [(Node.leaf .ret : Op A)] = 1 := one_mul _
  rw [rebuild, denote_append, returned, denote_cons, traversed]
  exact (one_mul _).trans (mul_one _)

/-! ### The order of the measurements -/

theorem targetsOperator_local {Q : Type} [DecidableEq Q] (type : OpType)
    (parameter : List ℝ) (targets : List Q) :
    targetsOperator type parameter targets ∈
      localAlgebra {wire | wire ∈ targets} := by
  unfold targetsOperator
  split
  · exact on_mem_localAlgebra (by simp) _
  · split
    next first second _ =>
        by_cases same : first = second
        · have nothing : swap first second = 1 := by
            refine LinearMap.ext fun state => funext fun bits => ?_
            rw [swap_apply, same, Equiv.swap_self]
            rfl
          rw [nothing]
          exact one_mem _
        · exact swap_mem_localAlgebra same (by simp) (by simp)
    next => exact one_mem _

/-- An operation only acts on the qubits that it names. -/
theorem mappedOperator_local (op : MappedOperation A) :
    mappedOperator (n := n) angle op ∈
      localAlgebra
        {wire | ∃ index ∈ MappedCircuits.namedQubits op,
          wire = registerQubit n index} := by
  apply controlled_mem_localAlgebra
  · apply allOf_mem_localAlgebra
    intro control member
    rcases List.mem_map.mp member with ⟨named, inside, rfl⟩
    exact ⟨named.qubit,
      List.mem_append_right _ (List.mem_map_of_mem inside), rfl⟩
  · refine localAlgebra_mono ?_ (targetsOperator_local _ _ _)
    intro wire member
    rcases List.mem_map.mp member with ⟨index, inside, rfl⟩
    exact ⟨index, List.mem_append_left _ inside, rfl⟩

/-- The steps of what the pass emits for an operation. -/
theorem mem_steps_annotate {op : MappedOperation A}
    (kept : op.type ≠ .Barrier → Kept (n + 1) op)
    {step : Step (Fin (n + 1))}
    (member : step ∈ steps n angle (annotate (n + 1) op)) :
    step = .apply 1 ∨
      (op.type = .Measure ∧
        ∃ target ∈ op.targets, step = .measure (registerQubit n target)) ∨
      op.type ≠ .Measure ∧ op.type ≠ .Barrier ∧
        step = .apply (mappedOperator angle op) := by
  rw [steps, annotate] at member
  by_cases barrier : op.type = .Barrier
  · rw [if_pos barrier] at member
    cases member
  · rw [if_neg barrier] at member
    dsimp only at member
    rcases List.mem_flatMap.mp member with ⟨emitted, inside, isStep⟩
    rcases List.mem_append.mp inside with value | operation
    · simp only [List.mem_append, List.mem_map] at value
      rcases value with
        (⟨value, -, rfl⟩ | ⟨value, -, rfl⟩) | ⟨value, -, rfl⟩ <;>
        exact .inl (List.mem_singleton.mp isStep)
    · cases known : op.type.gateKind with
      | none =>
          have measures : op.type = .Measure :=
            (kept barrier).type.resolve_right fun some => some known
          rw [measures] at operation
          cases List.mem_singleton.mp operation
          rcases List.mem_map.mp isStep with ⟨value, isValue, rfl⟩
          rcases List.mem_map.mp isValue with ⟨target, isTarget, rfl⟩
          exact .inr (.inl ⟨measures, target, isTarget, rfl⟩)
      | some kind =>
          have noMeasure : op.type ≠ .Measure := by
            intro measures
            rw [measures] at known
            cases known
          rw [createOperation_of_kind known] at operation
          cases List.mem_singleton.mp operation
          refine .inr (.inr ⟨noMeasure, barrier, ?_⟩)
          rw [← operator_create known (kept barrier)]
          exact List.mem_singleton.mp isStep

theorem registerQubit_inj {first second : ℕ} (firstInside : first < n + 1)
    (secondInside : second < n + 1)
    (same : registerQubit n first = registerQubit n second) :
    first = second := by
  have values := congrArg Fin.val same
  rw [registerQubit, registerQubit, Fin.val_ofNat, Fin.val_ofNat,
    Nat.mod_eq_of_lt firstInside, Nat.mod_eq_of_lt secondInside] at values
  exact values

theorem deferrable_one {Q : Type} [DecidableEq Q] (step : Step Q) :
    Deferrable step (.apply 1) := by
  cases step with
  | apply operator => trivial
  | measure wire => exact fun bit => Commute.one_right _

/-- A measurement may be deferred past operations on other qubits. -/
theorem deferrable_of_apart {earlier later : MappedOperation A}
    (keptEarlier : earlier.type ≠ .Barrier → Kept (n + 1) earlier)
    (keptLater : later.type ≠ .Barrier → Kept (n + 1) later)
    (apart :
      earlier.type = .Measure → later.type ≠ .Measure →
        later.type ≠ .Barrier →
          ∀ target ∈ earlier.targets,
            target ∉ MappedCircuits.namedQubits later)
    {first second : Step (Fin (n + 1))}
    (isFirst : first ∈ steps n angle (annotate (n + 1) earlier))
    (isSecond : second ∈ steps n angle (annotate (n + 1) later)) :
    Deferrable first second := by
  rcases mem_steps_annotate keptEarlier isFirst with
    rfl | ⟨measures, target, isTarget, rfl⟩ | ⟨-, -, rfl⟩
  · trivial
  · rcases mem_steps_annotate keptLater isSecond with
      rfl | ⟨-, other, -, rfl⟩ | ⟨noMeasure, noBarrier, rfl⟩
    · exact deferrable_one _
    · trivial
    · intro bit
      refine commute_of_disjoint ?_
        (on_mem_localAlgebra (Set.mem_singleton _) _)
        (mappedOperator_local later)
      rw [Set.disjoint_singleton_left]
      rintro ⟨index, named, same⟩
      have isRegister : earlier.type ≠ .Barrier := by
        rw [measures]
        exact nofun
      have equal := registerQubit_inj
        ((keptEarlier isRegister).inside target
          (List.mem_append_left _ isTarget))
        ((keptLater noBarrier).inside index named) same
      exact apart measures noMeasure noBarrier target isTarget
        (equal ▸ named)
  · trivial

/-- The measurements of the rebuilt kernel may be made at its end. -/
theorem deferrable_rebuild {qcMapped : MappedCircuit A}
    (kept : ∀ op ∈ qcMapped, op.type ≠ .Barrier → Kept (n + 1) op)
    (measuredLast : MeasuredLast qcMapped) :
    (steps n angle (rebuild (n + 1) qcMapped)).Pairwise Deferrable := by
  have traversed :
      (steps n angle (qcMapped.flatMap (annotate (n + 1)))).Pairwise
        Deferrable := by
    rw [steps, List.flatMap_assoc, List.pairwise_flatMap]
    refine ⟨fun op member => ?_, ?_⟩
    · refine List.pairwise_of_forall_mem_list
        fun first isFirst second isSecond => ?_
      refine deferrable_of_apart (kept op member) (kept op member) ?_
        isFirst isSecond
      exact fun measures noMeasure => absurd measures noMeasure
    · refine measuredLast.imp_of_mem fun isEarlier isLater apart first
        isFirst second isSecond => ?_
      exact deferrable_of_apart (kept _ isEarlier) (kept _ isLater) apart
        isFirst isSecond
  have around :
      steps n angle (rebuild (n + 1) qcMapped) =
        .apply 1 ::
          (steps n angle (qcMapped.flatMap (annotate (n + 1))) ++
            [.apply 1]) := by
    rw [steps, rebuild, List.cons_append, List.flatMap_cons,
      List.flatMap_append]
    rfl
  rw [around, List.pairwise_cons, List.pairwise_append]
  refine ⟨fun _ _ => trivial, traversed, List.pairwise_singleton _ _, ?_⟩
  intro first _ second isSecond
  rw [List.mem_singleton.mp isSecond]
  exact deferrable_one first

/-- The qubits of the mapped circuit that are measured, in their order. -/
theorem CorrectlyMapped.targets {veq : QuantumValue}
    {qc : QuantumComputation A} {qcMapped : MappedCircuit A}
    {output : Equiv.Perm (Fin (n + 1))} {readout : List (Fin (n + 1))}
    (correct : CorrectlyMapped angle veq qc qcMapped output)
    (measures :
      ∀ (qubit : Fin (n + 1)) (bit : ℕ),
        .measure qubit bit ∈ qc.operations ↔ readout[bit]? = some qubit)
    (fits : ∀ op ∈ qcMapped, op.type ≠ .Barrier → Kept (n + 1) op)
    (ordered : InBitOrder qcMapped) :
    (measurements qcMapped).map (·.targets) =
      readout.map fun qubit => [(output qubit : ℕ)] := by
  refine List.ext_getElem? fun place => ?_
  rw [List.getElem?_map, List.getElem?_map]
  cases reached : (measurements qcMapped)[place]? with
  | some op =>
      have member := List.mem_of_getElem? reached
      rcases List.mem_filter.mp member with ⟨inside, measure⟩
      rcases correct.oneToOne.single op member with
        ⟨index, bit, targets, -⟩
      have small : index < n + 1 := by
        refine (fits op inside ?_).inside index ?_
        · rw [of_decide_eq_true measure]
          exact nofun
        · rw [MappedCircuits.namedQubits, targets]
          exact List.mem_append_left _ List.mem_cons_self
      -- The qubit of the circuit that ended where this one is measured.
      have recorded :
          Records qcMapped (output (output.symm ⟨index, small⟩)) place := by
        rw [Equiv.apply_symm_apply]
        exact ⟨op, member, targets, ordered place op reached⟩
      rw [(measures _ place).mp ((correct.records _ place).mpr recorded),
        Option.map_some, Option.map_some, targets, Equiv.apply_symm_apply]
  | none =>
      cases original : readout[place]? with
      | none => rfl
      | some qubit =>
          rcases (correct.records qubit place).mp
              ((measures qubit place).mpr original) with
            ⟨op, member, -, classics⟩
          rcases List.getElem?_of_mem member with ⟨index, found⟩
          have same := ordered index op found
          rw [classics, List.singleton_inj] at same
          rw [same, found] at reached
          cases reached

/-- The rebuilt kernel measures the qubits where they ended. -/
theorem measuredWires_rebuild {qcMapped : MappedCircuit A}
    {output : Equiv.Perm (Fin (n + 1))} {readout : List (Fin (n + 1))}
    (targets :
      (measurements qcMapped).map (·.targets) =
        readout.map fun qubit => [(output qubit : ℕ)]) :
    measuredWires angle (rebuild (n + 1) qcMapped) =
      readout.map output := by
  have refs :
      (measurements qcMapped).map
          (fun op => op.targets.map (qubitRef (n + 1))) =
        readout.map fun qubit => [qubitRef (n + 1) (output qubit)] := by
    have mapped := congrArg
      (List.map (List.map (qubitRef (n + 1)))) targets
    rw [List.map_map, List.map_map] at mapped
    exact mapped
  rw [measuredWires, filterMap_rebuild, refs, ← List.flatMap_def,
    ← List.map_eq_flatMap, List.map_map]
  refine List.map_congr_left fun qubit _ => ?_
  exact Fin.ofNat_val_eq_self (output qubit)

end Rebuilding

/-! ## The outcomes -/

section Outcomes

variable {n : ℕ} {veq : QuantumValue} {front back : Block A}
variable {readout : List (Fin (n + 1))} {angle : FloatValue A → ℝ}
variable {narrow : A → A}

theorem asLoaded_of_no_gate {operation : Op A}
    (noGate : asOperator operation = none) :
    asLoaded narrow operation = operation := by
  rw [asLoaded, noGate]

theorem ReadsOut.map_asLoaded (readsOut : ReadsOut veq back readout) :
    back.map (asLoaded narrow) = back := by
  refine (List.map_congr_left fun operation member => ?_).trans
    (List.map_id back)
  exact asLoaded_of_no_gate (readsOut.noGates operation member)

theorem mzTargets_asLoaded {operation : Op A}
    (supported : SupportedOperation veq operation) :
    mzTargets (asLoaded narrow operation) = none := by
  cases supported <;> rfl

/-- The kernel as it is loaded has the measurements of the kernel. -/
theorem measuredWires_asLoaded
    (supported :
      ∀ operation ∈ front, SupportedOperation veq operation)
    (readsOut : ReadsOut veq back readout) :
    measuredWires angle ((front ++ back).map (asLoaded narrow)) =
      readout := by
  have gates : (front.map (asLoaded narrow)).filterMap mzTargets = [] := by
    rw [List.filterMap_map, List.filterMap_eq_nil_iff]
    intro operation member
    exact mzTargets_asLoaded (supported operation member)
  rw [measuredWires, List.map_append, List.filterMap_append, gates,
    readsOut.map_asLoaded, readsOut.filterMap_mzTargets, List.nil_append,
    ← List.flatMap_def, ← List.map_eq_flatMap, List.map_map]
  refine (List.map_congr_left fun qubit _ => ?_).trans (List.map_id readout)
  exact Fin.ofNat_val_eq_self qubit

/-- The kernel as it is loaded measures after its gates. -/
theorem deferrable_asLoaded
    (supported :
      ∀ operation ∈ front, SupportedOperation veq operation)
    (readsOut : ReadsOut veq back readout) :
    (steps n angle ((front ++ back).map (asLoaded narrow))).Pairwise
      Deferrable := by
  have gates :
      ∀ step ∈ steps n angle (front.map (asLoaded narrow)),
        ∃ operator, step = .apply operator := by
    intro step member
    rcases List.mem_flatMap.mp member with ⟨_, inside, isStep⟩
    rcases List.mem_map.mp inside with ⟨operation, isFront, rfl⟩
    rw [stepsOf, mzTargets_asLoaded (supported operation isFront)]
      at isStep
    exact ⟨_, List.mem_singleton.mp isStep⟩
  have ends :
      ∀ step ∈ steps n angle back,
        step = .apply 1 ∨ ∃ wire, step = .measure wire := by
    intro step member
    rcases List.mem_flatMap.mp member with ⟨operation, isBack, isStep⟩
    cases measures : mzTargets operation with
    | none =>
        rw [stepsOf, measures, operator,
          readsOut.noGates operation isBack] at isStep
        exact .inl (List.mem_singleton.mp isStep)
    | some targets =>
        rw [stepsOf_of_mzTargets angle measures] at isStep
        rcases List.mem_map.mp isStep with ⟨wire, -, rfl⟩
        exact .inr ⟨wire, rfl⟩
  rw [List.map_append, readsOut.map_asLoaded, steps, List.flatMap_append,
    List.pairwise_append]
  refine ⟨?_, ?_, ?_⟩
  · refine List.pairwise_of_forall_mem_list fun first isFirst _ _ => ?_
    rcases gates first isFirst with ⟨operator, rfl⟩
    trivial
  · refine List.pairwise_of_forall_mem_list
      fun first _ second isSecond => ?_
    rcases ends second isSecond with rfl | ⟨wire, rfl⟩
    · exact deferrable_one first
    · cases first <;> trivial
  · intro first isFirst _ _
    rcases gates first isFirst with ⟨operator, rfl⟩
    trivial

variable [DecidableEq A] [Neg A] [One A]
variable (angle narrow)

/--
The pass returns exactly if the loaders can read every gate.  The kernel it
returns has the outcomes of the kernel as it is loaded, with the same
probabilities, if the tool is right about the circuit, the mapped circuit
fits into the register and its measurements come in the order of the bits.
-/
theorem runOnOperation_preserves_outcomes (argumentSize : ℕ → ℕ)
    (mapper : Mapper A) {funcName : String}
    (kernelName : regexSearch funcName CUDAQ_PREFIX_FUNCTION = true)
    (size : getNumberOfQubits (kernelOf (front ++ back)) = n + 1)
    (supported :
      ∀ operation ∈ front, SupportedOperation veq operation)
    (readsOut : ReadsOut veq back readout)
    (correct :
      ∀ qc, quantumComputation narrow argumentSize
            (kernelOf (front ++ back)) = .ok qc →
        ∃ output : Equiv.Perm (Fin (n + 1)),
          CorrectlyMapped angle veq qc (mapper qc) output)
    (fits :
      ∀ qc, quantumComputation narrow argumentSize
            (kernelOf (front ++ back)) = .ok qc →
        ∀ op ∈ mapper qc, op.type ≠ .Barrier → Kept (n + 1) op)
    (ordered :
      ∀ qc, quantumComputation narrow argumentSize
            (kernelOf (front ++ back)) = .ok qc →
        InBitOrder (mapper qc)) :
    ((∃ result, runOnOperation narrow argumentSize mapper funcName
          (kernelOf (front ++ back)) = .ok result) ↔
        ∀ operation ∈ front, Readable veq narrow operation) ∧
      ∀ result, runOnOperation narrow argumentSize mapper funcName
          (kernelOf (front ++ back)) = .ok result →
        ∃ body, result = kernelOf body ∧
          ∀ outcome,
            outcomes n angle body outcome =
              outcomes n angle ((front ++ back).map (asLoaded narrow))
                outcome := by
  have few : n < 2147483647 := by
    have bounds := toInt_fits
      ((postOrder (kernelOf (front ++ back))).map
        LinAlg.QuakeToLinAlg.allocatedQubits).sum
    rw [← getNumberOfQubits_eq, size] at bounds
    omega
  have numQubits :
      toSize (getNumberOfQubits (kernelOf (front ++ back))) = n + 1 := by
    have small : toSize ((n + 1 : ℕ) : ℤ) = n + 1 :=
      toSize_of_fits (by omega)
    rw [size]
    exact_mod_cast small
  have reading :=
    quantumComputation_spec narrow argumentSize
      (Interpretation.ofRegister n angle) few supported readsOut
  have runs (result : Op A) :
      runOnOperation narrow argumentSize mapper funcName
          (kernelOf (front ++ back)) = .ok result ↔
        ∃ qc, quantumComputation narrow argumentSize
              (kernelOf (front ++ back)) = .ok qc ∧
          kernelOf (rebuild (n + 1) (mapper qc)) = result := by
    rw [runOnOperation, if_pos kernelName, numQubits]
    simp only [except_bind_eq_ok]
    refine exists_congr fun qc => and_congr_right fun _ => ?_
    exact ⟨Except.ok.inj, congrArg Except.ok⟩
  simp only [runs]
  constructor
  · rw [← reading.1]
    constructor
    · rintro ⟨_, qc, read, -⟩
      exact ⟨qc, read⟩
    · rintro ⟨qc, read⟩
      exact ⟨_, qc, read, rfl⟩
  · rintro _ ⟨qc, read, rfl⟩
    rcases correct qc read with ⟨output, mapped⟩
    rcases reading.2 qc read with ⟨gates, measures⟩
    refine ⟨_, rfl, fun outcome => ?_⟩
    have ends :
        denote (Interpretation.ofRegister n angle)
            (back.map (asLoaded narrow)) = 1 := by
      rw [readsOut.map_asLoaded]
      exact denote_of_no_gates _ readsOut.noGates
    rw [outcomes_eq angle
        (deferrable_rebuild (fits qc read) mapped.measuredLast),
      outcomes_eq angle (deferrable_asLoaded supported readsOut),
      denote_rebuild (fits qc read),
      measuredWires_rebuild
        (mapped.targets measures (fits qc read) (ordered qc read)),
      measuredWires_asLoaded supported readsOut, List.map_append,
      denote_append, ends, one_mul, ← gates]
    exact mapped.state.outcomeWeight_map readout outcome

end Outcomes

/-! ## A kernel whose qubits are exchanged -/

section Exchanged

/-- The reference to a qubit of a register of two. -/
def pairRef (index : ℤ) : QuantumValue :=
  .extractRef (.veqAlloca 0 2) (.constant index)

/-- The gates of a kernel that entangles two qubits. -/
def entangling : Block ℤ :=
  [.leaf (.alloca (.veqAlloca 0 2)),
    .leaf (.extractRef (pairRef 0)),
    (Gate.create .h false [] [] [pairRef 0]).op,
    .leaf (.extractRef (pairRef 1)),
    (Gate.create .x false [] [pairRef 0] [pairRef 1]).op]

/-- The measurements of both qubits. -/
def readingPair : Block ℤ :=
  [.leaf (.measure .mz [pairRef 0]), .leaf (.measure .mz [pairRef 1]),
    .leaf .ret]

theorem entangling_supported :
    ∀ operation ∈ entangling,
      SupportedOperation (.veqAlloca 0 2) operation := by
  simp only [entangling, List.forall_mem_cons, List.not_mem_nil,
    false_implies, implies_true, and_true]
  exact ⟨.alloca, .extractRef _,
    .gate _ (.single .h (by decide) false (.constant 0) none),
    .extractRef _,
    .gate _ (.controlled .x (by decide) false (.constant 0) (.constant 1)
      none)⟩

theorem readingPair_readsOut :
    ReadsOut (.veqAlloca 0 2) readingPair [(0 : Fin 2), 1] where
  operations := by
    simp only [readingPair, List.forall_mem_cons, List.not_mem_nil,
      false_implies, implies_true, and_true]
    exact ⟨.measure 0, .measure 1, .ret⟩
  measured := rfl
  once := by decide

/-- The circuit of the kernel. -/
def pairCircuit : QuantumComputation ℤ where
  nqubits := 2
  nclassics := 2
  operations := [.h 0, .cx 0 1, .measure 0 0, .measure 1 1]

/-- The circuit mapped so that the qubits are swapped in the end. -/
def exchanged : MappedCircuit ℤ :=
  [⟨.H, [0], [], [], []⟩, ⟨.X, [1], [⟨0, true⟩], [], []⟩,
    ⟨.SWAP, [0, 1], [], [], []⟩, ⟨.Measure, [1], [], [], [0]⟩,
    ⟨.Measure, [0], [], [], [1]⟩]

theorem quantumComputation_pair :
    quantumComputation id (fun _ => 0)
        (kernelOf (entangling ++ readingPair)) =
      .ok pairCircuit := rfl

theorem exchanged_state :
    (denoteMapped (fun _ => 0) exchanged : Operator (Fin 2)) =
      swap 0 1 * denoteCircuit (Interpretation.ofRegister 1 fun _ => 0)
        (.veqAlloca 0 2) pairCircuit.operations := by
  have gates :
      mappedOperator (fun _ => 0) (⟨.H, [0], [], [], []⟩ :
          MappedOperation ℤ) = on (0 : Fin 2) hadamard ∧
        mappedOperator (fun _ => 0) (⟨.X, [1], [⟨0, true⟩], [], []⟩ :
            MappedOperation ℤ) =
          QuakeQMap.controlledOn (0 : Fin 2) 1 pauliX ∧
        mappedOperator (fun _ => 0) (⟨.SWAP, [0, 1], [], [], []⟩ :
            MappedOperation ℤ) = swap (0 : Fin 2) 1 := by
    refine ⟨controlled_one_left _, ?_, controlled_one_left _⟩
    exact congrArg (controlled · (on (1 : Fin 2) pauliX)) (mul_one _)
  have measured (target : ℕ) (bit : ℕ) :
      (mappedOperator (fun _ => 0) (⟨.Measure, [target], [], [], [bit]⟩ :
        MappedOperation ℤ) : Operator (Fin 2)) = 1 :=
    controlled_one_right _
  simp only [exchanged, denoteMapped, gates.1, gates.2.1, gates.2.2,
    measured, one_mul]
  rfl

theorem exchanged_correctlyMapped :
    CorrectlyMapped (fun _ => 0) (.veqAlloca 0 2) pairCircuit exchanged
      (Equiv.swap (0 : Fin 2) 1) where
  state := by
    rw [exchanged_state]
    exact .swap 0 1 _
  records := by
    have measured :
        measurements exchanged =
          [⟨.Measure, [1], [], [], [0]⟩, ⟨.Measure, [0], [], [], [1]⟩] :=
      rfl
    refine Fin.forall_fin_two.mpr ⟨fun bit => ?_, fun bit => ?_⟩
    all_goals
      simp [pairCircuit, Records, measured, eq_comm]
  oneToOne := {
    single := by
      intro op member
      simp only [measurements, exchanged, List.mem_filter, List.mem_cons,
        List.not_mem_nil, or_false, decide_eq_true_eq] at member
      rcases member with ⟨rfl | rfl | rfl | rfl | rfl, measures⟩
      · cases measures
      · cases measures
      · cases measures
      · exact ⟨1, 0, rfl, rfl⟩
      · exact ⟨0, 1, rfl, rfl⟩
    qubits := by decide
    bits := by decide }
  measuredLast := by
    unfold MeasuredLast
    decide

theorem exchanged_fits :
    ∀ op ∈ exchanged, op.type ≠ .Barrier → Kept 2 op := by
  simp only [exchanged, List.forall_mem_cons, List.not_mem_nil,
    false_implies, implies_true, and_true]
  refine ⟨fun _ => ⟨.inr nofun, nofun, nofun, ?_⟩,
    fun _ => ⟨.inr nofun, nofun, ?_, ?_⟩,
    fun _ => ⟨.inr nofun, nofun, nofun, ?_⟩,
    fun _ => ⟨.inl rfl, fun _ => ⟨rfl, rfl⟩, nofun, ?_⟩,
    fun _ => ⟨.inl rfl, fun _ => ⟨rfl, rfl⟩, nofun, ?_⟩⟩
  all_goals simp [MappedCircuits.namedQubits]

theorem exchanged_inBitOrder : InBitOrder exchanged := by
  intro place op reached
  rcases place with - | - | place
  · cases reached
    rfl
  · cases reached
    rfl
  · cases reached

theorem exchanged_kernelName :
    regexSearch "__nvqpp__mlirgen__pair" CUDAQ_PREFIX_FUNCTION = true := by
  decide

/-- The exchanged qubits are read with the outcomes of the kernel. -/
theorem exchanged_preserves_outcomes :
    ∃ result,
      runOnOperation id (fun _ => 0) (fun _ => exchanged)
          "__nvqpp__mlirgen__pair" (kernelOf (entangling ++ readingPair)) =
        .ok result ∧
      ∃ body, result = kernelOf body ∧
        ∀ outcome,
          outcomes 1 (fun _ => 0) body outcome =
            outcomes 1 (fun _ => 0) (entangling ++ readingPair) outcome := by
  have mapped :=
    runOnOperation_preserves_outcomes (fun _ => 0) id (fun _ => 0)
      (fun _ => exchanged) exchanged_kernelName rfl
      entangling_supported readingPair_readsOut
      (fun qc read => by
        cases quantumComputation_pair.symm.trans read
        exact ⟨_, exchanged_correctlyMapped⟩)
      (fun _ _ => exchanged_fits) (fun _ _ => exchanged_inBitOrder)
  refine ⟨_, rfl, ?_⟩
  exact mapped.2 _ rfl

end Exchanged

end MQSSPasses.Passes.MappingPass
