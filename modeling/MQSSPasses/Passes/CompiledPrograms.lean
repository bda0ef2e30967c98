import MQSSPasses.Passes.PipelineMeaning
import MQSSPasses.Passes.TrailingOperations
import MQSSPasses.QASM.Programs

/-!
# Programs from the source to the optimised kernel

The conversion of a program with one register inserts gates on the qubits
of that register, so the passes are run on straight-line kernels.  What they
preserve is then the operator of the program: an accepted program without
modifiers, converted and put through any passes that need no condition, is
a kernel that implements the program and ends in the same measurements.
-/

noncomputable section

namespace MQSSPasses.Passes.CompiledPrograms

open MQSSPasses.General.IntConversion
open MQSSPasses.General.TracedComputation
open MQSSPasses.General.OperationTree
open MQSSPasses.General.QubitOperators
open MQSSPasses.General.GateMatrices
open MQSSPasses.Quake.Syntax
open MQSSPasses.Quake.Operations
open MQSSPasses.Quake.Semantics
open MQSSPasses.QASM.Syntax
open MQSSPasses.QASM.QASMToQuake
open MQSSPasses.QASM.GateMeaning
open MQSSPasses.QASM.LibraryGates
open MQSSPasses.QASM.Decompositions
open MQSSPasses.QASM.Modifiers
open MQSSPasses.QASM.InsertedGates
open MQSSPasses.QASM.Measurements
open MQSSPasses.QASM.Conversion
open MQSSPasses.QASM.Programs
open MQSSPasses.Passes.Rewriting
open MQSSPasses.Passes.Pipelines
open MQSSPasses.Passes.PipelineMeaning
open MQSSPasses.Passes.TrailingOperations

variable {n : ℕ} {name : String} {program : Program ℝ}

/-! ## Programs with one register -/

/-- The register of a program with one register of `n + 1` qubits. -/
def onlyRegister (name : String) (n : ℕ) : List (String × ℤ) :=
  [(name, ((n + 1 : ℕ) : ℤ))]

/-- The value of the only register. -/
def onlyVeq (n : ℕ) : QuantumValue :=
  .veqAlloca 0 (n + 1)

theorem allocated_onlyRegister (name : String) (n : ℕ) :
    allocated 0 (onlyRegister name n) = [(name, onlyVeq n)] := rfl

/-- Every index of an operand is smaller than the size of the register. -/
def InRange (size : ℕ) (program : Program ℝ) : Prop :=
  ∀ call, .gateCall call ∈ program → ∀ operand ∈ call.operands,
    ∀ index : ℤ, operand.expression = some (.constant (.integer index)) →
      index < size

theorem InRange.tail {size : ℕ} {statement : Statement ℝ}
    {rest : Program ℝ} (inRange : InRange size (statement :: rest)) :
    InRange size rest :=
  fun call member => inRange call (List.mem_cons_of_mem statement member)

/-- The operands of a call are qubits of the register. -/
theorem operand_eq {operand : GateOperand ℝ} {value : QuantumValue}
    (denotes :
      OperandDenotes (allocated 0 (onlyRegister name n)) operand value)
    (inRange :
      ∀ index, operand.expression = some (.constant (.integer index)) →
        index < (n + 1 : ℕ)) :
    value =
      .extractRef (onlyVeq n)
        (.constant ((exactRegister n).qubit value).val) := by
  rcases denotes with
    ⟨index, register, constant, nonnegative, -, found, rfl⟩
  have small := inRange index constant
  have only : register = onlyVeq n := by
    rcases List.lookup_eq_some_iff.mp found with ⟨early, late, split, -⟩
    have member :
        (operand.identifier, register) ∈
          allocated 0 (onlyRegister name n) := by
      rw [split]
      simp
    rw [allocated_onlyRegister, List.mem_singleton, Prod.mk.injEq] at member
    exact member.2
  have wire :
      (((exactRegister n).qubit
          (.extractRef (onlyVeq n) (.constant index))).val : ℤ) =
        index := by
    change ((index.toNat % (n + 1) : ℕ) : ℤ) = index
    rw [Nat.mod_eq_of_lt (by omega)]
    omega
  rw [only, wire]

theorem operands_eq {operands : List (GateOperand ℝ)}
    {values : List QuantumValue}
    (denotes :
      List.Forall₂
        (OperandDenotes (allocated 0 (onlyRegister name n))) operands
        values)
    (inRange :
      ∀ operand ∈ operands, ∀ index,
        operand.expression = some (.constant (.integer index)) →
          index < (n + 1 : ℕ)) :
    ∀ value ∈ values,
      value =
        .extractRef (onlyVeq n)
          (.constant ((exactRegister n).qubit value).val) := by
  induction denotes with
  | nil => simp
  | cons head _ induction =>
      rw [List.forall_mem_cons] at inRange ⊢
      exact ⟨operand_eq head inRange.1, induction inRange.2⟩

/-- A call of `rccx` that has a meaning has no arguments. -/
theorem arguments_of_rccx {angles : List ℝ} {wires : List (Fin (n + 1))}
    {operator : Operator (Fin (n + 1))} {gateName : String}
    (denotes : GateDenotes gateName angles wires operator)
    (isRccx : gateName = "rccx") : angles = [] := by
  rcases denotes.gate with ⟨gate, member, named, count, -, -⟩
  have rccx : (rccxGate : StandardGate (Fin (n + 1))) ∈ standardGates := by
    simp [standardGates, decomposedGates]
  have same := standardGate_unique member rccx (named.trans isRccx)
  subst same
  exact List.length_eq_zero_iff.mp count

/-- The operations of an accepted call are those of a straight-line block. -/
theorem insertGate_straightLine {call : GateCall ℝ}
    (accepted :
      (insertGate call (allocated 0 (onlyRegister name n))).outcome =
        .ok ())
    (bare : call.modifiers = [])
    (inRange :
      ∀ operand ∈ call.operands, ∀ index,
        operand.expression = some (.constant (.integer index)) →
          index < (n + 1 : ℕ))
    {operator : Operator (Fin (n + 1))}
    (means :
      CallMeans (exactRegister n) (allocated 0 (onlyRegister name n)) call
        operator) :
    StraightLine (exactRegister n) (onlyVeq n)
      (insertGate call (allocated 0 (onlyRegister name n))).trace := by
  rcases means with ⟨angles, values, evaluated, operands, modified⟩
  rw [bare] at modified
  cases modified with
  | plain denotes =>
      rcases denotes.gate with ⟨-, -, -, -, -, distinctWires⟩
      have distinct : values.Nodup :=
        List.Nodup.of_map _ distinctWires
      have fits := (insertGate_accepts_iff (Q := Fin (n + 1))).mp accepted
      have found := operands.imp fun _ _ => OperandDenotes.operandValue
      have read :
          Performs (exactRegister n) (insertControlsAndTargets call _)
            (values.take (leadingControls call.identifier),
              values.drop (leadingControls call.identifier)) 1 :=
        insertControlsAndTargets_performs fits.modifiers found
      have noArguments (isRccx : call.identifier = "rccx") :
          call.arguments = [] := by
        have empty := arguments_of_rccx denotes isRccx
        rw [empty, List.forall₂_nil_right_iff] at evaluated
        exact evaluated
      intro operation member
      have described :=
        insertGate_operations read.1 noArguments operation member
      rw [List.take_append_drop] at described
      cases described with
      | extractRef value => exact .extractRef value
      | inserted operation inserts =>
          cases inserts with
          | constant value => exact .constant value
          | gate gate actsOn =>
              refine .gate gate ⟨?_, actsOn.distinct distinct,
                actsOn.unnegated, actsOn.parameters⟩
              exact fun value named =>
                operands_eq operands inRange value (actsOn.qubits named)

/-- The gates of an accepted program form a straight-line block. -/
theorem gatesOf_straightLine {place : ℕ}
    (accepted :
      (insertGates (allocated 0 (onlyRegister name n)) place
        program).outcome = .ok ())
    (bare : WithoutModifiers program) (inRange : InRange (n + 1) program)
    {operator : Operator (Fin (n + 1))}
    (means :
      ProgramMeans (exactRegister n) (allocated 0 (onlyRegister name n))
        program operator) :
    StraightLine (exactRegister n) (onlyVeq n)
      (gatesOf (allocated 0 (onlyRegister name n)) place program) := by
  have each := insertGates_ok_iff.mp accepted
  clear accepted
  induction means generalizing place with
  | done => simp [gatesOf, insertGates, StraightLine]
  | gateCall means continues induction =>
      have first := each _ List.mem_cons_self
      rw [gatesOf_gateCall first, straightLine_append]
      exact ⟨insertGate_straightLine first (bare _ List.mem_cons_self)
          (inRange _ List.mem_cons_self) means,
        induction bare.tail inRange.tail fun other member =>
          each other (List.mem_cons_of_mem _ member)⟩
  | assignment _ _ induction =>
      exact induction bare.tail inRange.tail fun other member =>
        each other (List.mem_cons_of_mem _ member)
  | declaration _ _ induction =>
      exact induction bare.tail inRange.tail fun other member =>
        each other (List.mem_cons_of_mem _ member)
  | barrier _ induction =>
      exact induction bare.tail inRange.tail fun other member =>
        each other (List.mem_cons_of_mem _ member)
  | other _ induction =>
      exact induction bare.tail inRange.tail fun other member =>
        each other (List.mem_cons_of_mem _ member)

theorem preparation_straightLine
    (accepted :
      (insertGates (allocated 0 (onlyRegister name n)) 0
        program).outcome = .ok ())
    (bare : WithoutModifiers program) (inRange : InRange (n + 1) program)
    {operator : Operator (Fin (n + 1))}
    (means :
      ProgramMeans (exactRegister n) (allocated 0 (onlyRegister name n))
        program operator) :
    StraightLine (exactRegister n) (onlyVeq n)
      (preparation (onlyRegister name n) program) := by
  refine straightLine_append.mpr
    ⟨?_, gatesOf_straightLine accepted bare inRange means⟩
  intro operation member
  rcases List.mem_map.mp member with ⟨vector, -, rfl⟩
  exact .alloca vector.2

/-! ## From the source to the optimised kernel -/

/-- The size of a declared register fits into an `int`. -/
theorem toInt_onlyRegister
    (declared :
      declaredRegisters program = .ok (onlyRegister name n)) :
    toInt ((n + 1 : ℕ) : ℤ) = ((n + 1 : ℕ) : ℤ) :=
  toInt_declared declared (name, ((n + 1 : ℕ) : ℤ))
    (List.mem_singleton_self _)

/-- So an `int` can index it. -/
theorem indexed_onlyRegister
    (declared :
      declaredRegisters program = .ok (onlyRegister name n)) :
    n + 1 ≤ intRange := by
  have size := toInt_onlyRegister declared
  have fits := (toInt_fits ((n + 1 : ℕ) : ℤ)).2
  rw [size] at fits
  rw [intRange]
  omega

/-- A declared register of `n + 1` qubits has qubits. -/
theorem hasQubits_onlyRegister
    (declared :
      declaredRegisters program = .ok (onlyRegister name n)) :
    HasQubits (onlyRegister name n) := by
  have size := toInt_onlyRegister declared
  have total :
      totalQubits (onlyRegister name n) = toInt ((n + 1 : ℕ) : ℤ) := by
    rw [totalQubits, onlyRegister, List.map_singleton, List.sum_singleton]
  rw [HasQubits, total, size]
  omega

/-- Whether an edit disturbs a pair does not depend on what follows. -/
theorem undisturbing_extendEdit {A : Type} {interp : Interpretation A (Fin n)}
    (pass : KernelPass) {trailing : Block A} {edit : Edit A} :
    Undisturbing interp pass (extendEdit trailing edit) ↔
      Undisturbing interp pass edit := by
  cases pass with
  | decomposing decomposition => exact Iff.rfl
  | rewriting rewriting => cases rewriting <;> exact Iff.rfl

/-- What stands behind the gates of a kernel. -/
def ending (measureAllQubits : Bool) (registers : List (String × ℤ))
    (program : Program ℝ) : Block ℝ :=
  readout measureAllQubits registers program ++ [.leaf .ret]

/--
An accepted program without modifiers is converted and put through passes
that never break.  They return a kernel with the measurements of the
program at its end.  If no pass disturbs a pair, what stands before them
has the operator of the program up to a phase.

Each call of the table of gates is taken to read its own arguments, which
its entries do while the frames of their first call are the current ones.
-/
theorem compiled_implements {funcName : String} {measureAllQubits : Bool}
    {stale : StaleRead} {passes : List KernelPass}
    (kernelName : regexSearch funcName CUDAQ_PREFIX_FUNCTION = true)
    (declared : declaredRegisters program = .ok (onlyRegister name n))
    (accepted :
      (runOnOperation funcName measureAllQubits program).outcome =
        .ok ())
    (bare : WithoutModifiers program) (inRange : InRange (n + 1) program)
    {operator : Operator (Fin (n + 1))}
    (means :
      ProgramMeans (exactRegister n) (allocated 0 (onlyRegister name n))
        program operator)
    (complete : ∀ pass ∈ passes, NeverBreaks pass) :
    ∃ optimised : Block ℝ,
      (runPipeline stale passes
          (kernelOf
            (operationsOf
                (runOnOperation funcName measureAllQubits program).trace ++
              [.leaf .ret]))).outcome =
        .ok (kernelOf
          (optimised ++
            ending measureAllQubits (onlyRegister name n) program)) ∧
      StraightLine (exactRegister n) (onlyVeq n) optimised ∧
      ((∀ event ∈ (runPipeline stale passes
          (kernelOf
            (operationsOf
                (runOnOperation funcName measureAllQubits program).trace ++
              [.leaf .ret]))).trace,
          Undisturbing (exactRegister n) event.1 event.2) →
        EqualUpToPhase (denote (exactRegister n) optimised) operator) := by
  have qubits := hasQubits_onlyRegister declared
  rcases (run_ok_iff kernelName).mp accepted with ⟨others, same, parts⟩
  rw [declared, Except.ok.injEq] at same
  subst same
  rcases parts qubits with ⟨gates, readOut⟩
  have straight := preparation_straightLine gates bare inRange means
  have flat := fun operation member =>
    (straight operation member).flat
  have quiet :
      Quiet
        (ending measureAllQubits (onlyRegister name n) program) := by
    intro operation member
    rcases List.mem_append.mp member with reads | returns
    · have readout := insertReadout_operations readOut operation reads
      exact ⟨readout.noGate, readout.flat⟩
    · rw [List.mem_singleton.mp returns]
      exact ⟨rfl, rfl⟩
  rcases runPipeline_neverBreaks stale complete straight with
    ⟨optimised, returned, optimisedStraight⟩
  rcases runPipeline_append_returns flat quiet returned with
    ⟨wholeReturned, wholeTrace⟩
  rw [ending] at wholeReturned wholeTrace
  rw [run_operations kernelName declared qubits accepted,
    List.append_assoc, wholeReturned, wholeTrace]
  refine ⟨optimised, rfl, optimisedStraight, ?_⟩
  intro undisturbing
  rcases runPipeline_realises (indexed_onlyRegister declared)
      ⟨_, rfl, straight, .refl _⟩
      (fun event recorded =>
        (undisturbing_extendEdit event.1).mp
          (undisturbing _ (List.mem_map_of_mem recorded)))
      returned with ⟨_, same, -, preserved⟩
  cases same
  refine preserved.trans ?_
  rw [preparation, denote_append, denote_allocations, mul_one]
  exact gatesOf_implements (exactRegister_exact n) gates bare means

/-! ### The pair of entangled qubits -/

theorem bellPair_inRange : InRange 2 bellPair := by
  intro call member
  simp only [bellPair, declarePair, MeasureAssignment.statement,
    List.mem_cons, List.not_mem_nil, Statement.gateCall.injEq,
    reduceCtorEq, false_or, or_false] at member
  rcases member with rfl | rfl
  · simp [hOnFirst, pairOperand]
  · simp [cxOnPair, pairOperand]

/-- Decompose the controlled gate and move Pauli gates. -/
def decomposeThenMove : List KernelPass :=
  [.decomposing .CxToHCzH, .rewriting .SwitchPauliH]

theorem decomposeThenMove_neverBreaks :
    ∀ pass ∈ decomposeThenMove, NeverBreaks pass := by
  simp only [decomposeThenMove, List.forall_mem_cons, List.not_mem_nil,
    false_imp_iff, implies_true, and_true]
  exact ⟨.decomposing .CxToHCzH, .switchPauliH⟩

theorem bellPair_compiled :
    ∃ optimised : Block ℝ,
      (runPipeline .stops decomposeThenMove
          (kernelOf
            (operationsOf (runOnOperation someKernel false bellPair).trace ++
              [.leaf .ret]))).outcome =
        .ok (kernelOf
          (optimised ++ ending false (onlyRegister "q" 1) bellPair)) ∧
      StraightLine (exactRegister 1) (onlyVeq 1) optimised ∧
      ((∀ event ∈ (runPipeline .stops decomposeThenMove
          (kernelOf
            (operationsOf (runOnOperation someKernel false bellPair).trace ++
              [.leaf .ret]))).trace,
          Undisturbing (exactRegister 1) event.1 event.2) →
        EqualUpToPhase (denote (exactRegister 1) optimised)
          (1 * controlledX 0 1 * on 0 hadamard)) :=
  compiled_implements rfl rfl rfl bellPair_bare bellPair_inRange
    bellPair_means decomposeThenMove_neverBreaks

end MQSSPasses.Passes.CompiledPrograms

end
