import MQSSPasses.QASM.Conversion
import MQSSPasses.QASM.InsertedGates
import MQSSPasses.QASM.Modifiers

/-!
# Whole programs

What the conversion does with single gate calls and with the measurements
makes up what it does with a program.  Three results are about programs as
a whole.  A program is accepted exactly when its registers can be read, each
call fits its gate and each measurement can be read.  The gates of an
accepted program without modifiers implement the program.  And a kernel that
is asked to measure all qubits measures each register once, unless two
registers have one name.
-/

noncomputable section

namespace MQSSPasses.QASM.Programs

open MQSSPasses.General.IntConversion
open MQSSPasses.General.TracedComputation
open MQSSPasses.General.OperationTree
open MQSSPasses.General.QubitOperators
open MQSSPasses.General.GateMatrices
open MQSSPasses.Quake.Syntax
open MQSSPasses.Quake.Operations
open MQSSPasses.Quake.Semantics
open MQSSPasses.QASM.Syntax
open MQSSPasses.QASM.QASMToQuake
open MQSSPasses.QASM.Measurements
open MQSSPasses.QASM.Conversion
open MQSSPasses.QASM.Decompositions
open MQSSPasses.QASM.GateMeaning
open MQSSPasses.QASM.InsertedGates
open MQSSPasses.QASM.LibraryGates
open MQSSPasses.QASM.Modifiers

/-! ## Registers -/

section Registers

variable {A : Type}

/-- The registers of a program with the values they are allocated as. -/
def allocated (place : ℕ) :
    List (String × ℤ) → QASMVectorToQuakeVector
  | [] => []
  | register :: others =>
      (register.1, registerValue place register) ::
        allocated (place + 1) others

/-- The operations that allocate registers. -/
def allocations (vectors : QASMVectorToQuakeVector) : Block A :=
  vectors.map fun vector => .leaf (.alloca vector.2)

theorem insertAllocations_eq (place : ℕ)
    (registers : List (String × ℤ)) :
    (insertAllocations place registers : Traced Fault (Op A) _) =
      ⟨allocations (allocated place registers),
        .ok (allocated place registers)⟩ := by
  induction registers generalizing place with
  | nil => rfl
  | cons register others induction =>
      rw [insertAllocations, induction,
        Traced.bind_of_ok (Traced.record_outcome _),
        Traced.bind_of_ok rfl]
      simp [allocations, allocated]

theorem allocated_names (place : ℕ) (registers : List (String × ℤ)) :
    (allocated place registers).map Prod.fst =
      registers.map Prod.fst := by
  induction registers generalizing place with
  | nil => rfl
  | cons register others induction =>
      rw [allocated, List.map_cons, List.map_cons, induction]

/-- A register has a value exactly when it is declared. -/
theorem exists_lookup_iff {vectors : QASMVectorToQuakeVector}
    {name : String} :
    (∃ value, vectors.lookup name = some value) ↔
      name ∈ vectors.map Prod.fst := by
  induction vectors with
  | nil => simp
  | cons vector others induction =>
      rcases vector with ⟨other, value⟩
      rw [List.lookup_cons, List.map_cons, List.mem_cons, ← induction]
      by_cases same : name = other
      · simp [same]
      · simp [same, beq_false_of_ne same]

theorem exists_lookup_allocated_iff (place : ℕ)
    {registers : List (String × ℤ)} {name : String} :
    (∃ value, (allocated place registers).lookup name = some value) ↔
      name ∈ registers.map Prod.fst := by
  rw [exists_lookup_iff, allocated_names]

/-- The size of a declared register is an `int`. -/
theorem toInt_declared {program : Program A}
    {registers : List (String × ℤ)}
    (declared : declaredRegisters program = .ok registers) :
    ∀ register ∈ registers, toInt register.2 = register.2 := by
  induction program generalizing registers with
  | nil =>
      cases declared
      simp
  | cons statement rest induction =>
      rcases except_bind_eq_ok.mp declared with ⟨found, first, later⟩
      rcases except_bind_eq_ok.mp later with ⟨others, after, returned⟩
      cases returned
      intro register member
      rcases List.mem_append.mp member with here | there
      · rw [Option.mem_toList] at here
        subst here
        unfold declaredRegister at first
        split at first
        next text size name _ =>
            split at first
            · rcases except_bind_eq_ok.mp first with ⟨value, -, same⟩
              cases same
              exact Int.bmod_bmod
            · cases first
        next => cases first
      · exact induction after register there

/-- The registers have qubits, so the kernel is not left empty. -/
def HasQubits (registers : List (String × ℤ)) : Prop :=
  ¬ (totalQubits registers = 0 ∨ totalQubits registers = -1)

theorem HasQubits.nonempty {registers : List (String × ℤ)}
    (qubits : HasQubits registers) : registers ≠ [] := by
  rintro rfl
  exact qubits (.inl rfl)

theorem allocated_ne_nil {place : ℕ} {registers : List (String × ℤ)}
    (nonempty : registers ≠ []) : allocated place registers ≠ [] := by
  cases registers with
  | nil => exact (nonempty rfl).elim
  | cons register others => exact List.cons_ne_nil _ _

variable {program : Program A} {registers : List (String × ℤ)}

theorem insertAllocatedQubits_eq
    (declared : declaredRegisters program = .ok registers)
    (qubits : HasQubits registers) :
    insertAllocatedQubits program =
      ⟨allocations (allocated 0 registers),
        .ok (allocated 0 registers, registers)⟩ := by
  rw [insertAllocatedQubits, declared, Traced.ofExcept_ok_bind,
    if_neg qubits, insertAllocations_eq, Traced.bind_of_ok rfl]
  simp

theorem insertAllocatedQubits_of_no_qubits
    (declared : declaredRegisters program = .ok registers)
    (noQubits : ¬ HasQubits registers) :
    insertAllocatedQubits program = ⟨[], .ok ([], registers)⟩ := by
  rw [insertAllocatedQubits, declared, Traced.ofExcept_ok_bind,
    if_pos (not_not.mp noQubits)]
  rfl

end Registers

/-! ## The parts of a run -/

section Parts

variable {A : Type}

/-- The last part of a kernel: what is measured. -/
def insertReadout (measureAllQubits : Bool)
    (registers : List (String × ℤ)) (program : Program A) :
    Traced Fault (Emission A) Unit :=
  if measureAllQubits then
    measureRegisters (allocated 0 registers) registers
  else parseAndInsertMeasurements program (allocated 0 registers)

variable [FloatArithmetic A]

/-- What a run inserts behind the allocations. -/
def insertBody (measureAllQubits : Bool)
    (registers : List (String × ℤ)) (program : Program A) :
    Traced Fault (Emission A) Unit := do
  insertGates (allocated 0 registers) 0 program
  insertReadout measureAllQubits registers program

variable {funcName : String} {measureAllQubits : Bool}
variable {program : Program A} {registers : List (String × ℤ)}

/-- A run over a program with qubits. -/
theorem run_eq
    (kernelName : regexSearch funcName CUDAQ_PREFIX_FUNCTION = true)
    (declared : declaredRegisters program = .ok registers)
    (qubits : HasQubits registers) :
    runOnOperation funcName measureAllQubits program =
      ⟨(allocations (allocated 0 registers)).map (Emission.mk none) ++
          (insertBody measureAllQubits registers program).trace,
        (insertBody measureAllQubits registers program).outcome⟩ := by
  rw [runOnOperation, if_pos kernelName,
    insertAllocatedQubits_eq declared qubits, Traced.bind_of_ok rfl,
    if_neg (allocated_ne_nil qubits.nonempty)]
  rfl

/-- A run returns if the registers are read and the parts return. -/
theorem run_ok_iff
    (kernelName : regexSearch funcName CUDAQ_PREFIX_FUNCTION = true) :
    (runOnOperation funcName measureAllQubits program).outcome = .ok () ↔
      ∃ registers, declaredRegisters program = .ok registers ∧
        (HasQubits registers →
          (insertGates (allocated 0 registers) 0 program).outcome =
              .ok () ∧
            (insertReadout measureAllQubits registers program).outcome =
              .ok ()) := by
  cases declared : declaredRegisters program with
  | error fault =>
      have failed :
          ((insertAllocatedQubits program).mapTrace
            (Emission.mk none)).outcome = .error fault := by
        rw [Traced.mapTrace_outcome, insertAllocatedQubits, declared,
          Traced.bind_of_error (Traced.ofExcept_outcome _)]
      rw [runOnOperation, if_pos kernelName, Traced.bind_of_error failed]
      simp
  | ok registers =>
      have only :
          (∃ others, Except.ok (ε := Fault) registers = .ok others ∧
            (HasQubits others →
              (insertGates (allocated 0 others) 0 program).outcome =
                  .ok () ∧
                (insertReadout measureAllQubits others program).outcome =
                  .ok ())) ↔
            (HasQubits registers →
              (insertGates (allocated 0 registers) 0 program).outcome =
                  .ok () ∧
                (insertReadout measureAllQubits registers
                  program).outcome = .ok ()) := by
        simp
      rw [only]
      by_cases qubits : HasQubits registers
      · rw [run_eq kernelName declared qubits, insertBody,
          Traced.bind_ok_iff]
        constructor
        · rintro ⟨_, gates, readout, -⟩ -
          exact ⟨gates, readout⟩
        · intro parts
          rcases parts qubits with ⟨gates, readout⟩
          exact ⟨(), gates, readout, by rw [Traced.bind_of_ok gates]⟩
      · rw [runOnOperation, if_pos kernelName,
          insertAllocatedQubits_of_no_qubits declared qubits,
          Traced.bind_of_ok rfl]
        exact iff_of_true rfl fun has => (qubits has).elim

/-- The kernel of an accepted program with qubits. -/
theorem run_trace
    (kernelName : regexSearch funcName CUDAQ_PREFIX_FUNCTION = true)
    (declared : declaredRegisters program = .ok registers)
    (qubits : HasQubits registers)
    (accepted :
      (runOnOperation funcName measureAllQubits program).outcome =
        .ok ()) :
    (runOnOperation funcName measureAllQubits program).trace =
      (allocations (allocated 0 registers)).map (Emission.mk none) ++
        ((insertGates (allocated 0 registers) 0 program).trace ++
          (insertReadout measureAllQubits registers program).trace) := by
  rcases (run_ok_iff kernelName).mp accepted with
    ⟨others, same, parts⟩
  rw [declared, Except.ok.injEq] at same
  subst same
  rw [run_eq kernelName declared qubits, insertBody,
    Traced.bind_of_ok (parts qubits).1]

end Parts

/-! ## Accepted programs -/

section Calls

variable {A : Type} [FloatArithmetic A]

/-- The gates are inserted if every call is. -/
theorem insertGates_ok_iff {vectors : QASMVectorToQuakeVector}
    {program : Program A} {place : ℕ} :
    (insertGates vectors place program).outcome = .ok () ↔
      ∀ call, .gateCall call ∈ program →
        (insertGate call vectors).outcome = .ok () := by
  induction program generalizing place with
  | nil => simp [insertGates]
  | cons statement rest induction =>
      cases statement with
      | gateCall call =>
          rw [insertGates, Traced.bind_ok_iff]
          constructor
          · rintro ⟨_, first, later, -⟩ other member
            rcases List.mem_cons.mp member with same | inside
            · cases same
              exact first
            · exact induction.mp later other inside
          · intro each
            have first :
                ((insertGate call vectors).mapTrace
                  (Emission.mk (some place))).outcome = .ok () :=
              each call List.mem_cons_self
            have later :
                (insertGates vectors (place + 1) rest).outcome = .ok () :=
              induction.mpr fun other member =>
                each other (List.mem_cons_of_mem _ member)
            exact ⟨(), first, later, by rw [Traced.bind_of_ok first]⟩
      | _ =>
          change (insertGates vectors (place + 1) rest).outcome = .ok () ↔ _
          rw [induction]
          simp

end Calls

section Measuring

variable {A : Type}

/--
The index of an assignment is an integer constant, and a measurement on its
right-hand side names a qubit, not with a floating-point constant.
-/
structure ReadsAssignment (assignment : Assignment A) : Prop where
  index :
    ∃ index, assignment.indexExpression = some (.constant (.integer index))
  named :
    assignment.expression ≠ some (.declaration (some (.measure none)))
  integer :
    ∀ name value, assignment.expression ≠
      some (.declaration (some (.measure (some (name,
        some (.constant (.floating value)))))))

theorem measurementOf_returns_iff (place : ℕ)
    {assignment : Assignment A} :
    (∃ found, measurementOf place assignment = .ok found) ↔
      ReadsAssignment assignment := by
  rcases assignment with ⟨identifier, indexExpression, expression⟩
  constructor
  · rintro ⟨found, returned⟩
    unfold measurementOf at returned
    split at returned
    next index indexed =>
        dsimp only at indexed
        subst indexed
        cases index with
        | floating value => cases returned
        | integer index =>
            refine ⟨⟨index, rfl⟩, ?_, ?_⟩
            · rintro rfl
              cases returned
            · rintro name value rfl
              cases returned
    next => cases returned
  · rintro ⟨⟨index, rfl⟩, named, integer⟩
    unfold measurementOf
    dsimp only [Constant.getSInt]
    split
    next name operand =>
        cases operand with
        | integer qubit => exact ⟨_, rfl⟩
        | floating value => exact (integer name value rfl).elim
    next => exact (named rfl).elim
    next => exact ⟨none, rfl⟩

/-- The measurements are collected if every assignment can be read. -/
theorem collectMeasurements_returns_iff {program : Program A} (place : ℕ)
    (entries : List Measurement) :
    (∃ result, collectMeasurements place entries program = .ok result) ↔
      ∀ assignment, .assignment assignment ∈ program →
        ReadsAssignment assignment := by
  induction program generalizing place entries with
  | nil => simp [collectMeasurements, pure, Except.pure]
  | cons statement rest induction =>
      cases statement with
      | assignment assignment =>
          have split :
              (∀ other,
                .assignment other ∈ Statement.assignment assignment :: rest →
                  ReadsAssignment other) ↔
                ReadsAssignment assignment ∧
                  ∀ other, .assignment other ∈ rest →
                    ReadsAssignment other := by
            simp [or_imp, forall_and]
          rw [split, ← measurementOf_returns_iff place]
          simp only [collectMeasurements, except_bind_eq_ok]
          constructor
          · rintro ⟨result, found, asked, returned⟩
            refine ⟨⟨found, asked⟩, ?_⟩
            cases found with
            | none => exact (induction _ _).mp ⟨result, returned⟩
            | some entry => exact (induction _ _).mp ⟨result, returned⟩
          · rintro ⟨⟨found, asked⟩, later⟩
            cases found with
            | none =>
                rcases (induction _ _).mpr later with ⟨result, returned⟩
                exact ⟨result, none, asked, returned⟩
            | some entry =>
                rcases (induction _ _).mpr later with ⟨result, returned⟩
                exact ⟨result, some entry, asked, returned⟩
      | _ =>
          change
            (∃ result, collectMeasurements (place + 1) entries rest =
              .ok result) ↔ _
          rw [induction]
          simp

/-- The measurement of every register that has a value. -/
theorem measureRegisters_eq {vectors : QASMVectorToQuakeVector}
    {registers : List (String × ℤ)}
    (declared :
      ∀ register ∈ registers, register.1 ∈ vectors.map Prod.fst) :
    (measureRegisters vectors registers :
        Traced Fault (Emission A) Unit) =
      ⟨registers.filterMap fun register =>
          (vectors.lookup register.1).map fun value =>
            ⟨none, .leaf (.measure .mz [value])⟩,
        .ok ()⟩ := by
  induction registers with
  | nil => rfl
  | cons register others induction =>
      rcases exists_lookup_iff.mpr (declared register List.mem_cons_self)
        with ⟨value, found⟩
      have read :
          (Traced.ofExcept (vectorAt vectors register.1) :
            Traced Fault (Emission A) QuantumValue) =
              ⟨[], .ok value⟩ := by
        rw [vectorAt, found]
        rfl
      rw [measureRegisters, read, Traced.bind_of_ok rfl,
        Traced.bind_of_ok (Traced.record_outcome _),
        induction fun other member =>
          declared other (List.mem_cons_of_mem register member)]
      simp [found]

theorem insertReadout_all (registers : List (String × ℤ))
    (program : Program A) :
    insertReadout true registers program =
      ⟨registers.filterMap fun register =>
          ((allocated 0 registers).lookup register.1).map fun value =>
            ⟨none, .leaf (.measure .mz [value])⟩,
        .ok ()⟩ := by
  rw [insertReadout, if_pos rfl, measureRegisters_eq]
  intro register member
  rw [allocated_names]
  exact List.mem_map_of_mem member

/-- The measurements of a program are inserted if they can be. -/
theorem insertReadout_ok_iff {registers : List (String × ℤ)}
    {program : Program A} :
    (insertReadout false registers program).outcome = .ok () ↔
      (∀ assignment, .assignment assignment ∈ program →
        ReadsAssignment assignment) ∧
      ∀ entry, IsFirst program entry →
        entry.qVector ∈ registers.map Prod.fst := by
  rw [insertReadout, if_neg Bool.false_ne_true,
    parseAndInsertMeasurements, Traced.bind_ok_iff]
  have declared {entry : Measurement} :
      (∃ qubit, entryQubit (allocated 0 registers) entry = some qubit) ↔
        entry.qVector ∈ registers.map Prod.fst := by
    rw [← exists_lookup_allocated_iff 0]
    simp [entryQubit]
  constructor
  · rintro ⟨entries, collected, inserted, -⟩
    have collects := collectMeasurements_correct collected
    refine ⟨(collectMeasurements_returns_iff _ _).mp ⟨entries, collected⟩, ?_⟩
    intro entry first
    exact declared.mp (insertMeasurements_ok_iff.mp inserted entry
      ((collects.member entry).mpr first))
  · rintro ⟨reads, firsts⟩
    rcases (collectMeasurements_returns_iff 0 []).mpr reads with
      ⟨entries, collected⟩
    have collects := collectMeasurements_correct collected
    have inserted :
        (insertMeasurements (allocated 0 registers) entries :
          Traced Fault (Emission A) Unit).outcome = .ok () := by
      rw [insertMeasurements_ok_iff]
      intro entry member
      exact declared.mpr (firsts entry ((collects.member entry).mp member))
    refine ⟨entries, collected, inserted, ?_⟩
    rw [collected, Traced.bind_of_ok (Traced.ofExcept_outcome _)]

end Measuring

/-- The conversion can read the statements of a program. -/
structure Reads (Q : Type) [DecidableEq Q] (measureAllQubits : Bool)
    (registers : List (String × ℤ)) (program : Program ℝ) : Prop where
  calls :
    ∀ call, .gateCall call ∈ program →
      Fits Q (allocated 0 registers) call
  assignments :
    measureAllQubits = false →
      ∀ assignment, .assignment assignment ∈ program →
        ReadsAssignment assignment
  measured :
    measureAllQubits = false →
      ∀ entry, IsFirst program entry →
        entry.qVector ∈ registers.map Prod.fst

/--
A program is accepted exactly when its registers can be read and, if they
have qubits, its calls and its measurements can.  The gate table is one that
lives through the process; every call is taken to read its own arguments
from it.
-/
theorem run_accepts_iff (Q : Type) [DecidableEq Q] (funcName : String)
    (measureAllQubits : Bool) (program : Program ℝ) :
    (runOnOperation funcName measureAllQubits program).outcome = .ok () ↔
      (regexSearch funcName CUDAQ_PREFIX_FUNCTION = true →
        ∃ registers, declaredRegisters program = .ok registers ∧
          (HasQubits registers →
            Reads Q measureAllQubits registers program)) := by
  by_cases kernelName :
      regexSearch funcName CUDAQ_PREFIX_FUNCTION = true
  · rw [run_ok_iff kernelName, imp_iff_right kernelName]
    refine exists_congr fun registers => and_congr_right fun declared =>
      imp_congr_right fun qubits => ?_
    rw [insertGates_ok_iff]
    simp only [insertGate_accepts_iff (Q := Q)]
    cases measureAllQubits with
    | true =>
        rw [insertReadout_all]
        constructor
        · rintro ⟨calls, -⟩
          exact ⟨calls, by simp, by simp⟩
        · intro reads
          exact ⟨reads.calls, rfl⟩
    | false =>
        rw [insertReadout_ok_iff]
        constructor
        · rintro ⟨calls, assignments, measured⟩
          exact ⟨calls, fun _ => assignments, fun _ => measured⟩
        · intro reads
          exact ⟨reads.calls, reads.assignments rfl, reads.measured rfl⟩
  · rw [runOnOperation, if_neg kernelName]
    exact iff_of_true rfl fun named => (kernelName named).elim

/-! ## What a program does -/

/-- The operand a right-hand side measures. -/
def measuredOperand {A : Type} :
    Option (Expression A) → Option (String × Option (Expression A))
  | some (.declaration (some (.measure operand))) => operand
  | some (.measure operand) => operand
  | _ => none

/-- A later operand is not the measured one. -/
def Apart {A : Type} (measured : String × Option (Expression A))
    (operand : GateOperand A) : Prop :=
  operand.identifier = measured.1 →
    ∃ index other, measured.2 = some (.constant (.integer index)) ∧
      operand.expression = some (.constant (.integer other)) ∧
      index ≠ other

/-- The operations of the gates of a program. -/
def gatesOf {A : Type} [FloatArithmetic A]
    (vectors : QASMVectorToQuakeVector) (place : ℕ) (program : Program A) :
    Block A :=
  (insertGates vectors place program).trace.map Emission.operation

section Meaning

variable {Q : Type} [DecidableEq Q] (interp : Interpretation ℝ Q)
variable (vectors : QASMVectorToQuakeVector)

/--
The operator of a program whose qubits are not used after they have been
measured.  Resets and conditionals have no operator.
-/
inductive ProgramMeans : Program ℝ → Operator Q → Prop where
  | done : ProgramMeans [] 1
  | gateCall {call : GateCall ℝ} {rest : Program ℝ}
      {operator later : Operator Q}
      (means : CallMeans interp vectors call operator)
      (continues : ProgramMeans rest later) :
      ProgramMeans (.gateCall call :: rest) (later * operator)
  | assignment {statement : Assignment ℝ} {rest : Program ℝ}
      {later : Operator Q}
      (unused :
        ∀ measured, measuredOperand statement.expression = some measured →
          ∀ call, .gateCall call ∈ rest →
            ∀ operand ∈ call.operands, Apart measured operand)
      (continues : ProgramMeans rest later) :
      ProgramMeans (.assignment statement :: rest) later
  | declaration {statement : Declaration ℝ} {rest : Program ℝ}
      {later : Operator Q}
      (silent : ¬ MeasuringExpression statement.expression)
      (continues : ProgramMeans rest later) :
      ProgramMeans (.declaration statement :: rest) later
  | barrier {gates : List (GateOperand ℝ)} {rest : Program ℝ}
      {later : Operator Q} (continues : ProgramMeans rest later) :
      ProgramMeans (.barrier gates :: rest) later
  | other {text : String} {rest : Program ℝ} {later : Operator Q}
      (continues : ProgramMeans rest later) :
      ProgramMeans (.other text :: rest) later

/-- No call of a program has modifiers. -/
def WithoutModifiers (program : Program ℝ) : Prop :=
  ∀ call, .gateCall call ∈ program → call.modifiers = []

variable {interp vectors}

theorem WithoutModifiers.tail {statement : Statement ℝ}
    {rest : Program ℝ} (bare : WithoutModifiers (statement :: rest)) :
    WithoutModifiers rest :=
  fun call member => bare call (List.mem_cons_of_mem statement member)

/-- Without modifiers the meaning of a call is that of its gate. -/
theorem unmodifiedMeans_of_bare {call : GateCall ℝ}
    (bare : call.modifiers = []) {operator : Operator Q}
    (means : CallMeans interp vectors call operator) :
    UnmodifiedMeans interp vectors call operator := by
  rcases means with ⟨angles, values, evaluated, operands, modified⟩
  rw [bare] at modified
  cases modified with
  | plain denotes =>
      refine ⟨angles, values, values.length, evaluated, operands, ?_⟩
      rwa [List.take_length]

/-- The gates of the first call stand before those of the others. -/
theorem gatesOf_gateCall {call : GateCall ℝ} {rest : Program ℝ}
    {place : ℕ}
    (accepted : (insertGate call vectors).outcome = .ok ()) :
    gatesOf vectors place (.gateCall call :: rest) =
      (insertGate call vectors).trace ++
        gatesOf vectors (place + 1) rest := by
  have first :
      ((insertGate call vectors).mapTrace
        (Emission.mk (some place))).outcome = .ok () :=
    accepted
  have same :
      (Emission.operation (A := ℝ)) ∘ Emission.mk (some place) = id := rfl
  rw [gatesOf, insertGates, Traced.bind_of_ok first, List.map_append,
    Traced.mapTrace_trace, List.map_map, same, List.map_id]
  rfl

/--
The gates of a program without modifiers implement it, if every call is
accepted.
-/
theorem gatesOf_implements (exact : ExactConstants interp)
    {program : Program ℝ} {place : ℕ}
    (accepted : (insertGates vectors place program).outcome = .ok ())
    (bare : WithoutModifiers program) {operator : Operator Q}
    (means : ProgramMeans interp vectors program operator) :
    EqualUpToPhase (denote interp (gatesOf vectors place program))
      operator := by
  have each := insertGates_ok_iff.mp accepted
  clear accepted
  induction means generalizing place with
  | done => exact .refl _
  | @gateCall call rest operator later means continues induction =>
      have first := each call List.mem_cons_self
      rw [gatesOf_gateCall first, denote_append]
      exact (induction bare.tail fun other member =>
          each other (List.mem_cons_of_mem _ member)).mul
        (insertGate_implements_unmodified exact first
          (unmodifiedMeans_of_bare (bare call List.mem_cons_self) means))
  | assignment _ _ induction =>
      exact induction bare.tail fun other member =>
        each other (List.mem_cons_of_mem _ member)
  | declaration _ _ induction =>
      exact induction bare.tail fun other member =>
        each other (List.mem_cons_of_mem _ member)
  | barrier _ induction =>
      exact induction bare.tail fun other member =>
        each other (List.mem_cons_of_mem _ member)
  | other _ induction =>
      exact induction bare.tail fun other member =>
        each other (List.mem_cons_of_mem _ member)

theorem denote_allocations (vectors : QASMVectorToQuakeVector) :
    denote interp (allocations vectors) = 1 := by
  apply denote_of_no_gates
  intro operation member
  rcases List.mem_map.mp member with ⟨vector, -, rfl⟩
  rfl

end Meaning

/-! ## Kernels -/

section Kernels

variable {A : Type}

/-- The operations of a kernel in order. -/
def operationsOf (emissions : List (Emission A)) : Block A :=
  emissions.map Emission.operation

/-- An operation with which qubits are read out. -/
inductive ReadoutOperation : Op A → Prop where
  | extractRef (value : QuantumValue) :
      ReadoutOperation (.leaf (.extractRef value))
  | measure (value : QuantumValue) :
      ReadoutOperation (.leaf (.measure .mz [value]))

theorem ReadoutOperation.noGate {operation : Op A}
    (readout : ReadoutOperation operation) :
    asOperator operation = none := by
  cases readout <;> rfl

theorem ReadoutOperation.flat {operation : Op A}
    (readout : ReadoutOperation operation) : operation.blocks = [] := by
  cases readout <;> rfl

theorem insertReadout_operations {measureAllQubits : Bool}
    {registers : List (String × ℤ)} {program : Program A}
    (returned :
      (insertReadout measureAllQubits registers program).outcome =
        .ok ()) :
    ∀ operation ∈ operationsOf
        (insertReadout measureAllQubits registers program).trace,
      ReadoutOperation operation := by
  intro operation member
  rcases List.mem_map.mp member with ⟨emission, recorded, rfl⟩
  cases measureAllQubits with
  | true =>
      rw [insertReadout_all, List.mem_filterMap] at recorded
      rcases recorded with ⟨register, -, found⟩
      rcases Option.map_eq_some_iff.mp found with ⟨value, -, rfl⟩
      exact .measure value
  | false =>
      rw [insertReadout, if_neg Bool.false_ne_true,
        parseAndInsertMeasurements] at returned recorded
      rcases Traced.bind_ok_iff.mp returned with
        ⟨entries, -, inserted, trace⟩
      rw [trace, Traced.ofExcept_trace, List.nil_append,
        mem_insertMeasurements inserted] at recorded
      rcases recorded with ⟨entry, -, qubit, -, -, same | same⟩
      · rw [same]
        exact .extractRef qubit
      · rw [same]
        exact .measure qubit

variable [FloatArithmetic A] {funcName : String}
variable {measureAllQubits : Bool} {program : Program A}
variable {registers : List (String × ℤ)}

/-- The allocations of a program and the operations of its gates. -/
def preparation (registers : List (String × ℤ)) (program : Program A) :
    Block A :=
  allocations (allocated 0 registers) ++
    gatesOf (allocated 0 registers) 0 program

/-- The operations with which a kernel reads its qubits out. -/
def readout (measureAllQubits : Bool) (registers : List (String × ℤ))
    (program : Program A) : Block A :=
  operationsOf (insertReadout measureAllQubits registers program).trace

/-- An accepted kernel is prepared and then read out. -/
theorem run_operations
    (kernelName : regexSearch funcName CUDAQ_PREFIX_FUNCTION = true)
    (declared : declaredRegisters program = .ok registers)
    (qubits : HasQubits registers)
    (accepted :
      (runOnOperation funcName measureAllQubits program).outcome =
        .ok ()) :
    operationsOf (runOnOperation funcName measureAllQubits program).trace =
      preparation registers program ++
        readout measureAllQubits registers program := by
  have same : (Emission.operation (A := A)) ∘ Emission.mk none = id := rfl
  rw [run_trace kernelName declared qubits accepted, operationsOf,
    List.map_append, List.map_append, List.map_map, same, List.map_id,
    ← List.append_assoc]
  rfl

end Kernels

section Run

variable {Q : Type} [DecidableEq Q] {interp : Interpretation ℝ Q}
variable {funcName : String} {measureAllQubits : Bool}
variable {program : Program ℝ} {registers : List (String × ℤ)}

end Run

/-! ### A pair of entangled qubits -/

section BellPair

/-- `qubit[2] q;` -/
def declarePair : Statement ℝ :=
  .declaration
    ⟨.designated "qubit[2]" (some (.constant (.integer 2))), "q", none⟩

/-- A qubit of the register. -/
def pairOperand (index : ℤ) : GateOperand ℝ :=
  ⟨"q", some (.constant (.integer index))⟩

def hOnFirst : GateCall ℝ := ⟨"h", [], [], [pairOperand 0]⟩

def cxOnPair : GateCall ℝ := ⟨"cx", [], [], [pairOperand 0, pairOperand 1]⟩

/-- Entangle two qubits and measure the first. -/
def bellPair : Program ℝ :=
  [declarePair, .gateCall hOnFirst, .gateCall cxOnPair,
    (MeasureAssignment.mk "c" 0 "q" 0).statement]

theorem pairOperand_denotes {index : ℤ}
    (inRange : 0 ≤ index ∧ toInt index = index) :
    OperandDenotes (allocated 0 [("q", 2)]) (pairOperand index)
      (.extractRef (.veqAlloca 0 2) (.constant index)) :=
  ⟨index, _, rfl, inRange.1, inRange.2, rfl, rfl⟩

theorem hOnFirst_means :
    CallMeans (exactRegister 1) (allocated 0 [("q", 2)]) hOnFirst
      (on 0 hadamard) := by
  have h : (matrixGate "h" 0 0 fun _ => hadamard) ∈
      (standardGates : List (StandardGate (Fin 2))) := by
    simp [standardGates, directGates]
  refine ⟨[], _, .nil, .cons (pairOperand_denotes (by decide)) .nil,
    .plain ⟨_, h, rfl, fun i => i.elim0, fun i => i.elim0, fun _ => 0,
      rfl, rfl, by decide, (whenSet_zero _ (on 0 hadamard)).symm⟩⟩

theorem cxOnPair_means :
    CallMeans (exactRegister 1) (allocated 0 [("q", 2)]) cxOnPair
      (controlledX 0 1) := by
  have cx : (matrixGate "cx" 0 1 fun _ => pauliX) ∈
      (standardGates : List (StandardGate (Fin 2))) := by
    simp [standardGates, directGates]
  have controlled :
      whenSet (fun _ : Fin 1 => (0 : Fin 2)) (on 1 pauliX) =
        controlledX 0 1 := by
    rw [whenSet_one, controlledX]
  have denotes : GateDenotes "cx" [] [(0 : Fin 2), 1] (controlledX 0 1) :=
    ⟨_, cx, rfl, fun i => i.elim0, fun _ => 0, fun _ => 1, rfl, rfl,
      by decide, controlled.symm⟩
  exact ⟨[], _, .nil,
    .cons (pairOperand_denotes (by decide))
      (.cons (pairOperand_denotes (by decide)) .nil), .plain denotes⟩

theorem bellPair_means :
    ProgramMeans (exactRegister 1) (allocated 0 [("q", 2)]) bellPair
      (1 * controlledX 0 1 * on 0 hadamard) :=
  .declaration id (.gateCall hOnFirst_means (.gateCall cxOnPair_means
    (.assignment (by simp) .done)))

theorem bellPair_bare : WithoutModifiers bellPair := by
  simp [WithoutModifiers, bellPair, declarePair, hOnFirst, cxOnPair,
    MeasureAssignment.statement]

end BellPair

/-! ## Measuring all qubits -/

section MeasureAll

variable {A : Type}

/-- The values an operation measures. -/
def measuredIn (operation : Op A) : List QuantumValue :=
  match operation.label with
  | .measure _ targets => targets
  | _ => []

/-- The places of the values of registers are those of the registers. -/
theorem allocated_places {place : ℕ} {registers : List (String × ℤ)}
    {vector : String × QuantumValue}
    (member : vector ∈ allocated place registers) :
    ∃ later size, place ≤ later ∧ vector.2 = .veqAlloca later size := by
  induction registers generalizing place with
  | nil => cases member
  | cons register others induction =>
      rcases List.mem_cons.mp member with rfl | inside
      · exact ⟨place, _, le_rfl, rfl⟩
      · rcases induction inside with ⟨later, size, after, same⟩
        exact ⟨later, size, by omega, same⟩

/-- Different registers are allocated as different values. -/
theorem allocated_distinct (place : ℕ) (registers : List (String × ℤ)) :
    ((allocated place registers).map Prod.snd).Nodup := by
  induction registers generalizing place with
  | nil => exact List.nodup_nil
  | cons register others induction =>
      rw [allocated, List.map_cons, List.nodup_cons]
      refine ⟨?_, induction (place + 1)⟩
      intro member
      rcases List.mem_map.mp member with ⟨vector, inside, same⟩
      rcases allocated_places inside with ⟨later, size, after, value⟩
      rw [value, registerValue, QuantumValue.veqAlloca.injEq] at same
      omega

/-- With distinct names a register is found under its own name. -/
theorem lookup_of_distinct {vectors : QASMVectorToQuakeVector}
    (distinct : (vectors.map Prod.fst).Nodup)
    {vector : String × QuantumValue} (member : vector ∈ vectors) :
    vectors.lookup vector.1 = some vector.2 := by
  rcases List.mem_iff_append.mp member with ⟨early, late, rfl⟩
  rw [List.lookup_eq_some_iff]
  refine ⟨early, late, rfl, ?_⟩
  intro other earlier
  rw [List.map_append, List.map_cons, List.nodup_append] at distinct
  have apart :=
    distinct.2.2 other.1 (List.mem_map_of_mem earlier) vector.1
      List.mem_cons_self
  exact bne_iff_ne.mpr (Ne.symm apart)

/-- If each register is found under its own name, the names are distinct. -/
theorem distinct_of_lookup {vectors : QASMVectorToQuakeVector}
    (values : (vectors.map Prod.snd).Nodup)
    (found :
      ∀ vector ∈ vectors, vectors.lookup vector.1 = some vector.2) :
    (vectors.map Prod.fst).Nodup := by
  refine List.Nodup.map_on ?_ (List.Nodup.of_map Prod.snd values)
  intro first firstMember second secondMember same
  have equal := (found first firstMember).symm.trans
    (same ▸ found second secondMember)
  exact Prod.ext same (Option.some.inj equal)

/-- The measurements of registers measure what is found for them. -/
theorem operationsOf_registers
    (find : String × ℤ → Option QuantumValue)
    (registers : List (String × ℤ)) :
    (operationsOf (registers.filterMap fun register =>
        (find register).map fun value =>
          (⟨none, .leaf (.measure .mz [value])⟩ : Emission A))).flatMap
            measuredIn =
      registers.filterMap find := by
  induction registers with
  | nil => rfl
  | cons register others induction =>
      cases found : find register with
      | none =>
          rw [List.filterMap_cons, List.filterMap_cons, found]
          exact induction
      | some value =>
          rw [List.filterMap_cons, List.filterMap_cons, found]
          exact congrArg (List.cons value) induction

/-- What is found for all elements, in their order. -/
theorem map_some_filterMap {Item Value : Type} {find : Item → Option Value}
    {items : List Item} (found : ∀ item ∈ items, ∃ value,
      find item = some value) :
    (items.filterMap find).map some = items.map find := by
  induction items with
  | nil => rfl
  | cons item rest induction =>
      rcases found item List.mem_cons_self with ⟨value, here⟩
      rw [List.filterMap_cons, here, List.map_cons, List.map_cons, here,
        induction fun other member =>
          found other (List.mem_cons_of_mem item member)]

/-- The registers are all found in their order if their names differ. -/
theorem filterMap_lookup_eq_iff (registers : List (String × ℤ)) :
    (registers.filterMap fun register =>
        (allocated 0 registers).lookup register.1) =
      (allocated 0 registers).map Prod.snd ↔
        (registers.map Prod.fst).Nodup := by
  have declared :
      ∀ register ∈ registers, ∃ value,
        (allocated 0 registers).lookup register.1 = some value :=
    fun register member =>
      (exists_lookup_allocated_iff _).mpr (List.mem_map_of_mem member)
  have names :
      registers.map (fun register =>
          (allocated 0 registers).lookup register.1) =
        (allocated 0 registers).map fun vector =>
          (allocated 0 registers).lookup vector.1 := by
    have same :=
      congrArg (List.map fun name => (allocated 0 registers).lookup name)
        (allocated_names 0 registers)
    rw [List.map_map, List.map_map] at same
    exact same.symm
  rw [← (Option.some_injective _).list_map.eq_iff,
    map_some_filterMap declared, names, List.map_map, List.map_inj_left,
    ← allocated_names 0]
  constructor
  · intro found
    exact distinct_of_lookup (allocated_distinct 0 registers) found
  · intro distinct vector member
    exact lookup_of_distinct distinct member

variable [FloatArithmetic A] {funcName : String} {program : Program A}
variable {registers : List (String × ℤ)}

/-- What calls insert, with no arguments for `rccx`, measures nothing. -/
theorem gatesOf_measures_nothing {vectors : QASMVectorToQuakeVector}
    (returned : (insertGates vectors 0 program).outcome = .ok ())
    (noArguments :
      ∀ call, .gateCall call ∈ program → call.identifier = "rccx" →
        call.arguments = []) :
    (gatesOf vectors 0 program).flatMap measuredIn = [] := by
  rw [List.flatMap_eq_nil_iff]
  intro operation member
  rcases List.mem_map.mp member with ⟨emission, recorded, rfl⟩
  rcases (mem_insertGates returned).mp recorded with
    ⟨offset, call, calls, -, inserted⟩
  have member := List.mem_of_getElem? calls
  rcases Traced.bind_ok_iff.mp (insertGates_ok_iff.mp returned call member)
    with ⟨_, -, rest, -⟩
  rcases Traced.bind_ok_iff.mp rest with ⟨operands, read, -, -⟩
  have described :=
    insertGate_operations read (noArguments call member) _ inserted
  generalize emission.operation = operation at described
  cases described with
  | extractRef value => rfl
  | inserted operation inserts =>
      cases inserts with
      | constant value => rfl
      | gate gate actsOn => rfl

/--
A kernel that is asked to measure all qubits measures the registers of the
program in order, each once, exactly when their names differ.
-/
theorem run_measures_registers_iff
    (kernelName : regexSearch funcName CUDAQ_PREFIX_FUNCTION = true)
    (declared : declaredRegisters program = .ok registers)
    (qubits : HasQubits registers)
    (accepted : (runOnOperation funcName true program).outcome = .ok ())
    (noArguments :
      ∀ call, .gateCall call ∈ program → call.identifier = "rccx" →
        call.arguments = []) :
    (operationsOf (runOnOperation funcName true program).trace).flatMap
        measuredIn = (allocated 0 registers).map Prod.snd ↔
      (registers.map Prod.fst).Nodup := by
  rcases (run_ok_iff kernelName).mp accepted with ⟨others, same, parts⟩
  rw [declared, Except.ok.injEq] at same
  subst same
  have allocating :
      (allocations (allocated 0 registers) : Block A).flatMap measuredIn =
        [] := by
    rw [List.flatMap_eq_nil_iff]
    intro operation member
    rcases List.mem_map.mp member with ⟨vector, -, rfl⟩
    rfl
  have measuring :
      (readout true registers program).flatMap measuredIn =
        registers.filterMap fun register =>
          (allocated 0 registers).lookup register.1 := by
    rw [readout, insertReadout_all]
    exact operationsOf_registers _ registers
  rw [run_operations kernelName declared qubits accepted,
    List.flatMap_append, preparation, List.flatMap_append, allocating,
    gatesOf_measures_nothing (parts qubits).1 noArguments, measuring]
  exact filterMap_lookup_eq_iff registers

theorem bellPair_measured :
    (operationsOf (runOnOperation someKernel true bellPair).trace).flatMap
        measuredIn = (allocated 0 [("q", 2)]).map Prod.snd ↔
      (([("q", 2)] : List (String × ℤ)).map Prod.fst).Nodup :=
  run_measures_registers_iff rfl rfl (by unfold HasQubits; decide) rfl
    (by simp [bellPair, declarePair, hOnFirst, cxOnPair,
      MeasureAssignment.statement])

end MeasureAll

end MQSSPasses.QASM.Programs

end
