import MQSSPasses.QASM.Emission
import MQSSPasses.QASM.Measurements

/-!
# The emitted kernel against the program

An accepted conversion emits, in this order, the allocations, the gates of
the gate calls and the measurements of the map.  `run_accepted` says so,
and two results follow about all programs.  The kernel keeps the order of
gates and measurements exactly when no gate follows a measurement of its
qubit.  And a statement that acts on qubits reaches the kernel exactly when
it is a gate call, or an assignment of a measurement that is the first with
its classical index.
-/

namespace MQSSPasses.QASM.Conversion

open MQSSPasses.General.TracedComputation
open MQSSPasses.General.OperationTree
open MQSSPasses.Quake.Syntax
open MQSSPasses.Quake.Operations
open MQSSPasses.QASM.Syntax
open MQSSPasses.QASM.GatesMap
open MQSSPasses.QASM.QASMToQuake
open MQSSPasses.QASM.Emission
open MQSSPasses.QASM.Measurements

variable {A : Type}

/-! ## The parts of the kernel -/

/-- The declared registers of a program have qubits to allocate. -/
def AllocatesQubits (program : Program A) : Prop :=
  ∃ registers, declaredRegisters program = .ok registers ∧
    totalQubits registers ≠ 0 ∧ totalQubits registers ≠ -1

theorem insertAllocations_returns (place : ℕ)
    (registers : List (String × ℤ)) :
    ∃ vectors,
      (insertAllocations place registers :
          Traced Fault (Op A) _).outcome = .ok vectors ∧
        (registers ≠ [] → vectors ≠ []) := by
  induction registers generalizing place with
  | nil => exact ⟨[], rfl, fun nonempty => (nonempty rfl).elim⟩
  | cons register others induction =>
      rcases induction (place + 1) with ⟨vectors, returned, -⟩
      refine ⟨(register.1, registerValue place register) :: vectors, ?_,
        fun _ => List.cons_ne_nil _ _⟩
      rw [insertAllocations, Traced.record_bind_outcome,
        Traced.bind_of_ok returned]
      rfl

variable [FloatArithmetic A]

theorem insertGates_returns {vectors : QASMVectorToQuakeVector}
    {program : Program A} {place : ℕ}
    (returned : (insertGates vectors place program).outcome = .ok ())
    {offset : ℕ} {call : GateCall A}
    (calls : program[offset]? = some (.gateCall call)) :
    (insertGate call vectors).outcome = .ok () := by
  induction program generalizing place offset with
  | nil => cases calls
  | cons statement rest induction =>
      cases statement with
      | gateCall other =>
          rcases Traced.bind_ok_iff.mp returned with
            ⟨_, first, later, -⟩
          cases offset with
          | zero =>
              cases calls
              exact first
          | succ offset => exact induction later calls
      | _ =>
          cases offset with
          | zero => cases calls
          | succ offset => exact induction returned calls

/-- The gates of the kernel are the gates of the calls. -/
theorem mem_insertGates {vectors : QASMVectorToQuakeVector}
    {program : Program A} {place : ℕ}
    (returned : (insertGates vectors place program).outcome = .ok ())
    {emission : Emission A} :
    emission ∈ (insertGates vectors place program).trace ↔
      ∃ offset call, program[offset]? = some (.gateCall call) ∧
        emission.statement = some (place + offset) ∧
          emission.operation ∈ (insertGate call vectors).trace := by
  induction program generalizing place with
  | nil => simp [insertGates]
  | cons statement rest induction =>
      have shift (found : ∃ offset call,
          rest[offset]? = some (.gateCall call) ∧
            emission.statement = some (place + 1 + offset) ∧
              emission.operation ∈ (insertGate call vectors).trace) :
          ∃ offset call,
            (statement :: rest)[offset]? = some (.gateCall call) ∧
              emission.statement = some (place + offset) ∧
                emission.operation ∈ (insertGate call vectors).trace := by
        rcases found with ⟨offset, call, calls, tag, member⟩
        refine ⟨offset + 1, call, calls, ?_, member⟩
        rw [tag]
        congr 1
        omega
      have unshift {offset : ℕ} {call : GateCall A}
          (calls : rest[offset]? = some (.gateCall call))
          (tag : emission.statement = some (place + (offset + 1)))
          (member : emission.operation ∈ (insertGate call vectors).trace) :
          ∃ offset call, rest[offset]? = some (.gateCall call) ∧
            emission.statement = some (place + 1 + offset) ∧
              emission.operation ∈ (insertGate call vectors).trace := by
        refine ⟨offset, call, calls, ?_, member⟩
        rw [tag]
        congr 1
        omega
      cases statement with
      | gateCall other =>
          rcases Traced.bind_ok_iff.mp returned with ⟨_, -, later, trace⟩
          rw [insertGates, trace, List.mem_append, induction later,
            Traced.mapTrace_trace, List.mem_map]
          constructor
          · rintro (⟨operation, member, rfl⟩ | found)
            · exact ⟨0, other, rfl, rfl, member⟩
            · exact shift found
          · rintro ⟨offset, call, calls, tag, member⟩
            cases offset with
            | zero =>
                cases calls
                left
                refine ⟨emission.operation, member, ?_⟩
                rcases emission with ⟨statement, operation⟩
                cases tag
                rfl
            | succ offset => exact Or.inr (unshift calls tag member)
      | _ =>
          change
            emission ∈ (insertGates vectors (place + 1) rest).trace ↔ _
          rw [induction returned]
          constructor
          · exact shift
          · rintro ⟨offset, call, calls, tag, member⟩
            cases offset with
            | zero => cases calls
            | succ offset => exact unshift calls tag member

/-- The kernel of an accepted program with qubits, part by part. -/
structure Parts (program : Program A) (emissions : List (Emission A)) where
  vectors : QASMVectorToQuakeVector
  allocations : List (Op A)
  entries : List Measurement
  gates : (insertGates vectors 0 program).outcome = .ok ()
  collects : Collects program entries
  measurements :
    (insertMeasurements vectors entries :
      Traced Fault (Emission A) Unit).outcome = .ok ()
  parts :
    emissions =
      (allocations.map (Emission.mk none) ++
          (insertGates vectors 0 program).trace) ++
        (insertMeasurements vectors entries :
          Traced Fault (Emission A) Unit).trace

/-- An accepted conversion emits nothing, or the three parts in order. -/
theorem run_accepted {funcName : String}
    (kernelName : regexSearch funcName CUDAQ_PREFIX_FUNCTION = true)
    {program : Program A}
    (accepted :
      (runOnOperation funcName false program).outcome = .ok ()) :
    (¬ AllocatesQubits program ∧
        (runOnOperation funcName false program).trace = []) ∨
      AllocatesQubits program ∧
        Nonempty
          (Parts program (runOnOperation funcName false program).trace) := by
  rw [runOnOperation, if_pos kernelName] at accepted ⊢
  rcases Traced.bind_ok_iff.mp accepted with
    ⟨allocated, returned, continued, trace⟩
  rw [Traced.mapTrace_outcome] at returned
  rcases Traced.bind_ok_iff.mp returned with
    ⟨registers, declared, allocation, allocationTrace⟩
  rw [Traced.ofExcept_outcome] at declared
  rw [trace]
  by_cases noQubits :
      totalQubits registers = 0 ∨ totalQubits registers = -1
  · left
    rw [if_pos noQubits] at allocation allocationTrace
    cases allocation
    constructor
    · rintro ⟨others, same, nonzero⟩
      rw [declared, Except.ok.injEq] at same
      subst same
      tauto
    · rw [Traced.mapTrace_trace, insertAllocatedQubits, allocationTrace]
      rfl
  · right
    have allocates : AllocatesQubits program := by
      refine ⟨registers, declared, ?_⟩
      tauto
    refine ⟨allocates, ?_⟩
    rw [if_neg noQubits] at allocation
    have nonempty : registers ≠ [] := by
      rintro rfl
      exact noQubits (Or.inl rfl)
    rcases @insertAllocations_returns A 0 registers with
      ⟨vectors, inserted, vectorsNonempty⟩
    rw [Traced.bind_of_ok inserted] at allocation
    cases allocation
    rw [if_neg (vectorsNonempty nonempty)] at continued ⊢
    rcases Traced.bind_ok_iff.mp continued with
      ⟨_, gates, measurements, gatesTrace⟩
    rw [if_neg Bool.false_ne_true] at measurements gatesTrace
    rcases Traced.bind_ok_iff.mp measurements with
      ⟨entries, collected, inserted, measurementsTrace⟩
    exact ⟨
      { vectors := vectors
        allocations := (insertAllocatedQubits program).trace
        entries := entries
        gates := gates
        collects := collectMeasurements_correct collected
        measurements := inserted
        parts := by
          rw [if_neg Bool.false_ne_true, gatesTrace,
            parseAndInsertMeasurements, measurementsTrace]
          simp }⟩

/-- Where the statement of an emission is not a call, it is no gate. -/
theorem Parts.statement_of_mem_gates {program : Program A}
    {emissions : List (Emission A)} (parts : Parts program emissions)
    {emission : Emission A} {place : ℕ}
    (tag : emission.statement = some place)
    (member :
      emission ∈ parts.allocations.map (Emission.mk none) ++
        (insertGates parts.vectors 0 program).trace) :
    ∃ call, program[place]? = some (.gateCall call) ∧
      emission.operation ∈ (insertGate call parts.vectors).trace := by
  rcases List.mem_append.mp member with allocation | gate
  · rcases List.mem_map.mp allocation with ⟨operation, -, rfl⟩
    cases tag
  · rcases (mem_insertGates parts.gates).mp gate with
      ⟨offset, call, calls, gateTag, inserted⟩
    rw [tag, Nat.zero_add, Option.some.injEq] at gateTag
    exact ⟨call, gateTag ▸ calls, inserted⟩

/-- An emission of the last part comes from a measurement of the map. -/
theorem Parts.isFirst_of_mem_measurements {program : Program A}
    {emissions : List (Emission A)} (parts : Parts program emissions)
    {emission : Emission A} {place : ℕ}
    (tag : emission.statement = some place)
    (member :
      emission ∈ (insertMeasurements parts.vectors parts.entries :
        Traced Fault (Emission A) Unit).trace) :
    ∃ entry, entry.statement = place ∧ IsFirst program entry := by
  rcases (mem_insertMeasurements parts.measurements).mp member with
    ⟨entry, inside, qubit, -, entryTag, -⟩
  rw [tag, Option.some.injEq] at entryTag
  exact ⟨entry, entryTag.symm, (parts.collects.member entry).mp inside⟩

/-- A measurement of the map gives a measurement in the kernel. -/
theorem Parts.exists_measurement {program : Program A}
    {emissions : List (Emission A)} (parts : Parts program emissions)
    {entry : Measurement} (first : IsFirst program entry) :
    ∃ qubit, ⟨some entry.statement, .leaf (.measure .mz [qubit])⟩ ∈
      (insertMeasurements parts.vectors parts.entries :
        Traced Fault (Emission A) Unit).trace := by
  have inside := (parts.collects.member entry).mpr first
  rcases insertMeasurements_ok_iff.mp parts.measurements entry inside with
    ⟨qubit, measures⟩
  refine ⟨qubit, ?_⟩
  rw [mem_insertMeasurements parts.measurements]
  exact ⟨entry, inside, qubit, measures, rfl, Or.inr rfl⟩

/-- An emission stems from a gate call or from a first measurement. -/
theorem Parts.origin {program : Program A}
    {emissions : List (Emission A)} (parts : Parts program emissions)
    {emission : Emission A} (member : emission ∈ emissions) {place : ℕ}
    (tag : emission.statement = some place) :
    (∃ call, program[place]? = some (.gateCall call) ∧
        emission.operation ∈ (insertGate call parts.vectors).trace) ∨
      ∃ statement, program[place]? = some (.assignment statement) ∧
        ∃ entry, entry.statement = place ∧ IsFirst program entry := by
  rw [parts.parts, List.mem_append] at member
  rcases member with gate | measurement
  · exact Or.inl (parts.statement_of_mem_gates tag gate)
  · rcases parts.isFirst_of_mem_measurements tag measurement with
      ⟨entry, rfl, first⟩
    rcases isAssignment_of_asked first.asked with ⟨statement, assigned⟩
    exact Or.inr ⟨statement, assigned, entry, rfl, first⟩

/-- What a call inserts is in the kernel. -/
theorem Parts.mem_of_inserted {program : Program A}
    {emissions : List (Emission A)} (parts : Parts program emissions)
    {place : ℕ} {call : GateCall A} {operation : Op A}
    (calls : program[place]? = some (.gateCall call))
    (inserted : operation ∈ (insertGate call parts.vectors).trace) :
    ⟨some place, operation⟩ ∈ emissions := by
  rw [parts.parts]
  apply List.mem_append_left _ (List.mem_append_right _ _)
  exact (mem_insertGates parts.gates).mpr
    ⟨place, call, calls, by rw [Nat.zero_add], inserted⟩

/-- A first measurement is in the kernel. -/
theorem Parts.mem_of_first {program : Program A}
    {emissions : List (Emission A)} (parts : Parts program emissions)
    {entry : Measurement} (first : IsFirst program entry) :
    ∃ qubit,
      ⟨some entry.statement, .leaf (.measure .mz [qubit])⟩ ∈
        emissions := by
  rcases parts.exists_measurement first with ⟨qubit, measurement⟩
  refine ⟨qubit, ?_⟩
  rw [parts.parts]
  exact List.mem_append_right _ measurement

/-! ## The order of gates and measurements -/

/-- The statement at a place measures a qubit of a register. -/
def MeasuresQubit (program : Program A) (place : ℕ) (register : String)
    (index : ℤ) : Prop :=
  ∃ statement, program[place]? = some (.assignment statement) ∧
    statement.expression =
      some (.declaration (some (.measure (some (register,
        some (.constant (.integer index)))))))

/-- The statement at a place calls a gate on a qubit of a register. -/
def CallsOnQubit (program : Program A) (place : ℕ) (call : GateCall A)
    (register : String) (index : ℤ) : Prop :=
  program[place]? = some (.gateCall call) ∧
    ∃ operand ∈ call.operands, operand.identifier = register ∧
      operand.expression = some (.constant (.integer index))

/-- A measurement operation. -/
def IsMeasurement (operation : Op A) : Prop :=
  ∃ qubit, operation.label = .measure .mz [qubit]

/--
For a measurement and a gate call on one qubit, the operation of the one
stands before a gate of the other exactly when its statement does.
-/
def KeepsOrder (program : Program A) (emissions : List (Emission A)) :
    Prop :=
  ∀ (measuring calling : ℕ) register index call,
    MeasuresQubit program measuring register index →
    CallsOnQubit program calling call register index →
    ∀ (i j : ℕ) (first second : Emission A),
      emissions[i]? = some first → emissions[j]? = some second →
      first.statement = some measuring → IsMeasurement first.operation →
      second.statement = some calling → IsGate second.operation →
        (i < j ↔ measuring < calling)

/--
If qubits are allocated, no call of a gate other than `id` follows a
measurement of one of its qubits that is the first with its classical
index.
-/
def NoGateAfterMeasurement (program : Program A) : Prop :=
  AllocatesQubits program →
    ∀ (measuring calling : ℕ) register index call,
      MeasuresQubit program measuring register index →
      CallsOnQubit program calling call register index →
      (∃ entry, entry.statement = measuring ∧ IsFirst program entry) →
      call.identifier ≠ "id" →
        ¬ measuring < calling

theorem le_of_notMem_left {Item : Type} {front back : List Item}
    {place : ℕ} {item : Item}
    (found : (front ++ back)[place]? = some item)
    (outside : item ∉ front) : front.length ≤ place := by
  by_contra inside
  rw [List.getElem?_append_left (not_le.mp inside)] at found
  exact outside (List.mem_of_getElem? found)

theorem lt_of_notMem_right {Item : Type} {front back : List Item}
    {place : ℕ} {item : Item}
    (found : (front ++ back)[place]? = some item)
    (outside : item ∉ back) : place < front.length := by
  by_contra beyond
  rw [List.getElem?_append_right (not_lt.mp beyond)] at found
  exact outside (List.mem_of_getElem? found)

/-- In the kernel every gate stands before every measurement. -/
theorem Parts.gate_before_measurement {program : Program A}
    {emissions : List (Emission A)} (parts : Parts program emissions)
    {measuring calling i j : ℕ} {statement : Assignment A}
    {call : GateCall A}
    (assigns : program[measuring]? = some (.assignment statement))
    (calls : program[calling]? = some (.gateCall call))
    {first second : Emission A}
    (atFirst : emissions[i]? = some first)
    (atSecond : emissions[j]? = some second)
    (firstTag : first.statement = some measuring)
    (secondTag : second.statement = some calling) : j < i := by
  rw [parts.parts] at atFirst atSecond
  have late := le_of_notMem_left atFirst (by
    intro member
    rcases parts.statement_of_mem_gates firstTag member with
      ⟨other, called, -⟩
    rw [assigns] at called
    cases called)
  have early := lt_of_notMem_right atSecond (by
    intro member
    rcases parts.isFirst_of_mem_measurements secondTag member with
      ⟨entry, place, first⟩
    rcases isAssignment_of_asked first.asked with ⟨other, assigned⟩
    rw [place, calls] at assigned
    cases assigned)
  omega

/--
The kernel of an accepted program keeps the order of gates and
measurements exactly when no gate follows a measurement of its qubit.
-/
theorem run_keepsOrder_iff {funcName : String}
    (kernelName : regexSearch funcName CUDAQ_PREFIX_FUNCTION = true)
    {program : Program A}
    (accepted :
      (runOnOperation funcName false program).outcome = .ok ()) :
    KeepsOrder program (runOnOperation funcName false program).trace ↔
      NoGateAfterMeasurement program := by
  rcases run_accepted kernelName accepted with
    ⟨noQubits, empty⟩ | ⟨allocates, ⟨parts⟩⟩
  · constructor
    · intro _ allocates
      exact (noQubits allocates).elim
    · rintro - _ _ _ _ _ - - i j first second atFirst
      rw [empty] at atFirst
      cases atFirst
  · constructor
    · rintro keeps - measuring calling register index call measures calls
        ⟨entry, rfl, isFirst⟩ named before
      rcases measures with ⟨statement, assigns, expression⟩
      rcases parts.mem_of_first isFirst with ⟨qubit, firstMember⟩
      rcases insertGate_emitsGate named parts.vectors ()
          (insertGates_returns parts.gates calls.1) with
        ⟨operation, inserted, isGate⟩
      have secondMember := parts.mem_of_inserted calls.1 inserted
      rcases List.mem_iff_getElem?.mp firstMember with ⟨i, atFirst⟩
      rcases List.mem_iff_getElem?.mp secondMember with ⟨j, atSecond⟩
      have ordered :=
        (keeps _ calling register index call
          ⟨statement, assigns, expression⟩ calls i j _ _ atFirst atSecond
          rfl ⟨qubit, rfl⟩ rfl isGate).mpr before
      have reversed :=
        parts.gate_before_measurement assigns calls.1 atFirst atSecond
          rfl rfl
      exact absurd ordered (not_lt.mpr reversed.le)
    · intro noGate measuring calling register index call measures calls
        i j first second atFirst atSecond firstTag _ secondTag isGate
      rcases measures with ⟨statement, assigns, expression⟩
      have reversed :=
        parts.gate_before_measurement assigns calls.1 atFirst atSecond
          firstTag secondTag
      have isFirst :
          ∃ entry, entry.statement = measuring ∧
            IsFirst program entry := by
        rcases parts.origin (List.mem_of_getElem? atFirst) firstTag with
          ⟨other, called, -⟩ | ⟨-, -, measured⟩
        · rw [assigns] at called
          cases called
        · exact measured
      have named : call.identifier ≠ "id" := by
        intro isId
        rcases parts.origin (List.mem_of_getElem? atSecond) secondTag with
          ⟨other, called, inserted⟩ | ⟨other, assigned, -⟩
        · rw [calls.1] at called
          cases called
          exact (insertGate_of_id isId parts.vectors).1 _ inserted isGate
        · rw [calls.1] at assigned
          cases assigned
      have notBefore :=
        noGate allocates measuring calling register index call
          ⟨statement, assigns, expression⟩ calls isFirst named
      exact iff_of_false (not_lt.mpr reversed.le) notBefore

section MeasuredFirst

/-- A name with the prefix of the kernels. -/
def someKernel : String := "__nvqpp__mlirgen__kernel"

/-- The declaration of a register `q` with one qubit. -/
def declareQubit : Statement ℚ :=
  .declaration
    ⟨.designated "qubit[1]" (some (.constant (.integer 1))), "q", none⟩

/-- The only qubit of the register. -/
def onlyOperand : GateOperand ℚ := ⟨"q", some (.constant (.integer 0))⟩

def callX : GateCall ℚ := ⟨"x", [], [], [onlyOperand]⟩

/-- A measurement followed by a gate on the measured qubit. -/
def measuredFirst : Program ℚ :=
  [declareQubit, (MeasureAssignment.mk "c" 0 "q" 0).statement,
    .gateCall callX]

theorem measuredFirst_accepted :
    (runOnOperation someKernel false measuredFirst).outcome = .ok () := rfl

/-- In the kernel the gate comes before the measurement. -/
theorem measuredFirst_reordered :
    (runOnOperation someKernel false measuredFirst).outcome = .ok () ∧
      ¬ KeepsOrder measuredFirst
        (runOnOperation someKernel false measuredFirst).trace := by
  refine ⟨measuredFirst_accepted, ?_⟩
  intro keeps
  have calls : CallsOnQubit measuredFirst 2 callX "q" 0 :=
    ⟨rfl, onlyOperand, List.mem_cons_self, rfl, rfl⟩
  have ordered :=
    keeps 1 2 "q" 0 callX ⟨_, rfl, rfl⟩ calls 4 2 _ _ rfl rfl rfl
      ⟨_, rfl⟩ rfl ⟨_, rfl⟩
  exact absurd (ordered.mpr (by decide)) (by decide)

/-- The criterion at the program that measures first. -/
theorem measuredFirst_keepsOrder_iff :
    KeepsOrder measuredFirst
        (runOnOperation someKernel false measuredFirst).trace ↔
      NoGateAfterMeasurement measuredFirst :=
  run_keepsOrder_iff rfl measuredFirst_accepted

end MeasuredFirst

/-! ## Statements that reach the kernel -/

/-- An initializer or right-hand side that measures. -/
def MeasuringExpression : Option (Expression A) → Prop
  | some (.declaration (some (.measure _))) => True
  | some (.measure _) => True
  | _ => False

mutual

/-- A statement that changes the quantum state or reads it out. -/
def ActsOnQubits : Statement A → Prop
  | .gateCall _ => True
  | .reset _ => True
  | .assignment statement => MeasuringExpression statement.expression
  | .declaration statement => MeasuringExpression statement.expression
  | .ifStatement _ thenStatements elseStatements =>
      SomeActsOnQubits thenStatements ∨ SomeActsOnQubits elseStatements
  | .barrier _ => False
  | .other _ => False

/-- A list of statements one of which acts on qubits. -/
def SomeActsOnQubits : List (Statement A) → Prop
  | [] => False
  | statement :: rest => ActsOnQubits statement ∨ SomeActsOnQubits rest

end

/-- Every statement that acts on qubits gives operations of the kernel. -/
def NothingIgnored (program : Program A) (emissions : List (Emission A)) :
    Prop :=
  ∀ (place : ℕ) statement, program[place]? = some statement →
    ActsOnQubits statement →
      ∃ emission ∈ emissions, emission.statement = some place

/--
A gate call that is not a bare `id`, or an assignment of a measurement of a
qubit by its index that is the first with its classical index.
-/
def Converted (program : Program A) (place : ℕ) : Statement A → Prop
  | .gateCall call =>
      ¬(call.identifier = "id" ∧ call.arguments = [] ∧ call.operands = [])
  | .assignment _ => ∃ entry, entry.statement = place ∧ IsFirst program entry
  | _ => False

/-- Qubits are allocated, and all statements that act on them are converted. -/
def OnlyConverted (program : Program A) : Prop :=
  ∀ (place : ℕ) statement, program[place]? = some statement →
    ActsOnQubits statement →
      AllocatesQubits program ∧ Converted program place statement

/-- A statement of an accepted program with qubits reaches the kernel. -/
theorem Parts.reaches_iff {program : Program A}
    {emissions : List (Emission A)} (parts : Parts program emissions)
    {place : ℕ} {statement : Statement A}
    (atPlace : program[place]? = some statement) :
    (∃ emission ∈ emissions, emission.statement = some place) ↔
      Converted program place statement := by
  constructor
  · rintro ⟨emission, member, tag⟩
    rcases parts.origin member tag with
      ⟨call, calls, inserted⟩ | ⟨assignment, assigned, first⟩
    · rw [atPlace, Option.some.injEq] at calls
      subst calls
      intro bare
      rw [(insertGate_trace_eq_nil_iff
        (insertGates_returns parts.gates atPlace)).mpr bare] at inserted
      cases inserted
    · rw [atPlace, Option.some.injEq] at assigned
      subst assigned
      exact first
  · intro converted
    cases statement with
    | gateCall call =>
        have returned := insertGates_returns parts.gates atPlace
        have nonempty :=
          mt (insertGate_trace_eq_nil_iff returned).mp converted
        rcases List.exists_mem_of_ne_nil _ nonempty with
          ⟨operation, inserted⟩
        exact ⟨_, parts.mem_of_inserted atPlace inserted, rfl⟩
    | assignment assignment =>
        rcases converted with ⟨entry, rfl, first⟩
        rcases parts.mem_of_first first with ⟨qubit, measurement⟩
        exact ⟨_, measurement, rfl⟩
    | _ => exact converted.elim

/--
If the conversion accepts a program, nothing that acts on qubits is ignored
exactly when all of it is converted.
-/
theorem run_nothingIgnored_iff {funcName : String}
    (kernelName : regexSearch funcName CUDAQ_PREFIX_FUNCTION = true)
    (program : Program A) :
    ((runOnOperation funcName false program).outcome = .ok () →
        NothingIgnored program
          (runOnOperation funcName false program).trace) ↔
      ((runOnOperation funcName false program).outcome = .ok () →
        OnlyConverted program) := by
  apply imp_congr_right
  intro accepted
  rcases run_accepted kernelName accepted with
    ⟨noQubits, empty⟩ | ⟨allocates, ⟨parts⟩⟩
  · rw [empty]
    constructor
    · intro nothing place statement atPlace acts
      rcases nothing place statement atPlace acts with
        ⟨emission, member, -⟩
      cases member
    · intro only place statement atPlace acts
      exact (noQubits (only place statement atPlace acts).1).elim
  · constructor
    · intro nothing place statement atPlace acts
      exact ⟨allocates, (parts.reaches_iff atPlace).mp
        (nothing place statement atPlace acts)⟩
    · intro only place statement atPlace acts
      exact (parts.reaches_iff atPlace).mpr
        (only place statement atPlace acts).2

section ResetIgnored

/-- A reset of the only qubit. -/
def resetOnly : Program ℚ :=
  [declareQubit, .reset onlyOperand]

/-- The program is accepted and its reset is ignored. -/
theorem resetOnly_ignored :
    ¬((runOnOperation someKernel false resetOnly).outcome = .ok () →
      NothingIgnored resetOnly
        (runOnOperation someKernel false resetOnly).trace) := by
  intro nothing
  rcases nothing rfl 1 _ rfl trivial with ⟨emission, member, tag⟩
  rcases List.mem_singleton.mp member with rfl
  cases tag

/-- The criterion at the program with the reset. -/
theorem resetOnly_nothingIgnored_iff :
    ((runOnOperation someKernel false resetOnly).outcome = .ok () →
        NothingIgnored resetOnly
          (runOnOperation someKernel false resetOnly).trace) ↔
      ((runOnOperation someKernel false resetOnly).outcome = .ok () →
        OnlyConverted resetOnly) :=
  run_nothingIgnored_iff rfl resetOnly

end ResetIgnored

end MQSSPasses.QASM.Conversion
