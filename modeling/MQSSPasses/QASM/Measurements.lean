import MQSSPasses.QASM.QASMToQuake

/-!
# Which measurements reach the kernel

The measurements of a program pass through a map whose key is the index of
the classical bit alone.  `Collects` characterizes the map after any part
of a program: it holds the measurements that are the first with their
index.  From this follows exactly which assignments get an operation in the
kernel, and on which qubit.
-/

namespace MQSSPasses.QASM.Measurements

open MQSSPasses.General.IntConversion
open MQSSPasses.General
open MQSSPasses.General.TracedComputation
open MQSSPasses.General.OperationTree
open MQSSPasses.Quake.Syntax
open MQSSPasses.Quake.Operations
open MQSSPasses.QASM.Syntax
open MQSSPasses.QASM.GatesMap
open MQSSPasses.QASM.QASMToQuake

variable {A : Type}

/-! ## The map of measurements -/

/-- The measurement the statement at a place asks for. -/
def measurementAt (program : Program A) (place : ℕ) :
    Option Measurement :=
  match program[place]? with
  | some (.assignment statement) =>
      match measurementOf place statement with
      | .ok found => found
      | .error _ => none
  | _ => none

/-- A measurement of a program that no earlier one has the index of. -/
structure IsFirst (program : Program A) (entry : Measurement) : Prop where
  asked : measurementAt program entry.statement = some entry
  fresh :
    ∀ earlier < entry.statement, ∀ other,
      measurementAt program earlier = some other →
        other.classicalIndex ≠ entry.classicalIndex

/-- The map holds the first measurement for each classical index. -/
structure Collects (program : Program A) (entries : List Measurement) :
    Prop where
  sorted : OrderedMap.Sorted Measurement.classicalIndex entries
  member : ∀ entry, entry ∈ entries ↔ IsFirst program entry

theorem measurementOf_statement {place : ℕ} {assignment : Assignment A}
    {entry : Measurement}
    (asked : measurementOf place assignment = .ok (some entry)) :
    entry.statement = place := by
  unfold measurementOf at asked
  split at asked
  next index _ =>
      rcases except_bind_eq_ok.mp asked with ⟨classicalIndex, -, asked⟩
      split at asked
      next =>
          rcases except_bind_eq_ok.mp asked with ⟨localQubit, -, asked⟩
          cases asked
          rfl
      next => cases asked
      next => cases asked
  next => cases asked

theorem measurementAt_statement {program : Program A} {place : ℕ}
    {entry : Measurement}
    (asked : measurementAt program place = some entry) :
    entry.statement = place := by
  unfold measurementAt at asked
  split at asked
  next statement _ =>
      cases found : measurementOf place statement with
      | error fault => simp [found] at asked
      | ok result =>
          simp only [found] at asked
          subst asked
          exact measurementOf_statement found
  next => cases asked

/-- A measurement of the map comes from an assignment. -/
theorem isAssignment_of_asked {program : Program A} {place : ℕ}
    {entry : Measurement}
    (asked : measurementAt program place = some entry) :
    ∃ statement, program[place]? = some (.assignment statement) := by
  unfold measurementAt at asked
  split at asked
  next statement found => exact ⟨statement, found⟩
  next => cases asked

theorem measurementAt_append_left {early late : Program A} {place : ℕ}
    (inside : place < early.length) :
    measurementAt (early ++ late) place = measurementAt early place := by
  rw [measurementAt, measurementAt, List.getElem?_append_left inside]

theorem measurementAt_of_length_le {program : Program A} {place : ℕ}
    (outside : program.length ≤ place) :
    measurementAt program place = none := by
  rw [measurementAt, List.getElem?_eq_none outside]

/-- The first measurement with an index is in the map. -/
theorem Collects.exists_key {program : Program A}
    {entries : List Measurement} (collects : Collects program entries)
    {place : ℕ} {other : Measurement}
    (asked : measurementAt program place = some other) :
    ∃ entry ∈ entries, entry.classicalIndex = other.classicalIndex := by
  have present :
      ∃ first found, measurementAt program first = some found ∧
        found.classicalIndex = other.classicalIndex :=
    ⟨place, other, asked, rfl⟩
  classical
  rcases Nat.find_spec present with ⟨found, atFirst, sameKey⟩
  refine ⟨found, (collects.member found).mpr ⟨?_, ?_⟩, sameKey⟩
  · rw [measurementAt_statement atFirst]
    exact atFirst
  · rw [measurementAt_statement atFirst]
    intro earlier before candidate asked equal
    exact Nat.find_min present before
      ⟨candidate, asked, equal.trans sameKey⟩

/-- A statement that asks for no measurement leaves the map as it is. -/
theorem Collects.skip {program : Program A} {entries : List Measurement}
    (collects : Collects program entries) {statement : Statement A}
    (nothing :
      measurementAt (program ++ [statement]) program.length = none) :
    Collects (program ++ [statement]) entries := by
  have unchanged (place : ℕ) :
      measurementAt (program ++ [statement]) place =
        measurementAt program place := by
    rcases lt_trichotomy place program.length with inside | rfl | outside
    · exact measurementAt_append_left inside
    · rw [nothing, measurementAt_of_length_le le_rfl]
    · rw [measurementAt_of_length_le outside.le,
        measurementAt_of_length_le (by simpa using Nat.succ_le_of_lt outside)]
  refine ⟨collects.sorted, ?_⟩
  intro entry
  rw [collects.member]
  constructor
  · rintro ⟨asked, fresh⟩
    exact ⟨by rw [unchanged, asked], by simpa only [unchanged] using fresh⟩
  · rintro ⟨asked, fresh⟩
    exact ⟨by rw [← unchanged, asked], by simpa only [unchanged] using fresh⟩

/-- A statement that asks for a measurement adds it if its index is new. -/
theorem Collects.emplace {program : Program A}
    {entries : List Measurement} (collects : Collects program entries)
    {statement : Statement A} {new : Measurement}
    (asked :
      measurementAt (program ++ [statement]) program.length = some new) :
    Collects (program ++ [statement]) (emplace new entries) := by
  have place := measurementAt_statement asked
  have before {earlier : ℕ} (inside : earlier < program.length) :
      measurementAt (program ++ [statement]) earlier =
        measurementAt program earlier :=
    measurementAt_append_left inside
  refine ⟨OrderedMap.emplace_sorted collects.sorted, ?_⟩
  intro entry
  rw [QASMToQuake.emplace, OrderedMap.mem_emplace collects.sorted]
  constructor
  · rintro (old | ⟨rfl, fresh⟩)
    · rcases (collects.member entry).mp old with ⟨atPlace, first⟩
      have inside : entry.statement < program.length := by
        by_contra outside
        rw [measurementAt_of_length_le (not_lt.mp outside)] at atPlace
        cases atPlace
      refine ⟨by rw [before inside, atPlace], ?_⟩
      intro earlier less other found
      exact first earlier less other
        (by rw [← before (less.trans inside), found])
    · refine ⟨by rw [place, asked], ?_⟩
      rw [place]
      intro earlier less other found
      rw [before less] at found
      rcases collects.exists_key found with ⟨member, inside, equal⟩
      exact equal ▸ fresh member inside
  · rintro ⟨atPlace, first⟩
    by_cases inside : entry.statement < program.length
    · left
      refine (collects.member entry).mpr ⟨by rw [← before inside, atPlace],
        ?_⟩
      intro earlier less other found
      exact first earlier less other
        (by rw [before (less.trans inside), found])
    · right
      have last : entry.statement = program.length := by
        by_contra other
        rw [measurementAt_of_length_le (by
          simp only [List.length_append, List.length_singleton]
          omega)] at atPlace
        cases atPlace
      rw [last, asked] at atPlace
      cases atPlace
      refine ⟨rfl, ?_⟩
      intro other member
      rcases (collects.member other).mp member with ⟨found, -⟩
      have earlier : other.statement < program.length := by
        by_contra outside
        rw [measurementAt_of_length_le (not_lt.mp outside)] at found
        cases found
      exact first other.statement (by rw [last]; exact earlier) other
        (by rw [before earlier, found])

/-- The loop over the statements keeps the characterization of the map. -/
theorem collectMeasurements_collects {done rest : Program A}
    {entries result : List Measurement}
    (collects : Collects done entries)
    (returned :
      collectMeasurements done.length entries rest = .ok result) :
    Collects (done ++ rest) result := by
  induction rest generalizing done entries with
  | nil =>
      cases returned
      simpa using collects
  | cons statement rest induction =>
      have further {next : List Measurement}
          (kept : Collects (done ++ [statement]) next)
          (returned :
            collectMeasurements (done.length + 1) next rest =
              .ok result) :
          Collects (done ++ statement :: rest) result := by
        have := induction kept (by simpa using returned)
        simpa using this
      have atPlace : (done ++ [statement])[done.length]? = some statement := by
        simp
      cases statement with
      | assignment assignment =>
          rcases except_bind_eq_ok.mp returned with
            ⟨found, asked, returned⟩
          cases found with
          | none =>
              apply further (collects.skip _) returned
              simp only [measurementAt, atPlace, asked]
          | some entry =>
              apply further (collects.emplace _) returned
              simp only [measurementAt, atPlace, asked]
      | _ =>
          apply further (collects.skip _) returned
          simp only [measurementAt, atPlace]

/-- The map of a whole program holds the first measurement for each index. -/
theorem collectMeasurements_correct {program : Program A}
    {entries : List Measurement}
    (returned : collectMeasurements 0 [] program = .ok entries) :
    Collects program entries := by
  have empty : Collects ([] : Program A) [] := by
    refine ⟨List.Pairwise.nil, ?_⟩
    intro entry
    constructor
    · intro member
      cases member
    · rintro ⟨asked, -⟩
      cases asked
  simpa using collectMeasurements_collects empty returned

/-! ## The inserted operations -/

/-- The qubit an entry of the map measures. -/
def entryQubit (vectors : QASMVectorToQuakeVector)
    (entry : Measurement) : Option QuantumValue :=
  (vectors.lookup entry.qVector).map fun value =>
    .extractRef value (.constant entry.qubit)

/-- The statement and the qubit of an inserted measurement. -/
def measuredQubit (emission : Emission A) : Option (ℕ × QuantumValue) :=
  match emission.statement, emission.operation.label with
  | some place, .measure .mz [qubit] => some (place, qubit)
  | _, _ => none

/-- The measurements among the inserted operations. -/
def measured (emissions : List (Emission A)) : List (ℕ × QuantumValue) :=
  emissions.filterMap measuredQubit

theorem measured_append (first second : List (Emission A)) :
    measured (first ++ second) = measured first ++ measured second :=
  List.filterMap_append

theorem insertMeasurement_eq {vectors : QASMVectorToQuakeVector}
    {entry : Measurement} {value : QuantumValue}
    (declared : vectors.lookup entry.qVector = some value) :
    (insertMeasurement vectors entry : Emit A Unit) =
      ⟨[.leaf (.extractRef (.extractRef value (.constant entry.qubit))),
          .leaf (.measure .mz
            [.extractRef value (.constant entry.qubit)])],
        .ok ()⟩ := by
  have found :
      (Traced.ofExcept (vectorAt vectors entry.qVector) :
        Emit A QuantumValue).outcome = .ok value := by
    simp [vectorAt, declared]
  rw [insertMeasurement, Traced.bind_of_ok found]
  rfl

theorem insertMeasurement_fails {vectors : QASMVectorToQuakeVector}
    {entry : Measurement}
    (undeclared : vectors.lookup entry.qVector = none) :
    (insertMeasurement vectors entry : Emit A Unit).outcome =
      .error .outOfRange := by
  have missing :
      (Traced.ofExcept (vectorAt vectors entry.qVector) :
        Emit A QuantumValue).outcome = .error .outOfRange := by
    simp [vectorAt, undeclared]
  rw [insertMeasurement, Traced.bind_of_error missing]

/-- The insertion succeeds when every register of the map is declared. -/
theorem insertMeasurements_ok_iff {vectors : QASMVectorToQuakeVector}
    {entries : List Measurement} :
    (insertMeasurements vectors entries :
        Traced Fault (Emission A) Unit).outcome = .ok () ↔
      ∀ entry ∈ entries, ∃ qubit, entryQubit vectors entry = some qubit := by
  induction entries with
  | nil => simp [insertMeasurements]
  | cons entry others induction =>
      rw [insertMeasurements]
      cases found : vectors.lookup entry.qVector with
      | none =>
          have failed :
              (insertMeasurement vectors entry : Emit A Unit).outcome =
                .error .outOfRange := insertMeasurement_fails found
          rw [← Traced.mapTrace_outcome (Emission.mk (some entry.statement))]
            at failed
          rw [Traced.bind_of_error failed]
          simp [entryQubit, found]
      | some value =>
          rw [insertMeasurement_eq found, Traced.bind_of_ok rfl]
          simp [induction, entryQubit, found]

/-- Every entry of the map gives one measurement of its qubit. -/
theorem insertMeasurements_measured {vectors : QASMVectorToQuakeVector}
    {entries : List Measurement}
    (returned :
      (insertMeasurements vectors entries :
        Traced Fault (Emission A) Unit).outcome = .ok ()) :
    measured (insertMeasurements vectors entries :
        Traced Fault (Emission A) Unit).trace =
      entries.filterMap fun entry =>
        (entryQubit vectors entry).map fun qubit =>
          (entry.statement, qubit) := by
  induction entries with
  | nil => rfl
  | cons entry others induction =>
      have declared := insertMeasurements_ok_iff.mp returned
      have rest :=
        induction (insertMeasurements_ok_iff.mpr fun other member =>
          declared other (List.mem_cons_of_mem entry member))
      cases found : vectors.lookup entry.qVector with
      | none =>
          rcases declared entry List.mem_cons_self with ⟨qubit, absurd⟩
          simp [entryQubit, found] at absurd
      | some value =>
          have here :
              entryQubit vectors entry =
                some (.extractRef value (.constant entry.qubit)) := by
            simp [entryQubit, found]
          rw [insertMeasurements, insertMeasurement_eq found,
            Traced.bind_of_ok rfl, measured_append, rest,
            List.filterMap_cons, here]
          rfl

/-- The operations inserted for the entries of the map. -/
theorem mem_insertMeasurements {vectors : QASMVectorToQuakeVector}
    {entries : List Measurement}
    (returned :
      (insertMeasurements vectors entries :
        Traced Fault (Emission A) Unit).outcome = .ok ())
    {emission : Emission A} :
    emission ∈ (insertMeasurements vectors entries :
        Traced Fault (Emission A) Unit).trace ↔
      ∃ entry ∈ entries, ∃ qubit, entryQubit vectors entry = some qubit ∧
        emission.statement = some entry.statement ∧
          (emission.operation = .leaf (.extractRef qubit) ∨
            emission.operation = .leaf (.measure .mz [qubit])) := by
  induction entries with
  | nil => simp [insertMeasurements]
  | cons entry others induction =>
      have declared := insertMeasurements_ok_iff.mp returned
      have rest :=
        induction (insertMeasurements_ok_iff.mpr fun other member =>
          declared other (List.mem_cons_of_mem entry member))
      cases found : vectors.lookup entry.qVector with
      | none =>
          rcases declared entry List.mem_cons_self with ⟨qubit, absurd⟩
          simp [entryQubit, found] at absurd
      | some value =>
          have here :
              entryQubit vectors entry =
                some (.extractRef value (.constant entry.qubit)) := by
            simp [entryQubit, found]
          rw [insertMeasurements, insertMeasurement_eq found,
            Traced.bind_of_ok rfl, List.mem_append, rest]
          rcases emission with ⟨statement, operation⟩
          simp [here, ← and_or_left]

/-- The entries of one statement are the entry of that statement, if any. -/
theorem filter_statement {program : Program A}
    {entries : List Measurement} (collects : Collects program entries)
    {place : ℕ} {entry : Measurement}
    (asked : measurementAt program place = some entry) :
    entries.filter (fun other => other.statement = place) =
      if entry ∈ entries then [entry] else [] := by
  have only {other : Measurement} (member : other ∈ entries)
      (same : other.statement = place) : other = entry := by
    have found := ((collects.member other).mp member).asked
    rw [same, asked, Option.some.injEq] at found
    exact found.symm
  have nodup : entries.Nodup :=
    collects.sorted.imp fun less equal => less.ne (by rw [equal])
  by_cases member : entry ∈ entries
  · rw [if_pos member]
    have equal :
        entries.filter (fun other => other.statement = place) =
          entries.filter (fun other => other = entry) := by
      apply List.filter_congr
      intro other inside
      simp only [decide_eq_decide]
      constructor
      · exact only inside
      · rintro rfl
        exact measurementAt_statement asked
    rw [equal, List.filter_eq, nodup.count, if_pos member]
    rfl
  · rw [if_neg member, List.filter_eq_nil_iff]
    intro other inside same
    have equal := only inside (by simpa using same)
    exact member (equal ▸ inside)

/-! ## One measurement for each assignment -/

/-- The assignment `register[index] = measure qVector[qubit]`. -/
structure MeasureAssignment where
  classicalRegister : String
  classicalIndex : ℤ
  qVector : String
  qubit : ℤ
  deriving DecidableEq, Repr

/-- The statement of an assignment of a measurement. -/
def MeasureAssignment.statement (assignment : MeasureAssignment) :
    Statement A :=
  .assignment
    ⟨assignment.classicalRegister,
      some (.constant (.integer assignment.classicalIndex)),
      some (.declaration (some (.measure (some (assignment.qVector,
        some (.constant (.integer assignment.qubit)))))))⟩

/-- The statement at a place is an assignment of a measurement. -/
def AssignsAt (program : Program A) (place : ℕ)
    (assignment : MeasureAssignment) : Prop :=
  program[place]? = some assignment.statement

/-- The map entry of an assignment at a place. -/
def MeasureAssignment.entry (assignment : MeasureAssignment)
    (place : ℕ) : Measurement :=
  ⟨toInt assignment.classicalIndex, assignment.qVector,
    toInt assignment.qubit, place⟩

/-- All assignments of a program assign measurements of declared qubits. -/
structure MeasuresDeclared (program : Program A)
    (vectors : QASMVectorToQuakeVector) : Prop where
  assignments :
    ∀ place (statement : Assignment A),
      program[place]? = some (.assignment statement) →
        ∃ assignment, AssignsAt program place assignment
  declared :
    ∀ place assignment, AssignsAt program place assignment →
        ∃ value, vectors.lookup assignment.qVector = some value

/--
The measurements inserted for the statement at a place are one, on the
qubit the assignment measures.
-/
def MeasuresOnce (vectors : QASMVectorToQuakeVector)
    (emissions : List (Emission A)) (place : ℕ)
    (assignment : MeasureAssignment) : Prop :=
  ∀ value, vectors.lookup assignment.qVector = some value →
    (measured emissions).filter (fun found => found.1 = place) =
      [(place, .extractRef value (.constant assignment.qubit))]

/--
The classical indices of different assignments differ as `int`s, and the
qubit indices are `int`s.
-/
structure DistinctIndices (program : Program A) : Prop where
  classical :
    ∀ first second one other,
      AssignsAt program first one → AssignsAt program second other →
      toInt one.classicalIndex = toInt other.classicalIndex →
        first = second
  quantum :
    ∀ place assignment, AssignsAt program place assignment →
      toInt assignment.qubit = assignment.qubit

theorem measurementAt_statement_eq {program : Program A} {place : ℕ}
    {assignment : MeasureAssignment}
    (assigns : AssignsAt program place assignment) :
    measurementAt program place = some (assignment.entry place) := by
  rw [measurementAt, assigns]
  rfl

/-- Every measurement of such a program is that of an assignment. -/
theorem MeasuresDeclared.exists_assignment {program : Program A}
    {vectors : QASMVectorToQuakeVector}
    (measures : MeasuresDeclared program vectors)
    {place : ℕ} {entry : Measurement}
    (asked : measurementAt program place = some entry) :
    ∃ assignment, AssignsAt program place assignment ∧
      entry = assignment.entry place := by
  rcases isAssignment_of_asked asked with ⟨statement, found⟩
  rcases measures.assignments place statement found with
    ⟨assignment, assigns⟩
  refine ⟨assignment, assigns, ?_⟩
  rw [measurementAt_statement_eq assigns, Option.some.injEq] at asked
  exact asked.symm

/-- Collecting the measurements of such a program succeeds. -/
theorem MeasuresDeclared.collects {program : Program A}
    {vectors : QASMVectorToQuakeVector}
    (measures : MeasuresDeclared program vectors) :
    ∃ entries, collectMeasurements 0 [] program = .ok entries := by
  have each (statement : Assignment A)
      (member : .assignment statement ∈ program) :
      ∃ assignment : MeasureAssignment,
        .assignment statement = (assignment.statement : Statement A) := by
    rcases List.mem_iff_getElem?.mp member with ⟨place, found⟩
    rcases measures.assignments place statement found with
      ⟨assignment, assigns⟩
    refine ⟨assignment, ?_⟩
    rw [AssignsAt, found, Option.some.injEq] at assigns
    exact assigns
  clear measures
  generalize 0 = place
  generalize ([] : List Measurement) = entries
  induction program generalizing place entries with
  | nil => exact ⟨entries, rfl⟩
  | cons statement rest induction =>
      have later := induction fun other member =>
        each other (List.mem_cons_of_mem statement member)
      cases statement with
      | assignment assignment =>
          rcases each assignment List.mem_cons_self with
            ⟨measuring, equal⟩
          cases equal
          exact later _ _
      | _ => exact later _ _

/--
The measurements inserted for a program: the conversion succeeds, and the
inserted ones are those of the map.
-/
theorem MeasuresDeclared.parse {program : Program A}
    {vectors : QASMVectorToQuakeVector}
    (measures : MeasuresDeclared program vectors) :
    (parseAndInsertMeasurements program vectors).outcome = .ok () ∧
      ∃ entries, Collects program entries ∧
        measured (parseAndInsertMeasurements program vectors).trace =
          entries.filterMap fun entry =>
            (entryQubit vectors entry).map fun qubit =>
              (entry.statement, qubit) := by
  rcases measures.collects with ⟨entries, collected⟩
  have correct := collectMeasurements_correct collected
  have inserted :
      (insertMeasurements vectors entries :
        Traced Fault (Emission A) Unit).outcome = .ok () := by
    rw [insertMeasurements_ok_iff]
    intro entry member
    rcases measures.exists_assignment ((correct.member entry).mp member).asked
      with ⟨assignment, assigns, equal⟩
    rcases measures.declared _ assignment assigns with ⟨value, declared⟩
    refine ⟨.extractRef value (.constant entry.qubit), ?_⟩
    have sameVector : entry.qVector = assignment.qVector := by
      rw [equal]
      rfl
    rw [entryQubit, sameVector, declared]
    rfl
  have read :
      (Traced.ofExcept (collectMeasurements 0 [] program) :
        Traced Fault (Emission A) _).outcome = .ok entries := collected
  rw [parseAndInsertMeasurements, Traced.bind_of_ok read]
  refine ⟨inserted, entries, correct, ?_⟩
  rw [Traced.ofExcept_trace, List.nil_append]
  exact insertMeasurements_measured inserted

/-- The measurements inserted for one statement. -/
theorem filter_measured {vectors : QASMVectorToQuakeVector}
    {entries : List Measurement} {place : ℕ} :
    (entries.filterMap fun entry =>
        (entryQubit vectors entry).map fun qubit =>
          (entry.statement, qubit)).filter (fun found => found.1 = place) =
      (entries.filter fun entry => entry.statement = place).filterMap
        fun entry =>
          (entryQubit vectors entry).map fun qubit =>
            (entry.statement, qubit) := by
  induction entries with
  | nil => rfl
  | cons entry others induction =>
      cases qubit : entryQubit vectors entry <;>
        by_cases same : entry.statement = place <;>
          simp [qubit, same, induction]

/-- The measurements inserted for the assignment at a place. -/
theorem filter_measured_of_assigns {program : Program A}
    {vectors : QASMVectorToQuakeVector} {entries : List Measurement}
    (collects : Collects program entries) {place : ℕ}
    {assignment : MeasureAssignment}
    (assigns : AssignsAt program place assignment) {value : QuantumValue}
    (declared : vectors.lookup assignment.qVector = some value) :
    (entries.filterMap fun entry =>
        (entryQubit vectors entry).map fun qubit =>
          (entry.statement, qubit)).filter (fun found => found.1 = place) =
      if assignment.entry place ∈ entries then
        [(place, .extractRef value (.constant (toInt assignment.qubit)))]
      else [] := by
  have qubit :
      entryQubit vectors (assignment.entry place) =
        some (.extractRef value (.constant (toInt assignment.qubit))) := by
    rw [entryQubit, MeasureAssignment.entry, declared]
    rfl
  rw [filter_measured,
    filter_statement collects (measurementAt_statement_eq assigns)]
  by_cases member : assignment.entry place ∈ entries
  · rw [if_pos member, if_pos member, List.filterMap_cons, qubit]
    rfl
  · rw [if_neg member, if_neg member]
    rfl

/--
The measurements inserted for a program: one for each assignment, on the
qubit it measures, and no others.
-/
structure MeasuresEach (program : Program A)
    (vectors : QASMVectorToQuakeVector) : Prop where
  returns : (parseAndInsertMeasurements program vectors).outcome = .ok ()
  once :
    ∀ place assignment, AssignsAt program place assignment →
      MeasuresOnce vectors
        (parseAndInsertMeasurements program vectors).trace
        place assignment
  only :
    ∀ found ∈
        measured (parseAndInsertMeasurements program vectors).trace,
      ∃ assignment, AssignsAt program found.1 assignment

/--
Each assignment of a measurement is inserted once and on its qubit exactly
when the indices of the classical bits are distinct and all indices are
`int`s.
-/
theorem measuresEach_iff {program : Program A}
    {vectors : QASMVectorToQuakeVector}
    (measures : MeasuresDeclared program vectors) :
    MeasuresEach program vectors ↔ DistinctIndices program := by
  rcases measures.parse with ⟨returns, entries, collects, inserted⟩
  constructor
  · intro each
    have recorded {place : ℕ} {assignment : MeasureAssignment}
        (assigns : AssignsAt program place assignment) :
        IsFirst program (assignment.entry place) ∧
          toInt assignment.qubit = assignment.qubit := by
      rcases measures.declared place assignment assigns with
        ⟨value, declared⟩
      have once := each.once place assignment assigns value declared
      rw [inserted, filter_measured_of_assigns collects assigns declared]
        at once
      by_cases member : assignment.entry place ∈ entries
      · rw [if_pos member] at once
        refine ⟨(collects.member _).mp member, ?_⟩
        simpa using once
      · rw [if_neg member] at once
        cases once
    refine ⟨?_, fun place assignment assigns => (recorded assigns).2⟩
    intro first second one other assignsOne assignsOther equal
    rcases lt_trichotomy first second with before | same | after
    · exact ((recorded assignsOther).1.fresh first before _
        (measurementAt_statement_eq assignsOne) equal).elim
    · exact same
    · exact ((recorded assignsOne).1.fresh second after _
        (measurementAt_statement_eq assignsOther) equal.symm).elim
  · intro distinct
    refine ⟨returns, ?_, ?_⟩
    · intro place assignment assigns value declared
      have first : IsFirst program (assignment.entry place) := by
        refine ⟨measurementAt_statement_eq assigns, ?_⟩
        intro earlier before other asked equal
        rcases measures.exists_assignment asked with
          ⟨otherAssignment, otherAssigns, rfl⟩
        exact before.ne (distinct.classical earlier place otherAssignment
          assignment otherAssigns assigns equal)
      rw [inserted, filter_measured_of_assigns collects assigns declared,
        if_pos ((collects.member _).mpr first),
        distinct.quantum place assignment assigns]
    · intro found member
      rw [inserted, List.mem_filterMap] at member
      rcases member with ⟨entry, inside, qubit⟩
      rcases Option.map_eq_some_iff.mp qubit with ⟨value, -, rfl⟩
      rcases measures.exists_assignment
          ((collects.member entry).mp inside).asked with
        ⟨assignment, assigns, -⟩
      exact ⟨assignment, assigns⟩

section TwoClassicalRegisters

/-- Two qubits measured into the first bits of two classical registers. -/
def twoClassicalRegisters : Program ℤ :=
  [(MeasureAssignment.mk "c" 0 "q" 0).statement,
    (MeasureAssignment.mk "d" 0 "q" 1).statement]

def twoQubits : QASMVectorToQuakeVector :=
  [("q", .veqAlloca 0 2)]

theorem assignsAt_injective {program : Program A} {place : ℕ}
    {first second : MeasureAssignment}
    (assignsFirst : AssignsAt program place first)
    (assignsSecond : AssignsAt program place second) : first = second := by
  rw [AssignsAt, assignsFirst] at assignsSecond
  cases first
  cases second
  simpa [MeasureAssignment.statement] using assignsSecond

theorem twoClassicalRegisters_declared :
    MeasuresDeclared twoClassicalRegisters twoQubits where
  assignments := by
    intro place statement found
    match place, found with
    | 0, _ => exact ⟨⟨"c", 0, "q", 0⟩, rfl⟩
    | 1, _ => exact ⟨⟨"d", 0, "q", 1⟩, rfl⟩
  declared := by
    intro place assignment assigns
    match place, assigns with
    | 0, assigns =>
        rw [assignsAt_injective assigns
          (show AssignsAt _ 0 ⟨"c", 0, "q", 0⟩ from rfl)]
        exact ⟨_, rfl⟩
    | 1, assigns =>
        rw [assignsAt_injective assigns
          (show AssignsAt _ 1 ⟨"d", 0, "q", 1⟩ from rfl)]
        exact ⟨_, rfl⟩

/-- The measurement of the second qubit is lost. -/
theorem twoClassicalRegisters_loses :
    ¬ MeasuresEach twoClassicalRegisters twoQubits := by
  intro each
  have once := each.once 1 ⟨"d", 0, "q", 1⟩ rfl _ rfl
  exact absurd once (by decide)

/-- The criterion at the program with two classical registers. -/
theorem twoClassicalRegisters_iff :
    MeasuresEach twoClassicalRegisters twoQubits ↔
      DistinctIndices twoClassicalRegisters :=
  measuresEach_iff twoClassicalRegisters_declared

end TwoClassicalRegisters

end MQSSPasses.QASM.Measurements
