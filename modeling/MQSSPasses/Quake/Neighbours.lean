import MQSSPasses.General.NearestNeighbours
import MQSSPasses.Quake.Operations

/-!
# The neighbours of an operation on a qubit

`getNextOperationOnTarget` is written out next to
`getPreviousOperationOnTarget`, with its own loops over the targets and the
controls of a gate.  Operations are identified with their places in the
block, and each function is a search for the nearest gate with an operand
that is read as the index of the qubit.

Two indices are read as one `int` when they differ by a multiple of
`2 ^ 32`.  The gates the searches find are those on the qubit exactly when
no gate of the block has such another index in the place of the qubit's.
-/

namespace MQSSPasses.Quake.Neighbours

open MQSSPasses.General.IntConversion
open MQSSPasses.General.TracedComputation
open MQSSPasses.General.NearestNeighbours
open MQSSPasses.Quake.Syntax
open MQSSPasses.Quake.Operations

variable {A : Type}

/-! ## The look-ahead -/

/--
Where a look-ahead stopped: the operations between the visited one and the
gate, the gate, the operand it matched and the operations above it.
-/
structure Ahead (A : Type) where
  between : Block A
  operation : Op A
  gate : Gate A
  named : QuantumValue
  upper : Block A

/--
The look-ahead over the operations after the visited one.  `passed` are the
operations gone past already.
-/
def lookAhead (targetQubit : QuantumValue) :
    Block A → Block A → Except Fault (Option (Ahead A))
  | [], _ => return none
  | operation :: upper, passed =>
      match asOperator operation with
      | none => lookAhead targetQubit upper (passed ++ [operation])
      | some gate => do
          let targetQCurr ← qubitIndex targetQubit
          match ← findIndex targetQCurr gate.targets with
          | some named =>
              return some ⟨passed, operation, gate, named, upper⟩
          | none =>
              match ← findIndex targetQCurr gate.controls with
              | some named =>
                  return some ⟨passed, operation, gate, named, upper⟩
              | none => lookAhead targetQubit upper (passed ++ [operation])

/--
The closest gate after the visited operation that has an operand with the
index of `targetQubit`.
-/
def getNextOperationOnTarget (after : Block A)
    (targetQubit : QuantumValue) : Except Fault (Option (Ahead A)) :=
  lookAhead targetQubit after []

/-- What has been found, seen from the other end of the block. -/
def mirror (found : Found A) : Ahead A :=
  ⟨found.between.reverse, found.operation, found.gate, found.named,
    found.lower.reverse⟩

theorem lookAhead_eq_lookBack (targetQubit : QuantumValue)
    (after passed : Block A) :
    lookAhead targetQubit after passed =
      (lookBack targetQubit after passed.reverse).map
        (Option.map mirror) := by
  induction after generalizing passed with
  | nil => rfl
  | cons operation upper induction =>
      have further := induction (passed ++ [operation])
      rw [List.reverse_append, List.reverse_singleton,
        List.singleton_append] at further
      cases isGate : asOperator operation with
      | none =>
          rw [lookBack_cons_of_other isGate, lookAhead, isGate]
          exact further
      | some gate =>
          rw [lookAhead, isGate, lookBack_cons_of_gate isGate]
          cases qubitIndex targetQubit with
          | error fault => rfl
          | ok index =>
              simp only [findIndex_append, bind, Except.bind]
              cases findIndex index gate.targets with
              | error fault => rfl
              | ok target =>
                  cases target with
                  | some named =>
                      simp [mirror, pure, Except.pure, Except.map]
                  | none =>
                      cases findIndex index gate.controls with
                      | error fault => rfl
                      | ok control =>
                          cases control with
                          | some named =>
                              simp [mirror, pure, Except.pure, Except.map]
                          | none => exact further

/-- The next operation is the previous one of the reversed block. -/
theorem getNextOperationOnTarget_eq (after : Block A)
    (targetQubit : QuantumValue) :
    getNextOperationOnTarget after targetQubit =
      (getPreviousOperationOnTarget after.reverse targetQubit).map
        (Option.map mirror) := by
  rw [getNextOperationOnTarget, getPreviousOperationOnTarget,
    List.reverse_reverse]
  exact lookAhead_eq_lookBack targetQubit after []

/-! ## Operations as places of a block -/

/-- The previous operation of the one at a place. -/
def previousPlace (block : Block A) (targetQubit : QuantumValue)
    (place : ℕ) : Except Fault (Option ℕ) := do
  let found ←
    getPreviousOperationOnTarget (block.take place) targetQubit
  return found.map fun found => found.lower.length

/-- The next operation of the one at a place. -/
def nextPlace (block : Block A) (targetQubit : QuantumValue)
    (place : ℕ) : Except Fault (Option ℕ) := do
  let found ←
    getNextOperationOnTarget (block.drop (place + 1)) targetQubit
  return found.map fun found => place + 1 + found.between.length

/-- The qubit of a register with a constant index. -/
abbrev qubitAt (veq : QuantumValue) (index : ℤ) : QuantumValue :=
  .extractRef veq (.constant index)

/-- The gates of the block act on qubits of one register by constants. -/
def OverVeq (veq : QuantumValue) (block : Block A) : Prop :=
  ∀ operation ∈ block, ∀ gate, asOperator operation = some gate →
    ∀ operand ∈ gate.qubits, ∃ index, operand = qubitAt veq index

/-- A gate with the qubit among its targets or controls. -/
def Touches (qubit : QuantumValue) (operation : Op A) : Prop :=
  ∃ gate, asOperator operation = some gate ∧ qubit ∈ gate.qubits

instance (qubit : QuantumValue) (operation : Op A) :
    Decidable (Touches qubit operation) :=
  match isGate : asOperator operation with
  | none => .isFalse (by simp [Touches, isGate])
  | some gate =>
      decidable_of_iff (qubit ∈ gate.qubits) (by simp [Touches, isGate])

/-- A place of the block with a gate on the qubit. -/
def TouchedAt (block : Block A) (qubit : QuantumValue) (place : ℕ) :
    Prop :=
  ∃ operation, block[place]? = some operation ∧ Touches qubit operation

/-- The places of the gates on a qubit, in program order. -/
def touchedPlaces (block : Block A) (qubit : QuantumValue) : List ℕ :=
  (List.range block.length).filter fun place =>
    (block[place]?).any fun operation => decide (Touches qubit operation)

/-- A gate with an operand that is read as the index of the qubit. -/
def Named (qubit : QuantumValue) (operation : Op A) : Prop :=
  ∃ gate, asOperator operation = some gate ∧
    ∃ operand ∈ gate.qubits, qubitIndex operand = qubitIndex qubit

/-- A place of the block with such a gate. -/
def NamedAt (block : Block A) (qubit : QuantumValue) (place : ℕ) : Prop :=
  ∃ operation, block[place]? = some operation ∧ Named qubit operation

/-! ## The searches find the nearest gates -/

section Search

variable {veq : QuantumValue} {block : Block A}

theorem OverVeq.of_subset (uniform : OverVeq veq block) {part : Block A}
    (subset : ∀ operation ∈ part, operation ∈ block) :
    OverVeq veq part :=
  fun operation member => uniform operation (subset operation member)

theorem hidden_iff_not_named {qubit : QuantumValue} {operation : Op A} :
    Hidden qubit operation ↔ ¬ Named qubit operation := by
  constructor
  · rintro hidden ⟨gate, isGate, operand, inside, same⟩
    exact hidden gate isGate operand inside same
  · intro unnamed gate isGate operand inside same
    exact unnamed ⟨gate, isGate, operand, inside, same⟩

/-- Over one register the look-back never fails. -/
theorem OverVeq.returns (uniform : OverVeq veq block) (index : ℤ) :
    ∃ result,
      getPreviousOperationOnTarget block (qubitAt veq index) =
        .ok result := by
  refine getPreviousOperationOnTarget_returns ⟨toInt index, rfl⟩ ?_
  intro operation member gate isGate operand inside
  rcases uniform operation member gate isGate operand inside with
    ⟨other, rfl⟩
  exact ⟨toInt other, rfl⟩

/-- What the look-back finds names the index. -/
theorem named_of_correct {qubit : QuantumValue} {found : Found A}
    (correct : found.Correct block qubit) :
    Named qubit found.operation :=
  ⟨found.gate, correct.isGate, found.named, correct.operand,
    correct.sameIndex⟩

/-- What the look-back passes over does not name the index. -/
theorem unnamed_of_hidden {qubit : QuantumValue} {part : Block A}
    (hidden : ∀ operation ∈ part, Hidden qubit operation)
    {place : ℕ} {operation : Op A}
    (located : part[place]? = some operation) :
    ¬ Named qubit operation :=
  hidden_iff_not_named.mp
    (hidden operation (List.mem_of_getElem? located))

theorem previousPlace_nearest (uniform : OverVeq veq block) (index : ℤ)
    (place : ℕ) :
    ∃ answer,
      previousPlace block (qubitAt veq index) place = .ok answer ∧
        Nearest (· > ·) (NamedAt block (qubitAt veq index)) place
          answer := by
  have overBefore : OverVeq veq (block.take place) :=
    uniform.of_subset fun _ => List.mem_of_mem_take
  rcases overBefore.returns index with ⟨result, returned⟩
  refine ⟨result.map fun found => found.lower.length, ?_, ?_⟩
  · rw [previousPlace, returned]
    rfl
  cases result with
  | none =>
      have hidden := getPreviousOperationOnTarget_none returned
      rintro other before ⟨operation, located, named⟩
      rw [← List.getElem?_take_of_lt before] at located
      exact unnamed_of_hidden hidden located named
  | some found =>
      have correct := getPreviousOperationOnTarget_correct returned
      have position := correct.position
      have within : found.lower.length < place := by
        have lengths := congrArg List.length position
        simp only [List.length_take, List.length_append,
          List.length_cons] at lengths
        omega
      simp only [Option.map_some]
      refine ⟨within, ⟨found.operation, ?_, named_of_correct correct⟩, ?_⟩
      · rw [← List.getElem?_take_of_lt within, position]
        simp
      · rintro other before after ⟨operation, located, named⟩
        rw [← List.getElem?_take_of_lt before, position,
          List.getElem?_append_right (Nat.le_of_lt after)] at located
        obtain ⟨offset, split⟩ : ∃ offset,
            other - found.lower.length = offset + 1 :=
          ⟨other - found.lower.length - 1, by omega⟩
        rw [split, List.getElem?_cons_succ] at located
        exact unnamed_of_hidden correct.passed located named

theorem nextPlace_nearest (uniform : OverVeq veq block) (index : ℤ)
    (place : ℕ) :
    ∃ answer,
      nextPlace block (qubitAt veq index) place = .ok answer ∧
        Nearest (· < ·) (NamedAt block (qubitAt veq index)) place
          answer := by
  have overAfter : OverVeq veq (block.drop (place + 1)).reverse :=
    uniform.of_subset fun _ member =>
      List.mem_of_mem_drop (List.mem_reverse.mp member)
  have later : ∀ other, place < other →
      (block.drop (place + 1))[other - (place + 1)]? = block[other]? := by
    intro other after
    rw [List.getElem?_drop]
    congr 1
    omega
  rcases overAfter.returns index with ⟨result, returned⟩
  refine ⟨result.map fun found => place + 1 + found.between.length,
    ?_, ?_⟩
  · rw [nextPlace, getNextOperationOnTarget_eq, returned]
    cases result <;> simp [Except.map, mirror, pure, Except.pure, bind,
      Except.bind]
  cases result with
  | none =>
      have hidden := getPreviousOperationOnTarget_none returned
      rintro other after ⟨operation, located, named⟩
      rw [← later other after] at located
      exact unnamed_of_hidden
        (fun operation member =>
          hidden operation (List.mem_reverse.mpr member))
        located named
  | some found =>
      have correct := getPreviousOperationOnTarget_correct returned
      have position := congrArg List.reverse correct.position
      rw [List.reverse_reverse, List.reverse_append, List.reverse_cons,
        List.append_assoc, List.singleton_append] at position
      simp only [Option.map_some]
      refine ⟨by omega, ⟨found.operation, ?_, named_of_correct correct⟩,
        ?_⟩
      · rw [← later _ (by omega), position]
        rw [show place + 1 + found.between.length - (place + 1) =
          found.between.reverse.length by simp]
        simp
      · rintro other after before ⟨operation, located, named⟩
        rw [← later other after, position, List.getElem?_append_left
          (by rw [List.length_reverse]; omega)] at located
        exact unnamed_of_hidden
          (fun passed member =>
            correct.passed passed (List.mem_reverse.mp member))
          located named

/-- The searches at a place have no other answer. -/
theorem previousPlace_iff (uniform : OverVeq veq block) (index : ℤ)
    (place : ℕ) (answer : Option ℕ) :
    previousPlace block (qubitAt veq index) place = .ok answer ↔
      Nearest (· > ·) (NamedAt block (qubitAt veq index)) place
        answer := by
  rcases previousPlace_nearest uniform index place with
    ⟨given, returned, nearest⟩
  rw [returned, Except.ok.injEq]
  constructor
  · rintro rfl
    exact nearest
  · exact nearest.unique

theorem nextPlace_iff (uniform : OverVeq veq block) (index : ℤ)
    (place : ℕ) (answer : Option ℕ) :
    nextPlace block (qubitAt veq index) place = .ok answer ↔
      Nearest (· < ·) (NamedAt block (qubitAt veq index)) place
        answer := by
  rcases nextPlace_nearest uniform index place with
    ⟨given, returned, nearest⟩
  rw [returned, Except.ok.injEq]
  constructor
  · rintro rfl
    exact nearest
  · exact nearest.unique

/-! ### Indices that are read as the qubit's -/

/--
No gate of the block has, in the place of the qubit, another one whose index
is congruent to the index of the qubit.
-/
def ReadApart (veq : QuantumValue) (block : Block A) (index : ℤ) : Prop :=
  ∀ operation ∈ block, ∀ gate, asOperator operation = some gate →
    ∀ other, qubitAt veq other ∈ gate.qubits →
      other ≡ index [ZMOD intRange] → qubitAt veq index ∈ gate.qubits

/-- Then the gates with the index are those on the qubit. -/
theorem readApart_iff (uniform : OverVeq veq block) (index : ℤ) :
    ReadApart veq block index ↔
      ∀ place, NamedAt block (qubitAt veq index) place ↔
        TouchedAt block (qubitAt veq index) place := by
  constructor
  · intro apart place
    refine exists_congr fun operation => and_congr_right fun located => ?_
    refine exists_congr fun gate => and_congr_right fun isGate => ?_
    have member := List.mem_of_getElem? located
    constructor
    · rintro ⟨operand, inside, same⟩
      rcases uniform operation member gate isGate operand inside with
        ⟨other, rfl⟩
      exact apart operation member gate isGate other inside
        (toInt_eq_iff.mp (Except.ok.inj same))
    · intro inside
      exact ⟨_, inside, rfl⟩
  · intro same operation member gate isGate other inside congruent
    rcases List.getElem?_of_mem member with ⟨place, located⟩
    have named : NamedAt block (qubitAt veq index) place :=
      ⟨operation, located, gate, isGate, qubitAt veq other, inside,
        congrArg Except.ok (toInt_eq_iff.mpr congruent)⟩
    rcases (same place).mp named with
      ⟨_, alsoLocated, otherGate, alsoGate, touched⟩
    rw [located, Option.some.injEq] at alsoLocated
    subst alsoLocated
    rw [isGate, Option.some.injEq] at alsoGate
    subst alsoGate
    exact touched

end Search

/-! ## Repeating a search -/

theorem mem_touchedPlaces {block : Block A} {qubit : QuantumValue}
    {place : ℕ} :
    place ∈ touchedPlaces block qubit ↔ TouchedAt block qubit place := by
  rw [touchedPlaces, List.mem_filter, List.mem_range, TouchedAt]
  constructor
  · rintro ⟨within, touched⟩
    rw [List.getElem?_eq_getElem within] at touched
    refine ⟨block[place], List.getElem?_eq_getElem within, ?_⟩
    simpa using touched
  · rintro ⟨operation, located, touched⟩
    refine ⟨(List.getElem?_eq_some_iff.mp located).1, ?_⟩
    rw [located]
    simpa using touched

theorem touchedPlaces_sorted (block : Block A) (qubit : QuantumValue) :
    (touchedPlaces block qubit).Pairwise (· < ·) :=
  List.pairwise_lt_range.filter _

/-- The operations a pass reaches with one of the searches. -/
def Reaches (search : ℕ → Except Fault (Option ℕ)) :
    ℕ → List ℕ → Prop :=
  Visits fun start answer => search start = .ok answer

section Repeated

variable {veq : QuantumValue} {block : Block A} {index : ℤ}

theorem nextPlace_reaches (uniform : OverVeq veq block)
    (apart : ReadApart veq block index) (place : ℕ) :
    Reaches (nextPlace block (qubitAt veq index)) place
      ((touchedPlaces block (qubitAt veq index)).filter
        (place < ·)) := by
  refine Visits.mono (fun start answer =>
    (nextPlace_iff uniform index start answer).mpr)
    (visits_of_sorted ((touchedPlaces_sorted _ _).filter _) ?_)
  intro other
  rw [List.mem_filter, mem_touchedPlaces, decide_eq_true_eq,
    (readApart_iff uniform index).mp apart]

theorem previousPlace_reaches (uniform : OverVeq veq block)
    (apart : ReadApart veq block index) (place : ℕ) :
    Reaches (previousPlace block (qubitAt veq index)) place
      ((touchedPlaces block (qubitAt veq index)).filter
        (· < place)).reverse := by
  refine Visits.mono (fun start answer =>
    (previousPlace_iff uniform index start answer).mpr)
    (visits_of_sorted (List.pairwise_reverse.mpr
      ((touchedPlaces_sorted _ _).filter _)) ?_)
  intro other
  rw [List.mem_reverse, List.mem_filter, mem_touchedPlaces,
    decide_eq_true_eq, gt_iff_lt, (readApart_iff uniform index).mp apart]

end Repeated

/-- From the first operation on, every gate on the qubit is reached. -/
theorem touchedPlaces_from_first (block : Block A)
    (qubit : QuantumValue) :
    (touchedPlaces block qubit).filter (· = 0) ++
        (touchedPlaces block qubit).filter (0 < ·) =
      touchedPlaces block qubit := by
  have cut := filter_append_filter_not
    (touchedPlaces_sorted block qubit) (fun place => decide (place = 0))
    (fun before isFirst => by simp at before isFirst ⊢; omega)
  have late : (fun place => decide (0 < place)) =
      fun place => !decide (place = 0) := by
    funext place
    simp [Nat.pos_iff_ne_zero]
  rw [late]
  exact cut

/-- From the last operation back, every gate on the qubit is reached. -/
theorem touchedPlaces_from_last (block : Block A)
    (qubit : QuantumValue) :
    (touchedPlaces block qubit).filter (· < block.length - 1) ++
        (touchedPlaces block qubit).filter (· = block.length - 1) =
      touchedPlaces block qubit := by
  have cut := filter_append_filter_not
    (touchedPlaces_sorted block qubit)
    (fun place => decide (place < block.length - 1))
    (fun before isEarly => by simp at before isEarly ⊢; omega)
  have late : ∀ place ∈ touchedPlaces block qubit,
      decide (place = block.length - 1) =
        !decide (place < block.length - 1) := by
    intro place member
    have within := List.mem_range.mp (List.mem_filter.mp member).1
    rw [← decide_not, decide_eq_decide]
    omega
  rw [List.filter_congr late]
  exact cut

/--
The two functions find the nearest gates on a qubit, they are inverse to
each other on these gates, and from an end of the block each enumerates
them once, in program order.
-/
structure EnumeratesGatesOn (block : Block A) (qubit : QuantumValue) :
    Prop where
  previous :
    ∀ place, ∃ answer,
      previousPlace block qubit place = .ok answer ∧
        Nearest (· > ·) (TouchedAt block qubit) place answer
  next :
    ∀ place, ∃ answer,
      nextPlace block qubit place = .ok answer ∧
        Nearest (· < ·) (TouchedAt block qubit) place answer
  nextOfPrevious :
    ∀ first second, TouchedAt block qubit second →
      previousPlace block qubit second = .ok (some first) →
        nextPlace block qubit first = .ok (some second)
  previousOfNext :
    ∀ first second, TouchedAt block qubit first →
      nextPlace block qubit first = .ok (some second) →
        previousPlace block qubit second = .ok (some first)
  upward :
    ∃ places,
      Reaches (nextPlace block qubit) 0 places ∧
        (touchedPlaces block qubit).filter (· = 0) ++ places =
          touchedPlaces block qubit
  downward :
    ∃ places,
      Reaches (previousPlace block qubit) (block.length - 1) places ∧
        places.reverse ++
            (touchedPlaces block qubit).filter
              (· = block.length - 1) =
          touchedPlaces block qubit
  listed :
    (touchedPlaces block qubit).Pairwise (· < ·) ∧
      ∀ place, place ∈ touchedPlaces block qubit ↔
        TouchedAt block qubit place

/-- If every search back finds a gate on the qubit, all such gates are. -/
theorem touchedAt_of_previous {veq : QuantumValue} {block : Block A}
    (uniform : OverVeq veq block) {index : ℤ} {place : ℕ}
    (previous :
      ∃ answer,
        previousPlace block (qubitAt veq index) (place + 1) =
            .ok answer ∧
          Nearest (· > ·) (TouchedAt block (qubitAt veq index))
            (place + 1) answer)
    (named : NamedAt block (qubitAt veq index) place) :
    TouchedAt block (qubitAt veq index) place := by
  rcases previous with ⟨answer, returned, nearest⟩
  have here :
      Nearest (· > ·) (NamedAt block (qubitAt veq index)) (place + 1)
        (some place) :=
    ⟨Nat.lt_succ_self place, named, by omega⟩
  have only :=
    ((previousPlace_iff uniform index _ _).mp returned).unique here
  subst only
  exact nearest.2.1

/--
Over one register the two functions enumerate the gates on a qubit exactly
if the indices of the block are read apart from the one of the qubit.
-/
theorem neighbours_enumerate_iff (veq : QuantumValue) (block : Block A)
    (uniform : OverVeq veq block) (index : ℤ) :
    EnumeratesGatesOn block (qubitAt veq index) ↔
      ReadApart veq block index := by
  constructor
  · intro enumerates
    refine (readApart_iff uniform index).mpr fun place => ⟨?_, ?_⟩
    · exact touchedAt_of_previous uniform (enumerates.previous (place + 1))
    · rintro ⟨operation, located, gate, isGate, inside⟩
      exact ⟨operation, located, gate, isGate, _, inside, rfl⟩
  · intro apart
    have same :
        NamedAt block (qubitAt veq index) =
          TouchedAt block (qubitAt veq index) :=
      funext fun place =>
        propext ((readApart_iff uniform index).mp apart place)
    have previous (place : ℕ) :=
      same ▸ previousPlace_nearest uniform index place
    have next (place : ℕ) := same ▸ nextPlace_nearest uniform index place
    refine
      { previous := previous
        next := next
        nextOfPrevious := ?_
        previousOfNext := ?_
        upward :=
          ⟨_, nextPlace_reaches uniform apart 0,
            touchedPlaces_from_first block _⟩
        downward := ?_
        listed :=
          ⟨touchedPlaces_sorted block _, fun _ => mem_touchedPlaces⟩ }
    · intro first second touched found
      have nearest := (previousPlace_iff uniform index _ _).mp found
      rw [← same] at touched
      exact (nextPlace_iff uniform index _ _).mpr (nearest.flip touched)
    · intro first second touched found
      have nearest := (nextPlace_iff uniform index _ _).mp found
      rw [← same] at touched
      exact (previousPlace_iff uniform index _ _).mpr
        (nearest.flip touched)
    · refine ⟨_, previousPlace_reaches uniform apart _, ?_⟩
      rw [List.reverse_reverse]
      exact touchedPlaces_from_last block _

/-- In a register that an `int` can index, all qubits are read apart. -/
theorem readApart_of_indexed {veq : QuantumValue} {block : Block A}
    {index : ℤ}
    (inside :
      ∀ operation ∈ block, ∀ gate, asOperator operation = some gate →
        ∀ other, qubitAt veq other ∈ gate.qubits →
          0 ≤ other ∧ other < intRange)
    (indexed : 0 ≤ index ∧ index < intRange) :
    ReadApart veq block index := by
  intro operation member gate isGate other operand congruent
  have bounds := inside operation member gate isGate other operand
  have same : other = index := by
    rw [Int.ModEq, Int.emod_eq_of_lt bounds.1 bounds.2,
      Int.emod_eq_of_lt indexed.1 indexed.2] at congruent
    exact congruent
  rw [← same]
  exact operand

/-! ### Two blocks -/

/-- A Bell pair with a gate on each qubit. -/
def bellWithGates (veq : QuantumValue) : Block ℤ :=
  [.leaf (.alloca veq),
    (Gate.create .h false [] [] [qubitAt veq 0]).op,
    (Gate.create .x false [] [qubitAt veq 0] [qubitAt veq 1]).op,
    (Gate.create .z false [] [] [qubitAt veq 1]).op]

/-- What holds of the indices of gates in a list holds of its operands. -/
theorem overVeq_of_indices {veq : QuantumValue} {block : Block A}
    {holds : ℤ → Prop}
    (each :
      ∀ operation ∈ block, ∀ gate, asOperator operation = some gate →
        ∀ operand ∈ gate.qubits, ∃ index,
          operand = qubitAt veq index ∧ holds index) :
    OverVeq veq block ∧
      ∀ operation ∈ block, ∀ gate, asOperator operation = some gate →
        ∀ other, qubitAt veq other ∈ gate.qubits → holds other := by
  constructor
  · intro operation member gate isGate operand inside
    rcases each operation member gate isGate operand inside with
      ⟨index, same, -⟩
    exact ⟨index, same⟩
  · intro operation member gate isGate other inside
    rcases each operation member gate isGate _ inside with
      ⟨index, same, holds⟩
    cases same
    exact holds

theorem bellWithGates_indices (veq : QuantumValue) :
    ∀ operation ∈ bellWithGates veq, ∀ gate,
      asOperator operation = some gate →
        ∀ operand ∈ gate.qubits, ∃ index,
          operand = qubitAt veq index ∧ 0 ≤ index ∧ index < intRange := by
  have zero : ∃ index, qubitAt veq 0 = qubitAt veq index ∧ 0 ≤ index ∧
      index < intRange := ⟨0, rfl, by decide⟩
  have one : ∃ index, qubitAt veq 1 = qubitAt veq index ∧ 0 ≤ index ∧
      index < intRange := ⟨1, rfl, by decide⟩
  intro operation member gate isGate operand inside
  simp only [bellWithGates, List.mem_cons, List.not_mem_nil,
    or_false] at member
  rcases member with rfl | rfl | rfl | rfl
  · cases isGate
  · cases isGate
    exact List.mem_singleton.mp inside ▸ zero
  · cases isGate
    rcases List.mem_cons.mp inside with control | target
    · exact control ▸ zero
    · exact List.mem_singleton.mp target ▸ one
  · cases isGate
    exact List.mem_singleton.mp inside ▸ one

theorem neighbours_enumerate_bellWithGates :
    EnumeratesGatesOn (bellWithGates (.veqAlloca 0 2))
      (qubitAt (.veqAlloca 0 2) 1) := by
  rcases overVeq_of_indices (bellWithGates_indices (.veqAlloca 0 2)) with
    ⟨uniform, inside⟩
  exact (neighbours_enumerate_iff _ _ uniform 1).mpr
    (readApart_of_indexed inside (by decide))

/-- Gates on two qubits whose indices are read as one `int`. -/
def farApart : Block ℤ :=
  [(Gate.create .x false [] []
      [qubitAt (.veqAlloca 0 4294967297) 4294967296]).op,
    (Gate.create .h false [] [] [qubitAt (.veqAlloca 0 4294967297) 0]).op]

/-- The look-back from the second gate finds the gate on another qubit. -/
theorem farApart_not_enumerated :
    OverVeq (.veqAlloca 0 4294967297) farApart ∧
      previousPlace farApart (qubitAt (.veqAlloca 0 4294967297) 0) 1 =
        .ok (some 0) ∧
      ¬ EnumeratesGatesOn farApart
        (qubitAt (.veqAlloca 0 4294967297) 0) := by
  have found :
      previousPlace farApart (qubitAt (.veqAlloca 0 4294967297) 0) 1 =
        .ok (some 0) := by
    rfl
  refine ⟨?_, found, fun enumerates => ?_⟩
  · intro operation member gate isGate operand inside
    simp only [farApart, List.mem_cons, List.not_mem_nil,
      or_false] at member
    rcases member with rfl | rfl
    · cases isGate
      exact ⟨4294967296, List.mem_singleton.mp inside⟩
    · cases isGate
      exact ⟨0, List.mem_singleton.mp inside⟩
  · rcases enumerates.previous 1 with ⟨answer, returned, nearest⟩
    rw [found, Except.ok.injEq] at returned
    subst returned
    rcases nearest.2.1 with ⟨operation, located, touched⟩
    cases located
    exact absurd touched (by decide)

end MQSSPasses.Quake.Neighbours
