import MQSSPasses.General.OrderedMap
import MQSSPasses.Quake.Operations

/-!
# Counting classical bits

`getNumberOfClassicalBits` counts the bits of the measurements of a kernel
and fills a map from qubits to bits.  A qubit is given by its index, which
for a reference is read as an `int`.  A measured reference takes the next
bit.  A measured register adds its size to the
count and then maps every index below the count to itself, whatever was
measured before.

The size in the type of a register argument is a parameter.
-/

namespace MQSSPasses.Quake.ClassicalBits

open MQSSPasses.General.IntConversion
open MQSSPasses.General.TracedComputation
open MQSSPasses.General.OperationTree
open MQSSPasses.General.OrderedMap
open MQSSPasses.Quake.Syntax
open MQSSPasses.Quake.Operations

variable {A : Type}

/-! ## The function -/

/-- The running count and the map from qubit indices to bits. -/
structure BitCount where
  numBits : ℕ
  measurements : List (ℤ × ℤ)

/-- A measured register takes its size, and all indices are mapped anew. -/
def BitCount.register (count : BitCount) (size : ℕ) : BitCount :=
  let numBits := count.numBits + size
  ⟨numBits, (List.range numBits).foldl
    (fun measurements (i : ℕ) => assign Prod.fst (↑i, ↑i) measurements)
    count.measurements⟩

/-- A measured reference takes the next bit. -/
def BitCount.reference (count : BitCount) (qubitIndex : ℤ) : BitCount :=
  ⟨count.numBits + 1,
    assign Prod.fst (qubitIndex, (count.numBits : ℤ)) count.measurements⟩

/-- What the function does at an operand of a measurement. -/
def countOperand (argumentSize : ℕ → ℕ) (count : BitCount)
    (operand : QuantumValue) : Except Fault BitCount :=
  match operand with
  | .veqArgument id => return count.register (argumentSize id)
  | .veqAlloca _ size => return count.register size
  | operand => do
      let qubitIndex ← qubitIndex operand
      if qubitIndex = -1 then
        throw (.assertion "Non valid qubit index for measurement!")
      return count.reference qubitIndex

/-- The operands of a measurement. -/
def measuredBy (op : Op A) : List QuantumValue :=
  match op.label with
  | .measure _ operands => operands
  | _ => []

/-- What the walk does at an operation. -/
def countOperation (argumentSize : ℕ → ℕ) (count : BitCount)
    (op : Op A) : Except Fault BitCount :=
  (measuredBy op).foldlM (countOperand argumentSize) count

/-- The number of classical bits of a kernel, and the bits of its qubits. -/
def getNumberOfClassicalBits (argumentSize : ℕ → ℕ) (circuit : Op A) :
    Except Fault BitCount :=
  (postOrder circuit).foldlM (countOperation argumentSize) ⟨0, []⟩

/-! ## The measurements of a kernel -/

/-- A measured reference with its index, or a measured register. -/
inductive Measured where
  | reference (index : ℤ)
  | register (size : ℕ)
  deriving DecidableEq, Repr

/-- The bits that are counted for a measurement. -/
def Measured.bits : Measured → ℕ
  | .reference _ => 1
  | .register size => size

/-- The bits that are counted for a sequence of measurements. -/
def bits (events : List Measured) : ℕ :=
  (events.map Measured.bits).sum

def BitCount.measure (count : BitCount) : Measured → BitCount
  | .reference index => count.reference index
  | .register size => count.register size

/-- The count after a sequence of measurements. -/
def run (events : List Measured) : BitCount :=
  events.foldl BitCount.measure ⟨0, []⟩

/-- The measured operands of a kernel, in the order of the walk. -/
def measuredOperands (circuit : Op A) : List QuantumValue :=
  (postOrder circuit).flatMap measuredBy

/-- What is measured with an operand whose index is valid. -/
def measuredOf (argumentSize : ℕ → ℕ) : QuantumValue → Measured
  | .veqArgument id => .register (argumentSize id)
  | .veqAlloca _ size => .register size
  | .extractRef _ (.constant index) => .reference (toInt index)
  | .extractRef _ (.dynamic _) | .refArgument _ | .refAlloca _ =>
      .reference (-1)

/-- A qubit of a kernel, and the integer that stands for it in the map. -/
structure MeasuredQubit where
  qubit : Qubit
  key : ℤ
  deriving DecidableEq, Repr

/-- The qubits of an operand. -/
def qubitsOf (argumentSize : ℕ → ℕ) (operand : QuantumValue) :
    List MeasuredQubit :=
  match operand with
  | .veqArgument id =>
      (List.range (argumentSize id)).map fun (i : ℕ) => ⟨⟨operand, i⟩, i⟩
  | .veqAlloca _ size =>
      (List.range size).map fun (i : ℕ) => ⟨⟨operand, i⟩, i⟩
  | operand =>
      let qubit := operand.qubit fun _ => -1
      [⟨qubit, toInt qubit.index⟩]

/-- The qubits that a kernel measures. -/
def measuredQubits (argumentSize : ℕ → ℕ) (circuit : Op A) :
    List MeasuredQubit :=
  (measuredOperands circuit).flatMap (qubitsOf argumentSize)

/-- The measurements of a kernel. -/
def events (argumentSize : ℕ → ℕ) (circuit : Op A) : List Measured :=
  (measuredOperands circuit).map (measuredOf argumentSize)

theorem getNumberOfClassicalBits_eq (argumentSize : ℕ → ℕ)
    (circuit : Op A) :
    getNumberOfClassicalBits argumentSize circuit =
      (measuredOperands circuit).foldlM (countOperand argumentSize)
        ⟨0, []⟩ := by
  rw [getNumberOfClassicalBits, measuredOperands]
  generalize (⟨0, []⟩ : BitCount) = count
  induction postOrder circuit generalizing count with
  | nil => rfl
  | cons op rest induction =>
      rw [List.foldlM_cons, List.flatMap_cons, List.foldlM_append,
        countOperation]
      exact bind_congr fun next => induction next

/-- An operand that the function counts without an error. -/
def Countable (operand : QuantumValue) : Prop :=
  match operand with
  | .veqArgument _ | .veqAlloca _ _ => True
  | .extractRef _ (.constant index) => toInt index ≠ -1
  | .extractRef _ (.dynamic _) | .refArgument _ | .refAlloca _ => False

theorem countOperand_eq_ok {argumentSize : ℕ → ℕ} {count next : BitCount}
    {operand : QuantumValue}
    (counted : countOperand argumentSize count operand = .ok next) :
    Countable operand ∧
      next = count.measure (measuredOf argumentSize operand) := by
  cases operand with
  | veqArgument id | veqAlloca id size =>
      exact ⟨trivial, (Except.ok.inj counted).symm⟩
  | refArgument id | refAlloca id => cases counted
  | extractRef veq index =>
      cases index with
      | dynamic id => cases counted
      | constant index =>
          simp only [countOperand, qubitIndex_constant, bind,
            Except.bind] at counted
          split_ifs at counted with invalid
          exact ⟨invalid, (Except.ok.inj counted).symm⟩

/-- What the function returns is the count of the measurements. -/
theorem getNumberOfClassicalBits_eq_ok {argumentSize : ℕ → ℕ}
    {circuit : Op A} {count : BitCount}
    (counted :
      getNumberOfClassicalBits argumentSize circuit = .ok count) :
    (∀ operand ∈ measuredOperands circuit, Countable operand) ∧
      count = run (events argumentSize circuit) := by
  rw [getNumberOfClassicalBits_eq] at counted
  rw [run, events]
  generalize (⟨0, []⟩ : BitCount) = start at counted ⊢
  generalize measuredOperands circuit = operands at counted ⊢
  induction operands generalizing start with
  | nil => exact ⟨by simp, (Except.ok.inj counted).symm⟩
  | cons operand rest induction =>
      rw [List.foldlM_cons, except_bind_eq_ok] at counted
      rcases counted with ⟨next, first, others⟩
      rcases countOperand_eq_ok first with ⟨countable, rfl⟩
      rcases induction _ others with ⟨countables, rfl⟩
      exact ⟨List.forall_mem_cons.mpr ⟨countable, countables⟩, rfl⟩

theorem countOperand_of_countable (argumentSize : ℕ → ℕ) (count : BitCount)
    {operand : QuantumValue} (countable : Countable operand) :
    countOperand argumentSize count operand =
      .ok (count.measure (measuredOf argumentSize operand)) := by
  cases operand with
  | veqArgument id | veqAlloca id size => rfl
  | refArgument id | refAlloca id => cases countable
  | extractRef veq index =>
      cases index with
      | dynamic id => cases countable
      | constant index =>
          have valid : toInt index ≠ -1 := countable
          simp only [countOperand, qubitIndex_constant, bind,
            Except.bind, if_neg valid]
          rfl

/-- The function returns the count if every operand can be counted. -/
theorem getNumberOfClassicalBits_of_countable (argumentSize : ℕ → ℕ)
    {circuit : Op A}
    (countable :
      ∀ operand ∈ measuredOperands circuit, Countable operand) :
    getNumberOfClassicalBits argumentSize circuit =
      .ok (run (events argumentSize circuit)) := by
  rw [getNumberOfClassicalBits_eq, run, events]
  generalize (⟨0, []⟩ : BitCount) = count
  generalize measuredOperands circuit = operands at countable ⊢
  induction operands generalizing count with
  | nil => rfl
  | cons operand rest induction =>
      rw [List.foldlM_cons, countOperand_of_countable argumentSize count
        (countable operand List.mem_cons_self)]
      exact induction _ fun other member =>
        countable other (List.mem_cons_of_mem operand member)

/-- An index that a sequence of measurements is about. -/
def Names (events : List Measured) (index : ℤ) : Prop :=
  .reference index ∈ events ∨
    ∃ size : ℕ, .register size ∈ events ∧ 0 ≤ index ∧ index < size

/-- The keys of an operand are those of what is measured with it. -/
theorem names_measuredOf_iff {argumentSize : ℕ → ℕ}
    {operand : QuantumValue} (countable : Countable operand) (index : ℤ) :
    (∃ measured ∈ qubitsOf argumentSize operand, measured.key = index) ↔
      Names [measuredOf argumentSize operand] index := by
  have register (root : QuantumValue) (size : ℕ) :
      (∃ measured ∈ (List.range size).map
          (fun (i : ℕ) => (⟨⟨root, i⟩, i⟩ : MeasuredQubit)),
        measured.key = index) ↔
        Names [.register size] index := by
    simp only [List.mem_map, List.mem_range, Names, List.mem_singleton,
      reduceCtorEq, false_or, Measured.register.injEq, exists_eq_left]
    constructor
    · rintro ⟨-, ⟨place, inside, rfl⟩, rfl⟩
      exact ⟨Int.natCast_nonneg place, Int.ofNat_lt.mpr inside⟩
    · rintro ⟨nonneg, inside⟩
      exact ⟨_, ⟨index.toNat, by omega, rfl⟩, Int.toNat_of_nonneg nonneg⟩
  cases operand with
  | veqArgument id => exact register (.veqArgument id) (argumentSize id)
  | veqAlloca id size => exact register (.veqAlloca id size) size
  | refArgument id | refAlloca id => cases countable
  | extractRef veq place =>
      cases place with
      | dynamic id => cases countable
      | constant place =>
          simp [qubitsOf, measuredOf, Names, QuantumValue.qubit, eq_comm]

theorem measuredQubits_key_iff (argumentSize : ℕ → ℕ) {circuit : Op A}
    (countable : ∀ operand ∈ measuredOperands circuit, Countable operand)
    (index : ℤ) :
    (∃ measured ∈ measuredQubits argumentSize circuit,
        measured.key = index) ↔
      Names (events argumentSize circuit) index := by
  rw [measuredQubits, events]
  have each (operand : QuantumValue)
      (member : operand ∈ measuredOperands circuit) :=
    @names_measuredOf_iff argumentSize operand (countable operand member)
      index
  constructor
  · rintro ⟨qubit, inside, equal⟩
    rcases List.mem_flatMap.mp inside with ⟨operand, member, inside⟩
    have event :
        measuredOf argumentSize operand ∈
          (measuredOperands circuit).map (measuredOf argumentSize) :=
      List.mem_map_of_mem member
    rcases (each operand member).mp ⟨qubit, inside, equal⟩ with
      reference | ⟨size, register, bounds⟩
    · exact .inl (List.mem_singleton.mp reference ▸ event)
    · exact .inr ⟨size, List.mem_singleton.mp register ▸ event, bounds⟩
  · rintro (reference | ⟨size, register, bounds⟩)
    · rcases List.mem_map.mp reference with ⟨operand, member, equal⟩
      rcases (each operand member).mpr
          (.inl (List.mem_singleton.mpr equal.symm)) with
        ⟨qubit, inside, same⟩
      exact ⟨qubit, List.mem_flatMap.mpr ⟨operand, member, inside⟩, same⟩
    · rcases List.mem_map.mp register with ⟨operand, member, equal⟩
      rcases (each operand member).mpr
          (.inr ⟨size, List.mem_singleton.mpr equal.symm, bounds⟩) with
        ⟨qubit, inside, same⟩
      exact ⟨qubit, List.mem_flatMap.mpr ⟨operand, member, inside⟩, same⟩

/-! ## The map after a sequence of measurements -/

theorem lookup_cons_of_ne {key value other : ℤ} (away : other ≠ key)
    (entries : List (ℤ × ℤ)) :
    ((key, value) :: entries).lookup other = entries.lookup other := by
  rw [List.lookup_cons, beq_eq_false_iff_ne.mpr away]

theorem lookup_assign (index bit other : ℤ) (entries : List (ℤ × ℤ)) :
    (assign Prod.fst (index, bit) entries).lookup other =
      if other = index then some bit else entries.lookup other := by
  by_cases same : other = index
  · subst same
    rw [if_pos rfl]
    induction entries with
    | nil => exact List.lookup_cons_self
    | cons entry rest induction =>
        rw [assign]
        split_ifs with less equal
        · exact List.lookup_cons_self
        · exact List.lookup_cons_self
        · rw [lookup_cons_of_ne equal, induction]
  · rw [if_neg same]
    induction entries with
    | nil => exact lookup_cons_of_ne same []
    | cons entry rest induction =>
        rw [assign]
        split_ifs with less equal
        · exact lookup_cons_of_ne same _
        · have away : other ≠ entry.1 := equal ▸ same
          rw [lookup_cons_of_ne same, lookup_cons_of_ne away]
        · rw [List.lookup_cons, List.lookup_cons, induction]

theorem lookup_register (count : BitCount) (size : ℕ) (index : ℤ) :
    (count.register size).measurements.lookup index =
      if 0 ≤ index ∧ index < (count.numBits + size : ℕ) then some index
      else count.measurements.lookup index := by
  rw [BitCount.register]
  generalize count.numBits + size = numBits
  induction numBits with
  | zero =>
      rw [if_neg (by omega)]
      rfl
  | succ numBits induction =>
      rw [List.range_succ, List.foldl_append, List.foldl_cons,
        List.foldl_nil, lookup_assign, induction]
      by_cases same : index = numBits
      · rw [if_pos same, if_pos (by omega), same]
      · rw [if_neg same]
        exact if_congr (by omega) rfl rfl

theorem run_concat (events : List Measured) (event : Measured) :
    run (events ++ [event]) = (run events).measure event := by
  rw [run, List.foldl_append]
  rfl

theorem bits_append (first second : List Measured) :
    bits (first ++ second) = bits first + bits second := by
  rw [bits, List.map_append, List.sum_append]
  rfl

theorem bits_reference (index : ℤ) : bits [.reference index] = 1 := rfl

theorem bits_register (size : ℕ) : bits [.register size] = size := rfl

theorem numBits_run (events : List Measured) :
    (run events).numBits = bits events := by
  induction events using List.reverseRecOn with
  | nil => rfl
  | append_singleton events event induction =>
      rw [run_concat, bits_append, ← induction]
      cases event <;> rfl

/-- A measured reference is mapped to the bit that is next. -/
theorem lookup_run_reference (events : List Measured) (index other : ℤ) :
    (run (events ++ [.reference index])).measurements.lookup other =
      if other = index then some (bits events : ℤ)
      else (run events).measurements.lookup other := by
  rw [run_concat, ← numBits_run]
  exact lookup_assign index _ other _

/-- A measured register maps every index below the count to itself. -/
theorem lookup_run_register (events : List Measured) (size : ℕ)
    (index : ℤ) :
    (run (events ++ [.register size])).measurements.lookup index =
      if 0 ≤ index ∧ index < (bits events + size : ℕ) then some index
      else (run events).measurements.lookup index := by
  rw [run_concat, ← numBits_run]
  exact lookup_register _ size index

/-- Every bit is below the count. -/
theorem lookup_run_lt {events : List Measured} {index bit : ℤ}
    (mapped : (run events).measurements.lookup index = some bit) :
    0 ≤ bit ∧ bit < bits events := by
  induction events using List.reverseRecOn with
  | nil => cases mapped
  | append_singleton events event induction =>
      cases event with
      | reference other =>
          rw [lookup_run_reference] at mapped
          rw [bits_append, bits_reference]
          split_ifs at mapped with same
          · rw [Option.some.injEq] at mapped
            omega
          · have earlier := induction mapped
            omega
      | register size =>
          rw [lookup_run_register] at mapped
          rw [bits_append, bits_register]
          split_ifs at mapped with inside
          · rw [Option.some.injEq] at mapped
            omega
          · have earlier := induction mapped
            omega

/-- Later measurements that do not reach an index leave its bit alone. -/
theorem lookup_run_append {events rest : List Measured} {index : ℤ}
    (noReference : .reference index ∉ rest)
    (outside :
      (∀ size, .register size ∉ rest) ∨
        ¬ (0 ≤ index ∧ index < bits (events ++ rest))) :
    (run (events ++ rest)).measurements.lookup index =
      (run events).measurements.lookup index := by
  induction rest using List.reverseRecOn with
  | nil => rw [List.append_nil]
  | append_singleton rest event induction =>
      rw [← List.append_assoc, bits_append] at outside
      rw [List.mem_append, not_or] at noReference
      have further :
          (∀ size, .register size ∉ rest) ∨
            ¬ (0 ≤ index ∧ index < bits (events ++ rest)) := by
        refine outside.imp (fun none size member => ?_) fun out => ?_
        · exact none size (List.mem_append_left _ member)
        · omega
      rw [← List.append_assoc, ← induction noReference.1 further]
      cases event with
      | reference other =>
          have away : index ≠ other := by
            rintro rfl
            exact noReference.2 List.mem_cons_self
          rw [lookup_run_reference, if_neg away]
      | register size =>
          have out := outside.resolve_left fun none =>
            none size (List.mem_append_right _ List.mem_cons_self)
          rw [bits_register] at out
          rw [lookup_run_register, if_neg out]

/-- The last register of a sequence of measurements. -/
def LastRegister (events before : List Measured) (size : ℕ)
    (after : List Measured) : Prop :=
  events = before ++ .register size :: after ∧
    ∀ other, .register other ∉ after

/-- What the last register maps stays, unless it is measured again. -/
theorem LastRegister.lookup {events before after : List Measured}
    {size : ℕ} (last : LastRegister events before size after) {index : ℤ}
    (inside : 0 ≤ index ∧ index < (bits before + size : ℕ))
    (notAfter : .reference index ∉ after) :
    (run events).measurements.lookup index = some index := by
  rw [last.1, List.append_cons, lookup_run_append notAfter (.inl last.2),
    lookup_run_register, if_pos inside]

/-- Where the bit of an index comes from. -/
theorem lookup_run_cases {events : List Measured} {index bit : ℤ}
    (mapped : (run events).measurements.lookup index = some bit) :
    (∃ earlier later, events = earlier ++ .reference index :: later ∧
        bit = bits earlier ∧ .reference index ∉ later) ∨
      bit = index ∧ ∃ before size after,
        LastRegister events before size after ∧
          0 ≤ index ∧ index < (bits before + size : ℕ) ∧
          .reference index ∉ after := by
  induction events using List.reverseRecOn with
  | nil => cases mapped
  | append_singleton events event induction =>
      cases event with
      | reference other =>
          rw [lookup_run_reference] at mapped
          split_ifs at mapped with same
          · subst same
            rw [Option.some.injEq] at mapped
            exact .inl ⟨events, [], rfl, mapped.symm, List.not_mem_nil⟩
          · have away : .reference index ≠ Measured.reference other :=
              fun equal => same (Measured.reference.inj equal)
            rcases induction mapped with
              ⟨earlier, later, rfl, rfl, notLater⟩ |
                ⟨rfl, before, size, after, ⟨rfl, last⟩, nonneg, below,
                  notAfter⟩
            · refine .inl ⟨earlier, later ++ [.reference other], by simp,
                rfl, ?_⟩
              simpa [notLater] using same
            · refine .inr ⟨rfl, before, size,
                after ++ [.reference other], ⟨by simp, ?_⟩, nonneg, below,
                ?_⟩
              · simpa using last
              · simpa [notAfter] using same
      | register size =>
          rw [lookup_run_register] at mapped
          split_ifs at mapped with inside
          · rw [Option.some.injEq] at mapped
            exact .inr ⟨mapped.symm, events, size, [],
              ⟨rfl, by simp⟩, inside.1, inside.2, List.not_mem_nil⟩
          · rcases induction mapped with
              ⟨earlier, later, rfl, rfl, notLater⟩ |
                ⟨rfl, before, other, after, ⟨rfl, last⟩, nonneg, below,
                  notAfter⟩
            · refine .inl ⟨earlier, later ++ [.register size], by simp,
                rfl, ?_⟩
              simpa using notLater
            · rw [List.append_cons, bits_append, bits_append,
                bits_register] at inside
              omega

/-- References that are counted at the same bit are the same. -/
theorem reference_unique {first second rest other : List Measured}
    {index place : ℤ}
    (equal :
      first ++ .reference index :: rest =
        second ++ .reference place :: other)
    (same : bits first = bits second) : index = place := by
  rcases List.append_eq_append_iff.mp equal with
    ⟨middle, rfl, tail⟩ | ⟨middle, rfl, tail⟩
  · cases middle with
    | nil => exact Measured.reference.inj (List.cons.inj tail).1
    | cons event middle =>
        rw [(List.cons.inj tail).1.symm, bits_append,
          ← List.singleton_append, bits_append, bits_reference] at same
        omega
  · cases middle with
    | nil => exact (Measured.reference.inj (List.cons.inj tail).1).symm
    | cons event middle =>
        rw [(List.cons.inj tail).1.symm, bits_append,
          ← List.singleton_append, bits_append, bits_reference] at same
        omega

/-! ## When the bits tell the qubits apart -/

/--
A register that is measured last does not get in the way of what was
measured before it: the indices below its count are all measured, and each
other reference before it has a bit whose index is measured afterwards.
-/
structure Undisturbed (events : List Measured) : Prop where
  covered :
    ∀ {before after size}, LastRegister events before size after →
      ∀ index : ℤ, 0 ≤ index → index < (bits before + size : ℕ) →
        Names events index
  kept :
    ∀ {before after size}, LastRegister events before size after →
      ∀ earlier later (index : ℤ),
        before = earlier ++ .reference index :: later →
        .reference index ∉ later ++ after →
        ¬ (0 ≤ index ∧ index < (bits before + size : ℕ)) →
          .reference (bits earlier) ∈ after

/-- The map has the measured indices as keys, with different bits. -/
structure OneBitPerIndex (events : List Measured) : Prop where
  keys :
    ∀ index bit, (run events).measurements.lookup index = some bit →
      Names events index
  injective :
    ∀ first second bit,
      (run events).measurements.lookup first = some bit →
        (run events).measurements.lookup second = some bit →
          first = second

/-- A reference before the last register takes the bit of no register. -/
theorem Undisturbed.reference_ne {events : List Measured}
    (undisturbed : Undisturbed events) {before after : List Measured}
    {size : ℕ} (last : LastRegister events before size after)
    {earlier later : List Measured} {index place : ℤ}
    (split : events = earlier ++ .reference index :: later)
    (notLater : .reference index ∉ later)
    (mapped :
      (run events).measurements.lookup index =
        some (bits earlier : ℤ))
    (isPlace : (bits earlier : ℤ) = place)
    (below : place < (bits before + size : ℕ))
    (notAfter : .reference place ∉ after) : index = place := by
  rcases last with ⟨equal, noRegister⟩
  rcases List.append_eq_append_iff.mp (split.symm.trans equal) with
    ⟨middle, same, tail⟩ | ⟨middle, same, tail⟩
  · cases middle with
    | nil => cases (List.cons.inj tail).1
    | cons event middle =>
        -- The reference stands before the register.
        rcases List.cons.inj tail with ⟨rfl, rfl⟩
        have notMiddle : .reference index ∉ middle ++ after := by
          intro member
          refine notLater ?_
          rcases List.mem_append.mp member with left | right
          · exact List.mem_append_left _ left
          · exact List.mem_append_right _ (List.mem_cons_of_mem _ right)
        by_cases inside : 0 ≤ index ∧ index < (bits before + size : ℕ)
        · have itself := LastRegister.lookup ⟨equal, noRegister⟩ inside
            fun member =>
              notMiddle (List.mem_append_right _ member)
          rw [itself, Option.some.injEq] at mapped
          exact mapped.trans isPlace
        · have again := undisturbed.kept ⟨equal, noRegister⟩ earlier middle
            index same notMiddle inside
          rw [isPlace] at again
          exact (notAfter again).elim
  · -- The reference stands after the register, so its bit is larger.
    have large : bits before + size ≤ bits earlier := by
      cases middle with
      | nil => cases (List.cons.inj tail).1
      | cons event middle =>
          rw [same, ← (List.cons.inj tail).1, bits_append,
            ← List.singleton_append, bits_append, bits_register]
          omega
    omega

/-- A reference the last register does not reach keeps its bit. -/
theorem LastRegister.lookup_reference {events before after : List Measured}
    {size : ℕ} (last : LastRegister events before size after)
    {earlier later : List Measured} {index : ℤ}
    (split : before = earlier ++ .reference index :: later)
    (notLater : .reference index ∉ later ++ after)
    (outside : ¬ (0 ≤ index ∧ index < (bits before + size : ℕ))) :
    (run events).measurements.lookup index = some (bits earlier : ℤ) := by
  rw [List.mem_append, not_or] at notLater
  have upToRegister :
      before ++ [.register size] =
        (earlier ++ [.reference index]) ++ (later ++ [.register size]) := by
    rw [split]
    simp
  rw [last.1, List.append_cons, lookup_run_append notLater.2 (.inl last.2),
    upToRegister, lookup_run_append, lookup_run_reference, if_pos rfl]
  · simpa using notLater.1
  · rw [← upToRegister, bits_append, bits_register]
    exact .inr outside

/-- The bit of a reference is below the bits counted after it. -/
theorem bits_lt_of_split {before earlier later : List Measured}
    {index : ℤ} (split : before = earlier ++ .reference index :: later) :
    bits earlier < bits before := by
  rw [split, bits_append, ← List.singleton_append, bits_append,
    bits_reference]
  omega

theorem OneBitPerIndex.undisturbed {events : List Measured}
    (sound : OneBitPerIndex events) : Undisturbed events := by
  refine ⟨?_, ?_⟩
  · intro before after size last index nonneg below
    by_cases again : .reference index ∈ after
    · rw [last.1]
      exact .inl (List.mem_append_right _ (List.mem_cons_of_mem _ again))
    · exact sound.keys index index (last.lookup ⟨nonneg, below⟩ again)
  · intro before after size last earlier later index split notLater outside
    by_contra notAgain
    have below := bits_lt_of_split split
    have mapped := last.lookup_reference split notLater outside
    have itself :
        (run events).measurements.lookup (bits earlier : ℤ) =
          some (bits earlier : ℤ) :=
      last.lookup ⟨Int.natCast_nonneg _, by omega⟩ notAgain
    -- Both indices have the bit of the reference.
    have same := sound.injective _ _ _ mapped itself
    exact outside (by omega)

theorem Undisturbed.oneBitPerIndex {events : List Measured}
    (undisturbed : Undisturbed events) : OneBitPerIndex events := by
  refine ⟨?_, ?_⟩
  · intro index bit mapped
    rcases lookup_run_cases mapped with
      ⟨earlier, later, split, -, -⟩ |
        ⟨-, before, size, after, last, nonneg, below, -⟩
    · rw [split]
      exact .inl (by simp)
    · exact undisturbed.covered last index nonneg below
  · intro first second bit mapFirst mapSecond
    rcases lookup_run_cases mapFirst with
      ⟨earlier, later, split, isBit, notLater⟩ |
        ⟨rfl, before, size, after, last, nonneg, below, notAfter⟩
    · rcases lookup_run_cases mapSecond with
        ⟨other, rest, otherSplit, otherBit, -⟩ |
          ⟨rfl, before, size, after, last, nonneg, below, notAfter⟩
      · refine reference_unique (split.symm.trans otherSplit) ?_
        omega
      · exact undisturbed.reference_ne last split notLater
          (isBit ▸ mapFirst) isBit.symm below notAfter
    · rcases lookup_run_cases mapSecond with
        ⟨other, rest, otherSplit, otherBit, notRest⟩ | ⟨rfl, -⟩
      · exact (undisturbed.reference_ne last otherSplit notRest
          (otherBit ▸ mapSecond) otherBit.symm below notAfter).symm
      · rfl

theorem oneBitPerIndex_iff (events : List Measured) :
    OneBitPerIndex events ↔ Undisturbed events :=
  ⟨OneBitPerIndex.undisturbed, Undisturbed.oneBitPerIndex⟩

/-- Every measured index has a bit. -/
theorem lookup_run_of_names {events : List Measured} {index : ℤ}
    (names : Names events index) :
    ∃ bit, (run events).measurements.lookup index = some bit := by
  induction events using List.reverseRecOn with
  | nil =>
      rcases names with member | ⟨size, member, -⟩
      · cases member
      · cases member
  | append_singleton events event induction =>
      cases event with
      | reference other =>
          rw [lookup_run_reference]
          split_ifs with same
          · exact ⟨_, rfl⟩
          · refine induction ?_
            simpa [Names, same] using names
      | register size =>
          rw [lookup_run_register]
          split_ifs with inside
          · exact ⟨_, rfl⟩
          · refine induction (names.imp ?_ ?_)
            · simp
            · rintro ⟨other, member, nonneg, below⟩
              rcases List.mem_append.mp member with earlier | last
              · exact ⟨other, earlier, nonneg, below⟩
              · cases List.mem_singleton.mp last
                exact absurd ⟨nonneg, by omega⟩ inside

/--
The map has entries for measured qubits only, different ones for different
qubits, and all of them below the count.
-/
structure OneBitPerQubit (argumentSize : ℕ → ℕ) (circuit : Op A)
    (count : BitCount) : Prop where
  keys :
    ∀ index bit, count.measurements.lookup index = some bit →
      ∃ measured ∈ measuredQubits argumentSize circuit,
        measured.key = index
  distinct :
    ∀ first ∈ measuredQubits argumentSize circuit,
      ∀ second ∈ measuredQubits argumentSize circuit, ∀ bit,
        count.measurements.lookup first.key = some bit →
          count.measurements.lookup second.key = some bit →
            first = second
  bounded :
    ∀ index bit, count.measurements.lookup index = some bit →
      0 ≤ bit ∧ bit < count.numBits

/-- No two measured qubits have one key. -/
def DistinctKeys (argumentSize : ℕ → ℕ) (circuit : Op A) : Prop :=
  ∀ first ∈ measuredQubits argumentSize circuit,
    ∀ second ∈ measuredQubits argumentSize circuit,
      first.key = second.key → first = second

/-- Measured references alone do not get in each other's way. -/
theorem Undisturbed.of_references {events : List Measured}
    (references : ∀ size, .register size ∉ events) :
    Undisturbed events where
  covered := by
    rintro before after size ⟨rfl, -⟩
    exact absurd (by simp) (references size)
  kept := by
    rintro before after size ⟨rfl, -⟩
    exact absurd (by simp) (references size)

/-- A kernel with a register of two qubits and the given measurements. -/
def measuring (measured : List QuantumValue) : Op ℤ :=
  kernelOf (.leaf (.alloca (.veqAlloca 0 2)) ::
    measured.map fun value => .leaf (.measure .mz [value]))

end MQSSPasses.Quake.ClassicalBits
