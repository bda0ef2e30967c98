import MQSSPasses.General.LabelwiseWalk
import MQSSPasses.LinAlg.QuakeToLinAlg
import Mathlib.Data.List.Basic
import Mathlib.Tactic.IntervalCases

/-!
# The symbols of the matrix functions

A matrix function is looked up by the name made for a gate, so gates with
one name share one matrix.  The name holds the mnemonic and, between
brackets, the decimals of the indices one after the other.  The file says
which gates have the same name, and which of them should not: gates that
differ in the adjoint flag, in what a mnemonic leaves out, or in operands
whose decimals do not show it.
-/

namespace MQSSPasses.LinAlg.GateSymbols

open MQSSPasses.General.IntConversion
open MQSSPasses.General.LabelwiseWalk
open MQSSPasses.General.TracedComputation
open MQSSPasses.Quake.Syntax
open MQSSPasses.Quake.Operations
open MQSSPasses.LinAlg.QuakeToLinAlg

variable {A : Type}

/-! ## Names of gates -/

/-- The name the conversion makes for a gate. -/
def symbol (numberOfQubits : ℤ) (gate : Gate A) : Except Fault String := do
  let controls ← getIndicesOfValueRange gate.controls
  let targets ← getIndicesOfValueRange gate.targets
  return functionName numberOfQubits gate.kind.mnemonic controls targets

/-- The conversion looks up and calls the function of that name. -/
theorem convertGate_eq_symbol [Neg A] [One A] (narrow : A → A)
    (numberOfQubits : ℤ) (matrixType : List ℕ) (builder : Builder A)
    (state : TensorValue) (gate : Gate A) :
    convertGate narrow numberOfQubits matrixType builder state gate =
      (do
        let name ← symbol numberOfQubits gate
        let params ← getParametersValues narrow gate.parameters
        let builder := inlineFunction builder name params.length gate
        let (matrixValue, builder) :=
          insertCall builder name matrixType params
        insertMulN builder [matrixValue, state]) := by
  rw [convertGate, symbol]
  cases getIndicesOfValueRange gate.controls with
  | error fault => rfl
  | ok controls =>
      cases getIndicesOfValueRange gate.targets with
      | error fault => rfl
      | ok targets => rfl

/-- The decimals of a list of indices, one after the other. -/
def decimals (indices : List ℤ) : String :=
  String.join (indices.map toString)

/-! ## What can be read off a name -/

/-- A list is cut at the first place of a letter that cannot come before. -/
theorem append_cons_inj {Letter : Type} {mark : Letter}
    {first second rest other : List Letter}
    (firstFree : mark ∉ first) (secondFree : mark ∉ second)
    (equal : first ++ mark :: rest = second ++ mark :: other) :
    first = second ∧ rest = other := by
  induction first generalizing second with
  | nil =>
      cases second with
      | nil =>
          rw [List.nil_append, List.nil_append, List.cons.injEq] at equal
          exact ⟨rfl, equal.2⟩
      | cons letter second =>
          rw [List.nil_append, List.cons_append, List.cons.injEq] at equal
          exact (secondFree (equal.1 ▸ List.mem_cons_self)).elim
  | cons letter first induction =>
      cases second with
      | nil =>
          rw [List.nil_append, List.cons_append, List.cons.injEq] at equal
          exact (firstFree (equal.1 ▸ List.mem_cons_self)).elim
      | cons next second =>
          rw [List.cons_append, List.cons_append, List.cons.injEq] at equal
          rcases induction
              (fun member => firstFree (List.mem_cons_of_mem _ member))
              (fun member => secondFree (List.mem_cons_of_mem _ member))
              equal.2 with ⟨same, rest⟩
          exact ⟨by rw [equal.1, same], rest⟩

/-- The letters of a decimal number. -/
def IsDecimal (letter : Char) : Prop :=
  letter.isDigit = true ∨ letter = '-'

instance (letter : Char) : Decidable (IsDecimal letter) :=
  inferInstanceAs (Decidable (_ ∨ _))

theorem isDigit_of_mem_repr {number : ℕ} {letter : Char}
    (member : letter ∈ number.repr.toList) : letter.isDigit = true := by
  rw [Nat.toList_repr] at member
  exact Nat.isDigit_of_mem_toDigits (by decide) (by decide) member

theorem isDecimal_of_mem_toString {number : ℤ} {letter : Char}
    (member : letter ∈ (toString number).toList) : IsDecimal letter := by
  rw [Int.toString_eq_repr, Int.repr_eq_if] at member
  split at member
  · exact .inl (isDigit_of_mem_repr member)
  · rw [String.toList_append] at member
    rcases List.mem_append.mp member with sign | digit
    · exact .inr (List.mem_singleton.mp sign)
    · exact .inl (isDigit_of_mem_repr digit)

theorem isDecimal_of_mem_decimals {indices : List ℤ} {letter : Char}
    (member : letter ∈ (decimals indices).toList) : IsDecimal letter := by
  rw [decimals, String.toList_join, List.mem_flatMap] at member
  rcases member with ⟨word, inside, member⟩
  rcases List.mem_map.mp inside with ⟨index, -, rfl⟩
  exact isDecimal_of_mem_toString member

theorem not_mem_decimals {mark : Char} (other : ¬ IsDecimal mark)
    (indices : List ℤ) : mark ∉ (decimals indices).toList :=
  fun member => other (isDecimal_of_mem_decimals member)

/-- The name before the first bracket. -/
def stem (numberOfQubits : ℤ) (gateName : String) : List Char :=
  gateName.toList ++ "_".toList ++ (toString numberOfQubits).toList ++
    "qubits_control".toList

theorem not_mem_stem (numberOfQubits : ℤ) (kind : GateKind) :
    '[' ∉ stem numberOfQubits kind.mnemonic := by
  have noMnemonic : '[' ∉ kind.mnemonic.toList := by
    cases kind <;> simp [GateKind.mnemonic]
  have noNumber : '[' ∉ (toString numberOfQubits).toList := by
    intro member
    have decimal := isDecimal_of_mem_toString member
    revert decimal
    decide
  simp only [stem, List.mem_append, not_or]
  exact ⟨⟨⟨noMnemonic, by decide⟩, noNumber⟩, by decide⟩

theorem functionName_toList (numberOfQubits : ℤ) (gateName : String)
    (controls targets : List ℤ) :
    (functionName numberOfQubits gateName controls targets).toList =
      stem numberOfQubits gateName ++ '[' ::
        ((decimals controls).toList ++ ']' :: ("_target[".toList ++
          ((decimals targets).toList ++ [']']))) := by
  simp [functionName, indexString, decimals, stem, String.toList_append]

/-- The name determines the mnemonic and the decimals, and nothing else. -/
theorem functionName_eq_iff {numberOfQubits : ℤ} {first second : GateKind}
    {controls targets otherControls otherTargets : List ℤ} :
    functionName numberOfQubits first.mnemonic controls targets =
        functionName numberOfQubits second.mnemonic otherControls
          otherTargets ↔
      first.mnemonic = second.mnemonic ∧
        decimals controls = decimals otherControls ∧
        decimals targets = decimals otherTargets := by
  constructor
  · intro equal
    have letters := congrArg String.toList equal
    rw [functionName_toList, functionName_toList] at letters
    rcases append_cons_inj (not_mem_stem numberOfQubits first)
        (not_mem_stem numberOfQubits second) letters with ⟨stems, rest⟩
    rcases append_cons_inj (not_mem_decimals (by decide) controls)
        (not_mem_decimals (by decide) otherControls) rest with
      ⟨controlsEq, rest⟩
    have targetsEq :=
      List.append_cancel_right (List.append_cancel_left rest)
    have mnemonics : first.mnemonic.toList = second.mnemonic.toList := by
      simp only [stem] at stems
      exact List.append_cancel_right (List.append_cancel_right
        (List.append_cancel_right stems))
    exact ⟨String.toList_injective mnemonics,
      String.toList_injective controlsEq,
      String.toList_injective targetsEq⟩
  · rintro ⟨mnemonics, controlsEq, targetsEq⟩
    simp only [decimals] at controlsEq targetsEq
    rw [functionName, functionName, mnemonics, indexString, indexString,
      indexString, indexString, controlsEq, targetsEq]

/-! ## Gates with one name -/

/-- The indices that are read from the controls and targets of a gate. -/
def Reads (gate : Gate A) (controls targets : List ℤ) : Prop :=
  getIndicesOfValueRange gate.controls = .ok controls ∧
    getIndicesOfValueRange gate.targets = .ok targets

theorem symbol_eq_ok {numberOfQubits : ℤ} {gate : Gate A}
    {name : String} :
    symbol numberOfQubits gate = .ok name ↔
      ∃ controls targets, Reads gate controls targets ∧
        functionName numberOfQubits gate.kind.mnemonic controls targets =
          name := by
  rw [symbol, except_bind_eq_ok]
  constructor
  · rintro ⟨controls, readControls, rest⟩
    rcases except_bind_eq_ok.mp rest with ⟨targets, readTargets, made⟩
    exact ⟨controls, targets, ⟨readControls, readTargets⟩,
      Except.ok.inj made⟩
  · rintro ⟨controls, targets, ⟨readControls, readTargets⟩, rfl⟩
    refine ⟨controls, readControls, ?_⟩
    rw [readTargets]
    rfl

/-- Both gates get a symbol, and it is the same. -/
def SameSymbol (numberOfQubits : ℤ) (first second : Gate A) : Prop :=
  ∃ name, symbol numberOfQubits first = .ok name ∧
    symbol numberOfQubits second = .ok name

/-- The operands can be read, as indices with the same decimals. -/
def PrintAlike (values others : List QuantumValue) : Prop :=
  ∃ indices otherIndices,
    getIndicesOfValueRange values = .ok indices ∧
    getIndicesOfValueRange others = .ok otherIndices ∧
    decimals indices = decimals otherIndices

theorem sameSymbol_iff {numberOfQubits : ℤ} {first second : Gate A} :
    SameSymbol numberOfQubits first second ↔
      first.kind.mnemonic = second.kind.mnemonic ∧
        PrintAlike first.controls second.controls ∧
        PrintAlike first.targets second.targets := by
  constructor
  · rintro ⟨name, ofFirst, ofSecond⟩
    rcases symbol_eq_ok.mp ofFirst with ⟨controls, targets, reads, rfl⟩
    rcases symbol_eq_ok.mp ofSecond with
      ⟨otherControls, otherTargets, others, equal⟩
    rcases (functionName_eq_iff).mp equal.symm with
      ⟨mnemonics, controlsEq, targetsEq⟩
    exact ⟨mnemonics,
      ⟨controls, otherControls, reads.1, others.1, controlsEq⟩,
      ⟨targets, otherTargets, reads.2, others.2, targetsEq⟩⟩
  · rintro ⟨mnemonics,
      ⟨controls, otherControls, reads, others, controlsEq⟩,
      ⟨targets, otherTargets, readsTargets, othersTargets, targetsEq⟩⟩
    exact ⟨_, symbol_eq_ok.mpr
        ⟨controls, targets, ⟨reads, readsTargets⟩, rfl⟩,
      symbol_eq_ok.mpr ⟨otherControls, otherTargets,
        ⟨others, othersTargets⟩,
        ((functionName_eq_iff).mpr
          ⟨mnemonics, controlsEq, targetsEq⟩).symm⟩⟩

/-- Operands print like themselves if they can be read. -/
theorem printAlike_self_iff {values : List QuantumValue} :
    PrintAlike values values ↔ ∀ value ∈ values, Defined value := by
  have read :
      (∃ indices, getIndicesOfValueRange values = .ok indices) ↔
        ∀ value ∈ values, Defined value := by
    rw [getIndicesOfValueRange]
    induction values with
    | nil => simp [pure, Except.pure]
    | cons value others induction =>
        rw [List.forall_mem_cons, ← induction, ← indexReadable_iff,
          IndexReadable, List.mapM_cons]
        simp only [except_bind_eq_ok, pure, Except.pure, Except.ok.injEq]
        constructor
        · rintro ⟨_, index, here, indices, further, -⟩
          exact ⟨⟨index, here⟩, indices, further⟩
        · rintro ⟨⟨index, here⟩, indices, further⟩
          exact ⟨_, index, here, indices, further, rfl⟩
  rw [← read]
  constructor
  · rintro ⟨indices, -, reads, -⟩
    exact ⟨indices, reads⟩
  · rintro ⟨indices, reads⟩
    exact ⟨indices, indices, reads, reads, rfl⟩

/--
The gates have one matrix for each value of the parameters: they are of one
kind, both or neither are adjoint, and they act on the same operands.
-/
structure Agree (first second : Gate A) : Prop where
  kinds : first.kind = second.kind
  flags : first.isAdj = second.isAdj
  controls : first.controls = second.controls
  targets : first.targets = second.targets

/-- The gates stand on the same operands, which operations define. -/
structure SameOperands (first second : Gate A) : Prop where
  controls : first.controls = second.controls
  targets : first.targets = second.targets
  defined : ∀ operand ∈ first.qubits, Defined operand

theorem SameOperands.printAlike {first second : Gate A}
    (operands : SameOperands first second) :
    PrintAlike first.controls second.controls ∧
      PrintAlike first.targets second.targets := by
  have defined := operands.defined
  rw [Gate.qubits, List.forall_mem_append] at defined
  rw [← operands.controls, ← operands.targets]
  exact ⟨printAlike_self_iff.mpr defined.1,
    printAlike_self_iff.mpr defined.2⟩

/--
When the name tells gates apart as it should.  Operands of a gate are read
through their definitions.  Gates with one mnemonic on the same operands
must not differ in the adjoint flag, the Pauli word or the custom operation.
The decimals of different operands of such gates must show the difference,
for the controls or for the targets.
-/
structure ToldApart (first second : Gate A) : Prop where
  defined :
    Agree first second → ∀ operand ∈ first.qubits, Defined operand
  attributes :
    first.kind.mnemonic = second.kind.mnemonic →
      SameOperands first second →
        first.kind = second.kind ∧ first.isAdj = second.isAdj
  decimals :
    first.kind.mnemonic = second.kind.mnemonic →
      first.controls ≠ second.controls ∨ first.targets ≠ second.targets →
        ¬ (PrintAlike first.controls second.controls ∧
          PrintAlike first.targets second.targets)

/-- A qubit of a register of the given size. -/
def qubitOf (size : ℕ) (index : ℤ) : QuantumValue :=
  .extractRef (.veqAlloca 0 size) (.constant index)

/-- The number a digit stands for. -/
def digitValue (letter : Char) : ℤ := letter.toNat - 48

theorem toString_of_digit {index : ℤ} (nonneg : 0 ≤ index)
    (small : index < 10) :
    ∃ letter, (toString index).toList = [letter] ∧
      digitValue letter = index := by
  interval_cases index <;> exact ⟨_, rfl, rfl⟩

/-- Indices of one digit can be read off their decimals. -/
theorem decimals_of_digits {indices : List ℤ}
    (digits : ∀ index ∈ indices, 0 ≤ index ∧ index < 10) :
    (decimals indices).toList.map digitValue = indices := by
  induction indices with
  | nil => rfl
  | cons index rest induction =>
      rcases List.forall_mem_cons.mp digits with ⟨here, further⟩
      rcases toString_of_digit here.1 here.2 with ⟨letter, only, value⟩
      have rest := induction further
      rw [decimals, String.toList_join] at rest ⊢
      rw [List.map_cons, List.flatMap_cons, only, List.singleton_append,
        List.map_cons, value, rest]

/-- A qubit of the register at an index of one digit. -/
def OneDigit (veq value : QuantumValue) : Prop :=
  ∃ index : ℤ, 0 ≤ index ∧ index < 10 ∧
    value = .extractRef veq (.constant index)

theorem OneDigit.read {veq value : QuantumValue} {index : ℤ}
    (digit : OneDigit veq value) (read : qubitIndex value = .ok index) :
    (0 ≤ index ∧ index < 10) ∧
      value = .extractRef veq (.constant index) := by
  rcases digit with ⟨position, nonneg, small, rfl⟩
  rw [qubitIndex_constant, toInt_of_fits (by omega) (by omega),
    Except.ok.injEq] at read
  rw [← read]
  exact ⟨⟨nonneg, small⟩, rfl⟩

/-- Such operands are told by their indices. -/
theorem readOneDigit {veq : QuantumValue} {values : List QuantumValue}
    {indices : List ℤ} (digits : ∀ value ∈ values, OneDigit veq value)
    (read : getIndicesOfValueRange values = .ok indices) :
    (∀ index ∈ indices, 0 ≤ index ∧ index < 10) ∧
      values = indices.map fun index => .extractRef veq (.constant index) := by
  have related := mapM_eq_ok_iff.mp read
  clear read
  induction related with
  | nil => simp
  | cons read _ induction =>
      rcases List.forall_mem_cons.mp digits with ⟨here, further⟩
      rcases induction further with ⟨small, rest⟩
      rcases here.read read with ⟨digit, value⟩
      refine ⟨List.forall_mem_cons.mpr ⟨digit, small⟩, ?_⟩
      rw [List.map_cons, ← rest, ← value]

theorem PrintAlike.eq_of_digits {veq : QuantumValue}
    {values others : List QuantumValue} (alike : PrintAlike values others)
    (digits : ∀ value ∈ values, OneDigit veq value)
    (otherDigits : ∀ value ∈ others, OneDigit veq value) :
    values = others := by
  rcases alike with ⟨indices, otherIndices, reads, otherReads, same⟩
  have read := readOneDigit digits reads
  have otherRead := readOneDigit otherDigits otherReads
  rw [read.2, otherRead.2, ← decimals_of_digits read.1,
    ← decimals_of_digits otherRead.1, same]

/--
On the first ten qubits of one register the name only leaves out the adjoint
flag, the Pauli word and the custom operation.
-/
theorem toldApart_of_digits {veq : QuantumValue} {first second : Gate A}
    (digits : ∀ value ∈ first.qubits, OneDigit veq value)
    (otherDigits : ∀ value ∈ second.qubits, OneDigit veq value) :
    ToldApart first second ↔
      (first.kind.mnemonic = second.kind.mnemonic →
        SameOperands first second →
          first.kind = second.kind ∧ first.isAdj = second.isAdj) := by
  rw [Gate.qubits, List.forall_mem_append] at digits otherDigits
  refine ⟨fun apart => apart.attributes, fun attributes => ?_⟩
  refine ⟨?_, attributes, ?_⟩
  · intro _ operand member
    rw [Gate.qubits] at member
    rcases List.mem_append.mp member with control | target
    · rcases digits.1 operand control with ⟨index, -, -, rfl⟩
      trivial
    · rcases digits.2 operand target with ⟨index, -, -, rfl⟩
      trivial
  · rintro - differ ⟨controls, targets⟩
    rcases differ with differ | differ
    · exact differ (controls.eq_of_digits digits.1 otherDigits.1)
    · exact differ (targets.eq_of_digits digits.2 otherDigits.2)

end MQSSPasses.LinAlg.GateSymbols
