import MQSSPasses.Lowerings.TikzColumns
import MQSSPasses.Lowerings.TikzTexts

/-!
# What a drawing shows of a kernel

Two aligned kernels are drawn with the same text exactly if they have
equally many qubits and their drawn operations look alike, one after the
other.  Gates look alike if their names, adjoints, printed numbers, targets
and controls are the same.  The drawing leaves out whether a control is
negated, the basis of a measurement, and the order of its operands.
-/

namespace MQSSPasses.Lowerings.TikzReading

open MQSSPasses.General.IntConversion
open MQSSPasses.General.TracedComputation
open MQSSPasses.General.OperationTree
open MQSSPasses.General.GrowingRows
open MQSSPasses.General.LabelwiseWalk
open MQSSPasses.Quake.Syntax
open MQSSPasses.Quake.Operations
open MQSSPasses.Quake.Neighbours (qubitAt)
open MQSSPasses.LinAlg.QuakeToLinAlg (getNumberOfQubits
  getParametersValues)
open MQSSPasses.Passes.QuakeQMap (isVeq)
open MQSSPasses.Lowerings.QuakeToTikz
open MQSSPasses.Lowerings.TikzColumns
open MQSSPasses.Lowerings.TikzTexts

variable {A : Type}

/-! ## Columns -/

/-- The column of a gate other than a swap. -/
def gateColumn (label : String) (targets controls : List ℤ) (row : ℕ) :
    Cell :=
  if (row : ℤ) ∈ targets then .gate label
  else if (row : ℤ) ∈ controls then .ctrl (targets.headD 0 - row)
  else .qw

def swapColumn (first second : ℤ) (row : ℕ) : Cell :=
  if (row : ℤ) = first then .swapTo (second - first)
  else if (row : ℤ) = second then .swapEnd
  else .qw

def meterColumn (operands : List QuantumValue) (row : ℕ) : Cell :=
  if operands.any (covers row) then .meter else .qw

section Columns

variable {numQubits : ℕ}

theorem RowIndices.place {indices : List ℤ}
    (rows : RowIndices numQubits indices) {index : ℤ}
    (member : index ∈ indices) :
    ∃ row < numQubits, ((row : ℕ) : ℤ) = index := by
  rcases rows.2 index member with ⟨nonneg, below⟩
  exact ⟨index.toNat, by omega, Int.toNat_of_nonneg nonneg⟩

/-! ### Gates -/

section Gates

variable {label other : String}
variable {targets controls otherTargets otherControls : List ℤ} {row : ℕ}

theorem gateColumn_eq_gate :
    gateColumn label targets controls row = .gate other ↔
      (row : ℤ) ∈ targets ∧ label = other := by
  rw [gateColumn]
  split_ifs with target control
  · simp [target]
  · simp [target]
  · simp [target]

theorem gateColumn_eq_ctrl {offset : ℤ} :
    gateColumn label targets controls row = .ctrl offset ↔
      (row : ℤ) ∉ targets ∧ (row : ℤ) ∈ controls ∧
        targets.headD 0 - row = offset := by
  rw [gateColumn]
  split_ifs with target control
  · simp [target]
  · simp [target, control]
  · simp [target, control]

theorem gateColumn_ne_swapTo {offset : ℤ} :
    gateColumn label targets controls row ≠ .swapTo offset := by
  rw [gateColumn]
  split_ifs <;> exact Cell.noConfusion

/-- What a column shows of a gate. -/
theorem gateColumn_determines
    (rows : RowIndices numQubits (targets ++ controls))
    (nonempty : targets ≠ [])
    (same :
      ∀ row < numQubits,
        gateColumn label targets controls row =
          gateColumn other otherTargets otherControls row) :
    label = other ∧ targets ⊆ otherTargets ∧ controls ⊆ otherControls ∧
      (controls ≠ [] → targets.headD 0 = otherTargets.headD 0) := by
  have target {index : ℤ} (member : index ∈ targets) :
      index ∈ otherTargets ∧ other = label := by
    rcases RowIndices.place rows (List.mem_append_left _ member) with
      ⟨row, inside, rfl⟩
    exact gateColumn_eq_gate.mp
      ((same row inside).symm.trans
        (gateColumn_eq_gate.mpr ⟨member, rfl⟩))
  have control {index : ℤ} (member : index ∈ controls) :
      index ∈ otherControls ∧ otherTargets.headD 0 = targets.headD 0 := by
    rcases RowIndices.place rows (List.mem_append_right _ member) with
      ⟨row, inside, rfl⟩
    have notTarget : (row : ℤ) ∉ targets := fun isTarget =>
      (List.nodup_append'.mp rows.1).2.2 isTarget member
    have shown :=
      (same row inside).symm.trans
        (gateColumn_eq_ctrl.mpr ⟨notTarget, member, rfl⟩)
    rcases gateColumn_eq_ctrl.mp shown with ⟨-, inControls, offsets⟩
    exact ⟨inControls, by omega⟩
  rcases List.exists_mem_of_ne_nil targets nonempty with ⟨first, isTarget⟩
  refine ⟨(target isTarget).2.symm, fun _ member => (target member).1,
    fun _ member => (control member).1, fun some => ?_⟩
  rcases List.exists_mem_of_ne_nil controls some with ⟨index, isControl⟩
  exact (control isControl).2.symm

theorem gateColumn_congr
    (sameTargets : ∀ index, index ∈ targets ↔ index ∈ otherTargets)
    (sameControls : ∀ index, index ∈ controls ↔ index ∈ otherControls)
    (leads : controls ≠ [] → targets.headD 0 = otherTargets.headD 0) :
    gateColumn label targets controls row =
      gateColumn label otherTargets otherControls row := by
  rw [gateColumn, gateColumn]
  simp only [← sameTargets, ← sameControls]
  split_ifs with target control
  · rfl
  · rw [leads (List.ne_nil_of_mem control)]
  · rfl

/-- The cells of a gate are its column. -/
theorem gateCells_eq {print : A → String} {gate : Gate A}
    {parameters : List A} (noSwap : gate.kind ≠ .swap)
    (distinct : (targets ++ controls).Nodup) :
    gateCells print gate ⟨parameters, targets, controls⟩ row =
      [gateColumn (labelGate print gate parameters) targets controls
        row] := by
  rcases List.nodup_append'.mp distinct with
    ⟨targetsNodup, controlsNodup, apart⟩
  rw [gateCells, if_neg noSwap, insertedCells, gateColumn]
  by_cases isTarget : (row : ℤ) ∈ targets
  · have notControl : (row : ℤ) ∉ controls := apart isTarget
    rw [if_pos (List.mem_append_left _ isTarget), if_pos isTarget,
      List.count_eq_one_of_mem targetsNodup isTarget,
      List.count_eq_zero_of_not_mem notControl]
    rfl
  · rw [if_neg isTarget, List.count_eq_zero_of_not_mem isTarget]
    by_cases isControl : (row : ℤ) ∈ controls
    · rw [if_pos (List.mem_append_right _ isControl), if_pos isControl,
        List.count_eq_one_of_mem controlsNodup isControl]
      rfl
    · rw [if_neg (by simp [isTarget, isControl]), if_neg isControl,
        List.count_eq_zero_of_not_mem isControl]
      rfl

end Gates

/-! ### Swaps -/

section Swaps

variable {first second : ℤ} {row : ℕ}

theorem swapColumn_eq_swapTo {offset : ℤ} :
    swapColumn first second row = .swapTo offset ↔
      (row : ℤ) = first ∧ second - first = offset := by
  rw [swapColumn]
  split_ifs with isFirst isSecond
  · simp [isFirst]
  · simp [isFirst]
  · simp [isFirst]

theorem swapColumn_ne_gate {label : String} :
    swapColumn first second row ≠ .gate label := by
  rw [swapColumn]
  split_ifs <;> exact Cell.noConfusion

theorem swapColumn_determines {otherFirst otherSecond : ℤ}
    (rows : RowIndices numQubits [first, second])
    (same :
      ∀ row < numQubits,
        swapColumn first second row =
          swapColumn otherFirst otherSecond row) :
    first = otherFirst ∧ second = otherSecond := by
  rcases RowIndices.place rows List.mem_cons_self with ⟨row, inside, isFirst⟩
  have shown :=
    (same row inside).symm.trans
      (swapColumn_eq_swapTo.mpr ⟨isFirst, rfl⟩)
  rcases swapColumn_eq_swapTo.mp shown with ⟨isOther, offsets⟩
  exact ⟨by omega, by omega⟩

/-- The cells of a swap without controls are its column. -/
theorem swapCells_eq {print : A → String} {gate : Gate A}
    {parameters : List A} (isSwap : gate.kind = .swap)
    (distinct : first ≠ second) :
    gateCells print gate ⟨parameters, [first, second], []⟩ row =
      [swapColumn first second row] := by
  rw [gateCells, if_pos isSwap, swapColumn]
  simp only [swapCells, List.append_nil, List.mem_cons, List.not_mem_nil,
    or_false]
  by_cases isFirst : (row : ℤ) = first
  · have notSecond : (row : ℤ) ≠ second := isFirst ▸ distinct
    rw [if_pos (.inl isFirst), if_pos isFirst, if_pos isFirst,
      if_neg notSecond]
    rfl
  · by_cases isSecond : (row : ℤ) = second
    · rw [if_pos (.inr isSecond), if_neg isFirst, if_neg isFirst,
        if_pos isSecond, if_pos isSecond]
      rfl
    · rw [if_neg (not_or.mpr ⟨isFirst, isSecond⟩), if_neg isFirst,
        if_neg isFirst, if_neg isSecond, if_neg isSecond]
      rfl

end Swaps

/-! ### Measurements -/

section Measurements

variable {operands others : List QuantumValue} {row : ℕ}

theorem meterColumn_ne_gate {label : String} :
    meterColumn operands row ≠ .gate label := by
  rw [meterColumn]
  split_ifs <;> exact Cell.noConfusion

theorem meterColumn_ne_swapTo {offset : ℤ} :
    meterColumn operands row ≠ .swapTo offset := by
  rw [meterColumn]
  split_ifs <;> exact Cell.noConfusion

theorem meterColumn_eq_iff :
    meterColumn operands row = meterColumn others row ↔
      ((∃ operand ∈ operands, covers row operand = true) ↔
        ∃ operand ∈ others, covers row operand = true) := by
  rw [meterColumn, meterColumn, ← List.any_eq_true, ← List.any_eq_true]
  cases operands.any (covers row) <;> cases others.any (covers row) <;>
    simp

/-- The cells of a measurement that names no row twice are its column. -/
theorem meterCells_eq {rows : List ℤ}
    (read : readRows numQubits operands = .ok rows)
    (inside : row < numQubits)
    (once : operands.countP (covers row) ≤ 1) :
    meterCells rows row = [meterColumn operands row] := by
  have count := count_readRows read inside
  rw [meterCells, meterColumn]
  by_cases measured : (row : ℤ) ∈ rows
  · have positive := List.count_pos_iff.mpr measured
    rw [count, List.countP_pos_iff] at positive
    have covered : operands.any (covers row) = true :=
      List.any_eq_true.mpr positive
    have single : operands.countP (covers row) = 1 := by
      have := List.countP_pos_iff.mpr positive
      omega
    rw [if_pos measured, if_pos covered, count, single]
    rfl
  · have zero := List.count_eq_zero_of_not_mem measured
    have uncovered : ¬ operands.any (covers row) = true := by
      rw [List.any_eq_true, ← List.countP_pos_iff]
      omega
    rw [if_neg measured, if_neg uncovered, zero]
    rfl

end Measurements

end Columns

/-! ## The column of an operation -/

section Operations

variable [Neg A] [One A] (narrow : A → A) (print : A → String)

/-- The columns that show the operations on a register. -/
inductive ColumnOf (numQubits : ℕ) (op : Op A) : (ℕ → Cell) → Prop where
  | gate {gate : Gate A} {parameters : List A} {targets controls : List ℤ}
      (isGate : op.label = .gate gate) (noSwap : gate.kind ≠ .swap)
      (reads : Reads narrow gate ⟨parameters, targets, controls⟩)
      (rows : RowIndices numQubits (targets ++ controls))
      (nonempty : targets ≠ []) :
      ColumnOf numQubits op
        (gateColumn (labelGate print gate parameters) targets controls)
  | swap {gate : Gate A} {first second : ℤ}
      (isGate : op.label = .gate gate) (isSwap : gate.kind = .swap)
      (reads : getIndicesOfValueRange gate.targets = .ok [first, second])
      (rows : RowIndices numQubits [first, second]) :
      ColumnOf numQubits op (swapColumn first second)
  | measure {basis : MeasureBasis} {operands : List QuantumValue}
      (isMeasure : op.label = .measure basis operands) :
      ColumnOf numQubits op (meterColumn operands)

/-- Whether an operation is drawn. -/
def isDrawn (op : Op A) : Bool :=
  match op.label with
  | .gate _ | .measure _ _ => true
  | _ => false

variable {narrow print}
variable {op : Op A} {veq : QuantumValue} {before : QubitLines}

theorem drawGate_column {gate : Gate A}
    (few : before.length ≤ 2147483648) (isGate : op.label = .gate gate)
    (on : GateOver veq before.length gate)
    (constant : ∀ parameter ∈ gate.parameters,
      ∀ id, parameter ≠ .argument id)
    (uncontrolled : gate.kind = .swap → gate.controls = []) :
    ∃ column, ColumnOf narrow print before.length op column ∧
      drawGate narrow print gate before =
        .ok (extend before fun row => [column row]) := by
  rcases on with ⟨targets, controls, targetsEq, controlsEq, rows, nonempty,
    arity⟩
  have fit : ∀ index ∈ targets ++ controls, toInt index = index :=
    fun index member => toInt_of_isRow few (rows.2 index member)
  rcases List.forall_mem_append.mp fit with ⟨targetsFit, controlsFit⟩
  rcases (exists_parameters_iff narrow).mpr constant with
    ⟨parameters, readParameters⟩
  have readTargets :
      getIndicesOfValueRange gate.targets = .ok targets := by
    rw [targetsEq]
    exact getIndices_qubitAt targetsFit
  have readControls :
      getIndicesOfValueRange gate.controls = .ok controls := by
    rw [controlsEq]
    exact getIndices_qubitAt controlsFit
  have reads : Reads narrow gate ⟨parameters, targets, controls⟩ :=
    ⟨readParameters, readTargets, readControls⟩
  by_cases isSwap : gate.kind = .swap
  · have none := uncontrolled isSwap
    rw [controlsEq, List.map_eq_nil_iff] at none
    subst none
    obtain ⟨first, second, rfl⟩ := List.length_eq_two.mp (arity isSwap)
    rw [List.append_nil] at rows
    have distinct : first ≠ second := by simpa using rows.1
    refine ⟨_, .swap isGate isSwap readTargets rows,
      drawGate_eq_ok.mpr ⟨_, reads, ?_, ?_⟩⟩
    · rw [Fits, if_pos isSwap]
      exact ⟨rfl, rows.2⟩
    · exact extend_congr fun row _ => (swapCells_eq isSwap distinct).symm
  · refine ⟨_, .gate isGate isSwap reads rows nonempty,
      drawGate_eq_ok.mpr ⟨_, reads, ?_, ?_⟩⟩
    · rw [Fits, if_neg isSwap]
      exact ⟨nonempty, rows.2⟩
    · exact extend_congr fun row _ => (gateCells_eq isSwap rows.1).symm

theorem drawMeasurement_column {basis : MeasureBasis}
    {operands : List QuantumValue}
    (isMeasure : op.label = .measure basis operands)
    (drawable :
      ∀ operand ∈ operands, DrawableOperand before.length operand)
    (once : ∀ row < before.length, operands.countP (covers row) ≤ 1) :
    ∃ column, ColumnOf narrow print before.length op column ∧
      drawMeasurement operands before =
        .ok (extend before fun row => [column row]) := by
  rcases readRows_isRow_iff.mpr drawable with ⟨rows, read, inRows⟩
  refine ⟨_, .measure isMeasure,
    drawMeasurement_eq_ok.mpr ⟨rows, read, inRows, ?_⟩⟩
  exact extend_congr fun row inside =>
    (meterCells_eq read inside (once row inside)).symm

variable {size : ℕ}

variable (narrow print) in
/-- An aligned operation adds its column, or nothing if it is skipped. -/
theorem dump_column (few : before.length ≤ 2147483648)
    (on : OperationOver veq size op)
    (aligned : Aligned size before.length op) :
    if isDrawn op then
      ∃ column, ColumnOf narrow print before.length op column ∧
        dumpQuakeOperationToTikz narrow print op before =
          .ok (extend before fun row => [column row])
    else dumpQuakeOperationToTikz narrow print op before = .ok before := by
  rw [dumpQuakeOperationToTikz, isDrawn]
  rcases aligned with ⟨onRows, complete⟩
  cases label : op.label with
  | gate gate =>
      rw [OperationOver, label] at on
      rw [OnRows, label] at onRows
      rw [Complete, label] at complete
      exact drawGate_column few label (on.on_rows onRows) complete.1
        complete.2
  | measure basis operands =>
      rw [Complete, label] at complete
      exact drawMeasurement_column label
        (drawable_of_onRows few label onRows) complete
  | _ =>
      rw [OperationOver, label] at on
      dsimp only at on ⊢
      rw [if_neg Bool.false_ne_true, if_neg (by simp [on])]
      rfl

variable (narrow print) in
/-- Aligned operations are drawn column by column. -/
theorem drawOperations_columns {ops : Block A}
    (few : before.length ≤ 2147483648)
    (on : ∀ op ∈ ops, OperationOver veq size op)
    (aligned : ∀ op ∈ ops, Aligned size before.length op) :
    ∃ columns,
      List.Forall₂ (ColumnOf narrow print before.length)
          (ops.filter isDrawn) columns ∧
        drawOperations narrow print ops before =
          .ok (extend before fun row =>
            columns.map fun column => column row) := by
  induction ops generalizing before with
  | nil =>
      refine ⟨[], .nil, congrArg Except.ok ?_⟩
      exact (extend_nil before).symm
  | cons op rest induction =>
      rw [List.forall_mem_cons] at on aligned
      have step := dump_column narrow print few on.1 aligned.1
      have continued {next : QubitLines}
          (drawn :
            dumpQuakeOperationToTikz narrow print op before = .ok next) :
          drawOperations narrow print (op :: rest) before =
            drawOperations narrow print rest next := by
        rw [drawOperations, List.foldlM_cons, drawn]
        rfl
      by_cases isDrawnHere : isDrawn op = true
      · rw [if_pos isDrawnHere] at step
        rcases step with ⟨column, shown, drawn⟩
        have length :
            (extend before fun row => [column row]).length =
              before.length := length_extend _ _
        rcases induction (by rw [length]; exact few) on.2
          (by rw [length]; exact aligned.2) with ⟨columns, later, run⟩
        rw [length] at later
        refine ⟨column :: columns, ?_, ?_⟩
        · rw [List.filter_cons_of_pos isDrawnHere]
          exact .cons shown later
        · rw [continued drawn, run, extend_extend]
          rfl
      · rw [if_neg isDrawnHere] at step
        rcases induction few on.2 aligned.2 with ⟨columns, later, run⟩
        refine ⟨columns, ?_, ?_⟩
        · rw [List.filter_cons_of_neg isDrawnHere]
          exact later
        · rw [continued step, run]

end Operations

/-! ## What two operations that look alike have in common -/

section Comparison

variable [Neg A] [One A] (narrow : A → A) (print : A → String)

/-- The numbers in the label of a gate. -/
def printedParameters (gate : Gate A) : Except Fault (List String) :=
  (getParametersValues narrow gate.parameters).map (List.map print)

/-- The target to which the controls of a gate lead. -/
def leadingTarget (gate : Gate A) : Except Fault (Option ℤ) :=
  (getIndicesOfValueRange gate.targets).map List.head?

/-- Two operations that a drawing does not tell apart. -/
inductive LooksAlike (numQubits : ℕ) (op other : Op A) : Prop where
  | gate {gate otherGate : Gate A} (isGate : op.label = .gate gate)
      (isOther : other.label = .gate otherGate)
      (noSwap : gate.kind ≠ .swap) (otherNoSwap : otherGate.kind ≠ .swap)
      (name : gate.kind.mnemonic = otherGate.kind.mnemonic)
      (adjoint : gate.isAdj = otherGate.isAdj)
      (parameters :
        printedParameters narrow print gate =
          printedParameters narrow print otherGate)
      (targets :
        ∀ row, AtRow gate.targets row ↔ AtRow otherGate.targets row)
      (controls :
        ∀ row, AtRow gate.controls row ↔ AtRow otherGate.controls row)
      (leads :
        gate.controls ≠ [] → leadingTarget gate = leadingTarget otherGate)
  | swap {gate otherGate : Gate A} (isGate : op.label = .gate gate)
      (isOther : other.label = .gate otherGate)
      (isSwap : gate.kind = .swap) (otherSwap : otherGate.kind = .swap)
      (targets :
        getIndicesOfValueRange gate.targets =
          getIndicesOfValueRange otherGate.targets)
  | measure {basis otherBasis : MeasureBasis}
      {operands otherOperands : List QuantumValue}
      (isMeasure : op.label = .measure basis operands)
      (isOther : other.label = .measure otherBasis otherOperands)
      (rows :
        ∀ row < numQubits,
          (∃ operand ∈ operands, covers (row : ℕ) operand = true) ↔
            ∃ operand ∈ otherOperands, covers row operand = true)

variable {narrow print}

theorem atRow_iff {values : List QuantumValue} {indices : List ℤ}
    (read : getIndicesOfValueRange values = .ok indices) {row : ℤ} :
    AtRow values row ↔ row ∈ indices := by
  have each := mapM_eq_ok_iff.mp read
  clear read
  induction each with
  | nil => simp [AtRow]
  | @cons value index rest _ first _ induction =>
      have here :
          AtRow (value :: rest) row ↔ index = row ∨ AtRow rest row := by
        simp [AtRow, first]
      exact here.trans
        ((or_congr eq_comm induction).trans List.mem_cons.symm)

omit [Neg A] [One A] in
theorem leadingTarget_eq_iff {gate other : Gate A}
    {targets otherTargets : List ℤ}
    (read : getIndicesOfValueRange gate.targets = .ok targets)
    (otherRead : getIndicesOfValueRange other.targets = .ok otherTargets)
    (nonempty : targets ≠ []) (otherNonempty : otherTargets ≠ []) :
    leadingTarget gate = leadingTarget other ↔
      targets.headD 0 = otherTargets.headD 0 := by
  rw [leadingTarget, leadingTarget, read, otherRead]
  rcases targets with - | ⟨target, rest⟩
  · exact absurd rfl nonempty
  · rcases otherTargets with - | ⟨other, otherRest⟩
    · exact absurd rfl otherNonempty
    · simp [Except.map]

theorem printedParameters_eq_iff {gate other : Gate A}
    {parameters otherParameters : List A}
    (read : getParametersValues narrow gate.parameters = .ok parameters)
    (otherRead :
      getParametersValues narrow other.parameters = .ok otherParameters) :
    printedParameters narrow print gate =
        printedParameters narrow print other ↔
      parameters.map print = otherParameters.map print := by
  rw [printedParameters, printedParameters, read, otherRead]
  simp [Except.map]

variable {numQubits : ℕ} {op other : Op A} {column otherColumn : ℕ → Cell}

/-! ### The columns of each kind of operation -/

theorem ColumnOf.of_gate {gate : Gate A}
    (shown : ColumnOf narrow print numQubits op column)
    (isGate : op.label = .gate gate) (noSwap : gate.kind ≠ .swap) :
    ∃ parameters targets controls,
      Reads narrow gate ⟨parameters, targets, controls⟩ ∧
        targets ≠ [] ∧
        column =
          gateColumn (labelGate print gate parameters) targets controls := by
  cases shown with
  | gate isSame _ reads _ nonempty =>
      cases isGate.symm.trans isSame
      exact ⟨_, _, _, reads, nonempty, rfl⟩
  | swap isSame isSwap =>
      cases isGate.symm.trans isSame
      exact absurd isSwap noSwap
  | measure isMeasure => cases isGate.symm.trans isMeasure

theorem ColumnOf.of_swap {gate : Gate A}
    (shown : ColumnOf narrow print numQubits op column)
    (isGate : op.label = .gate gate) (isSwap : gate.kind = .swap) :
    ∃ first second,
      getIndicesOfValueRange gate.targets = .ok [first, second] ∧
        column = swapColumn first second := by
  cases shown with
  | gate isSame noSwap =>
      cases isGate.symm.trans isSame
      exact absurd isSwap noSwap
  | swap isSame _ reads =>
      cases isGate.symm.trans isSame
      exact ⟨_, _, reads, rfl⟩
  | measure isMeasure => cases isGate.symm.trans isMeasure

theorem ColumnOf.of_measure {basis : MeasureBasis}
    {operands : List QuantumValue}
    (shown : ColumnOf narrow print numQubits op column)
    (isMeasure : op.label = .measure basis operands) :
    column = meterColumn operands := by
  cases shown with
  | gate isGate | swap isGate => cases isMeasure.symm.trans isGate
  | measure isSame =>
      cases isMeasure.symm.trans isSame
      rfl

/-- Operations that look alike have the same column. -/
theorem LooksAlike.same_column (prints : PrintsNumbers print)
    (looks : LooksAlike narrow print numQubits op other)
    (shown : ColumnOf narrow print numQubits op column)
    (otherShown : ColumnOf narrow print numQubits other otherColumn) :
    ∀ row < numQubits, column row = otherColumn row := by
  cases looks with
  | gate isGate isOther noSwap otherNoSwap name adjoint parameters targets
      controls leads =>
      rcases shown.of_gate isGate noSwap with
        ⟨values, indices, controlIndices, reads, nonempty, rfl⟩
      rcases otherShown.of_gate isOther otherNoSwap with
        ⟨otherValues, otherIndices, otherControls, otherReads,
          otherNonempty, rfl⟩
      have labels :=
        (labelGate_eq_iff prints).mpr
          ⟨name, adjoint,
            (printedParameters_eq_iff reads.1 otherReads.1).mp parameters⟩
      intro row _
      rw [labels]
      refine gateColumn_congr (fun index => ?_) (fun index => ?_) ?_
      · rw [← atRow_iff reads.2.1, ← atRow_iff otherReads.2.1]
        exact targets index
      · rw [← atRow_iff reads.2.2, ← atRow_iff otherReads.2.2]
        exact controls index
      · intro some
        refine (leadingTarget_eq_iff reads.2.1 otherReads.2.1 nonempty
          otherNonempty).mp (leads fun none => some ?_)
        rw [← List.length_eq_zero_iff, ← indices_length reads.2.2, none]
        rfl
  | swap isGate isOther isSwap otherSwap targets =>
      rcases shown.of_swap isGate isSwap with ⟨first, second, reads, rfl⟩
      rcases otherShown.of_swap isOther otherSwap with
        ⟨otherFirst, otherSecond, otherReads, rfl⟩
      rw [reads, otherReads] at targets
      cases targets
      exact fun _ _ => rfl
  | measure isMeasure isOther rows =>
      rw [shown.of_measure isMeasure, otherShown.of_measure isOther]
      exact fun row inside => meterColumn_eq_iff.mpr (rows row inside)

theorem gateColumn_shows {label : String} {targets controls : List ℤ}
    (rows : RowIndices numQubits (targets ++ controls))
    (nonempty : targets ≠ []) :
    ∃ row < numQubits,
      gateColumn label targets controls row = .gate label := by
  rcases List.exists_mem_of_ne_nil targets nonempty with ⟨first, isTarget⟩
  rcases RowIndices.place rows (List.mem_append_left _ isTarget) with
    ⟨row, inside, rfl⟩
  exact ⟨row, inside, gateColumn_eq_gate.mpr ⟨isTarget, rfl⟩⟩

theorem swapColumn_shows {first second : ℤ}
    (rows : RowIndices numQubits [first, second]) :
    ∃ row < numQubits,
      swapColumn first second row = .swapTo (second - first) := by
  rcases RowIndices.place rows List.mem_cons_self with ⟨row, inside, isFirst⟩
  exact ⟨row, inside, swapColumn_eq_swapTo.mpr ⟨isFirst, rfl⟩⟩

/-- Operations with the same column look alike. -/
theorem looksAlike_of_same_column (prints : PrintsNumbers print)
    (shown : ColumnOf narrow print numQubits op column)
    (otherShown : ColumnOf narrow print numQubits other otherColumn)
    (same : ∀ row < numQubits, column row = otherColumn row) :
    LooksAlike narrow print numQubits op other := by
  cases shown with
  | gate isGate noSwap reads rows nonempty =>
      -- The row of a target shows that the other one is such a gate, too.
      rcases gateColumn_shows rows nonempty with ⟨row, inside, isCell⟩
      rw [same row inside] at isCell
      cases otherShown with
      | gate isOther otherNoSwap otherReads otherRows otherNonempty =>
          rcases gateColumn_determines rows nonempty same with
            ⟨labels, targets, controls, leads⟩
          rcases gateColumn_determines otherRows otherNonempty
            (fun row inside => (same row inside).symm) with
            ⟨-, otherTargets, otherControls, -⟩
          rcases (labelGate_eq_iff prints).mp labels with
            ⟨name, adjoint, printed⟩
          refine .gate isGate isOther noSwap otherNoSwap name adjoint
            ((printedParameters_eq_iff reads.1 otherReads.1).mpr printed)
            (fun row => ?_) (fun row => ?_) fun some => ?_
          · rw [atRow_iff reads.2.1, atRow_iff otherReads.2.1]
            exact ⟨fun member => targets member,
              fun member => otherTargets member⟩
          · rw [atRow_iff reads.2.2, atRow_iff otherReads.2.2]
            exact ⟨fun member => controls member,
              fun member => otherControls member⟩
          · refine (leadingTarget_eq_iff reads.2.1 otherReads.2.1 nonempty
              otherNonempty).mpr (leads fun none => some ?_)
            rw [← List.length_eq_zero_iff, indices_length reads.2.2, none]
            rfl
      | swap => exact absurd isCell swapColumn_ne_gate
      | measure => exact absurd isCell meterColumn_ne_gate
  | swap isGate isSwap reads rows =>
      rcases swapColumn_shows rows with ⟨row, inside, isCell⟩
      rw [same row inside] at isCell
      cases otherShown with
      | gate => exact absurd isCell gateColumn_ne_swapTo
      | swap isOther otherSwap otherReads =>
          rcases swapColumn_determines rows same with ⟨rfl, rfl⟩
          exact .swap isGate isOther isSwap otherSwap
            (reads.trans otherReads.symm)
      | measure => exact absurd isCell meterColumn_ne_swapTo
  | measure isMeasure =>
      cases otherShown with
      | gate isOther otherNoSwap otherReads otherRows otherNonempty =>
          rcases gateColumn_shows otherRows otherNonempty with
            ⟨row, inside, isCell⟩
          rw [← same row inside] at isCell
          exact absurd isCell meterColumn_ne_gate
      | swap isOther otherSwap otherReads otherRows =>
          rcases swapColumn_shows otherRows with ⟨row, inside, isCell⟩
          rw [← same row inside] at isCell
          exact absurd isCell meterColumn_ne_swapTo
      | measure isOther =>
          exact .measure isMeasure isOther fun row inside =>
            meterColumn_eq_iff.mp (same row inside)

end Comparison

/-! ## Whole drawings -/

section Drawings

/-- A kernel on a register whose operations are drawn in columns. -/
structure AlignedCircuit (veq : QuantumValue) (size : ℕ) (kernel : Op A) :
    Prop extends CircuitOver veq size kernel where
  aligned :
    ∀ op ∈ postOrder kernel,
      Aligned size (getNumberOfQubits kernel).toNat op

/-- The gates and measurements of a kernel, in the order of the walk. -/
def drawnOperations (kernel : Op A) : Block A :=
  (postOrder kernel).filter isDrawn

/-- The cells of a drawing with the given columns. -/
def drawing (numQubits : ℕ) (columns : List (ℕ → Cell)) : QubitLines :=
  extend (emptyLines numQubits) fun row =>
    columns.map fun column => column row

theorem length_drawing (numQubits : ℕ) (columns : List (ℕ → Cell)) :
    (drawing numQubits columns).length = numQubits := by
  rw [drawing, length_extend, length_emptyLines]

theorem mem_drawing {numQubits : ℕ} {columns : List (ℕ → Cell)}
    {line : List Cell} (member : line ∈ drawing numQubits columns) :
    ∃ row < numQubits,
      line = .lstick :: columns.map fun column => column row := by
  rcases List.getElem?_of_mem member with ⟨row, located⟩
  have inside := (List.getElem?_eq_some_iff.mp located).1
  rw [length_drawing] at inside
  rw [drawing, getElem?_extend, emptyLines,
    List.getElem?_replicate_of_lt inside, Option.map_some,
    Option.some.injEq] at located
  exact ⟨row, inside, located.symm⟩

/-- Drawings of one size are the same if their columns are. -/
theorem drawing_eq_iff {numQubits : ℕ} {columns others : List (ℕ → Cell)} :
    drawing numQubits columns = drawing numQubits others ↔
      ∀ row < numQubits,
        (columns.map fun column => column row) =
          others.map fun column => column row := by
  constructor
  · intro equal row inside
    refine extend_inj equal ?_
    rw [length_emptyLines]
    exact inside
  · intro same
    refine extend_congr fun row inside => same row ?_
    rw [length_emptyLines] at inside
    exact inside

/-- Columns are the same one after the other if they are in each row. -/
theorem columns_eq_iff {numQubits : ℕ} (positive : 0 < numQubits)
    {columns others : List (ℕ → Cell)} :
    (∀ row < numQubits,
        (columns.map fun column => column row) =
          others.map fun column => column row) ↔
      List.Forall₂
        (fun column other => ∀ row < numQubits, column row = other row)
        columns others := by
  constructor
  · intro same
    induction columns generalizing others with
    | nil =>
        have none := List.map_eq_nil_iff.mp (same 0 positive).symm
        rw [none]
        exact .nil
    | cons column rest induction =>
        rcases others with - | ⟨other, otherRest⟩
        · cases same 0 positive
        · exact .cons
            (fun row inside => (List.cons.inj (same row inside)).1)
            (induction fun row inside =>
              (List.cons.inj (same row inside)).2)
  · intro same row inside
    induction same with
    | nil => rfl
    | cons here _ induction =>
        rw [List.map_cons, List.map_cons, here row inside, induction]

variable [Neg A] [One A] {narrow : A → A} {print : A → String}

theorem forall₂_looksAlike (prints : PrintsNumbers print) {numQubits : ℕ}
    {ops otherOps : Block A} {columns others : List (ℕ → Cell)}
    (shown : List.Forall₂ (ColumnOf narrow print numQubits) ops columns)
    (otherShown :
      List.Forall₂ (ColumnOf narrow print numQubits) otherOps others) :
    List.Forall₂
        (fun column other => ∀ row < numQubits, column row = other row)
        columns others ↔
      List.Forall₂ (LooksAlike narrow print numQubits) ops otherOps := by
  induction shown generalizing otherOps others with
  | nil =>
      cases otherShown with
      | nil => exact iff_of_true .nil .nil
      | cons => exact iff_of_false (by rintro ⟨⟩) (by rintro ⟨⟩)
  | cons here _ induction =>
      cases otherShown with
      | nil => exact iff_of_false (by rintro ⟨⟩) (by rintro ⟨⟩)
      | cons there otherLater =>
          rw [List.forall₂_cons, List.forall₂_cons, induction otherLater]
          refine and_congr_left fun _ => ⟨fun same => ?_, fun looks => ?_⟩
          · exact looksAlike_of_same_column prints here there same
          · exact looks.same_column prints here there

theorem ColumnOf.readable (prints : PrintsNumbers print) {numQubits : ℕ}
    {op : Op A} {column : ℕ → Cell}
    (shown : ColumnOf narrow print numQubits op column) (row : ℕ) :
    Readable (column row) := by
  cases shown with
  | gate =>
      intro label isLabel
      rcases gateColumn_eq_gate.mp isLabel with ⟨-, rfl⟩
      exact readable_label prints _ _ _ rfl
  | swap => exact fun _ isLabel => absurd isLabel swapColumn_ne_gate
  | measure => exact fun _ isLabel => absurd isLabel meterColumn_ne_gate

theorem readable_drawing (prints : PrintsNumbers print) {numQubits : ℕ}
    {ops : Block A} {columns : List (ℕ → Cell)}
    (shown : List.Forall₂ (ColumnOf narrow print numQubits) ops columns) :
    ReadableRows (drawing numQubits columns) where
  started line member := by
    rcases mem_drawing member with ⟨row, -, rfl⟩
    exact List.cons_ne_nil _ _
  readable line member cell inLine := by
    rcases mem_drawing member with ⟨row, -, rfl⟩
    rcases List.mem_cons.mp inLine with rfl | later
    · rintro label ⟨⟩
    · rcases List.mem_map.mp later with ⟨column, inColumns, rfl⟩
      rcases forall₂_mem_right shown inColumns with ⟨op, -, here⟩
      exact here.readable prints row

variable {argumentSize : ℕ → ℕ} {veq otherVeq : QuantumValue}
variable {size otherSize : ℕ}
variable {kernel other : Op A} {text otherText : String}

/-- What the pass writes for an aligned circuit. -/
theorem text_of_runOnOperation (circuit : AlignedCircuit veq size kernel)
    (drawn : runOnOperation narrow print argumentSize kernel = .ok text) :
    0 ≤ getNumberOfQubits kernel ∧
      ∃ columns,
        List.Forall₂
            (ColumnOf narrow print (getNumberOfQubits kernel).toNat)
            (drawnOperations kernel) columns ∧
          text =
            tikzText (drawing (getNumberOfQubits kernel).toNat columns) := by
  have length := length_emptyLines (getNumberOfQubits kernel).toNat
  have few := getNumberOfQubits_few kernel
  have aligned := circuit.aligned
  rw [← length] at few aligned
  rcases drawOperations_columns narrow print few circuit.operations
    aligned with ⟨columns, shown, run⟩
  rw [length] at shown
  rcases except_bind_eq_ok.mp drawn with ⟨lines, drawnLines, ⟨⟩⟩
  rcases except_bind_eq_ok.mp drawnLines with ⟨-, -, rest⟩
  rcases except_bind_eq_ok.mp rest with ⟨_, made, ran⟩
  rcases initialLines_eq_ok_iff.mp made with ⟨nonnegative, rfl⟩
  rw [run, Except.ok.injEq] at ran
  refine ⟨nonnegative, columns, shown, ?_⟩
  rw [← ran]
  rfl

/--
Two drawings have the same text exactly if the kernels have equally many
qubits and their drawn operations look alike.
-/
theorem text_eq_iff_looksAlike (prints : PrintsNumbers print)
    (circuit : AlignedCircuit veq size kernel)
    (otherCircuit : AlignedCircuit otherVeq otherSize other)
    (drawn : runOnOperation narrow print argumentSize kernel = .ok text)
    (otherDrawn :
      runOnOperation narrow print argumentSize other = .ok otherText) :
    text = otherText ↔
      getNumberOfQubits kernel = getNumberOfQubits other ∧
        (0 < getNumberOfQubits kernel →
          List.Forall₂
            (LooksAlike narrow print (getNumberOfQubits kernel).toNat)
            (drawnOperations kernel) (drawnOperations other)) := by
  rcases text_of_runOnOperation circuit drawn with
    ⟨nonnegative, columns, shown, rfl⟩
  rcases text_of_runOnOperation otherCircuit otherDrawn with
    ⟨otherNonnegative, others, otherShown, rfl⟩
  have sizes :
      (getNumberOfQubits kernel).toNat = (getNumberOfQubits other).toNat ↔
        getNumberOfQubits kernel = getNumberOfQubits other := by
    omega
  have positive :
      0 < (getNumberOfQubits kernel).toNat ↔
        0 < getNumberOfQubits kernel := by
    omega
  rw [← sizes, ← positive]
  generalize (getNumberOfQubits kernel).toNat = numQubits at shown ⊢
  generalize (getNumberOfQubits other).toNat = otherQubits at otherShown ⊢
  have sameRows :
      tikzText (drawing numQubits columns) =
          tikzText (drawing otherQubits others) ↔
        drawing numQubits columns = drawing otherQubits others :=
    ⟨tikzText_inj (readable_drawing prints shown)
      (readable_drawing prints otherShown), congrArg tikzText⟩
  rw [sameRows]
  constructor
  · intro equal
    have size := congrArg List.length equal
    rw [length_drawing, length_drawing] at size
    refine ⟨size, fun positive => ?_⟩
    rw [← size] at equal otherShown
    rw [← forall₂_looksAlike prints shown otherShown,
      ← columns_eq_iff positive, ← drawing_eq_iff]
    exact equal
  · rintro ⟨rfl, looks⟩
    rw [drawing_eq_iff]
    rcases Nat.eq_zero_or_pos numQubits with rfl | positive
    · exact fun _ outside => absurd outside (Nat.not_lt_zero _)
    · rw [columns_eq_iff positive,
        forall₂_looksAlike prints shown otherShown]
      exact looks positive

end Drawings

/-! ### Two circuits with one drawing -/

/-- A Bell pair with a negated control, both qubits measured along X. -/
def negatedBell : Op ℤ :=
  kernelOf
    [.leaf (.alloca (.veqAlloca 0 2)),
      (Gate.create .h false [] [] [qubitAt (.veqAlloca 0 2) 0]).op,
      (⟨.x, false, [], [qubitAt (.veqAlloca 0 2) 0],
        [qubitAt (.veqAlloca 0 2) 1], some [true]⟩ : Gate ℤ).op,
      .leaf (.measure .mx
        [qubitAt (.veqAlloca 0 2) 1, qubitAt (.veqAlloca 0 2) 0])]

/-- A qubit of the register has a row. -/
theorem bellRow (index : ℤ) (inside : IsRow 2 index) :
    HasRow 2 (qubitAt (.veqAlloca 0 2) index) :=
  hasRow_qubitAt.mpr inside

theorem measuredBell_aligned :
    AlignedCircuit (.veqAlloca 0 2) 2 measuredBell where
  toCircuitOver := measuredBell_circuitOver
  aligned := by
    change ∀ op ∈ [_, _, _, _, _], Aligned 2 2 op
    simp only [List.forall_mem_cons]
    have once : ∀ row < 2,
        [QuantumValue.veqAlloca 0 2].countP (covers (row : ℕ)) ≤ 1 := by
      decide
    refine ⟨⟨trivial, trivial⟩, ⟨?_, by rintro _ ⟨⟩, by rintro ⟨⟩⟩,
      ⟨?_, by rintro _ ⟨⟩, by rintro ⟨⟩⟩, ⟨?_, once⟩, ⟨trivial, trivial⟩,
      by simp⟩
    · simpa [OnRows, Gate.qubits, Gate.create] using bellRow 0 (by decide)
    · simpa [OnRows, Gate.qubits, Gate.create] using
        ⟨bellRow 0 (by decide), bellRow 1 (by decide)⟩
    · intro operand member
      cases List.mem_singleton.mp member
      rfl

theorem negatedBell_aligned :
    AlignedCircuit (.veqAlloca 0 2) 2 negatedBell where
  register := rfl
  operations := by
    change ∀ op ∈ [_, _, _, _, _], OperationOver _ 2 op
    simp only [List.forall_mem_cons]
    refine ⟨rfl,
      ⟨[0], [], rfl, rfl, ⟨by decide, by decide⟩, by decide, by rintro ⟨⟩⟩,
      ⟨[1], [0], rfl, rfl, ⟨by decide, by decide⟩, by decide,
        by rintro ⟨⟩⟩, ?_, rfl, by simp⟩
    intro operand member
    simp only [List.mem_cons, List.not_mem_nil, or_false] at member
    rcases member with rfl | rfl
    · exact .inr ⟨1, rfl, by decide⟩
    · exact .inr ⟨0, rfl, by decide⟩
  aligned := by
    change ∀ op ∈ [_, _, _, _, _], Aligned 2 2 op
    simp only [List.forall_mem_cons]
    have once : ∀ row < 2,
        [qubitAt (.veqAlloca 0 2) 1, qubitAt (.veqAlloca 0 2) 0].countP
          (covers (row : ℕ)) ≤ 1 := by
      decide
    refine ⟨⟨trivial, trivial⟩, ⟨?_, by rintro _ ⟨⟩, by rintro ⟨⟩⟩,
      ⟨?_, by rintro _ ⟨⟩, by rintro ⟨⟩⟩, ⟨?_, once⟩, ⟨trivial, trivial⟩,
      by simp⟩
    · simpa [OnRows, Gate.qubits, Gate.create] using bellRow 0 (by decide)
    · simpa [OnRows, Gate.qubits] using
        ⟨bellRow 0 (by decide), bellRow 1 (by decide)⟩
    · intro operand member
      simp only [List.mem_cons, List.not_mem_nil, or_false] at member
      rcases member with rfl | rfl
      · exact bellRow 1 (by decide)
      · exact bellRow 0 (by decide)

/-- Neither the negation nor the basis is drawn. -/
theorem bells_drawn_alike :
    ∃ text otherText,
      runOnOperation id toString (fun _ => 0) measuredBell = .ok text ∧
        runOnOperation id toString (fun _ => 0) negatedBell =
          .ok otherText ∧
        text = otherText := by
  have returned :
      ∃ text,
        runOnOperation id toString (fun _ => 0) measuredBell = .ok text :=
    ⟨_, rfl⟩
  have otherReturned :
      ∃ text,
        runOnOperation id toString (fun _ => 0) negatedBell = .ok text :=
    ⟨_, rfl⟩
  rcases returned with ⟨text, drawn⟩
  rcases otherReturned with ⟨otherText, otherDrawn⟩
  refine ⟨text, otherText, drawn, otherDrawn,
    (text_eq_iff_looksAlike toString_int measuredBell_aligned
      negatedBell_aligned drawn otherDrawn).mpr ⟨rfl, fun _ => ?_⟩⟩
  have measured : ∀ row < 2,
      (∃ operand ∈ [QuantumValue.veqAlloca 0 2],
          covers (row : ℕ) operand = true) ↔
        ∃ operand ∈
          [qubitAt (.veqAlloca 0 2) 1, qubitAt (.veqAlloca 0 2) 0],
          covers row operand = true := by
    decide
  refine .cons ?_ (.cons ?_ (.cons ?_ .nil))
  · exact .gate rfl rfl (by decide) (by decide) rfl rfl rfl
      (fun _ => Iff.rfl) (fun _ => Iff.rfl) fun _ => rfl
  · exact .gate rfl rfl (by decide) (by decide) rfl rfl rfl
      (fun _ => Iff.rfl) (fun _ => Iff.rfl) fun _ => rfl
  · exact .measure rfl rfl measured

end MQSSPasses.Lowerings.TikzReading
