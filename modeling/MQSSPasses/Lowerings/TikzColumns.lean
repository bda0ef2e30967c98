import MQSSPasses.Lowerings.QuakeToTikz
import MQSSPasses.Quake.Neighbours

/-!
# The columns of a drawing

Each operation on the qubits of a register is meant to be drawn as one
column: one cell in every row, which shows what the operation does there.
A swap inserts no cells for its controls, although the rows of these are
not filled either, a row that a measurement names twice gets two meters,
and the qubits of a register argument have no rows.  These are the only
ways in which a column fails, if no gate has an argument for its parameter.
-/

namespace MQSSPasses.Lowerings.TikzColumns

open MQSSPasses.General.IntConversion
open MQSSPasses.General.TracedComputation
open MQSSPasses.General.OperationTree
open MQSSPasses.General.GrowingRows
open MQSSPasses.Quake.Syntax
open MQSSPasses.Quake.Operations
open MQSSPasses.Quake.Neighbours (qubitAt)
open MQSSPasses.LinAlg.QuakeToLinAlg (getNumberOfQubits
  getNumberOfQubits_eq allocatedQubits getParametersValues)
open MQSSPasses.Passes.QuakeQMap (isVeq)
open MQSSPasses.Lowerings.QuakeToTikz

variable {A : Type}

/-! ## What a column shows -/

/-- One of the values has the index of a row. -/
def AtRow (values : List QuantumValue) (row : ℤ) : Prop :=
  ∃ value ∈ values, qubitIndex value = .ok row

/-- A row which an operand of a measurement covers. -/
def covers (row : ℤ) (operand : QuantumValue) : Bool :=
  isVeq operand ||
    decide (qubitIndex operand = .ok row)

/-- A qubit whose index is a row. -/
def HasRow (numQubits : ℕ) (value : QuantumValue) : Prop :=
  ∃ veq index, value = .extractRef veq (.constant index) ∧
    IsRow numQubits index

/--
The rows are those of the operation's qubits, where a measured register has
the given size.
-/
def OnRows (size numQubits : ℕ) (op : Op A) : Prop :=
  match op.label with
  | .gate gate => ∀ operand ∈ gate.qubits, HasRow numQubits operand
  | .measure _ operands =>
      ∀ operand ∈ operands,
        if isVeq operand = true then size = numQubits
        else HasRow numQubits operand
  | _ => True

/-- The operation acts on the qubit of a row. -/
def UsesRow (op : Op A) (row : ℤ) : Prop :=
  match op.label with
  | .gate gate => AtRow gate.targets row ∨ AtRow gate.controls row
  | .measure _ operands => ∃ operand ∈ operands, covers row operand = true
  | _ => False

section Columns

variable [Neg A] [One A] (narrow : A → A) (print : A → String)

/-- The cells that show an operation in a row. -/
inductive Shows (op : Op A) (row : ℕ) : Cell → Prop where
  | gate {gate : Gate A} {parameters : List A}
      (isGate : op.label = .gate gate) (noSwap : gate.kind ≠ .swap)
      (target : AtRow gate.targets row)
      (read : getParametersValues narrow gate.parameters = .ok parameters) :
      Shows op row (.gate (labelGate print gate parameters))
  | swapTo {gate : Gate A} {first second : QuantumValue} {offset : ℤ}
      (isGate : op.label = .gate gate) (isSwap : gate.kind = .swap)
      (targets : gate.targets = [first, second])
      (here : qubitIndex first = .ok (row : ℤ))
      (there :
        qubitIndex second = .ok (row + offset)) :
      Shows op row (.swapTo offset)
  | swapEnd {gate : Gate A} {first second : QuantumValue}
      (isGate : op.label = .gate gate) (isSwap : gate.kind = .swap)
      (targets : gate.targets = [first, second])
      (here : qubitIndex second = .ok (row : ℤ)) :
      Shows op row .swapEnd
  | ctrl {gate : Gate A} {offset : ℤ} (isGate : op.label = .gate gate)
      (control : AtRow gate.controls row)
      (leads : AtRow gate.targets (row + offset)) :
      Shows op row (.ctrl offset)
  | meter {basis : MeasureBasis} {operands : List QuantumValue}
      (isMeasure : op.label = .measure basis operands)
      (measured : ∃ operand ∈ operands, covers row operand = true) :
      Shows op row .meter
  | wire (idle : ¬ UsesRow op row) : Shows op row .qw

/-- An operation that is drawn, and not skipped. -/
def IsDrawn (op : Op A) : Prop :=
  match op.label with
  | .gate _ | .measure _ _ => True
  | _ => False

/--
The rows after an operation have one more column, which shows it, and every
qubit of the operation has a row.
-/
def DrawsColumn (size : ℕ) (op : Op A) (before after : QubitLines) : Prop :=
  OnRows size before.length op ∧
    ∃ column : ℕ → Cell, after = extend before (fun row => [column row]) ∧
      ∀ row < before.length, Shows narrow print op row (column row)

/--
The call at an operation returns rows of one length, with a new column that
shows the operation if it is one that is drawn.
-/
def CallDraws (size : ℕ) (op : Op A) (before : QubitLines) : Prop :=
  ∃ after,
    dumpQuakeOperationToTikz narrow print op before = .ok after ∧
      (∃ width, Rectangular width after) ∧
      (IsDrawn op → DrawsColumn narrow print size op before after) ∧
      (¬ IsDrawn op → after = before)

/-- The rows are made, and every call that the walk makes draws its column. -/
def EveryCallDraws (size : ℕ) (kernel : Op A) : Prop :=
  ∃ qubitTikz, initialLines (getNumberOfQubits kernel) = .ok qubitTikz ∧
    ∀ before op after, postOrder kernel = before ++ op :: after →
      ∀ qubitLines,
        drawOperations narrow print before qubitTikz = .ok qubitLines →
          CallDraws narrow print size op qubitLines

end Columns

/-! ## Circuits on a register -/

/-- Different indices below a number of qubits. -/
def RowIndices (numQubits : ℕ) (indices : List ℤ) : Prop :=
  indices.Nodup ∧ ∀ index ∈ indices, IsRow numQubits index

/-- A gate on different qubits of a register, with as many as it needs. -/
def GateOver (veq : QuantumValue) (size : ℕ) (gate : Gate A) : Prop :=
  ∃ targets controls : List ℤ,
    gate.targets = targets.map (qubitAt veq) ∧
      gate.controls = controls.map (qubitAt veq) ∧
      RowIndices size (targets ++ controls) ∧ targets ≠ [] ∧
      (gate.kind = .swap → targets.length = 2)

/-- A gate or a measurement on a register, or what the drawing skips. -/
def OperationOver (veq : QuantumValue) (size : ℕ) (op : Op A) : Prop :=
  match op.label with
  | .gate gate => GateOver veq size gate
  | .measure _ operands =>
      ∀ operand ∈ operands, operand = veq ∨
        ∃ index, operand = qubitAt veq index ∧ IsRow size index
  | label => isOtherQuakeOperation label = false

/-- A register of a size; that of an argument is left open. -/
def IsRegister (size : ℕ) : QuantumValue → Prop
  | .veqArgument _ => True
  | .veqAlloca _ allocated => allocated = size
  | _ => False

/-- A kernel whose operations are on one register. -/
structure CircuitOver (veq : QuantumValue) (size : ℕ) (kernel : Op A) :
    Prop where
  register : IsRegister size veq
  operations : ∀ op ∈ postOrder kernel, OperationOver veq size op

/--
The gates that are drawn without a fault and with their controls, and the
measurements that name no row twice.
-/
def Complete (numQubits : ℕ) (op : Op A) : Prop :=
  match op.label with
  | .gate gate =>
      (∀ parameter ∈ gate.parameters, ∀ id, parameter ≠ .argument id) ∧
        (gate.kind = .swap → gate.controls = [])
  | .measure _ operands =>
      ∀ row < numQubits, operands.countP (covers row) ≤ 1
  | _ => True

/-- An operation which is drawn completely on the rows of its qubits. -/
def Aligned (size numQubits : ℕ) (op : Op A) : Prop :=
  OnRows size numQubits op ∧ Complete numQubits op

/-! ## The columns of gates -/

/-- The index of a row fits into an `int`, as there are no more rows. -/
theorem toInt_of_isRow {numQubits : ℕ} (few : numQubits ≤ 2147483648)
    {index : ℤ} (inside : IsRow numQubits index) : toInt index = index := by
  rcases inside with ⟨nonnegative, below⟩
  exact toInt_of_fits (by omega) (by omega)

section Indices

variable {veq : QuantumValue} {indices : List ℤ}
variable (fit : ∀ index ∈ indices, toInt index = index)
include fit

theorem getIndices_qubitAt :
    getIndicesOfValueRange (indices.map (qubitAt veq)) = .ok indices := by
  induction indices with
  | nil => rfl
  | cons index rest induction =>
      rw [List.forall_mem_cons] at fit
      have later := induction fit.2
      rw [getIndicesOfValueRange] at later ⊢
      rw [List.map_cons, List.mapM_cons, later, qubitIndex_constant, fit.1]
      rfl

theorem atRow_qubitAt {row : ℤ} :
    AtRow (indices.map (qubitAt veq)) row ↔ row ∈ indices := by
  constructor
  · rintro ⟨value, member, read⟩
    rcases List.mem_map.mp member with ⟨index, inside, rfl⟩
    rw [qubitIndex_constant, fit index inside, Except.ok.injEq] at read
    rw [← read]
    exact inside
  · intro member
    refine ⟨qubitAt veq row, List.mem_map_of_mem member, ?_⟩
    rw [qubitIndex_constant, fit row member]

end Indices

theorem hasRow_qubitAt {numQubits : ℕ} {veq : QuantumValue} {index : ℤ} :
    HasRow numQubits (qubitAt veq index) ↔ IsRow numQubits index := by
  constructor
  · rintro ⟨_, _, ⟨⟩, inside⟩
    exact inside
  · exact fun inside => ⟨veq, index, rfl, inside⟩

theorem HasRow.placed {numQubits : ℕ} (few : numQubits ≤ 2147483648)
    {value : QuantumValue} (row : HasRow numQubits value) :
    Placed numQubits value := by
  rcases row with ⟨veq, index, rfl, inside⟩
  refine ⟨veq, index, rfl, ?_⟩
  rw [toInt_of_isRow few inside]
  exact inside

/-- Rows in which each place gets one cell draw a column. -/
theorem drawsColumn_of_cells [Neg A] [One A] {narrow : A → A}
    {print : A → String} {size : ℕ} {op : Op A} {before : QubitLines}
    {added : ℕ → List Cell} (onRows : OnRows size before.length op)
    (single :
      ∀ row < before.length,
        ∃ cell, added row = [cell] ∧ Shows narrow print op row cell) :
    DrawsColumn narrow print size op before (extend before added) := by
  refine ⟨onRows, fun row => (added row).headD .qw, extend_congr ?_, ?_⟩
  · intro row inside
    rcases single row inside with ⟨cell, equal, -⟩
    simp only [equal, List.headD_cons]
  · intro row inside
    rcases single row inside with ⟨cell, equal, isShown⟩
    simp only [equal, List.headD_cons]
    exact isShown

section Gates

variable [Neg A] [One A] {narrow : A → A} {print : A → String}
variable {op : Op A} {gate : Gate A} {parameters : List A}
variable {veq : QuantumValue} {targets controls : List ℤ} {row : ℕ}

/-- Other gates than swaps add one cell to each row. -/
theorem gateCells_single (isGate : op.label = .gate gate)
    (noSwap : gate.kind ≠ .swap)
    (read : getParametersValues narrow gate.parameters = .ok parameters)
    (targetsEq : gate.targets = targets.map (qubitAt veq))
    (controlsEq : gate.controls = controls.map (qubitAt veq))
    (fit : ∀ index ∈ targets ++ controls, toInt index = index)
    (distinct : (targets ++ controls).Nodup) (nonempty : targets ≠ []) :
    ∃ cell,
      gateCells print gate ⟨parameters, targets, controls⟩ row = [cell] ∧
        Shows narrow print op row cell := by
  rcases List.nodup_append'.mp distinct with
    ⟨targetsNodup, controlsNodup, apart⟩
  rcases List.forall_mem_append.mp fit with ⟨targetsFit, controlsFit⟩
  rw [gateCells, if_neg noSwap, insertedCells]
  by_cases isTarget : (row : ℤ) ∈ targets
  · have notControl : (row : ℤ) ∉ controls := apart isTarget
    refine ⟨_, ?_, .gate isGate noSwap ?_ read⟩
    · rw [if_pos (List.mem_append_left _ isTarget),
        List.count_eq_one_of_mem targetsNodup isTarget,
        List.count_eq_zero_of_not_mem notControl]
      rfl
    · rw [targetsEq]
      exact (atRow_qubitAt targetsFit).mpr isTarget
  · by_cases isControl : (row : ℤ) ∈ controls
    · refine ⟨.ctrl (targets.headD 0 - row), ?_, .ctrl isGate ?_ ?_⟩
      · rw [if_pos (List.mem_append_right _ isControl),
          List.count_eq_zero_of_not_mem isTarget,
          List.count_eq_one_of_mem controlsNodup isControl]
        rfl
      · rw [controlsEq]
        exact (atRow_qubitAt controlsFit).mpr isControl
      · rw [targetsEq, atRow_qubitAt targetsFit]
        cases targets with
        | nil => exact absurd rfl nonempty
        | cons target rest =>
            rw [List.headD_cons, add_sub_cancel]
            exact List.mem_cons_self
    · refine ⟨.qw, ?_, .wire ?_⟩
      · rw [if_neg (by simp [isTarget, isControl]),
          List.count_eq_zero_of_not_mem isTarget,
          List.count_eq_zero_of_not_mem isControl]
        rfl
      · rw [UsesRow, isGate]
        rintro (target | control)
        · rw [targetsEq] at target
          exact isTarget ((atRow_qubitAt targetsFit).mp target)
        · rw [controlsEq] at control
          exact isControl ((atRow_qubitAt controlsFit).mp control)

/-- A swap without controls adds one cell to each row. -/
theorem swapCells_single {first second : ℤ}
    (isGate : op.label = .gate gate) (isSwap : gate.kind = .swap)
    (targetsEq : gate.targets = [first, second].map (qubitAt veq))
    (noControls : gate.controls = [])
    (fit : ∀ index ∈ [first, second], toInt index = index)
    (distinct : first ≠ second) :
    ∃ cell,
      gateCells print gate ⟨parameters, [first, second], []⟩ row =
          [cell] ∧
        Shows narrow print op row cell := by
  have firstFits := fit first List.mem_cons_self
  have secondFits := fit second (List.mem_cons_of_mem _ List.mem_cons_self)
  rw [gateCells, if_pos isSwap]
  simp only [swapCells, List.append_nil, List.mem_cons, List.not_mem_nil,
    or_false]
  by_cases isFirst : (row : ℤ) = first
  · have notSecond : (row : ℤ) ≠ second := isFirst ▸ distinct
    refine ⟨.swapTo (second - first), ?_,
      .swapTo isGate isSwap targetsEq ?_ ?_⟩
    · rw [if_pos (.inl isFirst), if_pos isFirst, if_neg notSecond]
      rfl
    · rw [isFirst, qubitIndex_constant, firstFits]
    · rw [isFirst, add_sub_cancel, qubitIndex_constant, secondFits]
  · by_cases isSecond : (row : ℤ) = second
    · refine ⟨.swapEnd, ?_, .swapEnd isGate isSwap targetsEq ?_⟩
      · rw [if_pos (.inr isSecond), if_neg isFirst, if_pos isSecond]
        rfl
      · rw [isSecond, qubitIndex_constant, secondFits]
    · refine ⟨.qw, ?_, .wire ?_⟩
      · rw [if_neg (not_or.mpr ⟨isFirst, isSecond⟩), if_neg isFirst,
          if_neg isSecond]
        rfl
      · rw [UsesRow, isGate]
        rintro (target | ⟨control, member, -⟩)
        · rw [targetsEq, atRow_qubitAt fit] at target
          simp [isFirst, isSecond] at target
        · rw [noControls] at member
          cases member

omit [Neg A] [One A] in
/-- A swap adds no cell for a control. -/
theorem swapCells_control {first second : ℤ}
    (isSwap : gate.kind = .swap) (control : (row : ℤ) ∈ controls)
    (notTarget : (row : ℤ) ∉ [first, second]) :
    gateCells print gate ⟨parameters, [first, second], controls⟩ row =
      [] := by
  rw [List.mem_cons, List.mem_singleton, not_or] at notTarget
  rw [gateCells, if_pos isSwap, if_pos (List.mem_append_right _ control)]
  simp only [swapCells, if_neg notTarget.1, if_neg notTarget.2,
    List.nil_append]

omit [Neg A] [One A] in
/-- The row of a control of a swap would get no cell. -/
theorem swapCells_uncontrolled {before : QubitLines} {first second : ℤ}
    (isSwap : gate.kind = .swap)
    (on : RowIndices before.length ([first, second] ++ controls))
    {column : ℕ → Cell}
    (equal :
      extend before
          (gateCells print gate ⟨parameters, [first, second], controls⟩) =
        extend before fun row => [column row]) :
    controls = [] := by
  cases controls with
  | nil => rfl
  | cons control rest =>
      have isRow := on.2 control (by simp)
      have place : ((control.toNat : ℕ) : ℤ) = control :=
        Int.toNat_of_nonneg isRow.1
      have apart := (List.nodup_append'.mp on.1).2.2
      have none := @swapCells_control A print gate parameters
        (control :: rest) control.toNat first second isSwap
        (by rw [place]; exact List.mem_cons_self)
        (by
          rw [place]
          exact fun target => apart target List.mem_cons_self)
      have inside : control.toNat < before.length := by
        have below := isRow.2
        omega
      have cells := extend_inj equal inside
      rw [none] at cells
      cases cells

/-- A gate on rows is drawn as its column if it is complete. -/
theorem gate_draws_of_rows {size : ℕ} {before : QubitLines}
    (few : before.length ≤ 2147483648) (isGate : op.label = .gate gate)
    (on : GateOver veq before.length gate)
    (onRows : OnRows size before.length op) :
    (∃ after, drawGate narrow print gate before = .ok after ∧
        DrawsColumn narrow print size op before after) ↔
      (∀ parameter ∈ gate.parameters, ∀ id, parameter ≠ .argument id) ∧
        (gate.kind = .swap → gate.controls = []) := by
  rcases on with ⟨targets, controls, targetsEq, controlsEq,
    ⟨distinct, rows⟩, nonempty, arity⟩
  have fit : ∀ index ∈ targets ++ controls, toInt index = index :=
    fun index member => toInt_of_isRow few (rows index member)
  rcases List.forall_mem_append.mp fit with ⟨targetsFit, controlsFit⟩
  have readTargets :
      getIndicesOfValueRange gate.targets = .ok targets := by
    rw [targetsEq]
    exact getIndices_qubitAt targetsFit
  have readControls :
      getIndicesOfValueRange gate.controls = .ok controls := by
    rw [controlsEq]
    exact getIndices_qubitAt controlsFit
  rw [← exists_parameters_iff narrow]
  constructor
  · rintro ⟨after, drawn, -, column, equal, -⟩
    rcases drawGate_eq_ok.mp drawn with
      ⟨⟨parameters, readT, readC⟩, reads, -, rfl⟩
    refine ⟨⟨parameters, reads.1⟩, fun isSwap => ?_⟩
    have sameTargets : readT = targets :=
      Except.ok.inj (reads.2.1.symm.trans readTargets)
    have sameControls : readC = controls :=
      Except.ok.inj (reads.2.2.symm.trans readControls)
    rw [sameTargets, sameControls] at equal
    obtain ⟨first, second, rfl⟩ := List.length_eq_two.mp (arity isSwap)
    rw [controlsEq, swapCells_uncontrolled isSwap ⟨distinct, rows⟩ equal,
      List.map_nil]
  · rintro ⟨⟨parameters, readParameters⟩, uncontrolled⟩
    have reads :
        Reads narrow gate ⟨parameters, targets, controls⟩ :=
      ⟨readParameters, readTargets, readControls⟩
    by_cases isSwap : gate.kind = .swap
    · have none := uncontrolled isSwap
      rw [controlsEq, List.map_eq_nil_iff] at none
      subst none
      obtain ⟨first, second, rfl⟩ := List.length_eq_two.mp (arity isSwap)
      refine ⟨_, drawGate_eq_ok.mpr ⟨_, reads, ?_, rfl⟩, ?_⟩
      · rw [Fits, if_pos isSwap]
        exact ⟨rfl, by simpa using rows⟩
      · refine drawsColumn_of_cells onRows fun row _ => ?_
        refine swapCells_single isGate isSwap targetsEq controlsEq
          targetsFit ?_
        simpa using distinct
    · refine ⟨_, drawGate_eq_ok.mpr ⟨_, reads, ?_, rfl⟩, ?_⟩
      · rw [Fits, if_neg isSwap]
        exact ⟨nonempty, rows⟩
      · exact drawsColumn_of_cells onRows fun row _ =>
          gateCells_single isGate isSwap readParameters targetsEq
            controlsEq fit distinct nonempty

omit [Neg A] [One A] in
/-- A gate on the register is one on the rows if its qubits have rows. -/
theorem GateOver.on_rows {size numQubits : ℕ}
    (on : GateOver veq size gate)
    (rows : ∀ operand ∈ gate.qubits, HasRow numQubits operand) :
    GateOver veq numQubits gate := by
  rcases on with ⟨targets, controls, targetsEq, controlsEq, ⟨distinct, -⟩,
    nonempty, arity⟩
  rw [Gate.qubits, List.forall_mem_append, targetsEq, controlsEq,
    List.forall_mem_map, List.forall_mem_map] at rows
  simp only [hasRow_qubitAt] at rows
  exact ⟨targets, controls, targetsEq, controlsEq,
    ⟨distinct, List.forall_mem_append.mpr ⟨rows.2, rows.1⟩⟩, nonempty,
    arity⟩

/-- A gate on the register is drawn as its column if it is aligned. -/
theorem gate_draws_iff {size : ℕ} {before : QubitLines}
    (few : before.length ≤ 2147483648) (isGate : op.label = .gate gate)
    (on : GateOver veq size gate) :
    (∃ after, drawGate narrow print gate before = .ok after ∧
        DrawsColumn narrow print size op before after) ↔
      Aligned size before.length op := by
  rw [Aligned, Complete, isGate]
  by_cases onRows : OnRows size before.length op
  · have rows := onRows
    rw [OnRows, isGate] at rows
    rw [and_iff_right onRows]
    exact gate_draws_of_rows few isGate (on.on_rows rows) onRows
  · refine iff_of_false ?_ fun holds => onRows holds.1
    rintro ⟨after, -, there, -⟩
    exact onRows there

end Gates

/-! ## The columns of measurements -/

/-- A row is drawn once for each operand that covers it. -/
theorem count_readRows {numQubits : ℕ} {operands : List QuantumValue}
    {rows : List ℤ} (read : readRows numQubits operands = .ok rows)
    {row : ℕ} (inside : row < numQubits) :
    rows.count (row : ℤ) = operands.countP (covers row) := by
  induction operands generalizing rows with
  | nil =>
      cases read
      rfl
  | cons operand rest induction =>
      rw [readRows] at read
      rcases except_bind_eq_ok.mp read with ⟨first, readFirst, later⟩
      rcases except_bind_eq_ok.mp later with ⟨others, readOthers, ⟨⟩⟩
      have once :
          first.count (row : ℤ) = if covers row operand then 1 else 0 := by
        cases register : isVeq operand with
        | true =>
            rw [measuredRows_of_veq register] at readFirst
            cases readFirst
            rw [covers, register, Bool.true_or, if_pos rfl,
              List.count_map_of_injective _ _ Nat.cast_injective]
            exact List.count_eq_one_of_mem List.nodup_range
              (List.mem_range.mpr inside)
        | false =>
            rcases (measuredRows_of_ref register).mp readFirst with
              ⟨index, readIndex, -, rfl⟩
            rw [covers, register, Bool.false_or, readIndex,
              List.count_singleton]
            by_cases same : index = (row : ℤ) <;> simp [same]
      rw [List.count_append, List.countP_cons, induction readOthers, once,
        Nat.add_comm]

section Operations

variable [Neg A] [One A] {narrow : A → A} {print : A → String}
variable {op : Op A} {veq : QuantumValue}

/-- A measurement on rows is drawn if it names none of them twice. -/
theorem measurement_draws_of_rows {size : ℕ} {basis : MeasureBasis}
    {operands : List QuantumValue} {before : QubitLines}
    (isMeasure : op.label = .measure basis operands)
    (onRows : OnRows size before.length op)
    (drawable : ∀ operand ∈ operands, DrawableOperand before.length operand) :
    (∃ after, drawMeasurement operands before = .ok after ∧
        DrawsColumn narrow print size op before after) ↔
      ∀ row < before.length, operands.countP (covers row) ≤ 1 := by
  rcases readRows_isRow_iff.mpr drawable with ⟨rows, read, inRows⟩
  have named {row : ℕ} (inside : row < before.length) :
      (row : ℤ) ∈ rows ↔ ∃ operand ∈ operands, covers row operand = true := by
    rw [← List.count_pos_iff, count_readRows read inside, List.countP_pos_iff]
  constructor
  · rintro ⟨after, drawn, -, column, equal, -⟩ row inside
    rcases drawMeasurement_eq_ok.mp drawn with ⟨others, readOthers, -, rfl⟩
    have same : others = rows := Except.ok.inj (readOthers.symm.trans read)
    have cells := congrArg List.length (extend_inj equal inside)
    rw [meterCells, same, List.length_append, List.length_replicate,
      count_readRows read inside, List.length_singleton] at cells
    omega
  · intro once
    refine ⟨_, drawMeasurement_eq_ok.mpr ⟨rows, read, inRows, rfl⟩, ?_⟩
    refine drawsColumn_of_cells onRows fun row inside => ?_
    rw [meterCells]
    by_cases measured : (row : ℤ) ∈ rows
    · refine ⟨.meter, ?_, .meter isMeasure ((named inside).mp measured)⟩
      have atMostOne := once row inside
      rw [← count_readRows read inside] at atMostOne
      have atLeastOne := List.count_pos_iff.mpr measured
      rw [if_pos measured, show rows.count (row : ℤ) = 1 by omega]
      rfl
    · refine ⟨.qw, ?_, .wire ?_⟩
      · rw [if_neg measured, List.count_eq_zero_of_not_mem measured]
        rfl
      · rw [UsesRow, isMeasure]
        exact fun uses => measured ((named inside).mpr uses)

omit [Neg A] [One A] in
/-- What is measured can be drawn if it has rows. -/
theorem drawable_of_onRows {size numQubits : ℕ} {basis : MeasureBasis}
    {operands : List QuantumValue} (few : numQubits ≤ 2147483648)
    (isMeasure : op.label = .measure basis operands)
    (onRows : OnRows size numQubits op) :
    ∀ operand ∈ operands, DrawableOperand numQubits operand := by
  intro operand member
  rw [OnRows, isMeasure] at onRows
  have row := onRows operand member
  split_ifs at row with register
  · exact .inl register
  · exact .inr (row.placed few)

/-- A measurement is drawn as its column if it is aligned. -/
theorem measurement_draws_iff {size : ℕ} {basis : MeasureBasis}
    {operands : List QuantumValue} {before : QubitLines}
    (few : before.length ≤ 2147483648)
    (isMeasure : op.label = .measure basis operands) :
    (∃ after, drawMeasurement operands before = .ok after ∧
        DrawsColumn narrow print size op before after) ↔
      Aligned size before.length op := by
  rw [Aligned, Complete, isMeasure]
  by_cases onRows : OnRows size before.length op
  · rw [and_iff_right onRows]
    exact measurement_draws_of_rows isMeasure onRows
      (drawable_of_onRows few isMeasure onRows)
  · refine iff_of_false ?_ fun holds => onRows holds.1
    rintro ⟨after, -, there, -⟩
    exact onRows there

theorem DrawsColumn.rectangular {size : ℕ} {before after : QubitLines}
    {width : ℕ} (draws : DrawsColumn narrow print size op before after)
    (rectangular : Rectangular width before) :
    Rectangular (width + 1) after := by
  rcases draws with ⟨-, column, rfl, -⟩
  exact rectangular.extend fun _ _ => rfl

/-- A call draws its column exactly if the operation is aligned. -/
theorem callDraws_iff {size : ℕ} {before : QubitLines} {width : ℕ}
    (few : before.length ≤ 2147483648)
    (rectangular : Rectangular width before)
    (on : OperationOver veq size op) :
    CallDraws narrow print size op before ↔
      Aligned size before.length op := by
  have drawn {result : Except Fault QubitLines}
      (isDrawn : IsDrawn op)
      (call : dumpQuakeOperationToTikz narrow print op before = result) :
      CallDraws narrow print size op before ↔
        ∃ after, result = .ok after ∧
          DrawsColumn narrow print size op before after := by
    rw [CallDraws, call]
    constructor
    · rintro ⟨after, returned, -, draws, -⟩
      exact ⟨after, returned, draws isDrawn⟩
    · rintro ⟨after, returned, draws⟩
      exact ⟨after, returned, ⟨_, draws.rectangular rectangular⟩,
        fun _ => draws, fun skipped => absurd isDrawn skipped⟩
  cases label : op.label with
  | gate gate =>
      rw [OperationOver, label] at on
      rw [drawn (by rw [IsDrawn, label]; trivial)
        (by rw [dumpQuakeOperationToTikz, label])]
      exact gate_draws_iff few label on
  | measure basis operands =>
      rw [drawn (by rw [IsDrawn, label]; trivial)
        (by rw [dumpQuakeOperationToTikz, label])]
      exact measurement_draws_iff few label
  | _ =>
      rw [OperationOver, label] at on
      have returned :
          dumpQuakeOperationToTikz narrow print op before = .ok before := by
        rw [dumpQuakeOperationToTikz, label]
        dsimp only
        rw [if_neg (by simp [on])]
        rfl
      refine iff_of_true ⟨before, returned, ⟨width, rectangular⟩, ?_, ?_⟩
        (by rw [Aligned, OnRows, Complete, label]; exact ⟨trivial, trivial⟩)
      · intro isDrawn
        rw [IsDrawn, label] at isDrawn
        exact isDrawn.elim
      · exact fun _ => rfl

/-! ## Whole drawings -/

theorem drawOperations_append (first second : Block A)
    (qubitLines : QubitLines) :
    drawOperations narrow print (first ++ second) qubitLines =
      drawOperations narrow print first qubitLines >>=
        drawOperations narrow print second :=
  List.foldlM_append

theorem emptyLines_rectangular (numQubits : ℕ) :
    Rectangular 1 (emptyLines numQubits) := by
  intro row member
  rw [List.eq_of_mem_replicate member]
  rfl

/-- Aligned operations keep the rows equally long. -/
theorem run_of_aligned {size numQubits : ℕ} {ops : Block A}
    (few : numQubits ≤ 2147483648)
    (on : ∀ op ∈ ops, OperationOver veq size op)
    (aligned : ∀ op ∈ ops, Aligned size numQubits op) :
    ∃ qubitLines width,
      drawOperations narrow print ops (emptyLines numQubits) =
          .ok qubitLines ∧
        Rectangular width qubitLines ∧ qubitLines.length = numQubits := by
  induction ops using List.reverseRecOn with
  | nil =>
      exact ⟨_, 1, rfl, emptyLines_rectangular numQubits,
        length_emptyLines numQubits⟩
  | append_singleton ops op induction =>
      rw [List.forall_mem_append, List.forall_mem_singleton] at on aligned
      rcases induction on.1 aligned.1 with
        ⟨lines, width, drawn, rectangular, length⟩
      rw [← length] at few aligned
      rcases (callDraws_iff few rectangular on.2).mpr aligned.2 with
        ⟨after, returned, ⟨wider, rectangularAfter⟩, -, -⟩
      refine ⟨after, wider, ?_, rectangularAfter, ?_⟩
      · rw [drawOperations_append, drawn]
        exact (bind_pure _).trans returned
      · rcases dump_eq_extend returned with ⟨added, rfl⟩
        rw [length_extend, length]

/-- On given rows every call draws its column if the operations are aligned. -/
theorem everyCall_iff {size numQubits : ℕ} {ops : Block A}
    (few : numQubits ≤ 2147483648)
    (on : ∀ op ∈ ops, OperationOver veq size op) :
    (∀ before op after, ops = before ++ op :: after →
        ∀ qubitLines,
          drawOperations narrow print before (emptyLines numQubits) =
              .ok qubitLines →
            CallDraws narrow print size op qubitLines) ↔
      ∀ op ∈ ops, Aligned size numQubits op := by
  constructor
  · intro draws
    have upTo (early late : Block A) (split : ops = early ++ late) :
        ∀ op ∈ early, Aligned size numQubits op := by
      induction early using List.reverseRecOn generalizing late with
      | nil => simp
      | append_singleton early op induction =>
          rw [List.append_assoc, List.singleton_append] at split
          have earlier := induction (op :: late) split
          rw [split, List.forall_mem_append, List.forall_mem_cons] at on
          rcases run_of_aligned few on.1 earlier with
            ⟨lines, width, drawn, rectangular, length⟩
          have call := draws early op late split lines drawn
          rw [callDraws_iff (length ▸ few) rectangular on.2.1, length]
            at call
          exact List.forall_mem_append.mpr
            ⟨earlier, List.forall_mem_singleton.mpr call⟩
    exact upTo ops [] (List.append_nil ops).symm
  · rintro aligned before op after rfl qubitLines drawn
    rw [List.forall_mem_append, List.forall_mem_cons] at on aligned
    rcases run_of_aligned few on.1 aligned.1 with
      ⟨lines, width, run, rectangular, length⟩
    rw [run, Except.ok.injEq] at drawn
    subst drawn
    rw [callDraws_iff (length ▸ few) rectangular on.2.1, length]
    exact aligned.2.1

omit [Neg A] [One A] in
theorem getNumberOfQubits_few (kernel : Op A) :
    (getNumberOfQubits kernel).toNat ≤ 2147483648 := by
  have bounds :=
    toInt_fits ((postOrder kernel).map allocatedQubits).sum
  rw [← getNumberOfQubits_eq] at bounds
  omega

/--
The rows are made and every call draws the column of its operation exactly
if the qubits are not counted below zero, the qubits of every operation have
rows, no swap has controls, no parameter is a block argument and no
measurement names a row twice.
-/
theorem everyCallDraws_iff {size : ℕ} {kernel : Op A}
    (circuit : CircuitOver veq size kernel) :
    EveryCallDraws narrow print size kernel ↔
      0 ≤ getNumberOfQubits kernel ∧
        ∀ op ∈ postOrder kernel,
          Aligned size (getNumberOfQubits kernel).toNat op := by
  rw [← everyCall_iff (getNumberOfQubits_few kernel) circuit.operations,
    EveryCallDraws]
  simp only [initialLines_eq_ok_iff]
  constructor
  · rintro ⟨_, ⟨nonnegative, rfl⟩, draws⟩
    exact ⟨nonnegative, draws⟩
  · rintro ⟨nonnegative, draws⟩
    exact ⟨_, ⟨nonnegative, rfl⟩, draws⟩

end Operations

/-- A Bell pair and its measurement on one register. -/
theorem measuredBell_circuitOver :
    CircuitOver (.veqAlloca 0 2) 2 measuredBell where
  register := rfl
  operations := by
    change ∀ op ∈ [_, _, _, _, _], OperationOver _ 2 op
    simp only [List.forall_mem_cons]
    refine ⟨rfl,
      ⟨[0], [], rfl, rfl, ⟨by decide, by decide⟩, by decide, by rintro ⟨⟩⟩,
      ⟨[1], [0], rfl, rfl, ⟨by decide, by decide⟩, by decide,
        by rintro ⟨⟩⟩, ?_, rfl, by simp⟩
    intro operand member
    exact .inl (List.mem_singleton.mp member)

theorem measuredBell_everyCallDraws :
    EveryCallDraws id toString 2 measuredBell := by
  refine (everyCallDraws_iff measuredBell_circuitOver).mpr
    ⟨by decide, ?_⟩
  change ∀ op ∈ [_, _, _, _, _], Aligned 2 2 op
  simp only [List.forall_mem_cons]
  have rows (index : ℤ) (inside : IsRow 2 index) :
      HasRow 2 (qubitAt (.veqAlloca 0 2) index) :=
    hasRow_qubitAt.mpr inside
  have first := rows 0 (by decide)
  have second := rows 1 (by decide)
  have once : ∀ row < 2,
      [QuantumValue.veqAlloca 0 2].countP (covers (row : ℕ)) ≤ 1 := by
    decide
  refine ⟨⟨trivial, trivial⟩, ⟨?_, by rintro _ ⟨⟩, by rintro ⟨⟩⟩,
    ⟨?_, by rintro _ ⟨⟩, by rintro ⟨⟩⟩, ⟨?_, once⟩, ⟨trivial, trivial⟩,
    by simp⟩
  · simpa [OnRows, Gate.qubits, Gate.create] using first
  · simpa [OnRows, Gate.qubits, Gate.create] using ⟨first, second⟩
  · intro operand member
    cases List.mem_singleton.mp member
    rfl

/-- A swap with a control on a register of three qubits. -/
def controlledSwap : Op ℤ :=
  kernelOf
    [.leaf (.alloca (.veqAlloca 0 3)),
      (Gate.create .swap false [] [qubitAt (.veqAlloca 0 3) 0]
        [qubitAt (.veqAlloca 0 3) 1, qubitAt (.veqAlloca 0 3) 2]).op]

/-- The row of the control falls behind the others. -/
theorem controlledSwap_misaligned :
    CircuitOver (.veqAlloca 0 3) 3 controlledSwap ∧
      drawKernel id toString (fun _ => 0) controlledSwap =
        .ok [[.lstick], [.lstick, .swapTo 1], [.lstick, .swapEnd]] ∧
      ¬ EveryCallDraws id toString 3 controlledSwap := by
  refine ⟨⟨rfl, ?_⟩, rfl, ?_⟩
  · change ∀ op ∈ [_, _, _], OperationOver _ 3 op
    simp only [List.forall_mem_cons]
    exact ⟨rfl, ⟨[1, 2], [0], rfl, rfl, ⟨by decide, by decide⟩, by decide,
      fun _ => rfl⟩, rfl, by simp⟩
  · rintro ⟨qubitTikz, made, draws⟩
    cases made
    rcases draws [_] _ [_] rfl (emptyLines 3) rfl with
      ⟨after, returned, ⟨width, rectangular⟩, -⟩
    cases returned
    have short := rectangular [.lstick] (by decide)
    have long := rectangular [.lstick, .swapEnd] (by decide)
    rw [← short] at long
    cases long

end MQSSPasses.Lowerings.TikzColumns
