import MQSSPasses.General.GrowingRows
import MQSSPasses.General.LabelwiseWalk
import MQSSPasses.LinAlg.QuakeToLinAlg
import MQSSPasses.Passes.QuakeQMap
import MQSSPasses.Quake.ClassicalBits

/-!
# Drawing a kernel

The lowering to TikZ keeps one row of cells for each qubit and draws one
operation after the other into a new column.  The rows an operation does not
name are filled first, and then each kind of operation inserts its own
cells.

What an operation does to the rows is described by the cells it adds to
each of them.  From this the file derives for which kernels the drawing is
completed, and for which the columns show their operations.

The printing of a number with two decimals is a parameter, and so is the
size in the type of a register argument.
-/

namespace MQSSPasses.Lowerings.QuakeToTikz

open MQSSPasses.General.IntConversion
open MQSSPasses.General.TracedComputation
open MQSSPasses.General.OperationTree
open MQSSPasses.General.GrowingRows
open MQSSPasses.General.LabelwiseWalk
open MQSSPasses.Quake.Syntax
open MQSSPasses.Quake.Operations
open MQSSPasses.LinAlg.QuakeToLinAlg (getNumberOfQubits
  getParametersValues)
open MQSSPasses.Passes.QuakeQMap (isVeq)
open MQSSPasses.Quake.ClassicalBits

/-! ## Cells -/

/-- The cells of a drawing. -/
inductive Cell where
  | lstick
  | qw
  | meter
  | gate (label : String)
  | ctrl (offset : ℤ)
  | swapTo (offset : ℤ)
  | swapEnd
  deriving DecidableEq, Repr

/-- The text of a cell. -/
def Cell.text : Cell → String
  | .lstick => "\\lstick\x7b\\ket\x7b0\x7d\x7d"
  | .qw => "\\qw"
  | .meter => "\\meter\x7b\x7d"
  | .gate label => "\\gate\x7b" ++ label ++ "\x7d"
  | .ctrl offset => "\\ctrl\x7b" ++ toString offset ++ "\x7d"
  | .swapTo offset => "\\swap\x7b" ++ toString offset ++ "\x7d"
  | .swapEnd => "\\swap\x7b\x7d"

/-- `qubitLines`: a row of cells for each qubit. -/
abbrev QubitLines : Type := List (List Cell)

/-- `qubitLines[qubit].push_back(cell)`. -/
def pushBack (qubitLines : QubitLines) (qubit : ℤ) (cell : Cell) :
    Except Fault QubitLines :=
  match pushAt qubitLines qubit cell with
  | some lines => .ok lines
  | none => .error .outOfRange

/-- A loop that appends a cell for each of a list of qubits. -/
def pushBackEach (cell : ℤ → Cell) (qubits : List ℤ)
    (qubitLines : QubitLines) : Except Fault QubitLines :=
  qubits.foldlM (fun lines qubit => pushBack lines qubit (cell qubit))
    qubitLines

/-- Fill the rows of the qubits that an operation does not use. -/
def fillIdle (used : List ℤ) (qubitLines : QubitLines) : QubitLines :=
  qubitLines.mapIdx fun i line =>
    if (i : ℤ) ∈ used then line else line ++ [.qw]

/-! ## Drawing one operation -/

/-- Draw an operand of a measurement, and note the measured rows. -/
def drawMeasured (state : QubitLines × List ℤ) (operand : QuantumValue) :
    Except Fault (QubitLines × List ℤ) :=
  if isVeq operand then do
    let rows := (List.range state.1.length).map fun (i : ℕ) => (i : ℤ)
    let lines ← pushBackEach (fun _ => .meter) rows state.1
    return (lines, state.2 ++ rows)
  else do
    let qubitIndex ← qubitIndex operand
    if qubitIndex = -1 then
      throw (.assertion "Non valid qubit index for measurement!")
    let lines ← pushBack state.1 qubitIndex .meter
    return (lines, state.2 ++ [qubitIndex])

def drawMeasurement (operands : List QuantumValue)
    (qubitLines : QubitLines) : Except Fault QubitLines := do
  let (lines, measurements) ← operands.foldlM drawMeasured (qubitLines, [])
  return fillIdle measurements lines

variable {A : Type}

/-- The parameters of a gate in its label. -/
def parameterText (print : A → String) (parameters : List A) : String :=
  if parameters.length > 0 then
    "(" ++ String.intercalate " , " (parameters.map print) ++ ")"
  else ""

/-- The label of a gate. -/
def labelGate (print : A → String) (gate : Gate A)
    (parameters : List A) : String :=
  gate.kind.mnemonic.replace "phased_" "p" ++
    (if gate.isAdj then "\\textsuperscript\x7b\\textdagger\x7d" else "") ++
    parameterText print parameters

/-- Insert the cells of a swap; its controls are not looked at. -/
def insertSwap (targets : List ℤ) (qubitLines : QubitLines) :
    Except Fault QubitLines :=
  match targets with
  | [first, second] => do
      let lines ← pushBack qubitLines first (.swapTo (second - first))
      pushBack lines second .swapEnd
  | _ =>
      throw (.assertion "At the moment the SWAP only works on two targets...")

/-- Insert the cells of the targets, and then those of the controls. -/
def insertGate (label : String) (targets controls : List ℤ)
    (qubitLines : QubitLines) : Except Fault QubitLines := do
  let lines ← pushBackEach (fun _ => .gate label) targets qubitLines
  match targets with
  | [] => throw .outOfRange
  | targetGate :: _ =>
      pushBackEach (fun control => .ctrl (targetGate - control)) controls
        lines

section Drawing

variable [Neg A] [One A] (narrow : A → A) (print : A → String)

def drawGate (gate : Gate A) (qubitLines : QubitLines) :
    Except Fault QubitLines := do
  let parameters ← getParametersValues narrow gate.parameters
  let targets ← getIndicesOfValueRange gate.targets
  let controls ← getIndicesOfValueRange gate.controls
  let lines := fillIdle (targets ++ controls) qubitLines
  if gate.kind = .swap then insertSwap targets lines
  else insertGate (labelGate print gate parameters) targets controls lines

/-- A name of the quake dialect. -/
def inQuakeDialect (name : String) : Bool :=
  "quake.".toList.isPrefixOf name.toList

/-- The operations of the quake dialect without a case of their own. -/
def isOtherQuakeOperation : OpData A → Bool
  | .reset _ | .apply _ _ _ => true
  | .structured name | .other name _ => inQuakeDialect name
  | _ => false

/-- Draw one operation, or skip it. -/
def dumpQuakeOperationToTikz (op : Op A) (qubitLines : QubitLines) :
    Except Fault QubitLines :=
  match op.label with
  | .measure _ operands => drawMeasurement operands qubitLines
  | .gate gate => drawGate narrow print gate qubitLines
  | label =>
      if isOtherQuakeOperation label then throw .failedCast
      else return qubitLines

/-- Draw a sequence of operations. -/
def drawOperations (ops : Block A) (qubitLines : QubitLines) :
    Except Fault QubitLines :=
  ops.foldlM (fun lines op => dumpQuakeOperationToTikz narrow print op lines)
    qubitLines

/-- Rows in which nothing is drawn yet. -/
def emptyLines (numQubits : ℕ) : QubitLines :=
  List.replicate numQubits [.lstick]

@[simp]
theorem length_emptyLines (numQubits : ℕ) :
    (emptyLines numQubits).length = numQubits :=
  List.length_replicate

/-- The rows before the first operation; a count below zero has none. -/
def initialLines (numQubits : ℤ) : Except Fault QubitLines :=
  if numQubits < 0 then throw .lengthError
  else return emptyLines numQubits.toNat

theorem initialLines_eq_ok_iff {numQubits : ℤ} {lines : QubitLines} :
    initialLines numQubits = .ok lines ↔
      0 ≤ numQubits ∧ lines = emptyLines numQubits.toNat := by
  rw [initialLines]
  split
  next negative =>
      exact iff_of_false (by rintro ⟨⟩) fun holds =>
        negative.not_ge holds.1
  next nonnegative =>
      rw [and_iff_right (not_lt.mp nonnegative)]
      exact ⟨fun returned => (Except.ok.inj returned).symm,
        fun equal => equal ▸ rfl⟩

/-- The rows of a kernel. -/
def drawKernel (argumentSize : ℕ → ℕ) (circuit : Op A) :
    Except Fault QubitLines := do
  let numQubits := getNumberOfQubits circuit
  let _ ← getNumberOfClassicalBits argumentSize circuit
  let qubitTikz ← initialLines numQubits
  drawOperations narrow print (postOrder circuit) qubitTikz

/-- What the pass writes. -/
def tikzText (qubitTikz : QubitLines) : String :=
  "\\begin\x7bquantikz\x7d\n" ++
    String.intercalate "\\\\\n" (qubitTikz.map fun qubit =>
      "\t" ++ String.intercalate "\t&\t" (qubit.map Cell.text)) ++
    (if qubitTikz = [] then "" else "\n") ++ "\\end\x7bquantikz\x7d"

def runOnOperation (argumentSize : ℕ → ℕ) (circuit : Op A) :
    Except Fault String := do
  let qubitTikz ← drawKernel narrow print argumentSize circuit
  return tikzText qubitTikz

end Drawing

/-! ## The cells an operation adds -/

/-- A place of one of the given number of rows. -/
def IsRow (numQubits : ℕ) (row : ℤ) : Prop :=
  0 ≤ row ∧ row < numQubits

instance (numQubits : ℕ) (row : ℤ) : Decidable (IsRow numQubits row) :=
  inferInstanceAs (Decidable (_ ∧ _))

theorem pushBackEach_eq_ok {cell : ℤ → Cell} {qubits : List ℤ}
    {qubitLines result : QubitLines} :
    pushBackEach cell qubits qubitLines = .ok result ↔
      (∀ qubit ∈ qubits, IsRow qubitLines.length qubit) ∧
        result = extend qubitLines fun row =>
          List.replicate (qubits.count (row : ℤ)) (cell row) := by
  have asOption :
      pushBackEach cell qubits qubitLines = .ok result ↔
        pushEach cell qubits qubitLines = some result := by
    induction qubits generalizing qubitLines with
    | nil => simp [pushBackEach, pushEach, pure, Except.pure]
    | cons qubit rest induction =>
        rw [pushBackEach, pushEach, List.foldlM_cons, List.foldlM_cons,
          pushBack]
        cases pushAt qubitLines qubit (cell qubit) with
        | none => exact iff_of_false (by rintro ⟨⟩) (by rintro ⟨⟩)
        | some lines => exact induction
  exact asOption.trans pushEach_eq_some_iff

theorem pushBack_eq_ok {qubitLines result : QubitLines} {qubit : ℤ}
    {cell : Cell} :
    pushBack qubitLines qubit cell = .ok result ↔
      IsRow qubitLines.length qubit ∧
        result = extend qubitLines fun row =>
          if (row : ℤ) = qubit then [cell] else [] := by
  rw [pushBack]
  by_cases inside : InRange qubitLines qubit
  · rw [pushAt_of_inRange inside]
    simp only [Except.ok.injEq]
    exact ⟨fun equal => ⟨inside, equal.symm⟩, fun holds => holds.2.symm⟩
  · rw [pushAt, if_neg inside]
    exact iff_of_false (by rintro ⟨⟩) fun holds => inside holds.1

theorem fillIdle_eq (used : List ℤ) (qubitLines : QubitLines) :
    fillIdle used qubitLines =
      extend qubitLines fun row =>
        if (row : ℤ) ∈ used then [] else [.qw] := by
  rw [fillIdle, extend]
  congr 1
  funext row line
  by_cases inside : (row : ℤ) ∈ used
  · rw [if_pos inside, if_pos inside, List.append_nil]
  · rw [if_neg inside, if_neg inside]

/-! ### Measurements -/

/-- The rows in which an operand of a measurement is drawn. -/
def measuredRows (numQubits : ℕ) (operand : QuantumValue) :
    Except Fault (List ℤ) :=
  if isVeq operand then
    return (List.range numQubits).map fun (i : ℕ) => (i : ℤ)
  else do
    let qubitIndex ← qubitIndex operand
    if qubitIndex = -1 then
      throw (.assertion "Non valid qubit index for measurement!")
    return [qubitIndex]

/-- The rows in which a measurement is drawn. -/
def readRows (numQubits : ℕ) :
    List QuantumValue → Except Fault (List ℤ)
  | [] => return []
  | operand :: rest => do
      let rows ← measuredRows numQubits operand
      let others ← readRows numQubits rest
      return rows ++ others

theorem drawMeasured_eq_ok {qubitLines : QubitLines} {noted : List ℤ}
    {operand : QuantumValue} {result : QubitLines × List ℤ} :
    drawMeasured (qubitLines, noted) operand = .ok result ↔
      ∃ rows, measuredRows qubitLines.length operand = .ok rows ∧
        (∀ row ∈ rows, IsRow qubitLines.length row) ∧
        result =
          (extend qubitLines fun row =>
              List.replicate (rows.count (row : ℤ)) .meter,
            noted ++ rows) := by
  rw [drawMeasured, measuredRows]
  split
  next =>
      rw [except_bind_eq_ok]
      simp only [pushBackEach_eq_ok, pure, Except.pure, Except.ok.injEq]
      constructor
      · rintro ⟨lines, ⟨inside, rfl⟩, rfl⟩
        exact ⟨_, rfl, inside, rfl⟩
      · rintro ⟨rows, rfl, inside, rfl⟩
        exact ⟨_, ⟨inside, rfl⟩, rfl⟩
  next =>
      cases qubitIndex operand with
      | error fault => simp [bind, Except.bind]
      | ok index =>
          by_cases invalid : index = -1
          · simp [bind, Except.bind, invalid, throw, throwThe,
              MonadExceptOf.throw]
          · have unfolded :
                (Except.ok index >>= fun qubitIndex => do
                    if qubitIndex = -1 then
                      throw (.assertion
                        "Non valid qubit index for measurement!")
                    let lines ← pushBack qubitLines qubitIndex .meter
                    return (lines, noted ++ [qubitIndex])) =
                  (pushBackEach (fun _ => .meter) [index] qubitLines >>=
                    fun lines => pure (lines, noted ++ [index])) := by
              simp only [bind, Except.bind, invalid, if_false,
                pushBackEach, List.foldlM_cons, List.foldlM_nil]
              cases pushBack qubitLines index .meter <;> rfl
            rw [unfolded, except_bind_eq_ok]
            simp only [pushBackEach_eq_ok, bind, Except.bind, invalid,
              if_false, pure, Except.pure, Except.ok.injEq]
            constructor
            · rintro ⟨lines, ⟨inside, rfl⟩, rfl⟩
              exact ⟨_, rfl, inside, rfl⟩
            · rintro ⟨rows, rfl, inside, rfl⟩
              exact ⟨_, ⟨inside, rfl⟩, rfl⟩

/-- The cells that a measurement adds. -/
def meterCells (rows : List ℤ) (row : ℕ) : List Cell :=
  List.replicate (rows.count (row : ℤ)) .meter ++
    if (row : ℤ) ∈ rows then [] else [.qw]

theorem drawMeasuredEach_eq_ok {operands : List QuantumValue}
    {qubitLines : QubitLines} {noted : List ℤ}
    {result : QubitLines × List ℤ} :
    operands.foldlM drawMeasured (qubitLines, noted) = .ok result ↔
      ∃ rows, readRows qubitLines.length operands = .ok rows ∧
        (∀ row ∈ rows, IsRow qubitLines.length row) ∧
        result =
          (extend qubitLines fun row =>
              List.replicate (rows.count (row : ℤ)) .meter,
            noted ++ rows) := by
  induction operands generalizing qubitLines noted with
  | nil =>
      simp [readRows, pure, Except.pure, extend_nil, eq_comm]
  | cons operand rest induction =>
      rw [List.foldlM_cons, except_bind_eq_ok, readRows]
      simp only [except_bind_eq_ok, pure, Except.pure, Except.ok.injEq]
      constructor
      · rintro ⟨⟨lines, measured⟩, first, later⟩
        rcases drawMeasured_eq_ok.mp first with ⟨rows, read, inside, equal⟩
        cases equal
        rcases induction.mp later with ⟨others, readOthers, insides, rfl⟩
        rw [length_extend] at readOthers insides
        refine ⟨rows ++ others, ⟨rows, read, others, readOthers, rfl⟩,
          List.forall_mem_append.mpr ⟨inside, insides⟩, ?_⟩
        rw [extend_extend, List.append_assoc]
        congr 2
        funext row
        rw [List.count_append, List.replicate_add]
      · rintro ⟨_, ⟨rows, read, others, readOthers, rfl⟩, insides, rfl⟩
        rcases List.forall_mem_append.mp insides with ⟨inside, further⟩
        refine ⟨_, drawMeasured_eq_ok.mpr ⟨rows, read, inside, rfl⟩, ?_⟩
        rw [induction]
        refine ⟨others, ?_, ?_, ?_⟩
        · rw [length_extend]
          exact readOthers
        · rw [length_extend]
          exact further
        · rw [extend_extend, List.append_assoc]
          congr 2
          funext row
          rw [List.count_append, List.replicate_add]

theorem drawMeasurement_eq_ok {operands : List QuantumValue}
    {qubitLines result : QubitLines} :
    drawMeasurement operands qubitLines = .ok result ↔
      ∃ rows, readRows qubitLines.length operands = .ok rows ∧
        (∀ row ∈ rows, IsRow qubitLines.length row) ∧
        result = extend qubitLines (meterCells rows) := by
  rw [drawMeasurement, except_bind_eq_ok]
  simp only [drawMeasuredEach_eq_ok, pure, Except.pure, Except.ok.injEq]
  constructor
  · rintro ⟨-, ⟨rows, read, inside, rfl⟩, rfl⟩
    refine ⟨rows, read, inside, ?_⟩
    rw [List.nil_append, fillIdle_eq, extend_extend]
    rfl
  · rintro ⟨rows, read, inside, rfl⟩
    refine ⟨_, ⟨rows, read, inside, rfl⟩, ?_⟩
    rw [List.nil_append, fillIdle_eq, extend_extend]
    rfl

/-! ### Gates -/

/-- What is read from the operands of a gate. -/
structure ReadGate (A : Type) where
  parameters : List A
  targets : List ℤ
  controls : List ℤ

/-- The operands of a gate are read. -/
def Reads [Neg A] [One A] (narrow : A → A) (gate : Gate A)
    (read : ReadGate A) : Prop :=
  getParametersValues narrow gate.parameters = .ok read.parameters ∧
    getIndicesOfValueRange gate.targets = .ok read.targets ∧
    getIndicesOfValueRange gate.controls = .ok read.controls

/-- The rows into which a gate is drawn. -/
def Fits (numQubits : ℕ) (gate : Gate A) (read : ReadGate A) : Prop :=
  if gate.kind = .swap then
    read.targets.length = 2 ∧ ∀ row ∈ read.targets, IsRow numQubits row
  else
    read.targets ≠ [] ∧
      ∀ row ∈ read.targets ++ read.controls, IsRow numQubits row

/-- The cells that a swap of two rows adds. -/
def swapCells (first second : ℤ) (row : ℕ) : List Cell :=
  (if (row : ℤ) = first then [.swapTo (second - first)] else []) ++
    if (row : ℤ) = second then [.swapEnd] else []

/-- The cells that are added for targets and controls. -/
def insertedCells (label : String) (targets controls : List ℤ)
    (row : ℕ) : List Cell :=
  List.replicate (targets.count (row : ℤ)) (.gate label) ++
    List.replicate (controls.count (row : ℤ))
      (.ctrl (targets.headD 0 - row))

/-- The cells that a gate adds. -/
def gateCells (print : A → String) (gate : Gate A) (read : ReadGate A)
    (row : ℕ) : List Cell :=
  (if (row : ℤ) ∈ read.targets ++ read.controls then [] else [.qw]) ++
    if gate.kind = .swap then
      match read.targets with
      | [first, second] => swapCells first second row
      | _ => []
    else
      insertedCells (labelGate print gate read.parameters) read.targets
        read.controls row

theorem insertSwap_eq_ok {targets : List ℤ}
    {qubitLines result : QubitLines} :
    insertSwap targets qubitLines = .ok result ↔
      ∃ first second, targets = [first, second] ∧
        IsRow qubitLines.length first ∧ IsRow qubitLines.length second ∧
        result = extend qubitLines (swapCells first second) := by
  rcases targets with - | ⟨first, - | ⟨second, - | ⟨third, rest⟩⟩⟩
  · exact iff_of_false (by rintro ⟨⟩) (by simp)
  · exact iff_of_false (by rintro ⟨⟩) (by simp)
  · rw [insertSwap, except_bind_eq_ok]
    simp only [pushBack_eq_ok]
    constructor
    · rintro ⟨lines, ⟨rowFirst, rfl⟩, rowSecond, rfl⟩
      rw [length_extend] at rowSecond
      refine ⟨first, second, rfl, rowFirst, rowSecond, ?_⟩
      rw [extend_extend]
      rfl
    · rintro ⟨_, _, ⟨⟩, rowFirst, rowSecond, rfl⟩
      refine ⟨_, ⟨rowFirst, rfl⟩, ?_, ?_⟩
      · rw [length_extend]
        exact rowSecond
      · rw [extend_extend]
        rfl
  · exact iff_of_false (by rintro ⟨⟩) (by simp)

theorem insertGate_eq_ok {label : String} {targets controls : List ℤ}
    {qubitLines result : QubitLines} :
    insertGate label targets controls qubitLines = .ok result ↔
      targets ≠ [] ∧
        (∀ row ∈ targets ++ controls, IsRow qubitLines.length row) ∧
        result = extend qubitLines
          (insertedCells label targets controls) := by
  rw [insertGate, except_bind_eq_ok, List.forall_mem_append]
  simp only [pushBackEach_eq_ok]
  cases targets with
  | nil => exact iff_of_false (by rintro ⟨_, -, ⟨⟩⟩) (by simp)
  | cons targetGate rest =>
      simp only [pushBackEach_eq_ok]
      constructor
      · rintro ⟨lines, ⟨inside, rfl⟩, insideControls, rfl⟩
        rw [length_extend] at insideControls
        refine ⟨List.cons_ne_nil _ _, ⟨inside, insideControls⟩, ?_⟩
        rw [extend_extend]
        rfl
      · rintro ⟨-, ⟨inside, insideControls⟩, rfl⟩
        refine ⟨_, ⟨inside, rfl⟩, ?_, ?_⟩
        · rw [length_extend]
          exact insideControls
        · rw [extend_extend]
          rfl

theorem drawGate_eq_ok [Neg A] [One A] {narrow : A → A}
    {print : A → String} {gate : Gate A} {qubitLines result : QubitLines} :
    drawGate narrow print gate qubitLines = .ok result ↔
      ∃ read, Reads narrow gate read ∧ Fits qubitLines.length gate read ∧
        result = extend qubitLines (gateCells print gate read) := by
  rw [drawGate]
  simp only [except_bind_eq_ok, fillIdle_eq]
  constructor
  · rintro ⟨parameters, readParameters, targets, readTargets, controls,
      readControls, drawn⟩
    refine ⟨⟨parameters, targets, controls⟩,
      ⟨readParameters, readTargets, readControls⟩, ?_⟩
    rw [Fits]
    split_ifs at drawn ⊢ with swap
    · rcases insertSwap_eq_ok.mp drawn with
        ⟨first, second, rfl, rowFirst, rowSecond, rfl⟩
      rw [length_extend] at rowFirst rowSecond
      refine ⟨⟨rfl, by simp [rowFirst, rowSecond]⟩, ?_⟩
      rw [extend_extend]
      refine extend_congr fun row _ => ?_
      rw [gateCells, if_pos swap]
    · rcases insertGate_eq_ok.mp drawn with ⟨nonempty, inside, rfl⟩
      rw [length_extend] at inside
      refine ⟨⟨nonempty, inside⟩, ?_⟩
      rw [extend_extend]
      refine extend_congr fun row _ => ?_
      rw [gateCells, if_neg swap]
  · rintro ⟨⟨parameters, targets, controls⟩,
      ⟨readParameters, readTargets, readControls⟩, fits, rfl⟩
    refine ⟨parameters, readParameters, targets, readTargets, controls,
      readControls, ?_⟩
    rw [Fits] at fits
    split_ifs at fits ⊢ with swap
    · obtain ⟨first, second, rfl⟩ := List.length_eq_two.mp fits.1
      refine insertSwap_eq_ok.mpr ⟨first, second, rfl, ?_, ?_, ?_⟩
      · rw [length_extend]
        exact fits.2 first (by simp)
      · rw [length_extend]
        exact fits.2 second (by simp)
      · rw [extend_extend]
        refine extend_congr fun row _ => ?_
        rw [gateCells, if_pos swap]
    · refine insertGate_eq_ok.mpr ⟨fits.1, ?_, ?_⟩
      · rw [length_extend]
        exact fits.2
      · rw [extend_extend]
        refine extend_congr fun row _ => ?_
        rw [gateCells, if_neg swap]

/-! ## When the drawing is completed -/

/-- A qubit whose constant index, as an `int`, is a row. -/
def Placed (numQubits : ℕ) (value : QuantumValue) : Prop :=
  ∃ veq index, value = .extractRef veq (.constant index) ∧
    IsRow numQubits (toInt index)

theorem placed_iff {numQubits : ℕ} {value : QuantumValue} :
    Placed numQubits value ↔
      ∃ index, qubitIndex value = .ok index ∧
        IsRow numQubits index := by
  constructor
  · rintro ⟨veq, index, rfl, inside⟩
    exact ⟨toInt index, rfl, inside⟩
  · rintro ⟨index, read, inside⟩
    cases value with
    | refArgument id | veqArgument id => cases read
    | refAlloca id | veqAlloca id size =>
        cases read
        exact absurd inside.1 (by decide)
    | extractRef veq place =>
        cases place with
        | constant place =>
            cases read
            exact ⟨veq, place, rfl, inside⟩
        | dynamic id =>
            cases read
            exact absurd inside.1 (by decide)

/-- The indices that are read are rows if the operands are placed. -/
theorem rows_iff {numQubits : ℕ} {values : List QuantumValue}
    {indices : List ℤ}
    (read : getIndicesOfValueRange values = .ok indices) :
    (∀ row ∈ indices, IsRow numQubits row) ↔
      ∀ value ∈ values, Placed numQubits value := by
  have each := mapM_eq_ok_iff.mp read
  clear read
  induction each with
  | nil => simp
  | cons first _ induction =>
      rw [List.forall_mem_cons, List.forall_mem_cons]
      refine and_congr ?_ induction
      rw [placed_iff, first]
      simp

theorem indices_length {values : List QuantumValue} {indices : List ℤ}
    (read : getIndicesOfValueRange values = .ok indices) :
    values.length = indices.length :=
  (mapM_eq_ok_iff.mp read).length_eq

/-- The indices of operands can be read if none is a block argument. -/
theorem exists_indices_iff {values : List QuantumValue} :
    (∃ indices, getIndicesOfValueRange values = .ok indices) ↔
      ∀ value ∈ values, Defined value := by
  simp only [getIndicesOfValueRange, mapM_eq_ok_iff, exists_forall₂_iff]
  exact forall_congr' fun value => forall_congr' fun _ =>
    indexReadable_iff

theorem exists_parameters_iff [Neg A] [One A] (narrow : A → A)
    {parameters : List (FloatValue A)} :
    (∃ values, getParametersValues narrow parameters = .ok values) ↔
      ∀ parameter ∈ parameters, ∀ id, parameter ≠ .argument id := by
  simp only [getParametersValues, mapM_eq_ok_iff, exists_forall₂_iff]
  refine forall_congr' fun parameter => forall_congr' fun _ => ?_
  cases parameter <;> simp [extractDoubleArgumentValue]

/-- A gate with readable operands in the rows where it is drawn. -/
def DrawableGate (numQubits : ℕ) (gate : Gate A) : Prop :=
  (∀ parameter ∈ gate.parameters, ∀ id, parameter ≠ .argument id) ∧
    (∀ operand ∈ gate.qubits, Defined operand) ∧
    if gate.kind = .swap then
      gate.targets.length = 2 ∧
        ∀ target ∈ gate.targets, Placed numQubits target
    else
      gate.targets ≠ [] ∧ ∀ operand ∈ gate.qubits, Placed numQubits operand

theorem Placed.defined {numQubits : ℕ} {value : QuantumValue}
    (placed : Placed numQubits value) : Defined value := by
  rcases placed with ⟨veq, index, rfl, -⟩
  trivial

/-- A gate without parameters, other than a swap, in rows. -/
theorem DrawableGate.of_placed {numQubits : ℕ} {gate : Gate A}
    (noSwap : gate.kind ≠ .swap) (noParameters : gate.parameters = [])
    (nonempty : gate.targets ≠ [])
    (placed : ∀ operand ∈ gate.qubits, Placed numQubits operand) :
    DrawableGate numQubits gate := by
  refine ⟨by simp [noParameters],
    fun operand member => (placed operand member).defined, ?_⟩
  rw [if_neg noSwap]
  exact ⟨nonempty, placed⟩

theorem drawGate_returns_iff [Neg A] [One A] {narrow : A → A}
    {print : A → String} {gate : Gate A} {qubitLines : QubitLines} :
    (∃ result, drawGate narrow print gate qubitLines = .ok result) ↔
      DrawableGate qubitLines.length gate := by
  have fits {read : ReadGate A} (reads : Reads narrow gate read) :
      Fits qubitLines.length gate read ↔
        if gate.kind = .swap then
          gate.targets.length = 2 ∧
            ∀ target ∈ gate.targets, Placed qubitLines.length target
        else
          gate.targets ≠ [] ∧
            ∀ operand ∈ gate.qubits, Placed qubitLines.length operand := by
    have lengths := indices_length reads.2.1
    have nonempty : read.targets ≠ [] ↔ gate.targets ≠ [] := by
      rw [ne_eq, ne_eq, ← List.length_eq_zero_iff, ← lengths,
        List.length_eq_zero_iff]
    rw [Fits, ← lengths, nonempty, Gate.qubits, List.forall_mem_append,
      List.forall_mem_append, rows_iff reads.2.1, rows_iff reads.2.2]
    split
    · rfl
    · exact and_congr_right fun _ => and_comm
  rw [DrawableGate, Gate.qubits, List.forall_mem_append,
    ← exists_parameters_iff narrow, ← exists_indices_iff,
    ← exists_indices_iff]
  simp only [drawGate_eq_ok]
  constructor
  · rintro ⟨_, read, reads, fit, -⟩
    exact ⟨⟨_, reads.1⟩, ⟨⟨_, reads.2.2⟩, ⟨_, reads.2.1⟩⟩,
      (fits reads).mp fit⟩
  · rintro ⟨⟨parameters, readParameters⟩, ⟨⟨controls, readControls⟩,
      targets, readTargets⟩, placed⟩
    have reads : Reads narrow gate ⟨parameters, targets, controls⟩ :=
      ⟨readParameters, readTargets, readControls⟩
    exact ⟨_, _, reads, (fits reads).mpr placed, rfl⟩

/-- An operand of a measurement that is drawn. -/
def DrawableOperand (numQubits : ℕ) (operand : QuantumValue) : Prop :=
  isVeq operand = true ∨ Placed numQubits operand

theorem measuredRows_of_veq {numQubits : ℕ} {operand : QuantumValue}
    (register : isVeq operand = true) :
    measuredRows numQubits operand =
      .ok ((List.range numQubits).map fun (i : ℕ) => (i : ℤ)) := by
  rw [measuredRows, if_pos register]
  rfl

theorem measuredRows_of_ref {numQubits : ℕ} {operand : QuantumValue}
    (reference : isVeq operand = false) {rows : List ℤ} :
    measuredRows numQubits operand = .ok rows ↔
      ∃ index, qubitIndex operand = .ok index ∧
        index ≠ -1 ∧ rows = [index] := by
  rw [measuredRows, reference, if_neg (by decide), except_bind_eq_ok]
  refine exists_congr fun index => and_congr_right fun _ => ?_
  by_cases invalid : index = -1
  · rw [if_pos invalid]
    exact iff_of_false (by rintro ⟨⟩) fun holds => holds.1 invalid
  · rw [if_neg invalid]
    simp only [pure, Except.pure, Except.ok.injEq]
    exact ⟨fun equal => ⟨invalid, equal.symm⟩, fun holds => holds.2.symm⟩

theorem measuredRows_isRow_iff {numQubits : ℕ} {operand : QuantumValue} :
    (∃ rows, measuredRows numQubits operand = .ok rows ∧
        ∀ row ∈ rows, IsRow numQubits row) ↔
      DrawableOperand numQubits operand := by
  rw [DrawableOperand]
  cases register : isVeq operand with
  | true =>
      refine iff_of_true ⟨_, measuredRows_of_veq register, ?_⟩ (.inl rfl)
      intro row member
      rcases List.mem_map.mp member with ⟨place, inside, rfl⟩
      exact ⟨Int.natCast_nonneg place,
        Int.ofNat_lt.mpr (List.mem_range.mp inside)⟩
  | false =>
      rw [placed_iff]
      simp only [measuredRows_of_ref register, reduceCtorEq, false_or]
      constructor
      · rintro ⟨_, ⟨index, read, -, rfl⟩, inside⟩
        exact ⟨index, read, inside index (by simp)⟩
      · rintro ⟨index, read, inside⟩
        refine ⟨[index], ⟨index, read, ?_, rfl⟩, by simpa using inside⟩
        have nonneg := inside.1
        omega

theorem readRows_isRow_iff {numQubits : ℕ}
    {operands : List QuantumValue} :
    (∃ rows, readRows numQubits operands = .ok rows ∧
        ∀ row ∈ rows, IsRow numQubits row) ↔
      ∀ operand ∈ operands, DrawableOperand numQubits operand := by
  induction operands with
  | nil => exact iff_of_true ⟨[], rfl, by simp⟩ (by simp)
  | cons operand rest induction =>
      rw [List.forall_mem_cons, ← induction, ← measuredRows_isRow_iff]
      simp only [readRows, except_bind_eq_ok]
      constructor
      · rintro ⟨_, ⟨rows, read, others, readOthers, ⟨⟩⟩, inside⟩
        rcases List.forall_mem_append.mp inside with ⟨first, further⟩
        exact ⟨⟨rows, read, first⟩, ⟨others, readOthers, further⟩⟩
      · rintro ⟨⟨rows, read, first⟩, ⟨others, readOthers, further⟩⟩
        exact ⟨rows ++ others, ⟨rows, read, others, readOthers, rfl⟩,
          List.forall_mem_append.mpr ⟨first, further⟩⟩

/-- An operation that is drawn or skipped. -/
def Drawable (numQubits : ℕ) (op : Op A) : Prop :=
  match op.label with
  | .measure _ operands =>
      ∀ operand ∈ operands, DrawableOperand numQubits operand
  | .gate gate => DrawableGate numQubits gate
  | label => isOtherQuakeOperation label = false

section Runs

variable [Neg A] [One A] {narrow : A → A} {print : A → String}

variable (narrow print) in
theorem dump_returns_iff (op : Op A) (qubitLines : QubitLines) :
    (∃ result,
        dumpQuakeOperationToTikz narrow print op qubitLines = .ok result) ↔
      Drawable qubitLines.length op := by
  rw [dumpQuakeOperationToTikz, Drawable]
  cases op.label with
  | measure basis operands =>
      simp only [drawMeasurement_eq_ok, ← readRows_isRow_iff]
      constructor
      · rintro ⟨_, rows, read, inside, -⟩
        exact ⟨rows, read, inside⟩
      · rintro ⟨rows, read, inside⟩
        exact ⟨_, rows, read, inside, rfl⟩
  | gate gate => exact drawGate_returns_iff
  | _ =>
      dsimp only
      split
      · next other => exact iff_of_false (by rintro ⟨_, ⟨⟩⟩) (by simp [other])
      · next other => exact iff_of_true ⟨_, rfl⟩ (by simpa using other)

/-- An operation is drawn by cells that it adds to the rows. -/
theorem dump_eq_extend {op : Op A} {qubitLines result : QubitLines}
    (drawn :
      dumpQuakeOperationToTikz narrow print op qubitLines = .ok result) :
    ∃ added, result = extend qubitLines added := by
  rw [dumpQuakeOperationToTikz] at drawn
  cases label : op.label with
  | measure basis operands =>
      rw [label] at drawn
      rcases drawMeasurement_eq_ok.mp drawn with ⟨rows, -, -, equal⟩
      exact ⟨_, equal⟩
  | gate gate =>
      rw [label] at drawn
      rcases drawGate_eq_ok.mp drawn with ⟨read, -, -, equal⟩
      exact ⟨_, equal⟩
  | _ =>
      rw [label] at drawn
      dsimp only at drawn
      split at drawn
      · cases drawn
      · cases drawn
        exact ⟨fun _ => [], (extend_nil qubitLines).symm⟩

/-- The operations are drawn exactly if each of them can be. -/
theorem drawOperations_returns_iff {ops : Block A}
    {qubitLines : QubitLines} :
    (∃ result, drawOperations narrow print ops qubitLines = .ok result) ↔
      ∀ op ∈ ops, Drawable qubitLines.length op := by
  induction ops generalizing qubitLines with
  | nil => exact iff_of_true ⟨_, rfl⟩ (by simp)
  | cons op rest induction =>
      have first := dump_returns_iff narrow print op qubitLines
      rw [List.forall_mem_cons, ← first]
      simp only [drawOperations, List.foldlM_cons, except_bind_eq_ok]
      constructor
      · rintro ⟨result, lines, drawn, later⟩
        rcases dump_eq_extend drawn with ⟨added, rfl⟩
        have further := induction.mp ⟨result, later⟩
        rw [length_extend] at further
        exact ⟨⟨_, drawn⟩, further⟩
      · rintro ⟨⟨lines, drawn⟩, further⟩
        rcases dump_eq_extend drawn with ⟨added, rfl⟩
        rw [← length_extend qubitLines added] at further
        rcases induction.mpr further with ⟨result, later⟩
        exact ⟨result, _, drawn, later⟩

/--
Once the bits are counted, a kernel is drawn to its end exactly if its
qubits are not counted below zero and each of its operations can be drawn
or skipped.
-/
theorem drawKernel_returns_iff {argumentSize : ℕ → ℕ} {circuit : Op A}
    {count : BitCount}
    (counted :
      getNumberOfClassicalBits argumentSize circuit = .ok count) :
    (∃ result,
        drawKernel narrow print argumentSize circuit = .ok result) ↔
      0 ≤ getNumberOfQubits circuit ∧
        ∀ op ∈ postOrder circuit,
          Drawable (getNumberOfQubits circuit).toNat op := by
  rw [drawKernel, counted]
  simp only [except_bind_eq_ok, Except.ok.injEq, exists_eq_left',
    initialLines_eq_ok_iff]
  constructor
  · rintro ⟨result, _, ⟨nonnegative, rfl⟩, drawn⟩
    have drawable := drawOperations_returns_iff.mp ⟨result, drawn⟩
    rw [length_emptyLines] at drawable
    exact ⟨nonnegative, drawable⟩
  · rintro ⟨nonnegative, drawable⟩
    rw [← length_emptyLines (getNumberOfQubits circuit).toNat] at drawable
    rcases drawOperations_returns_iff.mpr drawable with ⟨result, drawn⟩
    exact ⟨result, _, ⟨nonnegative, rfl⟩, drawn⟩

end Runs

/-- A Bell pair with a measurement of its register. -/
def measuredBell : Op ℤ :=
  kernelOf
    [.leaf (.alloca (.veqAlloca 0 2)),
      (Gate.create .h false [] []
        [.extractRef (.veqAlloca 0 2) (.constant 0)]).op,
      (Gate.create .x false []
        [.extractRef (.veqAlloca 0 2) (.constant 0)]
        [.extractRef (.veqAlloca 0 2) (.constant 1)]).op,
      .leaf (.measure .mz [.veqAlloca 0 2])]

theorem measuredBell_drawn :
    ∃ result,
      drawKernel id toString (fun _ => 0) measuredBell = .ok result := by
  refine (drawKernel_returns_iff rfl).mpr ⟨by decide, ?_⟩
  have placed (index : ℤ) (inside : IsRow 2 (toInt index)) :
      Placed 2 (.extractRef (.veqAlloca 0 2) (.constant index)) :=
    ⟨_, index, rfl, inside⟩
  have first := placed 0 (by decide)
  have second := placed 1 (by decide)
  change ∀ op ∈ [_, _, _, _, _], Drawable 2 op
  simp only [List.forall_mem_cons]
  refine ⟨rfl, .of_placed (by decide) rfl (List.cons_ne_nil _ _) ?_,
    .of_placed (by decide) rfl (List.cons_ne_nil _ _) ?_, ?_, rfl,
    by simp⟩
  · simpa [Gate.qubits, Gate.create] using first
  · simpa [Gate.qubits, Gate.create] using ⟨first, second⟩
  · intro operand member
    cases List.mem_singleton.mp member
    exact .inl rfl

/-- A reset is taken for a gate, and a single qubit for row minus one. -/
theorem kernels_not_drawn :
    ∃ reset single : Op ℤ,
      reset = kernelOf
        [.leaf (.alloca (.veqAlloca 0 1)),
          .leaf (.reset (.extractRef (.veqAlloca 0 1) (.constant 0)))] ∧
      single = kernelOf
        [.leaf (.alloca (.refAlloca 0)),
          (Gate.create .h false [] [] [.refAlloca 0]).op] ∧
      drawKernel id toString (fun _ => 0) reset = .error .failedCast ∧
      drawKernel id toString (fun _ => 0) single = .error .outOfRange :=
  ⟨_, _, rfl, rfl, rfl, rfl⟩

end MQSSPasses.Lowerings.QuakeToTikz
