import MQSSPasses.General.DelimitedText
import MQSSPasses.General.TextReplacement
import MQSSPasses.Lowerings.QuakeToTikz

/-!
# Reading a drawing

The text of a drawing is put together from cells with delimiters between
them.  The delimiters do not occur in cells as long as numbers are printed
with digits, letters, points and minus signs, so the text determines the
rows.  The text of a cell determines the cell, and the label of a gate its
name, whether it is adjoint, and the numbers that are printed.
-/

namespace MQSSPasses.Lowerings.TikzTexts

open MQSSPasses.General.DelimitedText
open MQSSPasses.General.TextReplacement
open MQSSPasses.Quake.Syntax
open MQSSPasses.Lowerings.QuakeToTikz

/-! ## Characters of numbers -/

/-- A character of a printed number. -/
def OfNumber (character : Char) : Prop :=
  character.isAlphanum = true ∨ character = '.' ∨ character = '-'

instance : DecidablePred OfNumber := fun _ =>
  inferInstanceAs (Decidable (_ ∨ _ ∨ _))

/-- The printing of numbers as it is known. -/
def PrintsNumbers {A : Type} (print : A → String) : Prop :=
  ∀ value, ∀ character ∈ (print value).toList, OfNumber character

theorem ofNumber_of_digit {character : Char}
    (digit : character.isDigit = true) : OfNumber character := by
  refine .inl ?_
  rw [Char.isAlphanum, digit, Bool.or_true]

/-- Whole numbers are printed with digits and a minus sign. -/
theorem toString_int : PrintsNumbers (toString : ℤ → String) := by
  have digits (number : ℕ) :
      ∀ character ∈ number.repr.toList, OfNumber character := by
    intro character member
    rw [Nat.toList_repr] at member
    exact ofNumber_of_digit
      (Nat.isDigit_of_mem_toDigits (by decide) (by decide) member)
  intro value character member
  cases value with
  | ofNat number => exact digits number character member
  | negSucc number =>
      change character ∈ ("-" ++ (number + 1).repr).toList at member
      rw [String.toList_append, List.mem_append] at member
      rcases member with sign | digit
      · rw [List.mem_singleton.mp sign]
        decide
      · exact digits _ character digit

theorem toString_int_ne_empty (value : ℤ) : toString value ≠ "" := by
  intro empty
  cases value with
  | ofNat number => exact Nat.repr_ne_empty empty
  | negSucc number =>
      change "-" ++ (number + 1).repr = "" at empty
      have chars := congrArg String.toList empty
      rw [String.toList_append] at chars
      cases chars

/-! ## Texts of cells -/

/-- A cell whose text has no delimiter. -/
def Readable (cell : Cell) : Prop :=
  ∀ label, cell = .gate label →
    '\n' ∉ label.toList ∧ '&' ∉ label.toList

/-- A character between cells or rows. -/
def Delimits (mark : Char) : Prop :=
  mark = '\n' ∨ mark = '&'

theorem Delimits.notMem_toString {mark : Char} (delimits : Delimits mark)
    (value : ℤ) : mark ∉ (toString value).toList := by
  intro member
  have ofNumber := toString_int value mark member
  rcases delimits with rfl | rfl <;> revert ofNumber <;> decide

theorem Delimits.notMem_text {mark : Char} (delimits : Delimits mark)
    {cell : Cell} (readable : Readable cell) :
    mark ∉ cell.text.toList := by
  have apart (early late : String) (middle : List Char)
      (before : mark ∉ early.toList) (inside : mark ∉ middle)
      (behind : mark ∉ late.toList) :
      mark ∉ early.toList ++ middle ++ late.toList := by
    simp [before, inside, behind]
  cases cell with
  | lstick | qw | meter | swapEnd =>
      rcases delimits with rfl | rfl <;> decide
  | gate label =>
      rw [Cell.text, String.toList_append, String.toList_append]
      refine apart _ _ _ ?_ ?_ ?_
      · rcases delimits with rfl | rfl <;> decide
      · rcases delimits with rfl | rfl
        · exact (readable label rfl).1
        · exact (readable label rfl).2
      · rcases delimits with rfl | rfl <;> decide
  | ctrl offset | swapTo offset =>
      rw [Cell.text, String.toList_append, String.toList_append]
      refine apart _ _ _ ?_ (delimits.notMem_toString offset) ?_
      · rcases delimits with rfl | rfl <;> decide
      · rcases delimits with rfl | rfl <;> decide

/-- The second character of a text tells most cells apart. -/
def initial : Cell → Char
  | .lstick => 'l'
  | .qw => 'q'
  | .meter => 'm'
  | .gate _ => 'g'
  | .ctrl _ => 'c'
  | .swapTo _ | .swapEnd => 's'

theorem text_initial (cell : Cell) :
    cell.text.toList[1]? = some (initial cell) := by
  cases cell with
  | lstick | qw | meter | swapEnd => rfl
  | gate | ctrl | swapTo =>
      rw [Cell.text, String.toList_append, String.toList_append]
      rfl

theorem embraced_inj {early late text other : String}
    (equal : early ++ text ++ late = early ++ other ++ late) :
    text = other := by
  have chars := congrArg String.toList equal
  simp only [String.toList_append] at chars
  exact String.toList_inj.mp
    (List.append_cancel_left (List.append_cancel_right chars))

/-- The text of a cell determines the cell. -/
theorem text_inj {cell other : Cell} (equal : cell.text = other.text) :
    cell = other := by
  have initials : initial cell = initial other := by
    rw [← Option.some.injEq, ← text_initial, ← text_initial, equal]
  have swaps (offset : ℤ) :
      (Cell.swapTo offset).text ≠ Cell.swapEnd.text := by
    intro same
    have embraced :
        "\\swap\x7b" ++ toString offset ++ "\x7d" =
          "\\swap\x7b" ++ "" ++ "\x7d" := same
    exact toString_int_ne_empty offset (embraced_inj embraced)
  cases cell <;> cases other <;> first | rfl | cases initials
  case gate.gate label otherLabel =>
      rw [embraced_inj equal]
  case ctrl.ctrl offset otherOffset =>
      rw [Int.repr_inj.mp (embraced_inj equal)]
  case swapTo.swapTo offset otherOffset =>
      rw [Int.repr_inj.mp (embraced_inj equal)]
  case swapTo.swapEnd offset => exact absurd equal (swaps offset)
  case swapEnd.swapTo offset => exact absurd equal.symm (swaps offset)

/-! ## Texts of rows -/

/-- The text of a row. -/
def rowText (row : List Cell) : String :=
  "\t" ++ String.intercalate "\t&\t" (row.map Cell.text)

theorem toList_rowText (row : List Cell) :
    (rowText row).toList =
      '\t' :: List.intercalate (['\t'] ++ '&' :: ['\t'])
        (row.map fun cell => cell.text.toList) := by
  rw [rowText, String.toList_append, String.toList_intercalate,
    List.map_map]
  rfl

theorem newline_notMem_rowText {row : List Cell}
    (readable : ∀ cell ∈ row, Readable cell) :
    '\n' ∉ (rowText row).toList := by
  rw [toList_rowText, List.mem_cons, not_or]
  refine ⟨by decide, fun member => ?_⟩
  rcases mem_of_mem_intercalate member with separator | ⟨item, inside, mark⟩
  · revert separator
    decide
  · rcases List.mem_map.mp inside with ⟨cell, cellMember, rfl⟩
    exact Delimits.notMem_text (.inl rfl) (readable cell cellMember) mark

/-- The text of a row determines its cells. -/
theorem rowText_inj {row other : List Cell}
    (readable : ∀ cell ∈ row, Readable cell)
    (otherReadable : ∀ cell ∈ other, Readable cell)
    (nonempty : row ≠ []) (otherNonempty : other ≠ [])
    (equal : rowText row = rowText other) : row = other := by
  have chars := congrArg String.toList equal
  rw [toList_rowText, toList_rowText] at chars
  have clean {cells : List Cell}
      (cellsReadable : ∀ cell ∈ cells, Readable cell) :
      ∀ item ∈ cells.map fun cell => cell.text.toList, '&' ∉ item := by
    intro item member
    rcases List.mem_map.mp member with ⟨cell, inside, rfl⟩
    exact Delimits.notMem_text (.inr rfl) (cellsReadable cell inside)
  have texts :=
    intercalate_inj (by decide) (clean readable) (clean otherReadable)
      (by simpa using nonempty) (by simpa using otherNonempty)
      (List.cons.inj chars).2
  exact List.map_injective_iff.mpr
    (fun _ _ same => text_inj (String.toList_inj.mp same)) texts

/-! ## Texts of drawings -/

/-- The rows of a drawing whose text can be read. -/
structure ReadableRows (rows : QubitLines) : Prop where
  started : ∀ row ∈ rows, row ≠ []
  readable : ∀ row ∈ rows, ∀ cell ∈ row, Readable cell

theorem append_middle (early middle last late : String) :
    early ++ middle ++ last ++ late = early ++ (middle ++ last) ++ late :=
  congrArg (· ++ late) String.append_assoc

theorem tikzText_eq (rows : QubitLines) :
    tikzText rows =
      "\\begin\x7bquantikz\x7d\n" ++
        (String.intercalate "\\\\\n" (rows.map rowText) ++
          if rows = [] then "" else "\n") ++
        "\\end\x7bquantikz\x7d" := by
  have sameRows :
      (fun row : List Cell =>
          "\t" ++ String.intercalate "\t&\t" (row.map Cell.text)) =
        rowText := rfl
  unfold tikzText
  rw [sameRows, append_middle]

theorem toList_rowTexts (rows : QubitLines) :
    (String.intercalate "\\\\\n" (rows.map rowText)).toList =
      List.intercalate (['\\', '\\'] ++ '\n' :: [])
        (rows.map fun row => (rowText row).toList) := by
  rw [String.toList_intercalate, List.map_map]
  rfl

/-- The text of a drawing determines its rows. -/
theorem tikzText_inj {rows others : QubitLines}
    (readable : ReadableRows rows) (otherReadable : ReadableRows others)
    (equal : tikzText rows = tikzText others) : rows = others := by
  rw [tikzText_eq, tikzText_eq] at equal
  have inner := embraced_inj equal
  have clean {lines : QubitLines} (lineReadable : ReadableRows lines) :
      ∀ item ∈ lines.map fun row => (rowText row).toList, '\n' ∉ item := by
    intro item member
    rcases List.mem_map.mp member with ⟨row, inside, rfl⟩
    exact newline_notMem_rowText (lineReadable.readable row inside)
  by_cases none : rows = []
  · by_cases otherNone : others = []
    · rw [none, otherNone]
    · rw [if_pos none, if_neg otherNone, none] at inner
      have chars := congrArg String.toList inner
      simp at chars
  · by_cases otherNone : others = []
    · rw [if_neg none, if_pos otherNone, otherNone] at inner
      have chars := congrArg String.toList inner
      simp at chars
    · rw [if_neg none, if_neg otherNone] at inner
      have chars := congrArg String.toList inner
      rw [String.toList_append, String.toList_append, toList_rowTexts,
        toList_rowTexts] at chars
      have texts :=
        intercalate_inj (by decide) (clean readable) (clean otherReadable)
          (by simpa using none) (by simpa using otherNone)
          (List.append_cancel_right chars)
      have sameTexts : rows.map rowText = others.map rowText := by
        refine List.map_injective_iff.mpr
          (fun _ _ same => String.toList_inj.mp same) ?_
        rw [List.map_map, List.map_map]
        exact texts
      refine map_inj_of ?_ sameTexts
      intro row member other otherMember same
      exact rowText_inj (readable.readable row member)
        (otherReadable.readable other otherMember)
        (readable.started row member)
        (otherReadable.started other otherMember) same

/-! ## Labels of gates -/

section Labels

variable {A : Type} {print : A → String}

/-- The names of the operations of the dialect that are gates. -/
def mnemonics : List String :=
  ["x", "y", "z", "h", "s", "t", "r1", "rx", "ry", "rz", "phased_rx",
    "u2", "u3", "swap", "exp_pauli", "custom_op"]

theorem mnemonic_mem (kind : GateKind) : kind.mnemonic ∈ mnemonics := by
  cases kind <;> simp [GateKind.mnemonic, mnemonics]

/-- The name of a gate in its label. -/
def drawnName (mnemonic : String) : List Char :=
  replaced "phased_".toList "p".toList 0 mnemonic.toList

/-- The characters that end the name in a label. -/
def EndsName (character : Char) : Prop :=
  character = '\\' ∨ character = '('

instance : DecidablePred EndsName := fun _ =>
  inferInstanceAs (Decidable (_ ∨ _))

theorem drawnNames_nodup : (mnemonics.map drawnName).Nodup := by
  decide

theorem drawnName_inj {kind other : GateKind}
    (equal : drawnName kind.mnemonic = drawnName other.mnemonic) :
    kind.mnemonic = other.mnemonic :=
  List.inj_on_of_nodup_map drawnNames_nodup (mnemonic_mem kind)
    (mnemonic_mem other) equal

/-- A character of a name, which ends no name and delimits nothing. -/
def ofName (character : Char) : Bool :=
  character.isAlphanum || character == '_'

theorem drawnNames_ofName :
    (mnemonics.all fun name => (drawnName name).all ofName) = true := by
  decide

theorem drawnName_clean (kind : GateKind) {character : Char}
    (foreign : ofName character = false) :
    character ∉ drawnName kind.mnemonic := by
  intro member
  have names := List.all_eq_true.mp drawnNames_ofName _ (mnemonic_mem kind)
  rw [List.all_eq_true.mp names character member] at foreign
  cases foreign

/-- The dagger in the label of an adjoint gate. -/
def dagger (isAdj : Bool) : List Char :=
  if isAdj then "\\textsuperscript\x7b\\textdagger\x7d".toList else []

/-- The numbers in a label. -/
def numbers (printed : List String) : List Char :=
  if printed = [] then []
  else
    '(' :: (List.intercalate ([' '] ++ ',' :: [' '])
      (printed.map String.toList) ++ [')'])

theorem toList_parameterText (parameters : List A) :
    (parameterText print parameters).toList =
      numbers (parameters.map print) := by
  rw [parameterText, numbers]
  by_cases none : parameters = []
  · rw [none]
    rfl
  · have some : parameters.length > 0 := List.length_pos_iff.mpr none
    have printedSome : parameters.map print ≠ [] := by
      simpa using none
    rw [if_pos some, if_neg printedSome, String.toList_append,
      String.toList_append, String.toList_intercalate]
    rfl

theorem toList_labelGate (gate : Gate A) (parameters : List A) :
    (labelGate print gate parameters).toList =
      drawnName gate.kind.mnemonic ++
        (dagger gate.isAdj ++ numbers (parameters.map print)) := by
  have name :
      (gate.kind.mnemonic.replace "phased_" "p").toList =
        drawnName gate.kind.mnemonic :=
    toList_replace (by decide) _ _
  rw [labelGate, String.toList_append, String.toList_append, name,
    toList_parameterText, List.append_assoc]
  cases gate.isAdj <;> rfl

theorem numbers_inj {printed others : List String}
    (clean : ∀ text ∈ printed, ',' ∉ text.toList)
    (otherClean : ∀ text ∈ others, ',' ∉ text.toList)
    (equal : numbers printed = numbers others) : printed = others := by
  rw [numbers, numbers] at equal
  split_ifs at equal with none otherNone otherNone
  · rw [none, otherNone]
  · have items :=
      intercalate_inj (by decide)
        (by simpa using clean) (by simpa using otherClean)
        (by simpa using none) (by simpa using otherNone)
        (List.append_cancel_right (List.cons.inj equal).2)
    exact List.map_injective_iff.mpr
      (fun _ _ same => String.toList_inj.mp same) items

theorem head_of_numbers {printed : List String} :
    ∀ character ∈ (numbers printed).head?, character = '(' := by
  intro character member
  rw [numbers] at member
  split_ifs at member
  · cases member
  · cases member
    rfl

theorem head_of_rest {isAdj : Bool} {printed : List String} :
    ∀ character ∈ (dagger isAdj ++ numbers printed).head?,
      EndsName character := by
  intro character member
  cases isAdj with
  | false => exact .inr (head_of_numbers character member)
  | true =>
      cases member
      exact .inl rfl

/-- A dagger is told apart from the numbers. -/
theorem dagger_inj {isAdj otherAdj : Bool} {printed others : List String}
    (equal :
      dagger isAdj ++ numbers printed =
        dagger otherAdj ++ numbers others) :
    isAdj = otherAdj ∧ numbers printed = numbers others := by
  have apart (texts later : List String)
      (same :
        dagger true ++ numbers texts = dagger false ++ numbers later) :
      False := by
    have first : '\\' ∈ (numbers later).head? := by
      rw [← List.nil_append (numbers later)]
      exact congrArg List.head? same ▸ rfl
    exact absurd (head_of_numbers _ first) (by decide)
  cases isAdj <;> cases otherAdj
  case false.false => exact ⟨rfl, equal⟩
  case true.true => exact ⟨rfl, List.append_cancel_left equal⟩
  case false.true => exact (apart others printed equal.symm).elim
  case true.false => exact (apart printed others equal).elim

theorem PrintsNumbers.notMem {mark : Char} (prints : PrintsNumbers print)
    (noNumber : ¬ OfNumber mark) {parameters : List A} :
    ∀ text ∈ parameters.map print, mark ∉ text.toList := by
  intro text member inside
  rcases List.mem_map.mp member with ⟨value, -, rfl⟩
  exact noNumber (prints value mark inside)

/--
The label of a gate determines its name, whether it is adjoint, and the
numbers that are printed.
-/
theorem labelGate_eq_iff (prints : PrintsNumbers print)
    {gate other : Gate A} {parameters others : List A} :
    labelGate print gate parameters = labelGate print other others ↔
      gate.kind.mnemonic = other.kind.mnemonic ∧
        gate.isAdj = other.isAdj ∧
        parameters.map print = others.map print := by
  rw [← String.toList_inj, toList_labelGate, toList_labelGate]
  constructor
  · intro equal
    have clean (kind : GateKind) :
        ∀ character ∈ drawnName kind.mnemonic, ¬ EndsName character := by
      rintro character member (rfl | rfl)
      · exact drawnName_clean kind (by decide) member
      · exact drawnName_clean kind (by decide) member
    rcases split_before_marks (clean gate.kind) (clean other.kind)
      head_of_rest head_of_rest equal with ⟨names, rest⟩
    rcases dagger_inj rest with ⟨adjoint, texts⟩
    exact ⟨drawnName_inj names, adjoint,
      numbers_inj (prints.notMem (by decide)) (prints.notMem (by decide))
        texts⟩
  · rintro ⟨name, adjoint, printed⟩
    rw [name, adjoint, printed]

/-- The label of a gate has no delimiter. -/
theorem readable_label (prints : PrintsNumbers print) (gate : Gate A)
    (parameters : List A) :
    Readable (.gate (labelGate print gate parameters)) := by
  have apart (mark : Char) (delimits : Delimits mark) :
      mark ∉ (labelGate print gate parameters).toList := by
    intro member
    rw [toList_labelGate, List.mem_append, List.mem_append] at member
    rcases member with name | adjoint | printed
    · rcases delimits with rfl | rfl
      · exact drawnName_clean gate.kind (by decide) name
      · exact drawnName_clean gate.kind (by decide) name
    · revert adjoint
      cases gate.isAdj <;> rcases delimits with rfl | rfl <;> decide
    · rw [numbers] at printed
      split_ifs at printed with none
      · cases printed
      · rw [List.mem_cons, List.mem_append, List.mem_singleton] at printed
        have noNumber : ¬ OfNumber mark := by
          rcases delimits with rfl | rfl <;> decide
        rcases printed with rfl | inside | rfl
        · revert delimits
          simp [Delimits]
        · rcases mem_of_mem_intercalate inside with
            separator | ⟨item, itemMember, inItem⟩
          · revert separator
            rcases delimits with rfl | rfl <;> decide
          · rcases List.mem_map.mp itemMember with ⟨text, textMember, rfl⟩
            exact prints.notMem noNumber text textMember inItem
        · revert delimits
          simp [Delimits]
  intro label isLabel
  cases isLabel
  exact ⟨apart _ (.inl rfl), apart _ (.inr rfl)⟩

end Labels

end MQSSPasses.Lowerings.TikzTexts
