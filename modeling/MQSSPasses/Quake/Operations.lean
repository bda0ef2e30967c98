import MQSSPasses.General.IntConversion
import MQSSPasses.Quake.Syntax

/-!
# Reading operands, and the look-back of the rewriting passes

Qubit operands are compared by one integer read from their defining
operation: the constant index of a `quake.extract_ref`, and `-1` for every
other definition.  A block argument has no defining operation, and reading
through the null pointer is a fault.  The index has 64 bits, but all who
read it keep it in an `int`: this is `qubitIndex`.

`getPreviousOperationOnTarget` walks a block backwards from the visited
operation and stops at the first gate that names the index of a given
operand.  `Found` records where it stopped and what it passed over.
-/

namespace MQSSPasses.Quake.Operations

open MQSSPasses.General.IntConversion
open MQSSPasses.General.TracedComputation
open MQSSPasses.General.OperationTree
open MQSSPasses.Quake.Syntax

/-- The ways in which a pass breaks. -/
inductive Fault where
  /-- `dyn_cast` of a null operation, such as that of a block argument. -/
  | nullOperation
  /-- The interface of an operation to which `dyn_cast` did not apply. -/
  | failedCast
  /-- An operation which the pass has already erased. -/
  | erasedOperation
  /-- An element or a key that a container does not have. -/
  | outOfRange
  /-- A container with more elements than one can have. -/
  | lengthError
  /-- The wrong alternative of a variant. -/
  | badVariantAccess
  | assertion (message : String)
  deriving DecidableEq, Repr

/-- `ExtractRefOp::kDynamicIndex`, read as a signed integer. -/
def kDynamicIndex : ℤ := -1

/--
The index of the `quake.extract_ref` that defines a value, and `-1` when
another operation defines it.
-/
def extractIndexFromQuakeExtractRefOp :
    QuantumValue → Except Fault ℤ
  | .refArgument _ | .veqArgument _ => .error .nullOperation
  | .refAlloca _ | .veqAlloca _ _ => .ok (-1)
  | .extractRef _ (.constant index) => .ok index
  | .extractRef _ (.dynamic _) => .ok kDynamicIndex

/--
The index as the callers of `extractIndexFromQuakeExtractRefOp` keep it: the
result of 64 bits is assigned to an `int`.
-/
def qubitIndex (value : QuantumValue) : Except Fault ℤ := do
  let index ← extractIndexFromQuakeExtractRefOp value
  return toInt index

@[simp]
theorem qubitIndex_constant (veq : QuantumValue) (index : ℤ) :
    qubitIndex (.extractRef veq (.constant index)) = .ok (toInt index) :=
  rfl

@[simp]
theorem qubitIndex_dynamic (veq : QuantumValue) (value : ℕ) :
    qubitIndex (.extractRef veq (.dynamic value)) = .ok (-1) :=
  rfl

@[simp]
theorem qubitIndex_refAlloca (id : ℕ) :
    qubitIndex (.refAlloca id) = .ok (-1) :=
  rfl

@[simp]
theorem qubitIndex_veqAlloca (id size : ℕ) :
    qubitIndex (.veqAlloca id size) = .ok (-1) :=
  rfl

@[simp]
theorem qubitIndex_refArgument (id : ℕ) :
    qubitIndex (.refArgument id) = .error .nullOperation :=
  rfl

@[simp]
theorem qubitIndex_veqArgument (id : ℕ) :
    qubitIndex (.veqArgument id) = .error .nullOperation :=
  rfl

/--
The value of the `arith.constant` that defines a value, narrowed to a
`float`, and `-1.0` when another operation defines it.
-/
def extractDoubleArgumentValue {A : Type} [Neg A] [One A]
    (narrow : A → A) : FloatValue A → Except Fault A
  | .constant value => .ok (narrow value)
  | .argument _ => .error .nullOperation
  | .computed _ => .ok (-1)

/-- The indices of a list of operands. -/
def getIndicesOfValueRange (array : List QuantumValue) :
    Except Fault (List ℤ) :=
  array.mapM qubitIndex

/-- The first operand with the given index, if any. -/
def findIndex (index : ℤ) :
    List QuantumValue → Except Fault (Option QuantumValue)
  | [] => return none
  | value :: others => do
      let other ← qubitIndex value
      if index = other then
        return some value
      findIndex index others

/--
Where a look-back stopped: the gate, the operand it matched, the operations
below the gate and those between it and the visited operation.
-/
structure Found (A : Type) where
  lower : Block A
  operation : Op A
  gate : Gate A
  named : QuantumValue
  between : Block A

/--
The look-back over the operations before the visited one, nearest first.
`passed` are the operations gone past already.
-/
def lookBack {A : Type} (targetQubit : QuantumValue) :
    Block A → Block A → Except Fault (Option (Found A))
  | [], _ => return none
  | operation :: lower, passed =>
      match asOperator operation with
      | none => lookBack targetQubit lower (operation :: passed)
      | some gate => do
          let targetQCurr ←
            qubitIndex targetQubit
          match ← findIndex targetQCurr gate.targets with
          | some named =>
              return some ⟨lower.reverse, operation, gate, named, passed⟩
          | none =>
              match ← findIndex targetQCurr gate.controls with
              | some named =>
                  return some
                    ⟨lower.reverse, operation, gate, named, passed⟩
              | none => lookBack targetQubit lower (operation :: passed)

/--
The closest gate before the visited operation that has an operand with the
index of `targetQubit`.
-/
def getPreviousOperationOnTarget {A : Type} (before : Block A)
    (targetQubit : QuantumValue) :
    Except Fault (Option (Found A)) :=
  lookBack targetQubit before.reverse []

/-! ## What the look-back finds -/

theorem findIndex_eq_some {index : ℤ} {values : List QuantumValue}
    {named : QuantumValue}
    (found : findIndex index values = .ok (some named)) :
    named ∈ values ∧
      qubitIndex named = .ok index := by
  induction values with
  | nil => simp [findIndex, pure, Except.pure] at found
  | cons value others induction =>
      rw [findIndex, except_bind_eq_ok] at found
      rcases found with ⟨other, read, found⟩
      by_cases same : index = other
      · simp only [same, if_true, pure, Except.pure, Except.ok.injEq,
          Option.some.injEq] at found
        subst found
        exact ⟨List.mem_cons_self, same ▸ read⟩
      · simp only [same, if_false] at found
        rcases induction found with ⟨member, index⟩
        exact ⟨List.mem_cons_of_mem value member, index⟩

/-- The search stops at the first of two lists if it holds the index. -/
theorem findIndex_append_first {index : ℤ}
    {first second : List QuantumValue} {named value : QuantumValue}
    (found : findIndex index (first ++ second) = .ok (some named))
    (member : value ∈ first) (read : qubitIndex value = .ok index) :
    named ∈ first := by
  induction first with
  | nil => cases member
  | cons head others induction =>
      rw [List.cons_append, findIndex, except_bind_eq_ok] at found
      rcases found with ⟨other, readHead, found⟩
      by_cases same : index = other
      · simp only [same, if_true, pure, Except.pure, Except.ok.injEq,
          Option.some.injEq] at found
        subst found
        exact List.mem_cons_self
      · simp only [same, if_false] at found
        rcases List.mem_cons.mp member with rfl | later
        · rw [read, Except.ok.injEq] at readHead
          exact absurd readHead same
        · exact List.mem_cons_of_mem head (induction found later)

theorem findIndex_eq_none {index : ℤ} {values : List QuantumValue}
    (found : findIndex index values = .ok none) :
    ∀ value ∈ values,
      qubitIndex value ≠ .ok index := by
  induction values with
  | nil => simp
  | cons value others induction =>
      rw [findIndex, except_bind_eq_ok] at found
      rcases found with ⟨other, read, found⟩
      by_cases same : index = other
      · simp [same, pure, Except.pure] at found
      · simp only [same, if_false] at found
        intro operand member
        rcases List.mem_cons.mp member with rfl | later
        · rw [read]
          simpa using Ne.symm same
        · exact induction found operand later

theorem findIndex_append {index : ℤ} (first second : List QuantumValue) :
    findIndex index (first ++ second) =
      findIndex index first >>= fun found =>
        match found with
        | some named => return some named
        | none => findIndex index second := by
  induction first with
  | nil => rfl
  | cons value others induction =>
      rw [List.cons_append, findIndex, findIndex, induction]
      cases qubitIndex value with
      | error fault => rfl
      | ok other =>
          by_cases same : index = other <;>
            simp [same, bind, Except.bind, pure, Except.pure]

/-- At a gate the look-back searches the targets and then the controls. -/
theorem lookBack_cons_of_gate {A : Type} {targetQubit : QuantumValue}
    {operation : Op A} {gate : Gate A}
    (isGate : asOperator operation = some gate)
    (lower passed : Block A) :
    lookBack targetQubit (operation :: lower) passed =
      qubitIndex targetQubit >>= fun index =>
        findIndex index (gate.targets ++ gate.controls) >>= fun found =>
          match found with
          | some named =>
              return some ⟨lower.reverse, operation, gate, named, passed⟩
          | none => lookBack targetQubit lower (operation :: passed) := by
  rw [lookBack, isGate]
  dsimp only
  congr 1
  funext index
  rw [findIndex_append]
  cases findIndex index gate.targets with
  | error fault => rfl
  | ok seen => cases seen <;> rfl

/-- At any other operation it goes on. -/
theorem lookBack_cons_of_other {A : Type} {targetQubit : QuantumValue}
    {operation : Op A} (noGate : asOperator operation = none)
    (lower passed : Block A) :
    lookBack targetQubit (operation :: lower) passed =
      lookBack targetQubit lower (operation :: passed) := by
  rw [lookBack, noGate]

/-- An operation of a block that the look-back for an operand goes past. -/
def Hidden {A : Type} (targetQubit : QuantumValue)
    (operation : Op A) : Prop :=
  ∀ gate, asOperator operation = some gate →
    ∀ operand ∈ gate.qubits,
      qubitIndex operand ≠
        qubitIndex targetQubit

theorem hidden_of_other {A : Type} {targetQubit : QuantumValue}
    {operation : Op A} (noGate : asOperator operation = none) :
    Hidden targetQubit operation := by
  intro gate isGate
  rw [noGate] at isGate
  cases isGate

/-- A gate is gone past exactly if the search finds no operand. -/
theorem hidden_iff {A : Type} {targetQubit : QuantumValue} {index : ℤ}
    (read : qubitIndex targetQubit = .ok index)
    {operation : Op A} {gate : Gate A}
    (isGate : asOperator operation = some gate) :
    Hidden targetQubit operation ↔
      ∀ value ∈ gate.targets ++ gate.controls,
        qubitIndex value ≠ .ok index := by
  rw [Hidden, read]
  simp only [isGate, Option.some.injEq, forall_eq', Gate.qubits,
    List.mem_append]
  exact forall_congr' fun value => by rw [or_comm]

instance {A : Type} (targetQubit : QuantumValue) :
    DecidablePred (Hidden (A := A) targetQubit) := fun operation =>
  match cast : asOperator operation with
  | none => .isTrue (hidden_of_other cast)
  | some gate =>
      decidable_of_iff
        (∀ operand ∈ gate.qubits,
          qubitIndex operand ≠ qubitIndex targetQubit)
        (by simp [Hidden, cast])

/-- What it means for a look-back to have stopped at a place. -/
structure Found.Correct {A : Type} (found : Found A)
    (before : Block A) (targetQubit : QuantumValue) : Prop where
  position : before = found.lower ++ found.operation :: found.between
  isGate : asOperator found.operation = some found.gate
  operand : found.named ∈ found.gate.qubits
  sameIndex :
    qubitIndex found.named =
      qubitIndex targetQubit
  /-- The targets are searched before the controls. -/
  targetsFirst :
    ∀ value ∈ found.gate.targets,
      qubitIndex value = qubitIndex targetQubit →
        found.named ∈ found.gate.targets
  passed : ∀ operation ∈ found.between, Hidden targetQubit operation

theorem lookBack_correct {A : Type} {targetQubit : QuantumValue}
    {reversed passed : Block A} {found : Found A}
    (result : lookBack targetQubit reversed passed = .ok (some found))
    (hidden : ∀ operation ∈ passed, Hidden targetQubit operation) :
    found.Correct (reversed.reverse ++ passed) targetQubit := by
  induction reversed generalizing passed with
  | nil => simp [lookBack, pure, Except.pure] at result
  | cons operation lower induction =>
      have further (unseen : Hidden targetQubit operation)
          (result :
            lookBack targetQubit lower (operation :: passed) =
              .ok (some found)) :
          found.Correct ((operation :: lower).reverse ++ passed)
            targetQubit := by
        have := induction result (by
          intro other member
          rcases List.mem_cons.mp member with rfl | earlier
          · exact unseen
          · exact hidden other earlier)
        simpa using this
      cases cast : asOperator operation with
      | none =>
          rw [lookBack_cons_of_other cast] at result
          exact further (hidden_of_other cast) result
      | some gate =>
          rw [lookBack_cons_of_gate cast, except_bind_eq_ok] at result
          rcases result with ⟨index, read, result⟩
          rcases except_bind_eq_ok.mp result with ⟨seen, searched, result⟩
          cases seen with
          | some named =>
              cases result
              rcases findIndex_eq_some searched with ⟨member, same⟩
              exact
                { position := by simp
                  isGate := cast
                  operand :=
                    List.mem_append.mpr (List.mem_append.mp member).symm
                  sameIndex := same.trans read.symm
                  targetsFirst := fun value inside equal =>
                    findIndex_append_first searched inside
                      (equal.trans read)
                  passed := hidden }
          | none =>
              have unseen := findIndex_eq_none searched
              exact further ((hidden_iff read cast).mpr unseen) result

/-- The gate at which a look-back stops is not gone past. -/
theorem Found.Correct.not_hidden {A : Type} {found : Found A}
    {before : Block A} {targetQubit : QuantumValue}
    (correct : found.Correct before targetQubit) :
    ¬ Hidden targetQubit found.operation :=
  fun hidden =>
    hidden found.gate correct.isGate found.named correct.operand
      correct.sameIndex

/-- The look-back stops at the nearest gate that names the index. -/
theorem getPreviousOperationOnTarget_correct {A : Type}
    {before : Block A} {targetQubit : QuantumValue} {found : Found A}
    (result :
      getPreviousOperationOnTarget before targetQubit =
        .ok (some found)) :
    found.Correct before targetQubit := by
  have := lookBack_correct result (by simp)
  simpa using this

/-- If the look-back finds nothing, no gate names the index. -/
theorem lookBack_none {A : Type} {targetQubit : QuantumValue}
    {reversed passed : Block A}
    (result : lookBack targetQubit reversed passed = .ok none) :
    ∀ operation ∈ reversed, Hidden targetQubit operation := by
  induction reversed generalizing passed with
  | nil => simp
  | cons operation lower induction =>
      have further (unseen : Hidden targetQubit operation)
          (result :
            lookBack targetQubit lower (operation :: passed) = .ok none) :
          ∀ other ∈ operation :: lower, Hidden targetQubit other := by
        intro other member
        rcases List.mem_cons.mp member with rfl | earlier
        · exact unseen
        · exact induction result other earlier
      cases cast : asOperator operation with
      | none =>
          rw [lookBack_cons_of_other cast] at result
          exact further (hidden_of_other cast) result
      | some gate =>
          rw [lookBack_cons_of_gate cast, except_bind_eq_ok] at result
          rcases result with ⟨index, read, result⟩
          rcases except_bind_eq_ok.mp result with ⟨seen, searched, result⟩
          cases seen with
          | some named => cases result
          | none =>
              have unseen := findIndex_eq_none searched
              exact further ((hidden_iff read cast).mpr unseen) result

theorem getPreviousOperationOnTarget_none {A : Type}
    {before : Block A} {targetQubit : QuantumValue}
    (result :
      getPreviousOperationOnTarget before targetQubit = .ok none) :
    ∀ operation ∈ before, Hidden targetQubit operation :=
  fun operation member =>
    lookBack_none result operation (List.mem_reverse.mpr member)

/-! ## When the look-back completes -/

/-- An operand whose index can be read. -/
def IndexReadable (value : QuantumValue) : Prop :=
  ∃ index, qubitIndex value = .ok index

/-- An operation defines the value, which is no block argument. -/
def Defined : QuantumValue → Prop
  | .refArgument _ | .veqArgument _ => False
  | .refAlloca _ | .veqAlloca _ _ | .extractRef _ _ => True

theorem indexReadable_iff {value : QuantumValue} :
    IndexReadable value ↔ Defined value := by
  unfold IndexReadable Defined
  cases value with
  | extractRef veq index => cases index <;> simp
  | _ => simp

/-- What is read in the search for an operand with the index is defined. -/
def SearchDefined (targetQubit : QuantumValue)
    (values : List QuantumValue) : Prop :=
  ∀ first value others, values = first ++ value :: others →
    (∀ earlier ∈ first,
      qubitIndex earlier ≠
        qubitIndex targetQubit) →
      Defined value

theorem searchDefined_cons {targetQubit value : QuantumValue}
    {others : List QuantumValue} :
    SearchDefined targetQubit (value :: others) ↔
      Defined value ∧
        (qubitIndex value ≠
            qubitIndex targetQubit →
          SearchDefined targetQubit others) := by
  constructor
  · intro defined
    refine ⟨defined [] value others rfl (by simp), ?_⟩
    intro different first next rest split passed
    refine defined (value :: first) next rest (by rw [split]; rfl) ?_
    rw [List.forall_mem_cons]
    exact ⟨different, passed⟩
  · rintro ⟨here, later⟩ first next rest split passed
    cases first with
    | nil =>
        cases split
        exact here
    | cons other first =>
        cases split
        rw [List.forall_mem_cons] at passed
        exact later passed.1 first next rest rfl passed.2

theorem findIndex_returns_iff {targetQubit : QuantumValue} {index : ℤ}
    (read : qubitIndex targetQubit = .ok index)
    {values : List QuantumValue} :
    (∃ result, findIndex index values = .ok result) ↔
      SearchDefined targetQubit values := by
  induction values with
  | nil =>
      refine iff_of_true ⟨none, rfl⟩ ?_
      intro first value others split
      cases first <;> cases split
  | cons value others induction =>
      rw [searchDefined_cons, ← induction, ← indexReadable_iff, findIndex,
        read]
      cases value_ : qubitIndex value with
      | error fault => simp [IndexReadable, value_, bind, Except.bind]
      | ok other =>
          by_cases same : index = other
          · simp [IndexReadable, value_, same, bind, Except.bind, pure,
              Except.pure]
          · simp [IndexReadable, value_, same, Ne.symm same, bind,
              Except.bind]

/-- Every operand a look-back reads is defined. -/
def LookBackDefined {A : Type} (before : Block A)
    (targetQubit : QuantumValue) : Prop :=
  ∀ lower operation between gate,
    before = lower ++ operation :: between →
    asOperator operation = some gate →
    (∀ passed ∈ between, Hidden targetQubit passed) →
      Defined targetQubit ∧
        SearchDefined targetQubit (gate.targets ++ gate.controls)

theorem lookBackDefined_concat {A : Type} {before : Block A}
    {operation : Op A} {targetQubit : QuantumValue} :
    LookBackDefined (before ++ [operation]) targetQubit ↔
      (∀ gate, asOperator operation = some gate →
        Defined targetQubit ∧
          SearchDefined targetQubit (gate.targets ++ gate.controls)) ∧
        (Hidden targetQubit operation →
          LookBackDefined before targetQubit) := by
  constructor
  · intro defined
    refine ⟨fun gate isGate =>
      defined before operation [] gate rfl isGate (by simp), ?_⟩
    intro hidden lower earlier between gate split isGate passed
    refine defined lower earlier (between ++ [operation]) gate
      (by rw [split]; simp) isGate ?_
    intro other member
    rcases List.mem_append.mp member with inside | last
    · exact passed other inside
    · rw [List.mem_singleton.mp last]
      exact hidden
  · rintro ⟨here, further⟩ lower earlier between gate split isGate passed
    rcases List.eq_nil_or_concat between with
      rfl | ⟨front, final, rfl⟩
    · rcases List.append_inj' split rfl with ⟨-, equal⟩
      cases equal
      exact here gate isGate
    · rw [List.concat_eq_append] at split passed
      rw [← List.cons_append, ← List.append_assoc] at split
      rcases List.append_inj' split rfl with ⟨rest, equal⟩
      cases equal
      exact further (passed operation (by simp)) lower earlier front gate
        rest isGate fun other member =>
          passed other (List.mem_append_left _ member)

theorem lookBackDefined_of_defined {A : Type} {before : Block A}
    {targetQubit : QuantumValue} (target : Defined targetQubit)
    (operands :
      ∀ operation ∈ before, ∀ gate, asOperator operation = some gate →
        ∀ operand ∈ gate.qubits, Defined operand) :
    LookBackDefined before targetQubit := by
  intro lower operation between gate split isGate _
  refine ⟨target, ?_⟩
  intro first value others values _
  refine operands operation (by rw [split]; simp) gate isGate value ?_
  have searched : value ∈ gate.targets ++ gate.controls := by
    rw [values]
    simp
  exact List.mem_append.mpr (List.mem_append.mp searched).symm

/-- What the look-back does at a gate. -/
theorem lookBack_gate_returns_iff {A : Type} {targetQubit : QuantumValue}
    {operation : Op A} {gate : Gate A}
    (isGate : asOperator operation = some gate)
    (lower passed : Block A) :
    (∃ result,
        lookBack targetQubit (operation :: lower) passed = .ok result) ↔
      (Defined targetQubit ∧
          SearchDefined targetQubit (gate.targets ++ gate.controls)) ∧
        (Hidden targetQubit operation →
          ∃ result,
            lookBack targetQubit lower (operation :: passed) =
              .ok result) := by
  rw [lookBack_cons_of_gate isGate, ← indexReadable_iff, IndexReadable]
  cases read : qubitIndex targetQubit with
  | error fault => simp [bind, Except.bind]
  | ok index =>
      rw [← findIndex_returns_iff read, hidden_iff read isGate]
      cases searched :
          findIndex index (gate.targets ++ gate.controls) with
      | error fault => simp [bind, Except.bind, searched]
      | ok seen =>
          cases seen with
          | some named =>
              rcases findIndex_eq_some searched with ⟨member, found⟩
              refine iff_of_true
                ⟨some ⟨lower.reverse, operation, gate, named, passed⟩, ?_⟩
                ⟨⟨⟨_, rfl⟩, ⟨_, rfl⟩⟩, ?_⟩
              · simp only [bind, Except.bind, searched]
                rfl
              · intro none
                exact absurd found (none named member)
          | none =>
              have unseen := findIndex_eq_none searched
              constructor
              · intro returns
                refine ⟨⟨⟨_, rfl⟩, ⟨_, rfl⟩⟩, fun _ => ?_⟩
                simpa [bind, Except.bind, searched] using returns
              · rintro ⟨-, more⟩
                simpa [bind, Except.bind, searched] using more unseen

/-- The look-back completes exactly if it reads no block argument. -/
theorem lookBack_returns_iff {A : Type} {targetQubit : QuantumValue}
    {before : Block A} (passed : Block A) :
    (∃ result,
        lookBack targetQubit before.reverse passed = .ok result) ↔
      LookBackDefined before targetQubit := by
  induction before using List.reverseRecOn generalizing passed with
  | nil =>
      refine iff_of_true ⟨none, rfl⟩ ?_
      intro lower operation between gate split
      cases lower <;> cases split
  | append_singleton before operation induction =>
      rw [List.reverse_append, List.reverse_singleton,
        List.singleton_append, lookBackDefined_concat,
        ← induction (operation :: passed)]
      cases isGate : asOperator operation with
      | none =>
          have hidden : Hidden targetQubit operation :=
            hidden_of_other isGate
          rw [lookBack_cons_of_other isGate]
          simp [hidden]
      | some gate =>
          rw [lookBack_gate_returns_iff isGate]
          simp only [Option.some.injEq, forall_eq']

theorem getPreviousOperationOnTarget_returns_iff {A : Type}
    {before : Block A} {targetQubit : QuantumValue} :
    (∃ result,
        getPreviousOperationOnTarget before targetQubit = .ok result) ↔
      LookBackDefined before targetQubit :=
  lookBack_returns_iff []

/-- The look-back completes if it can read every operand. -/
theorem getPreviousOperationOnTarget_returns {A : Type}
    {before : Block A} {targetQubit : QuantumValue}
    (target : IndexReadable targetQubit)
    (readable :
      ∀ operation ∈ before, ∀ gate,
        asOperator operation = some gate →
          ∀ operand ∈ gate.qubits, IndexReadable operand) :
    ∃ result,
      getPreviousOperationOnTarget before targetQubit = .ok result := by
  rw [getPreviousOperationOnTarget_returns_iff]
  refine lookBackDefined_of_defined (indexReadable_iff.mp target) ?_
  intro operation member gate isGate operand inside
  exact indexReadable_iff.mp
    (readable operation member gate isGate operand inside)

end MQSSPasses.Quake.Operations
