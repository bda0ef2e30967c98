import MQSSPasses.General.VisitedPositions
import MQSSPasses.Passes.Matchers

/-!
# Reads of an erased operation

`ReductionPattern` calls eight cancellation patterns one after the other
with the same operation.  A pattern that applies erases it, and every later
pattern reads it again.  With erased reads that stop the program, a run
reaches such a read exactly when it ends in `erasedOperation`.

Only the last pattern has no other behind it.  The shapes of the patterns
are different, so at most one of them looks further at an operation, and a
run is free of erased reads exactly when at every operation it visits none
of the first seven patterns applies.
-/

namespace MQSSPasses.Passes.ErasedHandles

open MQSSPasses.General.TracedComputation
open MQSSPasses.General.OperationTree
open MQSSPasses.General.VisitedPositions
open MQSSPasses.Quake.Syntax
open MQSSPasses.Quake.Operations
open MQSSPasses.Passes.Rewriting
open MQSSPasses.Passes.Matchers

variable {A : Type}

/-! ## Computations without an erased read of their own -/

/-- The computation does not itself read an erased operation. -/
def ReadsLive {Value : Type} (computation : Except Fault Value) : Prop :=
  computation ≠ .error .erasedOperation

section ReadsLive

variable {First Second Value : Type}

theorem ReadsLive.pure (value : Value) : ReadsLive (return value) := by
  simp [ReadsLive, Pure.pure, Except.pure]

theorem ReadsLive.bind {first : Except Fault First}
    {next : First → Except Fault Second} (head : ReadsLive first)
    (tail : ∀ value, ReadsLive (next value)) :
    ReadsLive (first >>= next) := by
  cases first with
  | error fault =>
      intro erased
      cases erased
      exact head rfl
  | ok value => exact tail value

theorem ReadsLive.ite {condition : Prop} [Decidable condition]
    {first second : Except Fault Value}
    (left : ReadsLive first) (right : ReadsLive second) :
    ReadsLive (if condition then first else second) := by
  by_cases holds : condition
  · rw [if_pos holds]
    exact left
  · rw [if_neg holds]
    exact right

theorem ReadsLive.mapM {read : First → Except Fault Second}
    (each : ∀ value, ReadsLive (read value)) (values : List First) :
    ReadsLive (values.mapM read) := by
  induction values with
  | nil => exact .pure []
  | cons value others induction =>
      rw [List.mapM_cons]
      exact (each value).bind fun _ => induction.bind fun _ => .pure _

end ReadsLive

theorem qubitIndex_readsLive
    (value : QuantumValue) :
    ReadsLive (qubitIndex value) := by
  cases value with
  | extractRef veq index =>
      cases index <;>
        simp [ReadsLive]
  | _ => simp [ReadsLive]

theorem findIndex_readsLive (index : ℤ) (values : List QuantumValue) :
    ReadsLive (findIndex index values) := by
  induction values with
  | nil => exact .pure none
  | cons value others induction =>
      rw [findIndex]
      exact (qubitIndex_readsLive value).bind
        fun _ => .ite (.pure _) induction

theorem lookBack_readsLive (targetQubit : QuantumValue)
    (reversed passed : Block A) :
    ReadsLive (lookBack targetQubit reversed passed) := by
  induction reversed generalizing passed with
  | nil => exact .pure none
  | cons operation lower induction =>
      cases cast : asOperator operation with
      | none =>
          rw [lookBack_cons_of_other cast]
          exact induction _
      | some gate =>
          rw [lookBack_cons_of_gate cast]
          refine
            (qubitIndex_readsLive _).bind
              fun index => (findIndex_readsLive index _).bind ?_
          intro seen
          cases seen with
          | none => exact induction _
          | some named => exact .pure _

theorem element_readsLive (values : List QuantumValue) (index : ℕ) :
    ReadsLive (element values index) := by
  unfold element
  cases values[index]? <;> simp [ReadsLive]

theorem sameIndices_readsLive (left right : List QuantumValue) :
    ReadsLive (sameIndices left right) := by
  have indices (values : List QuantumValue) :
      ReadsLive (getIndicesOfValueRange values) :=
    .mapM qubitIndex_readsLive values
  exact .ite
    ((indices left).bind fun _ => (indices right).bind fun _ => .pure _)
    (.pure false)

theorem withGate_readsLive {kind : GateKind} {nCtrls nTgts : ℕ}
    {op : Op A} {next : Gate A → Except Fault (Option (Plan A))}
    (continues : ∀ gate, ReadsLive (next gate)) :
    ReadsLive (withGate kind nCtrls nTgts op next) := by
  unfold withGate
  cases gateOfShape kind nCtrls nTgts op with
  | none => exact .pure none
  | some gate => exact continues gate

theorem withPrevious_readsLive {before : Block A}
    {scanned : QuantumValue}
    {next : Found A → Except Fault (Option (Plan A))}
    (continues : ∀ found, ReadsLive (next found)) :
    ReadsLive (withPrevious before scanned next) := by
  refine (lookBack_readsLive scanned before.reverse []).bind ?_
  intro result
  cases result with
  | none => exact .pure none
  | some found => exact continues found

theorem patternCancellation_readsLive {T1 T2 : GateKind}
    {nCtrlsOp1 nTgtsOp1 nCtrlsOp2 nTgtsOp2 : ℕ}
    {before : Block A} {currentOp : Op A} :
    ReadsLive
      (patternCancellation T1 T2 nCtrlsOp1 nTgtsOp1 nCtrlsOp2 nTgtsOp2
        before currentOp) :=
  withGate_readsLive fun _ => (element_readsLive _ _).bind fun _ =>
    withPrevious_readsLive fun _ => withGate_readsLive fun _ =>
      (sameIndices_readsLive _ _).bind fun _ =>
        (sameIndices_readsLive _ _).bind fun _ =>
          .ite (.pure _) (.pure none)

/-! ## The patterns of the pass -/

/-- The pattern for two equal gates with the given number of controls. -/
def cancelEqual (pattern : GateKind × ℕ) : Matcher A :=
  patternCancellation pattern.1 pattern.1 pattern.2 1 pattern.2 1

/-- The kinds and numbers of controls, in the order of the calls. -/
def reductionPatterns : List (GateKind × ℕ) :=
  [(.x, 1), (.x, 0), (.y, 1), (.y, 0), (.z, 1), (.z, 0), (.h, 1), (.h, 0)]

theorem matchers_eq_map :
    (RewritingPass.ReductionPattern.matchers : List (Matcher A)) =
      reductionPatterns.map cancelEqual :=
  rfl

theorem reductionPatterns_nodup : reductionPatterns.Nodup := by
  decide

/-- The pattern deletes the visited operation and an earlier one. -/
def Applies (pattern : GateKind × ℕ) (before : Block A)
    (currentOp : Op A) : Prop :=
  ∃ plan, cancelEqual pattern before currentOp = .ok (some plan)

/-- An operation to which one pattern applies does not have another shape. -/
theorem cancelEqual_of_applies {pattern other : GateKind × ℕ}
    {before : Block A} {currentOp : Op A}
    (applies : Applies pattern before currentOp)
    (different : other ≠ pattern) :
    cancelEqual other before currentOp = .ok none := by
  rcases applies with ⟨plan, planned⟩
  rcases patternCancellation_inversion planned with
    ⟨found, currentGate, target, cancels⟩
  rcases gateOfShape_eq_some.mp cancels.current with ⟨cast, counts, -⟩
  rcases asGate_eq_some.mp cast with ⟨label, kind⟩
  have noShape : gateOfShape other.1 other.2 1 currentOp = none := by
    rw [Option.eq_none_iff_forall_not_mem]
    intro otherGate shape
    rcases gateOfShape_eq_some.mp shape with
      ⟨otherCast, otherCounts, -⟩
    rcases asGate_eq_some.mp otherCast with ⟨otherLabel, otherKind⟩
    have same : currentGate = otherGate := by
      rw [label] at otherLabel
      exact OpData.gate.inj otherLabel
    subst same
    exact different
      (Prod.ext (otherKind.symm.trans kind)
        (otherCounts.symm.trans counts))
  unfold cancelEqual patternCancellation withGate
  rw [noShape]
  rfl

/-! ## One call of the pass -/

/-- A plan of a pattern leaves the cursor without its operation. -/
theorem erased_of_planned {pattern : GateKind × ℕ}
    {cursor : Cursor (Op A)} {currentOp : Op A} {plan : Plan A}
    (planned :
      cancelEqual pattern cursor.before currentOp = .ok (some plan)) :
    (plan.apply cursor).current = none := by
  rcases patternCancellation_inversion planned with
    ⟨found, currentGate, target, cancels⟩
  rw [Plan.apply, cancels.planned]

/-- A pattern that reads an erased operation stops the program. -/
theorem rewrite_of_erased {matcher : Matcher A}
    {cursor : Cursor (Op A)} (erased : cursor.current = none) :
    (rewrite .stops matcher cursor).outcome =
      .error .erasedOperation := by
  simp [rewrite, erased]

/-- What a pattern does to an operation that is still there. -/
theorem rewrite_outcome_of_decision {matcher : Matcher A}
    {cursor : Cursor (Op A)} {currentOp : Op A}
    (visited : cursor.current = some currentOp) :
    (rewrite .stops matcher cursor).outcome =
      (matcher cursor.before currentOp).map fun decision =>
        match decision with
        | none => cursor
        | some plan => plan.apply cursor := by
  unfold rewrite
  rw [visited]
  dsimp only
  cases planned : matcher cursor.before currentOp with
  | error fault =>
      rw [Traced.bind_of_error (Traced.ofExcept_outcome _)]
      rfl
  | ok decision =>
      rw [Traced.bind_of_ok (Traced.ofExcept_outcome _)]
      cases decision <;> rfl

/-- Patterns called on an erased operation stop the program. -/
theorem rewriteInOrder_of_erased {matcher : Matcher A}
    {others : List (Matcher A)} {cursor : Cursor (Op A)}
    (erased : cursor.current = none) :
    (rewriteInOrder .stops (matcher :: others) cursor).outcome =
      .error .erasedOperation := by
  change (rewrite .stops matcher cursor >>= _).outcome = _
  rw [Traced.bind_of_error (rewrite_of_erased erased)]

theorem exists_mem_dropLast_cons {Item : Type} {holds : Item → Prop}
    {item : Item} {others : List Item} :
    (∃ member ∈ (item :: others).dropLast, holds member) ↔
      (others ≠ [] ∧ holds item) ∨
        ∃ member ∈ others.dropLast, holds member := by
  cases others <;> simp

/--
A call with patterns of different shapes reads an erased operation exactly
when a pattern that is not the last one applies.
-/
theorem rewriteInOrder_erased_iff {patterns : List (GateKind × ℕ)}
    (distinct : patterns.Nodup) {cursor : Cursor (Op A)}
    {currentOp : Op A} (visited : cursor.current = some currentOp) :
    (rewriteInOrder .stops (patterns.map cancelEqual) cursor).outcome =
        .error .erasedOperation ↔
      ∃ pattern ∈ patterns.dropLast,
        Applies pattern cursor.before currentOp := by
  induction patterns with
  | nil => simp [rewriteInOrder]
  | cons pattern others induction =>
      rcases List.nodup_cons.mp distinct with ⟨fresh, distinctOthers⟩
      -- If a later pattern applies, this one does not look further.
      have passes :
          (∃ later ∈ others.dropLast,
            Applies later cursor.before currentOp) →
            cancelEqual pattern cursor.before currentOp = .ok none := by
        rintro ⟨later, member, applies⟩
        apply cancelEqual_of_applies applies
        rintro rfl
        exact fresh (List.dropLast_subset others member)
      have read :=
        @rewrite_outcome_of_decision A (cancelEqual pattern) cursor
          currentOp visited
      rw [exists_mem_dropLast_cons]
      change
        (rewrite .stops (cancelEqual pattern) cursor >>=
          rewriteInOrder .stops (others.map cancelEqual)).outcome = _ ↔ _
      cases decided : cancelEqual pattern cursor.before currentOp with
      | error fault =>
          rw [decided] at read passes
          have live : fault ≠ .erasedOperation := by
            rintro rfl
            exact patternCancellation_readsLive decided
          have idle : ¬ Applies pattern cursor.before currentOp := by
            simp [Applies, decided]
          rw [Traced.bind_of_error read]
          refine iff_of_false (by simpa using live) ?_
          rintro (⟨-, applies⟩ | later)
          · exact idle applies
          · cases passes later
      | ok decision =>
          rw [decided] at read passes
          rw [Traced.bind_of_ok read]
          cases decision with
          | none =>
              have idle : ¬ Applies pattern cursor.before currentOp := by
                simp [Applies, decided]
              simp only [idle, and_false, false_or]
              exact induction distinctOthers
          | some plan =>
              have applies : Applies pattern cursor.before currentOp :=
                ⟨plan, decided⟩
              have erased := erased_of_planned decided
              cases others with
              | nil => simp [rewriteInOrder]
              | cons next others =>
                  refine iff_of_true ?_ (.inl ⟨by simp, applies⟩)
                  exact rewriteInOrder_of_erased erased

/-! ## A run of the pass -/

/-- No run of the pass over the kernel reads an erased operation. -/
def NoErasedRead (kernel : Op A) : Prop :=
  (RewritingPass.ReductionPattern.run .stops kernel).outcome ≠
    .error .erasedOperation

/-- The positions a run of the pass visits. -/
def visitsOfReductionPattern (kernel : Op A) :
    List (Cursor (Op A)) :=
  visits (rewriteInOrder .stops RewritingPass.ReductionPattern.matchers)
    kernel

/--
A run never reads an erased operation exactly when at every operation it
visits none of the patterns before the last one applies.
-/
theorem noErasedRead_iff (kernel : Op A) :
    NoErasedRead kernel ↔
      ∀ cursor ∈ visitsOfReductionPattern kernel,
        ∀ currentOp, cursor.current = some currentOp →
          ∀ pattern ∈ reductionPatterns.dropLast,
            ¬ Applies pattern cursor.before currentOp := by
  unfold NoErasedRead visitsOfReductionPattern RewritingPass.run
    operationsOnQuantumKernel
  rw [Ne, walkNode_faults_iff, matchers_eq_map]
  push Not
  constructor
  · intro reads cursor visit currentOp visited pattern early applies
    exact reads cursor visit
      ((rewriteInOrder_erased_iff reductionPatterns_nodup visited).mpr
        ⟨pattern, early, applies⟩)
  · intro last cursor visit erased
    rcases entered_of_mem_visits _ visit with
      ⟨before, currentOp, rest, rfl⟩
    rcases
      (rewriteInOrder_erased_iff reductionPatterns_nodup rfl).mp erased with
      ⟨pattern, early, applies⟩
    exact last _ visit currentOp rfl pattern early applies

/-- Two equal gates on the same qubit. -/
def twice (kind : GateKind) : Op ℚ :=
  kernelOf
    [(Gate.create kind false [] [] [.refAlloca 0]).op,
      (Gate.create kind false [] [] [.refAlloca 0]).op]

/-- The second pattern deletes an `x`, and the third one reads it. -/
theorem second_x_read_after_erasure :
    (RewritingPass.ReductionPattern.run .stops (twice .x)).outcome =
        .error .erasedOperation ∧
      ¬ NoErasedRead (twice .x) := by
  have erased :
      (RewritingPass.ReductionPattern.run .stops (twice .x)).outcome =
        .error .erasedOperation := by
    rfl
  exact ⟨erased, fun reads => reads erased⟩

/-- No pattern follows the one for a plain Hadamard gate. -/
example :
    (RewritingPass.ReductionPattern.run .stops (twice .h)).outcome =
      .ok (kernelOf []) := by
  rfl

end MQSSPasses.Passes.ErasedHandles
