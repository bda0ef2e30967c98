import MQSSPasses.General.OperationTree

/-!
# The positions a walk visits

A walk calls a pass at one position after another until a call fails or the
operations are used up.  `visits` lists the cursors of these calls, the
failing one included, so that a statement about every step of a run is a
statement about a list.

That a computation ends in a given fault exactly when it records a cause of
it is kept by returning and sequencing.  A walk therefore ends in the fault
exactly when one of the calls it makes does.  In the same way its trace is
made of the traces of these calls.
-/

namespace MQSSPasses.General.VisitedPositions

open MQSSPasses.General.TracedComputation
open MQSSPasses.General.OperationTree

variable {Label Fault Event : Type}

/-! ## Faults and the events that cause them -/

/-- The computation ends in the fault exactly when it records a cause. -/
def FaultsAt (cause : Event → Prop) (fault : Fault) (Value : Type)
    (computation : Traced Fault Event Value) : Prop :=
  computation.outcome = .error fault ↔
    ∃ event ∈ computation.trace, cause event

theorem FaultsAt.closed (cause : Event → Prop) (fault : Fault) :
    Traced.Closed (FaultsAt cause fault) where
  returns value := by simp [FaultsAt]
  sequence := by
    intro First Second first next head tail
    unfold FaultsAt at head tail ⊢
    cases returned : first.outcome with
    | error other =>
        rw [Traced.bind_of_error returned]
        simpa [returned] using head
    | ok value =>
        have innocent : ¬ ∃ event ∈ first.trace, cause event := by
          rw [← head, returned]
          simp
        rw [Traced.bind_of_ok returned, tail value]
        simp only [List.mem_append, or_and_right, exists_or, innocent,
          false_or]

/-! ## The visited positions -/

section Visits

variable (call : Callback Label Fault Event)

/-- The call that records its cursor and nothing else. -/
def watch : Callback Label Fault (Cursor (Node Label)) := fun cursor =>
  ⟨[cursor], (call cursor).outcome⟩

/-- The cursors of the calls a walk makes, in order. -/
def visits (node : Node Label) : List (Cursor (Node Label)) :=
  (walkNode (watch call) node).trace

/-- The cursor with which some operation is entered. -/
def Entered (cursor : Cursor (Node Label)) : Prop :=
  ∃ visited entered rest, cursor = .enter visited entered rest

theorem entered_of_mem_visits {node : Node Label}
    {cursor : Cursor (Node Label)} (visit : cursor ∈ visits call node) :
    Entered cursor := by
  have each (visited : List (Node Label)) (entered : Node Label)
      (rest : List (Node Label)) :
      (watch call (.enter visited entered rest)).Satisfies Entered
        fun _ => True := by
    simp only [Traced.Satisfies, watch, List.mem_singleton, forall_eq]
    exact ⟨⟨visited, entered, rest, rfl⟩, fun _ _ => trivial⟩
  exact (walkNode_closed (Traced.Satisfies.closed Entered) each node).1
    cursor visit

/-- A walk ends in a fault exactly when one of the calls it makes does. -/
theorem walkNode_faults_iff (fault : Fault) (node : Node Label) :
    (walkNode call node).outcome = .error fault ↔
      ∃ cursor ∈ visits call node,
        (call cursor).outcome = .error fault := by
  have outcomes (cursor : Cursor (Node Label)) :
      (call cursor).outcome = (watch call cursor).outcome := rfl
  have same := walkNode_outcome_congr outcomes node
  have each (visited : List (Node Label)) (entered : Node Label)
      (rest : List (Node Label)) :
      FaultsAt (fun cursor => (call cursor).outcome = .error fault) fault
        _ (watch call (.enter visited entered rest)) := by
    simp [FaultsAt, watch]
  rw [same]
  exact walkNode_closed (FaultsAt.closed _ fault) each node

/-- The trace is made of what the events of another computation stand for. -/
theorem flatMap_congruence {Target : Type} (events : Target → List Event) :
    @Traced.Congruence Fault Event Target fun _ left right =>
      left.outcome = right.outcome ∧
        left.trace = right.trace.flatMap events where
  returns _ := ⟨rfl, rfl⟩
  sequence := by
    rintro First Second left right leftNext rightNext ⟨outcome, trace⟩ tail
    cases returned : right.outcome with
    | error fault =>
        rw [Traced.bind_of_error returned,
          Traced.bind_of_error (outcome.trans returned)]
        exact ⟨rfl, trace⟩
    | ok value =>
        rw [Traced.bind_of_ok returned,
          Traced.bind_of_ok (outcome.trans returned)]
        rcases tail value with ⟨sameOutcome, sameTrace⟩
        refine ⟨sameOutcome, ?_⟩
        dsimp only
        rw [trace, sameTrace, List.flatMap_append]

/-- A walk records what the calls it makes record, one after the other. -/
theorem walkNode_trace (node : Node Label) :
    (walkNode call node).trace =
      (visits call node).flatMap fun cursor => (call cursor).trace := by
  have each (cursor : Cursor (Node Label)) :
      (call cursor).outcome = (watch call cursor).outcome ∧
        (call cursor).trace =
          (watch call cursor).trace.flatMap fun visited =>
            (call visited).trace := by
    simp [watch]
  exact (walkNode_related (flatMap_congruence _) each node).2

/-- A walk returns exactly if all the calls it makes return. -/
theorem walkNode_returns_iff (node : Node Label) :
    (∃ result, (walkNode call node).outcome = .ok result) ↔
      ∀ cursor ∈ visits call node,
        ∃ after, (call cursor).outcome = .ok after := by
  constructor
  · rintro ⟨result, returned⟩ cursor visit
    cases ends : (call cursor).outcome with
    | ok after => exact ⟨after, rfl⟩
    | error fault =>
        have failed :=
          (walkNode_faults_iff call fault node).mpr ⟨cursor, visit, ends⟩
        rw [returned] at failed
        cases failed
  · intro all
    cases ends : (walkNode call node).outcome with
    | ok result => exact ⟨result, rfl⟩
    | error fault =>
        rcases (walkNode_faults_iff call fault node).mp ends with
          ⟨cursor, visit, failed⟩
        rcases all cursor visit with ⟨after, returned⟩
        rw [returned] at failed
        cases failed

/--
On a block without regions every visited position has an invariant that the
calls keep.
-/
theorem visits_keep_of_flat {invariant : List (Node Label) → Prop}
    (each :
      ∀ cursor, invariant cursor.contents →
        ∀ after, (call cursor).outcome = .ok after →
          invariant after.contents ∧ after.rest = cursor.rest)
    {label : Label} {block : List (Node Label)}
    (flat : ∀ node ∈ block, node.blocks = [])
    (initially : invariant block) :
    ∀ cursor ∈ visits call (.mk label [block]),
      invariant cursor.contents := by
  have watched (cursor : Cursor (Node Label))
      (holds : invariant cursor.contents) :
      (watch call cursor).Satisfies
        (fun visited => invariant visited.contents)
        (fun after =>
          invariant after.contents ∧ after.rest = cursor.rest) := by
    refine ⟨?_, each cursor holds⟩
    simpa [watch] using holds
  rw [visits, (walkNode_of_one_block _ _ _).1]
  exact
    (walkBlock_satisfies_of_flat watched [] block flat initially).1

end Visits

end MQSSPasses.General.VisitedPositions
