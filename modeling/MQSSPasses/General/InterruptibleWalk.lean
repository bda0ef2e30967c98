import MQSSPasses.General.OperationTree

/-!
# Walks that can be interrupted

A walk over an operation tree may return a result at every operation: to go
on, to skip what is nested in the operation, or to stop the whole walk.  In
post-order the nested operations have been visited before the operation
itself, so there is nothing left to skip, and only an interruption matters.

An interruptible post-order walk is therefore a run over the list of the
operations in post-order which ends at the first interruption.
-/

namespace MQSSPasses.General.InterruptibleWalk

open MQSSPasses.General.OperationTree

variable {Label State : Type}

/-- What a visit tells the walk to do next. -/
inductive WalkResult where
  | advance
  | skip
  | interrupt
  deriving DecidableEq, Repr

/-- A visit may change a state that the walk carries along. -/
abbrev Visit (Label State : Type) :=
  Node Label → State → State × WalkResult

mutual

/-- Visit the nested operations, then the operation itself. -/
def walk (visit : Visit Label State) :
    Node Label → State → State × WalkResult
  | .mk label blocks, state =>
      match walkBlocks visit blocks state with
      | (state, .interrupt) => (state, .interrupt)
      | (state, _) => visit (.mk label blocks) state

def walkBlocks (visit : Visit Label State) :
    List (List (Node Label)) → State → State × WalkResult
  | [], state => (state, .advance)
  | block :: others, state =>
      match walkBlock visit block state with
      | (state, .interrupt) => (state, .interrupt)
      | (state, _) => walkBlocks visit others state

def walkBlock (visit : Visit Label State) :
    List (Node Label) → State → State × WalkResult
  | [], state => (state, .advance)
  | node :: rest, state =>
      match walk visit node state with
      | (state, .interrupt) => (state, .interrupt)
      | (state, _) => walkBlock visit rest state

end

/-- Visit a list of operations up to the first interruption. -/
def visitAll (visit : Visit Label State) :
    List (Node Label) → State → State × Bool
  | [], state => (state, false)
  | node :: rest, state =>
      match visit node state with
      | (state, .interrupt) => (state, true)
      | (state, _) => visitAll visit rest state

/-- The state after a walk and whether it was interrupted. -/
def interruption (result : State × WalkResult) : State × Bool :=
  (result.1, result.2 = .interrupt)

theorem visitAll_append (visit : Visit Label State)
    (first second : List (Node Label)) (state : State) :
    visitAll visit (first ++ second) state =
      match visitAll visit first state with
      | (state, true) => (state, true)
      | (state, false) => visitAll visit second state := by
  induction first generalizing state with
  | nil => rfl
  | cons node rest induction =>
      rw [List.cons_append, visitAll, visitAll]
      rcases visit node state with ⟨next, result⟩
      cases result with
      | interrupt => rfl
      | advance => exact induction next
      | skip => exact induction next

mutual

/-- The walk visits the operations in post-order. -/
theorem walk_eq_visitAll (visit : Visit Label State) :
    ∀ (node : Node Label) (state : State),
      interruption (walk visit node state) =
        visitAll visit (postOrder node) state
  | .mk label blocks, state => by
      have nested := walkBlocks_eq_visitAll visit blocks state
      rw [walk, postOrder, visitAll_append, ← nested]
      rcases walkBlocks visit blocks state with ⟨next, result⟩
      cases result with
      | interrupt => rfl
      | advance | skip =>
          cases called : visit (.mk label blocks) next with
          | mk last final =>
              cases final <;> simp [interruption, visitAll, called]

theorem walkBlocks_eq_visitAll (visit : Visit Label State) :
    ∀ (blocks : List (List (Node Label))) (state : State),
      interruption (walkBlocks visit blocks state) =
        visitAll visit (postOrderBlocks blocks) state
  | [], state => by
      rw [walkBlocks, postOrderBlocks]
      rfl
  | block :: others, state => by
      have first := walkBlock_eq_visitAll visit block state
      rw [walkBlocks, postOrderBlocks, visitAll_append, ← first]
      rcases walkBlock visit block state with ⟨next, result⟩
      cases result with
      | interrupt => rfl
      | advance | skip => exact walkBlocks_eq_visitAll visit others next

theorem walkBlock_eq_visitAll (visit : Visit Label State) :
    ∀ (nodes : List (Node Label)) (state : State),
      interruption (walkBlock visit nodes state) =
        visitAll visit (postOrderBlock nodes) state
  | [], state => by
      rw [walkBlock, postOrderBlock]
      rfl
  | node :: rest, state => by
      have first := walk_eq_visitAll visit node state
      rw [walkBlock, postOrderBlock, visitAll_append, ← first]
      rcases walk visit node state with ⟨next, result⟩
      cases result with
      | interrupt => rfl
      | advance | skip => exact walkBlock_eq_visitAll visit rest next

end

/-! ## Interruptions that depend on the operation alone -/

/-- A run over a list stops exactly if some operation of it interrupts. -/
theorem visitAll_interrupted_iff {visit : Visit Label State}
    {interrupts : Node Label → Prop}
    (decides :
      ∀ node state, (visit node state).2 = .interrupt ↔ interrupts node)
    (nodes : List (Node Label)) (state : State) :
    (visitAll visit nodes state).2 = true ↔
      ∃ node ∈ nodes, interrupts node := by
  induction nodes generalizing state with
  | nil => simp [visitAll]
  | cons node rest induction =>
      have first := decides node state
      rw [visitAll]
      cases called : visit node state with
      | mk next result =>
          rw [called] at first
          cases result with
          | interrupt =>
              simpa using Or.inl (first.mp rfl)
          | advance | skip =>
              have passes : ¬ interrupts node := by
                intro interrupted
                cases first.mpr interrupted
              simp only [List.mem_cons, exists_eq_or_imp, passes, false_or]
              exact induction next

/-- A walk is interrupted exactly if some operation of the tree interrupts. -/
theorem walk_interrupted_iff {visit : Visit Label State}
    {interrupts : Node Label → Prop}
    (decides :
      ∀ node state, (visit node state).2 = .interrupt ↔ interrupts node)
    (node : Node Label) (state : State) :
    (walk visit node state).2 = .interrupt ↔
      ∃ op ∈ postOrder node, interrupts op := by
  rw [← visitAll_interrupted_iff decides (postOrder node) state,
    ← walk_eq_visitAll]
  simp [interruption]

end MQSSPasses.General.InterruptibleWalk
