import MQSSPasses.Quake.Operations

/-!
# Rewriting passes as matchers under the walk

Every rewriting pass looks at the visited operation, looks back for one or
two earlier gates, and either leaves the block alone or replaces the gates
it found.  A `Matcher` is this decision: it returns a `Plan` for the part
of the block up to the visited operation.  `rewrite` turns a matcher into
the call the walk makes at each operation.

Each rewrite is recorded as an `Edit`: the block before and after, and the
pairs of gates the pass brought together, with the operands it compared to
do so.  What the passes guarantee is stated about these records.
-/

namespace MQSSPasses.Passes.Rewriting

open MQSSPasses.General.TracedComputation
open MQSSPasses.General.OperationTree
open MQSSPasses.Quake.Syntax
open MQSSPasses.Quake.Operations

variable {A : Type}

/-- A later gate brought together with the gate its look-back found. -/
structure Pairing (A : Type) where
  found : Found A
  current : Gate A
  /-- The operand which the look-back follows. -/
  scanned : QuantumValue
  /-- The operands which were compared and found to have one index. -/
  compared : List (QuantumValue × QuantumValue)

/-- A committed rewrite. -/
structure Edit (A : Type) where
  pairings : List (Pairing A)
  source : Block A
  target : Block A

/--
What a pass decides to do: the new operations before the visited one, the
visited one unless it is erased, and the operations inserted behind it.
-/
structure Plan (A : Type) where
  pairings : List (Pairing A)
  before : Block A
  current : Option (Op A)
  inserted : Block A

/-- The decision of a pass at one operation. -/
abbrev Matcher (A : Type) : Type :=
  Block A → Op A → Except Fault (Option (Plan A))

/--
What reading an erased operation does.  The behaviour is undefined: either
the program stops, or the read finds no gate.
-/
inductive StaleRead where
  | stops
  | findsNothing
  deriving DecidableEq, Repr

/-- The cursor after a plan has been carried out. -/
def Plan.apply (plan : Plan A) (cursor : Cursor (Op A)) :
    Cursor (Op A) :=
  ⟨plan.before, plan.current, plan.inserted ++ cursor.inserted,
    cursor.rest⟩

theorem contents_of_visited {cursor : Cursor (Op A)} {currentOp : Op A}
    (visited : cursor.current = some currentOp) :
    cursor.contents =
      cursor.before ++ currentOp :: (cursor.inserted ++ cursor.rest) := by
  simp [Cursor.contents, Cursor.visited, visited]

theorem mem_contents_of_visited {cursor : Cursor (Op A)} {currentOp : Op A}
    (visited : cursor.current = some currentOp) :
    currentOp ∈ cursor.contents := by
  rw [contents_of_visited visited]
  exact List.mem_append_right _ List.mem_cons_self

/-- The block at a visit, split at a gate that a look-back found. -/
theorem contents_of_looked {cursor : Cursor (Op A)} {currentOp : Op A}
    (visited : cursor.current = some currentOp) {scanned : QuantumValue}
    {found : Found A}
    (looked :
      getPreviousOperationOnTarget cursor.before scanned =
        .ok (some found)) :
    cursor.contents =
      found.lower ++ found.operation :: found.between ++
        currentOp :: (cursor.inserted ++ cursor.rest) := by
  have correct := getPreviousOperationOnTarget_correct looked
  rw [contents_of_visited visited, ← correct.position]

theorem Plan.apply_contents (plan : Plan A) (cursor : Cursor (Op A)) :
    (plan.apply cursor).contents =
      plan.before ++ plan.current.toList ++ plan.inserted ++
        (cursor.inserted ++ cursor.rest) := by
  simp [Cursor.contents, Cursor.visited, Plan.apply]

/-- Carry out what a matcher decides at the visited operation. -/
def rewrite (stale : StaleRead) (matcher : Matcher A) :
    Callback (OpData A) Fault (Edit A) := fun cursor =>
  match cursor.current with
  | none =>
      match stale with
      | .stops => Traced.raise .erasedOperation
      | .findsNothing => return cursor
  | some currentOp => do
      match ← Traced.ofExcept (matcher cursor.before currentOp) with
      | none => return cursor
      | some plan =>
          let after := plan.apply cursor
          Traced.record ⟨plan.pairings, cursor.contents, after.contents⟩
          return after

/-- What one call of a pass does: nothing, stop, or one recorded edit. -/
inductive Outcome (stale : StaleRead) (matcher : Matcher A)
    (cursor : Cursor (Op A)) :
    Traced Fault (Edit A) (Cursor (Op A)) → Prop where
  | unchanged : Outcome stale matcher cursor ⟨[], .ok cursor⟩
  | stopped (fault : Fault) : Outcome stale matcher cursor ⟨[], .error fault⟩
  | edited (currentOp : Op A) (plan : Plan A)
      (visited : cursor.current = some currentOp)
      (planned : matcher cursor.before currentOp = .ok (some plan)) :
      Outcome stale matcher cursor
        ⟨[⟨plan.pairings, cursor.contents,
            (plan.apply cursor).contents⟩],
          .ok (plan.apply cursor)⟩

theorem rewrite_outcome (stale : StaleRead) (matcher : Matcher A)
    (cursor : Cursor (Op A)) :
    Outcome stale matcher cursor (rewrite stale matcher cursor) := by
  unfold rewrite
  cases visited : cursor.current with
  | none =>
      cases stale with
      | stops => exact .stopped _
      | findsNothing => exact .unchanged
  | some currentOp =>
      dsimp only
      cases planned : matcher cursor.before currentOp with
      | error fault =>
          rw [Traced.bind_of_error (Traced.ofExcept_outcome _)]
          exact .stopped fault
      | ok decision =>
          rw [Traced.bind_of_ok (Traced.ofExcept_outcome _)]
          cases decision with
          | none => exact .unchanged
          | some plan => exact .edited currentOp plan visited planned

/-- The recorded edit of a call leads from its cursor to the next one. -/
theorem rewrite_editsBlock (stale : StaleRead) (matcher : Matcher A) :
    EditsBlock Edit.source Edit.target (rewrite stale matcher) := by
  intro cursor
  have outcome := rewrite_outcome stale matcher cursor
  generalize rewrite stale matcher cursor = result at outcome
  cases outcome with
  | unchanged =>
      refine ⟨cursor.contents, .done _, ?_⟩
      rintro after ⟨⟩
      exact ⟨rfl, rfl⟩
  | stopped fault =>
      exact ⟨cursor.contents, .done _, by simp⟩
  | edited currentOp plan visited planned =>
      have path :
          Traced.Leads Edit.source Edit.target _ [_] _ :=
        .single (⟨plan.pairings, cursor.contents,
          (plan.apply cursor).contents⟩ : Edit A)
      refine ⟨(plan.apply cursor).contents, path, ?_⟩
      rintro after ⟨⟩
      exact ⟨rfl, rfl⟩

/--
One call keeps an invariant of the block and records only good edits when
every plan of the matcher does.
-/
theorem rewrite_keeps {stale : StaleRead} {matcher : Matcher A}
    {invariant : Block A → Prop} {onEvent : Edit A → Prop}
    (planned :
      ∀ (cursor : Cursor (Op A)) currentOp plan,
        invariant cursor.contents →
        cursor.current = some currentOp →
        matcher cursor.before currentOp = .ok (some plan) →
          onEvent ⟨plan.pairings, cursor.contents,
              (plan.apply cursor).contents⟩ ∧
            invariant (plan.apply cursor).contents)
    (cursor : Cursor (Op A)) (initially : invariant cursor.contents) :
    (rewrite stale matcher cursor).Satisfies onEvent
      (fun after =>
        invariant after.contents ∧ after.rest = cursor.rest) := by
  have outcome := rewrite_outcome stale matcher cursor
  generalize rewrite stale matcher cursor = result at outcome
  cases outcome with
  | unchanged => simpa [Traced.Satisfies] using initially
  | stopped fault => simp [Traced.Satisfies]
  | edited currentOp plan visited made =>
      rcases planned cursor currentOp plan initially visited made with
        ⟨good, kept⟩
      refine ⟨by simpa using good, ?_⟩
      rintro after ⟨⟩
      exact ⟨kept, rfl⟩

/-! ## Several matchers at one operation -/

/-- Call several matchers in order at the visited operation. -/
def rewriteInOrder (stale : StaleRead) :
    List (Matcher A) → Callback (OpData A) Fault (Edit A)
  | [] => fun cursor => return cursor
  | matcher :: others => fun cursor => do
      let cursor ← rewrite stale matcher cursor
      rewriteInOrder stale others cursor

theorem rewriteInOrder_editsBlock (stale : StaleRead)
    (matchers : List (Matcher A)) :
    EditsBlock Edit.source Edit.target
      (rewriteInOrder stale matchers) := by
  induction matchers with
  | nil =>
      intro cursor
      refine ⟨cursor.contents, .done _, ?_⟩
      rintro after ⟨⟩
      exact ⟨rfl, rfl⟩
  | cons matcher others induction =>
      exact (rewrite_editsBlock stale matcher).bind induction

theorem rewriteInOrder_keeps (stale : StaleRead)
    {matchers : List (Matcher A)}
    (invariant : Block A → Prop) (onEvent : Edit A → Prop)
    (planned :
      ∀ matcher ∈ matchers, ∀ (cursor : Cursor (Op A)) currentOp plan,
        invariant cursor.contents →
        cursor.current = some currentOp →
        matcher cursor.before currentOp = .ok (some plan) →
          onEvent ⟨plan.pairings, cursor.contents,
              (plan.apply cursor).contents⟩ ∧
            invariant (plan.apply cursor).contents)
    (cursor : Cursor (Op A)) (initially : invariant cursor.contents) :
    (rewriteInOrder stale matchers cursor).Satisfies onEvent
      (fun after =>
        invariant after.contents ∧ after.rest = cursor.rest) := by
  induction matchers generalizing cursor with
  | nil => exact .of_pure ⟨initially, rfl⟩
  | cons matcher others induction =>
      refine Traced.Satisfies.bind
        (rewrite_keeps (planned matcher List.mem_cons_self)
          cursor initially) ?_
      rintro next ⟨kept, unreached⟩
      rw [← unreached]
      exact induction
        (fun other member =>
          planned other (List.mem_cons_of_mem matcher member))
        next kept

/-- A call of one matcher at an operation which is still there. -/
theorem rewriteInOrder_decided {stale : StaleRead} {matcher : Matcher A}
    {visited rest : Block A} {operation : Op A}
    {decision : Option (Plan A)}
    (decided : matcher visited operation = .ok decision) :
    (rewriteInOrder stale [matcher]
        (.enter visited operation rest)).outcome =
      .ok
        (match decision with
        | none => .enter visited operation rest
        | some plan => plan.apply (.enter visited operation rest)) := by
  have only :
      rewriteInOrder stale [matcher] (.enter visited operation rest) =
        rewrite stale matcher (.enter visited operation rest) >>= pure :=
    rfl
  rw [only]
  simp only [rewrite, Cursor.enter, decided, Traced.ofExcept_ok_bind]
  cases decision <;> rfl

/-- A call of one matcher that breaks. -/
theorem rewriteInOrder_broken {stale : StaleRead} {matcher : Matcher A}
    {visited rest : Block A} {operation : Op A} {fault : Fault}
    (broken : matcher visited operation = .error fault) :
    (rewriteInOrder stale [matcher]
        (.enter visited operation rest)).outcome = .error fault := by
  have only :
      rewriteInOrder stale [matcher] (.enter visited operation rest) =
        rewrite stale matcher (.enter visited operation rest) >>= pure :=
    rfl
  have fails :
      (rewrite stale matcher
        (.enter visited operation rest)).outcome = .error fault := by
    simp only [rewrite, Cursor.enter, broken]
    rfl
  rw [only, Traced.bind_of_error fails]

/-- Run a pass over a kernel. -/
def operationsOnQuantumKernel (stale : StaleRead)
    (matchers : List (Matcher A)) (kernel : Op A) :
    Traced Fault (Edit A) (Op A) :=
  walkNode (rewriteInOrder stale matchers) kernel

/-! ## Runs over a kernel without regions -/

section Flat

variable {stale : StaleRead} {matchers : List (Matcher A)}
variable {block : Block A}

/-- The edits of a run that returns lead to the block it returns. -/
theorem operationsOnQuantumKernel_leads
    (flat : ∀ operation ∈ block, operation.blocks = []) {kernel : Op A}
    (returned :
      (operationsOnQuantumKernel stale matchers
        (kernelOf block)).outcome = .ok kernel) :
    ∃ result, kernel = kernelOf result ∧
      Traced.Leads Edit.source Edit.target block
        (operationsOnQuantumKernel stale matchers
          (kernelOf block)).trace result := by
  rcases (walkNode_of_one_block _ _ _).2 kernel returned with
    ⟨result, blockReturned, rfl⟩
  rcases
    walkBlock_leads (rewriteInOrder_editsBlock stale matchers) [] block
      flat with
    ⟨finish, path, concludes⟩
  refine ⟨result, rfl, ?_⟩
  rw [concludes result blockReturned, operationsOnQuantumKernel, kernelOf,
    (walkNode_of_one_block _ _ _).1]
  exact path

/-- What relates the ends of the recorded edits relates those of the run. -/
theorem operationsOnQuantumKernel_relates
    (relation : Block A → Block A → Prop)
    (reflexive : ∀ state, relation state state)
    (transitive :
      ∀ {first second third}, relation first second →
        relation second third → relation first third)
    (flat : ∀ operation ∈ block, operation.blocks = [])
    (related :
      ∀ edit ∈ (operationsOnQuantumKernel stale matchers
          (kernelOf block)).trace,
        relation edit.target edit.source) :
    ∀ kernel,
      (operationsOnQuantumKernel stale matchers
          (kernelOf block)).outcome = .ok kernel →
        ∃ result, kernel = kernelOf result ∧ relation result block := by
  intro kernel returned
  rcases operationsOnQuantumKernel_leads flat returned with
    ⟨result, rfl, path⟩
  exact ⟨result, rfl, path.relates relation reflexive transitive related⟩

/-- What the recorded edits preserve, the run preserves. -/
theorem operationsOnQuantumKernel_preserves {Observation : Type}
    (observe : Block A → Observation)
    (flat : ∀ operation ∈ block, operation.blocks = [])
    (preserved :
      ∀ edit ∈ (operationsOnQuantumKernel stale matchers
          (kernelOf block)).trace,
        observe edit.target = observe edit.source) :
    ∀ kernel,
      (operationsOnQuantumKernel stale matchers
          (kernelOf block)).outcome = .ok kernel →
        ∃ result, kernel = kernelOf result ∧
          observe result = observe block :=
  operationsOnQuantumKernel_relates
    (fun after before => observe after = observe before)
    (fun _ => rfl) Eq.trans flat preserved

/-- The invariant rule for the edits of a run. -/
theorem operationsOnQuantumKernel_satisfies
    (invariant : Block A → Prop) {onEvent : Edit A → Prop}
    (planned :
      ∀ matcher ∈ matchers, ∀ (cursor : Cursor (Op A)) currentOp plan,
        invariant cursor.contents →
        cursor.current = some currentOp →
        matcher cursor.before currentOp = .ok (some plan) →
          onEvent ⟨plan.pairings, cursor.contents,
              (plan.apply cursor).contents⟩ ∧
            invariant (plan.apply cursor).contents)
    (flat : ∀ operation ∈ block, operation.blocks = [])
    (initially : invariant block) :
    ∀ edit ∈ (operationsOnQuantumKernel stale matchers
        (kernelOf block)).trace, onEvent edit := by
  rw [operationsOnQuantumKernel, kernelOf,
    (walkNode_of_one_block _ _ _).1]
  have kept := rewriteInOrder_keeps stale invariant onEvent planned
  exact (walkBlock_satisfies_of_flat kept [] block flat initially).1

/--
A pass with one matcher completes if the matcher always decides: at every
call the visited operation is still there.
-/
theorem operationsOnQuantumKernel_returns {matcher : Matcher A}
    {invariant : Block A → Prop}
    (decides :
      ∀ before currentOp rest, invariant (before ++ currentOp :: rest) →
        ∃ decision, matcher before currentOp = .ok decision)
    (planned :
      ∀ (cursor : Cursor (Op A)) currentOp plan,
        invariant cursor.contents →
        cursor.current = some currentOp →
        matcher cursor.before currentOp = .ok (some plan) →
          invariant (plan.apply cursor).contents)
    (flat : ∀ operation ∈ block, operation.blocks = [])
    (initially : invariant block) :
    ∃ result,
      (operationsOnQuantumKernel stale [matcher]
          (kernelOf block)).outcome = .ok (kernelOf result) ∧
        invariant result := by
  have each (visited : Block A) (operation : Op A) (rest : Block A)
      (contents : invariant (visited ++ operation :: rest)) :
      ∃ after,
        (rewriteInOrder stale [matcher]
            (.enter visited operation rest)).outcome = .ok after ∧
          invariant after.contents ∧ after.rest = rest := by
    rcases decides visited operation rest contents with
      ⟨decision, decided⟩
    have returned :=
      @rewriteInOrder_decided A stale matcher visited rest operation
        decision decided
    cases decision with
    | none =>
        exact ⟨_, returned, by simpa using contents, rfl⟩
    | some plan =>
        have kept :=
          planned (.enter visited operation rest) operation plan
            (by simpa using contents) rfl decided
        exact ⟨_, returned, kept, rfl⟩
  rcases walkBlock_returns_of_flat each [] block flat initially with
    ⟨result, returned, holds⟩
  exact ⟨result, walkNode_returns_of_one_block returned, holds⟩

/-- The part of the block behind the walk after a visit. -/
def advance (matcher : Matcher A) (visited : Block A)
    (operation : Op A) : Except Fault (Block A) := do
  match ← matcher visited operation with
  | none => return visited ++ [operation]
  | some plan =>
      return plan.before ++ plan.current.toList ++ plan.inserted

theorem advance_eq_ok {matcher : Matcher A} {visited after : Block A}
    {operation : Op A} :
    advance matcher visited operation = .ok after ↔
      (matcher visited operation = .ok none ∧
          after = visited ++ [operation]) ∨
        ∃ plan, matcher visited operation = .ok (some plan) ∧
          after = plan.before ++ plan.current.toList ++ plan.inserted := by
  unfold advance
  cases matcher visited operation with
  | error fault => simp [bind, Except.bind]
  | ok decision =>
      cases decision <;>
        simp [bind, Except.bind, pure, Except.pure, eq_comm]

theorem advance_eq_error {matcher : Matcher A} {visited : Block A}
    {operation : Op A} {fault : Fault} :
    advance matcher visited operation = .error fault ↔
      matcher visited operation = .error fault := by
  unfold advance
  cases matcher visited operation with
  | error fault => simp [bind, Except.bind]
  | ok decision =>
      cases decision <;> simp [bind, Except.bind, pure, Except.pure]

/-- The walk of one matcher over a block is a fold. -/
theorem walkBlock_outcome {matcher : Matcher A} (visited : Block A)
    (flat : ∀ operation ∈ block, operation.blocks = []) :
    (walkBlock (rewriteInOrder stale [matcher]) visited block).outcome =
      block.foldlM (advance matcher) visited := by
  induction block generalizing visited with
  | nil => rfl
  | cons operation rest induction =>
      rw [walkBlock_cons_of_flat _ (flat operation List.mem_cons_self),
        List.foldlM_cons, advance]
      cases decided : matcher visited operation with
      | error fault =>
          rw [Traced.bind_of_error (rewriteInOrder_broken decided)]
          rfl
      | ok decision =>
          rw [Traced.bind_of_ok (rewriteInOrder_decided decided),
            induction _ fun other member =>
              flat other (List.mem_cons_of_mem operation member)]
          cases decision <;>
            simp [Cursor.visited, Cursor.enter, Plan.apply, bind,
              Except.bind, pure, Except.pure]

/-- A run of a pass with one matcher is the fold over the body. -/
theorem operationsOnQuantumKernel_outcome {matcher : Matcher A}
    (flat : ∀ operation ∈ block, operation.blocks = []) :
    (operationsOnQuantumKernel stale [matcher] (kernelOf block)).outcome =
      (block.foldlM (advance matcher) []).map kernelOf := by
  have walked := @walkBlock_outcome A stale block matcher [] flat
  cases folded : block.foldlM (advance matcher) [] with
  | error fault =>
      rw [folded] at walked
      exact walkNode_fails_of_one_block walked
  | ok result =>
      rw [folded] at walked
      exact walkNode_returns_of_one_block walked

end Flat

end MQSSPasses.Passes.Rewriting
