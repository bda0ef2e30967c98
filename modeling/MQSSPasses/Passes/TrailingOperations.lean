import MQSSPasses.Passes.Pipelines

/-!
# Operations at the end of a kernel

A kernel ends in operations that are no gates: its measurements and the
return.  Every pass decides at the gate it visits and from what stands
before it.  So what a pipeline does to a kernel does not depend on the
operations at its end, as long as these are no gates, and they are still
there afterwards.
-/

noncomputable section

namespace MQSSPasses.Passes.TrailingOperations

open MQSSPasses.General.TracedComputation
open MQSSPasses.General.OperationTree
open MQSSPasses.Quake.Syntax
open MQSSPasses.Quake.Operations
open MQSSPasses.Passes.Rewriting
open MQSSPasses.Passes.Matchers
open MQSSPasses.Passes.Decompositions
open MQSSPasses.Passes.Cancellation
open MQSSPasses.Passes.Confinement
open MQSSPasses.Passes.Pipelines

variable {A : Type}

/-! ## Walks that go on behind a block -/

section Walks

variable {Label Fault Event : Type}

/-- Two continuations that agree on what is returned. -/
theorem bind_congr_of_ok {First Second : Type}
    {first : Traced Fault Event First}
    {next other : First → Traced Fault Event Second}
    (same : ∀ value, first.outcome = .ok value → next value = other value) :
    first >>= next = first >>= other := by
  cases returned : first.outcome with
  | error fault =>
      rw [Traced.bind_of_error returned, Traced.bind_of_error returned]
  | ok value =>
      rw [Traced.bind_of_ok returned, Traced.bind_of_ok returned,
        same value returned]

/-- The cursor in a block that goes on. -/
def extendCursor {Item : Type} (trailing : List Item)
    (cursor : Cursor Item) : Cursor Item :=
  { cursor with rest := cursor.rest ++ trailing }

@[simp]
theorem visited_extendCursor {Item : Type} (trailing : List Item)
    (cursor : Cursor Item) :
    (extendCursor trailing cursor).visited = cursor.visited := rfl

@[simp]
theorem contents_extendCursor {Item : Type} (trailing : List Item)
    (cursor : Cursor Item) :
    (extendCursor trailing cursor).contents =
      cursor.contents ++ trailing := by
  rw [Cursor.contents, Cursor.contents, visited_extendCursor,
    extendCursor, List.append_assoc]

/-- A call that does not depend on what follows, except in its records. -/
def ExtendsCalls (call : Callback Label Fault Event)
    (trailing : List (Node Label)) (relabel : Event → Event) : Prop :=
  ∀ cursor,
    call (extendCursor trailing cursor) =
      (call cursor).mapTrace relabel >>= fun after =>
        pure (extendCursor trailing after)

/-- A walk over a block that goes on is the walk over its parts. -/
theorem walkBlock_append_of_flat {call : Callback Label Fault Event}
    {trailing : List (Node Label)} {relabel : Event → Event}
    (independent : ExtendsCalls call trailing relabel)
    (visited : List (Node Label)) {nodes : List (Node Label)}
    (flat : ∀ node ∈ nodes, node.blocks = []) :
    walkBlock call visited (nodes ++ trailing) =
      (walkBlock call visited nodes).mapTrace relabel >>= fun reached =>
        walkBlock call reached trailing := by
  induction nodes generalizing visited with
  | nil =>
      have returned :
          (walkBlock call visited []).mapTrace relabel = pure visited := by
        rw [walkBlock]
        rfl
      rw [returned, Traced.pure_bind_eq, List.nil_append]
  | cons node rest induction =>
      have entered :
          Cursor.enter visited node (rest ++ trailing) =
            extendCursor trailing (.enter visited node rest) := rfl
      have later := fun reached =>
        induction reached fun next member =>
          flat next (List.mem_cons_of_mem node member)
      rw [List.cons_append,
        walkBlock_cons_of_flat call (flat node List.mem_cons_self),
        walkBlock_cons_of_flat call (flat node List.mem_cons_self),
        entered, independent, Traced.bind_assoc_eq, Traced.bind_mapTrace,
        Traced.bind_assoc_eq]
      congr 1
      funext after
      rw [Traced.pure_bind_eq]
      exact later after.visited

/-- A walk over operations at which the call does nothing. -/
theorem walkBlock_of_unchanged {call : Callback Label Fault Event}
    {nodes : List (Node Label)}
    (flat : ∀ node ∈ nodes, node.blocks = [])
    (unchanged :
      ∀ visited, ∀ node ∈ nodes, ∀ rest,
        call (.enter visited node rest) = pure (.enter visited node rest))
    (visited : List (Node Label)) :
    walkBlock call visited nodes = pure (visited ++ nodes) := by
  induction nodes generalizing visited with
  | nil =>
      rw [walkBlock, List.append_nil]
  | cons node rest induction =>
      rw [walkBlock_cons_of_flat call (flat node List.mem_cons_self),
        unchanged visited node List.mem_cons_self rest,
        Traced.pure_bind_eq,
        induction
          (fun next member => flat next (List.mem_cons_of_mem node member))
          (fun visited next member =>
            unchanged visited next (List.mem_cons_of_mem node member))]
      simp [Cursor.visited, Cursor.enter]

end Walks

/-! ## Matchers that only look at gates -/

/-- A matcher that does nothing at operations that are no gates. -/
def Ignores (matcher : Matcher A) : Prop :=
  ∀ before currentOp, asOperator currentOp = none →
    matcher before currentOp = .ok none

/-- A matcher that first asks for a gate of some shape. -/
theorem ignores_of_withGate {kind : GateKind} {nCtrls nTgts : ℕ}
    {next : Block A → Op A → Gate A → Except Fault (Option (Plan A))} :
    Ignores fun before currentOp =>
      withGate kind nCtrls nTgts currentOp (next before currentOp) := by
  intro before currentOp noGate
  have shape : gateOfShape kind nCtrls nTgts currentOp = none := by
    cases found : gateOfShape kind nCtrls nTgts currentOp with
    | none => rfl
    | some gate =>
        rw [asOperator_of_shape found] at noGate
        cases noGate
  change withGate kind nCtrls nTgts currentOp _ = _
  rw [withGate, shape]
  rfl

theorem kernelPass_ignores (pass : KernelPass) :
    ∀ matcher ∈ (pass.matchers : List (Matcher A)), Ignores matcher := by
  cases pass with
  | decomposing decomposition =>
      intro matcher member
      rw [List.mem_singleton.mp member]
      cases decomposition <;> exact ignores_of_withGate
  | rewriting rewriting =>
      cases rewriting <;>
        simp only [KernelPass.matchers, RewritingPass.matchers,
          List.forall_mem_cons, List.not_mem_nil, false_imp_iff,
          implies_true, and_true]
      case ReductionPattern =>
        exact ⟨ignores_of_withGate, ignores_of_withGate,
          ignores_of_withGate, ignores_of_withGate, ignores_of_withGate,
          ignores_of_withGate, ignores_of_withGate, ignores_of_withGate⟩
      all_goals exact ignores_of_withGate

/-! ## Passes -/

/-- An edit in a block that goes on. -/
def extendEdit (trailing : Block A) (edit : Edit A) : Edit A :=
  ⟨edit.pairings, edit.source ++ trailing, edit.target ++ trailing⟩

theorem rewrite_extendsCalls (stale : StaleRead) (matcher : Matcher A)
    (trailing : Block A) :
    ExtendsCalls (rewrite stale matcher) trailing
      (extendEdit trailing) := by
  rintro ⟨before, current, inserted, rest⟩
  cases current with
  | none => cases stale <;> rfl
  | some currentOp =>
      simp only [rewrite, extendCursor]
      cases decided : matcher before currentOp with
      | error fault => rfl
      | ok decision =>
          cases decision with
          | none => rfl
          | some plan =>
              let cursor : Cursor (Op A) :=
                ⟨before, some currentOp, inserted, rest⟩
              have recorded :
                  (⟨plan.pairings, (extendCursor trailing cursor).contents,
                      (extendCursor trailing
                        (plan.apply cursor)).contents⟩ : Edit A) =
                    extendEdit trailing
                      ⟨plan.pairings, cursor.contents,
                        (plan.apply cursor).contents⟩ := by
                rw [contents_extendCursor, contents_extendCursor]
                rfl
              exact congrArg
                (fun edit =>
                  (⟨[edit],
                      .ok (extendCursor trailing (plan.apply cursor))⟩ :
                    Traced Fault (Edit A) (Cursor (Op A))))
                recorded

theorem rewriteInOrder_extendsCalls (stale : StaleRead)
    (matchers : List (Matcher A)) (trailing : Block A) :
    ExtendsCalls (rewriteInOrder stale matchers) trailing
      (extendEdit trailing) := by
  induction matchers with
  | nil =>
      intro cursor
      rfl
  | cons matcher others induction =>
      intro cursor
      rw [rewriteInOrder]
      dsimp only
      rw [rewrite_extendsCalls, Traced.bind_assoc_eq,
        Traced.bind_mapTrace, Traced.bind_assoc_eq]
      congr 1
      funext after
      rw [Traced.pure_bind_eq]
      exact induction after

/-- Operations that are no gates and have no regions. -/
def Quiet (trailing : Block A) : Prop :=
  ∀ operation ∈ trailing,
    asOperator operation = none ∧ operation.blocks = []

/-- At an operation that is no gate a pass does nothing. -/
theorem rewriteInOrder_unchanged {stale : StaleRead}
    {matchers : List (Matcher A)}
    (ignores : ∀ matcher ∈ matchers, Ignores matcher)
    {operation : Op A} (noGate : asOperator operation = none)
    (visited rest : Block A) :
    rewriteInOrder stale matchers (.enter visited operation rest) =
      pure (.enter visited operation rest) := by
  induction matchers with
  | nil => rfl
  | cons matcher others induction =>
      have first :
          rewrite stale matcher (.enter visited operation rest) =
            pure (.enter visited operation rest) := by
        simp only [rewrite, Cursor.enter,
          ignores matcher List.mem_cons_self visited operation noGate,
          Traced.ofExcept_ok_bind]
      rw [rewriteInOrder]
      dsimp only
      rw [first, Traced.pure_bind_eq]
      exact induction fun other member =>
        ignores other (List.mem_cons_of_mem matcher member)

/-- The kernel with further operations at the end of its block. -/
def appendTo (trailing : Block A) : Op A → Op A
  | .mk label [block] => .mk label [block ++ trailing]
  | kernel => kernel

/-- A pass over a kernel that goes on. -/
theorem kernelPass_run_append (pass : KernelPass) (stale : StaleRead)
    {block trailing : Block A}
    (flat : ∀ operation ∈ block, operation.blocks = [])
    (quiet : Quiet trailing) :
    pass.run stale (kernelOf (block ++ trailing)) =
      (pass.run stale (kernelOf block)).mapTrace (extendEdit trailing) >>=
        fun kernel => pure (appendTo trailing kernel) := by
  have walked :=
    walkBlock_append_of_flat
      (rewriteInOrder_extendsCalls stale pass.matchers trailing) [] flat
  have unchanged (reached : Block A) :
      walkBlock (rewriteInOrder stale pass.matchers) reached trailing =
        pure (reached ++ trailing) :=
    walkBlock_of_unchanged (fun operation member => (quiet operation member).2)
      (fun visited operation member rest =>
        rewriteInOrder_unchanged (kernelPass_ignores pass)
          (quiet operation member).1 visited rest) reached
  simp only [unchanged] at walked
  have single (body : Block A) :
      pass.run stale (kernelOf body) =
        walkBlock (rewriteInOrder stale pass.matchers) [] body >>=
          fun reached => pure (kernelOf reached) := by
    rw [KernelPass.run, operationsOnQuantumKernel, kernelOf, walkNode,
      walkBlocks, walkBlocks, Traced.bind_assoc_eq]
    simp only [Traced.pure_bind_eq]
    rfl
  rw [single, single, walked, Traced.bind_assoc_eq, Traced.bind_mapTrace,
    Traced.bind_assoc_eq]
  rfl

/-! ## Pipelines -/

/-- Passes insert operations without regions. -/
theorem flat_of_editsGates {gain : ℤ} {cursor : Cursor (Op A)}
    {currentOp : Op A} {plan : Plan A}
    (edits : EditsGates gain cursor.before currentOp plan)
    (flat : ∀ operation ∈ cursor.contents, operation.blocks = [])
    (visited : cursor.current = some currentOp) :
    ∀ operation ∈ (plan.apply cursor).contents,
      operation.blocks = [] := by
  rcases edits.removes with ⟨count, removes, -⟩
  intro operation member
  simp only [Cursor.contents, Cursor.visited, Plan.apply,
    List.mem_append] at member flat
  rcases member with ((early | current) | inserted | inserted) | unreached
  · have kept :=
      removes.subset (List.mem_append_left _ early)
    rcases List.mem_append.mp kept with before | same
    · exact flat operation (.inl (.inl (.inl before)))
    · refine flat operation (.inl (.inl (.inr ?_)))
      rw [List.mem_singleton.mp same, visited]
      exact List.mem_singleton_self _
  · have kept :=
      removes.subset (List.mem_append_right _ current)
    rcases List.mem_append.mp kept with before | same
    · exact flat operation (.inl (.inl (.inl before)))
    · refine flat operation (.inl (.inl (.inr ?_)))
      rw [List.mem_singleton.mp same, visited]
      exact List.mem_singleton_self _
  · rcases edits.inserts operation inserted with
      ⟨gate, source, original, rfl, -⟩
    rfl
  · exact flat operation (.inl (.inr inserted))
  · exact flat operation (.inr unreached)

/-- A pass returns a kernel without regions for one without. -/
theorem kernelPass_returns_flat (pass : KernelPass) {stale : StaleRead}
    {block : Block A}
    (flat : ∀ operation ∈ block, operation.blocks = []) {kernel : Op A}
    (returned : (pass.run stale (kernelOf block)).outcome = .ok kernel) :
    ∃ result, kernel = kernelOf result ∧
      ∀ operation ∈ result, operation.blocks = [] := by
  have each :
      ∀ edit ∈ (operationsOnQuantumKernel stale pass.matchers
          (kernelOf block)).trace,
        ∀ operation ∈ edit.target, operation.blocks = [] := by
    refine operationsOnQuantumKernel_satisfies
      (fun contents => ∀ operation ∈ contents, operation.blocks = [])
      ?_ flat flat
    intro matcher member cursor currentOp plan contents visited planned
    have kept :=
      flat_of_editsGates (pass.balanced matcher member _ _ _ planned)
        contents visited
    exact ⟨kept, kept⟩
  rcases operationsOnQuantumKernel_leads flat returned with
    ⟨result, rfl, path⟩
  refine ⟨result, rfl, ?_⟩
  exact path.relates
    (fun after before : Block A =>
      (∀ operation ∈ before, operation.blocks = []) →
        ∀ operation ∈ after, operation.blocks = [])
    (fun _ holds => holds) (fun later early holds => later (early holds))
    (fun edit recorded _ => each edit recorded) flat

/--
What a pipeline does to a kernel does not depend on the operations at its
end that are no gates, and it leaves them there.
-/
theorem runPipeline_append (stale : StaleRead) (passes : List KernelPass)
    {block trailing : Block A}
    (flat : ∀ operation ∈ block, operation.blocks = [])
    (quiet : Quiet trailing) :
    runPipeline stale passes (kernelOf (block ++ trailing)) =
      (runPipeline stale passes (kernelOf block)).mapTrace
          (Prod.map id (extendEdit trailing)) >>=
        fun kernel => pure (appendTo trailing kernel) := by
  induction passes generalizing block with
  | nil =>
      rw [runPipeline, runPipeline]
      exact (Traced.pure_bind_eq _ _).symm
  | cons pass later induction =>
      have relabelled :
          ((pass.run stale (kernelOf block)).mapTrace
              (extendEdit trailing)).mapTrace (Prod.mk pass) =
            ((pass.run stale (kernelOf block)).mapTrace
              (Prod.mk pass)).mapTrace
                (Prod.map id (extendEdit trailing)) := by
        simp [Traced.mapTrace, Function.comp_def]
      rw [runPipeline, runPipeline,
        kernelPass_run_append pass stale flat quiet, Traced.bind_mapTrace,
        relabelled, Traced.bind_assoc_eq, Traced.bind_mapTrace,
        Traced.bind_assoc_eq]
      apply bind_congr_of_ok
      intro kernel returned
      rcases kernelPass_returns_flat pass flat returned with
        ⟨result, rfl, resultFlat⟩
      exact induction resultFlat

/-- The same for a pipeline that returns. -/
theorem runPipeline_append_returns {stale : StaleRead}
    {passes : List KernelPass} {block trailing result : Block A}
    (flat : ∀ operation ∈ block, operation.blocks = [])
    (quiet : Quiet trailing)
    (returned :
      (runPipeline stale passes (kernelOf block)).outcome =
        .ok (kernelOf result)) :
    (runPipeline stale passes (kernelOf (block ++ trailing))).outcome =
        .ok (kernelOf (result ++ trailing)) ∧
      (runPipeline stale passes (kernelOf (block ++ trailing))).trace =
        (runPipeline stale passes (kernelOf block)).trace.map
          (Prod.map id (extendEdit trailing)) := by
  induction passes generalizing block with
  | nil =>
      cases returned
      exact ⟨rfl, rfl⟩
  | cons pass later induction =>
      rw [runPipeline] at returned ⊢
      rcases Traced.bind_ok_iff.mp returned with
        ⟨kernel, first, continued, trace⟩
      rcases kernelPass_returns_flat pass flat first with
        ⟨next, rfl, nextFlat⟩
      rcases induction nextFlat continued with ⟨laterReturned, laterTrace⟩
      have mapped :
          ((pass.run stale (kernelOf block)).mapTrace
            (extendEdit trailing)).outcome = .ok (kernelOf next) :=
        first
      rw [runPipeline, trace, kernelPass_run_append pass stale flat quiet,
        Traced.bind_of_ok mapped, Traced.bind_of_ok rfl]
      refine ⟨laterReturned, ?_⟩
      have extended :
          appendTo trailing (kernelOf next) = kernelOf (next ++ trailing) :=
        rfl
      rw [List.map_append, ← laterTrace]
      simp [extended, Function.comp_def]

/-- A measurement and the return at the end of a kernel. -/
def measureAndReturn : Block ℤ :=
  [.leaf (.measure .mz [wire 1]), .leaf .ret]

theorem hadamardBetween_append :
    runPipeline .stops [.rewriting .CancellationDoubleCx]
        (kernelOf (hadamardBetween ++ measureAndReturn)) =
      (runPipeline .stops [.rewriting .CancellationDoubleCx]
          (kernelOf hadamardBetween)).mapTrace
            (Prod.map id (extendEdit measureAndReturn)) >>=
        fun kernel => pure (appendTo measureAndReturn kernel) :=
  runPipeline_append .stops _
    (by simp [hadamardBetween, Gate.op])
    (by simp [Quiet, measureAndReturn, asOperator])

end MQSSPasses.Passes.TrailingOperations

end
