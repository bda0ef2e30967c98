import MQSSPasses.General.VisitedPositions
import MQSSPasses.Passes.Matchers

/-!
# The visits of a rewriting pass

What a run does is decided at the operations it visits, from the visited
operation and the block before it.  A visit records at most one edit: a pass
calls one pattern, or patterns which erase the operation when they apply.
So every statement about the recorded edits is one about the visits at which
the pass rewrites.

A run whose edits are all good is the run of a guarded matcher, which breaks
where the matcher makes any other plan.
-/

namespace MQSSPasses.Passes.Visits

open MQSSPasses.General.TracedComputation
open MQSSPasses.General.OperationTree
open MQSSPasses.General.VisitedPositions
open MQSSPasses.Quake.Syntax
open MQSSPasses.Quake.Operations
open MQSSPasses.Passes.Rewriting
open MQSSPasses.Passes.Matchers

variable {A : Type}

/-! ## Several matchers as one -/

/-- The first plan that one of the matchers makes. -/
def decideInOrder : List (Matcher A) → Matcher A
  | [] => fun _ _ => return none
  | matcher :: others => fun before currentOp => do
      match ← matcher before currentOp with
      | some plan => return some plan
      | none => decideInOrder others before currentOp

theorem decideInOrder_of_error {matcher : Matcher A}
    {others : List (Matcher A)} {before : Block A} {currentOp : Op A}
    {fault : Fault} (broken : matcher before currentOp = .error fault) :
    decideInOrder (matcher :: others) before currentOp = .error fault := by
  simp only [decideInOrder, broken]
  rfl

theorem decideInOrder_of_none {matcher : Matcher A}
    {others : List (Matcher A)} {before : Block A} {currentOp : Op A}
    (passes : matcher before currentOp = .ok none) :
    decideInOrder (matcher :: others) before currentOp =
      decideInOrder others before currentOp := by
  simp only [decideInOrder, passes]
  rfl

theorem decideInOrder_of_some {matcher : Matcher A}
    {others : List (Matcher A)} {before : Block A} {currentOp : Op A}
    {plan : Plan A} (planned : matcher before currentOp = .ok (some plan)) :
    decideInOrder (matcher :: others) before currentOp =
      .ok (some plan) := by
  simp only [decideInOrder, planned]
  rfl

/-- The plan is one of a matcher. -/
theorem decideInOrder_planned {matchers : List (Matcher A)}
    {before : Block A} {currentOp : Op A} {plan : Plan A}
    (planned : decideInOrder matchers before currentOp = .ok (some plan)) :
    ∃ matcher ∈ matchers, matcher before currentOp = .ok (some plan) := by
  induction matchers with
  | nil => simp [decideInOrder, pure, Except.pure] at planned
  | cons matcher others induction =>
      cases decided : matcher before currentOp with
      | error fault =>
          rw [decideInOrder_of_error decided] at planned
          cases planned
      | ok decision =>
          cases decision with
          | none =>
              rw [decideInOrder_of_none decided] at planned
              rcases induction planned with ⟨other, member, makes⟩
              exact ⟨other, List.mem_cons_of_mem matcher member, makes⟩
          | some made =>
              rw [decideInOrder_of_some decided] at planned
              cases planned
              exact ⟨matcher, List.mem_cons_self, decided⟩

/-- With one matcher its plan is the plan. -/
theorem decideInOrder_single (matcher : Matcher A) (before : Block A)
    (currentOp : Op A) :
    decideInOrder [matcher] before currentOp = matcher before currentOp := by
  cases decided : matcher before currentOp with
  | error fault => rw [decideInOrder_of_error decided]
  | ok decision =>
      cases decision with
      | none =>
          rw [decideInOrder_of_none decided]
          rfl
      | some plan => rw [decideInOrder_of_some decided]

/-! ## What one call records -/

/-- The edit that a plan is recorded as. -/
def editOf (cursor : Cursor (Op A)) (plan : Plan A) : Edit A :=
  ⟨plan.pairings, cursor.contents, (plan.apply cursor).contents⟩

section Call

variable {stale : StaleRead} {matcher : Matcher A}
variable {matchers others : List (Matcher A)}
variable {cursor : Cursor (Op A)} {currentOp : Op A}

variable (stale) in
theorem rewrite_of_broken (visited : cursor.current = some currentOp)
    {fault : Fault}
    (broken : matcher cursor.before currentOp = .error fault) :
    rewrite stale matcher cursor = ⟨[], .error fault⟩ := by
  simp only [rewrite, visited, broken]
  rw [Traced.bind_of_error (Traced.ofExcept_outcome _)]
  rfl

variable (stale) in
theorem rewrite_of_none (visited : cursor.current = some currentOp)
    (passes : matcher cursor.before currentOp = .ok none) :
    rewrite stale matcher cursor = ⟨[], .ok cursor⟩ := by
  simp only [rewrite, visited, passes, Traced.ofExcept_ok_bind]
  rfl

variable (stale) in
theorem rewrite_of_some (visited : cursor.current = some currentOp)
    {plan : Plan A}
    (planned : matcher cursor.before currentOp = .ok (some plan)) :
    rewrite stale matcher cursor =
      ⟨[editOf cursor plan], .ok (plan.apply cursor)⟩ := by
  simp only [rewrite, visited, planned, Traced.ofExcept_ok_bind]
  rfl

/-- Calls on an erased operation record nothing. -/
theorem rewriteInOrder_trace_of_erased (erased : cursor.current = none) :
    (rewriteInOrder stale matchers cursor).trace = [] := by
  induction matchers with
  | nil => rfl
  | cons matcher others induction =>
      change (rewrite stale matcher cursor >>= _).trace = _
      cases stale with
      | stops =>
          have stopped :
              rewrite .stops matcher cursor =
                ⟨[], .error .erasedOperation⟩ := by
            simp only [rewrite, erased]
            rfl
          rw [Traced.bind_of_error (by rw [stopped]), stopped]
      | findsNothing =>
          have idle :
              rewrite .findsNothing matcher cursor =
                ⟨[], .ok cursor⟩ := by
            simp only [rewrite, erased]
            rfl
          rw [Traced.bind_of_ok (by rw [idle]), idle, List.nil_append]
          exact induction

/-- One matcher, or matchers that erase the visited operation. -/
def OnePlan (matchers : List (Matcher A)) : Prop :=
  matchers.length ≤ 1 ∨
    ∀ matcher ∈ matchers, ∀ before currentOp plan,
      matcher before currentOp = .ok (some plan) → plan.current = none

theorem OnePlan.tail (one : OnePlan (matcher :: others)) :
    OnePlan others := by
  rcases one with short | erasing
  · refine .inl ?_
    rw [List.length_cons] at short
    omega
  · exact .inr fun other member =>
      erasing other (List.mem_cons_of_mem matcher member)

/-- A call without a plan records nothing. -/
theorem rewriteInOrder_trace_of_no_plan
    (visited : cursor.current = some currentOp)
    (idle :
      ∀ plan,
        decideInOrder matchers cursor.before currentOp ≠ .ok (some plan)) :
    (rewriteInOrder stale matchers cursor).trace = [] := by
  induction matchers with
  | nil => rfl
  | cons matcher others induction =>
      change (rewrite stale matcher cursor >>= _).trace = _
      cases decided : matcher cursor.before currentOp with
      | error fault =>
          have broken := rewrite_of_broken stale visited decided
          rw [Traced.bind_of_error (by rw [broken]), broken]
      | ok decision =>
          cases decision with
          | none =>
              have passes := rewrite_of_none stale visited decided
              rw [Traced.bind_of_ok (by rw [passes]), passes,
                List.nil_append]
              refine induction fun plan => ?_
              rw [← decideInOrder_of_none decided]
              exact idle plan
          | some plan =>
              exact absurd (decideInOrder_of_some decided) (idle plan)

/-- A call with a plan records it, and nothing more. -/
theorem rewriteInOrder_trace_of_plan (one : OnePlan matchers)
    (visited : cursor.current = some currentOp) {plan : Plan A}
    (planned :
      decideInOrder matchers cursor.before currentOp = .ok (some plan)) :
    (rewriteInOrder stale matchers cursor).trace = [editOf cursor plan] := by
  induction matchers with
  | nil => simp [decideInOrder, pure, Except.pure] at planned
  | cons matcher others induction =>
      change (rewrite stale matcher cursor >>= _).trace = _
      cases decided : matcher cursor.before currentOp with
      | error fault =>
          rw [decideInOrder_of_error decided] at planned
          cases planned
      | ok decision =>
          cases decision with
          | none =>
              have passes := rewrite_of_none stale visited decided
              rw [decideInOrder_of_none decided] at planned
              rw [Traced.bind_of_ok (by rw [passes]), passes,
                List.nil_append]
              exact induction one.tail planned
          | some made =>
              have edits := rewrite_of_some stale visited decided
              rw [decideInOrder_of_some decided] at planned
              cases planned
              rw [Traced.bind_of_ok (by rw [edits]), edits]
              have nothing :
                  (rewriteInOrder stale others (plan.apply cursor)).trace =
                    [] := by
                rcases one with short | erasing
                · have none : others = [] := by
                    rw [List.length_cons] at short
                    exact List.eq_nil_of_length_eq_zero (by omega)
                  rw [none]
                  rfl
                · exact rewriteInOrder_trace_of_erased
                    (erasing matcher List.mem_cons_self _ _ _ decided)
              rw [nothing]
              rfl

/-- Calls on an erased operation return, or a read of it stops them. -/
theorem rewriteInOrder_ends_of_erased (erased : cursor.current = none) :
    (∃ after, (rewriteInOrder stale matchers cursor).outcome = .ok after) ∨
      (stale = .stops ∧
        (rewriteInOrder stale matchers cursor).outcome =
          .error .erasedOperation) := by
  induction matchers with
  | nil => exact .inl ⟨cursor, rfl⟩
  | cons matcher others induction =>
      change
        (∃ after, (rewrite stale matcher cursor >>= _).outcome =
            .ok after) ∨
          (_ ∧ (rewrite stale matcher cursor >>= _).outcome = _)
      cases stale with
      | stops =>
          have stopped :
              (rewrite .stops matcher cursor).outcome =
                .error .erasedOperation := by
            simp only [rewrite, erased]
            rfl
          rw [Traced.bind_of_error stopped]
          exact .inr ⟨rfl, rfl⟩
      | findsNothing =>
          have idle :
              (rewrite .findsNothing matcher cursor).outcome =
                .ok cursor := by
            simp only [rewrite, erased]
            rfl
          rw [Traced.bind_of_ok idle]
          exact induction

variable (stale) in
/--
Calls whose matchers decide return, or a read of an erased operation stops
them.
-/
theorem rewriteInOrder_ends (one : OnePlan matchers)
    (visited : cursor.current = some currentOp)
    (decides :
      ∀ matcher ∈ matchers, Decides (matcher cursor.before currentOp)) :
    (∃ after, (rewriteInOrder stale matchers cursor).outcome = .ok after) ∨
      (stale = .stops ∧
        (rewriteInOrder stale matchers cursor).outcome =
          .error .erasedOperation) := by
  induction matchers with
  | nil => exact .inl ⟨cursor, rfl⟩
  | cons matcher others induction =>
      change
        (∃ after, (rewrite stale matcher cursor >>= _).outcome =
            .ok after) ∨
          (_ ∧ (rewrite stale matcher cursor >>= _).outcome = _)
      rcases decides matcher List.mem_cons_self with ⟨decision, decided⟩
      cases decision with
      | none =>
          have passes := rewrite_of_none stale visited decided
          rw [Traced.bind_of_ok (by rw [passes])]
          exact induction one.tail fun other member =>
            decides other (List.mem_cons_of_mem matcher member)
      | some plan =>
          have edits := rewrite_of_some stale visited decided
          rw [Traced.bind_of_ok (by rw [edits])]
          rcases one with short | erasing
          · have none : others = [] := by
              rw [List.length_cons] at short
              exact List.eq_nil_of_length_eq_zero (by omega)
            rw [none]
            exact .inl ⟨_, rfl⟩
          · exact rewriteInOrder_ends_of_erased
              (erasing matcher List.mem_cons_self _ _ _ decided)

end Call

/-! ## Guarded runs -/

section Guarded

variable (good : List (Pairing A) → Prop) [DecidablePred good]

/-- A matcher that breaks instead of making a plan that is not good. -/
def guarded (matcher : Matcher A) : Matcher A := fun before currentOp => do
  match ← matcher before currentOp with
  | none => return none
  | some plan =>
      if good plan.pairings then return some plan
      else throw (.assertion "a plan that is not good")

theorem guarded_of_error {matcher : Matcher A} {before : Block A}
    {currentOp : Op A} {fault : Fault}
    (broken : matcher before currentOp = .error fault) :
    guarded good matcher before currentOp = .error fault := by
  simp only [guarded, broken]
  rfl

theorem guarded_of_none {matcher : Matcher A} {before : Block A}
    {currentOp : Op A} (passes : matcher before currentOp = .ok none) :
    guarded good matcher before currentOp = .ok none := by
  simp only [guarded, passes]
  rfl

theorem guarded_of_some {matcher : Matcher A} {before : Block A}
    {currentOp : Op A} {plan : Plan A}
    (planned : matcher before currentOp = .ok (some plan)) :
    guarded good matcher before currentOp =
      if good plan.pairings then .ok (some plan)
      else .error (.assertion "a plan that is not good") := by
  simp only [guarded, planned]
  rfl

/-- A guarded run returns what the run does, if all its edits are good. -/
theorem operationsOnQuantumKernel_guarded (stale : StaleRead)
    (matcher : Matcher A) (kernel result : Op A) :
    (operationsOnQuantumKernel stale [guarded good matcher]
        kernel).outcome = .ok result ↔
      (operationsOnQuantumKernel stale [matcher] kernel).outcome =
          .ok result ∧
        ∀ edit ∈ (operationsOnQuantumKernel stale [matcher] kernel).trace,
          good edit.pairings := by
  have congruence :=
    @Traced.screened_congruence Fault (Edit A) fun edit =>
      good edit.pairings
  refine walkNode_related congruence (fun cursor => ?_) kernel result
  refine congruence.sequence ?_ (fun after => congruence.returns after)
  intro after
  cases visited : cursor.current with
  | none =>
      have same :
          rewrite stale (guarded good matcher) cursor =
            rewrite stale matcher cursor := by
        simp only [rewrite, visited]
      rw [same]
      cases stale <;> simp [rewrite, visited]
  | some currentOp =>
      cases decided : matcher cursor.before currentOp with
      | error fault =>
          rw [rewrite_of_broken stale visited decided,
            rewrite_of_broken stale visited (guarded_of_error good decided)]
          simp
      | ok decision =>
          cases decision with
          | none =>
              rw [rewrite_of_none stale visited decided,
                rewrite_of_none stale visited (guarded_of_none good decided)]
              simp
          | some plan =>
              have screened := guarded_of_some good decided
              rw [rewrite_of_some stale visited decided]
              by_cases sound : good plan.pairings
              · rw [if_pos sound] at screened
                rw [rewrite_of_some stale visited screened]
                simp [editOf, sound]
              · rw [if_neg sound] at screened
                rw [rewrite_of_broken stale visited screened]
                simp [editOf, sound]

end Guarded

/-! ## The visits of a run -/

/-- What a pass decides at an operation. -/
def decision (rewriting : RewritingPass) : Matcher A :=
  decideInOrder rewriting.matchers

/-- The pass rewrites at the operation. -/
def Rewrites (rewriting : RewritingPass) (before : Block A)
    (currentOp : Op A) : Prop :=
  ∃ plan,
    decision rewriting before currentOp = .ok (some plan)

/-- The positions which a run of a pass visits. -/
def visitsOf (rewriting : RewritingPass) (stale : StaleRead)
    (kernel : Op A) : List (Cursor (Op A)) :=
  visits (rewriteInOrder stale rewriting.matchers) kernel

theorem patternCancellation_erases {T1 T2 : GateKind}
    {nCtrlsOp1 nTgtsOp1 nCtrlsOp2 nTgtsOp2 : ℕ}
    {before : Block A} {currentOp : Op A} {plan : Plan A}
    (planned :
      patternCancellation T1 T2 nCtrlsOp1 nTgtsOp1 nCtrlsOp2 nTgtsOp2
        before currentOp = .ok (some plan)) :
    plan.current = none := by
  rcases patternCancellation_inversion planned with
    ⟨found, currentGate, target, cancels⟩
  rw [cancels.planned]

/-- Every pass plans at most one edit for a visit. -/
theorem onePlan_matchers (rewriting : RewritingPass) :
    OnePlan (rewriting.matchers : List (Matcher A)) := by
  cases rewriting with
  | ReductionPattern =>
      refine .inr fun matcher member before currentOp plan planned => ?_
      simp only [RewritingPass.matchers, List.mem_cons, List.not_mem_nil,
        or_false] at member
      rcases member with
        rfl | rfl | rfl | rfl | rfl | rfl | rfl | rfl <;>
        exact patternCancellation_erases planned
  | _ => exact .inl le_rfl

/--
The edits of a run are those that the pass decides on at its visits.
-/
theorem mem_run_trace_iff {rewriting : RewritingPass} {stale : StaleRead}
    {kernel : Op A} {edit : Edit A} :
    edit ∈ (rewriting.run stale kernel).trace ↔
      ∃ cursor ∈ visitsOf rewriting stale kernel,
        ∃ currentOp plan, cursor.current = some currentOp ∧
          decision rewriting cursor.before currentOp =
            .ok (some plan) ∧
          edit = editOf cursor plan := by
  rw [RewritingPass.run, operationsOnQuantumKernel, walkNode_trace,
    List.mem_flatMap]
  constructor
  · rintro ⟨cursor, visit, recorded⟩
    rcases entered_of_mem_visits _ visit with
      ⟨before, currentOp, rest, rfl⟩
    refine ⟨_, visit, currentOp, ?_⟩
    have visited :
        (Cursor.enter before currentOp rest).current = some currentOp := rfl
    by_cases rewrites : Rewrites rewriting before currentOp
    · rcases rewrites with ⟨plan, planned⟩
      rw [rewriteInOrder_trace_of_plan (onePlan_matchers rewriting) visited
        planned, List.mem_singleton] at recorded
      exact ⟨plan, visited, planned, recorded⟩
    · have idle (plan : Plan A) :
          decideInOrder rewriting.matchers before currentOp ≠
            .ok (some plan) := fun planned => rewrites ⟨plan, planned⟩
      rw [rewriteInOrder_trace_of_no_plan visited idle] at recorded
      cases recorded
  · rintro ⟨cursor, visit, currentOp, plan, visited, planned, rfl⟩
    refine ⟨cursor, visit, ?_⟩
    rw [rewriteInOrder_trace_of_plan (onePlan_matchers rewriting) visited
      planned]
    exact List.mem_cons_self

/-- What holds of all edits of a run is decided at its visits. -/
theorem run_trace_forall_iff {rewriting : RewritingPass}
    {stale : StaleRead} {kernel : Op A} {onEvent : Edit A → Prop} :
    (∀ edit ∈ (rewriting.run stale kernel).trace, onEvent edit) ↔
      ∀ cursor ∈ visitsOf rewriting stale kernel,
        ∀ currentOp plan, cursor.current = some currentOp →
          decision rewriting cursor.before currentOp =
              .ok (some plan) →
            onEvent (editOf cursor plan) := by
  constructor
  · intro all cursor visit currentOp plan visited planned
    exact all _ (mem_run_trace_iff.mpr
      ⟨cursor, visit, currentOp, plan, visited, planned, rfl⟩)
  · intro all edit recorded
    rcases mem_run_trace_iff.mp recorded with
      ⟨cursor, visit, currentOp, plan, visited, planned, rfl⟩
    exact all cursor visit currentOp plan visited planned

/-- The plan of a visit is one of a matcher of the pass. -/
theorem decision_planned {rewriting : RewritingPass}
    {before : Block A} {currentOp : Op A} {plan : Plan A}
    (planned :
      decision rewriting before currentOp =
        .ok (some plan)) :
    ∃ matcher ∈ (rewriting.matchers : List (Matcher A)),
      matcher before currentOp = .ok (some plan) :=
  decideInOrder_planned planned

/--
Every position that a run over a block without regions visits has an
invariant that the plans of the pass keep.
-/
theorem visits_invariant {rewriting : RewritingPass} {stale : StaleRead}
    {block : Block A} {invariant : Block A → Prop}
    (planned :
      ∀ matcher ∈ (rewriting.matchers : List (Matcher A)),
        ∀ (cursor : Cursor (Op A)) currentOp plan,
          invariant cursor.contents →
          cursor.current = some currentOp →
          matcher cursor.before currentOp = .ok (some plan) →
            invariant (plan.apply cursor).contents)
    (flat : ∀ operation ∈ block, operation.blocks = [])
    (initially : invariant block) :
    ∀ cursor ∈ visitsOf rewriting stale (kernelOf block),
      invariant cursor.contents := by
  refine visits_keep_of_flat _ ?_ flat initially
  intro cursor holds
  have keeps :=
    rewriteInOrder_keeps stale invariant (fun _ => True)
      (fun matcher member cursor currentOp plan contents visited made =>
        ⟨trivial,
          planned matcher member cursor currentOp plan contents visited
            made⟩)
      cursor holds
  exact keeps.2

end MQSSPasses.Passes.Visits
