import Mathlib

/-!
# Computations that fail and leave a trace

A compiler pass is observed through the edits it commits, and a pass that
breaks half way has still committed the edits before the break.  `Traced`
is the monad of such computations: it records events while it runs and
ends either in a fault or in a value.  The trace survives a fault.

Three kinds of rule are provided.  `Satisfies` is a partial-correctness
judgement with one predicate for every recorded event and one for the
returned value; it has a rule for each monadic constructor.  `Closed` and
`Congruence` say of any judgement, or of any relation between two
computations, that returning and sequencing keep it.  `Leads` reads a trace
of edits as a path between states, so that what relates the ends of every
recorded edit relates the ends of the whole run.
-/

namespace MQSSPasses.General.TracedComputation

/-- Inversion for a sequence that can only fail: both parts returned. -/
theorem except_bind_eq_ok {Fault First Second : Type}
    {first : Except Fault First}
    {next : First → Except Fault Second} {result : Second} :
    first >>= next = .ok result ↔
      ∃ value, first = .ok value ∧ next value = .ok result := by
  cases first with
  | error fault => simp [bind, Except.bind]
  | ok value => simp [bind, Except.bind]

/-- A computation which records events and then fails or returns. -/
structure Traced (Fault Event Value : Type) where
  trace : List Event
  outcome : Except Fault Value

namespace Traced

variable {Fault Event First Second Value : Type}

/-- Return a value and record nothing. -/
def ofValue (value : Value) : Traced Fault Event Value :=
  ⟨[], .ok value⟩

/-- Run two computations in order; a fault stops the sequence. -/
def sequence
    (first : Traced Fault Event First)
    (next : First → Traced Fault Event Second) :
    Traced Fault Event Second :=
  match first.outcome with
  | .error fault => ⟨first.trace, .error fault⟩
  | .ok value =>
      ⟨first.trace ++ (next value).trace, (next value).outcome⟩

instance : Monad (Traced Fault Event) where
  pure := ofValue
  bind := sequence

/-- Record one event. -/
def record (event : Event) : Traced Fault Event Unit :=
  ⟨[event], .ok ()⟩

/-- Stop with a fault. -/
def raise (fault : Fault) : Traced Fault Event Value :=
  ⟨[], .error fault⟩

/-- Run a computation that records nothing. -/
def ofExcept (result : Except Fault Value) :
    Traced Fault Event Value :=
  ⟨[], result⟩

/-- Relabel every recorded event. -/
def mapTrace {Target : Type} (relabel : Event → Target)
    (computation : Traced Fault Event Value) :
    Traced Fault Target Value :=
  ⟨computation.trace.map relabel, computation.outcome⟩

@[simp]
theorem pure_trace (value : Value) :
    (pure value : Traced Fault Event Value).trace = [] := rfl

@[simp]
theorem pure_outcome (value : Value) :
    (pure value : Traced Fault Event Value).outcome = .ok value := rfl

@[simp]
theorem record_trace (event : Event) :
    (record event : Traced Fault Event Unit).trace = [event] := rfl

@[simp]
theorem record_outcome (event : Event) :
    (record event : Traced Fault Event Unit).outcome = .ok () := rfl

@[simp]
theorem raise_trace (fault : Fault) :
    (raise fault : Traced Fault Event Value).trace = [] := rfl

@[simp]
theorem raise_outcome (fault : Fault) :
    (raise fault : Traced Fault Event Value).outcome =
      .error fault := rfl

@[simp]
theorem ofExcept_trace (result : Except Fault Value) :
    (ofExcept result : Traced Fault Event Value).trace = [] := rfl

@[simp]
theorem ofExcept_outcome (result : Except Fault Value) :
    (ofExcept result : Traced Fault Event Value).outcome =
      result := rfl

@[simp]
theorem mapTrace_trace {Target : Type} (relabel : Event → Target)
    (computation : Traced Fault Event Value) :
    (computation.mapTrace relabel).trace =
      computation.trace.map relabel := rfl

@[simp]
theorem mapTrace_outcome {Target : Type} (relabel : Event → Target)
    (computation : Traced Fault Event Value) :
    (computation.mapTrace relabel).outcome =
      computation.outcome := rfl

/-- A sequence whose first part returns continues with the second. -/
theorem bind_of_ok
    {first : Traced Fault Event First}
    {next : First → Traced Fault Event Second}
    {value : First}
    (returned : first.outcome = .ok value) :
    (first >>= next) =
      ⟨first.trace ++ (next value).trace, (next value).outcome⟩ := by
  change sequence first next = _
  rw [sequence, returned]

/-- A sequence whose first part fails stops there. -/
theorem bind_of_error
    {first : Traced Fault Event First}
    {next : First → Traced Fault Event Second}
    {fault : Fault}
    (failed : first.outcome = .error fault) :
    (first >>= next) = ⟨first.trace, .error fault⟩ := by
  change sequence first next = _
  rw [sequence, failed]

/-- Relabelling the events of a sequence relabels those of its parts. -/
theorem bind_mapTrace {Target : Type} (relabel : Event → Target)
    (first : Traced Fault Event First)
    (next : First → Traced Fault Event Second) :
    (first >>= next).mapTrace relabel =
      (first.mapTrace relabel >>= fun value =>
        (next value).mapTrace relabel) := by
  cases returned : first.outcome with
  | error fault =>
      have mapped : (first.mapTrace relabel).outcome = .error fault :=
        returned
      rw [bind_of_error returned, bind_of_error mapped]
      rfl
  | ok value =>
      have mapped : (first.mapTrace relabel).outcome = .ok value :=
        returned
      rw [bind_of_ok returned, bind_of_ok mapped]
      simp [mapTrace]

@[simp]
theorem pure_bind_eq (value : First)
    (next : First → Traced Fault Event Second) :
    (pure value >>= next) = next value := by
  rw [bind_of_ok (pure_outcome value)]
  simp

/-- Returning what the first part returned changes nothing. -/
theorem bind_pure_eq (first : Traced Fault Event First) :
    (first >>= pure) = first := by
  cases returned : first.outcome with
  | error fault =>
      rw [bind_of_error returned, ← returned]
  | ok value =>
      rw [bind_of_ok returned, pure_trace, pure_outcome,
        List.append_nil, ← returned]

theorem bind_assoc_eq (first : Traced Fault Event First)
    (middle : First → Traced Fault Event Second)
    (next : Second → Traced Fault Event Value) :
    (first >>= middle) >>= next =
      first >>= fun value => middle value >>= next := by
  cases returned : first.outcome with
  | error fault =>
      have stopped : (first >>= middle).outcome = .error fault := by
        rw [bind_of_error returned]
      rw [bind_of_error stopped, bind_of_error returned,
        bind_of_error returned]
  | ok value =>
      rw [bind_of_ok returned, bind_of_ok returned]
      cases later : (middle value).outcome with
      | error fault =>
          rw [bind_of_error later, bind_of_error rfl]
      | ok result =>
          rw [bind_of_ok later, bind_of_ok rfl, List.append_assoc]

@[simp]
theorem ofExcept_ok_bind (value : First)
    (next : First → Traced Fault Event Second) :
    (ofExcept (.ok value) >>= next) = next value := by
  rw [bind_of_ok (ofExcept_outcome _)]
  simp

@[simp]
theorem record_bind_trace (event : Event)
    (next : Unit → Traced Fault Event Second) :
    (record event >>= next).trace = event :: (next ()).trace := by
  rw [bind_of_ok (record_outcome event)]
  simp

@[simp]
theorem record_bind_outcome (event : Event)
    (next : Unit → Traced Fault Event Second) :
    (record event >>= next).outcome = (next ()).outcome := by
  rw [bind_of_ok (record_outcome event)]

@[simp]
theorem raise_bind (fault : Fault)
    (next : First → Traced Fault Event Second) :
    (raise fault >>= next) = raise fault := by
  rw [bind_of_error (raise_outcome fault)]
  rfl

/--
Inversion for a sequence: if it returns, both parts returned, and its trace
is the concatenation of theirs.
-/
theorem bind_ok_iff
    {first : Traced Fault Event First}
    {next : First → Traced Fault Event Second}
    {result : Second} :
    (first >>= next).outcome = .ok result ↔
      ∃ value,
        first.outcome = .ok value ∧
          (next value).outcome = .ok result ∧
          (first >>= next).trace =
            first.trace ++ (next value).trace := by
  cases returned : first.outcome with
  | error fault =>
      rw [bind_of_error returned]
      simp
  | ok value =>
      rw [bind_of_ok returned]
      simp

/-! ## Partial correctness of a traced computation -/

/--
Every recorded event satisfies `onEvent`, and a returned value satisfies
`onReturn`.
-/
def Satisfies (onEvent : Event → Prop) (onReturn : Value → Prop)
    (computation : Traced Fault Event Value) : Prop :=
  (∀ event ∈ computation.trace, onEvent event) ∧
    ∀ value, computation.outcome = .ok value → onReturn value

variable {onEvent : Event → Prop}

theorem Satisfies.of_pure {onReturn : Value → Prop} {value : Value}
    (holds : onReturn value) :
    Satisfies onEvent onReturn
      (pure value : Traced Fault Event Value) := by
  refine ⟨by simp, ?_⟩
  intro returned equal
  simp only [pure_outcome, Except.ok.injEq] at equal
  exact equal ▸ holds

theorem Satisfies.of_record {onReturn : Unit → Prop} {event : Event}
    (holds : onEvent event) (returns : onReturn ()) :
    Satisfies onEvent onReturn
      (record event : Traced Fault Event Unit) := by
  simpa [Satisfies] using And.intro holds fun _ => returns

/-- The sequencing rule: the first postcondition feeds the second part. -/
theorem Satisfies.bind
    {between : First → Prop} {onReturn : Second → Prop}
    {first : Traced Fault Event First}
    {next : First → Traced Fault Event Second}
    (head : Satisfies onEvent between first)
    (tail :
      ∀ value, between value → Satisfies onEvent onReturn (next value)) :
    Satisfies onEvent onReturn (first >>= next) := by
  cases returned : first.outcome with
  | error fault =>
      rw [bind_of_error returned]
      exact ⟨head.1, by simp⟩
  | ok value =>
      have reached := tail value (head.2 value returned)
      rw [bind_of_ok returned]
      refine ⟨?_, reached.2⟩
      intro event member
      rcases List.mem_append.mp member with early | late
      · exact head.1 event early
      · exact reached.1 event late

theorem Satisfies.mono
    {weaker : Event → Prop} {onReturn weakerReturn : Value → Prop}
    {computation : Traced Fault Event Value}
    (holds : Satisfies onEvent onReturn computation)
    (events : ∀ event, onEvent event → weaker event)
    (returns : ∀ value, onReturn value → weakerReturn value) :
    Satisfies weaker weakerReturn computation :=
  ⟨fun event member => events event (holds.1 event member),
    fun value returned => returns value (holds.2 value returned)⟩

/-! ### Judgements that returning and sequencing keep -/

/-- A judgement about computations that returning and sequencing keep. -/
structure Closed
    (judgement : ∀ Value : Type, Traced Fault Event Value → Prop) :
    Prop where
  returns : ∀ {Value : Type} (value : Value), judgement Value (pure value)
  sequence :
    ∀ {First Second : Type} {first : Traced Fault Event First}
      {next : First → Traced Fault Event Second},
      judgement First first → (∀ value, judgement Second (next value)) →
        judgement Second (first >>= next)

theorem Satisfies.closed (onEvent : Event → Prop) :
    @Closed Fault Event fun _ computation =>
      computation.Satisfies onEvent fun _ => True where
  returns _ := .of_pure trivial
  sequence head tail := head.bind fun value _ => tail value

/-- A relation between computations that returning and sequencing keep. -/
structure Congruence {Target : Type}
    (relation :
      ∀ Value : Type, Traced Fault Event Value →
        Traced Fault Target Value → Prop) : Prop where
  returns :
    ∀ {Value : Type} (value : Value), relation Value (pure value) (pure value)
  sequence :
    ∀ {First Second : Type}
      {left : Traced Fault Event First} {right : Traced Fault Target First}
      {leftNext : First → Traced Fault Event Second}
      {rightNext : First → Traced Fault Target Second},
      relation First left right →
        (∀ value, relation Second (leftNext value) (rightNext value)) →
          relation Second (left >>= leftNext) (right >>= rightNext)

/-- The relation to a computation whose events are relabelled. -/
theorem mapTrace_congruence {Target : Type} (relabel : Event → Target) :
    @Congruence Fault Target Event fun _ coarse fine =>
      coarse = fine.mapTrace relabel where
  returns _ := rfl
  sequence head tail := by
    rw [bind_mapTrace, head]
    congr 1
    funext value
    exact tail value

/-- A computation that stops short of the first event which is not good. -/
theorem screened_congruence (good : Event → Prop) :
    @Congruence Fault Event Event fun _ left right =>
      ∀ value, left.outcome = .ok value ↔
        right.outcome = .ok value ∧ ∀ event ∈ right.trace, good event where
  returns _ := by simp
  sequence := by
    intro First Second left right leftNext rightNext head tail value
    cases returned : right.outcome with
    | error fault =>
        rw [Traced.bind_of_error returned]
        cases screened : left.outcome with
        | error other =>
            rw [Traced.bind_of_error screened]
            simp
        | ok first =>
            have rightReturned := ((head first).mp screened).1
            rw [returned] at rightReturned
            cases rightReturned
    | ok first =>
        rw [Traced.bind_of_ok returned]
        simp only [List.mem_append, or_imp, forall_and]
        by_cases innocent : ∀ event ∈ right.trace, good event
        · rw [Traced.bind_of_ok ((head first).mpr ⟨returned, innocent⟩),
            and_iff_right innocent]
          exact tail first value
        · cases screened : left.outcome with
          | error other =>
              rw [Traced.bind_of_error screened]
              simp [innocent]
          | ok other => exact absurd ((head other).mp screened).2 innocent

/-- Computations with the same outcome. -/
theorem outcome_congruence {Target : Type} :
    @Congruence Fault Event Target fun _ left right =>
      left.outcome = right.outcome where
  returns _ := rfl
  sequence := by
    intro First Second left right leftNext rightNext head tail
    cases returned : right.outcome with
    | error fault =>
        rw [bind_of_error returned, bind_of_error (head.trans returned)]
    | ok value =>
        rw [bind_of_ok returned, bind_of_ok (head.trans returned)]
        exact tail value

/-! ## Traces of edits as paths -/

/--
The edits of a trace lead from one state to another: each edit starts in
the state in which the previous one ended.
-/
inductive Leads {State : Type} (source target : Event → State) :
    State → List Event → State → Prop where
  | done (state : State) : Leads source target state [] state
  | step (edit : Event) {rest : List Event} {finish : State}
      (tail : Leads source target (target edit) rest finish) :
      Leads source target (source edit) (edit :: rest) finish

namespace Leads

variable {State : Type} {source target : Event → State}

theorem single (edit : Event) :
    Leads source target (source edit) [edit] (target edit) :=
  .step edit (.done _)

theorem append {start middle finish : State}
    {early late : List Event}
    (first : Leads source target start early middle)
    (second : Leads source target middle late finish) :
    Leads source target start (early ++ late) finish := by
  induction first with
  | done => exact second
  | step edit tail induction => exact .step edit (induction second)

/-- What relates the ends of every edit relates the ends of the path. -/
theorem relates (relation : State → State → Prop)
    (reflexive : ∀ state, relation state state)
    (transitive :
      ∀ {first second third}, relation first second →
        relation second third → relation first third)
    {start finish : State} {edits : List Event}
    (path : Leads source target start edits finish)
    (each : ∀ edit ∈ edits, relation (target edit) (source edit)) :
    relation finish start := by
  induction path with
  | done => exact reflexive _
  | step edit tail induction =>
      have later :=
        induction (fun next member =>
          each next (List.mem_cons_of_mem edit member))
      exact transitive later (each edit List.mem_cons_self)

end Leads

end Traced

end MQSSPasses.General.TracedComputation
