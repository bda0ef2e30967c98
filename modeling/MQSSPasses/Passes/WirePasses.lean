import MQSSPasses.General.ComponentFolds
import MQSSPasses.Passes.Visits
import MQSSPasses.Quake.WireGates

/-!
# Passes that work along one qubit

Several passes visit the plain gates of one kind, look back along the qubit
of the gate, and exchange the nearest gates they find for others.  What such
a pass decides depends only on the gates with the index of the qubit: it
follows a `WireRule`.

For each index the run of the pass is then the fold of the rule over the
gates with this index, whatever stands between them.  In particular the run
completes exactly if these folds do.

Qubits of one register may share an index.  An exchange is sound if all the
gates it is about are on one qubit: then it changes the unitary as it does
the product of their matrices.
-/

noncomputable section

namespace MQSSPasses.Passes.WirePasses

open MQSSPasses.General.IntConversion
open MQSSPasses.General.TracedComputation
open MQSSPasses.General.OperationTree
open MQSSPasses.General.ComponentFolds
open MQSSPasses.General.QubitOperators
open MQSSPasses.Quake.Syntax
open MQSSPasses.Quake.Operations
open MQSSPasses.Quake.Semantics
open MQSSPasses.Quake.WireGates
open MQSSPasses.Passes.Rewriting
open MQSSPasses.Passes.Matchers
open MQSSPasses.Passes.Visits

variable {A : Type} {n : ℕ}
variable {interp : Interpretation A (Fin n)} {veq : QuantumValue}

/-! ## Rules -/

/--
What is done at a visited gate: how many of the nearest gates on its qubit
are taken out, and which gates stand where it stood.
-/
structure Exchange (A : Type) where
  taken : ℕ
  placed : List (Gate A)

/-- A decision from the earlier gates on a qubit, nearest first. -/
abbrev WireRule (A : Type) : Type :=
  List (Gate A) → Gate A → Except Fault (Option (Exchange A))

/-- What a rule does to the gates on a qubit, nearest first. -/
def wireStep (kind : GateKind) (rule : WireRule A)
    (view : List (Gate A)) (gate : Gate A) :
    Except Fault (List (Gate A)) :=
  if IsPlain kind gate then do
    match ← rule view gate with
    | none => return gate :: view
    | some exchange =>
        return exchange.placed.reverse ++ view.drop exchange.taken
  else return gate :: view

theorem wireStep_of_not_plain {kind : GateKind} {rule : WireRule A}
    {gate : Gate A} (notPlain : ¬ IsPlain kind gate)
    (view : List (Gate A)) :
    wireStep kind rule view gate = .ok (gate :: view) := by
  rw [wireStep, if_neg notPlain]
  rfl

/-- What is done at a plain gate is what the rule decides. -/
theorem wireStep_eq_ok {kind : GateKind} {rule : WireRule A}
    {gate : Gate A} (isPlain : IsPlain kind gate)
    {view next : List (Gate A)} :
    wireStep kind rule view gate = .ok next ↔
      (rule view gate = .ok none ∧ next = gate :: view) ∨
        ∃ exchange, rule view gate = .ok (some exchange) ∧
          next = exchange.placed.reverse ++ view.drop exchange.taken := by
  rw [wireStep, if_pos isPlain]
  cases rule view gate with
  | error fault => simp [bind, Except.bind]
  | ok decision =>
      cases decision <;>
        simp [bind, Except.bind, pure, Except.pure, eq_comm]

/-- A gate that is created from the operands of another one. -/
structure StandsFor (later source : Gate A) : Prop where
  controls : later.controls = source.controls
  targets : later.targets = source.targets
  parameters : later.parameters = [] ∨ later.parameters = source.parameters
  kind : later.kind.numParameters = some 0

theorem StandsFor.single {later source : Gate A}
    (stands : StandsFor later source) {wire : Fin n}
    (single : Single interp veq wire source) :
    Single interp veq wire later where
  controls := stands.controls.trans single.controls
  targets := stands.targets.trans single.targets
  denotes := single.denotes
  parameters := by
    rcases stands.parameters with none | same
    · exact none
    · exact same.trans single.parameters
  kind := stands.kind

/-- The gates that an exchange takes out. -/
def takenFrom (view : List (Gate A)) (exchange : Exchange A) :
    List (Gate A) :=
  view.take exchange.taken

/--
A rule that takes out plain gates, and whose new gates have the operands of
one of them or of the visited gate.
-/
structure LocalRule (rule : WireRule A) : Prop where
  taken :
    ∀ view gate exchange, rule view gate = .ok (some exchange) →
      ∀ earlier ∈ takenFrom view exchange,
        earlier.kind.numParameters = some 0 ∧ IsPlain earlier.kind earlier
  placed :
    ∀ view gate exchange, gate.kind.numParameters = some 0 →
      rule view gate = .ok (some exchange) →
        ∀ later ∈ exchange.placed,
          ∃ source ∈ gate :: takenFrom view exchange,
            StandsFor later source

/-- The gates that a plan brings together, the later one first. -/
def pairedGates (pairings : List (Pairing A)) : List (Gate A × Gate A) :=
  pairings.map fun pairing => (pairing.current, pairing.found.gate)

/-- The gates that are brought together have the same target. -/
def Together (pairings : List (Pairing A)) : Prop :=
  ∀ pairing ∈ pairings,
    pairing.found.gate.targets = pairing.current.targets

instance : DecidablePred (Together (A := A)) := fun pairings =>
  inferInstanceAs (Decidable (∀ pairing ∈ pairings, _ = _))

/-- Each gate is brought together with the one found from it. -/
theorem together_iff {pairings : List (Pairing A)} {gate : Gate A}
    {taken : List (Gate A)}
    (paired : pairedGates pairings = (gate :: taken).zip taken) :
    Together pairings ↔
      ∀ earlier ∈ taken, earlier.targets = gate.targets := by
  have each :
      Together pairings ↔
        ∀ pair ∈ pairedGates pairings, pair.2.targets = pair.1.targets := by
    simp [Together, pairedGates]
  rw [each, paired]
  clear each paired
  induction taken generalizing gate with
  | nil => simp
  | cons first others induction =>
      rw [List.zip_cons_cons, List.forall_mem_cons,
        List.forall_mem_cons]
      refine and_congr_right fun same => ?_
      have later := @induction first
      rw [show first.targets = gate.targets from same] at later
      exact later

/--
A plan does at a gate what the rule decides from the gates on a wire.
-/
inductive Agrees {Wire : Type} [DecidableEq Wire]
    (wireOf : QuantumValue → Wire) (wire : Wire) (before : Block A)
    (gate : Gate A) :
    Except Fault (Option (Exchange A)) →
      Except Fault (Option (Plan A)) → Prop where
  | breaks (fault : Fault) :
      Agrees wireOf wire before gate (.error fault) (.error fault)
  | keeps : Agrees wireOf wire before gate (.ok none) (.ok none)
  | exchanges (exchange : Exchange A) (plan : Plan A)
      (erases :
        Erases wireOf wire
          (takenFrom (recent wireOf wire before) exchange) before
          plan.before)
      (placed :
        plan.current.toList ++ plan.inserted =
          exchange.placed.map Gate.op)
      (paired :
        pairedGates plan.pairings =
          (gate :: takenFrom (recent wireOf wire before) exchange).zip
            (takenFrom (recent wireOf wire before) exchange)) :
      Agrees wireOf wire before gate (.ok (some exchange))
        (.ok (some plan))

/-- A matcher that follows a rule at the plain gates of one kind. -/
structure Follows (interp : Interpretation A (Fin n)) (veq : QuantumValue)
    (kind : GateKind) (rule : WireRule A) (matcher : Matcher A) :
    Prop where
  noParameters : kind.numParameters = some 0
  skips :
    ∀ before operation, gateOfShape kind 0 1 operation = none →
      matcher before operation = .ok none
  agrees :
    ∀ before gate wire, VeqBlock interp veq before → IsPlain kind gate →
      Single interp veq wire gate →
        Agrees interp.index (intOf wire) before gate
          (rule (recent interp.index (intOf wire) before) gate)
          (matcher before gate.op)
  local_ : LocalRule rule

/-- The gates with an index are taken out one qubit at a time. -/
theorem LocalRule.taken_singleAt {rule : WireRule A}
    (local_ : LocalRule rule) {before : Block A}
    (beforeOnVeq : VeqBlock interp veq before) {index : ℤ}
    {gate : Gate A} {exchange : Exchange A}
    (decided :
      rule (recent interp.index index before) gate = .ok (some exchange)) :
    ∀ earlier ∈ takenFrom (recent interp.index index before) exchange,
      SingleAt interp veq index earlier := by
  intro earlier member
  rcases local_.taken _ gate exchange decided earlier member with
    ⟨noParameters, plain⟩
  rcases onVeq_of_recent beforeOnVeq (List.mem_of_mem_take member) with
    ⟨onVeq, names⟩
  exact plain.singleAt onVeq noParameters names

/-- The gates that are put in have the index of the visited one. -/
theorem LocalRule.placed_singleAt {rule : WireRule A}
    (local_ : LocalRule rule) {before : Block A}
    (beforeOnVeq : VeqBlock interp veq before) {wire : Fin n}
    {gate : Gate A} (single : Single interp veq wire gate)
    {exchange : Exchange A}
    (decided :
      rule (recent interp.index (intOf wire) before) gate =
        .ok (some exchange)) :
    ∀ later ∈ exchange.placed,
      SingleAt interp veq (intOf wire) later := by
  intro later member
  rcases local_.placed _ gate exchange single.kind decided later member with
    ⟨source, listed, stands⟩
  rcases List.mem_cons.mp listed with rfl | earlier
  · exact ⟨wire, rfl, stands.single single⟩
  · rcases local_.taken_singleAt beforeOnVeq decided source earlier with
      ⟨place, same, sourceSingle⟩
    exact ⟨place, same, stands.single sourceSingle⟩

/-! ### Reading a matcher at a plain gate -/

theorem asGate_op (kind : GateKind) (gate : Gate A) :
    asGate kind gate.op = if gate.kind = kind then some gate else none :=
  rfl

theorem gateOfShape_op (kind : GateKind) (gate : Gate A) :
    gateOfShape kind 0 1 gate.op =
      if IsPlain kind gate then some gate else none := by
  unfold gateOfShape IsPlain
  rw [asGate_op]
  by_cases same : gate.kind = kind
  · simp [same]
  · simp [same]

theorem withGate_op (kind : GateKind) (gate : Gate A)
    (next : Gate A → Except Fault (Option (Plan A))) :
    withGate kind 0 1 gate.op next =
      if IsPlain kind gate then next gate else .ok none := by
  unfold withGate
  rw [gateOfShape_op]
  by_cases plain : IsPlain kind gate
  · simp [plain]
  · simp [plain, pure, Except.pure]

theorem castGate_op (kind : GateKind) (gate : Gate A) :
    castGate kind gate.op =
      if gate.kind = kind then .ok gate else .error .failedCast := by
  unfold castGate
  rw [asGate_op]
  by_cases same : gate.kind = kind
  · simp [same]
  · simp [same]

theorem withGate_of_none {kind : GateKind} {operation : Op A}
    (shape : gateOfShape kind 0 1 operation = none)
    (next : Gate A → Except Fault (Option (Plan A))) :
    withGate kind 0 1 operation next = .ok none := by
  rw [withGate, shape]
  rfl

theorem element_of_single {wire : Fin n} {gate : Gate A}
    (single : Single interp veq wire gate) :
    element gate.targets 0 = .ok (.extractRef veq (.constant wire.val)) := by
  rw [element_eq_ok, single.targets]
  rfl

/-- The look-back from a gate on one qubit, continued. -/
theorem withPrevious_recent {before : Block A}
    (beforeOnVeq : VeqBlock interp veq before) {wire : Fin n}
    {gate : Gate A} (single : Single interp veq wire gate)
    {outcome : Except Fault (Option (Plan A)) → Prop}
    {next : Found A → Except Fault (Option (Plan A))}
    (empty :
      recent interp.index (intOf wire) before = [] → outcome (.ok none))
    (stopped :
      ∀ found,
        StopsAt interp.index (intOf wire) before found found.gate →
          outcome (next found)) :
    outcome
      (withPrevious before (.extractRef veq (.constant wire.val)) next) := by
  have operand :
      .extractRef veq (.constant wire.val) ∈ gate.qubits := by
    simp [Gate.qubits, single.targets]
  have looked := lookBack_recent beforeOnVeq single.onVeq operand
  rw [Interpretation.index, single.denotes] at looked
  rw [withPrevious]
  rcases looked with ⟨nothing, looked⟩ | ⟨found, looked, stops⟩
  · rw [looked]
    exact empty nothing
  · rw [looked]
    exact stopped found stops

/-! ## One visit -/

variable {kind : GateKind} {rule : WireRule A} {matcher : Matcher A}

/-- What a matcher that follows a rule does at an operation. -/
inductive Visit (interp : Interpretation A (Fin n)) (veq : QuantumValue)
    (kind : GateKind) (rule : WireRule A) (before : Block A) :
    Op A → Except Fault (Option (Plan A)) → Prop where
  | other (operation : Op A)
      (shape : gateOfShape kind 0 1 operation = none) :
      Visit interp veq kind rule before operation (.ok none)
  | plain (gate : Gate A) (wire : Fin n)
      {decision : Except Fault (Option (Plan A))}
      (isPlain : IsPlain kind gate)
      (single : Single interp veq wire gate)
      (agrees :
        Agrees interp.index (intOf wire) before gate
          (rule (recent interp.index (intOf wire) before) gate)
          decision) :
      Visit interp veq kind rule before gate.op decision

/-- A plain gate on the register names one qubit. -/
theorem exists_names_of_plain {kind : GateKind} {gate : Gate A}
    (plain : IsPlain kind gate) :
    ∃ wire, Names interp.qubit wire gate := by
  rcases List.length_eq_one_iff.mp plain.2.2 with ⟨target, targets⟩
  refine ⟨interp.qubit target, List.mem_map_of_mem ?_⟩
  simp [Gate.qubits, targets]

theorem Follows.visit (follows : Follows interp veq kind rule matcher)
    {before : Block A} (beforeOnVeq : VeqBlock interp veq before)
    {operation : Op A} (onVeq : VeqOperation interp veq operation) :
    Visit interp veq kind rule before operation
      (matcher before operation) := by
  cases shape : gateOfShape kind 0 1 operation with
  | none =>
      rw [follows.skips before operation shape]
      exact .other operation shape
  | some gate =>
      rcases gateOfShape_eq_some.mp shape with ⟨cast, counts⟩
      rcases asGate_eq_some.mp cast with ⟨label, isKind⟩
      have isGate := asOperator_eq_some.mpr label
      have isPlain : IsPlain kind gate := ⟨isKind, counts⟩
      have named : ∃ wire, Names interp.qubit wire gate :=
        exists_names_of_plain isPlain
      rcases named with ⟨wire, names⟩
      have single :=
        isPlain.single (onVeq.onVeq isGate) follows.noParameters names
      rw [onVeq.eq_op isGate]
      exact .plain gate wire isPlain single
        (follows.agrees before gate wire beforeOnVeq isPlain single)

/-! ## One step of the run -/

/-- What an exchange that the rule decided does to a block. -/
inductive Exchanges (interp : Interpretation A (Fin n))
    (veq : QuantumValue) (kind : GateKind) (rule : WireRule A) :
    List (Pairing A) → Block A → Block A → Prop where
  | made {pairings : List (Pairing A)} {before after : Block A}
      {gate : Gate A} {wire : Fin n} {exchange : Exchange A}
      (rest : Block A)
      (beforeOnVeq : VeqBlock interp veq before)
      (isPlain : IsPlain kind gate)
      (single : Single interp veq wire gate)
      (decided :
        rule (recent interp.index (intOf wire) before) gate =
          .ok (some exchange))
      (erases :
        Erases interp.index (intOf wire)
          (takenFrom (recent interp.index (intOf wire) before) exchange)
          before after)
      (taken :
        ∀ earlier ∈
            takenFrom (recent interp.index (intOf wire) before) exchange,
          SingleAt interp veq (intOf wire) earlier)
      (placed :
        ∀ later ∈ exchange.placed,
          ∃ source ∈
              gate ::
                takenFrom (recent interp.index (intOf wire) before)
                  exchange,
            StandsFor later source)
      (paired :
        pairedGates pairings =
          (gate ::
              takenFrom (recent interp.index (intOf wire) before)
                exchange).zip
            (takenFrom (recent interp.index (intOf wire) before)
              exchange)) :
      Exchanges interp veq kind rule pairings
        (before ++ gate.op :: rest)
        (after ++ exchange.placed.map Gate.op ++ rest)

/-- Gates on the register make operations on the register. -/
theorem veqBlock_map_op {gates : List (Gate A)}
    (onVeq : ∀ gate ∈ gates, OnVeq interp veq gate) :
    VeqBlock interp veq (gates.map Gate.op) := by
  intro operation member
  rcases List.mem_map.mp member with ⟨gate, listed, rfl⟩
  exact .gate gate (onVeq gate listed)

/-- What stands for gates on qubits with an index is on such a qubit. -/
theorem singleAt_of_standsFor {index : ℤ} {sources : List (Gate A)}
    (single : ∀ source ∈ sources, SingleAt interp veq index source)
    {later : Gate A}
    (placed : ∃ source ∈ sources, StandsFor later source) :
    SingleAt interp veq index later := by
  rcases placed with ⟨source, listed, stands⟩
  rcases single source listed with ⟨wire, same, sourceSingle⟩
  exact ⟨wire, same, stands.single sourceSingle⟩

theorem Exchanges.veqBlock {pairings : List (Pairing A)}
    {source target : Block A}
    (exchanges : Exchanges interp veq kind rule pairings source target)
    (onVeq : VeqBlock interp veq source) :
    VeqBlock interp veq target := by
  cases exchanges with
  | made rest beforeOnVeq isPlain single decided erases taken placed
      paired =>
      have sources := List.forall_mem_cons.mpr ⟨⟨_, rfl, single⟩, taken⟩
      rw [veqBlock_append, veqBlock_cons] at onVeq
      rw [veqBlock_append, veqBlock_append]
      refine ⟨⟨erases.veqBlock onVeq.1, veqBlock_map_op ?_⟩, onVeq.2.2⟩
      intro later member
      rcases singleAt_of_standsFor sources (placed later member) with
        ⟨wire, -, laterSingle⟩
      exact laterSingle.onVeq

/-- A decision of the matcher to rewrite is one of the rule. -/
theorem Follows.exchanges (follows : Follows interp veq kind rule matcher)
    {before : Block A} (beforeOnVeq : VeqBlock interp veq before)
    {operation : Op A} (onVeq : VeqOperation interp veq operation)
    {plan : Plan A}
    (planned : matcher before operation = .ok (some plan))
    (rest : Block A) :
    Exchanges interp veq kind rule plan.pairings
      (before ++ operation :: rest)
      (plan.before ++ plan.current.toList ++ plan.inserted ++ rest) := by
  have visit := follows.visit beforeOnVeq onVeq
  rw [planned] at visit
  rcases visit with _ | ⟨gate, wire, isPlain, single, agrees⟩
  generalize decided :
    rule (recent interp.index (intOf wire) before) gate = decision
    at agrees
  rcases agrees with _ | _ | ⟨exchange, _, erases, placed, paired⟩
  rw [List.append_assoc plan.before, placed]
  exact .made rest beforeOnVeq isPlain single decided erases
    (follows.local_.taken_singleAt beforeOnVeq decided)
    (follows.local_.placed _ gate exchange single.kind decided) paired

/-- Every edit of a run is an exchange that the rule decided. -/
theorem Follows.edits (follows : Follows interp veq kind rule matcher)
    (stale : StaleRead) {block : Block A}
    (onVeq : VeqBlock interp veq block) :
    ∀ edit ∈ (operationsOnQuantumKernel stale [matcher]
        (kernelOf block)).trace,
      Exchanges interp veq kind rule edit.pairings edit.source
        edit.target := by
  refine operationsOnQuantumKernel_satisfies (VeqBlock interp veq) ?_
    (fun operation member => (onVeq operation member).flat) onVeq
  intro other member cursor currentOp plan contents visited planned
  rw [List.mem_singleton.mp member] at planned
  rw [contents_of_visited visited] at contents ⊢
  rw [veqBlock_append, veqBlock_cons] at contents
  have exchanges :=
    follows.exchanges contents.1 contents.2.1 planned
      (cursor.inserted ++ cursor.rest)
  rw [plan.apply_contents]
  refine ⟨exchanges, exchanges.veqBlock ?_⟩
  rw [veqBlock_append, veqBlock_cons]
  exact contents

/-! ### The unitary -/

/-- The exchanges of a rule multiply the matrices by admissible scalars. -/
def Scales (kind : GateKind) (rule : WireRule A)
    (admissible : ℂ → Prop) : Prop :=
  ∀ view gate exchange, IsPlain kind gate →
    rule view gate = .ok (some exchange) →
      (∀ other ∈ takenFrom view exchange, HasMatrix other.kind) ∧
        (∀ other ∈ exchange.placed, HasMatrix other.kind) ∧
        ∃ scalar, admissible scalar ∧
          stackMatrix exchange.placed.reverse =
            scalar •
              (gateMatrix gate * stackMatrix (takenFrom view exchange))

/--
An exchange of gates that are on one qubit multiplies the unitary as it does
the matrices.
-/
theorem Exchanges.denote_eq {admissible : ℂ → Prop}
    (scales : Scales kind rule admissible) (has : HasMatrix kind)
    {pairings : List (Pairing A)} {source target : Block A}
    (exchanges : Exchanges interp veq kind rule pairings source target)
    (together : Together pairings) :
    ∃ scalar, admissible scalar ∧
      denote interp target = scalar • denote interp source := by
  rcases exchanges with @⟨before, after, gate, wire, exchange, rest,
    beforeOnVeq, isPlain, single, decided, erases, taken, placed, paired⟩
  have same := (together_iff paired).mp together
  have takenSingle (earlier : Gate A)
      (member :
        earlier ∈
          takenFrom (recent interp.index (intOf wire) before) exchange) :
      Single interp veq wire earlier :=
    (taken earlier member).single single (same earlier member)
  have placedSingle (later : Gate A) (member : later ∈ exchange.placed) :
      Single interp veq wire later := by
    rcases placed later member with ⟨other, listed, stands⟩
    rcases List.mem_cons.mp listed with rfl | earlier
    · exact stands.single single
    · exact stands.single (takenSingle other earlier)
  rcases scales _ gate exchange isPlain decided with
    ⟨takenHave, placedHave, scalar, admitted, scaled⟩
  refine ⟨scalar, admitted, ?_⟩
  have lost :
      denote interp before =
        on wire (stackMatrix
            (takenFrom (recent interp.index (intOf wire) before)
              exchange)) *
          denote interp after :=
    erases.onQubit.denote_eq beforeOnVeq fun earlier member =>
      (takenSingle earlier member).gateOperator_eq
        (takenHave earlier member)
  have stands :
      denote interp (exchange.placed.map Gate.op) =
        on wire (stackMatrix exchange.placed.reverse) :=
    denote_map_op fun later member =>
      (placedSingle later member).gateOperator_eq (placedHave later member)
  rw [denote_append, denote_append, denote_append, denote_cons,
    operator_op, stands, lost,
    single.gateOperator_eq (isPlain.1 ▸ has), scaled, map_smul, map_mul]
  simp only [mul_assoc, smul_mul_assoc, mul_smul_comm]

/-- In a register that an `int` can index, one index is one qubit. -/
theorem Exchanges.together_of_indexed (indexed : n ≤ intRange)
    {pairings : List (Pairing A)} {source target : Block A}
    (exchanges : Exchanges interp veq kind rule pairings source target) :
    Together pairings := by
  cases exchanges with
  | made rest beforeOnVeq isPlain single decided erases taken placed
      paired =>
      rw [together_iff paired]
      intro earlier member
      rcases taken earlier member with ⟨wire, same, takenSingle⟩
      exact (takenSingle.targets_eq_iff single).mpr
        (intOf_injective indexed same)

/-- What a run whose exchanges are on one qubit does to the unitary. -/
theorem Follows.denote_eq {admissible : ℂ → Prop}
    (follows : Follows interp veq kind rule matcher)
    (scales : Scales kind rule admissible) (has : HasMatrix kind)
    (one : admissible 1)
    (mul : ∀ {first second}, admissible first → admissible second →
      admissible (first * second))
    {stale : StaleRead} {block result : Block A}
    (onVeq : VeqBlock interp veq block)
    (together :
      ∀ edit ∈ (operationsOnQuantumKernel stale [matcher]
          (kernelOf block)).trace, Together edit.pairings)
    (returned :
      (operationsOnQuantumKernel stale [matcher]
        (kernelOf block)).outcome = .ok (kernelOf result)) :
    ∃ scalar, admissible scalar ∧
      denote interp result = scalar • denote interp block := by
  have flat := fun operation member => (onVeq operation member).flat
  rcases operationsOnQuantumKernel_relates
      (fun after before =>
        ∃ scalar, admissible scalar ∧
          denote interp after = scalar • denote interp before)
      (fun _ => ⟨1, one, (one_smul ℂ _).symm⟩)
      (by
        rintro first second third ⟨left, leftGood, equal⟩
          ⟨right, rightGood, other⟩
        refine ⟨left * right, mul leftGood rightGood, ?_⟩
        rw [equal, other, smul_smul])
      flat
      (fun edit recorded =>
        (follows.edits stale onVeq edit recorded).denote_eq scales has
          (together edit recorded))
      _ returned with ⟨_, equal, related⟩
  cases equal
  exact related

/-! ## The run on each index -/

/-- On the other indices an exchange changes nothing. -/
theorem recent_exchanged_other {index other : ℤ}
    (apart : other ≠ index) {before after : Block A}
    {exchange : Exchange A} {taken : List (Gate A)}
    (erases : Erases interp.index index taken before after)
    (dropped : ∀ earlier ∈ taken, SingleAt interp veq index earlier)
    (placed :
      ∀ later ∈ exchange.placed, SingleAt interp veq index later) :
    recent interp.index other (after ++ exchange.placed.map Gate.op) =
      recent interp.index other before := by
  rw [recent_append, ← erases.recent_other, recent_eq_nil]
  · rfl
  · intro operation member
    rcases List.mem_map.mp member with ⟨later, listed, rfl⟩
    rw [gateOn_op, if_neg]
    rw [(placed later listed).names_iff]
    exact apart
  · intro earlier member
    rw [(dropped earlier member).names_iff]
    exact apart

/-- On its own index an exchange does what the rule says. -/
theorem recent_exchanged {index : ℤ} {before after : Block A}
    {exchange : Exchange A}
    (erases :
      Erases interp.index index
        (takenFrom (recent interp.index index before) exchange) before
        after)
    (dropped :
      ∀ earlier ∈ takenFrom (recent interp.index index before) exchange,
        SingleAt interp veq index earlier)
    (placed :
      ∀ later ∈ exchange.placed, SingleAt interp veq index later) :
    recent interp.index index (after ++ exchange.placed.map Gate.op) =
      exchange.placed.reverse ++
        (recent interp.index index before).drop exchange.taken := by
  have split :=
    erases.recent fun earlier member =>
      (dropped earlier member).names_iff.mpr rfl
  have remains :
      recent interp.index index after =
        (recent interp.index index before).drop exchange.taken := by
    apply List.append_cancel_left
    rw [← split, takenFrom, List.take_append_drop]
  have stands :
      recent interp.index index (exchange.placed.map Gate.op) =
        exchange.placed.reverse := by
    rw [recent, wireGates, List.filterMap_map]
    congr 1
    refine Eq.trans (List.filterMap_congr ?_) List.filterMap_some
    intro later member
    rw [Function.comp_apply, gateOn_op,
      if_pos ((placed later member).names_iff.mpr rfl)]
  rw [recent_append, remains, stands]

/-- The letters of an operation at an index: the gate, if it has it. -/
def lettersOn (interp : Interpretation A (Fin n)) (index : ℤ)
    (operation : Op A) : List (Gate A) :=
  (gateOn interp.index index operation).toList

theorem flatMap_lettersOn (index : ℤ) (block : Block A) :
    block.flatMap (lettersOn interp index) =
      wireGates interp.index index block := by
  rw [wireGates, List.filterMap_eq_flatMap_toList]
  rfl

/-- A gate the rule is not for joins the gates with its indices. -/
theorem foldlM_lettersOn_skipped {operation : Op A}
    (shape : gateOfShape kind 0 1 operation = none) (index : ℤ)
    (view : List (Gate A)) :
    (lettersOn interp index operation).foldlM (wireStep kind rule) view =
      .ok (lettersOn interp index operation ++ view) := by
  unfold lettersOn
  cases named : gateOn interp.index index operation with
  | none => rfl
  | some gate =>
      have isGate := ((gateOn_eq_some interp.index).mp named).1
      have notPlain : ¬ IsPlain kind gate := by
        rintro ⟨isKind, counts⟩
        rw [Option.eq_none_iff_forall_ne_some] at shape
        refine shape gate (gateOfShape_eq_some.mpr ⟨?_, counts⟩)
        exact asGate_eq_some.mpr ⟨asOperator_eq_some.mp isGate, isKind⟩
      rw [Option.toList_some, List.foldlM_cons,
        wireStep_of_not_plain notPlain]
      rfl

/-- The letters of a gate on one qubit. -/
theorem lettersOn_single {wire : Fin n} {gate : Gate A}
    (single : Single interp veq wire gate) (index : ℤ) :
    lettersOn interp index gate.op =
      if index = intOf wire then [gate] else [] := by
  rw [lettersOn, gateOn_op]
  by_cases same : index = intOf wire
  · rw [if_pos (single.names_index_iff.mpr same), if_pos same]
    rfl
  · rw [if_neg fun names => same (single.names_index_iff.mp names),
      if_neg same]
    rfl

/-- A visit that changes nothing, seen at one index. -/
theorem Follows.steps_kept
    (follows : Follows interp veq kind rule matcher) {before : Block A}
    (beforeOnVeq : VeqBlock interp veq before) {operation : Op A}
    (onVeq : VeqOperation interp veq operation)
    (kept : matcher before operation = .ok none) (index : ℤ) :
    (lettersOn interp index operation).foldlM (wireStep kind rule)
        (recent interp.index index before) =
      .ok (recent interp.index index (before ++ [operation])) := by
  have visit := follows.visit beforeOnVeq onVeq
  have concat :
      recent interp.index index (before ++ [operation]) =
        lettersOn interp index operation ++
          recent interp.index index before :=
    recent_concat interp.index index before operation
  rw [kept] at visit
  rw [concat]
  rcases visit with
    ⟨_, shape⟩ | ⟨gate, wire, isPlain, single, agrees⟩
  · exact foldlM_lettersOn_skipped shape index _
  · generalize decided :
      rule (recent interp.index (intOf wire) before) gate = decision
      at agrees
    cases agrees
    rw [lettersOn_single single]
    by_cases same : index = intOf wire
    · rw [if_pos same, same, List.foldlM_cons, wireStep,
        if_pos isPlain, decided]
      rfl
    · rw [if_neg same]
      rfl

/-- A visit that exchanges gates, seen at one index. -/
theorem Follows.steps_planned
    (follows : Follows interp veq kind rule matcher) {before : Block A}
    (beforeOnVeq : VeqBlock interp veq before) {operation : Op A}
    (onVeq : VeqOperation interp veq operation) {plan : Plan A}
    (planned : matcher before operation = .ok (some plan)) (index : ℤ) :
    (lettersOn interp index operation).foldlM (wireStep kind rule)
        (recent interp.index index before) =
      .ok
        (recent interp.index index
          (plan.before ++ plan.current.toList ++ plan.inserted)) := by
  have visit := follows.visit beforeOnVeq onVeq
  rw [planned] at visit
  rcases visit with _ | ⟨gate, wire, isPlain, single, agrees⟩
  generalize decided :
    rule (recent interp.index (intOf wire) before) gate = decision
    at agrees
  rcases agrees with _ | _ | ⟨exchange, _, erases, placed, paired⟩
  have taken := follows.local_.taken_singleAt beforeOnVeq decided
  have built := follows.local_.placed_singleAt beforeOnVeq single decided
  rw [List.append_assoc, placed, lettersOn_single single]
  by_cases same : index = intOf wire
  · rw [if_pos same, same, List.foldlM_cons, wireStep, if_pos isPlain,
      decided, recent_exchanged erases taken built]
    rfl
  · rw [if_neg same, recent_exchanged_other same erases taken built]
    rfl

/-- At each index a visit does what the rule says. -/
theorem Follows.componentwise
    (follows : Follows interp veq kind rule matcher) :
    Componentwise (advance matcher) (wireStep kind rule)
      (recent interp.index) (lettersOn interp) (VeqBlock interp veq)
      (VeqOperation interp veq) where
  kept := by
    intro before operation after beforeOnVeq onVeq advanced
    rcases advance_eq_ok.mp advanced with
      ⟨-, rfl⟩ | ⟨plan, planned, rfl⟩
    · rw [veqBlock_append, veqBlock_cons]
      exact ⟨beforeOnVeq, onVeq, by simp [VeqBlock]⟩
    · have exchanges := follows.exchanges beforeOnVeq onVeq planned []
      rw [List.append_nil] at exchanges
      apply exchanges.veqBlock
      rw [veqBlock_append, veqBlock_cons]
      exact ⟨beforeOnVeq, onVeq, by simp [VeqBlock]⟩
  steps := by
    intro before operation after beforeOnVeq onVeq advanced other
    rcases advance_eq_ok.mp advanced with
      ⟨kept, rfl⟩ | ⟨plan, planned, rfl⟩
    · exact follows.steps_kept beforeOnVeq onVeq kept other
    · exact follows.steps_planned beforeOnVeq onVeq planned other
  fails := by
    intro before operation fault beforeOnVeq onVeq failed
    rw [advance_eq_error] at failed
    have visit := follows.visit beforeOnVeq onVeq
    rw [failed] at visit
    rcases visit with _ | ⟨gate, wire, isPlain, single, agrees⟩
    generalize decided :
      rule (recent interp.index (intOf wire) before) gate = decision
      at agrees
    cases agrees
    refine ⟨intOf wire, ?_⟩
    rw [lettersOn_single single, if_pos rfl, List.foldlM_cons, wireStep,
      if_pos isPlain, decided]
    rfl

/-- What a rule makes of gates on a wire, nearest first. -/
def settled (kind : GateKind) (rule : WireRule A) (past : List (Gate A)) :
    Except Fault (List (Gate A)) :=
  past.foldrM (fun gate view => wireStep kind rule view gate) []

@[simp]
theorem settled_nil : settled kind rule [] = .ok [] := rfl

theorem settled_cons_eq_ok {gate : Gate A} {past view : List (Gate A)} :
    settled kind rule (gate :: past) = .ok view ↔
      ∃ earlier, settled kind rule past = .ok earlier ∧
        wireStep kind rule earlier gate = .ok view := by
  rw [settled, List.foldrM_cons, except_bind_eq_ok]
  rfl

theorem settled_cons_returns_iff {gate : Gate A} {past : List (Gate A)} :
    (∃ view, settled kind rule (gate :: past) = .ok view) ↔
      ∃ earlier, settled kind rule past = .ok earlier ∧
        (IsPlain kind gate → Decides (rule earlier gate)) := by
  simp only [settled_cons_eq_ok]
  rw [exists_comm]
  refine exists_congr fun earlier => ?_
  rw [exists_and_left, and_congr_right_iff]
  intro _
  by_cases isPlain : IsPlain kind gate
  · rw [forall_prop_of_true isPlain, wireStep, if_pos isPlain]
    cases rule earlier gate with
    | error fault => simp [Decides, bind, Except.bind]
    | ok decision =>
        cases decision <;>
          simp [Decides, bind, Except.bind, pure, Except.pure]
  · simp [wireStep_of_not_plain isPlain, isPlain]

theorem foldlM_wireGates (index : ℤ) (block : Block A) :
    (block.flatMap (lettersOn interp index)).foldlM (wireStep kind rule)
        [] =
      settled kind rule (recent interp.index index block) := by
  rw [flatMap_lettersOn, settled, recent, ← List.foldlM_reverse,
    List.reverse_reverse]

/-- The run completes exactly if the rule does at every index. -/
theorem Follows.returns_iff
    (follows : Follows interp veq kind rule matcher) (stale : StaleRead)
    {block : Block A} (onVeq : VeqBlock interp veq block) :
    (∃ result,
        (operationsOnQuantumKernel stale [matcher]
          (kernelOf block)).outcome = .ok (kernelOf result)) ↔
      ∀ index, ∃ view,
        settled kind rule (recent interp.index index block) =
          .ok view := by
  have empty : VeqBlock interp veq ([] : Block A) := by simp [VeqBlock]
  have folds := follows.componentwise.returns_iff empty onVeq
  simp only [recent_nil, foldlM_wireGates] at folds
  rw [← folds, operationsOnQuantumKernel_outcome
    fun operation member => (onVeq operation member).flat]
  cases block.foldlM (advance matcher) [] with
  | error fault => simp [Except.map]
  | ok result => simp [Except.map, kernelOf]

/-- The run of a rule that always decides completes. -/
theorem Follows.returns_of_total
    (follows : Follows interp veq kind rule matcher)
    (total : ∀ view gate, Decides (rule view gate)) (stale : StaleRead)
    {block : Block A} (onVeq : VeqBlock interp veq block) :
    ∃ result,
      (operationsOnQuantumKernel stale [matcher]
        (kernelOf block)).outcome = .ok (kernelOf result) := by
  rw [follows.returns_iff stale onVeq]
  intro index
  induction recent interp.index index block with
  | nil => exact ⟨[], rfl⟩
  | cons gate past induction =>
      rcases induction with ⟨earlier, before⟩
      exact settled_cons_returns_iff.mpr
        ⟨earlier, before, fun _ => total earlier gate⟩

/-! ## Exchanges on one qubit -/

/-- The rule that breaks instead of taking out gates with other targets. -/
def guardedRule (rule : WireRule A) : WireRule A := fun view gate => do
  match ← rule view gate with
  | none => return none
  | some exchange =>
      if ∀ earlier ∈ takenFrom view exchange,
          earlier.targets = gate.targets then
        return some exchange
      else throw (.assertion "a plan that is not good")

section Guarded

variable {view : List (Gate A)} {gate : Gate A} {exchange : Exchange A}

theorem guardedRule_of_error {fault : Fault}
    (broken : rule view gate = .error fault) :
    guardedRule rule view gate = .error fault := by
  simp only [guardedRule, broken]
  rfl

theorem guardedRule_of_none (kept : rule view gate = .ok none) :
    guardedRule rule view gate = .ok none := by
  simp only [guardedRule, kept]
  rfl

theorem guardedRule_of_some
    (decided : rule view gate = .ok (some exchange)) :
    guardedRule rule view gate =
      if ∀ earlier ∈ takenFrom view exchange,
          earlier.targets = gate.targets then .ok (some exchange)
      else .error (.assertion "a plan that is not good") := by
  simp only [guardedRule, decided]
  rfl

theorem guardedRule_eq_some :
    guardedRule rule view gate = .ok (some exchange) ↔
      rule view gate = .ok (some exchange) ∧
        ∀ earlier ∈ takenFrom view exchange,
          earlier.targets = gate.targets := by
  cases decided : rule view gate with
  | error fault => simp [guardedRule_of_error decided]
  | ok decision =>
      cases decision with
      | none => simp [guardedRule_of_none decided]
      | some made =>
          rw [guardedRule_of_some decided]
          by_cases same :
              ∀ earlier ∈ takenFrom view made,
                earlier.targets = gate.targets
          · rw [if_pos same]
            constructor
            · rintro ⟨⟩
              exact ⟨rfl, same⟩
            · rintro ⟨⟨⟩, -⟩
              rfl
          · rw [if_neg same]
            constructor
            · rintro ⟨⟩
            · rintro ⟨⟨⟩, other⟩
              exact absurd other same

theorem guardedRule_eq_none :
    guardedRule rule view gate = .ok none ↔
      rule view gate = .ok none := by
  cases decided : rule view gate with
  | error fault => simp [guardedRule_of_error decided]
  | ok decision =>
      cases decision with
      | none => simp [guardedRule_of_none decided]
      | some made =>
          rw [guardedRule_of_some decided]
          by_cases same :
              ∀ earlier ∈ takenFrom view made,
                earlier.targets = gate.targets
          · rw [if_pos same]
          · rw [if_neg same]
            simp

theorem guardedRule_decides_iff :
    Decides (guardedRule rule view gate) ↔
      Decides (rule view gate) ∧
        ∀ exchange, rule view gate = .ok (some exchange) →
          ∀ earlier ∈ takenFrom view exchange,
            earlier.targets = gate.targets := by
  cases decided : rule view gate with
  | error fault => simp [guardedRule_of_error decided, Decides]
  | ok decision =>
      cases decision with
      | none => simp [guardedRule_of_none decided, Decides]
      | some made =>
          rw [guardedRule_of_some decided]
          by_cases same :
              ∀ earlier ∈ takenFrom view made,
                earlier.targets = gate.targets
          · rw [if_pos same]
            refine iff_of_true ⟨_, rfl⟩ ⟨⟨_, rfl⟩, ?_⟩
            rintro _ ⟨⟩
            exact same
          · rw [if_neg same]
            refine iff_of_false ?_ fun both => same (both.2 made rfl)
            rintro ⟨_, ⟨⟩⟩

end Guarded

/-- The guarded matcher follows the guarded rule. -/
theorem Follows.guarded (follows : Follows interp veq kind rule matcher) :
    Follows interp veq kind (guardedRule rule)
      (Visits.guarded Together matcher) where
  noParameters := follows.noParameters
  skips before operation shape :=
    guarded_of_none _ (follows.skips before operation shape)
  agrees before gate wire beforeOnVeq isPlain single := by
    have agrees := follows.agrees before gate wire beforeOnVeq isPlain single
    generalize decided :
      rule (recent interp.index (intOf wire) before) gate = decision
      at agrees
    generalize planned : matcher before gate.op = plan at agrees
    cases agrees with
    | breaks fault =>
        rw [guardedRule_of_error decided, guarded_of_error _ planned]
        exact .breaks fault
    | keeps =>
        rw [guardedRule_of_none decided, guarded_of_none _ planned]
        exact .keeps
    | exchanges exchange plan erases placed paired =>
        rw [guardedRule_of_some decided, guarded_of_some _ planned]
        simp only [together_iff paired]
        by_cases same :
            ∀ earlier ∈
                takenFrom (recent interp.index (intOf wire) before)
                  exchange,
              earlier.targets = gate.targets
        · rw [if_pos same, if_pos same]
          exact .exchanges exchange plan erases placed paired
        · rw [if_neg same, if_neg same]
          exact .breaks _
  local_ :=
    { taken := fun view gate exchange decided =>
        follows.local_.taken view gate exchange
          (guardedRule_eq_some.mp decided).1
      placed := fun view gate exchange noParameters decided =>
        follows.local_.placed view gate exchange noParameters
          (guardedRule_eq_some.mp decided).1 }

/--
The run completes with every exchange on one qubit exactly if the guarded
rule completes at every index.
-/
theorem Follows.returns_together_iff
    (follows : Follows interp veq kind rule matcher) (stale : StaleRead)
    {block : Block A} (onVeq : VeqBlock interp veq block) :
    ((∃ result,
          (operationsOnQuantumKernel stale [matcher]
            (kernelOf block)).outcome = .ok (kernelOf result)) ∧
        ∀ edit ∈ (operationsOnQuantumKernel stale [matcher]
            (kernelOf block)).trace, Together edit.pairings) ↔
      ∀ index, ∃ view,
        settled kind (guardedRule rule) (recent interp.index index block) =
          .ok view := by
  rw [← follows.guarded.returns_iff stale onVeq]
  simp only [operationsOnQuantumKernel_guarded, exists_and_right]

/-! ### What the rule says about the qubit itself -/

/--
At a visited plain gate it is done what the rule decides from the gates on
the qubit of the gate, and nothing is done at other operations.
-/
structure ActsOnQubit (interp : Interpretation A (Fin n))
    (kind : GateKind) (rule : WireRule A) (before : Block A)
    (operation : Op A) (decision : Except Fault (Option (Plan A))) :
    Prop where
  visited :
    ∀ gate wire, asOperator operation = some gate → IsPlain kind gate →
      Names interp.qubit wire gate →
        Agrees interp.qubit wire before gate
          (rule (recent interp.qubit wire before) gate) decision
  other : gateOfShape kind 0 1 operation = none → decision = .ok none

/--
A gate that is sought is the nearest with the index of a visited gate
exactly if it is the nearest on the qubit of this gate.
-/
def IndexTells (interp : Interpretation A (Fin n)) (kind : GateKind)
    (sought : Gate A → Prop) (before : Block A) (operation : Op A) : Prop :=
  ∀ gate wire, asOperator operation = some gate → IsPlain kind gate →
    Names interp.qubit wire gate → ∀ nearest, sought nearest →
      ((recent interp.index (intOf wire) before).head? = some nearest ↔
        (recent interp.qubit wire before).head? = some nearest)

/--
A rule that takes out the nearest gate if this gate is sought, and creates
gates that show its target.
-/
structure HeadRule (rule : WireRule A) (sought : Gate A → Prop)
    (created : Gate A → Gate A → List (Gate A)) : Prop where
  takes :
    ∀ nearest others gate, sought nearest →
      rule (nearest :: others) gate =
        .ok (some ⟨1, created nearest gate⟩)
  keeps :
    ∀ view gate, (∀ nearest ∈ view.head?, ¬ sought nearest) →
      rule view gate = .ok none
  uncontrolled : ∀ nearest, sought nearest → nearest.controls = []
  target :
    ∀ first second gate, sought first → sought second →
      created first gate = created second gate →
        first.targets = second.targets

section Head

variable {sought : Gate A → Prop}
variable {created : Gate A → Gate A → List (Gate A)}

/-- What such a rule takes out. -/
theorem HeadRule.eq_some (headRule : HeadRule rule sought created)
    {view : List (Gate A)} {gate : Gate A} {exchange : Exchange A}
    (decided : rule view gate = .ok (some exchange)) :
    ∃ nearest others, view = nearest :: others ∧ sought nearest ∧
      exchange = ⟨1, created nearest gate⟩ := by
  cases view with
  | nil =>
      rw [headRule.keeps [] gate (by simp)] at decided
      cases decided
  | cons nearest others =>
      by_cases isSought : sought nearest
      · rw [headRule.takes nearest others gate isSought] at decided
        cases decided
        exact ⟨nearest, others, rfl, isSought, rfl⟩
      · rw [headRule.keeps _ gate (by simpa using isSought)] at decided
        cases decided

/-- Uncontrolled gates with the same targets name the same qubits. -/
theorem HeadRule.names (headRule : HeadRule rule sought created)
    {first second gate : Gate A} (isSought : sought first)
    (otherSought : sought second)
    (same : created first gate = created second gate) {wire : Fin n}
    (names : Names interp.qubit wire second) :
    Names interp.qubit wire first := by
  have targets :=
    headRule.target first second gate isSought otherSought same
  rw [Names, Gate.qubits, headRule.uncontrolled second otherSought] at names
  rw [Names, Gate.qubits, headRule.uncontrolled first isSought, targets]
  exact names

/--
Gates decide alike by the index and on the qubit exactly if the same gates
that are sought are the nearest.
-/
theorem HeadRule.decides_alike_iff
    (headRule : HeadRule rule sought created) {before : Block A}
    (wire : Fin n) (gate : Gate A) :
    rule (recent interp.index (intOf wire) before) gate =
        rule (recent interp.qubit wire before) gate ↔
      ∀ nearest, sought nearest →
        ((recent interp.index (intOf wire) before).head? = some nearest ↔
          (recent interp.qubit wire before).head? = some nearest) := by
  constructor
  · intro alike nearest isSought
    constructor
    · intro onIndex
      rcases List.head?_eq_some_iff.mp onIndex with ⟨others, view⟩
      rw [view, headRule.takes nearest others gate isSought] at alike
      rcases headRule.eq_some alike.symm with
        ⟨second, rest, seen, otherSought, same⟩
      have listed : second ∈ recent interp.qubit wire before := by
        rw [seen]
        exact List.mem_cons_self
      rcases mem_recent listed with ⟨_, -, -, names⟩
      exact head?_recent_qubit onIndex
        (headRule.names isSought otherSought (congrArg Exchange.placed same)
          names)
    · intro onQubit
      rcases List.head?_eq_some_iff.mp onQubit with ⟨others, view⟩
      have listed : nearest ∈ recent interp.qubit wire before := by
        rw [view]
        exact List.mem_cons_self
      rcases mem_recent listed with ⟨_, -, -, names⟩
      rw [view, headRule.takes nearest others gate isSought] at alike
      rcases headRule.eq_some alike with
        ⟨first, rest, seen, otherSought, same⟩
      have onIndex :
          (recent interp.index (intOf wire) before).head? = some first := by
        rw [seen, List.head?_cons]
      have nearestOnQubit := head?_recent_qubit onIndex
        (headRule.names otherSought isSought
          (congrArg Exchange.placed same.symm) names)
      rw [onQubit] at nearestOnQubit
      rw [onIndex, nearestOnQubit]
  · intro tells
    by_cases isSought :
        ∃ nearest, sought nearest ∧
          (recent interp.index (intOf wire) before).head? = some nearest
    · rcases isSought with ⟨nearest, isSought, onIndex⟩
      have onQubit := (tells nearest isSought).mp onIndex
      rcases List.head?_eq_some_iff.mp onIndex with ⟨others, view⟩
      rcases List.head?_eq_some_iff.mp onQubit with ⟨rest, seen⟩
      rw [view, seen, headRule.takes nearest others gate isSought,
        headRule.takes nearest rest gate isSought]
    · have unsought (nearest : Gate A)
          (onIndex :
            (recent interp.index (intOf wire) before).head? =
              some nearest) :
          ¬ sought nearest :=
        fun taken => isSought ⟨nearest, taken, onIndex⟩
      rw [headRule.keeps _ gate unsought, headRule.keeps _ gate ?_]
      intro nearest onQubit taken
      exact unsought nearest ((tells nearest taken).mpr onQubit) taken

/-- An exchange decided in both ways is one about the gate on the qubit. -/
theorem HeadRule.onQubit (headRule : HeadRule rule sought created)
    {before : Block A} {wire : Fin n} {gate : Gate A}
    {exchange : Exchange A}
    (alike :
      rule (recent interp.index (intOf wire) before) gate =
        rule (recent interp.qubit wire before) gate)
    (decided :
      rule (recent interp.qubit wire before) gate = .ok (some exchange)) :
    takenFrom (recent interp.index (intOf wire) before) exchange =
      takenFrom (recent interp.qubit wire before) exchange := by
  rcases headRule.eq_some decided with
    ⟨nearest, others, view, isSought, rfl⟩
  have onQubit : (recent interp.qubit wire before).head? = some nearest := by
    rw [view, List.head?_cons]
  have onIndex :=
    ((headRule.decides_alike_iff wire gate).mp alike nearest isSought).mpr
      onQubit
  rcases List.head?_eq_some_iff.mp onIndex with ⟨rest, seen⟩
  rw [view, seen]
  rfl

end Head

/-- The gates of a plan that is about one qubit have one target. -/
theorem LocalRule.together (local_ : LocalRule rule) {before : Block A}
    (beforeOnVeq : VeqBlock interp veq before) {wire : Fin n}
    {gate : Gate A} (single : Single interp veq wire gate) {plan : Plan A}
    (agrees :
      Agrees interp.qubit wire before gate
        (rule (recent interp.qubit wire before) gate)
        (.ok (some plan))) :
    Together plan.pairings := by
  generalize decided :
    rule (recent interp.qubit wire before) gate = decision at agrees
  rcases agrees with _ | _ | ⟨exchange, _, erases, placed, paired⟩
  rw [together_iff paired]
  intro earlier member
  rcases local_.taken _ gate exchange decided earlier member with
    ⟨noParameters, plain⟩
  rcases onVeq_of_recent beforeOnVeq (List.mem_of_mem_take member) with
    ⟨onVeq, names⟩
  exact ((plain.single onVeq noParameters names).targets_eq_iff
    single).mpr rfl

/-- The gates created from a list are told apart by their operations. -/
theorem placed_injective {first second : List (Gate A)}
    (same : first.map Gate.op = second.map Gate.op) : first = second := by
  refine List.map_injective_iff.mpr ?_ same
  intro gate other equal
  cases equal
  rfl

/--
A matcher acts on the qubit exactly if the gates that are sought are the
nearest with its index where they are the nearest on the qubit.
-/
theorem Follows.actsOnQubit_iff
    (follows : Follows interp veq kind rule matcher)
    {sought : Gate A → Prop} {created : Gate A → Gate A → List (Gate A)}
    (headRule : HeadRule rule sought created) {before : Block A}
    (beforeOnVeq : VeqBlock interp veq before) {operation : Op A}
    (onVeq : VeqOperation interp veq operation) :
    ActsOnQubit interp kind rule before operation
        (matcher before operation) ↔
      IndexTells interp kind sought before operation := by
  constructor
  · intro acts gate wire isGate isPlain names
    rw [← headRule.decides_alike_iff wire gate]
    have single :=
      isPlain.single (onVeq.onVeq isGate) follows.noParameters names
    have onQubit := acts.visited gate wire isGate isPlain names
    have onIndex := follows.agrees before gate wire beforeOnVeq isPlain single
    rw [onVeq.eq_op isGate] at onQubit
    generalize decided :
      rule (recent interp.qubit wire before) gate = decision at onQubit
    generalize seen :
      rule (recent interp.index (intOf wire) before) gate = other
      at onIndex
    generalize matcher before gate.op = result at onQubit onIndex
    rcases onQubit with _ | _ | ⟨exchange, plan, -, placed, -⟩
    · cases onIndex
      rfl
    · cases onIndex
      rfl
    · rcases onIndex with _ | _ | ⟨made, _, -, madePlaced, -⟩
      have gates := placed_injective (madePlaced.symm.trans placed)
      rcases headRule.eq_some decided with ⟨_, _, -, -, rfl⟩
      rcases headRule.eq_some seen with ⟨_, _, -, -, rfl⟩
      simp only at gates
      rw [gates]
  · intro tells
    refine ⟨?_, follows.skips before operation⟩
    intro gate wire isGate isPlain names
    have single :=
      isPlain.single (onVeq.onVeq isGate) follows.noParameters names
    have onIndex := follows.agrees before gate wire beforeOnVeq isPlain single
    have alike :=
      (headRule.decides_alike_iff wire gate).mpr
        (tells gate wire isGate isPlain names)
    rw [onVeq.eq_op isGate]
    rw [alike] at onIndex
    generalize decided :
      rule (recent interp.qubit wire before) gate = decision at onIndex ⊢
    generalize matcher before gate.op = result at onIndex
    rcases onIndex with _ | _ | ⟨exchange, plan, erases, placed, paired⟩
    · exact .breaks _
    · exact .keeps
    · have taken := headRule.onQubit alike decided
      rw [taken] at erases paired
      exact .exchanges exchange plan erases.onQubit placed paired

/-! ### The visits of a run -/

section Runs

variable {rewriting : RewritingPass}

/-- The contents at every visit are on the register. -/
theorem Follows.visits_onVeq
    (follows : Follows interp veq kind rule matcher)
    (only : rewriting.matchers = [matcher]) (stale : StaleRead)
    {block : Block A} (onVeq : VeqBlock interp veq block) :
    ∀ cursor ∈ visitsOf rewriting stale (kernelOf block),
      VeqBlock interp veq cursor.contents := by
  refine visits_invariant ?_
    (fun operation member => (onVeq operation member).flat) onVeq
  rw [only]
  intro other member cursor currentOp plan contents visited planned
  rw [List.mem_singleton.mp member] at planned
  rw [contents_of_visited visited, veqBlock_append, veqBlock_cons]
    at contents
  have exchanges :=
    follows.exchanges contents.1 contents.2.1 planned
      (cursor.inserted ++ cursor.rest)
  rw [plan.apply_contents]
  refine exchanges.veqBlock ?_
  rw [veqBlock_append, veqBlock_cons]
  exact contents

theorem decision_of_only (only : rewriting.matchers = [matcher])
    (before : Block A) (operation : Op A) :
    decision rewriting before operation = matcher before operation := by
  rw [decision, only, decideInOrder_single]

/-- A run acts on the qubits exactly if the indices tell them apart. -/
theorem Follows.visits_actOnQubit_iff
    (follows : Follows interp veq kind rule matcher)
    {sought : Gate A → Prop} {created : Gate A → Gate A → List (Gate A)}
    (headRule : HeadRule rule sought created)
    (only : rewriting.matchers = [matcher]) (stale : StaleRead)
    {block : Block A}
    (onVeq : VeqBlock interp veq block) :
    (∀ cursor ∈ visitsOf rewriting stale (kernelOf block),
        ∀ currentOp, cursor.current = some currentOp →
          ActsOnQubit interp kind rule cursor.before currentOp
            (decision rewriting cursor.before currentOp)) ↔
      ∀ cursor ∈ visitsOf rewriting stale (kernelOf block),
        ∀ currentOp, cursor.current = some currentOp →
          IndexTells interp kind sought cursor.before currentOp := by
  refine forall₂_congr fun cursor visit => ?_
  refine forall₂_congr fun currentOp visited => ?_
  have contents := follows.visits_onVeq only stale onVeq cursor visit
  rw [contents_of_visited visited, veqBlock_append, veqBlock_cons]
    at contents
  rw [decision_of_only only]
  exact follows.actsOnQubit_iff headRule contents.1 contents.2.1

/-- The edits of a run that acts on the qubits are on one qubit each. -/
theorem Follows.edits_together
    (follows : Follows interp veq kind rule matcher)
    (only : rewriting.matchers = [matcher]) {stale : StaleRead}
    {block : Block A} (onVeq : VeqBlock interp veq block)
    (acts :
      ∀ cursor ∈ visitsOf rewriting stale (kernelOf block),
        ∀ currentOp, cursor.current = some currentOp →
          ActsOnQubit interp kind rule cursor.before currentOp
            (decision rewriting cursor.before currentOp)) :
    ∀ edit ∈ (rewriting.run stale (kernelOf block)).trace,
      Together edit.pairings := by
  rw [run_trace_forall_iff]
  intro cursor visit currentOp plan visited planned
  have contents := follows.visits_onVeq only stale onVeq cursor visit
  rw [contents_of_visited visited, veqBlock_append, veqBlock_cons]
    at contents
  have onQubit := acts cursor visit currentOp visited
  rw [planned] at onQubit
  rw [decision_of_only only] at planned
  have visit := follows.visit contents.1 contents.2.1
  rw [planned] at visit
  rcases visit with _ | ⟨gate, wire, isPlain, single, -⟩
  exact follows.local_.together contents.1 single
    (onQubit.visited gate wire rfl isPlain (single.names_iff.mpr rfl))

end Runs

end MQSSPasses.Passes.WirePasses

end
