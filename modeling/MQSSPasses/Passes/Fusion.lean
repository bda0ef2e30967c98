import MQSSPasses.Passes.Switching

/-!
# Replacing gates of one qubit by one gate

`HXHToZ` and `HZHToX` replace three plain gates on a qubit by one.  They use
the cast of the earliest of the three gates without a check, so they break
where it is of some other kind; it may also be a gate that the walk has put
there itself.

`SZToSAdj` and `SAdjZToS` replace two plain gates by one, and check both.
All these passes find gates by an index that is read as an `int`, also gates
on other qubits with the same index.
-/

noncomputable section

namespace MQSSPasses.Passes.Fusion

open MQSSPasses.General.IntConversion
open MQSSPasses.General.TracedComputation
open MQSSPasses.General.OperationTree
open MQSSPasses.General.QubitOperators
open MQSSPasses.General.GateMatrices
open MQSSPasses.Quake.Syntax
open MQSSPasses.Quake.Operations
open MQSSPasses.Quake.Semantics
open MQSSPasses.Quake.WireGates
open MQSSPasses.Passes.Rewriting
open MQSSPasses.Passes.Matchers
open MQSSPasses.Passes.Visits
open MQSSPasses.Passes.Cancellation
open MQSSPasses.Passes.Commutation
open MQSSPasses.Passes.WirePasses
open MQSSPasses.Passes.Switching

variable {A : Type} {n : ℕ}
variable {interp : Interpretation A (Fin n)} {veq : QuantumValue}

/-! ## A gate between two Hadamard gates -/

/-- The passes that replace a gate between two Hadamard gates. -/
inductive ConjugationPass where
  | HXHToZ
  | HZHToX
  deriving DecidableEq, Repr

namespace ConjugationPass

def rewriting : ConjugationPass → RewritingPass
  | .HXHToZ => .HXHToZ
  | .HZHToX => .HZHToX

def middle : ConjugationPass → GateKind
  | .HXHToZ => .x
  | .HZHToX => .z

def replacement : ConjugationPass → GateKind
  | .HXHToZ => .z
  | .HZHToX => .x

theorem matchers_eq (pass : ConjugationPass) :
    (pass.rewriting.matchers : List (Matcher A)) =
      [replaceConjugated pass.middle pass.replacement] := by
  cases pass <;> rfl

theorem middle_ne (pass : ConjugationPass) : pass.middle ≠ .h := by
  cases pass <;> decide

theorem replacement_ne (pass : ConjugationPass) :
    pass.replacement ≠ .h ∧ pass.replacement ≠ pass.middle := by
  cases pass <;> decide

theorem noParameters (pass : ConjugationPass) :
    pass.middle.numParameters = some 0 ∧
      pass.replacement.numParameters = some 0 := by
  cases pass <;> exact ⟨rfl, rfl⟩

theorem hasMatrix (pass : ConjugationPass) :
    HasMatrix pass.middle ∧ HasMatrix pass.replacement := by
  cases pass <;> exact ⟨rfl, rfl⟩

/-- The three gates have the product of the one. -/
theorem product_eq (pass : ConjugationPass)
    {first second third replaced : Gate A} (isFirst : first.kind = .h)
    (isSecond : second.kind = pass.middle) (isThird : third.kind = .h)
    (isReplaced : replaced.kind = pass.replacement) :
    gateMatrix replaced =
      gateMatrix third * (gateMatrix second * gateMatrix first) := by
  rw [gateMatrix_of_involutive involutiveH isFirst,
    gateMatrix_of_involutive involutiveH isThird, ← mul_assoc]
  cases pass with
  | HXHToZ =>
      rw [gateMatrix_of_involutive involutiveX isSecond,
        gateMatrix_of_involutive involutiveZ isReplaced]
      exact hadamard_mul_pauliX_mul_hadamard.symm
  | HZHToX =>
      rw [gateMatrix_of_involutive involutiveZ isSecond,
        gateMatrix_of_involutive involutiveX isReplaced]
      exact hadamard_mul_pauliZ_mul_hadamard.symm

end ConjugationPass

/-- The gate that is created in the place of the visited one. -/
def replacedBy (replacement : GateKind) (third : Gate A) : Gate A :=
  Gate.create replacement false [] third.controls third.targets

/-- The rule of both passes; the earliest gate is cast unchecked. -/
def conjugatedRule (middle replacement : GateKind) : WireRule A
  | second :: first :: _, third =>
      if IsPlain middle second then
        if first.kind = .h then
          if first.controls.length = 0 ∧ first.targets.length = 1 then
            .ok (some ⟨2, [replacedBy replacement third]⟩)
          else .ok none
        else .error .failedCast
      else .ok none
  | _, _ => .ok none

theorem conjugatedRule_eq_some {middle replacement : GateKind}
    {view : List (Gate A)} {third : Gate A} {exchange : Exchange A} :
    conjugatedRule middle replacement view third =
        .ok (some exchange) ↔
      ∃ second first earlier, view = second :: first :: earlier ∧
        IsPlain middle second ∧ IsPlain .h first ∧
        exchange = ⟨2, [replacedBy replacement third]⟩ := by
  constructor
  · intro decided
    rcases view with _ | ⟨second, _ | ⟨first, earlier⟩⟩
    · cases decided
    · cases decided
    · rw [conjugatedRule] at decided
      by_cases isSecond : IsPlain middle second
      · rw [if_pos isSecond] at decided
        by_cases isKind : first.kind = .h
        · rw [if_pos isKind] at decided
          by_cases counts :
              first.controls.length = 0 ∧ first.targets.length = 1
          · rw [if_pos counts] at decided
            cases decided
            exact ⟨second, first, earlier, rfl, isSecond,
              ⟨isKind, counts⟩, rfl⟩
          · rw [if_neg counts] at decided
            cases decided
        · rw [if_neg isKind] at decided
          cases decided
      · rw [if_neg isSecond] at decided
        cases decided
  · rintro ⟨second, first, earlier, rfl, isSecond, ⟨isKind, counts⟩, rfl⟩
    rw [conjugatedRule, if_pos isSecond, if_pos isKind, if_pos counts]

theorem conjugatedRule_decides_iff {middle replacement : GateKind}
    {view : List (Gate A)} {third : Gate A} :
    Decides (conjugatedRule middle replacement view third) ↔
      ∀ second first others, view = second :: first :: others →
        IsPlain middle second → first.kind = .h := by
  rcases view with _ | ⟨second, _ | ⟨first, earlier⟩⟩
  · simp [conjugatedRule, Decides]
  · simp [conjugatedRule, Decides]
  · rw [conjugatedRule]
    by_cases isSecond : IsPlain middle second
    · by_cases isKind : first.kind = .h
      · rw [if_pos isSecond, if_pos isKind]
        refine ⟨?_, fun _ => .ite ⟨_, rfl⟩ ⟨_, rfl⟩⟩
        rintro - _ _ _ ⟨⟩ -
        exact isKind
      · rw [if_pos isSecond, if_neg isKind]
        constructor
        · rintro ⟨_, ⟨⟩⟩
        · intro expected
          exact absurd (expected second first earlier rfl isSecond) isKind
    · rw [if_neg isSecond]
      refine ⟨?_, fun _ => ⟨_, rfl⟩⟩
      rintro - _ _ _ ⟨⟩ visited
      exact absurd visited isSecond

theorem conjugatedRule_local (pass : ConjugationPass) :
    LocalRule
      (conjugatedRule pass.middle pass.replacement : WireRule A) where
  taken view third exchange decided earlier member := by
    rcases conjugatedRule_eq_some.mp decided with
      ⟨second, first, others, rfl, isSecond, isFirst, rfl⟩
    rcases List.mem_cons.mp member with rfl | last
    · rw [isSecond.1]
      exact ⟨pass.noParameters.1, isSecond⟩
    · rw [List.mem_singleton.mp last, isFirst.1]
      exact ⟨rfl, isFirst⟩
  placed view third exchange _ decided later member := by
    rcases conjugatedRule_eq_some.mp decided with
      ⟨second, first, others, rfl, isSecond, isFirst, rfl⟩
    rw [List.mem_singleton.mp member]
    exact ⟨third, List.mem_cons_self, rfl, rfl, .inl rfl,
      pass.noParameters.2⟩

theorem replaceConjugated_follows (pass : ConjugationPass) :
    Follows interp veq .h (conjugatedRule pass.middle pass.replacement)
      (replaceConjugated pass.middle pass.replacement : Matcher A) where
  noParameters := rfl
  skips before operation shape := withGate_of_none shape _
  agrees before gate wire beforeOnVeq isPlain single := by
    rw [replaceConjugated, withGate_op, if_pos isPlain,
      element_of_single single]
    refine withPrevious_recent beforeOnVeq single ?_ ?_
    · intro empty
      rw [empty]
      exact .keeps
    · intro found stops
      have lowerOnVeq : VeqBlock interp veq found.lower := by
        have parts := stops.position ▸ beforeOnVeq
        exact (veqBlock_append.mp parts).1
      rw [stops.operation, withGate_op, stops.recent]
      by_cases isSecond : IsPlain pass.middle found.gate
      · rw [if_pos isSecond]
        refine withPrevious_recent lowerOnVeq single ?_ ?_
        · intro empty
          rw [empty]
          exact .keeps
        · intro earlier stopsEarlier
          rw [stopsEarlier.recent, conjugatedRule, if_pos isSecond,
            stopsEarlier.operation, castGate_op]
          by_cases isKind : earlier.gate.kind = .h
          · rw [if_pos isKind, if_pos isKind]
            by_cases counts :
                earlier.gate.controls.length = 0 ∧
                  earlier.gate.targets.length = 1
            · rw [if_pos counts]
              simp only [bind, Except.bind, if_pos counts]
              refine .exchanges _ _ ?_ rfl ?_
              · rw [stops.recent, stopsEarlier.recent]
                exact stops.erases
                  (stopsEarlier.erases (.nothing earlier.lower))
              · rw [stops.recent, stopsEarlier.recent]
                rfl
            · rw [if_neg counts]
              simp only [bind, Except.bind, if_neg counts]
              exact .keeps
          · rw [if_neg isKind, if_neg isKind]
            exact .breaks _
      · rw [if_neg isSecond]
        cases recent interp.index (intOf wire) found.lower with
        | nil => exact .keeps
        | cons first others =>
            rw [conjugatedRule, if_neg isSecond]
            exact .keeps
  local_ := conjugatedRule_local pass

theorem conjugatedRule_scales (pass : ConjugationPass) :
    Scales .h
      (conjugatedRule pass.middle pass.replacement : WireRule A)
      (fun scalar => scalar = 1) := by
  intro view third exchange isPlain decided
  rcases conjugatedRule_eq_some.mp decided with
    ⟨second, first, earlier, rfl, isSecond, isFirst, rfl⟩
  refine ⟨?_, ?_, 1, rfl, ?_⟩
  · intro other member
    rcases List.mem_cons.mp member with rfl | last
    · rw [isSecond.1]
      exact pass.hasMatrix.1
    · rw [List.mem_singleton.mp last, isFirst.1]
      exact hasMatrix_of_involutive involutiveH
  · intro other member
    rw [List.mem_singleton.mp member]
    exact pass.hasMatrix.2
  · change gateMatrix _ * 1 =
      (1 : ℂ) • (gateMatrix third *
        (gateMatrix second * (gateMatrix first * 1)))
    rw [mul_one, mul_one, one_smul]
    exact pass.product_eq isFirst.1 isSecond.1 isPlain.1 rfl

/-- An edit that replaces three plain gates in a row on a qubit. -/
structure ReplacesTripleAt (interp : Interpretation A (Fin n))
    (pass : ConjugationPass) (edit : Edit A) (wire : Fin n)
    (first second third : Gate A) (before after rest : Block A) :
    Prop where
  paired : pairedGates edit.pairings = [(third, second), (second, first)]
  firstPlain : IsPlain .h first
  secondPlain : IsPlain pass.middle second
  thirdPlain : IsPlain .h third
  names :
    Names interp.qubit wire first ∧ Names interp.qubit wire second ∧
      Names interp.qubit wire third
  erases : Erases interp.qubit wire [second, first] before after
  source : edit.source = before ++ third.op :: rest
  target :
    edit.target = after ++ (replacedBy pass.replacement third).op :: rest

def ReplacesTriple (interp : Interpretation A (Fin n))
    (pass : ConjugationPass) (edit : Edit A) : Prop :=
  ∃ wire first second third before after rest,
    ReplacesTripleAt interp pass edit wire first second third before after
      rest

/-- An exchange is sound exactly if its three gates are on one qubit. -/
theorem replacesTriple_iff_together {pass : ConjugationPass}
    {edit : Edit A}
    (exchanges :
      Exchanges interp veq .h
        (conjugatedRule pass.middle pass.replacement) edit.pairings
        edit.source edit.target) :
    ReplacesTriple interp pass edit ↔ Together edit.pairings := by
  generalize sourceEq : edit.source = source at exchanges
  generalize targetEq : edit.target = target at exchanges
  rcases exchanges with @⟨before, after, third, wire, exchange, rest, -,
    isPlain, single, decided, erases, taken, -, paired⟩
  rcases conjugatedRule_eq_some.mp decided with
    ⟨second, first, earlier, view, isSecond, isFirst, rfl⟩
  rw [view] at erases taken paired
  rcases taken second List.mem_cons_self with ⟨place, -, secondSingle⟩
  rcases taken first (by simp [takenFrom]) with ⟨far, -, firstSingle⟩
  have gates :
      pairedGates edit.pairings = [(third, second), (second, first)] :=
    paired
  rw [together_iff paired]
  constructor
  · rintro ⟨other, _, _, _, _, _, _, replaces⟩
    rw [replaces.paired] at gates
    cases gates
    have firstWire := firstSingle.names_iff.mp replaces.names.1
    have secondWire := secondSingle.names_iff.mp replaces.names.2.1
    have thirdWire := single.names_iff.mp replaces.names.2.2
    intro gate member
    rcases List.mem_cons.mp member with rfl | last
    · exact (secondSingle.targets_eq_iff single).mpr
        (secondWire.symm.trans thirdWire)
    · rw [List.mem_singleton.mp last]
      exact (firstSingle.targets_eq_iff single).mpr
        (firstWire.symm.trans thirdWire)
  · intro same
    have secondTargets := same second List.mem_cons_self
    have firstTargets := same first (by simp [takenFrom])
    have secondWire :=
      (secondSingle.targets_eq_iff single).mp secondTargets
    have firstWire := (firstSingle.targets_eq_iff single).mp firstTargets
    subst secondWire firstWire
    exact ⟨far, first, second, third, before, after, rest,
      { paired := gates
        firstPlain := isFirst
        secondPlain := isSecond
        thirdPlain := isPlain
        names :=
          ⟨firstSingle.names_iff.mpr rfl, secondSingle.names_iff.mpr rfl,
            single.names_iff.mpr rfl⟩
        erases := erases.onQubit
        source := sourceEq
        target := by simpa using targetEq }⟩

/-! ### Which gates the walk finds before the visited one -/

/--
The last of the gates, which stand here with the last one first, completes
a pattern, so that the walk replaces it.
-/
def Replaced (pass : ConjugationPass) : List (Gate A) → Prop
  | third :: second :: first :: _ =>
      IsPlain .h third ∧ IsPlain pass.middle second ∧ IsPlain .h first
  | _ => False

theorem Replaced.exists_cons {pass : ConjugationPass}
    {past : List (Gate A)} (replaced : Replaced pass past) :
    ∃ last earlier, past = last :: earlier := by
  rcases past with _ | ⟨last, earlier⟩
  · exact replaced.elim
  · exact ⟨last, earlier, rfl⟩

/-- The gate that completes a pattern is a Hadamard gate. -/
theorem Replaced.isPlain {pass : ConjugationPass} {last : Gate A}
    {earlier : List (Gate A)} (replaced : Replaced pass (last :: earlier)) :
    IsPlain .h last := by
  rcases earlier with _ | ⟨_, _ | ⟨_, _⟩⟩
  · exact replaced.elim
  · exact replaced.elim
  · exact replaced.1

/-- If the three gates form a pattern, they have the same target. -/
def OneTarget (third second first : Gate A) : Prop :=
  IsPlain .h first →
    second.targets = third.targets ∧ first.targets = third.targets

/--
Where a visited Hadamard gate follows a gate of the middle kind, the gate
before both is a Hadamard gate, the walk has not replaced it, and if the
three form a pattern they have the same target.
-/
def TriplesExpected (pass : ConjugationPass) (past : List (Gate A)) :
    Prop :=
  ∀ third second first earlier,
    third :: second :: first :: earlier <:+ past →
      IsPlain .h third → IsPlain pass.middle second →
        (first.kind = .h ∧ ¬ Replaced pass (first :: earlier)) ∧
          OneTarget third second first

theorem triplesExpected_cons {pass : ConjugationPass} {third : Gate A}
    {past : List (Gate A)} :
    TriplesExpected pass (third :: past) ↔
      TriplesExpected pass past ∧
        (IsPlain .h third →
          ∀ second first earlier, past = second :: first :: earlier →
            IsPlain pass.middle second →
              (first.kind = .h ∧ ¬ Replaced pass (first :: earlier)) ∧
                OneTarget third second first) := by
  constructor
  · intro expected
    refine ⟨?_, ?_⟩
    · intro other second first earlier suffix
      exact expected other second first earlier
        (suffix.trans (List.suffix_cons third past))
    · rintro visited second first earlier rfl
      exact expected third second first earlier List.suffix_rfl visited
  · rintro ⟨expected, last⟩ other second first earlier suffix visited
    rcases List.suffix_cons_iff.mp suffix with equal | within
    · cases equal
      exact last visited second first earlier rfl
    · exact expected other second first earlier within visited

/-- The gates that the walk leaves, and those among them it has created. -/
inductive Leaves (pass : ConjugationPass) :
    List (Gate A) → List (Gate A) → Prop where
  | nothing : Leaves pass [] []
  | kept {last : Gate A} {earlier others : List (Gate A)}
      (fresh : ¬ Replaced pass (last :: earlier))
      (before : Leaves pass earlier others) :
      Leaves pass (last :: earlier) (last :: others)
  | created {last : Gate A} {past others : List (Gate A)}
      (replaced : Replaced pass past)
      (isLast : last.kind = pass.replacement) :
      Leaves pass past (last :: others)

section Left

variable {pass : ConjugationPass} {past view : List (Gate A)}

/-- The gates that decide about a visited gate, found and in the past. -/
theorem Leaves.expected_iff (leaves : Leaves pass past view)
    (fits : Gate A → Gate A → Prop) :
    (∀ second first others, view = second :: first :: others →
        IsPlain pass.middle second → first.kind = .h ∧ fits second first) ↔
      ∀ second first earlier, past = second :: first :: earlier →
        IsPlain pass.middle second →
          (first.kind = .h ∧ ¬ Replaced pass (first :: earlier)) ∧
            fits second first := by
  constructor
  · rintro expected second first earlier rfl isSecond
    cases leaves with
    | created replaced isLast =>
        exact absurd (isSecond.1.symm.trans replaced.isPlain.1)
          pass.middle_ne
    | kept fresh before =>
        cases before with
        | kept unreplaced before =>
            rcases expected _ _ _ rfl isSecond with ⟨isKind, fit⟩
            exact ⟨⟨isKind, unreplaced⟩, fit⟩
        | created replaced isLast =>
            have isKind := (expected _ _ _ rfl isSecond).1
            exact absurd (isLast.symm.trans isKind) pass.replacement_ne.1
  · rintro expected second first others rfl isSecond
    cases leaves with
    | created replaced isLast =>
        exact absurd (isLast.symm.trans isSecond.1) pass.replacement_ne.2
    | kept fresh before =>
        cases before with
        | kept unreplaced before =>
            rcases expected _ _ _ rfl isSecond with ⟨⟨isKind, -⟩, fit⟩
            exact ⟨isKind, fit⟩
        | created replaced isLast =>
            rcases replaced.exists_cons with ⟨last, earlier, rfl⟩
            exact absurd replaced (expected _ _ _ rfl isSecond).1.2

/-- A visited gate is replaced exactly if the pattern is found. -/
theorem Leaves.replaced_iff (leaves : Leaves pass past view)
    {third : Gate A} (visited : IsPlain .h third)
    (expected :
      ∀ second first others, view = second :: first :: others →
        IsPlain pass.middle second → first.kind = .h) :
    Replaced pass (third :: past) ↔
      ∃ second first others, view = second :: first :: others ∧
        IsPlain pass.middle second ∧ IsPlain .h first := by
  constructor
  · intro replaced
    rcases past with _ | ⟨second, _ | ⟨first, earlier⟩⟩
    · exact replaced.elim
    · exact replaced.elim
    · rcases replaced with ⟨-, isSecond, isFirst⟩
      have unreplaced :=
        ((leaves.expected_iff fun _ _ => True).mp
          (fun _ _ _ split isMiddle =>
            ⟨expected _ _ _ split isMiddle, trivial⟩)
          second first earlier rfl isSecond).1.2
      cases leaves with
      | created replaced isLast =>
          exact absurd (isSecond.1.symm.trans replaced.isPlain.1)
            pass.middle_ne
      | kept fresh before =>
          cases before with
          | kept _ before => exact ⟨_, _, _, rfl, isSecond, isFirst⟩
          | created replaced _ => exact absurd replaced unreplaced
  · rintro ⟨second, first, others, rfl, isSecond, isFirst⟩
    cases leaves with
    | created replaced isLast =>
        exact absurd (isLast.symm.trans isSecond.1) pass.replacement_ne.2
    | kept fresh before =>
        cases before with
        | kept unreplaced before => exact ⟨visited, isSecond, isFirst⟩
        | created replaced isLast =>
            exact absurd (isLast.symm.trans isFirst.1)
              pass.replacement_ne.1

end Left

/-- When the guarded rule decides about a visited gate. -/
theorem guardedRule_conjugated_decides_iff (pass : ConjugationPass)
    {view : List (Gate A)} {third : Gate A} :
    Decides
        (guardedRule (conjugatedRule pass.middle pass.replacement) view
          third) ↔
      ∀ second first others, view = second :: first :: others →
        IsPlain pass.middle second →
          first.kind = .h ∧ OneTarget third second first := by
  rw [guardedRule_decides_iff, conjugatedRule_decides_iff]
  simp only [conjugatedRule_eq_some]
  constructor
  · rintro ⟨kinds, targets⟩ second first others rfl isSecond
    refine ⟨kinds second first others rfl isSecond, fun isFirst => ?_⟩
    have same :=
      targets _ ⟨second, first, others, rfl, isSecond, isFirst, rfl⟩
    exact ⟨same second List.mem_cons_self,
      same first (by simp [takenFrom])⟩
  · intro all
    refine ⟨fun second first others split isSecond =>
      (all second first others split isSecond).1, ?_⟩
    rintro _ ⟨second, first, others, rfl, isSecond, isFirst, rfl⟩ earlier
      member
    rcases (all second first others rfl isSecond).2 isFirst with
      ⟨secondTargets, firstTargets⟩
    rcases List.mem_cons.mp member with rfl | last
    · exact secondTargets
    · rw [List.mem_singleton.mp last]
      exact firstTargets

theorem settled_leaves {pass : ConjugationPass}
    {past view : List (Gate A)}
    (returned :
      settled .h
          (guardedRule (conjugatedRule pass.middle pass.replacement))
          past =
        .ok view) :
    Leaves pass past view := by
  induction past generalizing view with
  | nil =>
      cases returned
      exact .nothing
  | cons third past induction =>
      rcases settled_cons_eq_ok.mp returned with
        ⟨earlier, before, stepped⟩
      have leaves := induction before
      by_cases visited : IsPlain .h third
      · have decides :=
          (guardedRule_conjugated_decides_iff pass).mp
            ((settled_cons_returns_iff.mp ⟨view, returned⟩).elim
              fun other decided => by
                rw [before, Except.ok.injEq] at decided
                exact decided.1 ▸ decided.2 visited)
        have replacedIff :=
          leaves.replaced_iff visited fun second first others split
            isSecond => (decides second first others split isSecond).1
        rcases (wireStep_eq_ok visited).mp stepped with
          ⟨decided, rfl⟩ | ⟨exchange, decided, rfl⟩
        · rw [guardedRule_eq_none] at decided
          refine .kept ?_ leaves
          rw [replacedIff]
          rintro ⟨second, first, others, rfl, isSecond, isFirst⟩
          rw [conjugatedRule_eq_some.mpr
            ⟨second, first, others, rfl, isSecond, isFirst, rfl⟩]
            at decided
          cases decided
        · rcases conjugatedRule_eq_some.mp
            (guardedRule_eq_some.mp decided).1 with
            ⟨second, first, others, rfl, isSecond, isFirst, rfl⟩
          exact .created
            (replacedIff.mpr
              ⟨second, first, others, rfl, isSecond, isFirst⟩) rfl
      · rw [wireStep_of_not_plain visited, Except.ok.injEq] at stepped
        rw [← stepped]
        exact .kept (fun replaced => visited replaced.isPlain) leaves

/-- The rule completes exactly if it finds what it expects. -/
theorem settled_returns_iff (pass : ConjugationPass)
    (past : List (Gate A)) :
    (∃ view,
        settled .h
            (guardedRule (conjugatedRule pass.middle pass.replacement))
            past =
          .ok view) ↔
      TriplesExpected pass past := by
  induction past with
  | nil =>
      refine ⟨fun _ => ?_, fun _ => ⟨[], rfl⟩⟩
      intro third second first earlier suffix
      simp at suffix
  | cons third past induction =>
      rw [triplesExpected_cons, ← induction, settled_cons_returns_iff]
      simp only [guardedRule_conjugated_decides_iff]
      constructor
      · rintro ⟨earlier, before, decided⟩
        refine ⟨⟨earlier, before⟩, fun visited => ?_⟩
        exact ((settled_leaves before).expected_iff _).mp
          (decided visited)
      · rintro ⟨⟨earlier, before⟩, expected⟩
        refine ⟨earlier, before, fun visited => ?_⟩
        exact ((settled_leaves before).expected_iff _).mpr
          (expected visited)

/-! ### Runs -/

/--
A run completes, replaces triples of plain gates on one qubit only and
preserves the unitary exactly if the walk always finds the triples it
expects, and on one qubit.
-/
theorem run_replaces_iff_triples_expected (pass : ConjugationPass)
    (stale : StaleRead) {block : Block A}
    (onVeq : VeqBlock interp veq block) :
    ((∃ result,
          (pass.rewriting.run stale (kernelOf block)).outcome =
              .ok (kernelOf result) ∧
            denote interp result = denote interp block) ∧
        ∀ edit ∈ (pass.rewriting.run stale (kernelOf block)).trace,
          ReplacesTriple interp pass edit) ↔
      ∀ index,
        TriplesExpected pass (recent interp.index index block) := by
  have follows := @replaceConjugated_follows A n interp veq pass
  have replaces (edit : Edit A) (recorded :
      edit ∈ (operationsOnQuantumKernel stale
        [replaceConjugated pass.middle pass.replacement]
        (kernelOf block)).trace) :
      ReplacesTriple interp pass edit ↔ Together edit.pairings :=
    replacesTriple_iff_together (follows.edits stale onVeq edit recorded)
  simp only [RewritingPass.run, pass.matchers_eq, ← settled_returns_iff]
  rw [← follows.returns_together_iff stale onVeq]
  constructor
  · rintro ⟨⟨result, returned, -⟩, triples⟩
    exact ⟨⟨result, returned⟩, fun edit recorded =>
      (replaces edit recorded).mp (triples edit recorded)⟩
  · rintro ⟨⟨result, returned⟩, together⟩
    rcases follows.denote_eq (conjugatedRule_scales pass)
      (hasMatrix_of_involutive involutiveH) rfl
      (fun first second => by rw [first, second, mul_one]) onVeq together
      returned with ⟨scalar, rfl, equal⟩
    rw [one_smul] at equal
    exact ⟨⟨result, returned, equal⟩, fun edit recorded =>
      (replaces edit recorded).mpr (together edit recorded)⟩

/-! ### Two overlapping patterns -/

/-- `H`, `X`, `H`, `X` and `H` on one qubit. -/
def overlapping : Block ℤ :=
  [(plainGate .h).op, (plainGate .x).op, (plainGate .h).op,
    (plainGate .x).op, (plainGate .h).op]

theorem overlapping_veqBlock :
    VeqBlock pairInterpretation (.veqAlloca 0 2) overlapping := by
  simp only [overlapping, veqBlock_cons]
  have gate (kind : GateKind) (noParameters : kind.numParameters = some 0) :
      VeqOperation pairInterpretation (.veqAlloca 0 2)
        (plainGate kind).op :=
    .gate _ (plainGate_single noParameters).onVeq
  exact ⟨gate .h rfl, gate .x rfl, gate .h rfl, gate .x rfl, gate .h rfl,
    by simp [VeqBlock]⟩

/-- The criterion at the overlapping patterns. -/
theorem overlapping_replaces_iff :
    ((∃ result,
          (ConjugationPass.HXHToZ.rewriting.run .stops
              (kernelOf overlapping)).outcome = .ok (kernelOf result) ∧
            denote pairInterpretation result =
              denote pairInterpretation overlapping) ∧
        ∀ edit ∈ (ConjugationPass.HXHToZ.rewriting.run .stops
            (kernelOf overlapping)).trace,
          ReplacesTriple pairInterpretation .HXHToZ edit) ↔
      ∀ index,
        TriplesExpected .HXHToZ
          (recent pairInterpretation.index index overlapping) :=
  run_replaces_iff_triples_expected .HXHToZ .stops overlapping_veqBlock

/-- `HXHToZ` breaks on the gate it has created itself. -/
theorem overlapping_breaks :
    VeqBlock pairInterpretation (.veqAlloca 0 2) overlapping ∧
      (ConjugationPass.HXHToZ.rewriting.run .stops
          (kernelOf overlapping)).outcome = .error .failedCast :=
  ⟨overlapping_veqBlock, rfl⟩

/-! ## A phase gate before a `Z` gate -/

/-- The gate that replaces a phase gate and a `Z` gate. -/
def fusedPhase (adjoint : Bool) (phaseGate : Gate A) : Gate A :=
  Gate.create .s (!adjoint) phaseGate.parameters phaseGate.controls
    phaseGate.targets

/-- The rule of `SZToSAdj` and, with the flag, of `SAdjZToS`. -/
def phaseRule (adjoint : Bool) : WireRule A
  | [], _ => .ok none
  | phaseGate :: _, _ =>
      if IsPlain .s phaseGate ∧ phaseGate.isAdj = adjoint then
        .ok (some ⟨1, [fusedPhase adjoint phaseGate]⟩)
      else .ok none

theorem phaseRule_decides (adjoint : Bool) (view : List (Gate A))
    (gate : Gate A) : Decides (phaseRule adjoint view gate) := by
  rcases view with _ | ⟨phaseGate, earlier⟩
  · exact ⟨_, rfl⟩
  · exact .ite ⟨_, rfl⟩ ⟨_, rfl⟩

theorem phaseRule_eq_some {adjoint : Bool} {view : List (Gate A)}
    {gate : Gate A} {exchange : Exchange A} :
    phaseRule adjoint view gate = .ok (some exchange) ↔
      ∃ phaseGate earlier, view = phaseGate :: earlier ∧
        IsPlain .s phaseGate ∧ phaseGate.isAdj = adjoint ∧
        exchange = ⟨1, [fusedPhase adjoint phaseGate]⟩ := by
  rcases view with _ | ⟨phaseGate, earlier⟩
  · simp [phaseRule]
  · rw [phaseRule]
    constructor
    · intro decided
      by_cases fuses : IsPlain .s phaseGate ∧ phaseGate.isAdj = adjoint
      · rw [if_pos fuses] at decided
        cases decided
        exact ⟨phaseGate, earlier, rfl, fuses.1, fuses.2, rfl⟩
      · rw [if_neg fuses] at decided
        cases decided
    · rintro ⟨_, _, ⟨⟩, isPlain, flag, rfl⟩
      rw [if_pos ⟨isPlain, flag⟩]

theorem phaseRule_local (adjoint : Bool) :
    LocalRule (phaseRule adjoint : WireRule A) where
  taken view gate exchange decided earlier member := by
    rcases phaseRule_eq_some.mp decided with
      ⟨phaseGate, others, rfl, isPlain, -, rfl⟩
    rw [List.mem_singleton.mp member, isPlain.1]
    exact ⟨rfl, isPlain⟩
  placed view gate exchange _ decided later member := by
    rcases phaseRule_eq_some.mp decided with
      ⟨phaseGate, others, rfl, -, -, rfl⟩
    rw [List.mem_singleton.mp member]
    exact ⟨phaseGate, List.mem_cons_of_mem _ List.mem_cons_self, rfl, rfl,
      .inr rfl, rfl⟩

/-- An uncontrolled phase gate with the flag. -/
def IsPhase (adjoint : Bool) (gate : Gate A) : Prop :=
  IsPlain .s gate ∧ gate.isAdj = adjoint

/-- The fused gate shows which phase gate was found. -/
theorem phaseRule_head (adjoint : Bool) :
    HeadRule (phaseRule adjoint : WireRule A) (IsPhase adjoint)
      fun phaseGate _ => [fusedPhase adjoint phaseGate] where
  takes phaseGate others gate isPhase := by
    rw [phaseRule]
    exact if_pos isPhase
  keeps view gate unsought := by
    rcases view with _ | ⟨phaseGate, others⟩
    · rfl
    · rw [phaseRule]
      exact if_neg (unsought phaseGate rfl)
  uncontrolled phaseGate isPhase :=
    List.eq_nil_of_length_eq_zero isPhase.1.2.1
  target first second gate _ _ same := by
    have fused := List.cons.inj same
    have targets := congrArg Gate.targets fused.1
    exact targets

theorem fusePhase_follows (adjoint : Bool) :
    Follows interp veq .z (phaseRule adjoint)
      (fusePhase adjoint : Matcher A) where
  noParameters := rfl
  skips before operation shape := withGate_of_none shape _
  agrees before gate wire beforeOnVeq isPlain single := by
    rw [fusePhase, withGate_op, if_pos isPlain, element_of_single single]
    refine withPrevious_recent beforeOnVeq single ?_ ?_
    · intro empty
      rw [empty]
      exact .keeps
    · intro found stops
      rw [stops.recent, stops.operation, withGate_op, phaseRule]
      by_cases isPhase : IsPlain .s found.gate
      · rw [if_pos isPhase]
        by_cases flag : found.gate.isAdj = adjoint
        · rw [if_pos ⟨isPhase, flag⟩, if_pos flag]
          refine .exchanges _ _ ?_ rfl ?_
          · rw [stops.recent]
            exact stops.erases (.nothing found.lower)
          · rw [stops.recent]
            rfl
        · rw [if_neg fun both => flag both.2, if_neg flag]
          exact .keeps
      · rw [if_neg isPhase, if_neg fun both => isPhase both.1]
        exact .keeps
  local_ := phaseRule_local adjoint

/-- A phase gate and `Z` make the inverse phase gate. -/
theorem gateMatrix_fusedPhase {adjoint : Bool} {phaseGate : Gate A}
    (isPhase : phaseGate.kind = .s) (flag : phaseGate.isAdj = adjoint) :
    gateMatrix (fusedPhase adjoint phaseGate) =
      pauliZ * gateMatrix phaseGate := by
  have before :
      gateMatrix phaseGate =
        withAdjoint adjoint (phaseShift (Real.pi / 2)) := by
    unfold gateMatrix
    rw [isPhase, flag]
    rfl
  have after :
      gateMatrix (fusedPhase adjoint phaseGate) =
        withAdjoint (!adjoint) (phaseShift (Real.pi / 2)) := rfl
  rw [before, after]
  cases adjoint <;>
    simp [withAdjoint, pauliZ, phaseShift, entries_mul,
      entries_conjTranspose, phase_pi_div_two]

theorem phaseRule_scales (adjoint : Bool) :
    Scales .z (phaseRule adjoint : WireRule A)
      (fun scalar => scalar = 1) := by
  intro view gate exchange isPlain decided
  rcases phaseRule_eq_some.mp decided with
    ⟨phaseGate, earlier, rfl, isPhase, flag, rfl⟩
  refine ⟨?_, ?_, 1, rfl, ?_⟩
  · intro other member
    rw [List.mem_singleton.mp member, isPhase.1]
    rfl
  · intro other member
    rw [List.mem_singleton.mp member]
    rfl
  · change gateMatrix _ * 1 =
      (1 : ℂ) • (gateMatrix gate * (gateMatrix phaseGate * 1))
    rw [mul_one, mul_one, one_smul,
      gateMatrix_of_involutive involutiveZ isPlain.1]
    exact gateMatrix_fusedPhase isPhase.1 flag

/-- `SZToSAdj` and, with the flag, `SAdjZToS`. -/
def phasePass : Bool → RewritingPass
  | false => .SZToSAdj
  | true => .SAdjZToS

theorem phasePass_matchers (adjoint : Bool) :
    ((phasePass adjoint).matchers : List (Matcher A)) =
      [fusePhase adjoint] := by
  cases adjoint <;> rfl

/--
At every visited `Z` gate a run of either pass fuses the previous gate on
the qubit with it if that is a plain phase gate with the flag, and does
nothing otherwise, it completes, and the unitary is preserved, in every step
and in the result.  This is so exactly if, at every visit, a plain phase
gate with the flag is the nearest with the index exactly if it is the nearest
on the qubit.
-/
theorem phasePass_preserves_denote_iff (adjoint : Bool) (stale : StaleRead)
    {block : Block A} (onVeq : VeqBlock interp veq block) :
    ((∀ cursor ∈ visitsOf (phasePass adjoint) stale (kernelOf block),
          ∀ currentOp, cursor.current = some currentOp →
            ActsOnQubit interp .z (phaseRule adjoint) cursor.before
              currentOp
              (decision (phasePass adjoint) cursor.before currentOp)) ∧
        (∀ edit ∈ ((phasePass adjoint).run stale (kernelOf block)).trace,
          denote interp edit.target = denote interp edit.source) ∧
        ∃ result,
          ((phasePass adjoint).run stale (kernelOf block)).outcome =
              .ok (kernelOf result) ∧
            denote interp result = denote interp block) ↔
      ∀ cursor ∈ visitsOf (phasePass adjoint) stale (kernelOf block),
        ∀ currentOp, cursor.current = some currentOp →
          IndexTells interp .z (IsPhase adjoint) cursor.before
            currentOp := by
  have follows := @fusePhase_follows A n interp veq adjoint
  have only := @phasePass_matchers A adjoint
  rw [← follows.visits_actOnQubit_iff (phaseRule_head adjoint) only stale
    onVeq]
  refine ⟨And.left, fun acts => ⟨acts, ?_⟩⟩
  have together := follows.edits_together only onVeq acts
  rw [RewritingPass.run, only] at together ⊢
  rcases follows.returns_of_total (phaseRule_decides adjoint) stale onVeq
    with ⟨result, returned⟩
  rcases follows.denote_eq (phaseRule_scales adjoint)
    (hasMatrix_of_involutive involutiveZ) rfl
    (fun first second => by rw [first, second, mul_one]) onVeq together
    returned with ⟨scalar, rfl, equal⟩
  rw [one_smul] at equal
  refine ⟨fun edit recorded => ?_, result, returned, equal⟩
  have exchanges := follows.edits stale onVeq edit recorded
  rcases exchanges.denote_eq (phaseRule_scales adjoint)
    (hasMatrix_of_involutive involutiveZ) (together edit recorded) with
    ⟨scalar, rfl, same⟩
  rw [same, one_smul]

/-- A phase gate and then a `Z` gate on one qubit. -/
def phaseBefore : Block ℤ :=
  [(plainGate .s).op, (plainGate .z).op]

theorem phaseBefore_veqBlock :
    VeqBlock pairInterpretation (.veqAlloca 0 2) phaseBefore := by
  simp only [phaseBefore, veqBlock_cons]
  exact ⟨.gate _ (plainGate_single rfl).onVeq,
    .gate _ (plainGate_single rfl).onVeq, by simp [VeqBlock]⟩

/-- The criterion at the two gates. -/
theorem phaseBefore_preserves_denote_iff :
    ((∀ cursor ∈ visitsOf (phasePass false) .stops (kernelOf phaseBefore),
          ∀ currentOp, cursor.current = some currentOp →
            ActsOnQubit pairInterpretation .z (phaseRule false)
              cursor.before currentOp
              (decision (phasePass false) cursor.before currentOp)) ∧
        (∀ edit ∈ ((phasePass false).run .stops
            (kernelOf phaseBefore)).trace,
          denote pairInterpretation edit.target =
            denote pairInterpretation edit.source) ∧
        ∃ result,
          ((phasePass false).run .stops (kernelOf phaseBefore)).outcome =
              .ok (kernelOf result) ∧
            denote pairInterpretation result =
              denote pairInterpretation phaseBefore) ↔
      ∀ cursor ∈ visitsOf (phasePass false) .stops (kernelOf phaseBefore),
        ∀ currentOp, cursor.current = some currentOp →
          IndexTells pairInterpretation .z (IsPhase false) cursor.before
            currentOp :=
  phasePass_preserves_denote_iff false .stops phaseBefore_veqBlock

/-- A phase gate on one qubit and a `Z` gate on another. -/
def phaseElsewhere : Block ℤ :=
  [(farGate .s 4294967296).op, (farGate .z 0).op]

/-- The inverse phase gate on the first of the two qubits. -/
def inversePhase : Gate ℤ :=
  Gate.create .s true [] [] [farWire 4294967296]

/-- The phase gate is found from the other qubit, and the `Z` is lost. -/
theorem phaseElsewhere_not_preserved :
    VeqBlock farInterpretation (.veqAlloca 0 4294967298) phaseElsewhere ∧
      ((phasePass false).run .stops (kernelOf phaseElsewhere)).outcome =
        .ok (kernelOf [inversePhase.op]) ∧
      denote farInterpretation [inversePhase.op] ≠
        denote farInterpretation phaseElsewhere := by
  have shift := @farGate_single .s rfl 4294967296
  have sign := @farGate_single .z rfl 0
  have inverse :
      Single farInterpretation (.veqAlloca 0 4294967298) 4294967296
        inversePhase :=
    ⟨rfl, rfl, shift.denotes, rfl, rfl⟩
  refine ⟨?_, rfl, ?_⟩
  · simp only [phaseElsewhere, veqBlock_cons]
    exact ⟨.gate _ shift.onVeq, .gate _ sign.onVeq,
      by simp [VeqBlock]⟩
  · intro equal
    have unit :
        IsUnit (gateOperator farInterpretation (farGate .s 4294967296)) :=
      gateOperator_isUnit farInterpretation shift.onVeq.distinctWires
    have shifts :
        gateOperator farInterpretation (farGate .s 4294967296) =
          on 4294967296 (gateMatrix (farGate .s 4294967296)) :=
      shift.gateOperator_eq rfl
    have signs :
        gateOperator farInterpretation (farGate .z 0) = on 0 pauliZ :=
      (sign.gateOperator_eq rfl).trans
        (congrArg _ (gateMatrix_of_involutive involutiveZ rfl))
    have apart : (4294967296 : Fin 4294967298) ≠ 0 := by decide
    simp only [phaseElsewhere, denote_cons, denote_nil, operator_op,
      one_mul, inverse.gateOperator_eq rfl, signs] at equal
    -- Both phase gates commute with a flip of the other qubit.
    have left := on_commute apart (gateMatrix inversePhase) pauliX
    have right :
        Commute (gateOperator farInterpretation (farGate .s 4294967296))
          (on 0 pauliX) := by
      rw [shifts]
      exact on_commute apart _ _
    have flipped := left.eq
    rw [equal, mul_assoc, right.eq, ← mul_assoc, ← mul_assoc]
      at flipped
    have commutes := unit.mul_right_cancel flipped
    rw [← map_mul, ← map_mul] at commutes
    have matrices := on_injective _ commutes
    rw [pauliZ, pauliX, entries_mul, entries_mul, entries_inj] at matrices
    norm_num at matrices

end MQSSPasses.Passes.Fusion

end
