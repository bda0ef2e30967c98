import MQSSPasses.Passes.Commutation
import MQSSPasses.Passes.WirePasses

/-!
# Switching Pauli and Hadamard gates

The passes built on `patternSwitch` look for a gate of one kind followed, on
the same qubit, by a gate of another kind, and put two gates with the same
product in their place.  They use the cast of the earlier gate without a
check, so they break where a gate of some other kind precedes the visited
one.  Which gate precedes it depends on what the walk has done before:
`Switched` tells which gates the walk has already replaced.

`SwitchPauliH` checks the kind of the earlier gate and never breaks.  Like
all these passes it reads the index of a qubit as an `int`, and it finds the
gates on other qubits with the same index.
-/

noncomputable section

namespace MQSSPasses.Passes.Switching

open MQSSPasses.General.IntConversion
open MQSSPasses.General.TracedComputation
open MQSSPasses.General.OperationTree
open MQSSPasses.General.QubitOperators
open MQSSPasses.General.GateMatrices
open MQSSPasses.Quake.Syntax
open MQSSPasses.Quake.Operations
open MQSSPasses.Quake.Semantics
open MQSSPasses.Quake.WireGates
open MQSSPasses.Passes.Rewriting
open MQSSPasses.Passes.Matchers
open MQSSPasses.Passes.Visits
open MQSSPasses.Passes.Cancellation
open MQSSPasses.Passes.Commutation
open MQSSPasses.Passes.WirePasses

variable {A : Type} {n : ℕ}
variable {interp : Interpretation A (Fin n)} {veq : QuantumValue}

/-- The matrix of a gate of an involutive kind, whatever its flag. -/
theorem gateMatrix_of_involutive {kind : GateKind}
    (involutive : Involutive kind) {gate : Gate A}
    (isKind : gate.kind = kind) :
    gateMatrix gate = involutive.matrix := by
  subst isKind
  simp only [gateMatrix, involutive.standard,
    withAdjoint_of_hermitian involutive.hermitian]

theorem hasMatrix_of_involutive {kind : GateKind}
    (involutive : Involutive kind) : HasMatrix kind :=
  Option.isSome_iff_exists.mpr ⟨_, involutive.standard⟩

/-! ## The passes built on `patternSwitch` -/

/-- The passes built on `patternSwitch`, by the gates they look for. -/
inductive SwitchPass where
  | XH
  | YH
  | ZH
  | HX
  | HY
  | HZ
  deriving DecidableEq, Repr

namespace SwitchPass

def rewriting : SwitchPass → RewritingPass
  | .XH => .SwitchXH
  | .YH => .SwitchYH
  | .ZH => .SwitchZH
  | .HX => .SwitchHX
  | .HY => .SwitchHY
  | .HZ => .SwitchHZ

/-- The kind of the earlier gate. -/
def T1 : SwitchPass → GateKind
  | .XH => .x
  | .YH => .y
  | .ZH => .z
  | .HX | .HY | .HZ => .h

/-- The kind of the visited gate. -/
def T2 : SwitchPass → GateKind
  | .XH | .YH | .ZH => .h
  | .HX => .x
  | .HY => .y
  | .HZ => .z

/-- The kind of the first gate that is created. -/
def T3 : SwitchPass → GateKind
  | .XH | .YH | .ZH => .h
  | .HX => .z
  | .HY => .y
  | .HZ => .x

/-- The kind of the second gate that is created. -/
def T4 : SwitchPass → GateKind
  | .XH => .z
  | .YH => .y
  | .ZH => .x
  | .HX | .HY | .HZ => .h

theorem matchers_eq (pass : SwitchPass) :
    (pass.rewriting.matchers : List (Matcher A)) =
      [patternSwitch pass.T1 pass.T2 pass.T3 pass.T4] := by
  cases pass <;> rfl

theorem T1_ne_T2 (pass : SwitchPass) : pass.T1 ≠ pass.T2 := by
  cases pass <;> decide

/-- The sign by which the switched product differs. -/
def sign : SwitchPass → ℂ
  | .YH | .HY => -1
  | .XH | .ZH | .HX | .HZ => 1

theorem norm_sign (pass : SwitchPass) : ‖pass.sign‖ = 1 := by
  cases pass <;> simp [sign]

/-- The two products agree up to the sign. -/
theorem product_eq (pass : SwitchPass) {first second third fourth : Gate A}
    (isFirst : first.kind = pass.T1) (isSecond : second.kind = pass.T2)
    (isThird : third.kind = pass.T3) (isFourth : fourth.kind = pass.T4) :
    gateMatrix fourth * gateMatrix third =
      pass.sign • (gateMatrix second * gateMatrix first) := by
  have x {gate : Gate A} (isX : gate.kind = .x) :=
    gateMatrix_of_involutive involutiveX isX
  have y {gate : Gate A} (isY : gate.kind = .y) :=
    gateMatrix_of_involutive involutiveY isY
  have z {gate : Gate A} (isZ : gate.kind = .z) :=
    gateMatrix_of_involutive involutiveZ isZ
  have h {gate : Gate A} (isH : gate.kind = .h) :=
    gateMatrix_of_involutive involutiveH isH
  cases pass with
  | XH =>
      rw [x isFirst, h isSecond, h isThird, z isFourth, sign, one_smul]
      exact hadamard_mul_pauliX.symm
  | YH =>
      rw [y isFirst, h isSecond, h isThird, y isFourth, sign, neg_smul,
        one_smul]
      exact pauliY_mul_hadamard
  | ZH =>
      rw [z isFirst, h isSecond, h isThird, x isFourth, sign, one_smul]
      exact hadamard_mul_pauliZ.symm
  | HX =>
      rw [h isFirst, x isSecond, z isThird, h isFourth, sign, one_smul]
      exact hadamard_mul_pauliZ
  | HY =>
      rw [h isFirst, y isSecond, y isThird, h isFourth, sign, neg_smul,
        one_smul, ← neg_eq_iff_eq_neg]
      exact pauliY_mul_hadamard.symm
  | HZ =>
      rw [h isFirst, z isSecond, x isThird, h isFourth, sign, one_smul]
      exact hadamard_mul_pauliX

theorem hasMatrix (pass : SwitchPass) :
    HasMatrix pass.T1 ∧ HasMatrix pass.T2 ∧ HasMatrix pass.T3 ∧
      HasMatrix pass.T4 := by
  cases pass <;> exact ⟨rfl, rfl, rfl, rfl⟩

theorem noParameters (pass : SwitchPass) :
    pass.T1.numParameters = some 0 ∧ pass.T2.numParameters = some 0 ∧
      pass.T3.numParameters = some 0 ∧ pass.T4.numParameters = some 0 := by
  cases pass <;> exact ⟨rfl, rfl, rfl, rfl⟩

end SwitchPass

/-! ### What a switch does on its qubit -/

/-- The gates a switch creates. -/
def switched (T3 T4 : GateKind) (first second : Gate A) : List (Gate A) :=
  [Gate.create T3 second.isAdj second.parameters second.controls
      second.targets,
    Gate.create T4 first.isAdj first.parameters first.controls
      first.targets]

/-- The rule of `patternSwitch`; the earlier gate is cast unchecked. -/
def switchRule (T1 T3 T4 : GateKind) : WireRule A
  | [], _ => .ok none
  | first :: _, second =>
      if first.kind = T1 then
        if first.controls.length = 0 ∧ first.targets.length = 1 then
          .ok (some ⟨1, switched T3 T4 first second⟩)
        else .ok none
      else .error .failedCast

theorem switchRule_eq_some {T1 T3 T4 : GateKind} {view : List (Gate A)}
    {second : Gate A} {exchange : Exchange A} :
    switchRule T1 T3 T4 view second = .ok (some exchange) ↔
      ∃ first earlier, view = first :: earlier ∧ IsPlain T1 first ∧
        exchange = ⟨1, switched T3 T4 first second⟩ := by
  constructor
  · intro decided
    rcases view with _ | ⟨first, earlier⟩
    · cases decided
    · rw [switchRule] at decided
      by_cases isKind : first.kind = T1
      · rw [if_pos isKind] at decided
        by_cases counts :
            first.controls.length = 0 ∧ first.targets.length = 1
        · rw [if_pos counts] at decided
          cases decided
          exact ⟨first, earlier, rfl, ⟨isKind, counts⟩, rfl⟩
        · rw [if_neg counts] at decided
          cases decided
      · rw [if_neg isKind] at decided
        cases decided
  · rintro ⟨first, earlier, rfl, ⟨isKind, counts⟩, rfl⟩
    rw [switchRule, if_pos isKind, if_pos counts]

theorem switchRule_decides_iff {T1 T3 T4 : GateKind}
    {view : List (Gate A)} {second : Gate A} :
    Decides (switchRule T1 T3 T4 view second) ↔
      ∀ first others, view = first :: others → first.kind = T1 := by
  rcases view with _ | ⟨first, others⟩
  · simp [switchRule, Decides]
  · by_cases isKind : first.kind = T1
    · rw [switchRule, if_pos isKind]
      constructor
      · rintro - _ _ ⟨⟩
        exact isKind
      · exact fun _ => .ite ⟨_, rfl⟩ ⟨_, rfl⟩
    · rw [switchRule, if_neg isKind]
      constructor
      · rintro ⟨_, ⟨⟩⟩
      · exact fun expected => absurd (expected first others rfl) isKind

theorem switchRule_local (pass : SwitchPass) :
    LocalRule (switchRule pass.T1 pass.T3 pass.T4 : WireRule A) where
  taken view second exchange decided earlier member := by
    rcases switchRule_eq_some.mp decided with
      ⟨first, others, rfl, isPlain, rfl⟩
    rw [List.mem_singleton.mp member, isPlain.1]
    exact ⟨pass.noParameters.1, isPlain⟩
  placed view second exchange _ decided later member := by
    rcases switchRule_eq_some.mp decided with
      ⟨first, others, rfl, isPlain, rfl⟩
    rcases List.mem_cons.mp member with rfl | last
    · exact ⟨second, List.mem_cons_self, rfl, rfl, .inr rfl,
        pass.noParameters.2.2.1⟩
    · rw [List.mem_singleton.mp last]
      exact ⟨first, List.mem_cons_of_mem _ List.mem_cons_self, rfl, rfl,
        .inr rfl, pass.noParameters.2.2.2⟩

theorem patternSwitch_follows (pass : SwitchPass) :
    Follows interp veq pass.T2 (switchRule pass.T1 pass.T3 pass.T4)
      (patternSwitch pass.T1 pass.T2 pass.T3 pass.T4 : Matcher A) where
  noParameters := pass.noParameters.2.1
  skips before operation shape := withGate_of_none shape _
  agrees before gate wire beforeOnVeq isPlain single := by
    rw [patternSwitch, withGate_op, if_pos isPlain,
      element_of_single single]
    refine withPrevious_recent beforeOnVeq single ?_ ?_
    · intro empty
      rw [empty]
      exact .keeps
    · intro found stops
      rw [stops.recent, switchRule, stops.operation, castGate_op]
      by_cases isKind : found.gate.kind = pass.T1
      · rw [if_pos isKind, if_pos isKind]
        by_cases counts :
            found.gate.controls.length = 0 ∧
              found.gate.targets.length = 1
        · rw [if_pos counts]
          simp only [bind, Except.bind, if_pos counts]
          refine .exchanges _ _ ?_ rfl ?_
          · rw [stops.recent]
            exact stops.erases (.nothing found.lower)
          · rw [stops.recent]
            rfl
        · rw [if_neg counts]
          simp only [bind, Except.bind, if_neg counts]
          exact .keeps
      · rw [if_neg isKind, if_neg isKind]
        exact .breaks _
  local_ := switchRule_local pass

theorem switchRule_scales (pass : SwitchPass) :
    Scales pass.T2
      (switchRule pass.T1 pass.T3 pass.T4 : WireRule A)
      (fun scalar => ‖scalar‖ = 1) := by
  intro view second exchange isPlain decided
  rcases switchRule_eq_some.mp decided with
    ⟨first, earlier, rfl, firstPlain, rfl⟩
  refine ⟨?_, ?_, pass.sign, pass.norm_sign, ?_⟩
  · intro other member
    rw [List.mem_singleton.mp member, firstPlain.1]
    exact pass.hasMatrix.1
  · intro other member
    rcases List.mem_cons.mp member with rfl | last
    · exact pass.hasMatrix.2.2.1
    · rw [List.mem_singleton.mp last]
      exact pass.hasMatrix.2.2.2
  · change gateMatrix _ * (gateMatrix _ * 1) =
      pass.sign • (gateMatrix second * (gateMatrix first * 1))
    rw [mul_one, mul_one]
    exact pass.product_eq firstPlain.1 isPlain.1 rfl rfl

/-- An edit that switches a plain gate with the visited one. -/
structure SwitchesAt (interp : Interpretation A (Fin n))
    (pass : SwitchPass) (edit : Edit A) (wire : Fin n)
    (first second : Gate A) (before after rest : Block A) : Prop where
  paired : pairedGates edit.pairings = [(second, first)]
  firstPlain : IsPlain pass.T1 first
  secondPlain : IsPlain pass.T2 second
  names :
    Names interp.qubit wire first ∧ Names interp.qubit wire second
  erases : Erases interp.qubit wire [first] before after
  source : edit.source = before ++ second.op :: rest
  target :
    edit.target =
      after ++ (switched pass.T3 pass.T4 first second).map Gate.op ++ rest

def IsSwitch (interp : Interpretation A (Fin n)) (pass : SwitchPass)
    (edit : Edit A) : Prop :=
  ∃ wire first second before after rest,
    SwitchesAt interp pass edit wire first second before after rest

/-- An exchange is a switch exactly if its two gates are on one qubit. -/
theorem isSwitch_iff_together {pass : SwitchPass} {edit : Edit A}
    (exchanges :
      Exchanges interp veq pass.T2 (switchRule pass.T1 pass.T3 pass.T4)
        edit.pairings edit.source edit.target) :
    IsSwitch interp pass edit ↔ Together edit.pairings := by
  generalize sourceEq : edit.source = source at exchanges
  generalize targetEq : edit.target = target at exchanges
  rcases exchanges with @⟨before, after, second, wire, exchange, rest, -,
    isPlain, single, decided, erases, taken, -, paired⟩
  rcases switchRule_eq_some.mp decided with
    ⟨first, earlier, view, firstPlain, rfl⟩
  rw [view] at erases taken paired
  rcases taken first List.mem_cons_self with
    ⟨place, samePlace, firstSingle⟩
  have gates : pairedGates edit.pairings = [(second, first)] := paired
  rw [together_iff paired]
  constructor
  · rintro ⟨other, otherFirst, otherSecond, _, _, _, switches⟩
    rw [switches.paired] at gates
    cases gates
    have firstWire := firstSingle.names_iff.mp switches.names.1
    have secondWire := single.names_iff.mp switches.names.2
    intro gate member
    rw [List.mem_singleton.mp member]
    exact (firstSingle.targets_eq_iff single).mpr
      (firstWire.symm.trans secondWire)
  · intro same
    have targets := same first List.mem_cons_self
    have onWire := (firstSingle.targets_eq_iff single).mp targets
    subst onWire
    exact ⟨place, first, second, before, after, rest,
      { paired := gates
        firstPlain := firstPlain
        secondPlain := isPlain
        names :=
          ⟨firstSingle.names_iff.mpr rfl, single.names_iff.mpr rfl⟩
        erases := erases.onQubit
        source := sourceEq
        target := targetEq }⟩

/-! ### Which gate the walk finds before the visited one -/

/--
The last of the gates, which stand here with the last one first, takes part
in a switch: it is the visited gate, and it follows either a gate to switch
it with or the second gate of another switch.
-/
def Switched (pass : SwitchPass) : List (Gate A) → Prop
  | [] => False
  | second :: past =>
      IsPlain pass.T2 second ∧
        ((∃ first earlier, past = first :: earlier ∧
            IsPlain pass.T1 first) ∨
          pass.T4 = pass.T1 ∧ Switched pass past)

/--
Before every visited gate the walk finds a gate of the expected kind: the
preceding gate has this kind, or what has replaced it has.  If the visited
gate takes part in a switch, the preceding gate has the same target.
-/
def AlwaysExpected (pass : SwitchPass) (past : List (Gate A)) : Prop :=
  ∀ second first earlier, second :: first :: earlier <:+ past →
    IsPlain pass.T2 second →
      (first.kind = pass.T1 ∨
          pass.T4 = pass.T1 ∧ Switched pass (first :: earlier)) ∧
        (Switched pass (second :: first :: earlier) →
          first.targets = second.targets)

theorem alwaysExpected_cons {pass : SwitchPass} {second : Gate A}
    {past : List (Gate A)} :
    AlwaysExpected pass (second :: past) ↔
      AlwaysExpected pass past ∧
        ∀ first earlier, past = first :: earlier →
          IsPlain pass.T2 second →
            (first.kind = pass.T1 ∨
                pass.T4 = pass.T1 ∧ Switched pass past) ∧
              (Switched pass (second :: past) →
                first.targets = second.targets) := by
  constructor
  · intro expected
    refine ⟨?_, ?_⟩
    · intro other first earlier suffix
      exact expected other first earlier
        (suffix.trans (List.suffix_cons second past))
    · rintro first earlier rfl
      exact expected second first earlier List.suffix_rfl
  · rintro ⟨expected, last⟩ other first earlier suffix
    rcases List.suffix_cons_iff.mp suffix with equal | within
    · cases equal
      exact last first earlier rfl
    · exact expected other first earlier within

/-- The gate the walk finds behind the given gates. -/
structure Finds (pass : SwitchPass) (past view : List (Gate A)) :
    Prop where
  nothing : past = [] → view = []
  switched :
    Switched pass past → ∃ last others, view = last :: others ∧
      IsPlain pass.T4 last ∧
      ∀ gate earlier, past = gate :: earlier → last.targets = gate.targets
  unswitched :
    ∀ last earlier, past = last :: earlier → ¬ Switched pass past →
      ∃ others, view = last :: others

theorem Finds.empty {pass : SwitchPass} {past : List (Gate A)}
    (finds : Finds pass past []) : past = [] := by
  rcases past with _ | ⟨last, earlier⟩
  · rfl
  · by_cases isSwitched : Switched pass (last :: earlier)
    · rcases finds.switched isSwitched with ⟨_, _, equal, -⟩
      cases equal
    · rcases finds.unswitched last earlier rfl isSwitched with ⟨_, equal⟩
      cases equal

section Found

variable {pass : SwitchPass} {past others : List (Gate A)}
variable {first second : Gate A}

/-- A visited gate takes part in a switch if the found gate is the other. -/
theorem Finds.switched_cons_iff
    (finds : Finds pass past (first :: others))
    (visited : IsPlain pass.T2 second) :
    Switched pass (second :: past) ↔ IsPlain pass.T1 first := by
  rw [Switched, and_iff_right visited]
  constructor
  · rintro (⟨gate, earlier, rfl, isFirst⟩ | ⟨same, again⟩)
    · have fresh : ¬ Switched pass (gate :: earlier) :=
        fun again => pass.T1_ne_T2 (isFirst.1.symm.trans again.1.1)
      rcases finds.unswitched gate earlier rfl fresh with ⟨_, equal⟩
      cases equal
      exact isFirst
    · rcases finds.switched again with ⟨last, _, equal, isLast, -⟩
      cases equal
      rw [← same]
      exact isLast
  · intro isFirst
    by_cases again : Switched pass past
    · rcases finds.switched again with ⟨last, _, equal, isLast, -⟩
      cases equal
      exact .inr ⟨isLast.1.symm.trans isFirst.1, again⟩
    · rcases past with _ | ⟨gate, earlier⟩
      · cases finds.nothing rfl
      · rcases finds.unswitched gate earlier rfl again with ⟨_, equal⟩
        cases equal
        exact .inl ⟨_, earlier, rfl, isFirst⟩

/-- The found gate has the expected kind exactly if it was expected. -/
theorem Finds.expected_iff (finds : Finds pass past (first :: others)) :
    first.kind = pass.T1 ↔
      ∀ gate earlier, past = gate :: earlier →
        gate.kind = pass.T1 ∨ pass.T4 = pass.T1 ∧ Switched pass past := by
  constructor
  · rintro isKind gate earlier rfl
    by_cases again : Switched pass (gate :: earlier)
    · rcases finds.switched again with ⟨last, _, equal, isLast, -⟩
      cases equal
      exact .inr ⟨isLast.1.symm.trans isKind, again⟩
    · rcases finds.unswitched gate earlier rfl again with ⟨_, equal⟩
      cases equal
      exact .inl isKind
  · intro expected
    rcases past with _ | ⟨gate, earlier⟩
    · cases finds.nothing rfl
    · by_cases again : Switched pass (gate :: earlier)
      · rcases finds.switched again with ⟨last, _, equal, isLast, -⟩
        cases equal
        rcases expected gate earlier rfl with isKind | ⟨same, -⟩
        · exact absurd (isKind.symm.trans again.1.1) pass.T1_ne_T2
        · exact isLast.1.trans same
      · rcases finds.unswitched gate earlier rfl again with ⟨_, equal⟩
        cases equal
        rcases expected _ earlier rfl with isKind | ⟨-, switched⟩
        · exact isKind
        · exact absurd switched again

/-- The found gate has the target of the last gate of the past. -/
theorem Finds.targets_eq (finds : Finds pass past (first :: others))
    {gate : Gate A} {earlier : List (Gate A)}
    (split : past = gate :: earlier) : first.targets = gate.targets := by
  by_cases again : Switched pass past
  · rcases finds.switched again with ⟨last, _, equal, -, same⟩
    cases equal
    exact same gate earlier split
  · rcases finds.unswitched gate earlier split again with ⟨_, equal⟩
    cases equal
    rfl

end Found

/-- The view the rule of a pass leaves behind, and what is found in it. -/
theorem settled_finds {pass : SwitchPass} {past view : List (Gate A)}
    (returned :
      settled pass.T2
          (guardedRule (switchRule pass.T1 pass.T3 pass.T4)) past =
        .ok view) :
    Finds pass past view := by
  induction past generalizing view with
  | nil =>
      cases returned
      exact
        { nothing := fun _ => rfl
          switched := fun isSwitched => isSwitched.elim
          unswitched := fun _ _ equal => by cases equal }
  | cons second past induction =>
      rcases settled_cons_eq_ok.mp returned with
        ⟨earlier, before, stepped⟩
      have finds := induction before
      have stays (equal : view = second :: earlier)
          (fresh : ¬ Switched pass (second :: past)) :
          Finds pass (second :: past) view :=
        { nothing := fun equal => by cases equal
          switched := fun isSwitched => absurd isSwitched fresh
          unswitched := by
            rintro _ _ ⟨⟩ -
            exact ⟨earlier, equal⟩ }
      by_cases visited : IsPlain pass.T2 second
      · rcases (wireStep_eq_ok visited).mp stepped with
          ⟨decided, equal⟩ | ⟨exchange, decided, equal⟩
        · rw [guardedRule_eq_none] at decided
          apply stays equal
          rcases earlier with _ | ⟨first, others⟩
          · rw [finds.empty]
            rintro ⟨-, ⟨_, _, equal, -⟩ | ⟨-, again⟩⟩
            · cases equal
            · exact again
          · rw [finds.switched_cons_iff visited]
            rintro ⟨isKind, counts⟩
            rw [switchRule, if_pos isKind, if_pos counts] at decided
            cases decided
        · rcases guardedRule_eq_some.mp decided with ⟨decided, same⟩
          rcases switchRule_eq_some.mp decided with
            ⟨first, others, rfl, isFirst, rfl⟩
          have isSwitched :=
            (finds.switched_cons_iff visited).mpr isFirst
          have targets := same first List.mem_cons_self
          refine
            { nothing := fun equal => by cases equal
              switched := fun _ => ⟨_, _, equal, ⟨rfl, isFirst.2⟩, ?_⟩
              unswitched := fun _ _ _ fresh =>
                absurd isSwitched fresh }
          rintro _ _ ⟨⟩
          exact targets
      · rw [wireStep_of_not_plain visited, Except.ok.injEq] at stepped
        exact stays stepped.symm fun isSwitched => visited isSwitched.1

/-- What is said of a visited gate, about the found gate and the past. -/
theorem Finds.decides_iff {pass : SwitchPass}
    {past view : List (Gate A)} (finds : Finds pass past view)
    {second : Gate A} (visited : IsPlain pass.T2 second) :
    Decides
        (guardedRule (switchRule pass.T1 pass.T3 pass.T4) view second) ↔
      ∀ gate others, past = gate :: others →
        (gate.kind = pass.T1 ∨
            pass.T4 = pass.T1 ∧ Switched pass past) ∧
          (Switched pass (second :: past) →
            gate.targets = second.targets) := by
  rw [guardedRule_decides_iff, switchRule_decides_iff]
  simp only [switchRule_eq_some]
  rcases view with _ | ⟨first, rest⟩
  · simp [finds.empty]
  · have expected := finds.expected_iff
    have isSwitched := finds.switched_cons_iff visited
    constructor
    · rintro ⟨kinds, targets⟩ gate others split
      refine ⟨expected.mp (kinds first rest rfl) gate others split, ?_⟩
      intro taking
      have isFirst := isSwitched.mp taking
      rw [← finds.targets_eq split]
      exact targets _ ⟨first, rest, rfl, isFirst, rfl⟩ first
        List.mem_cons_self
    · intro all
      refine ⟨?_, ?_⟩
      · rintro _ _ ⟨⟩
        exact expected.mpr fun gate others split =>
          (all gate others split).1
      · rintro _ ⟨_, _, ⟨⟩, isFirst, rfl⟩ earlier member
        rw [List.mem_singleton.mp member]
        rcases past with _ | ⟨gate, others⟩
        · cases finds.nothing rfl
        · rw [finds.targets_eq rfl]
          exact (all gate others rfl).2 (isSwitched.mpr isFirst)

/-- The rule of a pass completes exactly if it finds what it expects. -/
theorem settled_returns_iff (pass : SwitchPass) (past : List (Gate A)) :
    (∃ view,
        settled pass.T2
            (guardedRule (switchRule pass.T1 pass.T3 pass.T4)) past =
          .ok view) ↔
      AlwaysExpected pass past := by
  induction past with
  | nil =>
      refine ⟨fun _ => ?_, fun _ => ⟨[], rfl⟩⟩
      intro second first earlier suffix
      simp at suffix
  | cons second past induction =>
      rw [alwaysExpected_cons, ← induction, settled_cons_returns_iff]
      constructor
      · rintro ⟨earlier, before, decided⟩
        refine ⟨⟨earlier, before⟩, fun gate others equal visited => ?_⟩
        exact ((settled_finds before).decides_iff visited).mp
          (decided visited) gate others equal
      · rintro ⟨⟨earlier, before⟩, expected⟩
        refine ⟨earlier, before, fun visited => ?_⟩
        exact ((settled_finds before).decides_iff visited).mpr
          fun gate others equal => expected gate others equal visited

/-! ### Runs -/

/--
A run completes and switches plain gates of one qubit only, with the unitary
preserved up to a phase, exactly if the walk always finds a gate of the
expected kind, and a gate to switch with on the same qubit.
-/
theorem run_switches_iff_always_expected (pass : SwitchPass)
    (stale : StaleRead) {block : Block A}
    (onVeq : VeqBlock interp veq block) :
    ((∃ result,
          (pass.rewriting.run stale (kernelOf block)).outcome =
              .ok (kernelOf result) ∧
            EqualUpToPhase (denote interp result) (denote interp block)) ∧
        ∀ edit ∈ (pass.rewriting.run stale (kernelOf block)).trace,
          IsSwitch interp pass edit) ↔
      ∀ index,
        AlwaysExpected pass (recent interp.index index block) := by
  have follows := @patternSwitch_follows A n interp veq pass
  have switch (edit : Edit A) (recorded :
      edit ∈ (operationsOnQuantumKernel stale
        [patternSwitch pass.T1 pass.T2 pass.T3 pass.T4]
        (kernelOf block)).trace) :
      IsSwitch interp pass edit ↔ Together edit.pairings :=
    isSwitch_iff_together (follows.edits stale onVeq edit recorded)
  simp only [RewritingPass.run, pass.matchers_eq, ← settled_returns_iff]
  rw [← follows.returns_together_iff stale onVeq]
  constructor
  · rintro ⟨⟨result, returned, -⟩, switches⟩
    exact ⟨⟨result, returned⟩, fun edit recorded =>
      (switch edit recorded).mp (switches edit recorded)⟩
  · rintro ⟨⟨result, returned⟩, together⟩
    have equal :=
      follows.denote_eq (switchRule_scales pass) pass.hasMatrix.2.1
        (by simp) (fun first second => by simp [first, second]) onVeq
        together returned
    exact ⟨⟨result, returned, equal⟩, fun edit recorded =>
      (switch edit recorded).mpr (together edit recorded)⟩

/-! ### A gate of another kind before the visited one -/

/-- A plain gate on the first qubit of a register of size two. -/
def plainGate (kind : GateKind) : Gate ℤ :=
  Gate.create kind false [] [] [wire 0]

theorem plainGate_single {kind : GateKind}
    (noParameters : kind.numParameters = some 0) :
    Single pairInterpretation (.veqAlloca 0 2) 0 (plainGate kind) where
  controls := rfl
  targets := rfl
  denotes := rfl
  parameters := rfl
  kind := noParameters

/-- A `Y` gate and then a Hadamard gate on one qubit. -/
def flippedBefore : Block ℤ :=
  [(plainGate .y).op, (plainGate .h).op]

theorem flippedBefore_veqBlock :
    VeqBlock pairInterpretation (.veqAlloca 0 2) flippedBefore := by
  simp only [flippedBefore, veqBlock_cons]
  exact ⟨.gate _ (plainGate_single rfl).onVeq,
    .gate _ (plainGate_single rfl).onVeq, by simp [VeqBlock]⟩

/-- The criterion at a `Y` gate before a Hadamard gate. -/
theorem flippedBefore_switches_iff :
    ((∃ result,
          (SwitchPass.XH.rewriting.run .stops
              (kernelOf flippedBefore)).outcome =
              .ok (kernelOf result) ∧
            EqualUpToPhase (denote pairInterpretation result)
              (denote pairInterpretation flippedBefore)) ∧
        ∀ edit ∈ (SwitchPass.XH.rewriting.run .stops
            (kernelOf flippedBefore)).trace,
          IsSwitch pairInterpretation .XH edit) ↔
      ∀ index,
        AlwaysExpected .XH
          (recent pairInterpretation.index index flippedBefore) :=
  run_switches_iff_always_expected .XH .stops flippedBefore_veqBlock

/-- `SwitchXH` breaks on the result of the failed cast. -/
theorem flippedBefore_breaks :
    VeqBlock pairInterpretation (.veqAlloca 0 2) flippedBefore ∧
      (SwitchPass.XH.rewriting.run .stops
          (kernelOf flippedBefore)).outcome = .error .failedCast :=
  ⟨flippedBefore_veqBlock, rfl⟩

/-! ## `SwitchPauliH` -/

/-- The gate that a plain Pauli gate becomes behind a Hadamard gate. -/
def conjugatedPauli (pauli : Gate A) : Option (Gate A) :=
  match switchedPauli pauli.kind with
  | none => none
  | some kind =>
      if pauli.controls.length = 0 ∧ pauli.targets.length = 1 then
        some
          (Gate.create kind pauli.isAdj pauli.parameters pauli.controls
            pauli.targets)
      else none

/-- The rule of `SwitchPauliH`. -/
def pauliRule : WireRule A
  | [], _ => .ok none
  | pauli :: _, hadamard =>
      .ok ((conjugatedPauli pauli).map fun moved =>
        ⟨1, [hadamard, moved]⟩)

theorem pauliRule_decides (view : List (Gate A)) (gate : Gate A) :
    Decides (pauliRule view gate) := by
  rcases view with _ | ⟨pauli, earlier⟩ <;> exact ⟨_, rfl⟩

/-- The Pauli gates switch as in the passes that look for one of them. -/
theorem exists_pass_of_conjugatedPauli {pauli moved : Gate A}
    (conjugated : conjugatedPauli pauli = some moved) :
    ∃ pass : SwitchPass, IsPlain pass.T1 pauli ∧ pass.T2 = .h ∧
      pass.T3 = .h ∧
      moved =
        Gate.create pass.T4 pauli.isAdj pauli.parameters pauli.controls
          pauli.targets := by
  unfold conjugatedPauli at conjugated
  cases switched : switchedPauli pauli.kind with
  | none => simp [switched] at conjugated
  | some kind =>
      simp only [switched, Option.ite_none_right_eq_some,
        Option.some.injEq] at conjugated
      rcases conjugated with ⟨counts, rfl⟩
      unfold switchedPauli at switched
      split at switched <;> cases switched
      next isX => exact ⟨.XH, ⟨isX, counts⟩, rfl, rfl, rfl⟩
      next isY => exact ⟨.YH, ⟨isY, counts⟩, rfl, rfl, rfl⟩
      next isZ => exact ⟨.ZH, ⟨isZ, counts⟩, rfl, rfl, rfl⟩

theorem pauliRule_eq_some {view : List (Gate A)} {hadamard : Gate A}
    {exchange : Exchange A} :
    pauliRule view hadamard = .ok (some exchange) ↔
      ∃ pauli earlier moved, view = pauli :: earlier ∧
        conjugatedPauli pauli = some moved ∧
        exchange = ⟨1, [hadamard, moved]⟩ := by
  rcases view with _ | ⟨pauli, earlier⟩
  · simp [pauliRule]
  · rw [pauliRule, Except.ok.injEq, Option.map_eq_some_iff]
    constructor
    · rintro ⟨moved, conjugated, rfl⟩
      exact ⟨pauli, earlier, moved, rfl, conjugated, rfl⟩
    · rintro ⟨_, _, moved, ⟨⟩, conjugated, rfl⟩
      exact ⟨moved, conjugated, rfl⟩

/-- A Pauli gate and the gate it becomes. -/
theorem conjugatedPauli_spec {pauli moved : Gate A}
    (conjugated : conjugatedPauli pauli = some moved) :
    (pauli.kind.numParameters = some 0 ∧ IsPlain pauli.kind pauli) ∧
      StandsFor moved pauli := by
  rcases exists_pass_of_conjugatedPauli conjugated with
    ⟨pass, plain, -, -, rfl⟩
  refine ⟨?_, rfl, rfl, .inr rfl, pass.noParameters.2.2.2⟩
  rw [plain.1]
  exact ⟨pass.noParameters.1, plain⟩

theorem pauliRule_local : LocalRule (pauliRule : WireRule A) where
  taken view hadamard exchange decided earlier member := by
    rcases pauliRule_eq_some.mp decided with
      ⟨pauli, others, moved, rfl, conjugated, rfl⟩
    rw [List.mem_singleton.mp member]
    exact (conjugatedPauli_spec conjugated).1
  placed view hadamard exchange noParameters decided later member := by
    rcases pauliRule_eq_some.mp decided with
      ⟨pauli, others, moved, rfl, conjugated, rfl⟩
    rcases List.mem_cons.mp member with rfl | last
    · exact ⟨_, List.mem_cons_self, rfl, rfl, .inr rfl, noParameters⟩
    · rw [List.mem_singleton.mp last]
      exact ⟨pauli, List.mem_cons_of_mem _ List.mem_cons_self,
        (conjugatedPauli_spec conjugated).2⟩

/-- An uncontrolled Pauli gate. -/
def IsPauli (gate : Gate A) : Prop :=
  ∃ kind ∈ [GateKind.x, .y, .z], IsPlain kind gate

theorem isPauli_iff {pauli : Gate A} :
    IsPauli pauli ↔ ∃ moved, conjugatedPauli pauli = some moved := by
  constructor
  · rintro ⟨kind, isPauli, isKind, counts⟩
    simp only [List.mem_cons, List.not_mem_nil, or_false] at isPauli
    rcases isPauli with rfl | rfl | rfl
    all_goals
      rw [conjugatedPauli, isKind]
      exact ⟨_, if_pos counts⟩
  · rintro ⟨moved, conjugated⟩
    rcases exists_pass_of_conjugatedPauli conjugated with
      ⟨pass, plain, behind, -, -⟩
    refine ⟨pass.T1, ?_, plain⟩
    cases pass <;> first | decide | cases behind

/-- The gates created in the place of a Pauli and a Hadamard gate. -/
def movedBehind (pauli hadamard : Gate A) : List (Gate A) :=
  hadamard :: (conjugatedPauli pauli).toList

/-- The moved gate shows which gate was found. -/
theorem pauliRule_head :
    HeadRule (pauliRule : WireRule A) IsPauli movedBehind where
  takes pauli others hadamard isPauli := by
    rcases isPauli_iff.mp isPauli with ⟨moved, conjugated⟩
    rw [pauliRule, movedBehind, conjugated]
    rfl
  keeps view hadamard unsought := by
    rcases view with _ | ⟨pauli, others⟩
    · rfl
    · rw [pauliRule]
      cases conjugated : conjugatedPauli pauli with
      | none => rfl
      | some moved =>
          exact absurd (isPauli_iff.mpr ⟨moved, conjugated⟩)
            (unsought pauli rfl)
  uncontrolled pauli isPauli := by
    rcases isPauli with ⟨kind, -, plain⟩
    exact List.eq_nil_of_length_eq_zero plain.2.1
  target first second hadamard isPauli otherPauli same := by
    rcases isPauli_iff.mp isPauli with ⟨moved, conjugated⟩
    rcases isPauli_iff.mp otherPauli with ⟨other, otherConjugated⟩
    rw [movedBehind, movedBehind, conjugated, otherConjugated] at same
    cases same
    rw [← (conjugatedPauli_spec conjugated).2.targets,
      (conjugatedPauli_spec otherConjugated).2.targets]

theorem SwitchPauliHOperation_follows :
    Follows interp veq .h pauliRule
      (SwitchPauliHOperation : Matcher A) where
  noParameters := rfl
  skips before operation shape := withGate_of_none shape _
  agrees before gate wire beforeOnVeq isPlain single := by
    rw [SwitchPauliHOperation, withGate_op, if_pos isPlain,
      element_of_single single]
    refine withPrevious_recent beforeOnVeq single ?_ ?_
    · intro empty
      rw [empty]
      exact .keeps
    · intro found stops
      rw [stops.recent, pauliRule, conjugatedPauli]
      cases switchedPauli found.gate.kind with
      | none => exact .keeps
      | some kind =>
          by_cases counts :
              found.gate.controls.length = 0 ∧
                found.gate.targets.length = 1
          · simp only [if_pos counts]
            refine .exchanges _ _ ?_ rfl ?_
            · rw [stops.recent]
              exact stops.erases (.nothing found.lower)
            · rw [stops.recent]
              rfl
          · simp only [if_neg counts]
            exact .keeps
  local_ := pauliRule_local

theorem pauliRule_scales :
    Scales .h (pauliRule : WireRule A)
      (fun scalar => ‖scalar‖ = 1) := by
  intro view hadamard exchange isPlain decided
  rcases pauliRule_eq_some.mp decided with
    ⟨pauli, earlier, moved, rfl, conjugated, rfl⟩
  rcases exists_pass_of_conjugatedPauli conjugated with
    ⟨pass, pauliPlain, second, third, rfl⟩
  refine ⟨?_, ?_, pass.sign, pass.norm_sign, ?_⟩
  · intro other member
    rw [List.mem_singleton.mp member, pauliPlain.1]
    exact pass.hasMatrix.1
  · intro other member
    rcases List.mem_cons.mp member with rfl | last
    · rw [isPlain.1]
      exact hasMatrix_of_involutive involutiveH
    · rw [List.mem_singleton.mp last]
      exact pass.hasMatrix.2.2.2
  · change gateMatrix _ * (gateMatrix hadamard * 1) =
      pass.sign • (gateMatrix hadamard * (gateMatrix pauli * 1))
    rw [mul_one, mul_one]
    exact pass.product_eq pauliPlain.1 (isPlain.1.trans second.symm)
      (isPlain.1.trans third.symm) rfl

/-- A move takes out as many gates as it puts in. -/
theorem gateCount_of_moved {pairings : List (Pairing A)}
    {source target : Block A}
    (exchanges :
      Exchanges interp veq .h pauliRule pairings source target) :
    gateCount target = gateCount source := by
  rcases exchanges with @⟨before, after, hadamard, wire, exchange, rest, -,
    isPlain, single, decided, erases, -, -, -⟩
  rcases pauliRule_eq_some.mp decided with
    ⟨pauli, others, moved, view, -, rfl⟩
  have counted := erases.gateCount
  have one :
      (takenFrom (recent interp.index (intOf wire) before)
        ⟨1, [hadamard, moved]⟩).length = 1 := by
    rw [view]
    rfl
  rw [gateCount_append, gateCount_append, gateCount_append,
    gateCount_op_cons, gateCount_map_op, ← counted, one,
    List.length_cons, List.length_singleton]
  omega

/--
At every visited Hadamard gate a run of `SwitchPauliH` moves the previous
gate on the qubit behind it if that is a plain Pauli gate, and does nothing
otherwise, it completes, and the unitary is preserved up to a phase and the
number of gates unchanged.  This is so exactly if, at every visit, a plain
Pauli gate is the nearest with the index exactly if it is the nearest on the
qubit.
-/
theorem SwitchPauliH_moves_paulis_iff (stale : StaleRead)
    {block : Block A} (onVeq : VeqBlock interp veq block) :
    ((∀ cursor ∈ visitsOf .SwitchPauliH stale (kernelOf block),
          ∀ currentOp, cursor.current = some currentOp →
            ActsOnQubit interp .h pauliRule cursor.before currentOp
              (decision .SwitchPauliH cursor.before currentOp)) ∧
        ∃ result,
          (RewritingPass.SwitchPauliH.run stale
              (kernelOf block)).outcome = .ok (kernelOf result) ∧
            EqualUpToPhase (denote interp result) (denote interp block) ∧
            gateCount result = gateCount block) ↔
      ∀ cursor ∈ visitsOf .SwitchPauliH stale (kernelOf block),
        ∀ currentOp, cursor.current = some currentOp →
          IndexTells interp .h IsPauli cursor.before currentOp := by
  have follows := @SwitchPauliHOperation_follows A n interp veq
  rw [← follows.visits_actOnQubit_iff pauliRule_head rfl stale onVeq]
  refine ⟨And.left, fun acts => ⟨acts, ?_⟩⟩
  have together := follows.edits_together rfl onVeq acts
  rcases follows.returns_of_total pauliRule_decides stale onVeq with
    ⟨result, returned⟩
  have equal :=
    follows.denote_eq pauliRule_scales
      (hasMatrix_of_involutive involutiveH) (by simp)
      (fun first second => by simp [first, second]) onVeq together
      returned
  rcases operationsOnQuantumKernel_preserves gateCount
    (fun operation member => (onVeq operation member).flat)
    (fun edit recorded =>
      gateCount_of_moved (follows.edits stale onVeq edit recorded))
    _ returned with ⟨_, same, counted⟩
  cases same
  exact ⟨result, returned, equal, counted⟩

/-- The criterion at the `Y` gate before a Hadamard gate. -/
theorem flippedBefore_moves_paulis_iff :
    ((∀ cursor ∈ visitsOf .SwitchPauliH .stops (kernelOf flippedBefore),
          ∀ currentOp, cursor.current = some currentOp →
            ActsOnQubit pairInterpretation .h pauliRule cursor.before
              currentOp
              (decision .SwitchPauliH cursor.before currentOp)) ∧
        ∃ result,
          (RewritingPass.SwitchPauliH.run .stops
              (kernelOf flippedBefore)).outcome = .ok (kernelOf result) ∧
            EqualUpToPhase (denote pairInterpretation result)
              (denote pairInterpretation flippedBefore) ∧
            gateCount result = gateCount flippedBefore) ↔
      ∀ cursor ∈ visitsOf .SwitchPauliH .stops (kernelOf flippedBefore),
        ∀ currentOp, cursor.current = some currentOp →
          IndexTells pairInterpretation .h IsPauli cursor.before
            currentOp :=
  SwitchPauliH_moves_paulis_iff .stops flippedBefore_veqBlock

/-! ### Two qubits that are read as one index -/

/-- A plain gate on a qubit of a register too large for an `int`. -/
def farGate (kind : GateKind) (index : ℕ) : Gate ℤ :=
  Gate.create kind false [] [] [farWire index]

theorem farGate_single {kind : GateKind}
    (noParameters : kind.numParameters = some 0)
    (place : Fin 4294967298) :
    Single farInterpretation (.veqAlloca 0 4294967298) place
      (farGate kind place.val) where
  controls := rfl
  targets := rfl
  denotes := farInterpretation_wire place
  parameters := rfl
  kind := noParameters

/-- An `X` gate on one qubit and a Hadamard gate on another. -/
def flipElsewhere : Block ℤ :=
  [(farGate .x 4294967296).op, (farGate .h 0).op]

/-- The `X` gate is found from the other qubit, and turned into `Z`. -/
theorem flipElsewhere_not_preserved :
    VeqBlock farInterpretation (.veqAlloca 0 4294967298) flipElsewhere ∧
      (RewritingPass.SwitchPauliH.run .stops
          (kernelOf flipElsewhere)).outcome =
        .ok (kernelOf
          [(farGate .h 0).op, (farGate .z 4294967296).op]) ∧
      ¬ EqualUpToPhase
        (denote farInterpretation
          [(farGate .h 0).op, (farGate .z 4294967296).op])
        (denote farInterpretation flipElsewhere) := by
  have flip := @farGate_single .x rfl 4294967296
  have turn := @farGate_single .h rfl 0
  have shift := @farGate_single .z rfl 4294967296
  refine ⟨?_, rfl, ?_⟩
  · simp only [flipElsewhere, veqBlock_cons]
    exact ⟨.gate _ flip.onVeq, .gate _ turn.onVeq,
      by simp [VeqBlock]⟩
  · rintro ⟨scalar, -, equal⟩
    have flips :
        gateOperator farInterpretation (farGate .x 4294967296) =
          on 4294967296 pauliX :=
      (flip.gateOperator_eq rfl).trans
        (congrArg _ (gateMatrix_of_involutive involutiveX rfl))
    have turns :
        gateOperator farInterpretation (farGate .h 0) =
          on 0 hadamard :=
      (turn.gateOperator_eq rfl).trans
        (congrArg _ (gateMatrix_of_involutive involutiveH rfl))
    have shifts :
        gateOperator farInterpretation (farGate .z 4294967296) =
          on 4294967296 pauliZ :=
      (shift.gateOperator_eq rfl).trans
        (congrArg _ (gateMatrix_of_involutive involutiveZ rfl))
    have apart : (0 : Fin 4294967298) ≠ 4294967296 := by decide
    simp only [flipElsewhere, denote_cons, denote_nil, operator_op,
      one_mul, flips, turns, shifts] at equal
    rw [(on_commute apart _ _).eq, ← smul_mul_assoc] at equal
    have cancelled := congrArg (· * on 0 hadamard) equal
    simp only [mul_assoc, ← map_mul, hadamard_mul_self, map_one, mul_one]
      at cancelled
    rw [← map_smul] at cancelled
    have matrices := on_injective _ cancelled
    rw [pauliZ, pauliX, entries_smul, entries_inj, mul_zero] at matrices
    exact one_ne_zero matrices.1

end MQSSPasses.Passes.Switching

end
