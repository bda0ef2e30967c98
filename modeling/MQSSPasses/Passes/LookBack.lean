import MQSSPasses.Passes.Visits

/-!
# What the look-back overlooks

The passes bring two gates together because the look-back found the one
from the other.  Two questions decide whether this is a statement about
qubits: does anything between the two gates act on the qubit they share,
and are the compared operands the same qubit at all?

Both are answered for every run of every rewriting pass over every kernel,
with regions nested to any depth.  The answers are read off the visited gate
and the block before it, wherever the pass rewrites.  The look-back sees
only gates and only the indices of their operands, as an `int`.  What it can
miss is what acts on the qubit without being such a gate, a qubit of another
allocation, and a qubit whose index is congruent.
-/

namespace MQSSPasses.Passes.LookBack

open MQSSPasses.General.IntConversion
open MQSSPasses.General.OperationTree
open MQSSPasses.General.TracedComputation
open MQSSPasses.Quake.Syntax
open MQSSPasses.Quake.Operations
open MQSSPasses.Passes.Rewriting
open MQSSPasses.Passes.Matchers
open MQSSPasses.Passes.Visits

variable {A : Type}

/-! ## The block before a visited gate -/

/-- The number of gates of a block that name the index of an operand. -/
def namings (scanned : QuantumValue) (block : Block A) : ℕ :=
  block.countP fun operation => ¬ Hidden scanned operation

/--
An operation that names no operand with the index, with fewer than `depth`
gates behind it that do.
-/
def GonePast (scanned : QuantumValue) (depth : ℕ) (before : Block A)
    (operation : Op A) : Prop :=
  ∃ lower behind, before = lower ++ operation :: behind ∧
    Hidden scanned operation ∧ namings scanned behind < depth

/-- One of the `depth` nearest gates that name the index of an operand. -/
def NearestGate (scanned : QuantumValue) (depth : ℕ) (before : Block A)
    (gate : Gate A) : Prop :=
  ∃ lower operation behind, before = lower ++ operation :: behind ∧
    asOperator operation = some gate ∧ ¬ Hidden scanned operation ∧
      namings scanned behind < depth

theorem not_gonePast_zero {scanned : QuantumValue} {before : Block A}
    {operation : Op A} : ¬ GonePast scanned 0 before operation := by
  rintro ⟨lower, behind, -, -, few⟩
  exact Nat.not_lt_zero _ few

theorem not_nearestGate_zero {scanned : QuantumValue} {before : Block A}
    {gate : Gate A} : ¬ NearestGate scanned 0 before gate := by
  rintro ⟨lower, operation, behind, -, -, -, few⟩
  exact Nat.not_lt_zero _ few

section Found

variable {before : Block A} {scanned : QuantumValue} {found : Found A}

theorem namings_between (correct : found.Correct before scanned) :
    namings scanned found.between = 0 := by
  rw [namings, List.countP_eq_zero]
  intro operation member
  simpa using correct.passed operation member

/-- What stands behind an operation below the found gate holds that gate. -/
theorem namings_behind (correct : found.Correct before scanned)
    (behind : Block A) :
    namings scanned (behind ++ found.operation :: found.between) =
      namings scanned behind + 1 := by
  have none := namings_between correct
  rw [namings] at none ⊢
  rw [List.countP_append, List.countP_cons, none,
    if_pos (by simpa using correct.not_hidden), namings]

/-- Where an operation of the block can stand. -/
theorem split_at_found {lower behind : Block A} {operation : Op A}
    (correct : found.Correct before scanned)
    (split : before = lower ++ operation :: behind) :
    (∃ front, found.between = front ++ operation :: behind) ∨
      (operation = found.operation ∧ behind = found.between) ∨
        ∃ back, found.lower = lower ++ operation :: back ∧
          behind = back ++ found.operation :: found.between := by
  rw [correct.position, List.append_eq_append_iff] at split
  rcases split with ⟨middle, longer, rest⟩ | ⟨middle, longer, rest⟩
  · cases middle with
    | nil =>
        rw [List.nil_append, List.cons.injEq] at rest
        exact .inr (.inl ⟨rest.1.symm, rest.2.symm⟩)
    | cons first others =>
        rw [List.cons_append, List.cons.injEq] at rest
        exact .inl ⟨others, rest.2⟩
  · cases middle with
    | nil =>
        rw [List.nil_append, List.cons.injEq] at rest
        exact .inr (.inl rest)
    | cons first others =>
        rw [List.cons_append, List.cons.injEq] at rest
        rw [← rest.1] at longer
        exact .inr (.inr ⟨others, longer, rest.2⟩)

/--
The look-backs go past what stands behind the found gate, and past what the
later ones go past below it.
-/
theorem gonePast_succ_iff (correct : found.Correct before scanned)
    {depth : ℕ} {operation : Op A} :
    GonePast scanned (depth + 1) before operation ↔
      operation ∈ found.between ∨
        GonePast scanned depth found.lower operation := by
  constructor
  · rintro ⟨lower, behind, split, hidden, few⟩
    rcases split_at_found correct split with
      ⟨front, between⟩ | ⟨rfl, -⟩ | ⟨back, below, rfl⟩
    · refine .inl ?_
      rw [between]
      exact List.mem_append_right _ List.mem_cons_self
    · exact absurd hidden correct.not_hidden
    · rw [namings_behind correct] at few
      exact .inr ⟨lower, back, below, hidden, Nat.lt_of_succ_lt_succ few⟩
  · rintro (between | ⟨lower, behind, below, hidden, few⟩)
    · rcases List.append_of_mem between with ⟨front, behind, split⟩
      refine ⟨found.lower ++ found.operation :: front, behind, ?_,
        correct.passed operation between, ?_⟩
      · rw [correct.position, split]
        simp
      · have none := namings_between correct
        rw [split, namings, List.countP_append, List.countP_cons] at none
        rw [namings]
        omega
    · refine ⟨lower, behind ++ found.operation :: found.between, ?_,
        hidden, ?_⟩
      · rw [correct.position, below]
        simp
      · rw [namings_behind correct]
        exact Nat.succ_lt_succ few

theorem nearestGate_succ_iff (correct : found.Correct before scanned)
    {depth : ℕ} {gate : Gate A} :
    NearestGate scanned (depth + 1) before gate ↔
      gate = found.gate ∨ NearestGate scanned depth found.lower gate := by
  constructor
  · rintro ⟨lower, operation, behind, split, isGate, named, few⟩
    rcases split_at_found correct split with
      ⟨front, between⟩ | ⟨rfl, -⟩ | ⟨back, below, rfl⟩
    · refine absurd (correct.passed operation ?_) named
      rw [between]
      exact List.mem_append_right _ List.mem_cons_self
    · have same := isGate.symm.trans correct.isGate
      exact .inl (Option.some.inj same)
    · rw [namings_behind correct] at few
      exact .inr ⟨lower, operation, back, below, isGate, named,
        Nat.lt_of_succ_lt_succ few⟩
  · rintro (rfl | ⟨lower, operation, behind, below, isGate, named, few⟩)
    · refine ⟨found.lower, found.operation, found.between,
        correct.position, correct.isGate, correct.not_hidden, ?_⟩
      rw [namings_between correct]
      exact Nat.zero_lt_succ _
    · refine ⟨lower, operation, behind ++ found.operation :: found.between,
        ?_, isGate, named, ?_⟩
      · rw [correct.position, below]
        simp
      · rw [namings_behind correct]
        exact Nat.succ_lt_succ few

end Found

/-! ## What a pass looks back for -/

/-- The operand of a visited gate which a pass follows. -/
def followed (rewriting : RewritingPass) (gate : Gate A) :
    Option QuantumValue :=
  match rewriting with
  | .CommuteZCx => gate.controls.head?
  | _ => gate.targets.head?

/-- How many earlier gates a pass looks for. -/
def lookBacks : RewritingPass → ℕ
  | .HXHToZ | .HZHToX => 2
  | _ => 1

/-- The roles of operands which a pass compares between two gates. -/
def roles (rewriting : RewritingPass) (gate found : Gate A)
    (scanned : QuantumValue) : List (QuantumValue × QuantumValue) :=
  match rewriting with
  | .ReductionPattern | .CancellationDoubleCx =>
      gate.controls.product found.controls ++
        gate.targets.product found.targets
  | .CommuteCxZ => [scanned].product (found.targets ++ found.controls)
  | _ => [scanned].product found.targets

/--
The compared operands are those in the compared roles that have one index,
whatever relation is asked of them.
-/
def ComparesRoles (operands : List (QuantumValue × QuantumValue))
    (compared : List (QuantumValue × QuantumValue)) : Prop :=
  ∀ relation : QuantumValue → QuantumValue → Prop,
    (∀ {first second}, relation first second → relation second first) →
      ((∀ pair ∈ compared, relation pair.1 pair.2) ↔
        ∀ pair ∈ operands, qubitIndex pair.1 = qubitIndex pair.2 →
          relation pair.1 pair.2)

/-- The pairings that a pass makes at a gate. -/
inductive Pairs (rewriting : RewritingPass) (before : Block A)
    (gate : Gate A) (scanned : QuantumValue) : List (Pairing A) → Prop where
  | one (found : Found A) (compared : List (QuantumValue × QuantumValue))
      (single : lookBacks rewriting = 1)
      (correct : found.Correct before scanned)
      (compares :
        ComparesRoles (roles rewriting gate found.gate scanned) compared) :
      Pairs rewriting before gate scanned
        [⟨found, gate, scanned, compared⟩]
  | two (found earlier : Found A) (middle : Gate A)
      (double : lookBacks rewriting = 2)
      (correct : found.Correct before scanned)
      (correctEarlier : earlier.Correct found.lower scanned)
      (compares :
        ComparesRoles (roles rewriting gate found.gate scanned)
          [(scanned, found.named)])
      (comparesEarlier :
        ComparesRoles (roles rewriting gate earlier.gate scanned)
          [(scanned, earlier.named)]) :
      Pairs rewriting before gate scanned
        [⟨found, gate, scanned, [(scanned, found.named)]⟩,
          ⟨earlier, middle, scanned, [(scanned, earlier.named)]⟩]

theorem comparesRoles_of
    {operands compared : List (QuantumValue × QuantumValue)}
    (covered :
      ∀ pair ∈ operands, qubitIndex pair.1 = qubitIndex pair.2 →
        pair ∈ compared ∨ pair.swap ∈ compared)
    (occur :
      ∀ pair ∈ compared, qubitIndex pair.1 = qubitIndex pair.2 ∧
        (pair ∈ operands ∨ pair.swap ∈ operands)) :
    ComparesRoles operands compared := by
  intro relation symmetric
  constructor
  · intro related pair member same
    rcases covered pair member same with inside | swapped
    · exact related pair inside
    · exact symmetric (related pair.swap swapped)
  · intro related pair member
    rcases occur pair member with ⟨same, inside | swapped⟩
    · exact related pair inside same
    · exact symmetric (related pair.swap swapped same.symm)

section Roles

variable {before : Block A} {scanned : QuantumValue} {found : Found A}

/-- The only target of a found gate, if it has the index. -/
theorem named_eq_of_single (correct : found.Correct before scanned)
    {target : QuantumValue} (single : found.gate.targets = [target])
    (same : qubitIndex target = qubitIndex scanned) :
    found.named = target := by
  have first :=
    correct.targetsFirst target (by rw [single]; exact List.mem_cons_self)
      same
  rw [single] at first
  exact List.mem_singleton.mp first

/-- A found gate without controls is named by its target. -/
theorem target_of_no_controls (correct : found.Correct before scanned)
    (none : found.gate.controls.length = 0)
    (one : found.gate.targets.length = 1) :
    found.gate.targets = [found.named] := by
  rcases List.length_eq_one_iff.mp one with ⟨target, single⟩
  have operand := correct.operand
  rw [Gate.qubits, List.eq_nil_of_length_eq_zero none, List.nil_append,
    single] at operand
  rw [single, List.mem_singleton.mp operand]

theorem compares_named (correct : found.Correct before scanned)
    (single : found.gate.targets = [found.named]) :
    ComparesRoles ([scanned].product found.gate.targets)
      [(scanned, found.named)] := by
  refine comparesRoles_of ?_ ?_
  · intro pair member _
    rw [single] at member
    exact .inl (by simpa [List.product] using member)
  · intro pair member
    rw [List.mem_singleton.mp member, single]
    exact ⟨correct.sameIndex.symm, .inl (by simp [List.product])⟩

theorem compares_target (correct : found.Correct before scanned)
    {target : QuantumValue} (single : found.gate.targets = [target])
    (same : qubitIndex target = qubitIndex scanned) :
    ComparesRoles ([scanned].product found.gate.targets)
      [(scanned, found.named), (target, scanned)] := by
  have named := named_eq_of_single correct single same
  refine comparesRoles_of ?_ ?_
  · intro pair member _
    rw [single] at member
    have only : pair = (scanned, target) := by
      simpa [List.product] using member
    exact .inl (by simp [only, named])
  · intro pair member
    rw [single]
    simp only [List.mem_cons, List.not_mem_nil, or_false] at member
    rcases member with rfl | rfl
    · exact ⟨correct.sameIndex.symm,
        .inl (by simp [List.product, named])⟩
    · exact ⟨same, .inr (by simp [List.product])⟩

theorem compares_control (correct : found.Correct before scanned)
    {control target : QuantumValue}
    (targets : found.gate.targets = [target])
    (controls : found.gate.controls = [control])
    (same : qubitIndex scanned = qubitIndex control) :
    ComparesRoles
      ([scanned].product (found.gate.targets ++ found.gate.controls))
      [(scanned, found.named), (scanned, control)] := by
  have operand := correct.operand
  rw [Gate.qubits, targets, controls] at operand
  rw [targets, controls]
  refine comparesRoles_of ?_ ?_
  · intro pair member index
    simp only [List.product, List.flatMap_cons, List.flatMap_nil,
      List.append_nil, List.singleton_append, List.map_cons, List.map_nil,
      List.mem_cons, List.not_mem_nil, or_false] at member
    rcases member with rfl | rfl
    · have named := named_eq_of_single correct targets index.symm
      exact .inl (by simp [named])
    · exact .inl (by simp)
  · intro pair member
    simp only [List.mem_cons, List.not_mem_nil, or_false] at member
    rcases member with rfl | rfl
    · refine ⟨correct.sameIndex.symm, .inl ?_⟩
      simp only [List.singleton_append, List.mem_cons,
        List.not_mem_nil, or_false] at operand
      simpa [List.product] using operand.symm
    · exact ⟨same, .inl (by simp [List.product])⟩

end Roles

/-! ## The pairings of a pass -/

section Pairings

variable {before : Block A} {currentOp : Op A} {plan : Plan A}

/-- The pairings of a plan, with the visited gate and what is followed. -/
def Pairings (rewriting : RewritingPass) (before : Block A)
    (currentOp : Op A) (plan : Plan A) : Prop :=
  ∃ gate scanned, asOperator currentOp = some gate ∧
    followed rewriting gate = some scanned ∧
    Pairs rewriting before gate scanned plan.pairings

theorem asOperator_of_shape {kind : GateKind} {nCtrls nTgts : ℕ}
    {op : Op A} {gate : Gate A}
    (shape : gateOfShape kind nCtrls nTgts op = some gate) :
    asOperator op = some gate :=
  asOperator_eq_some.mpr
    (asGate_eq_some.mp (gateOfShape_eq_some.mp shape).1).1

theorem head?_of_element {values : List QuantumValue} {value : QuantumValue}
    (read : element values 0 = .ok value) : values.head? = some value := by
  rw [List.head?_eq_getElem?]
  exact element_eq_ok.mp read

/-- A gate of a given shape that a look-back found. -/
theorem found_of_shape {found : Found A} {scanned : QuantumValue}
    (correct : found.Correct before scanned)
    {kind : GateKind} {nCtrls nTgts : ℕ} {gate : Gate A}
    (shape : gateOfShape kind nCtrls nTgts found.operation = some gate) :
    gate = found.gate ∧ found.gate.controls.length = nCtrls ∧
      found.gate.targets.length = nTgts := by
  rcases gateOfShape_eq_some.mp shape with ⟨cast, counts⟩
  have same := found_gate_eq correct cast
  subst same
  exact ⟨rfl, counts⟩

theorem cancellation_pairings {rewriting : RewritingPass}
    (compares :
      ∀ (gate found : Gate A) scanned,
        roles rewriting gate found scanned =
          gate.controls.product found.controls ++
            gate.targets.product found.targets)
    (follows :
      ∀ gate : Gate A, followed rewriting gate = gate.targets.head?)
    (single : lookBacks rewriting = 1) {kind : GateKind} {nCtrls : ℕ}
    (planned :
      patternCancellation kind kind nCtrls 1 nCtrls 1 before currentOp =
        .ok (some plan)) :
    Pairings rewriting before currentOp plan := by
  rcases patternCancellation_inversion planned with
    ⟨found, gate, target, cancels⟩
  have correct := getPreviousOperationOnTarget_correct cancels.looked
  have targets := (gateOfShape_eq_some.mp cancels.current).2.2
  have foundTargets := (found_of_shape correct cancels.previous).2.2
  refine ⟨gate, target, asOperator_of_shape cancels.current, ?_, ?_⟩
  · rw [follows]
    exact head?_of_element cancels.operand
  · rcases List.length_eq_one_iff.mp foundTargets with ⟨other, list⟩
    have same : qubitIndex other = qubitIndex target := by
      have compared := cancels.sameTargets
      rw [eq_singleton_of_element targets cancels.operand, list] at compared
      exact (sameIndices_single compared).symm
    have named := named_eq_of_single correct list same
    rw [cancels.planned]
    refine .one found _ single correct ?_
    rw [compares]
    refine comparesRoles_of ?_ ?_
    · intro pair member index
      refine .inl (List.mem_cons_of_mem _ ?_)
      rcases List.mem_append.mp member with control | inside
      · exact List.mem_append_left _
          (List.mem_filter.mpr ⟨control, by simpa using index⟩)
      · exact List.mem_append_right _
          (List.mem_filter.mpr ⟨inside, by simpa using index⟩)
    · intro pair member
      rcases List.mem_cons.mp member with rfl | inside
      · refine ⟨correct.sameIndex.symm, .inl ?_⟩
        apply List.mem_append_right
        refine List.mem_product.mpr ⟨element_mem cancels.operand, ?_⟩
        rw [named, list]
        exact List.mem_cons_self
      · rcases List.mem_append.mp inside with control | other
        · exact ⟨matched_sameIndex pair control,
            .inl (List.mem_append_left _ (List.mem_filter.mp control).1)⟩
        · exact ⟨matched_sameIndex pair other,
            .inl (List.mem_append_right _ (List.mem_filter.mp other).1)⟩

theorem commuteOperation_pairings {rewriting : RewritingPass}
    (compares :
      ∀ (gate found : Gate A) scanned,
        roles rewriting gate found scanned =
          [scanned].product found.targets)
    (follows :
      ∀ gate : Gate A, followed rewriting gate = gate.targets.head?)
    (single : lookBacks rewriting = 1) {T1 T2 : GateKind}
    {nCtrlsOp1 nCtrlsOp2 : ℕ}
    (planned :
      commuteOperation T1 T2 nCtrlsOp1 1 nCtrlsOp2 1 before currentOp =
        .ok (some plan)) :
    Pairings rewriting before currentOp plan := by
  simp only [commuteOperation, withGate_eq_some, withPrevious_eq_some,
    except_bind_eq_ok, ite_none_eq_some, return_some_eq] at planned
  rcases planned with
    ⟨gate, shape, target, operand, found, looked, previousGate, previous,
      previousTarget, previousOperand, targetPrev, first, targetCurr,
      second, equal, rfl⟩
  have correct := getPreviousOperationOnTarget_correct looked
  rcases found_of_shape correct previous with ⟨rfl, -, one⟩
  refine ⟨gate, target, asOperator_of_shape shape, ?_, ?_⟩
  · rw [follows]
    exact head?_of_element operand
  · refine .one found _ single correct ?_
    rw [compares]
    exact compares_target correct
      (eq_singleton_of_element one previousOperand)
      (by rw [first, second, equal])

theorem commuteCNotZ_pairings
    (planned : commuteCNotZ before currentOp = .ok (some plan)) :
    Pairings .CommuteCxZ before currentOp plan := by
  simp only [commuteCNotZ, withGate_eq_some, withPrevious_eq_some,
    except_bind_eq_ok, ite_none_eq_some, return_some_eq] at planned
  rcases planned with
    ⟨gate, shape, target, operand, found, looked, previousGate, previous,
      previousTarget, previousOperand, _, -, previousControl,
      controlOperand, controlPrev, first, targetCurr, second, equal, rfl⟩
  have correct := getPreviousOperationOnTarget_correct looked
  rcases found_of_shape correct previous with ⟨rfl, oneControl, one⟩
  refine ⟨gate, target, asOperator_of_shape shape,
    head?_of_element operand, ?_⟩
  exact .one found _ rfl correct
    (compares_control correct (eq_singleton_of_element one previousOperand)
      (eq_singleton_of_element oneControl controlOperand)
      (by rw [first, second, equal]))

theorem commuteZCNot_pairings
    (planned : commuteZCNot before currentOp = .ok (some plan)) :
    Pairings .CommuteZCx before currentOp plan := by
  simp only [commuteZCNot, withGate_eq_some, withPrevious_eq_some,
    except_bind_eq_ok, ite_none_eq_some, return_some_eq] at planned
  rcases planned with
    ⟨gate, shape, control, operand, found, looked, previousGate, previous,
      previousTarget, previousOperand, targetPrev, first, controlCurr,
      second, equal, rfl⟩
  have correct := getPreviousOperationOnTarget_correct looked
  rcases found_of_shape correct previous with ⟨rfl, -, one⟩
  refine ⟨gate, control, asOperator_of_shape shape,
    head?_of_element operand, ?_⟩
  exact .one found _ rfl correct
    (compares_target correct (eq_singleton_of_element one previousOperand)
      (by rw [first, second, equal]))

/-- A found gate whose class is cast without a check. -/
theorem found_of_cast {found : Found A} {scanned : QuantumValue}
    (correct : found.Correct before scanned) {kind : GateKind}
    {gate : Gate A} (cast : castGate kind found.operation = .ok gate) :
    gate = found.gate := by
  unfold castGate at cast
  cases found_ : asGate kind found.operation with
  | none => simp [found_] at cast
  | some other =>
      rw [found_, Except.ok.injEq] at cast
      rw [← cast]
      exact (found_gate_eq correct found_).symm

theorem patternSwitch_pairings {rewriting : RewritingPass}
    (compares :
      ∀ (gate found : Gate A) scanned,
        roles rewriting gate found scanned =
          [scanned].product found.targets)
    (follows :
      ∀ gate : Gate A, followed rewriting gate = gate.targets.head?)
    (single : lookBacks rewriting = 1) {T1 T2 T3 T4 : GateKind}
    (planned :
      patternSwitch T1 T2 T3 T4 before currentOp = .ok (some plan)) :
    Pairings rewriting before currentOp plan := by
  simp only [patternSwitch, withGate_eq_some, withPrevious_eq_some,
    except_bind_eq_ok, ite_none_eq_some, return_some_eq] at planned
  rcases planned with
    ⟨gate, shape, target, operand, found, looked, prevGate, cast, counts,
      rfl⟩
  have correct := getPreviousOperationOnTarget_correct looked
  have same := found_of_cast correct cast
  subst same
  refine ⟨gate, target, asOperator_of_shape shape, ?_, ?_⟩
  · rw [follows]
    exact head?_of_element operand
  · refine .one found _ single correct ?_
    rw [compares]
    exact compares_named correct
      (target_of_no_controls correct counts.1 counts.2)

theorem SwitchPauliHOperation_pairings
    (planned :
      SwitchPauliHOperation before currentOp = .ok (some plan)) :
    Pairings .SwitchPauliH before currentOp plan := by
  simp only [SwitchPauliHOperation, withGate_eq_some,
    withPrevious_eq_some, except_bind_eq_ok] at planned
  rcases planned with
    ⟨gate, shape, target, operand, found, looked, planned⟩
  have correct := getPreviousOperationOnTarget_correct looked
  cases switched : switchedPauli found.gate.kind with
  | none => simp [switched, pure, Except.pure] at planned
  | some pauli =>
      simp only [switched, ite_none_eq_some, return_some_eq] at planned
      rcases planned with ⟨counts, rfl⟩
      refine ⟨gate, target, asOperator_of_shape shape,
        head?_of_element operand, ?_⟩
      exact .one found _ rfl correct
        (compares_named correct
          (target_of_no_controls correct counts.1 counts.2))

theorem replaceConjugated_pairings {rewriting : RewritingPass}
    (compares :
      ∀ (gate found : Gate A) scanned,
        roles rewriting gate found scanned =
          [scanned].product found.targets)
    (follows :
      ∀ gate : Gate A, followed rewriting gate = gate.targets.head?)
    (double : lookBacks rewriting = 2) {middle replacement : GateKind}
    (planned :
      replaceConjugated middle replacement before currentOp =
        .ok (some plan)) :
    Pairings rewriting before currentOp plan := by
  simp only [replaceConjugated, withGate_eq_some, withPrevious_eq_some,
    except_bind_eq_ok, ite_none_eq_some, return_some_eq] at planned
  rcases planned with
    ⟨gate, shape, target, operand, found, looked, prevGate, previous,
      earlier, lookedAgain, prevPrevGate, cast, counts, rfl⟩
  have correct := getPreviousOperationOnTarget_correct looked
  have correctEarlier := getPreviousOperationOnTarget_correct lookedAgain
  rcases found_of_shape correct previous with ⟨rfl, none, one⟩
  have same := found_of_cast correctEarlier cast
  subst same
  refine ⟨gate, target, asOperator_of_shape shape, ?_, ?_⟩
  · rw [follows]
    exact head?_of_element operand
  · refine .two found earlier found.gate double correct correctEarlier
      ?_ ?_
    · rw [compares]
      exact compares_named correct (target_of_no_controls correct none one)
    · rw [compares]
      exact compares_named correctEarlier
        (target_of_no_controls correctEarlier counts.1 counts.2)

theorem fusePhase_pairings {rewriting : RewritingPass}
    (compares :
      ∀ (gate found : Gate A) scanned,
        roles rewriting gate found scanned =
          [scanned].product found.targets)
    (follows :
      ∀ gate : Gate A, followed rewriting gate = gate.targets.head?)
    (single : lookBacks rewriting = 1) {adjoint : Bool}
    (planned : fusePhase adjoint before currentOp = .ok (some plan)) :
    Pairings rewriting before currentOp plan := by
  simp only [fusePhase, withGate_eq_some, withPrevious_eq_some,
    except_bind_eq_ok, ite_none_eq_some, return_some_eq] at planned
  rcases planned with
    ⟨gate, shape, target, operand, found, looked, prevGate, previous, -,
      rfl⟩
  have correct := getPreviousOperationOnTarget_correct looked
  rcases found_of_shape correct previous with ⟨rfl, none, one⟩
  refine ⟨gate, target, asOperator_of_shape shape, ?_, ?_⟩
  · rw [follows]
    exact head?_of_element operand
  · refine .one found _ single correct ?_
    rw [compares]
    exact compares_named correct (target_of_no_controls correct none one)

/-- What every pass pairs, and by which operands. -/
theorem decision_pairings {rewriting : RewritingPass}
    (planned :
      decision rewriting before currentOp = .ok (some plan)) :
    Pairings rewriting before currentOp plan := by
  rcases decision_planned planned with ⟨matcher, member, made⟩
  cases rewriting <;>
    simp only [RewritingPass.matchers, List.mem_cons, List.not_mem_nil,
      or_false] at member
  case ReductionPattern =>
      rcases member with
        rfl | rfl | rfl | rfl | rfl | rfl | rfl | rfl <;>
        exact cancellation_pairings (fun _ _ _ => rfl) (fun _ => rfl) rfl
          made
  all_goals subst member
  case CancellationDoubleCx =>
      exact cancellation_pairings (fun _ _ _ => rfl) (fun _ => rfl) rfl made
  case CommuteCxZ => exact commuteCNotZ_pairings made
  case CommuteZCx => exact commuteZCNot_pairings made
  case SwitchPauliH => exact SwitchPauliHOperation_pairings made
  case HXHToZ | HZHToX =>
      exact replaceConjugated_pairings (fun _ _ _ => rfl) (fun _ => rfl) rfl
        made
  case SZToSAdj | SAdjZToS =>
      exact fusePhase_pairings (fun _ _ _ => rfl) (fun _ => rfl) rfl made
  case CommuteCxRx | CommuteCxX | CommuteRxCx | CommuteXCx =>
      exact commuteOperation_pairings (fun _ _ _ => rfl) (fun _ => rfl) rfl
        made
  case SwitchHX | SwitchHY | SwitchHZ | SwitchXH | SwitchYH | SwitchZH =>
      exact patternSwitch_pairings (fun _ _ _ => rfl) (fun _ => rfl) rfl
        made

end Pairings

/-! ## Operations between two paired gates -/

/-- No operation between the two gates acts on the qubit they share. -/
def Undisturbed (dynamic : ℕ → ℤ) (pairing : Pairing A) : Prop :=
  ∀ operation ∈ pairing.found.between,
    ¬ ActsOn dynamic (pairing.scanned.qubit dynamic) operation

/--
If the pass rewrites, what its look-backs go past does not act on the
followed qubit.  What they go past is what stands behind the nearest gates
that name the index, and names no operand with the index itself: operations
that are no gates, and gates on operands with other indices.
-/
def NothingOverlooked (rewriting : RewritingPass) (dynamic : ℕ → ℤ)
    (before : Block A) (currentOp : Op A) : Prop :=
  Rewrites rewriting before currentOp →
    ∀ gate, asOperator currentOp = some gate →
      ∀ scanned ∈ followed rewriting gate, ∀ operation,
        GonePast scanned (lookBacks rewriting) before operation →
          ¬ ActsOn dynamic (scanned.qubit dynamic) operation

theorem Pairs.undisturbed_iff {rewriting : RewritingPass}
    {before : Block A} {gate : Gate A} {scanned : QuantumValue}
    {pairings : List (Pairing A)}
    (pairs : Pairs rewriting before gate scanned pairings)
    (dynamic : ℕ → ℤ) :
    (∀ pairing ∈ pairings, Undisturbed dynamic pairing) ↔
      ∀ operation, GonePast scanned (lookBacks rewriting) before operation →
        ¬ ActsOn dynamic (scanned.qubit dynamic) operation := by
  cases pairs with
  | one found compared single correct compares =>
      simp only [single, gonePast_succ_iff correct, not_gonePast_zero,
        or_false, List.mem_singleton, forall_eq]
      rfl
  | two found earlier middle double correct correctEarlier =>
      simp only [double, gonePast_succ_iff correct,
        gonePast_succ_iff correctEarlier, not_gonePast_zero, or_false,
        List.mem_cons, List.not_mem_nil, forall_eq, or_imp, forall_and]
      rfl

section Measured

/-- The only qubit of a register of size one. -/
def soleQubit : QuantumValue :=
  .extractRef (.veqAlloca 0 1) (.constant 0)

/-- Two Hadamard gates with a measurement between them. -/
def measuredBetween : Op ℤ :=
  let hadamard := (Gate.create .h false [] [] [soleQubit]).op
  .mk (.structured "func.func")
    [[hadamard, .leaf (.measure .mz [soleQubit]), hadamard]]

end Measured

/-! ## The qubits of the compared operands -/

/-- All compared operands denote one qubit. -/
def SameQubits (dynamic : ℕ → ℤ) (pairing : Pairing A) : Prop :=
  ∀ operands ∈ pairing.compared,
    operands.1.qubit dynamic = operands.2.qubit dynamic

/-- A reference at a constant index of a register. -/
def HasConstantIndex : QuantumValue → Prop
  | .extractRef _ (.constant _) => True
  | _ => False

theorem qubit_root (dynamic : ℕ → ℤ) (value : QuantumValue) :
    (value.qubit dynamic).root = value.root := by
  cases value with
  | extractRef veq index => cases index <;> rfl
  | _ => rfl

/-- At a constant index the place is read as an `int`. -/
theorem qubitIndex_of_constant (dynamic : ℕ → ℤ)
    {value : QuantumValue} (constant : HasConstantIndex value) :
    qubitIndex value = .ok (toInt (value.qubit dynamic).index) := by
  cases value with
  | extractRef veq index =>
      cases index with
      | constant index => rfl
      | dynamic index => exact constant.elim
  | _ => exact constant.elim

/-- The operands belong to one allocation, and to one place of it. -/
structure OnePlace (dynamic : ℕ → ℤ) (first second : QuantumValue) :
    Prop where
  root : first.root = second.root
  index : (first.qubit dynamic).index = (second.qubit dynamic).index

theorem qubit_eq_iff (dynamic : ℕ → ℤ) {first second : QuantumValue} :
    first.qubit dynamic = second.qubit dynamic ↔
      OnePlace dynamic first second := by
  constructor
  · intro same
    refine ⟨?_, by rw [same]⟩
    rw [← qubit_root dynamic, ← qubit_root dynamic, same]
  · rintro ⟨root, index⟩
    rw [← qubit_root dynamic, ← qubit_root dynamic] at root
    calc
      first.qubit dynamic =
          ⟨(first.qubit dynamic).root, (first.qubit dynamic).index⟩ := rfl
      _ = second.qubit dynamic := by
        rw [root, index]

/--
If the pass rewrites, operands of the visited gate and of the nearest gates
before it that are compared, and read as one index, are at one place of one
allocation.
-/
def IndicesTell (rewriting : RewritingPass) (dynamic : ℕ → ℤ)
    (before : Block A) (currentOp : Op A) : Prop :=
  Rewrites rewriting before currentOp →
    ∀ gate, asOperator currentOp = some gate →
      ∀ scanned ∈ followed rewriting gate, ∀ found,
        NearestGate scanned (lookBacks rewriting) before found →
          ∀ operands ∈ roles rewriting gate found scanned,
            qubitIndex operands.1 = qubitIndex operands.2 →
              OnePlace dynamic operands.1 operands.2

theorem Pairs.sameQubits_iff {rewriting : RewritingPass}
    {before : Block A} {gate : Gate A} {scanned : QuantumValue}
    {pairings : List (Pairing A)}
    (pairs : Pairs rewriting before gate scanned pairings)
    (dynamic : ℕ → ℤ) :
    (∀ pairing ∈ pairings, SameQubits dynamic pairing) ↔
      ∀ found, NearestGate scanned (lookBacks rewriting) before found →
        ∀ operands ∈ roles rewriting gate found scanned,
          qubitIndex operands.1 = qubitIndex operands.2 →
            OnePlace dynamic operands.1 operands.2 := by
  have compare {operands compared : List (QuantumValue × QuantumValue)}
      (compares : ComparesRoles operands compared) :=
    compares (fun first second =>
      first.qubit dynamic = second.qubit dynamic) Eq.symm
  simp only [← qubit_eq_iff]
  cases pairs with
  | one found compared single correct compares =>
      simp only [single, nearestGate_succ_iff correct,
        not_nearestGate_zero, or_false, List.mem_singleton, forall_eq]
      exact compare compares
  | two found earlier middle double correct correctEarlier compares
      comparesEarlier =>
      simp only [double, nearestGate_succ_iff correct,
        nearestGate_succ_iff correctEarlier, not_nearestGate_zero,
        or_false, List.mem_cons, List.not_mem_nil, forall_eq_or_imp,
        forall_eq]
      exact and_congr (compare compares) (compare comparesEarlier)

section TwoRegisters

/-- The first qubit of the register with the given number. -/
def firstQubit (register : ℕ) : QuantumValue :=
  .extractRef (.veqAlloca register 1) (.constant 0)

/-- A gate on each of two registers. -/
def twoRegisters : Op ℤ :=
  .mk (.structured "func.func")
    [[(Gate.create .x false [] [] [firstQubit 0]).op,
      (Gate.create .x false [] [] [firstQubit 1]).op]]

end TwoRegisters

end MQSSPasses.Passes.LookBack
