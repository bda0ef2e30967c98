import MQSSPasses.General.WireReduction
import MQSSPasses.Passes.WirePasses

/-!
# The pairs of CX that one run leaves

The pass deletes a CX together with the previous gate on its target, if
that is a CX with the same operands.  Read from the left, the gates of a
kernel are a word whose CX look back along their targets, and the run
cancels letters along wires.

The deleted earlier CX may stand, on the qubit of its control, between two
CX with the same operands.  The pass has visited both of these already, so
they stay, unless later gates take them apart.

The pass compares operands by the index it reads, so the wires of the word
are the indices and not the qubits.  A second run tells the two apart: it
still deletes the pairs of CX that only have the same indices.
-/

noncomputable section

namespace MQSSPasses.Passes.LeftoverPairs

open MQSSPasses.General.TracedComputation
open MQSSPasses.General.OperationTree
open MQSSPasses.General.WireReduction
open MQSSPasses.Quake.Syntax
open MQSSPasses.Quake.Operations
open MQSSPasses.Quake.Semantics
open MQSSPasses.Quake.WireGates
open MQSSPasses.Passes.Rewriting
open MQSSPasses.Passes.Matchers

variable {A : Type} {n : ℕ}
variable {interp : Interpretation A (Fin n)} {veq : QuantumValue}

/-! ## Pairs -/

/-- An `x` with one control and one target. -/
def IsCx (gate : Gate A) : Prop :=
  gate.kind = .x ∧ gate.controls.length = 1 ∧ gate.targets.length = 1

instance (gate : Gate A) : Decidable (IsCx gate) :=
  inferInstanceAs (Decidable (_ ∧ _ ∧ _))

/-- Two CX with the same control and the same target. -/
def SameCx (first second : Gate A) : Prop :=
  IsCx first ∧ IsCx second ∧ first.controls = second.controls ∧
    first.targets = second.targets

instance (first second : Gate A) : Decidable (SameCx first second) :=
  inferInstanceAs (Decidable (_ ∧ _ ∧ _ ∧ _))

/--
The operation is a CX whose previous gate on its target is a CX with the
same control and the same target.
-/
def Leftover (before : Block A) (operation : Op A) : Prop :=
  ∃ gate target found, asOperator operation = some gate ∧
    gate.targets = [target] ∧
    getPreviousOperationOnTarget before target = .ok (some found) ∧
    SameCx found.gate gate

/-- No operation of the block forms a pair with an earlier one. -/
def NoLeftover (block : Block A) : Prop :=
  ∀ lower operation upper, block = lower ++ operation :: upper →
    ¬ Leftover lower operation

/-- Two CX whose controls and whose targets have the same index. -/
def SameIndexCx (interp : Interpretation A (Fin n))
    (first second : Gate A) : Prop :=
  IsCx first ∧ IsCx second ∧
    first.controls.map interp.index = second.controls.map interp.index ∧
    first.targets.map interp.index = second.targets.map interp.index

instance (first second : Gate A) :
    Decidable (SameIndexCx interp first second) :=
  inferInstanceAs (Decidable (_ ∧ _ ∧ _ ∧ _))

theorem SameCx.sameIndexCx {first second : Gate A}
    (same : SameCx first second) : SameIndexCx interp first second := by
  rcases same with ⟨firstCx, secondCx, controls, targets⟩
  exact ⟨firstCx, secondCx, by rw [controls], by rw [targets]⟩

/--
The operation is a CX whose previous gate on its target is a CX that the
pass takes for the same.
-/
def IndexLeftover (interp : Interpretation A (Fin n)) (before : Block A)
    (operation : Op A) : Prop :=
  ∃ gate target found, asOperator operation = some gate ∧
    gate.targets = [target] ∧
    getPreviousOperationOnTarget before target = .ok (some found) ∧
    SameIndexCx interp found.gate gate

/-- The pass finds nothing to delete in the block. -/
def NoIndexLeftover (interp : Interpretation A (Fin n))
    (block : Block A) : Prop :=
  ∀ lower operation upper, block = lower ++ operation :: upper →
    ¬ IndexLeftover interp lower operation

theorem NoIndexLeftover.noLeftover {block : Block A}
    (none : NoIndexLeftover interp block) : NoLeftover block := by
  rintro lower operation upper split ⟨gate, target, found, isGate, targets,
    looked, same⟩
  exact none lower operation upper split
    ⟨gate, target, found, isGate, targets, looked, same.sameIndexCx⟩

/-- The pass. -/
def cancelCx : Matcher A :=
  patternCancellation .x .x 1 1 1 1

/-! ## The gates as letters -/

/-- The gates of a register; a CX looks back along its target. -/
def gateAlphabet (interp : Interpretation A (Fin n)) :
    Alphabet (Gate A) ℤ where
  names gate index := decide (Names interp.index index gate)
  looks gate :=
    if IsCx gate then (gate.targets.map interp.index).head? else none
  same first second := decide (SameIndexCx interp first second)
  names_of_looks := by
    intro gate index looks
    rw [decide_eq_true_eq]
    by_cases isCx : IsCx gate
    · rw [if_pos isCx] at looks
      have member := List.mem_of_mem_head? looks
      rw [Names, Gate.qubits, List.map_append]
      exact List.mem_append_right _ member
    · rw [if_neg isCx] at looks
      cases looks
  looks_of_same := by
    intro first second same
    rw [decide_eq_true_eq] at same
    rcases same with ⟨firstCx, secondCx, -, targets⟩
    rw [if_pos firstCx, if_pos secondCx, targets]

/-- The gates of a block, the last first. -/
def past (block : Block A) : List (Gate A) :=
  (block.filterMap asOperator).reverse

theorem past_append (first second : Block A) :
    past (first ++ second) = past second ++ past first := by
  rw [past, List.filterMap_append, List.reverse_append]
  rfl

theorem past_cons (operation : Op A) (rest : Block A) :
    past (operation :: rest) =
      past rest ++ (asOperator operation).toList := by
  rw [← List.singleton_append, past_append]
  congr 1
  rw [past]
  cases isGate : asOperator operation <;> simp [isGate]

theorem mem_past {block : Block A} {gate : Gate A} :
    gate ∈ past block ↔
      ∃ operation ∈ block, asOperator operation = some gate := by
  rw [past, List.mem_reverse, List.mem_filterMap]

/-- A look-back finds the letter that the alphabet meets. -/
theorem lookBack_meets {before : Block A}
    (beforeOnVeq : VeqBlock interp veq before) {gate : Gate A}
    (onVeq : OnVeq interp veq gate) {target : QuantumValue}
    (operand : target ∈ gate.qubits) :
    ((gateAlphabet interp).meets (interp.index target) (past before) =
          none ∧
        getPreviousOperationOnTarget before target = .ok none) ∨
      ∃ found,
        getPreviousOperationOnTarget before target = .ok (some found) ∧
          found.operation = found.gate.op ∧
          before = found.lower ++ found.gate.op :: found.between ∧
          (gateAlphabet interp).meets (interp.index target)
              (past before) =
            some ⟨past found.between, found.gate, past found.lower⟩ := by
  have unnamed {operations : Block A}
      (none : ∀ operation ∈ operations,
        gateOn interp.index (interp.index target) operation = none) :
      ∀ earlier ∈ past operations,
        (gateAlphabet interp).names earlier (interp.index target) =
          false := by
    intro earlier member
    rcases mem_past.mp member with ⟨operation, listed, isGate⟩
    apply decide_eq_false
    intro names
    have named := (gateOn_eq_some interp.index).mpr ⟨isGate, names⟩
    rw [none operation listed] at named
    cases named
  rcases lookBack_recent beforeOnVeq onVeq operand with
    ⟨empty, looked⟩ | ⟨found, looked, stops⟩
  · refine .inl ⟨Alphabet.meets_eq_none.mpr (unnamed ?_), looked⟩
    rw [recent, List.reverse_eq_nil_iff, wireGates,
      List.filterMap_eq_nil_iff] at empty
    exact empty
  · refine .inr ⟨found, looked, stops.operation, stops.position, ?_⟩
    rw [Alphabet.meets_eq_some]
    refine ⟨?_, decide_eq_true stops.names, unnamed stops.unnamed⟩
    conv_lhs => rw [stops.position, past_append, past_cons]
    simp [Gate.op, asOperator]

/-! ## What the pass decides -/

theorem isCx_iff {gate : Gate A} :
    gateOfShape .x 1 1 gate.op = some gate ↔ IsCx gate := by
  rw [gateOfShape_eq_some, asGate_eq_some, IsCx, and_assoc]
  exact and_iff_right rfl

/-- The comparison of one operand each is one of their indices. -/
theorem sameIndices_onVeq {first second : Gate A}
    (firstOnVeq : OnVeq interp veq first)
    (secondOnVeq : OnVeq interp veq second)
    {left right : List QuantumValue}
    (leftOperands : ∀ value ∈ left, value ∈ first.qubits)
    (rightOperands : ∀ value ∈ right, value ∈ second.qubits)
    (leftLength : left.length = 1) (rightLength : right.length = 1) :
    sameIndices left right =
      .ok (decide (left.map interp.index = right.map interp.index)) := by
  rcases List.length_eq_one_iff.mp leftLength with ⟨value, rfl⟩
  rcases List.length_eq_one_iff.mp rightLength with ⟨other, rfl⟩
  have read := firstOnVeq.extractIndex (leftOperands value List.mem_cons_self)
  have otherRead :=
    secondOnVeq.extractIndex (rightOperands other List.mem_cons_self)
  simp only [sameIndices, getIndicesOfValueRange, List.mapM_cons,
    List.mapM_nil, read, otherRead, bind, Except.bind, pure, Except.pure,
    List.length_singleton, if_true, List.insertionSort_cons,
    List.insertionSort_nil, List.orderedInsert_nil, List.map_cons,
    List.map_nil, Interpretation.index]

/-- What the look-back along the target says about a pair. -/
theorem leftover_iff {before : Block A} {gate : Gate A}
    {target : QuantumValue} (targets : gate.targets = [target])
    {result : Option (Found A)}
    (looked : getPreviousOperationOnTarget before target = .ok result) :
    IndexLeftover interp before gate.op ↔
      ∃ found, result = some found ∧ SameIndexCx interp found.gate gate := by
  constructor
  · rintro ⟨_, other, found, isGate, otherTargets, found_, same⟩
    cases isGate
    rw [targets] at otherTargets
    cases otherTargets
    rw [looked, Except.ok.injEq] at found_
    exact ⟨found, found_, same⟩
  · rintro ⟨found, rfl, same⟩
    exact ⟨gate, target, found, rfl, targets, looked, same⟩

/-- What the pass does at an operation, and what the letters say about it. -/
inductive Decision (interp : Interpretation A (Fin n))
    (before : Block A) :
    Op A → Except Fault (Option (Plan A)) → Prop where
  | kept (operation : Op A) (single : ¬ IndexLeftover interp before operation)
      (alone :
        ∀ gate, asOperator operation = some gate →
          (gateAlphabet interp).partner (past before) gate = none) :
      Decision interp before operation (.ok none)
  | deleted (gate : Gate A) (found : Found A)
      (pairings : List (Pairing A))
      (position :
        before = found.lower ++ found.gate.op :: found.between)
      (leftover : IndexLeftover interp before gate.op)
      (met :
        (gateAlphabet interp).partner (past before) gate =
          some ⟨past found.between, found.gate, past found.lower⟩) :
      Decision interp before gate.op
        (.ok (some ⟨pairings, found.lower ++ found.between, none, []⟩))

/-- Reading the matcher at a CX. -/
theorem cancelCx_op {before : Block A} {gate : Gate A} (isCx : IsCx gate)
    {target : QuantumValue} (targets : gate.targets = [target]) :
    cancelCx before gate.op =
      withPrevious before target fun found =>
        withGate .x 1 1 found.operation fun previousGate => do
          let sameControls ←
            sameIndices gate.controls previousGate.controls
          let sameTargets ←
            sameIndices gate.targets previousGate.targets
          if sameControls && sameTargets then
            return some
              ⟨[⟨found, gate, target,
                (target, found.named) ::
                  (matched gate.controls previousGate.controls ++
                    matched gate.targets previousGate.targets)⟩],
                found.lower ++ found.between, none, []⟩
          else return none := by
  have operand : element gate.targets 0 = .ok target := by
    rw [element_eq_ok, targets]
    rfl
  rw [cancelCx, patternCancellation, withGate, isCx_iff.mpr isCx]
  dsimp only
  rw [operand]
  rfl

/-- At an operation that is no CX the pass does nothing. -/
theorem cancelCx_decides_other {before : Block A} {operation : Op A}
    (onVeq : VeqOperation interp veq operation)
    (shapeless : gateOfShape .x 1 1 operation = none) :
    Decision interp before operation (cancelCx before operation) := by
  have kept : cancelCx before operation = .ok none := by
    rw [cancelCx, patternCancellation, withGate, shapeless]
    rfl
  have notCx {gate : Gate A}
      (isGate : asOperator operation = some gate) : ¬ IsCx gate := by
    intro isCx
    rw [onVeq.eq_op isGate, isCx_iff.mpr isCx] at shapeless
    cases shapeless
  rw [kept]
  refine .kept operation ?_ ?_
  · rintro ⟨gate, target, found, isGate, -, -, same⟩
    exact notCx isGate same.2.1
  · intro gate isGate
    rw [Alphabet.partner]
    simp [gateAlphabet, notCx isGate]

variable (interp) in
theorem looks_of_isCx {gate : Gate A} (isCx : IsCx gate)
    {target : QuantumValue} (targets : gate.targets = [target]) :
    (gateAlphabet interp).looks gate = some (interp.index target) := by
  simp [gateAlphabet, isCx, targets]

/-- The partner of a CX is the gate it meets, if that is the same CX. -/
theorem partner_of_met {past near far : List (Gate A)}
    {gate found : Gate A} {index : ℤ}
    (looks : (gateAlphabet interp).looks gate = some index)
    (met :
      (gateAlphabet interp).meets index past = some ⟨near, found, far⟩) :
    (gateAlphabet interp).partner past gate =
      if SameIndexCx interp found gate then some ⟨near, found, far⟩
        else none := by
  have sameAs :
      (gateAlphabet interp).same found gate =
        decide (SameIndexCx interp found gate) := rfl
  rw [Alphabet.partner, looks]
  dsimp only
  rw [met, Option.filter_some, sameAs]
  by_cases same : SameIndexCx interp found gate <;> simp [same]

theorem gateOfShape_of_not_isCx {gate : Gate A} (notCx : ¬ IsCx gate) :
    gateOfShape .x 1 1 gate.op = none := by
  rw [Option.eq_none_iff_forall_ne_some]
  intro other shaped
  have label := (asGate_eq_some.mp (gateOfShape_eq_some.mp shaped).1).1
  cases asOperator_eq_some.mpr label
  exact notCx (isCx_iff.mp shaped)

/-- The comparison of the operands of two CX. -/
theorem sameIndexCx_iff {found gate : Gate A} (foundCx : IsCx found)
    (isCx : IsCx gate) :
    (decide
          (gate.controls.map interp.index =
            found.controls.map interp.index) &&
        decide
          (gate.targets.map interp.index =
            found.targets.map interp.index)) = true ↔
      SameIndexCx interp found gate := by
  rw [Bool.and_eq_true, decide_eq_true_eq, decide_eq_true_eq]
  constructor
  · rintro ⟨controls, targets⟩
    exact ⟨foundCx, isCx, controls.symm, targets.symm⟩
  · rintro ⟨-, -, controls, targets⟩
    exact ⟨controls.symm, targets.symm⟩

theorem cancelCx_decides {before : Block A}
    (beforeOnVeq : VeqBlock interp veq before) {operation : Op A}
    (onVeq : VeqOperation interp veq operation) :
    Decision interp before operation (cancelCx before operation) := by
  cases shape : gateOfShape .x 1 1 operation with
  | none => exact cancelCx_decides_other onVeq shape
  | some gate =>
      have label := (asGate_eq_some.mp (gateOfShape_eq_some.mp shape).1).1
      have isGate := asOperator_eq_some.mpr label
      have gateOnVeq := onVeq.onVeq isGate
      rw [onVeq.eq_op isGate] at shape ⊢
      have isCx := isCx_iff.mp shape
      rcases List.length_eq_one_iff.mp isCx.2.2 with ⟨target, targets⟩
      have operand : target ∈ gate.qubits := by
        simp [Gate.qubits, targets]
      have looks := looks_of_isCx interp isCx targets
      rw [cancelCx_op isCx targets, withPrevious]
      rcases lookBack_meets beforeOnVeq gateOnVeq operand with
        ⟨none, looked⟩ | ⟨found, looked, foundIsOp, position, met⟩
      · rw [looked]
        refine .kept gate.op ?_ ?_
        · rw [leftover_iff targets looked]
          simp
        · intro other isOther
          cases isOther
          rw [Alphabet.partner, looks]
          simp [none]
      · have partner := partner_of_met looks met
        have leftover :
            IndexLeftover interp before gate.op ↔
              SameIndexCx interp found.gate gate := by
          rw [leftover_iff targets looked]
          simp
        have kept (different : ¬ SameIndexCx interp found.gate gate) :
            Decision interp before gate.op (.ok none) := by
          refine .kept gate.op (leftover.not.mpr different) ?_
          intro other isOther
          cases isOther
          rw [partner, if_neg different]
        rw [looked]
        change Decision interp before gate.op (withGate .x 1 1 _ _)
        rw [foundIsOp, withGate]
        by_cases foundCx : IsCx found.gate
        · have parts := position ▸ beforeOnVeq
          rw [veqBlock_append, veqBlock_cons] at parts
          have itself : asOperator found.gate.op = some found.gate := rfl
          have foundOnVeq := parts.2.1.onVeq itself
          rw [isCx_iff.mpr foundCx]
          dsimp only
          rw [sameIndices_onVeq gateOnVeq foundOnVeq
              (fun _ => List.mem_append_left _)
              (fun _ => List.mem_append_left _) isCx.2.1 foundCx.2.1,
            sameIndices_onVeq gateOnVeq foundOnVeq
              (fun _ => List.mem_append_right _)
              (fun _ => List.mem_append_right _) isCx.2.2 foundCx.2.2]
          simp only [bind, Except.bind, pure, Except.pure,
            sameIndexCx_iff foundCx isCx]
          by_cases same : SameIndexCx interp found.gate gate
          · rw [if_pos same]
            exact .deleted gate found _ position (leftover.mpr same)
              (partner.trans (if_pos same))
          · rw [if_neg same]
            exact kept same
        · rw [gateOfShape_of_not_isCx foundCx]
          exact kept fun same => foundCx same.1

/-- Exactly a CX that forms a pair has a partner among the letters. -/
theorem leftover_iff_partner {before : Block A}
    (beforeOnVeq : VeqBlock interp veq before) {gate : Gate A}
    (onVeq : OnVeq interp veq gate) :
    IndexLeftover interp before gate.op ↔
      ((gateAlphabet interp).partner (past before) gate).isSome := by
  have decision := cancelCx_decides beforeOnVeq (.gate gate onVeq)
  generalize isOp : gate.op = operation at decision ⊢
  generalize cancelCx before operation = result at decision
  cases decision with
  | kept _ single alone =>
      rw [alone gate (by rw [← isOp]; rfl)]
      simp [single]
  | deleted other found pairings position leftover met =>
      cases isOp
      rw [met]
      simp [leftover]

/-! ## Runs -/

/-- What one visit leaves, and its letters. -/
theorem advance_past {before : Block A}
    (beforeOnVeq : VeqBlock interp veq before) {operation : Op A}
    (onVeq : VeqOperation interp veq operation) :
    ∃ after, advance cancelCx before operation = .ok after ∧
      VeqBlock interp veq after ∧
      past after =
        (asOperator operation).toList.foldl (gateAlphabet interp).step
          (past before) := by
  have decision := cancelCx_decides beforeOnVeq onVeq
  generalize decided : cancelCx before operation = result at decision
  cases decision with
  | kept _ single alone =>
      refine ⟨_, advance_eq_ok.mpr (.inl ⟨decided, rfl⟩), ?_, ?_⟩
      · rw [veqBlock_append, veqBlock_cons]
        exact ⟨beforeOnVeq, onVeq, by simp [VeqBlock]⟩
      · rw [past_append, past_cons]
        cases isGate : asOperator operation with
        | none => rfl
        | some gate =>
            rw [Option.toList_some, List.foldl_cons, List.foldl_nil,
              Alphabet.step, alone gate isGate]
            rfl
  | deleted gate found pairings position leftover met =>
      refine ⟨_, advance_eq_ok.mpr (.inr ⟨_, decided, rfl⟩), ?_, ?_⟩
      · have parts := position ▸ beforeOnVeq
        rw [veqBlock_append, veqBlock_cons] at parts
        simp only [Option.toList_none, List.append_nil, veqBlock_append]
        exact ⟨parts.1, parts.2.2⟩
      · have isGate : asOperator gate.op = some gate := rfl
        rw [isGate, Option.toList_some, List.foldl_cons, List.foldl_nil,
          Alphabet.step, met]
        simp [past_append]

/-- A run completes and reduces the letters. -/
theorem foldlM_past {block : Block A}
    (onVeq : VeqBlock interp veq block) {before : Block A}
    (beforeOnVeq : VeqBlock interp veq before) :
    ∃ result, block.foldlM (advance cancelCx) before = .ok result ∧
      VeqBlock interp veq result ∧
      past result =
        (gateAlphabet interp).reduce (past before)
          (block.filterMap asOperator) := by
  induction block generalizing before with
  | nil => exact ⟨before, rfl, beforeOnVeq, rfl⟩
  | cons operation rest induction =>
      rw [veqBlock_cons] at onVeq
      rcases advance_past beforeOnVeq onVeq.1 with
        ⟨after, advanced, afterOnVeq, letters⟩
      rcases induction onVeq.2 afterOnVeq with
        ⟨result, returned, resultOnVeq, reduced⟩
      refine ⟨result, ?_, resultOnVeq, ?_⟩
      · rw [List.foldlM_cons, advanced]
        exact returned
      · rw [reduced, letters, List.filterMap_cons]
        cases asOperator operation <;> rfl

theorem noIndexLeftover_concat {block : Block A} {operation : Op A} :
    NoIndexLeftover interp (block ++ [operation]) ↔
      NoIndexLeftover interp block ∧
        ¬ IndexLeftover interp block operation := by
  constructor
  · intro none
    refine ⟨fun lower earlier upper split => ?_,
      none block operation [] rfl⟩
    exact none lower earlier (upper ++ [operation]) (by rw [split]; simp)
  · rintro ⟨none, last⟩ lower earlier upper split
    rcases List.eq_nil_or_concat upper with rfl | ⟨front, final, rfl⟩
    · rcases List.append_inj' split rfl with ⟨rfl, equal⟩
      cases equal
      exact last
    · rw [List.concat_eq_append, ← List.cons_append,
        ← List.append_assoc] at split
      exact none lower earlier front (List.append_inj' split rfl).1

/-- A block has no pairs exactly if nothing is left over of its letters. -/
theorem noIndexLeftover_iff {block : Block A}
    (onVeq : VeqBlock interp veq block) :
    NoIndexLeftover interp block ↔
      (gateAlphabet interp).leftovers (past block) = 0 := by
  induction block using List.reverseRecOn with
  | nil =>
      refine iff_of_true ?_ rfl
      intro lower operation upper split
      cases lower <;> cases split
  | append_singleton block operation induction =>
      rw [veqBlock_append, veqBlock_cons] at onVeq
      rw [noIndexLeftover_concat, induction onVeq.1, past_append, past_cons]
      cases isGate : asOperator operation with
      | none =>
          have single : ¬ IndexLeftover interp block operation := by
            rintro ⟨gate, _, _, performs, -⟩
            rw [isGate] at performs
            cases performs
          simp [single, past]
      | some gate =>
          rw [onVeq.2.1.eq_op isGate,
            leftover_iff_partner onVeq.1 (onVeq.2.1.onVeq isGate)]
          simp [past, Alphabet.leftovers]

/-- The pass leaves a block without pairs as it is. -/
theorem foldlM_of_noIndexLeftover {block : Block A}
    (onVeq : VeqBlock interp veq block)
    (none : NoIndexLeftover interp block) :
    block.foldlM (advance cancelCx) [] = .ok block := by
  induction block using List.reverseRecOn with
  | nil => rfl
  | append_singleton block operation induction =>
      rw [veqBlock_append, veqBlock_cons] at onVeq
      rw [noIndexLeftover_concat] at none
      have kept : cancelCx block operation = .ok Option.none := by
        have decision := cancelCx_decides onVeq.1 onVeq.2.1
        generalize cancelCx block operation = result at decision
        cases decision with
        | kept => rfl
        | deleted _ _ _ _ leftover => exact absurd leftover none.2
      have advanced :
          advance cancelCx block operation = .ok (block ++ [operation]) :=
        advance_eq_ok.mpr (.inl ⟨kept, rfl⟩)
      rw [List.foldlM_append, induction onVeq.1 none.1]
      change advance cancelCx block operation >>= pure = _
      rw [advanced]
      rfl

/-- A visit leaves at most one operation more. -/
theorem length_advance {before : Block A} {operation : Op A}
    {after : Block A} (beforeOnVeq : VeqBlock interp veq before)
    (onVeq : VeqOperation interp veq operation)
    (advanced : advance cancelCx before operation = .ok after) :
    after.length ≤ before.length + 1 ∧
      (after.length = before.length + 1 →
        after = before ++ [operation] ∧
          ¬ IndexLeftover interp before operation) := by
  have decision := cancelCx_decides beforeOnVeq onVeq
  generalize decided : cancelCx before operation = result at decision
  cases decision with
  | kept _ single alone =>
      have kept : advance cancelCx before operation =
          .ok (before ++ [operation]) :=
        advance_eq_ok.mpr (.inl ⟨decided, rfl⟩)
      rw [kept, Except.ok.injEq] at advanced
      subst advanced
      exact ⟨by simp, fun _ => ⟨rfl, single⟩⟩
  | deleted gate found pairings position leftover met =>
      have deleted : advance cancelCx before gate.op =
          .ok (found.lower ++ found.between) := by
        refine advance_eq_ok.mpr (.inr ⟨_, decided, ?_⟩)
        simp
      have counted : before.length =
          found.lower.length + (found.between.length + 1) := by
        conv_lhs => rw [position]
        rw [List.length_append, List.length_cons]
      rw [deleted, Except.ok.injEq] at advanced
      subst advanced
      rw [List.length_append]
      exact ⟨by omega, fun same => by omega⟩

/-- A run that deletes nothing has found nothing to delete. -/
theorem noIndexLeftover_of_length {block : Block A}
    (onVeq : VeqBlock interp veq block) {result : Block A}
    (returned : block.foldlM (advance cancelCx) [] = .ok result) :
    result.length ≤ block.length ∧
      (result.length = block.length → NoIndexLeftover interp block) := by
  induction block using List.reverseRecOn generalizing result with
  | nil =>
      cases returned
      refine ⟨le_rfl, fun _ lower operation upper split => ?_⟩
      cases lower <;> cases split
  | append_singleton block operation induction =>
      rw [veqBlock_append, veqBlock_cons] at onVeq
      rw [List.foldlM_append, except_bind_eq_ok] at returned
      rcases returned with ⟨middle, folded, last⟩
      have advanced : advance cancelCx middle operation = .ok result := by
        change advance cancelCx middle operation >>= pure = _ at last
        rw [bind_pure] at last
        exact last
      have empty : VeqBlock interp veq ([] : Block A) := by simp [VeqBlock]
      rcases foldlM_past onVeq.1 empty with
        ⟨other, otherFolded, middleOnVeq, -⟩
      rw [folded, Except.ok.injEq] at otherFolded
      subst otherFolded
      rcases induction onVeq.1 folded with ⟨shorter, unchanged⟩
      rcases length_advance middleOnVeq onVeq.2.1 advanced with
        ⟨bounded, kept⟩
      rw [List.length_append, List.length_singleton]
      refine ⟨by omega, fun same => ?_⟩
      have none := unchanged (by omega)
      have still := foldlM_of_noIndexLeftover onVeq.1 none
      rw [folded, Except.ok.injEq] at still
      subst still
      exact noIndexLeftover_concat.mpr ⟨none, (kept (by omega)).2⟩

/--
The run completes and leaves no CX whose previous gate on its target is a
CX with the same control and target, and a second run changes nothing.
-/
def LeavesNoPair (stale : StaleRead) (block : Block A) : Prop :=
  ∃ result,
    (RewritingPass.CancellationDoubleCx.run stale
      (kernelOf block)).outcome = .ok (kernelOf result) ∧
    NoLeftover result ∧
    (RewritingPass.CancellationDoubleCx.run stale
      (kernelOf result)).outcome = .ok (kernelOf result)

/--
How often the pass deletes a CX that stands, on the index of its control,
between two CX with the same indices and this index for their target.
-/
def pairsExposed (interp : Interpretation A (Fin n)) (block : Block A) :
    ℕ :=
  (gateAlphabet interp).total (gateAlphabet interp).exposures []
    (block.filterMap asOperator)

/--
How often the pass deletes an earlier CX whose previous gate on its target
is a CX with the same indices.
-/
def pairsSeparated (interp : Interpretation A (Fin n)) (block : Block A) :
    ℕ :=
  (gateAlphabet interp).total (gateAlphabet interp).separations []
    (block.filterMap asOperator)

theorem run_outcome (stale : StaleRead) {block : Block A}
    (onVeq : VeqBlock interp veq block) :
    (RewritingPass.CancellationDoubleCx.run stale
        (kernelOf block)).outcome =
      (block.foldlM (advance cancelCx) []).map kernelOf :=
  operationsOnQuantumKernel_outcome
    fun operation member => (onVeq operation member).flat

/-- One run leaves no pair exactly if each exposed pair is separated. -/
theorem leavesNoPair_iff (stale : StaleRead) {block : Block A}
    (onVeq : VeqBlock interp veq block) :
    LeavesNoPair stale block ↔
      pairsExposed interp block = pairsSeparated interp block := by
  have empty : VeqBlock interp veq ([] : Block A) := by simp [VeqBlock]
  rcases foldlM_past onVeq empty with
    ⟨result, returned, resultOnVeq, reduced⟩
  have outcome := run_outcome stale onVeq
  rw [returned] at outcome
  have again := run_outcome stale resultOnVeq
  have counted :
      NoIndexLeftover interp result ↔
        pairsExposed interp block = pairsSeparated interp block := by
    rw [noIndexLeftover_iff resultOnVeq, reduced]
    exact Alphabet.leftovers_reduce_eq_zero_iff _
  rw [← counted]
  constructor
  · rintro ⟨other, otherReturned, -, unchanged⟩
    rw [outcome] at otherReturned
    cases otherReturned
    rcases foldlM_past resultOnVeq empty with
      ⟨second, secondReturned, -, -⟩
    rw [again, secondReturned] at unchanged
    cases unchanged
    exact (noIndexLeftover_of_length resultOnVeq secondReturned).2 rfl
  · intro none
    refine ⟨result, outcome, none.noLeftover, ?_⟩
    rw [again, foldlM_of_noIndexLeftover resultOnVeq none]
    rfl

/-! ### A pair around a deleted gate -/

/-- A qubit of a register of size three. -/
def ofThree (index : ℕ) : QuantumValue :=
  .extractRef (.veqAlloca 0 3) (.constant index)

def threeQubits : Interpretation ℤ (Fin 3) :=
  .ofRegister 2 fun _ => 0

def cx (control target : ℕ) : Gate ℤ :=
  .create .x false [] [ofThree control] [ofThree target]

/-- The second CX is deleted from between the first and the third. -/
def aroundDeleted : Block ℤ :=
  [(cx 2 0).op, (cx 0 1).op, (cx 2 0).op, (cx 0 1).op]

theorem cx_onVeq {control target : Fin 3} (apart : control ≠ target) :
    OnVeq threeQubits (.veqAlloca 0 3)
      (cx control.val target.val) where
  operands := by
    intro value operand
    have each : ∀ index : Fin 3,
        ofThree index.val =
          .extractRef (.veqAlloca 0 3)
            (.constant (threeQubits.qubit (ofThree index.val)).val) := by
      intro index
      fin_cases index <;> rfl
    simp only [Gate.qubits, cx, Gate.create, List.singleton_append,
      List.mem_cons, List.not_mem_nil, or_false] at operand
    rcases operand with rfl | rfl
    · exact each control
    · exact each target
  distinct := by
    have values : ofThree control.val ≠ ofThree target.val := by
      simpa [ofThree, Fin.ext_iff] using apart
    simp [Gate.qubits, cx, Gate.create, values]
  parameters := by
    intro count takes
    cases takes
    rfl

theorem aroundDeleted_veqBlock :
    VeqBlock threeQubits (.veqAlloca 0 3) aroundDeleted := by
  simp only [aroundDeleted, veqBlock_cons]
  have fromTwo := @cx_onVeq 2 0 (by decide)
  have fromZero := @cx_onVeq 0 1 (by decide)
  exact ⟨.gate _ fromTwo, .gate _ fromZero, .gate _ fromTwo,
    .gate _ fromZero, by simp [VeqBlock]⟩

/-- The criterion at this kernel. -/
theorem aroundDeleted_leavesNoPair_iff :
    LeavesNoPair .stops aroundDeleted ↔
      pairsExposed threeQubits aroundDeleted =
        pairsSeparated threeQubits aroundDeleted :=
  leavesNoPair_iff .stops aroundDeleted_veqBlock

/-- The first and the third CX are left, and a second run deletes them. -/
theorem aroundDeleted_leavesPair :
    (RewritingPass.CancellationDoubleCx.run .stops
        (kernelOf aroundDeleted)).outcome =
        .ok (kernelOf [(cx 2 0).op, (cx 2 0).op]) ∧
      Leftover [(cx 2 0).op] (cx 2 0).op ∧
      (RewritingPass.CancellationDoubleCx.run .stops
        (kernelOf [(cx 2 0).op, (cx 2 0).op])).outcome =
        .ok (kernelOf []) ∧
      ¬ LeavesNoPair .stops aroundDeleted := by
  have left :
      (RewritingPass.CancellationDoubleCx.run .stops
          (kernelOf aroundDeleted)).outcome =
        .ok (kernelOf [(cx 2 0).op, (cx 2 0).op]) := rfl
  have pair : Leftover [(cx 2 0).op] (cx 2 0).op :=
    ⟨cx 2 0, ofThree 0, ⟨[], (cx 2 0).op, cx 2 0, ofThree 0, []⟩,
      rfl, rfl, rfl, by decide⟩
  refine ⟨left, pair, rfl, ?_⟩
  rintro ⟨result, returned, none, -⟩
  rw [left] at returned
  cases returned
  exact none [(cx 2 0).op] (cx 2 0).op [] rfl pair

end MQSSPasses.Passes.LeftoverPairs

end
