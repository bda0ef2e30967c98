import MQSSPasses.Quake.Semantics

/-!
# The gates on one qubit

The passes that look back along a qubit only see the gates which name it.
`recent` lists these gates, nearest first, and the look-back finds the head
of this list.  What names a qubit depends on how operands are read: the
passes read them as an `int`, so the look-back goes through the gates on all
qubits with one index, while what a gate acts on are the qubits themselves.
The lists are therefore about any reading of operands.

Taking uncontrolled gates of one qubit out of a block changes what is on
this qubit and nothing else.  `Erases` describes this, and the product of
the matrices of the gates is what the unitary of the block loses.
-/

noncomputable section

namespace MQSSPasses.Quake.WireGates

open MQSSPasses.General.IntConversion
open MQSSPasses.General.QubitOperators
open MQSSPasses.Quake.Syntax
open MQSSPasses.Quake.Operations
open MQSSPasses.Quake.Semantics

variable {A Wire : Type} [DecidableEq Wire]
variable (wireOf : QuantumValue → Wire)

/-! ## The gates that name a wire -/

/-- The gate has an operand that is read as the wire. -/
def Names (wire : Wire) (gate : Gate A) : Prop :=
  wire ∈ gate.qubits.map wireOf

instance (wire : Wire) (gate : Gate A) :
    Decidable (Names wireOf wire gate) :=
  inferInstanceAs (Decidable (wire ∈ gate.qubits.map wireOf))

/-- The gate an operation performs, if it names the wire. -/
def gateOn (wire : Wire) (operation : Op A) : Option (Gate A) :=
  (asOperator operation).filter fun gate => Names wireOf wire gate

/-- The gates of a block that name the wire, in program order. -/
def wireGates (wire : Wire) (block : Block A) : List (Gate A) :=
  block.filterMap (gateOn wireOf wire)

/-- The gates of a block that name the wire, nearest to its end first. -/
def recent (wire : Wire) (block : Block A) : List (Gate A) :=
  (wireGates wireOf wire block).reverse

theorem gateOn_eq_some {wire : Wire} {operation : Op A}
    {gate : Gate A} :
    gateOn wireOf wire operation = some gate ↔
      asOperator operation = some gate ∧ Names wireOf wire gate := by
  rw [gateOn, Option.filter_eq_some_iff, decide_eq_true_eq]

theorem gateOn_op {wire : Wire} {gate : Gate A} :
    gateOn wireOf wire gate.op =
      if Names wireOf wire gate then some gate else none := by
  rw [gateOn]
  by_cases names : Names wireOf wire gate
  · simp [names, Gate.op, asOperator, Option.filter]
  · simp [names, Gate.op, asOperator, Option.filter]

@[simp]
theorem recent_nil (wire : Wire) :
    recent wireOf wire ([] : Block A) = [] := rfl

theorem recent_append (wire : Wire) (first second : Block A) :
    recent wireOf wire (first ++ second) =
      recent wireOf wire second ++ recent wireOf wire first := by
  rw [recent, recent, recent, wireGates, List.filterMap_append,
    List.reverse_append]
  rfl

theorem recent_cons (wire : Wire) (operation : Op A) (rest : Block A) :
    recent wireOf wire (operation :: rest) =
      recent wireOf wire rest ++
        (gateOn wireOf wire operation).toList := by
  rw [← List.singleton_append, recent_append]
  congr 1
  rw [recent, wireGates]
  cases named : gateOn wireOf wire operation <;> simp [named]

theorem recent_concat (wire : Wire) (block : Block A)
    (operation : Op A) :
    recent wireOf wire (block ++ [operation]) =
      (gateOn wireOf wire operation).toList ++
        recent wireOf wire block := by
  rw [recent_append, recent_cons, recent_nil, List.nil_append]

theorem recent_eq_nil {wire : Wire} {block : Block A}
    (unnamed :
      ∀ operation ∈ block, gateOn wireOf wire operation = none) :
    recent wireOf wire block = [] := by
  rw [recent, wireGates, List.filterMap_eq_nil_iff.mpr unnamed,
    List.reverse_nil]

variable {wireOf}

theorem mem_recent {wire : Wire} {block : Block A} {gate : Gate A}
    (member : gate ∈ recent wireOf wire block) :
    ∃ operation ∈ block, asOperator operation = some gate ∧
      Names wireOf wire gate := by
  rw [recent, List.mem_reverse, wireGates, List.mem_filterMap] at member
  rcases member with ⟨operation, listed, named⟩
  exact ⟨operation, listed, (gateOn_eq_some wireOf).mp named⟩

section Register

variable {n : ℕ} {interp : Interpretation A (Fin n)} {veq : QuantumValue}

/-- The gates of a block on the register are on the register. -/
theorem onVeq_of_recent {wire : Wire} {block : Block A}
    (onVeq : VeqBlock interp veq block) {gate : Gate A}
    (member : gate ∈ recent wireOf wire block) :
    OnVeq interp veq gate ∧ Names wireOf wire gate := by
  rcases mem_recent member with ⟨operation, listed, isGate, names⟩
  exact ⟨(onVeq operation listed).onVeq isGate, names⟩

/-- A gate that names a qubit names its index. -/
theorem names_index {wire : Fin n} {gate : Gate A}
    (names : Names interp.qubit wire gate) :
    Names interp.index (intOf wire) gate := by
  rcases List.mem_map.mp names with ⟨value, operand, rfl⟩
  exact List.mem_map_of_mem operand

/-- The gates on a qubit are those with its index that name it. -/
theorem recent_qubit_eq_filter (wire : Fin n) (block : Block A) :
    recent interp.qubit wire block =
      (recent interp.index (intOf wire) block).filter fun gate =>
        Names interp.qubit wire gate := by
  have onQubit (operation : Op A) :
      gateOn interp.qubit wire operation =
        (gateOn interp.index (intOf wire) operation).filter fun gate =>
          Names interp.qubit wire gate := by
    rw [gateOn, gateOn, Option.filter_filter]
    congr 1
    funext gate
    rw [Bool.eq_iff_iff]
    simpa using names_index
  rw [recent, recent, List.filter_reverse, wireGates, wireGates,
    List.filter_filterMap]
  simp only [onQubit]

/-- The nearest gate with the index is the nearest on a qubit it names. -/
theorem head?_recent_qubit {wire : Fin n} {block : Block A}
    {gate : Gate A}
    (nearest :
      (recent interp.index (intOf wire) block).head? = some gate)
    (names : Names interp.qubit wire gate) :
    (recent interp.qubit wire block).head? = some gate := by
  rcases List.head?_eq_some_iff.mp nearest with ⟨others, view⟩
  rw [recent_qubit_eq_filter, view,
    List.filter_cons_of_pos (by simpa using names), List.head?_cons]

/-- In a register that an `int` can index, only such gates name it. -/
theorem names_index_iff (indexed : n ≤ intRange) {wire : Fin n}
    {gate : Gate A} :
    Names interp.index (intOf wire) gate ↔
      Names interp.qubit wire gate := by
  refine ⟨fun names => ?_, names_index⟩
  rcases List.mem_map.mp names with ⟨value, operand, same⟩
  rw [← intOf_injective indexed same]
  exact List.mem_map_of_mem operand

/-- There the gates with the index of a qubit are the gates on it. -/
theorem recent_index (indexed : n ≤ intRange) (wire : Fin n)
    (block : Block A) :
    recent interp.index (intOf wire) block =
      recent interp.qubit wire block := by
  have same (operation : Op A) :
      gateOn interp.index (intOf wire) operation =
        gateOn interp.qubit wire operation := by
    simp only [gateOn, names_index_iff indexed]
  simp only [recent, wireGates, same]

end Register

/-! ## The look-back along an index -/

section LookBack

variable {n : ℕ} {interp : Interpretation A (Fin n)} {veq : QuantumValue}

/-- A gate the look-back goes past does not name the followed index. -/
theorem gateOn_of_hidden {gate : Gate A} {target : QuantumValue}
    (onVeq : OnVeq interp veq gate) (operand : target ∈ gate.qubits)
    {operation : Op A} (operationOnVeq : VeqOperation interp veq operation)
    (hidden : Hidden target operation) :
    gateOn interp.index (interp.index target) operation = none := by
  rw [Option.eq_none_iff_forall_ne_some]
  intro other named
  rcases (gateOn_eq_some interp.index).mp named with ⟨isGate, names⟩
  rcases List.mem_map.mp names with ⟨value, member, same⟩
  apply hidden other isGate value member
  rw [(operationOnVeq.onVeq isGate).extractIndex member,
    onVeq.extractIndex operand]
  exact congrArg Except.ok same

/-- Where a look-back stops, with the gates that name the wire. -/
structure StopsAt (wireOf : QuantumValue → Wire) (wire : Wire)
    (before : Block A) (found : Found A) (gate : Gate A) : Prop where
  isGate : found.gate = gate
  operation : found.operation = gate.op
  position : before = found.lower ++ gate.op :: found.between
  unnamed :
    ∀ operation ∈ found.between, gateOn wireOf wire operation = none
  names : Names wireOf wire gate

theorem StopsAt.recent {wire : Wire} {before : Block A}
    {found : Found A} {gate : Gate A}
    (stops : StopsAt wireOf wire before found gate) :
    recent wireOf wire before = gate :: recent wireOf wire found.lower := by
  rw [stops.position, recent_append, recent_cons,
    recent_eq_nil wireOf stops.unnamed, gateOn_op, if_pos stops.names]
  rfl

/-- A look-back that returned stopped at the head of the list. -/
theorem stopsAt_of_looked {before : Block A}
    (beforeOnVeq : VeqBlock interp veq before) {gate : Gate A}
    (onVeq : OnVeq interp veq gate) {target : QuantumValue}
    (operand : target ∈ gate.qubits) {found : Found A}
    (looked :
      getPreviousOperationOnTarget before target = .ok (some found)) :
    StopsAt interp.index (interp.index target) before found
      found.gate := by
  have correct := getPreviousOperationOnTarget_correct looked
  have parts := correct.position ▸ beforeOnVeq
  simp only [veqBlock_append, veqBlock_cons] at parts
  rcases parts with ⟨-, foundOnVeq, betweenOnVeq⟩
  have isOp := foundOnVeq.eq_op correct.isGate
  refine ⟨rfl, isOp, ?_, ?_, ?_⟩
  · rw [← isOp]
    exact correct.position
  · intro operation member
    exact gateOn_of_hidden onVeq operand (betweenOnVeq operation member)
      (correct.passed operation member)
  · have gateOnVeq := foundOnVeq.onVeq correct.isGate
    have same : interp.index found.named = interp.index target :=
      gateOnVeq.intOf_eq onVeq correct.operand operand correct.sameIndex
    rw [← same]
    exact List.mem_map_of_mem correct.operand

/-- The look-back along an index finds the nearest gate that names it. -/
theorem lookBack_recent {before : Block A}
    (beforeOnVeq : VeqBlock interp veq before) {gate : Gate A}
    (onVeq : OnVeq interp veq gate) {target : QuantumValue}
    (operand : target ∈ gate.qubits) :
    (recent interp.index (interp.index target) before = [] ∧
        getPreviousOperationOnTarget before target = .ok none) ∨
      ∃ found,
        getPreviousOperationOnTarget before target = .ok (some found) ∧
          StopsAt interp.index (interp.index target) before found
            found.gate := by
  have readable : IndexReadable target :=
    ⟨_, onVeq.extractIndex operand⟩
  rcases getPreviousOperationOnTarget_returns readable
    beforeOnVeq.readable with ⟨result, looked⟩
  cases result with
  | none =>
      refine .inl ⟨recent_eq_nil interp.index ?_, looked⟩
      intro operation member
      exact gateOn_of_hidden onVeq operand (beforeOnVeq operation member)
        (getPreviousOperationOnTarget_none looked operation member)
  | some found =>
      exact .inr
        ⟨found, looked, stopsAt_of_looked beforeOnVeq onVeq operand looked⟩

end LookBack

/-! ## Taking gates of one wire out of a block -/

/--
The second block is the first one without the nearest gates that name the
wire, of which it lists the nearest first.
-/
inductive Erases (wireOf : QuantumValue → Wire) (wire : Wire) :
    List (Gate A) → Block A → Block A → Prop where
  | nothing (block : Block A) : Erases wireOf wire [] block block
  | nearest {gate : Gate A} {dropped : List (Gate A)}
      {lower between after : Block A}
      (unnamed :
        ∀ operation ∈ between, gateOn wireOf wire operation = none)
      (further : Erases wireOf wire dropped lower after) :
      Erases wireOf wire (gate :: dropped)
        (lower ++ gate.op :: between) (after ++ between)

section Erasing

variable {wire : Wire} {dropped : List (Gate A)} {before after : Block A}

/-- Taking out the gate at which a look-back stopped. -/
theorem StopsAt.erases {found : Found A} {gate : Gate A}
    (stops : StopsAt wireOf wire before found gate)
    (further : Erases wireOf wire dropped found.lower after) :
    Erases wireOf wire (gate :: dropped) before
      (after ++ found.between) := by
  rw [stops.position]
  exact .nearest stops.unnamed further

/-- What is nearest by an index is nearest on its qubits. -/
theorem Erases.onQubit {n : ℕ} {interp : Interpretation A (Fin n)}
    {wire : Fin n}
    (erases : Erases interp.index (intOf wire) dropped before after) :
    Erases interp.qubit wire dropped before after := by
  induction erases with
  | nothing block => exact .nothing block
  | nearest unnamed further induction =>
      refine .nearest (fun operation member => ?_) induction
      rw [Option.eq_none_iff_forall_ne_some]
      intro gate named
      rcases (gateOn_eq_some interp.qubit).mp named with ⟨isGate, names⟩
      have onIndex :=
        (gateOn_eq_some interp.index).mpr ⟨isGate, names_index names⟩
      rw [unnamed operation member] at onIndex
      cases onIndex

theorem Erases.veqBlock {n : ℕ} {interp : Interpretation A (Fin n)}
    {veq : QuantumValue} (erases : Erases wireOf wire dropped before after)
    (onVeq : VeqBlock interp veq before) : VeqBlock interp veq after := by
  induction erases with
  | nothing block => exact onVeq
  | nearest unnamed further induction =>
      simp only [veqBlock_append, veqBlock_cons] at onVeq ⊢
      exact ⟨induction onVeq.1, onVeq.2.2⟩

/-- The number of gates in a block. -/
def gateCount (block : Block A) : ℕ :=
  block.countP fun operation => (asOperator operation).isSome

theorem gateCount_append (first second : Block A) :
    gateCount (first ++ second) = gateCount first + gateCount second :=
  List.countP_append

theorem gateCount_op_cons (gate : Gate A) (rest : Block A) :
    gateCount (gate.op :: rest) = gateCount rest + 1 :=
  List.countP_cons_of_pos rfl

theorem gateCount_map_op (gates : List (Gate A)) :
    gateCount (gates.map Gate.op) = gates.length := by
  induction gates with
  | nil => rfl
  | cons gate gates induction =>
      rw [List.map_cons, gateCount_op_cons, induction, List.length_cons]

theorem Erases.gateCount
    (erases : Erases wireOf wire dropped before after) :
    gateCount after + dropped.length = gateCount before := by
  induction erases with
  | nothing block => rfl
  | nearest unnamed further induction =>
      rw [gateCount_append, gateCount_append, gateCount_op_cons,
        List.length_cons]
      omega

/-- On the wire itself the gates that were taken out are gone. -/
theorem Erases.recent (erases : Erases wireOf wire dropped before after)
    (names : ∀ gate ∈ dropped, Names wireOf wire gate) :
    recent wireOf wire before = dropped ++ recent wireOf wire after := by
  induction erases with
  | nothing block => rfl
  | nearest unnamed further induction =>
      have named := names _ List.mem_cons_self
      rw [recent_append, recent_append, recent_cons,
        recent_eq_nil wireOf unnamed, gateOn_op, if_pos named,
        induction fun gate member =>
          names gate (List.mem_cons_of_mem _ member)]
      rfl

/-- A wire none of these gates names is left as it was. -/
theorem Erases.recent_other
    (erases : Erases wireOf wire dropped before after) {other : Wire}
    (unnamed : ∀ gate ∈ dropped, ¬ Names wireOf other gate) :
    WireGates.recent wireOf other before =
      WireGates.recent wireOf other after := by
  induction erases with
  | nothing block => rfl
  | nearest _ further induction =>
      have missing := unnamed _ List.mem_cons_self
      rw [recent_append, recent_append, recent_cons, gateOn_op,
        if_neg missing, induction fun gate member =>
          unnamed gate (List.mem_cons_of_mem _ member)]
      simp

end Erasing

/-! ## Gates without controls on one qubit -/

variable {n : ℕ} {interp : Interpretation A (Fin n)} {veq : QuantumValue}
variable {wire : Fin n} {dropped : List (Gate A)} {before after : Block A}

/-- A gate of the kind with one target and no controls. -/
def IsPlain (kind : GateKind) (gate : Gate A) : Prop :=
  gate.kind = kind ∧ gate.controls.length = 0 ∧ gate.targets.length = 1

instance (kind : GateKind) (gate : Gate A) :
    Decidable (IsPlain kind gate) :=
  inferInstanceAs (Decidable (_ ∧ _ ∧ _))

/-- A gate that acts on the one qubit and takes nothing else. -/
structure Single (interp : Interpretation A (Fin n)) (veq : QuantumValue)
    (wire : Fin n) (gate : Gate A) : Prop where
  controls : gate.controls = []
  targets : gate.targets = [.extractRef veq (.constant wire.val)]
  denotes : interp.qubit (.extractRef veq (.constant wire.val)) = wire
  parameters : gate.parameters = []
  kind : gate.kind.numParameters = some 0

/-- A plain gate on the register acts on the qubit it names. -/
theorem IsPlain.single {kind : GateKind} {gate : Gate A}
    (plain : IsPlain kind gate) (onVeq : OnVeq interp veq gate)
    (noParameters : kind.numParameters = some 0)
    (names : Names interp.qubit wire gate) : Single interp veq wire gate := by
  rcases plain with ⟨rfl, controlCount, targetCount⟩
  have controls := List.eq_nil_of_length_eq_zero controlCount
  rcases List.length_eq_one_iff.mp targetCount with ⟨target, targets⟩
  have operand : target ∈ gate.qubits := by
    simp [Gate.qubits, targets]
  have same : interp.qubit target = wire := by
    simpa [Names, Gate.qubits, controls, targets, eq_comm] using names
  have value : target = .extractRef veq (.constant wire.val) := by
    rw [← same]
    exact onVeq.operands target operand
  exact
    { controls := controls
      targets := by rw [targets, value]
      denotes := by rw [← value, same]
      parameters :=
        List.eq_nil_of_length_eq_zero (onVeq.parameters 0 noParameters)
      kind := noParameters }

theorem Single.names_iff {gate : Gate A}
    (single : Single interp veq wire gate) {other : Fin n} :
    Names interp.qubit other gate ↔ other = wire := by
  simp [Names, Gate.qubits, single.controls, single.targets,
    single.denotes]

theorem Single.names_index_iff {gate : Gate A}
    (single : Single interp veq wire gate) {index : ℤ} :
    Names interp.index index gate ↔ index = intOf wire := by
  simp [Names, Gate.qubits, single.controls, single.targets,
    Interpretation.index, single.denotes]

/-- Gates on one qubit each have the same target on the same qubit. -/
theorem Single.targets_eq_iff {gate other : Gate A} {wire place : Fin n}
    (single : Single interp veq wire gate)
    (otherSingle : Single interp veq place other) :
    gate.targets = other.targets ↔ wire = place := by
  rw [single.targets, otherSingle.targets]
  simp [Fin.val_inj]

/-- The gate acts on one qubit, which has the index. -/
def SingleAt (interp : Interpretation A (Fin n)) (veq : QuantumValue)
    (index : ℤ) (gate : Gate A) : Prop :=
  ∃ wire, intOf wire = index ∧ Single interp veq wire gate

theorem SingleAt.names_iff {gate : Gate A} {index other : ℤ}
    (single : SingleAt interp veq index gate) :
    Names interp.index other gate ↔ other = index := by
  rcases single with ⟨wire, rfl, single⟩
  exact single.names_index_iff

/-- A gate with an index and the target of a gate is on its qubit. -/
theorem SingleAt.single {index : ℤ} {gate other : Gate A}
    (singleAt : SingleAt interp veq index gate) {wire : Fin n}
    (single : Single interp veq wire other)
    (same : gate.targets = other.targets) :
    Single interp veq wire gate := by
  rcases singleAt with ⟨place, -, placeSingle⟩
  rw [← (placeSingle.targets_eq_iff single).mp same]
  exact placeSingle

/-- A plain gate with the index acts on one qubit with it. -/
theorem IsPlain.singleAt {kind : GateKind} {gate : Gate A}
    (plain : IsPlain kind gate) (onVeq : OnVeq interp veq gate)
    (noParameters : kind.numParameters = some 0) {index : ℤ}
    (names : Names interp.index index gate) :
    SingleAt interp veq index gate := by
  rcases List.mem_map.mp names with ⟨value, operand, same⟩
  exact ⟨interp.qubit value, same,
    plain.single onVeq noParameters (List.mem_map_of_mem operand)⟩

theorem Single.onVeq {gate : Gate A}
    (single : Single interp veq wire gate) : OnVeq interp veq gate where
  operands := by
    intro value operand
    rw [Gate.qubits, single.controls, single.targets, List.nil_append,
      List.mem_singleton] at operand
    rw [operand, single.denotes]
  distinct := by
    rw [Gate.qubits, single.controls, single.targets]
    exact List.nodup_singleton _
  parameters := by
    intro count takes
    rw [single.kind, Option.some.injEq] at takes
    rw [single.parameters, ← takes, List.length_nil]

/-- The matrix of a gate without parameters. -/
def gateMatrix (gate : Gate A) : BitMatrix :=
  match standardMatrix gate.kind [] with
  | some matrix => withAdjoint gate.isAdj matrix
  | none => 1

/-- The kinds without parameters that have a matrix. -/
def HasMatrix (kind : GateKind) : Prop :=
  (standardMatrix kind []).isSome

/-- Such a gate acts by its matrix. -/
theorem Single.gateOperator_eq {gate : Gate A}
    (single : Single interp veq wire gate) (has : HasMatrix gate.kind) :
    gateOperator interp gate = on wire (gateMatrix gate) := by
  rcases Option.isSome_iff_exists.mp has with ⟨matrix, standard⟩
  have uncontrolled : controlValues interp gate = [] := by
    unfold controlValues
    cases gate.negatedQubitControls <;> simp [single.controls]
  rw [gateOperator, uncontrolled, allOf_nil,
    General.ControlledElement.controlled_one_left, targetOperator,
    gateMatrix]
  simp only [single.parameters, single.targets, List.map_nil,
    List.map_cons, single.denotes, standard]

/-- The product of the matrices of gates, the nearest on the left. -/
def stackMatrix (gates : List (Gate A)) : BitMatrix :=
  (gates.map gateMatrix).prod

@[simp]
theorem stackMatrix_nil : stackMatrix ([] : List (Gate A)) = 1 := rfl

@[simp]
theorem stackMatrix_cons (gate : Gate A) (gates : List (Gate A)) :
    stackMatrix (gate :: gates) = gateMatrix gate * stackMatrix gates :=
  List.prod_cons

/-- A matrix on a qubit commutes with operations that do not name it. -/
theorem on_commute_unnamed {between : Block A}
    (onVeq : VeqBlock interp veq between)
    (unnamed :
      ∀ operation ∈ between, gateOn interp.qubit wire operation = none)
    (matrix : BitMatrix) :
    Commute (on wire matrix) (denote interp between) := by
  apply commute_denote
  intro operation member
  apply (onVeq operation member).on_commute
  intro gate isGate value operand same
  have names : Names interp.qubit wire gate := by
    rw [← same]
    exact List.mem_map_of_mem operand
  have named := (gateOn_eq_some interp.qubit).mpr ⟨isGate, names⟩
  rw [unnamed operation member] at named
  cases named

/-- What a block loses with the gates that are taken out of it. -/
theorem Erases.denote_eq
    (erases : Erases interp.qubit wire dropped before after)
    (onVeq : VeqBlock interp veq before)
    (acts :
      ∀ gate ∈ dropped,
        gateOperator interp gate = on wire (gateMatrix gate)) :
    denote interp before =
      on wire (stackMatrix dropped) * denote interp after := by
  induction erases with
  | nothing block => simp
  | nearest unnamed further induction =>
      simp only [veqBlock_append, veqBlock_cons] at onVeq
      have commutes := on_commute_unnamed onVeq.2.2 unnamed
      rw [denote_append, denote_cons, denote_append, operator_op,
        acts _ List.mem_cons_self,
        induction onVeq.1 fun gate member =>
          acts gate (List.mem_cons_of_mem _ member),
        stackMatrix_cons, map_mul, ← (commutes _).eq]
      simp only [mul_assoc]
      rw [← mul_assoc (denote interp _) (on wire (stackMatrix _)),
        ← (commutes _).eq]
      simp only [mul_assoc]

/-- Gates on one qubit act by their matrices. -/
theorem denote_map_op {gates : List (Gate A)}
    (acts :
      ∀ gate ∈ gates,
        gateOperator interp gate = on wire (gateMatrix gate)) :
    denote interp (gates.map Gate.op) =
      on wire (stackMatrix gates.reverse) := by
  induction gates using List.reverseRecOn with
  | nil => simp
  | append_singleton gates gate induction =>
      rw [List.map_append, denote_append, List.reverse_append,
        induction fun other member =>
          acts other (List.mem_append_left [gate] member),
        List.reverse_singleton, List.singleton_append, stackMatrix_cons,
        map_mul, ← acts gate (by simp)]
      simp

end MQSSPasses.Quake.WireGates

end
