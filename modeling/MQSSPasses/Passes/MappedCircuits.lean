import MQSSPasses.LinAlg.QuakeToLinAlg
import MQSSPasses.Passes.QuakeQMapRebuild

/-!
# What a rebuilt kernel keeps of the mapped circuit

The register of the rebuilt kernel is as large as the qubits of the kernel
before mapping, while the mapped circuit names qubits of the device.  The
`switch` over the operation types has no default, and the controls lose
their polarity.  The file says which mapped circuits are rebuilt operation
by operation inside the register.
-/

namespace MQSSPasses.Passes.MappedCircuits

open MQSSPasses.General.IntConversion
open MQSSPasses.General.OperationTree
open MQSSPasses.Quake.Syntax
open MQSSPasses.LinAlg.QuakeToLinAlg (getNumberOfQubits)
open MQSSPasses.Passes.QuakeQMapRebuild

variable {A : Type}

/-! ## Lists of at most one element -/

/--
If a function gives at most one element for each member, the elements
correspond to the members exactly if each member has one that does.
-/
theorem forall₂_flatMap_iff {First Second : Type}
    {relation : First → Second → Prop} {give : First → List Second}
    (short : ∀ member, (give member).length ≤ 1)
    (members : List First) :
    List.Forall₂ relation members (members.flatMap give) ↔
      ∀ member ∈ members,
        ∃ element, give member = [element] ∧ relation member element := by
  induction members with
  | nil => simp
  | cons member rest induction =>
      rw [List.flatMap_cons, List.forall_mem_cons, ← induction]
      have atMostOne := short member
      rcases given : give member with - | ⟨element, - | ⟨other, others⟩⟩
      · rw [List.nil_append]
        refine iff_of_false ?_ (by simp)
        -- The rest is too short to make up for the missing element.
        intro corresponds
        have lengths := corresponds.length_eq
        have bound : (rest.flatMap give).length ≤ rest.length := by
          rw [List.length_flatMap]
          refine (List.sum_le_card_nsmul _ 1 ?_).trans (by simp)
          intro size inside
          rcases List.mem_map.mp inside with ⟨first, -, rfl⟩
          exact short first
        rw [List.length_cons] at lengths
        omega
      · rw [List.singleton_append, List.forall₂_cons]
        simp
      · rw [given] at atMostOne
        simp at atMostOne

/-! ## The operations of a rebuilt kernel -/

/-- The operations that the pass emits for the mapped ones. -/
def performed (block : Block A) : Block A :=
  block.filter fun op =>
    match op.label with
    | .gate _ | .measure _ _ => true
    | _ => false

/-- The emitted operation is the mapped one, on qubits of the register. -/
def Implements (numQubits : ℕ) (mapped : MappedOperation A) (op : Op A) :
    Prop :=
  match op.label with
  | .gate gate =>
      mapped.type.gateKind = some gate.kind ∧ gate.isAdj = false ∧
        gate.targets = mapped.targets.map (qubitRef numQubits) ∧
        gate.controls =
          mapped.controls.map (fun q => qubitRef numQubits q.qubit) ∧
        gate.polarity = mapped.controls.map (·.positive) ∧
        gate.parameters = mapped.parameter.map .constant
  | .measure basis targets =>
      mapped.type = .Measure ∧ basis = .mz ∧
        targets = mapped.targets.map (qubitRef numQubits) ∧
        mapped.controls = [] ∧ mapped.parameter = []
  | _ => False

/-- The references that the pass emits. -/
def references (block : Block A) : List QuantumValue :=
  block.filterMap fun op =>
    match op.label with
    | .extractRef value => some value
    | _ => none

/-- A reference into the allocated register, below its size. -/
def InRegister (numQubits : ℕ) (value : QuantumValue) : Prop :=
  ∃ index : ℤ, value = .extractRef (qubits numQubits) (.constant index) ∧
    0 ≤ index ∧ index < numQubits

/-- The operations that are not barriers. -/
def withoutBarriers (qcMapped : MappedCircuit A) : MappedCircuit A :=
  qcMapped.filter fun op => op.type ≠ .Barrier

/-- The rebuilt kernel performs the circuit inside its register. -/
structure Rebuilt (numQubits : ℕ) (qcMapped : MappedCircuit A)
    (block : Block A) : Prop where
  operations :
    List.Forall₂ (Implements numQubits) (withoutBarriers qcMapped)
      (performed block)
  inside : ∀ value ∈ references block, InRegister numQubits value

/-- The qubits of the device that an operation names. -/
def namedQubits (mapped : MappedOperation A) : List ℕ :=
  mapped.targets ++ mapped.controls.map (·.qubit)

/-- An operation that the `switch` keeps, on qubits of the register. -/
structure Kept (numQubits : ℕ) (mapped : MappedOperation A) : Prop where
  type : mapped.type = .Measure ∨ mapped.type.gateKind ≠ none
  measure :
    mapped.type = .Measure → mapped.controls = [] ∧ mapped.parameter = []
  positive : ∀ control ∈ mapped.controls, control.positive = true
  inside : ∀ index ∈ namedQubits mapped, index < numQubits

/-- What the `switch` creates for an operation. -/
def created (numQubits : ℕ) (op : MappedOperation A) : Block A :=
  createOperation op.type (op.parameter.map .constant)
    (op.controls.map fun q => qubitRef numQubits q.qubit)
    (op.targets.map (qubitRef numQubits))

theorem created_length (numQubits : ℕ) (op : MappedOperation A) :
    (created numQubits op).length ≤ 1 := by
  rw [created]
  cases op.type <;> simp [createOperation, OpType.gateKind]

theorem performed_append (first second : Block A) :
    performed (first ++ second) = performed first ++ performed second :=
  List.filter_append _ _

theorem performed_created (numQubits : ℕ) (op : MappedOperation A) :
    performed (created numQubits op) = created numQubits op := by
  rw [created]
  cases op.type <;> rfl

theorem performed_annotate (numQubits : ℕ) (op : MappedOperation A) :
    performed (annotate numQubits op) =
      if op.type = .Barrier then [] else created numQubits op := by
  have refs (values : List QuantumValue) :
      performed (values.map fun value =>
        (Node.leaf (.extractRef value) : Op A)) = [] := by
    simp [performed, List.filter_eq_nil_iff]
  have constants (values : List (FloatValue A)) :
      performed (values.map fun value =>
        (Node.leaf (.constant value) : Op A)) = [] := by
    simp [performed, List.filter_eq_nil_iff]
  rw [annotate]
  split
  · rfl
  · simp only [performed_append, refs, constants, List.nil_append]
    exact performed_created numQubits op

theorem performed_rebuild (numQubits : ℕ) (qcMapped : MappedCircuit A) :
    performed (rebuild numQubits qcMapped) =
      (withoutBarriers qcMapped).flatMap (created numQubits) := by
  have traversed :
      performed (qcMapped.flatMap (annotate numQubits)) =
        (withoutBarriers qcMapped).flatMap (created numQubits) := by
    induction qcMapped with
    | nil => rfl
    | cons op rest induction =>
        rw [List.flatMap_cons, performed_append, induction,
          performed_annotate, withoutBarriers, withoutBarriers,
          List.filter_cons]
        by_cases barrier : op.type = .Barrier <;> simp [barrier]
  rw [rebuild, performed_append, performed, List.filter_cons]
  change performed (qcMapped.flatMap (annotate numQubits)) ++ [] = _
  rw [traversed, List.append_nil]

/-! ## When the circuit is kept -/

/-- No control of an operation that the `switch` creates is negated. -/
theorem polarity_create (kind : GateKind) (parameters : List (FloatValue A))
    (controls : List QCControl) (numQubits : ℕ)
    (targets : List QuantumValue) :
    (Gate.create kind false parameters
        (controls.map fun q => qubitRef numQubits q.qubit)
        targets).polarity = controls.map (·.positive) ↔
      ∀ control ∈ controls, control.positive = true := by
  rw [Gate.polarity, Gate.create, List.map_map, List.map_inj_left]
  exact forall_congr' fun control => forall_congr' fun _ => eq_comm

/-- What the `switch` creates is the operation, if it has a case for it. -/
theorem created_implements_iff (numQubits : ℕ) (mapped : MappedOperation A) :
    (∃ op, created numQubits mapped = [op] ∧
        Implements numQubits mapped op) ↔
      (mapped.type = .Measure ∨ mapped.type.gateKind ≠ none) ∧
        (mapped.type = .Measure →
          mapped.controls = [] ∧ mapped.parameter = []) ∧
        ∀ control ∈ mapped.controls, control.positive = true := by
  rcases mapped with ⟨type, targets, controls, parameter, classics⟩
  cases known : type.gateKind with
  | some kind =>
      have noMeasure : type ≠ .Measure := by
        rintro rfl
        cases known
      have gate :
          created numQubits
              ⟨type, targets, controls, parameter, classics⟩ =
            [(Gate.create kind false (parameter.map .constant)
              (controls.map fun q => qubitRef numQubits q.qubit)
              (targets.map (qubitRef numQubits))).op] := by
        rw [created, createOperation]
        · simp only [known]
        · exact noMeasure
      rw [gate]
      simp only [List.cons.injEq, and_true, exists_eq_left', Implements,
        Gate.op, Node.leaf, Node.label, polarity_create]
      simp [known, noMeasure, Gate.create]
  | none =>
      by_cases measure : type = .Measure
      · subst measure
        simp only [created, createOperation, List.cons.injEq, and_true,
          exists_eq_left', Implements, Node.leaf, Node.label, true_and]
        constructor
        · rintro ⟨noControls, noParameters⟩
          refine ⟨.inl trivial, fun _ => ⟨noControls, noParameters⟩, ?_⟩
          rw [noControls]
          simp
        · exact fun kept => kept.2.1 trivial
      · have nothing :
            created numQubits
              ⟨type, targets, controls, parameter, classics⟩ = [] := by
          rw [created, createOperation]
          · simp only [known]
          · exact measure
        rw [nothing]
        refine iff_of_false ?_ ?_
        · rintro ⟨op, ⟨⟩, -⟩
        · rintro ⟨handled | handled, -⟩
          · exact measure handled
          · exact handled rfl

/-- The operations correspond exactly if the `switch` keeps each of them. -/
theorem operations_iff (numQubits : ℕ) (qcMapped : MappedCircuit A) :
    List.Forall₂ (Implements numQubits) (withoutBarriers qcMapped)
        (performed (rebuild numQubits qcMapped)) ↔
      ∀ mapped ∈ withoutBarriers qcMapped,
        (mapped.type = .Measure ∨ mapped.type.gateKind ≠ none) ∧
          (mapped.type = .Measure →
            mapped.controls = [] ∧ mapped.parameter = []) ∧
          ∀ control ∈ mapped.controls, control.positive = true := by
  rw [performed_rebuild, forall₂_flatMap_iff (created_length numQubits)]
  exact forall_congr' fun mapped => forall_congr' fun _ =>
    created_implements_iff numQubits mapped

theorem references_append (first second : Block A) :
    references (first ++ second) = references first ++ references second :=
  List.filterMap_append

/-- The references that are emitted are those of targets and controls. -/
theorem references_annotate (numQubits : ℕ) (op : MappedOperation A) :
    references (annotate numQubits op) =
      if op.type = .Barrier then []
      else (namedQubits op).map (qubitRef numQubits) := by
  have refs (values : List QuantumValue) :
      references (values.map fun value =>
        (Node.leaf (.extractRef value) : Op A)) = values := by
    simp [references, List.filterMap_map, Function.comp_def]
  have constants (values : List (FloatValue A)) :
      references (values.map fun value =>
        (Node.leaf (.constant value) : Op A)) = [] := by
    simp [references, List.filterMap_map, Function.comp_def]
  have noRefs : references (created numQubits op) = [] := by
    rw [created]
    cases op.type <;> rfl
  rw [created] at noRefs
  rw [annotate]
  split
  · rfl
  · simp only [references_append, refs, constants, noRefs,
      List.append_nil]
    rw [namedQubits, List.map_append, List.map_map]
    rfl

theorem references_rebuild (numQubits : ℕ) (qcMapped : MappedCircuit A) :
    references (rebuild numQubits qcMapped) =
      (withoutBarriers qcMapped).flatMap fun op =>
        (namedQubits op).map (qubitRef numQubits) := by
  have traversed :
      references (qcMapped.flatMap (annotate numQubits)) =
        (withoutBarriers qcMapped).flatMap fun op =>
          (namedQubits op).map (qubitRef numQubits) := by
    induction qcMapped with
    | nil => rfl
    | cons op rest induction =>
        rw [List.flatMap_cons, references_append, induction,
          references_annotate, withoutBarriers, withoutBarriers,
          List.filter_cons]
        by_cases barrier : op.type = .Barrier <;> simp [barrier]
  rw [rebuild, references_append, references, List.filterMap_cons]
  change references (qcMapped.flatMap (annotate numQubits)) ++ [] = _
  rw [traversed, List.append_nil]

/-- Every emitted reference is inside the register. -/
theorem inside_iff (numQubits : ℕ) (qcMapped : MappedCircuit A) :
    (∀ value ∈ references (rebuild numQubits qcMapped),
        InRegister numQubits value) ↔
      ∀ mapped ∈ withoutBarriers qcMapped,
        ∀ index ∈ namedQubits mapped, index < numQubits := by
  rw [references_rebuild]
  constructor
  · intro inside mapped member index named
    rcases inside (qubitRef numQubits index)
        (List.mem_flatMap.mpr ⟨mapped, member,
          List.mem_map_of_mem named⟩) with ⟨place, equal, -, less⟩
    cases equal
    exact_mod_cast less
  · intro small value emitted
    rcases List.mem_flatMap.mp emitted with ⟨mapped, member, inside⟩
    rcases List.mem_map.mp inside with ⟨index, named, rfl⟩
    refine ⟨index, rfl, Int.natCast_nonneg index, ?_⟩
    exact_mod_cast small mapped member index named

/--
The circuit is performed inside the register exactly if the `switch` keeps
each operation and its qubits are among those of the kernel before mapping.
-/
theorem rebuilt_iff (kernel : Op A) (qcMapped : MappedCircuit A) :
    Rebuilt (toSize (getNumberOfQubits kernel)) qcMapped
        (rebuild (toSize (getNumberOfQubits kernel)) qcMapped) ↔
      ∀ mapped ∈ qcMapped, mapped.type ≠ .Barrier →
        Kept (toSize (getNumberOfQubits kernel)) mapped := by
  have operations :=
    operations_iff (toSize (getNumberOfQubits kernel)) qcMapped
  have inside := inside_iff (toSize (getNumberOfQubits kernel)) qcMapped
  simp only [withoutBarriers, List.mem_filter, decide_eq_true_eq,
    and_imp] at operations inside
  constructor
  · intro rebuilt mapped member noBarrier
    rcases operations.mp rebuilt.operations mapped member noBarrier with
      ⟨type, measure, positive⟩
    exact ⟨type, measure, positive,
      inside.mp rebuilt.inside mapped member noBarrier⟩
  · intro kept
    refine ⟨operations.mpr ?_, inside.mpr ?_⟩
    · intro mapped member noBarrier
      have keeps := kept mapped member noBarrier
      exact ⟨keeps.type, keeps.measure, keeps.positive⟩
    · intro mapped member noBarrier
      exact (kept mapped member noBarrier).inside

/-- A kernel with one qubit, and a circuit on a device with four. -/
theorem smaller_kernel_not_rebuilt :
    ∃ (kernel : Op ℤ) (qcMapped : MappedCircuit ℤ),
      kernel = kernelOf
        [.leaf (.alloca (.veqAlloca 0 1)),
          (Gate.create .h false [] []
            [.extractRef (.veqAlloca 0 1) (.constant 0)]).op] ∧
      qcMapped = [⟨.H, [3], [], [], []⟩] ∧
      ¬ Rebuilt (toSize (getNumberOfQubits kernel)) qcMapped
        (rebuild (toSize (getNumberOfQubits kernel)) qcMapped) := by
  refine ⟨_, _, rfl, rfl, ?_⟩
  intro rebuilt
  rcases rebuilt.inside (qubitRef 1 3) (by decide) with
    ⟨index, equal, -, less⟩
  cases equal
  exact absurd less (by decide)

end MQSSPasses.Passes.MappedCircuits
