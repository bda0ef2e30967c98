import MQSSPasses.Quake.Operations

/-!
# Rebuilding a kernel from the mapped circuit

After mapping, the pass clears the kernel and traverses the mapped circuit.
For every operation it emits references to the targets and the controls,
constants for the parameters, and the operation itself.  Operations of a
type it does not know leave only their operands behind.

A measurement of the mapped circuit names the classical bit it writes.  The
emitted `quake.mz` does not, so its bit is its place among the measurements
of the kernel.  The last section says for which mapped circuits this is the
bit the circuit names.
-/

namespace MQSSPasses.Passes.QuakeQMapRebuild

open MQSSPasses.General.OperationTree
open MQSSPasses.Quake.Syntax

variable {A : Type}

/-! ## The mapped circuit -/

/-- The types of `qc::Operation` that the traversal distinguishes. -/
inductive OpType where
  | Barrier
  | X
  | Y
  | Z
  | RX
  | RY
  | RZ
  | SWAP
  | H
  | S
  | T
  | Measure
  /-- A type without a case of its own. -/
  | other (name : String)
  deriving DecidableEq, Repr

/-- A control of a `qc::Operation`. -/
structure QCControl where
  qubit : ℕ
  positive : Bool
  deriving DecidableEq, Repr

/-- A `qc::Operation`; only measurements have classical bits. -/
structure MappedOperation (A : Type) where
  type : OpType
  targets : List ℕ
  controls : List QCControl
  parameter : List A
  classics : List ℕ
  deriving DecidableEq, Repr

/-- A `qc::QuantumComputation` as the sequence of its operations. -/
abbrev MappedCircuit (A : Type) : Type := List (MappedOperation A)

/-! ## The traversal -/

/-- The register that the rebuilt kernel allocates. -/
def qubits (numQubits : ℕ) : QuantumValue :=
  .veqAlloca 0 numQubits

/-- `builder.create<quake::ExtractRefOp>` at an index. -/
def qubitRef (numQubits index : ℕ) : QuantumValue :=
  .extractRef (qubits numQubits) (.constant index)

/-- The gate kind that is created for a type, if any. -/
def OpType.gateKind : OpType → Option GateKind
  | .X => some .x
  | .Y => some .y
  | .Z => some .z
  | .RX => some .rx
  | .RY => some .ry
  | .RZ => some .rz
  | .SWAP => some .swap
  | .H => some .h
  | .S => some .s
  | .T => some .t
  | .Barrier | .Measure | .other _ => none

/-- The operation that the `switch` creates. -/
def createOperation (type : OpType) (parameterValues : List (FloatValue A))
    (controlValues targetValues : List QuantumValue) : Block A :=
  match type with
  | .Measure => [.leaf (.measure .mz targetValues)]
  | other =>
      match other.gateKind with
      | some kind =>
          [(Gate.create kind false parameterValues controlValues
            targetValues).op]
      | none => []

/-- What the traversal emits for one operation. -/
def annotate (numQubits : ℕ) (op : MappedOperation A) : Block A :=
  if op.type = .Barrier then []
  else
    let targetValues := op.targets.map (qubitRef numQubits)
    let controlValues :=
      op.controls.map fun q => qubitRef numQubits q.qubit
    let parameterValues := op.parameter.map FloatValue.constant
    targetValues.map (fun value => .leaf (.extractRef value)) ++
      controlValues.map (fun value => .leaf (.extractRef value)) ++
      parameterValues.map (fun value => .leaf (.constant value)) ++
      createOperation op.type parameterValues controlValues targetValues

/-- The body of the rebuilt kernel. -/
def rebuild (numQubits : ℕ) (qcMapped : MappedCircuit A) : Block A :=
  .leaf (.alloca (qubits numQubits)) ::
    qcMapped.flatMap (annotate numQubits) ++ [.leaf .ret]

/-! ## The measurements of the rebuilt kernel -/

/-- The targets of a `quake.mz`. -/
def mzTargets (op : Op A) : Option (List QuantumValue) :=
  match op.label with
  | .measure .mz targets => some targets
  | _ => none

/-- The measurements of a mapped circuit in program order. -/
def measurements (qcMapped : MappedCircuit A) : MappedCircuit A :=
  qcMapped.filter fun op => op.type = .Measure

/-- A mapped operation yields a measurement exactly if it is one. -/
theorem filterMap_annotate (numQubits : ℕ) (op : MappedOperation A) :
    (annotate numQubits op).filterMap mzTargets =
      if op.type = .Measure then [op.targets.map (qubitRef numQubits)]
      else [] := by
  have refs (values : List QuantumValue) :
      (values.map fun value =>
        (Node.leaf (.extractRef value) : Op A)).filterMap mzTargets =
          [] := by
    simp [List.filterMap_map, Function.comp_def, mzTargets]
  have constants (values : List (FloatValue A)) :
      (values.map fun value =>
        (Node.leaf (.constant value) : Op A)).filterMap mzTargets =
          [] := by
    simp [List.filterMap_map, Function.comp_def, mzTargets]
  by_cases barrier : op.type = .Barrier
  · simp [annotate, barrier]
  · rw [annotate, if_neg barrier]
    simp only [List.filterMap_append, refs, constants, List.nil_append]
    cases type : op.type <;>
      simp [createOperation, OpType.gateKind, mzTargets, Gate.op]

/-- The measurements of the rebuilt kernel, in program order. -/
theorem filterMap_rebuild (numQubits : ℕ) (qcMapped : MappedCircuit A) :
    (rebuild numQubits qcMapped).filterMap mzTargets =
      (measurements qcMapped).map fun op =>
        op.targets.map (qubitRef numQubits) := by
  have traversed :
      (qcMapped.flatMap (annotate numQubits)).filterMap mzTargets =
        (measurements qcMapped).map fun op =>
          op.targets.map (qubitRef numQubits) := by
    induction qcMapped with
    | nil => rfl
    | cons op rest induction =>
        rw [List.flatMap_cons, List.filterMap_append, induction,
          filterMap_annotate, measurements, measurements,
          List.filter_cons]
        by_cases measures : op.type = .Measure <;> simp [measures]
  rw [rebuild, List.filterMap_append, List.filterMap_cons, traversed]
  simp [mzTargets]

/-! ## Where the outcomes go -/

/-- The mapped circuit measures a qubit into a classical bit. -/
def Records (qcMapped : MappedCircuit A) (qubit bit : ℕ) : Prop :=
  ∃ op ∈ measurements qcMapped, op.targets = [qubit] ∧ op.classics = [bit]

/--
The measurement at each place of the rebuilt kernel measures exactly the
qubit that the mapped circuit measures into the bit of that number.
-/
def DeliversOutcomes (numQubits : ℕ) (qcMapped : MappedCircuit A) : Prop :=
  ∀ place qubit,
    ((rebuild numQubits qcMapped).filterMap mzTargets)[place]? =
        some [qubitRef numQubits qubit] ↔
      Records qcMapped qubit place

/-- The measurements come in the order of the bits 0, 1, 2 and so on. -/
def InBitOrder (qcMapped : MappedCircuit A) : Prop :=
  ∀ place (op : MappedOperation A),
    (measurements qcMapped)[place]? = some op → op.classics = [place]

/--
Every measurement records one qubit in one bit, and no qubit and no bit
twice.
-/
structure OneToOne (qcMapped : MappedCircuit A) : Prop where
  single :
    ∀ op ∈ measurements qcMapped,
      ∃ qubit bit, op.targets = [qubit] ∧ op.classics = [bit]
  qubits : ((measurements qcMapped).flatMap (·.targets)).Nodup
  bits : ((measurements qcMapped).flatMap (·.classics)).Nodup

/-- The place of a measurement is determined by the qubit it measures. -/
theorem OneToOne.place_unique {qcMapped : MappedCircuit A}
    (oneToOne : OneToOne qcMapped) {first second qubit : ℕ}
    {op other : MappedOperation A}
    (atFirst : (measurements qcMapped)[first]? = some op)
    (atSecond : (measurements qcMapped)[second]? = some other)
    (targets : op.targets = [qubit]) (sameTargets : other.targets = [qubit]) :
    first = second := by
  rcases List.getElem?_eq_some_iff.mp atFirst with ⟨firstInside, rfl⟩
  rcases List.getElem?_eq_some_iff.mp atSecond with ⟨secondInside, rfl⟩
  have apart := (List.nodup_flatMap.mp oneToOne.qubits).2
  rw [List.pairwise_iff_getElem] at apart
  rcases Nat.lt_trichotomy first second with before | same | after
  · have disjoint := apart first second firstInside secondInside before
    simp [Function.onFun, targets, sameTargets] at disjoint
  · exact same
  · have disjoint := apart second first secondInside firstInside after
    simp [Function.onFun, targets, sameTargets] at disjoint

theorem qubitRef_injective (numQubits : ℕ) :
    Function.Injective (qubitRef numQubits) := by
  intro first second equal
  simpa [qubitRef] using equal

/-- The qubit that the measurement at a place of the rebuilt kernel reads. -/
theorem measures_iff (numQubits : ℕ) (qcMapped : MappedCircuit A)
    (place qubit : ℕ) :
    ((rebuild numQubits qcMapped).filterMap mzTargets)[place]? =
        some [qubitRef numQubits qubit] ↔
      ∃ op, (measurements qcMapped)[place]? = some op ∧
        op.targets = [qubit] := by
  have injective := List.map_injective_iff.mpr (qubitRef_injective numQubits)
  have single (targets : List ℕ) :
      targets.map (qubitRef numQubits) = [qubitRef numQubits qubit] ↔
        targets = [qubit] :=
    injective.eq_iff (b := [qubit])
  rw [filterMap_rebuild, List.getElem?_map, Option.map_eq_some_iff]
  simp only [single]

/--
The rebuilt kernel delivers every outcome to the bit the mapped circuit
names exactly when the measurements come in the order of their bits.
-/
theorem deliversOutcomes_iff (numQubits : ℕ) {qcMapped : MappedCircuit A}
    (oneToOne : OneToOne qcMapped) :
    DeliversOutcomes numQubits qcMapped ↔ InBitOrder qcMapped := by
  constructor
  · intro delivers place op reached
    rcases oneToOne.single op (List.mem_of_getElem? reached) with
      ⟨qubit, bit, targets, classics⟩
    -- The measurement that the bit asks for measures the same qubit.
    have recorded : Records qcMapped qubit bit :=
      ⟨op, List.mem_of_getElem? reached, targets, classics⟩
    rcases (measures_iff numQubits qcMapped bit qubit).mp
      ((delivers bit qubit).mpr recorded) with
      ⟨other, atBit, sameTargets⟩
    rw [oneToOne.place_unique reached atBit targets sameTargets, classics]
  · intro inOrder place qubit
    rw [measures_iff]
    constructor
    · rintro ⟨op, reached, targets⟩
      exact ⟨op, List.mem_of_getElem? reached, targets,
        inOrder place op reached⟩
    · rintro ⟨op, member, targets, classics⟩
      rcases List.getElem?_of_mem member with ⟨index, reached⟩
      have atIndex := inOrder index op reached
      rw [classics, List.singleton_inj] at atIndex
      exact ⟨op, atIndex ▸ reached, targets⟩

section Permuted

/-- Two measurements which record the qubits in exchanged bits. -/
def permuted : MappedCircuit ℤ :=
  [⟨.SWAP, [0, 1], [], [], []⟩, ⟨.Measure, [0], [], [], [1]⟩,
    ⟨.Measure, [1], [], [], [0]⟩]

theorem permuted_oneToOne : OneToOne permuted where
  single := by
    intro op member
    simp only [measurements, permuted, List.mem_filter, List.mem_cons,
      List.not_mem_nil, or_false, decide_eq_true_eq] at member
    rcases member with ⟨rfl | rfl | rfl, measures⟩
    · cases measures
    · exact ⟨0, 1, rfl, rfl⟩
    · exact ⟨1, 0, rfl, rfl⟩
  qubits := by decide
  bits := by decide

/-- The criterion at the circuit with the exchanged bits. -/
theorem permuted_deliversOutcomes_iff :
    DeliversOutcomes 2 permuted ↔ InBitOrder permuted :=
  deliversOutcomes_iff 2 permuted_oneToOne

/-- The first measurement reads the qubit of the second bit. -/
theorem permuted_not_delivered :
    OneToOne permuted ∧ ¬ DeliversOutcomes 2 permuted := by
  refine ⟨permuted_oneToOne, ?_⟩
  intro delivers
  rcases (delivers 0 0).mp rfl with ⟨op, member, targets, classics⟩
  simp only [measurements, permuted, List.mem_filter, List.mem_cons,
    List.not_mem_nil, or_false, decide_eq_true_eq] at member
  rcases member with ⟨rfl | rfl | rfl, -⟩
  · cases classics
  · cases classics
  · cases targets

end Permuted

end MQSSPasses.Passes.QuakeQMapRebuild
