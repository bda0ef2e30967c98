import MQSSPasses.DAG.Construction
import MQSSPasses.Quake.Semantics

/-!
# The graph of a kernel

On a kernel whose gates act on one register the graph is the graph of the
gates as a program on wires.  So it has no cycle, a gate has as many edges
on either side as it has operands, every qubit is a path through its gates,
and any topological order of the gates has the unitary of the kernel.

This needs the kernel to allocate the register, since the vertices of the
qubits are counted by the allocations; gates on a register that is an
argument get no edges.  It also needs the parameters to be defined by
operations, since those of a block argument are read through a null pointer.
-/

namespace MQSSPasses.DAG.Parsing

open MQSSPasses.General.IntConversion
open MQSSPasses.General.TracedComputation
open MQSSPasses.General.OperationTree
open MQSSPasses.General.OrderedMap
open MQSSPasses.General.TopologicalOrders
open MQSSPasses.General.WireGraph
open MQSSPasses.General.QubitOperators
open MQSSPasses.Quake.Syntax
open MQSSPasses.Quake.Operations
open MQSSPasses.Quake.Semantics
open MQSSPasses.LinAlg.QuakeToLinAlg
open MQSSPasses.DAG.Construction

variable {A : Type}

/-! ## Kernels on one register -/

/-- A qubit of a register. -/
def element (veq : QuantumValue) (index : ℕ) : QuantumValue :=
  .extractRef veq (.constant index)

/-- The gates of a block, in order. -/
def gatesOf (block : Block A) : List (Gate A) :=
  block.filterMap asOperator

def isAllocation (operation : Op A) : Bool :=
  match operation.label with
  | .alloca _ => true
  | _ => false

/-- A gate on distinct qubits of a register. -/
structure GateOn (veq : QuantumValue) (size : ℕ) (gate : Gate A) :
    Prop where
  operands :
    ∀ value ∈ gate.qubits, ∃ index < size, value = element veq index
  distinct : gate.qubits.Nodup

/-- A register is allocated, or it is an argument of the kernel. -/
inductive IsRegister (size : ℕ) : QuantumValue → Prop where
  | allocated (id : ℕ) : IsRegister size (.veqAlloca id size)
  | argument (id : ℕ) : IsRegister size (.veqArgument id)

/-- The allocations in a kernel with one register. -/
def allocationsOf : QuantumValue → Block A
  | .veqAlloca id size => [.leaf (.alloca (.veqAlloca id size))]
  | _ => []

/-- A kernel without regions whose gates are on the one register. -/
structure KernelOver (veq : QuantumValue) (size : ℕ) (block : Block A) :
    Prop where
  flat : ∀ operation ∈ block, operation.blocks = []
  register : IsRegister size veq
  allocates : block.filter isAllocation = allocationsOf veq
  gates : ∀ gate ∈ gatesOf block, GateOn veq size gate

/--
A kernel that allocates its one register, of a size for which the qubits can
be counted.
-/
structure RegisterKernel (id size : ℕ) (block : Block A) : Prop
    extends KernelOver (.veqAlloca id size) size block where
  fits : size < 2147483648

/-- The number of a qubit in its register. -/
def wireOf : QuantumValue → ℕ
  | .extractRef _ (.constant index) => index.toNat
  | _ => 0

/-- The wires of a gate, in the order in which they are led to it. -/
def wiresOf (gate : Gate A) : List ℕ :=
  (gate.targets ++ gate.controls).map wireOf

@[simp]
theorem wireOf_element (veq : QuantumValue) (index : ℕ) :
    wireOf (element veq index) = index := by
  simp [wireOf, element]

theorem wiresOf_length (gate : Gate A) :
    (wiresOf gate).length = gate.qubits.length := by
  simp [wiresOf, Gate.qubits, Nat.add_comm]

section Register

variable {veq : QuantumValue} {size : ℕ} {gate : Gate A}

theorem wiresOf_perm (gate : Gate A) :
    (wiresOf gate).Perm (gate.qubits.map wireOf) :=
  List.perm_append_comm.map wireOf

theorem GateOn.operand (gateOn : GateOn veq size gate)
    {value : QuantumValue} (member : value ∈ gate.qubits) :
    wireOf value < size ∧ value = element veq (wireOf value) := by
  rcases gateOn.operands value member with ⟨index, inside, rfl⟩
  rw [wireOf_element]
  exact ⟨inside, rfl⟩

theorem GateOn.wires_lt (gateOn : GateOn veq size gate) :
    ∀ wire ∈ wiresOf gate, wire < size := by
  intro wire member
  rcases List.mem_map.mp ((wiresOf_perm gate).subset member) with
    ⟨value, operand, rfl⟩
  exact (gateOn.operand operand).1

theorem GateOn.wires_nodup (gateOn : GateOn veq size gate) :
    (wiresOf gate).Nodup := by
  rw [(wiresOf_perm gate).nodup_iff]
  refine List.Nodup.map_on ?_ gateOn.distinct
  intro first member second other equal
  rw [(gateOn.operand member).2, (gateOn.operand other).2, equal]

theorem GateOn.mem_wiresOf (gateOn : GateOn veq size gate) {wire : ℕ} :
    wire ∈ wiresOf gate ↔ element veq wire ∈ gate.qubits := by
  rw [(wiresOf_perm gate).mem_iff, List.mem_map]
  constructor
  · rintro ⟨value, member, rfl⟩
    rw [← (gateOn.operand member).2]
    exact member
  · intro member
    exact ⟨_, member, wireOf_element veq wire⟩

/-- The indices of operands are their wires. -/
theorem GateOn.indices (gateOn : GateOn veq size gate)
    (fits : size < 2147483648) {values : List QuantumValue}
    (among : values ⊆ gate.qubits) :
    getIndicesOfValueRange values =
      .ok ((values.map wireOf).map fun wire : ℕ => (wire : ℤ)) := by
  induction values with
  | nil => rfl
  | cons value others induction =>
      have operand := gateOn.operand (among List.mem_cons_self)
      have read :
          qubitIndex (element veq (wireOf value)) =
            .ok (wireOf value : ℤ) := by
        rw [element, qubitIndex_constant,
          toInt_of_fits (by omega) (by omega)]
      have later :=
        induction fun other member =>
          among (List.mem_cons_of_mem value member)
      rw [getIndicesOfValueRange] at later ⊢
      rw [List.mapM_cons, later]
      conv_lhs => rw [operand.2, read]
      rfl

end Register

/-! ## What has been parsed -/

/-- The vertex of a qubit. -/
def qubitVertex (i : ℕ) : MLIRVertex A :=
  { name := "q_" ++ toString i, isQubit := true }

/-- The vertex of the measurement. -/
def measurementVertex : MLIRVertex A :=
  { name := "measurement", isMeasurement := true }

section Parsed

variable [Neg A] [One A] (narrow : A → A)

/-- The vertex of a gate, with the data read from the gate at its place. -/
structure IsGateVertex (entry : Gate A × ℕ) (vertex : MLIRVertex A) :
    Prop where
  name : vertex.name = numbered entry.1.kind.mnemonic entry.2
  operation : vertex.operation = some entry.1.op
  targets :
    getIndicesOfValueRange entry.1.targets = .ok vertex.targets
  controls :
    getIndicesOfValueRange entry.1.controls = .ok vertex.controls
  arguments :
    getParametersValues narrow entry.1.parameters = .ok vertex.arguments
  isAdj : vertex.isAdj = entry.1.isAdj
  isQubit : vertex.isQubit = false
  isMeasurement : vertex.isMeasurement = false

/-- A name given to a qubit or to one of the first gates. -/
def UsedName (count : ℕ) (name : String) : Prop :=
  (∃ i, name = numbered "q" i) ∨
    ∃ kind : GateKind, ∃ place < count,
      name = numbered kind.mnemonic place

/-- The state once the gates of a register have been parsed. -/
structure Parsed (size : ℕ) (gates : List (Gate A))
    (state : ParseState A) : Prop where
  vertices :
    ∃ loaded,
      state.dag.vertices = (List.range size).map qubitVertex ++ loaded ∧
        List.Forall₂ (IsGateVertex narrow) gates.zipIdx loaded
  names : ∀ entry ∈ state.dag.node_map, UsedName gates.length entry.1
  counted : state.idx = gates.length
  wired :
    ∃ last, state.qubitsHistory = historyOf size last ∧
      Wired size (gates.map wiresOf) ⟨state.dag.edges, last⟩

variable {narrow} {size : ℕ} {gates : List (Gate A)}
variable {state : ParseState A}

theorem Parsed.vertices_length (parsed : Parsed narrow size gates state) :
    state.dag.vertices.length = size + gates.length := by
  rcases parsed.vertices with ⟨loaded, vertices, loads⟩
  rw [vertices, List.length_append, List.length_map, List.length_range,
    ← loads.length_eq, List.length_zipIdx]

omit [Neg A] [One A] in
theorem addQubit_of_new (state : ParseState A)
    (new :
      ∀ entry ∈ state.dag.node_map,
        "q_" ++ toString state.dag.vertices.length ≠ entry.1) :
    addQubit state state.dag.vertices.length =
      ⟨⟨state.dag.vertices ++ [qubitVertex state.dag.vertices.length],
          state.dag.edges,
          ("q_" ++ toString state.dag.vertices.length,
            state.dag.vertices.length) :: state.dag.node_map⟩,
        assign Prod.fst
          ((state.dag.vertices.length : ℤ), state.dag.vertices.length)
          state.qubitsHistory,
        state.idx⟩ := by
  have added :=
    add_and_modify new fun vertex => { vertex with isQubit := true }
  simp only [addQubit, added.1, added.2]
  rfl

omit [Neg A] [One A] in
/-- The vertices of the qubits come first. -/
theorem addQubits (size : ℕ) :
    ∃ node_map,
      (List.range size).foldl addQubit
          (⟨{}, [], 0⟩ : ParseState A) =
        ⟨⟨(List.range size).map qubitVertex, [], node_map⟩,
          historyOf size id, 0⟩ ∧
        ∀ entry ∈ node_map, ∃ i < size, entry.1 = numbered "q" i := by
  induction size with
  | zero => exact ⟨[], rfl, by simp⟩
  | succ size induction =>
      rcases induction with ⟨node_map, added, names⟩
      have place :
          ((List.range size).map (@qubitVertex A)).length = size := by
        simp
      have next :=
        addQubit_of_new
          (⟨⟨(List.range size).map (@qubitVertex A), [], node_map⟩,
            historyOf size id, 0⟩ : ParseState A)
      dsimp only at next
      rw [place] at next
      refine ⟨("q_" ++ toString size, size) :: node_map, ?_, ?_⟩
      · rw [List.range_succ, List.foldl_append, added, List.foldl_cons,
          List.foldl_nil, next, List.map_append, List.map_singleton]
        · rw [← assign_history_new]
          rfl
        · intro entry member equal
          rcases names entry member with ⟨i, below, named⟩
          rw [qubitName_eq, named] at equal
          have := (numbered_inj equal).2
          omega
      · intro entry member
        rcases List.mem_cons.mp member with rfl | old
        · exact ⟨size, Nat.lt_succ_self size, qubitName_eq size⟩
        · rcases names entry old with ⟨i, below, named⟩
          exact ⟨i, Nat.lt_succ_of_lt below, named⟩

variable (narrow) in
theorem parsed_start (size : ℕ) :
    Parsed narrow size []
      ((List.range size).foldl addQubit (⟨{}, [], 0⟩ : ParseState A)) := by
  rcases addQubits size with ⟨node_map, added, names⟩
  rw [added]
  exact
    { vertices := ⟨[], (List.append_nil _).symm, .nil⟩
      names := fun entry member => by
        rcases names entry member with ⟨i, -, named⟩
        exact .inl ⟨i, named⟩
      counted := rfl
      wired := ⟨id, rfl, wired_start size⟩ }

/-- The name of the next gate is new. -/
theorem Parsed.gate_new (parsed : Parsed narrow size gates state)
    (kind : GateKind) :
    ∀ entry ∈ state.dag.node_map,
      numbered kind.mnemonic state.idx ≠ entry.1 := by
  intro entry member equal
  rw [parsed.counted] at equal
  rcases parsed.names entry member with
    ⟨i, named⟩ | ⟨other, place, below, named⟩
  · exact mnemonic_ne_q kind
      (numbered_inj (equal.trans named)).1
  · have same :=
      (numbered_inj (equal.trans named : numbered _ _ = _)).2
    omega

/-- The vertex made for a gate of a register. -/
def gateVertex (gate : Gate A) (place : ℕ) (params : List A) :
    MLIRVertex A where
  name := numbered gate.kind.mnemonic place
  operation := some gate.op
  targets := (gate.targets.map wireOf).map fun wire : ℕ => (wire : ℤ)
  controls := (gate.controls.map wireOf).map fun wire : ℕ => (wire : ℤ)
  arguments := params
  isAdj := gate.isAdj

/-- A gate of a register is added and its wires are led to it. -/
theorem parseOperation_gate {veq : QuantumValue} {gate : Gate A}
    (gateOn : GateOn veq size gate) (fits : size < 2147483648)
    {params : List A}
    (read : getParametersValues narrow gate.parameters = .ok params)
    (new :
      ∀ entry ∈ state.dag.node_map,
        numbered gate.kind.mnemonic state.idx ≠ entry.1)
    {last : ℕ → ℕ} (history : state.qubitsHistory = historyOf size last) :
    let place := state.dag.vertices.length
    let wiring :=
      Wiring.attachAll place ⟨state.dag.edges, last⟩ (wiresOf gate)
    parseOperation narrow state gate.op =
      .ok
        ⟨⟨state.dag.vertices ++ [gateVertex gate state.idx params],
            wiring.edges,
            (numbered gate.kind.mnemonic state.idx, place) ::
              state.dag.node_map⟩,
          historyOf size wiring.last, state.idx + 1⟩ := by
  have targets :=
    gateOn.indices fits
      (List.subset_append_right gate.controls gate.targets)
  have controls :=
    gateOn.indices fits
      (List.subset_append_left gate.controls gate.targets)
  have place := (add_and_modify new fun vertex => vertex).1
  have changed := fun change => (add_and_modify new change).2
  have own : asOperator gate.op = some gate := rfl
  rw [numbered] at place changed
  rw [parseOperation, own]
  dsimp only
  rw [controls, targets, read]
  simp only [bind, Except.bind, pure, Except.pure, place, changed]
  rw [← List.foldl_append, ← List.map_append, ← List.map_append]
  exact congrArg Except.ok
    (foldl_connect _ gateOn.wires_lt _ last (by exact history))

/-- A gate whose parameters can be read is parsed. -/
theorem Parsed.gate {veq : QuantumValue} {gate : Gate A}
    (parsed : Parsed narrow size gates state)
    (gateOn : GateOn veq size gate) (fits : size < 2147483648)
    {params : List A}
    (read : getParametersValues narrow gate.parameters = .ok params) :
    ∃ next, parseOperation narrow state gate.op = .ok next ∧
      Parsed narrow size (gates ++ [gate]) next := by
  rcases parsed.wired with ⟨last, history, wired⟩
  rcases parsed.vertices with ⟨loaded, vertices, loads⟩
  refine ⟨_, parseOperation_gate gateOn fits read
    (parsed.gate_new gate.kind) history, ?_⟩
  constructor
  case vertices =>
      refine ⟨loaded ++ [gateVertex gate state.idx params], ?_, ?_⟩
      · dsimp only
        rw [vertices, List.append_assoc]
      · rw [List.zipIdx_append]
        refine List.rel_append loads (.cons ?_ .nil)
        rw [Nat.zero_add, ← parsed.counted]
        exact
          { name := rfl
            operation := rfl
            targets := gateOn.indices fits (List.subset_append_right _ _)
            controls := gateOn.indices fits (List.subset_append_left _ _)
            arguments := read
            isAdj := rfl
            isQubit := rfl
            isMeasurement := rfl }
  case names =>
      intro entry member
      rw [List.length_append, List.length_singleton]
      rcases List.mem_cons.mp member with rfl | old
      · rw [parsed.counted]
        exact .inr ⟨gate.kind, gates.length, Nat.lt_succ_self _, rfl⟩
      · rcases parsed.names entry old with
          qubit | ⟨kind, place, below, named⟩
        · exact .inl qubit
        · exact .inr ⟨kind, place, Nat.lt_succ_of_lt below, named⟩
  case counted =>
      rw [List.length_append, List.length_singleton, ← parsed.counted]
  case wired =>
      refine ⟨_, rfl, ?_⟩
      have next :=
        wired.attachAll gateOn.wires_nodup gateOn.wires_lt
      rw [List.length_map, ← parsed.vertices_length] at next
      rw [List.map_append]
      exact next

/-! ## The run over a kernel -/

/-- No parameter is an argument of the kernel. -/
def ParametersDefined (parameters : List (FloatValue A)) : Prop :=
  ∀ id, .argument id ∉ parameters

variable (narrow) in
/-- Parameters can be read exactly when operations define them. -/
theorem getParametersValues_returns_iff
    (parameters : List (FloatValue A)) :
    (∃ params, getParametersValues narrow parameters = .ok params) ↔
      ParametersDefined parameters := by
  induction parameters with
  | nil => exact ⟨fun _ _ => List.not_mem_nil, fun _ => ⟨[], rfl⟩⟩
  | cons parameter others induction =>
      rw [getParametersValues] at induction ⊢
      have first :
          (∃ param, extractDoubleArgumentValue narrow parameter =
              .ok param) ↔
            ∀ id, parameter ≠ .argument id := by
        cases parameter <;> simp [extractDoubleArgumentValue]
      simp only [List.mapM_cons, except_bind_eq_ok, pure, Except.pure,
        Except.ok.injEq]
      have both :
          (∃ params param,
              extractDoubleArgumentValue narrow parameter = .ok param ∧
                ∃ later,
                  others.mapM (extractDoubleArgumentValue narrow) =
                      .ok later ∧ param :: later = params) ↔
            (∃ param, extractDoubleArgumentValue narrow parameter =
                .ok param) ∧
              ∃ later,
                others.mapM (extractDoubleArgumentValue narrow) =
                  .ok later := by
        constructor
        · rintro ⟨-, param, read, later, readLater, -⟩
          exact ⟨⟨param, read⟩, later, readLater⟩
        · rintro ⟨⟨param, read⟩, later, readLater⟩
          exact ⟨_, param, read, later, readLater, rfl⟩
      rw [both, first, induction, ParametersDefined, ParametersDefined,
        ← forall_and]
      refine forall_congr' fun id => ?_
      rw [List.mem_cons, not_or, ne_comm]

/-- If the parameters cannot be read, the construction breaks. -/
theorem parseOperation_breaks {gate : Gate A}
    (unread : ¬ ParametersDefined gate.parameters) (next : ParseState A) :
    parseOperation narrow state gate.op ≠ .ok next := by
  intro returned
  apply unread
  rw [← getParametersValues_returns_iff narrow]
  have own : asOperator gate.op = some gate := rfl
  rw [parseOperation, own] at returned
  dsimp only at returned
  simp only [except_bind_eq_ok] at returned
  rcases returned with ⟨-, -, -, -, params, read, -⟩
  exact ⟨params, read⟩

/-- What is no gate is passed over. -/
theorem parseOperation_none {operation : Op A}
    (noGate : asOperator operation = none) :
    parseOperation narrow state operation = .ok state := by
  rw [parseOperation, noGate]
  rfl

/-- The run over a block parses its gates, or breaks at a parameter. -/
theorem Parsed.block {veq : QuantumValue} {block : Block A}
    (flat : ∀ operation ∈ block, operation.blocks = [])
    (gatesOn : ∀ gate ∈ gatesOf block, GateOn veq size gate)
    (fits : size < 2147483648)
    (parsed : Parsed narrow size gates state) :
    ((∃ next, block.foldlM (parseOperation narrow) state = .ok next) ↔
        ∀ gate ∈ gatesOf block, ParametersDefined gate.parameters) ∧
      ∀ next, block.foldlM (parseOperation narrow) state = .ok next →
        Parsed narrow size (gates ++ gatesOf block) next := by
  induction block generalizing gates state with
  | nil =>
      refine ⟨⟨fun _ _ member => (List.not_mem_nil member).elim,
        fun _ => ⟨state, rfl⟩⟩, ?_⟩
      rintro next ⟨⟩
      rwa [gatesOf, List.filterMap_nil, List.append_nil]
  | cons operation rest induction =>
      have flatRest (other : Op A) (member : other ∈ rest) :=
        flat other (List.mem_cons_of_mem operation member)
      rw [List.foldlM_cons]
      cases isGate : asOperator operation with
      | none =>
          have skipped : gatesOf (operation :: rest) = gatesOf rest :=
            List.filterMap_cons_none isGate
          rw [skipped] at gatesOn ⊢
          rw [parseOperation_none isGate]
          exact induction flatRest gatesOn parsed
      | some gate =>
          have listed :
              gatesOf (operation :: rest) = gate :: gatesOf rest :=
            List.filterMap_cons_some isGate
          have performs : operation = gate.op := by
            rw [Node.eq_leaf (flat operation List.mem_cons_self),
              asOperator_eq_some.mp isGate]
            rfl
          rw [listed] at gatesOn ⊢
          rw [performs]
          have gateOn := gatesOn gate List.mem_cons_self
          by_cases defined : ParametersDefined gate.parameters
          · rcases (getParametersValues_returns_iff narrow _).mpr defined with
              ⟨params, read⟩
            rcases parsed.gate gateOn fits read with ⟨next, step, parsedNext⟩
            have later :=
              induction flatRest
                (fun other member =>
                  gatesOn other (List.mem_cons_of_mem gate member))
                parsedNext
            rw [step, List.forall_mem_cons, and_iff_right defined]
            rwa [List.append_assoc] at later
          · have breaks (final : ParseState A) :
                (parseOperation narrow state gate.op >>= fun next =>
                  rest.foldlM (parseOperation narrow) next) ≠
                  .ok final := by
              rw [Ne, except_bind_eq_ok]
              rintro ⟨next, step, -⟩
              exact parseOperation_breaks defined next step
            refine ⟨⟨?_, ?_⟩, ?_⟩
            · rintro ⟨final, returned⟩
              exact (breaks final returned).elim
            · intro all
              exact (defined (all gate List.mem_cons_self)).elim
            · intro final returned
              exact (breaks final returned).elim

/-! ## The finished graph -/

/-- The places of the gates that name a qubit, in program order. -/
def placesOn (gates : List (Gate A)) (value : QuantumValue) : List ℕ :=
  (gates.zipIdx.filter fun entry => value ∈ entry.1.qubits).map Prod.snd

variable (narrow) in
/--
The graph of a list of gates on a register: a vertex for each qubit, each
gate and the measurement, no cycle, an edge into and out of a gate for each
operand, and for each qubit a path from its vertex through the gates that
name it, in program order, to the measurement.
-/
structure IsGraphOf (veq : QuantumValue) (size : ℕ)
    (gates : List (Gate A)) (dag : QuakeDAG A) : Prop where
  vertices :
    ∃ loaded,
      dag.vertices =
          (List.range size).map qubitVertex ++ loaded ++
            [measurementVertex] ∧
        List.Forall₂ (IsGateVertex narrow) gates.zipIdx loaded
  acyclic : Acyclic dag.edges
  inDegree :
    ∀ place gate, gates[place]? = some gate →
      inDegree dag.edges (size + place) = gate.qubits.length
  outDegree :
    ∀ place gate, gates[place]? = some gate →
      outDegree dag.edges (size + place) = gate.qubits.length
  paths :
    ∀ index < size,
      IsPath dag.edges
        (index :: (placesOn gates (element veq index)).map (size + ·) ++
          [size + gates.length])

omit [Neg A] [One A] in
theorem placesOn_eq_users {veq : QuantumValue}
    (gatesOn : ∀ gate ∈ gates, GateOn veq size gate) (wire : ℕ) :
    placesOn gates (element veq wire) =
      users (gates.map wiresOf) wire := by
  rw [placesOn, users, List.zipIdx_map, List.filter_map, List.map_map]
  have same :
      gates.zipIdx.filter
          (fun entry => element veq wire ∈ entry.1.qubits) =
        gates.zipIdx.filter fun entry => wire ∈ wiresOf entry.1 := by
    refine List.filter_congr fun entry member => ?_
    have listed : entry.1 ∈ gates :=
      List.mem_of_getElem? (List.mem_zipIdx_iff_getElem?.mp member)
    exact decide_eq_decide.mpr (gatesOn entry.1 listed).mem_wiresOf.symm
  rw [same]
  rfl

omit [Neg A] [One A] in
theorem foldl_add_edge (target : ℕ) (entries : List (ℤ × ℕ))
    (dag : QuakeDAG A) :
    entries.foldl (fun dag entry => dag.add_edge entry.2 target) dag =
      { dag with
        edges :=
          dag.edges ++ entries.map fun entry => (entry.2, target) } := by
  induction entries generalizing dag with
  | nil => simp
  | cons entry others induction =>
      rw [List.foldl_cons, induction, QuakeDAG.add_edge]
      simp

/-- The name of the measurement is new. -/
theorem Parsed.measurement_new (parsed : Parsed narrow size gates state) :
    ∀ entry ∈ state.dag.node_map, "measurement" ≠ entry.1 := by
  intro entry member equal
  rcases parsed.names entry member with ⟨i, named⟩ | ⟨kind, place, -, named⟩
  · exact measurement_ne_numbered _ _ (equal.trans named)
  · exact measurement_ne_numbered _ _ (equal.trans named)

/-- Adding the measurement finishes the graph. -/
theorem Parsed.isGraphOf {veq : QuantumValue}
    (gatesOn : ∀ gate ∈ gates, GateOn veq size gate)
    (parsed : Parsed narrow size gates state) :
    IsGraphOf narrow veq size gates (addMeasurement state) := by
  rcases parsed.wired with ⟨last, history, wired⟩
  rcases parsed.vertices with ⟨loaded, vertices, loads⟩
  have place :=
    (add_and_modify parsed.measurement_new fun vertex => vertex).1
  have changed := fun change =>
    (add_and_modify parsed.measurement_new change).2
  have finished :
      addMeasurement state =
        { vertices := state.dag.vertices ++ [measurementVertex]
          edges :=
            Wiring.close size (size + gates.length)
              ⟨state.dag.edges, last⟩
          node_map :=
            ("measurement", state.dag.vertices.length) ::
              state.dag.node_map } := by
    rw [addMeasurement]
    simp only [place, changed, foldl_add_edge, history, historyOf,
      List.map_map]
    rw [parsed.vertices_length]
    rfl
  have circuit := wired.close
  have paths := circuit.paths
  rw [List.length_map] at circuit paths
  have onGate {place : ℕ} {gate : Gate A}
      (found : gates[place]? = some gate) :
      (gates.map wiresOf)[place]? = some (wiresOf gate) := by
    rw [List.getElem?_map, found]
    rfl
  rw [finished]
  constructor
  case vertices => exact ⟨loaded, by dsimp only; rw [vertices], loads⟩
  case acyclic => exact circuit.acyclic
  case inDegree =>
      intro place gate found
      rw [← wiresOf_length]
      exact circuit.inDegree place _ (onGate found)
  case outDegree =>
      intro place gate found
      rw [← wiresOf_length]
      exact circuit.outDegree place _ (onGate found)
  case paths =>
      intro index inside
      rw [placesOn_eq_users gatesOn]
      exact paths index inside

/-! ## Parsing a kernel -/

omit [Neg A] [One A] in
/-- The qubits are counted by the allocations. -/
theorem sum_allocatedQubits (operations : Block A) :
    (operations.map allocatedQubits).sum =
      ((operations.filter isAllocation).map allocatedQubits).sum := by
  induction operations with
  | nil => rfl
  | cons operation rest induction =>
      rw [List.map_cons, List.sum_cons, induction]
      by_cases allocates : isAllocation operation = true
      · rw [List.filter_cons_of_pos allocates, List.map_cons,
          List.sum_cons]
      · have none : allocatedQubits operation = 0 := by
          unfold isAllocation at allocates
          unfold allocatedQubits
          split <;> simp_all
        rw [List.filter_cons_of_neg allocates, none, Nat.zero_add]

omit [Neg A] [One A] in
theorem KernelOver.getNumberOfQubits_eq {veq : QuantumValue}
    {block : Block A} (kernel : KernelOver veq size block) :
    getNumberOfQubits (kernelOf block) =
      toInt (((allocationsOf veq : Block A).map allocatedQubits).sum : ℕ) := by
  have whole :
      ((postOrder (kernelOf block)).map allocatedQubits).sum =
        (block.map allocatedQubits).sum := by
    rw [kernelOf, postOrder_of_one_block _ kernel.flat, List.map_append,
      List.sum_append]
    rfl
  rw [LinAlg.QuakeToLinAlg.getNumberOfQubits_eq, whole,
    sum_allocatedQubits, kernel.allocates]

omit [Neg A] [One A] in
/-- A kernel that allocates its register has the qubits of the register. -/
theorem RegisterKernel.numQubits {id : ℕ} {block : Block A}
    (kernel : RegisterKernel id size block) :
    getNumberOfQubits (kernelOf block) = size := by
  have fits := kernel.fits
  have sum :
      ((allocationsOf (.veqAlloca id size) : Block A).map
        allocatedQubits).sum = size := rfl
  rw [kernel.getNumberOfQubits_eq, sum,
    toInt_of_fits (by omega) (by omega)]

variable (narrow) in
/-- The qubits come first, then what the walk adds, then the measurement. -/
theorem parse_mlir_eq {block : Block A}
    (flat : ∀ operation ∈ block, operation.blocks = []) :
    QuakeDAG.parse_mlir narrow {} (kernelOf block) =
      (block.foldlM (parseOperation narrow)
        ((List.range (getNumberOfQubits (kernelOf block)).toNat).foldl
          addQubit ⟨{}, [], 0⟩)).map addMeasurement := by
  have itself (state : ParseState A) :
      parseOperation narrow state (.mk (.structured "func.func") [block]) =
        .ok state := parseOperation_none rfl
  rw [QuakeDAG.parse_mlir]
  generalize (List.range (getNumberOfQubits (kernelOf block)).toNat).foldl
    addQubit ⟨{}, [], 0⟩ = prepared
  rw [kernelOf, postOrder_of_one_block _ flat, List.foldlM_append]
  cases block.foldlM (parseOperation narrow) prepared with
  | error fault => rfl
  | ok state =>
      simp only [List.foldlM_cons, List.foldlM_nil, bind, Except.bind,
        itself]
      rfl

variable (narrow) in
/--
If the qubits are counted, a fresh graph is built exactly when operations
define all parameters, and then it is the graph of the gates.
-/
theorem KernelOver.parse_mlir {veq : QuantumValue} {block : Block A}
    (kernel : KernelOver veq size block) (fits : size < 2147483648)
    (counted : getNumberOfQubits (kernelOf block) = size) :
    ((∃ dag, QuakeDAG.parse_mlir narrow {} (kernelOf block) = .ok dag) ↔
        ∀ gate ∈ gatesOf block, ParametersDefined gate.parameters) ∧
      ∀ dag, QuakeDAG.parse_mlir narrow {} (kernelOf block) = .ok dag →
        IsGraphOf narrow veq size (gatesOf block) dag := by
  have run :=
    (parsed_start narrow size).block kernel.flat kernel.gates fits
  have parsing := parse_mlir_eq narrow kernel.flat
  rw [counted, Int.toNat_natCast] at parsing
  rw [parsing]
  cases walked :
      block.foldlM (parseOperation narrow)
        ((List.range size).foldl addQubit ⟨{}, [], 0⟩) with
  | error fault =>
      rw [walked] at run
      refine ⟨?_, fun dag returned => (by cases returned)⟩
      rw [← run.1]
      exact ⟨fun ⟨_, returned⟩ => (by cases returned),
        fun ⟨_, returned⟩ => (by cases returned)⟩
  | ok state =>
      rw [walked] at run
      constructor
      · rw [← run.1]
        exact ⟨fun _ => ⟨state, rfl⟩, fun _ => ⟨_, rfl⟩⟩
      · rintro dag ⟨⟩
        have parsed := run.2 state rfl
        rw [List.nil_append] at parsed
        exact parsed.isGraphOf kernel.gates

/-! ## The vertices of the qubits -/

/-- The number of vertices of qubits. -/
def qubitVertices (dag : QuakeDAG A) : ℕ :=
  dag.vertices.countP MLIRVertex.isQubit

omit [Neg A] [One A] in
/-- A vertex that is looked up adds no qubit. -/
theorem qubitVertices_get_or_add_node (dag : QuakeDAG A) (name : String) :
    qubitVertices (dag.get_or_add_node name).2 =
      qubitVertices dag := by
  unfold QuakeDAG.get_or_add_node qubitVertices
  cases dag.node_map.lookup name with
  | some vertex => rfl
  | none => simp

omit [Neg A] [One A] in
theorem qubitVertices_modify (dag : QuakeDAG A) (vertex : ℕ)
    (change : MLIRVertex A → MLIRVertex A)
    (keeps : ∀ stored, (change stored).isQubit = stored.isQubit) :
    qubitVertices (dag.modify vertex change) =
      qubitVertices dag := by
  have same :
      (dag.vertices.modify vertex change).map MLIRVertex.isQubit =
        dag.vertices.map MLIRVertex.isQubit := by
    apply List.ext_getElem
    · simp
    · intro place _ _
      simp only [List.getElem_map, List.getElem_modify]
      split
      · exact keeps _
      · rfl
  have counted (vertices : List (MLIRVertex A)) :
      vertices.countP MLIRVertex.isQubit =
        (vertices.map MLIRVertex.isQubit).countP id := by
    rw [List.countP_map]
    rfl
  rw [qubitVertices, qubitVertices, QuakeDAG.modify,
    counted, same, ← counted]

omit [Neg A] [One A] in
theorem qubitVertices_connect (operation : ℕ) (indices : List ℤ)
    (state : ParseState A) :
    qubitVertices (indices.foldl (connect operation) state).dag =
      qubitVertices state.dag := by
  induction indices generalizing state with
  | nil => rfl
  | cons index others induction =>
      rw [List.foldl_cons, induction, connect]
      split <;> rfl

theorem parseOperation_qubitVertices {operation : Op A}
    {next : ParseState A}
    (step : parseOperation narrow state operation = .ok next) :
    qubitVertices next.dag = qubitVertices state.dag := by
  rw [parseOperation] at step
  cases isGate : asOperator operation with
  | none =>
      rw [isGate] at step
      cases step
      rfl
  | some gate =>
      rw [isGate] at step
      dsimp only at step
      simp only [except_bind_eq_ok] at step
      rcases step with ⟨controls, -, targets, -, params, -, step⟩
      cases step
      rw [qubitVertices_connect, qubitVertices_connect]
      dsimp only
      rw [qubitVertices_modify, qubitVertices_get_or_add_node]
      exact fun _ => rfl

theorem foldlM_qubitVertices {block : Block A} {next : ParseState A}
    (run : block.foldlM (parseOperation narrow) state = .ok next) :
    qubitVertices next.dag = qubitVertices state.dag := by
  induction block generalizing state with
  | nil =>
      cases run
      rfl
  | cons operation rest induction =>
      rw [List.foldlM_cons, except_bind_eq_ok] at run
      rcases run with ⟨middle, step, later⟩
      rw [induction later, parseOperation_qubitVertices step]

omit [Neg A] [One A] in
theorem addMeasurement_qubitVertices (state : ParseState A) :
    qubitVertices (addMeasurement state) = qubitVertices state.dag := by
  have marked :=
    qubitVertices_modify (state.dag.get_or_add_node "measurement").2
      (state.dag.get_or_add_node "measurement").1
      (fun vertex => { vertex with isMeasurement := true }) fun _ => rfl
  rw [qubitVertices_get_or_add_node] at marked
  rw [← marked]
  simp only [addMeasurement, foldl_add_edge]
  rfl

/-- As many vertices are qubits as there are qubits counted. -/
theorem parse_mlir_qubitVertices {block : Block A} {dag : QuakeDAG A}
    (flat : ∀ operation ∈ block, operation.blocks = [])
    (built : QuakeDAG.parse_mlir narrow {} (kernelOf block) = .ok dag) :
    qubitVertices dag = (getNumberOfQubits (kernelOf block)).toNat := by
  rw [parse_mlir_eq narrow flat] at built
  generalize (getNumberOfQubits (kernelOf block)).toNat = count at built ⊢
  rcases addQubits (A := A) count with ⟨node_map, added, -⟩
  rw [added] at built
  cases walked :
      block.foldlM (parseOperation narrow)
        (⟨⟨(List.range count).map qubitVertex, [], node_map⟩,
          historyOf count id, 0⟩ : ParseState A) with
  | error fault =>
      rw [walked] at built
      cases built
  | ok state =>
      rw [walked] at built
      cases built
      rw [addMeasurement_qubitVertices, foldlM_qubitVertices walked,
        qubitVertices, List.countP_map]
      simp [Function.comp_def, qubitVertex]

/-- The graph of a list of gates has a vertex for each qubit. -/
theorem IsGraphOf.qubitVertices_eq {veq : QuantumValue} {dag : QuakeDAG A}
    (graph : IsGraphOf narrow veq size gates dag) :
    qubitVertices dag = size := by
  rcases graph.vertices with ⟨loaded, vertices, loads⟩
  have none : loaded.countP MLIRVertex.isQubit = 0 := by
    rw [List.countP_eq_zero]
    intro vertex member
    rcases List.getElem_of_mem member with ⟨place, below, rfl⟩
    have inside : place < gates.zipIdx.length := by
      rw [loads.length_eq]
      exact below
    have isVertex := loads.get inside below
    simp only [List.get_eq_getElem] at isVertex
    rw [isVertex.isQubit]
    exact Bool.false_ne_true
  rw [qubitVertices, vertices, List.countP_append,
    List.countP_append, none, List.countP_map]
  simp [Function.comp_def, qubitVertex, measurementVertex]

end Parsed

/-! ## Topological orders of the gates -/

section Orders

variable [Neg A] [One A] {narrow : A → A}
variable {veq : QuantumValue} {size : ℕ}
variable {gates : List (Gate A)} {dag : QuakeDAG A}

theorem loaded_operations {entries : List (Gate A × ℕ)}
    {loaded : List (MLIRVertex A)}
    (loads : List.Forall₂ (IsGateVertex narrow) entries loaded) :
    loaded.map MLIRVertex.operation =
      entries.map fun entry => some entry.1.op := by
  induction loads with
  | nil => rfl
  | cons first _ induction =>
      rw [List.map_cons, List.map_cons, induction, first.operation]

/-- The operations at the vertices, in the order of the vertices. -/
theorem IsGraphOf.operations (graph : IsGraphOf narrow veq size gates dag) :
    dag.vertices.map MLIRVertex.operation =
      List.replicate size none ++ gates.map (fun gate => some gate.op) ++
        [none] := by
  rcases graph.vertices with ⟨loaded, vertices, loads⟩
  have qubits :
      ((List.range size).map (@qubitVertex A)).map
          MLIRVertex.operation = List.replicate size none := by
    rw [List.map_map, List.eq_replicate_iff]
    refine ⟨by simp, ?_⟩
    intro operation member
    rcases List.mem_map.mp member with ⟨qubit, -, rfl⟩
    rfl
  have places :
      gates.zipIdx.map (fun entry => some entry.1.op) =
        gates.map fun gate => some gate.op := by
    conv_rhs => rw [← List.zipIdx_map_fst 0 gates, List.map_map]
    rfl
  rw [vertices, List.map_append, List.map_append, loaded_operations loads,
    qubits, places]
  rfl

theorem IsGraphOf.operationAt_eq
    (graph : IsGraphOf narrow veq size gates dag) (vertex : ℕ) :
    dag.operationAt vertex =
      (List.replicate size none ++
        (gates.map (fun gate => some gate.op) ++ [none]))[vertex]?.join := by
  rw [← List.append_assoc, ← graph.operations, List.getElem?_map,
    QuakeDAG.operationAt]
  cases dag.vertices[vertex]? <;> rfl

theorem IsGraphOf.operationAt_qubit
    (graph : IsGraphOf narrow veq size gates dag) {vertex : ℕ}
    (qubit : vertex < size) : dag.operationAt vertex = none := by
  rw [graph.operationAt_eq, List.getElem?_append_left (by simpa using qubit),
    List.getElem?_replicate, if_pos qubit]
  rfl

/-- Behind the qubits the gates follow in program order. -/
theorem IsGraphOf.operationAt_gate
    (graph : IsGraphOf narrow veq size gates dag) (place : ℕ) :
    dag.operationAt (size + place) =
      gates[place]?.map fun gate => gate.op := by
  rw [graph.operationAt_eq, List.getElem?_append_right (by simp),
    List.length_replicate, Nat.add_sub_cancel_left]
  by_cases below : place < gates.length
  · rw [List.getElem?_append_left (by simpa using below),
      List.getElem?_map, List.getElem?_eq_getElem below]
    rfl
  · rw [List.getElem?_append_right (by simpa using below),
      List.getElem?_singleton, List.getElem?_eq_none (by omega)]
    split <;> rfl

/-- The vertices of gates are those behind the qubits. -/
theorem IsGraphOf.gateVertices_eq
    (graph : IsGraphOf narrow veq size gates dag) :
    dag.gateVertices = itemVertices size (gates.map wiresOf) := by
  have count : dag.vertices.length = size + (gates.length + 1) := by
    have lengths := congrArg List.length graph.operations
    simp only [List.length_map, List.length_append, List.length_replicate,
      List.length_singleton] at lengths
    omega
  rw [QuakeDAG.gateVertices, count, List.range_add, List.filter_append,
    List.range_succ, List.map_append, List.filter_append, itemVertices,
    List.length_map]
  have qubits :
      (List.range size).filter
          (fun vertex => (dag.operationAt vertex).isSome) = [] := by
    rw [List.filter_eq_nil_iff]
    intro vertex member
    rw [graph.operationAt_qubit (List.mem_range.mp member)]
    exact Bool.false_ne_true
  have measurement :
      ([gates.length].map (size + ·)).filter
          (fun vertex => (dag.operationAt vertex).isSome) = [] := by
    rw [List.filter_eq_nil_iff]
    intro vertex member
    rw [List.map_singleton, List.mem_singleton] at member
    rw [member, graph.operationAt_gate, List.getElem?_eq_none (by omega)]
    exact Bool.false_ne_true
  have all :
      ((List.range gates.length).map (size + ·)).filter
          (fun vertex => (dag.operationAt vertex).isSome) =
        (List.range gates.length).map (size + ·) := by
    rw [List.filter_eq_self]
    intro vertex member
    rcases List.mem_map.mp member with ⟨place, below, rfl⟩
    rw [graph.operationAt_gate,
      List.getElem?_eq_getElem (List.mem_range.mp below)]
    rfl
  rw [qubits, measurement, all, List.nil_append, List.append_nil]

/-- In the order of the vertices the gates are the gates of the kernel. -/
theorem IsGraphOf.gateSequence_eq
    (graph : IsGraphOf narrow veq size gates dag) :
    dag.gateSequence (itemVertices size (gates.map wiresOf)) =
      gates.map fun gate => gate.op := by
  rw [QuakeDAG.gateSequence, itemVertices, List.length_map,
    List.filterMap_map]
  have places :
      (List.range gates.length).map (fun place => gates[place]?) =
        gates.map some := by
    apply List.ext_getElem
    · simp
    · intro place below _
      simp only [List.length_map, List.length_range] at below
      simp [below]
  have read :
      (dag.operationAt ∘ fun place => size + place) =
        (Option.map fun gate : Gate A => gate.op) ∘
          fun place => gates[place]? := by
    funext place
    exact graph.operationAt_gate place
  rw [read, ← List.filterMap_map, places, List.filterMap_map]
  exact congrFun List.filterMap_eq_map gates

/-- The graph is the graph of the gates on their wires. -/
theorem IsGraphOf.isCircuit
    (gatesOn : ∀ gate ∈ gates, GateOn veq size gate)
    (graph : IsGraphOf narrow veq size gates dag) :
    IsCircuit size (gates.map wiresOf) dag.edges where
  acyclic := graph.acyclic
  inDegree place wires found := by
    rw [List.getElem?_map, Option.map_eq_some_iff] at found
    rcases found with ⟨gate, found, rfl⟩
    rw [wiresOf_length]
    exact graph.inDegree place gate found
  outDegree place wires found := by
    rw [List.getElem?_map, Option.map_eq_some_iff] at found
    rcases found with ⟨gate, found, rfl⟩
    rw [wiresOf_length]
    exact graph.outDegree place gate found
  paths wire inside := by
    rw [trail, ← placesOn_eq_users gatesOn, List.length_map]
    exact graph.paths wire inside

end Orders

/-! ## The unitary of a topological order -/

section Unitary

variable {Q : Type} [DecidableEq Q] (interp : Interpretation A Q)

/-- The interpretation tells the qubits of a register apart. -/
def SeparatesQubits (veq : QuantumValue) (size : ℕ) : Prop :=
  ∀ i < size, ∀ j < size,
    interp.qubit (element veq i) = interp.qubit (element veq j) →
      i = j

/-- The operator of the operation at a vertex. -/
noncomputable def operatorAt (dag : QuakeDAG A) (vertex : ℕ) :
    Operator Q :=
  match dag.operationAt vertex with
  | some operation => operator interp operation
  | none => 1

theorem denote_gateSequence (dag : QuakeDAG A) (order : List ℕ) :
    denote interp (dag.gateSequence order) =
      composite (operatorAt interp dag) order := by
  induction order with
  | nil => rfl
  | cons vertex order induction =>
      rw [composite_cons, ← induction, QuakeDAG.gateSequence, operatorAt]
      cases stored : dag.operationAt vertex with
      | none =>
          rw [List.filterMap_cons_none stored, mul_one]
          rfl
      | some operation =>
          rw [List.filterMap_cons_some stored]
          rfl

/-- A kernel has the unitary of its gates. -/
theorem denote_gatesOf (block : Block A) :
    denote interp ((gatesOf block).map fun gate => gate.op) =
      denote interp block := by
  induction block with
  | nil => rfl
  | cons operation rest induction =>
      rw [denote_cons, ← induction, gatesOf, operator]
      cases isGate : asOperator operation with
      | none =>
          rw [List.filterMap_cons_none isGate, mul_one]
          rfl
      | some gate =>
          rw [List.filterMap_cons_some isGate]
          rfl

variable {interp} {veq : QuantumValue} {size : ℕ}

/-- On a register gates without a common wire commute. -/
theorem GateOn.commute (separates : SeparatesQubits interp veq size)
    {first second : Gate A} (firstOn : GateOn veq size first)
    (secondOn : GateOn veq size second)
    (apart : (wiresOf first).Disjoint (wiresOf second)) :
    Commute (gateOperator interp first) (gateOperator interp second) := by
  have distinct {gate : Gate A} (gateOn : GateOn veq size gate) :
      (gate.targets.map interp.qubit).Nodup := by
    have targets : gate.targets.Nodup := gateOn.distinct.of_append_right
    refine List.Nodup.map_on ?_ targets
    intro value member other otherMember same
    have operand := gateOn.operand (List.mem_append_right _ member)
    have otherOperand := gateOn.operand (List.mem_append_right _ otherMember)
    rw [operand.2, otherOperand.2] at same ⊢
    rw [separates _ operand.1 _ otherOperand.1 same]
  refine gateOperator_commute interp (distinct firstOn) (distinct secondOn)
    ?_
  intro value member other otherMember same
  have operand := firstOn.operand member
  have otherOperand := secondOn.operand otherMember
  rw [operand.2, otherOperand.2] at same
  have equal := separates _ operand.1 _ otherOperand.1 same
  refine apart (a := wireOf value) ?_ ?_
  · exact (wiresOf_perm first).symm.subset (List.mem_map_of_mem member)
  · rw [equal]
    exact (wiresOf_perm second).symm.subset
      (List.mem_map_of_mem otherMember)

variable [Neg A] [One A] {narrow : A → A}

/-- Every topological order of the gates has the unitary of the gates. -/
theorem IsGraphOf.denote_eq {gates : List (Gate A)} {dag : QuakeDAG A}
    (separates : SeparatesQubits interp veq size)
    (gatesOn : ∀ gate ∈ gates, GateOn veq size gate)
    (graph : IsGraphOf narrow veq size gates dag) {order : List ℕ}
    (topological : IsTopologicalOrder dag.edges dag.gateVertices order) :
    denote interp (dag.gateSequence order) =
      denote interp (gates.map fun gate => gate.op) := by
  rw [graph.gateVertices_eq] at topological
  rw [← graph.gateSequence_eq, denote_gateSequence, denote_gateSequence]
  refine (graph.isCircuit gatesOn).composite_eq ?_ ?_ topological
  · intro wires member
    rcases List.mem_map.mp member with ⟨gate, listed, rfl⟩
    exact (gatesOn gate listed).wires_lt
  · intro first second wires others found foundOther apart
    rw [List.getElem?_map, Option.map_eq_some_iff] at found foundOther
    rcases found with ⟨gate, found, rfl⟩
    rcases foundOther with ⟨other, foundOther, rfl⟩
    rw [operatorAt, operatorAt, graph.operationAt_gate,
      graph.operationAt_gate, found, foundOther]
    exact (gatesOn gate (List.mem_of_getElem? found)).commute separates
      (gatesOn other (List.mem_of_getElem? foundOther)) apart

/-- The construction builds the graph that represents the kernel. -/
def Represented (narrow : A → A) (interp : Interpretation A Q)
    (veq : QuantumValue) (size : ℕ) (block : Block A) : Prop :=
  ∃ dag, QuakeDAG.parse_mlir narrow {} (kernelOf block) = .ok dag ∧
    IsGraphOf narrow veq size (gatesOf block) dag ∧
      ∀ order, IsTopologicalOrder dag.edges dag.gateVertices order →
        denote interp (dag.gateSequence order) = denote interp block

/-- The register is one that the kernel allocates. -/
def IsAllocated (veq : QuantumValue) : Prop :=
  ∃ id size, veq = .veqAlloca id size

/-- Where the construction counts all qubits of the register. -/
def QubitsCounted (veq : QuantumValue) (size : ℕ) : Prop :=
  size = 0 ∨ IsAllocated veq ∧ size < 2147483648

omit [Neg A] [One A] in
theorem KernelOver.counted_iff {block : Block A}
    (kernel : KernelOver veq size block) :
    (getNumberOfQubits (kernelOf block)).toNat = size ↔
      QubitsCounted veq size := by
  rw [kernel.getNumberOfQubits_eq]
  cases kernel.register with
  | allocated id =>
      have sum :
          ((allocationsOf (.veqAlloca id size) : Block A).map
            allocatedQubits).sum = size := rfl
      rw [sum]
      constructor
      · intro counted
        have upper := (toInt_fits size).2
        exact .inr ⟨⟨id, size, rfl⟩, by omega⟩
      · rintro (empty | ⟨-, fits⟩)
        · rw [empty, Nat.cast_zero, toInt_zero, Int.toNat_zero]
        · rw [toInt_of_fits (by omega) (by omega), Int.toNat_natCast]
  | argument id =>
      have sum :
          ((allocationsOf (.veqArgument id) : Block A).map
            allocatedQubits).sum = 0 := rfl
      rw [sum, Nat.cast_zero, toInt_zero, Int.toNat_zero]
      constructor
      · intro counted
        exact .inl counted.symm
      · rintro (empty | ⟨⟨other, length, same⟩, -⟩)
        · exact empty.symm
        · cases same

omit [Neg A] [One A] in
theorem KernelOver.numQubits_eq {block : Block A}
    (kernel : KernelOver veq size block)
    (counted : QubitsCounted veq size) :
    getNumberOfQubits (kernelOf block) = size := by
  have number := kernel.counted_iff.mpr counted
  rcases counted with empty | ⟨⟨id, length, rfl⟩, fits⟩
  · have sum :
        ((allocationsOf veq : Block A).map allocatedQubits).sum = 0 := by
      cases kernel.register with
      | allocated id =>
          rw [empty]
          rfl
      | argument id => rfl
    rw [kernel.getNumberOfQubits_eq, sum, empty, Nat.cast_zero, toInt_zero]
  · cases kernel.register
    have registered : RegisterKernel id size block := ⟨kernel, fits⟩
    exact registered.numQubits

variable (narrow) in
/--
On a kernel whose gates are on distinct qubits of its one register, the
construction builds the graph of the gates, and every topological order of
them is a sequence with the unitary of the kernel, exactly if no argument of
the kernel is a parameter and the kernel allocates the register.
-/
theorem parse_mlir_represents_iff
    (separates : SeparatesQubits interp veq size) {block : Block A}
    (kernel : KernelOver veq size block) :
    Represented narrow interp veq size block ↔
      (∀ gate ∈ gatesOf block, ParametersDefined gate.parameters) ∧
        QubitsCounted veq size := by
  constructor
  · rintro ⟨dag, built, graph, -⟩
    have number := parse_mlir_qubitVertices kernel.flat built
    rw [graph.qubitVertices_eq] at number
    have counted := kernel.counted_iff.mp number.symm
    have small : size < 2147483648 := by
      rcases counted with empty | ⟨-, fits⟩
      · omega
      · exact fits
    have parsing :=
      (kernel.parse_mlir narrow small (kernel.numQubits_eq counted)).1
    exact ⟨parsing.mp ⟨dag, built⟩, counted⟩
  · rintro ⟨defined, counted⟩
    have small : size < 2147483648 := by
      rcases counted with empty | ⟨-, fits⟩
      · omega
      · exact fits
    have parsing :=
      kernel.parse_mlir narrow small (kernel.numQubits_eq counted)
    rcases parsing.1.mpr defined with ⟨dag, built⟩
    have graph := parsing.2 dag built
    refine ⟨dag, built, graph, ?_⟩
    intro order topological
    rw [graph.denote_eq separates kernel.gates topological, denote_gatesOf]

end Unitary

/-! ### A kernel with three gates -/

/-- Two gates on different qubits of a register, and one on both. -/
def entangling (veq : QuantumValue) : Block ℤ :=
  [(Gate.create .h false [] [] [element veq 0]).op,
    (Gate.create .x false [] [] [element veq 1]).op,
    (Gate.create .x false [] [element veq 0] [element veq 1]).op,
    .leaf .ret]

/-- The kernel allocates the register. -/
def entangled : Block ℤ :=
  .leaf (.alloca (.veqAlloca 0 2)) :: entangling (.veqAlloca 0 2)

example :
    (QuakeDAG.parse_mlir id {} (kernelOf entangled)).map
        QuakeDAG.edges =
      .ok [(0, 2), (1, 3), (3, 4), (2, 4), (4, 5), (4, 5)] := by
  rfl

theorem gateOn_of_entangling {veq : QuantumValue} :
    ∀ gate ∈ gatesOf (entangling veq), GateOn veq 2 gate := by
  intro gate member
  have listed :
      gatesOf (entangling veq) =
        [Gate.create .h false [] [] [element veq 0],
          Gate.create .x false [] [] [element veq 1],
          Gate.create .x false [] [element veq 0] [element veq 1]] := rfl
  have first : ∃ index < 2, element veq 0 = element veq index :=
    ⟨0, by decide, rfl⟩
  have second : ∃ index < 2, element veq 1 = element veq index :=
    ⟨1, by decide, rfl⟩
  have apart : element veq 0 ≠ element veq 1 := by simp [element]
  rw [listed] at member
  simp only [List.mem_cons, List.not_mem_nil, or_false] at member
  rcases member with rfl | rfl | rfl
  · exact ⟨by simpa [Gate.qubits, Gate.create] using first,
      by simp [Gate.qubits, Gate.create]⟩
  · exact ⟨by simpa [Gate.qubits, Gate.create] using second,
      by simp [Gate.qubits, Gate.create]⟩
  · have both := And.intro first second
    exact ⟨by simpa [Gate.qubits, Gate.create] using both,
      by simp [Gate.qubits, Gate.create, apart]⟩

theorem entangled_register : RegisterKernel 0 2 entangled where
  flat := by simp [entangled, entangling, Gate.op]
  register := .allocated 0
  allocates := by rfl
  gates := gateOn_of_entangling
  fits := by decide

theorem ofRegister_separates (veq : QuantumValue)
    (angle : FloatValue ℤ → ℝ) :
    SeparatesQubits (Interpretation.ofRegister 1 angle) veq 2 := by
  intro i below j under same
  have remainders : i % 2 = j % 2 := congrArg Fin.val same
  omega

theorem entangled_represented :
    Represented id (Interpretation.ofRegister 1 fun _ => 0)
        (.veqAlloca 0 2) 2 entangled ↔
      (∀ gate ∈ gatesOf entangled, ParametersDefined gate.parameters) ∧
        QubitsCounted (.veqAlloca 0 2) 2 :=
  parse_mlir_represents_iff id (ofRegister_separates _ fun _ => 0)
    entangled_register.toKernelOver

/-! ### The same gates on an argument -/

theorem argument_kernelOver :
    KernelOver (.veqArgument 0) 2 (entangling (.veqArgument 0)) where
  flat := by simp [entangling, Gate.op]
  register := .argument 0
  allocates := by rfl
  gates := gateOn_of_entangling

/--
Of a register that is an argument no qubit gets a vertex, and no gate an
edge.
-/
theorem argument_not_represented :
    KernelOver (.veqArgument 0) 2 (entangling (.veqArgument 0)) ∧
      (QuakeDAG.parse_mlir id {}
          (kernelOf (entangling (.veqArgument 0)))).map QuakeDAG.edges =
        .ok [] ∧
      ¬ Represented id (Interpretation.ofRegister 1 fun _ => 0)
          (.veqArgument 0) 2 (entangling (.veqArgument 0)) := by
  refine ⟨argument_kernelOver, rfl, ?_⟩
  rintro ⟨dag, built, graph, -⟩
  have number := parse_mlir_qubitVertices argument_kernelOver.flat built
  rw [graph.qubitVertices_eq] at number
  exact absurd number (by decide)

/-! ### An angle that is an argument -/

/-- A rotation by an angle with which the kernel is called. -/
def turned : Block ℤ :=
  [.leaf (.alloca (.veqAlloca 0 1)),
    (Gate.create .rx false [.argument 0] []
      [element (.veqAlloca 0 1) 0]).op,
    .leaf .ret]

example :
    QuakeDAG.parse_mlir id {} (kernelOf turned) =
      .error .nullOperation := by
  rfl

end MQSSPasses.DAG.Parsing
