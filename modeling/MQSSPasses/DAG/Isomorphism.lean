import MQSSPasses.DAG.Parsing
import MQSSPasses.General.WireExchanges

/-!
# The graph as an invariant of the kernel

Two kernels that allocate a register may have graphs that differ only in the
numbers of the vertices of gates, and in the names made from them.  This is
so exactly if the gates of the one are those of the other up to exchanges of
neighbours on different qubits.  So the graph keeps what matters for the
unitary, and forgets nothing but the order of independent gates.
-/

namespace MQSSPasses.DAG.Isomorphism

open MQSSPasses.General.TracedComputation
open MQSSPasses.General.OperationTree
open MQSSPasses.General.TopologicalOrders
open MQSSPasses.General.IndependentExchanges
open MQSSPasses.General.WireGraph
open MQSSPasses.General.WireExchanges
open MQSSPasses.Quake.Syntax
open MQSSPasses.Quake.Operations
open MQSSPasses.Quake.Semantics
open MQSSPasses.LinAlg.QuakeToLinAlg
open MQSSPasses.DAG.Construction
open MQSSPasses.DAG.Parsing

variable {A : Type}

/-! ## Isomorphic graphs -/

/-- What a vertex stores, without the number in the name of a gate. -/
def content (vertex : MLIRVertex A) : MLIRVertex A :=
  if vertex.operation.isSome then { vertex with name := "" } else vertex

/-- A renaming of the vertices that keeps what they store and the edges. -/
structure IsIsomorphism (rename : Equiv.Perm ℕ)
    (first second : QuakeDAG A) : Prop where
  lengths : first.vertices.length = second.vertices.length
  vertices :
    ∀ place vertex, first.vertices[place]? = some vertex →
      second.vertices[rename place]?.map content = some (content vertex)
  edges : (first.edges.map (Prod.map rename rename)).Perm second.edges

def Isomorphic (first second : QuakeDAG A) : Prop :=
  ∃ rename, IsIsomorphism rename first second

/-! ## The edges of the graph of a kernel -/

section Edges

variable [Neg A] [One A] {narrow : A → A} {size : ℕ}
variable {gates : List (Gate A)} {state : ParseState A}

/-- The edges are those of attaching the gates one after the other. -/
def Attached (size : ℕ) (gates : List (Gate A)) (state : ParseState A) :
    Prop :=
  ∃ last, state.qubitsHistory = historyOf size last ∧
    (⟨state.dag.edges, last⟩ : Wiring) =
      attachItems size (gates.map wiresOf) .start

theorem Attached.gate {veq : QuantumValue} {gate : Gate A}
    (attached : Attached size gates state)
    (parsed : Parsed narrow size gates state)
    (gateOn : GateOn veq size gate) (fits : size < 2147483648)
    {params : List A}
    (read : getParametersValues narrow gate.parameters = .ok params)
    {next : ParseState A}
    (step : parseOperation narrow state gate.op = .ok next) :
    Attached size (gates ++ [gate]) next := by
  rcases attached with ⟨last, history, wiring⟩
  rw [parseOperation_gate gateOn fits read (parsed.gate_new gate.kind)
    history, Except.ok.injEq] at step
  subst step
  refine ⟨_, rfl, ?_⟩
  rw [List.map_append, attachItems_append, ← wiring, List.length_map,
    ← parsed.vertices_length]
  rfl

/-- The run over a block attaches its gates. -/
theorem Attached.block {veq : QuantumValue} {block : Block A}
    (flat : ∀ operation ∈ block, operation.blocks = [])
    (gatesOn : ∀ gate ∈ gatesOf block, GateOn veq size gate)
    (fits : size < 2147483648) (attached : Attached size gates state)
    (parsed : Parsed narrow size gates state) {final : ParseState A}
    (run : block.foldlM (parseOperation narrow) state = .ok final) :
    Attached size (gates ++ gatesOf block) final ∧
      Parsed narrow size (gates ++ gatesOf block) final := by
  refine ⟨?_, (parsed.block flat gatesOn fits).2 final run⟩
  induction block generalizing gates state with
  | nil =>
      cases run
      rwa [gatesOf, List.filterMap_nil, List.append_nil]
  | cons operation rest induction =>
      have flatRest (other : Op A) (member : other ∈ rest) :=
        flat other (List.mem_cons_of_mem operation member)
      rw [List.foldlM_cons, except_bind_eq_ok] at run
      rcases run with ⟨next, step, later⟩
      cases isGate : asOperator operation with
      | none =>
          have skipped : gatesOf (operation :: rest) = gatesOf rest :=
            List.filterMap_cons_none isGate
          rw [skipped] at gatesOn ⊢
          rw [parseOperation_none isGate] at step
          cases step
          exact induction flatRest gatesOn attached parsed later
      | some gate =>
          have listed :
              gatesOf (operation :: rest) = gate :: gatesOf rest :=
            List.filterMap_cons_some isGate
          have performs : operation = gate.op := by
            rw [Node.eq_leaf (flat operation List.mem_cons_self),
              asOperator_eq_some.mp isGate]
            rfl
          rw [listed] at gatesOn ⊢
          rw [performs] at step
          have gateOn := gatesOn gate List.mem_cons_self
          have defined : ParametersDefined gate.parameters := by
            by_contra unread
            exact parseOperation_breaks unread next step
          rcases (getParametersValues_returns_iff narrow _).mpr
              defined with ⟨params, read⟩
          rcases parsed.gate gateOn fits read with
            ⟨other, sameStep, parsedNext⟩
          cases sameStep.symm.trans step
          have remaining :=
            induction flatRest
              (fun other member =>
                gatesOn other (List.mem_cons_of_mem gate member))
              (attached.gate parsed gateOn fits read step) parsedNext later
          rwa [List.append_assoc] at remaining

/-- The finished graph has the edges of the gates as a program on wires. -/
theorem Attached.edges (attached : Attached size gates state)
    (parsed : Parsed narrow size gates state) :
    (addMeasurement state).edges = edgesOf size (gates.map wiresOf) := by
  rcases attached with ⟨last, history, wiring⟩
  have place :=
    (add_and_modify parsed.measurement_new fun vertex => vertex).1
  have changed := fun change =>
    (add_and_modify parsed.measurement_new change).2
  rw [addMeasurement]
  simp only [place, changed, foldl_add_edge, history, historyOf,
    List.map_map]
  rw [edgesOf, ← wiring, List.length_map, ← parsed.vertices_length]
  rfl

/-- What is built for a kernel is the finished graph of its block. -/
theorem parse_mlir_eq_ok {id : ℕ} {block : Block A}
    (kernel : RegisterKernel id size block) {dag : QuakeDAG A}
    (built : QuakeDAG.parse_mlir narrow {} (kernelOf block) = .ok dag) :
    ∃ state,
      block.foldlM (parseOperation narrow)
          ((List.range size).foldl addQubit ⟨{}, [], 0⟩) = .ok state ∧
        addMeasurement state = dag := by
  rw [parse_mlir_eq _ kernel.flat, kernel.numQubits,
    Int.toNat_natCast] at built
  cases run :
      block.foldlM (parseOperation narrow)
        ((List.range size).foldl addQubit ⟨{}, [], 0⟩) with
  | error fault =>
      rw [run] at built
      cases built
  | ok state =>
      rw [run] at built
      exact ⟨state, rfl, Except.ok.inj built⟩

/-- The edges of the graph that is built for a kernel on a register. -/
theorem edges_of_register {id : ℕ} {block : Block A}
    (kernel : RegisterKernel id size block) {dag : QuakeDAG A}
    (built : QuakeDAG.parse_mlir narrow {} (kernelOf block) = .ok dag) :
    dag.edges = edgesOf size ((gatesOf block).map wiresOf) := by
  rcases parse_mlir_eq_ok kernel built with ⟨state, run, rfl⟩
  rcases @addQubits A size with ⟨node_map, added, -⟩
  have start :
      Attached size []
        ((List.range size).foldl addQubit (⟨{}, [], 0⟩ : ParseState A)) := by
    rw [added]
    exact ⟨fun wire => wire, rfl, rfl⟩
  have walked :=
    start.block kernel.flat kernel.gates kernel.fits (parsed_start _ size) run
  exact walked.1.edges walked.2

end Edges

/-! ## The vertices of the graph of a kernel -/

section Vertices

variable [Neg A] [One A] {narrow : A → A}
variable {veq : QuantumValue} {size : ℕ}
variable {gates others : List (Gate A)} {dag graph : QuakeDAG A}

omit [Neg A] [One A] in
@[simp]
theorem content_operation (vertex : MLIRVertex A) :
    (content vertex).operation = vertex.operation := by
  rw [content]
  split <;> rfl

omit [Neg A] [One A] in
theorem content_of_none {vertex : MLIRVertex A}
    (none : vertex.operation = none) : content vertex = vertex := by
  rw [content, none]
  rfl

/-- The vertices of a gate at two places differ in their names only. -/
theorem content_gate {gate : Gate A} {place other : ℕ}
    {vertex further : MLIRVertex A}
    (first : IsGateVertex narrow (gate, place) vertex)
    (second : IsGateVertex narrow (gate, other) further) :
    content vertex = content further := by
  rcases vertex with
    ⟨name, operation, targets, controls, arguments, isAdj, isQubit, mes⟩
  rcases further with
    ⟨name', operation', targets', controls', arguments', isAdj', isQubit',
      mes'⟩
  obtain ⟨-, rfl, readTargets, readControls, readArguments, rfl, rfl, rfl⟩ :=
    first
  obtain ⟨-, rfl, readTargets', readControls', readArguments', rfl, rfl,
    rfl⟩ := second
  cases readTargets.symm.trans readTargets'
  cases readControls.symm.trans readControls'
  cases readArguments.symm.trans readArguments'
  rfl

theorem vertices_length (shown : IsGraphOf narrow veq size gates dag) :
    dag.vertices.length = size + gates.length + 1 := by
  have lengths := congrArg List.length shown.operations
  simp only [List.length_map, List.length_append, List.length_replicate,
    List.length_singleton] at lengths
  exact lengths

theorem qubit_at (shown : IsGraphOf narrow veq size gates dag)
    {place : ℕ} (below : place < size) :
    dag.vertices[place]? = some (qubitVertex place) := by
  rcases shown.vertices with ⟨loaded, vertices, -⟩
  rw [vertices, List.append_assoc, List.getElem?_append_left (by simpa),
    List.getElem?_map, List.getElem?_range below]
  rfl

theorem gate_at (shown : IsGraphOf narrow veq size gates dag)
    {place : ℕ} {gate : Gate A} (found : gates[place]? = some gate) :
    ∃ vertex, dag.vertices[size + place]? = some vertex ∧
      IsGateVertex narrow (gate, place) vertex := by
  rcases shown.vertices with ⟨loaded, vertices, loads⟩
  have entry : gates.zipIdx[place]? = some (gate, place) := by
    rw [List.getElem?_zipIdx, found]
    simp
  have below : place < loaded.length := by
    rw [← loads.length_eq, List.length_zipIdx]
    exact (List.getElem?_eq_some_iff.mp found).1
  refine ⟨loaded[place], ?_, ?_⟩
  · rw [vertices, List.append_assoc, List.getElem?_append_right (by simp),
      List.length_map, List.length_range, Nat.add_sub_cancel_left,
      List.getElem?_append_left below, List.getElem?_eq_getElem below]
  · rcases List.getElem?_eq_some_iff.mp entry with ⟨inside, equal⟩
    have loads := loads.get inside below
    rw [List.get_eq_getElem, List.get_eq_getElem, equal] at loads
    exact loads

theorem measurement_at
    (shown : IsGraphOf narrow veq size gates dag) :
    dag.vertices[size + gates.length]? = some measurementVertex := by
  rcases shown.vertices with ⟨loaded, vertices, loads⟩
  have count : loaded.length = gates.length := by
    rw [← loads.length_eq, List.length_zipIdx]
  rw [vertices, List.getElem?_append_right (by simp [count])]
  simp [count]

/-- Every vertex is one of a qubit, a gate or the measurement. -/
theorem vertex_cases
    (shown : IsGraphOf narrow veq size gates dag) {place : ℕ}
    {vertex : MLIRVertex A} (found : dag.vertices[place]? = some vertex) :
    (place < size ∧ vertex = qubitVertex place) ∨
      (∃ index gate, place = size + index ∧ gates[index]? = some gate ∧
        IsGateVertex narrow (gate, index) vertex) ∨
      place = size + gates.length ∧ vertex = measurementVertex := by
  have inside := (List.getElem?_eq_some_iff.mp found).1
  rw [vertices_length shown] at inside
  by_cases qubit : place < size
  · rw [qubit_at shown qubit, Option.some.injEq] at found
    exact .inl ⟨qubit, found.symm⟩
  · rcases Nat.exists_eq_add_of_le (Nat.le_of_not_lt qubit) with
      ⟨index, rfl⟩
    by_cases last : index = gates.length
    · subst last
      rw [measurement_at shown, Option.some.injEq] at found
      exact .inr (.inr ⟨rfl, found.symm⟩)
    · have below : index < gates.length := by omega
      rcases gate_at shown (List.getElem?_eq_getElem below) with
        ⟨other, same, isVertex⟩
      rw [same, Option.some.injEq] at found
      subst found
      exact .inr (.inl
        ⟨index, _, rfl, List.getElem?_eq_getElem below, isVertex⟩)

omit [Neg A] [One A] in
theorem qubitVertex_injective {first second : ℕ}
    (same : (qubitVertex first : MLIRVertex A) = qubitVertex second) :
    first = second := by
  have names : "q_" ++ toString first = "q_" ++ toString second :=
    congrArg MLIRVertex.name same
  rw [qubitName_eq, qubitName_eq] at names
  exact (numbered_inj names).2

/-! ## Renamed programs and isomorphic graphs -/

/-- Where the gates are renamed, so are their vertices. -/
theorem isIsomorphism_of_renames {rename : Equiv.Perm ℕ}
    (shown : IsGraphOf narrow veq size gates dag)
    (shownOther : IsGraphOf narrow veq size others graph)
    (edges : dag.edges = edgesOf size (gates.map wiresOf))
    (edgesOther : graph.edges = edgesOf size (others.map wiresOf))
    (renames : Renames wiresOf size rename gates others) :
    IsIsomorphism rename dag graph where
  lengths := by
    rw [vertices_length shown, vertices_length shownOther,
      renames.lengths]
  vertices := by
    intro place vertex found
    rcases vertex_cases shown found with
      ⟨below, rfl⟩ | ⟨index, gate, rfl, listed, isVertex⟩ | ⟨rfl, rfl⟩
    · rw [renames.starts place below,
        qubit_at shownOther below]
      rfl
    · rcases renames.letters index gate listed with ⟨moved, renamed, same⟩
      rcases gate_at shownOther same with ⟨other, stands, isOther⟩
      rw [renamed, stands, Option.map_some, content_gate isOther isVertex]
    · rw [renames.sink, renames.lengths,
        measurement_at shownOther]
      rfl
  edges := by
    rw [edges, edgesOther]
    exact renames.edges

omit [Neg A] [One A] in
/-- A gate can be read off its operation. -/
theorem op_injective {first second : Gate A}
    (same : first.op = second.op) : first = second := by
  have labels := congrArg Node.label same
  exact OpData.gate.inj labels

/-- Isomorphic graphs rename their gates. -/
theorem renames_of_isIsomorphism {rename : Equiv.Perm ℕ}
    (shown : IsGraphOf narrow veq size gates dag)
    (shownOther : IsGraphOf narrow veq size others graph)
    (edges : dag.edges = edgesOf size (gates.map wiresOf))
    (edgesOther : graph.edges = edgesOf size (others.map wiresOf))
    (isomorphism : IsIsomorphism rename dag graph) :
    Renames wiresOf size rename gates others := by
  have lengths : gates.length = others.length := by
    have counts := isomorphism.lengths
    rw [vertices_length shown, vertices_length shownOther] at counts
    omega
  have target {place : ℕ} {vertex : MLIRVertex A}
      (found : dag.vertices[place]? = some vertex) :
      ∃ moved, graph.vertices[rename place]? = some moved ∧
        content moved = content vertex :=
    Option.map_eq_some_iff.mp (isomorphism.vertices place vertex found)
  constructor
  case lengths => exact lengths
  case starts =>
      intro wire inside
      rcases target (qubit_at shown inside) with
        ⟨moved, stands, same⟩
      rcases vertex_cases shownOther stands with
        ⟨-, rfl⟩ | ⟨_, gate, -, -, isVertex⟩ | ⟨-, rfl⟩
      · rw [content_of_none rfl, content_of_none rfl] at same
        exact qubitVertex_injective same
      · have operations := congrArg MLIRVertex.operation same
        rw [content_operation, content_operation, isVertex.operation]
          at operations
        cases operations
      · have marks := congrArg MLIRVertex.isQubit same
        cases marks
  case letters =>
      intro place gate listed
      rcases gate_at shown listed with ⟨vertex, found, isVertex⟩
      rcases target found with ⟨moved, stands, same⟩
      have operations := congrArg MLIRVertex.operation same
      rw [content_operation, content_operation, isVertex.operation]
        at operations
      rcases vertex_cases shownOther stands with
        ⟨-, rfl⟩ | ⟨index, other, renamed, there, isOther⟩ | ⟨-, rfl⟩
      · cases operations
      · rw [isOther.operation, Option.some.injEq] at operations
        cases op_injective operations
        exact ⟨index, renamed, there⟩
      · cases operations
  case sink =>
      rcases target (measurement_at shown) with
        ⟨moved, stands, same⟩
      rcases vertex_cases shownOther stands with
        ⟨-, rfl⟩ | ⟨_, gate, -, -, isVertex⟩ | ⟨renamed, -⟩
      · have marks := congrArg MLIRVertex.isQubit same
        cases marks
      · have operations := congrArg MLIRVertex.operation same
        rw [content_operation, content_operation, isVertex.operation]
          at operations
        cases operations
      · rw [renamed, lengths]
  case edges =>
      rw [← edges, ← edgesOther]
      exact isomorphism.edges

end Vertices

/-! ## Kernels with isomorphic graphs -/

section Kernels

variable [Neg A] [One A] {narrow : A → A} {id size : ℕ}

omit [Neg A] [One A] in
theorem proper_of_gateOn {veq : QuantumValue} {gate : Gate A}
    (gateOn : GateOn veq size gate) : Proper size (wiresOf gate) :=
  ⟨gateOn.wires_nodup, gateOn.wires_lt⟩

omit [Neg A] [One A] in
/-- The product of the operators of gates is that of their block. -/
theorem composite_gateOperator {Q : Type} [DecidableEq Q]
    (interp : Interpretation A Q) (gates : List (Gate A)) :
    composite (gateOperator interp) gates =
      denote interp (gates.map fun gate => gate.op) := by
  induction gates with
  | nil => rfl
  | cons gate gates induction =>
      rw [composite_cons, induction, List.map_cons, denote_cons,
        operator_op]

/--
The graphs of two kernels that allocate their register are isomorphic
exactly if the gates of one are those of the other up to exchanges of
neighbours on different qubits, and then the kernels have the same unitary.
-/
theorem parse_mlir_isomorphic_iff {block others : Block A}
    (kernel : RegisterKernel id size block)
    (other : RegisterKernel id size others) {dag graph : QuakeDAG A}
    (built : QuakeDAG.parse_mlir narrow {} (kernelOf block) = .ok dag)
    (builtOther :
      QuakeDAG.parse_mlir narrow {} (kernelOf others) = .ok graph) :
    (Isomorphic dag graph ↔
        Exchanges (Apart wiresOf) (gatesOf block) (gatesOf others)) ∧
      (Isomorphic dag graph →
        ∀ {Q : Type} [DecidableEq Q] (interp : Interpretation A Q),
          SeparatesQubits interp (.veqAlloca id size) size →
            denote interp block = denote interp others) := by
  have shown := (kernel.parse_mlir _ kernel.fits kernel.numQubits).2 dag built
  have shownOther :=
    (other.parse_mlir _ other.fits other.numQubits).2 graph builtOther
  have edges := edges_of_register kernel built
  have edgesOther := edges_of_register other builtOther
  have iff :
      Isomorphic dag graph ↔
        Exchanges (Apart wiresOf) (gatesOf block) (gatesOf others) := by
    rw [exchanges_iff_renames
      (fun gate member => proper_of_gateOn (kernel.gates gate member))
      (fun gate member => proper_of_gateOn (other.gates gate member))]
    refine exists_congr fun rename => ⟨?_, ?_⟩
    · exact renames_of_isIsomorphism shown shownOther edges edgesOther
    · exact isIsomorphism_of_renames shown shownOther edges edgesOther
  refine ⟨iff, ?_⟩
  intro isomorphic Q _ interp separates
  have product :=
    Exchanges.composite_eq
      (fun first member second listed apart =>
        (kernel.gates first member).commute separates
          (kernel.gates second listed) apart)
      (iff.mp isomorphic)
  rw [composite_gateOperator, composite_gateOperator, denote_gatesOf,
    denote_gatesOf] at product
  exact product

end Kernels

/-! ### Two orders of independent gates -/

/-- The gates of `entangled`, the first two of them exchanged. -/
def entangledLater : Block ℤ :=
  let veq := .veqAlloca 0 2
  [.leaf (.alloca veq),
    (Gate.create .x false [] [] [element veq 1]).op,
    (Gate.create .h false [] [] [element veq 0]).op,
    (Gate.create .x false [] [element veq 0] [element veq 1]).op,
    .leaf .ret]

theorem entangledLater_register : RegisterKernel 0 2 entangledLater where
  flat := by simp [entangledLater, Gate.op]
  register := .allocated 0
  allocates := by rfl
  gates := by
    intro gate member
    have earlier : gate ∈ gatesOf entangled :=
      (List.Perm.swap _ _ _).subset member
    exact entangled_register.gates gate earlier
  fits := by decide

/-- The two orders have isomorphic graphs, and so the same unitary. -/
theorem entangledLater_isomorphic :
    ∃ dag graph,
      QuakeDAG.parse_mlir id {} (kernelOf entangled) = .ok dag ∧
      QuakeDAG.parse_mlir id {} (kernelOf entangledLater) = .ok graph ∧
      Isomorphic dag graph ∧
      ∀ {Q : Type} [DecidableEq Q] (interp : Interpretation ℤ Q),
        SeparatesQubits interp (.veqAlloca 0 2) 2 →
          denote interp entangled = denote interp entangledLater := by
  have apart : ([0] : List ℕ).Disjoint [1] := by simp
  have exchanged :
      Exchanges (Apart wiresOf) (gatesOf entangled)
        (gatesOf entangledLater) :=
    .single (.swap [] _ _ _ apart)
  refine ⟨_, _, rfl, rfl, ?_⟩
  have invariant :=
    parse_mlir_isomorphic_iff entangled_register entangledLater_register
      (show QuakeDAG.parse_mlir id {} (kernelOf entangled) = .ok _ from rfl)
      (show QuakeDAG.parse_mlir id {} (kernelOf entangledLater) = .ok _
        from rfl)
  have isomorphic := invariant.1.mpr exchanged
  exact ⟨isomorphic, invariant.2 isomorphic⟩

end MQSSPasses.DAG.Isomorphism
