import MQSSPasses.General.OrderedMap
import MQSSPasses.General.WireGraph
import MQSSPasses.LinAlg.QuakeToLinAlg

/-!
# The construction of the graph of a kernel

`QuakeDAG` turns a kernel into a graph with a vertex for every qubit, one
for every gate and one for the measurement.  Vertices are looked up by
generated names, and a map from the qubits to the vertices they were seen at
last tells where the next edge starts.

The names that are generated never meet, so every lookup adds a vertex.
Where the qubits are the numbers up to a size, the map is a function on
them, and leading qubits to an operation attaches wires.
-/

namespace MQSSPasses.DAG.Construction

open MQSSPasses.General.TracedComputation
open MQSSPasses.General.OperationTree
open MQSSPasses.General.OrderedMap
open MQSSPasses.General.WireGraph
open MQSSPasses.Quake.Syntax
open MQSSPasses.Quake.Operations
open MQSSPasses.LinAlg.QuakeToLinAlg

variable {A : Type}

/-! ## The graph -/

/-- What the graph stores at a vertex. -/
structure MLIRVertex (A : Type) where
  name : String
  operation : Option (Op A) := none
  targets : List ℤ := []
  controls : List ℤ := []
  arguments : List A := []
  isAdj : Bool := false
  isQubit : Bool := false
  isMeasurement : Bool := false

/--
The graph, with its vertices by number, and the numbers of the vertices by
name.
-/
structure QuakeDAG (A : Type) where
  vertices : List (MLIRVertex A) := []
  edges : List (ℕ × ℕ) := []
  node_map : List (String × ℕ) := []

/-- The vertex with a name, added now if there is none. -/
def QuakeDAG.get_or_add_node (dag : QuakeDAG A) (name : String) :
    ℕ × QuakeDAG A :=
  match dag.node_map.lookup name with
  | some vertex => (vertex, dag)
  | none =>
      (dag.vertices.length,
        { dag with
          vertices := dag.vertices ++ [{ name := name }]
          node_map := (name, dag.vertices.length) :: dag.node_map })

/-- Change what is stored at a vertex. -/
def QuakeDAG.modify (dag : QuakeDAG A) (vertex : ℕ)
    (change : MLIRVertex A → MLIRVertex A) : QuakeDAG A :=
  { dag with vertices := dag.vertices.modify vertex change }

/-- Add an edge, also if there is one already. -/
def QuakeDAG.add_edge (dag : QuakeDAG A) (source target : ℕ) :
    QuakeDAG A :=
  { dag with edges := dag.edges ++ [(source, target)] }

/-- The operation stored at a vertex, if any. -/
def QuakeDAG.operationAt (dag : QuakeDAG A) (vertex : ℕ) :
    Option (Op A) :=
  dag.vertices[vertex]?.bind MLIRVertex.operation

/-- The vertices of gates. -/
def QuakeDAG.gateVertices (dag : QuakeDAG A) : List ℕ :=
  (List.range dag.vertices.length).filter fun vertex =>
    (dag.operationAt vertex).isSome

/-- The operations stored at a list of vertices. -/
def QuakeDAG.gateSequence (dag : QuakeDAG A) (order : List ℕ) :
    Block A :=
  order.filterMap dag.operationAt

/-! ## The construction -/

/--
The graph under construction, the vertex each qubit was seen at last, and
the number of the next gate.
-/
structure ParseState (A : Type) where
  dag : QuakeDAG A
  qubitsHistory : List (ℤ × ℕ)
  idx : ℕ

/-- Add the vertex of a qubit. -/
def addQubit (state : ParseState A) (i : ℕ) : ParseState A :=
  let (qubit, dag) := state.dag.get_or_add_node ("q_" ++ toString i)
  { state with
    dag := dag.modify qubit fun vertex => { vertex with isQubit := true }
    qubitsHistory :=
      assign Prod.fst ((i : ℤ), qubit) state.qubitsHistory }

/-- Lead a qubit to an operation; unknown qubits are passed over. -/
def connect (operation : ℕ) (state : ParseState A) (index : ℤ) :
    ParseState A :=
  match find Prod.fst index state.qubitsHistory with
  | some (_, vertex) =>
      { state with
        dag := state.dag.add_edge vertex operation
        qubitsHistory :=
          assign Prod.fst (index, operation) state.qubitsHistory }
  | none => state

section Parsing

variable [Neg A] [One A] (narrow : A → A)

/-- What the walk does at an operation. -/
def parseOperation (state : ParseState A) (op : Op A) :
    Except Fault (ParseState A) :=
  match asOperator op with
  | none => return state
  | some gate => do
      let (operation, dag) :=
        state.dag.get_or_add_node
          (gate.kind.mnemonic ++ "_" ++ toString state.idx)
      let controls ← getIndicesOfValueRange gate.controls
      let targets ← getIndicesOfValueRange gate.targets
      let params ← getParametersValues narrow gate.parameters
      let dag := dag.modify operation fun vertex =>
        { vertex with
          operation := some op
          targets := targets
          controls := controls
          arguments := params
          isAdj := gate.isAdj }
      let state : ParseState A :=
        { state with dag := dag, idx := state.idx + 1 }
      let state := targets.foldl (connect operation) state
      return controls.foldl (connect operation) state

/-- Add the measurement of all qubits. -/
def addMeasurement (state : ParseState A) : QuakeDAG A :=
  let (mes, dag) := state.dag.get_or_add_node "measurement"
  let dag := dag.modify mes fun vertex =>
    { vertex with isMeasurement := true }
  state.qubitsHistory.foldl
    (fun dag entry => dag.add_edge entry.2 mes) dag

/-- Add the graph of a kernel. -/
def QuakeDAG.parse_mlir (dag : QuakeDAG A) (kernel : Op A) :
    Except Fault (QuakeDAG A) := do
  let numQubits := getNumberOfQubits kernel
  let prepared := (List.range numQubits.toNat).foldl addQubit ⟨dag, [], 0⟩
  let state ← (postOrder kernel).foldlM (parseOperation narrow) prepared
  return addMeasurement state

end Parsing

/-! ## The generated names -/

/-- A name with a number. -/
def numbered (stem : String) (number : ℕ) : String :=
  stem ++ "_" ++ toString number

/-- What stands before and behind the last underscore is determined. -/
theorem split_last_underscore {stem other digits others : List Char}
    (clean : '_' ∉ digits) (cleanToo : '_' ∉ others)
    (equal : stem ++ '_' :: digits = other ++ '_' :: others) :
    stem = other ∧ digits = others := by
  rcases List.append_eq_append_iff.mp equal with
    ⟨middle, longer, rest⟩ | ⟨middle, longer, rest⟩
  · cases middle with
    | nil =>
        cases rest
        exact ⟨by simpa using longer.symm, rfl⟩
    | cons first later =>
        cases rest
        exact (clean (by simp)).elim
  · cases middle with
    | nil =>
        cases rest
        exact ⟨by simpa using longer, rfl⟩
    | cons first later =>
        cases rest
        exact (cleanToo (by simp)).elim

theorem toList_numbered (stem : String) (number : ℕ) :
    (numbered stem number).toList =
      stem.toList ++ '_' :: (Nat.repr number).toList := by
  simp [numbered]

theorem underscore_not_mem_repr (number : ℕ) :
    '_' ∉ (Nat.repr number).toList := by
  rw [Nat.toList_repr]
  exact Nat.underscore_not_in_toDigits

/-- Numbered names differ if their stems or their numbers do. -/
theorem numbered_inj {stem other : String} {number count : ℕ}
    (equal : numbered stem number = numbered other count) :
    stem = other ∧ number = count := by
  have lists := congrArg String.toList equal
  rw [toList_numbered, toList_numbered] at lists
  rcases split_last_underscore (underscore_not_mem_repr number)
    (underscore_not_mem_repr count) lists with ⟨stems, digits⟩
  exact ⟨String.toList_inj.mp stems,
    Nat.repr_injective (String.toList_inj.mp digits)⟩

theorem measurement_ne_numbered (stem : String) (number : ℕ) :
    "measurement" ≠ numbered stem number := by
  intro equal
  have member : '_' ∈ ("measurement" : String).toList := by
    rw [equal, toList_numbered]
    simp
  revert member
  decide

theorem qubitName_eq (i : ℕ) : "q_" ++ toString i = numbered "q" i :=
  congrArg (fun stem : String => stem ++ toString i)
    (by decide : "q_" = "q" ++ "_")

/-- No gate is called like a qubit. -/
theorem mnemonic_ne_q (kind : GateKind) : kind.mnemonic ≠ "q" := by
  cases kind <;> simp [GateKind.mnemonic]

/-! ## Vertices that are added -/

theorem modify_concat {Item : Type} (items : List Item) (item : Item)
    (change : Item → Item) :
    (items ++ [item]).modify items.length change =
      items ++ [change item] := by
  induction items with
  | nil => rfl
  | cons first others induction =>
      rw [List.cons_append, List.length_cons, List.modify_succ_cons,
        induction, List.cons_append]

/-- A new name gets a new vertex. -/
theorem get_or_add_node_of_new {dag : QuakeDAG A} {name : String}
    (new : ∀ entry ∈ dag.node_map, name ≠ entry.1) :
    dag.get_or_add_node name =
      (dag.vertices.length,
        { dag with
          vertices := dag.vertices ++ [{ name := name }]
          node_map := (name, dag.vertices.length) :: dag.node_map }) := by
  have absent : dag.node_map.lookup name = none := by
    rw [List.lookup_eq_none_iff]
    intro entry member
    rw [bne_iff_ne]
    exact new entry member
  rw [QuakeDAG.get_or_add_node, absent]

/-- A new vertex is the last one, and is changed there. -/
theorem add_and_modify {dag : QuakeDAG A} {name : String}
    (new : ∀ entry ∈ dag.node_map, name ≠ entry.1)
    (change : MLIRVertex A → MLIRVertex A) :
    (dag.get_or_add_node name).1 = dag.vertices.length ∧
      (dag.get_or_add_node name).2.modify dag.vertices.length change =
        ⟨dag.vertices ++ [change { name := name }], dag.edges,
          (name, dag.vertices.length) :: dag.node_map⟩ := by
  rw [get_or_add_node_of_new new]
  refine ⟨rfl, ?_⟩
  rw [QuakeDAG.modify]
  dsimp only
  rw [modify_concat]

/-! ## The history of the qubits -/

/-- The map from the qubits to where they were seen last. -/
def historyOf (size : ℕ) (last : ℕ → ℕ) : List (ℤ × ℕ) :=
  (List.range size).map fun qubit : ℕ => ((qubit : ℤ), last qubit)

theorem historyOf_sorted (size : ℕ) (last : ℕ → ℕ) :
    Sorted Prod.fst (historyOf size last) :=
  List.pairwise_lt_range.map _ fun _ _ less => Int.ofNat_lt.mpr less

theorem historyOf_member {size qubit : ℕ} {last : ℕ → ℕ}
    (inside : qubit < size) :
    ((qubit : ℤ), last qubit) ∈ historyOf size last :=
  List.mem_map.mpr ⟨qubit, List.mem_range.mpr inside, rfl⟩

theorem find_history {size qubit : ℕ} {last : ℕ → ℕ}
    (inside : qubit < size) :
    find Prod.fst (qubit : ℤ) (historyOf size last) =
      some ((qubit : ℤ), last qubit) := by
  cases found : find Prod.fst (qubit : ℤ) (historyOf size last) with
  | none =>
      have absent := List.find?_eq_none.mp found _ (historyOf_member inside)
      simp at absent
  | some entry =>
      have same := List.find?_some found
      rw [decide_eq_true_eq] at same
      rw [(historyOf_sorted size last).eq_of_key_eq
        (List.mem_of_find?_eq_some found) (historyOf_member inside) same]

theorem assign_history {size qubit : ℕ} {last : ℕ → ℕ} (vertex : ℕ)
    (inside : qubit < size) :
    assign Prod.fst ((qubit : ℤ), vertex) (historyOf size last) =
      historyOf size (Function.update last qubit vertex) := by
  have same :
      (((qubit : ℤ), last qubit) : ℤ × ℕ).1 = ((qubit : ℤ), vertex).1 := rfl
  rw [assign_of_mem (historyOf_sorted size last)
      (historyOf_member inside) same,
    historyOf, historyOf, List.map_map]
  refine List.map_congr_left fun other _ => ?_
  by_cases same : other = qubit
  · simp [same]
  · simp [same]

theorem assign_history_new (size : ℕ) (last : ℕ → ℕ) :
    assign Prod.fst ((size : ℤ), last size) (historyOf size last) =
      historyOf (size + 1) last := by
  rw [assign_of_greatest, historyOf, historyOf, List.range_succ,
    List.map_append, List.map_singleton]
  intro entry member
  rcases List.mem_map.mp member with ⟨qubit, inside, rfl⟩
  exact Int.ofNat_lt.mpr (List.mem_range.mp inside)

/-- Leading known qubits to an operation is attaching wires. -/
theorem foldl_connect {size : ℕ} (operation : ℕ) {wires : List ℕ}
    (inside : ∀ wire ∈ wires, wire < size) (state : ParseState A)
    (last : ℕ → ℕ)
    (history : state.qubitsHistory = historyOf size last) :
    (wires.map fun wire : ℕ => (wire : ℤ)).foldl (connect operation) state =
      let wiring :=
        Wiring.attachAll operation ⟨state.dag.edges, last⟩ wires
      { state with
        dag := { state.dag with edges := wiring.edges }
        qubitsHistory := historyOf size wiring.last } := by
  induction wires generalizing state last with
  | nil =>
      simp only [Wiring.attachAll, List.map_nil, List.foldl_nil, ← history]
  | cons wire others induction =>
      have connected :
          connect operation state wire =
            { state with
              dag := state.dag.add_edge (last wire) operation
              qubitsHistory :=
                historyOf size (Function.update last wire operation) } := by
        have inRange := inside wire List.mem_cons_self
        rw [connect, history, find_history inRange]
        dsimp only
        rw [assign_history operation inRange]
      rw [List.map_cons, List.foldl_cons, connected,
        induction (fun other member =>
          inside other (List.mem_cons_of_mem wire member)) _ _ rfl]
      rfl

end MQSSPasses.DAG.Construction
