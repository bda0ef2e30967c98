import MQSSPasses.QASM.Decompositions
import MQSSPasses.QASM.QASMToQuake

/-!
# The whole gate table

The table against the whole OpenQASM library.  An entry implements the gate
of its name, with the adjoint flag that the conversion derives from the
name, and it accepts exactly the numbers of angles, controls and targets of
the gate.  Two entries do not check: `id` accepts everything and `rccx` all
lists of at least three targets.  Names outside the library are rejected.
-/

namespace MQSSPasses.QASM.LibraryGates

open MQSSPasses.General.TracedComputation
open MQSSPasses.General.ControlledElement
open MQSSPasses.General.QubitOperators
open MQSSPasses.General.GateMatrices
open MQSSPasses.Quake.Syntax
open MQSSPasses.Quake.Operations
open MQSSPasses.Quake.Semantics
open MQSSPasses.QASM.Syntax
open MQSSPasses.QASM.GatesMap
open MQSSPasses.QASM.QASMToQuake
open MQSSPasses.QASM.GateMeaning
open MQSSPasses.QASM.Decompositions

variable {Q : Type} [DecidableEq Q] {interp : Interpretation ℝ Q}

/-! ## Gates with one operation -/

section Direct

variable {kind : GateKind} {numAngles numControls : ℕ}

/-- One operation implements the gate with the same matrix. -/
theorem oneOperation_implements {name : String} (message : String)
    (exact : ExactConstants interp)
    {matrix : (Fin numAngles → ℝ) → BitMatrix} (isAdj : Bool)
    (standard :
      ∀ angles, standardMatrix kind (List.ofFn angles) =
        some (matrix angles)) :
    ImplementsGate interp
      (matrixGate name numAngles numControls fun angles =>
        withAdjoint isAdj (matrix angles)) isAdj
      (oneOperation kind numAngles numControls 1 message) := by
  intro (angles : Fin numAngles → ℝ)
    (controls : Fin numControls → QuantumValue)
    (targets : Fin 1 → QuantumValue) _
  have parameters :
      standardMatrix kind
          ((List.ofFn fun i => FloatValue.constant (angles i)).map
            interp.angle) = some (matrix angles) := by
    rw [← standard angles, List.map_ofFn]
    congr 2
    funext i
    exact exact (angles i)
  have accepted :
      oneOperation kind numAngles numControls 1 message
          (List.ofFn fun i => .constant (angles i)) (List.ofFn controls)
          (List.ofFn targets) isAdj =
        createGate kind isAdj
          (List.ofFn fun i => .constant (angles i)) (List.ofFn controls)
          [targets 0] := by
    rw [oneOperation, if_pos (by simp)]
    rfl
  change Implements interp
    (oneOperation kind numAngles numControls 1 message
      (List.ofFn fun i => .constant (angles i)) (List.ofFn controls)
      (List.ofFn targets) isAdj)
    (whenSet (fun i => interp.qubit (controls i))
      (on (interp.qubit (targets 0)) (withAdjoint isAdj (matrix angles))))
  rw [accepted]
  refine ⟨rfl, ?_⟩
  rw [createGate, Traced.record_trace, denote_cons, denote_nil, one_mul,
    operator_op, gateOperator_create interp parameters, List.map_ofFn]
  exact EqualUpToPhase.refl _

theorem swap_implements {name : String} (message : String) :
    ImplementsGate interp (swapGate name numControls) false
      (oneOperation .swap 0 numControls 2 message) := by
  intro (angles : Fin 0 → ℝ) (controls : Fin numControls → QuantumValue)
    (targets : Fin 2 → QuantumValue) _
  have accepted :
      oneOperation .swap 0 numControls 2 message [] (List.ofFn controls)
          [targets 0, targets 1] false =
        createGate .swap false ([] : List (FloatValue ℝ))
          (List.ofFn controls) [targets 0, targets 1] := by
    rw [oneOperation, if_pos (by simp)]
  change Implements interp
    (oneOperation .swap 0 numControls 2 message [] (List.ofFn controls)
      [targets 0, targets 1] false)
    (whenSet (fun i => interp.qubit (controls i))
      (swap (interp.qubit (targets 0)) (interp.qubit (targets 1))))
  rw [accepted]
  refine ⟨rfl, ?_⟩
  have operator :
      gateOperator interp
          (Gate.create .swap false [] (List.ofFn controls)
            [targets 0, targets 1]) =
        whenSet (fun i => interp.qubit (controls i))
          (swap (interp.qubit (targets 0)) (interp.qubit (targets 1))) := by
    rw [gateOperator, controlValues, whenSet]
    simp only [Gate.create, List.map_ofFn]
    rfl
  rw [createGate, Traced.record_trace, denote_cons, denote_nil, one_mul,
    operator_op, operator]
  exact EqualUpToPhase.refl _

/-- The flag of the entries for adjoints does not come from the caller. -/
theorem oneAdjoint_implements {name : String} (message : String)
    (exact : ExactConstants interp) {matrix : BitMatrix} (isAdj : Bool)
    (standard : standardMatrix kind [] = some matrix) :
    ImplementsGate interp
      (matrixGate name 0 0 fun _ => matrix.conjTranspose) isAdj
      (oneAdjoint kind message) :=
  oneOperation_implements message exact true fun _ => standard

theorem id_implements (isAdj : Bool) :
    ImplementsGate interp idGate isAdj fun _ _ _ _ => return () :=
  fun _ _ _ _ => ⟨rfl, EqualUpToPhase.refl 1⟩

end Direct

/-! ## The adjoint flag -/

/-- The flag the conversion passes for the gate of a name. -/
abbrev adjointFlag (name : String) : Bool :=
  regexSearch name "dg"

theorem directGates_implemented (exact : ExactConstants interp) :
    ∀ gate ∈ (directGates : List (StandardGate Q)),
      ImplementsGate interp gate (adjointFlag gate.name)
        (insertQASMGateIntoQuakeModule gate.name) := by
  simp only [directGates, List.forall_mem_cons, List.not_mem_nil,
    false_implies, implies_true, and_true, matrixGate_name, swapGate_name]
  have one (name message : String) {kind : GateKind}
      {numAngles numControls : ℕ}
      {matrix : (Fin numAngles → ℝ) → BitMatrix}
      (standard :
        ∀ angles, standardMatrix kind (List.ofFn angles) =
          some (matrix angles))
      (found :
        gateMap.lookup name =
          some (oneOperation kind numAngles numControls 1 message :
            GateBuilder ℝ)) :
      ImplementsGate interp (matrixGate name numAngles numControls matrix)
        false (insertQASMGateIntoQuakeModule name) :=
    (oneOperation_implements message exact false standard).of_lookup found
  have adjoint (name message : String) (kind : GateKind)
      {matrix : BitMatrix} (standard : standardMatrix kind [] = some matrix)
      (found :
        gateMap.lookup name = some (oneAdjoint kind message :
          GateBuilder ℝ)) :
      ImplementsGate interp
        (matrixGate name 0 0 fun _ => matrix.conjTranspose) true
        (insertQASMGateIntoQuakeModule name) :=
    (oneAdjoint_implements message exact true standard).of_lookup found
  have exchange (name : String) (numControls : ℕ) (message : String)
      (found :
        gateMap.lookup name =
          some (oneOperation .swap 0 numControls 2 message :
            GateBuilder ℝ)) :
      ImplementsGate interp (swapGate name numControls) false
        (insertQASMGateIntoQuakeModule name) :=
    (swap_implements message).of_lookup found
  exact ⟨one "x" _ (fun _ => rfl) rfl, one "y" _ (fun _ => rfl) rfl,
    one "z" _ (fun _ => rfl) rfl, one "h" _ (fun _ => rfl) rfl,
    one "ch" _ (fun _ => rfl) rfl, one "s" _ (fun _ => rfl) rfl,
    adjoint "sdg" _ .s rfl rfl, one "t" _ (fun _ => rfl) rfl,
    adjoint "tdg" _ .t rfl rfl,
    one "rx" _ (fun _ => rfl) rfl, one "ry" _ (fun _ => rfl) rfl,
    one "rz" _ (fun _ => rfl) rfl, one "crx" _ (fun _ => rfl) rfl,
    one "cry" _ (fun _ => rfl) rfl, one "cx" _ (fun _ => rfl) rfl,
    one "CX" _ (fun _ => rfl) rfl, one "ccx" _ (fun _ => rfl) rfl,
    one "cy" _ (fun _ => rfl) rfl, one "cz" _ (fun _ => rfl) rfl,
    one "u1" _ (fun _ => rfl) rfl, one "cu1" _ (fun _ => rfl) rfl,
    one "u3" _ (fun _ => rfl) rfl, one "cu3" _ (fun _ => rfl) rfl,
    exchange "swap" 0 _ rfl, exchange "cswap" 1 _ rfl⟩

/-- Of the decomposed gates only `sxdg` gets the flag, and ignores it. -/
theorem decomposedGates_adjointFlag :
    ∀ gate ∈ (decomposedGates : List (StandardGate Q)),
      adjointFlag gate.name = false ∨
        gate = matrixGate "sxdg" 0 0 fun _ => squareRootX.conjTranspose := by
  simp only [decomposedGates, List.forall_mem_cons, List.not_mem_nil,
    false_implies, implies_true, and_true, matrixGate_name,
    rotationGate_name, rccxGate_name, dcxGate_name, ecrGate_name]
  exact ⟨.inl rfl, .inl rfl, .inl rfl, .inl rfl, .inr trivial, .inl rfl,
    .inl rfl, .inl rfl, .inl rfl, .inl rfl, .inl rfl, .inl rfl, .inl rfl,
    .inl rfl, .inl rfl⟩

/-- Every gate of the library is implemented by the entry of its name. -/
theorem standardGates_implemented (exact : ExactConstants interp) :
    ∀ gate ∈ (standardGates : List (StandardGate Q)),
      ImplementsGate interp gate (adjointFlag gate.name)
        (insertQASMGateIntoQuakeModule gate.name) := by
  intro gate member
  rw [standardGates, List.mem_append, List.mem_append,
    List.mem_singleton] at member
  rcases member with (decomposed | direct) | rfl
  · rcases decomposedGates_adjointFlag gate decomposed with flag | rfl
    · rw [flag]
      exact decomposedGates_implemented exact gate decomposed
    · exact (ImplementsGate.of_matrix fun _ target =>
        insertSxdg_implements exact target true).of_lookup rfl
  · exact directGates_implemented exact gate direct
  · exact (id_implements _).of_lookup rfl

/-! ## What an entry accepts -/

/-- An entry that returns exactly for the given numbers of operands. -/
def AcceptsExactly (builder : GateBuilder ℝ)
    (numAngles numControls numTargets : ℕ) : Prop :=
  ∀ (angles : List ℝ) (controls targets : List QuantumValue) (adj : Bool),
    (builder (angles.map .constant) controls targets adj).outcome =
        .ok () ↔
      angles.length = numAngles ∧ controls.length = numControls ∧
        targets.length = numTargets

theorem oneOperation_accepts (kind : GateKind)
    (numAngles numControls numTargets : ℕ) (message : String) :
    AcceptsExactly
      (oneOperation kind numAngles numControls numTargets message)
      numAngles numControls numTargets := by
  intro angles controls targets adj
  rw [oneOperation, List.length_map]
  split
  next numbers => exact iff_of_true rfl numbers
  next numbers => exact iff_of_false (by rintro ⟨⟩) numbers

theorem oneAdjoint_accepts (kind : GateKind) (message : String) :
    AcceptsExactly (oneAdjoint kind message) 0 0 1 :=
  fun angles controls targets _ =>
    oneOperation_accepts kind 0 0 1 message angles controls targets true

/-- An entry that checks the numbers and returns on constants. -/
theorem AcceptsExactly.of_checks {builder : GateBuilder ℝ}
    {numAngles numControls numTargets : ℕ}
    (returns :
      ∀ (angles : Fin numAngles → ℝ)
        (controls : Fin numControls → QuantumValue)
        (targets : Fin numTargets → QuantumValue) (adj : Bool),
        (builder (List.ofFn fun i => .constant (angles i))
          (List.ofFn controls) (List.ofFn targets) adj).outcome = .ok ())
    (checks :
      ∀ params controls targets adj,
        (builder params controls targets adj).outcome = .ok () →
          params.length = numAngles ∧ controls.length = numControls ∧
            targets.length = numTargets) :
    AcceptsExactly builder numAngles numControls numTargets := by
  intro angles controls targets adj
  constructor
  · intro accepted
    have numbers := checks _ _ _ _ accepted
    rwa [List.length_map] at numbers
  · rintro ⟨rfl, rfl, rfl⟩
    have returned := returns angles.get controls.get targets.get adj
    rwa [List.ofFn_get, List.ofFn_get,
      show (fun i => FloatValue.constant (angles.get i)) =
        FloatValue.constant ∘ angles.get from rfl,
      ← List.map_ofFn, List.ofFn_get] at returned

theorem insertU_accepts : AcceptsExactly insertU 3 0 1 := by
  apply AcceptsExactly.of_checks fun _ _ _ _ => rfl
  intro params controls targets adj accepted
  unfold insertU at accepted
  split at accepted
  · exact ⟨rfl, rfl, rfl⟩
  · cases accepted

theorem insertU2_accepts : AcceptsExactly insertU2 2 0 1 := by
  apply AcceptsExactly.of_checks fun _ _ _ _ => rfl
  intro params controls targets adj accepted
  unfold insertU2 at accepted
  split at accepted
  · exact ⟨rfl, rfl, rfl⟩
  · cases accepted

theorem insertSx_accepts : AcceptsExactly insertSx 0 0 1 := by
  apply AcceptsExactly.of_checks fun _ _ _ _ => rfl
  intro params controls targets adj accepted
  unfold insertSx at accepted
  split at accepted
  · exact ⟨rfl, rfl, rfl⟩
  · cases accepted

theorem insertSxdg_accepts : AcceptsExactly insertSxdg 0 0 1 := by
  apply AcceptsExactly.of_checks fun _ _ _ _ => rfl
  intro params controls targets adj accepted
  unfold insertSxdg at accepted
  split at accepted
  · exact ⟨rfl, rfl, rfl⟩
  · cases accepted

theorem insertCp_accepts : AcceptsExactly insertCp 1 1 1 := by
  apply AcceptsExactly.of_checks fun _ _ _ _ => rfl
  intro params controls targets adj accepted
  unfold insertCp at accepted
  split at accepted
  · exact ⟨rfl, rfl, rfl⟩
  · cases accepted

theorem insertRxx_accepts : AcceptsExactly insertRxx 1 0 2 := by
  apply AcceptsExactly.of_checks fun _ _ _ _ => rfl
  intro params controls targets adj accepted
  unfold insertRxx at accepted
  split at accepted
  · exact ⟨rfl, rfl, rfl⟩
  · cases accepted

theorem insertRzz_accepts : AcceptsExactly insertRzz 1 0 2 := by
  apply AcceptsExactly.of_checks fun _ _ _ _ => rfl
  intro params controls targets adj accepted
  unfold insertRzz at accepted
  split at accepted
  · exact ⟨rfl, rfl, rfl⟩
  · cases accepted

theorem insertRzx_accepts : AcceptsExactly insertRzx 1 0 2 := by
  apply AcceptsExactly.of_checks fun _ _ _ _ => rfl
  intro params controls targets adj accepted
  unfold insertRzx at accepted
  split at accepted
  · exact ⟨rfl, rfl, rfl⟩
  · cases accepted

theorem insertDcx_accepts : AcceptsExactly insertDcx 0 0 2 := by
  apply AcceptsExactly.of_checks fun _ _ _ _ => rfl
  intro params controls targets adj accepted
  unfold insertDcx at accepted
  split at accepted
  · exact ⟨rfl, rfl, rfl⟩
  · cases accepted

theorem insertEcr_accepts : AcceptsExactly insertEcr 0 0 2 := by
  apply AcceptsExactly.of_checks fun _ _ _ _ => rfl
  intro params controls targets adj accepted
  unfold insertEcr at accepted
  split at accepted
  · exact ⟨rfl, rfl, rfl⟩
  · cases accepted

/-- `rccx` only reads its first three targets. -/
theorem insertRccx_accepts (params : List (FloatValue ℝ))
    (controls targets : List QuantumValue) (adj : Bool) :
    (insertRccx params controls targets adj).outcome = .ok () ↔
      3 ≤ targets.length := by
  rcases targets with _ | ⟨first, _ | ⟨second, _ | ⟨third, others⟩⟩⟩
  · exact iff_of_false (by rintro ⟨⟩) (by simp)
  · exact iff_of_false (by rintro ⟨⟩) (by simp)
  · exact iff_of_false (by rintro ⟨⟩) (by simp)
  · exact iff_of_true rfl (by simp)

/-! ## What the table accepts -/

/-- The number of operands of a call that become controls. -/
def leadingControls (name : String) : ℕ :=
  if isMultiQubitGate name then getNumControls name else 0

/-- A gate whose entry checks the numbers of its operands. -/
def Checked (gate : StandardGate Q) : Prop :=
  gate.name = "id" ∨ gate.name = "rccx" ∨
    ∃ builder, gateMap.lookup gate.name = some builder ∧
      AcceptsExactly builder gate.numAngles gate.numControls
        gate.numTargets

omit [DecidableEq Q] in
theorem Checked.entry {gate : StandardGate Q} {builder : GateBuilder ℝ}
    (accepts :
      AcceptsExactly builder gate.numAngles gate.numControls
        gate.numTargets)
    (found : gateMap.lookup gate.name = some builder) : Checked gate :=
  .inr (.inr ⟨builder, found, accepts⟩)

theorem decomposedGates_checked :
    ∀ gate ∈ (decomposedGates : List (StandardGate Q)), Checked gate := by
  simp only [decomposedGates, List.forall_mem_cons, List.not_mem_nil,
    false_implies, implies_true, and_true]
  exact ⟨.entry insertU_accepts rfl,
    .entry insertU_accepts rfl,
    .entry insertU2_accepts rfl,
    .entry insertSx_accepts rfl,
    .entry insertSxdg_accepts rfl,
    .entry (oneOperation_accepts .rz 1 0 1 _) rfl,
    .entry (oneOperation_accepts .rz 1 0 1 _) rfl,
    .entry insertCp_accepts rfl,
    .entry insertCp_accepts rfl,
    .inr (.inl rfl),
    .entry insertRxx_accepts rfl,
    .entry insertRzz_accepts rfl,
    .entry insertRzx_accepts rfl,
    .entry insertDcx_accepts rfl,
    .entry insertEcr_accepts rfl⟩

theorem directGates_checked :
    ∀ gate ∈ (directGates : List (StandardGate Q)), Checked gate := by
  simp only [directGates, List.forall_mem_cons, List.not_mem_nil,
    false_implies, implies_true, and_true]
  exact ⟨.entry (oneOperation_accepts .x 0 0 1 _) rfl,
    .entry (oneOperation_accepts .y 0 0 1 _) rfl,
    .entry (oneOperation_accepts .z 0 0 1 _) rfl,
    .entry (oneOperation_accepts .h 0 0 1 _) rfl,
    .entry (oneOperation_accepts .h 0 1 1 _) rfl,
    .entry (oneOperation_accepts .s 0 0 1 _) rfl,
    .entry (oneAdjoint_accepts .s _) rfl,
    .entry (oneOperation_accepts .t 0 0 1 _) rfl,
    .entry (oneAdjoint_accepts .t _) rfl,
    .entry (oneOperation_accepts .rx 1 0 1 _) rfl,
    .entry (oneOperation_accepts .ry 1 0 1 _) rfl,
    .entry (oneOperation_accepts .rz 1 0 1 _) rfl,
    .entry (oneOperation_accepts .rx 1 1 1 _) rfl,
    .entry (oneOperation_accepts .ry 1 1 1 _) rfl,
    .entry (oneOperation_accepts .x 0 1 1 _) rfl,
    .entry (oneOperation_accepts .x 0 1 1 _) rfl,
    .entry (oneOperation_accepts .x 0 2 1 _) rfl,
    .entry (oneOperation_accepts .y 0 1 1 _) rfl,
    .entry (oneOperation_accepts .z 0 1 1 _) rfl,
    .entry (oneOperation_accepts .r1 1 0 1 _) rfl,
    .entry (oneOperation_accepts .r1 1 1 1 _) rfl,
    .entry (oneOperation_accepts .u3 3 0 1 _) rfl,
    .entry (oneOperation_accepts .u3 3 1 1 _) rfl,
    .entry (oneOperation_accepts .swap 0 0 2 _) rfl,
    .entry (oneOperation_accepts .swap 0 1 2 _) rfl⟩

/-- Every gate of the library but `id` and `rccx` has such an entry. -/
theorem standardGates_checked :
    ∀ gate ∈ (standardGates : List (StandardGate Q)), Checked gate := by
  intro gate member
  rw [standardGates, List.mem_append, List.mem_append,
    List.mem_singleton] at member
  rcases member with (decomposed | direct) | rfl
  · exact decomposedGates_checked gate decomposed
  · exact directGates_checked gate direct
  · exact .inl rfl

/-- The names of the library. -/
def libraryNames : List String :=
  ["U", "u", "u2", "sx", "sxdg", "p", "phase", "cp", "cphase", "rccx",
    "rxx", "rzz", "rzx", "dcx", "ecr", "x", "y", "z", "h", "ch", "s", "sdg",
    "t", "tdg", "rx", "ry", "rz", "crx", "cry", "cx", "CX", "ccx", "cy",
    "cz", "u1", "cu1", "u3", "cu3", "swap", "cswap", "id"]

theorem standardGates_names :
    (standardGates : List (StandardGate Q)).map StandardGate.name =
      libraryNames := rfl

/-- A gate of the library is determined by its name. -/
theorem standardGate_unique {first second : StandardGate Q}
    (firstMember : first ∈ standardGates)
    (secondMember : second ∈ standardGates)
    (named : first.name = second.name) : first = second := by
  have distinct :
      ((standardGates : List (StandardGate Q)).map
        StandardGate.name).Nodup := by
    rw [standardGates_names]
    decide
  exact List.inj_on_of_nodup_map distinct firstMember secondMember named

/-- The conversion splits the operands of a gate where the gate does. -/
theorem standardGates_leadingControls :
    ∀ gate ∈ (standardGates : List (StandardGate Q)),
      leadingControls gate.name = gate.numControls ∧
        0 < gate.numTargets := by
  simp [standardGates, decomposedGates, directGates, leadingControls,
    isMultiQubitGate, getNumControls, matrixGate, rotationGate, swapGate,
    dcxGate, ecrGate, rccxGate, idGate]

/-- An entry that fails if its name is not in the library. -/
def FailsOutside (entry : String × GateBuilder ℝ) : Prop :=
  entry.1 ∉ libraryNames →
    ∀ params controls targets adj,
      (entry.2 params controls targets adj).outcome ≠ .ok ()

theorem FailsOutside.inside {entry : String × GateBuilder ℝ}
    (member : entry.1 ∈ libraryNames) : FailsOutside entry :=
  fun outside => (outside member).elim

theorem FailsOutside.unsupported (name message : String) :
    FailsOutside (name, GatesMap.unsupported message) := by
  rintro _ params controls targets adj ⟨⟩

/-- The entries of other names fail. -/
theorem gateMap_failsOutside :
    ∀ entry ∈ (gateMap : List (String × GateBuilder ℝ)),
      FailsOutside entry := by
  simp only [gateMap, List.forall_mem_cons, List.not_mem_nil,
    false_implies, implies_true, and_true]
  exact ⟨.unsupported _ _, .unsupported _ _, .unsupported _ _,
    .inside (by decide), .inside (by decide), .inside (by decide),
    .inside (by decide), .inside (by decide), .inside (by decide),
    .inside (by decide), .inside (by decide), .inside (by decide),
    .inside (by decide), .inside (by decide), .inside (by decide),
    .unsupported _ _, .inside (by decide), .inside (by decide),
    .inside (by decide), .inside (by decide), .inside (by decide),
    .inside (by decide), .inside (by decide), .inside (by decide),
    .inside (by decide), .inside (by decide), .inside (by decide),
    .inside (by decide), .inside (by decide), .inside (by decide),
    .inside (by decide), .inside (by decide), .inside (by decide),
    .inside (by decide), .inside (by decide), .inside (by decide),
    .inside (by decide), .inside (by decide), .inside (by decide),
    .inside (by decide), .unsupported _ _, .unsupported _ _,
    .inside (by decide), .unsupported _ _, .inside (by decide),
    .inside (by decide), .inside (by decide), .inside (by decide),
    .inside (by decide)⟩

/-- The numbers of arguments and operands the entry of a name takes. -/
inductive EntryTakes (Q : Type) [DecidableEq Q] (name : String)
    (numAngles numOperands : ℕ) : Prop where
  | id (named : name = "id")
  | rccx (named : name = "rccx") (three : 3 ≤ numOperands)
  | checked (gate : StandardGate Q) (member : gate ∈ standardGates)
      (named : gate.name = name) (angles : gate.numAngles = numAngles)
      (operands : gate.numControls + gate.numTargets = numOperands)

/-- A call that an entry takes has the name of a gate of the library. -/
theorem EntryTakes.library {name : String} {numAngles numOperands : ℕ}
    (takes : EntryTakes Q name numAngles numOperands) :
    name = "id" ∨ name = "rccx" ∨ name ∈ libraryNames := by
  cases takes with
  | id named => exact Or.inl named
  | rccx named _ => exact Or.inr (Or.inl named)
  | checked gate member named _ _ =>
      rw [← standardGates_names (Q := Q), ← named]
      exact Or.inr (Or.inr (List.mem_map_of_mem member))

/-- A gate outside the library is not accepted. -/
theorem insertQASMGate_rejects {name : String}
    (outside : name ∉ libraryNames)
    (params : List (FloatValue ℝ)) (controls targets : List QuantumValue)
    (adj : Bool) :
    (insertQASMGateIntoQuakeModule name params controls targets
      adj).outcome ≠ .ok () := by
  unfold insertQASMGateIntoQuakeModule
  cases found :
      (gateMap : List (String × GateBuilder ℝ)).lookup name with
  | none => rintro ⟨⟩
  | some builder =>
      exact gateMap_failsOutside _ (mem_gateMap found) outside _ _ _ _

/-- The table accepts exactly the numbers of its entries. -/
theorem insertQASMGate_accepts_iff (name : String) (angles : List ℝ)
    (values : List QuantumValue) (adj : Bool) :
    (insertQASMGateIntoQuakeModule name (angles.map .constant)
        (values.take (leadingControls name))
        (values.drop (leadingControls name)) adj).outcome = .ok () ↔
      EntryTakes Q name angles.length values.length := by
  by_cases isId : name = "id"
  · subst isId
    exact iff_of_true rfl (.id rfl)
  by_cases isRccx : name = "rccx"
  · subst isRccx
    have three :=
      insertRccx_accepts (angles.map .constant) [] values adj
    constructor
    · intro accepted
      exact .rccx rfl (three.mp accepted)
    · intro takes
      refine three.mpr ?_
      cases takes with
      | id named => exact (isId named).elim
      | rccx _ enough => exact enough
      | checked gate member named _ operands =>
          have rccx : (rccxGate : StandardGate Q) ∈ standardGates := by
            simp [standardGates, decomposedGates]
          rw [standardGate_unique member rccx named] at operands
          exact operands.le
  by_cases library : name ∈ libraryNames
  · rw [← standardGates_names (Q := Q), List.mem_map] at library
    rcases library with ⟨gate, member, rfl⟩
    rcases standardGates_checked gate member with
      named | named | ⟨builder, found, accepts⟩
    · exact (isId named).elim
    · exact (isRccx named).elim
    · rcases standardGates_leadingControls gate member with
        ⟨split, targets⟩
      unfold insertQASMGateIntoQuakeModule
      rw [found]
      dsimp only
      rw [accepts, split, List.length_take, List.length_drop]
      constructor
      · rintro ⟨angleCount, controlCount, targetCount⟩
        exact .checked gate member rfl angleCount.symm (by omega)
      · intro takes
        cases takes with
        | id named => exact (isId named).elim
        | rccx named _ => exact (isRccx named).elim
        | checked other otherMember named angleCount operands =>
            have same := standardGate_unique otherMember member named
            subst same
            omega
  · refine iff_of_false (insertQASMGate_rejects library _ _ _ adj) ?_
    intro takes
    rcases takes.library with named | named | member
    · exact isId named
    · exact isRccx named
    · exact library member

end MQSSPasses.QASM.LibraryGates
