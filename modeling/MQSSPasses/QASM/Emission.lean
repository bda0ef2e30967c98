import MQSSPasses.QASM.QASMToQuake

/-!
# What a gate call inserts

Every entry of the gate table except `id` inserts at least one gate when
its checks succeed.  The parameters and operands of a call only insert
values.  So an accepted call of any other gate puts a gate into the kernel,
and a call of `id` never does.
-/

namespace MQSSPasses.QASM.Emission

open MQSSPasses.General.TracedComputation
open MQSSPasses.General.OperationTree
open MQSSPasses.Quake.Syntax
open MQSSPasses.Quake.Operations
open MQSSPasses.QASM.Syntax
open MQSSPasses.QASM.GatesMap
open MQSSPasses.QASM.QASMToQuake

variable {A Value Other : Type}

/-- A gate operation. -/
def IsGate (operation : Op A) : Prop :=
  ∃ gate, operation.label = .gate gate

/-! ## Computations that insert an operation -/

/-- If the computation returns, it has inserted a wanted operation. -/
def Emits (wanted : Op A → Prop) (computation : Emit A Value) : Prop :=
  ∀ value, computation.outcome = .ok value →
    ∃ operation ∈ computation.trace, wanted operation

variable {wanted : Op A → Prop}

theorem Emits.of_record {operation : Op A} (holds : wanted operation) :
    Emits wanted (Traced.record operation : Emit A Unit) := by
  intro value _
  exact ⟨operation, List.mem_cons_self, holds⟩

theorem Emits.of_raise (fault : Fault) :
    Emits wanted (Traced.raise fault : Emit A Value) := by
  intro value returned
  cases returned

theorem Emits.bind_left {first : Emit A Value}
    (emits : Emits wanted first) (next : Value → Emit A Other) :
    Emits wanted (first >>= next) := by
  intro value returned
  rcases Traced.bind_ok_iff.mp returned with ⟨middle, early, -, trace⟩
  rcases emits middle early with ⟨operation, member, holds⟩
  rw [trace]
  exact ⟨operation, List.mem_append_left _ member, holds⟩

theorem Emits.bind_right (first : Emit A Value)
    {next : Value → Emit A Other}
    (emits : ∀ value, Emits wanted (next value)) :
    Emits wanted (first >>= next) := by
  intro value returned
  rcases Traced.bind_ok_iff.mp returned with ⟨middle, -, late, trace⟩
  rcases emits middle value late with ⟨operation, member, holds⟩
  rw [trace]
  exact ⟨operation, List.mem_append_right _ member, holds⟩

/-- If the computation returns, it has inserted a gate. -/
abbrev EmitsGate (computation : Emit A Value) : Prop :=
  Emits IsGate computation

theorem EmitsGate.of_createGate {kind : GateKind} {isAdj : Bool}
    {parameters : List (FloatValue A)}
    {controls targets : List QuantumValue} :
    EmitsGate (createGate kind isAdj parameters controls targets) :=
  .of_record ⟨_, rfl⟩

/-- An entry of the table that inserts a gate whenever it returns. -/
def BuildsGate (builder : GateBuilder A) : Prop :=
  ∀ params controls targets adj,
    EmitsGate (builder params controls targets adj)

section Table

@[simp]
theorem oneOperation_buildsGate (kind : GateKind)
    (nParams nControls nTargets : ℕ) (message : String) :
    BuildsGate (oneOperation kind nParams nControls nTargets message :
      GateBuilder A) := by
  intro params controls targets adj
  unfold oneOperation
  split
  · exact EmitsGate.of_createGate
  · exact Emits.of_raise _

@[simp]
theorem oneAdjoint_buildsGate (kind : GateKind) (message : String) :
    BuildsGate (oneAdjoint kind message : GateBuilder A) := by
  intro params controls targets adj
  exact oneOperation_buildsGate kind 0 0 1 message params controls
    targets true

@[simp]
theorem unsupported_buildsGate (message : String) :
    BuildsGate (unsupported message : GateBuilder A) := by
  intro params controls targets adj
  exact Emits.of_raise _

@[simp]
theorem insertU_buildsGate : BuildsGate (insertU : GateBuilder A) := by
  intro params controls targets adj
  unfold insertU
  split
  · exact (EmitsGate.of_createGate).bind_left _
  · exact Emits.of_raise _

@[simp]
theorem insertRzz_buildsGate : BuildsGate (insertRzz : GateBuilder A) := by
  intro params controls targets adj
  unfold insertRzz
  split
  · exact (EmitsGate.of_createGate).bind_left _
  · exact Emits.of_raise _

theorem createRzx_emitsGate {adj : Bool} {params : List (FloatValue A)}
    {controls : List QuantumValue} {first second : QuantumValue} :
    EmitsGate (createRzx adj params controls first second) :=
  (EmitsGate.of_createGate).bind_left _

@[simp]
theorem insertRzx_buildsGate : BuildsGate (insertRzx : GateBuilder A) := by
  intro params controls targets adj
  unfold insertRzx
  split
  · exact createRzx_emitsGate
  · exact Emits.of_raise _

@[simp]
theorem insertDcx_buildsGate : BuildsGate (insertDcx : GateBuilder A) := by
  intro params controls targets adj
  unfold insertDcx
  split
  · exact (EmitsGate.of_createGate).bind_left _
  · exact Emits.of_raise _

variable [FloatArithmetic A]

@[simp]
theorem insertU2_buildsGate : BuildsGate (insertU2 : GateBuilder A) := by
  intro params controls targets adj
  unfold insertU2
  split
  · exact .bind_right _ fun _ =>
      (EmitsGate.of_createGate).bind_left _
  · exact Emits.of_raise _

@[simp]
theorem insertSx_buildsGate : BuildsGate (insertSx : GateBuilder A) := by
  intro params controls targets adj
  unfold insertSx
  split
  · exact .bind_right _ fun _ => EmitsGate.of_createGate
  · exact Emits.of_raise _

@[simp]
theorem insertSxdg_buildsGate :
    BuildsGate (insertSxdg : GateBuilder A) := by
  intro params controls targets adj
  unfold insertSxdg
  split
  · exact .bind_right _ fun _ => EmitsGate.of_createGate
  · exact Emits.of_raise _

@[simp]
theorem insertCp_buildsGate : BuildsGate (insertCp : GateBuilder A) := by
  intro params controls targets adj
  unfold insertCp
  split
  · exact .bind_right _ fun _ => .bind_right _ fun _ =>
      .bind_right _ fun _ =>
        (EmitsGate.of_createGate).bind_left _
  · exact Emits.of_raise _

@[simp]
theorem insertRccx_buildsGate :
    BuildsGate (insertRccx : GateBuilder A) := by
  intro params controls targets adj
  unfold insertRccx
  exact .bind_right _ fun _ => .bind_right _ fun _ =>
    .bind_right _ fun _ => .bind_right _ fun _ => .bind_right _ fun _ =>
      .bind_right _ fun _ =>
        (EmitsGate.of_createGate).bind_left _

@[simp]
theorem insertRxx_buildsGate : BuildsGate (insertRxx : GateBuilder A) := by
  intro params controls targets adj
  unfold insertRxx
  split
  · exact .bind_right _ fun _ => .bind_right _ fun _ =>
      .bind_right _ fun _ => .bind_right _ fun _ => .bind_right _ fun _ =>
        .bind_right _ fun _ => .bind_right _ fun _ =>
          (EmitsGate.of_createGate).bind_left _
  · exact Emits.of_raise _

@[simp]
theorem insertEcr_buildsGate : BuildsGate (insertEcr : GateBuilder A) := by
  intro params controls targets adj
  unfold insertEcr
  split
  · exact .bind_right _ fun _ => .bind_right _ fun _ =>
      .bind_right _ fun _ => (createRzx_emitsGate).bind_left _
  · exact Emits.of_raise _

/-- Every entry except `id` inserts a gate. -/
theorem gateMap_buildsGate :
    ∀ entry ∈ (gateMap : List (String × GateBuilder A)),
      entry.1 ≠ "id" → BuildsGate entry.2 := by
  simp [gateMap]

theorem insertQASMGate_emitsGate {gateId : String}
    (named : gateId ≠ "id") (params : List (FloatValue A))
    (controls targets : List QuantumValue) (adj : Bool) :
    EmitsGate (insertQASMGateIntoQuakeModule gateId params controls
      targets adj) := by
  unfold insertQASMGateIntoQuakeModule
  cases found :
      (gateMap : List (String × GateBuilder A)).lookup gateId with
  | none => exact Emits.of_raise _
  | some builder =>
      exact gateMap_buildsGate _ (mem_gateMap found) named params controls
        targets adj

/-! ## Gate calls -/

/-- An accepted call of a gate other than `id` inserts a gate. -/
theorem insertGate_emitsGate {call : GateCall A}
    (named : call.identifier ≠ "id") (vectors : QASMVectorToQuakeVector) :
    EmitsGate (insertGate call vectors) :=
  .bind_right _ fun _ => .bind_right _ fun _ =>
    insertQASMGate_emitsGate named _ _ _ _

end Table

/-- A computation that inserts no gate. -/
def InsertsNoGate (computation : Emit A Value) : Prop :=
  computation.Satisfies (fun operation => ¬ IsGate operation)
    (fun _ => True)

theorem InsertsNoGate.bind {first : Emit A Value}
    {next : Value → Emit A Other} (early : InsertsNoGate first)
    (late : ∀ value, InsertsNoGate (next value)) :
    InsertsNoGate (first >>= next) :=
  Traced.Satisfies.bind early fun value _ => late value

theorem InsertsNoGate.of_pure (value : Value) :
    InsertsNoGate (pure value : Emit A Value) :=
  Traced.Satisfies.of_pure trivial

theorem InsertsNoGate.of_ofExcept (result : Except Fault Value) :
    InsertsNoGate (Traced.ofExcept result : Emit A Value) := by
  simp [InsertsNoGate, Traced.Satisfies]

theorem InsertsNoGate.of_constant (value : A) :
    InsertsNoGate (createFloatValue value) := by
  apply InsertsNoGate.bind
  · apply Traced.Satisfies.of_record
    · rintro ⟨gate, label⟩
      cases label
    · trivial
  · exact fun _ => .of_pure _

theorem InsertsNoGate.of_extractRef (value : QuantumValue) :
    InsertsNoGate
      (Traced.record (.leaf (.extractRef value)) : Emit A Unit) := by
  apply Traced.Satisfies.of_record
  · rintro ⟨gate, label⟩
    cases label
  · trivial

theorem insertArguments_insertsNoGate [FloatArithmetic A]
    (arguments : List (Expression A)) :
    InsertsNoGate (insertArguments arguments) := by
  induction arguments with
  | nil => exact .of_pure _
  | cons argument others induction =>
      exact .bind (.of_ofExcept _) fun _ => .bind (.of_constant _) fun _ =>
        .bind induction fun _ => .of_pure _

theorem extractOperand_insertsNoGate (vectors : QASMVectorToQuakeVector)
    (operand : GateOperand A) :
    InsertsNoGate (extractOperand vectors operand) := by
  refine .bind (.of_ofExcept _) fun qubitOp => ?_
  split
  · exact .of_ofExcept (.error _)
  · exact .bind (.of_ofExcept _) fun _ => .bind (.of_extractRef _) fun _ =>
      .of_pure _

theorem insertOperands_insertsNoGate (vectors : QASMVectorToQuakeVector)
    (numControls : ℕ) (operands : List (GateOperand A)) (i : ℕ) :
    InsertsNoGate (insertOperands vectors numControls i operands) := by
  induction operands generalizing i with
  | nil => exact .of_pure _
  | cons operand others induction =>
      refine .bind (extractOperand_insertsNoGate vectors operand)
        fun qubit => .bind (induction (i + 1)) fun rest => ?_
      split
      · exact .of_pure _
      · exact .of_pure _

theorem insertControlsAndTargets_insertsNoGate (call : GateCall A)
    (vectors : QASMVectorToQuakeVector) :
    InsertsNoGate (insertControlsAndTargets call vectors) := by
  unfold insertControlsAndTargets
  split
  · exact .of_pure _
  · exact .bind (.of_ofExcept _) fun _ =>
      insertOperands_insertsNoGate _ _ _ _

/-- A call of `id` inserts no gate. -/
theorem insertGate_of_id [FloatArithmetic A] {call : GateCall A}
    (named : call.identifier = "id") (vectors : QASMVectorToQuakeVector) :
    InsertsNoGate (insertGate call vectors) := by
  refine .bind (insertArguments_insertsNoGate _) fun _ =>
    .bind (insertControlsAndTargets_insertsNoGate _ _) fun _ => ?_
  rw [named]
  exact .of_pure ()

/-! ## Calls that insert nothing -/

theorem insertArguments_emits [FloatArithmetic A]
    {arguments : List (Expression A)} (nonempty : arguments ≠ []) :
    Emits (fun _ => True) (insertArguments arguments) := by
  cases arguments with
  | nil => exact (nonempty rfl).elim
  | cons argument others =>
      have constant (value : A) :
          Emits (fun _ => True) (createFloatValue value) :=
        (Emits.of_record trivial).bind_left _
      exact .bind_right _ fun value => (constant value).bind_left _

theorem extractOperand_emits (vectors : QASMVectorToQuakeVector)
    (operand : GateOperand A) :
    Emits (fun _ => True) (extractOperand vectors operand) := by
  refine .bind_right _ fun qubitOp => ?_
  split
  · exact .of_raise _
  · exact .bind_right _ fun _ => (Emits.of_record trivial).bind_left _

theorem insertControlsAndTargets_emits {call : GateCall A}
    (nonempty : call.operands ≠ []) (vectors : QASMVectorToQuakeVector) :
    Emits (fun _ => True) (insertControlsAndTargets call vectors) := by
  unfold insertControlsAndTargets
  rw [if_neg nonempty]
  refine .bind_right _ fun _ => ?_
  cases operands : call.operands with
  | nil => exact (nonempty operands).elim
  | cons operand others =>
      exact (extractOperand_emits vectors operand).bind_left _

/-- An accepted call inserts nothing only if it is a bare `id`. -/
theorem insertGate_trace_eq_nil_iff [FloatArithmetic A]
    {call : GateCall A} {vectors : QASMVectorToQuakeVector}
    (returned : (insertGate call vectors).outcome = .ok ()) :
    (insertGate call vectors).trace = [] ↔
      call.identifier = "id" ∧ call.arguments = [] ∧
        call.operands = [] := by
  constructor
  · intro empty
    have inserts_nothing
        (emits : Emits (fun _ => True) (insertGate call vectors)) :
        False := by
      rcases emits () returned with ⟨operation, member, -⟩
      rw [empty] at member
      cases member
    by_contra bare
    rw [not_and_or, not_and_or] at bare
    rcases bare with named | arguments | operands
    · rcases insertGate_emitsGate named vectors () returned with
        ⟨operation, member, -⟩
      rw [empty] at member
      cases member
    · exact inserts_nothing
        ((insertArguments_emits arguments).bind_left _)
    · exact inserts_nothing
        (.bind_right _ fun _ =>
          (insertControlsAndTargets_emits operands vectors).bind_left _)
  · rintro ⟨named, noArguments, noOperands⟩
    rw [insertGate, noArguments, insertControlsAndTargets,
      if_pos noOperands, named]
    rfl

end MQSSPasses.QASM.Emission
