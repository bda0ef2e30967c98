import MQSSPasses.QASM.Emission

/-!
# The gates an entry inserts

An entry of the gate table inserts constants and gates, and nothing else.
The gates act on the operands of the call, each on distinct ones if those of
the call are, with as many parameters as their kinds have and no negated
control.  The entry for `rccx` passes the parameters of the call on to gates
without parameters, so there the call must have none.
-/

namespace MQSSPasses.QASM.InsertedGates

open MQSSPasses.General.TracedComputation
open MQSSPasses.General.OperationTree
open MQSSPasses.Quake.Syntax
open MQSSPasses.Quake.Operations
open MQSSPasses.QASM.Syntax
open MQSSPasses.QASM.GatesMap
open MQSSPasses.QASM.QASMToQuake

variable {A Value Other : Type}

/-- A gate on some of the given operands. -/
structure ActsOn (operands : List QuantumValue) (gate : Gate A) : Prop where
  qubits : gate.qubits ⊆ operands
  distinct : operands.Nodup → gate.qubits.Nodup
  unnegated : gate.negatedQubitControls = none
  parameters :
    ∀ count, gate.kind.numParameters = some count →
      gate.parameters.length = count

/-- A constant, or a gate on some of the given operands. -/
inductive Inserted (operands : List QuantumValue) : Op A → Prop where
  | constant (value : FloatValue A) :
      Inserted operands (.leaf (.constant value))
  | gate (gate : Gate A) (actsOn : ActsOn operands gate) :
      Inserted operands gate.op

/-- A computation that inserts constants and gates on given operands. -/
def Inserts (operands : List QuantumValue) (computation : Emit A Value) :
    Prop :=
  computation.Satisfies (Inserted operands) fun _ => True

section Rules

variable {operands : List QuantumValue}

theorem Inserts.bind {first : Emit A Value} {next : Value → Emit A Other}
    (early : Inserts operands first)
    (late : ∀ value, Inserts operands (next value)) :
    Inserts operands (first >>= next) :=
  Traced.Satisfies.bind early fun value _ => late value

theorem Inserts.of_pure (value : Value) :
    Inserts operands (pure value : Emit A Value) :=
  Traced.Satisfies.of_pure trivial

theorem Inserts.of_ofExcept (result : Except Fault Value) :
    Inserts operands (Traced.ofExcept result : Emit A Value) := by
  simp [Inserts, Traced.Satisfies]

theorem Inserts.of_assertFailure (message : String) :
    Inserts operands (assertFailure message : Emit A Value) := by
  simp [Inserts, Traced.Satisfies, assertFailure]

theorem Inserts.of_constant (value : A) :
    Inserts operands (createFloatValue value) :=
  .bind (Traced.Satisfies.of_record (.constant _) trivial)
    fun _ => .of_pure _

theorem Inserts.of_gate {kind : GateKind} {isAdj : Bool}
    {parameters : List (FloatValue A)}
    {controls targets : List QuantumValue}
    (qubits : controls ++ targets ⊆ operands)
    (distinct : operands.Nodup → (controls ++ targets).Nodup)
    (arity :
      ∀ count, kind.numParameters = some count →
        parameters.length = count) :
    Inserts operands
      (createGate kind isAdj parameters controls targets) :=
  Traced.Satisfies.of_record
    (.gate _ ⟨qubits, distinct, rfl, arity⟩) trivial

end Rules

/-- An entry that inserts such operations on the operands of its call. -/
def InsertsOnOperands (builder : GateBuilder A) : Prop :=
  ∀ params controls targets adj,
    Inserts (controls ++ targets) (builder params controls targets adj)

/-! ## Gates with one operation -/

theorem oneOperation_inserts {kind : GateKind} {nParams : ℕ}
    (arity : kind.numParameters = some nParams) (nControls nTargets : ℕ)
    (message : String) :
    InsertsOnOperands
      (oneOperation kind nParams nControls nTargets message :
        GateBuilder A) := by
  intro params controls targets adj
  unfold oneOperation
  split
  next sizes =>
      refine .of_gate (List.Subset.refl _) id ?_
      intro count numbered
      rw [arity, Option.some.injEq] at numbered
      rw [sizes.1, numbered]
  next => exact .of_assertFailure _

theorem oneAdjoint_inserts {kind : GateKind}
    (arity : kind.numParameters = some 0) (message : String) :
    InsertsOnOperands (oneAdjoint kind message : GateBuilder A) :=
  fun params controls targets _ =>
    oneOperation_inserts arity 0 1 message params controls targets true

theorem unsupported_inserts (message : String) :
    InsertsOnOperands (unsupported message : GateBuilder A) :=
  fun _ _ _ _ => .of_assertFailure _

/-! ## Gates that are decomposed -/

section Decomposed

/-- A gate on one of two operands, or on both in either order. -/
theorem Inserts.of_pair {first second : QuantumValue} {kind : GateKind}
    {isAdj : Bool} {parameters : List (FloatValue A)}
    {controls targets : List QuantumValue}
    (chosen :
      controls ++ targets = [first] ∨ controls ++ targets = [second] ∨
        controls ++ targets = [first, second] ∨
          controls ++ targets = [second, first])
    (arity :
      ∀ count, kind.numParameters = some count →
        parameters.length = count) :
    Inserts [first, second]
      (createGate kind isAdj parameters controls targets) := by
  refine .of_gate ?_ ?_ arity
  · rcases chosen with same | same | same | same <;> simp [same]
  · intro distinct
    rcases chosen with same | same | same | same <;>
      simp_all [eq_comm]

/-- A kind and its number of parameters. -/
theorem arity_of {kind : GateKind} {parameters : List (FloatValue A)}
    (numbered : kind.numParameters = some parameters.length) :
    ∀ count, kind.numParameters = some count →
      parameters.length = count := by
  intro count other
  rw [numbered, Option.some.injEq] at other
  exact other

theorem insertU_inserts :
    InsertsOnOperands (insertU : GateBuilder A) := by
  intro params controls targets adj
  unfold insertU
  split
  next theta phi lambda wire =>
      refine .bind (.of_gate (List.Subset.refl _) id (arity_of rfl))
        fun _ => ?_
      refine .bind (.of_gate (List.Subset.refl _) id (arity_of rfl))
        fun _ => ?_
      exact .of_gate (List.Subset.refl _) id (arity_of rfl)
  next => exact .of_assertFailure _

theorem insertRzz_inserts :
    InsertsOnOperands (insertRzz : GateBuilder A) := by
  intro params controls targets adj
  unfold insertRzz
  split
  next angle first second =>
      refine .bind (.of_pair (by simp) (arity_of rfl)) fun _ => ?_
      refine .bind (.of_pair (by simp) (arity_of rfl)) fun _ => ?_
      exact .of_pair (by simp) (arity_of rfl)
  next => exact .of_assertFailure _

theorem createRzx_inserts (adj : Bool) (param : FloatValue A)
    (first second : QuantumValue) :
    Inserts [first, second] (createRzx adj [param] [] first second) := by
  unfold createRzx
  refine .bind (.of_pair (by simp) (arity_of rfl)) fun _ => ?_
  refine .bind (.of_pair (by simp) (arity_of rfl)) fun _ => ?_
  refine .bind (.of_pair (by simp) (arity_of rfl)) fun _ => ?_
  refine .bind (.of_pair (by simp) (arity_of rfl)) fun _ => ?_
  exact .of_pair (by simp) (arity_of rfl)

theorem insertRzx_inserts :
    InsertsOnOperands (insertRzx : GateBuilder A) := by
  intro params controls targets adj
  unfold insertRzx
  split
  next angle first second => exact createRzx_inserts adj angle first second
  next => exact .of_assertFailure _

theorem insertDcx_inserts :
    InsertsOnOperands (insertDcx : GateBuilder A) := by
  intro params controls targets adj
  unfold insertDcx
  split
  next first second =>
      refine .bind (.of_pair (by simp) (arity_of rfl)) fun _ => ?_
      exact .of_pair (by simp) (arity_of rfl)
  next => exact .of_assertFailure _

/-! ### Targets that are read one by one -/

theorem target_satisfies (operands targets : List QuantumValue)
    (index : ℕ) :
    (target targets index : Emit A QuantumValue).Satisfies
      (Inserted operands) fun value => targets[index]? = some value := by
  unfold target
  cases found : targets[index]? with
  | none => simp [Traced.Satisfies]
  | some value => exact Traced.Satisfies.of_pure rfl

section Targets

variable {controls targets : List QuantumValue} {kind : GateKind}
variable {isAdj : Bool} {parameters : List (FloatValue A)}

/-- A gate with the controls of the call on one of its targets. -/
theorem inserts_on_target {index : ℕ} {value : QuantumValue}
    (found : targets[index]? = some value)
    (arity :
      ∀ count, kind.numParameters = some count →
        parameters.length = count) :
    Inserts (controls ++ targets)
      (createGate kind isAdj parameters controls [value]) := by
  have member : [value].Sublist targets :=
    List.singleton_sublist.mpr (List.mem_of_getElem? found)
  have chosen : (controls ++ [value]).Sublist (controls ++ targets) :=
    (List.Sublist.refl controls).append member
  exact .of_gate chosen.subset (fun distinct => distinct.sublist chosen)
    arity

/-- A gate controlled by one target of the call on another. -/
theorem inserts_on_two_targets {first second : ℕ}
    {control value : QuantumValue}
    (foundControl : targets[first]? = some control)
    (found : targets[second]? = some value) (different : first ≠ second)
    (arity :
      ∀ count, kind.numParameters = some count →
        parameters.length = count) :
    Inserts (controls ++ targets)
      (createGate kind isAdj parameters [control] [value]) := by
  have controlMember := List.mem_of_getElem? foundControl
  have member := List.mem_of_getElem? found
  refine .of_gate ?_ ?_ arity
  · intro operand named
    simp only [List.cons_append, List.nil_append, List.mem_cons,
      List.not_mem_nil, or_false] at named
    rcases named with rfl | rfl
    · exact List.mem_append_right _ controlMember
    · exact List.mem_append_right _ member
  · intro distinct
    have targetsDistinct := distinct.of_append_right
    have apart : control ≠ value := by
      rintro rfl
      rcases List.getElem?_eq_some_iff.mp foundControl with
        ⟨inside, atFirst⟩
      exact different
        ((List.getElem?_inj inside targetsDistinct).mp
          (foundControl.trans found.symm))
    simpa using apart

end Targets

/-! ### Entries with constants -/

variable [FloatArithmetic A]

theorem insertU2_inserts :
    InsertsOnOperands (insertU2 : GateBuilder A) := by
  intro params controls targets adj
  unfold insertU2
  split
  next phi lambda wire =>
      refine .bind (.of_constant _) fun theta => ?_
      refine .bind (.of_gate (List.Subset.refl _) id (arity_of rfl))
        fun _ => ?_
      refine .bind (.of_gate (List.Subset.refl _) id (arity_of rfl))
        fun _ => ?_
      exact .of_gate (List.Subset.refl _) id (arity_of rfl)
  next => exact .of_assertFailure _

theorem insertSx_inserts :
    InsertsOnOperands (insertSx : GateBuilder A) := by
  intro params controls targets adj
  unfold insertSx
  split
  next wire =>
      refine .bind (.of_constant _) fun angle => ?_
      exact .of_gate (List.Subset.refl _) id (arity_of rfl)
  next => exact .of_assertFailure _

theorem insertSxdg_inserts :
    InsertsOnOperands (insertSxdg : GateBuilder A) := by
  intro params controls targets adj
  unfold insertSxdg
  split
  next wire =>
      refine .bind (.of_constant _) fun angle => ?_
      exact .of_gate (List.Subset.refl _) id (arity_of rfl)
  next => exact .of_assertFailure _

theorem insertCp_inserts :
    InsertsOnOperands (insertCp : GateBuilder A) := by
  intro params controls targets adj
  unfold insertCp
  split
  next angle control wire =>
      refine .bind (.of_ofExcept _) fun angleValue => ?_
      refine .bind (.of_constant _) fun halfValue => ?_
      refine .bind (.of_constant _) fun minusHalfValue => ?_
      refine .bind (.of_pair (by simp) (arity_of rfl)) fun _ => ?_
      refine .bind (.of_pair (by simp) (arity_of rfl)) fun _ => ?_
      refine .bind (.of_pair (by simp) (arity_of rfl)) fun _ => ?_
      refine .bind (.of_pair (by simp) (arity_of rfl)) fun _ => ?_
      exact .of_pair (by simp) (arity_of rfl)
  next => exact .of_assertFailure _

theorem insertRxx_inserts :
    InsertsOnOperands (insertRxx : GateBuilder A) := by
  intro params controls targets adj
  unfold insertRxx
  split
  next angle first second =>
      refine .bind (.of_constant _) fun zeroValue => ?_
      refine .bind (.of_constant _) fun halfPi => ?_
      refine .bind (.of_constant _) fun _pi => ?_
      refine .bind (.of_constant _) fun minusPi => ?_
      refine .bind (.of_ofExcept _) fun angleValue => ?_
      refine .bind (.of_constant _) fun minusAngle => ?_
      refine .bind (.of_constant _) fun piMinusAngle => ?_
      refine .bind (.of_pair (by simp) (arity_of rfl)) fun _ => ?_
      refine .bind (.of_pair (by simp) (arity_of rfl)) fun _ => ?_
      refine .bind (.of_pair (by simp) (arity_of rfl)) fun _ => ?_
      refine .bind (.of_pair (by simp) (arity_of rfl)) fun _ => ?_
      refine .bind (.of_pair (by simp) (arity_of rfl)) fun _ => ?_
      refine .bind (.of_pair (by simp) (arity_of rfl)) fun _ => ?_
      refine .bind (.of_pair (by simp) (arity_of rfl)) fun _ => ?_
      refine .bind (.of_pair (by simp) (arity_of rfl)) fun _ => ?_
      exact .of_pair (by simp) (arity_of rfl)
  next => exact .of_assertFailure _

theorem insertEcr_inserts :
    InsertsOnOperands (insertEcr : GateBuilder A) := by
  intro params controls targets adj
  unfold insertEcr
  split
  next first second =>
      refine .bind (.of_constant _) fun qPi => ?_
      refine .bind (.of_constant _) fun minusQPi => ?_
      refine .bind (.of_constant _) fun Pi => ?_
      refine .bind (createRzx_inserts adj qPi first second) fun _ => ?_
      refine .bind (.of_pair (by simp) (arity_of rfl)) fun _ => ?_
      exact createRzx_inserts adj minusQPi first second
  next => exact .of_assertFailure _

/-- The entry for `rccx` on a call without parameters. -/
theorem insertRccx_inserts (controls targets : List QuantumValue)
    (adj : Bool) :
    Inserts (controls ++ targets)
      (insertRccx ([] : List (FloatValue A)) controls targets adj) := by
  unfold insertRccx
  refine .bind (.of_constant _) fun zeroValue => ?_
  refine .bind (.of_constant _) fun Pi => ?_
  refine .bind (.of_constant _) fun halfPi => ?_
  refine .bind (.of_constant _) fun qPi => ?_
  refine .bind (.of_constant _) fun minusQPi => ?_
  refine Traced.Satisfies.bind (target_satisfies _ targets 2)
    fun third atThird => ?_
  refine Inserts.bind (inserts_on_target atThird (arity_of rfl))
    fun _ => ?_
  refine .bind (inserts_on_target atThird (arity_of rfl)) fun _ => ?_
  refine .bind (inserts_on_target atThird (arity_of rfl)) fun _ => ?_
  refine .bind (inserts_on_target atThird (arity_of rfl)) fun _ => ?_
  refine Traced.Satisfies.bind (target_satisfies _ targets 1)
    fun second atSecond => ?_
  refine Inserts.bind
    (inserts_on_two_targets atSecond atThird (by decide) (arity_of rfl))
    fun _ => ?_
  refine .bind (inserts_on_target atThird (arity_of rfl)) fun _ => ?_
  refine Traced.Satisfies.bind (target_satisfies _ targets 0)
    fun first atFirst => ?_
  refine Inserts.bind
    (inserts_on_two_targets atFirst atThird (by decide) (arity_of rfl))
    fun _ => ?_
  refine .bind (inserts_on_target atThird (arity_of rfl)) fun _ => ?_
  refine .bind
    (inserts_on_two_targets atSecond atThird (by decide) (arity_of rfl))
    fun _ => ?_
  refine .bind (inserts_on_target atThird (arity_of rfl)) fun _ => ?_
  refine .bind (inserts_on_target atThird (arity_of rfl)) fun _ => ?_
  refine .bind (inserts_on_target atThird (arity_of rfl)) fun _ => ?_
  exact inserts_on_target atThird (arity_of rfl)

end Decomposed

/-! ## The table -/

section Table

variable [FloatArithmetic A]

/--
Every entry inserts gates on its operands, except that for `rccx` and the
second one for `z`, which no call reaches.
-/
theorem gateMap_inserts :
    ∀ entry ∈ (gateMap : List (String × GateBuilder A)),
      entry.1 ≠ "rccx" → entry.1 ≠ "z" → InsertsOnOperands entry.2 := by
  simp only [gateMap, List.forall_mem_cons, List.not_mem_nil,
    false_imp_iff, implies_true, ne_eq, String.reduceEq,
    not_false_eq_true, forall_const, not_true_eq_false, and_true, true_and]
  have one {kind : GateKind} {nParams : ℕ}
      (arity : kind.numParameters = some nParams) {nControls nTargets : ℕ}
      {message : String} :
      InsertsOnOperands
        (oneOperation kind nParams nControls nTargets message :
          GateBuilder A) :=
    oneOperation_inserts arity nControls nTargets message
  have identity :
      InsertsOnOperands (fun _ _ _ _ => pure () : GateBuilder A) :=
    fun _ _ _ _ => .of_pure ()
  exact ⟨unsupported_inserts _, unsupported_inserts _,
    unsupported_inserts _, insertU_inserts, one rfl, one rfl, one rfl,
    one rfl, one rfl, oneAdjoint_inserts rfl _, insertSx_inserts,
    insertSxdg_inserts, one rfl, oneAdjoint_inserts rfl _,
    unsupported_inserts _, one rfl, one rfl, one rfl, one rfl, one rfl,
    one rfl, one rfl, insertCp_inserts, insertCp_inserts, identity,
    one rfl, one rfl, one rfl, one rfl, one rfl, one rfl, insertU_inserts,
    one rfl, one rfl, insertU2_inserts, one rfl, one rfl,
    unsupported_inserts _, unsupported_inserts _, insertRxx_inserts,
    unsupported_inserts _, insertRzz_inserts, insertRzx_inserts,
    insertDcx_inserts, insertEcr_inserts, one rfl⟩

/-- What the table inserts for a name. -/
theorem insertQASMGate_inserts {gateId : String}
    {params : List (FloatValue A)}
    (noParams : gateId = "rccx" → params = [])
    (controls targets : List QuantumValue) (adj : Bool) :
    Inserts (controls ++ targets)
      (insertQASMGateIntoQuakeModule gateId params controls targets
        adj) := by
  by_cases isRccx : gateId = "rccx"
  · rw [noParams isRccx, isRccx]
    exact insertRccx_inserts controls targets adj
  by_cases isZ : gateId = "z"
  · rw [isZ]
    exact @oneOperation_inserts A .z 0 rfl 0 1 "ill-formed z gate" params
      controls targets adj
  unfold insertQASMGateIntoQuakeModule
  cases found :
      (gateMap : List (String × GateBuilder A)).lookup gateId with
  | none => exact .of_assertFailure _
  | some builder =>
      exact gateMap_inserts _ (mem_gateMap found) isRccx isZ _ _ _ _

end Table

/-! ## Gate calls -/

/-- What a call inserts: references, constants, and gates on its operands. -/
inductive CallOperation (operands : List QuantumValue) : Op A → Prop where
  | extractRef (value : QuantumValue) :
      CallOperation operands (.leaf (.extractRef value))
  | inserted (operation : Op A) (inserts : Inserted operands operation) :
      CallOperation operands operation

section Calls

theorem insertArguments_operations [FloatArithmetic A]
    (operands : List QuantumValue) (arguments : List (Expression A)) :
    (insertArguments arguments).Satisfies (CallOperation operands)
      fun params => params.length = arguments.length := by
  induction arguments with
  | nil => exact Traced.Satisfies.of_pure rfl
  | cons argument others induction =>
      have value (result : Except Fault A) :
          (Traced.ofExcept result : Emit A A).Satisfies
            (CallOperation operands) fun _ => True := by
        simp [Traced.Satisfies]
      refine (value _).bind fun angle _ => ?_
      have constant :
          (createFloatValue angle).Satisfies (CallOperation operands)
            fun _ => True :=
        (Inserts.of_constant angle).mono
          (fun operation inserts => .inserted operation inserts)
          fun _ _ => trivial
      refine constant.bind fun parameter _ => ?_
      refine induction.bind fun parameters sameLength => ?_
      exact Traced.Satisfies.of_pure (congrArg (· + 1) sameLength)

theorem extractOperand_operations (operands : List QuantumValue)
    (vectors : QASMVectorToQuakeVector) (operand : GateOperand A) :
    (extractOperand vectors operand).Satisfies (CallOperation operands)
      fun _ => True := by
  have read {Value : Type} (result : Except Fault Value) :
      (Traced.ofExcept result : Emit A Value).Satisfies
        (CallOperation operands) fun _ => True := by
    simp [Traced.Satisfies]
  unfold extractOperand
  refine (read _).bind fun qubitOp _ => ?_
  split
  · exact read (.error _)
  · refine (read _).bind fun register _ => ?_
    refine Traced.Satisfies.bind
      (Traced.Satisfies.of_record (.extractRef _) trivial)
      fun _ (_ : True) => ?_
    exact Traced.Satisfies.of_pure trivial

theorem insertOperands_operations (operands : List QuantumValue)
    (vectors : QASMVectorToQuakeVector) (numControls i : ℕ)
    (named : List (GateOperand A)) :
    (insertOperands vectors numControls i named).Satisfies
      (CallOperation operands) fun _ => True := by
  induction named generalizing i with
  | nil => exact Traced.Satisfies.of_pure trivial
  | cons operand others induction =>
      refine (extractOperand_operations operands vectors operand).bind
        fun qubit _ => ?_
      refine (induction (i + 1)).bind fun rest _ => ?_
      split
      · exact Traced.Satisfies.of_pure trivial
      · exact Traced.Satisfies.of_pure trivial

variable {call : GateCall A} {vectors : QASMVectorToQuakeVector}
variable {operands : List QuantumValue × List QuantumValue}

theorem insertControlsAndTargets_operations
    (returned :
      (insertControlsAndTargets call vectors).outcome = .ok operands) :
    (insertControlsAndTargets call vectors).Satisfies
      (CallOperation (operands.1 ++ operands.2))
        fun result => result = operands := by
  have events :
      ∀ operation ∈ (insertControlsAndTargets call vectors).trace,
        CallOperation (operands.1 ++ operands.2) operation := by
    have all :
        (insertControlsAndTargets call vectors).Satisfies
          (CallOperation (operands.1 ++ operands.2)) fun _ => True := by
      unfold insertControlsAndTargets
      split
      · exact Traced.Satisfies.of_pure trivial
      · have read :
            (Traced.ofExcept (readModifiers call.modifiers) :
              Emit A Unit).Satisfies
                (CallOperation (operands.1 ++ operands.2))
                fun _ => True := by
          simp [Traced.Satisfies]
        exact read.bind fun _ _ => insertOperands_operations _ _ _ _ _
    exact all.1
  refine ⟨events, ?_⟩
  intro result same
  rw [returned, Except.ok.injEq] at same
  exact same.symm

/-- What a call inserts whose operands are read. -/
theorem insertGate_operations [FloatArithmetic A]
    (returned :
      (insertControlsAndTargets call vectors).outcome = .ok operands)
    (noParams : call.identifier = "rccx" → call.arguments = []) :
    ∀ operation ∈ (insertGate call vectors).trace,
      CallOperation (operands.1 ++ operands.2) operation := by
  have all :
      (insertGate call vectors).Satisfies
        (CallOperation (operands.1 ++ operands.2)) fun _ => True := by
    refine (insertArguments_operations _ call.arguments).bind
      fun params sameLength => ?_
    refine (insertControlsAndTargets_operations returned).bind ?_
    rintro result rfl
    have empty (isRccx : call.identifier = "rccx") : params = [] := by
      rw [noParams isRccx] at sameLength
      exact List.length_eq_zero_iff.mp sameLength
    exact (insertQASMGate_inserts empty _ _ _).mono
      (fun operation inserts => .inserted operation inserts)
      fun _ _ => trivial
  exact all.1

end Calls

end MQSSPasses.QASM.InsertedGates
