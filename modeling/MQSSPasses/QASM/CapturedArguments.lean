import MQSSPasses.QASM.GatesMap

/-!
# The table of gates as a static variable

The table of `insertQASMGateIntoQuakeModule` is a static variable.  Its
entries are closures that capture the variables of the surrounding call by
reference, and they are built once, at the first call of the process.  From
then on an entry that reads what it captured reads the frame of that first
call, which is gone when the call returns.

What such a read gives is not defined: the program may stop, the storage
may still hold the values of the first call, or the frame of the present
call may happen to lie over it.  A `DeadRead` is one of these
possibilities, and a property of the code has to hold for all of them.
-/

namespace MQSSPasses.QASM.CapturedArguments

open MQSSPasses.General.TracedComputation
open MQSSPasses.General.OperationTree
open MQSSPasses.Quake.Syntax
open MQSSPasses.Quake.Operations
open MQSSPasses.QASM.Syntax
open MQSSPasses.QASM.GatesMap

variable {A : Type}

/--
The variables of a call that the entries capture.  The builder stands for
the kernel it inserts into.
-/
structure Frame (A : Type) where
  builder : ℕ
  params : List (FloatValue A)
  controls : List QuantumValue
  targets : List QuantumValue
  adj : Bool

/-- The arguments of a call. -/
structure Call (A : Type) where
  gateId : String
  frame : Frame A

inductive CallFault where
  | fault (fault : Fault)
  /-- A read of a variable whose call has returned. -/
  | danglingReference
  deriving DecidableEq, Repr

/--
What a read of the first frame gives during a later call, from the two
frames; nothing when the program stops.
-/
abbrev DeadRead (A : Type) : Type :=
  Frame A → Frame A → Option (Frame A)

/-- The storage of the first frame is never used again. -/
def keepsFirst : DeadRead A := fun first _ => some first

/-- The frame of every later call lies over the first one. -/
def reusesStorage : DeadRead A := fun _ current => some current

/-- The operations are recorded with the builder that inserts them. -/
abbrev Insertion (A Value : Type) : Type :=
  Traced CallFault (ℕ × Op A) Value

/-- Insert through the given builder. -/
def insertInto {Value : Type} (builder : ℕ) (emission : Emit A Value) :
    Insertion A Value :=
  ⟨emission.trace.map fun op => (builder, op),
    emission.outcome.mapError .fault⟩

/--
Read the captured variables.  As long as nothing is captured the table is
built by the present call.
-/
def readFrame (dead : DeadRead A) (captured : Option (Frame A))
    (current : Frame A) : Insertion A (Frame A) :=
  match captured with
  | none => return current
  | some first =>
      match dead first current with
      | some frame => return frame
      | none => Traced.raise .danglingReference

/-- The entries that look at none of the captured variables. -/
def entriesWithoutReads : List String :=
  ["gphase", "xx_minus_yy", "xx_plus_yy", "teleport", "id", "iswap",
    "iswapdg", "ryy"]

section Calls

variable [FloatArithmetic A]

/-- The table has an entry for the gate, and it reads what it captured. -/
def ReadsFrame (A : Type) [FloatArithmetic A] (gateId : String) : Prop :=
  ((@gateMap A _).lookup gateId).isSome ∧ gateId ∉ entriesWithoutReads

/-- One call, after calls that left the given frame captured. -/
def insertQASMGateIntoQuakeModule (dead : DeadRead A)
    (captured : Option (Frame A)) (call : Call A) : Insertion A Unit :=
  match gateMap.lookup call.gateId with
  | none =>
      insertInto call.frame.builder
        (assertFailure ("Unknown gate: " ++ call.gateId ++ "\n"))
  | some entry =>
      if call.gateId ∈ entriesWithoutReads then
        insertInto call.frame.builder (entry [] [] [] false)
      else do
        let frame ← readFrame dead captured call.frame
        insertInto frame.builder
          (entry frame.params frame.controls frame.targets frame.adj)

/-- The calls of a process, from the frame captured so far. -/
def processFrom (dead : DeadRead A) (captured : Option (Frame A))
    (calls : List (Call A)) : Insertion A (Option (Frame A)) :=
  calls.foldlM
    (fun captured call => do
      insertQASMGateIntoQuakeModule dead captured call
      return some (captured.getD call.frame))
    captured

/-- The calls of a process; the result is the captured frame. -/
def process (dead : DeadRead A) (calls : List (Call A)) :
    Insertion A (Option (Frame A)) :=
  processFrom dead none calls

/-- What a call inserts when its entry reads its own variables. -/
def ownInsertion (call : Call A) : Insertion A Unit :=
  insertInto call.frame.builder
    (GatesMap.insertQASMGateIntoQuakeModule call.gateId call.frame.params
      call.frame.controls call.frame.targets call.frame.adj)

/--
Whatever a read of a dead frame gives, the operations a call inserts are
the same after any two series of earlier calls that returned.
-/
def EmitsFromOwnArguments (call : Call A) : Prop :=
  ∀ (dead : DeadRead A) (earlier others : List (Call A))
    (captured otherwise : Option (Frame A)),
    (process dead earlier).outcome = .ok captured →
      (process dead others).outcome = .ok otherwise →
        (insertQASMGateIntoQuakeModule dead captured call).trace =
          (insertQASMGateIntoQuakeModule dead otherwise call).trace

end Calls

/-! ## The two kinds of entries -/

section Table

/-- An entry that does the same whatever the operands are. -/
def Constant (entry : GateBuilder A) : Prop :=
  ∀ params controls targets adj,
    entry params controls targets adj = entry [] [] [] false

/-- An entry that inserts an operation for some operands. -/
def Inserts (entry : GateBuilder A) : Prop :=
  ∃ params controls targets adj,
    (entry params controls targets adj).trace ≠ []

@[simp]
theorem unsupported_constant (message : String) :
    Constant (unsupported message : GateBuilder A) :=
  fun _ _ _ _ => rfl

@[simp]
theorem id_constant :
    Constant (fun _ _ _ _ => return () : GateBuilder A) :=
  fun _ _ _ _ => rfl

@[simp]
theorem oneOperation_inserts (kind : GateKind)
    (nParams nControls nTargets : ℕ) (message : String) :
    Inserts (oneOperation kind nParams nControls nTargets message :
      GateBuilder A) := by
  refine ⟨List.replicate nParams (.argument 0),
    List.replicate nControls (.refArgument 0),
    List.replicate nTargets (.refArgument 0), false, ?_⟩
  simp [oneOperation, createGate]

@[simp]
theorem oneAdjoint_inserts (kind : GateKind) (message : String) :
    Inserts (oneAdjoint kind message : GateBuilder A) := by
  refine ⟨[], [], [.refArgument 0], false, ?_⟩
  simp [oneAdjoint, oneOperation, createGate]

@[simp]
theorem insertU_inserts : Inserts (insertU : GateBuilder A) := by
  refine ⟨[.argument 0, .argument 1, .argument 2], [],
    [.refArgument 0], false, ?_⟩
  simp [insertU, createGate]

@[simp]
theorem insertRzz_inserts : Inserts (insertRzz : GateBuilder A) := by
  refine ⟨[.argument 0], [], [.refArgument 0, .refArgument 1], false, ?_⟩
  simp [insertRzz, createGate]

@[simp]
theorem insertRzx_inserts : Inserts (insertRzx : GateBuilder A) := by
  refine ⟨[.argument 0], [], [.refArgument 0, .refArgument 1], false, ?_⟩
  simp [insertRzx, createRzx, createGate]

@[simp]
theorem insertDcx_inserts : Inserts (insertDcx : GateBuilder A) := by
  refine ⟨[], [], [.refArgument 0, .refArgument 1], false, ?_⟩
  simp [insertDcx, createGate]

variable [FloatArithmetic A]

@[simp]
theorem insertU2_inserts : Inserts (insertU2 : GateBuilder A) := by
  refine ⟨[.argument 0, .argument 1], [], [.refArgument 0], false, ?_⟩
  simp [insertU2, createFloatValue, Traced.bind_assoc_eq]

@[simp]
theorem insertSx_inserts : Inserts (insertSx : GateBuilder A) := by
  refine ⟨[], [], [.refArgument 0], false, ?_⟩
  simp [insertSx, createFloatValue, Traced.bind_assoc_eq]

@[simp]
theorem insertSxdg_inserts : Inserts (insertSxdg : GateBuilder A) := by
  refine ⟨[], [], [.refArgument 0], false, ?_⟩
  simp [insertSxdg, createFloatValue, Traced.bind_assoc_eq]

@[simp]
theorem insertCp_inserts : Inserts (insertCp : GateBuilder A) := by
  refine ⟨[.computed 0], [.refArgument 0], [.refArgument 1], false, ?_⟩
  simp [insertCp, extractDoubleArgumentValue, createFloatValue,
    Traced.bind_assoc_eq]

@[simp]
theorem insertRccx_inserts : Inserts (insertRccx : GateBuilder A) := by
  refine ⟨[], [], [], false, ?_⟩
  simp [insertRccx, createFloatValue, Traced.bind_assoc_eq]

@[simp]
theorem insertRxx_inserts : Inserts (insertRxx : GateBuilder A) := by
  refine ⟨[.argument 0], [], [.refArgument 0, .refArgument 1], false, ?_⟩
  simp [insertRxx, createFloatValue, Traced.bind_assoc_eq]

@[simp]
theorem insertEcr_inserts : Inserts (insertEcr : GateBuilder A) := by
  refine ⟨[], [], [.refArgument 0, .refArgument 1], false, ?_⟩
  simp [insertEcr, createFloatValue, Traced.bind_assoc_eq]

/-- The entries without reads are those that do not need their operands. -/
theorem gateMap_constant :
    ∀ entry ∈ (gateMap : List (String × GateBuilder A)),
      entry.1 ∈ entriesWithoutReads → Constant entry.2 := by
  simp [gateMap, entriesWithoutReads]

/-- Every other entry inserts an operation for some operands. -/
theorem gateMap_inserts :
    ∀ entry ∈ (gateMap : List (String × GateBuilder A)),
      entry.1 ∉ entriesWithoutReads → Inserts entry.2 := by
  simp [gateMap, entriesWithoutReads]

end Table

/-! ## One call -/

section Calls

theorem builder_of_mem_insertInto {Value : Type} {builder : ℕ}
    {emission : Emit A Value} {inserted : ℕ × Op A}
    (member : inserted ∈ (insertInto builder emission).trace) :
    inserted.1 = builder := by
  rcases List.mem_map.mp member with ⟨op, -, rfl⟩
  rfl

variable [FloatArithmetic A] {dead : DeadRead A}

/-- Without a captured frame the entry reads the present one. -/
theorem insertQASMGate_first (call : Call A) :
    insertQASMGateIntoQuakeModule dead none call = ownInsertion call := by
  unfold insertQASMGateIntoQuakeModule ownInsertion
    GatesMap.insertQASMGateIntoQuakeModule
  cases found :
      (gateMap : List (String × GateBuilder A)).lookup call.gateId with
  | none => rfl
  | some entry =>
      by_cases named : call.gateId ∈ entriesWithoutReads
      · have constant : Constant entry :=
          gateMap_constant _ (mem_gateMap found) named
        simp only [if_pos named]
        rw [constant call.frame.params call.frame.controls
          call.frame.targets call.frame.adj]
      · simp only [if_neg named, readFrame, Traced.pure_bind_eq]

/-- A call whose entry reads nothing does not need the captured frame. -/
theorem insertQASMGate_of_not_readsFrame {call : Call A}
    (readsNothing : ¬ ReadsFrame A call.gateId)
    (captured : Option (Frame A)) :
    insertQASMGateIntoQuakeModule dead captured call =
      ownInsertion call := by
  rw [← @insertQASMGate_first A _ dead call]
  unfold insertQASMGateIntoQuakeModule
  cases found :
      (gateMap : List (String × GateBuilder A)).lookup call.gateId with
  | none => rfl
  | some entry =>
      have named : call.gateId ∈ entriesWithoutReads := by
        by_contra absent
        exact readsNothing ⟨by rw [found]; rfl, absent⟩
      simp only [if_pos named]

/-- A call whose entry reads the frame acts on what the read gives. -/
theorem insertQASMGate_of_readsFrame {call : Call A}
    (reads : ReadsFrame A call.gateId) (captured : Option (Frame A)) :
    insertQASMGateIntoQuakeModule dead captured call =
      readFrame dead captured call.frame >>= fun frame =>
        ownInsertion ⟨call.gateId, frame⟩ := by
  rcases Option.isSome_iff_exists.mp reads.1 with ⟨entry, found⟩
  unfold insertQASMGateIntoQuakeModule ownInsertion
    GatesMap.insertQASMGateIntoQuakeModule
  simp only [found, if_neg reads.2]

/-- Where the frames lie over each other every call reads its own. -/
theorem insertQASMGate_of_reusesStorage (captured : Option (Frame A))
    (call : Call A) :
    insertQASMGateIntoQuakeModule reusesStorage captured call =
      ownInsertion call := by
  by_cases reads : ReadsFrame A call.gateId
  · rw [insertQASMGate_of_readsFrame reads]
    cases captured <;>
      exact Traced.pure_bind_eq _ _
  · exact insertQASMGate_of_not_readsFrame reads captured

/-! ## A process -/

/-- The first call of a process that returns, and the calls after it. -/
theorem processFrom_cons {first captured : Option (Frame A)}
    {call : Call A} {others : List (Call A)}
    (returned :
      (processFrom dead first (call :: others)).outcome = .ok captured) :
    (processFrom dead (some (first.getD call.frame)) others).outcome =
        .ok captured ∧
      (processFrom dead first (call :: others)).trace =
        (insertQASMGateIntoQuakeModule dead first call).trace ++
          (processFrom dead (some (first.getD call.frame))
            others).trace := by
  have unfolded :
      processFrom dead first (call :: others) =
        (insertQASMGateIntoQuakeModule dead first call >>= fun _ =>
            pure (some (first.getD call.frame))) >>=
          fun captured => processFrom dead captured others := rfl
  rw [unfolded] at returned ⊢
  rcases Traced.bind_ok_iff.mp returned with ⟨next, step, later, trace⟩
  rcases Traced.bind_ok_iff.mp step with ⟨-, -, kept, stepTrace⟩
  cases kept
  refine ⟨later, ?_⟩
  rw [trace, stepTrace, Traced.pure_trace, List.append_nil]

/-- The captured frame is that of the first call. -/
theorem captured_of_processFrom {first captured : Option (Frame A)}
    {calls : List (Call A)}
    (returned :
      (processFrom dead first calls).outcome = .ok captured) :
    captured = first.or (calls.head?.map Call.frame) := by
  induction calls generalizing first with
  | nil =>
      cases returned
      simp
  | cons call others induction =>
      rw [induction (processFrom_cons returned).1]
      cases first <;> simp

/--
After any calls that returned, an entry that reads the frame acts on what a
read of the frame of the first of them gives.
-/
theorem insertQASMGate_later {first : Call A} {others : List (Call A)}
    {captured : Option (Frame A)}
    (returned : (process dead (first :: others)).outcome = .ok captured)
    {call : Call A} (reads : ReadsFrame A call.gateId) :
    insertQASMGateIntoQuakeModule dead captured call =
      match dead first.frame call.frame with
      | some frame => ownInsertion ⟨call.gateId, frame⟩
      | none => Traced.raise .danglingReference := by
  rw [insertQASMGate_of_readsFrame reads,
    captured_of_processFrom returned]
  simp only [List.head?_cons, Option.map_some, Option.none_or, readFrame]
  cases dead first.frame call.frame with
  | none => exact Traced.raise_bind _ _
  | some frame => exact Traced.pure_bind_eq _ _

/-- Calls that insert what they insert on their own. -/
theorem trace_of_processFrom {calls : List (Call A)}
    (own :
      ∀ captured, ∀ call ∈ calls,
        insertQASMGateIntoQuakeModule dead captured call =
          ownInsertion call)
    {first captured : Option (Frame A)}
    (returned :
      (processFrom dead first calls).outcome = .ok captured) :
    (processFrom dead first calls).trace =
      calls.flatMap fun call => (ownInsertion call).trace := by
  induction calls generalizing first with
  | nil => rfl
  | cons call others induction =>
      rcases processFrom_cons returned with ⟨later, trace⟩
      have rest :=
        induction
          (fun captured other member =>
            own captured other (List.mem_cons_of_mem call member))
          later
      rw [trace, rest, own first call List.mem_cons_self,
        List.flatMap_cons]

/--
A process inserts what its calls insert on their own if all calls after the
first are of entries that read nothing.
-/
theorem trace_of_not_readsFrame {calls : List (Call A)}
    {captured : Option (Frame A)}
    (readsNothing : ∀ call ∈ calls.tail, ¬ ReadsFrame A call.gateId)
    (returned : (process dead calls).outcome = .ok captured) :
    (process dead calls).trace =
      calls.flatMap fun call => (ownInsertion call).trace := by
  cases calls with
  | nil => rfl
  | cons call others =>
      rcases processFrom_cons returned with ⟨later, trace⟩
      have own (captured : Option (Frame A)) (other : Call A)
          (member : other ∈ others) :=
        @insertQASMGate_of_not_readsFrame A _ dead other
          (readsNothing other member) captured
      have rest := trace_of_processFrom own later
      rw [process, trace, rest, insertQASMGate_first, List.flatMap_cons]

/-- A process whose frames lie over each other inserts what it should. -/
theorem trace_of_reusesStorage {calls : List (Call A)}
    {captured : Option (Frame A)}
    (returned : (process reusesStorage calls).outcome = .ok captured) :
    (process reusesStorage calls).trace =
      calls.flatMap fun call => (ownInsertion call).trace :=
  trace_of_processFrom
    (fun captured call _ => insertQASMGate_of_reusesStorage captured call)
    returned

/-! ## Calls that do not depend on earlier ones -/

/-- An entry that reads the frame inserts something for some frame. -/
theorem exists_frame_inserting {gateId : String}
    (reads : ReadsFrame A gateId) (builder : ℕ) :
    ∃ frame : Frame A, frame.builder = builder ∧
      (ownInsertion ⟨gateId, frame⟩).trace ≠ [] := by
  rcases Option.isSome_iff_exists.mp reads.1 with ⟨entry, found⟩
  rcases gateMap_inserts _ (mem_gateMap found) reads.2 with
    ⟨params, controls, targets, adj, inserts⟩
  refine ⟨⟨builder, params, controls, targets, adj⟩, rfl, ?_⟩
  simp only [ownInsertion, insertInto,
    GatesMap.insertQASMGateIntoQuakeModule, found]
  simpa using inserts

/-- After a call of `id` the table refers to the frame of that call. -/
theorem process_id (frame : Frame A) :
    (process dead [⟨"id", frame⟩]).outcome = .ok (some frame) :=
  rfl

/--
A call inserts what depends on its own arguments, whatever was called
before, exactly when its entry reads nothing it captured.
-/
theorem emitsFromOwnArguments_iff (call : Call A) :
    EmitsFromOwnArguments call ↔ ¬ ReadsFrame A call.gateId := by
  constructor
  · intro own reads
    rcases exists_frame_inserting reads (call.frame.builder + 1) with
      ⟨first, builder, inserts⟩
    have same := own keepsFirst [] _ none (some first) rfl
      (process_id first)
    have later :
        insertQASMGateIntoQuakeModule keepsFirst (some first) call =
          ownInsertion ⟨call.gateId, first⟩ :=
      insertQASMGate_later (process_id first) reads
    rw [insertQASMGate_first, later] at same
    -- The earlier call inserts into another kernel than this one.
    rcases List.exists_mem_of_ne_nil _ inserts with ⟨inserted, member⟩
    have elsewhere := builder_of_mem_insertInto member
    rw [← same] at member
    have here := builder_of_mem_insertInto member
    simp only [builder] at elsewhere
    omega
  · intro readsNothing dead earlier others captured otherwise _ _
    rw [insertQASMGate_of_not_readsFrame readsNothing,
      insertQASMGate_of_not_readsFrame readsNothing]

/-- `x` on one qubit of a kernel. -/
def xOn (id : ℕ) : Call ℚ :=
  ⟨"x", 0, [], [], [.refAlloca id], false⟩

/-- A second `x` acts on the qubit of the first, or stops the program. -/
theorem second_x_depends_on_first :
    (process keepsFirst [xOn 0]).outcome = .ok (some (xOn 0).frame) ∧
      (insertQASMGateIntoQuakeModule keepsFirst (some (xOn 0).frame)
          (xOn 1)).trace =
        [(0, (Gate.create .x false [] [] [.refAlloca 0]).op)] ∧
      (insertQASMGateIntoQuakeModule (fun _ _ => none)
          (some (xOn 0).frame) (xOn 1)).outcome =
        .error .danglingReference ∧
      (insertQASMGateIntoQuakeModule keepsFirst none (xOn 1)).trace =
        [(0, (Gate.create .x false [] [] [.refAlloca 1]).op)] ∧
      ¬ EmitsFromOwnArguments (xOn 1) := by
  refine ⟨rfl, rfl, rfl, rfl, ?_⟩
  intro own
  have same :=
    own keepsFirst [] [xOn 0] none (some (xOn 0).frame) rfl rfl
  have operations :
      [(0, (Gate.create .x false [] [] [.refAlloca 1] : Gate ℚ).op)] =
        [(0, (Gate.create .x false [] [] [.refAlloca 0] : Gate ℚ).op)] :=
    same
  simp [Gate.create, Gate.op, Node.leaf] at operations

end Calls

end MQSSPasses.QASM.CapturedArguments
