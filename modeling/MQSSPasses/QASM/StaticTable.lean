import MQSSPasses.QASM.CapturedArguments
import MQSSPasses.QASM.Programs

/-!
# Programs through the static table

The calls of a program go through the one table of the process, so what a
later call inserts depends on what a read of the frame of the first call
gives.  The conversion of a program is repeated here with that table.  It
inserts what the calls insert on their own if every frame lies over the
first one, or if no call after the first is of an entry that reads.
-/

namespace MQSSPasses.QASM.StaticTable

open MQSSPasses.General.TracedComputation
open MQSSPasses.General.OperationTree
open MQSSPasses.Quake.Syntax
open MQSSPasses.Quake.Operations
open MQSSPasses.QASM.Syntax
open MQSSPasses.QASM.GatesMap
open MQSSPasses.QASM.QASMToQuake
open MQSSPasses.QASM.CapturedArguments
open MQSSPasses.QASM.Decompositions
open MQSSPasses.QASM.Programs

variable {A Value Other : Type}

/-! ## Inserting into one kernel -/

theorem insertInto_bind (builder : ℕ) (first : Emit A Value)
    (next : Value → Emit A Other) :
    insertInto builder (first >>= next) =
      insertInto builder first >>= fun value =>
        insertInto builder (next value) := by
  cases returned : first.outcome with
  | error fault =>
      have failed :
          (insertInto builder first).outcome = .error (.fault fault) := by
        rw [insertInto, returned]
        rfl
      rw [Traced.bind_of_error returned, Traced.bind_of_error failed]
      rfl
  | ok value =>
      have kept : (insertInto builder first).outcome = .ok value := by
        rw [insertInto, returned]
        rfl
      rw [Traced.bind_of_ok returned, Traced.bind_of_ok kept]
      simp [insertInto]

/-- Forget what a computation returns. -/
def discard {Fault Event : Type} (computation : Traced Fault Event Value) :
    Traced Fault Event Unit :=
  computation >>= fun _ => pure ()

theorem discard_bind {Fault Event : Type} (first : Traced Fault Event Value)
    (next : Value → Traced Fault Event Other) :
    discard (first >>= next) = first >>= fun value => discard (next value) :=
  Traced.bind_assoc_eq _ _ _

/-! ## Gate calls and programs -/

section Programs

variable [FloatArithmetic A]

/-- The frame of the call of the table for a gate call. -/
def frameOf (builder : ℕ) (gateCall : GateCall A)
    (parameters : List (FloatValue A))
    (operands : List QuantumValue × List QuantumValue) : Frame A :=
  ⟨builder, parameters, operands.1, operands.2,
    regexSearch gateCall.identifier "dg"⟩

/--
Insert a gate call through the table; what is returned is the frame the
table refers to from then on.
-/
def insertGate (dead : DeadRead A) (builder : ℕ)
    (captured : Option (Frame A)) (gateCall : GateCall A)
    (vectors : QASMVectorToQuakeVector) :
    Insertion A (Option (Frame A)) := do
  let parameters ← insertInto builder (insertArguments gateCall.arguments)
  let operands ←
    insertInto builder (insertControlsAndTargets gateCall vectors)
  let frame := frameOf builder gateCall parameters operands
  CapturedArguments.insertQASMGateIntoQuakeModule dead captured
    ⟨gateCall.identifier, frame⟩
  return some (captured.getD frame)

/-- Insert the gates of a program through the table. -/
def insertGates (dead : DeadRead A) (builder : ℕ)
    (vectors : QASMVectorToQuakeVector) (captured : Option (Frame A)) :
    Program A → Insertion A (Option (Frame A))
  | [] => return captured
  | .gateCall gateCall :: rest => do
      let captured ← insertGate dead builder captured gateCall vectors
      insertGates dead builder vectors captured rest
  | _ :: rest => insertGates dead builder vectors captured rest

/-- A call of the table that inserts what it inserts on its own. -/
def InsertsOwn (dead : DeadRead A) (captured : Option (Frame A))
    (gateId : String) : Prop :=
  ∀ frame : Frame A,
    CapturedArguments.insertQASMGateIntoQuakeModule dead captured
        ⟨gateId, frame⟩ =
      ownInsertion ⟨gateId, frame⟩

/-- The gate calls of a program. -/
def callsOf (program : Program A) : List (GateCall A) :=
  program.filterMap fun
    | .gateCall gateCall => some gateCall
    | _ => none

variable {dead : DeadRead A} {builder : ℕ}
variable {vectors : QASMVectorToQuakeVector}

/-- A gate call through the table that inserts what it inserts on its own. -/
theorem insertGate_own {captured : Option (Frame A)}
    {gateCall : GateCall A}
    (own : InsertsOwn dead captured gateCall.identifier)
    (next : Option (Frame A) → Insertion A Value)
    {result : Insertion A Value}
    (same : ∀ frame, next (some frame) = result) :
    insertGate dead builder captured gateCall vectors >>= next =
      insertInto builder (QASMToQuake.insertGate gateCall vectors) >>=
        fun _ => result := by
  rw [insertGate, QASMToQuake.insertGate, insertInto_bind,
    Traced.bind_assoc_eq, Traced.bind_assoc_eq]
  congr 1
  funext parameters
  rw [insertInto_bind, Traced.bind_assoc_eq, Traced.bind_assoc_eq]
  congr 1
  funext operands
  dsimp only
  rw [own, Traced.bind_assoc_eq]
  simp only [Traced.pure_bind_eq, same]
  rfl

/-- The gates of a program without the places of its statements. -/
def ownGates (vectors : QASMVectorToQuakeVector) (place : ℕ)
    (program : Program A) : Emit A Unit :=
  (QASMToQuake.insertGates vectors place program).mapTrace
    Emission.operation

theorem ownGates_gateCall {gateCall : GateCall A} {rest : Program A}
    {place : ℕ} :
    ownGates vectors place (.gateCall gateCall :: rest) =
      QASMToQuake.insertGate gateCall vectors >>= fun _ =>
        ownGates vectors (place + 1) rest := by
  have same (emission : Emit A Unit) :
      (emission.mapTrace (Emission.mk (some place))).mapTrace
        Emission.operation = emission := by
    simp [Traced.mapTrace, Function.comp_def]
  rw [ownGates, QASMToQuake.insertGates, Traced.bind_mapTrace, same]
  rfl

/-- Programs all whose calls insert what they insert on their own. -/
theorem insertGates_own {program : Program A} {place : ℕ}
    (own :
      ∀ gateCall ∈ callsOf program, ∀ captured,
        InsertsOwn dead captured gateCall.identifier)
    (captured : Option (Frame A)) :
    discard (insertGates dead builder vectors captured program) =
      insertInto builder (ownGates vectors place program) := by
  induction program generalizing captured place with
  | nil => rfl
  | cons statement rest induction =>
      cases statement with
      | gateCall gateCall =>
          have here := own gateCall List.mem_cons_self captured
          rw [insertGates, discard_bind, ownGates_gateCall,
            insertInto_bind]
          exact insertGate_own here _ fun frame =>
            induction (fun other member =>
              own other (List.mem_cons_of_mem gateCall member)) (some frame)
      | _ => exact induction own captured

/-- Where the frames lie over each other the table does no harm. -/
theorem insertGates_of_reusesStorage (program : Program A) (place : ℕ) :
    discard (insertGates reusesStorage builder vectors none program) =
      insertInto builder (ownGates vectors place program) := by
  refine insertGates_own ?_ none
  intro gateCall _ captured frame
  exact insertQASMGate_of_reusesStorage captured _

/-- The first call always reads its own frame. -/
theorem insertGates_of_not_readsFrame {program : Program A}
    (readsNothing :
      ∀ gateCall ∈ (callsOf program).tail,
        ¬ ReadsFrame A gateCall.identifier)
    (place : ℕ) :
    discard (insertGates dead builder vectors none program) =
      insertInto builder (ownGates vectors place program) := by
  induction program generalizing place with
  | nil => rfl
  | cons statement rest induction =>
      cases statement with
      | gateCall gateCall =>
          have here : InsertsOwn dead none gateCall.identifier :=
            fun frame => insertQASMGate_first _
          rw [insertGates, discard_bind, ownGates_gateCall,
            insertInto_bind]
          refine insertGate_own here _ fun frame => ?_
          refine insertGates_own ?_ (some frame)
          intro other member captured otherFrame
          exact insertQASMGate_of_not_readsFrame
            (readsNothing other member) captured
      | _ => exact induction readsNothing (place + 1)

/-- Every read of a frame that is gone stops the program. -/
def stopsAlways : DeadRead A := fun _ _ => none

/-- A call that returns although such reads stop has read nothing. -/
theorem not_readsFrame_of_returns {first : Frame A}
    {gateCall : GateCall A} {after : Option (Frame A)}
    (returned :
      (insertGate stopsAlways builder (some first) gateCall
        vectors).outcome = .ok after) :
    ¬ ReadsFrame A gateCall.identifier ∧ ∃ frame, after = some frame := by
  rcases Traced.bind_ok_iff.mp returned with ⟨parameters, -, rest, -⟩
  rcases Traced.bind_ok_iff.mp rest with ⟨operands, -, rest, -⟩
  rcases Traced.bind_ok_iff.mp rest with ⟨_, called, kept, -⟩
  cases kept
  refine ⟨?_, _, rfl⟩
  intro reads
  rw [insertQASMGate_of_readsFrame reads] at called
  cases called

theorem not_readsFrame_of_insertGates {program : Program A}
    {first : Frame A} {after : Option (Frame A)}
    (returned :
      (insertGates stopsAlways builder vectors (some first)
        program).outcome = .ok after) :
    ∀ gateCall ∈ callsOf program, ¬ ReadsFrame A gateCall.identifier := by
  induction program generalizing first with
  | nil => simp [callsOf]
  | cons statement rest induction =>
      cases statement with
      | gateCall gateCall =>
          rcases Traced.bind_ok_iff.mp returned with
            ⟨captured, called, later, -⟩
          rcases not_readsFrame_of_returns called with
            ⟨readsNothing, frame, rfl⟩
          intro other member
          rcases List.mem_cons.mp member with rfl | inside
          · exact readsNothing
          · exact induction later other inside
      | _ => exact induction returned

/-- The same for a program whose first call finds no frame. -/
theorem tail_not_readsFrame {program : Program A}
    {after : Option (Frame A)}
    (returned :
      (insertGates stopsAlways builder vectors none program).outcome =
        .ok after) :
    ∀ gateCall ∈ (callsOf program).tail,
      ¬ ReadsFrame A gateCall.identifier := by
  induction program with
  | nil => simp [callsOf]
  | cons statement rest induction =>
      cases statement with
      | gateCall gateCall =>
          rcases Traced.bind_ok_iff.mp returned with
            ⟨captured, called, later, -⟩
          rcases Traced.bind_ok_iff.mp called with ⟨parameters, -, called, -⟩
          rcases Traced.bind_ok_iff.mp called with ⟨operands, -, called, -⟩
          rcases Traced.bind_ok_iff.mp called with ⟨_, -, kept, -⟩
          cases kept
          exact not_readsFrame_of_insertGates later
      | _ => exact induction returned

/--
The gates of an accepted program go through the table unharmed if the
frames of the calls lie over each other.  Whatever a read of the first frame
gives, they do so exactly if no call after the first is of an entry that
reads.
-/
theorem insertGates_through_table {program : Program A} {place : ℕ}
    (accepted : (ownGates vectors place program).outcome = .ok ()) :
    discard (insertGates reusesStorage builder vectors none program) =
        insertInto builder (ownGates vectors place program) ∧
      ((∀ dead : DeadRead A,
          discard (insertGates dead builder vectors none program) =
            insertInto builder (ownGates vectors place program)) ↔
        ∀ gateCall ∈ (callsOf program).tail,
          ¬ ReadsFrame A gateCall.identifier) := by
  refine ⟨insertGates_of_reusesStorage program place, ?_, ?_⟩
  · intro unharmed
    have same := congrArg Traced.outcome (unharmed stopsAlways)
    have returned :
        (insertInto builder (ownGates vectors place program)).outcome =
          .ok () := by
      rw [insertInto, accepted]
      rfl
    rw [returned] at same
    rcases Traced.bind_ok_iff.mp same with ⟨after, inserted, -, -⟩
    exact tail_not_readsFrame inserted
  · intro readsNothing dead
    exact insertGates_of_not_readsFrame readsNothing place

/-- Two calls of entries that read: only one layout of the frames helps. -/
theorem bellPair_through_table :
    discard (insertGates reusesStorage 0 (allocated 0 [("q", 2)]) none
        bellPair) =
        insertInto 0 (ownGates (allocated 0 [("q", 2)]) 0 bellPair) ∧
      ((∀ dead : DeadRead ℝ,
          discard (insertGates dead 0 (allocated 0 [("q", 2)]) none
              bellPair) =
            insertInto 0 (ownGates (allocated 0 [("q", 2)]) 0 bellPair)) ↔
        ∀ gateCall ∈ (callsOf bellPair).tail,
          ¬ ReadsFrame ℝ gateCall.identifier) :=
  insertGates_through_table rfl

end Programs

end MQSSPasses.QASM.StaticTable
