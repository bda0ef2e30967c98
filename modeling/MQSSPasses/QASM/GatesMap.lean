import MQSSPasses.QASM.Syntax

/-!
# The table of OpenQASM gates

`insertQASMGateIntoQuakeModule` looks a gate up by name and emits the Quake
operations that stand for it.  Most gates have one operation and differ in
its kind, in the numbers of parameters, controls and targets they check,
and in the message of the check.  The others are sequences of operations,
with angles computed from the parameters.

Emission is the traced computation whose events are the operations.
-/

namespace MQSSPasses.QASM.GatesMap

open MQSSPasses.General.TracedComputation
open MQSSPasses.General.OperationTree
open MQSSPasses.Quake.Syntax
open MQSSPasses.Quake.Operations
open MQSSPasses.QASM.Syntax

variable {A : Type} [FloatArithmetic A]

/-- A computation that inserts operations into a kernel. -/
abbrev Emit (A Value : Type) : Type := Traced Fault (Op A) Value

/-- `assert(false && message)`. -/
def assertFailure {Value : Type} (message : String) : Emit A Value :=
  Traced.raise (.assertion message)

/-- `builder.create` for a gate operation. -/
def createGate (kind : GateKind) (isAdj : Bool)
    (parameters : List (FloatValue A))
    (controls targets : List QuantumValue) : Emit A Unit :=
  Traced.record (Gate.create kind isAdj parameters controls targets).op

/-- Insert a constant and return its value. -/
def createFloatValue (value : A) : Emit A (FloatValue A) := do
  Traced.record (.leaf (.constant (.constant value)))
  return .constant value

/-- `PI_2`. -/
def halfPi : A := FloatArithmetic.pi / ((2 : ℤ) : A)

/-- `PI_4`. -/
def quarterPi : A := FloatArithmetic.pi / ((4 : ℤ) : A)

/-- What an entry of the table does with the operands of a call. -/
abbrev GateBuilder (A : Type) : Type :=
  List (FloatValue A) → List QuantumValue → List QuantumValue → Bool →
    Emit A Unit

/-- An element of the range of targets. -/
def target (targets : List QuantumValue) (index : ℕ) :
    Emit A QuantumValue :=
  match targets[index]? with
  | some value => return value
  | none => Traced.raise .outOfRange

/-! ## Gates with one operation -/

/-- Check the numbers of operands and insert one operation. -/
def oneOperation (kind : GateKind) (nParams nControls nTargets : ℕ)
    (message : String) : GateBuilder A :=
  fun params controls targets adj =>
    if params.length = nParams ∧ controls.length = nControls ∧
        targets.length = nTargets then
      createGate kind adj params controls targets
    else assertFailure message

/-- The same with the adjoint flag set. -/
def oneAdjoint (kind : GateKind) (message : String) : GateBuilder A :=
  fun params controls targets _ =>
    oneOperation kind 0 0 1 message params controls targets true

/-- A gate the table lists but does not support. -/
def unsupported (message : String) : GateBuilder A :=
  fun _ _ _ _ => assertFailure message

/-! ## Gates that are decomposed -/

/-- `U` and `u`: a rotation about `z`, one about `y`, one about `z`. -/
def insertU : GateBuilder A := fun params controls targets adj =>
  match params, controls, targets with
  | [theta, phi, lambda], [], [_] => do
      createGate .rz adj [lambda] controls targets
      createGate .ry adj [theta] controls targets
      createGate .rz adj [phi] controls targets
  | _, _, _ => assertFailure "ill-formed U gate"

/-- `u2`. -/
def insertU2 : GateBuilder A := fun params controls targets adj =>
  match params, controls, targets with
  | [phi, lambda], [], [_] => do
      let theta ← createFloatValue halfPi
      createGate .rz adj [lambda] controls targets
      createGate .ry adj [theta] controls targets
      createGate .rz adj [phi] controls targets
  | _, _, _ => assertFailure "ill-formed u2 gate"

/-- `sx`. -/
def insertSx : GateBuilder A := fun params controls targets adj =>
  match params, controls, targets with
  | [], [], [_] => do
      let angle ← createFloatValue halfPi
      createGate .rx adj [angle] controls targets
  | _, _, _ => assertFailure "ill-formed sx gate"

/-- `sxdg`. -/
def insertSxdg : GateBuilder A := fun params controls targets _ =>
  match params, controls, targets with
  | [], [], [_] => do
      let angle ← createFloatValue (-1 * halfPi)
      createGate .rx false [angle] controls targets
  | _, _, _ => assertFailure "ill-formed sxdg gate"

/-- `cp` and `cphase`. -/
def insertCp : GateBuilder A := fun params controls targets adj =>
  match params, controls, targets with
  | [angle], [_], [_] => do
      let angleValue ← Traced.ofExcept
        (extractDoubleArgumentValue FloatArithmetic.narrow angle)
      let halfValue ← createFloatValue (angleValue / ((2 : ℤ) : A))
      let minusHalfValue ←
        createFloatValue (-1 * angleValue / ((2 : ℤ) : A))
      createGate .rz adj [halfValue] [] controls
      createGate .x adj [] controls targets
      createGate .rz adj [minusHalfValue] [] targets
      createGate .x adj [] controls targets
      createGate .rz adj [halfValue] [] targets
  | _, _, _ => assertFailure "ill-formed crx gate"

/-- `rccx`, which does not check its operands. -/
def insertRccx : GateBuilder A := fun params controls targets adj => do
  let zeroValue ← createFloatValue ((0 : ℤ) : A)
  let Pi ← createFloatValue (FloatArithmetic.pi : A)
  let halfPi ← createFloatValue (halfPi : A)
  let qPi ← createFloatValue (quarterPi : A)
  let minusQPi ← createFloatValue (-1 * (quarterPi : A))
  let third ← target targets 2
  createGate .rz adj [Pi] controls [third]
  createGate .ry adj [halfPi] controls [third]
  createGate .rz adj [zeroValue] controls [third]
  createGate .r1 adj [qPi] controls [third]
  let second ← target targets 1
  createGate .x adj params [second] [third]
  createGate .r1 adj [minusQPi] controls [third]
  let first ← target targets 0
  createGate .x adj params [first] [third]
  createGate .r1 adj [qPi] controls [third]
  createGate .x adj params [second] [third]
  createGate .r1 adj [minusQPi] controls [third]
  createGate .rz adj [Pi] controls [third]
  createGate .ry adj [halfPi] controls [third]
  createGate .rz adj [zeroValue] controls [third]

/-- `rxx`. -/
def insertRxx : GateBuilder A := fun params controls targets adj =>
  match params, controls, targets with
  | [angle], [], [first, second] => do
      let zeroValue ← createFloatValue ((0 : ℤ) : A)
      let halfPi ← createFloatValue (halfPi : A)
      let _pi ← createFloatValue (FloatArithmetic.pi : A)
      let minusPi ← createFloatValue (-1 * (FloatArithmetic.pi : A))
      let angleValue ← Traced.ofExcept
        (extractDoubleArgumentValue FloatArithmetic.narrow angle)
      let minusAngle ← createFloatValue (-1 * angleValue)
      let piMinusAngle ← createFloatValue (FloatArithmetic.pi - angleValue)
      createGate .u3 adj [halfPi, angle, zeroValue] controls [first]
      createGate .h adj [] controls [second]
      createGate .x adj [] [first] [second]
      createGate .r1 adj [minusAngle] controls [second]
      createGate .x adj [] [first] [second]
      createGate .rz adj [piMinusAngle] controls [first]
      createGate .ry adj [halfPi] controls [first]
      createGate .rz adj [minusPi] controls [first]
      createGate .h adj [] controls [second]
  | _, _, _ => assertFailure "ill-formed rxx gate"

/-- `rzz`. -/
def insertRzz : GateBuilder A := fun params controls targets adj =>
  match params, controls, targets with
  | [_], [], [first, second] => do
      createGate .x adj [] [first] [second]
      createGate .r1 adj params controls [second]
      createGate .x adj [] [first] [second]
  | _, _, _ => assertFailure "ill-formed rzz gate"

/-- The five operations of a rotation about `z` and `x`. -/
def createRzx (adj : Bool) (params : List (FloatValue A))
    (controls : List QuantumValue) (first second : QuantumValue) :
    Emit A Unit := do
  createGate .h adj [] controls [second]
  createGate .x adj [] [first] [second]
  createGate .rz adj params controls [second]
  createGate .x adj [] [first] [second]
  createGate .h adj [] controls [second]

/-- `rzx`. -/
def insertRzx : GateBuilder A := fun params controls targets adj =>
  match params, controls, targets with
  | [_], [], [first, second] =>
      createRzx adj params controls first second
  | _, _, _ => assertFailure "ill-formed rzx gate"

/-- `dcx`. -/
def insertDcx : GateBuilder A := fun params controls targets adj =>
  match params, controls, targets with
  | [], [], [first, second] => do
      createGate .x adj [] [first] [second]
      createGate .x adj [] [second] [first]
  | _, _, _ => assertFailure "ill-formed dcx gate"

/-- `ecr`. -/
def insertEcr : GateBuilder A := fun params controls targets adj =>
  match params, controls, targets with
  | [], [], [first, second] => do
      let qPi ← createFloatValue (quarterPi : A)
      let minusQPi ← createFloatValue (-1 * (quarterPi : A))
      let Pi ← createFloatValue (FloatArithmetic.pi : A)
      createRzx adj [qPi] controls first second
      createGate .rx adj [Pi] controls [first]
      createRzx adj [minusQPi] controls first second
  | _, _, _ => assertFailure "ill-formed ecr gate"

/-! ## The table -/

/-- The table; of two entries with one name the first counts. -/
def gateMap : List (String × GateBuilder A) :=
  [("gphase", unsupported "Global phase operation is not supported!"),
    ("xx_minus_yy",
      unsupported "xx_minus_yy phase operation is not supported!"),
    ("xx_plus_yy",
      unsupported "xx_plus_yy phase operation is not supported!"),
    ("U", insertU),
    ("x", oneOperation .x 0 0 1 "ill-formed x gate"),
    ("y", oneOperation .y 0 0 1 "ill-formed y gate"),
    ("z", oneOperation .z 0 0 1 "ill-formed z gate"),
    ("h", oneOperation .h 0 0 1 "ill-formed h gate"),
    ("ch", oneOperation .h 0 1 1 "ill-formed ch gate"),
    ("s", oneOperation .s 0 0 1 "ill-formed s gate"),
    ("sdg", oneAdjoint .s "ill-formed s gate"),
    ("sx", insertSx),
    ("sxdg", insertSxdg),
    ("t", oneOperation .t 0 0 1 "ill-formed t gate"),
    ("tdg", oneAdjoint .t "ill-formed t gate"),
    ("teleport", unsupported "Teleport operation is not supported!"),
    ("rx", oneOperation .rx 1 0 1 "ill-formed rx gate"),
    ("rz", oneOperation .rz 1 0 1 "ill-formed rx gate"),
    ("crx", oneOperation .rx 1 1 1 "ill-formed crx gate"),
    ("ry", oneOperation .ry 1 0 1 "ill-formed ry gate"),
    ("cry", oneOperation .ry 1 1 1 "ill-formed cry gate"),
    ("p", oneOperation .rz 1 0 1 "ill-formed p gate"),
    ("phase", oneOperation .rz 1 0 1 "ill-formed phase gate"),
    ("cp", insertCp),
    ("cphase", insertCp),
    ("z", oneOperation .rz 0 0 1 "ill-formed z gate"),
    ("id", fun _ _ _ _ => return ()),
    ("cx", oneOperation .x 0 1 1 "ill-formed cx gate"),
    ("CX", oneOperation .x 0 1 1 "ill-formed CX gate"),
    ("ccx", oneOperation .x 0 2 1 "ill-formed ccx gate"),
    ("cy", oneOperation .y 0 1 1 "ill-formed cy gate"),
    ("cz", oneOperation .z 0 1 1 "ill-formed cz gate"),
    ("swap", oneOperation .swap 0 0 2 "ill-formed swap gate"),
    ("u", insertU),
    ("u1", oneOperation .r1 1 0 1 "ill-formed u1 gate"),
    ("cu1", oneOperation .r1 1 1 1 "ill-formed u1 gate"),
    ("u2", insertU2),
    ("rccx", insertRccx),
    ("u3", oneOperation .u3 3 0 1 "ill-formed u3 gate"),
    ("cu3", oneOperation .u3 3 1 1 "ill-formed u3 gate"),
    ("iswap", unsupported "iswap is not supported yet!"),
    ("iswapdg", unsupported "iswapdg is not supported yet!"),
    ("rxx", insertRxx),
    ("ryy", unsupported "ryy is not supported yet!"),
    ("rzz", insertRzz),
    ("rzx", insertRzx),
    ("dcx", insertDcx),
    ("ecr", insertEcr),
    ("cswap", oneOperation .swap 0 1 2 "ill-formed cswap gate")]

theorem mem_gateMap {gateId : String} {entry : GateBuilder A}
    (found : gateMap.lookup gateId = some entry) :
    (gateId, entry) ∈ (gateMap : List (String × GateBuilder A)) := by
  rcases List.lookup_eq_some_iff.mp found with ⟨early, late, table, -⟩
  rw [table]
  simp

/-- Insert the operations of the gate with the given name. -/
def insertQASMGateIntoQuakeModule (gateId : String) : GateBuilder A :=
  fun vecParams vecControls vecTargets adj =>
    match gateMap.lookup gateId with
    | some builder => builder vecParams vecControls vecTargets adj
    | none => assertFailure ("Unknown gate: " ++ gateId ++ "\n")

end MQSSPasses.QASM.GatesMap
