import MQSSPasses.General.Branches

/-!
# The meaning of the OpenQASM gates

The gates of `stdgates.inc` and `qelib1.inc` that the gate table supports,
each with the numbers of its angles, of the operands that control it and of
the operands it acts on, and with its operator on a register of qubits.

Gates with a matrix have it written out and rotations about two qubits have
their closed form.  `rccx`, `dcx` and `ecr`, which the library only defines
by a sequence of simpler gates, are that sequence here.
-/

noncomputable section

namespace MQSSPasses.QASM.GateMeaning

open MQSSPasses.General.ControlledElement
open MQSSPasses.General.QubitOperators
open MQSSPasses.General.GateMatrices
open MQSSPasses.General.Branches

/-- A gate of the OpenQASM library. -/
structure StandardGate (Q : Type) where
  name : String
  numAngles : ℕ
  numControls : ℕ
  numTargets : ℕ
  operator :
    (Fin numAngles → ℝ) → (Fin numControls → Q) → (Fin numTargets → Q) →
      Operator Q

variable {Q : Type} [DecidableEq Q]

/-- An operator that acts where all the given qubits are set. -/
def whenSet {n : ℕ} (controls : Fin n → Q) (operator : Operator Q) :
    Operator Q :=
  controlled (allOf (List.ofFn fun i => (controls i, true))) operator

@[simp]
theorem whenSet_zero (controls : Fin 0 → Q) (operator : Operator Q) :
    whenSet controls operator = operator := by
  simp [whenSet]

@[simp]
theorem whenSet_one (controls : Fin 1 → Q) (operator : Operator Q) :
    whenSet controls operator =
      controlled (on (controls 0) (projector true)) operator := by
  simp [whenSet]

/-- A matrix on one qubit with a number of controls. -/
def matrixGate (name : String) (numAngles numControls : ℕ)
    (matrix : (Fin numAngles → ℝ) → BitMatrix) : StandardGate Q where
  name := name
  numAngles := numAngles
  numControls := numControls
  numTargets := 1
  operator angles controls targets :=
    whenSet controls (on (targets 0) (matrix angles))

/-- A rotation about a Pauli matrix on each of two qubits. -/
def rotationGate (name : String) (left right : BitMatrix) :
    StandardGate Q where
  name := name
  numAngles := 1
  numControls := 0
  numTargets := 2
  operator angles _ targets :=
    pairRotation (angles 0) left right (targets 0) (targets 1)

/-- An exchange of two qubits with a number of controls. -/
def swapGate (name : String) (numControls : ℕ) : StandardGate Q where
  name := name
  numAngles := 0
  numControls := numControls
  numTargets := 2
  operator _ controls targets :=
    whenSet controls (swap (targets 0) (targets 1))

/-! ## Gates given by a sequence -/

/-- The square root of `X`. -/
def squareRootX : BitMatrix :=
  entries ((1 + Complex.I) / 2) ((1 - Complex.I) / 2)
    ((1 - Complex.I) / 2) ((1 + Complex.I) / 2)

theorem rotationX_pi_div_two :
    rotationX (Real.pi / 2) = phase (-(Real.pi / 4)) • squareRootX := by
  have half : Real.pi / 2 / 2 = Real.pi / 4 := by ring
  have square := Complex.I_mul_I
  rw [rotationX, squareRootX, entries_smul, phase_eq, half, Real.cos_neg,
    Real.sin_neg, Real.sin_pi_div_four, ← Real.cos_pi_div_four,
    Complex.ofReal_neg]
  apply entries_congr
  · linear_combination (Real.cos (Real.pi / 4) : ℂ) / 2 * square
  · linear_combination -(Real.cos (Real.pi / 4) : ℂ) / 2 * square
  · linear_combination -(Real.cos (Real.pi / 4) : ℂ) / 2 * square
  · linear_combination (Real.cos (Real.pi / 4) : ℂ) / 2 * square

/-- The controlled `X`. -/
def controlledX (control target : Q) : Operator Q :=
  controlled (on control (projector true)) (on target pauliX)

/-- `cx a, b; cx b, a;` -/
def dcxGate : StandardGate Q where
  name := "dcx"
  numAngles := 0
  numControls := 0
  numTargets := 2
  operator _ _ targets :=
    controlledX (targets 1) (targets 0) * controlledX (targets 0) (targets 1)

/-- `rzx(pi/4) a, b; x a; rzx(-pi/4) a, b;` -/
def ecrGate : StandardGate Q where
  name := "ecr"
  numAngles := 0
  numControls := 0
  numTargets := 2
  operator _ _ targets :=
    pairRotation (-(Real.pi / 4)) pauliZ pauliX (targets 0) (targets 1) *
      on (targets 0) pauliX *
      pairRotation (Real.pi / 4) pauliZ pauliX (targets 0) (targets 1)

/--
`u2(0, pi) c; u1(pi/4) c; cx b, c; u1(-pi/4) c; cx a, c; u1(pi/4) c;
cx b, c; u1(-pi/4) c; u2(0, pi) c;`
-/
def relativePhaseToffoli (a b c : Q) : Operator Q :=
  on c (universal (Real.pi / 2) 0 Real.pi) *
    on c (phaseShift (-(Real.pi / 4))) * controlledX b c *
    on c (phaseShift (Real.pi / 4)) * controlledX a c *
    on c (phaseShift (-(Real.pi / 4))) * controlledX b c *
    on c (phaseShift (Real.pi / 4)) *
    on c (universal (Real.pi / 2) 0 Real.pi)

def rccxGate : StandardGate Q where
  name := "rccx"
  numAngles := 0
  numControls := 0
  numTargets := 3
  operator _ _ targets :=
    relativePhaseToffoli (targets 0) (targets 1) (targets 2)

def idGate : StandardGate Q where
  name := "id"
  numAngles := 0
  numControls := 0
  numTargets := 1
  operator _ _ _ := 1

/-! ## Names -/

@[simp]
theorem matrixGate_name (name : String) (numAngles numControls : ℕ)
    (matrix : (Fin numAngles → ℝ) → BitMatrix) :
    (matrixGate name numAngles numControls matrix :
      StandardGate Q).name = name := rfl

@[simp]
theorem rotationGate_name (name : String) (left right : BitMatrix) :
    (rotationGate name left right : StandardGate Q).name = name := rfl

@[simp]
theorem swapGate_name (name : String) (numControls : ℕ) :
    (swapGate name numControls : StandardGate Q).name = name := rfl

@[simp]
theorem dcxGate_name : (dcxGate : StandardGate Q).name = "dcx" := rfl

@[simp]
theorem ecrGate_name : (ecrGate : StandardGate Q).name = "ecr" := rfl

@[simp]
theorem rccxGate_name : (rccxGate : StandardGate Q).name = "rccx" := rfl

omit [DecidableEq Q] in
@[simp]
theorem idGate_name : (idGate : StandardGate Q).name = "id" := rfl

/-! ## The library -/

/-- The gates that are inserted as a sequence or as another gate. -/
def decomposedGates : List (StandardGate Q) :=
  [matrixGate "U" 3 0 fun angles =>
      universal (angles 0) (angles 1) (angles 2),
    matrixGate "u" 3 0 fun angles =>
      universal (angles 0) (angles 1) (angles 2),
    matrixGate "u2" 2 0 fun angles =>
      universal (Real.pi / 2) (angles 0) (angles 1),
    matrixGate "sx" 0 0 fun _ => squareRootX,
    matrixGate "sxdg" 0 0 fun _ => squareRootX.conjTranspose,
    matrixGate "p" 1 0 fun angles => phaseShift (angles 0),
    matrixGate "phase" 1 0 fun angles => phaseShift (angles 0),
    matrixGate "cp" 1 1 fun angles => phaseShift (angles 0),
    matrixGate "cphase" 1 1 fun angles => phaseShift (angles 0),
    rccxGate,
    rotationGate "rxx" pauliX pauliX,
    rotationGate "rzz" pauliZ pauliZ,
    rotationGate "rzx" pauliZ pauliX,
    dcxGate,
    ecrGate]

/-- The gates that are inserted as the one operation of their name. -/
def directGates : List (StandardGate Q) :=
  [matrixGate "x" 0 0 fun _ => pauliX,
    matrixGate "y" 0 0 fun _ => pauliY,
    matrixGate "z" 0 0 fun _ => pauliZ,
    matrixGate "h" 0 0 fun _ => hadamard,
    matrixGate "ch" 0 1 fun _ => hadamard,
    matrixGate "s" 0 0 fun _ => phaseShift (Real.pi / 2),
    matrixGate "sdg" 0 0 fun _ => (phaseShift (Real.pi / 2)).conjTranspose,
    matrixGate "t" 0 0 fun _ => phaseShift (Real.pi / 4),
    matrixGate "tdg" 0 0 fun _ => (phaseShift (Real.pi / 4)).conjTranspose,
    matrixGate "rx" 1 0 fun angles => rotationX (angles 0),
    matrixGate "ry" 1 0 fun angles => rotationY (angles 0),
    matrixGate "rz" 1 0 fun angles => rotationZ (angles 0),
    matrixGate "crx" 1 1 fun angles => rotationX (angles 0),
    matrixGate "cry" 1 1 fun angles => rotationY (angles 0),
    matrixGate "cx" 0 1 fun _ => pauliX,
    matrixGate "CX" 0 1 fun _ => pauliX,
    matrixGate "ccx" 0 2 fun _ => pauliX,
    matrixGate "cy" 0 1 fun _ => pauliY,
    matrixGate "cz" 0 1 fun _ => pauliZ,
    matrixGate "u1" 1 0 fun angles => phaseShift (angles 0),
    matrixGate "cu1" 1 1 fun angles => phaseShift (angles 0),
    matrixGate "u3" 3 0 fun angles =>
      universal (angles 0) (angles 1) (angles 2),
    matrixGate "cu3" 3 1 fun angles =>
      universal (angles 0) (angles 1) (angles 2),
    swapGate "swap" 0,
    swapGate "cswap" 1]

/-- The supported gates of the library. -/
def standardGates : List (StandardGate Q) :=
  decomposedGates ++ directGates ++ [idGate]

end MQSSPasses.QASM.GateMeaning

end
