import MQSSPasses.QASM.GateMeaning
import MQSSPasses.QASM.GatesMap
import MQSSPasses.Quake.Semantics

/-!
# The gate table implements the library gates

With real angles, the operations that the gate table inserts for a gate of
the OpenQASM library implement the gate up to a global phase.  `Performs`
computes the operator of an insertion step by step, and the decomposed
gates are then identities between products of small matrices: the gates on
one qubit by their entries, those on two by their branches.
-/

noncomputable section

namespace MQSSPasses.QASM.Decompositions

open MQSSPasses.General.TracedComputation
open MQSSPasses.General.OperationTree
open MQSSPasses.General.ControlledElement
open MQSSPasses.General.QubitOperators
open MQSSPasses.General.GateMatrices
open MQSSPasses.General.Branches
open MQSSPasses.Quake.Syntax
open MQSSPasses.Quake.Operations
open MQSSPasses.Quake.Semantics
open MQSSPasses.QASM.Syntax
open MQSSPasses.QASM.GatesMap
open MQSSPasses.QASM.GateMeaning

/-- Real parameters, and constants that are read exactly. -/
instance : FloatArithmetic ℝ where
  pi := Real.pi
  narrow := id

variable {Q : Type} [DecidableEq Q]

/-- Constants denote their own values. -/
def ExactConstants (interp : Interpretation ℝ Q) : Prop :=
  ∀ value, interp.angle (.constant value) = value

/-- A register whose parameters are read exactly. -/
def exactRegister (n : ℕ) : Interpretation ℝ (Fin (n + 1)) :=
  Interpretation.ofRegister n fun
    | .constant value => value
    | _ => 0

theorem exactRegister_exact (n : ℕ) : ExactConstants (exactRegister n) :=
  fun _ => rfl

/-- The insertion returns, and its operations have the given operator. -/
def Performs {Value : Type} (interp : Interpretation ℝ Q)
    (computation : Emit ℝ Value) (value : Value)
    (operator : Operator Q) : Prop :=
  computation.outcome = .ok value ∧
    denote interp computation.trace = operator

/-- The insertion returns, and implements the operator up to a phase. -/
def Implements (interp : Interpretation ℝ Q)
    (computation : Emit ℝ Unit) (operator : Operator Q) : Prop :=
  computation.outcome = .ok () ∧
    EqualUpToPhase (denote interp computation.trace) operator

variable {interp : Interpretation ℝ Q}

/-! ## Inserting step by step -/

section Steps

variable {Value Other : Type} {value : Value} {other : Other}
variable {operator later : Operator Q}

theorem Performs.bind {first : Emit ℝ Value} {next : Value → Emit ℝ Other}
    (early : Performs interp first value operator)
    (late : Performs interp (next value) other later) :
    Performs interp (first >>= next) other (later * operator) := by
  rw [Performs, Traced.bind_of_ok early.1]
  exact ⟨late.1, by rw [denote_append, early.2, late.2]⟩

theorem Performs.constant {next : FloatValue ℝ → Emit ℝ Value} {angle : ℝ}
    (late : Performs interp (next (.constant angle)) value operator) :
    Performs interp (createFloatValue angle >>= next) value operator := by
  have inserts :
      Performs interp (createFloatValue angle) (.constant angle) 1 :=
    ⟨rfl, one_mul 1⟩
  simpa using inserts.bind late

theorem Performs.ofExcept {result : Except Fault Value}
    {next : Value → Emit ℝ Other} (returned : result = .ok value)
    (late : Performs interp (next value) other operator) :
    Performs interp (Traced.ofExcept result >>= next) other operator := by
  have inserts : Performs interp (Traced.ofExcept result) value 1 :=
    ⟨returned, rfl⟩
  simpa using inserts.bind late

theorem Performs.target {targets : List QuantumValue} {index : ℕ}
    {element : QuantumValue} {next : QuantumValue → Emit ℝ Value}
    (found : targets[index]? = some element)
    (late : Performs interp (next element) value operator) :
    Performs interp (target targets index >>= next) value operator := by
  rw [GatesMap.target, found, Traced.pure_bind_eq]
  exact late

/-- Insert a gate without controls. -/
theorem Performs.gate {kind : GateKind}
    {parameters : List (FloatValue ℝ)} {target : QuantumValue}
    {matrix : BitMatrix}
    (standard :
      standardMatrix kind (parameters.map interp.angle) = some matrix) :
    Performs interp (createGate kind false parameters [] [target]) ()
      (on (interp.qubit target) matrix) := by
  refine ⟨rfl, ?_⟩
  rw [createGate, Traced.record_trace, denote_cons, denote_nil, one_mul,
    operator_op, gateOperator_create interp standard]
  simp [withAdjoint]

/-- Insert a gate with one control. -/
theorem Performs.controlledGate {kind : GateKind}
    {parameters : List (FloatValue ℝ)} {control target : QuantumValue}
    {matrix : BitMatrix}
    (standard :
      standardMatrix kind (parameters.map interp.angle) = some matrix) :
    Performs interp (createGate kind false parameters [control] [target])
      ()
      (controlled (on (interp.qubit control) (projector true))
        (on (interp.qubit target) matrix)) := by
  refine ⟨rfl, ?_⟩
  rw [createGate, Traced.record_trace, denote_cons, denote_nil, one_mul,
    operator_op, gateOperator_create interp standard]
  simp [withAdjoint]

theorem Performs.controlledX {control target : QuantumValue} :
    Performs interp (createGate .x false [] [control] [target]) ()
      (controlledX (interp.qubit control) (interp.qubit target)) :=
  Performs.controlledGate rfl

theorem Performs.implements {computation : Emit ℝ Unit}
    (performs : Performs interp computation () operator) (angle : ℝ)
    (equal : operator = phase angle • later) :
    Implements interp computation later :=
  ⟨performs.1, phase angle, norm_phase angle, performs.2.trans equal⟩

end Steps

/-! ## The constants of the table -/

theorem halfPi_eq : (halfPi : ℝ) = Real.pi / 2 := by
  change Real.pi / ((2 : ℤ) : ℝ) = Real.pi / 2
  norm_num

theorem quarterPi_eq : (quarterPi : ℝ) = Real.pi / 4 := by
  change Real.pi / ((4 : ℤ) : ℝ) = Real.pi / 4
  norm_num

theorem minusHalfPi_eq : (-1 * halfPi : ℝ) = -(Real.pi / 2) := by
  rw [neg_one_mul, halfPi_eq]

theorem minusQuarterPi_eq :
    (-1 * quarterPi : ℝ) = -(Real.pi / 4) := by
  rw [neg_one_mul, quarterPi_eq]

section Constants

variable (exact : ExactConstants interp)

include exact

theorem constantMatrix {kind : GateKind} {value angle : ℝ}
    {matrix : BitMatrix} (equal : value = angle)
    (standard : standardMatrix kind [angle] = some matrix) :
    standardMatrix kind
        (([.constant value] : List (FloatValue ℝ)).map interp.angle) =
      some matrix := by
  rw [List.map_singleton, exact value, equal, standard]

theorem constantMatrices {kind : GateKind}
    {first second third theta phi lambda : ℝ} {matrix : BitMatrix}
    (firstEqual : first = theta) (secondEqual : second = phi)
    (thirdEqual : third = lambda)
    (standard : standardMatrix kind [theta, phi, lambda] = some matrix) :
    standardMatrix kind
        (([.constant first, .constant second, .constant third] :
          List (FloatValue ℝ)).map interp.angle) =
      some matrix := by
  simp only [List.map_cons, List.map_nil, exact first, exact second,
    exact third]
  rw [firstEqual, secondEqual, thirdEqual, standard]

end Constants

/-! ## Gates on one qubit -/

section OneQubit

variable (exact : ExactConstants interp) (target : QuantumValue)

include exact

theorem insertU_implements (theta phi lambda : ℝ) :
    Implements interp
      (insertU [.constant theta, .constant phi, .constant lambda] []
        [target] false)
      (on (interp.qubit target) (universal theta phi lambda)) := by
  have performs :
      Performs interp
        (insertU [.constant theta, .constant phi, .constant lambda] []
          [target] false) ()
        (on (interp.qubit target) (rotationZ phi) *
          on (interp.qubit target) (rotationY theta) *
          on (interp.qubit target) (rotationZ lambda)) :=
    .bind (.gate (constantMatrix exact rfl rfl))
      (.bind (.gate (constantMatrix exact rfl rfl))
        (.gate (constantMatrix exact rfl rfl)))
  apply performs.implements (-((phi + lambda) / 2))
  rw [← map_mul, ← map_mul, rotationZ_mul_rotationY_mul_rotationZ, map_smul]

theorem insertU2_implements (phi lambda : ℝ) :
    Implements interp
      (insertU2 [.constant phi, .constant lambda] [] [target] false)
      (on (interp.qubit target) (universal (Real.pi / 2) phi lambda)) := by
  have performs :
      Performs interp
        (insertU2 [.constant phi, .constant lambda] [] [target] false) ()
        (on (interp.qubit target) (rotationZ phi) *
          on (interp.qubit target) (rotationY (Real.pi / 2)) *
          on (interp.qubit target) (rotationZ lambda)) :=
    .constant (.bind (.gate (constantMatrix exact rfl rfl))
      (.bind (.gate (constantMatrix exact halfPi_eq rfl))
        (.gate (constantMatrix exact rfl rfl))))
  apply performs.implements (-((phi + lambda) / 2))
  rw [← map_mul, ← map_mul, rotationZ_mul_rotationY_mul_rotationZ, map_smul]

theorem insertSx_implements :
    Implements interp (insertSx [] [] [target] false)
      (on (interp.qubit target) squareRootX) := by
  have performs :
      Performs interp (insertSx [] [] [target] false) ()
        (on (interp.qubit target) (rotationX (Real.pi / 2))) :=
    .constant (.gate (constantMatrix exact halfPi_eq rfl))
  apply performs.implements (-(Real.pi / 4))
  rw [rotationX_pi_div_two, map_smul]

theorem insertSxdg_implements (isAdj : Bool) :
    Implements interp (insertSxdg [] [] [target] isAdj)
      (on (interp.qubit target) squareRootX.conjTranspose) := by
  have performs :
      Performs interp (insertSxdg [] [] [target] isAdj) ()
        (on (interp.qubit target) (rotationX (-(Real.pi / 2)))) :=
    .constant (.gate (constantMatrix exact minusHalfPi_eq rfl))
  apply performs.implements (Real.pi / 4)
  rw [← rotationX_conjTranspose, rotationX_pi_div_two,
    Matrix.conjTranspose_smul, star_phase, neg_neg, map_smul]

end OneQubit

/-! ## Gates on two qubits -/

theorem insertDcx_implements (first second : QuantumValue) :
    Implements interp (insertDcx [] [] [first, second] false)
      (controlledX (interp.qubit second) (interp.qubit first) *
        controlledX (interp.qubit first) (interp.qubit second)) := by
  have performs :
      Performs interp (insertDcx [] [] [first, second] false) ()
        (controlledX (interp.qubit second) (interp.qubit first) *
          controlledX (interp.qubit first) (interp.qubit second)) :=
    .bind .controlledX .controlledX
  apply performs.implements 0
  rw [phase_zero, one_smul]

/-- Three rotations and two controlled flips make a controlled phase. -/
theorem controlledPhase_eq {control target : Q}
    (distinct : control ≠ target) (angle : ℝ) :
    on target (rotationZ (angle / 2)) * controlledX control target *
          on target (rotationZ (-(angle / 2))) *
          controlledX control target *
        on control (rotationZ (angle / 2)) =
      phase (-(angle / 4)) •
        controlled (on control (projector true))
          (on target (phaseShift angle)) := by
  -- Where the control is clear the turns of the target cancel, and where it
  -- is set they add up.
  have clear :
      rotationZ (angle / 2) * rotationZ (-(angle / 2)) *
          phase (-(angle / 2 / 2)) • 1 =
        phase (-(angle / 4)) • 1 := by
    rw [rotationZ_mul_rotationZ_neg, one_mul]
    congr 2
    ring
  have set :
      rotationZ (angle / 2) *
            (pauliX * rotationZ (-(angle / 2)) * pauliX) *
          phase (angle / 2 / 2) • 1 =
        phase (-(angle / 4)) • phaseShift angle := by
    rw [pauliX_mul_rotationZ_mul_pauliX, neg_neg, rotationZ_mul_rotationZ,
      add_halves, rotationZ_eq_phaseShift, mul_smul_comm, mul_one,
      smul_smul, ← phase_add]
    congr 2
    ring
  calc
    on target (rotationZ (angle / 2)) * controlledX control target *
            on target (rotationZ (-(angle / 2))) *
            controlledX control target *
          on control (rotationZ (angle / 2)) =
        branch control target (rotationZ (angle / 2))
              (rotationZ (angle / 2)) *
            branch control target (rotationZ (-(angle / 2)))
              (pauliX * rotationZ (-(angle / 2)) * pauliX) *
          branch control target (phase (-(angle / 2 / 2)) • 1)
            (phase (angle / 2 / 2) • 1) := by
      rw [branch_self, branch_diagonal,
        ← controlledX_mul_on_mul_controlledX distinct, ← rotationZ]
      simp only [controlledX, mul_assoc]
    _ = phase (-(angle / 4)) •
          controlled (on control (projector true))
            (on target (phaseShift angle)) := by
      rw [branch_mul distinct, branch_mul distinct, clear, set,
        branch_smul, controlled_eq_branch]

/-- A turn of the target between two controlled flips. -/
theorem pairRotation_pauliZ_pauliZ_eq {control target : Q}
    (distinct : control ≠ target) (angle : ℝ) :
    controlledX control target * on target (rotationZ angle) *
        controlledX control target =
      pairRotation angle pauliZ pauliZ control target := by
  rw [controlledX, controlledX_mul_on_mul_controlledX distinct,
    pauliX_mul_rotationZ_mul_pauliX, pairRotation_pauliZ,
    rotationZ_eq_rotation, rotationZ_eq_rotation]

/-- The same with the basis of the target changed. -/
theorem pairRotation_pauliZ_pauliX_eq {control target : Q}
    (distinct : control ≠ target) (angle : ℝ) :
    on target hadamard * controlledX control target *
          on target (rotationZ angle) * controlledX control target *
        on target hadamard =
      pairRotation angle pauliZ pauliX control target := by
  have basis :
      on target hadamard * (on control pauliZ * on target pauliZ) *
          on target hadamard =
        on control pauliZ * on target pauliX := by
    have moved := on_commute distinct pauliZ hadamard
    rw [← mul_assoc, ← moved.eq, mul_assoc, mul_assoc, ← map_mul, ← map_mul,
      ← mul_assoc hadamard, hadamard_mul_pauliZ_mul_hadamard]
  have involution :
      on target hadamard * on target hadamard = 1 := by
    rw [← map_mul, hadamard_mul_self, map_one]
  calc
    on target hadamard * controlledX control target *
            on target (rotationZ angle) * controlledX control target *
          on target hadamard =
        on target hadamard *
            pairRotation angle pauliZ pauliZ control target *
          on target hadamard := by
      rw [← pairRotation_pauliZ_pauliZ_eq distinct]
      simp only [mul_assoc]
    _ = pairRotation angle pauliZ pauliX control target := by
      rw [pairRotation, conjugate_rotation involution, basis, pairRotation]

/-- Turning the first axis of a rotation about `Z` and `X` to `X`. -/
theorem pairRotation_pauliX_pauliX_eq {control target : Q}
    (distinct : control ≠ target) (angle : ℝ) :
    on control (rotationY (-(Real.pi / 2)) * rotationZ (-angle)) *
          pairRotation (-angle) pauliZ pauliX control target *
        on control (rotationZ angle * rotationY (Real.pi / 2)) =
      pairRotation angle pauliX pauliX control target := by
  have inverse :
      on control (rotationY (-(Real.pi / 2)) * rotationZ (-angle)) *
          on control (rotationZ angle * rotationY (Real.pi / 2)) =
        1 := by
    have cancel := rotationZ_mul_rotationZ_neg (-angle)
    rw [neg_neg] at cancel
    rw [← map_mul, mul_assoc, ← mul_assoc (rotationZ (-angle)), cancel,
      one_mul, rotationY_neg_mul_rotationY, map_one]
  have turned :
      rotationY (-(Real.pi / 2)) * rotationZ (-angle) * pauliZ *
          (rotationZ angle * rotationY (Real.pi / 2)) =
        -pauliX := by
    rw [← rotationY_mul_pauliZ_mul_rotationY, mul_assoc, mul_assoc,
      ← mul_assoc pauliZ, ← mul_assoc (rotationZ (-angle)),
      ← mul_assoc (rotationZ (-angle)),
      rotationZ_neg_mul_pauliZ_mul_rotationZ, mul_assoc]
  have axis :
      on control (rotationY (-(Real.pi / 2)) * rotationZ (-angle)) *
            (on control pauliZ * on target pauliX) *
          on control (rotationZ angle * rotationY (Real.pi / 2)) =
        -(on control pauliX * on target pauliX) := by
    have moved := on_commute distinct
      (rotationZ angle * rotationY (Real.pi / 2)) pauliX
    rw [← mul_assoc, mul_assoc, ← moved.eq, ← mul_assoc, ← map_mul,
      ← map_mul, turned, ← neg_one_smul ℂ pauliX, map_smul,
      smul_mul_assoc]
    exact neg_one_smul ℂ (on control pauliX * on target pauliX)
  rw [pairRotation, conjugate_rotation inverse, axis, rotation_neg, neg_neg,
    pairRotation]

section TwoQubits

variable (exact : ExactConstants interp) {first second : QuantumValue}
variable (distinct : interp.qubit first ≠ interp.qubit second)

include exact distinct

theorem insertCp_implements (angle : ℝ) :
    Implements interp
      (insertCp [.constant angle] [first] [second] false)
      (controlled (on (interp.qubit first) (projector true))
        (on (interp.qubit second) (phaseShift angle))) := by
  have half : angle / ((2 : ℤ) : ℝ) = angle / 2 := by
    norm_num
  have minusHalf : -1 * angle / ((2 : ℤ) : ℝ) = -(angle / 2) := by
    norm_num
    ring
  have performs :
      Performs interp
        (insertCp [.constant angle] [first] [second] false) ()
        (on (interp.qubit second) (rotationZ (angle / 2)) *
          controlledX (interp.qubit first) (interp.qubit second) *
          on (interp.qubit second) (rotationZ (-(angle / 2))) *
          controlledX (interp.qubit first) (interp.qubit second) *
          on (interp.qubit first) (rotationZ (angle / 2))) :=
    .ofExcept rfl (.constant (.constant
      (.bind (.gate (constantMatrix exact half rfl))
        (.bind .controlledX
          (.bind (.gate (constantMatrix exact minusHalf rfl))
            (.bind .controlledX
              (.gate (constantMatrix exact half rfl))))))))
  exact performs.implements _ (controlledPhase_eq distinct angle)

theorem insertRzz_implements (angle : ℝ) :
    Implements interp
      (insertRzz [.constant angle] [] [first, second] false)
      (pairRotation angle pauliZ pauliZ (interp.qubit first)
        (interp.qubit second)) := by
  have performs :
      Performs interp
        (insertRzz [.constant angle] [] [first, second] false) ()
        (controlledX (interp.qubit first) (interp.qubit second) *
          on (interp.qubit second) (phaseShift angle) *
          controlledX (interp.qubit first) (interp.qubit second)) :=
    .bind .controlledX
      (.bind (.gate (constantMatrix exact rfl rfl)) .controlledX)
  apply performs.implements (angle / 2)
  rw [phaseShift_eq_rotationZ, map_smul, mul_smul_comm, smul_mul_assoc,
    pairRotation_pauliZ_pauliZ_eq distinct]

theorem createRzx_performs {value angle : ℝ} (equal : value = angle) :
    Performs interp (createRzx false [.constant value] [] first second) ()
      (pairRotation angle pauliZ pauliX (interp.qubit first)
        (interp.qubit second)) := by
  rw [← pairRotation_pauliZ_pauliX_eq distinct]
  exact .bind (.gate rfl)
    (.bind .controlledX
      (.bind (.gate (constantMatrix exact equal rfl))
        (.bind .controlledX (.gate rfl))))

theorem insertRzx_implements (angle : ℝ) :
    Implements interp
      (insertRzx [.constant angle] [] [first, second] false)
      (pairRotation angle pauliZ pauliX (interp.qubit first)
        (interp.qubit second)) := by
  apply (createRzx_performs exact distinct rfl).implements 0
  rw [phase_zero, one_smul]

theorem insertRxx_implements (angle : ℝ) :
    Implements interp
      (insertRxx [.constant angle] [] [first, second] false)
      (pairRotation angle pauliX pauliX (interp.qubit first)
        (interp.qubit second)) := by
  have zero : ((0 : ℤ) : ℝ) = 0 := Int.cast_zero
  have performs :
      Performs interp
        (insertRxx [.constant angle] [] [first, second] false) ()
        (on (interp.qubit second) hadamard *
          on (interp.qubit first) (rotationZ (-Real.pi)) *
          on (interp.qubit first) (rotationY (Real.pi / 2)) *
          on (interp.qubit first) (rotationZ (Real.pi - angle)) *
          controlledX (interp.qubit first) (interp.qubit second) *
          on (interp.qubit second) (phaseShift (-angle)) *
          controlledX (interp.qubit first) (interp.qubit second) *
          on (interp.qubit second) hadamard *
          on (interp.qubit first) (universal (Real.pi / 2) angle 0)) :=
    .constant (.constant (.constant (.constant
      (.ofExcept rfl (.constant (.constant
        (.bind (.gate (constantMatrices exact halfPi_eq rfl zero rfl))
          (.bind (.gate rfl)
            (.bind .controlledX
              (.bind (.gate
                  (constantMatrix exact (neg_one_mul angle) rfl))
                (.bind .controlledX
                  (.bind (.gate (constantMatrix exact rfl rfl))
                    (.bind (.gate (constantMatrix exact halfPi_eq rfl))
                      (.bind (.gate (constantMatrix exact
                          (neg_one_mul Real.pi) rfl))
                        (.gate rfl)))))))))))))))
  -- The gates on the first qubit turn its axis from `Z` to `X`.
  have moved :=
    on_commute distinct
      (rotationY (-(Real.pi / 2)) * rotationZ (-angle)) hadamard
  apply performs.implements 0
  calc
    on (interp.qubit second) hadamard *
            on (interp.qubit first) (rotationZ (-Real.pi)) *
            on (interp.qubit first) (rotationY (Real.pi / 2)) *
            on (interp.qubit first) (rotationZ (Real.pi - angle)) *
            controlledX (interp.qubit first) (interp.qubit second) *
            on (interp.qubit second) (phaseShift (-angle)) *
            controlledX (interp.qubit first) (interp.qubit second) *
            on (interp.qubit second) hadamard *
          on (interp.qubit first) (universal (Real.pi / 2) angle 0) =
        on (interp.qubit second) hadamard *
            on (interp.qubit first)
              (rotationZ (-Real.pi) * rotationY (Real.pi / 2) *
                rotationZ (Real.pi - angle)) *
            controlledX (interp.qubit first) (interp.qubit second) *
            on (interp.qubit second) (phaseShift (-angle)) *
            controlledX (interp.qubit first) (interp.qubit second) *
            on (interp.qubit second) hadamard *
          on (interp.qubit first) (universal (Real.pi / 2) angle 0) := by
      simp only [map_mul, mul_assoc]
    _ = phase (angle / 2) • phase (-angle / 2) •
          (on (interp.qubit first)
              (rotationY (-(Real.pi / 2)) * rotationZ (-angle)) *
            (on (interp.qubit second) hadamard *
              controlledX (interp.qubit first) (interp.qubit second) *
              on (interp.qubit second) (rotationZ (-angle)) *
              controlledX (interp.qubit first) (interp.qubit second) *
              on (interp.qubit second) hadamard) *
            on (interp.qubit first)
              (rotationZ angle * rotationY (Real.pi / 2))) := by
      rw [rotationZ_mul_rotationY_mul_rotationZ_sub, universal_zero,
        ← moved.eq, phaseShift_eq_rotationZ, map_smul, map_smul]
      simp only [mul_assoc, mul_smul_comm, smul_mul_assoc]
    _ = phase 0 •
          pairRotation angle pauliX pauliX (interp.qubit first)
            (interp.qubit second) := by
      rw [pairRotation_pauliZ_pauliX_eq distinct,
        pairRotation_pauliX_pauliX_eq distinct, smul_smul, neg_div,
        phase_mul_phase_neg, phase_zero]

theorem insertEcr_implements :
    Implements interp (insertEcr [] [] [first, second] false)
      (pairRotation (-(Real.pi / 4)) pauliZ pauliX (interp.qubit first)
          (interp.qubit second) *
        on (interp.qubit first) pauliX *
        pairRotation (Real.pi / 4) pauliZ pauliX (interp.qubit first)
          (interp.qubit second)) := by
  have performs :
      Performs interp (insertEcr [] [] [first, second] false) ()
        (pairRotation (-(Real.pi / 4)) pauliZ pauliX (interp.qubit first)
            (interp.qubit second) *
          on (interp.qubit first) (rotationX Real.pi) *
          pairRotation (Real.pi / 4) pauliZ pauliX (interp.qubit first)
            (interp.qubit second)) :=
    .constant (.constant (.constant
      (.bind (createRzx_performs exact distinct quarterPi_eq)
        (.bind (.gate (constantMatrix exact rfl rfl))
          (createRzx_performs exact distinct minusQuarterPi_eq)))))
  apply performs.implements (-(Real.pi / 2))
  rw [rotationX_pi, map_smul, mul_smul_comm, smul_mul_assoc]

end TwoQubits

/-! ## The relative-phase Toffoli gate -/

theorem insertRccx_implements (exact : ExactConstants interp)
    (first second third : QuantumValue) :
    Implements interp (insertRccx [] [] [first, second, third] false)
      (relativePhaseToffoli (interp.qubit first) (interp.qubit second)
        (interp.qubit third)) := by
  have zero : ((0 : ℤ) : ℝ) = 0 := Int.cast_zero
  have performs :
      Performs interp (insertRccx [] [] [first, second, third] false) ()
        (on (interp.qubit third) (rotationZ 0) *
          on (interp.qubit third) (rotationY (Real.pi / 2)) *
          on (interp.qubit third) (rotationZ Real.pi) *
          on (interp.qubit third) (phaseShift (-(Real.pi / 4))) *
          controlledX (interp.qubit second) (interp.qubit third) *
          on (interp.qubit third) (phaseShift (Real.pi / 4)) *
          controlledX (interp.qubit first) (interp.qubit third) *
          on (interp.qubit third) (phaseShift (-(Real.pi / 4))) *
          controlledX (interp.qubit second) (interp.qubit third) *
          on (interp.qubit third) (phaseShift (Real.pi / 4)) *
          on (interp.qubit third) (rotationZ 0) *
          on (interp.qubit third) (rotationY (Real.pi / 2)) *
          on (interp.qubit third) (rotationZ Real.pi)) :=
    .constant (.constant (.constant (.constant (.constant
      (.target rfl
        (.bind (.gate (constantMatrix exact rfl rfl))
        (.bind (.gate (constantMatrix exact halfPi_eq rfl))
        (.bind (.gate (constantMatrix exact zero rfl))
        (.bind (.gate (constantMatrix exact quarterPi_eq rfl))
        (.target rfl
        (.bind .controlledX
        (.bind (.gate (constantMatrix exact minusQuarterPi_eq rfl))
        (.target rfl
        (.bind .controlledX
        (.bind (.gate (constantMatrix exact quarterPi_eq rfl))
        (.bind .controlledX
        (.bind (.gate (constantMatrix exact minusQuarterPi_eq rfl))
        (.bind (.gate (constantMatrix exact rfl rfl))
        (.bind (.gate (constantMatrix exact halfPi_eq rfl))
          (.gate (constantMatrix exact zero rfl)))))))))))))))))))))
  -- The three rotations at either end are the gate `u2(0, pi)`.
  have ends :
      on (interp.qubit third) (rotationZ 0) *
            on (interp.qubit third) (rotationY (Real.pi / 2)) *
          on (interp.qubit third) (rotationZ Real.pi) =
        phase (-(Real.pi / 2)) •
          on (interp.qubit third) (universal (Real.pi / 2) 0 Real.pi) := by
    rw [← map_mul, ← map_mul, rotationZ_mul_rotationY_mul_rotationZ,
      zero_add, map_smul]
  apply performs.implements (-(Real.pi / 2) + -(Real.pi / 2))
  rw [ends, mul_assoc _ (on (interp.qubit third) (rotationZ 0)),
    mul_assoc _ _ (on (interp.qubit third) (rotationZ Real.pi)), ends,
    relativePhaseToffoli, phase_add, ← smul_smul]
  simp only [smul_mul_assoc, mul_smul_comm]

/-! ## The table -/

/-- An insertion that implements a gate on every placement of its qubits. -/
def ImplementsGate (interp : Interpretation ℝ Q) (gate : StandardGate Q)
    (adj : Bool) (builder : GateBuilder ℝ) : Prop :=
  ∀ (angles : Fin gate.numAngles → ℝ)
    (controls : Fin gate.numControls → QuantumValue)
    (targets : Fin gate.numTargets → QuantumValue),
    ((List.ofFn controls ++ List.ofFn targets).map interp.qubit).Nodup →
      Implements interp
        (builder (List.ofFn fun i => .constant (angles i))
          (List.ofFn controls) (List.ofFn targets) adj)
        (gate.operator angles (fun i => interp.qubit (controls i))
          fun i => interp.qubit (targets i))

section Table

variable {gate : StandardGate Q} {adj : Bool} {builder : GateBuilder ℝ}

theorem ImplementsGate.of_lookup
    (implements : ImplementsGate interp gate adj builder)
    (found : gateMap.lookup gate.name = some builder) :
    ImplementsGate interp gate adj
      (insertQASMGateIntoQuakeModule gate.name) := by
  intro angles controls targets distinct
  unfold insertQASMGateIntoQuakeModule
  rw [found]
  exact implements angles controls targets distinct

/-- A gate on one qubit without controls. -/
theorem ImplementsGate.of_matrix {name : String} {numAngles : ℕ}
    {matrix : (Fin numAngles → ℝ) → BitMatrix}
    (implements :
      ∀ (angles : Fin numAngles → ℝ) (target : QuantumValue),
        Implements interp
          (builder (List.ofFn fun i => .constant (angles i)) [] [target]
            adj)
          (on (interp.qubit target) (matrix angles))) :
    ImplementsGate interp (matrixGate name numAngles 0 matrix) adj
      builder := by
  intro (angles : Fin numAngles → ℝ) (controls : Fin 0 → QuantumValue)
    (targets : Fin 1 → QuantumValue) _
  change Implements interp _
    (whenSet (fun i => interp.qubit (controls i))
      (on (interp.qubit (targets 0)) (matrix angles)))
  rw [whenSet_zero]
  exact implements angles (targets 0)

/-- A gate on one qubit with one control. -/
theorem ImplementsGate.of_controlledMatrix {name : String} {numAngles : ℕ}
    {matrix : (Fin numAngles → ℝ) → BitMatrix}
    (implements :
      ∀ (angles : Fin numAngles → ℝ) (control target : QuantumValue),
        interp.qubit control ≠ interp.qubit target →
          Implements interp
            (builder (List.ofFn fun i => .constant (angles i)) [control]
              [target] adj)
            (controlled (on (interp.qubit control) (projector true))
              (on (interp.qubit target) (matrix angles)))) :
    ImplementsGate interp (matrixGate name numAngles 1 matrix) adj
      builder := by
  intro (angles : Fin numAngles → ℝ) (controls : Fin 1 → QuantumValue)
    (targets : Fin 1 → QuantumValue) distinct
  change Implements interp _
    (whenSet (fun i => interp.qubit (controls i))
      (on (interp.qubit (targets 0)) (matrix angles)))
  change [interp.qubit (controls 0), interp.qubit (targets 0)].Nodup
    at distinct
  rw [whenSet_one]
  exact implements angles (controls 0) (targets 0) (by simpa using distinct)

/-- A rotation of two qubits. -/
theorem ImplementsGate.of_rotation {name : String}
    {left right : BitMatrix}
    (implements :
      ∀ (angle : ℝ) (first second : QuantumValue),
        interp.qubit first ≠ interp.qubit second →
          Implements interp
            (builder [.constant angle] [] [first, second] adj)
            (pairRotation angle left right (interp.qubit first)
              (interp.qubit second))) :
    ImplementsGate interp (rotationGate name left right) adj builder := by
  intro (angles : Fin 1 → ℝ) (controls : Fin 0 → QuantumValue)
    (targets : Fin 2 → QuantumValue) distinct
  change [interp.qubit (targets 0), interp.qubit (targets 1)].Nodup
    at distinct
  exact implements (angles 0) (targets 0) (targets 1)
    (by simpa using distinct)

theorem dcxGate_implemented :
    ImplementsGate interp dcxGate false insertDcx := by
  intro (angles : Fin 0 → ℝ) (controls : Fin 0 → QuantumValue)
    (targets : Fin 2 → QuantumValue) _
  exact insertDcx_implements (targets 0) (targets 1)

variable (exact : ExactConstants interp)

include exact

theorem ecrGate_implemented :
    ImplementsGate interp ecrGate false insertEcr := by
  intro (angles : Fin 0 → ℝ) (controls : Fin 0 → QuantumValue)
    (targets : Fin 2 → QuantumValue) distinct
  change [interp.qubit (targets 0), interp.qubit (targets 1)].Nodup
    at distinct
  have apart : interp.qubit (targets 0) ≠ interp.qubit (targets 1) := by
    simpa using distinct
  exact insertEcr_implements exact apart

theorem rccxGate_implemented :
    ImplementsGate interp rccxGate false insertRccx := by
  intro (angles : Fin 0 → ℝ) (controls : Fin 0 → QuantumValue)
    (targets : Fin 3 → QuantumValue) _
  exact insertRccx_implements exact (targets 0) (targets 1) (targets 2)

/-- `p` and `phase` are inserted as a rotation, which differs by a phase. -/
theorem phaseGate_implemented (name message : String) :
    ImplementsGate interp
      (matrixGate name 1 0 fun angles => phaseShift (angles 0)) false
      (oneOperation .rz 1 0 1 message) := by
  refine .of_matrix fun angles target => ?_
  have performs :
      Performs interp
        (oneOperation .rz 1 0 1 message [.constant (angles 0)] [] [target]
          false) ()
        (on (interp.qubit target) (rotationZ (angles 0))) :=
    .gate (constantMatrix exact rfl rfl)
  apply performs.implements (-(angles 0 / 2))
  rw [rotationZ_eq_phaseShift, map_smul]

theorem decomposedGates_implemented :
    ∀ gate ∈ (decomposedGates : List (StandardGate Q)),
      ImplementsGate interp gate false
        (insertQASMGateIntoQuakeModule gate.name) := by
  simp only [decomposedGates, List.forall_mem_cons, List.not_mem_nil,
    false_implies, implies_true, and_true]
  have universalGate (name : String) :
      ImplementsGate interp
        (matrixGate name 3 0 fun angles =>
          universal (angles 0) (angles 1) (angles 2)) false insertU :=
    .of_matrix fun _ target => insertU_implements exact target _ _ _
  have controlledPhase (name : String) :
      ImplementsGate interp
        (matrixGate name 1 1 fun angles => phaseShift (angles 0)) false
        insertCp :=
    .of_controlledMatrix fun _ _ _ distinct =>
      insertCp_implements exact distinct _
  exact ⟨(universalGate "U").of_lookup rfl,
    (universalGate "u").of_lookup rfl,
    (ImplementsGate.of_matrix fun _ target =>
      insertU2_implements exact target _ _).of_lookup rfl,
    (ImplementsGate.of_matrix fun _ target =>
      insertSx_implements exact target).of_lookup rfl,
    (ImplementsGate.of_matrix fun _ target =>
      insertSxdg_implements exact target false).of_lookup rfl,
    (phaseGate_implemented exact "p" _).of_lookup rfl,
    (phaseGate_implemented exact "phase" _).of_lookup rfl,
    (controlledPhase "cp").of_lookup rfl,
    (controlledPhase "cphase").of_lookup rfl,
    (rccxGate_implemented exact).of_lookup rfl,
    (ImplementsGate.of_rotation fun angle _ _ distinct =>
      insertRxx_implements exact distinct angle).of_lookup rfl,
    (ImplementsGate.of_rotation fun angle _ _ distinct =>
      insertRzz_implements exact distinct angle).of_lookup rfl,
    (ImplementsGate.of_rotation fun angle _ _ distinct =>
      insertRzx_implements exact distinct angle).of_lookup rfl,
    dcxGate_implemented.of_lookup rfl,
    (ecrGate_implemented exact).of_lookup rfl⟩

/--
Every gate that the table decomposes is implemented, up to a global phase,
for all angles and on every placement of its qubits in a register.
-/
theorem insertQASMGate_implements {gate : StandardGate Q}
    (decomposed : gate ∈ decomposedGates)
    (angles : Fin gate.numAngles → ℝ)
    (controls : Fin gate.numControls → QuantumValue)
    (targets : Fin gate.numTargets → QuantumValue)
    (distinct :
      ((List.ofFn controls ++ List.ofFn targets).map interp.qubit).Nodup) :
    (insertQASMGateIntoQuakeModule gate.name
        (List.ofFn fun i => .constant (angles i)) (List.ofFn controls)
        (List.ofFn targets) false).outcome = .ok () ∧
      EqualUpToPhase
        (denote interp
          (insertQASMGateIntoQuakeModule gate.name
            (List.ofFn fun i => .constant (angles i)) (List.ofFn controls)
            (List.ofFn targets) false).trace)
        (gate.operator angles (fun i => interp.qubit (controls i))
          fun i => interp.qubit (targets i)) :=
  decomposedGates_implemented exact gate decomposed angles controls targets
    distinct

omit exact

/-- The `rxx` gate on the outer two of three qubits. -/
theorem rxx_implements_outer :
    EqualUpToPhase
      (denote (exactRegister 2)
        (insertQASMGateIntoQuakeModule "rxx" [.constant (Real.pi / 3)] []
          [.extractRef (.veqAlloca 0 3) (.constant 2),
            .extractRef (.veqAlloca 0 3) (.constant 0)] false).trace)
      (pairRotation (Real.pi / 3) pauliX pauliX (2 : Fin 3) 0) := by
  have rxx :
      rotationGate "rxx" pauliX pauliX ∈
        (decomposedGates : List (StandardGate (Fin 3))) := by
    simp [decomposedGates]
  have implements :=
    insertQASMGate_implements (exactRegister_exact 2) rxx
      (fun _ : Fin 1 => Real.pi / 3) (fun i : Fin 0 => i.elim0)
      (fun i : Fin 2 =>
        match i with
        | 0 => .extractRef (.veqAlloca 0 3) (.constant 2)
        | 1 => .extractRef (.veqAlloca 0 3) (.constant 0))
      (by decide)
  exact implements.2

end Table

end MQSSPasses.QASM.Decompositions

end
