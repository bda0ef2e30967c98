import MQSSPasses.General.ControlledElement

/-!
# Operators on a register of qubits

A register is any type `Q` of qubits.  A basis state assigns a bit to every
qubit, a state assigns an amplitude to every basis state, and an operator
is a linear endomorphism of the states.  For `Q = Fin n` these are the
`2 ^ n × 2 ^ n` matrices.

A `2 × 2` matrix acts on one qubit through the algebra homomorphism
`on qubit`.  The operators on different qubits commute, so everything a
circuit does with a set of qubits lives in the subalgebra generated by the
matrices on these qubits, and subalgebras over disjoint sets commute.
Controlled gates and swaps are elements of these subalgebras.
-/

noncomputable section

namespace MQSSPasses.General.QubitOperators

open MQSSPasses.General.ControlledElement

/-- Amplitudes of the basis states of a register. -/
abbrev State (Q : Type) : Type := (Q → Bool) → ℂ

/-- Linear operators on the states of a register. -/
abbrev Operator (Q : Type) : Type := Module.End ℂ (State Q)

/-- A matrix acting on one bit. -/
abbrev BitMatrix : Type := Matrix Bool Bool ℂ

variable {Q : Type}

-- Named, so that the terms of all modules mention one and the same proof.
instance stateSMulComm : SMulCommClass ℂ ℂ (State Q) := inferInstance

instance stateScalarTower : IsScalarTower ℂ ℂ (State Q) := inferInstance

/-- Operators over the complex numbers have no additive two-torsion. -/
theorem eq_zero_of_add_self {operator : Operator Q}
    (doubled : operator + operator = 0) : operator = 0 := by
  have scaled : (2 : ℂ) • operator = 0 := by
    rw [two_smul]
    exact doubled
  calc
    operator = ((1 / 2 : ℂ) * 2) • operator := by
      norm_num
    _ = (1 / 2 : ℂ) • (2 : ℂ) • operator := by
      rw [mul_smul]
    _ = 0 := by
      rw [scaled, smul_zero]

/-! ## Operators on one qubit -/

section OneQubit

variable [DecidableEq Q]

/-- The amplitudes after a matrix has acted on one qubit. -/
def applyOn (qubit : Q) (matrix : BitMatrix) (state : State Q) :
    State Q :=
  fun bits =>
    ∑ bit : Bool,
      matrix (bits qubit) bit *
        state (Function.update bits qubit bit)

theorem applyOn_apply (qubit : Q) (matrix : BitMatrix)
    (state : State Q) (bits : Q → Bool) :
    applyOn qubit matrix state bits =
      matrix (bits qubit) true *
          state (Function.update bits qubit true) +
        matrix (bits qubit) false *
          state (Function.update bits qubit false) := by
  simp [applyOn]

/-- A matrix acting on one qubit of the register. -/
def on (qubit : Q) : BitMatrix →ₐ[ℂ] Operator Q where
  toFun matrix :=
    { toFun := applyOn qubit matrix
      map_add' := by
        intro left right
        funext bits
        simp only [applyOn_apply, Pi.add_apply]
        ring
      map_smul' := by
        intro scalar state
        funext bits
        simp only [applyOn_apply, Pi.smul_apply, smul_eq_mul,
          RingHom.id_apply]
        ring }
  map_one' := by
    refine LinearMap.ext fun state => funext fun bits => ?_
    have restored := Function.update_eq_self qubit bits
    cases value : bits qubit <;>
      · rw [value] at restored
        simp [applyOn_apply, Matrix.one_apply, value, restored]
  map_mul' := by
    intro left right
    refine LinearMap.ext fun state => funext fun bits => ?_
    simp only [LinearMap.coe_mk, AddHom.coe_mk, Module.End.mul_apply,
      applyOn_apply, Matrix.mul_apply, Fintype.sum_bool,
      Function.update_self, Function.update_idem]
    ring
  map_zero' := by
    refine LinearMap.ext fun state => funext fun bits => ?_
    simp [applyOn_apply]
  map_add' := by
    intro left right
    refine LinearMap.ext fun state => funext fun bits => ?_
    simp only [LinearMap.coe_mk, AddHom.coe_mk, LinearMap.add_apply,
      Pi.add_apply, applyOn_apply, Matrix.add_apply]
    ring
  commutes' := by
    intro scalar
    refine LinearMap.ext fun state => funext fun bits => ?_
    have restored := Function.update_eq_self qubit bits
    cases value : bits qubit <;>
      · rw [value] at restored
        simp [applyOn_apply, Matrix.algebraMap_matrix_apply, value,
          restored]

theorem on_apply (qubit : Q) (matrix : BitMatrix)
    (state : State Q) (bits : Q → Bool) :
    on qubit matrix state bits =
      matrix (bits qubit) true *
          state (Function.update bits qubit true) +
        matrix (bits qubit) false *
          state (Function.update bits qubit false) :=
  applyOn_apply qubit matrix state bits

/-- A matrix is determined by how it acts on a qubit. -/
theorem on_injective (qubit : Q) :
    Function.Injective (on qubit : BitMatrix → Operator Q) := by
  intro left right equal
  ext row column
  have entry (matrix : BitMatrix) :
      on qubit matrix
          (fun bits => if bits qubit = column then 1 else 0)
          (fun _ => row) = matrix row column := by
    cases column <;> simp [on_apply]
  rw [← entry left, ← entry right, equal]

/-- Matrices on different qubits commute. -/
theorem on_commute {first second : Q} (distinct : first ≠ second)
    (left right : BitMatrix) :
    Commute (on first left) (on second right) := by
  refine LinearMap.ext fun state => funext fun bits => ?_
  simp only [Module.End.mul_apply, on_apply,
    Function.update_of_ne distinct, Function.update_of_ne distinct.symm,
    Function.update_comm distinct]
  ring

end OneQubit

/-! ## Controls and swaps -/

/-- The matrix with the given entries, rows and columns from `false`. -/
def entries (a b c d : ℂ) : BitMatrix
  | false, false => a
  | false, true => b
  | true, false => c
  | true, true => d

/-- The projection of one bit onto a value. -/
def projector : Bool → BitMatrix
  | false => entries 1 0 0 0
  | true => entries 0 0 0 1

theorem projector_mul_self (value : Bool) :
    projector value * projector value = projector value := by
  ext row column
  cases value <;> cases row <;> cases column <;>
    simp [projector, entries, Matrix.mul_apply]

theorem projector_add :
    projector false + projector true = 1 := by
  ext row column
  cases row <;> cases column <;> simp [projector, entries]

section Controls

variable [DecidableEq Q]

/-- The projection onto the states in which every listed qubit has its value. -/
def allOf (controls : List (Q × Bool)) : Operator Q :=
  (controls.map fun control =>
    on control.1 (projector control.2)).prod

@[simp]
theorem allOf_nil : allOf ([] : List (Q × Bool)) = 1 := rfl

@[simp]
theorem allOf_cons (control : Q × Bool) (others : List (Q × Bool)) :
    allOf (control :: others) =
      on control.1 (projector control.2) * allOf others := by
  simp [allOf]

/-- What commutes with the matrices on each listed qubit commutes. -/
theorem commute_allOf {operator : Operator Q}
    {controls : List (Q × Bool)}
    (each :
      ∀ control ∈ controls,
        Commute operator (on control.1 (projector control.2))) :
    Commute operator (allOf controls) := by
  induction controls with
  | nil => exact Commute.one_right operator
  | cons control others induction =>
      rw [allOf_cons]
      exact (each control List.mem_cons_self).mul_right
        (induction fun other member =>
          each other (List.mem_cons_of_mem control member))

theorem allOf_mul_self {controls : List (Q × Bool)}
    (distinct : (controls.map Prod.fst).Nodup) :
    allOf controls * allOf controls = allOf controls := by
  induction controls with
  | nil => simp
  | cons control others induction =>
      simp only [List.map_cons, List.nodup_cons] at distinct
      have apart :
          Commute (on control.1 (projector control.2))
            (allOf others) := by
        apply commute_allOf
        intro other member
        apply on_commute
        intro equal
        exact distinct.1
          (equal ▸ List.mem_map_of_mem member)
      calc
        allOf (control :: others) * allOf (control :: others) =
            (on control.1 (projector control.2) *
                on control.1 (projector control.2)) *
              (allOf others * allOf others) := by
          rw [allOf_cons, mul_assoc, ← mul_assoc (allOf others),
            ← apart.eq, mul_assoc, mul_assoc]
        _ = allOf (control :: others) := by
          rw [← map_mul, projector_mul_self, induction distinct.2,
            allOf_cons]

/-- Exchange two qubits. -/
def swap (first second : Q) : Operator Q :=
  LinearMap.funLeft ℂ ℂ fun bits => bits ∘ Equiv.swap first second

theorem swap_apply (first second : Q) (state : State Q)
    (bits : Q → Bool) :
    swap first second state bits =
      state (bits ∘ Equiv.swap first second) := rfl

theorem swap_mul_self (first second : Q) :
    swap first second * swap first second = 1 := by
  refine LinearMap.ext fun state => funext fun bits => ?_
  rw [Module.End.mul_apply, swap_apply, swap_apply]
  congr 1
  funext qubit
  simp

/-- The swap as a combination of equal matrices on the two qubits. -/
theorem swap_eq {first second : Q} (distinct : first ≠ second) :
    swap first second =
      on first (projector false) * on second (projector false) +
        on first (projector true) * on second (projector true) +
        on first (entries 0 1 0 0) * on second (entries 0 0 1 0) +
        on first (entries 0 0 1 0) * on second (entries 0 1 0 0) := by
  refine LinearMap.ext fun state => funext fun bits => ?_
  have firstRestored := Function.update_eq_self first bits
  have secondRestored := Function.update_eq_self second bits
  cases firstValue : bits first <;> cases secondValue : bits second <;>
    · rw [firstValue] at firstRestored
      rw [secondValue] at secondRestored
      simp [on_apply, swap_apply, Equiv.comp_swap_eq_update, projector,
        entries, firstValue, secondValue, firstRestored, secondRestored,
        Function.update_of_ne distinct.symm, Function.update_comm distinct]

end Controls

/-! ## Locality -/

section Locality

variable [DecidableEq Q]

/-- The operators generated by the matrices on a set of qubits. -/
def localAlgebra (wires : Set Q) : Subalgebra ℂ (Operator Q) :=
  Algebra.adjoin ℂ
    {operator | ∃ wire ∈ wires, ∃ matrix, operator = on wire matrix}

theorem on_mem_localAlgebra {wires : Set Q} {wire : Q}
    (member : wire ∈ wires) (matrix : BitMatrix) :
    on wire matrix ∈ localAlgebra wires :=
  Algebra.subset_adjoin ⟨wire, member, matrix, rfl⟩

theorem localAlgebra_mono {smaller larger : Set Q}
    (included : smaller ⊆ larger) :
    localAlgebra smaller ≤ localAlgebra larger := by
  apply Algebra.adjoin_mono
  rintro operator ⟨wire, member, matrix, rfl⟩
  exact ⟨wire, included member, matrix, rfl⟩

/-- A matrix on a qubit outside the set commutes with the local operators. -/
theorem on_commute_local {wires : Set Q} {operator : Operator Q}
    (locality : operator ∈ localAlgebra wires)
    {wire : Q} (outside : wire ∉ wires) (matrix : BitMatrix) :
    Commute (on wire matrix) operator := by
  induction locality using Algebra.adjoin_induction with
  | mem generator generates =>
      rcases generates with ⟨other, member, entry, rfl⟩
      have apart : wire ≠ other := fun equal => outside (equal ▸ member)
      exact on_commute apart _ _
  | algebraMap scalar => exact Algebra.commute_algebraMap_right scalar _
  | add left right _ _ leftCommutes rightCommutes =>
      exact leftCommutes.add_right rightCommutes
  | mul left right _ _ leftCommutes rightCommutes =>
      exact leftCommutes.mul_right rightCommutes

/-- Operators local to disjoint sets of qubits commute. -/
theorem commute_of_disjoint {first second : Set Q}
    (disjoint : Disjoint first second)
    {left right : Operator Q}
    (leftLocal : left ∈ localAlgebra first)
    (rightLocal : right ∈ localAlgebra second) :
    Commute left right := by
  induction leftLocal using Algebra.adjoin_induction with
  | mem generator generates =>
      rcases generates with ⟨wire, member, matrix, rfl⟩
      exact on_commute_local rightLocal
        (disjoint.notMem_of_mem_left member) matrix
  | algebraMap scalar => exact Algebra.commute_algebraMap_left scalar _
  | add left right _ _ leftCommutes rightCommutes =>
      exact leftCommutes.add_left rightCommutes
  | mul left right _ _ leftCommutes rightCommutes =>
      exact leftCommutes.mul_left rightCommutes

theorem allOf_mem_localAlgebra {wires : Set Q}
    {controls : List (Q × Bool)}
    (members : ∀ control ∈ controls, control.1 ∈ wires) :
    allOf controls ∈ localAlgebra wires := by
  induction controls with
  | nil => exact one_mem _
  | cons control others induction =>
      rw [allOf_cons]
      exact mul_mem
        (on_mem_localAlgebra (members control List.mem_cons_self) _)
        (induction fun other member =>
          members other (List.mem_cons_of_mem control member))

theorem controlled_mem_localAlgebra {wires : Set Q}
    {projection operator : Operator Q}
    (projectionLocal : projection ∈ localAlgebra wires)
    (operatorLocal : operator ∈ localAlgebra wires) :
    controlled projection operator ∈ localAlgebra wires :=
  add_mem (one_mem _)
    (mul_mem projectionLocal (sub_mem operatorLocal (one_mem _)))

theorem swap_mem_localAlgebra {wires : Set Q} {first second : Q}
    (distinct : first ≠ second)
    (firstMember : first ∈ wires) (secondMember : second ∈ wires) :
    swap first second ∈ localAlgebra wires := by
  have pair (left right : BitMatrix) :
      on first left * on second right ∈ localAlgebra wires :=
    mul_mem (on_mem_localAlgebra firstMember left)
      (on_mem_localAlgebra secondMember right)
  rw [swap_eq distinct]
  exact add_mem (add_mem (add_mem (pair _ _) (pair _ _)) (pair _ _))
    (pair _ _)

end Locality

/-! ## Equality up to a global phase -/

/-- Two operators differ by one phase factor. -/
def EqualUpToPhase (left right : Operator Q) : Prop :=
  ∃ phase : ℂ, ‖phase‖ = 1 ∧ left = phase • right

namespace EqualUpToPhase

theorem refl (operator : Operator Q) : EqualUpToPhase operator operator :=
  ⟨1, by simp, by simp⟩

theorem symm {left right : Operator Q}
    (equal : EqualUpToPhase left right) : EqualUpToPhase right left := by
  rcases equal with ⟨phase, modulus, rfl⟩
  have nonzero : phase ≠ 0 := by
    intro zero
    simp [zero] at modulus
  refine ⟨phase⁻¹, by simp [modulus], ?_⟩
  rw [smul_smul, inv_mul_cancel₀ nonzero, one_smul]

theorem trans {left middle right : Operator Q}
    (first : EqualUpToPhase left middle)
    (second : EqualUpToPhase middle right) :
    EqualUpToPhase left right := by
  rcases first with ⟨leftPhase, leftModulus, rfl⟩
  rcases second with ⟨rightPhase, rightModulus, rfl⟩
  exact ⟨leftPhase * rightPhase, by simp [leftModulus, rightModulus],
    smul_smul _ _ _⟩

theorem mul {left right leftOther rightOther : Operator Q}
    (first : EqualUpToPhase left right)
    (second : EqualUpToPhase leftOther rightOther) :
    EqualUpToPhase (left * leftOther) (right * rightOther) := by
  rcases first with ⟨leftPhase, leftModulus, rfl⟩
  rcases second with ⟨rightPhase, rightModulus, rfl⟩
  exact ⟨leftPhase * rightPhase, by simp [leftModulus, rightModulus],
    smul_mul_smul_comm _ _ _ _⟩

/-- An invertible operator on the right does not matter. -/
theorem mul_right_iff {left right unit : Operator Q}
    (invertible : IsUnit unit) :
    EqualUpToPhase (left * unit) (right * unit) ↔
      EqualUpToPhase left right := by
  constructor
  · rintro ⟨phase, modulus, equal⟩
    refine ⟨phase, modulus, invertible.mul_right_cancel ?_⟩
    rw [equal, smul_mul_assoc]
  · exact fun equal => equal.mul (.refl unit)

/-- An invertible operator on the left does not matter. -/
theorem mul_left_iff {left right unit : Operator Q}
    (invertible : IsUnit unit) :
    EqualUpToPhase (unit * left) (unit * right) ↔
      EqualUpToPhase left right := by
  constructor
  · rintro ⟨phase, modulus, equal⟩
    refine ⟨phase, modulus, invertible.mul_left_cancel ?_⟩
    rw [equal, mul_smul_comm]
  · exact fun equal => EqualUpToPhase.mul (.refl unit) equal

end EqualUpToPhase

end MQSSPasses.General.QubitOperators

end
