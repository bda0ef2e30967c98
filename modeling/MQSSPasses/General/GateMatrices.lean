import MQSSPasses.General.QubitOperators

/-!
# The matrices of the standard one-qubit gates

Every matrix is written out by its four entries, with the half-angle
convention for rotations.  Products, adjoints and equalities of such
matrices reduce to identities between their entries, which is how the
unitarity of each gate and the conjugation rules between gates are proved.
-/

noncomputable section

namespace MQSSPasses.General.GateMatrices

open MQSSPasses.General.ControlledElement
open MQSSPasses.General.QubitOperators

/-! ## Calculating with entries -/

section Entries

variable (a b c d a' b' c' d' : ℂ)

theorem entries_mul :
    entries a b c d * entries a' b' c' d' =
      entries (a * a' + b * c') (a * b' + b * d')
        (c * a' + d * c') (c * b' + d * d') := by
  ext row column
  cases row <;> cases column <;>
    simp [Matrix.mul_apply, entries, add_comm]

theorem entries_smul (scalar : ℂ) :
    scalar • entries a b c d =
      entries (scalar * a) (scalar * b) (scalar * c) (scalar * d) := by
  ext row column
  cases row <;> cases column <;> simp [entries]

theorem entries_add :
    entries a b c d + entries a' b' c' d' =
      entries (a + a') (b + b') (c + c') (d + d') := by
  ext row column
  cases row <;> cases column <;> simp [entries]

theorem entries_neg :
    -entries a b c d = entries (-a) (-b) (-c) (-d) := by
  ext row column
  cases row <;> cases column <;> simp [entries]

theorem one_eq_entries : (1 : BitMatrix) = entries 1 0 0 1 := by
  ext row column
  cases row <;> cases column <;> simp [entries]

theorem entries_conjTranspose :
    (entries a b c d).conjTranspose =
      entries (star a) (star c) (star b) (star d) := by
  ext row column
  cases row <;> cases column <;>
    simp [entries, Matrix.conjTranspose_apply]

variable {a b c d a' b' c' d'}

theorem entries_congr
    (first : a = a') (second : b = b')
    (third : c = c') (fourth : d = d') :
    entries a b c d = entries a' b' c' d' := by
  rw [first, second, third, fourth]

theorem entries_inj :
    entries a b c d = entries a' b' c' d' ↔
      a = a' ∧ b = b' ∧ c = c' ∧ d = d' := by
  constructor
  · intro equal
    exact ⟨congrFun (congrFun equal false) false,
      congrFun (congrFun equal false) true,
      congrFun (congrFun equal true) false,
      congrFun (congrFun equal true) true⟩
  · rintro ⟨rfl, rfl, rfl, rfl⟩
    rfl

end Entries

/-! ## Phases -/

/-- The point of the unit circle at an angle. -/
def phase (angle : ℝ) : ℂ :=
  Complex.exp (angle * Complex.I)

@[simp]
theorem phase_zero : phase 0 = 1 := by
  simp [phase]

theorem phase_add (left right : ℝ) :
    phase (left + right) = phase left * phase right := by
  rw [phase, phase, phase, ← Complex.exp_add]
  push_cast
  ring_nf

theorem phase_mul_congr {a b c d : ℝ} (equal : a + b = c + d) :
    phase a * phase b = phase c * phase d := by
  rw [← phase_add, ← phase_add, equal]

@[simp]
theorem norm_phase (angle : ℝ) : ‖phase angle‖ = 1 :=
  Complex.norm_exp_ofReal_mul_I angle

@[simp]
theorem star_phase (angle : ℝ) : star (phase angle) = phase (-angle) := by
  rw [phase, phase, Complex.star_def, ← Complex.exp_conj]
  simp

@[simp]
theorem phase_mul_phase_neg (angle : ℝ) :
    phase angle * phase (-angle) = 1 := by
  rw [← phase_add, add_neg_cancel, phase_zero]

@[simp]
theorem phase_neg_mul_phase (angle : ℝ) :
    phase (-angle) * phase angle = 1 := by
  rw [mul_comm, phase_mul_phase_neg]

theorem phase_eq (angle : ℝ) :
    phase angle = Real.cos angle + Real.sin angle * Complex.I := by
  rw [phase, Complex.exp_mul_I, Complex.ofReal_cos, Complex.ofReal_sin]

@[simp]
theorem phase_pi : phase Real.pi = -1 := by
  simp [phase]

theorem phase_pi_div_two : phase (Real.pi / 2) = Complex.I := by
  rw [phase_eq]
  simp

/-! ## The gates -/

-- The numerals that angles are divided by.
instance twoAtLeastTwo : Nat.AtLeastTwo 2 := inferInstance

instance fourAtLeastTwo : Nat.AtLeastTwo 4 := inferInstance

/-- The factor of the Hadamard matrix. -/
def halfRoot : ℂ := ((Real.sqrt 2)⁻¹ : ℝ)

theorem halfRoot_mul_self : halfRoot * halfRoot = 1 / 2 := by
  rw [halfRoot, ← Complex.ofReal_mul, ← mul_inv,
    Real.mul_self_sqrt (by norm_num)]
  norm_num

@[simp]
theorem halfRoot_ne_zero : halfRoot ≠ 0 := by
  intro zero
  have square := halfRoot_mul_self
  rw [zero, mul_zero] at square
  norm_num at square

theorem star_halfRoot : star halfRoot = halfRoot := by
  rw [halfRoot, Complex.star_def, Complex.conj_ofReal]

def pauliX : BitMatrix := entries 0 1 1 0

def pauliY : BitMatrix := entries 0 (-Complex.I) Complex.I 0

def pauliZ : BitMatrix := entries 1 0 0 (-1)

def hadamard : BitMatrix :=
  entries halfRoot halfRoot halfRoot (-halfRoot)

/-- A phase on the second basis state. -/
def phaseShift (angle : ℝ) : BitMatrix :=
  entries 1 0 0 (phase angle)

def rotationX (angle : ℝ) : BitMatrix :=
  entries (Real.cos (angle / 2)) (-Complex.I * Real.sin (angle / 2))
    (-Complex.I * Real.sin (angle / 2)) (Real.cos (angle / 2))

def rotationY (angle : ℝ) : BitMatrix :=
  entries (Real.cos (angle / 2)) (-Real.sin (angle / 2))
    (Real.sin (angle / 2)) (Real.cos (angle / 2))

def rotationZ (angle : ℝ) : BitMatrix :=
  entries (phase (-(angle / 2))) 0 0 (phase (angle / 2))

/-- A rotation about an axis in the equatorial plane. -/
def phasedRotationX (theta phi : ℝ) : BitMatrix :=
  entries (Real.cos (theta / 2))
    (-Complex.I * phase (-phi) * Real.sin (theta / 2))
    (-Complex.I * phase phi * Real.sin (theta / 2))
    (Real.cos (theta / 2))

/-- The general one-qubit gate. -/
def universal (theta phi lambda : ℝ) : BitMatrix :=
  entries (Real.cos (theta / 2)) (-(phase lambda * Real.sin (theta / 2)))
    (phase phi * Real.sin (theta / 2))
    (phase (phi + lambda) * Real.cos (theta / 2))

/-! ## Unitarity -/

/-- A matrix whose adjoint is its inverse. -/
def IsUnitary (matrix : BitMatrix) : Prop :=
  matrix * matrix.conjTranspose = 1 ∧ matrix.conjTranspose * matrix = 1

theorem IsUnitary.conjTranspose {matrix : BitMatrix}
    (unitary : IsUnitary matrix) : IsUnitary matrix.conjTranspose := by
  rw [IsUnitary, Matrix.conjTranspose_conjTranspose]
  exact unitary.symm

theorem isUnitary_of_involution {matrix : BitMatrix}
    (hermitian : matrix.conjTranspose = matrix)
    (involution : matrix * matrix = 1) : IsUnitary matrix := by
  rw [IsUnitary, hermitian]
  exact ⟨involution, involution⟩

@[simp]
theorem pauliX_conjTranspose : pauliX.conjTranspose = pauliX := by
  simp [pauliX, entries_conjTranspose]

@[simp]
theorem pauliY_conjTranspose : pauliY.conjTranspose = pauliY := by
  simp [pauliY, entries_conjTranspose]

@[simp]
theorem pauliZ_conjTranspose : pauliZ.conjTranspose = pauliZ := by
  simp [pauliZ, entries_conjTranspose]

@[simp]
theorem hadamard_conjTranspose : hadamard.conjTranspose = hadamard := by
  simp only [hadamard, entries_conjTranspose, star_neg, star_halfRoot]

theorem pauliX_mul_self : pauliX * pauliX = 1 := by
  simp [pauliX, entries_mul, one_eq_entries]

theorem pauliY_mul_self : pauliY * pauliY = 1 := by
  simp [pauliY, entries_mul, one_eq_entries]

theorem pauliZ_mul_self : pauliZ * pauliZ = 1 := by
  simp [pauliZ, entries_mul, one_eq_entries]

theorem hadamard_mul_self : hadamard * hadamard = 1 := by
  rw [hadamard, entries_mul, one_eq_entries]
  have square := halfRoot_mul_self
  apply entries_congr
  · linear_combination 2 * square
  · ring
  · ring
  · linear_combination 2 * square

theorem pauliX_isUnitary : IsUnitary pauliX :=
  isUnitary_of_involution pauliX_conjTranspose pauliX_mul_self

theorem pauliY_isUnitary : IsUnitary pauliY :=
  isUnitary_of_involution pauliY_conjTranspose pauliY_mul_self

theorem pauliZ_isUnitary : IsUnitary pauliZ :=
  isUnitary_of_involution pauliZ_conjTranspose pauliZ_mul_self

theorem hadamard_isUnitary : IsUnitary hadamard :=
  isUnitary_of_involution hadamard_conjTranspose hadamard_mul_self

/-- The Pythagorean identity, read in the complex numbers. -/
theorem cos_sq_add_sin_sq (angle : ℝ) :
    (Real.cos angle : ℂ) * Real.cos angle +
      Real.sin angle * Real.sin angle = 1 := by
  rw [← Complex.ofReal_mul, ← Complex.ofReal_mul, ← Complex.ofReal_add,
    ← sq, ← sq, Real.cos_sq_add_sin_sq, Complex.ofReal_one]

@[simp]
theorem star_ofReal (value : ℝ) : star (value : ℂ) = value := by
  rw [Complex.star_def, Complex.conj_ofReal]

/--
A matrix with a cosine, a sine and three phases is unitary.  Rotations and
phase gates are all of this shape.
-/
theorem universal_isUnitary (theta phi lambda : ℝ) :
    IsUnitary (universal theta phi lambda) := by
  have pythagoras := cos_sq_add_sin_sq (theta / 2)
  have phiUnit := phase_mul_phase_neg phi
  have lambdaUnit := phase_mul_phase_neg lambda
  have split := phase_add phi lambda
  constructor
  · rw [universal, entries_conjTranspose, entries_mul, one_eq_entries]
    simp only [star_mul', star_neg, star_phase, star_ofReal, split]
    apply entries_congr
    · linear_combination pythagoras +
        (Real.sin (theta / 2) : ℂ) * Real.sin (theta / 2) * lambdaUnit
    · linear_combination
        -(phase (-phi) * Real.sin (theta / 2) * Real.cos (theta / 2)) *
          lambdaUnit
    · linear_combination
        -(phase phi * Real.sin (theta / 2) * Real.cos (theta / 2)) *
          lambdaUnit
    · linear_combination pythagoras +
        ((Real.sin (theta / 2) : ℂ) * Real.sin (theta / 2) +
          phase lambda * phase (-lambda) *
            Real.cos (theta / 2) * Real.cos (theta / 2)) * phiUnit +
        (Real.cos (theta / 2) : ℂ) * Real.cos (theta / 2) * lambdaUnit
  · rw [universal, entries_conjTranspose, entries_mul, one_eq_entries]
    simp only [star_mul', star_neg, star_phase, star_ofReal, split]
    apply entries_congr
    · linear_combination pythagoras +
        (Real.sin (theta / 2) : ℂ) * Real.sin (theta / 2) * phiUnit
    · linear_combination
        (phase lambda * Real.sin (theta / 2) * Real.cos (theta / 2)) *
          phiUnit
    · linear_combination
        (phase (-lambda) * Real.sin (theta / 2) * Real.cos (theta / 2)) *
          phiUnit
    · linear_combination pythagoras +
        ((Real.sin (theta / 2) : ℂ) * Real.sin (theta / 2) +
          phase phi * phase (-phi) *
            Real.cos (theta / 2) * Real.cos (theta / 2)) * lambdaUnit +
        (Real.cos (theta / 2) : ℂ) * Real.cos (theta / 2) * phiUnit

/-- A unitary matrix stays unitary under a global phase. -/
theorem IsUnitary.smul_phase {matrix : BitMatrix}
    (unitary : IsUnitary matrix) (angle : ℝ) :
    IsUnitary (phase angle • matrix) := by
  constructor <;>
    rw [Matrix.conjTranspose_smul, star_phase, smul_mul_smul_comm]
  · rw [phase_mul_phase_neg, one_smul]
    exact unitary.1
  · rw [phase_neg_mul_phase, one_smul]
    exact unitary.2

theorem phaseShift_eq_universal (angle : ℝ) :
    phaseShift angle = universal 0 0 angle := by
  simp [phaseShift, universal]

theorem rotationY_eq_universal (angle : ℝ) :
    rotationY angle = universal angle 0 0 := by
  simp [rotationY, universal]

theorem rotationZ_eq_phaseShift (angle : ℝ) :
    rotationZ angle = phase (-(angle / 2)) • phaseShift angle := by
  rw [rotationZ, phaseShift, entries_smul, ← phase_add]
  apply entries_congr
  · simp
  · simp
  · simp
  · congr 1
    ring

theorem phase_neg_pi_div_two :
    phase (-(Real.pi / 2)) = -Complex.I := by
  rw [← star_phase, phase_pi_div_two]
  simp

theorem phasedRotationX_eq_universal (theta phi : ℝ) :
    phasedRotationX theta phi =
      universal theta (phi - Real.pi / 2) (Real.pi / 2 - phi) := by
  have first : phase (phi - Real.pi / 2) = phase phi * -Complex.I := by
    rw [sub_eq_add_neg, phase_add, phase_neg_pi_div_two]
  have second : phase (Real.pi / 2 - phi) = Complex.I * phase (-phi) := by
    rw [sub_eq_add_neg, phase_add, phase_pi_div_two]
  rw [phasedRotationX, universal, first, second]
  apply entries_congr
  · rfl
  · ring
  · ring
  · simp

theorem rotationX_eq_phasedRotationX (angle : ℝ) :
    rotationX angle = phasedRotationX angle 0 := by
  simp [rotationX, phasedRotationX]

theorem rotationX_conjTranspose (angle : ℝ) :
    (rotationX angle).conjTranspose = rotationX (-angle) := by
  rw [rotationX, rotationX, entries_conjTranspose, neg_div, Real.cos_neg,
    Real.sin_neg, Complex.ofReal_neg, star_mul', star_neg, star_ofReal,
    star_ofReal, Complex.star_def, Complex.conj_I]
  apply entries_congr <;> ring

theorem phaseShift_isUnitary (angle : ℝ) :
    IsUnitary (phaseShift angle) := by
  rw [phaseShift_eq_universal]
  exact universal_isUnitary _ _ _

theorem rotationY_isUnitary (angle : ℝ) :
    IsUnitary (rotationY angle) := by
  rw [rotationY_eq_universal]
  exact universal_isUnitary _ _ _

theorem rotationZ_isUnitary (angle : ℝ) :
    IsUnitary (rotationZ angle) := by
  rw [rotationZ_eq_phaseShift]
  exact (phaseShift_isUnitary angle).smul_phase _

theorem phasedRotationX_isUnitary (theta phi : ℝ) :
    IsUnitary (phasedRotationX theta phi) := by
  rw [phasedRotationX_eq_universal]
  exact universal_isUnitary _ _ _

theorem rotationX_isUnitary (angle : ℝ) :
    IsUnitary (rotationX angle) := by
  rw [rotationX_eq_phasedRotationX]
  exact phasedRotationX_isUnitary _ _

/-! ## Products of rotations -/

/-- The general one-qubit gate as three rotations. -/
theorem rotationZ_mul_rotationY_mul_rotationZ (theta phi lambda : ℝ) :
    rotationZ phi * rotationY theta * rotationZ lambda =
      phase (-((phi + lambda) / 2)) • universal theta phi lambda := by
  have noShift :=
    phase_mul_congr (a := -((phi + lambda) / 2)) (b := 0)
      (c := -(phi / 2)) (d := -(lambda / 2)) (by ring)
  have lambdaShift :=
    phase_mul_congr (a := -((phi + lambda) / 2)) (b := lambda)
      (c := -(phi / 2)) (d := lambda / 2) (by ring)
  have phiShift :=
    phase_mul_congr (a := -((phi + lambda) / 2)) (b := phi)
      (c := phi / 2) (d := -(lambda / 2)) (by ring)
  have bothShift :=
    phase_mul_congr (a := -((phi + lambda) / 2)) (b := phi + lambda)
      (c := phi / 2) (d := lambda / 2) (by ring)
  rw [phase_zero, mul_one] at noShift
  rw [rotationZ, rotationZ, rotationY, universal, entries_mul, entries_mul,
    entries_smul]
  apply entries_congr
  · linear_combination -(Real.cos (theta / 2) : ℂ) * noShift
  · linear_combination (Real.sin (theta / 2) : ℂ) * lambdaShift
  · linear_combination -(Real.sin (theta / 2) : ℂ) * phiShift
  · linear_combination -(Real.cos (theta / 2) : ℂ) * bothShift

theorem rotationZ_mul_rotationZ (left right : ℝ) :
    rotationZ left * rotationZ right = rotationZ (left + right) := by
  have negative :=
    phase_mul_congr (a := -(left / 2)) (b := -(right / 2)) (c := 0)
      (d := -((left + right) / 2)) (by ring)
  have positive :=
    phase_mul_congr (a := left / 2) (b := right / 2) (c := 0)
      (d := (left + right) / 2) (by ring)
  rw [phase_zero, one_mul] at negative positive
  rw [rotationZ, rotationZ, rotationZ, entries_mul]
  apply entries_congr
  · linear_combination negative
  · ring
  · ring
  · linear_combination positive

theorem rotationZ_zero : rotationZ 0 = 1 := by
  simp [rotationZ, one_eq_entries]

theorem rotationZ_mul_rotationZ_neg (angle : ℝ) :
    rotationZ angle * rotationZ (-angle) = 1 := by
  rw [rotationZ_mul_rotationZ, add_neg_cancel, rotationZ_zero]

theorem pauliX_mul_rotationZ_mul_pauliX (angle : ℝ) :
    pauliX * rotationZ angle * pauliX = rotationZ (-angle) := by
  simp [pauliX, rotationZ, entries_mul, neg_div]

theorem phaseShift_eq_rotationZ (angle : ℝ) :
    phaseShift angle = phase (angle / 2) • rotationZ angle := by
  rw [rotationZ_eq_phaseShift, smul_smul, phase_mul_phase_neg, one_smul]

theorem rotationZ_pi :
    rotationZ Real.pi = phase (-(Real.pi / 2)) • pauliZ := by
  rw [rotationZ_eq_phaseShift, phaseShift, phase_pi, pauliZ]

theorem rotationZ_neg_pi :
    rotationZ (-Real.pi) = phase (Real.pi / 2) • pauliZ := by
  have turned : phase (-Real.pi) = -1 := by
    rw [← star_phase, phase_pi, star_neg, star_one]
  rw [rotationZ_eq_phaseShift, phaseShift, turned, pauliZ, neg_div, neg_neg]

theorem pauliZ_mul_rotationY_mul_pauliZ (angle : ℝ) :
    pauliZ * rotationY angle * pauliZ = rotationY (-angle) := by
  rw [pauliZ, rotationY, rotationY, entries_mul, entries_mul, neg_div,
    Real.cos_neg, Real.sin_neg, Complex.ofReal_neg]
  apply entries_congr <;> ring

theorem rotationZ_neg_mul_pauliZ_mul_rotationZ (angle : ℝ) :
    rotationZ (-angle) * pauliZ * rotationZ angle = pauliZ := by
  have unit := phase_mul_phase_neg (angle / 2)
  rw [rotationZ, rotationZ, pauliZ, entries_mul, entries_mul, neg_div,
    neg_neg]
  apply entries_congr
  · linear_combination unit
  · ring
  · ring
  · linear_combination -unit

/-- A half turn about `Z` reverses the turns about `Y`. -/
theorem rotationZ_mul_rotationY_mul_rotationZ_pi (angle : ℝ) :
    rotationZ (-Real.pi) * rotationY angle * rotationZ Real.pi =
      rotationY (-angle) := by
  rw [rotationZ_pi, rotationZ_neg_pi, smul_mul_assoc, smul_mul_smul_comm,
    phase_mul_phase_neg, one_smul, pauliZ_mul_rotationY_mul_pauliZ]

/-- A turn about `Z` after the half turn stays a turn about `Z`. -/
theorem rotationZ_mul_rotationY_mul_rotationZ_sub (theta angle : ℝ) :
    rotationZ (-Real.pi) * rotationY theta * rotationZ (Real.pi - angle) =
      rotationY (-theta) * rotationZ (-angle) := by
  rw [← rotationZ_mul_rotationY_mul_rotationZ_pi, mul_assoc _ _
    (rotationZ (-angle)), rotationZ_mul_rotationZ, sub_eq_add_neg]

/-- The general gate without a last angle has two turns. -/
theorem universal_zero (theta phi : ℝ) :
    universal theta phi 0 =
      phase (phi / 2) • (rotationZ phi * rotationY theta) := by
  have product := rotationZ_mul_rotationY_mul_rotationZ theta phi 0
  rw [rotationZ_zero, mul_one, add_zero] at product
  rw [product, smul_smul, phase_mul_phase_neg, one_smul]

theorem rotationY_neg_mul_rotationY (angle : ℝ) :
    rotationY (-angle) * rotationY angle = 1 := by
  have pythagoras := cos_sq_add_sin_sq (angle / 2)
  rw [rotationY, rotationY, entries_mul, one_eq_entries, neg_div,
    Real.cos_neg, Real.sin_neg, Complex.ofReal_neg]
  apply entries_congr
  · linear_combination pythagoras
  · ring
  · ring
  · linear_combination pythagoras

theorem hadamard_mul_pauliZ_mul_hadamard :
    hadamard * pauliZ * hadamard = pauliX := by
  have square := halfRoot_mul_self
  rw [hadamard, pauliZ, entries_mul, entries_mul, pauliX]
  apply entries_congr
  · ring
  · linear_combination 2 * square
  · linear_combination 2 * square
  · ring

theorem hadamard_mul_pauliX_mul_hadamard :
    hadamard * pauliX * hadamard = pauliZ := by
  calc
    hadamard * pauliX * hadamard =
        hadamard * hadamard * pauliZ * (hadamard * hadamard) := by
      rw [← hadamard_mul_pauliZ_mul_hadamard]
      simp only [mul_assoc]
    _ = pauliZ := by
      rw [hadamard_mul_self, one_mul, mul_one]

/-- A Hadamard gate exchanges the other two Pauli matrices. -/
theorem hadamard_mul_pauliX : hadamard * pauliX = pauliZ * hadamard := by
  rw [← hadamard_mul_pauliX_mul_hadamard, mul_assoc _ hadamard hadamard,
    hadamard_mul_self, mul_one]

theorem hadamard_mul_pauliZ : hadamard * pauliZ = pauliX * hadamard := by
  rw [← hadamard_mul_pauliZ_mul_hadamard, mul_assoc _ hadamard hadamard,
    hadamard_mul_self, mul_one]

theorem pauliZ_eq_one_sub_projector :
    pauliZ = 1 - (projector true + projector true) := by
  rw [sub_eq_add_neg, pauliZ, projector, entries_add, entries_neg,
    one_eq_entries, entries_add]
  apply entries_congr <;> norm_num

theorem rotationX_pi :
    rotationX Real.pi = phase (-(Real.pi / 2)) • pauliX := by
  rw [phase_neg_pi_div_two, rotationX, pauliX, entries_smul]
  apply entries_congr <;> simp

/-- A quarter turn about `Y` takes the axis `Z` to the axis `X`. -/
theorem rotationY_mul_pauliZ_mul_rotationY :
    rotationY (-(Real.pi / 2)) * pauliZ * rotationY (Real.pi / 2) =
      -pauliX := by
  have half : Real.pi / 2 / 2 = Real.pi / 4 := by ring
  have square :
      (Real.cos (Real.pi / 4) : ℂ) * Real.cos (Real.pi / 4) = 1 / 2 := by
    rw [Real.cos_pi_div_four, ← Complex.ofReal_mul]
    rw [div_mul_div_comm, Real.mul_self_sqrt (by norm_num)]
    norm_num
  rw [rotationY, rotationY, pauliZ, pauliX, entries_mul, entries_mul,
    entries_neg, neg_div, half, Real.cos_neg, Real.sin_neg,
    Real.sin_pi_div_four, ← Real.cos_pi_div_four, Complex.ofReal_neg]
  apply entries_congr
  · ring
  · linear_combination -2 * square
  · linear_combination -2 * square
  · ring

/-! ## Anticommutation -/

theorem pauliZ_mul_pauliX : pauliZ * pauliX = -(pauliX * pauliZ) := by
  simp [pauliX, pauliZ, entries_mul, entries_neg]

theorem pauliX_mul_pauliZ : pauliX * pauliZ = -(pauliZ * pauliX) := by
  rw [pauliZ_mul_pauliX, neg_neg]

theorem pauliX_mul_pauliY : pauliX * pauliY = -(pauliY * pauliX) := by
  simp [pauliX, pauliY, entries_mul, entries_neg]

theorem pauliY_mul_hadamard : pauliY * hadamard = -(hadamard * pauliY) := by
  rw [pauliY, hadamard, entries_mul, entries_mul, entries_neg]
  apply entries_congr <;> ring

/-! ## Projections -/

/-- Flipping a qubit exchanges its two projections. -/
theorem pauliX_exchanges :
    pauliX * projector true * pauliX = 1 - projector true := by
  rw [one_eq_entries]
  simp only [pauliX, projector, entries_mul]
  simp [entries, ← Matrix.ext_iff]

/-- A matrix with an entry off the diagonal. -/
theorem not_commute_projector {a b c d : ℂ} (corner : b ≠ 0) :
    ¬ Commute (entries a b c d) (projector true) := by
  intro commutes
  have equal := commutes.eq
  rw [projector, entries_mul, entries_mul, entries_inj] at equal
  simp [corner] at equal

/-! ## Controlled gates -/

section Identities

variable {Q : Type} [DecidableEq Q] {control target : Q}

/-- A controlled gate with one control that must be set. -/
def controlledBy (control target : Q) (matrix : BitMatrix) : Operator Q :=
  controlled (on control (projector true)) (on target matrix)

/-- Conjugating the target of a controlled gate. -/
theorem controlledBy_conj (apart : control ≠ target)
    {conjugator : BitMatrix} (square : conjugator * conjugator = 1)
    (matrix : BitMatrix) :
    on target conjugator * controlledBy control target matrix *
        on target conjugator =
      controlledBy control target (conjugator * matrix * conjugator) := by
  rw [controlledBy, controlled_conj (on_commute apart.symm _ _)
    (by rw [← map_mul, square, map_one]), controlledBy, map_mul, map_mul]

/-- A controlled `Z` does not distinguish its control from its target. -/
theorem controlledBy_pauliZ_symm (apart : control ≠ target) :
    controlledBy control target pauliZ =
      controlledBy target control pauliZ := by
  have reflection (wire : Q) :
      on wire pauliZ =
        1 - (on wire (projector true) + on wire (projector true)) := by
    rw [pauliZ_eq_one_sub_projector, map_sub, map_one, map_add]
  rw [controlledBy, controlledBy, reflection, reflection]
  exact controlled_reflection_symm (on_commute apart _ _)

/-- Only a diagonal matrix does not distinguish the two. -/
theorem commute_projector_of_controlledBy_symm (apart : control ≠ target)
    {matrix : BitMatrix}
    (symmetric :
      controlledBy control target matrix =
        controlledBy target control matrix) :
    Commute matrix (projector true) := by
  have commutes :
      Commute (controlledBy control target matrix)
        (on target (projector true)) := by
    rw [symmetric]
    exact (commute_controlled (Commute.refl _)
      (on_commute apart.symm _ _)).symm
  have exchanges :
      on control pauliX * on control (projector true) *
          on control pauliX =
        1 - on control (projector true) := by
    rw [← map_mul, ← map_mul, pauliX_exchanges, map_sub, map_one]
  have operators :=
    (commute_controlled_iff_operator (on_commute apart _ _) exchanges
      (on_commute apart _ _) (on_commute apart _ _)).mp commutes
  apply on_injective target
  rw [map_mul, map_mul]
  exact operators.eq

theorem hadamard_controlledBy_pauliZ (apart : control ≠ target) :
    on target hadamard * controlledBy target control pauliZ *
        on target hadamard =
      controlledBy control target pauliX := by
  rw [← controlledBy_pauliZ_symm apart,
    controlledBy_conj apart hadamard_mul_self,
    hadamard_mul_pauliZ_mul_hadamard]

theorem hadamard_controlledBy_pauliX (apart : control ≠ target) :
    on target hadamard * controlledBy control target pauliX *
        on target hadamard =
      controlledBy control target pauliZ := by
  rw [controlledBy_conj apart hadamard_mul_self,
    hadamard_mul_pauliX_mul_hadamard]

/-- Hadamard gates on both sides exchange control and target. -/
theorem hadamards_controlledBy_pauliX (apart : control ≠ target) :
    on target hadamard *
        (on control hadamard * controlledBy target control pauliX *
          on control hadamard) *
        on target hadamard =
      controlledBy control target pauliX := by
  rw [hadamard_controlledBy_pauliX apart.symm,
    hadamard_controlledBy_pauliZ apart]

end Identities

end MQSSPasses.General.GateMatrices

end
