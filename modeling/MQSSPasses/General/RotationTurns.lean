import MQSSPasses.General.GateMatrices

/-!
# Full turns of rotations

A rotation by a full turn is `-1`, not the identity.  Taking full turns off
an angle therefore changes the sign of a rotation, by the parity of their
number.  Without controls the sign is a global phase.  With controls it is a
reflection, and the file shows when a controlled operator may change its
sign, or the values of its controls, without being changed by more than a
phase.
-/

noncomputable section

namespace MQSSPasses.General.RotationTurns

open MQSSPasses.General.ControlledElement
open MQSSPasses.General.QubitOperators
open MQSSPasses.General.GateMatrices

/-! ## Families of rotations -/

/-- Rotations about one axis, as matrices that depend on the angle. -/
structure IsRotationFamily (rotation : ℝ → BitMatrix) : Prop where
  zero : rotation 0 = 1
  turns :
    ∀ (angle : ℝ) (turns : ℤ),
      rotation (angle - turns * 2 * Real.pi) =
        ((-1 : ℂ) ^ turns) • rotation angle
  scalar :
    ∀ (angle : ℝ) (factor : ℂ),
      rotation angle = factor • (1 : BitMatrix) → Real.sin (angle / 2) = 0

/-- An even number of full turns is the identity. -/
theorem IsRotationFamily.eq_one {rotation : ℝ → BitMatrix}
    (family : IsRotationFamily rotation) {angle : ℝ} {turns : ℤ}
    (even : Even turns) (whole : angle = turns * 2 * Real.pi) :
    rotation angle = 1 := by
  have turned := family.turns angle turns
  rw [even.neg_one_zpow, one_smul, sub_eq_zero.mpr whole, family.zero]
    at turned
  exact turned.symm

/--
A rotation that is a multiple of the identity without its full turns, and
the inverse multiple with them, is an even number of full turns.
-/
theorem IsRotationFamily.turns_of_scalar {rotation : ℝ → BitMatrix}
    (family : IsRotationFamily rotation) {angle : ℝ} {turns : ℤ}
    (lower : 0 ≤ angle - turns * 2 * Real.pi)
    (upper : angle - turns * 2 * Real.pi < 2 * Real.pi) {factor : ℂ}
    (reduced :
      ((-1 : ℂ) ^ turns) • rotation angle = factor • (1 : BitMatrix))
    (inverse : factor • rotation angle = (1 : BitMatrix)) :
    Even turns ∧ angle = turns * 2 * Real.pi := by
  -- A scalar rotation by less than a full turn is the identity.
  rw [← family.turns] at reduced
  have sine := family.scalar _ factor reduced
  rw [Real.sin_eq_zero_iff_of_lt_of_lt
    (by linarith [Real.pi_pos]) (by linarith)] at sine
  have vanishes : angle - turns * 2 * Real.pi = 0 := by linarith
  rw [vanishes, family.zero] at reduced
  have unscaled : factor = 1 := by
    have entry := congrFun (congrFun reduced true) true
    simpa [eq_comm] using entry
  rw [unscaled, one_smul] at inverse
  refine ⟨?_, sub_eq_zero.mp vanishes⟩
  have turned := family.turns angle turns
  rw [vanishes, family.zero, inverse] at turned
  by_contra odd
  rw [Int.not_even_iff_odd] at odd
  rw [odd.neg_one_zpow] at turned
  have entry := congrFun (congrFun turned true) true
  norm_num at entry

theorem half_sub_turns (angle : ℝ) (turns : ℤ) :
    (angle - turns * 2 * Real.pi) / 2 = angle / 2 - turns * Real.pi := by
  ring

theorem phase_add_turns (angle : ℝ) (turns : ℤ) :
    phase (angle + turns * Real.pi) = (-1 : ℂ) ^ turns * phase angle := by
  rw [phase_eq, phase_eq, Real.cos_add_int_mul_pi,
    Real.sin_add_int_mul_pi]
  push_cast
  ring

theorem phase_sub_turns (angle : ℝ) (turns : ℤ) :
    phase (angle - turns * Real.pi) = (-1 : ℂ) ^ turns * phase angle := by
  rw [phase_eq, phase_eq, Real.cos_sub_int_mul_pi,
    Real.sin_sub_int_mul_pi]
  push_cast
  ring

theorem rotationX_isRotationFamily : IsRotationFamily rotationX where
  zero := by simp [rotationX, one_eq_entries]
  turns := by
    intro angle turns
    rw [rotationX, rotationX, entries_smul, half_sub_turns,
      Real.cos_sub_int_mul_pi, Real.sin_sub_int_mul_pi]
    push_cast
    apply entries_congr <;> ring
  scalar := by
    intro angle factor isScalar
    rw [rotationX, one_eq_entries, entries_smul, entries_inj] at isScalar
    have off := isScalar.2.1
    rw [mul_zero, mul_eq_zero, neg_eq_zero] at off
    exact_mod_cast off.resolve_left Complex.I_ne_zero

theorem rotationY_isRotationFamily : IsRotationFamily rotationY where
  zero := by simp [rotationY, one_eq_entries]
  turns := by
    intro angle turns
    rw [rotationY, rotationY, entries_smul, half_sub_turns,
      Real.cos_sub_int_mul_pi, Real.sin_sub_int_mul_pi]
    push_cast
    apply entries_congr <;> ring
  scalar := by
    intro angle factor isScalar
    rw [rotationY, one_eq_entries, entries_smul, entries_inj] at isScalar
    have off := isScalar.2.2.1
    rw [mul_zero] at off
    exact_mod_cast off

theorem rotationZ_isRotationFamily : IsRotationFamily rotationZ where
  zero := rotationZ_zero
  turns := by
    intro angle turns
    have negative :
        -((angle - turns * 2 * Real.pi) / 2) =
          -(angle / 2) + turns * Real.pi := by
      ring
    rw [rotationZ, rotationZ, entries_smul, negative, half_sub_turns,
      phase_add_turns, phase_sub_turns]
    apply entries_congr <;> ring
  scalar := by
    intro angle factor isScalar
    rw [rotationZ, one_eq_entries, entries_smul, entries_inj] at isScalar
    have equal : phase (angle / 2) = phase (-(angle / 2)) := by
      rw [isScalar.1, isScalar.2.2.2]
    rw [phase_eq, phase_eq, Real.cos_neg, Real.sin_neg] at equal
    generalize Real.sin (angle / 2) = sine at equal ⊢
    have imaginary := congrArg Complex.im equal
    simp only [Complex.add_im, Complex.ofReal_im, Complex.mul_im,
      Complex.ofReal_re, Complex.I_im, Complex.I_re, mul_one, mul_zero,
      add_zero, zero_add] at imaginary
    linarith

/-! ## Projections as functions -/

section Projections

variable {Q : Type} [DecidableEq Q]

theorem on_projector_apply (qubit : Q) (value : Bool) (state : State Q)
    (bits : Q → Bool) :
    on qubit (projector value) state bits =
      if bits qubit = value then state bits else 0 := by
  have restored := Function.update_eq_self qubit bits
  rw [on_apply]
  cases value <;> cases bit : bits qubit <;>
    · rw [bit] at restored
      simp [projector, entries, restored]

/-- The projection keeps the amplitudes at which the controls hold. -/
theorem allOf_apply (controls : List (Q × Bool)) (state : State Q)
    (bits : Q → Bool) :
    allOf controls state bits =
      if ∀ control ∈ controls, bits control.1 = control.2 then state bits
      else 0 := by
  induction controls with
  | nil => simp
  | cons control others induction =>
      rw [allOf_cons, Module.End.mul_apply, on_projector_apply, induction]
      by_cases first : bits control.1 = control.2
      · rw [if_pos first]
        simp only [List.forall_mem_cons, first, true_and]
      · rw [if_neg first, if_neg]
        exact fun holds => first (holds control List.mem_cons_self)

/-- Distinct controls can all hold. -/
theorem exists_bits {controls : List (Q × Bool)}
    (distinct : (controls.map Prod.fst).Nodup) :
    ∃ bits : Q → Bool,
      ∀ control ∈ controls, bits control.1 = control.2 := by
  induction controls with
  | nil => exact ⟨fun _ => false, by simp⟩
  | cons control others induction =>
      simp only [List.map_cons, List.nodup_cons] at distinct
      rcases induction distinct.2 with ⟨bits, holds⟩
      refine ⟨Function.update bits control.1 control.2, ?_⟩
      intro other member
      rcases List.mem_cons.mp member with rfl | later
      · simp
      · have apart : other.1 ≠ control.1 := by
          intro equal
          exact distinct.1 (equal ▸ List.mem_map_of_mem later)
        rw [Function.update_of_ne apart, holds other later]

/-- A controlled matrix vanishes only if the matrix does. -/
theorem eq_zero_of_allOf_mul_on {controls : List (Q × Bool)} {target : Q}
    (distinct : (controls.map Prod.fst).Nodup)
    (apart : ∀ control ∈ controls, control.1 ≠ target)
    {matrix : BitMatrix}
    (vanishes : allOf controls * on target matrix = 0) : matrix = 0 := by
  classical
  rcases exists_bits distinct with ⟨bits, holds⟩
  ext row column
  -- The basis state with the column at the target, read at the row.
  have entry :=
    congrFun
      (LinearMap.congr_fun vanishes
        (Pi.single (Function.update bits target column) 1))
      (Function.update bits target row)
  rw [Module.End.mul_apply, allOf_apply, if_pos, on_apply] at entry
  · have different :
        Function.update bits target true ≠
          Function.update bits target false := by
      intro equal
      simpa using congrFun equal target
    cases column <;>
      simpa [different, different.symm, Pi.single_apply] using entry
  · intro control member
    rw [Function.update_of_ne (apart control member), holds control member]

/-- Controls that disagree about a qubit exclude each other. -/
theorem allOf_mul_allOf_of_differ {left right : List (Q × Bool)} {qubit : Q}
    {value : Bool} (here : (qubit, value) ∈ left)
    (there : (qubit, !value) ∈ right) :
    allOf left * allOf right = 0 := by
  refine LinearMap.ext fun state => funext fun bits => ?_
  rw [Module.End.mul_apply, allOf_apply, allOf_apply]
  by_cases first : ∀ control ∈ left, bits control.1 = control.2
  · have holds : bits qubit = value := first _ here
    rw [if_pos first, if_neg]
    · rfl
    · intro second
      have negated : bits qubit = !value := second _ there
      rw [holds] at negated
      cases value <;> cases negated
  · rw [if_neg first]
    rfl

end Projections

/-! ## The sign of a controlled operator -/

section Sign

variable {Q : Type} [DecidableEq Q] {controls : List (Q × Bool)} {target : Q}

/--
Changing the sign of what is controlled is a phase only without controls.
-/
theorem equalUpToPhase_sign_iff
    (distinct : (controls.map Prod.fst).Nodup)
    (apart : ∀ control ∈ controls, control.1 ≠ target)
    {matrix : BitMatrix} (nonzero : matrix ≠ 0) (turns : ℤ) :
    EqualUpToPhase
        (controlled (allOf controls)
          (on target (((-1 : ℂ) ^ turns) • matrix)))
        (controlled (allOf controls) (on target matrix)) ↔
      controls = [] ∨ Even turns := by
  have idempotent := allOf_mul_self distinct
  constructor
  · rintro ⟨factor, -, equal⟩
    by_cases uncontrolled : controls = []
    · exact .inl uncontrolled
    right
    -- Where the controls do not hold both operators are the identity.
    have outside :
        (1 - allOf controls) * allOf controls = 0 := by
      rw [sub_mul, one_mul, idempotent, sub_self]
    have unscaled : factor = 1 := by
      have kernels := congrArg ((1 - allOf controls) * ·) equal
      rw [mul_smul_comm, mul_controlled_of_mul_eq_zero outside,
        mul_controlled_of_mul_eq_zero outside] at kernels
      rcases List.exists_mem_of_ne_nil controls uncontrolled with
        ⟨control, member⟩
      have unheld :
          allOf controls (fun _ => 1) (fun _ => !control.2) = 0 := by
        rw [allOf_apply, if_neg]
        intro holds
        simpa using holds control member
      have amplitude :=
        congrFun (LinearMap.congr_fun kernels fun _ => 1)
          fun _ => !control.2
      simpa [unheld, eq_comm] using amplitude
    have ranges := congrArg (allOf controls * ·) equal
    rw [unscaled, one_smul, mul_controlled idempotent,
      mul_controlled idempotent] at ranges
    have same : ((-1 : ℂ) ^ turns) • matrix - matrix = 0 := by
      apply eq_zero_of_allOf_mul_on distinct apart
      rw [map_sub, mul_sub, ranges, sub_self]
    by_contra odd
    rw [Int.not_even_iff_odd] at odd
    rw [odd.neg_one_zpow, neg_one_smul] at same
    apply nonzero
    ext row column
    have doubled := congrFun (congrFun same row) column
    simp only [Matrix.sub_apply, Matrix.neg_apply, Matrix.zero_apply]
      at doubled ⊢
    linear_combination (-1 / 2) * doubled
  · rintro (rfl | even)
    · refine ⟨(-1) ^ turns, by simp, ?_⟩
      simp
    · rw [even.neg_one_zpow, one_smul]
      exact .refl _

/--
If controls exclude each other, matrices that make the controlled operators
equal up to a phase are multiples of the identity.
-/
theorem scalar_of_equalUpToPhase {left right : List (Q × Bool)}
    (leftDistinct : (left.map Prod.fst).Nodup)
    (rightDistinct : (right.map Prod.fst).Nodup)
    (leftApart : ∀ control ∈ left, control.1 ≠ target)
    (rightApart : ∀ control ∈ right, control.1 ≠ target)
    {qubit : Q} (unset : (qubit, false) ∈ right) (set : (qubit, true) ∈ left)
    {first second : BitMatrix}
    (equal :
      EqualUpToPhase (controlled (allOf left) (on target first))
        (controlled (allOf right) (on target second))) :
    ∃ factor : ℂ, first = factor • (1 : BitMatrix) ∧
      factor • second = (1 : BitMatrix) := by
  rcases equal with ⟨factor, -, equal⟩
  have leftExcludes := allOf_mul_allOf_of_differ set unset
  have rightExcludes := allOf_mul_allOf_of_differ unset set
  have onLeft := congrArg (allOf left * ·) equal
  rw [mul_smul_comm, mul_controlled (allOf_mul_self leftDistinct),
    mul_controlled_of_mul_eq_zero leftExcludes] at onLeft
  have onRight := congrArg (allOf right * ·) equal
  rw [mul_smul_comm, mul_controlled (allOf_mul_self rightDistinct),
    mul_controlled_of_mul_eq_zero rightExcludes] at onRight
  refine ⟨factor, ?_, ?_⟩
  · apply sub_eq_zero.mp
    apply eq_zero_of_allOf_mul_on leftDistinct leftApart
    rw [map_sub, map_smul, map_one, mul_sub, onLeft, mul_smul_comm,
      mul_one, sub_self]
  · apply sub_eq_zero.mp
    apply eq_zero_of_allOf_mul_on rightDistinct rightApart
    rw [map_sub, map_smul, map_one, mul_sub, mul_smul_comm, ← onRight,
      mul_one, sub_self]

end Sign

end MQSSPasses.General.RotationTurns

end
