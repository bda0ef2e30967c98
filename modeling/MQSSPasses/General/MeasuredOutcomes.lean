import MQSSPasses.General.QubitOperators

/-!
# The outcomes of measuring some qubits

Measuring a list of qubits in a state yields a list of bits.  Its
probability, for a normalised state, is the weight of the basis states in
which the qubits have these bits.

A state may come with its qubits renamed, as after the swaps that a mapping
to a device inserts.  Measuring the renamed qubits then yields the same
outcomes with the same weights.

In a circuit the measurements stand between the operators, and each of them
projects the state.  If no operator acts on a qubit that was measured before,
the qubits may as well be measured at the end.
-/

noncomputable section

namespace MQSSPasses.General.MeasuredOutcomes

open MQSSPasses.General.QubitOperators

variable {Q : Type}

/-- The states in which measuring the qubits yields the outcome. -/
def outcomeWeight [Fintype Q] [DecidableEq Q] (state : State Q)
    (measured : List Q) (outcome : List Bool) : ℝ :=
  ∑ bits : Q → Bool,
    if measured.map bits = outcome then ‖state bits‖ ^ 2 else 0

/-- Every qubit of the state is the qubit `output` makes of it. -/
def Relabelled (output : Equiv.Perm Q) (state moved : State Q) : Prop :=
  ∃ scalar : ℂ, ‖scalar‖ = 1 ∧
    ∀ bits, moved bits = scalar * state (bits ∘ output)

/-- A swap of two qubits renames them. -/
theorem Relabelled.swap [DecidableEq Q] (first second : Q)
    (state : State Q) :
    Relabelled (Equiv.swap first second) state
      (QubitOperators.swap first second state) :=
  ⟨1, norm_one, fun bits => by rw [one_mul, swap_apply]⟩

/-- Renamed qubits have the outcomes of the qubits they were. -/
theorem Relabelled.outcomeWeight_map [Fintype Q] [DecidableEq Q]
    {output : Equiv.Perm Q} {state moved : State Q}
    (relabelled : Relabelled output state moved) (measured : List Q)
    (outcome : List Bool) :
    outcomeWeight moved (measured.map output) outcome =
      outcomeWeight state measured outcome := by
  rcases relabelled with ⟨scalar, unit, moves⟩
  refine Fintype.sum_equiv
    (Equiv.arrowCongr output.symm (Equiv.refl Bool)) _ _ fun bits => ?_
  have renamed :
      Equiv.arrowCongr output.symm (Equiv.refl Bool) bits =
        bits ∘ output := rfl
  rw [renamed, moves, List.map_map, norm_mul, unit, one_mul]

/-! ## Measurements inside a circuit -/

/-- A step of a circuit: an operator, or the measurement of a qubit. -/
inductive Step (Q : Type) where
  | apply (operator : Operator Q)
  | measure (wire : Q)

section Circuits

variable [DecidableEq Q]

/--
What the steps make of a state if their measurements yield the outcome: the
measured qubit is projected onto its bit.
-/
def observe : List (Step Q) → List Bool → Operator Q
  | [], [] => 1
  | [], _ :: _ => 0
  | .apply operator :: rest, outcome => observe rest outcome * operator
  | .measure _ :: _, [] => 0
  | .measure wire :: rest, bit :: outcome =>
      observe rest outcome * on wire (projector bit)

/-- The weight of what is left of a state. -/
def weight [Fintype Q] (state : State Q) : ℝ :=
  ∑ bits : Q → Bool, ‖state bits‖ ^ 2

/-- The operators of the steps: later ones stand on the left. -/
def product : List (Step Q) → Operator Q
  | [] => 1
  | .apply operator :: rest => product rest * operator
  | .measure _ :: rest => product rest

/-- The qubits that are measured, in the order of the steps. -/
def measuredIn : List (Step Q) → List Q
  | [] => []
  | .apply _ :: rest => measuredIn rest
  | .measure wire :: rest => wire :: measuredIn rest

/-- A step that may be taken before an earlier measurement. -/
def Deferrable : Step Q → Step Q → Prop
  | .measure wire, .apply operator =>
      ∀ bit, Commute (on wire (projector bit)) operator
  | _, _ => True

theorem projector_apply (wire : Q) (bit : Bool) (state : State Q)
    (bits : Q → Bool) :
    on wire (projector bit) state bits =
      if bits wire = bit then state bits else 0 := by
  have restored := Function.update_eq_self wire bits
  cases bit <;> cases value : bits wire <;> rw [value] at restored <;>
    simp [on_apply, projector, entries, value, restored]

/-- Projecting a qubit and measuring others is measuring the qubit, too. -/
theorem outcomeWeight_project [Fintype Q] (wire : Q) (bit : Bool)
    (state : State Q) (measured : List Q) (outcome : List Bool) :
    outcomeWeight (on wire (projector bit) state) measured outcome =
      outcomeWeight state (wire :: measured) (bit :: outcome) := by
  refine Finset.sum_congr rfl fun bits _ => ?_
  simp only [projector_apply, List.map_cons, List.cons.injEq]
  by_cases here : bits wire = bit
  · simp [here]
  · simp [here]

theorem commute_product {wire : Q} {steps : List (Step Q)}
    (later : ∀ step ∈ steps, Deferrable (.measure wire) step)
    (bit : Bool) : Commute (on wire (projector bit)) (product steps) := by
  induction steps with
  | nil => exact Commute.one_right _
  | cons step rest induction =>
      rw [List.forall_mem_cons] at later
      cases step with
      | apply operator =>
          exact (induction later.2).mul_right (later.1 bit)
      | measure other => exact induction later.2

/-- Deferrable measurements may be made at the end. -/
theorem weight_observe [Fintype Q] {steps : List (Step Q)}
    (deferrable : steps.Pairwise Deferrable) (state : State Q)
    (outcome : List Bool) :
    weight (observe steps outcome state) =
      outcomeWeight (product steps state) (measuredIn steps) outcome := by
  induction steps generalizing state outcome with
  | nil =>
      cases outcome with
      | nil => simp [observe, weight, product, measuredIn, outcomeWeight]
      | cons bit outcome =>
          simp [observe, weight, measuredIn, outcomeWeight]
  | cons step rest induction =>
      rcases List.pairwise_cons.mp deferrable with ⟨later, others⟩
      cases step with
      | apply operator =>
          rw [observe, Module.End.mul_apply, induction others]
          rfl
      | measure wire =>
          cases outcome with
          | nil => simp [observe, weight, measuredIn, outcomeWeight]
          | cons bit outcome =>
              have exchanged :
                  product rest (on wire (projector bit) state) =
                    on wire (projector bit) (product rest state) :=
                (LinearMap.congr_fun (commute_product later bit).eq
                  state).symm
              rw [observe, Module.End.mul_apply, induction others,
                exchanged, outcomeWeight_project]
              rfl

omit [DecidableEq Q] in
theorem product_append (first second : List (Step Q)) :
    product (first ++ second) = product second * product first := by
  induction first with
  | nil => exact (mul_one _).symm
  | cons step rest induction =>
      cases step with
      | apply operator =>
          rw [List.cons_append, product, product, induction, mul_assoc]
      | measure wire => exact induction

omit [DecidableEq Q] in
theorem measuredIn_append (first second : List (Step Q)) :
    measuredIn (first ++ second) =
      measuredIn first ++ measuredIn second := by
  induction first with
  | nil => rfl
  | cons step rest induction =>
      cases step with
      | apply operator => exact induction
      | measure wire => exact congrArg (List.cons wire) induction

end Circuits

end MQSSPasses.General.MeasuredOutcomes

end
