import Mathlib

/-!
# Straight-line programs in single-assignment form

An operation of such a program computes one value from the values of the
operations before it, and the place of the operation names the value.  A
`Meaning` says which value an operation computes, if any, and a program runs
to the list of the values of all its operations.

Programs grow at their end.  Values that are there stay where they are, so
what a place holds it holds in every longer program.

A second meaning may compute something coarser about the same values, such
as their types.  If one operation computes a value wherever the coarser
meaning computes one, and the two are related, so does a whole program.
-/

namespace MQSSPasses.General.StraightLineProgram

variable {Operation Value : Type}

/-- The value of an operation after operations with the given values. -/
abbrev Meaning (Operation Value : Type) : Type :=
  List Value → Operation → Option Value

/-- The values after further operations. -/
def runFrom (meaning : Meaning Operation Value) :
    List Value → List Operation → Option (List Value)
  | values, [] => some values
  | values, operation :: rest => do
      let value ← meaning values operation
      runFrom meaning (values ++ [value]) rest

/-- The values of the operations of a program, in their order. -/
def run (meaning : Meaning Operation Value)
    (operations : List Operation) : Option (List Value) :=
  runFrom meaning [] operations

variable {meaning : Meaning Operation Value}

theorem runFrom_append (values : List Value)
    (first second : List Operation) :
    runFrom meaning values (first ++ second) =
      (runFrom meaning values first).bind
        fun middle => runFrom meaning middle second := by
  induction first generalizing values with
  | nil => rfl
  | cons operation rest induction =>
      cases computes : meaning values operation <;>
        simp [runFrom, computes, induction]

/-- One more operation adds its value. -/
theorem run_concat {operations : List Operation} {values : List Value}
    {operation : Operation} {value : Value}
    (runs : run meaning operations = some values)
    (computes : meaning values operation = some value) :
    run meaning (operations ++ [operation]) = some (values ++ [value]) := by
  rw [run] at runs
  simp [run, runFrom_append, runs, runFrom, computes]

theorem length_of_runFrom {operations : List Operation}
    {values final : List Value}
    (runs : runFrom meaning values operations = some final) :
    final.length = values.length + operations.length := by
  induction operations generalizing values with
  | nil =>
      cases runs
      rfl
  | cons operation rest induction =>
      simp only [runFrom, Option.bind_eq_bind,
        Option.bind_eq_some_iff] at runs
      rcases runs with ⟨value, -, later⟩
      have length := induction later
      simp only [List.length_append, List.length_cons,
        List.length_nil] at length ⊢
      omega

/-- There is one value for every operation. -/
theorem length_of_run {operations : List Operation}
    {values : List Value}
    (runs : run meaning operations = some values) :
    values.length = operations.length := by
  simpa using length_of_runFrom runs

/-- What a place holds it still holds when values are added. -/
theorem getElem?_of_prefix {values extended : List Value}
    (grown : values <+: extended) {place : ℕ} {value : Value}
    (holds : values[place]? = some value) :
    extended[place]? = some value := by
  rcases grown with ⟨later, rfl⟩
  rcases List.getElem?_eq_some_iff.mp holds with ⟨inside, _⟩
  rw [List.getElem?_append_left inside, holds]

theorem run_append (first second : List Operation) :
    run meaning (first ++ second) =
      (run meaning first).bind fun middle =>
        runFrom meaning middle second :=
  runFrom_append [] first second

/-! ## Coarser meanings -/

section Simulation

variable {Shadow : Type} {relation : Value → Shadow → Prop}
variable {coarse : Meaning Operation Shadow}

/-- On related values an operation computes related results. -/
def Simulates (relation : Value → Shadow → Prop)
    (meaning : Meaning Operation Value)
    (coarse : Meaning Operation Shadow) : Prop :=
  ∀ values shadows operation shadow,
    List.Forall₂ relation values shadows →
      coarse shadows operation = some shadow →
        ∃ value, meaning values operation = some value ∧
          relation value shadow

theorem Simulates.runFrom_related
    (simulates : Simulates relation meaning coarse)
    {operations : List Operation} {values : List Value}
    {shadows final : List Shadow}
    (related : List.Forall₂ relation values shadows)
    (runs : runFrom coarse shadows operations = some final) :
    ∃ reached, runFrom meaning values operations = some reached ∧
      List.Forall₂ relation reached final := by
  induction operations generalizing values shadows with
  | nil =>
      cases runs
      exact ⟨values, rfl, related⟩
  | cons operation rest induction =>
      simp only [runFrom, Option.bind_eq_bind,
        Option.bind_eq_some_iff] at runs
      rcases runs with ⟨shadow, computes, later⟩
      rcases simulates values shadows operation shadow related computes with
        ⟨value, computed, holds⟩
      rcases induction (List.rel_append related (.cons holds .nil)) later
        with ⟨reached, continued, ends⟩
      refine ⟨reached, ?_, ends⟩
      simp only [runFrom, computed, Option.bind_eq_bind,
        Option.bind_some, continued]

/-- A program that runs by the coarser meaning runs by the other one. -/
theorem Simulates.run_related
    (simulates : Simulates relation meaning coarse)
    {operations : List Operation} {shadows : List Shadow}
    (runs : run coarse operations = some shadows) :
    ∃ values, run meaning operations = some values ∧
      List.Forall₂ relation values shadows :=
  simulates.runFrom_related .nil runs

end Simulation

end MQSSPasses.General.StraightLineProgram
