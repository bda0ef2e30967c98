import MQSSPasses.General.TracedComputation
import Mathlib.Data.List.Basic

/-!
# Folds that act on the components of a state

A state may be looked at part by part.  If every step of a fold that can
fail does to each part what a local rule does with the letters the item has
for that part, then the fold does so as a whole: each part of the result is
the fold of the local rule, and the fold fails exactly if the local fold of
some part does.

This reduces a statement about a list in which unrelated items are
interleaved to statements about one part at a time.
-/

namespace MQSSPasses.General.ComponentFolds

open MQSSPasses.General.TracedComputation

variable {State Item Part View Letter Fault : Type}

/-- A fold that goes on after its first item. -/
theorem foldlM_cons_eq_ok {step : State → Item → Except Fault State}
    {item : Item} {rest : List Item} {start finish : State} :
    (item :: rest).foldlM step start = .ok finish ↔
      ∃ next, step start item = .ok next ∧
        rest.foldlM step next = .ok finish := by
  rw [List.foldlM_cons, except_bind_eq_ok]

/-! ## Steps that are local to the parts -/

section Components

variable (step : State → Item → Except Fault State)
variable (rule : View → Letter → Except Fault View)
variable (view : Part → State → View)
variable (letters : Part → Item → List Letter)
variable (invariant : State → Prop) (admissible : Item → Prop)

/-- A step that does to each part what the local rule does. -/
structure Componentwise : Prop where
  kept :
    ∀ state item next, invariant state → admissible item →
      step state item = .ok next → invariant next
  steps :
    ∀ state item next, invariant state → admissible item →
      step state item = .ok next →
        ∀ part,
          (letters part item).foldlM rule (view part state) =
            .ok (view part next)
  fails :
    ∀ state item fault, invariant state → admissible item →
      step state item = .error fault →
        ∃ part,
          (letters part item).foldlM rule (view part state) = .error fault

variable {step rule view letters invariant admissible}
variable {items : List Item} {start : State}

/-- The parts of what a fold returns are what the local folds return. -/
theorem Componentwise.returns
    (componentwise :
      Componentwise step rule view letters invariant admissible)
    (initially : invariant start)
    (each : ∀ item ∈ items, admissible item)
    {finish : State}
    (returned : items.foldlM step start = .ok finish) (part : Part) :
    (items.flatMap (letters part)).foldlM rule (view part start) =
      .ok (view part finish) := by
  induction items generalizing start with
  | nil =>
      cases returned
      rfl
  | cons item rest induction =>
      have admitted := each item List.mem_cons_self
      rcases foldlM_cons_eq_ok.mp returned with ⟨next, stepped, later⟩
      rw [List.flatMap_cons, List.foldlM_append,
        componentwise.steps start item next initially admitted stepped]
      exact induction
        (componentwise.kept start item next initially admitted stepped)
        (fun other member => each other (List.mem_cons_of_mem item member))
        later

/-- If a fold fails, the local fold of some part does. -/
theorem Componentwise.breaks
    (componentwise :
      Componentwise step rule view letters invariant admissible)
    (initially : invariant start)
    (each : ∀ item ∈ items, admissible item)
    {fault : Fault}
    (failed : items.foldlM step start = .error fault) :
    ∃ part,
      (items.flatMap (letters part)).foldlM rule (view part start) =
        .error fault := by
  induction items generalizing start with
  | nil => cases failed
  | cons item rest induction =>
      have admitted := each item List.mem_cons_self
      rw [List.foldlM_cons] at failed
      cases stepped : step start item with
      | error other =>
          rw [stepped] at failed
          cases failed
          rcases componentwise.fails start item _ initially admitted
            stepped with ⟨part, locally⟩
          refine ⟨part, ?_⟩
          rw [List.flatMap_cons, List.foldlM_append, locally]
          rfl
      | ok next =>
          rw [stepped] at failed
          rcases induction
            (componentwise.kept start item next initially admitted stepped)
            (fun other member =>
              each other (List.mem_cons_of_mem item member))
            failed with ⟨part, locally⟩
          refine ⟨part, ?_⟩
          rw [List.flatMap_cons, List.foldlM_append,
            componentwise.steps start item next initially admitted stepped]
          exact locally

/-- A fold returns exactly if the local fold of every part does. -/
theorem Componentwise.returns_iff
    (componentwise :
      Componentwise step rule view letters invariant admissible)
    (initially : invariant start)
    (each : ∀ item ∈ items, admissible item) :
    (∃ finish, items.foldlM step start = .ok finish) ↔
      ∀ part, ∃ finish,
        (items.flatMap (letters part)).foldlM rule (view part start) =
          .ok finish := by
  constructor
  · rintro ⟨finish, returned⟩ part
    exact ⟨_, componentwise.returns initially each returned part⟩
  · intro locally
    cases folded : items.foldlM step start with
    | ok finish => exact ⟨finish, rfl⟩
    | error fault =>
        rcases componentwise.breaks initially each folded with
          ⟨part, failed⟩
        rcases locally part with ⟨finish, returned⟩
        rw [failed] at returned
        cases returned

end Components

end MQSSPasses.General.ComponentFolds
