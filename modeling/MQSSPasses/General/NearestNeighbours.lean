import Mathlib.Order.Defs.Unbundled
import Mathlib.Data.List.Pairwise
import Mathlib.Tactic.Common

/-!
# Nearest neighbours along a strict order

From a place in an order, a search looks for the nearest place further on
that has a property.  Searching along an order and along its converse are
inverse to each other between places with the property, and repeating a
search visits each of these places once, in order.
-/

namespace MQSSPasses.General.NearestNeighbours

variable {Place : Type} {further : Place → Place → Prop}
variable {wanted : Place → Prop}

/--
What a search from a place gives: the nearest wanted place further on, and
nothing if there is none.
-/
def Nearest (further : Place → Place → Prop) (wanted : Place → Prop)
    (start : Place) : Option Place → Prop
  | none => ∀ other, further start other → ¬ wanted other
  | some found =>
      further start found ∧ wanted found ∧
        ∀ other, further start other → further other found →
          ¬ wanted other

/-- A search has one answer. -/
theorem Nearest.unique [Std.Trichotomous further] {start : Place}
    {first second : Option Place}
    (one : Nearest further wanted start first)
    (two : Nearest further wanted start second) :
    first = second := by
  cases first with
  | none =>
      cases second with
      | none => rfl
      | some place => exact absurd two.2.1 (one place two.1)
  | some found =>
      cases second with
      | none => exact absurd one.2.1 (two found one.1)
      | some place =>
          have notBefore : ¬ further found place :=
            fun before => two.2.2 found one.1 before one.2.1
          have notAfter : ¬ further place found :=
            fun after => one.2.2 place two.1 after two.2.1
          rw [Std.Trichotomous.trichotomous found place notBefore notAfter]

/-- The search back from what a search has found leads to its start. -/
theorem Nearest.flip {start found : Place} (isWanted : wanted start)
    (nearest : Nearest further wanted start (some found)) :
    Nearest (Function.swap further) wanted found (some start) := by
  refine ⟨nearest.1, isWanted, ?_⟩
  intro other fromFound toStart
  exact nearest.2.2 other toStart fromFound

/-- The places that a repeated step visits before it gives nothing. -/
inductive Visits (step : Place → Option Place → Prop) :
    Place → List Place → Prop where
  | stop {start : Place} (ends : step start none) : Visits step start []
  | next {start place : Place} {places : List Place}
      (leads : step start (some place))
      (rest : Visits step place places) :
      Visits step start (place :: places)

theorem Visits.mono {step other : Place → Option Place → Prop}
    (implies : ∀ start answer, step start answer → other start answer)
    {start : Place} {places : List Place}
    (visits : Visits step start places) :
    Visits other start places := by
  induction visits with
  | stop ends => exact .stop (implies _ _ ends)
  | next leads _ induction => exact .next (implies _ _ leads) induction

/-- A repeated search visits the wanted places further on, in order. -/
theorem visits_of_sorted [IsTrans Place further] [Std.Asymm further]
    {start : Place} {places : List Place}
    (sorted : places.Pairwise further)
    (members :
      ∀ place, place ∈ places ↔ wanted place ∧ further start place) :
    Visits (Nearest further wanted) start places := by
  induction places generalizing start with
  | nil =>
      refine .stop ?_
      intro other after isWanted
      exact List.not_mem_nil ((members other).mpr ⟨isWanted, after⟩)
  | cons place rest induction =>
      rcases List.pairwise_cons.mp sorted with ⟨first, sortedRest⟩
      have here := (members place).mp List.mem_cons_self
      refine .next ⟨here.2, here.1, ?_⟩ (induction sortedRest ?_)
      · intro other after before isWanted
        rcases List.mem_cons.mp ((members other).mpr ⟨isWanted, after⟩)
          with rfl | later
        · exact Std.Asymm.asymm _ _ before before
        · exact Std.Asymm.asymm _ _ before (first other later)
      · intro other
        constructor
        · intro later
          have inside := List.mem_cons_of_mem place later
          exact ⟨((members other).mp inside).1, first other later⟩
        · rintro ⟨isWanted, after⟩
          have past := IsTrans.trans _ _ _ here.2 after
          rcases List.mem_cons.mp ((members other).mpr ⟨isWanted, past⟩)
            with rfl | later
          · exact (Std.Asymm.asymm _ _ after after).elim
          · exact later

/-- A sorted list is cut in two by a property that holds up to a place. -/
theorem filter_append_filter_not {places : List Place}
    (sorted : places.Pairwise further) (early : Place → Bool)
    (closed :
      ∀ {place other}, further place other → early other = true →
        early place = true) :
    places.filter early ++ places.filter (fun place => !early place) =
      places := by
  induction places with
  | nil => rfl
  | cons place rest induction =>
      rcases List.pairwise_cons.mp sorted with ⟨first, sortedRest⟩
      cases here : early place with
      | true =>
          simpa [here] using induction sortedRest
      | false =>
          have late : ∀ other ∈ rest, early other = false := by
            intro other later
            by_contra isEarly
            rw [Bool.not_eq_false] at isEarly
            rw [closed (first other later) isEarly] at here
            cases here
          rw [List.filter_eq_nil_iff.mpr, List.filter_eq_self.mpr]
          · rfl
          · simpa [here] using late
          · simpa [here] using late

end MQSSPasses.General.NearestNeighbours
