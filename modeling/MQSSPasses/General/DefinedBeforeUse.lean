import Mathlib

/-!
# Definitions before uses

In a straight-line program in static single assignment form every value an
item uses is known from outside or defined by an earlier item.  The file
says when an edited program is still in this order: items that define
nothing can be left out, and items can be inserted where what they use is
known.
-/

namespace MQSSPasses.General.DefinedBeforeUse

variable {Item Value : Type}

/-- The values an item defines and the values it uses. -/
structure Flow (Item Value : Type) where
  defines : Item → Set Value
  uses : Item → Set Value

variable (flow : Flow Item Value)

/-- The values defined by a list of items. -/
def Flow.defined (program : List Item) : Set Value :=
  {value | ∃ item ∈ program, value ∈ flow.defines item}

/-- Every used value is known or has been defined before. -/
def Flow.Ordered (known : Set Value) : List Item → Prop
  | [] => True
  | item :: rest =>
      flow.uses item ⊆ known ∧
        Flow.Ordered (known ∪ flow.defines item) rest

/-- Leave out some items, which define nothing. -/
inductive Flow.Prunes : List Item → List Item → Prop where
  | nil : Flow.Prunes [] []
  | keep (item : Item) {program smaller : List Item}
      (rest : Flow.Prunes program smaller) :
      Flow.Prunes (item :: program) (item :: smaller)
  | drop (item : Item) {program smaller : List Item}
      (idle : flow.defines item = ∅)
      (rest : Flow.Prunes program smaller) :
      Flow.Prunes (item :: program) smaller

variable {flow} {known : Set Value}

@[simp]
theorem defined_nil : flow.defined [] = ∅ := by
  simp [Flow.defined]

@[simp]
theorem defined_cons (item : Item) (rest : List Item) :
    flow.defined (item :: rest) =
      flow.defines item ∪ flow.defined rest := by
  ext value
  simp [Flow.defined]

@[simp]
theorem defined_append (first second : List Item) :
    flow.defined (first ++ second) =
      flow.defined first ∪ flow.defined second := by
  ext value
  simp [Flow.defined, or_and_right, exists_or]

@[simp]
theorem ordered_nil : flow.Ordered known [] :=
  trivial

theorem ordered_cons {item : Item} {rest : List Item} :
    flow.Ordered known (item :: rest) ↔
      flow.uses item ⊆ known ∧
        flow.Ordered (known ∪ flow.defines item) rest :=
  Iff.rfl

theorem ordered_append {first second : List Item} :
    flow.Ordered known (first ++ second) ↔
      flow.Ordered known first ∧
        flow.Ordered (known ∪ flow.defined first) second := by
  induction first generalizing known with
  | nil => simp
  | cons item rest induction =>
      rw [List.cons_append, ordered_cons, ordered_cons, induction,
        defined_cons, Set.union_assoc, and_assoc]

/-- Knowing more does no harm. -/
theorem Flow.Ordered.mono {more : Set Value} {program : List Item}
    (ordered : flow.Ordered known program) (subset : known ⊆ more) :
    flow.Ordered more program := by
  induction program generalizing known more with
  | nil => trivial
  | cons item rest induction =>
      exact ⟨ordered.1.trans subset,
        induction ordered.2 (Set.union_subset_union_left _ subset)⟩

/-- What an item uses is known behind the program. -/
theorem Flow.Ordered.uses_subset {program : List Item}
    (ordered : flow.Ordered known program) {item : Item}
    (member : item ∈ program) :
    flow.uses item ⊆ known ∪ flow.defined program := by
  induction program generalizing known with
  | nil => cases member
  | cons head rest induction =>
      rw [defined_cons, ← Set.union_assoc]
      rcases List.mem_cons.mp member with rfl | later
      · exact ordered.1.trans
          (Set.subset_union_left.trans Set.subset_union_left)
      · exact induction ordered.2 later

/-- Items whose uses are known can come in any order. -/
theorem ordered_of_uses {program : List Item}
    (uses : ∀ item ∈ program, flow.uses item ⊆ known) :
    flow.Ordered known program := by
  induction program generalizing known with
  | nil => trivial
  | cons item rest induction =>
      refine ⟨uses item List.mem_cons_self, induction ?_⟩
      intro later member
      exact (uses later (List.mem_cons_of_mem item member)).trans
        Set.subset_union_left

/-! ## Leaving out items -/

theorem Flow.Prunes.refl (program : List Item) :
    flow.Prunes program program := by
  induction program with
  | nil => exact .nil
  | cons item rest induction => exact .keep item induction

theorem Flow.Prunes.append {first second smaller smallest : List Item}
    (left : flow.Prunes first smaller)
    (right : flow.Prunes second smallest) :
    flow.Prunes (first ++ second) (smaller ++ smallest) := by
  induction left with
  | nil => exact right
  | keep item _ induction => exact .keep item induction
  | drop item idle _ induction => exact .drop item idle induction

/-- Leaving out one item between two lists. -/
theorem Flow.Prunes.one {item : Item} (idle : flow.defines item = ∅)
    (first second : List Item) :
    flow.Prunes (first ++ item :: second) (first ++ second) :=
  (Flow.Prunes.refl first).append (.drop item idle (.refl second))

theorem Flow.Prunes.trans {first second third : List Item}
    (left : flow.Prunes first second) (right : flow.Prunes second third) :
    flow.Prunes first third := by
  induction left generalizing third with
  | nil => exact right
  | keep item _ induction =>
      cases right with
      | keep _ rest => exact .keep item (induction rest)
      | drop _ idle rest => exact .drop item idle (induction rest)
  | drop item idle _ induction => exact .drop item idle (induction right)

theorem Flow.Prunes.defined_eq {program smaller : List Item}
    (prunes : flow.Prunes program smaller) :
    flow.defined smaller = flow.defined program := by
  induction prunes with
  | nil => rfl
  | keep item _ induction => rw [defined_cons, defined_cons, induction]
  | drop item idle _ induction =>
      rw [defined_cons, idle, Set.empty_union, induction]

/-- Leaving out items that define nothing keeps the order. -/
theorem Flow.Prunes.ordered {program smaller : List Item}
    (prunes : flow.Prunes program smaller)
    (ordered : flow.Ordered known program) :
    flow.Ordered known smaller := by
  induction prunes generalizing known with
  | nil => exact ordered
  | keep item _ induction => exact ⟨ordered.1, induction ordered.2⟩
  | drop item idle _ induction =>
      apply induction
      simpa [idle] using ordered.2

/--
A program stays in order if items that define nothing are left out of its
first part and items whose uses are known there are inserted behind it.
-/
theorem Flow.Prunes.ordered_insert
    {first smaller inserted second : List Item}
    (prunes : flow.Prunes first smaller)
    (uses :
      ∀ item ∈ inserted, flow.uses item ⊆ known ∪ flow.defined first)
    (ordered : flow.Ordered known (first ++ second)) :
    flow.Ordered known (smaller ++ inserted ++ second) := by
  rw [ordered_append] at ordered
  rw [ordered_append, ordered_append, defined_append, prunes.defined_eq,
    ← Set.union_assoc]
  exact ⟨⟨prunes.ordered ordered.1, ordered_of_uses uses⟩,
    ordered.2.mono Set.subset_union_left⟩

end MQSSPasses.General.DefinedBeforeUse
