import Mathlib.Algebra.BigOperators.Group.List.Basic
import Mathlib.Tactic.Linarith
import Mathlib.Tactic.Ring

/-!
# Rewriting a list until it settles

Two kinds of steps rewrite a list of weighted items.  A step of the first
kind makes the list lighter, whatever else it does.  A step of the second
kind moves an item behind a later one, where both may change into others.

A sorting says which items are to stand behind which.  If every move brings
one pair into this order and brings no pair out of it, for one of two
sortings that are compared in turn, then no list allows more than a bounded
number of steps.  The bound depends on the weight of the list only.
-/

namespace MQSSPasses.General.SettlingMoves

variable {Item : Type}

/-! ## Pairs that are out of order -/

/-- Which items are to move behind which others. -/
structure Sorting (Item : Type) where
  forward : Item → Bool
  backward : Item → Bool

namespace Sorting

variable (sorting : Sorting Item)

/-- The number of pairs that are out of order. -/
def inversions : List Item → ℕ
  | [] => 0
  | item :: rest =>
      [item].countP sorting.forward * rest.countP sorting.backward +
        inversions rest

theorem inversions_append (first second : List Item) :
    sorting.inversions (first ++ second) =
      sorting.inversions first +
        first.countP sorting.forward * second.countP sorting.backward +
        sorting.inversions second := by
  induction first with
  | nil => simp [inversions]
  | cons item rest induction =>
      have split :
          (item :: rest).countP sorting.forward =
            [item].countP sorting.forward +
              rest.countP sorting.forward := by
        rw [← List.singleton_append, List.countP_append]
      rw [List.cons_append, inversions, inversions, induction,
        List.countP_append, split]
      ring

@[simp]
theorem inversions_singleton (item : Item) :
    sorting.inversions [item] = 0 := by
  simp [inversions]

theorem inversions_le (items : List Item) :
    sorting.inversions items ≤ items.length ^ 2 := by
  induction items with
  | nil => exact Nat.zero_le _
  | cons item rest induction =>
      have here : [item].countP sorting.forward ≤ [item].length :=
        List.countP_le_length
      have later : rest.countP sorting.backward ≤ rest.length :=
        List.countP_le_length
      have pairs := Nat.mul_le_mul here later
      rw [List.length_singleton, one_mul] at pairs
      rw [inversions, List.length_cons]
      linarith [induction, pairs, add_sq rest.length 1]

/--
Moving an item behind a later one brings no pair out of order, although
the moved item and the one it passes may change.
-/
structure Keeps (item passed moved left : Item) : Prop where
  stays : sorting.backward moved = false
  movedForward : sorting.forward moved = true → sorting.forward item = true
  leftForward : sorting.forward left = true → sorting.forward passed = true
  leftBackward :
    sorting.backward left = true → sorting.backward passed = true

instance (item passed moved left : Item) :
    Decidable (sorting.Keeps item passed moved left) :=
  decidable_of_iff
    (sorting.backward moved = false ∧
      (sorting.forward moved = true → sorting.forward item = true) ∧
      (sorting.forward left = true → sorting.forward passed = true) ∧
      (sorting.backward left = true → sorting.backward passed = true))
    ⟨fun ⟨stays, movedForward, leftForward, leftBackward⟩ =>
        ⟨stays, movedForward, leftForward, leftBackward⟩,
      fun keeps =>
        ⟨keeps.stays, keeps.movedForward, keeps.leftForward,
          keeps.leftBackward⟩⟩

variable {sorting}

theorem countP_singleton_le {property other : Item → Bool}
    {first second : Item}
    (less : property first = true → other second = true) :
    [first].countP property ≤ [second].countP other := by
  rw [List.countP_singleton, List.countP_singleton]
  split_ifs with holds fails
  · exact le_refl 1
  · exact absurd (less holds) fails
  · exact Nat.zero_le 1
  · exact le_refl 0

/-- A move that exchanges a pair which was out of order counts for one. -/
theorem Keeps.inversions_move {item passed moved left : Item}
    (keeps : sorting.Keeps item passed moved left)
    (lower between upper : List Item) :
    sorting.inversions
          (lower ++ (between ++ ([left] ++ ([moved] ++ upper)))) +
        [item].countP sorting.forward * [passed].countP sorting.backward ≤
      sorting.inversions
        (lower ++ ([item] ++ (between ++ ([passed] ++ upper)))) := by
  have stays : [moved].countP sorting.backward = 0 := by
    rw [List.countP_singleton, keeps.stays]
    rfl
  have movedForward := countP_singleton_le keeps.movedForward
  have leftForward := countP_singleton_le keeps.leftForward
  have leftBackward := countP_singleton_le keeps.leftBackward
  simp only [inversions_append, inversions_singleton, List.countP_append,
    stays]
  -- Every pair of the new list was out of order before.
  have lowerLeft :=
    Nat.mul_le_mul_left (lower.countP sorting.forward) leftBackward
  have betweenLeft :=
    Nat.mul_le_mul_left (between.countP sorting.forward) leftBackward
  have leftUpper :=
    Nat.mul_le_mul_right (upper.countP sorting.backward) leftForward
  have movedUpper :=
    Nat.mul_le_mul_right (upper.countP sorting.backward) movedForward
  nlinarith [lowerLeft, betweenLeft, leftUpper, movedUpper,
    Nat.zero_le
      (lower.countP sorting.forward * [item].countP sorting.backward),
    Nat.zero_le
      ([item].countP sorting.forward * between.countP sorting.backward)]

end Sorting

/-! ## Steps -/

/-- Weights, and two sortings of which the first counts more. -/
structure Ranking (Item : Type) where
  weight : Item → ℕ
  weight_pos : ∀ item, 0 < weight item
  first : Sorting Item
  second : Sorting Item

namespace Ranking

variable (ranking : Ranking Item)

def totalWeight (items : List Item) : ℕ :=
  (items.map ranking.weight).sum

@[simp]
theorem totalWeight_append (first second : List Item) :
    ranking.totalWeight (first ++ second) =
      ranking.totalWeight first + ranking.totalWeight second := by
  rw [totalWeight, List.map_append, List.sum_append]
  rfl

@[simp]
theorem totalWeight_singleton (item : Item) :
    ranking.totalWeight [item] = ranking.weight item := by
  simp [totalWeight]

theorem length_le_totalWeight (items : List Item) :
    items.length ≤ ranking.totalWeight items := by
  induction items with
  | nil => exact Nat.zero_le _
  | cons item rest induction =>
      have positive := ranking.weight_pos item
      have split := ranking.totalWeight_append [item] rest
      rw [totalWeight_singleton, List.singleton_append] at split
      rw [split, List.length_cons]
      omega

/-- Every item that is left out takes some weight with it. -/
theorem totalWeight_of_sublist {items others : List Item}
    (sublist : items.Sublist others) :
    ranking.totalWeight items + (others.length - items.length) ≤
      ranking.totalWeight others := by
  induction sublist with
  | slnil => exact le_refl _
  | @cons items others item sublist induction =>
      have positive := ranking.weight_pos item
      have split := ranking.totalWeight_append [item] others
      rw [totalWeight_singleton, List.singleton_append] at split
      rw [split, List.length_cons]
      omega
  | @cons_cons items others item sublist induction =>
      have split := ranking.totalWeight_append [item]
      simp only [totalWeight_singleton, List.singleton_append] at split
      rw [split, split, List.length_cons, List.length_cons]
      omega

/-- A move that makes nothing heavier and improves one of the sortings. -/
structure Permits (item passed moved left : Item) : Prop where
  weight :
    ranking.weight left + ranking.weight moved ≤
      ranking.weight item + ranking.weight passed
  sorts :
    ranking.first.Keeps item passed moved left ∧
      (ranking.first.forward item = true ∧
          ranking.first.backward passed = true ∨
        ranking.second.Keeps item passed moved left ∧
          ranking.second.forward item = true ∧
          ranking.second.backward passed = true)

instance (item passed moved left : Item) :
    Decidable (ranking.Permits item passed moved left) :=
  decidable_of_iff
    (ranking.weight left + ranking.weight moved ≤
        ranking.weight item + ranking.weight passed ∧
      ranking.first.Keeps item passed moved left ∧
        (ranking.first.forward item = true ∧
            ranking.first.backward passed = true ∨
          ranking.second.Keeps item passed moved left ∧
            ranking.second.forward item = true ∧
            ranking.second.backward passed = true))
    ⟨fun ⟨weight, sorts⟩ => ⟨weight, sorts⟩,
      fun permits => ⟨permits.weight, permits.sorts⟩⟩

/-- A list becomes lighter, or an item moves behind a later one. -/
inductive Step : List Item → List Item → Prop where
  | lighter {before after : List Item}
      (less : ranking.totalWeight after < ranking.totalWeight before) :
      Step before after
  | moves {item passed moved left : Item}
      (permitted : ranking.Permits item passed moved left)
      (lower between upper : List Item) :
      Step (lower ++ ([item] ++ (between ++ ([passed] ++ upper))))
        (lower ++ (between ++ ([left] ++ ([moved] ++ upper))))

/-- Any number of steps. -/
inductive Steps : ℕ → List Item → List Item → Prop where
  | none (items : List Item) : Steps 0 items items
  | more {count : ℕ} {first second third : List Item}
      (step : ranking.Step first second)
      (later : Steps count second third) : Steps (count + 1) first third

variable {ranking}

theorem Step.around {before after : List Item}
    (step : ranking.Step before after) (left right : List Item) :
    ranking.Step (left ++ (before ++ right)) (left ++ (after ++ right)) := by
  cases step with
  | lighter less =>
      apply Step.lighter
      simp only [totalWeight_append]
      omega
  | moves permitted lower between upper =>
      have moved :=
        Step.moves permitted (left ++ lower) between (upper ++ right)
      simpa only [List.append_assoc] using moved

namespace Steps

theorem single {before after : List Item}
    (step : ranking.Step before after) : ranking.Steps 1 before after :=
  .more step (.none after)

theorem trans {early late : ℕ} {first second third : List Item}
    (head : ranking.Steps early first second)
    (tail : ranking.Steps late second third) :
    ranking.Steps (early + late) first third := by
  induction head with
  | none => rwa [Nat.zero_add]
  | more step _ induction =>
      rw [Nat.add_right_comm]
      exact .more step (induction tail)

theorem around {count : ℕ} {before after : List Item}
    (steps : ranking.Steps count before after) (left right : List Item) :
    ranking.Steps count (left ++ (before ++ right))
      (left ++ (after ++ right)) := by
  induction steps with
  | none items => exact .none _
  | more step _ induction =>
      exact .more (step.around left right) induction

end Steps

/-! ## The bound -/

variable (ranking)

/-- The weight and the pairs that are out of order, as one number. -/
def potential (base : ℕ) (items : List Item) : ℕ :=
  (ranking.totalWeight items * base + ranking.first.inversions items) *
      base +
    ranking.second.inversions items

/-- More steps than this no list of the weight allows. -/
def bound (items : List Item) : ℕ :=
  ranking.potential (ranking.totalWeight items ^ 2 + 1) items

variable {ranking}

theorem inversions_lt {sorting : Sorting Item} {base : ℕ}
    {items : List Item} (large : ranking.totalWeight items ^ 2 < base) :
    sorting.inversions items < base :=
  lt_of_le_of_lt
    ((sorting.inversions_le items).trans
      (Nat.pow_le_pow_left (ranking.length_le_totalWeight items) 2))
    large

theorem Step.totalWeight_le {before after : List Item}
    (step : ranking.Step before after) :
    ranking.totalWeight after ≤ ranking.totalWeight before := by
  cases step with
  | lighter less => exact less.le
  | moves permitted lower between upper =>
      have weight := permitted.weight
      simp only [totalWeight_append, totalWeight_singleton]
      omega

/-- Two digits are compared before a third one. -/
theorem digits_lt {base high low high' low' : ℕ} (less : low' < base)
    (higher : high' < high) : high' * base + low' < high * base + low := by
  have next : (high' + 1) * base ≤ high * base :=
    Nat.mul_le_mul_right base higher
  linarith

theorem Step.potential_lt {before after : List Item} {base : ℕ}
    (step : ranking.Step before after)
    (large : ranking.totalWeight before ^ 2 < base) :
    ranking.potential base after < ranking.potential base before := by
  have weight := step.totalWeight_le
  have largeAfter : ranking.totalWeight after ^ 2 < base :=
    lt_of_le_of_lt (Nat.pow_le_pow_left weight 2) large
  have first : ranking.first.inversions after < base :=
    inversions_lt largeAfter
  have second : ranking.second.inversions after < base :=
    inversions_lt largeAfter
  unfold potential
  cases step with
  | lighter less => exact digits_lt second (digits_lt first less)
  | @moves item passed moved left permitted lower between upper =>
      have scaled := Nat.mul_le_mul_right base weight
      have firstMoved :=
        permitted.sorts.1.inversions_move lower between upper
      rcases permitted.sorts.2 with sorted | ⟨keeps, sorted⟩
      · rw [List.countP_singleton, List.countP_singleton, sorted.1,
          sorted.2] at firstMoved
        refine digits_lt second ?_
        simp only [if_true, mul_one] at firstMoved
        omega
      · have secondMoved := keeps.inversions_move lower between upper
        rw [List.countP_singleton, List.countP_singleton, sorted.1,
          sorted.2] at secondMoved
        simp only [if_true, mul_one] at secondMoved
        have high :=
          Nat.mul_le_mul_right base
            (add_le_add scaled ((Nat.le_add_right _ _).trans firstMoved))
        omega

theorem Steps.count_le_potential {count base : ℕ}
    {before after : List Item} (steps : ranking.Steps count before after)
    (large : ranking.totalWeight before ^ 2 < base) :
    count ≤ ranking.potential base before := by
  induction steps with
  | none => exact Nat.zero_le _
  | more step _ induction =>
      have less := step.potential_lt large
      have later :=
        induction
          (lt_of_le_of_lt (Nat.pow_le_pow_left step.totalWeight_le 2) large)
      omega

/-- No list allows more steps than its bound. -/
theorem Steps.count_le {count : ℕ} {before after : List Item}
    (steps : ranking.Steps count before after) :
    count ≤ ranking.bound before :=
  steps.count_le_potential (Nat.lt_succ_self _)

end Ranking

end MQSSPasses.General.SettlingMoves
