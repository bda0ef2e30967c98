import Mathlib.Data.List.Forall2
import MQSSPasses.General.TracedComputation

/-!
# Updating the items of a list in any order

A loop that may run in parallel updates some items of a list, each in its
place and from nothing but itself.  The order in which it comes to them does
not matter: if the loop ends without a fault, every chosen item has been
updated once, and the others are as they were.
-/

namespace MQSSPasses.General.IndependentUpdates

open MQSSPasses.General.TracedComputation

variable {Item Fault : Type}

/-- Update the items at some positions, one after the other. -/
def updateAt (outside : Fault) (step : Item → Except Fault Item) :
    List ℕ → List Item → Except Fault (List Item)
  | [], items => return items
  | position :: later, items =>
      match items[position]? with
      | none => throw outside
      | some item => do
          let updated ← step item
          updateAt outside step later (items.set position updated)

/-- The positions of the items with a property. -/
def positionsOf (chosen : Item → Bool) (items : List Item) : List ℕ :=
  (List.range items.length).filter fun position =>
    items[position]?.any chosen

theorem mem_positionsOf {chosen : Item → Bool} {items : List Item}
    {position : ℕ} :
    position ∈ positionsOf chosen items ↔
      ∃ item, items[position]? = some item ∧ chosen item = true := by
  rw [positionsOf, List.mem_filter, List.mem_range, Option.any_eq_true]
  constructor
  · exact And.right
  · rintro ⟨item, found, isChosen⟩
    exact ⟨(List.getElem?_eq_some_iff.mp found).1, item, found, isChosen⟩

theorem positionsOf_nodup (chosen : Item → Bool) (items : List Item) :
    (positionsOf chosen items).Nodup :=
  List.nodup_range.filter _

/-- Updates that keep the property keep the positions. -/
theorem positionsOf_congr {chosen : Item → Bool} {items results : List Item}
    (same :
      List.Forall₂ (fun item result => chosen result = chosen item) items
        results) :
    positionsOf chosen results = positionsOf chosen items := by
  rw [positionsOf, positionsOf, same.length_eq]
  refine List.filter_congr fun position _ => ?_
  rw [List.forall₂_iff_get] at same
  by_cases before : position < items.length
  · have after : position < results.length := same.1 ▸ before
    rw [List.getElem?_eq_getElem before, List.getElem?_eq_getElem after]
    exact same.2 position before after
  · rw [List.getElem?_eq_none (by omega), List.getElem?_eq_none (by omega)]

/-! ## The loop -/

/-- What is to become of the item at a position. -/
def Updated (step : Item → Except Fault Item) (positions : List ℕ)
    (position : ℕ) (item result : Item) : Prop :=
  if position ∈ positions then step item = .ok result else result = item

/-- Two lists that are related position by position. -/
def Pointwise (relation : ℕ → Item → Item → Prop)
    (items results : List Item) : Prop :=
  results.length = items.length ∧
    ∀ position item, items[position]? = some item →
      ∃ result, results[position]? = some result ∧
        relation position item result

theorem pointwise_eq_iff {items results : List Item} :
    Pointwise (fun _ item result => result = item) items results ↔
      results = items := by
  constructor
  · rintro ⟨length, same⟩
    refine List.ext_getElem? fun position => ?_
    cases found : items[position]? with
    | none =>
        rw [List.getElem?_eq_none_iff] at found ⊢
        omega
    | some item =>
        rcases same position item found with ⟨result, there, rfl⟩
        exact there
  · rintro rfl
    exact ⟨rfl, fun position item found => ⟨item, found, rfl⟩⟩

/-- One item is updated, and it is not updated again. -/
theorem pointwise_set {step : Item → Except Fault Item}
    {first : ℕ} {later : List ℕ} (fresh : first ∉ later)
    {items results : List Item} {item updated : Item}
    (found : items[first]? = some item)
    (stepped : step item = .ok updated)
    (rest :
      Pointwise (Updated step later) (items.set first updated) results) :
    Pointwise (Updated step (first :: later)) items results := by
  have inside := (List.getElem?_eq_some_iff.mp found).1
  refine ⟨rest.1.trans (List.length_set ..), ?_⟩
  intro position other there
  by_cases same : position = first
  · subst same
    rw [found, Option.some.injEq] at there
    subst there
    rcases rest.2 position updated (List.getElem?_set_self inside) with
      ⟨result, placed, kept⟩
    rw [Updated, if_neg fresh] at kept
    refine ⟨result, placed, ?_⟩
    rw [Updated, if_pos List.mem_cons_self, kept]
    exact stepped
  · have unchanged : (items.set first updated)[position]? = some other := by
      rw [List.getElem?_set_ne (Ne.symm same)]
      exact there
    rcases rest.2 position other unchanged with ⟨result, placed, done⟩
    refine ⟨result, placed, ?_⟩
    simpa [Updated, same] using done

theorem pointwise_of_cons {step : Item → Except Fault Item}
    {first : ℕ} {later : List ℕ} (fresh : first ∉ later)
    {items results : List Item} {item : Item}
    (found : items[first]? = some item)
    (all : Pointwise (Updated step (first :: later)) items results) :
    ∃ updated, step item = .ok updated ∧
      Pointwise (Updated step later) (items.set first updated)
        results := by
  have inside := (List.getElem?_eq_some_iff.mp found).1
  rcases all.2 first item found with ⟨updated, placed, stepped⟩
  rw [Updated, if_pos List.mem_cons_self] at stepped
  refine ⟨updated, stepped, all.1.trans (List.length_set ..).symm, ?_⟩
  intro position other there
  by_cases same : position = first
  · subst same
    rw [List.getElem?_set_self inside, Option.some.injEq] at there
    subst there
    refine ⟨updated, placed, ?_⟩
    rw [Updated, if_neg fresh]
  · rw [List.getElem?_set_ne (Ne.symm same)] at there
    rcases all.2 position other there with ⟨result, found, done⟩
    refine ⟨result, found, ?_⟩
    simpa [Updated, same] using done

/-- What the loop does at every position. -/
theorem updateAt_eq_ok_iff {outside : Fault}
    {step : Item → Except Fault Item} {positions : List ℕ}
    (distinct : positions.Nodup) {items results : List Item}
    (inside : ∀ position ∈ positions, position < items.length) :
    updateAt outside step positions items = .ok results ↔
      Pointwise (Updated step positions) items results := by
  induction positions generalizing items with
  | nil =>
      have unchanged :
          Updated step [] =
            (fun _ item result => result = item : ℕ → Item → Item → Prop) :=
        rfl
      rw [updateAt, unchanged, pointwise_eq_iff]
      constructor
      · rintro ⟨⟩
        rfl
      · rintro rfl
        rfl
  | cons first later induction =>
      rw [List.nodup_cons] at distinct
      rw [List.forall_mem_cons] at inside
      have found : items[first]? = some (items.get ⟨first, inside.1⟩) :=
        List.getElem?_eq_getElem inside.1
      have onward (updated : Item) :
          updateAt outside step later (items.set first updated) =
              .ok results ↔
            Pointwise (Updated step later) (items.set first updated)
              results := by
        apply induction distinct.2
        rw [List.length_set]
        exact inside.2
      rw [updateAt, found]
      dsimp only
      rw [except_bind_eq_ok]
      constructor
      · rintro ⟨updated, stepped, returned⟩
        exact pointwise_set distinct.1 found stepped
          ((onward updated).mp returned)
      · intro all
        rcases pointwise_of_cons distinct.1 found all with
          ⟨updated, stepped, rest⟩
        exact ⟨updated, stepped, (onward updated).mpr rest⟩

/--
In whatever order the loop comes to the chosen items, it updates each of
them once and keeps the others.
-/
theorem updateAt_of_perm {outside : Fault}
    {step : Item → Except Fault Item} {chosen : Item → Bool}
    {positions : List ℕ} {items results : List Item}
    (order : positions.Perm (positionsOf chosen items)) :
    updateAt outside step positions items = .ok results ↔
      List.Forall₂
        (fun item result =>
          if chosen item then step item = .ok result else result = item)
        items results := by
  have distinct : positions.Nodup :=
    order.nodup_iff.mpr (positionsOf_nodup chosen items)
  have inside : ∀ position ∈ positions, position < items.length := by
    intro position member
    rcases mem_positionsOf.mp (order.mem_iff.mp member) with
      ⟨item, found, -⟩
    exact (List.getElem?_eq_some_iff.mp found).1
  have decided {position : ℕ} {item : Item}
      (found : items[position]? = some item) (result : Item) :
      Updated step positions position item result ↔
        if chosen item then step item = .ok result else result = item := by
    have isChosen : position ∈ positions ↔ chosen item = true := by
      rw [order.mem_iff, mem_positionsOf, found]
      simp
    rw [Updated]
    simp only [isChosen]
  rw [updateAt_eq_ok_iff distinct inside, List.forall₂_iff_get]
  constructor
  · rintro ⟨length, each⟩
    refine ⟨length.symm, fun position before after => ?_⟩
    have found := List.getElem?_eq_getElem before
    rcases each position _ found with ⟨result, placed, done⟩
    rw [List.getElem?_eq_getElem after, Option.some.injEq] at placed
    rw [decided found, ← placed] at done
    exact done
  · rintro ⟨length, each⟩
    refine ⟨length.symm, fun position item found => ?_⟩
    rcases List.getElem?_eq_some_iff.mp found with ⟨before, rfl⟩
    have after : position < results.length := length ▸ before
    exact ⟨_, List.getElem?_eq_getElem after,
      (decided found _).mpr (each position before after)⟩

/-! ## Lists related item by item -/

theorem forall₂_eq_iff {items results : List Item} :
    List.Forall₂ (fun item result => result = item) items results ↔
      results = items := by
  constructor
  · intro same
    induction same with
    | nil => rfl
    | cons here _ induction => rw [here, induction]
  · rintro rfl
    exact List.forall₂_same.mpr fun _ _ => rfl

/-- Relations one after the other, through the items of a third list. -/
theorem forall₂_through {first second : Item → Item → Prop}
    {items results : List Item} :
    List.Forall₂ (fun item result =>
        ∃ middle, first item middle ∧ second middle result) items results ↔
      ∃ middles, List.Forall₂ first items middles ∧
        List.Forall₂ second middles results := by
  constructor
  · intro related
    induction related with
    | nil => exact ⟨[], .nil, .nil⟩
    | cons here _ induction =>
        rcases here with ⟨middle, before, after⟩
        rcases induction with ⟨middles, early, late⟩
        exact ⟨middle :: middles, .cons before early, .cons after late⟩
  · rintro ⟨middles, early, late⟩
    induction early generalizing results with
    | nil =>
        cases late
        exact .nil
    | cons before _ induction =>
        cases late with
        | cons after rest => exact .cons ⟨_, before, after⟩ (induction rest)

end MQSSPasses.General.IndependentUpdates
