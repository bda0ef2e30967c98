import MQSSPasses.General.TopologicalOrders

/-!
# Exchanging independent neighbours

Two neighbours of a list that are independent may be exchanged.  Lists with
the same items can be turned into each other by such exchanges as soon as
only independent items stand in them in different orders.  In particular
the topological orders of a graph are exchanged into each other, if items
that are not independent lie on a common path.
-/

namespace MQSSPasses.General.IndependentExchanges

open MQSSPasses.General.TopologicalOrders

variable {Item Letter : Type}

/-- One exchange of two independent neighbours. -/
inductive Exchange (apart : Item → Item → Prop) :
    List Item → List Item → Prop where
  | swap (front : List Item) (first second : Item) (back : List Item)
      (independent : apart first second) :
      Exchange apart (front ++ first :: second :: back)
        (front ++ second :: first :: back)

/-- Any number of exchanges. -/
def Exchanges (apart : Item → Item → Prop) :
    List Item → List Item → Prop :=
  Relation.ReflTransGen (Exchange apart)

variable {apart : Item → Item → Prop}

theorem Exchange.perm {items others : List Item}
    (exchange : Exchange apart items others) : items.Perm others := by
  cases exchange with
  | swap front first second back independent =>
      exact (List.Perm.swap second first back).append_left front

theorem Exchanges.perm {items others : List Item}
    (exchanges : Exchanges apart items others) : items.Perm others := by
  induction exchanges with
  | refl => exact .refl items
  | tail _ step induction => exact induction.trans step.perm

theorem Exchanges.cons (item : Item) {items others : List Item}
    (exchanges : Exchanges apart items others) :
    Exchanges apart (item :: items) (item :: others) := by
  induction exchanges with
  | refl => exact .refl
  | tail _ step induction =>
      refine induction.tail ?_
      cases step with
      | swap front first second back independent =>
          exact .swap (item :: front) first second back independent

/-- An item moves back past items it is independent of. -/
theorem Exchanges.move_back (item : Item) {lower upper : List Item}
    (independent : ∀ other ∈ lower, apart item other) :
    Exchanges apart (item :: (lower ++ upper)) (lower ++ item :: upper) := by
  induction lower with
  | nil => exact .refl
  | cons other lower induction =>
      rw [List.forall_mem_cons] at independent
      exact .head (.swap [] item other (lower ++ upper) independent.1)
        ((induction independent.2).cons other)

/-- Items which change their order are exchanged if they are independent. -/
theorem exchanges_of_perm {items others : List Item}
    (same : items.Perm others)
    (independent :
      ∀ item other, Before items item other → Before others other item →
        apart item other) :
    Exchanges apart items others := by
  induction items generalizing others with
  | nil =>
      rw [List.nil_perm.mp same]
      exact .refl
  | cons item rest induction =>
      rcases List.append_of_mem (same.subset List.mem_cons_self) with
        ⟨lower, upper, rfl⟩
      have remaining : rest.Perm (lower ++ upper) :=
        (same.trans List.perm_middle).cons_inv
      have fewer : (lower ++ upper).Sublist (lower ++ item :: upper) :=
        (List.sublist_cons_self item upper).append_left lower
      have reordered : Exchanges apart rest (lower ++ upper) :=
        induction remaining fun one other before behind =>
          independent one other (before_cons.mpr (.inr before))
            (behind.mono fewer)
      refine (reordered.cons item).trans (Exchanges.move_back item ?_)
      -- The item was first, so all of the lower items were behind it.
      intro other member
      refine independent item other ?_ ?_
      · exact before_cons.mpr (.inl
          ⟨rfl, remaining.symm.subset (List.mem_append_left _ member)⟩)
      · exact (List.singleton_sublist.mpr member).append
          (List.singleton_sublist.mpr List.mem_cons_self)

/-- What is read from the items is exchanged with them. -/
theorem Exchanges.filterMap {away : Letter → Letter → Prop}
    (read : Item → Option Letter)
    (keeps :
      ∀ item other, apart item other →
        ∀ letter ∈ read item, ∀ further ∈ read other, away letter further)
    {items others : List Item} (exchanges : Exchanges apart items others) :
    Exchanges away (items.filterMap read) (others.filterMap read) := by
  induction exchanges with
  | refl => exact .refl
  | tail _ step induction =>
      refine Relation.ReflTransGen.trans induction ?_
      cases step with
      | swap front first second back independent =>
          have independentLetters := keeps first second independent
          rw [List.filterMap_append, List.filterMap_append]
          cases readFirst : read first with
          | none =>
              rw [List.filterMap_cons_none readFirst]
              cases readSecond : read second with
              | none =>
                  rw [List.filterMap_cons_none readSecond,
                    List.filterMap_cons_none readSecond,
                    List.filterMap_cons_none readFirst]
              | some letter =>
                  rw [List.filterMap_cons_some readSecond,
                    List.filterMap_cons_some readSecond,
                    List.filterMap_cons_none readFirst]
          | some letter =>
              rw [List.filterMap_cons_some readFirst]
              cases readSecond : read second with
              | none =>
                  rw [List.filterMap_cons_none readSecond,
                    List.filterMap_cons_none readSecond,
                    List.filterMap_cons_some readFirst]
              | some further =>
                  rw [List.filterMap_cons_some readSecond,
                    List.filterMap_cons_some readSecond,
                    List.filterMap_cons_some readFirst]
                  exact .single (.swap _ letter further _
                    (independentLetters letter readFirst further readSecond))

/-- Exchanging items that commute does not change the product. -/
theorem Exchanges.composite_eq {M : Type} [Monoid M] {act : Item → M}
    {items others : List Item}
    (commutes :
      ∀ item ∈ items, ∀ other ∈ items, apart item other →
        Commute (act item) (act other))
    (exchanges : Exchanges apart items others) :
    composite act items = composite act others := by
  induction exchanges with
  | refl => rfl
  | tail before step induction =>
      rw [induction]
      have same : items.Perm _ := Exchanges.perm before
      cases step with
      | swap front first second back independent =>
          have commute : Commute (act first) (act second) :=
            commutes first (same.symm.subset (by simp)) second
              (same.symm.subset (by simp)) independent
          rw [composite_append, composite_append, composite_cons,
            composite_cons, composite_cons, composite_cons, mul_assoc,
            mul_assoc, mul_assoc, mul_assoc, ← mul_assoc (act second),
            ← mul_assoc (act first), commute.eq]

/-- Topological orders are exchanged into each other. -/
theorem exchanges_of_topologicalOrder {edges : List (Item × Item)}
    {vertices order : List Item}
    (topological : IsTopologicalOrder edges vertices order)
    (nodup : vertices.Nodup)
    (linked :
      ∀ first second, Before vertices first second →
        apart first second ∨
          ∃ path, IsPath edges path ∧ path ⊆ vertices ∧
            Before path first second) :
    Exchanges apart vertices order := by
  refine exchanges_of_perm topological.same.symm ?_
  intro first second before behind
  rcases linked first second before with
    independent | ⟨path, isPath, listed, on⟩
  · exact independent
  · have distinct : order.Nodup := topological.same.nodup_iff.mpr nodup
    have forward := topological.before_of_path nodup isPath listed on
    exact (forward.asymm distinct behind).elim

end MQSSPasses.General.IndependentExchanges
