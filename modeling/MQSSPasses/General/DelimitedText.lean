import Mathlib.Data.List.Basic
import Mathlib.Tactic.Common

/-!
# Texts with delimiters

A text that is put together from items determines its items if what stands
between them has a mark that no item contains: the first mark of the text
ends the first item.
-/

namespace MQSSPasses.General.DelimitedText

variable {Token : Type}

/-! ## The first mark -/

/-- A part without marks ends where the marks begin. -/
theorem split_before_marks {IsMark : Token → Prop}
    {early late before after : List Token}
    (clean : ∀ token ∈ early, ¬ IsMark token)
    (otherClean : ∀ token ∈ before, ¬ IsMark token)
    (marked : ∀ token ∈ late.head?, IsMark token)
    (otherMarked : ∀ token ∈ after.head?, IsMark token)
    (equal : early ++ late = before ++ after) :
    early = before ∧ late = after := by
  induction early generalizing before with
  | nil =>
      cases before with
      | nil => exact ⟨rfl, equal⟩
      | cons token rest =>
          rw [List.nil_append] at equal
          refine absurd (marked token ?_)
            (otherClean token List.mem_cons_self)
          rw [equal]
          rfl
  | cons first early induction =>
      cases before with
      | nil =>
          rw [List.nil_append] at equal
          refine absurd (otherMarked first ?_)
            (clean first List.mem_cons_self)
          rw [← equal]
          rfl
      | cons token rest =>
          rw [List.forall_mem_cons] at clean otherClean
          rcases List.cons.inj equal with ⟨same, later⟩
          rcases induction clean.2 otherClean.2 later with ⟨rfl, rest⟩
          exact ⟨by rw [same], rest⟩

/-- What stands before the first mark, and what stands behind it. -/
theorem split_at_mark {mark : Token} {early late before after : List Token}
    (clean : mark ∉ early) (otherClean : mark ∉ before)
    (equal : early ++ mark :: late = before ++ mark :: after) :
    early = before ∧ late = after := by
  have split :=
    @split_before_marks Token (· = mark) early (mark :: late) before
      (mark :: after) (fun _ member same => clean (same ▸ member))
      (fun _ member same => otherClean (same ▸ member))
      (by simp) (by simp) equal
  exact ⟨split.1, (List.cons.inj split.2).2⟩

/-! ## Items with a separator -/

section Separator

variable {mark : Token} {before after : List Token}

theorem mark_mem_intercalate {item next : List Token}
    {rest : List (List Token)} :
    mark ∈
      List.intercalate (before ++ mark :: after) (item :: next :: rest) := by
  rw [List.intercalate_cons_cons]
  simp

/-- What stands in a text is in the separator or in an item. -/
theorem mem_of_mem_intercalate {separator : List Token}
    {items : List (List Token)} {token : Token}
    (member : token ∈ List.intercalate separator items) :
    token ∈ separator ∨ ∃ item ∈ items, token ∈ item := by
  induction items with
  | nil => cases member
  | cons item rest induction =>
      rcases rest with - | ⟨next, later⟩
      · rw [List.intercalate_singleton] at member
        exact .inr ⟨item, List.mem_cons_self, member⟩
      · rw [List.intercalate_cons_cons, List.mem_append,
          List.mem_append] at member
        rcases member with (here | between) | behind
        · exact .inr ⟨item, List.mem_cons_self, here⟩
        · exact .inl between
        · refine (induction behind).imp id ?_
          rintro ⟨other, inside, there⟩
          exact ⟨other, List.mem_cons_of_mem _ inside, there⟩

/-- A text with a separator determines the items between them. -/
theorem intercalate_inj (early : mark ∉ before)
    {items others : List (List Token)}
    (clean : ∀ item ∈ items, mark ∉ item)
    (otherClean : ∀ item ∈ others, mark ∉ item)
    (nonempty : items ≠ []) (otherNonempty : others ≠ [])
    (equal :
      List.intercalate (before ++ mark :: after) items =
        List.intercalate (before ++ mark :: after) others) :
    items = others := by
  induction items generalizing others with
  | nil => exact absurd rfl nonempty
  | cons item rest induction =>
      cases others with
      | nil => exact absurd rfl otherNonempty
      | cons other otherRest =>
          rw [List.forall_mem_cons] at clean otherClean
          rcases rest with - | ⟨next, later⟩
          · rcases otherRest with - | ⟨otherNext, otherLater⟩
            · simpa using equal
            · rw [List.intercalate_singleton] at equal
              refine absurd ?_ clean.1
              rw [equal]
              exact mark_mem_intercalate
          · rcases otherRest with - | ⟨otherNext, otherLater⟩
            · rw [List.intercalate_singleton] at equal
              refine absurd ?_ otherClean.1
              rw [← equal]
              exact mark_mem_intercalate
            · have regrouped (item text : List Token) :
                  item ++ (before ++ mark :: after) ++ text =
                    item ++ before ++ mark :: (after ++ text) := by
                simp only [List.append_assoc, List.cons_append]
              rw [List.intercalate_cons_cons, List.intercalate_cons_cons,
                regrouped, regrouped] at equal
              rcases split_at_mark (by simp [clean.1, early])
                (by simp [otherClean.1, early]) equal with
                ⟨same, continued⟩
              rw [List.append_cancel_right same,
                induction clean.2 otherClean.2 (List.cons_ne_nil _ _)
                  (List.cons_ne_nil _ _)
                  (List.append_cancel_left continued)]

end Separator

/-! ## Items from their texts -/

/-- Items are determined by their texts if each of them is. -/
theorem map_inj_of {Item Text : Type} {text : Item → Text}
    {items others : List Item}
    (each :
      ∀ item ∈ items, ∀ other ∈ others, text item = text other →
        item = other)
    (equal : items.map text = others.map text) : items = others := by
  induction items generalizing others with
  | nil => exact (List.map_eq_nil_iff.mp equal.symm).symm
  | cons item rest induction =>
      rcases others with - | ⟨other, otherRest⟩
      · cases equal
      · rcases List.cons.inj equal with ⟨same, later⟩
        rw [each item List.mem_cons_self other List.mem_cons_self same,
          induction
            (fun one inside another there =>
              each one (List.mem_cons_of_mem _ inside) another
                (List.mem_cons_of_mem _ there))
            later]

end MQSSPasses.General.DelimitedText
