import Mathlib.Data.List.Perm.Basic
import Mathlib.Data.List.Perm.Subperm
import Mathlib.Tactic.Common

/-!
# Lists in which some items have been moved

A list is a reordering of another one, if both are what is kept and what is
moved, mixed in some way.  The kept items stand in the same order in both
lists, and what is moved is the same up to its order.

Reordering is transitive: what two reorderings keep is the common part of
what each of them keeps of the list between them.
-/

namespace MQSSPasses.General.Reordering

variable {Item : Type}

/-- The list consists of two lists in their orders, mixed. -/
inductive Mixes : List Item → List Item → List Item → Prop where
  | nil : Mixes [] [] []
  | keep (item : Item) {whole kept moved : List Item}
      (rest : Mixes whole kept moved) :
      Mixes (item :: whole) (item :: kept) moved
  | move (item : Item) {whole kept moved : List Item}
      (rest : Mixes whole kept moved) :
      Mixes (item :: whole) kept (item :: moved)

namespace Mixes

variable {whole kept moved : List Item}

/-- A list of which nothing is moved. -/
theorem all (items : List Item) : Mixes items items [] := by
  induction items with
  | nil => exact .nil
  | cons item items induction => exact .keep item induction

theorem perm (mixes : Mixes whole kept moved) :
    whole.Perm (kept ++ moved) := by
  induction mixes with
  | nil => exact .refl []
  | keep item rest induction => exact .cons item induction
  | move item rest induction =>
      exact (induction.cons item).trans List.perm_middle.symm

theorem append {first second firstKept secondKept : List Item}
    {firstMoved secondMoved : List Item}
    (left : Mixes first firstKept firstMoved)
    (right : Mixes second secondKept secondMoved) :
    Mixes (first ++ second) (firstKept ++ secondKept)
      (firstMoved ++ secondMoved) := by
  induction left with
  | nil => exact right
  | keep item rest induction => exact .keep item induction
  | move item rest induction => exact .move item induction

/-- One item somewhere in a list. -/
theorem single (lower : List Item) (item : Item) (upper : List Item) :
    Mixes (lower ++ item :: upper) (lower ++ upper) [item] :=
  (all lower).append (.move item (all upper))

/-- Keeping less of what is kept. -/
theorem trans {inner dropped : List Item}
    (mixes : Mixes whole kept moved) (less : Mixes kept inner dropped) :
    ∃ both, Mixes whole inner both ∧ both.Perm (moved ++ dropped) := by
  induction mixes generalizing inner dropped with
  | nil =>
      cases less
      exact ⟨[], .nil, .refl []⟩
  | keep item rest induction =>
      cases less with
      | keep _ less =>
          rcases induction less with ⟨both, mixes, same⟩
          exact ⟨both, .keep item mixes, same⟩
      | move _ less =>
          rcases induction less with ⟨both, mixes, same⟩
          exact ⟨item :: both, .move item mixes,
            (same.cons item).trans List.perm_middle.symm⟩
  | move item rest induction =>
      rcases induction less with ⟨both, mixes, same⟩
      exact ⟨item :: both, .move item mixes, same.cons item⟩

/-- The common part of what is kept in two ways. -/
theorem meet {otherKept otherMoved : List Item}
    (left : Mixes whole kept moved)
    (right : Mixes whole otherKept otherMoved) :
    ∃ common dropped otherDropped,
      Mixes kept common dropped ∧
        Mixes otherKept common otherDropped ∧
        dropped.Sublist otherMoved := by
  induction left generalizing otherKept otherMoved with
  | nil =>
      cases right
      exact ⟨[], [], [], .nil, .nil, .slnil⟩
  | keep item rest induction =>
      cases right with
      | keep _ right =>
          rcases induction right with
            ⟨common, dropped, otherDropped, first, second, inside⟩
          exact ⟨item :: common, dropped, otherDropped, .keep item first,
            .keep item second, inside⟩
      | move _ right =>
          rcases induction right with
            ⟨common, dropped, otherDropped, first, second, inside⟩
          exact ⟨common, item :: dropped, otherDropped, .move item first,
            second, .cons_cons item inside⟩
  | move item rest induction =>
      cases right with
      | keep _ right =>
          rcases induction right with
            ⟨common, dropped, otherDropped, first, second, inside⟩
          exact ⟨common, dropped, item :: otherDropped, first,
            .move item second, inside⟩
      | move _ right =>
          rcases induction right with
            ⟨common, dropped, otherDropped, first, second, inside⟩
          exact ⟨common, dropped, otherDropped, first, second,
            .cons item inside⟩

end Mixes

/--
The second list has the items of the first one, and all but the listed
moves stand in their order.
-/
def Reordered (moves before after : List Item) : Prop :=
  ∃ kept moved placed, Mixes before kept moved ∧
    Mixes after kept placed ∧ moved.Perm placed ∧ moved.Subperm moves

namespace Reordered

variable {moves before middle after : List Item}

theorem refl (items : List Item) : Reordered [] items items :=
  ⟨items, [], [], .all items, .all items, .refl [], .refl []⟩

theorem perm (reordered : Reordered moves before after) :
    after.Perm before := by
  rcases reordered with ⟨kept, moved, placed, first, second, same, -⟩
  exact second.perm.trans
    ((same.symm.append_left kept).trans first.perm.symm)

/-- One item is moved behind some others. -/
theorem move (item : Item) (lower between upper : List Item) :
    Reordered [item] (lower ++ item :: (between ++ upper))
      (lower ++ between ++ item :: upper) := by
  refine ⟨lower ++ between ++ upper, [item], [item], ?_,
    .single _ item upper, .refl _, .refl _⟩
  rw [List.append_assoc]
  exact .single lower item (between ++ upper)

theorem trans {otherMoves : List Item}
    (first : Reordered moves before middle)
    (second : Reordered otherMoves middle after) :
    Reordered (moves ++ otherMoves) before after := by
  rcases first with
    ⟨kept, moved, placed, beforeMixes, middleMixes, same, each⟩
  rcases second with
    ⟨otherKept, otherMoved, otherPlaced, otherMixes, afterMixes, otherSame,
      otherEach⟩
  rcases middleMixes.meet otherMixes with
    ⟨common, dropped, otherDropped, less, otherLess, inside⟩
  rcases beforeMixes.trans less with ⟨left, leftMixes, leftMoved⟩
  rcases afterMixes.trans otherLess with ⟨right, rightMixes, rightMoved⟩
  rcases middleMixes.trans less with ⟨inner, innerMixes, innerMoved⟩
  rcases otherMixes.trans otherLess with ⟨outer, outerMixes, outerMoved⟩
  refine ⟨common, left, right, leftMixes, rightMixes, ?_, ?_⟩
  · -- Both complements of the common part of the middle list are the same.
    have complements : inner.Perm outer :=
      (List.perm_append_left_iff common).mp
        (innerMixes.perm.symm.trans outerMixes.perm)
    calc
      List.Perm left (moved ++ dropped) := leftMoved
      List.Perm _ (placed ++ dropped) := same.append_right dropped
      List.Perm _ inner := innerMoved.symm
      List.Perm _ outer := complements
      List.Perm _ (otherMoved ++ otherDropped) := outerMoved
      List.Perm _ (otherPlaced ++ otherDropped) :=
        otherSame.append_right otherDropped
      List.Perm _ right := rightMoved.symm
  · have listed : (moved ++ dropped).Subperm (moves ++ otherMoves) :=
      each.append (inside.subperm.trans otherEach)
    exact leftMoved.subperm.trans listed

end Reordered

end MQSSPasses.General.Reordering
