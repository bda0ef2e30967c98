import Mathlib.Tactic.Common

/-!
# Replacing a pattern in a text

The library's replacement searches a text by positions and collects what
lies between the matches.  Here the result is described character by
character: the leftmost match is replaced, and the search goes on behind
it.
-/

namespace MQSSPasses.General.TextReplacement

open String.Slice.Pattern
open String.Slice.Pattern.Model

/-! ## Replacing in a list of characters -/

/-- Replace a pattern from the left; some characters are left out first. -/
def replaced (pattern replacement : List Char) : ℕ → List Char → List Char
  | _, [] => []
  | skipped + 1, _ :: rest => replaced pattern replacement skipped rest
  | 0, first :: rest =>
      if pattern <+: first :: rest then
        replacement ++
          replaced pattern replacement (pattern.length - 1) rest
      else first :: replaced pattern replacement 0 rest

section Characters

variable {pattern replacement : List Char}

theorem replaced_skip (skipped rest : List Char) :
    replaced pattern replacement skipped.length (skipped ++ rest) =
      replaced pattern replacement 0 rest := by
  induction skipped with
  | nil => rfl
  | cons first skipped induction =>
      rw [List.length_cons, List.cons_append, replaced, induction]

theorem replaced_match (nonempty : pattern ≠ []) (rest : List Char) :
    replaced pattern replacement 0 (pattern ++ rest) =
      replacement ++ replaced pattern replacement 0 rest := by
  cases pattern with
  | nil => exact absurd rfl nonempty
  | cons first others =>
      have matched : first :: others <+: first :: (others ++ rest) :=
        List.prefix_append (first :: others) rest
      rw [List.cons_append, replaced, if_pos matched, List.length_cons,
        Nat.add_sub_cancel, replaced_skip]

theorem replaced_mismatch {kept rest : List Char}
    (apart :
      ∀ before first after, kept = before ++ first :: after →
        ¬ pattern <+: first :: after ++ rest) :
    replaced pattern replacement 0 (kept ++ rest) =
      kept ++ replaced pattern replacement 0 rest := by
  induction kept with
  | nil => rfl
  | cons first kept induction =>
      have fails : ¬ pattern <+: first :: (kept ++ rest) :=
        apart [] first kept rfl
      rw [List.cons_append, replaced, if_neg fails, induction,
        List.cons_append]
      intro before other after split
      exact apart (first :: before) other after (by rw [split]; rfl)

end Characters

/-! ## The search of the library -/

/-- What one step of the search adds to the text. -/
def replaceStep (replacement : String) {text : String.Slice}
    (sofar : String) : SearchStep text → String
  | .matched _ _ => sofar ++ String.ToSlice.toSlice replacement
  | .rejected start stop => sofar ++ text.slice! start stop

section Search

variable {pattern replacement : String} {text : String.Slice}

theorem slice!_copy {start stop : text.Pos} {before mid after : String}
    (splitsStart : start.Splits before (mid ++ after))
    (splitsStop : stop.Splits (before ++ mid) after) :
    (text.slice! start stop).copy = mid := by
  rcases String.Slice.copy_slice_eq_iff_splits.mpr
    ⟨before, after, splitsStart, splitsStop⟩ with ⟨ordered, equal⟩
  rw [String.Slice.slice!, dif_pos ordered, equal]

/-- No match begins in a part that the search rejects. -/
theorem apart_of_rejected {start stop : text.Pos}
    {before mid after : String}
    (splitsStart : start.Splits before (mid ++ after))
    (splitsStop : stop.Splits (before ++ mid) after)
    (rejected :
      ∀ pos, start ≤ pos → pos < stop → ¬ MatchesAt pattern pos)
    (early : List Char) (first : Char) (late : List Char)
    (split : mid.toList = early ++ first :: late) :
    ¬ pattern.toList <+: first :: late ++ after.toList := by
  rintro ⟨rest, equal⟩
  have whole :
      text.copy =
        before ++ String.ofList early ++
          (pattern ++ String.ofList rest) := by
    rw [splitsStart.eq_append]
    apply String.toList_inj.mp
    simp only [String.toList_append, String.toList_ofList, split,
      List.append_assoc, equal]
  have splits := String.Slice.Pos.splits_ofEqAppend whole
  refine rejected (String.Slice.Pos.ofEqAppend whole) ?_ ?_
    (ForwardStringSearcher.matchesAt_iff_splits.mpr ⟨_, _, splits⟩)
  · refine (splitsStart.le_iff_exists_eq_append splits).mpr
      ⟨String.ofList early, rfl, ?_⟩
    apply String.toList_inj.mp
    simp only [String.toList_append, String.toList_ofList, split,
      List.append_assoc, equal]
  · refine (splits.lt_iff_exists_eq_append splitsStop).mpr
      ⟨String.ofList (first :: late), ?_, ?_, ?_⟩
    · intro none
      have chars := congrArg String.toList none
      rw [String.toList_ofList] at chars
      cases chars
    · apply String.toList_inj.mp
      simp only [String.toList_append, String.toList_ofList, split,
        List.append_assoc]
    · apply String.toList_inj.mp
      simp only [String.toList_append, String.toList_ofList, equal]

theorem search_replaces (nonempty : pattern ≠ "") {start : text.Pos}
    {steps : List (SearchStep text)}
    (valid : IsValidSearchFrom pattern start steps)
    {before after : String} (splits : start.Splits before after)
    (sofar : String) :
    (steps.foldl (replaceStep replacement) sofar).toList =
      sofar.toList ++
        replaced pattern.toList replacement.toList 0 after.toList := by
  have hasChars : pattern.toList ≠ [] := by
    intro none
    exact nonempty (String.toList_inj.mp none)
  induction valid generalizing before after sofar with
  | endPos =>
      have ended : after = "" :=
        splits.eq_right (String.Slice.splits_endPos text)
      rw [ended]
      exact (List.append_nil _).symm
  | matched matches_ _ induction =>
      rcases ForwardStringSearcher.isLongestMatchAt_iff_splits.mp
        matches_ with ⟨early, late, splitsStart, splitsStop⟩
      rw [List.foldl_cons, induction splitsStop,
        splits.eq_right splitsStart, String.toList_append,
        replaced_match hasChars, ← List.append_assoc]
      congr 1
      rw [replaceStep, String.appendSlice_eq, String.toList_append]
      exact congrArg (sofar.toList ++ String.toList ·)
        String.copy_toSlice
  | @mismatched _ start stop ordered rejected _ induction =>
      rcases (splits.lt_iff_exists_eq_append stop.splits).mp ordered with
        ⟨mid, -, early, rfl⟩
      have splitsStop := stop.splits
      rw [early] at splitsStop
      rw [List.foldl_cons, induction splitsStop, String.toList_append,
        replaced_mismatch
          (apart_of_rejected splits splitsStop rejected),
        ← List.append_assoc]
      congr 1
      rw [replaceStep, String.appendSlice_eq,
        slice!_copy splits splitsStop, String.toList_append]

end Search

/-- Replacing a pattern in a text, character by character. -/
theorem toList_replace {pattern : String} (nonempty : pattern ≠ "")
    (text replacement : String) :
    (text.replace pattern replacement).toList =
      replaced pattern.toList replacement.toList 0 text.toList := by
  have valid :=
    (ForwardStringSearcher.lawfulToForwardSearcherModel
      nonempty).isValidSearchFrom_toList text.toSlice
  have folded :
      text.replace pattern replacement =
        (ToForwardSearcher.toSearcher pattern text.toSlice).toList.foldl
          (replaceStep replacement) "" := by
    rw [Std.Iter.foldl_toList, String.replace, String.Slice.replace]
    congr 1
    funext sofar step
    cases step <;> rfl
  rw [folded, search_replaces nonempty valid
    (String.Slice.splits_startPos _)]
  simp

example :
    ("phased_rx".replace "phased_" "p").toList = ['p', 'r', 'x'] := by
  rw [toList_replace (by decide)]
  decide

end MQSSPasses.General.TextReplacement
