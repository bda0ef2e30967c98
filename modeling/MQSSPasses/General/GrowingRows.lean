import Mathlib.Data.Int.Basic
import Mathlib.Data.List.Count
import Mathlib.Tactic.Common

/-!
# Rows that grow at their ends

A drawing is kept as a list of rows, and cells are appended to single rows
by their places, which may be out of range.  What a sequence of insertions
does is described by the cells it adds to each row: additions compose row
by row, and the rows stay equally long exactly if each row is given the
same number of cells.
-/

namespace MQSSPasses.General.GrowingRows

variable {Cell : Type}

/-- Append cells to every row. -/
def extend (rows : List (List Cell)) (added : ℕ → List Cell) :
    List (List Cell) :=
  rows.mapIdx fun place row => row ++ added place

/-- A place of a row. -/
def InRange (rows : List (List Cell)) (place : ℤ) : Prop :=
  0 ≤ place ∧ place < rows.length

instance (rows : List (List Cell)) (place : ℤ) :
    Decidable (InRange rows place) :=
  inferInstanceAs (Decidable (_ ∧ _))

/-- Append a cell to the row at a place, if there is one. -/
def pushAt (rows : List (List Cell)) (place : ℤ) (cell : Cell) :
    Option (List (List Cell)) :=
  if InRange rows place then
    some (rows.modify place.toNat fun row => row ++ [cell])
  else none

/-- Append cells to the rows at a list of places, one after the other. -/
def pushEach (cell : ℤ → Cell) (places : List ℤ)
    (rows : List (List Cell)) : Option (List (List Cell)) :=
  places.foldlM (fun rows place => pushAt rows place (cell place)) rows

@[simp]
theorem length_extend (rows : List (List Cell)) (added : ℕ → List Cell) :
    (extend rows added).length = rows.length :=
  List.length_mapIdx

theorem getElem?_extend (rows : List (List Cell))
    (added : ℕ → List Cell) (place : ℕ) :
    (extend rows added)[place]? =
      rows[place]?.map fun row => row ++ added place :=
  List.getElem?_mapIdx

theorem extend_nil (rows : List (List Cell)) :
    extend rows (fun _ => []) = rows := by
  refine List.ext_getElem? fun place => ?_
  rw [getElem?_extend]
  simp

theorem extend_extend (rows : List (List Cell))
    (first second : ℕ → List Cell) :
    extend (extend rows first) second =
      extend rows fun place => first place ++ second place := by
  refine List.ext_getElem? fun place => ?_
  rw [getElem?_extend, getElem?_extend, getElem?_extend, Option.map_map]
  congr 1
  funext row
  exact List.append_assoc _ _ _

theorem extend_congr {rows : List (List Cell)}
    {first second : ℕ → List Cell}
    (same : ∀ place < rows.length, first place = second place) :
    extend rows first = extend rows second := by
  refine List.ext_getElem? fun place => ?_
  rw [getElem?_extend, getElem?_extend]
  by_cases inside : place < rows.length
  · rw [same place inside]
  · rw [List.getElem?_eq_none (Nat.le_of_not_lt inside)]
    rfl

/-- The additions can be read off the rows. -/
theorem extend_inj {rows : List (List Cell)} {first second : ℕ → List Cell}
    (equal : extend rows first = extend rows second) {place : ℕ}
    (inside : place < rows.length) : first place = second place := by
  have here := congrArg (fun extended => extended[place]?) equal
  simp only [getElem?_extend, List.getElem?_eq_getElem inside,
    Option.map_some, Option.some.injEq] at here
  exact List.append_cancel_left here

theorem inRange_extend {rows : List (List Cell)}
    {added : ℕ → List Cell} {place : ℤ} :
    InRange (extend rows added) place ↔ InRange rows place := by
  rw [InRange, InRange, length_extend]

theorem pushAt_of_inRange {rows : List (List Cell)} {place : ℤ}
    (inside : InRange rows place) (cell : Cell) :
    pushAt rows place cell =
      some (extend rows fun other =>
        if (other : ℤ) = place then [cell] else []) := by
  rw [pushAt, if_pos inside]
  congr 1
  refine List.ext_getElem? fun other => ?_
  rw [getElem?_extend, List.getElem?_modify]
  congr 1
  funext row
  by_cases same : (other : ℤ) = place
  · rw [if_pos same, if_pos (by omega)]
  · rw [if_neg same, if_neg (by have := inside.1; omega),
      List.append_nil]

/-- The insertions succeed exactly at places of rows. -/
theorem pushEach_eq_some_iff {cell : ℤ → Cell} {places : List ℤ}
    {rows result : List (List Cell)} :
    pushEach cell places rows = some result ↔
      (∀ place ∈ places, InRange rows place) ∧
        result = extend rows fun place =>
          List.replicate (places.count (place : ℤ)) (cell place) := by
  induction places generalizing rows with
  | nil =>
      rw [pushEach, List.foldlM_nil]
      simp only [List.not_mem_nil, false_implies, implies_true, true_and,
        List.count_nil, List.replicate_zero, extend_nil]
      exact ⟨fun equal => (Option.some.inj equal).symm,
        fun equal => congrArg some equal.symm⟩
  | cons place rest induction =>
      rw [List.forall_mem_cons]
      by_cases inside : InRange rows place
      · have step :
            pushEach cell (place :: rest) rows =
              pushEach cell rest (extend rows fun other =>
                if (other : ℤ) = place then [cell place] else []) := by
          rw [pushEach, List.foldlM_cons, pushAt_of_inRange inside]
          rfl
        rw [step, induction, extend_extend]
        simp only [inRange_extend, inside, true_and]
        refine and_congr_right fun _ => Eq.congr_right ?_
        refine extend_congr fun other _ => ?_
        rw [List.count_cons]
        by_cases same : (other : ℤ) = place
        · simp [same, List.replicate_succ]
        · simp [same, Ne.symm same]
      · have fails : pushEach cell (place :: rest) rows = none := by
          rw [pushEach, List.foldlM_cons, pushAt, if_neg inside]
          rfl
        rw [fails]
        refine iff_of_false (by rintro ⟨⟩) ?_
        exact fun holds => inside holds.1.1

/-! ## Rows of one length -/

/-- All rows have the given length. -/
def Rectangular (width : ℕ) (rows : List (List Cell)) : Prop :=
  ∀ row ∈ rows, row.length = width

theorem Rectangular.extend {width : ℕ} {rows : List (List Cell)}
    (rectangular : Rectangular width rows) {added : ℕ → List Cell}
    {more : ℕ} (each : ∀ place < rows.length, (added place).length = more) :
    Rectangular (width + more) (extend rows added) := by
  intro row member
  rcases List.getElem?_of_mem member with ⟨place, located⟩
  rw [getElem?_extend, Option.map_eq_some_iff] at located
  rcases located with ⟨old, found, rfl⟩
  rw [List.length_append, rectangular old (List.mem_of_getElem? found),
    each place (List.getElem?_eq_some_iff.mp found).1]

end MQSSPasses.General.GrowingRows
