import Mathlib

/-!
# Ordered maps

An ordered map is the list of its entries with strictly increasing keys.
`emplace` puts an entry at its place unless the map has one with the same
key already, as the insertion of the same name in the C++ library does.
Filling a map by a sequence of such insertions keeps, for each key, the
first entry that has it.  `assign` replaces the entry with the same key
instead.
-/

namespace MQSSPasses.General.OrderedMap

variable {Entry Key : Type} [LinearOrder Key] (key : Entry → Key)

/-- Insert an entry unless one with its key is there. -/
def emplace (entry : Entry) : List Entry → List Entry
  | [] => [entry]
  | other :: rest =>
      if key entry < key other then entry :: other :: rest
      else if key entry = key other then other :: rest
      else other :: emplace entry rest

/-- Insert an entry, in the place of one with its key if there is one. -/
def assign (entry : Entry) : List Entry → List Entry
  | [] => [entry]
  | other :: rest =>
      if key entry < key other then entry :: other :: rest
      else if key entry = key other then entry :: rest
      else other :: assign entry rest

/-- The entry with a key, if any. -/
def find (wanted : Key) (entries : List Entry) : Option Entry :=
  entries.find? fun entry => key entry = wanted

/-- The entries have strictly increasing keys. -/
def Sorted (entries : List Entry) : Prop :=
  entries.Pairwise fun first second => key first < key second

variable {key}

/-- On an ordered map an entry is added exactly when its key is new. -/
theorem mem_emplace {entry : Entry} {entries : List Entry}
    (sorted : Sorted key entries) (member : Entry) :
    member ∈ emplace key entry entries ↔
      member ∈ entries ∨
        member = entry ∧ ∀ other ∈ entries, key other ≠ key entry := by
  induction entries with
  | nil => simp [emplace]
  | cons other rest induction =>
      rcases List.pairwise_cons.mp sorted with ⟨below, sortedRest⟩
      rw [emplace]
      by_cases before : key entry < key other
      · have fresh : ∀ later ∈ other :: rest, key later ≠ key entry := by
          intro later inside equal
          rcases List.mem_cons.mp inside with rfl | deeper
          · exact before.ne equal.symm
          · exact (before.trans (below later deeper)).ne equal.symm
        rw [if_pos before, List.mem_cons]
        constructor
        · rintro (rfl | old)
          · exact Or.inr ⟨rfl, fresh⟩
          · exact Or.inl old
        · rintro (old | ⟨rfl, -⟩)
          · exact Or.inr old
          · exact Or.inl rfl
      · by_cases same : key entry = key other
        · rw [if_neg before, if_pos same]
          constructor
          · exact Or.inl
          · rintro (old | ⟨-, fresh⟩)
            · exact old
            · exact (fresh other List.mem_cons_self same.symm).elim
        · rw [if_neg before, if_neg same, List.mem_cons,
            induction sortedRest, List.mem_cons]
          constructor
          · rintro (rfl | old | ⟨rfl, fresh⟩)
            · exact Or.inl (Or.inl rfl)
            · exact Or.inl (Or.inr old)
            · refine Or.inr ⟨rfl, ?_⟩
              intro later inside
              rcases List.mem_cons.mp inside with rfl | deeper
              · exact Ne.symm same
              · exact fresh later deeper
          · rintro ((rfl | old) | ⟨rfl, fresh⟩)
            · exact Or.inl rfl
            · exact Or.inr (Or.inl old)
            · exact Or.inr (Or.inr ⟨rfl, fun later inside =>
                fresh later (List.mem_cons_of_mem other inside)⟩)

/-- Insertion keeps the order. -/
theorem emplace_sorted {entry : Entry} {entries : List Entry}
    (sorted : Sorted key entries) :
    Sorted key (emplace key entry entries) := by
  induction entries with
  | nil => simp [emplace, Sorted]
  | cons other rest induction =>
      rcases List.pairwise_cons.mp sorted with ⟨below, sortedRest⟩
      rw [emplace]
      by_cases before : key entry < key other
      · rw [if_pos before]
        refine List.pairwise_cons.mpr ⟨?_, sorted⟩
        intro later inside
        rcases List.mem_cons.mp inside with rfl | deeper
        · exact before
        · exact before.trans (below later deeper)
      · by_cases same : key entry = key other
        · rw [if_neg before, if_pos same]
          exact sorted
        · rw [if_neg before, if_neg same]
          refine List.pairwise_cons.mpr ⟨?_, induction sortedRest⟩
          intro later inside
          rcases (mem_emplace sortedRest later).mp inside with
            old | ⟨rfl, -⟩
          · exact below later old
          · exact lt_of_le_of_ne (not_lt.mp before) (Ne.symm same)

/-- A key has at most one entry. -/
theorem Sorted.eq_of_key_eq {entries : List Entry}
    (sorted : Sorted key entries) {first second : Entry}
    (firstMember : first ∈ entries) (secondMember : second ∈ entries)
    (same : key first = key second) : first = second := by
  have nodup : (entries.map key).Nodup :=
    List.pairwise_map.mpr (sorted.imp fun less => less.ne)
  exact List.inj_on_of_nodup_map nodup firstMember secondMember same

/-! ## Assigning to keys -/

/-- An entry with the largest key goes to the end. -/
theorem assign_of_greatest {entry : Entry} {entries : List Entry}
    (greatest : ∀ other ∈ entries, key other < key entry) :
    assign key entry entries = entries ++ [entry] := by
  induction entries with
  | nil => rfl
  | cons other rest induction =>
      have less := greatest other List.mem_cons_self
      rw [assign, if_neg less.not_gt, if_neg less.ne',
        induction fun later member =>
          greatest later (List.mem_cons_of_mem other member),
        List.cons_append]

/-- An entry takes the place of the one with its key. -/
theorem assign_of_mem {entry old : Entry} {entries : List Entry}
    (sorted : Sorted key entries) (member : old ∈ entries)
    (same : key old = key entry) :
    assign key entry entries =
      entries.map fun other =>
        if key other = key entry then entry else other := by
  induction entries with
  | nil => cases member
  | cons other rest induction =>
      rcases List.pairwise_cons.mp sorted with ⟨below, sortedRest⟩
      rw [assign, List.map_cons]
      rcases List.mem_cons.mp member with rfl | later
      · -- The keys behind are larger, so nothing else is replaced.
        rw [if_neg same.not_gt, if_pos same.symm, if_pos same]
        congr 1
        have kept :
            rest.map (fun other =>
                if key other = key entry then entry else other) =
              rest.map id := by
          refine List.map_congr_left fun later inside => if_neg ?_
          rw [← same]
          exact (below later inside).ne'
        rw [kept, List.map_id]
      · have less : key other < key entry :=
          same ▸ below old later
        rw [if_neg less.not_gt, if_neg less.ne', if_neg less.ne,
          induction sortedRest later]

end MQSSPasses.General.OrderedMap
