import MQSSPasses.General.IndependentExchanges
import MQSSPasses.General.WireGraph

/-!
# The graph of a program determines it up to exchanges

Items without a common wire can be exchanged without changing the graph of
the program, except that the vertices of the two items change places.  The
converse holds as well: a renaming of the vertices that takes the graph of
one program to that of another, and keeps the items at the vertices, shows
that the programs differ by exchanges of neighbours without a common wire.
So the graph up to renaming is a complete invariant of programs up to such
exchanges.
-/

namespace MQSSPasses.General.WireExchanges

open MQSSPasses.General.TopologicalOrders
open MQSSPasses.General.IndependentExchanges
open MQSSPasses.General.WireGraph

/-! ## The edges of a program -/

/-- Attach the items of a program, the first of them at a vertex. -/
def attachItems : ℕ → List (List ℕ) → Wiring → Wiring
  | _, [], wiring => wiring
  | vertex, wires :: rest, wiring =>
      attachItems (vertex + 1) rest (wiring.attachAll vertex wires)

theorem attachItems_append (vertex : ℕ) (first second : List (List ℕ))
    (wiring : Wiring) :
    attachItems vertex (first ++ second) wiring =
      attachItems (vertex + first.length) second
        (attachItems vertex first wiring) := by
  induction first generalizing vertex wiring with
  | nil => rfl
  | cons wires rest induction =>
      rw [List.cons_append, attachItems, induction, attachItems,
        List.length_cons]
      congr 1
      omega

/-- The edges of the graph of a program. -/
def edgesOf (size : ℕ) (program : List (List ℕ)) : List (ℕ × ℕ) :=
  (attachItems size program .start).close size (size + program.length)

/-- Items take distinct wires of the program. -/
def Proper (size : ℕ) (wires : List ℕ) : Prop :=
  wires.Nodup ∧ ∀ wire ∈ wires, wire < size

theorem wired_attachItems {size : ℕ} {program : List (List ℕ)}
    (proper : ∀ wires ∈ program, Proper size wires) :
    Wired size program (attachItems size program .start) := by
  induction program using List.reverseRecOn with
  | nil => exact wired_start size
  | append_singleton program wires induction =>
      rw [List.forall_mem_append, List.forall_mem_singleton] at proper
      rw [attachItems_append]
      exact (induction proper.1).attachAll proper.2.1 proper.2.2

theorem isCircuit_edgesOf {size : ℕ} {program : List (List ℕ)}
    (proper : ∀ wires ∈ program, Proper size wires) :
    IsCircuit size program (edgesOf size program) :=
  (wired_attachItems proper).close

/-- Edges lead to later vertices. -/
theorem edgesOf_upwards {size : ℕ} {program : List (List ℕ)}
    (proper : ∀ wires ∈ program, Proper size wires) {source target : ℕ}
    (edge : (source, target) ∈ edgesOf size program) : source < target := by
  have wired := wired_attachItems proper
  rcases List.mem_append.mp edge with old | new
  · exact (wired.upwards _ old).1
  · rcases List.mem_map.mp new with ⟨wire, inside, equal⟩
    cases equal
    exact wired.last_lt (List.mem_range.mp inside)

/-! ## Renaming the vertices -/

section Renaming

variable {size : ℕ} {rename : Equiv.Perm ℕ} {first second : Wiring}

/-- The second wiring is the first one with its vertices renamed. -/
structure Renamed (size : ℕ) (rename : Equiv.Perm ℕ)
    (first second : Wiring) : Prop where
  edges : (first.edges.map (Prod.map rename rename)).Perm second.edges
  last : ∀ wire < size, second.last wire = rename (first.last wire)

/-- A vertex that keeps its name takes the same wires in both. -/
theorem Renamed.attachAll (renamed : Renamed size rename first second)
    {wires : List ℕ} (proper : Proper size wires) {vertex : ℕ}
    (fixed : rename vertex = vertex) :
    Renamed size rename (first.attachAll vertex wires)
      (second.attachAll vertex wires) := by
  rw [first.attachAll_eq vertex proper.1, second.attachAll_eq vertex proper.1]
  constructor
  · rw [List.map_append, List.map_map]
    refine renamed.edges.append (List.Perm.of_eq ?_)
    refine List.map_congr_left fun wire member => ?_
    rw [renamed.last wire (proper.2 wire member)]
    exact Prod.ext rfl fixed
  · intro wire inside
    by_cases takes : wire ∈ wires
    · simp only [takes, if_true, fixed]
    · simp only [takes, if_false, renamed.last wire inside]

theorem Renamed.attachItems (renamed : Renamed size rename first second)
    {program : List (List ℕ)}
    (proper : ∀ wires ∈ program, Proper size wires) {vertex : ℕ}
    (fixed : ∀ later, vertex ≤ later → rename later = later) :
    Renamed size rename (attachItems vertex program first)
      (WireExchanges.attachItems vertex program second) := by
  induction program generalizing vertex first second with
  | nil => exact renamed
  | cons wires rest induction =>
      rw [List.forall_mem_cons] at proper
      exact induction (renamed.attachAll proper.1 (fixed vertex le_rfl))
        proper.2 fun later after => fixed later (by omega)

theorem Renamed.close (renamed : Renamed size rename first second)
    {sink : ℕ} (fixed : rename sink = sink) :
    ((first.close size sink).map (Prod.map rename rename)).Perm
      (second.close size sink) := by
  rw [Wiring.close, List.map_append, List.map_map]
  refine renamed.edges.append (List.Perm.of_eq ?_)
  refine List.map_congr_left fun wire inside => ?_
  rw [renamed.last wire (List.mem_range.mp inside)]
  exact Prod.ext rfl fixed

/-- Two items without a common wire change places. -/
theorem renamed_of_exchange (wiring : Wiring) (vertex : ℕ)
    (edges : ∀ edge ∈ wiring.edges, edge.1 < vertex ∧ edge.2 < vertex)
    (last : ∀ wire < size, wiring.last wire < vertex)
    {wires others : List ℕ} (proper : Proper size wires)
    (properOthers : Proper size others) (apart : wires.Disjoint others) :
    Renamed size (Equiv.swap vertex (vertex + 1))
      ((wiring.attachAll vertex wires).attachAll (vertex + 1) others)
      ((wiring.attachAll vertex others).attachAll (vertex + 1) wires) := by
  have below {place : ℕ} (less : place < vertex) :
      Equiv.swap vertex (vertex + 1) place = place :=
    Equiv.swap_apply_of_ne_of_ne (by omega) (by omega)
  have old :
      wiring.edges.map (Prod.map (Equiv.swap vertex (vertex + 1))
        (Equiv.swap vertex (vertex + 1))) = wiring.edges := by
    refine (List.map_congr_left fun edge member => ?_).trans
      (List.map_id wiring.edges)
    exact Prod.ext (below (edges edge member).1)
      (below (edges edge member).2)
  rw [wiring.attachAll_eq vertex proper.1,
    wiring.attachAll_eq vertex properOthers.1,
    Wiring.attachAll_eq _ _ proper.1, Wiring.attachAll_eq _ _ properOthers.1]
  constructor
  · have moved :
        (wires.map fun wire => (wiring.last wire, vertex)).map
            (Prod.map (Equiv.swap vertex (vertex + 1))
              (Equiv.swap vertex (vertex + 1))) =
          wires.map fun wire =>
            (if wire ∈ others then vertex else wiring.last wire,
              vertex + 1) := by
      rw [List.map_map]
      refine List.map_congr_left fun wire member => ?_
      rw [if_neg (apart member)]
      exact Prod.ext (below (last wire (proper.2 wire member)))
        (Equiv.swap_apply_left _ _)
    have movedOthers :
        (others.map fun wire =>
            (if wire ∈ wires then vertex else wiring.last wire,
              vertex + 1)).map
            (Prod.map (Equiv.swap vertex (vertex + 1))
              (Equiv.swap vertex (vertex + 1))) =
          others.map fun wire => (wiring.last wire, vertex) := by
      rw [List.map_map]
      refine List.map_congr_left fun wire member => ?_
      rw [Function.comp_apply, if_neg fun takes => apart takes member]
      exact Prod.ext (below (last wire (properOthers.2 wire member)))
        (Equiv.swap_apply_right _ _)
    simp only [List.map_append, old, moved, movedOthers]
    rw [List.append_assoc, List.append_assoc]
    exact List.perm_append_comm.append_left _
  · intro wire inside
    by_cases takes : wire ∈ wires
    · simp only [takes, if_true, if_neg (apart takes),
        Equiv.swap_apply_left]
    · by_cases takesOther : wire ∈ others
      · simp only [takes, if_false, takesOther, if_true,
          Equiv.swap_apply_right]
      · simp only [takes, if_false, takesOther, below (last wire inside)]

/-- Exchanging two items renames their vertices in the graph. -/
theorem edgesOf_exchange {front back : List (List ℕ)}
    {wires others : List ℕ}
    (proper :
      ∀ item ∈ front ++ wires :: others :: back, Proper size item)
    (apart : wires.Disjoint others) :
    let vertex := size + front.length
    ((edgesOf size (front ++ wires :: others :: back)).map
        (Prod.map (Equiv.swap vertex (vertex + 1))
          (Equiv.swap vertex (vertex + 1)))).Perm
      (edgesOf size (front ++ others :: wires :: back)) := by
  intro vertex
  simp only [List.forall_mem_append, List.forall_mem_cons] at proper
  rcases proper with ⟨properFront, properWires, properOthers, properBack⟩
  have wired := wired_attachItems properFront
  have exchanged :=
    renamed_of_exchange (WireGraph.Wiring.mk _ _) vertex
      (fun edge member => by
        have upwards := wired.upwards edge member
        exact ⟨by omega, upwards.2⟩)
      (fun wire inside => wired.last_lt inside) properWires properOthers
      apart
  have later (place : ℕ) (after : vertex + 1 + 1 ≤ place) :
      Equiv.swap vertex (vertex + 1) place = place :=
    Equiv.swap_apply_of_ne_of_ne (by omega) (by omega)
  have attached := exchanged.attachItems properBack later
  rw [edgesOf, edgesOf, attachItems_append, attachItems_append]
  have lengths :
      (front ++ wires :: others :: back).length =
        (front ++ others :: wires :: back).length := by simp
  rw [← lengths]
  refine attached.close (later _ ?_)
  simp only [List.length_append, List.length_cons, vertex]
  omega

end Renaming

/-! ## Words of letters that take wires -/

section Words

variable {Letter : Type} (wires : Letter → List ℕ) (size : ℕ)

/-- Two letters without a common wire. -/
def Apart (first second : Letter) : Prop :=
  (wires first).Disjoint (wires second)

/--
A renaming of the vertices that takes the graph of a word to the graph of
another one, and every vertex of a letter to one of the same letter.
-/
structure Renames (rename : Equiv.Perm ℕ) (word other : List Letter) :
    Prop where
  lengths : word.length = other.length
  starts : ∀ wire < size, rename wire = wire
  letters :
    ∀ place letter, word[place]? = some letter →
      ∃ moved, rename (size + place) = size + moved ∧
        other[moved]? = some letter
  sink : rename (size + word.length) = size + word.length
  edges :
    ((edgesOf size (word.map wires)).map (Prod.map rename rename)).Perm
      (edgesOf size (other.map wires))

variable {wires size}

theorem Renames.refl (word : List Letter) :
    Renames wires size (Equiv.refl ℕ) word word where
  lengths := rfl
  starts _ _ := rfl
  letters place _ found := ⟨place, rfl, found⟩
  sink := rfl
  edges := List.Perm.of_eq (List.map_id _)

theorem Renames.trans {rename further : Equiv.Perm ℕ}
    {word other last : List Letter}
    (first : Renames wires size rename word other)
    (second : Renames wires size further other last) :
    Renames wires size (rename.trans further) word last where
  lengths := first.lengths.trans second.lengths
  starts wire inside := by
    rw [Equiv.trans_apply, first.starts wire inside,
      second.starts wire inside]
  letters place letter found := by
    rcases first.letters place letter found with ⟨moved, renamed, same⟩
    rw [Equiv.trans_apply, renamed]
    exact second.letters moved letter same
  sink := by
    rw [Equiv.trans_apply, first.sink, first.lengths, second.sink]
  edges := by
    have moved := (first.edges.map (Prod.map further further)).trans
      second.edges
    rw [List.map_map] at moved
    exact moved

/-- The letters of a word, two of them exchanged. -/
theorem getElem?_exchange {front back : List Letter} {first second : Letter}
    {place : ℕ} {letter : Letter}
    (found : (front ++ first :: second :: back)[place]? = some letter) :
    place = front.length ∧ letter = first ∨
      place = front.length + 1 ∧ letter = second ∨
      place ≠ front.length ∧ place ≠ front.length + 1 ∧
        (front ++ second :: first :: back)[place]? = some letter := by
  rcases Nat.lt_trichotomy place front.length with below | rfl | above
  · rw [List.getElem?_append_left below] at found
    refine .inr (.inr ⟨by omega, by omega, ?_⟩)
    rw [List.getElem?_append_left below, found]
  · simp only [List.getElem?_append_right le_rfl, Nat.sub_self,
      List.getElem?_cons_zero, Option.some.injEq] at found
    exact .inl ⟨rfl, found.symm⟩
  · rcases Nat.exists_eq_add_of_lt above with ⟨beyond, rfl⟩
    have shift :
        front.length + beyond + 1 - front.length = beyond + 1 := by omega
    rw [List.getElem?_append_right (by omega), shift,
      List.getElem?_cons_succ] at found
    rw [List.getElem?_append_right (by omega), shift,
      List.getElem?_cons_succ]
    cases beyond with
    | zero =>
        rw [List.getElem?_cons_zero, Option.some.injEq] at found
        exact .inr (.inl ⟨rfl, found.symm⟩)
    | succ beyond =>
        exact .inr (.inr ⟨by omega, by omega, found⟩)

/-- An exchange renames the two vertices. -/
theorem renames_of_exchange {word other : List Letter}
    (proper : ∀ letter ∈ word, Proper size (wires letter))
    (exchange : Exchange (Apart wires) word other) :
    ∃ rename, Renames wires size rename word other := by
  cases exchange with
  | swap front first second back independent =>
      have places (place : ℕ) (different : place ≠ front.length)
          (differentToo : place ≠ front.length + 1) :
          Equiv.swap (size + front.length) (size + front.length + 1)
            (size + place) = size + place :=
        Equiv.swap_apply_of_ne_of_ne (by omega) (by omega)
      refine ⟨Equiv.swap (size + front.length) (size + front.length + 1),
        ?_⟩
      constructor
      case lengths => simp
      case starts =>
          intro wire inside
          exact Equiv.swap_apply_of_ne_of_ne (by omega) (by omega)
      case letters =>
          intro place letter found
          rcases getElem?_exchange found with
            ⟨rfl, rfl⟩ | ⟨rfl, rfl⟩ | ⟨different, differentToo, same⟩
          · exact ⟨front.length + 1, Equiv.swap_apply_left _ _, by simp⟩
          · exact ⟨front.length, Equiv.swap_apply_right _ _, by simp⟩
          · exact ⟨place, places place different differentToo, same⟩
      case sink =>
          rw [List.length_append, List.length_cons, List.length_cons]
          exact places _ (by omega) (by omega)
      case edges =>
          have items :
              ∀ item ∈ front.map wires ++
                  wires first :: wires second :: back.map wires,
                Proper size item := by
            rw [← List.map_cons, ← List.map_cons, ← List.map_append]
            exact List.forall_mem_map.mpr proper
          have renamed := edgesOf_exchange items independent
          rw [List.length_map] at renamed
          rw [List.map_append, List.map_append]
          exact renamed

theorem renames_of_exchanges {word other : List Letter}
    (proper : ∀ letter ∈ word, Proper size (wires letter))
    (exchanges : Exchanges (Apart wires) word other) :
    ∃ rename, Renames wires size rename word other := by
  induction exchanges with
  | refl => exact ⟨_, .refl word⟩
  | tail before step induction =>
      rcases induction with ⟨rename, renames⟩
      have perm : word.Perm _ := Exchanges.perm before
      rcases renames_of_exchange
          (fun letter member => proper letter (perm.symm.subset member))
          step with ⟨further, renamesFurther⟩
      exact ⟨_, renames.trans renamesFurther⟩

/-! ## Reading a word off a renamed graph -/

/-- The letters at the places of a word, in order. -/
theorem filterMap_range_getElem? (word : List Letter) :
    (List.range word.length).filterMap (fun place => word[place]?) =
      word := by
  have places :
      (List.range word.length).map (fun place => word[place]?) =
        word.map some := by
    apply List.ext_getElem
    · simp
    · intro place below _
      simp only [List.length_map, List.length_range] at below
      simp [below]
  calc
    (List.range word.length).filterMap (fun place => word[place]?)
        = ((List.range word.length).map fun place =>
            word[place]?).filterMap id := by rw [List.filterMap_map]; rfl
    _ = (word.map some).filterMap id := by rw [places]
    _ = word := by rw [List.filterMap_map]; exact List.filterMap_some

section Order

variable {rename : Equiv.Perm ℕ} {word other : List Letter}

/-- The vertices of letters, in the order of the other word. -/
def renamedOrder (size : ℕ) (rename : Equiv.Perm ℕ)
    (other : List Letter) : List ℕ :=
  (List.range other.length).map fun place => rename.symm (size + place)

theorem itemVertices_map (word : List Letter) :
    itemVertices size (word.map wires) =
      (List.range word.length).map (size + ·) := by
  rw [itemVertices, List.length_map]

/-- The renaming takes the vertices of letters to those of letters. -/
theorem Renames.perm (renames : Renames wires size rename word other) :
    ((itemVertices size (word.map wires)).map rename).Perm
      (itemVertices size (other.map wires)) := by
  have distinct :
      ((itemVertices size (word.map wires)).map rename).Nodup :=
    itemVertices_nodup.map rename.injective
  have inside :
      (itemVertices size (word.map wires)).map rename ⊆
        itemVertices size (other.map wires) := by
    intro vertex member
    rcases List.mem_map.mp member with ⟨original, listed, rfl⟩
    rcases mem_itemVertices.mp listed with ⟨place, below, rfl⟩
    rw [List.length_map] at below
    rcases renames.letters place _ (List.getElem?_eq_getElem below) with
      ⟨moved, renamed, found⟩
    rw [renamed]
    refine mem_itemVertices.mpr ⟨moved, ?_, rfl⟩
    rw [List.length_map]
    exact (List.getElem?_eq_some_iff.mp found).1
  refine (distinct.subperm inside).perm_of_length_le ?_
  simp [itemVertices, renames.lengths]

theorem Renames.order_perm (renames : Renames wires size rename word other) :
    (renamedOrder size rename other).Perm
      (itemVertices size (word.map wires)) := by
  have back := (renames.perm.map rename.symm).symm
  rw [List.map_map, Equiv.symm_comp_self, List.map_id, itemVertices_map,
    List.map_map] at back
  exact back

/-- Where the order lists a vertex, the other word has its letter. -/
theorem Renames.letter_at (renames : Renames wires size rename word other)
    {place : ℕ} (below : place < other.length) :
    word[rename.symm (size + place) - size]? = other[place]? := by
  have listed :
      rename.symm (size + place) ∈ itemVertices size (word.map wires) :=
    renames.order_perm.subset
      (List.mem_map.mpr ⟨place, List.mem_range.mpr below, rfl⟩)
  rcases mem_itemVertices.mp listed with ⟨original, inside, equal⟩
  rw [List.length_map] at inside
  have found := List.getElem?_eq_getElem inside
  rcases renames.letters original _ found with ⟨moved, renamed, same⟩
  rw [← equal, Equiv.apply_symm_apply, Nat.add_left_cancel_iff] at renamed
  rw [equal, Nat.add_sub_cancel_left, found, renamed, same]

theorem Renames.order_word (renames : Renames wires size rename word other) :
    (renamedOrder size rename other).filterMap
        (fun vertex => word[vertex - size]?) = other := by
  conv_rhs => rw [← filterMap_range_getElem? other]
  rw [renamedOrder, List.filterMap_map]
  refine List.filterMap_congr fun place member => ?_
  exact renames.letter_at (List.mem_range.mp member)

theorem itemVertices_word (word : List Letter) :
    (itemVertices size (word.map wires)).filterMap
        (fun vertex => word[vertex - size]?) = word := by
  conv_rhs => rw [← filterMap_range_getElem? word]
  rw [itemVertices_map, List.filterMap_map]
  refine List.filterMap_congr fun place _ => ?_
  rw [Function.comp_apply, Nat.add_sub_cancel_left]

/-- The order of the other word is one along the edges. -/
theorem Renames.topological
    (properOther : ∀ letter ∈ other, Proper size (wires letter))
    (renames : Renames wires size rename word other) :
    IsTopologicalOrder (edgesOf size (word.map wires))
      (itemVertices size (word.map wires))
      (renamedOrder size rename other) where
  same := renames.order_perm
  forward source target edge sourceListed targetListed := by
    have moved :
        (rename source, rename target) ∈ edgesOf size (other.map wires) :=
      renames.edges.subset (List.mem_map_of_mem edge)
    have less := edgesOf_upwards (List.forall_mem_map.mpr properOther) moved
    have listed {vertex : ℕ}
        (member : vertex ∈ renamedOrder size rename other) :
        rename vertex ∈ (List.range other.length).map (size + ·) := by
      rcases List.mem_map.mp member with ⟨place, inside, rfl⟩
      rw [Equiv.apply_symm_apply]
      exact List.mem_map_of_mem inside
    have before :=
      (before_of_lt (increasing_places List.pairwise_lt_range)
        (listed sourceListed) (listed targetListed) less).map rename.symm
    rw [List.map_cons, List.map_cons, Equiv.symm_apply_apply,
      Equiv.symm_apply_apply, List.map_map] at before
    exact before

end Order

/-- Letters in different orders are independent. -/
theorem exchanges_of_renames {rename : Equiv.Perm ℕ}
    {word other : List Letter}
    (proper : ∀ letter ∈ word, Proper size (wires letter))
    (properOther : ∀ letter ∈ other, Proper size (wires letter))
    (renames : Renames wires size rename word other) :
    Exchanges (Apart wires) word other := by
  have circuit := isCircuit_edgesOf (List.forall_mem_map.mpr proper)
  have exchanged :
      Exchanges
        (fun first second =>
          ∀ letter ∈ word[first - size]?, ∀ further ∈ word[second - size]?,
            Apart wires letter further)
        (itemVertices size (word.map wires))
        (renamedOrder size rename other) := by
    refine exchanges_of_topologicalOrder (renames.topological properOther)
      itemVertices_nodup ?_
    intro source target before
    rcases mem_itemVertices.mp before.mem_left with ⟨first, below, rfl⟩
    rcases mem_itemVertices.mp before.mem_right with ⟨second, under, rfl⟩
    have less : first < second := by
      have := before.lt (increasing_places List.pairwise_lt_range)
      omega
    rw [List.length_map] at below under
    have found := List.getElem?_eq_getElem below
    have foundOther := List.getElem?_eq_getElem under
    by_cases apart : Apart wires word[first] word[second]
    · left
      rw [Nat.add_sub_cancel_left, Nat.add_sub_cancel_left, found,
        foundOther]
      rintro _ ⟨⟩ _ ⟨⟩
      exact apart
    · -- Both letters are on the path of a common wire.
      rw [Apart, List.Disjoint] at apart
      push Not at apart
      rcases apart with ⟨wire, takes, takesToo, -⟩
      have inRange := (proper _ (List.getElem_mem below)).2 wire takes
      have user {place : ℕ} {letter : Letter}
          (stands : word[place]? = some letter)
          (takes : wire ∈ wires letter) :
          size + place ∈ (users (word.map wires) wire).map (size + ·) :=
        List.mem_map_of_mem (mem_users.mpr
          ⟨wires letter, by rw [List.getElem?_map, stands]; rfl, takes⟩)
      refine .inr ⟨_, circuit.path_of_users inRange, ?_, ?_⟩
      · intro vertex member
        rcases List.mem_map.mp member with ⟨place, used, rfl⟩
        rcases mem_users.mp used with ⟨item, known, -⟩
        exact mem_itemVertices.mpr
          ⟨place, (List.getElem?_eq_some_iff.mp known).1, rfl⟩
      · refine before_of_lt (increasing_places (users_pairwise _ wire))
          (user found takes) (user foundOther takesToo) ?_
        omega
  have letters : Exchanges (Apart wires) _ _ :=
    Exchanges.filterMap (fun vertex => word[vertex - size]?)
      (fun _ _ independent => independent) exchanged
  rwa [itemVertices_word, renames.order_word] at letters

/--
A word is turned into another by exchanges of letters without a common wire
exactly if their graphs are the same up to renaming.
-/
theorem exchanges_iff_renames {word other : List Letter}
    (proper : ∀ letter ∈ word, Proper size (wires letter))
    (properOther : ∀ letter ∈ other, Proper size (wires letter)) :
    Exchanges (Apart wires) word other ↔
      ∃ rename, Renames wires size rename word other := by
  constructor
  · exact renames_of_exchanges proper
  · rintro ⟨rename, renames⟩
    exact exchanges_of_renames proper properOther renames

end Words

end MQSSPasses.General.WireExchanges
