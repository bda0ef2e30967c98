import Mathlib

/-!
# Orders of the vertices along the edges of a graph

A topological order lists vertices so that every edge leads forward.  If two
lists have the same items, and only items that commute stand in them in
different orders, the products along the lists are equal.  So all
topological orders of a graph have one product, as soon as items that do
not commute lie on a common path.
-/

namespace MQSSPasses.General.TopologicalOrders

variable {Item : Type}

/-! ## What stands before what -/

/-- One item stands in a list before another. -/
def Before (order : List Item) (first second : Item) : Prop :=
  [first, second].Sublist order

theorem before_cons {order : List Item} {item first second : Item} :
    Before (item :: order) first second ↔
      first = item ∧ second ∈ order ∨ Before order first second := by
  unfold Before
  constructor
  · intro sublist
    rcases List.sublist_cons_iff.mp sublist with later | ⟨rest, equal, later⟩
    · exact .inr later
    · cases equal
      exact .inl ⟨rfl, List.singleton_sublist.mp later⟩
  · rintro (⟨rfl, member⟩ | later)
    · exact (List.singleton_sublist.mpr member).cons_cons first
    · exact later.cons item

theorem Before.mem_left {order : List Item} {first second : Item}
    (before : Before order first second) : first ∈ order :=
  before.subset List.mem_cons_self

theorem Before.mem_right {order : List Item} {first second : Item}
    (before : Before order first second) : second ∈ order :=
  before.subset (by simp)

theorem Before.mono {smaller order : List Item} {first second : Item}
    (before : Before smaller first second)
    (sublist : smaller.Sublist order) : Before order first second :=
  List.Sublist.trans before sublist

/-- In a list without repetitions the relation is transitive. -/
theorem Before.trans {order : List Item} (nodup : order.Nodup)
    {first middle last : Item} (lower : Before order first middle)
    (upper : Before order middle last) : Before order first last := by
  induction order with
  | nil => cases lower
  | cons item order induction =>
      rw [List.nodup_cons] at nodup
      rw [before_cons] at lower upper ⊢
      rcases upper with ⟨rfl, -⟩ | upper
      · rcases lower with ⟨-, member⟩ | lower
        · exact (nodup.1 member).elim
        · exact (nodup.1 lower.mem_right).elim
      · rcases lower with ⟨rfl, -⟩ | lower
        · exact .inl ⟨rfl, upper.mem_right⟩
        · exact .inr (induction nodup.2 lower upper)

/-- Nothing stands both before and behind something. -/
theorem Before.asymm {order : List Item} (nodup : order.Nodup)
    {first second : Item} (before : Before order first second) :
    ¬ Before order second first := fun behind =>
  List.nodup_iff_sublist.mp nodup first (before.trans nodup behind)

/-- In an increasing list smaller items stand before larger ones. -/
theorem before_of_lt [Preorder Item] {order : List Item}
    (increasing : order.Pairwise (· < ·)) {first second : Item}
    (firstMember : first ∈ order) (secondMember : second ∈ order)
    (less : first < second) : Before order first second := by
  induction order with
  | nil => cases firstMember
  | cons item order induction =>
      rw [List.pairwise_cons] at increasing
      rw [before_cons]
      rcases List.mem_cons.mp secondMember with rfl | later
      · rcases List.mem_cons.mp firstMember with rfl | other
        · exact (lt_irrefl _ less).elim
        · exact (lt_asymm less (increasing.1 first other)).elim
      · rcases List.mem_cons.mp firstMember with rfl | other
        · exact .inl ⟨rfl, later⟩
        · exact .inr (induction increasing.2 other later)

/-- In an increasing list what stands before is smaller. -/
theorem Before.lt [Preorder Item] {order : List Item}
    (increasing : order.Pairwise (· < ·)) {first second : Item}
    (before : Before order first second) : first < second :=
  List.pairwise_pair.mp (increasing.sublist before)

/-! ## Products along lists -/

section Products

variable {M : Type} [Monoid M] (act : Item → M)

/-- The product along a list, with later items on the left. -/
def composite (order : List Item) : M :=
  (order.map act).reverse.prod

@[simp]
theorem composite_nil : composite act [] = 1 := rfl

@[simp]
theorem composite_cons (item : Item) (order : List Item) :
    composite act (item :: order) = composite act order * act item := by
  simp [composite]

theorem composite_append (first second : List Item) :
    composite act (first ++ second) =
      composite act second * composite act first := by
  simp [composite]

variable {act}

theorem commute_composite {item : M} {order : List Item}
    (each : ∀ other ∈ order, Commute item (act other)) :
    Commute item (composite act order) := by
  induction order with
  | nil => exact Commute.one_right item
  | cons other order induction =>
      rw [composite_cons]
      exact (induction fun later member =>
        each later (List.mem_cons_of_mem other member)).mul_right
          (each other List.mem_cons_self)

/-- Items which change their order commute, so the product is the same. -/
theorem composite_eq_of_perm {first second : List Item}
    (same : first.Perm second)
    (independent :
      ∀ item other, Before first item other → Before second other item →
        Commute (act item) (act other)) :
    composite act first = composite act second := by
  induction first generalizing second with
  | nil => rw [List.nil_perm.mp same]
  | cons item rest induction =>
      rcases List.append_of_mem (same.subset List.mem_cons_self) with
        ⟨lower, upper, rfl⟩
      have others : rest.Perm (lower ++ upper) :=
        (same.trans List.perm_middle).cons_inv
      have fewer : (lower ++ upper).Sublist (lower ++ item :: upper) :=
        (List.sublist_cons_self item upper).append_left lower
      -- The item moves to the front, past items that were behind it.
      have passes : Commute (act item) (composite act lower) := by
        apply commute_composite
        intro other member
        refine independent item other ?_ ?_
        · exact before_cons.mpr
            (.inl ⟨rfl, others.symm.subset (List.mem_append_left _ member)⟩)
        · exact (List.singleton_sublist.mpr member).append
            (List.singleton_sublist.mpr List.mem_cons_self)
      have remaining :=
        induction others fun one other before behind =>
          independent one other (before_cons.mpr (.inr before))
            (behind.mono fewer)
      calc
        composite act (item :: rest)
            = composite act (lower ++ upper) * act item := by
              rw [composite_cons, remaining]
        _ = composite act upper * (composite act lower * act item) := by
              rw [composite_append, mul_assoc]
        _ = composite act upper * (act item * composite act lower) := by
              rw [passes.eq]
        _ = composite act (lower ++ item :: upper) := by
              rw [composite_append, composite_cons, mul_assoc]

end Products

/-! ## Topological orders -/

/-- A graph without a way from a vertex back to itself. -/
def Acyclic (edges : List (Item × Item)) : Prop :=
  ∀ vertex,
    ¬ Relation.TransGen (fun source target => (source, target) ∈ edges)
      vertex vertex

/-- A list of vertices in which one edge leads to the next. -/
def IsPath (edges : List (Item × Item)) (vertices : List Item) : Prop :=
  vertices.IsChain fun source target => (source, target) ∈ edges

theorem IsPath.mono {edges more : List (Item × Item)}
    {path : List Item} (isPath : IsPath edges path)
    (subset : edges ⊆ more) : IsPath more path :=
  List.IsChain.imp (fun _ _ edge => subset edge) isPath

/-- A path goes on along an edge from its last vertex. -/
theorem IsPath.concat {edges : List (Item × Item)} {path : List Item}
    {source target : Item} (isPath : IsPath edges path)
    (last : path.getLast? = some source)
    (edge : (source, target) ∈ edges) :
    IsPath edges (path ++ [target]) := by
  refine List.isChain_append.mpr
    ⟨isPath, List.isChain_singleton _, ?_⟩
  intro vertex member next first
  rw [last] at member
  cases member
  cases first
  exact edge

/-- A list of the given vertices in which edges lead forward. -/
structure IsTopologicalOrder (edges : List (Item × Item))
    (vertices order : List Item) : Prop where
  same : order.Perm vertices
  forward :
    ∀ source target, (source, target) ∈ edges → source ∈ order →
      target ∈ order → Before order source target

/-- Edges that lead upwards do not lead back. -/
theorem acyclic_of_upwards [Preorder Item] {edges : List (Item × Item)}
    (upwards : ∀ edge ∈ edges, edge.1 < edge.2) : Acyclic edges := by
  intro vertex way
  have less (source target : Item)
      (reached :
        Relation.TransGen (fun source target => (source, target) ∈ edges)
          source target) : source < target := by
    induction reached with
    | single edge => exact upwards _ edge
    | tail _ edge induction => exact induction.trans (upwards _ edge)
  exact lt_irrefl vertex (less vertex vertex way)

/-- Paths through listed vertices lead forward in a topological order. -/
theorem IsTopologicalOrder.before_of_path {edges : List (Item × Item)}
    {vertices order path : List Item}
    (topological : IsTopologicalOrder edges vertices order)
    (nodup : vertices.Nodup) (isPath : IsPath edges path)
    (listed : path ⊆ vertices) {first second : Item}
    (before : Before path first second) : Before order first second := by
  have distinct : order.Nodup := topological.same.nodup_iff.mpr nodup
  have inOrder {vertex : Item} (member : vertex ∈ path) : vertex ∈ order :=
    topological.same.symm.subset (listed member)
  have forward : path.IsChain (Before order) :=
    List.IsChain.imp_of_mem_imp
      (fun source target fromPath toPath edge =>
        topological.forward source target edge (inOrder fromPath)
          (inOrder toPath))
      isPath
  have transitive : IsTrans Item (Before order) :=
    ⟨fun _ _ _ => Before.trans distinct⟩
  have pairwise : path.Pairwise (Before order) :=
    List.isChain_iff_pairwise.mp forward
  exact List.pairwise_pair.mp (pairwise.sublist before)

/--
All topological orders have the product of the order in which the vertices
are given, if two vertices that do not commute lie in this order on a path.
-/
theorem IsTopologicalOrder.composite_eq {M : Type} [Monoid M]
    {act : Item → M} {edges : List (Item × Item)}
    {vertices order : List Item}
    (topological : IsTopologicalOrder edges vertices order)
    (nodup : vertices.Nodup)
    (linked :
      ∀ first second, Before vertices first second →
        Commute (act first) (act second) ∨
          ∃ path, IsPath edges path ∧ path ⊆ vertices ∧
            Before path first second) :
    composite act order = composite act vertices := by
  apply Eq.symm
  refine composite_eq_of_perm topological.same.symm ?_
  intro first second before behind
  rcases linked first second before with commute | ⟨path, isPath, listed, on⟩
  · exact commute
  · have distinct : order.Nodup := topological.same.nodup_iff.mpr nodup
    have forward := topological.before_of_path nodup isPath listed on
    exact (forward.asymm distinct behind).elim

end MQSSPasses.General.TopologicalOrders
