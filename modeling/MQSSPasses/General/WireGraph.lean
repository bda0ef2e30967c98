import MQSSPasses.General.TopologicalOrders

/-!
# The graph of a program on wires

A program is a list of items that each take some of the wires.  Its graph
has a vertex for every wire, behind them one for every item in order, and
last a sink; the wires lead from their vertices through the items that take
them to the sink.  The graph is built with a table of the vertex each wire
was seen at last.

`Wired` is the invariant of the construction and `circuit` what holds of the
finished graph: edges lead upwards, an item has as many edges on either side
as it takes wires, and each wire is a path through the items that take it.
-/

namespace MQSSPasses.General.WireGraph

open MQSSPasses.General.TopologicalOrders

/-! ## The items on a wire -/

/-- The places of the items that take a wire, in order. -/
def users (program : List (List ℕ)) (wire : ℕ) : List ℕ :=
  (program.zipIdx.filter fun item => wire ∈ item.1).map Prod.snd

/-- The vertices at which a wire is seen: its own and those of its users. -/
def trail (size : ℕ) (program : List (List ℕ)) (wire : ℕ) : List ℕ :=
  wire :: (users program wire).map (size + ·)

theorem users_append (program : List (List ℕ)) (wires : List ℕ)
    (wire : ℕ) :
    users (program ++ [wires]) wire =
      users program wire ++
        if wire ∈ wires then [program.length] else [] := by
  rw [users, users, List.zipIdx_append, List.filter_append,
    List.map_append]
  congr 1
  by_cases takes : wire ∈ wires <;> simp [List.filter, takes]

theorem trail_append (size : ℕ) (program : List (List ℕ))
    (wires : List ℕ) (wire : ℕ) :
    trail size (program ++ [wires]) wire =
      trail size program wire ++
        if wire ∈ wires then [size + program.length] else [] := by
  rw [trail, users_append, trail]
  by_cases takes : wire ∈ wires <;> simp [takes]

theorem mem_users {program : List (List ℕ)} {wire place : ℕ} :
    place ∈ users program wire ↔
      ∃ wires, program[place]? = some wires ∧ wire ∈ wires := by
  simp [users, List.mk_mem_zipIdx_iff_getElem?]

theorem getElem?_concat_eq_some {program : List (List ℕ)}
    {wires others : List ℕ} {place : ℕ}
    (found : (program ++ [wires])[place]? = some others) :
    program[place]? = some others ∨
      place = program.length ∧ others = wires := by
  rw [List.getElem?_append] at found
  by_cases below : place < program.length
  · rw [if_pos below] at found
    exact .inl found
  · rw [if_neg below, List.getElem?_singleton] at found
    by_cases last : place - program.length = 0
    · rw [if_pos last] at found
      cases found
      exact .inr ⟨by omega, rfl⟩
    · rw [if_neg last] at found
      cases found

theorem mem_trail {size : ℕ} {program : List (List ℕ)}
    {wire vertex : ℕ} (inside : wire < size)
    (member : vertex ∈ trail size program wire) :
    vertex < size + program.length := by
  rcases List.mem_cons.mp member with rfl | user
  · omega
  · rcases List.mem_map.mp user with ⟨place, used, rfl⟩
    rcases mem_users.mp used with ⟨wires, found, -⟩
    rcases List.getElem?_eq_some_iff.mp found with ⟨below, -⟩
    omega

/-- The users of a wire stand on its trail in their order. -/
theorem users_pairwise (program : List (List ℕ)) (wire : ℕ) :
    (users program wire).Pairwise (· < ·) := by
  induction program using List.reverseRecOn with
  | nil => exact List.Pairwise.nil
  | append_singleton program wires induction =>
      rw [users_append]
      by_cases takes : wire ∈ wires
      · rw [if_pos takes]
        refine List.pairwise_append.mpr
          ⟨induction, List.pairwise_singleton _ _, ?_⟩
        intro place used last member
        rw [List.mem_singleton.mp member]
        rcases mem_users.mp used with ⟨others, found, -⟩
        exact (List.getElem?_eq_some_iff.mp found).1
      · rw [if_neg takes, List.append_nil]
        exact induction

/-! ## Building the graph -/

/-- The edges so far and where each wire was seen last. -/
structure Wiring where
  edges : List (ℕ × ℕ)
  last : ℕ → ℕ

/-- No edges, and every wire at its own vertex. -/
def Wiring.start : Wiring := ⟨[], id⟩

/-- Lead a wire to a vertex. -/
def Wiring.attach (vertex : ℕ) (wiring : Wiring) (wire : ℕ) : Wiring :=
  ⟨wiring.edges ++ [(wiring.last wire, vertex)],
    Function.update wiring.last wire vertex⟩

/-- Lead some wires to a vertex. -/
def Wiring.attachAll (vertex : ℕ) (wiring : Wiring)
    (wires : List ℕ) : Wiring :=
  wires.foldl (Wiring.attach vertex) wiring

/-- The edges once all wires have been led to a sink. -/
def Wiring.close (size sink : ℕ) (wiring : Wiring) : List (ℕ × ℕ) :=
  wiring.edges ++
    (List.range size).map fun wire => (wiring.last wire, sink)

/-- Distinct wires do not see each other. -/
theorem Wiring.attachAll_eq (vertex : ℕ) (wiring : Wiring)
    {wires : List ℕ} (distinct : wires.Nodup) :
    wiring.attachAll vertex wires =
      ⟨wiring.edges ++ wires.map fun wire => (wiring.last wire, vertex),
        fun wire => if wire ∈ wires then vertex else wiring.last wire⟩ := by
  induction wires generalizing wiring with
  | nil => simp [Wiring.attachAll]
  | cons wire others induction =>
      rw [List.nodup_cons] at distinct
      have unseen (other : ℕ) (member : other ∈ others) :
          Function.update wiring.last wire vertex other =
            wiring.last other := by
        have different : other ≠ wire := by
          rintro rfl
          exact distinct.1 member
        exact Function.update_of_ne different _ _
      have step :
          wiring.attachAll vertex (wire :: others) =
            (wiring.attach vertex wire).attachAll vertex others := rfl
      rw [step, induction _ distinct.2]
      congr 1
      · rw [Wiring.attach, List.append_assoc, List.map_cons,
          List.singleton_append]
        congr 2
        refine List.map_congr_left fun other member => ?_
        dsimp only
        rw [unseen other member]
      · funext other
        by_cases same : other = wire
        · simp [Wiring.attach, same]
        · by_cases later : other ∈ others <;>
            simp [Wiring.attach, same, later]

/-! ## The invariant -/

/-- The number of edges into a vertex. -/
def inDegree (edges : List (ℕ × ℕ)) (vertex : ℕ) : ℕ :=
  edges.countP fun edge => edge.2 = vertex

/-- The number of edges out of a vertex. -/
def outDegree (edges : List (ℕ × ℕ)) (vertex : ℕ) : ℕ :=
  edges.countP fun edge => edge.1 = vertex

/-- The number of wires last seen at a vertex. -/
def Wiring.pending (size : ℕ) (wiring : Wiring) (vertex : ℕ) : ℕ :=
  (List.range size).countP fun wire => wiring.last wire = vertex

/-- The wiring of a program: open edges stand for the wires seen last. -/
structure Wired (size : ℕ) (program : List (List ℕ))
    (wiring : Wiring) : Prop where
  upwards :
    ∀ edge ∈ wiring.edges,
      edge.1 < edge.2 ∧ edge.2 < size + program.length
  paths :
    ∀ wire < size, IsPath wiring.edges (trail size program wire)
  lasts :
    ∀ wire < size,
      (trail size program wire).getLast? = some (wiring.last wire)
  incoming :
    ∀ place wires, program[place]? = some wires →
      inDegree wiring.edges (size + place) = wires.length
  outgoing :
    ∀ place wires, program[place]? = some wires →
      outDegree wiring.edges (size + place) +
          wiring.pending size (size + place) = wires.length

theorem wired_start (size : ℕ) : Wired size [] .start where
  upwards := by simp [Wiring.start]
  paths _ _ := List.isChain_singleton _
  lasts _ _ := rfl
  incoming _ _ found := by cases found
  outgoing _ _ found := by cases found

section Step

variable {size : ℕ} {program : List (List ℕ)} {wiring : Wiring}
variable {wires : List ℕ}

theorem Wired.last_lt (wired : Wired size program wiring) {wire : ℕ}
    (inside : wire < size) : wiring.last wire < size + program.length :=
  mem_trail inside (List.mem_of_getLast? (wired.lasts wire inside))

/-- Those of distinct wires that are in the range, in its order. -/
theorem filter_range_perm (distinct : wires.Nodup)
    (inside : ∀ wire ∈ wires, wire < size) :
    ((List.range size).filter (· ∈ wires)).Perm wires := by
  refine (List.perm_ext_iff_of_nodup
    (List.nodup_range.filter _) distinct).mpr ?_
  intro wire
  simp only [List.mem_filter, List.mem_range, decide_eq_true_eq,
    and_iff_right_iff_imp]
  exact inside wire

/-- Leading wires to a vertex takes them away from the others. -/
theorem pending_attachAll (distinct : wires.Nodup)
    (inside : ∀ wire ∈ wires, wire < size) {new vertex : ℕ}
    (other : new ≠ vertex) :
    wires.countP (fun wire => wiring.last wire = vertex) +
        (wiring.attachAll new wires).pending size vertex =
      wiring.pending size vertex := by
  rw [wiring.attachAll_eq new distinct, Wiring.pending, Wiring.pending]
  dsimp only
  have before :=
    List.countP_eq_countP_filter_add (List.range size)
      (fun wire => decide (wiring.last wire = vertex))
      (fun wire => decide (wire ∈ wires))
  have after :=
    List.countP_eq_countP_filter_add (List.range size)
      (fun wire =>
        decide ((if wire ∈ wires then new else wiring.last wire) = vertex))
      (fun wire => decide (wire ∈ wires))
  have gone :
      ((List.range size).filter (· ∈ wires)).countP
          (fun wire =>
            (if wire ∈ wires then new else wiring.last wire) = vertex) =
        0 := by
    rw [List.countP_eq_zero]
    intro wire member
    have takes : wire ∈ wires := by
      simpa using (List.mem_filter.mp member).2
    simp [takes, other]
  rw [before, after, gone, (filter_range_perm distinct inside).countP_eq,
    Nat.zero_add]
  congr 1
  apply List.countP_congr
  intro wire member
  have avoids : wire ∉ wires := by
    simpa using (List.mem_filter.mp member).2
  simp [avoids]

/-- At the vertex the wires have been led to, they are all pending. -/
theorem pending_attachAll_self (wired : Wired size program wiring)
    (distinct : wires.Nodup) (inside : ∀ wire ∈ wires, wire < size) :
    (wiring.attachAll (size + program.length) wires).pending size
        (size + program.length) = wires.length := by
  rw [wiring.attachAll_eq _ distinct, Wiring.pending,
    ← (filter_range_perm distinct inside).length_eq,
    ← List.countP_eq_length_filter]
  apply List.countP_congr
  intro wire member
  have before := wired.last_lt (List.mem_range.mp member)
  by_cases takes : wire ∈ wires
  · simp [takes]
  · simp [takes, before.ne]

/-- The vertex of the next item has no edges yet. -/
theorem Wired.inDegree_next (wired : Wired size program wiring) :
    inDegree wiring.edges (size + program.length) = 0 := by
  rw [inDegree, List.countP_eq_zero]
  intro edge member
  have := wired.upwards edge member
  simp only [decide_eq_true_eq]
  omega

theorem Wired.outDegree_next (wired : Wired size program wiring) :
    outDegree wiring.edges (size + program.length) = 0 := by
  rw [outDegree, List.countP_eq_zero]
  intro edge member
  have := wired.upwards edge member
  simp only [decide_eq_true_eq]
  omega

/-- Attaching wires leads edges into one vertex only. -/
theorem inDegree_attachAll (distinct : wires.Nodup) (new vertex : ℕ) :
    inDegree (wiring.attachAll new wires).edges vertex =
      inDegree wiring.edges vertex +
        if new = vertex then wires.length else 0 := by
  rw [wiring.attachAll_eq new distinct, inDegree, List.countP_append,
    List.countP_map, inDegree]
  congr 1
  by_cases here : new = vertex
  · rw [if_pos here, List.countP_eq_length]
    intro wire _
    simpa using here
  · rw [if_neg here, List.countP_eq_zero]
    intro wire _
    simpa using here

/-- The edges leave the vertices where the wires were seen last. -/
theorem outDegree_attachAll (distinct : wires.Nodup) (new vertex : ℕ) :
    outDegree (wiring.attachAll new wires).edges vertex =
      outDegree wiring.edges vertex +
        wires.countP fun wire => wiring.last wire = vertex := by
  rw [wiring.attachAll_eq new distinct, outDegree, List.countP_append,
    List.countP_map, outDegree]
  rfl

/-- Attaching the next item keeps the invariant. -/
theorem Wired.attachAll (wired : Wired size program wiring)
    (distinct : wires.Nodup) (inside : ∀ wire ∈ wires, wire < size) :
    Wired size (program ++ [wires])
      (wiring.attachAll (size + program.length) wires) := by
  have built := wiring.attachAll_eq (size + program.length) distinct
  have edges := congrArg Wiring.edges built
  have last := congrArg Wiring.last built
  dsimp only at edges last
  constructor
  case upwards =>
      intro edge member
      rw [edges, List.mem_append] at member
      rw [List.length_append, List.length_singleton]
      rcases member with old | new
      · have := wired.upwards edge old
        omega
      · rcases List.mem_map.mp new with ⟨wire, takes, rfl⟩
        have := wired.last_lt (inside wire takes)
        dsimp only
        omega
  case paths =>
      intro wire inRange
      rw [trail_append, edges]
      have old :=
        (wired.paths wire inRange).mono
          (List.subset_append_left _
            (wires.map fun wire =>
              (wiring.last wire, size + program.length)))
      by_cases takes : wire ∈ wires
      · rw [if_pos takes]
        refine old.concat (wired.lasts wire inRange) ?_
        exact List.mem_append_right _ (List.mem_map_of_mem takes)
      · rw [if_neg takes, List.append_nil]
        exact old
  case lasts =>
      intro wire inRange
      rw [trail_append, last]
      by_cases takes : wire ∈ wires
      · simp [takes]
      · simp [takes, wired.lasts wire inRange]
  case incoming =>
      intro place others found
      rw [inDegree_attachAll distinct]
      rcases getElem?_concat_eq_some found with old | ⟨rfl, rfl⟩
      · have below := (List.getElem?_eq_some_iff.mp old).1
        rw [wired.incoming place others old, if_neg (by omega), Nat.add_zero]
      · rw [wired.inDegree_next, if_pos rfl, Nat.zero_add]
  case outgoing =>
      intro place others found
      rw [outDegree_attachAll distinct]
      rcases getElem?_concat_eq_some found with old | ⟨rfl, rfl⟩
      · -- A wire led on is no longer pending at its old vertex.
        have below := (List.getElem?_eq_some_iff.mp old).1
        have apart : size + program.length ≠ size + place := by omega
        rw [Nat.add_assoc, pending_attachAll distinct inside apart]
        exact wired.outgoing place others old
      · have noneThere :
            others.countP (fun wire =>
              wiring.last wire = size + program.length) = 0 := by
          rw [List.countP_eq_zero]
          intro wire member
          have := wired.last_lt (inside wire member)
          simp only [decide_eq_true_eq]
          omega
        rw [wired.outDegree_next, noneThere,
          pending_attachAll_self wired distinct inside, Nat.zero_add]

end Step

/-! ## The finished graph -/

/-- The vertices of the items. -/
def itemVertices (size : ℕ) (program : List (List ℕ)) : List ℕ :=
  (List.range program.length).map (size + ·)

/-- What holds of the graph of a program. -/
structure IsCircuit (size : ℕ) (program : List (List ℕ))
    (edges : List (ℕ × ℕ)) : Prop where
  acyclic : Acyclic edges
  inDegree :
    ∀ place wires, program[place]? = some wires →
      inDegree edges (size + place) = wires.length
  outDegree :
    ∀ place wires, program[place]? = some wires →
      outDegree edges (size + place) = wires.length
  paths :
    ∀ wire < size,
      IsPath edges (trail size program wire ++ [size + program.length])

/-- Leading all wires to the sink finishes the graph. -/
theorem Wired.close {size : ℕ} {program : List (List ℕ)}
    {wiring : Wiring} (wired : Wired size program wiring) :
    IsCircuit size program
      (wiring.close size (size + program.length)) := by
  constructor
  case acyclic =>
      apply acyclic_of_upwards
      intro edge member
      rcases List.mem_append.mp member with old | new
      · exact (wired.upwards edge old).1
      · rcases List.mem_map.mp new with ⟨wire, inRange, rfl⟩
        exact wired.last_lt (List.mem_range.mp inRange)
  case inDegree =>
      intro place wires found
      have below := (List.getElem?_eq_some_iff.mp found).1
      rw [WireGraph.inDegree, Wiring.close, List.countP_append,
        ← WireGraph.inDegree, wired.incoming place wires found,
        Nat.add_eq_left, List.countP_eq_zero]
      intro edge member
      rcases List.mem_map.mp member with ⟨wire, -, rfl⟩
      simp [below.ne']
  case outDegree =>
      intro place wires found
      rw [← wired.outgoing place wires found, WireGraph.outDegree,
        Wiring.close, List.countP_append, List.countP_map]
      rfl
  case paths =>
      intro wire inRange
      refine ((wired.paths wire inRange).mono
        (List.subset_append_left _ _)).concat
          (wired.lasts wire inRange) ?_
      exact List.mem_append_right _
        (List.mem_map.mpr ⟨wire, List.mem_range.mpr inRange, rfl⟩)

section Orders

variable {size : ℕ} {program : List (List ℕ)} {edges : List (ℕ × ℕ)}

theorem increasing_places {places : List ℕ}
    (increasing : places.Pairwise (· < ·)) :
    (places.map (size + ·)).Pairwise (· < ·) :=
  increasing.map _ fun _ _ less => Nat.add_lt_add_left less size

theorem itemVertices_nodup : (itemVertices size program).Nodup :=
  List.nodup_range.map fun _ _ equal => Nat.add_left_cancel equal

theorem mem_itemVertices {vertex : ℕ} :
    vertex ∈ itemVertices size program ↔
      ∃ place < program.length, vertex = size + place := by
  simp [itemVertices, eq_comm]

/-- The items on a wire form a path of their own. -/
theorem IsCircuit.path_of_users (circuit : IsCircuit size program edges)
    {wire : ℕ} (inside : wire < size) :
    IsPath edges ((users program wire).map (size + ·)) := by
  have whole := circuit.paths wire inside
  rw [trail, IsPath, List.cons_append] at whole
  exact (List.isChain_append.mp whole.of_cons).1

/--
All topological orders of the items have the product of the program order,
if items without a common wire commute.
-/
theorem IsCircuit.composite_eq {M : Type} [Monoid M] {act : ℕ → M}
    (circuit : IsCircuit size program edges)
    (inside : ∀ wires ∈ program, ∀ wire ∈ wires, wire < size)
    (independent :
      ∀ first second wires others, program[first]? = some wires →
        program[second]? = some others → wires.Disjoint others →
          Commute (act (size + first)) (act (size + second)))
    {order : List ℕ}
    (topological :
      IsTopologicalOrder edges (itemVertices size program) order) :
    composite act order = composite act (itemVertices size program) := by
  refine topological.composite_eq itemVertices_nodup ?_
  intro source target before
  rcases mem_itemVertices.mp before.mem_left with ⟨first, below, rfl⟩
  rcases mem_itemVertices.mp before.mem_right with ⟨second, under, rfl⟩
  have less : first < second := by
    have := before.lt (increasing_places (List.pairwise_lt_range))
    omega
  have found := List.getElem?_eq_getElem below
  have foundOther := List.getElem?_eq_getElem under
  by_cases apart : program[first].Disjoint program[second]
  · exact .inl (independent first second _ _ found foundOther apart)
  · -- Both items lie on the path of a common wire.
    rw [List.Disjoint] at apart
    push Not at apart
    rcases apart with ⟨wire, takes, takesToo, -⟩
    have inRange := inside _ (List.getElem_mem below) wire takes
    refine .inr ⟨_, circuit.path_of_users inRange, ?_, ?_⟩
    · intro vertex member
      rcases List.mem_map.mp member with ⟨place, used, rfl⟩
      rcases mem_users.mp used with ⟨wires, known, -⟩
      exact mem_itemVertices.mpr
        ⟨place, (List.getElem?_eq_some_iff.mp known).1, rfl⟩
    · refine before_of_lt (increasing_places (users_pairwise program wire))
        (List.mem_map_of_mem (mem_users.mpr ⟨_, found, takes⟩))
        (List.mem_map_of_mem (mem_users.mpr ⟨_, foundOther, takesToo⟩)) ?_
      omega

end Orders

end MQSSPasses.General.WireGraph
