import MQSSPasses.General.OperationTree

/-!
# Walking over a list that is edited on the way

A compiler keeps the operations of a block in a linked list and reaches
them by address.  A walk over the list reads the address it goes to next
before it calls the pass, and the pass erases and inserts while the walk
stands at an operation.  If the pass erases the next operation, the walk
goes astray; if it inserts in front of it, the walk does not see what was
inserted.

`Memory` is such a list, `Command` what a rewriter does to it, and `walk`
the iteration.  `Confinement` says that a call stays behind the walk: it
erases no operation after the visited one, and inserts only right before
the next one, or before one fixed operation that lies behind.  If all calls
are confined the walk visits the operations it started with, once each and
in their order, and it agrees with the walk of `OperationTree`, where what
has not been visited is never touched by construction.
-/

namespace MQSSPasses.General.EarlyIncrementWalk

open MQSSPasses.General.TracedComputation
open MQSSPasses.General.OperationTree

/-! ## Lists with addresses -/

/-- An item with the address it is reached by. -/
structure Cell (Item : Type) where
  address : ℕ
  item : Item

section Memory

variable {Item : Type}

/-- The addresses of a list of cells. -/
def addresses (cells : List (Cell Item)) : List ℕ :=
  cells.map Cell.address

/-- The items of a list of cells. -/
def items (cells : List (Cell Item)) : List Item :=
  cells.map Cell.item

@[simp]
theorem addresses_append (first second : List (Cell Item)) :
    addresses (first ++ second) = addresses first ++ addresses second :=
  List.map_append

@[simp]
theorem addresses_cons (cell : Cell Item) (others : List (Cell Item)) :
    addresses (cell :: others) = cell.address :: addresses others := rfl

@[simp]
theorem addresses_nil : addresses ([] : List (Cell Item)) = [] := rfl

@[simp]
theorem items_append (first second : List (Cell Item)) :
    items (first ++ second) = items first ++ items second :=
  List.map_append

@[simp]
theorem items_cons (cell : Cell Item) (others : List (Cell Item)) :
    items (cell :: others) = cell.item :: items others := rfl

@[simp]
theorem items_nil : items ([] : List (Cell Item)) = [] := rfl

theorem address_mem {cell : Cell Item} {cells : List (Cell Item)}
    (member : cell ∈ cells) : cell.address ∈ addresses cells :=
  List.mem_map_of_mem member

/-- A list of cells with distinct addresses, and an address for a new one. -/
structure Memory (Item : Type) where
  cells : List (Cell Item)
  fresh : ℕ
  distinct : (addresses cells).Nodup
  used : ∀ address ∈ addresses cells, address < fresh

/-- The address of the first cell, if any: the point in front of it. -/
def front (cells : List (Cell Item)) : Option ℕ :=
  cells.head?.map Cell.address

@[simp]
theorem front_nil : front ([] : List (Cell Item)) = none := rfl

@[simp]
theorem front_cons (cell : Cell Item) (others : List (Cell Item)) :
    front (cell :: others) = some cell.address := rfl

theorem front_append_cons (cells : List (Cell Item)) (cell : Cell Item)
    (others : List (Cell Item)) :
    front (cells ++ cell :: others) =
      some ((front cells).getD cell.address) := by
  cases cells <;> rfl

/-! ### Splitting at an address -/

/-- The cells before an address, the cell there and the cells after it. -/
def splitAt (address : ℕ) :
    List (Cell Item) →
      Option (List (Cell Item) × Cell Item × List (Cell Item))
  | [] => none
  | cell :: others =>
      if cell.address = address then some ([], cell, others)
      else
        (splitAt address others).map fun found =>
          (cell :: found.1, found.2)

theorem splitAt_eq_none {address : ℕ} {cells : List (Cell Item)} :
    splitAt address cells = none ↔ address ∉ addresses cells := by
  induction cells with
  | nil => simp [splitAt]
  | cons cell others induction =>
      rw [splitAt]
      by_cases here : cell.address = address
      · simp [here]
      · rw [if_neg here, Option.map_eq_none_iff, induction,
          addresses_cons, List.mem_cons, not_or]
        exact ⟨fun later => ⟨Ne.symm here, later⟩, And.right⟩

theorem splitAt_of_distinct {lower upper : List (Cell Item)}
    {cell : Cell Item} (fresh : cell.address ∉ addresses lower) :
    splitAt cell.address (lower ++ cell :: upper) =
      some (lower, cell, upper) := by
  induction lower with
  | nil => simp [splitAt]
  | cons first others induction =>
      rw [addresses_cons, List.mem_cons, not_or] at fresh
      rw [List.cons_append, splitAt, if_neg (Ne.symm fresh.1),
        induction fresh.2]
      rfl

/-! ### Erasing and inserting -/

/-- Erase the cell at an address; nothing if there is none. -/
def Memory.erase (address : ℕ) (memory : Memory Item) :
    Option (Memory Item) :=
  if address ∈ addresses memory.cells then
    some
      { cells := memory.cells.filter fun cell => cell.address ≠ address
        fresh := memory.fresh
        distinct := memory.distinct.sublist (List.filter_sublist.map _)
        used := fun other member =>
          memory.used other ((List.filter_sublist.map _).subset member) }
  else none

/-- The cells with a new one in front of an address, or at the end. -/
def insertCell (point : Option ℕ) (new : Cell Item) :
    List (Cell Item) → List (Cell Item)
  | [] => [new]
  | cell :: others =>
      if point = some cell.address then new :: cell :: others
      else cell :: insertCell point new others

theorem insertCell_perm (point : Option ℕ) (new : Cell Item)
    (cells : List (Cell Item)) :
    (insertCell point new cells).Perm (new :: cells) := by
  induction cells with
  | nil => exact .refl _
  | cons cell others induction =>
      rw [insertCell]
      by_cases here : point = some cell.address
      · rw [if_pos here]
      · rw [if_neg here]
        exact (induction.cons cell).trans (.swap new cell others)

/-- A point in front of an address that is in use, or the end. -/
def Memory.IsPoint (memory : Memory Item) (point : Option ℕ) : Prop :=
  ∀ address ∈ point, address ∈ addresses memory.cells

instance (memory : Memory Item) (point : Option ℕ) :
    Decidable (memory.IsPoint point) := by
  unfold Memory.IsPoint
  infer_instance

/-- Insert an item at a point; nothing if the point is gone. -/
def Memory.insert (point : Option ℕ) (item : Item)
    (memory : Memory Item) : Option (Memory Item) :=
  if memory.IsPoint point then
    some
      { cells := insertCell point ⟨memory.fresh, item⟩ memory.cells
        fresh := memory.fresh + 1
        distinct := by
          rw [addresses, ((insertCell_perm _ _ _).map _).nodup_iff,
            List.map_cons, List.nodup_cons]
          exact ⟨fun member => (memory.used _ member).false,
            memory.distinct⟩
        used := by
          intro address member
          rw [addresses, ((insertCell_perm _ _ _).map _).mem_iff,
            List.map_cons, List.mem_cons] at member
          rcases member with rfl | old
          · exact Nat.lt_succ_self _
          · exact Nat.lt_succ_of_lt (memory.used address old) }
  else none

/-- The point behind the cell at an address. -/
def Memory.pointAfter (address : ℕ) (memory : Memory Item) :
    Option (Option ℕ) :=
  (splitAt address memory.cells).map fun found => front found.2.2

section Split

variable {memory : Memory Item} {lower upper : List (Cell Item)}
variable {cell : Cell Item}

theorem Memory.not_mem_lower
    (cells : memory.cells = lower ++ cell :: upper) :
    cell.address ∉ addresses lower := by
  have distinct := memory.distinct
  rw [cells, addresses_append, List.nodup_append] at distinct
  exact fun member => distinct.2.2 _ member _ List.mem_cons_self rfl

theorem Memory.not_mem_upper
    (cells : memory.cells = lower ++ cell :: upper) :
    cell.address ∉ addresses upper := by
  have distinct := memory.distinct
  rw [cells, addresses_append, List.nodup_append, addresses_cons,
    List.nodup_cons] at distinct
  exact distinct.2.1.1

theorem Memory.splitAt_eq
    (cells : memory.cells = lower ++ cell :: upper) :
    splitAt cell.address memory.cells = some (lower, cell, upper) := by
  rw [cells]
  exact splitAt_of_distinct (Memory.not_mem_lower cells)

theorem Memory.pointAfter_eq
    (cells : memory.cells = lower ++ cell :: upper) :
    memory.pointAfter cell.address = some (front upper) := by
  rw [Memory.pointAfter, Memory.splitAt_eq cells]
  rfl

theorem filter_address_of_not_mem {address : ℕ}
    {others : List (Cell Item)} (absent : address ∉ addresses others) :
    (others.filter fun other => other.address ≠ address) = others := by
  rw [List.filter_eq_self]
  intro other member
  rw [decide_eq_true_eq]
  exact fun equal => absent (equal ▸ address_mem member)

/-- Erasing takes out the one cell. -/
theorem Memory.erase_eq
    (cells : memory.cells = lower ++ cell :: upper) :
    ∃ after, memory.erase cell.address = some after ∧
      after.cells = lower ++ upper ∧ after.fresh = memory.fresh := by
  have used : cell.address ∈ addresses memory.cells := by
    rw [cells]
    exact address_mem (by simp)
  refine ⟨_, if_pos used, ?_, rfl⟩
  dsimp only
  rw [cells, List.filter_append, List.filter_cons, if_neg (by simp),
    filter_address_of_not_mem (Memory.not_mem_lower cells),
    filter_address_of_not_mem (Memory.not_mem_upper cells)]

theorem insertCell_eq {new : Cell Item}
    (distinct : (addresses (lower ++ upper)).Nodup) :
    insertCell (front upper) new (lower ++ upper) =
      lower ++ new :: upper := by
  induction lower with
  | nil =>
      cases upper with
      | nil => rfl
      | cons next others => simp [insertCell]
  | cons first others induction =>
      rw [List.cons_append, addresses_cons, List.nodup_cons] at distinct
      rw [List.cons_append, insertCell, if_neg, induction distinct.2,
        List.cons_append]
      intro here
      apply distinct.1
      cases upper with
      | nil => cases here
      | cons next later =>
          rw [front_cons, Option.some.injEq] at here
          rw [← here]
          exact address_mem (by simp)

/-- Inserting in front of what follows a place puts the item there. -/
theorem Memory.insert_eq (cells : memory.cells = lower ++ upper)
    (item : Item) :
    ∃ after, memory.insert (front upper) item = some after ∧
      after.cells = lower ++ ⟨memory.fresh, item⟩ :: upper ∧
      after.fresh = memory.fresh + 1 := by
  have point : memory.IsPoint (front upper) := by
    intro address member
    rw [cells]
    cases upper with
    | nil => cases member
    | cons next later =>
        cases member
        exact address_mem (by simp)
  refine ⟨_, if_pos point, ?_, rfl⟩
  dsimp only
  rw [cells]
  exact insertCell_eq (cells ▸ memory.distinct)

end Split

/-! ## The commands of a rewriter -/

/-- The operations a rewriter names: the visited one, one found by the
pass, or one the rewriter has created itself. -/
inductive Anchor where
  | visited
  | found (index : ℕ)
  | created (index : ℕ)
  deriving DecidableEq, Repr

/-- What a pass tells its rewriter. -/
inductive Command (Item : Type) where
  | setInsertionPoint (anchor : Anchor)
  | setInsertionPointAfter (anchor : Anchor)
  | create (item : Item)
  | eraseOp (anchor : Anchor)

/-- A rewriter: the memory, its insertion point and what it has created. -/
structure Rewriter (Item : Type) where
  memory : Memory Item
  point : Option (Option ℕ)
  created : List ℕ

/-- The address of what is named. -/
def Rewriter.resolve (visited : ℕ) (found : List ℕ)
    (rewriter : Rewriter Item) : Anchor → Option ℕ
  | .visited => some visited
  | .found index => found[index]?
  | .created index => rewriter.created[index]?

/-- Carry out one command; nothing if it uses an address that is gone. -/
def Rewriter.perform (visited : ℕ) (found : List ℕ)
    (rewriter : Rewriter Item) : Command Item → Option (Rewriter Item)
  | .setInsertionPoint anchor => do
      let address ← rewriter.resolve visited found anchor
      return { rewriter with point := some (some address) }
  | .setInsertionPointAfter anchor => do
      let address ← rewriter.resolve visited found anchor
      let point ← rewriter.memory.pointAfter address
      return { rewriter with point := some point }
  | .create item => do
      let point ← rewriter.point
      let memory ← rewriter.memory.insert point item
      return ⟨memory, rewriter.point,
        rewriter.created ++ [rewriter.memory.fresh]⟩
  | .eraseOp anchor => do
      let address ← rewriter.resolve visited found anchor
      let memory ← rewriter.memory.erase address
      return { rewriter with memory := memory }

/-- Carry out a list of commands. -/
def Rewriter.performAll (visited : ℕ) (found : List ℕ)
    (rewriter : Rewriter Item) :
    List (Command Item) → Option (Rewriter Item)
  | [] => some rewriter
  | command :: others => do
      let next ← rewriter.perform visited found command
      next.performAll visited found others

/-! ### What single commands do -/

section Steps

variable {visited : ℕ} {found : List ℕ} {rewriter : Rewriter Item}
variable {lower upper : List (Cell Item)} {cell : Cell Item}
variable {anchor : Anchor} (others : List (Command Item))

/-- Insert from now on behind a cell. -/
theorem Rewriter.setInsertionPointAfter_step
    (named : rewriter.resolve visited found anchor = some cell.address)
    (cells : rewriter.memory.cells = lower ++ cell :: upper) :
    rewriter.performAll visited found
        (.setInsertionPointAfter anchor :: others) =
      { rewriter with point := some (front upper) }.performAll visited
        found others := by
  rw [Rewriter.performAll, Rewriter.perform, named]
  simp [Memory.pointAfter_eq cells]

/-- Insert from now on in front of a cell. -/
theorem Rewriter.setInsertionPoint_step {address : ℕ}
    (named : rewriter.resolve visited found anchor = some address) :
    rewriter.performAll visited found
        (.setInsertionPoint anchor :: others) =
      { rewriter with point := some (some address) }.performAll visited
        found others := by
  rw [Rewriter.performAll, Rewriter.perform, named]
  rfl

/-- A created item stands in front of the insertion point. -/
theorem Rewriter.create_step {item : Item}
    (point : rewriter.point = some (front upper))
    (cells : rewriter.memory.cells = lower ++ upper) :
    ∃ next : Rewriter Item,
      rewriter.performAll visited found (.create item :: others) =
          next.performAll visited found others ∧
        next.memory.cells =
          lower ++ ⟨rewriter.memory.fresh, item⟩ :: upper ∧
        next.memory.fresh = rewriter.memory.fresh + 1 ∧
        next.point = rewriter.point ∧
        next.created = rewriter.created ++ [rewriter.memory.fresh] := by
  rcases Memory.insert_eq cells item with ⟨memory, inserted, stored, supply⟩
  refine ⟨⟨memory, rewriter.point, _⟩, ?_, stored, supply, rfl, rfl⟩
  rw [Rewriter.performAll, Rewriter.perform, point]
  simp [inserted]

/-- Items created in a row stand in a row in front of the point. -/
theorem Rewriter.create_steps {created : List Item}
    (point : rewriter.point = some (front upper))
    (cells : rewriter.memory.cells = lower ++ upper) :
    ∃ (next : Rewriter Item) (new : List (Cell Item)),
      rewriter.performAll visited found
          (created.map Command.create ++ others) =
          next.performAll visited found others ∧
        next.memory.cells = lower ++ new ++ upper ∧
        items new = created ∧
        (∀ cell ∈ new, rewriter.memory.fresh ≤ cell.address) ∧
        rewriter.memory.fresh ≤ next.memory.fresh ∧
        next.created = rewriter.created ++ addresses new := by
  induction created generalizing rewriter lower with
  | nil => exact ⟨rewriter, [], rfl, by simpa using cells, by simp⟩
  | cons item later induction =>
      rcases Rewriter.create_step
          (later.map Command.create ++ others) point cells with
        ⟨middle, performed, stored, supply, samePoint, named⟩
      rcases induction (samePoint.trans point)
          (show middle.memory.cells =
            (lower ++ [⟨rewriter.memory.fresh, item⟩]) ++ upper by
              rw [stored, List.append_assoc, List.singleton_append]) with
        ⟨next, new, continued, result, contents, unused, increased, all⟩
      refine ⟨next, ⟨rewriter.memory.fresh, item⟩ :: new,
        performed.trans continued, ?_, ?_, ?_, ?_, ?_⟩
      · rw [result]
        simp only [List.append_assoc, List.cons_append, List.nil_append]
      · rw [items_cons, contents]
      · intro cell member
        rcases List.mem_cons.mp member with rfl | tail
        · exact Nat.le_refl _
        · have above := unused cell tail
          omega
      · omega
      · rw [all, named, addresses_cons, List.append_assoc,
          List.singleton_append]

variable (visited found cell anchor) in
/-- Erasing takes out the named cell. -/
theorem Rewriter.eraseOp_step
    (named : rewriter.resolve visited found anchor = some cell.address)
    (cells : rewriter.memory.cells = lower ++ cell :: upper) :
    ∃ next : Rewriter Item,
      rewriter.performAll visited found (.eraseOp anchor :: others) =
          next.performAll visited found others ∧
        next.memory.cells = lower ++ upper ∧
        next.memory.fresh = rewriter.memory.fresh ∧
        next.created = rewriter.created := by
  rcases Memory.erase_eq cells with ⟨memory, erased, stored, supply⟩
  refine ⟨{ rewriter with memory := memory }, ?_, stored, supply, rfl⟩
  rw [Rewriter.performAll, Rewriter.perform, named]
  simp [erased]

end Steps

/-! ### A list in memory -/

/-- The cells of a list, addressed by position. -/
def cellsOf (program : List Item) : List (Cell Item) :=
  program.zipIdx.map fun entry => ⟨entry.2, entry.1⟩

@[simp]
theorem items_cellsOf (program : List Item) :
    items (cellsOf program) = program := by
  rw [items, cellsOf, List.map_map]
  exact List.zipIdx_map_fst 0 program

@[simp]
theorem addresses_cellsOf (program : List Item) :
    addresses (cellsOf program) = List.range program.length := by
  rw [addresses, cellsOf, List.map_map, List.range_eq_range']
  exact List.zipIdx_map_snd 0 program

/-- A list in memory. -/
def Memory.load (program : List Item) : Memory Item where
  cells := cellsOf program
  fresh := program.length
  distinct := by
    rw [addresses_cellsOf]
    exact List.nodup_range
  used := by
    intro address member
    rw [addresses_cellsOf] at member
    exact List.mem_range.mp member

/-! ### Finding a cell by its item -/

/-- The cells that hold the parts of a list of items. -/
theorem split_items {cells : List (Cell Item)} {first second : List Item}
    {item : Item} (contents : items cells = first ++ item :: second) :
    ∃ lower cell upper, cells = lower ++ cell :: upper ∧
      items lower = first ∧ cell.item = item ∧ items upper = second ∧
      cells[first.length]? = some cell := by
  rcases List.map_eq_append_iff.mp contents with
    ⟨lower, rest, rfl, below, above⟩
  rcases List.map_eq_cons_iff.mp above with
    ⟨cell, upper, rfl, here, above⟩
  refine ⟨lower, cell, upper, rfl, below, here, above, ?_⟩
  rw [← below, List.length_map, List.getElem?_append_right (by simp)]
  simp

end Memory

/-! ## The walk -/

section Walk

variable {Item Fault : Type}

/-- A call of the pass that has completed. -/
structure Call (Item : Type) where
  address : ℕ
  before : Memory Item
  after : Memory Item

/-- How a walk ends. -/
inductive Ending (Fault Item : Type) where
  | finished (memory : Memory Item)
  /-- The pass has broken. -/
  | failed (fault : Fault)
  /-- The operation to go to has been erased. -/
  | dangling
  /-- The walk has not come to an end with the given fuel. -/
  | running

/-- The addresses a walk goes to, the completed calls, and its end. -/
structure WalkRun (Fault Item : Type) where
  visited : List ℕ
  calls : List (Call Item)
  ending : Ending Fault Item

/--
Walk from an address on.  The address to go to next is read before the
call.
-/
def walk
    (call : ℕ → Memory Item → Except Fault (Memory Item)) :
    ℕ → Memory Item → Option ℕ → WalkRun Fault Item
  | _, memory, none => ⟨[], [], .finished memory⟩
  | 0, _, some _ => ⟨[], [], .running⟩
  | fuel + 1, memory, some address =>
      match memory.pointAfter address with
      | none => ⟨[], [], .dangling⟩
      | some next =>
          match call address memory with
          | .error fault => ⟨[address], [], .failed fault⟩
          | .ok after =>
              let later := walk call fuel after next
              ⟨address :: later.visited,
                ⟨address, memory, after⟩ :: later.calls, later.ending⟩

/--
A call at an address that stays behind the walk.  It erases no cell above
the visited one.  It inserts right below the cells above, or in front of one
fixed cell that is not above either.
-/
structure Confinement (first address : ℕ) (before after : Memory Item) where
  head : List (Cell Item)
  lower : List (Cell Item)
  cell : Cell Item
  upper : List (Cell Item)
  created : List (Cell Item)
  kept : List (Cell Item)
  inserted : List (Cell Item)
  entered : before.cells = head ++ lower ++ cell :: upper
  visited : cell.address = address
  left : after.cells = head ++ created ++ kept ++ inserted ++ upper
  erased : kept.Sublist (lower ++ [cell])
  unused :
    ∀ new ∈ created ++ inserted, before.fresh ≤ new.address
  supply : before.fresh ≤ after.fresh
  behind : created = [] ∨ front (lower ++ [cell]) = some first

/-- A call that is confined in some way. -/
def Confined (first address : ℕ) (before after : Memory Item) : Prop :=
  Nonempty (Confinement first address before after)

end Walk

/-! ## Confined walks -/

section Confined

variable {Label Fault Event : Type}

/--
What a call does to the memory, told by a call of the walk that cannot touch
what is above.  `created` is what an event has put in front of the body.
-/
structure Follows (first : ℕ) (created : Event → List (Node Label))
    (invariant :
      List (Cell (Node Label)) → List (Cell (Node Label)) → Prop)
    (memory : Memory (Node Label)) (head upper : List (Cell (Node Label)))
    (address : ℕ) (high : Traced Fault Event (Cursor (Node Label)))
    (low : Except Fault (Memory (Node Label))) : Prop where
  fails : ∀ fault, high.outcome = .error fault → low = .error fault
  returns :
    ∀ cursor, high.outcome = .ok cursor →
      ∃ after created' body,
        low = .ok after ∧
          after.cells = created' ++ body ++ upper ∧
          items created' = items head ++ high.trace.flatMap created ∧
          items body = cursor.visited ∧
          Confined first address memory after ∧
          invariant created' (body ++ upper)

/-- A walk over addresses that agrees with a walk over a list. -/
structure Agrees (first fresh : ℕ) (created : Event → List (Node Label))
    (head : List (Node Label)) (input : List ℕ)
    (high : Traced Fault Event (List (Node Label)))
    (low : WalkRun Fault (Node Label)) : Prop where
  confined :
    ∀ call ∈ low.calls, Confined first call.address call.before call.after
  supply : ∀ call ∈ low.calls, fresh ≤ call.before.fresh
  inOrder : low.visited <+: input
  fails :
    ∀ fault, high.outcome = .error fault → low.ending = .failed fault
  returns :
    ∀ result, high.outcome = .ok result →
      ∃ after, low.ending = .finished after ∧ low.visited = input ∧
        items after.cells = head ++ high.trace.flatMap created ++ result

variable {first : ℕ} {created : Event → List (Node Label)}
variable {invariant :
  List (Cell (Node Label)) → List (Cell (Node Label)) → Prop}
variable {high : Callback Label Fault Event}
variable {low : ℕ → Memory (Node Label) →
  Except Fault (Memory (Node Label))}

variable (first created invariant) in
/--
A walk whose calls are confined goes through the cells above in their
order, comes to an end, and leaves what the walk over the list leaves.
-/
theorem walk_agrees
    (each :
      ∀ (memory : Memory (Node Label)) head lower cell upper,
        memory.cells = head ++ lower ++ cell :: upper →
        invariant head (lower ++ cell :: upper) →
          Follows first created invariant memory head upper cell.address
            (high (.enter (items lower) cell.item (items upper)))
            (low cell.address memory))
    {memory : Memory (Node Label)}
    {head lower upper : List (Cell (Node Label))} {fuel : ℕ}
    (cells : memory.cells = head ++ lower ++ upper)
    (initially : invariant head (lower ++ upper))
    (flat : ∀ node ∈ items upper, node.blocks = [])
    (enough : upper.length ≤ fuel) :
    Agrees first memory.fresh created (items head) (addresses upper)
      (walkBlock high (items lower) (items upper))
      (walk low fuel memory (front upper)) := by
  induction upper generalizing memory head lower fuel with
  | nil =>
      rw [items_nil, walkBlock, front_nil, walk]
      exact
        { confined := by simp
          supply := by simp
          inOrder := List.prefix_rfl
          fails := by simp
          returns := by
            rintro result ⟨⟩
            exact ⟨memory, rfl, rfl, by simp [cells]⟩ }
  | cons cell upper induction =>
      cases fuel with
      | zero => simp at enough
      | succ fuel =>
          have follows := each memory head lower cell upper cells initially
          have next := Memory.pointAfter_eq cells
          have single := flat cell.item List.mem_cons_self
          rw [items_cons, walkBlock_cons_of_flat high single, front_cons,
            walk, next]
          dsimp only
          cases called :
              (high (.enter (items lower) cell.item
                (items upper))).outcome with
          | error fault =>
              rw [follows.fails fault called, Traced.bind_of_error called]
              exact
                { confined := by simp
                  supply := by simp
                  inOrder := ⟨addresses upper, rfl⟩
                  fails := by
                    rintro other ⟨⟩
                    rfl
                  returns := by simp }
          | ok cursor =>
              rcases follows.returns cursor called with
                ⟨after, head', body, returned, stored, put, contents,
                  confined, kept⟩
              have later :=
                induction stored kept
                  (fun node member =>
                    flat node (List.mem_cons_of_mem _ member))
                  (Nat.le_of_succ_le_succ enough)
              rw [returned, Traced.bind_of_ok called, ← contents]
              exact
                { confined := by
                    intro call member
                    rcases List.mem_cons.mp member with rfl | rest
                    · exact confined
                    · exact later.confined call rest
                  supply := by
                    intro call member
                    rcases List.mem_cons.mp member with rfl | rest
                    · exact Nat.le_refl _
                    · rcases confined with ⟨confinement⟩
                      exact confinement.supply.trans
                        (later.supply call rest)
                  inOrder :=
                    List.cons_prefix_cons.mpr ⟨rfl, later.inOrder⟩
                  fails := later.fails
                  returns := by
                    intro result returns
                    rcases later.returns result returns with
                      ⟨final, finished, visited, left⟩
                    refine ⟨final, finished,
                      congrArg (cell.address :: ·) visited, ?_⟩
                    rw [left, put, List.flatMap_append]
                    simp only [List.append_assoc] }

end Confined

end MQSSPasses.General.EarlyIncrementWalk
