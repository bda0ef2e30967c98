import MQSSPasses.General.OperationTree

/-!
# What is read off an operation tree

A reading folds a tree from the leaves: a block is read by joining what is
read off its operations, and an operation from its label and its blocks.
The operations of one kind, their number, or the tree without them are read
this way.

A rewriting walk changes a tree in many places and records events while it
does.  If what a call does to the part of the block behind it is a change
of the reading that is allowed for the events it records, then so is what
the walk does to the whole tree, however deep its regions are nested.  A
walk that breaks has made such a change up to there.
-/

namespace MQSSPasses.General.TreeReadings

open MQSSPasses.General.TracedComputation
open MQSSPasses.General.OperationTree

/-- How a value is computed from a tree. -/
structure Reading (Label Value : Type) where
  empty : Value
  join : Value → Value → Value
  node : Label → List Value → Value
  empty_join : ∀ value, join empty value = value
  join_empty : ∀ value, join value empty = value
  join_assoc :
    ∀ first second third,
      join (join first second) third = join first (join second third)

namespace Reading

variable {Label Value Fault Event : Type}
variable (reading : Reading Label Value)

mutual

/-- What is read off an operation. -/
def readNode : Node Label → Value
  | .mk label blocks => reading.node label (readBlocks blocks)

/-- What is read off the blocks of an operation. -/
def readBlocks : List (List (Node Label)) → List Value
  | [] => []
  | block :: others => readBlock block :: readBlocks others

/-- What is read off a block. -/
def readBlock : List (Node Label) → Value
  | [] => reading.empty
  | node :: rest => reading.join (readNode node) (readBlock rest)

end

@[simp]
theorem readBlock_nil : reading.readBlock [] = reading.empty := by
  rw [readBlock]

theorem readBlock_cons (node : Node Label) (rest : List (Node Label)) :
    reading.readBlock (node :: rest) =
      reading.join (reading.readNode node) (reading.readBlock rest) := by
  rw [readBlock]

theorem readBlock_append (first second : List (Node Label)) :
    reading.readBlock (first ++ second) =
      reading.join (reading.readBlock first)
        (reading.readBlock second) := by
  induction first with
  | nil => rw [List.nil_append, readBlock_nil, reading.empty_join]
  | cons node rest induction =>
      rw [List.cons_append, readBlock_cons, readBlock_cons, induction,
        reading.join_assoc]

@[simp]
theorem readBlock_singleton (node : Node Label) :
    reading.readBlock [node] = reading.readNode node := by
  rw [readBlock_cons, readBlock_nil, reading.join_empty]

theorem readNode_leaf (label : Label) :
    reading.readNode (.leaf label) = reading.node label [] := by
  rw [Node.leaf, readNode, readBlocks]

/-! ## Changes -/

/--
Which changes of the value a list of recorded events allows.  Changes one
after the other make a change, and a change inside a tree is one of the
tree.
-/
structure Changes
    (allowed : List Event → Value → Value → Prop) : Prop where
  none : ∀ value, allowed [] value value
  compose :
    ∀ {early late first second third}, allowed early first second →
      allowed late second third → allowed (early ++ late) first third
  before :
    ∀ {events first second} (value : Value), allowed events first second →
      allowed events (reading.join value first) (reading.join value second)
  after :
    ∀ {events first second} (value : Value), allowed events first second →
      allowed events (reading.join first value) (reading.join second value)
  inside :
    ∀ {events first second} (label : Label) (left right : List Value),
      allowed events first second →
        allowed events (reading.node label (left ++ first :: right))
          (reading.node label (left ++ second :: right))

variable {reading}
variable {allowed : List Event → Value → Value → Prop}

/--
The events of a computation change the value as is allowed, up to where it
breaks.  If it returns, they lead to the value of the result.
-/
def Reaches {Result : Type} (allowed : List Event → Value → Value → Prop)
    (read : Result → Value) (first : Value)
    (computation : Traced Fault Event Result) : Prop :=
  ∃ last,
    allowed computation.trace first last ∧
      ∀ result, computation.outcome = .ok result → read result = last

section Reaches

variable {First Second : Type}
variable {read : First → Value} {readNext : Second → Value}
variable {first : Value}

theorem Reaches.of_returned {computation : Traced Fault Event First}
    {result : First} (reaches : Reaches allowed read first computation)
    (returned : computation.outcome = .ok result) :
    allowed computation.trace first (read result) := by
  rcases reaches with ⟨last, changed, same⟩
  rw [same result returned]
  exact changed

theorem Changes.pure (changes : reading.Changes allowed) (result : First) :
    Reaches allowed read (read result)
      (pure result : Traced Fault Event First) := by
  refine ⟨read result, changes.none _, ?_⟩
  rintro other ⟨⟩
  rfl

theorem Changes.bind (changes : reading.Changes allowed)
    {computation : Traced Fault Event First}
    {next : First → Traced Fault Event Second}
    (head : Reaches allowed read first computation)
    (tail :
      ∀ result, computation.outcome = .ok result →
        Reaches allowed readNext (read result) (next result)) :
    Reaches allowed readNext first (computation >>= next) := by
  cases returned : computation.outcome with
  | error fault =>
      rcases head with ⟨last, changed, -⟩
      rw [Traced.bind_of_error returned]
      refine ⟨last, changed, ?_⟩
      intro result impossible
      cases impossible
  | ok result =>
      have changed := head.of_returned returned
      rcases tail result returned with ⟨last, further, same⟩
      rw [Traced.bind_of_ok returned]
      exact ⟨last, changes.compose changed further, same⟩

/-- What is a change of a part is one of the whole. -/
theorem Reaches.map {computation : Traced Fault Event First}
    (reaches : Reaches allowed read first computation)
    {whole : Value → Value}
    (changed :
      ∀ {events first second}, allowed events first second →
        allowed events (whole first) (whole second)) :
    Reaches allowed (fun result => whole (read result)) (whole first)
      computation := by
  rcases reaches with ⟨last, inner, same⟩
  refine ⟨whole last, changed inner, ?_⟩
  intro result returned
  exact congrArg whole (same result returned)

end Reaches

variable {call : Callback Label Fault Event}

/-- A call changes the part of the block behind the walk as is allowed. -/
def CallChanges (reading : Reading Label Value)
    (allowed : List Event → Value → Value → Prop)
    (call : Callback Label Fault Event) : Prop :=
  ∀ cursor,
    Reaches allowed (fun after => reading.readBlock after.visited)
      (reading.readBlock cursor.visited) (call cursor)

mutual

/-- What the calls do at their operations, the walk does to the tree. -/
theorem Changes.walkNode (changes : reading.Changes allowed)
    (each : CallChanges reading allowed call) :
    ∀ node : Node Label,
      Reaches allowed reading.readNode (reading.readNode node)
        (walkNode call node)
  | .mk label blocks => by
      rw [OperationTree.walkNode, readNode]
      refine changes.bind
        (Changes.walkBlocks changes each label [] blocks) ?_
      intro result _
      change Reaches allowed reading.readNode
        (reading.node label (reading.readBlocks result)) _
      rw [← readNode]
      exact changes.pure _

theorem Changes.walkBlocks (changes : reading.Changes allowed)
    (each : CallChanges reading allowed call) (label : Label)
    (left : List Value) :
    ∀ blocks : List (List (Node Label)),
      Reaches allowed
        (fun result => reading.node label (left ++ reading.readBlocks result))
        (reading.node label (left ++ reading.readBlocks blocks))
        (walkBlocks call blocks)
  | [] => by
      rw [OperationTree.walkBlocks]
      exact changes.pure []
  | block :: others => by
      rw [OperationTree.walkBlocks, readBlocks]
      have head :=
        (Changes.walkBlock changes each [] block).map fun changed =>
          changes.inside label left (reading.readBlocks others) changed
      refine changes.bind head ?_
      intro first _
      have tail :=
        Changes.walkBlocks changes each label
          (left ++ [reading.readBlock first]) others
      simp only [List.append_assoc, List.singleton_append] at tail
      refine changes.bind tail ?_
      intro later _
      rw [← readBlocks]
      exact changes.pure _

theorem Changes.walkBlock (changes : reading.Changes allowed)
    (each : CallChanges reading allowed call)
    (visited : List (Node Label)) :
    ∀ nodes : List (Node Label),
      Reaches allowed reading.readBlock
        (reading.readBlock (visited ++ nodes)) (walkBlock call visited nodes)
  | [] => by
      rw [OperationTree.walkBlock, List.append_nil]
      exact changes.pure visited
  | node :: rest => by
      rw [OperationTree.walkBlock, readBlock_append, readBlock_cons]
      have inner :=
        (Changes.walkNode changes each node).map fun changed =>
          changes.before (reading.readBlock visited)
            (changes.after (reading.readBlock rest) changed)
      refine changes.bind inner ?_
      intro walked _
      have here :=
        (each (.enter visited walked rest)).map fun changed =>
          changes.after (reading.readBlock rest) changed
      have joined :
          Cursor.visited (.enter visited walked rest) =
            visited ++ [walked] := by
        simp [Cursor.visited, Cursor.enter]
      rw [joined, readBlock_append, readBlock_singleton,
        reading.join_assoc] at here
      refine changes.bind here ?_
      intro cursor _
      have outer := Changes.walkBlock changes each cursor.visited rest
      rw [readBlock_append] at outer
      exact outer

end

end Reading

end MQSSPasses.General.TreeReadings
