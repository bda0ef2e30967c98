import MQSSPasses.General.TracedComputation

/-!
# Operation trees and the post-order rewriting walk

An intermediate representation with regions is an ordered forest: an
operation carries a label and a list of blocks, and a block is a list of
operations.  A rewriting pass walks the forest in post-order.  Inside a
block the walk fixes the operation it visits next before it calls the
pass; the call may edit everything up to that point, so what is still to
be visited is never touched.

`Cursor` is the state handed to one call.  The visited operation is kept
as an optional cell: a call that erases it empties the cell, and a later
call that reads the empty cell reads an erased operation.
-/

namespace MQSSPasses.General.OperationTree

open MQSSPasses.General.TracedComputation

/-- An operation with the blocks of its regions. -/
inductive Node (Label : Type) where
  | mk (label : Label) (blocks : List (List (Node Label)))

namespace Node

variable {Label : Type}

/-- The label of an operation. -/
def label : Node Label → Label
  | .mk label _ => label

/-- The blocks nested in an operation. -/
def blocks : Node Label → List (List (Node Label))
  | .mk _ blocks => blocks

/-- An operation without regions. -/
def leaf (label : Label) : Node Label :=
  .mk label []

@[simp]
theorem label_mk (label : Label) (blocks : List (List (Node Label))) :
    (Node.mk label blocks).label = label := rfl

@[simp]
theorem blocks_mk (label : Label) (blocks : List (List (Node Label))) :
    (Node.mk label blocks).blocks = blocks := rfl

@[simp]
theorem label_leaf (label : Label) : (leaf label).label = label := rfl

@[simp]
theorem blocks_leaf (label : Label) : (leaf label).blocks = [] := rfl

/-- An operation without regions is determined by its label. -/
theorem eq_leaf {node : Node Label} (flat : node.blocks = []) :
    node = leaf node.label := by
  cases node with
  | mk label blocks =>
      simp only [blocks_mk] at flat
      subst flat
      rfl

end Node

/--
A position in a block during the walk: the operations before the visited
one, the visited one unless it has been erased, the operations inserted
behind it, and the operations the walk has not reached.
-/
structure Cursor (Item : Type) where
  before : List Item
  current : Option Item
  inserted : List Item
  rest : List Item

namespace Cursor

variable {Item : Type}

/-- The part of the block the walk has gone through. -/
def visited (cursor : Cursor Item) : List Item :=
  cursor.before ++ cursor.current.toList ++ cursor.inserted

/-- The whole block. -/
def contents (cursor : Cursor Item) : List Item :=
  cursor.visited ++ cursor.rest

/-- The cursor with which the walk enters an operation. -/
def enter (visited : List Item) (item : Item) (rest : List Item) :
    Cursor Item :=
  ⟨visited, some item, [], rest⟩

@[simp]
theorem contents_enter (visited : List Item) (item : Item)
    (rest : List Item) :
    (enter visited item rest).contents = visited ++ item :: rest := by
  simp [contents, Cursor.visited, enter]

@[simp]
theorem rest_enter (visited : List Item) (item : Item)
    (rest : List Item) :
    (enter visited item rest).rest = rest := rfl

end Cursor

/-! ## The walk -/

section Walk

variable {Label Fault Event : Type}

/-- What a pass does at one operation. -/
abbrev Callback (Label Fault Event : Type) :=
  Cursor (Node Label) → Traced Fault Event (Cursor (Node Label))

mutual

/-- Walk the blocks nested in an operation. -/
def walkNode (call : Callback Label Fault Event) :
    Node Label → Traced Fault Event (Node Label)
  | .mk label blocks => do
      let blocks ← walkBlocks call blocks
      return .mk label blocks

/-- Walk a list of blocks from left to right. -/
def walkBlocks (call : Callback Label Fault Event) :
    List (List (Node Label)) →
      Traced Fault Event (List (List (Node Label)))
  | [] => return []
  | block :: others => do
      let block ← walkBlock call [] block
      let others ← walkBlocks call others
      return block :: others

/--
Walk the unvisited part of a block.  The nested blocks of an operation are
walked before the call at the operation itself.
-/
def walkBlock (call : Callback Label Fault Event)
    (visited : List (Node Label)) :
    List (Node Label) → Traced Fault Event (List (Node Label))
  | [] => return visited
  | node :: rest => do
      let node ← walkNode call node
      let cursor ← call (.enter visited node rest)
      walkBlock call cursor.visited rest

end

section Closed

variable {call : Callback Label Fault Event}
variable {judgement : ∀ Value : Type, Traced Fault Event Value → Prop}

mutual

/--
A judgement that returning and sequencing keep holds of a walk if it holds
of the calls at the operations the walk enters, however deep the regions
are nested.
-/
theorem walkNode_closed (closed : Traced.Closed judgement)
    (each :
      ∀ visited node rest,
        judgement _ (call (.enter visited node rest))) :
    ∀ node : Node Label, judgement _ (walkNode call node)
  | .mk label blocks => by
      rw [walkNode]
      exact closed.sequence (walkBlocks_closed closed each blocks)
        fun _ => closed.returns _

theorem walkBlocks_closed (closed : Traced.Closed judgement)
    (each :
      ∀ visited node rest,
        judgement _ (call (.enter visited node rest))) :
    ∀ blocks : List (List (Node Label)),
      judgement _ (walkBlocks call blocks)
  | [] => by
      rw [walkBlocks]
      exact closed.returns _
  | block :: others => by
      rw [walkBlocks]
      exact closed.sequence (walkBlock_closed closed each [] block)
        fun _ => closed.sequence (walkBlocks_closed closed each others)
          fun _ => closed.returns _

theorem walkBlock_closed (closed : Traced.Closed judgement)
    (each :
      ∀ visited node rest,
        judgement _ (call (.enter visited node rest)))
    (visited : List (Node Label)) :
    ∀ nodes : List (Node Label),
      judgement _ (walkBlock call visited nodes)
  | [] => by
      rw [walkBlock]
      exact closed.returns _
  | node :: rest => by
      rw [walkBlock]
      exact closed.sequence (walkNode_closed closed each node) fun node =>
        closed.sequence (each visited node rest) fun cursor =>
          walkBlock_closed closed each cursor.visited rest

end

/-- If every call records only good events, so does the walk. -/
theorem walkNode_satisfies {onEvent : Event → Prop}
    (each :
      ∀ cursor, (call cursor).Satisfies onEvent (fun _ => True))
    (node : Node Label) :
    (walkNode call node).Satisfies onEvent (fun _ => True) :=
  walkNode_closed (Traced.Satisfies.closed onEvent)
    (fun visited entered rest => each (.enter visited entered rest)) node

end Closed

section Related

variable {Target : Type}
variable {left : Callback Label Fault Event}
variable {right : Callback Label Fault Target}
variable {relation :
  ∀ Value : Type, Traced Fault Event Value →
    Traced Fault Target Value → Prop}

mutual

/-- Two walks are related if their calls are. -/
theorem walkNode_related (congruence : Traced.Congruence relation)
    (each : ∀ cursor, relation _ (left cursor) (right cursor)) :
    ∀ node : Node Label,
      relation _ (walkNode left node) (walkNode right node)
  | .mk label blocks => by
      rw [walkNode, walkNode]
      exact congruence.sequence
        (walkBlocks_related congruence each blocks)
        fun _ => congruence.returns _

theorem walkBlocks_related (congruence : Traced.Congruence relation)
    (each : ∀ cursor, relation _ (left cursor) (right cursor)) :
    ∀ blocks : List (List (Node Label)),
      relation _ (walkBlocks left blocks) (walkBlocks right blocks)
  | [] => by
      rw [walkBlocks, walkBlocks]
      exact congruence.returns _
  | block :: others => by
      rw [walkBlocks, walkBlocks]
      exact congruence.sequence
        (walkBlock_related congruence each [] block)
        fun _ => congruence.sequence
          (walkBlocks_related congruence each others)
          fun _ => congruence.returns _

theorem walkBlock_related (congruence : Traced.Congruence relation)
    (each : ∀ cursor, relation _ (left cursor) (right cursor))
    (visited : List (Node Label)) :
    ∀ nodes : List (Node Label),
      relation _ (walkBlock left visited nodes)
        (walkBlock right visited nodes)
  | [] => by
      rw [walkBlock, walkBlock]
      exact congruence.returns _
  | node :: rest => by
      rw [walkBlock, walkBlock]
      exact congruence.sequence (walkNode_related congruence each node)
        fun _ => congruence.sequence (each _) fun cursor =>
          walkBlock_related congruence each cursor.visited rest

end

/--
Calls that only differ in what they record make walks that only differ in
what they record.
-/
theorem walkNode_mapTrace {relabel : Target → Event}
    (same : ∀ cursor, left cursor = (right cursor).mapTrace relabel)
    (node : Node Label) :
    walkNode left node = (walkNode right node).mapTrace relabel :=
  walkNode_related (Traced.mapTrace_congruence relabel) same node

/-- What a walk returns does not depend on what its calls record. -/
theorem walkNode_outcome_congr
    (same : ∀ cursor, (left cursor).outcome = (right cursor).outcome)
    (node : Node Label) :
    (walkNode left node).outcome = (walkNode right node).outcome :=
  walkNode_related Traced.outcome_congruence same node

end Related

/-! ## The walk of a pass that edits nothing -/

mutual

/-- The operations of a tree in the order a walk visits them. -/
def postOrder : Node Label → List (Node Label)
  | .mk label blocks => postOrderBlocks blocks ++ [.mk label blocks]

def postOrderBlocks : List (List (Node Label)) → List (Node Label)
  | [] => []
  | block :: others => postOrderBlock block ++ postOrderBlocks others

def postOrderBlock : List (Node Label) → List (Node Label)
  | [] => []
  | node :: rest => postOrder node ++ postOrderBlock rest

end

mutual

/-- What is nested in an operation of a tree belongs to the tree. -/
theorem postOrder_subset {op : Node Label} :
    ∀ {node : Node Label}, op ∈ postOrder node →
      postOrder op ⊆ postOrder node
  | .mk label blocks, member => by
      rw [postOrder] at member ⊢
      rcases List.mem_append.mp member with nested | itself
      · exact fun _ deeper =>
          List.mem_append_left _ (postOrderBlocks_subset nested deeper)
      · rw [List.mem_singleton.mp itself, postOrder]
        exact List.Subset.refl _

theorem postOrderBlocks_subset {op : Node Label} :
    ∀ {blocks : List (List (Node Label))}, op ∈ postOrderBlocks blocks →
      postOrder op ⊆ postOrderBlocks blocks
  | [], member => by
      rw [postOrderBlocks] at member
      cases member
  | block :: others, member => by
      rw [postOrderBlocks] at member ⊢
      rcases List.mem_append.mp member with first | later
      · exact fun _ deeper =>
          List.mem_append_left _ (postOrderBlock_subset first deeper)
      · exact fun _ deeper =>
          List.mem_append_right _ (postOrderBlocks_subset later deeper)

theorem postOrderBlock_subset {op : Node Label} :
    ∀ {nodes : List (Node Label)}, op ∈ postOrderBlock nodes →
      postOrder op ⊆ postOrderBlock nodes
  | [], member => by
      rw [postOrderBlock] at member
      cases member
  | node :: rest, member => by
      rw [postOrderBlock] at member ⊢
      rcases List.mem_append.mp member with first | later
      · exact fun _ deeper =>
          List.mem_append_left _ (postOrder_subset first deeper)
      · exact fun _ deeper =>
          List.mem_append_right _ (postOrderBlock_subset later deeper)

end

theorem postOrderBlock_of_flat {nodes : List (Node Label)}
    (flat : ∀ node ∈ nodes, node.blocks = []) :
    postOrderBlock nodes = nodes := by
  induction nodes with
  | nil => rw [postOrderBlock]
  | cons node rest induction =>
      have single : postOrder node = [node] := by
        rw [Node.eq_leaf (flat node List.mem_cons_self), Node.leaf,
          postOrder, postOrderBlocks, List.nil_append]
      rw [postOrderBlock, single, induction fun other member =>
        flat other (List.mem_cons_of_mem node member), List.singleton_append]

/-- The walk over a kernel visits its block and then the kernel. -/
theorem postOrder_of_one_block (label : Label)
    {block : List (Node Label)}
    (flat : ∀ node ∈ block, node.blocks = []) :
    postOrder (.mk label [block]) = block ++ [.mk label [block]] := by
  rw [postOrder, postOrderBlocks, postOrderBlocks, List.append_nil,
    postOrderBlock_of_flat flat]

/-! ## The walk over a block without regions -/

/-- Walking an operation without regions does nothing. -/
theorem walkNode_of_flat (call : Callback Label Fault Event)
    {node : Node Label} (flat : node.blocks = []) :
    walkNode call node = pure node := by
  cases node with
  | mk label blocks =>
      simp only [Node.blocks_mk] at flat
      subst flat
      simp [walkNode, walkBlocks]

/-- Walking an operation with one block is walking the block. -/
theorem walkNode_of_one_block (call : Callback Label Fault Event)
    (label : Label) (block : List (Node Label)) :
    (walkNode call (.mk label [block])).trace =
        (walkBlock call [] block).trace ∧
      ∀ node, (walkNode call (.mk label [block])).outcome = .ok node →
        ∃ result, (walkBlock call [] block).outcome = .ok result ∧
          node = .mk label [result] := by
  rw [walkNode, walkBlocks, walkBlocks]
  cases walked : (walkBlock call [] block).outcome with
  | error fault =>
      rw [Traced.bind_of_error walked, Traced.bind_of_error rfl]
      simp
  | ok result =>
      rw [Traced.bind_of_ok walked, Traced.bind_of_ok rfl]
      simp [eq_comm]

/-- If the walk over the only block returns, so does the whole walk. -/
theorem walkNode_returns_of_one_block
    {call : Callback Label Fault Event} {label : Label}
    {block result : List (Node Label)}
    (returned : (walkBlock call [] block).outcome = .ok result) :
    (walkNode call (.mk label [block])).outcome =
      .ok (.mk label [result]) := by
  rw [walkNode, walkBlocks, walkBlocks, Traced.bind_of_ok,
    Traced.pure_outcome]
  rw [Traced.bind_of_ok returned]
  simp

/-- If the walk over the only block fails, so does the whole walk. -/
theorem walkNode_fails_of_one_block
    {call : Callback Label Fault Event} {label : Label}
    {block : List (Node Label)} {fault : Fault}
    (failed : (walkBlock call [] block).outcome = .error fault) :
    (walkNode call (.mk label [block])).outcome = .error fault := by
  rw [walkNode, walkBlocks, walkBlocks, Traced.bind_of_error]
  rw [Traced.bind_of_error failed]

theorem walkBlock_cons_of_flat (call : Callback Label Fault Event)
    {node : Node Label} (flat : node.blocks = [])
    (visited rest : List (Node Label)) :
    walkBlock call visited (node :: rest) =
      call (.enter visited node rest) >>= fun cursor =>
        walkBlock call cursor.visited rest := by
  rw [walkBlock, walkNode_of_flat call flat]
  simp

/--
The invariant rule: a property of the block's contents that every call
keeps is kept by the walk, and every recorded event is good.
-/
theorem walkBlock_satisfies_of_flat
    {call : Callback Label Fault Event} {onEvent : Event → Prop}
    {invariant : List (Node Label) → Prop}
    (each :
      ∀ cursor, invariant cursor.contents →
        (call cursor).Satisfies onEvent
          (fun after =>
            invariant after.contents ∧ after.rest = cursor.rest))
    (visited nodes : List (Node Label))
    (flat : ∀ node ∈ nodes, node.blocks = [])
    (initially : invariant (visited ++ nodes)) :
    (walkBlock call visited nodes).Satisfies onEvent invariant := by
  induction nodes generalizing visited with
  | nil =>
      rw [walkBlock]
      exact .of_pure (by simpa using initially)
  | cons node rest induction =>
      rw [walkBlock_cons_of_flat call (flat node List.mem_cons_self)]
      refine Traced.Satisfies.bind (each _ (by simpa using initially)) ?_
      rintro cursor ⟨holds, kept⟩
      refine induction cursor.visited
        (fun next member => flat next (List.mem_cons_of_mem node member)) ?_
      have unreached : cursor.rest = rest := kept
      rw [← unreached]
      exact holds

/--
The completion rule: if every call the walk makes returns and keeps a
property of the block's contents, the walk returns a block with it.
-/
theorem walkBlock_returns_of_flat
    {call : Callback Label Fault Event}
    {invariant : List (Node Label) → Prop}
    (each :
      ∀ visited node rest, invariant (visited ++ node :: rest) →
        ∃ after, (call (.enter visited node rest)).outcome = .ok after ∧
          invariant after.contents ∧ after.rest = rest)
    (visited nodes : List (Node Label))
    (flat : ∀ node ∈ nodes, node.blocks = [])
    (initially : invariant (visited ++ nodes)) :
    ∃ result, (walkBlock call visited nodes).outcome = .ok result ∧
      invariant result := by
  induction nodes generalizing visited with
  | nil =>
      rw [walkBlock]
      exact ⟨visited, rfl, by simpa using initially⟩
  | cons node rest induction =>
      rcases each visited node rest initially with
        ⟨after, returned, kept, unreached⟩
      rw [walkBlock_cons_of_flat call (flat node List.mem_cons_self),
        Traced.bind_of_ok returned]
      apply induction after.visited
        (fun next member => flat next (List.mem_cons_of_mem node member))
      rw [← unreached]
      exact kept

/--
A call that only replaces the visited operation turns the walk into the
replacement of every operation.
-/
theorem walkBlock_replaces_of_flat
    {call : Callback Label Fault Event}
    {replacement : Node Label → List (Node Label)}
    (visited nodes : List (Node Label))
    (each :
      ∀ visited, ∀ node ∈ nodes, ∀ rest,
        ∃ after, (call (.enter visited node rest)).outcome = .ok after ∧
          after.visited = visited ++ replacement node)
    (flat : ∀ node ∈ nodes, node.blocks = []) :
    (walkBlock call visited nodes).outcome =
      .ok (visited ++ nodes.flatMap replacement) := by
  induction nodes generalizing visited with
  | nil => simp [walkBlock]
  | cons node rest induction =>
      rcases each visited node List.mem_cons_self rest with
        ⟨after, returned, replaced⟩
      have later :=
        induction after.visited
          (fun visited next member =>
            each visited next (List.mem_cons_of_mem node member))
          (fun next member => flat next (List.mem_cons_of_mem node member))
      rw [walkBlock_cons_of_flat call (flat node List.mem_cons_self),
        Traced.bind_of_ok returned, later, replaced, List.flatMap_cons,
        List.append_assoc]

/-- If the events of a call only depend on the visited operation. -/
theorem walkBlock_trace_of_flat
    {call : Callback Label Fault Event}
    {events : Node Label → List Event}
    (visited nodes : List (Node Label))
    (each :
      ∀ visited, ∀ node ∈ nodes, ∀ rest,
        (∃ after, (call (.enter visited node rest)).outcome = .ok after) ∧
          (call (.enter visited node rest)).trace = events node)
    (flat : ∀ node ∈ nodes, node.blocks = []) :
    (walkBlock call visited nodes).trace = nodes.flatMap events := by
  induction nodes generalizing visited with
  | nil => simp [walkBlock]
  | cons node rest induction =>
      rcases each visited node List.mem_cons_self rest with
        ⟨⟨after, returned⟩, recorded⟩
      have later :=
        induction after.visited
          (fun visited next member =>
            each visited next (List.mem_cons_of_mem node member))
          (fun next member => flat next (List.mem_cons_of_mem node member))
      rw [walkBlock_cons_of_flat call (flat node List.mem_cons_self),
        Traced.bind_of_ok returned, later, recorded, List.flatMap_cons]

variable (source target : Event → List (Node Label))

/--
A call whose recorded edits lead from the block it was given to the block
it returns, and which leaves the unvisited operations alone.
-/
def EditsBlock (call : Callback Label Fault Event) : Prop :=
  ∀ cursor, ∃ finish,
    Traced.Leads source target cursor.contents
        (call cursor).trace finish ∧
      ∀ after, (call cursor).outcome = .ok after →
        after.contents = finish ∧ after.rest = cursor.rest

variable {source target}

/-- Two such calls one after the other form such a call. -/
theorem EditsBlock.bind
    {first second : Callback Label Fault Event}
    (firstEdits : EditsBlock source target first)
    (secondEdits : EditsBlock source target second) :
    EditsBlock source target
      (fun cursor => first cursor >>= second) := by
  intro cursor
  dsimp only
  rcases firstEdits cursor with ⟨middle, reaches, returns⟩
  cases returned : (first cursor).outcome with
  | error fault =>
      refine ⟨middle, ?_, ?_⟩
      · rw [Traced.bind_of_error returned]
        exact reaches
      · rw [Traced.bind_of_error returned]
        simp
  | ok next =>
      rcases returns next returned with ⟨contents, unreached⟩
      rcases secondEdits next with ⟨finish, continues, concludes⟩
      rw [contents] at continues
      refine ⟨finish, ?_, ?_⟩
      · rw [Traced.bind_of_ok returned]
        exact reaches.append continues
      · rw [Traced.bind_of_ok returned]
        intro after ends
        rcases concludes after ends with ⟨final, kept⟩
        exact ⟨final, kept.trans unreached⟩

/--
The edits recorded by a walk over a block without regions lead from the
block to the block the walk returns.
-/
theorem walkBlock_leads
    {call : Callback Label Fault Event}
    (edits : EditsBlock source target call)
    (visited nodes : List (Node Label))
    (flat : ∀ node ∈ nodes, node.blocks = []) :
    ∃ finish,
      Traced.Leads source target (visited ++ nodes)
          (walkBlock call visited nodes).trace finish ∧
        ∀ after, (walkBlock call visited nodes).outcome = .ok after →
          after = finish := by
  induction nodes generalizing visited with
  | nil =>
      refine ⟨visited, ?_, ?_⟩
      · simpa [walkBlock] using
          (Traced.Leads.done visited :
            Traced.Leads source target visited [] visited)
      · intro after returned
        simpa [walkBlock, eq_comm] using returned
  | cons node rest induction =>
      rw [walkBlock_cons_of_flat call (flat node List.mem_cons_self)]
      rcases edits (.enter visited node rest) with
        ⟨middle, reaches, returns⟩
      rw [Cursor.contents_enter] at reaches
      cases returned : (call (.enter visited node rest)).outcome with
      | error fault =>
          rw [Traced.bind_of_error returned]
          exact ⟨middle, reaches, by simp⟩
      | ok cursor =>
          rcases returns cursor returned with ⟨contents, unreached⟩
          rw [Cursor.rest_enter] at unreached
          rcases
            induction cursor.visited
              (fun next member =>
                flat next (List.mem_cons_of_mem node member)) with
            ⟨finish, continues, concludes⟩
          have joined : cursor.visited ++ rest = middle := by
            rw [← contents, Cursor.contents, unreached]
          rw [joined] at continues
          rw [Traced.bind_of_ok returned]
          exact ⟨finish, reaches.append continues, concludes⟩

end Walk

end MQSSPasses.General.OperationTree
