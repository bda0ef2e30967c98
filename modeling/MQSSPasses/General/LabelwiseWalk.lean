import MQSSPasses.General.OperationTree

/-!
# Walks whose calls look at one operation only

A call that records and fails according to the label of the visited
operation alone can be told from the labels of the tree: the walk records
and fails as a run over the operations in post-order does, whatever the
calls do to the blocks on the way.
-/

namespace MQSSPasses.General.LabelwiseWalk

open MQSSPasses.General.TracedComputation
open MQSSPasses.General.OperationTree

variable {Label Fault Event First Second : Type}

/-- A list is related to some list if each of its items is to some item. -/
theorem exists_forall₂_iff {relation : First → Second → Prop}
    {items : List First} :
    (∃ others, List.Forall₂ relation items others) ↔
      ∀ item ∈ items, ∃ other, relation item other := by
  induction items with
  | nil => exact iff_of_true ⟨[], .nil⟩ (by simp)
  | cons item rest induction =>
      rw [List.forall_mem_cons, ← induction]
      constructor
      · rintro ⟨_, related⟩
        cases related with
        | cons first later => exact ⟨⟨_, first⟩, ⟨_, later⟩⟩
      · rintro ⟨⟨other, first⟩, ⟨others, later⟩⟩
        exact ⟨other :: others, .cons first later⟩

/-- A result comes from an item. -/
theorem forall₂_mem_right {relation : First → Second → Prop}
    {items : List First} {results : List Second}
    (related : List.Forall₂ relation items results) {result : Second}
    (member : result ∈ results) :
    ∃ item ∈ items, relation item result := by
  induction related with
  | nil => cases member
  | cons here _ induction =>
      rcases List.mem_cons.mp member with rfl | later
      · exact ⟨_, List.mem_cons_self, here⟩
      · rcases induction later with ⟨item, inside, there⟩
        exact ⟨item, List.mem_cons_of_mem _ inside, there⟩

/-- A sequence that can only fail, of which each item becomes one. -/
theorem mapM_eq_ok_iff {step : First → Except Fault Second}
    {items : List First} {results : List Second} :
    items.mapM step = .ok results ↔
      List.Forall₂ (fun item result => step item = .ok result) items
        results := by
  induction items generalizing results with
  | nil =>
      rw [List.mapM_nil, List.forall₂_nil_left_iff]
      simp [pure, Except.pure, eq_comm]
  | cons item others induction =>
      rw [List.mapM_cons, except_bind_eq_ok, List.forall₂_cons_left_iff]
      constructor
      · rintro ⟨result, stepped, rest⟩
        rcases except_bind_eq_ok.mp rest with ⟨later, returned, equal⟩
        cases equal
        exact ⟨result, later, stepped, induction.mp returned, rfl⟩
      · rintro ⟨result, later, stepped, returned, rfl⟩
        refine ⟨result, stepped, except_bind_eq_ok.mpr ?_⟩
        exact ⟨later, induction.mpr returned, rfl⟩

/-- What a computation records and whether it fails. -/
def effects (computation : Traced Fault Event First) :
    Traced Fault Event Unit :=
  ⟨computation.trace, computation.outcome.map fun _ => ()⟩

@[simp]
theorem effects_trace (computation : Traced Fault Event First) :
    (effects computation).trace = computation.trace := rfl

theorem effects_returns_iff (computation : Traced Fault Event First) :
    (effects computation).outcome = .ok () ↔
      ∃ value, computation.outcome = .ok value := by
  rw [effects]
  cases computation.outcome <;> simp [Except.map]

/-- A sequence whose second part always has the same effects. -/
theorem effects_bind {first : Traced Fault Event First}
    {next : First → Traced Fault Event Second}
    (rest : Traced Fault Event Unit)
    (same :
      ∀ value, first.outcome = .ok value → effects (next value) = rest) :
    effects (first >>= next) = (effects first >>= fun _ => rest) := by
  cases returned : first.outcome with
  | error fault =>
      have failed : (effects first).outcome = .error fault := by
        rw [effects, returned]
        rfl
      rw [Traced.bind_of_error returned, Traced.bind_of_error failed]
      rfl
  | ok value =>
      have goesOn : (effects first).outcome = .ok () := by
        rw [effects, returned]
        rfl
      rw [Traced.bind_of_ok returned, Traced.bind_of_ok goesOn,
        ← same value returned]
      rfl

/-- Run through the labels of operations. -/
def visitEach (effect : Label → Traced Fault Event Unit) :
    List (Node Label) → Traced Fault Event Unit
  | [] => pure ()
  | node :: rest => do
      effect node.label
      visitEach effect rest

section Run

variable (effect : Label → Traced Fault Event Unit)

theorem visitEach_singleton (node : Node Label) :
    visitEach effect [node] = effect node.label :=
  Traced.bind_pure_eq (effect node.label)

theorem visitEach_append (first second : List (Node Label)) :
    visitEach effect (first ++ second) =
      (visitEach effect first >>= fun _ => visitEach effect second) := by
  induction first with
  | nil =>
      rw [List.nil_append, visitEach, Traced.pure_bind_eq]
  | cons node rest induction =>
      rw [List.cons_append, visitEach, visitEach, induction,
        Traced.bind_assoc_eq]

/-- The run fails exactly if the label of some operation does. -/
theorem visitEach_returns_iff (nodes : List (Node Label)) :
    (visitEach effect nodes).outcome = .ok () ↔
      ∀ node ∈ nodes, (effect node.label).outcome = .ok () := by
  induction nodes with
  | nil => simp [visitEach]
  | cons node rest induction =>
      rw [visitEach, List.forall_mem_cons, ← induction]
      cases called : (effect node.label).outcome with
      | error fault =>
          rw [Traced.bind_of_error called]
          simp
      | ok value =>
          rw [Traced.bind_of_ok called]
          simp

/-- What a run records that does not fail. -/
theorem visitEach_trace {nodes : List (Node Label)}
    (returned : (visitEach effect nodes).outcome = .ok ()) :
    (visitEach effect nodes).trace =
      nodes.flatMap fun node => (effect node.label).trace := by
  rw [visitEach_returns_iff] at returned
  induction nodes with
  | nil => rfl
  | cons node rest induction =>
      rw [visitEach,
        Traced.bind_of_ok (returned node List.mem_cons_self),
        List.flatMap_cons,
        induction fun other member =>
          returned other (List.mem_cons_of_mem node member)]

variable {effect} {call : Callback Label Fault Event}

theorem postOrder_eq (node : Node Label) :
    postOrder node = postOrderBlocks node.blocks ++ [node] := by
  cases node
  rw [postOrder]
  rfl

/-- A walk keeps the label of the operation whose regions it walks. -/
theorem walkNode_label {node walked : Node Label}
    (returned : (walkNode call node).outcome = .ok walked) :
    walked.label = node.label := by
  rcases node with ⟨label, blocks⟩
  rw [walkNode] at returned
  rcases Traced.bind_ok_iff.mp returned with ⟨walkedBlocks, -, equal, -⟩
  cases equal
  rfl

mutual

/-- The walk records and fails as the run in post-order does. -/
theorem walkNode_effects
    (each :
      ∀ visited node rest,
        effects (call (.enter visited node rest)) = effect node.label) :
    ∀ node : Node Label,
      effects (walkNode call node) =
        visitEach effect (postOrderBlocks node.blocks)
  | .mk label blocks => by
      rw [walkNode, effects_bind (pure ()) fun _ _ => rfl,
        walkBlocks_effects each blocks]
      exact Traced.bind_pure_eq _

theorem walkBlocks_effects
    (each :
      ∀ visited node rest,
        effects (call (.enter visited node rest)) = effect node.label) :
    ∀ blocks : List (List (Node Label)),
      effects (walkBlocks call blocks) =
        visitEach effect (postOrderBlocks blocks)
  | [] => by
      rw [walkBlocks, postOrderBlocks]
      rfl
  | block :: others => by
      have later (walked : List (Node Label)) :
          effects (do
              let others ← walkBlocks call others
              return walked :: others) =
            visitEach effect (postOrderBlocks others) := by
        rw [effects_bind (pure ()) fun _ _ => rfl,
          walkBlocks_effects each others]
        exact Traced.bind_pure_eq _
      rw [walkBlocks, effects_bind _ fun walked _ => later walked,
        walkBlock_effects each [] block, postOrderBlocks,
        visitEach_append]

theorem walkBlock_effects
    (each :
      ∀ visited node rest,
        effects (call (.enter visited node rest)) = effect node.label)
    (visited : List (Node Label)) :
    ∀ nodes : List (Node Label),
      effects (walkBlock call visited nodes) =
        visitEach effect (postOrderBlock nodes)
  | [] => by
      rw [walkBlock, postOrderBlock]
      rfl
  | node :: rest => by
      have visit (walked : Node Label)
          (returned : (walkNode call node).outcome = .ok walked) :
          effects (do
              let cursor ← call (.enter visited walked rest)
              walkBlock call cursor.visited rest) =
            (effect node.label >>= fun _ =>
              visitEach effect (postOrderBlock rest)) := by
        rw [effects_bind _ fun cursor _ =>
            walkBlock_effects each cursor.visited rest,
          each, walkNode_label returned]
      rw [walkBlock, effects_bind _ visit, walkNode_effects each node,
        postOrderBlock, postOrder_eq, visitEach_append, visitEach_append,
        Traced.bind_assoc_eq, visitEach_singleton]

end

end Run

/-! ## Calls that replace the visited operation -/

section Rebuild

variable (edit : Label → Option (List Label))

/-- What an edit of the labels leaves of an operation. -/
def edited (node : Node Label) : List (Node Label) :=
  match edit node.label with
  | none => [node]
  | some labels => labels.map .leaf

mutual

/-- Edit every operation that is nested in an operation. -/
def rebuild : Node Label → Node Label
  | .mk label blocks => .mk label (rebuildBlocks blocks)

def rebuildBlocks : List (List (Node Label)) → List (List (Node Label))
  | [] => []
  | block :: others => rebuildBlock block :: rebuildBlocks others

def rebuildBlock : List (Node Label) → List (Node Label)
  | [] => []
  | node :: rest => edited edit (rebuild node) ++ rebuildBlock rest

end

variable {edit}

theorem rebuild_label (node : Node Label) :
    (rebuild edit node).label = node.label := by
  cases node
  rw [rebuild]
  rfl

/-- A call does to an operation with a given label what the edit says. -/
def Carries (call : Callback Label Fault Event)
    (edit : Label → Option (List Label)) (label : Label) : Prop :=
  ∀ visited node rest, node.label = label →
    ∃ after, (call (.enter visited node rest)).outcome = .ok after ∧
      after.visited = visited ++ edited edit node

variable {call : Callback Label Fault Event}

mutual

/-- A walk whose calls replace the visited operation rebuilds the tree. -/
theorem walkNode_rebuild :
    ∀ node : Node Label,
      (∀ op ∈ postOrderBlocks node.blocks, Carries call edit op.label) →
        (walkNode call node).outcome = .ok (rebuild edit node)
  | .mk label blocks, each => by
      have walked := walkBlocks_rebuild blocks each
      rw [walkNode, Traced.bind_of_ok walked, rebuild]
      rfl

theorem walkBlocks_rebuild :
    ∀ blocks : List (List (Node Label)),
      (∀ op ∈ postOrderBlocks blocks, Carries call edit op.label) →
        (walkBlocks call blocks).outcome = .ok (rebuildBlocks edit blocks)
  | [], _ => by
      rw [walkBlocks, rebuildBlocks]
      rfl
  | block :: others, each => by
      rw [postOrderBlocks] at each
      have first :=
        walkBlock_rebuild [] block fun op member =>
          each op (List.mem_append_left _ member)
      have later :=
        walkBlocks_rebuild others fun op member =>
          each op (List.mem_append_right _ member)
      rw [walkBlocks, Traced.bind_of_ok first, Traced.bind_of_ok later,
        rebuildBlocks]
      rfl

theorem walkBlock_rebuild (visited : List (Node Label)) :
    ∀ nodes : List (Node Label),
      (∀ op ∈ postOrderBlock nodes, Carries call edit op.label) →
        (walkBlock call visited nodes).outcome =
          .ok (visited ++ rebuildBlock edit nodes)
  | [], _ => by
      rw [walkBlock, rebuildBlock, List.append_nil]
      rfl
  | node :: rest, each => by
      rw [postOrderBlock, postOrder_eq, List.append_assoc] at each
      have nested :=
        walkNode_rebuild node fun op member =>
          each op (List.mem_append_left _ member)
      rcases each node (by simp) visited (rebuild edit node) rest
        (rebuild_label node) with ⟨after, returned, replaced⟩
      have later :=
        walkBlock_rebuild after.visited rest fun op member =>
          each op (List.mem_append_right _ (List.mem_cons_of_mem _ member))
      rw [walkBlock, Traced.bind_of_ok nested, Traced.bind_of_ok returned,
        later, replaced, rebuildBlock, List.append_assoc]

end

/-- What an edit makes of a label. -/
def editedLabels (edit : Label → Option (List Label)) (label : Label) :
    List Label :=
  (edit label).getD [label]

/-- Only operations without regions are edited. -/
def EditsFlat (edit : Label → Option (List Label))
    (nodes : List (Node Label)) : Prop :=
  ∀ op ∈ nodes, (edit op.label).isSome → op.blocks = []

theorem postOrderBlock_append (first second : List (Node Label)) :
    postOrderBlock (first ++ second) =
      postOrderBlock first ++ postOrderBlock second := by
  induction first with
  | nil => rw [postOrderBlock, List.nil_append, List.nil_append]
  | cons node rest induction =>
      rw [List.cons_append, postOrderBlock, postOrderBlock, induction,
        List.append_assoc]

/-- The labels of an edited operation behind those nested in it. -/
theorem edited_labels {node : Node Label}
    (flat : (edit node.label).isSome → node.blocks = []) :
    (postOrderBlock (edited edit node)).map Node.label =
      (postOrderBlocks node.blocks).map Node.label ++
        editedLabels edit node.label := by
  unfold edited editedLabels
  cases made : edit node.label with
  | none =>
      rw [postOrderBlock, postOrderBlock, postOrder_eq]
      simp
  | some labels =>
      rw [flat (by rw [made]; rfl), postOrderBlocks,
        postOrderBlock_of_flat (by simp)]
      simp [Function.comp_def]

mutual

/-- The labels of a rebuilt tree are the edited labels of the tree. -/
theorem rebuild_labels :
    ∀ node : Node Label,
      EditsFlat edit (postOrderBlocks node.blocks) →
        (postOrderBlocks (rebuild edit node).blocks).map Node.label =
          (postOrderBlocks node.blocks).flatMap fun op =>
            editedLabels edit op.label
  | .mk label blocks, flat => by
      rw [rebuild]
      exact rebuildBlocks_labels blocks flat

theorem rebuildBlocks_labels :
    ∀ blocks : List (List (Node Label)),
      EditsFlat edit (postOrderBlocks blocks) →
        (postOrderBlocks (rebuildBlocks edit blocks)).map Node.label =
          (postOrderBlocks blocks).flatMap fun op =>
            editedLabels edit op.label
  | [], _ => by
      rw [rebuildBlocks, postOrderBlocks]
      rfl
  | block :: others, flat => by
      rw [postOrderBlocks] at flat ⊢
      rw [rebuildBlocks, postOrderBlocks, List.map_append,
        List.flatMap_append,
        rebuildBlock_labels block fun op member =>
          flat op (List.mem_append_left _ member),
        rebuildBlocks_labels others fun op member =>
          flat op (List.mem_append_right _ member)]

theorem rebuildBlock_labels :
    ∀ nodes : List (Node Label),
      EditsFlat edit (postOrderBlock nodes) →
        (postOrderBlock (rebuildBlock edit nodes)).map Node.label =
          (postOrderBlock nodes).flatMap fun op =>
            editedLabels edit op.label
  | [], _ => by
      rw [rebuildBlock, postOrderBlock]
      rfl
  | node :: rest, flat => by
      rw [postOrderBlock, postOrder_eq, List.append_assoc] at flat
      have nested :=
        rebuild_labels node fun op member =>
          flat op (List.mem_append_left _ member)
      have empty :
          (edit (rebuild edit node).label).isSome →
            (rebuild edit node).blocks = [] := by
        rw [rebuild_label]
        intro isEdited
        have noBlocks := flat node (by simp) isEdited
        rcases node with ⟨label, blocks⟩
        rw [Node.blocks_mk] at noBlocks
        rw [rebuild, noBlocks, rebuildBlocks]
        rfl
      rw [rebuildBlock, postOrderBlock_append, List.map_append,
        edited_labels empty, nested, rebuild_label, postOrderBlock,
        postOrder_eq, List.flatMap_append, List.flatMap_append,
        List.flatMap_singleton,
        rebuildBlock_labels rest fun op member =>
          flat op
            (List.mem_append_right _ (List.mem_cons_of_mem _ member))]

end

end Rebuild

end MQSSPasses.General.LabelwiseWalk
