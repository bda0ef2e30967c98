import MQSSPasses.General.IndependentUpdates
import MQSSPasses.General.LabelwiseWalk
import MQSSPasses.Passes.BaseMQSSPass
import MQSSPasses.Passes.Pipelines

/-!
# Pipelines over modules

A pass manager runs its passes on a module.  Each pass collects the quantum
kernels, refuses the module if a controlled `quake.apply` stands anywhere in
it, and processes the kernels in parallel.  A pass that fails stops the
pass manager.

No pass adds or removes a `quake.apply`.  So a pipeline is refused by its
first pass or not at all, and then every kernel becomes what the pipeline
makes of it alone, in whatever order each loop comes to the kernels, and
every other function stays as it was.
-/

noncomputable section

namespace MQSSPasses.Passes.ModulePipelines

open MQSSPasses.General.TracedComputation
open MQSSPasses.General.OperationTree
open MQSSPasses.General.TreeReadings
open MQSSPasses.General.InterruptibleWalk
open MQSSPasses.General.IndependentUpdates
open MQSSPasses.General.LabelwiseWalk
open MQSSPasses.Quake.Syntax
open MQSSPasses.Quake.Operations
open MQSSPasses.Passes.Rewriting
open MQSSPasses.Passes.Matchers
open MQSSPasses.Passes.BaseMQSSPass
open MQSSPasses.Passes.Pipelines

variable {A : Type}

/-! ## Modules of functions -/

/-- A function of a module. -/
structure Function (A : Type) where
  name : String
  attributes : List String
  arguments : List ArgumentType
  body : List (Block A)

mutual

/-- An operation of a body as an operation of the module. -/
def moduleNode : Op A → ModuleTree A
  | .mk label blocks => .mk (.operation label) (moduleBlocks blocks)

def moduleBlocks : List (Block A) → List (List (ModuleTree A))
  | [] => []
  | block :: others => moduleBlock block :: moduleBlocks others

def moduleBlock : Block A → List (ModuleTree A)
  | [] => []
  | operation :: rest => moduleNode operation :: moduleBlock rest

end

namespace Function

/-- The function as an operation of the module. -/
def tree (function : Function A) : ModuleTree A :=
  .mk (.func function.name function.attributes function.arguments)
    (moduleBlocks function.body)

/-- The function as a kernel. -/
def kernel (function : Function A) : Op A :=
  .mk (.structured "func.func") function.body

def withBody (function : Function A) (kernel : Op A) : Function A :=
  { function with body := kernel.blocks }

def isKernel (function : Function A) : Bool :=
  isQuantumKernel function.tree

@[simp]
theorem isKernel_withBody (function : Function A) (kernel : Op A) :
    (function.withBody kernel).isKernel = function.isKernel := rfl

end Function

/-- A module with the given functions. -/
def moduleOf (functions : List (Function A)) : ModuleTree A :=
  .mk .module [functions.map Function.tree]

/-- A `quake.apply` with controls, in the body of a function. -/
def appliesControlled (operation : Op A) : Bool :=
  match operation.label with
  | .apply _ controls _ => !controls.isEmpty
  | _ => false

def Function.AppliesControlled (function : Function A) : Prop :=
  ∃ operation ∈ postOrder function.kernel,
    appliesControlled operation = true

instance (function : Function A) : Decidable function.AppliesControlled :=
  inferInstanceAs (Decidable (∃ operation ∈ postOrder _, _ = true))

/-! ## Passes and pipelines -/

/-- What a pass makes of one kernel. -/
def processFunction (stale : StaleRead) (pass : KernelPass)
    (function : Function A) : Except Fault (Function A) :=
  (pass.run stale function.kernel).outcome.map function.withBody

/-- The functions after a pass, and whether it signalled a failure. -/
structure ModuleResult (A : Type) where
  functions : List (Function A)
  signalledFailure : Bool

/-- A pass whose parallel loop comes to the kernels in the given order. -/
def runOnModule (stale : StaleRead) (pass : KernelPass) (order : List ℕ)
    (functions : List (Function A)) : Except Fault (ModuleResult A) :=
  let collected := getQuakeKernels (moduleOf functions)
  if collected.2 = .interrupt then return ⟨functions, true⟩
  else if collected.1.isEmpty then return ⟨functions, false⟩
  else do
    let processed ←
      updateAt .outOfRange (processFunction stale pass) order functions
    return ⟨processed, false⟩

/-- Passes in order; one that fails is the last. -/
def runModulePipeline (stale : StaleRead) :
    List (KernelPass × List ℕ) → List (Function A) →
      Except Fault (ModuleResult A)
  | [], functions => return ⟨functions, false⟩
  | (pass, order) :: later, functions => do
      let result ← runOnModule stale pass order functions
      if result.signalledFailure then return result
      else runModulePipeline stale later result.functions

/-- The passes that the optimization level `O3` adds. -/
def O3 : List KernelPass :=
  [.rewriting .CancellationDoubleCx]

/-! ## The operations of a module -/

mutual

theorem postOrder_moduleNode :
    ∀ operation : Op A,
      postOrder (moduleNode operation) =
        (postOrder operation).map moduleNode
  | .mk label blocks => by
      rw [moduleNode, postOrder, postOrder, List.map_append,
        postOrder_moduleBlocks blocks, List.map_singleton, moduleNode]

theorem postOrder_moduleBlocks :
    ∀ blocks : List (Block A),
      postOrderBlocks (moduleBlocks blocks) =
        (postOrderBlocks blocks).map moduleNode
  | [] => by
      rw [moduleBlocks, postOrderBlocks, postOrderBlocks, List.map_nil]
  | block :: others => by
      rw [moduleBlocks, postOrderBlocks, postOrderBlocks, List.map_append,
        postOrder_moduleBlock block, postOrder_moduleBlocks others]

theorem postOrder_moduleBlock :
    ∀ block : Block A,
      postOrderBlock (moduleBlock block) =
        (postOrderBlock block).map moduleNode
  | [] => by
      rw [moduleBlock, postOrderBlock, postOrderBlock, List.map_nil]
  | operation :: rest => by
      rw [moduleBlock, postOrderBlock, postOrderBlock, List.map_append,
        postOrder_moduleNode operation, postOrder_moduleBlock rest]

end

theorem postOrder_tree (function : Function A) :
    postOrder function.tree =
      (postOrderBlocks function.body).map moduleNode ++
        [function.tree] := by
  rw [Function.tree, postOrder, postOrder_moduleBlocks]

theorem postOrderBlock_trees (functions : List (Function A)) :
    postOrderBlock (functions.map Function.tree) =
      functions.flatMap fun function => postOrder function.tree := by
  induction functions with
  | nil => rw [List.map_nil, postOrderBlock, List.flatMap_nil]
  | cons function rest induction =>
      rw [List.map_cons, postOrderBlock, induction, List.flatMap_cons]

theorem postOrder_moduleOf (functions : List (Function A)) :
    postOrder (moduleOf functions) =
      (functions.flatMap fun function => postOrder function.tree) ++
        [moduleOf functions] := by
  rw [moduleOf, postOrder, postOrderBlocks, postOrderBlocks,
    List.append_nil, postOrderBlock_trees]

theorem isControlledApply_moduleNode (operation : Op A) :
    isControlledApply (moduleNode operation) =
      appliesControlled operation := by
  rcases operation with ⟨label, blocks⟩
  cases label <;> rfl

theorem appliesControlled_kernel (function : Function A) :
    function.AppliesControlled ↔
      ∃ operation ∈ postOrderBlocks function.body,
        appliesControlled operation = true := by
  rw [Function.AppliesControlled, Function.kernel, postOrder]
  simp [appliesControlled]

/-- The walk is interrupted if a function applies a controlled kernel. -/
theorem walkResult_moduleOf (functions : List (Function A)) :
    (getQuakeKernels (moduleOf functions)).2 = .interrupt ↔
      ∃ function ∈ functions, function.AppliesControlled := by
  rw [getQuakeKernels, walk_interrupted_iff collect_interrupts_iff,
    postOrder_moduleOf]
  simp only [appliesControlled_kernel, List.mem_append, List.mem_flatMap,
    List.mem_singleton, postOrder_tree, List.mem_map]
  constructor
  · rintro ⟨op, (⟨function, member, ⟨operation, inside, rfl⟩ | rfl⟩ | rfl),
      applied⟩
    · rw [isControlledApply_moduleNode] at applied
      exact ⟨function, member, operation, inside, applied⟩
    · cases applied
    · cases applied
  · rintro ⟨function, member, operation, inside, applied⟩
    refine ⟨moduleNode operation,
      .inl ⟨function, member, .inl ⟨operation, inside, rfl⟩⟩, ?_⟩
    rw [isControlledApply_moduleNode]
    exact applied

/-- The kernels that are collected are those of the functions. -/
theorem collected_moduleOf {functions : List (Function A)}
    (plain : ¬ ∃ function ∈ functions, function.AppliesControlled) :
    (getQuakeKernels (moduleOf functions)).1 =
      (functions.filter Function.isKernel).map Function.tree := by
  have none :
      ∀ op ∈ postOrder (moduleOf functions), isControlledApply op = false := by
    intro op member
    by_contra applied
    rw [Bool.not_eq_false] at applied
    apply plain
    rw [← walkResult_moduleOf, getQuakeKernels,
      walk_interrupted_iff collect_interrupts_iff]
    exact ⟨op, member, applied⟩
  have operations (block : Block A) :
      (block.map moduleNode).filter isQuantumKernel = [] := by
    rw [List.filter_eq_nil_iff]
    intro op member
    rcases List.mem_map.mp member with ⟨⟨label, blocks⟩, -, rfl⟩
    simp [isQuantumKernel, moduleNode]
  rw [getQuakeKernels_eq none, postOrder_moduleOf, List.filter_append]
  have outer : [moduleOf functions].filter isQuantumKernel = [] := rfl
  rw [outer, List.append_nil]
  clear none plain outer
  induction functions with
  | nil => rfl
  | cons function rest induction =>
      rw [List.flatMap_cons, List.filter_append, induction,
        postOrder_tree, List.filter_append, operations, List.nil_append,
        List.filter_cons, List.filter_cons, List.filter_nil]
      unfold Function.isKernel
      by_cases kernel : isQuantumKernel function.tree = true
      · rw [if_pos kernel, if_pos kernel]
        rfl
      · rw [if_neg kernel, if_neg kernel]
        rfl

theorem positionsOf_eq_nil {functions : List (Function A)}
    (none : functions.filter Function.isKernel = []) :
    positionsOf Function.isKernel functions = [] := by
  rw [List.eq_nil_iff_forall_not_mem]
  intro position member
  rcases mem_positionsOf.mp member with ⟨function, found, isKernel⟩
  exact List.filter_eq_nil_iff.mp none function
    (List.mem_of_getElem? found) isKernel

/-! ## What a pass leaves in a kernel -/

mutual

/-- Where gates have no regions, leaving them out leaves every apply. -/
theorem applies_node :
    ∀ operation : Op A, LeafGates operation →
      ((∃ op ∈ postOrder operation, appliesControlled op = true) ↔
        ∃ op ∈ postOrderBlock (withoutGates operation),
          appliesControlled op = true)
  | .mk label blocks, leaves => by
      have inner := applies_blocks blocks fun op member =>
        leaves op (by
          rw [postOrder]
          exact List.mem_append_left _ member)
      have here := leaves (.mk label blocks) (by rw [postOrder]; simp)
      cases isGate : asOperator (.mk label blocks : Op A) with
      | some gate =>
          have flat : blocks = [] := here (by rw [isGate]; rfl)
          subst flat
          rw [withoutGates, skeleton_gate isGate, postOrder,
            postOrderBlocks, postOrderBlock]
          have other :
              appliesControlled (.mk label [] : Op A) = false := by
            have isLabel := asOperator_eq_some.mp isGate
            rw [Node.label_mk] at isLabel
            rw [appliesControlled, Node.label_mk, isLabel]
          simp [other]
      | none =>
          have kept :
              withoutGates (.mk label blocks) =
                [.mk label (skeleton.readBlocks blocks)] := by
            have own : asOperator (.leaf label : Op A) = none := isGate
            rw [withoutGates, Reading.readNode]
            change nodeWithoutGates label _ = _
            rw [nodeWithoutGates, own]
          have same :
              appliesControlled
                  (.mk label (skeleton.readBlocks blocks) : Op A) =
                appliesControlled (.mk label blocks) := rfl
          rw [kept, postOrderBlock, postOrderBlock, postOrder, postOrder]
          simp only [List.append_nil, List.mem_append, or_and_right,
            exists_or, inner, List.mem_singleton, exists_eq_left, same]

theorem applies_blocks :
    ∀ blocks : List (Block A),
      (∀ op ∈ postOrderBlocks blocks,
        (asOperator op).isSome → op.blocks = []) →
      ((∃ op ∈ postOrderBlocks blocks, appliesControlled op = true) ↔
        ∃ op ∈ postOrderBlocks (skeleton.readBlocks blocks),
          appliesControlled op = true)
  | [], _ => by rw [Reading.readBlocks]
  | block :: others, leaves => by
      rw [postOrderBlocks, List.forall_mem_append] at leaves
      have first := applies_block block leaves.1
      have later := applies_blocks others leaves.2
      rw [Reading.readBlocks, postOrderBlocks, postOrderBlocks]
      simp only [List.mem_append, or_and_right, exists_or, first, later]

theorem applies_block :
    ∀ block : Block A,
      (∀ op ∈ postOrderBlock block,
        (asOperator op).isSome → op.blocks = []) →
      ((∃ op ∈ postOrderBlock block, appliesControlled op = true) ↔
        ∃ op ∈ postOrderBlock (skeleton.readBlock block),
          appliesControlled op = true)
  | [], _ => by
      rw [Reading.readBlock_nil]
      rfl
  | operation :: rest, leaves => by
      rw [postOrderBlock, List.forall_mem_append] at leaves
      have first := applies_node operation leaves.1
      have later := applies_block rest leaves.2
      have joined :
          postOrderBlock
              (skeleton.join (skeleton.readNode operation)
                (skeleton.readBlock rest)) =
            postOrderBlock (withoutGates operation) ++
              postOrderBlock (skeleton.readBlock rest) :=
        postOrderBlock_append _ _
      rw [postOrderBlock, Reading.readBlock_cons, joined]
      simp only [List.mem_append, or_and_right, exists_or, first, later]

end

theorem processFunction_eq_ok_iff {stale : StaleRead} {pass : KernelPass}
    {function processed : Function A} :
    processFunction stale pass function = .ok processed ↔
      (pass.run stale function.kernel).outcome = .ok processed.kernel ∧
        processed = function.withBody processed.kernel := by
  rw [processFunction]
  cases ran : (pass.run stale function.kernel).outcome with
  | error fault => exact iff_of_false (by rintro ⟨⟩) (by rintro ⟨⟨⟩, -⟩)
  | ok kernel =>
      have label : kernel.label = .structured "func.func" :=
        walkNode_label ran
      have same : (function.withBody kernel).kernel = kernel := by
        rcases kernel with ⟨kernelLabel, blocks⟩
        rw [Node.label_mk] at label
        rw [label]
        rfl
      rw [Except.ok.injEq]
      constructor
      · rintro ⟨⟩
        rw [same]
        exact ⟨rfl, rfl⟩
      · rintro ⟨rfl, made⟩
        exact congrArg Except.ok made.symm

/-- No pass adds or removes a `quake.apply`. -/
theorem appliesControlled_processed {stale : StaleRead} {pass : KernelPass}
    {function processed : Function A} (leaves : LeafGates function.kernel)
    (returned : processFunction stale pass function = .ok processed) :
    LeafGates processed.kernel ∧
      (processed.AppliesControlled ↔ function.AppliesControlled) := by
  rcases processFunction_eq_ok_iff.mp returned with ⟨ran, -⟩
  have kept := (pass.derives leaves ran).1
  refine ⟨kept, ?_⟩
  rw [Function.AppliesControlled, Function.AppliesControlled,
    applies_node processed.kernel kept, applies_node function.kernel leaves,
    pass.withoutGates_eq ran]

/-! ## One pass -/

/-- Every function has gates without regions. -/
def LeafFunctions (functions : List (Function A)) : Prop :=
  ∀ function ∈ functions, LeafGates function.kernel

/-- What a pass makes of a function if it does not refuse the module. -/
def Processed (stale : StaleRead) (pass : KernelPass)
    (function result : Function A) : Prop :=
  if function.isKernel then processFunction stale pass function = .ok result
  else result = function

theorem runOnModule_eq_ok_iff {stale : StaleRead} {pass : KernelPass}
    {order : List ℕ} {functions : List (Function A)}
    (inOrder : order.Perm (positionsOf Function.isKernel functions))
    {result : ModuleResult A} :
    runOnModule stale pass order functions = .ok result ↔
      if ∃ function ∈ functions, function.AppliesControlled then
        result = ⟨functions, true⟩
      else
        result.signalledFailure = false ∧
          List.Forall₂ (Processed stale pass) functions
            result.functions := by
  have interrupted := walkResult_moduleOf functions
  unfold runOnModule
  dsimp only
  by_cases applied : ∃ function ∈ functions, function.AppliesControlled
  · rw [if_pos (interrupted.mpr applied), if_pos applied]
    constructor
    · rintro ⟨⟩
      rfl
    · rintro rfl
      rfl
  · have isEmpty :
        (getQuakeKernels (moduleOf functions)).1.isEmpty = true ↔
          functions.filter Function.isKernel = [] := by
      rw [collected_moduleOf applied, List.isEmpty_iff,
        List.map_eq_nil_iff]
    rw [if_neg fun stops => applied (interrupted.mp stops),
      if_neg applied]
    have updated (processed : List (Function A)) :
        updateAt .outOfRange (processFunction stale pass) order functions =
            .ok processed ↔
          List.Forall₂ (Processed stale pass) functions processed :=
      updateAt_of_perm inOrder
    have continued :
        (do
            let processed ←
              updateAt Fault.outOfRange (processFunction stale pass) order
                functions
            return (⟨processed, false⟩ : ModuleResult A)) = .ok result ↔
          result.signalledFailure = false ∧
            List.Forall₂ (Processed stale pass) functions
            result.functions := by
      rw [except_bind_eq_ok, ← updated]
      constructor
      · rintro ⟨processed, returned, ⟨⟩⟩
        exact ⟨rfl, returned⟩
      · rintro ⟨succeeded, returned⟩
        refine ⟨result.functions, returned, ?_⟩
        rcases result with ⟨processed, signalled⟩
        cases succeeded
        rfl
    by_cases none : functions.filter Function.isKernel = []
    · -- Without kernels the loop would have done nothing.
      have idle :
          updateAt Fault.outOfRange (processFunction stale pass) order
              functions = .ok functions := by
        rw [positionsOf_eq_nil none, List.perm_nil] at inOrder
        rw [inOrder]
        rfl
      rw [if_pos (isEmpty.mpr none), ← continued, idle]
      exact Iff.rfl
    · rw [if_neg fun empty => none (isEmpty.mp empty)]
      exact continued

/-! ## The pass on the module as a tree -/

section Tree

variable (operationsOnQuantumKernel : ModuleTree A → ModuleTree A)

mutual

/-- There are no kernels in the body of a function. -/
theorem processKernels_moduleNode :
    ∀ operation : Op A,
      processKernels operationsOnQuantumKernel (moduleNode operation) =
        moduleNode operation
  | .mk label blocks => by
      rw [moduleNode, processKernels, processBlocks_moduleBlocks blocks]
      rfl

theorem processBlocks_moduleBlocks :
    ∀ blocks : List (Block A),
      processBlocks operationsOnQuantumKernel (moduleBlocks blocks) =
        moduleBlocks blocks
  | [] => rfl
  | block :: others => by
      rw [moduleBlocks, processBlocks, processBlock_moduleBlock block,
        processBlocks_moduleBlocks others]

theorem processBlock_moduleBlock :
    ∀ block : Block A,
      processBlock operationsOnQuantumKernel (moduleBlock block) =
        moduleBlock block
  | [] => rfl
  | operation :: rest => by
      rw [moduleBlock, processBlock, processKernels_moduleNode operation,
        processBlock_moduleBlock rest]

end

theorem processKernels_tree (function : Function A) :
    processKernels operationsOnQuantumKernel function.tree =
      if function.isKernel then operationsOnQuantumKernel function.tree
      else function.tree := by
  rw [Function.tree, processKernels, processBlocks_moduleBlocks]
  rfl

variable {operationsOnQuantumKernel} {stale : StaleRead} {pass : KernelPass}

theorem processBlock_trees {functions results : List (Function A)}
    (agrees :
      ∀ function result : Function A,
        processFunction stale pass function = .ok result →
          operationsOnQuantumKernel function.tree = result.tree)
    (made : List.Forall₂ (Processed stale pass) functions results) :
    processBlock operationsOnQuantumKernel
        (functions.map Function.tree) =
      results.map Function.tree := by
  induction made with
  | nil => rfl
  | @cons function result _ _ processed _ induction =>
      rw [List.map_cons, processBlock, processKernels_tree, induction,
        List.map_cons]
      rw [Processed] at processed
      split_ifs at processed ⊢
      · rw [agrees function result processed]
      · rw [processed]

/--
Where the pass returns, the module as a tree becomes what the functions
become, and the same failure is signalled.
-/
theorem runOnOperation_moduleOf {order : List ℕ}
    {functions : List (Function A)}
    (inOrder : order.Perm (positionsOf Function.isKernel functions))
    (agrees :
      ∀ function result : Function A,
        processFunction stale pass function = .ok result →
          operationsOnQuantumKernel function.tree = result.tree)
    {result : ModuleResult A}
    (returned : runOnModule stale pass order functions = .ok result) :
    (runOnOperation operationsOnQuantumKernel
          (moduleOf functions)).signalledFailure =
        result.signalledFailure ∧
      (runOnOperation operationsOnQuantumKernel
          (moduleOf functions)).module =
        moduleOf result.functions := by
  rw [runOnModule_eq_ok_iff inOrder] at returned
  by_cases applied : ∃ function ∈ functions, function.AppliesControlled
  · rw [if_pos applied] at returned
    rw [returned]
    unfold runOnOperation
    dsimp only
    rw [if_pos ((walkResult_moduleOf functions).mpr applied)]
    exact ⟨rfl, rfl⟩
  · rw [if_neg applied] at returned
    rcases returned with ⟨succeeded, made⟩
    rw [succeeded]
    have processed :
        processKernels operationsOnQuantumKernel (moduleOf functions) =
          moduleOf result.functions := by
      rw [moduleOf, processKernels, processBlocks, processBlocks,
        processBlock_trees agrees made]
      rfl
    unfold runOnOperation
    dsimp only
    rw [if_neg fun stops => applied ((walkResult_moduleOf functions).mp stops)]
    split_ifs with none
    · refine ⟨rfl, congrArg moduleOf ?_⟩
      -- Without kernels every function is left alone.
      rw [collected_moduleOf applied, List.isEmpty_iff,
        List.map_eq_nil_iff] at none
      have both :=
        (List.forall₂_and_left _ _).mpr
          ⟨List.filter_eq_nil_iff.mp none, made⟩
      refine (forall₂_eq_iff.mp (both.imp ?_)).symm
      rintro function other ⟨notKernel, processed⟩
      rw [Processed, if_neg notKernel] at processed
      exact processed
    · exact ⟨rfl, processed⟩

end Tree

/-! ## Pipelines -/

/-- What a pipeline makes of a function. -/
def Optimised (stale : StaleRead) (passes : List KernelPass)
    (function result : Function A) : Prop :=
  if function.isKernel then
    ∃ kernel,
      (runPipeline stale passes function.kernel).outcome = .ok kernel ∧
        result = function.withBody kernel
  else result = function

theorem optimised_nil {stale : StaleRead} {function result : Function A} :
    Optimised stale [] function result ↔ result = function := by
  rw [Optimised]
  by_cases kernel : function.isKernel = true
  · rw [if_pos kernel]
    constructor
    · rintro ⟨_, ⟨⟩, rfl⟩
      rfl
    · rintro rfl
      exact ⟨_, rfl, rfl⟩
  · rw [if_neg kernel]

theorem Processed.isKernel_eq {stale : StaleRead} {pass : KernelPass}
    {function result : Function A}
    (processed : Processed stale pass function result) :
    result.isKernel = function.isKernel := by
  rw [Processed] at processed
  split_ifs at processed
  · rw [(processFunction_eq_ok_iff.mp processed).2]
    rfl
  · rw [processed]

/-- A function that was left alone has also kept its `quake.apply`s. -/
theorem Processed.leafGates {stale : StaleRead} {pass : KernelPass}
    {function result : Function A}
    (processed : Processed stale pass function result)
    (leaves : LeafGates function.kernel) :
    LeafGates result.kernel ∧
      (result.AppliesControlled ↔ function.AppliesControlled) := by
  rw [Processed] at processed
  split_ifs at processed
  · exact appliesControlled_processed leaves processed
  · rw [processed]
    exact ⟨leaves, Iff.rfl⟩

theorem optimised_cons {stale : StaleRead} {pass : KernelPass}
    {later : List KernelPass} {function result : Function A} :
    Optimised stale (pass :: later) function result ↔
      ∃ middle, Processed stale pass function middle ∧
        Optimised stale later middle result := by
  by_cases kernel : function.isKernel = true
  · constructor
    · intro optimised
      rw [Optimised, if_pos kernel] at optimised
      rcases optimised with ⟨last, returned, rfl⟩
      rw [runPipeline] at returned
      rcases Traced.bind_ok_iff.mp returned with
        ⟨next, first, continued, -⟩
      have made :
          processFunction stale pass function =
            .ok (function.withBody next) := by
        rw [Traced.mapTrace_outcome] at first
        rw [processFunction, first]
        rfl
      have ran := (processFunction_eq_ok_iff.mp made).1
      rw [Traced.mapTrace_outcome, ran, Except.ok.injEq] at first
      refine ⟨function.withBody next, ?_, ?_⟩
      · rw [Processed, if_pos kernel]
        exact made
      · rw [Optimised, Function.isKernel_withBody, if_pos kernel, first]
        exact ⟨last, continued, rfl⟩
    · rintro ⟨middle, processed, optimised⟩
      have same := processed.isKernel_eq
      rw [Processed, if_pos kernel] at processed
      rcases processFunction_eq_ok_iff.mp processed with ⟨ran, made⟩
      rw [Optimised, same, if_pos kernel] at optimised
      rcases optimised with ⟨last, continued, rfl⟩
      rw [Optimised, if_pos kernel]
      refine ⟨last, ?_, ?_⟩
      · rw [runPipeline, Traced.bind_of_ok]
        · exact continued
        · exact ran
      · rw [made]
        rfl
  · constructor
    · intro optimised
      rw [Optimised, if_neg kernel] at optimised
      refine ⟨function, ?_, ?_⟩
      · rw [Processed, if_neg kernel]
      · rw [Optimised, if_neg kernel]
        exact optimised
    · rintro ⟨middle, processed, optimised⟩
      rw [Processed, if_neg kernel] at processed
      subst processed
      rw [Optimised, if_neg kernel] at optimised ⊢
      exact optimised

/-! ### Pipelines function by function -/

theorem forall₂_optimised_nil {stale : StaleRead}
    {functions results : List (Function A)} :
    List.Forall₂ (Optimised stale []) functions results ↔
      results = functions := by
  have unchanged :
      (Optimised stale [] : Function A → Function A → Prop) =
        fun function result => result = function := by
    funext function result
    exact propext optimised_nil
  rw [unchanged, forall₂_eq_iff]

theorem forall₂_optimised_cons {stale : StaleRead} {pass : KernelPass}
    {later : List KernelPass} {functions results : List (Function A)} :
    List.Forall₂ (Optimised stale (pass :: later)) functions results ↔
      ∃ middles, List.Forall₂ (Processed stale pass) functions middles ∧
        List.Forall₂ (Optimised stale later) middles results := by
  have inTurn :
      (Optimised stale (pass :: later) : Function A → Function A → Prop) =
        fun function result =>
          ∃ middle, Processed stale pass function middle ∧
            Optimised stale later middle result := by
    funext function result
    exact propext optimised_cons
  rw [inTurn, forall₂_through]

/-- What the passes behind the first one find. -/
theorem processed_functions {stale : StaleRead} {pass : KernelPass}
    {functions processed : List (Function A)}
    (leaves : LeafFunctions functions)
    (made : List.Forall₂ (Processed stale pass) functions processed) :
    LeafFunctions processed ∧
      positionsOf Function.isKernel processed =
        positionsOf Function.isKernel functions ∧
      ((∃ function ∈ processed, function.AppliesControlled) ↔
        ∃ function ∈ functions, function.AppliesControlled) := by
  refine ⟨?_, positionsOf_congr ?_, ?_⟩
  · intro function member
    rcases forall₂_mem_right made member with ⟨earlier, inside, processed⟩
    exact (processed.leafGates (leaves earlier inside)).1
  · exact made.imp fun _ _ processed => processed.isKernel_eq
  · constructor
    · rintro ⟨function, member, applied⟩
      rcases forall₂_mem_right made member with ⟨earlier, inside, processed⟩
      exact ⟨earlier, inside,
        (processed.leafGates (leaves earlier inside)).2.mp applied⟩
    · rintro ⟨function, member, applied⟩
      rcases forall₂_mem_right made.flip member with
        ⟨later, inside, processed⟩
      exact ⟨later, inside,
        (Processed.leafGates processed (leaves function member)).2.mpr
          applied⟩

/--
A pipeline over a module is refused at once if a controlled `quake.apply`
stands anywhere.  Otherwise every kernel becomes what the pipeline makes of
it alone, whatever the orders of the loops, and nothing else changes.
-/
theorem runModulePipeline_eq_ok_iff {stale : StaleRead}
    {passes : List (KernelPass × List ℕ)} {functions : List (Function A)}
    (leaves : LeafFunctions functions)
    (inOrder :
      ∀ pass ∈ passes,
        pass.2.Perm (positionsOf Function.isKernel functions))
    {result : ModuleResult A} :
    runModulePipeline stale passes functions = .ok result ↔
      if passes ≠ [] ∧
          ∃ function ∈ functions, function.AppliesControlled then
        result = ⟨functions, true⟩
      else
        result.signalledFailure = false ∧
          List.Forall₂ (Optimised stale (passes.map Prod.fst)) functions
            result.functions := by
  induction passes generalizing functions with
  | nil =>
      rw [if_neg fun both => both.1 rfl, List.map_nil,
        forall₂_optimised_nil, runModulePipeline]
      constructor
      · rintro ⟨⟩
        exact ⟨rfl, rfl⟩
      · rcases result with ⟨results, signalled⟩
        rintro ⟨rfl, rfl⟩
        rfl
  | cons first later induction =>
      rcases first with ⟨pass, order⟩
      rw [List.forall_mem_cons] at inOrder
      rw [runModulePipeline, except_bind_eq_ok]
      simp only [runOnModule_eq_ok_iff inOrder.1]
      by_cases applied : ∃ function ∈ functions, function.AppliesControlled
      · have refused :
            ((pass, order) :: later ≠ [] ∧
              ∃ function ∈ functions, function.AppliesControlled) :=
          ⟨List.cons_ne_nil _ _, applied⟩
        rw [if_pos refused]
        simp only [if_pos applied, exists_eq_left, if_true]
        exact ⟨fun returned => by cases returned; rfl, by rintro rfl; rfl⟩
      · rw [if_neg fun both => applied both.2]
        simp only [if_neg applied]
        rw [List.map_cons, forall₂_optimised_cons]
        constructor
        · rintro ⟨middle, ⟨succeeded, made⟩, continued⟩
          rcases processed_functions leaves made with
            ⟨leafMiddle, positions, applies⟩
          rw [succeeded, if_neg Bool.false_ne_true] at continued
          have settled :=
            (induction leafMiddle (by
              rw [positions]
              exact inOrder.2)).mp continued
          rw [if_neg fun both => applied (applies.mp both.2)] at settled
          exact ⟨settled.1, _, made, settled.2⟩
        · rintro ⟨succeeded, middles, made, rest⟩
          rcases processed_functions leaves made with
            ⟨leafMiddle, positions, applies⟩
          refine ⟨⟨middles, false⟩, ⟨rfl, made⟩, ?_⟩
          rw [if_neg Bool.false_ne_true]
          refine (induction leafMiddle (by
            rw [positions]
            exact inOrder.2)).mpr ?_
          rw [if_neg fun both => applied (applies.mp both.2)]
          exact ⟨succeeded, rest⟩

/-! ### Two kernels and a function that is none -/

/-- The same body in two kernels and in a function that is no kernel. -/
def threeFunctions (kernels other : Op ℤ) : List (Function ℤ) :=
  [⟨"first", [entryPointAttrName], [], kernels.blocks⟩,
    ⟨"host", [], [.other "i64"], other.blocks⟩,
    ⟨"second", [], [.veq], kernels.blocks⟩]

theorem threeFunctions_leaves :
    LeafFunctions
      (threeFunctions (conditional plainX plainH)
        (conditional plainX plainH)) := by
  intro function member
  have same : function.kernel = conditional plainX plainH := by
    simp only [threeFunctions, List.mem_cons, List.not_mem_nil,
      or_false] at member
    rcases member with rfl | rfl | rfl <;> rfl
  rw [same]
  exact conditional_leafGates

/-- The kernels are processed in either order, the other one is not. -/
theorem threeFunctions_optimised :
    runModulePipeline .stops
        ((.rewriting .SwitchPauliH, [2, 0]) ::
          O3.map fun pass => (pass, [0, 2]))
        (threeFunctions (conditional plainX plainH)
          (conditional plainX plainH)) =
      .ok
        ⟨threeFunctions (conditional plainH plainZ)
          (conditional plainX plainH), false⟩ := by
  refine (runModulePipeline_eq_ok_iff threeFunctions_leaves ?_).mpr ?_
  · decide
  · rw [if_neg (by decide)]
    refine ⟨rfl, .cons ?_ (.cons ?_ (.cons ?_ .nil))⟩
    · exact ⟨_, rfl, rfl⟩
    · rfl
    · exact ⟨_, rfl, rfl⟩

end MQSSPasses.Passes.ModulePipelines

end
