import MQSSPasses.General.InterruptibleWalk
import MQSSPasses.Quake.Syntax

/-!
# The module pass around every rewriting pass

Before a pass touches a module it collects the quantum kernels, and refuses
the module when the walk that collects them meets a `quake.apply` with
controls.  The walk asks to skip the functions which are not kernels.  But
it runs in post-order, where a function is visited after its body, so a
controlled `quake.apply` stops the pass wherever it stands.
-/

namespace MQSSPasses.Passes.BaseMQSSPass

open MQSSPasses.General.OperationTree
open MQSSPasses.General.InterruptibleWalk
open MQSSPasses.Quake.Syntax

/-! ## Modules -/

/-- The type of a function argument, as far as the pass distinguishes it. -/
inductive ArgumentType where
  | ref
  | veq
  | other (name : String)
  deriving DecidableEq, Repr

/-- The operations of a module. -/
inductive ModuleOp (A : Type) where
  | module
  | func (name : String) (attributes : List String)
      (arguments : List ArgumentType)
  | operation (data : OpData A)
  deriving DecidableEq, Repr

/-- A module, a function, or an operation of a function body. -/
abbrev ModuleTree (A : Type) : Type := Node (ModuleOp A)

variable {A : Type}

/-- `cudaq::entryPointAttrName`. -/
def entryPointAttrName : String := "cudaq-entrypoint"

/-- A function with the entry-point attribute or a quantum argument. -/
def isQuantumKernel (op : ModuleTree A) : Bool :=
  match op.label with
  | .func _ attributes arguments =>
      attributes.contains entryPointAttrName ||
        arguments.any fun argument => argument = .ref ∨ argument = .veq
  | _ => false

/-- A `quake.apply` with controls. -/
def isControlledApply (op : ModuleTree A) : Bool :=
  match op.label with
  | .operation (.apply _ controls _) => !controls.isEmpty
  | _ => false

/-! ## The pass -/

/-- What the collecting walk does at one operation. -/
def collect : Visit (ModuleOp A) (List (ModuleTree A)) :=
  fun op kernels =>
    match op.label with
    | .func _ attributes arguments =>
        if attributes.contains entryPointAttrName then
          (kernels ++ [op], .advance)
        else if arguments.any fun argument =>
            argument = .ref ∨ argument = .veq then
          (kernels ++ [op], .advance)
        else (kernels, .skip)
    | .operation (.apply _ controls _) =>
        if controls.isEmpty then (kernels, .advance)
        else (kernels, .interrupt)
    | _ => (kernels, .advance)

def getQuakeKernels (module : ModuleTree A) :
    List (ModuleTree A) × WalkResult :=
  walk collect module []

mutual

/-- Process every kernel of a module in its place. -/
def processKernels (operationsOnQuantumKernel : ModuleTree A → ModuleTree A) :
    ModuleTree A → ModuleTree A
  | .mk label blocks =>
      let op :=
        .mk label (processBlocks operationsOnQuantumKernel blocks)
      if isQuantumKernel op then operationsOnQuantumKernel op else op

def processBlocks (operationsOnQuantumKernel : ModuleTree A → ModuleTree A) :
    List (List (ModuleTree A)) → List (List (ModuleTree A))
  | [] => []
  | block :: others =>
      processBlock operationsOnQuantumKernel block ::
        processBlocks operationsOnQuantumKernel others

def processBlock (operationsOnQuantumKernel : ModuleTree A → ModuleTree A) :
    List (ModuleTree A) → List (ModuleTree A)
  | [] => []
  | op :: rest =>
      processKernels operationsOnQuantumKernel op ::
        processBlock operationsOnQuantumKernel rest

end

/-- The module after a pass, and what the pass reported. -/
structure PassResult (A : Type) where
  module : ModuleTree A
  signalledFailure : Bool
  errors : List String

def runOnOperation
    (operationsOnQuantumKernel : ModuleTree A → ModuleTree A)
    (module : ModuleTree A) : PassResult A :=
  let (kernels, walkResult) := getQuakeKernels module
  if walkResult = .interrupt then
    ⟨module, true, ["Basis conversion doesn't work with `quake.apply`"]⟩
  else if kernels.isEmpty then ⟨module, false, []⟩
  else ⟨processKernels operationsOnQuantumKernel module, false, []⟩

/-! ## When the pass fails -/

theorem collect_interrupts_iff (op : ModuleTree A)
    (kernels : List (ModuleTree A)) :
    (collect op kernels).2 = .interrupt ↔ isControlledApply op = true := by
  unfold collect isControlledApply
  cases op.label with
  | module => simp
  | func name attributes arguments =>
      dsimp only
      split_ifs <;> simp
  | operation data =>
      cases data with
      | apply callee controls arguments =>
          cases controls <;> simp
      | _ => simp

theorem visitAll_collect {ops : List (ModuleTree A)}
    (plain : ∀ op ∈ ops, isControlledApply op = false)
    (kernels : List (ModuleTree A)) :
    visitAll collect ops kernels =
      (kernels ++ ops.filter isQuantumKernel, false) := by
  induction ops generalizing kernels with
  | nil => simp [visitAll]
  | cons op rest induction =>
      have later :=
        induction (fun other member =>
          plain other (List.mem_cons_of_mem op member))
      have collected :
          collect op kernels =
              (kernels ++ [op].filter isQuantumKernel, .advance) ∨
            collect op kernels =
              (kernels ++ [op].filter isQuantumKernel, .skip) := by
        have uncontrolled := plain op List.mem_cons_self
        unfold collect
        unfold isControlledApply at uncontrolled
        unfold isQuantumKernel
        cases label : op.label with
        | module => simp [label]
        | func name attributes arguments =>
            dsimp only
            split_ifs <;> simp_all
        | operation data =>
            cases data <;> simp_all
      rw [visitAll, List.filter_cons]
      rcases collected with advanced | skipped
      · rw [advanced]
        dsimp only
        rw [later]
        cases kernel : isQuantumKernel op <;> simp [kernel]
      · rw [skipped]
        dsimp only
        rw [later]
        cases kernel : isQuantumKernel op <;> simp [kernel]

/-- The kernels collected by a walk that is not interrupted. -/
theorem getQuakeKernels_eq {module : ModuleTree A}
    (plain : ∀ op ∈ postOrder module, isControlledApply op = false) :
    (getQuakeKernels module).1 =
      (postOrder module).filter isQuantumKernel := by
  have walked := walk_eq_visitAll collect module []
  rw [visitAll_collect plain, List.nil_append] at walked
  exact congrArg Prod.fst walked

/-- The pass fails exactly if a controlled `quake.apply` stands anywhere. -/
theorem signalledFailure_iff
    (operationsOnQuantumKernel : ModuleTree A → ModuleTree A)
    (module : ModuleTree A) :
    (runOnOperation operationsOnQuantumKernel module).signalledFailure =
        true ↔
      ∃ op ∈ postOrder module, isControlledApply op = true := by
  rw [← walk_interrupted_iff collect_interrupts_iff module []]
  unfold runOnOperation getQuakeKernels
  dsimp only
  split_ifs with interrupted empty <;> simp [interrupted]

/-- A pass that fails leaves the module as it was. -/
theorem module_of_signalledFailure
    (operationsOnQuantumKernel : ModuleTree A → ModuleTree A)
    (module : ModuleTree A)
    (failed :
      (runOnOperation operationsOnQuantumKernel module).signalledFailure =
        true) :
    (runOnOperation operationsOnQuantumKernel module).module = module := by
  unfold runOnOperation at failed ⊢
  dsimp only at failed ⊢
  split_ifs at failed ⊢
  rfl

/-- A quantum kernel of the module contains a controlled `quake.apply`. -/
def KernelAppliesControlled (module : ModuleTree A) : Prop :=
  ∃ kernel ∈ postOrder module, isQuantumKernel kernel = true ∧
    ∃ op ∈ postOrder kernel, isControlledApply op = true

/--
The pass fails exactly for a controlled `quake.apply` in a quantum kernel,
and then the module is as it was.
-/
structure RefusesKernels
    (operationsOnQuantumKernel : ModuleTree A → ModuleTree A)
    (module : ModuleTree A) : Prop where
  fails :
    (runOnOperation operationsOnQuantumKernel module).signalledFailure =
        true ↔
      KernelAppliesControlled module
  unchanged :
    (runOnOperation operationsOnQuantumKernel module).signalledFailure =
        true →
      (runOnOperation operationsOnQuantumKernel module).module = module

/--
The pass refuses exactly the modules it is meant to refuse if a controlled
`quake.apply` outside the kernels never comes without one inside.
-/
theorem refusesKernels_iff
    (operationsOnQuantumKernel : ModuleTree A → ModuleTree A)
    (module : ModuleTree A) :
    RefusesKernels operationsOnQuantumKernel module ↔
      ((∃ op ∈ postOrder module, isControlledApply op = true) →
        KernelAppliesControlled module) := by
  have fails := signalledFailure_iff operationsOnQuantumKernel module
  constructor
  · intro refuses applied
    exact refuses.fails.mp (fails.mpr applied)
  · intro covered
    refine ⟨?_, module_of_signalledFailure operationsOnQuantumKernel module⟩
    rw [fails]
    constructor
    · exact covered
    · rintro ⟨kernel, member, -, op, nested, applied⟩
      exact ⟨op, postOrder_subset member nested, applied⟩

/-- A controlled `quake.apply` in a helper, next to a kernel without one. -/
def helperApplies : ModuleTree ℤ :=
  .mk .module
    [[.mk (.func "helper" [] [])
        [[.leaf (.operation (.alloca (.refAlloca 0))),
          .leaf (.operation (.apply "gate" [.refAlloca 0] [])),
          .leaf (.operation .ret)]],
      .mk (.func "kernel" [entryPointAttrName] [])
        [[.leaf (.operation .ret)]]]]

/-- The pass fails although no kernel has a controlled `quake.apply`. -/
theorem helperApplies_refused : ¬ RefusesKernels id helperApplies := by
  intro refuses
  have applied : KernelAppliesControlled helperApplies :=
    refuses.fails.mp rfl
  revert applied
  unfold KernelAppliesControlled
  decide

end MQSSPasses.Passes.BaseMQSSPass
