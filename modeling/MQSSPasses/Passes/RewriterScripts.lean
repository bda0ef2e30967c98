import MQSSPasses.General.EarlyIncrementWalk
import MQSSPasses.Passes.Decompositions

/-!
# What the passes tell their rewriter

A plan says what a pass makes of the part of a block the walk has gone
through.  The source does it step by step: it sets the insertion point of a
rewriter, creates operations and erases others, each reached by its address.
A `Script` is this sequence of commands, in the order of the source.

Every script carries out its plan and leaves the operations above the
visited one alone.  So a call of a pass at an address does what the call of
its matchers does to a list, whether or not the operation at the address is
still there.
-/

namespace MQSSPasses.Passes.RewriterScripts

open MQSSPasses.General.TracedComputation
open MQSSPasses.General.OperationTree
open MQSSPasses.General.EarlyIncrementWalk
open MQSSPasses.Quake.Syntax
open MQSSPasses.Quake.Operations
open MQSSPasses.Passes.Rewriting
open MQSSPasses.Passes.Matchers
open MQSSPasses.Passes.Decompositions

variable {A : Type}

/-! ## Scripts -/

/-- The commands that carry out a plan. -/
abbrev Script (A : Type) : Type :=
  Plan A → List (Command (Op A))

/-- `patternCancellation` erases the visited and the found gate. -/
def cancellationScript : Script A := fun _ =>
  [.eraseOp .visited, .eraseOp (.found 0)]

/--
`commuteOperation` creates the copy of the found gate first and the copy of
the visited gate in front of it.
-/
def commutationScript : Script A := fun plan =>
  match plan.inserted with
  | [second, first] =>
      [.setInsertionPointAfter .visited, .create first,
        .setInsertionPoint (.created 0), .create second,
        .eraseOp .visited, .eraseOp (.found 0)]
  | _ => []

/--
`commuteCNotZ`, `commuteZCNot` and `SwitchPauliHOperation` create a gate
behind the visited one and erase the found one.
-/
def moveScript : Script A := fun plan =>
  .setInsertionPointAfter .visited ::
    (plan.inserted.map .create ++ [.eraseOp (.found 0)])

/-- `patternSwitch` creates one gate behind the other. -/
def switchScript : Script A := fun plan =>
  match plan.inserted with
  | [first, second] =>
      [.setInsertionPointAfter .visited, .create first,
        .setInsertionPointAfter (.created 0), .create second,
        .eraseOp (.found 0), .eraseOp .visited]
  | _ => []

/-- The fusions of three gates create a gate and erase the three. -/
def conjugationScript : Script A := fun plan =>
  .setInsertionPointAfter .visited ::
    (plan.inserted.map .create ++
      [.eraseOp .visited, .eraseOp (.found 0), .eraseOp (.found 1)])

/-- The fusions of two gates create a gate and erase the two. -/
def fusionScript : Script A := fun plan =>
  .setInsertionPointAfter .visited ::
    (plan.inserted.map .create ++
      [.eraseOp .visited, .eraseOp (.found 0)])

/-- The decompositions create gates and erase the visited one. -/
def decompositionScript : Script A := fun plan =>
  .setInsertionPointAfter .visited ::
    (plan.inserted.map .create ++ [.eraseOp .visited])

/-- A matcher with the commands that carry out its plans. -/
structure Procedure (A : Type) where
  matcher : Matcher A
  script : Script A

/-- The addresses of the gates a plan has found below the visited one. -/
def foundAddresses (plan : Plan A) (lower : List (Cell (Op A))) : List ℕ :=
  plan.pairings.filterMap fun pairing =>
    lower[pairing.found.lower.length]?.map Cell.address

/-- Let a rewriter carry out a plan. -/
def carryOut (script : Script A) (address : ℕ) (memory : Memory (Op A))
    (lower : List (Cell (Op A))) (plan : Plan A) :
    Except Fault (Memory (Op A)) :=
  match
    Rewriter.performAll address (foundAddresses plan lower)
      ⟨memory, none, []⟩ (script plan) with
  | some rewriter => return rewriter.memory
  | none => .error .erasedOperation

/-- Call a procedure at an address. -/
def callProcedure (stale : StaleRead) (procedure : Procedure A)
    (address : ℕ) (memory : Memory (Op A)) :
    Except Fault (Memory (Op A)) :=
  match splitAt address memory.cells with
  | none =>
      match stale with
      | .stops => .error .erasedOperation
      | .findsNothing => return memory
  | some (lower, cell, _) => do
      match ← procedure.matcher (items lower) cell.item with
      | none => return memory
      | some plan => carryOut procedure.script address memory lower plan

/-- Call several procedures in order at an address. -/
def callInOrder (stale : StaleRead) :
    List (Procedure A) → ℕ → Memory (Op A) → Except Fault (Memory (Op A))
  | [], _, memory => return memory
  | procedure :: others, address, memory => do
      let memory ← callProcedure stale procedure address memory
      callInOrder stale others address memory

/-! ## Scripts carry out their plans -/

/-- Commands that do to the memory what a plan says. -/
def Realizes (plan : Plan A) (commands : List (Command (Op A)))
    (memory : Memory (Op A)) (lower : List (Cell (Op A)))
    (cell : Cell (Op A)) (upper : List (Cell (Op A))) : Prop :=
  ∃ (after : Rewriter (Op A)) (lower' kept inserted : List (Cell (Op A))),
    Rewriter.performAll cell.address (foundAddresses plan lower)
        ⟨memory, none, []⟩ commands = some after ∧
      after.memory.cells = lower' ++ kept ++ inserted ++ upper ∧
      lower'.Sublist lower ∧ kept.Sublist [cell] ∧
      items lower' = plan.before ∧
      items kept = plan.current.toList ∧
      items inserted = plan.inserted ∧
      (∀ new ∈ inserted, memory.fresh ≤ new.address) ∧
      memory.fresh ≤ after.memory.fresh

/-- A procedure whose scripts carry out the plans of its matcher. -/
def Procedure.Sound (procedure : Procedure A) : Prop :=
  ∀ (memory : Memory (Op A)) lower cell upper plan,
    memory.cells = lower ++ cell :: upper →
      procedure.matcher (items lower) cell.item = .ok (some plan) →
        Realizes plan (procedure.script plan) memory lower cell upper

/-! ### The creating part of a script -/

section Scripts

variable {memory : Memory (Op A)} {lower upper : List (Cell (Op A))}
variable {cell : Cell (Op A)} {plan : Plan A}

/-- The state after the created operations stand behind the visited one. -/
structure Prepared (memory : Memory (Op A)) (lower : List (Cell (Op A)))
    (cell : Cell (Op A)) (upper inserted : List (Cell (Op A)))
    (rewriter : Rewriter (Op A)) : Prop where
  cells : rewriter.memory.cells = lower ++ cell :: (inserted ++ upper)
  unused : ∀ new ∈ inserted, memory.fresh ≤ new.address
  supply : memory.fresh ≤ rewriter.memory.fresh

theorem prepared_start (cells : memory.cells = lower ++ cell :: upper) :
    Prepared memory lower cell upper [] ⟨memory, none, []⟩ where
  cells := cells
  unused := by simp
  supply := Nat.le_refl _

/-- Creating operations behind the visited one. -/
theorem prepared_create (cells : memory.cells = lower ++ cell :: upper)
    (found : List ℕ) (created : Block A)
    (others : List (Command (Op A))) :
    ∃ rewriter inserted,
      Rewriter.performAll cell.address found ⟨memory, none, []⟩
          (.setInsertionPointAfter .visited ::
            (created.map .create ++ others)) =
          rewriter.performAll cell.address found others ∧
        Prepared memory lower cell upper inserted rewriter ∧
        items inserted = created ∧
        rewriter.created = addresses inserted := by
  rw [Rewriter.setInsertionPointAfter_step _ rfl cells]
  have behind : memory.cells = (lower ++ [cell]) ++ upper := by
    rw [cells, List.append_assoc, List.singleton_append]
  rcases
    @Rewriter.create_steps _ cell.address found
      ⟨memory, some (front upper), []⟩ _ _ others created rfl behind with
    ⟨rewriter, inserted, performed, stored, contents, unused, supply,
      named⟩
  exact ⟨rewriter, inserted, performed,
    { cells := by
        rw [stored]
        simp only [List.append_assoc, List.cons_append, List.nil_append]
      unused := unused
      supply := supply },
    contents, named⟩

/-- Creating an operation behind the visited one and one in front of it. -/
theorem prepared_commutation
    (cells : memory.cells = lower ++ cell :: upper)
    (found : List ℕ) (first second : Op A)
    (others : List (Command (Op A))) :
    ∃ rewriter inserted,
      Rewriter.performAll cell.address found ⟨memory, none, []⟩
          (.setInsertionPointAfter .visited :: .create first ::
            .setInsertionPoint (.created 0) :: .create second ::
              others) =
          rewriter.performAll cell.address found others ∧
        Prepared memory lower cell upper inserted rewriter ∧
        items inserted = [second, first] := by
  rcases
    prepared_create cells found [first]
      (.setInsertionPoint (.created 0) :: .create second :: others) with
    ⟨middle, inserted, performed, prepared, contents, named⟩
  rcases List.map_eq_singleton_iff.mp contents with ⟨new, rfl, rfl⟩
  rw [List.map_singleton, List.singleton_append] at performed
  have here :
      middle.resolve cell.address found (.created 0) =
        some new.address := by
    rw [Rewriter.resolve, named]
    rfl
  rw [Rewriter.setInsertionPoint_step _ here] at performed
  rcases
    @Rewriter.create_step _ cell.address found
      { middle with point := some (some new.address) }
      (lower ++ [cell]) (new :: upper) others second rfl
      (by simp [prepared.cells]) with
    ⟨rewriter, continued, stored, supply, -, -⟩
  have above := prepared.supply
  dsimp only at stored supply
  exact ⟨rewriter, [⟨middle.memory.fresh, second⟩, new],
    performed.trans continued,
    { cells := by simp [stored]
      unused := by
        intro other member
        rcases List.mem_cons.mp member with rfl | last
        · exact above
        · exact prepared.unused other last
      supply := by omega },
    rfl⟩

/-- Creating one operation behind the visited one and one behind that. -/
theorem prepared_switch
    (cells : memory.cells = lower ++ cell :: upper)
    (found : List ℕ) (first second : Op A)
    (others : List (Command (Op A))) :
    ∃ rewriter inserted,
      Rewriter.performAll cell.address found ⟨memory, none, []⟩
          (.setInsertionPointAfter .visited :: .create first ::
            .setInsertionPointAfter (.created 0) :: .create second ::
              others) =
          rewriter.performAll cell.address found others ∧
        Prepared memory lower cell upper inserted rewriter ∧
        items inserted = [first, second] := by
  rcases
    prepared_create cells found [first]
      (.setInsertionPointAfter (.created 0) :: .create second ::
        others) with
    ⟨middle, inserted, performed, prepared, contents, named⟩
  rcases List.map_eq_singleton_iff.mp contents with ⟨new, rfl, rfl⟩
  rw [List.map_singleton, List.singleton_append] at performed
  have here :
      middle.resolve cell.address found (.created 0) =
        some new.address := by
    rw [Rewriter.resolve, named]
    rfl
  have stored : middle.memory.cells = (lower ++ [cell]) ++ new :: upper := by
    simp [prepared.cells]
  rw [Rewriter.setInsertionPointAfter_step _ here stored] at performed
  rcases
    @Rewriter.create_step _ cell.address found
      { middle with point := some (front upper) }
      (lower ++ [cell, new]) upper others second rfl
      (by simp [prepared.cells]) with
    ⟨rewriter, continued, stored, supply, -, -⟩
  have above := prepared.supply
  dsimp only at stored supply
  exact ⟨rewriter, [new, ⟨middle.memory.fresh, second⟩],
    performed.trans continued,
    { cells := by simp [stored]
      unused := by
        intro other member
        rcases List.mem_cons.mp member with rfl | last
        · exact prepared.unused other List.mem_cons_self
        · rw [List.mem_singleton.mp last]
          exact above
      supply := by omega },
    rfl⟩

/-! ### The erasing part of a script -/

/-- What a plan that takes one gate out has found. -/
structure FoundOne (before : Block A) (plan : Plan A) (found : Found A) :
    Prop where
  only : plan.pairings.map Pairing.found = [found]
  position : before = found.lower ++ found.operation :: found.between
  remaining : plan.before = found.lower ++ found.between

/-- The cell of the found gate. -/
theorem FoundOne.taken {found : Found A}
    (one : FoundOne (items lower) plan found) :
    ∃ below taken above,
      lower = below ++ taken :: above ∧
        items (below ++ above) = plan.before ∧
        foundAddresses plan lower = [taken.address] := by
  rcases split_items one.position with
    ⟨below, taken, above, rfl, belowItems, -, aboveItems, reached⟩
  rcases List.map_eq_singleton_iff.mp one.only with ⟨pairing, only, rfl⟩
  refine ⟨below, taken, above, rfl, ?_, ?_⟩
  · rw [items_append, belowItems, aboveItems, one.remaining]
  · rw [foundAddresses, only, List.filterMap_cons, reached]
    rfl

variable {commands : List (Command (Op A))}
variable {rewriter : Rewriter (Op A)} {inserted : List (Cell (Op A))}

/-- Erase the visited gate only. -/
theorem Prepared.erase_visited
    (prepared : Prepared memory lower cell upper inserted rewriter)
    (performed :
      Rewriter.performAll cell.address (foundAddresses plan lower)
          ⟨memory, none, []⟩ commands =
        rewriter.performAll cell.address (foundAddresses plan lower)
          [.eraseOp .visited])
    (same : plan.before = items lower) (gone : plan.current = none)
    (contents : items inserted = plan.inserted) :
    Realizes plan commands memory lower cell upper := by
  rcases
    Rewriter.eraseOp_step cell.address (foundAddresses plan lower) cell
      .visited [] rfl prepared.cells with
    ⟨after, erased, stored, supply, -⟩
  refine ⟨after, lower, [], inserted, performed.trans erased, ?_,
    .refl _, List.nil_sublist _, same.symm, by simp [gone], contents,
    prepared.unused, supply ▸ prepared.supply⟩
  rw [stored, List.append_nil, List.append_assoc]

/-- Erase the found gate only. -/
theorem Prepared.erase_found {found : Found A}
    (prepared : Prepared memory lower cell upper inserted rewriter)
    (performed :
      Rewriter.performAll cell.address (foundAddresses plan lower)
          ⟨memory, none, []⟩ commands =
        rewriter.performAll cell.address (foundAddresses plan lower)
          [.eraseOp (.found 0)])
    (one : FoundOne (items lower) plan found)
    (stays : plan.current = some cell.item)
    (contents : items inserted = plan.inserted) :
    Realizes plan commands memory lower cell upper := by
  rcases one.taken with ⟨below, taken, above, rfl, remaining, reached⟩
  rw [reached] at performed
  rw [Realizes, reached]
  have cells := prepared.cells
  rw [List.append_assoc, List.cons_append] at cells
  rcases
    Rewriter.eraseOp_step cell.address [taken.address] taken (.found 0)
      [] rfl cells with
    ⟨after, erased, stored, supply, -⟩
  refine ⟨after, below ++ above, [cell], inserted,
    performed.trans erased, ?_,
    (List.Sublist.refl _).append (List.sublist_cons_self _ _), .refl _,
    remaining, by simp [stays], contents, prepared.unused,
    supply ▸ prepared.supply⟩
  rw [stored]
  simp only [List.append_assoc, List.cons_append, List.nil_append]

/-- Erase the visited and the found gate. -/
theorem Prepared.erase_both {found : Found A}
    (prepared : Prepared memory lower cell upper inserted rewriter)
    (performed :
      Rewriter.performAll cell.address (foundAddresses plan lower)
          ⟨memory, none, []⟩ commands =
        rewriter.performAll cell.address (foundAddresses plan lower)
          [.eraseOp .visited, .eraseOp (.found 0)])
    (one : FoundOne (items lower) plan found)
    (gone : plan.current = none)
    (contents : items inserted = plan.inserted) :
    Realizes plan commands memory lower cell upper := by
  rcases one.taken with ⟨below, taken, above, rfl, remaining, reached⟩
  rw [reached] at performed
  rw [Realizes, reached]
  rcases
    Rewriter.eraseOp_step cell.address [taken.address] cell .visited
      [.eraseOp (.found 0)] rfl prepared.cells with
    ⟨middle, first, cells, firstSupply, -⟩
  rw [List.append_assoc, List.cons_append] at cells
  rcases
    Rewriter.eraseOp_step cell.address [taken.address] taken (.found 0)
      [] rfl cells with
    ⟨after, second, stored, secondSupply, -⟩
  refine ⟨after, below ++ above, [], inserted,
    performed.trans (first.trans second), ?_,
    (List.Sublist.refl _).append (List.sublist_cons_self _ _),
    List.nil_sublist _, remaining, by simp [gone], contents,
    prepared.unused, ?_⟩
  · rw [stored]
    simp only [List.append_assoc, List.append_nil]
  · rw [secondSupply, firstSupply]
    exact prepared.supply

/-- Erase the found and the visited gate, in the other order. -/
theorem Prepared.erase_both_found_first {found : Found A}
    (prepared : Prepared memory lower cell upper inserted rewriter)
    (performed :
      Rewriter.performAll cell.address (foundAddresses plan lower)
          ⟨memory, none, []⟩ commands =
        rewriter.performAll cell.address (foundAddresses plan lower)
          [.eraseOp (.found 0), .eraseOp .visited])
    (one : FoundOne (items lower) plan found)
    (gone : plan.current = none)
    (contents : items inserted = plan.inserted) :
    Realizes plan commands memory lower cell upper := by
  rcases one.taken with ⟨below, taken, above, rfl, remaining, reached⟩
  rw [reached] at performed
  rw [Realizes, reached]
  have cells := prepared.cells
  rw [List.append_assoc, List.cons_append] at cells
  rcases
    Rewriter.eraseOp_step cell.address [taken.address] taken (.found 0)
      [.eraseOp .visited] rfl cells with
    ⟨middle, first, cells, firstSupply, -⟩
  rw [← List.append_assoc] at cells
  rcases
    Rewriter.eraseOp_step cell.address [taken.address] cell .visited []
      rfl cells with
    ⟨after, second, stored, secondSupply, -⟩
  refine ⟨after, below ++ above, [], inserted,
    performed.trans (first.trans second), ?_,
    (List.Sublist.refl _).append (List.sublist_cons_self _ _),
    List.nil_sublist _, remaining, by simp [gone], contents,
    prepared.unused, ?_⟩
  · rw [stored]
    simp only [List.append_assoc, List.append_nil]
  · rw [secondSupply, firstSupply]
    exact prepared.supply

/-- Erase the visited gate and two found ones. -/
theorem Prepared.erase_three {found earlier : Found A}
    (prepared : Prepared memory lower cell upper inserted rewriter)
    (performed :
      Rewriter.performAll cell.address (foundAddresses plan lower)
          ⟨memory, none, []⟩ commands =
        rewriter.performAll cell.address (foundAddresses plan lower)
          [.eraseOp .visited, .eraseOp (.found 0), .eraseOp (.found 1)])
    (both : plan.pairings.map Pairing.found = [found, earlier])
    (position :
      items lower = found.lower ++ found.operation :: found.between)
    (inside :
      found.lower = earlier.lower ++ earlier.operation :: earlier.between)
    (same : plan.before = earlier.lower ++ earlier.between ++ found.between)
    (gone : plan.current = none)
    (contents : items inserted = plan.inserted) :
    Realizes plan commands memory lower cell upper := by
  rcases split_items position with
    ⟨below, taken, above, rfl, belowItems, -, aboveItems, reached⟩
  rcases split_items (belowItems.trans inside) with
    ⟨lowest, deeper, middle, rfl, lowestItems, -, middleItems,
      deeperReached⟩
  have named :
      foundAddresses plan (lowest ++ deeper :: middle ++ taken :: above) =
        [taken.address, deeper.address] := by
    have shorter :
        earlier.lower.length < (lowest ++ deeper :: middle).length := by
      rw [← lowestItems, items, List.length_map, List.length_append,
        List.length_cons]
      omega
    rcases List.map_eq_cons_iff.mp both with
      ⟨pairing, others, rest, rfl, tail⟩
    rcases List.map_eq_singleton_iff.mp tail with ⟨other, rfl, rfl⟩
    have inner :
        (lowest ++ deeper :: middle ++
            taken :: above)[other.found.lower.length]? =
          (lowest ++ deeper :: middle)[other.found.lower.length]? :=
      List.getElem?_append_left shorter
    rw [foundAddresses, rest, List.filterMap_cons, reached,
      List.filterMap_cons, inner, deeperReached]
    rfl
  rw [named] at performed
  rw [Realizes, named]
  rcases
    Rewriter.eraseOp_step cell.address [taken.address, deeper.address]
      cell .visited [.eraseOp (.found 0), .eraseOp (.found 1)] rfl
      prepared.cells with
    ⟨first, firstErased, cells, firstSupply, -⟩
  rw [List.append_assoc, List.cons_append] at cells
  rcases
    Rewriter.eraseOp_step cell.address [taken.address, deeper.address]
      taken (.found 0) [.eraseOp (.found 1)] rfl cells with
    ⟨second, secondErased, cells, secondSupply, -⟩
  rw [List.append_assoc, List.cons_append] at cells
  rcases
    Rewriter.eraseOp_step cell.address [taken.address, deeper.address]
      deeper (.found 1) [] rfl cells with
    ⟨after, thirdErased, stored, thirdSupply, -⟩
  refine ⟨after, lowest ++ middle ++ above, [], inserted,
    performed.trans (firstErased.trans (secondErased.trans thirdErased)),
    ?_, ?_, List.nil_sublist _, ?_, by simp [gone], contents,
    prepared.unused, ?_⟩
  · rw [stored]
    simp only [List.append_assoc, List.append_nil]
  · exact ((List.Sublist.refl _).append (List.sublist_cons_self _ _)).append
      (List.sublist_cons_self _ _)
  · rw [items_append, items_append, lowestItems, middleItems, aboveItems,
      same]
  · rw [thirdSupply, secondSupply, firstSupply]
    exact prepared.supply

/-! ### The scripts of the passes -/

theorem foundOne_of_looked {before : Block A} {scanned : QuantumValue}
    {found : Found A}
    (looked :
      getPreviousOperationOnTarget before scanned = .ok (some found))
    (only : plan.pairings.map Pairing.found = [found])
    (remaining : plan.before = found.lower ++ found.between) :
    FoundOne before plan found :=
  ⟨only, (getPreviousOperationOnTarget_correct looked).position, remaining⟩

theorem cancellation_sound {T1 T2 : GateKind}
    {nCtrlsOp1 nTgtsOp1 nCtrlsOp2 nTgtsOp2 : ℕ} :
    Procedure.Sound
      (⟨patternCancellation T1 T2 nCtrlsOp1 nTgtsOp1 nCtrlsOp2 nTgtsOp2,
        cancellationScript⟩ : Procedure A) := by
  intro memory lower cell upper plan cells planned
  rcases patternCancellation_inversion planned with
    ⟨found, currentGate, target, cancels⟩
  have made := cancels.planned
  subst made
  exact (prepared_start cells).erase_both rfl
    (foundOne_of_looked cancels.looked rfl rfl) rfl rfl

theorem commutation_sound {T1 T2 : GateKind}
    {nCtrlsOp1 nTgtsOp1 nCtrlsOp2 nTgtsOp2 : ℕ} :
    Procedure.Sound
      (⟨commuteOperation T1 T2 nCtrlsOp1 nTgtsOp1 nCtrlsOp2 nTgtsOp2,
        commutationScript⟩ : Procedure A) := by
  intro memory lower cell upper plan cells planned
  simp only [commuteOperation, withGate_eq_some, withPrevious_eq_some,
    except_bind_eq_ok, ite_none_eq_some, return_some_eq] at planned
  rcases planned with
    ⟨currentGate, -, target, -, found, looked, previousGate, -, _, -, _, -,
      _, -, -, rfl⟩
  rcases prepared_commutation cells _ _ _ _ with
    ⟨rewriter, inserted, performed, prepared, contents⟩
  exact prepared.erase_both performed
    (foundOne_of_looked looked rfl rfl) rfl contents

theorem switch_sound {T1 T2 T3 T4 : GateKind} :
    Procedure.Sound
      (⟨patternSwitch T1 T2 T3 T4, switchScript⟩ : Procedure A) := by
  intro memory lower cell upper plan cells planned
  simp only [patternSwitch, withGate_eq_some, withPrevious_eq_some,
    except_bind_eq_ok, ite_none_eq_some, return_some_eq] at planned
  rcases planned with
    ⟨currentGate, -, target, -, found, looked, _, -, -, rfl⟩
  rcases prepared_switch cells _ _ _ _ with
    ⟨rewriter, inserted, performed, prepared, contents⟩
  exact prepared.erase_both_found_first performed
    (foundOne_of_looked looked rfl rfl) rfl contents

/-- Create behind the visited gate and erase the found one. -/
theorem move_realizes {found : Found A}
    (cells : memory.cells = lower ++ cell :: upper)
    (one : FoundOne (items lower) plan found)
    (stays : plan.current = some cell.item) :
    Realizes plan (moveScript plan) memory lower cell upper := by
  rcases prepared_create cells _ _ _ with
    ⟨rewriter, inserted, performed, prepared, contents, -⟩
  exact prepared.erase_found performed one stays contents

theorem commuteCNotZ_procedure_sound :
    Procedure.Sound (⟨commuteCNotZ, moveScript⟩ : Procedure A) := by
  intro memory lower cell upper plan cells planned
  simp only [commuteCNotZ, withGate_eq_some, withPrevious_eq_some,
    except_bind_eq_ok, ite_none_eq_some, return_some_eq] at planned
  rcases planned with
    ⟨currentGate, -, target, -, found, looked, previousGate, -, _, -, _, -,
      _, -, _, -, _, -, -, rfl⟩
  exact move_realizes cells (foundOne_of_looked looked rfl rfl) rfl

theorem commuteZCNot_procedure_sound :
    Procedure.Sound (⟨commuteZCNot, moveScript⟩ : Procedure A) := by
  intro memory lower cell upper plan cells planned
  simp only [commuteZCNot, withGate_eq_some, withPrevious_eq_some,
    except_bind_eq_ok, ite_none_eq_some, return_some_eq] at planned
  rcases planned with
    ⟨currentGate, -, control, -, found, looked, previousGate, -, _, -, _, -,
      _, -, -, rfl⟩
  exact move_realizes cells (foundOne_of_looked looked rfl rfl) rfl

theorem SwitchPauliHOperation_procedure_sound :
    Procedure.Sound
      (⟨SwitchPauliHOperation, moveScript⟩ : Procedure A) := by
  intro memory lower cell upper plan cells planned
  simp only [SwitchPauliHOperation, withGate_eq_some,
    withPrevious_eq_some, except_bind_eq_ok] at planned
  rcases planned with ⟨currentGate, -, target, -, found, looked, planned⟩
  cases switched : switchedPauli found.gate.kind with
  | none => simp [switched, pure, Except.pure] at planned
  | some pauli =>
      simp only [switched, ite_none_eq_some, return_some_eq] at planned
      rcases planned with ⟨-, rfl⟩
      exact move_realizes cells (foundOne_of_looked looked rfl rfl) rfl

theorem conjugation_sound (middle replacement : GateKind) :
    Procedure.Sound
      (⟨replaceConjugated middle replacement, conjugationScript⟩ :
        Procedure A) := by
  intro memory lower cell upper plan cells planned
  simp only [replaceConjugated, withGate_eq_some, withPrevious_eq_some,
    except_bind_eq_ok, ite_none_eq_some, return_some_eq] at planned
  rcases planned with
    ⟨currentGate, -, target, -, found, looked, prevGate, -, earlier,
      lookedAgain, _, -, -, rfl⟩
  have position := getPreviousOperationOnTarget_correct looked
  have inside := getPreviousOperationOnTarget_correct lookedAgain
  rcases prepared_create cells _ _ _ with
    ⟨rewriter, inserted, performed, prepared, contents, -⟩
  exact prepared.erase_three performed rfl position.position
    inside.position rfl rfl contents

theorem fusion_sound (adjoint : Bool) :
    Procedure.Sound
      (⟨fusePhase adjoint, fusionScript⟩ : Procedure A) := by
  intro memory lower cell upper plan cells planned
  simp only [fusePhase, withGate_eq_some, withPrevious_eq_some,
    except_bind_eq_ok, ite_none_eq_some, return_some_eq] at planned
  rcases planned with
    ⟨currentGate, -, target, -, found, looked, _, -, -, rfl⟩
  rcases prepared_create cells _ _ _ with
    ⟨rewriter, inserted, performed, prepared, contents, -⟩
  exact prepared.erase_both performed
    (foundOne_of_looked looked rfl rfl) rfl contents

theorem decomposition_sound (kind : GateKind)
    (made : QuantumValue → QuantumValue → Block A) :
    Procedure.Sound
      (⟨decompose kind made, decompositionScript⟩ : Procedure A) := by
  intro memory lower cell upper plan cells planned
  simp only [decompose, withGate_eq_some, except_bind_eq_ok,
    return_some_eq] at planned
  rcases planned with ⟨gate, -, control, -, target, -, rfl⟩
  rcases prepared_create cells _ _ _ with
    ⟨rewriter, inserted, performed, prepared, contents, -⟩
  exact prepared.erase_visited performed rfl rfl contents

end Scripts

/-! ## Calls at an address -/

section Calls

variable {memory after : Memory (Op A)}
variable {lower upper : List (Cell (Op A))} {cell : Cell (Op A)}
variable {cursor : Cursor (Op A)}

/--
The memory in the middle of a call, against the cursor of the walk over a
list.
-/
structure Reached (memory : Memory (Op A)) (lower : List (Cell (Op A)))
    (cell : Cell (Op A)) (upper : List (Cell (Op A)))
    (after : Memory (Op A)) (cursor : Cursor (Op A))
    (remaining kept inserted : List (Cell (Op A))) : Prop where
  cells : after.cells = remaining ++ kept ++ inserted ++ upper
  below : remaining.Sublist lower
  visited : kept.Sublist [cell]
  unused : ∀ new ∈ inserted, memory.fresh ≤ new.address
  supply : memory.fresh ≤ after.fresh
  before : cursor.before = items remaining
  current : cursor.current.toList = items kept
  behind : cursor.inserted = items inserted
  rest : cursor.rest = items upper

/-- What is in front of a call is where the call begins. -/
theorem reached_start (cells : memory.cells = lower ++ cell :: upper) :
    Reached memory lower cell upper memory
      (.enter (items lower) cell.item (items upper)) lower [cell] [] where
  cells := by rw [cells]; simp
  below := .refl _
  visited := .refl _
  unused := by simp
  supply := Nat.le_refl _
  before := rfl
  current := rfl
  behind := rfl
  rest := rfl

/-- A cell that has been erased is not found again. -/
theorem Reached.erased {remaining inserted : List (Cell (Op A))}
    (cells : memory.cells = lower ++ cell :: upper)
    (reached :
      Reached memory lower cell upper after cursor remaining [] inserted) :
    splitAt cell.address after.cells = none := by
  rw [splitAt_eq_none, reached.cells, List.append_nil]
  simp only [addresses_append, List.mem_append, not_or]
  refine ⟨⟨?_, ?_⟩, Memory.not_mem_upper cells⟩
  · exact fun member =>
      Memory.not_mem_lower cells ((reached.below.map _).subset member)
  · intro member
    rcases List.mem_map.mp member with ⟨new, created, equal⟩
    have above := reached.unused new created
    have used := memory.used cell.address (by
      rw [cells]
      exact address_mem (by simp))
    omega

/-- What becomes of the list and of the memory in one call. -/
inductive Matching (memory : Memory (Op A)) (lower : List (Cell (Op A)))
    (cell : Cell (Op A)) (upper : List (Cell (Op A))) :
    Except Fault (Cursor (Op A)) → Except Fault (Memory (Op A)) →
      Prop where
  | fails (fault : Fault) :
      Matching memory lower cell upper (.error fault) (.error fault)
  | returns {next : Cursor (Op A)} {final : Memory (Op A)}
      {remaining kept inserted : List (Cell (Op A))}
      (reached :
        Reached memory lower cell upper final next remaining kept
          inserted) :
      Matching memory lower cell upper (.ok next) (.ok final)

/-- One procedure does at an address what its matcher does to a list. -/
theorem callProcedure_matches (stale : StaleRead)
    {procedure : Procedure A} (sound : procedure.Sound)
    (cells : memory.cells = lower ++ cell :: upper)
    {remaining kept inserted : List (Cell (Op A))}
    (reached :
      Reached memory lower cell upper after cursor remaining kept
        inserted) :
    Matching memory lower cell upper
      (rewrite stale procedure.matcher cursor).outcome
      (callProcedure stale procedure cell.address after) := by
  unfold rewrite callProcedure
  rcases List.sublist_singleton.mp reached.visited with rfl | rfl
  · -- The visited operation has been erased before.
    have gone : cursor.current = none := by
      simpa using reached.current
    rw [reached.erased cells, gone]
    cases stale with
    | stops => exact .fails _
    | findsNothing => exact .returns reached
  · have present : cursor.current = some cell.item := by
      have only := reached.current
      cases current : cursor.current with
      | none => simp [current] at only
      | some operation => simpa [current] using only
    have stored :
        after.cells = remaining ++ cell :: (inserted ++ upper) := by
      rw [reached.cells]
      simp
    rw [Memory.splitAt_eq stored, present, reached.before]
    dsimp only
    cases planned : procedure.matcher (items remaining) cell.item with
    | error fault => exact .fails fault
    | ok decision =>
        cases decision with
        | none => exact .returns reached
        | some plan =>
            rcases sound after _ _ _ plan stored planned with
              ⟨rewriter, below, kept', created, performed, result,
                belowSub, keptSub, belowItems, keptItems, createdItems,
                unused, supply⟩
            have increased := reached.supply
            have carried :
                Reached memory lower cell upper rewriter.memory
                  (plan.apply cursor) below kept'
                  (created ++ inserted) :=
              { cells := by rw [result]; simp
                below := belowSub.trans reached.below
                visited := keptSub
                unused := by
                  intro new member
                  rcases List.mem_append.mp member with recent | old
                  · exact increased.trans (unused new recent)
                  · exact reached.unused new old
                supply := increased.trans supply
                before := belowItems.symm
                current := keptItems.symm
                behind := by
                  rw [items_append, createdItems, ← reached.behind]
                  rfl
                rest := reached.rest }
            have returned :
                carryOut procedure.script cell.address after remaining
                    plan = .ok rewriter.memory := by
              rw [carryOut, performed]
              rfl
            change
              Matching memory lower cell upper (.ok (plan.apply cursor))
                (carryOut procedure.script cell.address after remaining
                  plan)
            rw [returned]
            exact .returns carried

/-- Several procedures do what their matchers do in order. -/
theorem callInOrder_matches (stale : StaleRead)
    {procedures : List (Procedure A)}
    (sound : ∀ procedure ∈ procedures, procedure.Sound)
    (cells : memory.cells = lower ++ cell :: upper)
    {remaining kept inserted : List (Cell (Op A))}
    (reached :
      Reached memory lower cell upper after cursor remaining kept
        inserted) :
    Matching memory lower cell upper
      (rewriteInOrder stale (procedures.map Procedure.matcher)
        cursor).outcome
      (callInOrder stale procedures cell.address after) := by
  induction procedures generalizing after cursor remaining kept inserted with
  | nil => exact .returns reached
  | cons procedure others induction =>
      have first :=
        callProcedure_matches stale (sound procedure List.mem_cons_self)
          cells reached
      have later := fun other member =>
        sound other (List.mem_cons_of_mem procedure member)
      rw [List.map_cons, callInOrder]
      change
        Matching memory lower cell upper
          (rewrite stale procedure.matcher cursor >>=
            rewriteInOrder stale (others.map Procedure.matcher)).outcome _
      generalize called :
        (rewrite stale procedure.matcher cursor).outcome = outcome at first
      generalize
        callProcedure stale procedure cell.address after = result at first ⊢
      cases first with
      | fails fault =>
          rw [Traced.bind_of_error called]
          exact .fails fault
      | returns reachedNext =>
          rw [Traced.bind_of_ok called]
          exact induction later reachedNext

/-- What a pass with procedures does at an address follows its matchers. -/
theorem callInOrder_follows (stale : StaleRead) (first : ℕ)
    {procedures : List (Procedure A)}
    (sound : ∀ procedure ∈ procedures, procedure.Sound)
    {head : List (Cell (Op A))}
    (cells : memory.cells = head ++ lower ++ cell :: upper)
    (nothing : head = []) :
    Follows first (fun _ => []) (fun head _ => head = []) memory head
      upper cell.address
      (rewriteInOrder stale (procedures.map Procedure.matcher)
        (.enter (items lower) cell.item (items upper)))
      (callInOrder stale procedures cell.address memory) := by
  subst nothing
  rw [List.nil_append] at cells
  have matching :=
    callInOrder_matches stale sound cells (reached_start cells)
  generalize
    rewriteInOrder stale (procedures.map Procedure.matcher)
      (.enter (items lower) cell.item (items upper)) = high at matching ⊢
  generalize called : high.outcome = outcome at matching
  generalize
    callInOrder stale procedures cell.address memory = result at matching ⊢
  cases matching with
  | fails fault =>
      constructor
      · intro other failed
        rw [called] at failed
        cases failed
        rfl
      · intro cursor returned
        rw [called] at returned
        cases returned
  | @returns next final remaining kept inserted reached =>
      constructor
      · intro other failed
        rw [called] at failed
        cases failed
      · intro cursor returned
        rw [called] at returned
        cases returned
        refine ⟨final, [], remaining ++ kept ++ inserted, rfl,
          reached.cells, by simp, ?_, ⟨?_⟩, rfl⟩
        · rw [Cursor.visited, reached.before, reached.current,
            reached.behind, items_append, items_append]
        · exact
            { head := []
              lower := lower
              cell := cell
              upper := upper
              created := []
              kept := remaining ++ kept
              inserted := inserted
              entered := cells
              visited := rfl
              left := reached.cells
              erased := reached.below.append reached.visited
              unused := reached.unused
              supply := reached.supply
              behind := .inl rfl }

end Calls

end MQSSPasses.Passes.RewriterScripts
