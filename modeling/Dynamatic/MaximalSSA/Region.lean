import Dynamatic.MaximalSSA.Simulation

/-!
# Maximal SSA form of a function

The pass puts the arguments and the operation results of each block into maximal SSA form,
as far as the strategy selects them. The default strategy leaves out the results of memory
allocations and of references to globals only. The definitions follow
`FuncMaximizeSSA.cpp`.
-/

namespace Dynamatic.MaximalSSA

/-- Which blocks, arguments, operations and results are put into maximal SSA form. -/
structure SSAMaximizationStrategy where
  maximizeBlock : Nat → Bool
  maximizeArgument : Value → Bool
  maximizeOp : Op → Bool
  maximizeResult : Value → Bool

/-- The operations whose results the default strategy leaves out. -/
def Op.isAllocation (op : Op) : Bool :=
  match op.kind with
  | .alloc | .alloca | .getGlobal => true
  | .other _ => false

def defaultStrategy : SSAMaximizationStrategy where
  maximizeBlock := fun _ => true
  maximizeArgument := fun _ => true
  maximizeOp := fun op => !op.isAllocation
  maximizeResult := fun _ => true

section Pass

variable (order : IterationOrder) (strategy : SSAMaximizationStrategy)

/-- The arguments of a block that are maximized. -/
def Func.blockArguments (func : Func) (block : Nat) : List Value :=
  ((List.range (func.numArguments block)).map (Value.argument block)).filter
    strategy.maximizeArgument

/-- The results of the operations of a block that are maximized. -/
def Func.blockResults (func : Func) (block : Nat) : List Value :=
  (func.blocks[block]?.map fun body =>
    (body.ops.zipIdx.filter fun (op, _) => strategy.maximizeOp op).flatMap fun (op, position) =>
      ((List.range op.resultTypes.length).map (Value.result block position)).filter
        strategy.maximizeResult).getD []

def maximizeBlock (func : Func) (block : Nat) : Except String Func := do
  let func ← (func.blockArguments strategy block).foldlM (maximizeValue order) func
  (func.blockResults strategy block).foldlM (maximizeValue order) func

def maximizeRegion (func : Func) : Except String Func :=
  (List.range func.blocks.length).foldlM
    (fun func block =>
      if strategy.maximizeBlock block then maximizeBlock order strategy func block else .ok func)
    func

end Pass

section Refinement

variable {Data Memory : Type}

/-- Two executions are at the same place, have the same memory and the same values of the first
function, and are about to read the same data. -/
structure Agrees (func other : Func) (state stateOther : State Data Memory) : Prop where
  block : stateOther.block = state.block
  position : stateOther.position = state.position
  memory : stateOther.memory = state.memory
  values : ∀ {value}, func.Defines value → stateOther.values value = state.values value
  reads : other.reads stateOther = func.reads state

/-- After every number of steps from a call, both functions agree or both have returned. -/
def SameExecutions (func other : Func) : Prop :=
  ∀ {Data Memory : Type} (machine : Machine Data Memory) (values : Value → Data)
    (arguments : List Data) (memory : Memory) (count : Nat),
    Option.Rel (Agrees func other)
      (Refinement.runFor (func.step machine) (State.call values arguments memory) count)
      (Refinement.runFor (other.step machine) (State.call values arguments memory) count)

/-- What the pass keeps. -/
structure Refines (func other : Func) : Prop where
  valid : other.Valid
  typeOf : ∀ {value type}, func.typeOf value = some type → other.typeOf value = some type
  kinds : ∀ block : Nat, (other.blocks[block]?.map fun body => body.ops.map Op.kind) =
    func.blocks[block]?.map fun body => body.ops.map Op.kind
  usesFar : ∀ {block value}, other.UsesFar block value → func.UsesFar block value
  executions : SameExecutions func other

theorem Refines.refl {func : Func} (valid : func.Valid) : Refines func func := by
  refine ⟨valid, id, fun _ => rfl, id, ?_⟩
  intro Data Memory machine values arguments memory count
  cases Refinement.runFor (func.step machine) (State.call values arguments memory) count with
  | none => exact .none
  | some state => exact .some ⟨rfl, rfl, rfl, fun _ => rfl, rfl⟩

theorem Refines.trans {func middle other : Func} (first : Refines func middle)
    (second : Refines middle other) : Refines func other := by
  refine ⟨second.valid, fun isType => second.typeOf (first.typeOf isType),
    fun block => (second.kinds block).trans (first.kinds block),
    fun far => first.usesFar (second.usesFar far), ?_⟩
  intro Data Memory machine values arguments memory count
  refine Refinement.rel_mono (Refinement.rel_comp
    (first.executions machine values arguments memory count)
    (second.executions machine values arguments memory count)) ?_
  rintro state stateOther ⟨stateMiddle, agrees, agreesOther⟩
  refine ⟨agreesOther.block.trans agrees.block, agreesOther.position.trans agrees.position,
    agreesOther.memory.trans agrees.memory, fun defines => ?_,
    agreesOther.reads.trans agrees.reads⟩
  obtain ⟨type, isType⟩ := Option.isSome_iff_exists.mp defines
  have definesMiddle : middle.Defines _ := Option.isSome_iff_exists.mpr ⟨type, first.typeOf isType⟩
  exact (agreesOther.values definesMiddle).trans (agrees.values defines)

/-- Threading a value refines the function. -/
theorem refines_maximized {func : Func} {value : Value} {type : Nat} {visited : List Nat}
    (valid : func.Valid) (isType : func.typeOf value = some type)
    (isVisited : Visited func value visited) :
    Refines func (func.maximized value type visited) := by
  refine ⟨valid.maximized isType isVisited, Func.typeOf_maximized, fun block => ?_,
    fun far => (Func.usesFar_maximized isVisited far).1, ?_⟩
  · rw [Func.getElem?_maximized, Option.map_map]
    congr 1
    funext body
    exact List.map_map
  · intro Data Memory machine values arguments memory count
    have starts : Follows func value visited (State.call values arguments memory)
        (State.call values arguments memory) :=
      ⟨rfl, rfl, rfl, fun _ => rfl, fun mem => absurd mem (isVisited.entry valid)⟩
    refine Refinement.rel_mono
      (Refinement.Lockstep.runFor (lockstep_maximized machine valid isType isVisited) starts count)
      ?_
    exact fun follows => ⟨follows.block, follows.position, follows.memory, follows.values,
      follows.reads valid⟩

/-- Putting a value into maximal SSA form refines the function and makes the value local. -/
theorem maximizeValue_refines (order : IterationOrder) {func : Func} (valid : func.Valid)
    (value : Value) : ∃ other, maximizeValue order func value = .ok other ∧
      Refines func other ∧ ∀ block, ¬ other.UsesFar block value := by
  cases isType : func.typeOf value with
  | none =>
      refine ⟨func, by rw [maximizeValue, isType], .refl valid, fun block far => ?_⟩
      have defines := valid.defined far.1
      rw [Func.Defines, isType] at defines
      cases defines
  | some type =>
      obtain ⟨visited, isVisited, maximizes⟩ := maximizeValue_eq order isType valid.branches
      exact ⟨_, maximizes, refines_maximized valid isType isVisited, fun block far =>
        (Func.usesFar_maximized isVisited far).2 rfl⟩

/-- Putting some values into maximal SSA form, one after the other. -/
theorem foldlM_maximizeValue (order : IterationOrder) (values : List Value) {func : Func}
    (valid : func.Valid) : ∃ other, values.foldlM (maximizeValue order) func = .ok other ∧
      Refines func other ∧ ∀ value ∈ values, ∀ block, ¬ other.UsesFar block value := by
  induction values generalizing func with
  | nil => exact ⟨func, rfl, .refl valid, fun _ mem => absurd mem List.not_mem_nil⟩
  | cons first rest inductionHypothesis =>
      obtain ⟨next, maximizes, refines, isLocal⟩ := maximizeValue_refines order valid first
      obtain ⟨other, maximizesRest, refinesRest, localRest⟩ := inductionHypothesis refines.valid
      refine ⟨other, ?_, refines.trans refinesRest, List.forall_mem_cons.mpr ⟨?_, localRest⟩⟩
      · rw [List.foldlM_cons, maximizes]
        exact maximizesRest
      · exact fun block far => isLocal block (refinesRest.usesFar far)

end Refinement

section Selection

variable {order : IterationOrder} {func other : Func} {block : Nat} {value : Value}

/-- The results of allocations and of references to globals. -/
def Func.IsAllocation (func : Func) (value : Value) : Prop :=
  ∃ block position index body op, value = .result block position index ∧
    func.blocks[block]? = some body ∧ body.ops[position]? = some op ∧ op.isAllocation = true

theorem Func.mem_blockArguments {index : Nat} (defines : func.Defines (.argument block index)) :
    .argument block index ∈ func.blockArguments defaultStrategy block := by
  obtain ⟨type, isType⟩ := Option.isSome_iff_exists.mp defines
  obtain ⟨body, isBody, isArgument⟩ := Option.bind_eq_some_iff.mp isType
  have inRange := (List.getElem?_eq_some_iff.mp isArgument).choose
  rw [← numArguments_eq isBody] at inRange
  exact List.mem_filter.mpr ⟨List.mem_map_of_mem (List.mem_range.mpr inRange), rfl⟩

theorem Func.mem_blockResults {position index : Nat}
    (defines : func.Defines (.result block position index))
    (selected : ¬ func.IsAllocation (.result block position index)) :
    .result block position index ∈ func.blockResults defaultStrategy block := by
  obtain ⟨type, isType⟩ := Option.isSome_iff_exists.mp defines
  obtain ⟨body, isBody, isResult⟩ := Option.bind_eq_some_iff.mp isType
  obtain ⟨op, isOp, isResult⟩ := Option.bind_eq_some_iff.mp isResult
  have inRange := (List.getElem?_eq_some_iff.mp isResult).choose
  have maximizes : (!op.isAllocation) = true := by
    rw [Bool.not_eq_true', Bool.eq_false_iff]
    exact fun allocates => selected ⟨block, position, index, body, op, rfl, isBody, isOp, allocates⟩
  rw [blockResults, isBody]
  refine List.mem_flatMap.mpr ⟨(op, position), List.mem_filter.mpr ⟨?_, maximizes⟩, ?_⟩
  · exact List.mem_zipIdx_iff_getElem?.mpr isOp
  · exact List.mem_filter.mpr ⟨List.mem_map_of_mem (List.mem_range.mpr inRange), rfl⟩

theorem Refines.defines (refines : Refines func other) (defines : func.Defines value) :
    other.Defines value := by
  obtain ⟨type, isType⟩ := Option.isSome_iff_exists.mp defines
  exact Option.isSome_iff_exists.mpr ⟨type, refines.typeOf isType⟩

/-- The pass turns no other operation into an allocation. -/
theorem Refines.isAllocation (refines : Refines func other) (allocation : other.IsAllocation value) :
    func.IsAllocation value := by
  obtain ⟨block, position, index, body, op, rfl, isBody, isOp, allocates⟩ := allocation
  have kinds := refines.kinds block
  rw [isBody] at kinds
  obtain ⟨original, isOriginal, same⟩ := Option.map_eq_some_iff.mp kinds.symm
  have kind := congrArg (·[position]?) same
  simp only [List.getElem?_map, isOp, Option.map_some] at kind
  obtain ⟨originalOp, isOriginalOp, sameKind⟩ := Option.map_eq_some_iff.mp kind
  refine ⟨block, position, index, original, originalOp, rfl, isOriginal, isOriginalOp, ?_⟩
  rw [Op.isAllocation, sameKind]
  exact allocates

variable (order) in
/-- After a block, its values are local, except for allocations. -/
theorem maximizeBlock_refines (valid : func.Valid) (block : Nat) :
    ∃ other, maximizeBlock order defaultStrategy func block = .ok other ∧ Refines func other ∧
      ∀ value, func.Defines value → value.getDefiningBlock = block → ¬ func.IsAllocation value →
        ∀ user, ¬ other.UsesFar user value := by
  obtain ⟨middle, maximizes, refines, isLocal⟩ :=
    foldlM_maximizeValue order (func.blockArguments defaultStrategy block) valid
  obtain ⟨other, maximizesResults, refinesResults, isLocalResults⟩ :=
    foldlM_maximizeValue order (middle.blockResults defaultStrategy block) refines.valid
  refine ⟨other, ?_, refines.trans refinesResults, ?_⟩
  · rw [maximizeBlock, maximizes]
    exact maximizesResults
  · rintro (⟨owner, index⟩ | ⟨owner, position, index⟩) defines rfl selected user far
    · exact isLocal _ (Func.mem_blockArguments defines) user (refinesResults.usesFar far)
    · refine isLocalResults _ (Func.mem_blockResults (refines.defines defines) ?_) user far
      exact fun allocation => selected (refines.isAllocation allocation)

variable (order) in
/-- After some blocks, their values are local, except for allocations. -/
theorem maximizeBlocks_refines (blocks : List Nat) (valid : func.Valid) :
    ∃ other, blocks.foldlM (fun func block =>
        if defaultStrategy.maximizeBlock block then maximizeBlock order defaultStrategy func block
        else .ok func) func = .ok other ∧ Refines func other ∧
      ∀ value, func.Defines value → value.getDefiningBlock ∈ blocks → ¬ func.IsAllocation value →
        ∀ user, ¬ other.UsesFar user value := by
  induction blocks generalizing func with
  | nil => exact ⟨func, rfl, .refl valid, fun _ _ mem => absurd mem List.not_mem_nil⟩
  | cons first rest inductionHypothesis =>
      obtain ⟨next, maximizes, refines, isLocal⟩ := maximizeBlock_refines order valid first
      obtain ⟨other, maximizesRest, refinesRest, isLocalRest⟩ := inductionHypothesis refines.valid
      refine ⟨other, ?_, refines.trans refinesRest, ?_⟩
      · change (maximizeBlock order defaultStrategy func first >>= _) = _
        rw [maximizes]
        exact maximizesRest
      · intro value defines mem selected user far
        rcases List.mem_cons.mp mem with same | mem
        · exact isLocal value defines same selected user (refinesRest.usesFar far)
        · exact isLocalRest value (refines.defines defines) mem
            (fun allocation => selected (refines.isAllocation allocation)) user far

theorem Func.Defines.lt (defines : func.Defines value) :
    value.getDefiningBlock < func.blocks.length := by
  obtain ⟨type, isType⟩ := Option.isSome_iff_exists.mp defines
  cases value with
  | argument block index =>
      obtain ⟨body, isBody, _⟩ := Option.bind_eq_some_iff.mp isType
      exact (List.getElem?_eq_some_iff.mp isBody).choose
  | result block op index =>
      obtain ⟨body, isBody, _⟩ := Option.bind_eq_some_iff.mp isType
      exact (List.getElem?_eq_some_iff.mp isBody).choose

variable (order) in
/-- The pass refines a function in SSA form, and leaves far uses of allocations only. -/
theorem maximizeRegion_refines (valid : func.Valid) :
    ∃ other, maximizeRegion order defaultStrategy func = .ok other ∧ Refines func other ∧
      ∀ block value, other.UsesFar block value → func.IsAllocation value := by
  obtain ⟨other, maximizes, refines, isLocal⟩ :=
    maximizeBlocks_refines order (List.range func.blocks.length) valid
  refine ⟨other, maximizes, refines, fun block value far => ?_⟩
  by_contra selected
  have defines := valid.defined (refines.usesFar far).1
  exact isLocal value defines (List.mem_range.mpr defines.lt) selected block far

end Selection

/-- The pass succeeds on a function in SSA form. All operands that are left are local or come
from allocations, each branch passes one value of the right type for each argument of its
target, and all executions take the same path and compute the same values. -/
theorem maximizeRegion_correct (order : IterationOrder) (func : Func) (valid : func.Valid) :
    ∃ other, maximizeRegion order defaultStrategy func = .ok other ∧
      (∀ block operand, other.Uses block operand →
        operand.getDefiningBlock = block ∨ func.IsAllocation operand) ∧
      (∀ (block : Nat) (body : Block) (successor : Successor), other.blocks[block]? = some body →
        successor ∈ body.terminator.successors →
          ∃ target, other.blocks[successor.block]? = some target ∧
            successor.operands.map other.typeOf = target.arguments.map some) ∧
      SameExecutions func other := by
  obtain ⟨other, maximizes, refines, far⟩ := maximizeRegion_refines order valid
  refine ⟨other, maximizes, fun block operand uses => ?_, fun _ _ _ => refines.valid.supplied,
    refines.executions⟩
  exact or_iff_not_imp_left.mpr fun differs => far block operand ⟨uses, differs⟩

/-- A loop, in which a value from outside is used, and which is entered by a branch to the same
block on both sides. -/
def loopFunc : Func where
  blocks :=
    [ { arguments := [1, 1]
        ops := [⟨.alloc, [], [2]⟩]
        terminator := ⟨0, true, [.argument 0 0],
          [⟨1, [.argument 0 1]⟩, ⟨1, [.argument 0 1]⟩]⟩ },
      { arguments := [1]
        ops := [⟨.other 0, [.argument 1 0, .argument 0 1, .result 0 0 0], [1]⟩]
        terminator := ⟨0, true, [.result 1 0 0], [⟨1, [.argument 1 0]⟩, ⟨2, []⟩]⟩ },
      { arguments := []
        ops := []
        terminator := ⟨1, false, [.argument 0 0], []⟩ } ]

private theorem Func.Uses.mem {func : Func} {block : Nat} {value : Value}
    (uses : func.Uses block value) : block ∈ List.range func.blocks.length ∧
      value ∈ (func.blocks[block]?.map Block.operands).getD [] := by
  obtain ⟨body, isBody, mem⟩ := uses
  refine ⟨List.mem_range.mpr (List.getElem?_eq_some_iff.mp isBody).choose, ?_⟩
  rw [isBody]
  exact mem

theorem loopFunc_valid : loopFunc.Valid where
  defined := by
    intro block value uses
    have checked : ∀ block ∈ List.range loopFunc.blocks.length,
        ∀ value ∈ (loopFunc.blocks[block]?.map Block.operands).getD [],
          (loopFunc.typeOf value).isSome = true := by decide
    exact checked block uses.mem.1 value uses.mem.2
  dominates := by
    intro block value uses path
    have checked : ∀ block ∈ List.range loopFunc.blocks.length,
        ∀ value ∈ (loopFunc.blocks[block]?.map Block.operands).getD [],
          value.getDefiningBlock = 0 ∨ value.getDefiningBlock = block := by decide
    rcases checked block uses.mem.1 value uses.mem.2 with same | same
    · exact path.ne same.symm
    · exact path.last_ne same.symm
  supplied := by
    intro block body successor isBody mem
    have inRange := List.mem_range.mpr (List.getElem?_eq_some_iff.mp isBody).choose
    have checked : ∀ block ∈ List.range loopFunc.blocks.length,
        ∀ body ∈ loopFunc.blocks[block]?, ∀ successor ∈ body.terminator.successors,
          successor.operands.map loopFunc.typeOf =
              ((loopFunc.blocks[successor.block]?.map Block.arguments).getD []).map some ∧
            (loopFunc.blocks[successor.block]?).isSome = true := by decide
    obtain ⟨types, isTarget⟩ := checked block inRange body isBody successor mem
    obtain ⟨target, isTarget⟩ := Option.isSome_iff_exists.mp isTarget
    rw [isTarget] at types
    exact ⟨target, isTarget, types⟩
  branches := by
    intro block body isBody
    have inRange := List.mem_range.mpr (List.getElem?_eq_some_iff.mp isBody).choose
    have checked : ∀ block ∈ List.range loopFunc.blocks.length,
        ∀ body ∈ loopFunc.blocks[block]?, body.terminator.successors ≠ [] →
          body.terminator.isBranch = true := by decide
    exact checked block inRange body isBody

theorem maximizeRegion_correct_loop :
    ∃ other, maximizeRegion ⟨id, fun _ => .refl _⟩ defaultStrategy loopFunc = .ok other ∧
      (∀ block operand, other.Uses block operand →
        operand.getDefiningBlock = block ∨ loopFunc.IsAllocation operand) ∧
      (∀ (block : Nat) (body : Block) (successor : Successor), other.blocks[block]? = some body →
        successor ∈ body.terminator.successors →
          ∃ target, other.blocks[successor.block]? = some target ∧
            successor.operands.map other.typeOf = target.arguments.map some) ∧
      SameExecutions loopFunc other :=
  maximizeRegion_correct _ loopFunc loopFunc_valid

end Dynamatic.MaximalSSA
