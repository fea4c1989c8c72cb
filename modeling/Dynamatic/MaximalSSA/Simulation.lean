import Mathlib.Data.List.GetD
import Dynamatic.MaximalSSA.Threading

/-!
# What threading a value keeps

Threading a value through the blocks between its definition and its uses keeps the function
valid, makes all its uses local, and adds no other use that is not. The old and the new
function execute in lockstep: in the visited blocks the new argument holds the value.
-/

namespace Dynamatic.MaximalSSA

/-- A value is used in a block that does not define it. -/
def Func.UsesFar (func : Func) (block : Nat) (value : Value) : Prop :=
  func.Uses block value ∧ value.getDefiningBlock ≠ block

section Structure

variable {func : Func} {value : Value} {type block : Nat} {visited : List Nat} {body : Block}

theorem Visited.unvisited (isVisited : Visited func value visited) :
    value.getDefiningBlock ∉ visited := fun mem => by
  obtain ⟨_, path, _⟩ := isVisited.reaches _ mem
  exact path.ne rfl

/-- The entry is not visited, since the block of the value dominates its uses. -/
theorem Visited.entry (isVisited : Visited func value visited) (valid : func.Valid) :
    0 ∉ visited := fun mem => by
  obtain ⟨user, path, uses⟩ := isVisited.reaches _ mem
  exact valid.dominates uses path

theorem Func.getElem?_maximized :
    (func.maximized value type visited).blocks[block]? = func.blocks[block]?.map fun body =>
      (Block.thread value type visited block body).replaceOperands
        (func.substitute value visited block) :=
  List.getElem?_mapIdx

theorem Func.edge_maximized {target : Nat} :
    (func.maximized value type visited).Edge block target ↔ func.Edge block target := by
  simp only [Edge, getElem?_maximized, Option.map_eq_some_iff]
  constructor
  · rintro ⟨_, ⟨body, isBody, rfl⟩, successor, mem, leads⟩
    obtain ⟨_, memThreaded, rfl⟩ := List.mem_map.mp mem
    obtain ⟨original, isOriginal, rfl⟩ := List.mem_map.mp memThreaded
    exact ⟨body, isBody, original, isOriginal, leads⟩
  · rintro ⟨body, isBody, successor, mem, leads⟩
    exact ⟨_, ⟨body, isBody, rfl⟩, _, List.mem_map_of_mem (List.mem_map_of_mem mem), leads⟩

theorem Func.avoiding_maximized {avoided last : Nat}
    (path : (func.maximized value type visited).Avoiding avoided block last) :
    func.Avoiding avoided block last := by
  induction path with
  | refl differs => exact .refl differs
  | step differs edge _ inductionHypothesis =>
      exact .step differs (edge_maximized.mp edge) inductionHypothesis

theorem Func.Avoiding.last_ne {avoided last : Nat} (path : func.Avoiding avoided block last) :
    last ≠ avoided := by
  induction path with
  | refl differs => exact differs
  | step _ _ _ inductionHypothesis => exact inductionHypothesis

theorem Func.numArguments_eq (isBody : func.blocks[block]? = some body) :
    func.numArguments block = body.arguments.length := by
  rw [numArguments, isBody]
  rfl

/-- The values of the function keep their types. -/
theorem Func.typeOf_maximized {other : Value} {otherType : Nat}
    (isType : func.typeOf other = some otherType) :
    (func.maximized value type visited).typeOf other = some otherType := by
  cases other with
  | argument block index =>
      obtain ⟨body, isBody, isArgument⟩ := Option.bind_eq_some_iff.mp isType
      rw [typeOf, getElem?_maximized, isBody]
      change (body.arguments ++ _)[index]? = _
      rw [List.getElem?_append_left (List.getElem?_eq_some_iff.mp isArgument).choose, isArgument]
  | result block op index =>
      obtain ⟨body, isBody, isResult⟩ := Option.bind_eq_some_iff.mp isType
      obtain ⟨operation, isOp, isResult⟩ := Option.bind_eq_some_iff.mp isResult
      rw [typeOf, getElem?_maximized, isBody]
      change ((body.ops.map _)[op]?.bind _) = _
      rw [List.getElem?_map, isOp]
      exact isResult

theorem Func.typeOf_newArgument (isBody : func.blocks[block]? = some body)
    (mem : block ∈ visited) :
    (func.maximized value type visited).typeOf (.argument block (func.numArguments block)) =
      some type := by
  rw [typeOf, getElem?_maximized, isBody, numArguments_eq isBody]
  change (body.arguments ++ if block ∈ visited then [type] else [])[body.arguments.length]? = _
  rw [if_pos mem, List.getElem?_append_right (Nat.le_refl _), Nat.sub_self]
  rfl

/-- What replaces an operand has its type. -/
theorem Func.typeOf_substitute (isType : func.typeOf value = some type)
    (isBody : func.blocks[block]? = some body) {operand : Value} (defines : func.Defines operand) :
    (func.maximized value type visited).typeOf (func.substitute value visited block operand) =
      func.typeOf operand := by
  obtain ⟨operandType, isOperandType⟩ := Option.isSome_iff_exists.mp defines
  rw [substitute]
  split
  · rename_i replaced
    rw [typeOf_newArgument isBody replaced.2, replaced.1, isType]
  · rw [typeOf_maximized isOperandType, isOperandType]

theorem Block.mem_operands_replaceOperands {replace : Value → Value} {operand : Value} :
    operand ∈ (body.replaceOperands replace).operands ↔
      ∃ original ∈ body.operands, replace original = operand := by
  simp only [operands, replaceOperands, Terminator.allOperands, List.mem_append, List.mem_flatMap,
    List.mem_map]
  constructor
  · rintro (⟨_, ⟨op, mem, rfl⟩, isOperand⟩ | ⟨original, isOperand, rfl⟩ |
      ⟨_, ⟨successor, mem, rfl⟩, isOperand⟩)
    · obtain ⟨original, isOriginal, rfl⟩ := List.mem_map.mp isOperand
      exact ⟨original, .inl ⟨op, mem, isOriginal⟩, rfl⟩
    · exact ⟨original, .inr (.inl isOperand), rfl⟩
    · obtain ⟨original, isOriginal, rfl⟩ := List.mem_map.mp isOperand
      exact ⟨original, .inr (.inr ⟨successor, mem, isOriginal⟩), rfl⟩
  · rintro ⟨original, ⟨op, mem, isOperand⟩ | isOperand | ⟨successor, mem, isOperand⟩, rfl⟩
    · exact .inl ⟨_, ⟨op, mem, rfl⟩, List.mem_map_of_mem isOperand⟩
    · exact .inr (.inl ⟨original, isOperand, rfl⟩)
    · exact .inr (.inr ⟨_, ⟨successor, mem, rfl⟩, List.mem_map_of_mem isOperand⟩)

theorem Block.mem_operands_thread {operand : Value}
    (mem : operand ∈ (Block.thread value type visited block body).operands) :
    operand ∈ body.operands ∨
      operand = value ∧ ∃ successor ∈ body.terminator.successors, successor.block ∈ visited := by
  simp only [operands, thread, Terminator.allOperands, List.mem_append, List.mem_flatMap,
    List.mem_map] at mem ⊢
  obtain isOperand | isOperand | ⟨_, ⟨successor, isSuccessor, rfl⟩, isOperand⟩ := mem
  · exact .inl (.inl isOperand)
  · exact .inl (.inr (.inl isOperand))
  · rcases List.mem_append.mp isOperand with isOperand | isNew
    · exact .inl (.inr (.inr ⟨successor, isSuccessor, isOperand⟩))
    · split at isNew
      · rename_i mem
        exact .inr ⟨List.mem_singleton.mp isNew, successor, isSuccessor, mem⟩
      · cases isNew

/-- The uses of the new function: of new arguments in their blocks, of the value in its block, and
the old uses of other values. -/
theorem Func.uses_maximized (isVisited : Visited func value visited) {operand : Value}
    (uses : (func.maximized value type visited).Uses block operand) :
    (block ∈ visited ∧ operand = .argument block (func.numArguments block)) ∨
      (operand = value ∧ block = value.getDefiningBlock) ∨
      (func.Uses block operand ∧ operand ≠ value) := by
  obtain ⟨_, isNew, mem⟩ := uses
  rw [getElem?_maximized] at isNew
  obtain ⟨body, isBody, rfl⟩ := Option.map_eq_some_iff.mp isNew
  obtain ⟨original, memThreaded, rfl⟩ := Block.mem_operands_replaceOperands.mp mem
  have place : original = value → block = value.getDefiningBlock ∨ block ∈ visited := by
    rintro rfl
    rcases Block.mem_operands_thread memThreaded with isOperand | ⟨_, successor, isSuccessor, mem⟩
    · exact or_iff_not_imp_left.mpr (isVisited.uses block ⟨body, isBody, isOperand⟩)
    · exact isVisited.closed _ mem block ⟨body, isBody, successor, isSuccessor, rfl⟩
  rw [substitute]
  split
  · rename_i replaced
    exact .inl ⟨replaced.2, rfl⟩
  · rename_i kept
    by_cases same : original = value
    · exact .inr (.inl ⟨same, (place same).resolve_right fun mem => kept ⟨same, mem⟩⟩)
    · refine .inr (.inr ⟨⟨body, isBody, ?_⟩, same⟩)
      exact (Block.mem_operands_thread memThreaded).resolve_right fun appended => same appended.1

/-- Far uses remain of other values only. -/
theorem Func.usesFar_maximized (isVisited : Visited func value visited) {operand : Value}
    (far : (func.maximized value type visited).UsesFar block operand) :
    func.UsesFar block operand ∧ operand ≠ value := by
  obtain ⟨uses, differs⟩ := far
  obtain ⟨_, rfl⟩ | ⟨rfl, same⟩ | ⟨uses, other⟩ := uses_maximized isVisited uses
  · exact absurd rfl differs
  · exact absurd same.symm differs
  · exact ⟨⟨uses, differs⟩, other⟩

/-- The new function is in SSA form again. -/
theorem Func.Valid.maximized (valid : func.Valid) (isType : func.typeOf value = some type)
    (isVisited : Visited func value visited) : (func.maximized value type visited).Valid where
  defined := by
    intro block operand uses
    obtain ⟨mem, rfl⟩ | ⟨rfl, _⟩ | ⟨uses, _⟩ := uses_maximized isVisited uses
    · obtain ⟨_, isBody, _⟩ := uses
      rw [getElem?_maximized] at isBody
      obtain ⟨original, isOriginal, _⟩ := Option.map_eq_some_iff.mp isBody
      rw [Defines, typeOf_newArgument isOriginal mem]
      rfl
    · rw [Defines, typeOf_maximized isType]
      rfl
    · obtain ⟨operandType, isOperandType⟩ := Option.isSome_iff_exists.mp (valid.defined uses)
      rw [Defines, typeOf_maximized isOperandType]
      rfl
  dominates := by
    intro block operand uses path
    obtain ⟨_, rfl⟩ | ⟨rfl, same⟩ | ⟨uses, _⟩ := uses_maximized isVisited uses
    · exact path.last_ne rfl
    · exact path.last_ne same
    · exact valid.dominates uses (avoiding_maximized path)
  supplied := by
    intro block body successor isBody mem
    rw [getElem?_maximized] at isBody
    obtain ⟨original, isOriginal, rfl⟩ := Option.map_eq_some_iff.mp isBody
    obtain ⟨_, memThreaded, rfl⟩ := List.mem_map.mp mem
    obtain ⟨old, isOld, rfl⟩ := List.mem_map.mp memThreaded
    obtain ⟨target, isTarget, types⟩ := valid.supplied isOriginal isOld
    refine ⟨_, (getElem?_maximized.trans (congrArg _ isTarget)), ?_⟩
    have uses : ∀ operand ∈ old.operands, func.Uses block operand := fun operand mem =>
      ⟨original, isOriginal, List.mem_append_right _
        (List.mem_append_right _ (List.mem_flatMap.mpr ⟨old, isOld, mem⟩))⟩
    have definesValue : func.Defines value := by
      rw [Defines, isType]
      rfl
    change ((old.operands ++ if old.block ∈ visited then [value] else []).map _).map _ =
      (target.arguments ++ if old.block ∈ visited then [type] else []).map some
    rw [List.map_map, List.map_append, List.map_append, ← types]
    congr 1
    · exact List.map_congr_left fun operand mem =>
        typeOf_substitute isType isOriginal (valid.defined (uses operand mem))
    · split
      · have newType := @typeOf_substitute func value type block visited original isType isOriginal
          value definesValue
        exact congrArg (fun type => [type]) (newType.trans isType)
      · rfl
  branches := by
    intro block body isBody hasSuccessors
    rw [getElem?_maximized] at isBody
    obtain ⟨original, isOriginal, rfl⟩ := Option.map_eq_some_iff.mp isBody
    have isBranch := valid.branches isOriginal fun none =>
      hasSuccessors (by simp [Block.replaceOperands, Block.thread, none])
    exact isBranch

end Structure

section Execution

variable {Data Memory : Type} {func : Func} {value : Value} {type block : Nat}
  {visited : List Nat} {state other : State Data Memory}

theorem assign_of_ne {values : Value → Data} {op : Nat} {results : List Data} {operand : Value}
    (differs : operand.getDefiningBlock ≠ block) :
    assign values block op results operand = values operand := by
  cases operand with
  | argument => rfl
  | result owner position index => exact if_neg fun same => differs same.1

theorem enter_of_ne {values : Value → Data} {passed : List Data} {operand : Value}
    (differs : operand.getDefiningBlock ≠ block) :
    enter values block passed operand = values operand := by
  cases operand with
  | argument owner index => exact if_neg differs
  | result => rfl

/-- The new function is where the old one is, its values are the same, and in a visited block
the new argument holds the value. -/
structure Follows (func : Func) (value : Value) (visited : List Nat)
    (state other : State Data Memory) : Prop where
  block : other.block = state.block
  position : other.position = state.position
  memory : other.memory = state.memory
  values : ∀ {operand}, func.Defines operand → other.values operand = state.values operand
  held : state.block ∈ visited →
    other.values (.argument state.block (func.numArguments state.block)) = state.values value

/-- Operands read the same data in both functions. -/
theorem Follows.read (follows : Follows func value visited state other) {operands : List Value}
    (defined : ∀ operand ∈ operands, func.Defines operand) :
    (operands.map (func.substitute value visited state.block)).map other.values =
      operands.map state.values := by
  rw [List.map_map]
  refine List.map_congr_left fun operand mem => ?_
  rw [Function.comp_apply, Func.substitute]
  split
  · rename_i replaced
    rw [follows.held replaced.2, replaced.1]
  · exact follows.values (defined operand mem)

theorem Func.Valid.defined_op (valid : func.Valid) {body : Block} {op : Op}
    (isBody : func.blocks[block]? = some body) (mem : op ∈ body.ops) :
    ∀ operand ∈ op.operands, func.Defines operand := fun _ isOperand =>
  valid.defined ⟨body, isBody, List.mem_append_left _ (List.mem_flatMap.mpr ⟨op, mem, isOperand⟩)⟩

theorem Func.Valid.defined_terminator (valid : func.Valid) {body : Block}
    (isBody : func.blocks[block]? = some body) :
    ∀ operand ∈ body.terminator.operands, func.Defines operand := fun _ isOperand =>
  valid.defined ⟨body, isBody, List.mem_append_right _ (List.mem_append_left _ isOperand)⟩

theorem Func.Valid.defined_successor (valid : func.Valid) {body : Block} {successor : Successor}
    (isBody : func.blocks[block]? = some body) (mem : successor ∈ body.terminator.successors) :
    ∀ operand ∈ successor.operands, func.Defines operand := fun _ isOperand =>
  valid.defined ⟨body, isBody, List.mem_append_right _
    (List.mem_append_right _ (List.mem_flatMap.mpr ⟨successor, mem, isOperand⟩))⟩

/-- A block of the new function. -/
def Func.newBlock (func : Func) (value : Value) (type : Nat) (visited : List Nat) (block : Nat)
    (body : Block) : Block :=
  (Block.thread value type visited block body).replaceOperands
    (func.substitute value visited block)

theorem Follows.newBlock (follows : Follows func value visited state other) {body : Block}
    (isBody : func.blocks[state.block]? = some body) :
    (func.maximized value type visited).blocks[other.block]? =
      some (func.newBlock value type visited state.block body) := by
  rw [follows.block, Func.getElem?_maximized, isBody]
  rfl

theorem Follows.newOp (follows : Follows func value visited state other) (body : Block) :
    (func.newBlock value type visited state.block body).ops[other.position]? =
      body.ops[state.position]?.map fun op =>
        { op with operands := op.operands.map (func.substitute value visited state.block) } := by
  rw [follows.position]
  exact List.getElem?_map

theorem Follows.readTerminator (follows : Follows func value visited state other)
    (valid : func.Valid) {body : Block} (isBody : func.blocks[state.block]? = some body) :
    (func.newBlock value type visited state.block body).terminator.operands.map other.values =
      body.terminator.operands.map state.values := by
  change (body.terminator.operands.map _).map _ = _
  exact follows.read (valid.defined_terminator isBody)

theorem Func.newSuccessor (func : Func) (value : Value) (type : Nat) (visited : List Nat)
    (block : Nat) (body : Block) (index : Nat) :
    (func.newBlock value type visited block body).terminator.successors[index]? =
      body.terminator.successors[index]?.map fun successor =>
        ⟨successor.block,
          (successor.operands ++ if successor.block ∈ visited then [value] else []).map
            (func.substitute value visited block)⟩ := by
  change ((body.terminator.successors.map _).map _)[index]? = _
  rw [List.map_map, List.getElem?_map]
  rfl

/-- The next operation or the terminator reads the same data in both functions. -/
theorem Follows.reads (follows : Follows func value visited state other) (valid : func.Valid) :
    (func.maximized value type visited).reads other = func.reads state := by
  cases isBody : func.blocks[state.block]? with
  | none => rw [Func.reads, Func.reads, follows.block, Func.getElem?_maximized, isBody, Option.map_none]
  | some body =>
      have newOp := @Follows.newOp _ _ _ _ type _ _ _ follows body
      cases isOp : body.ops[state.position]? with
      | none =>
          rw [isOp, Option.map_none] at newOp
          rw [Func.reads_terminator isBody isOp, Func.reads_terminator (follows.newBlock isBody) newOp]
          exact follows.readTerminator valid isBody
      | some op =>
          rw [isOp, Option.map_some] at newOp
          rw [Func.reads_op isBody isOp, Func.reads_op (follows.newBlock isBody) newOp]
          exact follows.read (valid.defined_op isBody (List.mem_of_getElem? isOp))

/-- An operation computes the same results in both functions. -/
theorem Follows.assign (follows : Follows func value visited state other)
    (unvisited : value.getDefiningBlock ∉ visited) (results : List Data) (memory : Memory) :
    Follows func value visited
      ⟨state.block, state.position + 1,
        MaximalSSA.assign state.values state.block state.position results, memory⟩
      ⟨state.block, state.position + 1,
        MaximalSSA.assign other.values state.block state.position results, memory⟩ where
  block := rfl
  position := rfl
  memory := rfl
  values := by
    rintro (_ | ⟨owner, position, index⟩) defines
    · exact follows.values defines
    · simp only [MaximalSSA.assign, follows.values defines]
  held := by
    intro mem
    change other.values (.argument state.block (func.numArguments state.block)) = _
    have differs : value.getDefiningBlock ≠ state.block := fun same => unvisited (same ▸ mem)
    exact (follows.held mem).trans (assign_of_ne differs).symm

/-- A branch passes the same data in both functions, and the value to a visited block. -/
theorem Follows.enter (follows : Follows func value visited state other)
    (unvisited : value.getDefiningBlock ∉ visited) {target : Nat} {passed : List Data}
    (supplied : passed.length = func.numArguments target) (memory : Memory) :
    Follows func value visited
      ⟨target, 0, MaximalSSA.enter state.values target passed, memory⟩
      ⟨target, 0, MaximalSSA.enter other.values target
        (passed ++ if target ∈ visited then [state.values value] else []), memory⟩ where
  block := rfl
  position := rfl
  memory := rfl
  values := by
    rintro (⟨owner, index⟩ | _) defines
    · simp only [MaximalSSA.enter, follows.values defines]
      split
      · rename_i same
        subst same
        obtain ⟨argumentType, isType⟩ := Option.isSome_iff_exists.mp defines
        obtain ⟨body, isBody, isArgument⟩ := Option.bind_eq_some_iff.mp isType
        have inRange : index < passed.length := by
          rw [supplied, Func.numArguments_eq isBody]
          exact (List.getElem?_eq_some_iff.mp isArgument).choose
        exact List.getD_append _ _ _ _ inRange
      · rfl
    · exact follows.values defines
  held := by
    intro mem
    have differs : value.getDefiningBlock ≠ target := fun same => unvisited (same ▸ mem)
    change (if target = target then
      (passed ++ if target ∈ visited then [state.values value] else []).getD
        (func.numArguments target) _ else _) = MaximalSSA.enter state.values target passed value
    rw [enter_of_ne differs, if_pos rfl, if_pos mem, ← supplied,
      List.getD_append_right _ _ _ _ (Nat.le_refl _), Nat.sub_self]
    rfl

/-- The branches of both functions pass control in step. -/
theorem Follows.pass (follows : Follows func value visited state other) (valid : func.Valid)
    (defines : func.Defines value) (unvisited : value.getDefiningBlock ∉ visited) {body : Block}
    {successor : Successor} (isBody : func.blocks[state.block]? = some body)
    (mem : successor ∈ body.terminator.successors) :
    Follows func value visited
      ⟨successor.block, 0, MaximalSSA.enter state.values successor.block
        (successor.operands.map state.values), state.memory⟩
      ⟨successor.block, 0, MaximalSSA.enter other.values successor.block
        (((successor.operands ++ if successor.block ∈ visited then [value] else []).map
          (func.substitute value visited state.block)).map other.values), state.memory⟩ := by
  obtain ⟨target, isTarget, types⟩ := valid.supplied isBody mem
  have supplied : (successor.operands.map state.values).length =
      func.numArguments successor.block := by
    have lengths := congrArg List.length types
    rw [List.length_map, List.length_map] at lengths
    rw [List.length_map, lengths, Func.numArguments_eq isTarget]
  have defined : ∀ operand ∈ successor.operands ++
      (if successor.block ∈ visited then [value] else []), func.Defines operand := by
    intro operand memOperands
    rcases List.mem_append.mp memOperands with old | new
    · exact valid.defined_successor isBody mem operand old
    · split at new
      · exact List.mem_singleton.mp new ▸ defines
      · cases new
  rw [follows.read defined, List.map_append, apply_ite (List.map state.values)]
  exact follows.enter unvisited supplied state.memory

/-- Both functions execute in lockstep. -/
theorem lockstep_maximized (machine : Machine Data Memory) (valid : func.Valid)
    (isType : func.typeOf value = some type) (isVisited : Visited func value visited) :
    Refinement.Lockstep (func.step machine) ((func.maximized value type visited).step machine)
      (Follows func value visited) := by
  intro state other follows
  have definesValue : func.Defines value := by
    rw [Func.Defines, isType]
    rfl
  cases isBody : func.blocks[state.block]? with
  | none =>
      rw [Func.step, Func.step, follows.block, Func.getElem?_maximized, isBody]
      exact .none
  | some body =>
      have newOp := @Follows.newOp _ _ _ _ type _ _ _ follows body
      cases isOp : body.ops[state.position]? with
      | some op =>
          rw [isOp, Option.map_some] at newOp
          rw [Func.step_op isBody isOp, Func.step_op (follows.newBlock isBody) newOp,
            follows.block, follows.position, follows.memory,
            follows.read (valid.defined_op isBody (List.mem_of_getElem? isOp))]
          cases machine.execute op.kind (op.operands.map state.values) state.memory with
          | none => exact .none
          | some executed => exact .some (follows.assign isVisited.unvisited _ _)
      | none =>
          rw [isOp, Option.map_none] at newOp
          rw [Func.step_terminator isBody isOp,
            Func.step_terminator (follows.newBlock isBody) newOp, follows.memory,
            follows.readTerminator valid isBody]
          change Option.Rel _ _ ((machine.choose body.terminator.kind _ _).bind _)
          cases machine.choose body.terminator.kind (body.terminator.operands.map state.values)
              state.memory with
          | none => exact .none
          | some index =>
              simp only [Option.bind_some, Func.newSuccessor]
              cases isSuccessor : body.terminator.successors[index]? with
              | none => exact .none
              | some successor =>
                  have mem := List.mem_of_getElem? isSuccessor
                  exact .some (follows.pass valid definesValue isVisited.unvisited isBody mem)

end Execution

end Dynamatic.MaximalSSA
