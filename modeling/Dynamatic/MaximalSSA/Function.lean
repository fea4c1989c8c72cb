import Dynamatic.Refinement.Lockstep

/-!
# Functions in SSA form

Functions as lists of basic blocks whose arguments stand for phi nodes: each branch passes
one value for each argument of its target. Block 0 is the entry. A value is an argument of
a block or a result of one of its operations, by their places.
-/

namespace Dynamatic.MaximalSSA

/-- A block argument or an operation's result. -/
inductive Value where
  | argument (block index : Nat)
  | result (block op index : Nat)
  deriving DecidableEq, Repr

/-- The block to which a value belongs. -/
def Value.getDefiningBlock : Value → Nat
  | argument block _ => block
  | result block _ _ => block

/-- The operations that the maximization strategy tells apart. -/
inductive OpKind where
  | alloc
  | alloca
  | getGlobal
  | other (name : Nat)
  deriving DecidableEq, Repr

structure Op where
  kind : OpKind
  operands : List Value
  /-- The types of the results, by their numbers. -/
  resultTypes : List Nat
  deriving DecidableEq, Repr

/-- A target of a branch and what is passed to it. -/
structure Successor where
  block : Nat
  operands : List Value
  deriving DecidableEq, Repr

structure Terminator where
  kind : Nat
  /-- Whether the operation implements `BranchOpInterface`. -/
  isBranch : Bool
  operands : List Value
  successors : List Successor
  deriving DecidableEq, Repr

structure Block where
  /-- The types of the arguments. -/
  arguments : List Nat
  ops : List Op
  terminator : Terminator
  deriving DecidableEq, Repr

structure Func where
  blocks : List Block
  deriving DecidableEq, Repr

/-- All operands of a terminator: its own and those that it passes. -/
def Terminator.allOperands (terminator : Terminator) : List Value :=
  terminator.operands ++ terminator.successors.flatMap Successor.operands

/-- The operands of all operations of a block. -/
def Block.operands (block : Block) : List Value :=
  block.ops.flatMap Op.operands ++ block.terminator.allOperands

namespace Func

variable (func : Func)

/-- The type of a value, if the function defines it. -/
def typeOf : Value → Option Nat
  | .argument block index => func.blocks[block]?.bind fun block => block.arguments[index]?
  | .result block op index =>
      func.blocks[block]?.bind fun block => block.ops[op]?.bind fun op => op.resultTypes[index]?

/-- The function has a value. -/
def Defines (value : Value) : Prop := (func.typeOf value).isSome = true

/-- A block has an operation with the value among its operands. -/
def Uses (block : Nat) (value : Value) : Prop :=
  ∃ body, func.blocks[block]? = some body ∧ value ∈ body.operands

/-- A branch of one block leads to another one. -/
def Edge (source target : Nat) : Prop :=
  ∃ body, func.blocks[source]? = some body ∧
    ∃ successor ∈ body.terminator.successors, successor.block = target

/-- The control flow gets from one block to another one, past blocks other than some block. -/
inductive Avoiding (avoided : Nat) : Nat → Nat → Prop where
  | refl {block : Nat} (differs : block ≠ avoided) : Avoiding avoided block block
  | step {block next last : Nat} (differs : block ≠ avoided) (edge : func.Edge block next)
      (rest : Avoiding avoided next last) : Avoiding avoided block last

/-- What the SSA form and its verifier promise. -/
structure Valid : Prop where
  /-- The operands are values of the function. -/
  defined : ∀ {block value}, func.Uses block value → func.Defines value
  /-- The block of a value dominates the blocks that use it. -/
  dominates : ∀ {block value}, func.Uses block value → ¬ func.Avoiding value.getDefiningBlock 0 block
  /-- A branch passes a value of the right type for each argument of its target. -/
  supplied : ∀ {block : Nat} {body : Block} {successor : Successor}, func.blocks[block]? = some body →
    successor ∈ body.terminator.successors →
      ∃ target : Block, func.blocks[successor.block]? = some target ∧
        successor.operands.map func.typeOf = target.arguments.map some
  /-- Only branches have successors. -/
  branches : ∀ {block : Nat} {body : Block}, func.blocks[block]? = some body →
    body.terminator.successors ≠ [] → body.terminator.isBranch = true

end Func

section Execution

variable {Data Memory : Type}

/-- The meaning of the operations: their effect, and the successor that a terminator takes. -/
structure Machine (Data Memory : Type) where
  execute : OpKind → List Data → Memory → Option (List Data × Memory)
  choose : Nat → List Data → Memory → Option Nat

/-- Where an execution is, and the values as they were last computed. -/
structure State (Data Memory : Type) where
  block : Nat
  position : Nat
  values : Value → Data
  memory : Memory

/-- The arguments of a block take the data that a branch passes. -/
def enter (values : Value → Data) (block : Nat) (passed : List Data) : Value → Data
  | .argument owner index =>
      if owner = block then passed.getD index (values (.argument owner index))
      else values (.argument owner index)
  | .result owner op index => values (.result owner op index)

/-- An operation computes its results. -/
def assign (values : Value → Data) (block op : Nat) (results : List Data) : Value → Data
  | .result owner position index =>
      if owner = block ∧ position = op then
        results.getD index (values (.result owner position index))
      else values (.result owner position index)
  | .argument owner index => values (.argument owner index)

/-- A call enters the entry block. -/
def State.call (values : Value → Data) (arguments : List Data) (memory : Memory) :
    State Data Memory :=
  ⟨0, 0, enter values 0 arguments, memory⟩

namespace Func

variable (func : Func) (machine : Machine Data Memory)

/-- The data that the next operation or the terminator reads. -/
def reads (state : State Data Memory) : List Data :=
  match func.blocks[state.block]? with
  | some block =>
      match block.ops[state.position]? with
      | some op => op.operands.map state.values
      | none => block.terminator.operands.map state.values
  | none => []

/-- One operation executes, or the terminator passes control to a successor. -/
def step (state : State Data Memory) : Option (State Data Memory) :=
  func.blocks[state.block]?.bind fun block =>
    match block.ops[state.position]? with
    | some op =>
        (machine.execute op.kind (op.operands.map state.values) state.memory).map
          fun (results, memory) =>
            ⟨state.block, state.position + 1,
              assign state.values state.block state.position results, memory⟩
    | none =>
        (machine.choose block.terminator.kind (block.terminator.operands.map state.values)
          state.memory).bind fun index =>
            block.terminator.successors[index]?.map fun successor =>
              ⟨successor.block, 0,
                enter state.values successor.block (successor.operands.map state.values),
                state.memory⟩

variable {func machine} {state : State Data Memory} {block : Block}

theorem step_op {op : Op} (isBlock : func.blocks[state.block]? = some block)
    (isOp : block.ops[state.position]? = some op) :
    func.step machine state =
      (machine.execute op.kind (op.operands.map state.values) state.memory).map
        fun (results, memory) =>
          ⟨state.block, state.position + 1,
            assign state.values state.block state.position results, memory⟩ := by
  rw [step, isBlock, Option.bind_some, isOp]

theorem step_terminator (isBlock : func.blocks[state.block]? = some block)
    (isLast : block.ops[state.position]? = none) :
    func.step machine state =
      (machine.choose block.terminator.kind (block.terminator.operands.map state.values)
        state.memory).bind fun index =>
          block.terminator.successors[index]?.map fun successor =>
            ⟨successor.block, 0,
              enter state.values successor.block (successor.operands.map state.values),
              state.memory⟩ := by
  rw [step, isBlock, Option.bind_some, isLast]

theorem reads_op {op : Op} (isBlock : func.blocks[state.block]? = some block)
    (isOp : block.ops[state.position]? = some op) :
    func.reads state = op.operands.map state.values := by
  rw [reads, isBlock]
  simp only [isOp]

theorem reads_terminator (isBlock : func.blocks[state.block]? = some block)
    (isLast : block.ops[state.position]? = none) :
    func.reads state = block.terminator.operands.map state.values := by
  rw [reads, isBlock]
  simp only [isLast]

end Func

end Execution

end Dynamatic.MaximalSSA
