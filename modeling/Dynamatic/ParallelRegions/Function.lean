import Mathlib.Data.List.Basic

/-!
# Functions at the cf level

The control-flow graph that `CfDetectParallelRegions` reads: blocks with arguments,
operations with what they touch, and terminators that hand values to the arguments of
their successors. Blocks are named by their position; block 0 is the entry block.
-/

namespace Dynamatic.ParallelRegions

/-- An SSA value, by the block that owns it. -/
inductive Value where
  | blockArgument (owner argNumber : Nat)
  | opResult (owner position resultNumber : Nat)
  deriving DecidableEq, Repr

namespace Value

/-- The block of an argument, or of the operation that defines a result. -/
def block : Value → Nat
  | blockArgument owner _ => owner
  | opResult owner _ _ => owner

end Value

/-- What an effect is on; effects on the default resource are memory. -/
inductive Resource where
  | default
  | other (resource : Nat)
  deriving DecidableEq, Repr

inductive EffectKind where
  | read
  | write
  | allocate
  | free
  deriving DecidableEq, Repr

/-- An effect that an operation declares, on a value or on nothing in particular. -/
structure Effect where
  kind : EffectKind
  value : Option Value
  resource : Resource
  deriving DecidableEq, Repr

/-- The operations that the pass tells apart. -/
inductive OpKind where
  | constant
  | load (memref : Value)
  | store (memref : Value)
  | alloc
  /-- An operation that is free of memory effects. -/
  | effectFree
  /-- An operation that declares its effects. -/
  | declares (effects : List Effect)
  /-- An operation that is not free of effects and does not declare any. -/
  | undeclared
  deriving DecidableEq, Repr

/-- An operation with its operands, the accesses that its recorded dependences name, and
whether its interface is a memory controller. -/
structure Operation where
  name : Nat
  kind : OpKind
  operands : List Value
  dependences : List Nat
  connectsToMC : Bool
  deriving DecidableEq, Repr

/-- An edge of a terminator and what it hands to each argument of the block; `none` is a
value that the terminator produces itself. -/
structure Edge where
  block : Nat
  operands : List (Option Value)
  deriving DecidableEq, Repr

/-- A terminator: whether it is a branch operation, the operands that it does not
forward, and its edges. -/
structure Terminator where
  isBranch : Bool
  operands : List Value
  edges : List Edge
  deriving DecidableEq, Repr

namespace Terminator

/-- All operands of the operation. -/
def allOperands (terminator : Terminator) : List Value :=
  terminator.operands ++ terminator.edges.flatMap fun edge => edge.operands.reduceOption

end Terminator

structure Block where
  numArguments : Nat
  operations : List Operation
  terminator : Terminator
  deriving DecidableEq, Repr

/-- A function body. `memInterfacesFromDeps` is the attribute that says how its memory
interfaces were chosen. -/
structure Function where
  blocks : List Block
  memInterfacesFromDeps : Bool
  deriving DecidableEq, Repr

namespace Function

variable (function : Function)

/-- The operations of a block before its terminator. -/
def operations (block : Nat) : List Operation :=
  (function.blocks[block]?.map Block.operations).getD []

def terminator (block : Nat) : Terminator :=
  (function.blocks[block]?.map Block.terminator).getD ⟨true, [], []⟩

def numArguments (block : Nat) : Nat :=
  (function.blocks[block]?.map Block.numArguments).getD 0

/-- The operation that defines a value, if it is not an argument. -/
def definingOp : Value → Option Operation
  | .blockArgument _ _ => none
  | .opResult owner position _ => (function.operations owner)[position]?

def successors (block : Nat) : List Nat := (function.terminator block).edges.map Edge.block

/-- The blocks with an edge to a block. -/
def predecessors (block : Nat) : List Nat :=
  (List.range function.blocks.length).filter fun pred => block ∈ function.successors pred

theorem mem_predecessors {block pred : Nat} :
    pred ∈ function.predecessors block ↔
      pred < function.blocks.length ∧ block ∈ function.successors pred := by
  simp [predecessors]

end Function

end Dynamatic.ParallelRegions
