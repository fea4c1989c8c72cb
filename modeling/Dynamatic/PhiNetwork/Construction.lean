import Dynamatic.StraightToQueue.BlockIndexing

/-!
# Phi networks

`createPhiNetwork` joins values of one type where control comes together: Cytron's algorithm
places merges in the iterated dominance frontiers of the blocks of the values, and the operands of
merges and of uses are found by climbing the dominator tree. Loops have as many steps as there
are blocks, and a construction that takes more, or comes to no block, has no result. The
definitions follow `FtdImplementation.cpp`.
-/

namespace Dynamatic.PhiNetwork

open ControlFlow StraightToQueue

/-- A value of a region: its block, the place there of the operation that defines it, unless it is
an argument, its number among the results, and its type. -/
structure Val (Block : Type) where
  parentBlock : Block
  definingOp : Option Nat
  number : Nat
  type : Nat
  deriving DecidableEq

/-- A value, or the result of the merge in a block. -/
inductive Operand (Block : Type) where
  | value (val : Val Block)
  | merge (block : Block)

/-- The merges with their operands, and the value that comes into each block. -/
structure Network (Block : Type) where
  operandsPerPhi : List (Block × List (Operand Block))
  inputPerBlock : List (Block × Operand Block)

section Sorting

variable {Block : Type} [DecidableEq Block]

/-- The comparison that sorts the values of a block: the operation of the second value dominates
that of the first. Arguments come last. -/
def sortsBefore (a b : Val Block) : Bool :=
  match a.definingOp, b.definingOp with
  | none, _ => false
  | some _, none => true
  | some first, some second => decide (second ≤ first)

/-- The values of a block, sorted. Where the comparison puts neither value before the other, or
each before the other, they stay in their order. -/
def valuesPerBlock (vals : List (Val Block)) (bb : Block) : List (Val Block) :=
  (vals.filter fun val => val.parentBlock = bb).mergeSort
    fun a b => sortsBefore a b || !sortsBefore b a

/-- The last value of a block. -/
def inputBlocks (vals : List (Val Block)) (bb : Block) : Option (Val Block) :=
  (valuesPerBlock vals bb).head?

end Sorting

variable {Block : Type} [DecidableEq Block] (region : Region Block)
  (domTree : Block → Option Block)

/-- A block is listed once for each edge. -/
def getPredecessors (bb : Block) : List Block :=
  region.blocks.flatMap fun pred =>
    (region.successors pred).filterMap fun successor => if successor = bb then some pred else none

/-- The dominator tree is asked for blocks that have predecessors. -/
def getImmediateDominator (bb : Block) : Option Block :=
  if getPredecessors region bb = [] then none else domTree bb

/-- The blocks that have a block in their dominance frontier, found from its predecessors. -/
def frontierOf (bb : Block) : Option (List (Block × Block)) :=
  if (getPredecessors region bb).length < 2 then some []
  else (getImmediateDominator region domTree bb).bind fun stop =>
    ((getPredecessors region bb).mapM fun pred =>
      runners (getImmediateDominator region domTree) stop region.blocks.length pred).map
        fun passed => passed.flatten.map fun runner => (runner, bb)

/-- Blocks paired with those in their dominance frontiers. -/
def getDominanceFrontier : Option (List (Block × Block)) :=
  (region.blocks.mapM (frontierOf region domTree)).map List.flatten

def frontierAt (frontier : List (Block × Block)) (x : Block) : List Block :=
  (frontier.filterMap fun pair => if pair.1 = x then some pair.2 else none).dedup

/-- The blocks to visit, those that were ever among them, and those that need a phi. -/
structure Cryton (Block : Type) where
  w : List Block
  work : List Block
  result : List Block

/-- A block of the frontier gets a phi, and is visited unless it was before. -/
def Cryton.add (state : Cryton Block) (y : Block) : Cryton Block :=
  if y ∈ state.result then state
  else if y ∈ state.work then { state with result := y :: state.result }
  else ⟨y :: state.w, y :: state.work, y :: state.result⟩

def Cryton.run (frontier : List (Block × Block)) : Nat → Cryton Block → Option (List Block)
  | 0, _ => none
  | fuel + 1, state =>
      match state.w with
      | [] => some state.result
      | x :: w =>
          Cryton.run frontier fuel ((frontierAt frontier x).foldl add { state with w := w })

/-- The blocks in which a merge is necessary. -/
def runCrytonAlgorithm (inputs : List Block) : Option (List Block) :=
  (getDominanceFrontier region domTree).bind fun frontier =>
    Cryton.run frontier (region.blocks.length + 1) ⟨inputs, inputs, []⟩

/-- What a block has for those that it dominates. -/
def valueToUse (vals : List (Val Block)) (blocksToAddPhi : List Block) (bb : Block) :
    Option (Operand Block) :=
  match inputBlocks vals bb with
  | some val => some (.value val)
  | none => if bb ∈ blocksToAddPhi then some (.merge bb) else none

/-- The predecessors of a block, each once. -/
def coveredPreds (bb : Block) : List Block := (getPredecessors region bb).eraseDups

/-- One operand for each predecessor, from it or a dominator. -/
def operandsOf (vals : List (Val Block)) (blocksToAddPhi : List Block) (bb : Block) :
    Option (List (Operand Block)) :=
  (coveredPreds region bb).mapM
    (climb (getImmediateDominator region domTree) (valueToUse vals blocksToAddPhi)
      region.blocks.length)

/-- The value at the nearest dominator other than the block; a block without predecessors takes
its own. -/
def foundValue (vals : List (Val Block)) (blocksToAddPhi : List Block) :
    Nat → Block → Option (Operand Block)
  | 0, _ => none
  | fuel + 1, bb =>
      let next := if getPredecessors region bb = [] then some bb
        else getImmediateDominator region domTree bb
      next.bind fun blockOrDominator =>
        match valueToUse vals blocksToAddPhi blockOrDominator with
        | some value => some value
        | none => foundValue vals blocksToAddPhi fuel blockOrDominator

def inputOf (vals : List (Val Block)) (blocksToAddPhi : List Block) (bb : Block) :
    Option (Operand Block) :=
  if bb ∈ blocksToAddPhi then some (.merge bb)
  else foundValue region domTree vals blocksToAddPhi region.blocks.length bb

/-- Values that are not all of one type, or none at all, are refused. -/
def createPhiNetwork (vals : List (Val Block)) : Option (Except String (Network Block)) :=
  match vals with
  | [] => some (.error "Input of \"createPhiNetwork\" is empty")
  | first :: _ =>
      if vals.any fun val => val.type ≠ first.type then
        some (.error "All values must have the same type\n")
      else do
        let blocksToAddPhi ←
          runCrytonAlgorithm region domTree (vals.map Val.parentBlock).dedup
        let operandsPerPhi ← blocksToAddPhi.mapM fun bb =>
          (operandsOf region domTree vals blocksToAddPhi bb).map (bb, ·)
        let inputPerBlock ← region.blocks.mapM fun bb =>
          (inputOf region domTree vals blocksToAddPhi bb).map (bb, ·)
        return .ok ⟨operandsPerPhi, inputPerBlock⟩

end Dynamatic.PhiNetwork
