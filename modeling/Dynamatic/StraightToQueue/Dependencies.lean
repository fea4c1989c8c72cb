import Dynamatic.StraightToQueue.BlockIndexing

/-!
# The dependencies between the groups of a load-store queue

Blocks with accesses that are not both loads depend on each other when control can go
from one to the other: the block that comes first is the producer, and in a common
loop each is. The groups wait for their producers, as far as no dominating producer
waits for the same one already.
-/

namespace Dynamatic.StraightToQueue

variable {Block : Type} [DecidableEq Block]

/-! ### Paths -/

section Paths

variable (region : Region Block)

/-- The paths from a block to an end that go on from a path through the visited blocks. A path
that begins at the end may come back to it once. The depth is bounded by the fuel. -/
def dfsAllPaths (finish : Block) :
    Nat → Block → List Block → List Block → Nat → List (List Block)
  | 0, _, _, _, _ => []
  | fuel + 1, start, path, visited, endVisitCount =>
      let path := path ++ [start]
      let visited := visited.insert start
      let endVisitCount := if start = finish then endVisitCount + 1 else endVisitCount
      if start = finish ∧ path.length > 1 then [path]
      else
        (region.successors start).flatMap fun successor =>
          if successor ∉ visited ∨ successor = finish ∧ endVisitCount < 2 then
            dfsAllPaths finish fuel successor path visited endVisitCount
          else []

/-- All paths between two blocks, without a block to traverse and blocks to avoid. -/
def findAllPaths (start finish : Block) : List (List Block) :=
  dfsAllPaths region finish (region.blocks.length + 2) start [] [] 0

end Paths

/-! ### Loops -/

section Loops

variable {Loop : Type} [DecidableEq Loop]

/-- Whether loops are the same or lie in the same. A loop is given with the loops around it, the
innermost first, and a block outside of all loops with none. -/
def isSameLoop : List Loop → List Loop → Bool
  | [], _ => false
  | _ :: _, [] => false
  | loop :: parents, other :: otherParents =>
      decide (loop = other) || isSameLoop parents (other :: otherParents) ||
        isSameLoop (loop :: parents) otherParents || isSameLoop parents otherParents
  termination_by loops others => loops.length + others.length

/-- Whether the first loop is the second or nested in it. -/
def isSameOrInnerLoop : List Loop → List Loop → Bool
  | [], _ => false
  | _ :: _, [] => false
  | inner :: parents, outer :: outerParents =>
      decide (inner = outer) || isSameOrInnerLoop parents (outer :: outerParents)

/-- Loops have a common one around them exactly when they are said to be the same. -/
theorem isSameLoop_iff {loops others : List Loop} :
    isSameLoop loops others = true ↔ ∃ loop ∈ loops, loop ∈ others := by
  induction loops, others using isSameLoop.induct with
  | case1 others => simp [isSameLoop]
  | case2 loop parents => simp [isSameLoop]
  | case3 loop parents other otherParents here there both =>
      simp only [isSameLoop, Bool.or_eq_true, decide_eq_true_eq, here, there, both]
      constructor
      · rintro (((rfl | ⟨parent, mem, other⟩) | ⟨parent, mem, other⟩) | ⟨parent, mem, other⟩)
        · exact ⟨loop, List.mem_cons_self, List.mem_cons_self⟩
        · exact ⟨parent, List.mem_cons_of_mem _ mem, other⟩
        · exact ⟨parent, mem, List.mem_cons_of_mem _ other⟩
        · exact ⟨parent, List.mem_cons_of_mem _ mem, List.mem_cons_of_mem _ other⟩
      · rintro ⟨common, mem, otherMem⟩
        rcases List.mem_cons.mp mem with rfl | inParents
        · exact (List.mem_cons.mp otherMem).elim (fun same => .inl (.inl (.inl same)))
            fun inOthers => .inl (.inr ⟨common, List.mem_cons_self, inOthers⟩)
        · exact .inl (.inl (.inr ⟨common, inParents, otherMem⟩))

end Loops

/-! ### Dependencies -/

/-- A load or a store of the queue, and its block. -/
structure MemPortOp (Block : Type) where
  block : Block
  isLoad : Bool
  deriving DecidableEq

structure ProdConsMemDep (Block : Type) where
  prodBb : Block
  consBb : Block
  deriving DecidableEq

section Dependencies

variable {Loop : Type} [DecidableEq Loop] (region : Region Block)
  (loopsOf : Block → List Loop)

def isThereAPath (op1 op2 : MemPortOp Block) : Bool :=
  !(findAllPaths region op1.block op2.block).isEmpty

def areBothLoad (op1 op2 : MemPortOp Block) : Bool := op1.isLoad && op2.isLoad

def isSameBlock (op1 op2 : MemPortOp Block) : Bool := decide (op1.block = op2.block)

def isSameLoopBlocks (source dest : Block) : Bool := isSameLoop (loopsOf source) (loopsOf dest)

def isSameOrInnerLoopBlocks (source dest : Block) : Bool :=
  isSameOrInnerLoop (loopsOf source) (loopsOf dest)

/-- The dependencies with those of a pair of operations. -/
def addPair (allMemDeps : List (ProdConsMemDep Block)) (i j : MemPortOp Block) :
    List (ProdConsMemDep Block) :=
  if isSameBlock i j || areBothLoad i j || (!isThereAPath region i j && !isThereAPath region j i)
  then allMemDeps
  else if ⟨j.block, i.block⟩ ∈ allMemDeps then allMemDeps
  else if region.isLess j.block i.block then
    if isSameLoopBlocks loopsOf i.block j.block then
      allMemDeps ++ [⟨j.block, i.block⟩, ⟨i.block, j.block⟩]
    else allMemDeps ++ [⟨j.block, i.block⟩]
  else allMemDeps

/-- The dependencies with that of a store in a loop on itself, if it has no producer there. -/
def addSelf (allMemDeps : List (ProdConsMemDep Block)) (op : MemPortOp Block) :
    List (ProdConsMemDep Block) :=
  if op.isLoad then allMemDeps
  else if (loopsOf op.block).isEmpty then allMemDeps
  else if ⟨op.block, op.block⟩ ∈ allMemDeps then allMemDeps
  else if allMemDeps.any fun dep =>
      decide (dep.consBb = op.block) && isSameOrInnerLoopBlocks loopsOf dep.prodBb op.block then
    allMemDeps
  else allMemDeps ++ [⟨op.block, op.block⟩]

def identifyMemoryDependencies (operations : List (MemPortOp Block)) :
    List (ProdConsMemDep Block) :=
  let pairs := operations.foldl
    (fun allMemDeps i => operations.foldl (fun deps j => addPair region loopsOf deps i j) allMemDeps)
    []
  operations.foldl (addSelf loopsOf) pairs

end Dependencies

/-! ### Groups -/

/-- The groups by their blocks, with the predecessors and successors of each. -/
structure GroupsGraph (Block : Type) where
  groups : List Block
  preds : Block → List Block
  succs : Block → List Block

def addEdge (graph : GroupsGraph Block) (memDep : ProdConsMemDep Block) : GroupsGraph Block where
  groups := graph.groups
  preds := Function.update graph.preds memDep.consBb
    ((graph.preds memDep.consBb).insert memDep.prodBb)
  succs := Function.update graph.succs memDep.prodBb
    ((graph.succs memDep.prodBb).insert memDep.consBb)

def constructGroupsGraph (lsqOps : List (MemPortOp Block))
    (lsqMemDeps : List (ProdConsMemDep Block)) : GroupsGraph Block :=
  lsqMemDeps.foldl addEdge
    { groups := lsqOps.foldl (fun groups op => groups.insert op.block) []
      preds := fun _ => []
      succs := fun _ => [] }

section Minimize

variable (region : Region Block) (properlyDominates : Block → Block → Bool)

/-- The predecessors that a predecessor behind them, which dominates the group, waits for. -/
def predsToRemove (graph : GroupsGraph Block) (group : Block) : List Block :=
  (graph.preds group).filter fun sp =>
    (graph.preds group).any fun bp =>
      !(decide (sp = bp) || region.isGreater sp bp) &&
        (decide (sp ∈ graph.preds bp) && properlyDominates bp group)

def minimizeGroup (graph : GroupsGraph Block) (group : Block) : GroupsGraph Block :=
  let removed := predsToRemove region properlyDominates graph group
  { groups := graph.groups
    preds := Function.update graph.preds group
      ((graph.preds group).filter fun pred => pred ∉ removed)
    succs := fun pred =>
      if pred ∈ removed then (graph.succs pred).filter fun other => other ≠ group
      else graph.succs pred }

/-- The groups are visited in the order of their set, which is that of their addresses. -/
def minimizeGroupsConnections (visits : List Block) (graph : GroupsGraph Block) :
    GroupsGraph Block :=
  visits.foldl (minimizeGroup region properlyDominates) graph

end Minimize

end Dynamatic.StraightToQueue
