import Dynamatic.BooleanLogic.Expression
import Dynamatic.ControlDependence.Closure
import Dynamatic.ControlFlow.ReversePostOrder
import Dynamatic.Numerals

/-!
# Local control flow graphs

The condition under which a token of a producer is used: the part of the control flow graph
between the producer and the consumer is cloned, with a sink for all other ways; of the clone
the branches are kept on which the consumer depends; and the conditions of the paths to the
consumer are joined.
-/

namespace Dynamatic.Suppression

open BooleanLogic BoolExpression ControlFlow

/-- How a block ends. -/
inductive Terminator (Block : Type) where
  | ret
  | br (dest : Block)
  | condBr (trueDest falseDest : Block)
  deriving DecidableEq, Repr

def Terminator.successors {Block : Type} : Terminator Block → List Block
  | ret => []
  | br dest => [dest]
  | condBr trueDest falseDest => [trueDest, falseDest]

/-- The block that follows, for the outcome of the branch condition. -/
def Terminator.taken {Block : Type} (outcome : Bool) : Terminator Block → Option Block
  | ret => none
  | br dest => some dest
  | condBr trueDest falseDest => some (if outcome then trueDest else falseDest)

/-- An acyclic control flow graph. Its blocks are given by their numbers, which go up along
the edges, and a block's condition goes by its number too. -/
structure FunctionCFG (size : Nat) where
  terminator : Fin size → Terminator (Fin size)
  forward : ∀ {block next}, next ∈ (terminator block).successors → block < next

/-- The blocks that follow one, with the given outcomes, in a number of steps. -/
def visited {Block : Type} (terminator : Block → Terminator Block) (outcome : Block → Bool) :
    Nat → Block → List Block
  | 0, block => [block]
  | steps + 1, block =>
      block :: ((terminator block).taken (outcome block)).elim []
        (visited terminator outcome steps)

/-- The blocks that an execution visits from a block on. -/
def FunctionCFG.execution {size : Nat} (cfg : FunctionCFG size) (outcome : Fin size → Bool)
    (block : Fin size) : List (Fin size) :=
  visited cfg.terminator outcome size block

/-- A graph with a producer, a consumer and a sink, made from blocks of a function, in a region
of its own; no path in it is longer than the bound. -/
structure LocalCFG (Block : Type) (size : Nat) where
  front : Block
  others : List Block
  terminator : Block → Terminator Block
  newProd : Block
  newCons : Block
  sinkBB : Block
  origMap : Block → Option (Fin size)
  topoOrder : List Block
  bound : Nat

namespace LocalCFG

variable {Block : Type} {size : Nat} (graph : LocalCFG Block size)

def successors (block : Block) : List Block := (graph.terminator block).successors

/-- The blocks of the region. -/
def blocks : List Block := graph.front :: graph.others

end LocalCFG

section Region

/-- A block of the local graph: the clone of one, the consumer, or the sink. -/
inductive LocalBlock (size : Nat) where
  | clone (orig : Fin size)
  | proxy
  | sink
  deriving DecidableEq, Repr

/-- What has been built of a local graph. -/
structure Building (size : Nat) where
  cloned : List (Fin size)
  visited : List (Fin size)
  enqueued : List (Fin size)
  hasProxy : Bool
  terminators : List (LocalBlock size × Terminator (LocalBlock size))

variable {size : Nat}

namespace Building

def record (state : Building size) (block : LocalBlock size)
    (terminator : Terminator (LocalBlock size)) : Building size :=
  { state with terminators := (block, terminator) :: state.terminators }

open Numerals in
/-- Where the edge from a block to a successor goes, and the successor if it must be visited.
A producer that is its own consumer is left out. -/
def connect (origProd origCons currOrig : Fin size) (state : Building size) (succOrig : Fin size) :
    LocalBlock size × List (Fin size) × Building size :=
  if succOrig = origCons then
    if state.hasProxy then (.proxy, [], state)
    else (.proxy, [], { state with hasProxy := true }.record .proxy (.br .sink))
  else if succOrig = origProd then (.sink, [], state)
  else if succOrig ∈ state.cloned then
    if succOrig ∉ state.visited ∧ succOrig ∉ state.enqueued then
      (.clone succOrig, [succOrig], { state with enqueued := succOrig :: state.enqueued })
    else (.clone succOrig, [], state)
  else if succOrig ∈ state.visited then (.sink, [], state)
  else if succOrig < currOrig then (.sink, [], state)
  else
    let state := { state with cloned := succOrig :: state.cloned }
    if succOrig ∉ state.enqueued then
      (.clone succOrig, [succOrig], { state with enqueued := succOrig :: state.enqueued })
    else (.clone succOrig, [], state)

/-- The local successors for some successors of a block, and those that must be visited. -/
def connectAll (origProd origCons currOrig : Fin size) : List (Fin size) → Building size →
    List (LocalBlock size) × List (Fin size) × Building size
  | [], state => ([], [], state)
  | succOrig :: rest, state =>
      let (next, toVisit, state) := connect origProd origCons currOrig state succOrig
      let (localSuccessors, successorsToVisit, state) :=
        connectAll origProd origCons currOrig rest state
      (next :: localSuccessors, toVisit ++ successorsToVisit, state)

/-- The branch to the local successors. -/
def branch : List (LocalBlock size) → Terminator (LocalBlock size)
  | [dest] => .br dest
  | [trueDest, falseDest] => .condBr trueDest falseDest
  | _ => .br .sink

/-- Clone what is ahead of a block. -/
def dfs (cfg : FunctionCFG size) (origProd origCons : Fin size) : Nat → Building size → Fin size →
    Building size
  | 0, state, _ => state
  | bound + 1, state, currOrig =>
      let state := { state with visited := currOrig :: state.visited }
      match cfg.terminator currOrig with
      | .ret => state.record (.clone currOrig) (.br .sink)
      | term =>
          let (localSuccessors, successorsToVisit, state) :=
            connectAll origProd origCons currOrig term.successors state
          successorsToVisit.foldl (dfs cfg origProd origCons bound)
            (state.record (.clone currOrig) (branch localSuccessors))

end Building

/-- The part of the graph between the producer and the consumer. -/
def buildLocalCFGRegion (cfg : FunctionCFG size) (origProd origCons : Fin size) :
    LocalCFG (LocalBlock size) size :=
  let built := Building.dfs cfg origProd origCons size ⟨[origProd], [], [], false, []⟩ origProd
  let terminators := (LocalBlock.sink, .ret) :: built.terminators
  -- no block of the region is without a terminator
  let terminator := fun block => (terminators.lookup block).getD (.br .sink)
  let topoOrder := (topo (fun block => (terminator block).successors) (size + 2) ([], [])
    (.clone origProd)).2
  { front := .clone origProd
    others := topoOrder.erase (.clone origProd)
    terminator := terminator
    newProd := .clone origProd
    newCons := if built.hasProxy then .proxy else .sink
    sinkBB := .sink
    origMap := fun block =>
      match block with
      | .clone orig => some orig
      | .proxy => some origCons
      | .sink => none
    topoOrder := topoOrder
    bound := size + 2 }

end Region

section ControlDependence

open ControlDependence

variable {Block : Type} [DecidableEq Block] {size : Nat} (graph : LocalCFG Block size)

/-- The region, its blocks by their positions. -/
def LocalCFG.region : Region graph.blocks.length where
  front := ⟨0, Nat.succ_pos _⟩
  successors := fun position =>
    (graph.successors (graph.blocks.get position)).filterMap fun next =>
      graph.blocks.finIdxOf? next

/-- The blocks that have no successors. -/
def LocalCFG.exits : List (Fin graph.blocks.length) :=
  (List.finRange _).filter fun position => (graph.region.successors position).isEmpty

/-- All the control dependences of a block. -/
def controlDepsOf (block : Block) : List Block :=
  match graph.blocks.finIdxOf? block with
  | none => []
  | some position =>
      let deps := identifyAllControlDeps graph.region (.ofPaths graph.region graph.exits)
      ((List.finRange _).filter (· ∈ deps position)).map graph.blocks.get

end ControlDependence

section DecisionGraph

variable {Block : Type} [DecidableEq Block] {size : Nat} (graph : LocalCFG Block size)

/-- The first block of the set that a search finds; the search gives up where it was before. -/
def findNearest (nodeSet : List Block) : Nat → List Block → Block → Option Block × List Block
  | 0, visited, _ => (none, visited)
  | bound + 1, visited, curr =>
      if curr ∈ nodeSet then (some curr, visited)
      else if curr ∈ visited then (none, visited)
      else (graph.successors curr).foldl (fun (found, visited) succ =>
        match found with
        | some res => (some res, visited)
        | none => findNearest nodeSet bound visited succ) (none, curr :: visited)

/-- The graph of the consumer, the sink and the dependences, below a dummy start, `none`. Where
a constraint requires a value of a block's condition, the other way leads to the sink. -/
def buildDecisionGraph (dependencies : List Block) (muxConstraints : Block → Option Bool) :
    LocalCFG (Option Block) size :=
  let nodeSet := graph.newCons :: graph.sinkBB :: dependencies
  let newProd := graph.topoOrder.find? fun block => block ∈ nodeSet
  let nearest := fun start =>
    ((findNearest graph nodeSet graph.bound [] start).1).getD graph.sinkBB
  let constrain := fun (oldBlock : Block) (value : Bool) (dest : Block) =>
    match muxConstraints oldBlock with
    | some requiredVal => if requiredVal = value then dest else graph.sinkBB
    | none => dest
  let terminator : Option Block → Terminator (Option Block) := fun block =>
    match block with
    | none => .br newProd
    | some oldBlock =>
        if oldBlock = graph.sinkBB then .ret
        else if oldBlock = graph.newCons then .br (some graph.sinkBB)
        else match graph.terminator oldBlock with
          | .condBr trueDest falseDest =>
              .condBr (some (constrain oldBlock true (nearest trueDest)))
                (some (constrain oldBlock false (nearest falseDest)))
          | .br dest => .br (some (nearest dest))
          | .ret => .ret
  { front := none
    others := (graph.topoOrder.filter (· ∈ nodeSet)).map some
    terminator := terminator
    newProd := newProd
    newCons := some graph.newCons
    sinkBB := some graph.sinkBB
    origMap := fun block => block.bind graph.origMap
    topoOrder := (topo (fun block => (terminator block).successors) (graph.bound + 1) ([], [])
      none).2
    bound := graph.bound + 1 }

end DecisionGraph

section Paths

variable {Block : Type} [DecidableEq Block] {size : Nat} (graph : LocalCFG Block size)

/-- The paths to the consumer that continue one to a block, around the sink and without cycle. -/
def allPaths : Nat → List Block → Block → List (List Block)
  | 0, _, _ => []
  | bound + 1, currentLocalPath, u =>
      if u = graph.newCons then [currentLocalPath]
      else (graph.successors u).flatMap fun succ =>
        if succ ≠ graph.sinkBB ∧ succ ∉ currentLocalPath then
          allPaths bound (currentLocalPath ++ [succ]) succ
        else []

/-- The conditions of the branches on a path that are dependences. -/
def getHybridPathExpression (localDeps : List Block) (exp : BoolExpression (Fin size)) :
    List Block → BoolExpression (Fin size)
  | u :: v :: rest =>
      let exp :=
        match graph.terminator u, graph.origMap u with
        | .condBr _ falseDest, some origU =>
            if u ∈ localDeps then and exp (literal origU (falseDest = v)) else exp
        | _, _ => exp
      getHybridPathExpression localDeps exp (v :: rest)
  | _ => exp

/-- The condition under which the consumer is reached. -/
def enumeratePaths (minimize : BoolExpression (Fin size) → BoolExpression (Fin size))
    (controlDeps : List Block) : BoolExpression (Fin size) :=
  let paths := allPaths graph (graph.bound + 1) [graph.newProd] graph.newProd
  if paths.isEmpty then zero
  else minimize (paths.foldl (fun sop path =>
    or sop (getHybridPathExpression graph controlDeps one path)) zero)

end Paths

/-- The condition under which a consumer that is no gamma uses the token of a producer. -/
def suppressionCondition {size : Nat}
    (minimize : BoolExpression (Fin size) → BoolExpression (Fin size)) (cfg : FunctionCFG size)
    (producer consumer : Fin size) : BoolExpression (Fin size) :=
  let locGraph := buildLocalCFGRegion cfg producer consumer
  let decisionGraph := buildDecisionGraph locGraph (controlDepsOf locGraph locGraph.newCons)
    fun _ => none
  enumeratePaths decisionGraph minimize (controlDepsOf decisionGraph decisionGraph.newCons)

end Dynamatic.Suppression
