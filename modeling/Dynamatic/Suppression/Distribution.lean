import Dynamatic.Numerals
import Dynamatic.Suppression.Signals

/-!
# Token distribution

The circuit of a suppression condition. The tokens of a variable that is reached on several
paths are distributed by a tree of branches, whose selects are filtered by the condition
that the variable is reached at all. The signals are registered by the path on which they
are produced; the muxes of a decision diagram look up the closest one on theirs.
-/

namespace Dynamatic.Suppression

open BooleanLogic

variable {size : Nat}

/-- The signals of each variable with the path that each is produced on, in the order of
their registration. -/
structure SignalRegistry (size : Nat) where
  map : Fin size → List (PathContext size × Signal size)

namespace SignalRegistry

def empty : SignalRegistry size := ⟨fun _ => []⟩

def registerSignal (registry : SignalRegistry size) (var : Fin size) (path : PathContext size)
    (val : Signal size) : SignalRegistry size :=
  ⟨Function.update registry.map var (registry.map var ++ [(path, val)])⟩

/-- Keep the entry when its path is a prefix of the query path and at least as long as the
best one so far. -/
def closest (queryPath : PathContext size) (best : Option (PathContext size × Signal size))
    (entry : PathContext size × Signal size) : Option (PathContext size × Signal size) :=
  if entry.1 <+: queryPath then
    match best with
    | none => some entry
    | some (regPath, val) => if regPath.length ≤ entry.1.length then some entry else (regPath, val)
  else best

/-- The signal whose path is the longest prefix of the query path. -/
def lookup (registry : SignalRegistry size) (var : Fin size) (queryPath : PathContext size) :
    Option (Signal size) :=
  ((registry.map var).foldl (closest queryPath) none).map Prod.snd

/-- The signal of a variable, or the condition of its block when none is registered. -/
def signal (registry : SignalRegistry size) (var : Fin size) (queryPath : PathContext size) :
    Signal size :=
  (registry.lookup var queryPath).getD (.raw var)

end SignalRegistry

section Circuits

/-- A leaf that is neither a literal nor a constant is refused. -/
def boolExpressionToCircuit (registry : SignalRegistry size) (currentPath : PathContext size) :
    BoolExpression (Fin size) → Option (Signal size)
  | .literal id isNegated =>
      let val := registry.signal id currentPath
      some (if isNegated then .notI val else val)
  | .one => some (.constant true .source)
  | .zero => some (.constant false .source)
  | .or _ _ | .and _ _ => none

/-- A mux for every node of the diagram. -/
def bddToCircuit (registry : SignalRegistry size) :
    PathContext size → BDD (Fin size) → Option (Signal size)
  | currentPath, .leaf expr => boolExpressionToCircuit registry currentPath expr
  | currentPath, .node varName negativeInput positiveInput => do
      let falseOperand ← bddToCircuit registry (currentPath ++ [⟨varName, false⟩]) negativeInput
      let trueOperand ← bddToCircuit registry (currentPath ++ [⟨varName, true⟩]) positiveInput
      some (.mux (registry.signal varName currentPath) falseOperand trueOperand)

open Numerals in
/-- The circuit of an expression, its variables in the order of the list. -/
def expressionToCircuit (minimizer : Minimizer (Fin size)) (registry : SignalRegistry size)
    (order : List (Fin size)) (expr : BoolExpression (Fin size)) : Option (Signal size) :=
  let minimized := minimizer.boolMinimize expr
  let cofactorList := order.filter (· ∈ minimized.getVariables)
  bddToCircuit registry [] (buildBDD minimizer cofactorList minimized)

end Circuits

section BranchTrees

/-- All steps of a path are taken. -/
def pathExpr (path : PathContext size) : BoolExpression (Fin size) :=
  path.foldl (fun expr step => .and expr (.literal step.var !step.value)) .one

/-- One of the paths is taken, from a position on. -/
def validPaths (requirements : List (PathContext size)) (startIndex : Nat) :
    BoolExpression (Fin size) :=
  requirements.foldl (fun expr path => .or expr (pathExpr (path.drop startIndex))) .zero

open Numerals in
/-- The circuit of the condition that none of the paths is taken. -/
def generateReachabilityLogic (minimizer : Minimizer (Fin size)) (registry : SignalRegistry size)
    (requirements : List (PathContext size)) (currentPath : PathContext size)
    (startIndex : Nat) : Option (Signal size) :=
  let fSuppress := minimizer.boolMinimize (validPaths requirements startIndex).boolNegate
  let cofactorList := (List.finRange size).filter (· ∈ fSuppress.getVariables)
  bddToCircuit registry currentPath (buildBDD minimizer cofactorList fSuppress)

/-- The requirements disagree on the step at a depth. -/
def diverge (requirements : List (PathContext size)) (depth : Nat) : Bool :=
  requirements.any fun path => requirements.any fun other => path[depth]? != other[depth]?

/-- The first depth from which the requirements go different ways. -/
def findSplit (requirements : List (PathContext size)) (currentDepth : Nat) : Option Nat :=
  let maxDepth := (requirements.map List.length).foldl max 0
  (List.range' currentDepth (maxDepth - currentDepth)).find? (diverge requirements)

/-- The requirements that take a side of the split. -/
def group (requirements : List (PathContext size)) (scanDepth : Nat) (splitVar : Fin size)
    (value : Bool) : List (PathContext size) :=
  requirements.filter fun path => path[scanDepth]? = some ⟨splitVar, value⟩

/-- Split the signal of a variable at the point where its requirements diverge, and so on for
the requirements of either side; `none` when an expected signal is missing. -/
def buildBranchTreeRecursive (minimizer : Minimizer (Fin size)) (currentVar : Fin size) :
    Nat → List (PathContext size) → PathContext size → SignalRegistry size →
      Option (SignalRegistry size)
  | 0, _, _, _ => none
  | depth + 1, requirements, currentPath, registry => do
      let sourceVal ← registry.lookup currentVar currentPath
      match findSplit requirements currentPath.length with
      | none => some registry
      | some scanDepth =>
          let splitVar ← (requirements.head?.bind (·[scanDepth]?)).map PathStep.var
          let conditionVal := registry.signal splitVar currentPath
          let falseGroup := group requirements scanDepth splitVar false
          let trueGroup := group requirements scanDepth splitVar true
          let repReq ← (falseGroup ++ trueGroup).head?
          let baseNextPath := currentPath ++ (repReq.take scanDepth).drop currentPath.length
          let suppressCondition ←
            generateReachabilityLogic minimizer registry requirements baseNextPath scanDepth
          let activeSelectSignal := .branch false suppressCondition conditionVal
          let side (value : Bool) (requirements : List (PathContext size))
              (registry : SignalRegistry size) : Option (SignalRegistry size) :=
            if requirements.isEmpty then some registry
            else
              let path := baseNextPath ++ [⟨splitVar, value⟩]
              buildBranchTreeRecursive minimizer currentVar depth requirements path
                (registry.registerSignal currentVar path
                  (.branch value activeSelectSignal sourceVal))
          let registry ← side true trueGroup registry
          side false falseGroup registry

end BranchTrees

namespace BranchGraph

variable (graph : BranchGraph size)

open Numerals in
/-- The variables of the nodes with the paths on which they are reached from a block. -/
def collect : Nat → List (Fin size) → Block size → PathContext size →
    List (Fin size × PathContext size)
  | steps + 1, onStack, .node var, path =>
      if var ∈ onStack then []
      else
        (var, path) ::
          (collect steps (var :: onStack) (graph.trueDest var) (path ++ [⟨var, true⟩]) ++
            collect steps (var :: onStack) (graph.falseDest var) (path ++ [⟨var, false⟩]))
  | _, _, _, _ => []

/-- The paths on which a variable is reached from the producer. -/
def varNeeds (var : Fin size) : List (PathContext size) :=
  ((graph.collect size [] graph.newProd []).filter fun requirement => requirement.1 = var).map
    Prod.snd

def sortedVars : List (Fin size) :=
  (List.finRange size).filter fun var => graph.varNeeds var ≠ []

/-- Register the condition of the block, and its distribution when it has several paths. -/
def distribute (minimizer : Minimizer (Fin size)) (registry : SignalRegistry size)
    (var : Fin size) : Option (SignalRegistry size) :=
  let registry :=
    match registry.lookup var [] with
    | some _ => registry
    | none => registry.registerSignal var [] (.raw var)
  if 1 < (graph.varNeeds var).length then
    buildBranchTreeRecursive minimizer var (size + 1) (graph.varNeeds var) [] registry
  else some registry

def buildDistributionNetwork (minimizer : Minimizer (Fin size)) : Option (SignalRegistry size) :=
  graph.sortedVars.foldlM (graph.distribute minimizer) .empty

end BranchGraph

end Dynamatic.Suppression
