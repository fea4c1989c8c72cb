import Dynamatic.ControlFlow.Traversal

/-!
# Placement of speculative units

Where the units of a speculative region go, given the operand in front of which the speculator
stands: saves where speculative and other tokens meet, save-commits on every way through the
block of the speculator, commits in front of stores, memory controllers and the end and between
blocks. Commits that are not reached any more are taken away in the end.
-/

namespace Dynamatic.Speculation.Placement

open ControlFlow

/-- The kinds of operations that are told apart. -/
inductive OpKind where
  | source | branch | conditionalBranch | load | store | memoryController | endOp
  | controlMerge | merge | mux | first | init | fork | extUI | extSI | truncI | other
  deriving DecidableEq, Repr

/-- The operations of a function, with their operands and results. -/
structure FuncOp (Operation Value OpOperand : Type) where
  operations : List Operation
  kind : Operation → OpKind
  logicBB : Operation → Option Nat
  operands : Operation → List OpOperand
  results : Operation → List Value
  owner : OpOperand → Operation
  get : OpOperand → Value
  definingOp : Value → Option Operation
  uses : Value → List OpOperand
  mem_operations : ∀ op, op ∈ operations
  mem_operands : ∀ {op operand}, operand ∈ operands op ↔ owner operand = op
  mem_results : ∀ {op value}, value ∈ results op ↔ definingOp value = some op
  mem_uses : ∀ {value operand}, operand ∈ uses value ↔ get operand = value

/-- The operands in front of which units are placed. -/
structure Placements (OpOperand : Type) where
  speculator : OpOperand
  saves : List OpOperand
  commits : List OpOperand
  saveCommits : List OpOperand
  deriving DecidableEq, Repr

namespace Placements

variable {OpOperand : Type} [DecidableEq OpOperand] (placements : Placements OpOperand)
  (operand : OpOperand)

def addSave : Placements OpOperand :=
  { placements with saves := placements.saves.insert operand }

def addCommit : Placements OpOperand :=
  { placements with commits := placements.commits.insert operand }

def addSaveCommit : Placements OpOperand :=
  { placements with saveCommits := placements.saveCommits.insert operand }

def eraseSave : Placements OpOperand :=
  { placements with saves := placements.saves.filter (· ≠ operand) }

def eraseCommit : Placements OpOperand :=
  { placements with commits := placements.commits.filter (· ≠ operand) }

end Placements

variable {Operation Value OpOperand : Type} [DecidableEq Operation] [Fintype Operation]
  [DecidableEq Value] [Fintype Value] [DecidableEq OpOperand] [Fintype OpOperand]
  (funcOp : FuncOp Operation Value OpOperand)

/-! ### Saves -/

section Saves

/-- The values behind a value, up to the conditional branches. -/
def FuncOp.valuesBehind (value : Value) : List Value :=
  (funcOp.uses value).flatMap fun use =>
    if funcOp.kind (funcOp.owner use) = .conditionalBranch then []
    else funcOp.results (funcOp.owner use)

/-- Mark the results of an operation and the values behind them; what is marked is not gone on
from again. -/
def markSpeculativePathsForSaves (currOp : Operation) (specValues : List Value) : List Value :=
  if funcOp.kind currOp = .conditionalBranch then specValues
  else (funcOp.results currOp).foldl
    (preorder funcOp.valuesBehind (Fintype.card Value + 1)) specValues

/-- The values that are speculative in the block of the speculator. -/
def specValues (specPos : OpOperand) : List Value :=
  markSpeculativePathsForSaves funcOp (funcOp.owner specPos) [funcOp.get specPos]

/-- Whether a value only comes from sources; there is no answer where the recursion does not end
with the fuel. -/
def isGeneratedBySourceOp : Nat → Value → Option Bool
  | 0, _ => none
  | fuel + 1, value =>
      match funcOp.definingOp value with
      | none => some false
      | some defOp =>
          if funcOp.kind defOp = .source then some true
          else (funcOp.operands defOp).foldlM (fun all operand =>
            if all then isGeneratedBySourceOp fuel (funcOp.get operand) else some false) true

/-- Place the saves of an operation that has speculative operands and others. -/
def placeSaves (fuel : Nat) (specValues : List Value) (placements : Placements OpOperand)
    (blockOp : Operation) : Option (Placements OpOperand) :=
  let operands := funcOp.operands blockOp
  let hasNonSpecInput := operands.any fun operand => funcOp.get operand ∉ specValues
  let hasSpecInput := operands.any fun operand => funcOp.get operand ∈ specValues
  if hasSpecInput ∧ hasNonSpecInput then
    operands.foldlM (fun placements operand =>
      if funcOp.get operand ∈ specValues then some placements
      else (isGeneratedBySourceOp funcOp fuel (funcOp.get operand)).map fun generated =>
        if generated then placements else placements.addSave operand) placements
  else some placements

def findSaves (fuel : Nat) (placements : Placements OpOperand) : Option (Placements OpOperand) :=
  let specPos := placements.speculator
  (funcOp.logicBB (funcOp.owner specPos)).bind fun specBB =>
    (funcOp.operations.filter fun op => funcOp.logicBB op = some specBB).foldlM
      (placeSaves funcOp fuel (specValues funcOp specPos)) placements

end Saves

/-- The operands behind an operation; of a load those of its data only, of a store none. -/
def getSpecRegionTraversalTargets (op : Operation) : List OpOperand :=
  match funcOp.kind op with
  | .load => ((funcOp.results op)[1]?).elim [] funcOp.uses
  | .store => []
  | _ => (funcOp.results op).flatMap funcOp.uses

/-! ### Save-commits -/

section SaveCommits

/-- Where a way from the control merge is cut: at a save, which becomes a save-commit, at a
save-commit, at the speculator, and in front of a conditional branch. -/
def cutBySaveCommit (placements : Placements OpOperand) (target : OpOperand) :
    Option (Placements OpOperand) :=
  if target ∈ placements.saves then some ((placements.addSaveCommit target).eraseSave target)
  else if target ∈ placements.saveCommits then some placements
  else if target = placements.speculator then some placements
  else if funcOp.kind (funcOp.owner target) = .conditionalBranch then
    some (placements.addSaveCommit target)
  else none

def findSaveCommitsTraversal (state : List Operation × Placements OpOperand)
    (currOp : Operation) : List Operation × Placements OpOperand :=
  traverse (getSpecRegionTraversalTargets funcOp) funcOp.owner (cutBySaveCommit funcOp)
    (Fintype.card Operation + 1) state currOp

/-- There may be only one control merge in the block. -/
def findSaveCommits (placements : Placements OpOperand) : Option (Placements OpOperand) :=
  (funcOp.logicBB (funcOp.owner placements.speculator)).bind fun specBB =>
    match funcOp.operations.filter fun op =>
      funcOp.kind op = .controlMerge ∧ funcOp.logicBB op = some specBB with
    | [] => some placements
    | [controlMergeOp] => some (findSaveCommitsTraversal funcOp ([], placements) controlMergeOp).2
    | _ => none

end SaveCommits

/-! ### Commits -/

section Commits

/-- In front of these a commit is needed. -/
def OpKind.hasSideEffect : OpKind → Bool
  | store | memoryController | endOp => true
  | _ => false

/-- Reach an operand: fail at a save, place a commit, or go on, `none`. -/
def commitOrGoOn (placements : Placements OpOperand) (currOpOperand : OpOperand) :
    Option (Option (Placements OpOperand)) :=
  if currOpOperand ∈ placements.saves then some none
  else if (funcOp.kind (funcOp.owner currOpOperand)).hasSideEffect then
    some (some (placements.addCommit currOpOperand))
  else none

/-- Where a way is cut: at a commit, a save-commit or the speculator, or where the operand is
not gone on from. After a failure nothing is done. -/
def cutByCommit : Option (Placements OpOperand) → OpOperand → Option (Option (Placements OpOperand))
  | none, _ => some none
  | some placements, target =>
      if target ∈ placements.commits ∨ target ∈ placements.saveCommits ∨
          target = placements.speculator then some (some placements)
      else commitOrGoOn funcOp placements target

def findRegularCommitsTraversal (state : List Operation × Option (Placements OpOperand))
    (currOpOperand : OpOperand) : List Operation × Option (Placements OpOperand) :=
  match state with
  | (visited, none) => (visited, none)
  | (visited, some placements) =>
      match commitOrGoOn funcOp placements currOpOperand with
      | some placements => (visited, placements)
      | none => traverse (getSpecRegionTraversalTargets funcOp) funcOp.owner (cutByCommit funcOp)
          (Fintype.card Operation + 1) (visited, some placements) (funcOp.owner currOpOperand)

def findRegularCommits (placements : Placements OpOperand) : Option (Placements OpOperand) :=
  ((placements.speculator :: placements.saveCommits).foldl (findRegularCommitsTraversal funcOp)
    ([], some placements)).2

end Commits

/-! ### Commits between blocks -/

section Arcs

/-- The edges from one block to another. -/
structure BBArc (OpOperand : Type) where
  srcBB : Option Nat
  dstBB : Nat
  edges : List OpOperand
  deriving DecidableEq, Repr

def OpKind.isMergeLike : OpKind → Bool
  | merge | mux | controlMerge | first => true
  | _ => false

/-- Back edges are followed through these in both directions. -/
def OpKind.canFollowThrough : OpKind → Bool
  | fork | extUI | extSI | truncI => true
  | _ => false

def areOpsInSameBlock : List Operation → Bool
  | [] => true
  | op :: ops => (funcOp.logicBB op).isSome && ops.all (funcOp.logicBB · = funcOp.logicBB op)

/-- The branch at which a back edge starts; there is no answer where the search does not end
with the fuel. -/
def backtrackToLoopSource : Nat → Option Operation → Option (Option Operation)
  | 0, _ => none
  | _ + 1, none => some none
  | fuel + 1, some op =>
      match funcOp.kind op with
      | .branch | .conditionalBranch => some (some op)
      | kind =>
          if kind.canFollowThrough then
            backtrackToLoopSource fuel ((funcOp.operands op).head?.bind fun operand =>
              funcOp.definingOp (funcOp.get operand))
          else some none

/-- One of the merges, if all ways led to some and these are in one block. -/
def firstMerge : Option (List Operation) → Option Operation
  | none => none
  | some mergeOps => if areOpsInSameBlock funcOp mergeOps then mergeOps.head? else none

/-- The merge at which a back edge ends, if all the ways lead to merges in one block. -/
def followToMerge : Nat → Operation → Option (Option Operation)
  | 0, _ => none
  | fuel + 1, op =>
      if funcOp.kind op = .init ∨ (funcOp.kind op).isMergeLike then some (some op)
      else if (funcOp.kind op).canFollowThrough then
        (((funcOp.results op).flatMap funcOp.uses).foldlM
          (fun (mergeOps : Option (List Operation)) use =>
            match mergeOps with
            | none => some none
            | some mergeOps => (followToMerge fuel (funcOp.owner use)).map
                (Option.map fun mergeOp => mergeOps ++ [mergeOp]))
          (some [])).map (firstMerge funcOp)
      else some none

/-- Whether an edge inside of a block is a back edge. -/
def isBackedge (fuel : Nat) (edge : OpOperand) (bb : Nat) : Option Bool :=
  (backtrackToLoopSource funcOp fuel (funcOp.definingOp (funcOp.get edge))).bind fun srcOp =>
    match srcOp with
    | none => some false
    | some srcOp => (followToMerge funcOp fuel (funcOp.owner edge)).map fun mergeOp =>
        match mergeOp with
        | none => false
        | some mergeOp => funcOp.logicBB srcOp = some bb ∧ funcOp.logicBB mergeOp = some bb

def addEdge (arcs : List (BBArc OpOperand)) (srcBB : Option Nat) (dstBB : Nat)
    (edge : OpOperand) : List (BBArc OpOperand) :=
  if arcs.any fun arc => arc.srcBB = srcBB ∧ arc.dstBB = dstBB then
    arcs.map fun arc =>
      if arc.srcBB = srcBB ∧ arc.dstBB = dstBB then { arc with edges := arc.edges.insert edge }
      else arc
  else arcs ++ [⟨srcBB, dstBB, [edge]⟩]

/-- The edges that come into a block from another one, and its back edges. -/
def getBBPredecessorArcs (fuel : Nat) : Option (List (BBArc OpOperand)) :=
  (funcOp.operations.flatMap funcOp.operands).foldlM (fun arcs edge =>
    match funcOp.logicBB (funcOp.owner edge) with
    | none => some arcs
    | some dstBB =>
        let srcBB := (funcOp.definingOp (funcOp.get edge)).bind funcOp.logicBB
        if srcBB ≠ some dstBB then some (addEdge arcs srcBB dstBB edge)
        else (isBackedge funcOp fuel edge dstBB).map fun backedge =>
          if backedge then addEdge arcs srcBB dstBB edge else arcs) []

end Arcs

section BetweenBBs

variable (placements : Placements OpOperand)

/-- The operands behind an operand without a commit. -/
def edgesBehind (edge : OpOperand) : List OpOperand :=
  if edge ∈ placements.commits then []
  else getSpecRegionTraversalTargets funcOp (funcOp.owner edge)

/-- Mark the operands behind an operation, up to the commits. -/
def markSpeculativePathsForCommits (markedEdges : List OpOperand) (currOp : Operation) :
    List OpOperand :=
  (getSpecRegionTraversalTargets funcOp currOp).foldl
    (preorder (edgesBehind funcOp placements) (Fintype.card OpOperand + 1)) markedEdges

/-- The operands behind the speculator and behind the save-commits without a commit. -/
def speculativeEdges : List OpOperand :=
  (placements.speculator :: placements.saveCommits.filter (· ∉ placements.commits)).foldl
    (fun markedEdges start =>
      markSpeculativePathsForCommits funcOp placements markedEdges (funcOp.owner start)) []

variable {placements}

/-- Place commits on the speculative edges into a block, but not on its back edges. -/
def commitArcs (speculativeEdges : List OpOperand) (predecessorArcs : List (BBArc OpOperand))
    (placements : Placements OpOperand) : Placements OpOperand :=
  predecessorArcs.foldl (fun placements pred =>
    if pred.srcBB = some pred.dstBB then placements
    else (pred.edges.filter (· ∈ speculativeEdges)).foldl Placements.addCommit placements)
    placements

/-- The number of arcs with a speculative edge. -/
def countSpecInputs (speculativeEdges : List OpOperand)
    (predecessorArcs : List (BBArc OpOperand)) : Nat :=
  predecessorArcs.countP fun arc => arc.edges.any (· ∈ speculativeEdges)

/-- Place commits on the edges into blocks with two speculative inputs. -/
def commitBlocks (speculativeEdges : List OpOperand) (arcs : List (BBArc OpOperand))
    (placements : Placements OpOperand) : Placements OpOperand :=
  (arcs.map BBArc.dstBB).dedup.foldl (fun placements bb =>
    let predecessorArcs := arcs.filter fun arc => arc.dstBB = bb
    if 1 < countSpecInputs speculativeEdges predecessorArcs then
      commitArcs speculativeEdges predecessorArcs placements
    else placements) placements

/-- Take away the commits that cannot be reached. -/
def eraseUnreached (placements : Placements OpOperand) : Placements OpOperand :=
  (placements.commits.filter (· ∉ speculativeEdges funcOp placements)).foldl
    Placements.eraseCommit placements

def findCommitsBetweenBBs (fuel : Nat) (placements : Placements OpOperand) :
    Option (Placements OpOperand) :=
  (getBBPredecessorArcs funcOp fuel).map fun arcs =>
    eraseUnreached funcOp (commitBlocks (speculativeEdges funcOp placements) arcs placements)

end BetweenBBs

/-- The placements for a speculator in front of an operand. -/
def findPlacements (fuel : Nat) (specPos : OpOperand) : Option (Placements OpOperand) :=
  (((findSaves funcOp fuel ⟨specPos, [], [], []⟩).bind (findSaveCommits funcOp)).bind
    (findRegularCommits funcOp)).bind (findCommitsBetweenBBs funcOp fuel)

end Dynamatic.Speculation.Placement
