import Dynamatic.CfgAnnotation.Annotation

/-!
# Restoring the control-flow graph

`flattenFunction` moves every operation of a function to its first block, and
`restoreCfStructure` makes the blocks again from the annotation: a block for each
source of an edge and one more, the operations by their tags, and the branches,
whose conditions it finds by name.
-/

namespace Dynamatic.CfgAnnotation

/-- A function whose blocks are numbered, with the operations of each but its terminator, the
block each operation is tagged with, and the names the operations have. -/
structure HandshakeFunc (Op : Type) where
  size : Nat
  number : Fin size → Fin size
  ops : Fin size → List Op
  terminator : Fin size → Terminator Op size
  bb : Op → Option (BitVec 32)
  isCompare : Op → Bool
  numResults : Op → Nat
  kind : Op → Name
  namer : NameAnalysis Op

inductive RestoredTerminator (Op : Type) where
  | return
  | branch (dest : Nat)
  | condBranch (op : Op) (result : Nat) (trueDest falseDest : Nat)

structure RestoredBlock (Op : Type) where
  ops : List Op
  terminator : RestoredTerminator Op

namespace HandshakeFunc

variable {Op : Type} [DecidableEq Op] (function : HandshakeFunc Op)

section
omit [DecidableEq Op]

/-- The function as the annotation sees it: the terminators are tagged like the operations. -/
@[reducible] def region : Region Op where
  size := function.size
  terminator := function.terminator
  logicBB block := some (.ofNat 32 (function.number block))
  kind := function.kind

def terminatorError : List Char :=
  ("Last operation of the block must be " ++
    "cf::CondBranchOp, cf::BranchOp or func::ReturnOp").toList

/-- Erase the terminator. -/
def eraseTerminator (block : Fin function.size) : Except Fault (List Op) :=
  match function.terminator block with
  | .other => throw (.error terminatorError)
  | _ => pure (function.ops block)

/-- Move an operation behind the last one of the first block, which has to have one. -/
def moveAfterBack (front : List Op) (op : Op) : Except Fault (List Op) :=
  if front.isEmpty then throw .abort else pure (front ++ [op])

def flattenFunction : Except Fault (List Op) := do
  let blocks ← (List.finRange function.size).mapM function.eraseTerminator
  match blocks with
  | [] => return []
  | front :: rest => rest.flatten.foldlM moveAfterBack front

/-! ### The blocks -/

/-- The numbers of the blocks: the sources of edges and one more after the last of them. -/
def blocksList (sources : List (BitVec 32)) : List Nat :=
  let sorted := (sources.map BitVec.toNat).mergeSort
  match sorted.getLast? with
  | none => [0]
  | some back => sorted ++ [back + 1]

end

/-- The blocks made so far, the one under analysis, which is the last, and the map from the
number of a block to its position among them. -/
structure Placing (Op : Type) where
  made : List (List Op)
  current : List Op
  indexToBlock : Nat → Option Nat

namespace Placing

/-- Take an operation from where it is to the end of the block under analysis. -/
def moveBefore (placing : Placing Op) (op : Op) : Placing Op :=
  { placing with
    made := placing.made.map fun block => block.filter fun other => decide (other ≠ op)
    current := (placing.current.filter fun other => decide (other ≠ op)) ++ [op] }

omit [DecidableEq Op] in
/-- Open a block for the number after the index. -/
def addBlock (placing : Placing Op) (blockIndex : Nat) : Placing Op where
  made := placing.made ++ [placing.current]
  current := []
  indexToBlock :=
    if (placing.indexToBlock (blockIndex + 1)).isSome then placing.indexToBlock
    else Function.update placing.indexToBlock (blockIndex + 1) (some (placing.made.length + 1))

end Placing

/-- An operation without a tag goes to block 0. -/
def opBlock (op : Op) : Nat := ((function.bb op).getD 0).toNat

def moveTagged (originalOps : List Op) (blockIndex : Nat) (placing : Placing Op) : Placing Op :=
  originalOps.foldl (fun placing op =>
    if function.opBlock op = blockIndex then placing.moveBefore op else placing) placing

/-- Fill a block for each index, opening another after every one but the last. -/
def placeBlocks (originalOps : List Op) (back : Nat) : List Nat → Placing Op → Placing Op
  | [], placing => placing
  | blockIndex :: rest, placing =>
      let placing := function.moveTagged originalOps blockIndex placing
      placeBlocks originalOps back rest
        (if blockIndex ≠ back then placing.addBlock blockIndex else placing)

/-! ### The terminators -/

section
omit [DecidableEq Op]

/-- The first operation of the name, or the last compare of the block before it, if there is
none of the name. -/
def findByName (nameAttr : Op → Option Name) (name : Name) (blockID : Nat) :
    List Op → Option Op → Except Fault (Option Op)
  | [], cmpSameBlock => pure cmpSameBlock
  | op :: rest, cmpSameBlock =>
      match nameAttr op with
      | none => findByName nameAttr name blockID rest cmpSameBlock
      | some opName => do
          let cmpSameBlock ←
            if function.isCompare op then
              match function.bb op with
              | none => throw .abort
              | some bb => pure (if bb.toNat = blockID then some op else cmpSameBlock)
            else pure cmpSameBlock
          if name = opName then return some op
          else findByName nameAttr name blockID rest cmpSameBlock

/-- A block that the map has no entry for cannot be branched to. -/
def blockAt (indexToBlock : Nat → Option Nat) (id : BitVec 32) : Except Fault Nat :=
  match indexToBlock id.toNat with
  | some position => pure position
  | none => throw .abort

/-- The last operation of a block, for its location: an empty block has none. -/
def back (bb : List Op) : Except Fault Op :=
  match bb.getLast? with
  | some op => pure op
  | none => throw .abort

/-- `getResult(0)`. -/
def firstResult (op : Op) : Except Fault (Op × Nat) :=
  if function.numResults op = 0 then throw .abort else pure (op, 0)

/-- The terminator of a block, at the location of the block's last operation. -/
def makeTerminator (nameAttr : Op → Option Name) (edges : CFGAnnotation)
    (indexToBlock : Nat → Option Nat) (allOps : List Op) (blockID : Nat) (bb : List Op) :
    Except Fault (RestoredTerminator Op) :=
  match edges (.ofNat 32 blockID) with
  | none => do
      let _ ← back bb
      return .return
  | some (.conditional trueSuccessor falseSuccessor condition) => do
      match ← function.findByName nameAttr condition blockID allOps none with
      | none => throw .failure
      | some condOp =>
          let _ ← back bb
          let (op, result) ← function.firstResult condOp
          let trueDest ← blockAt indexToBlock trueSuccessor
          let falseDest ← blockAt indexToBlock falseSuccessor
          return .condBranch op result trueDest falseDest
  | some (.unconditional successor) => do
      let _ ← back bb
      let dest ← blockAt indexToBlock successor
      return .branch dest

def makeBlock (nameAttr : Op → Option Name) (edges : CFGAnnotation)
    (indexToBlock : Nat → Option Nat) (allOps : List Op) (entry : List Op × Nat) :
    Except Fault (RestoredBlock Op) := do
  let terminator ←
    function.makeTerminator nameAttr edges indexToBlock allOps entry.2 entry.1
  return { ops := entry.1, terminator := terminator }

end

/-- Make the blocks of a flattened function from its annotation. `listed` is the order in which
the map of the edges lists its entries. -/
def restoreCfStructure (nameAttr : Op → Option Name)
    (listed : CFGAnnotation → List (BitVec 32)) ( annotation : Option (List Char))
    (originalOps : List Op) : Except Fault (List (RestoredBlock Op)) := do
  let edges ← unserializeEdges annotation
  let indices := blocksList (listed edges)
  let placing := function.placeBlocks originalOps (indices.getLastD 0) indices
    { made := [], current := originalOps,
      indexToBlock := Function.update (fun _ => none) 0 (some 0) }
  let blocks := placing.made ++ [placing.current]
  blocks.zipIdx.mapM
    (function.makeBlock nameAttr edges placing.indexToBlock blocks.flatten)

/-- Annotate the function, flatten it and restore it. The two maps of edges, the one written
and the one read, list their entries each in an order of its own. -/
def restored (written listed : CFGAnnotation → List (BitVec 32)) :
    Except Fault (List (RestoredBlock Op)) := do
  let (edges, namer) ← function.region.getCFGEdges function.namer
  let originalOps ← function.flattenFunction
  function.restoreCfStructure namer.nameAttr listed (some (annotateCFG edges (written edges)))
    originalOps

/-! ### What restoring is for -/

section
omit [DecidableEq Op]

def Contains (op : Op) : Prop := ∃ block, op ∈ function.ops block

/-- A function that has been numbered, tagged and named. -/
structure WellFormed : Prop where
  small : function.size + 2 ≤ 2 ^ 32
  distinct : Function.Injective function.number
  nodup : ((List.finRange function.size).flatMap function.ops).Nodup
  tagged : ∀ block, ∀ op ∈ function.ops block,
    function.bb op = some (.ofNat 32 (function.number block))
  named : ∀ op other name, function.Contains op → function.Contains other →
    function.namer.nameAttr op = some name → function.namer.nameAttr other = some name → op = other
  conditions : ∀ block condition trueDest falseDest,
    function.terminator block = .condBranch condition trueDest falseDest →
      ∃ op number name, condition = .result op number ∧ function.Contains op ∧
        function.namer.nameAttr op = some name ∧ number < function.numResults op
  returns : ∃! block, function.terminator block = .return
  ends : ∀ block, function.terminator block ≠ .other

/-- The terminator of a block with the numbers of the blocks for their positions. -/
def renumbered (block : Fin function.size) : Option (RestoredTerminator Op) :=
  match function.terminator block with
  | .branch dest => some (.branch (function.number dest))
  | .condBranch (.result op number) trueDest falseDest =>
      some (.condBranch op number (function.number trueDest) (function.number falseDest))
  | .return => some .return
  | _ => none

/-- Each block stands at the position of its number, with its operations and its branch. -/
structure Restores (blocks : List (RestoredBlock Op)) : Prop where
  length : blocks.length = function.size
  blocks : ∀ block, ∃ made, blocks[(function.number block).val]? = some made ∧
    made.ops.Perm (function.ops block) ∧ function.renumbered block = some made.terminator

/-- What lets the function be restored: the block that returns has the highest number, no block
has its terminator alone, and the conditions are first results of operations named by words. -/
structure Restorable : Prop where
  returnsLast : ∀ block, function.terminator block = .return →
    (function.number block).val + 1 = function.size
  filled : ∀ block, function.ops block ≠ []
  words : ∀ block op number trueDest falseDest name,
    function.terminator block = .condBranch (.result op number) trueDest falseDest →
      function.namer.nameAttr op = some name → IsWord name
  first : ∀ block op number trueDest falseDest,
    function.terminator block = .condBranch (.result op number) trueDest falseDest → number = 0

end

def IsRestored (written listed : CFGAnnotation → List (BitVec 32)) : Prop :=
  ∃ blocks, function.restored written listed = .ok blocks ∧ function.Restores blocks

end HandshakeFunc

end Dynamatic.CfgAnnotation
