import Mathlib.Algebra.GroupWithZero.Nat
import Mathlib.Data.List.Nodup

/-!
# Names of operations

`NameAnalysis` gives an operation the name of its attribute and makes one up for
an operation without: the operation's kind, without its dialect, and the first
number for which nothing has that name yet.
-/

namespace Dynamatic.CfgAnnotation

abbrev Name := List Char

/-- A property of all characters of a text is decided along the text. -/
instance decidableText {holds : Char → Prop} [DecidablePred holds] (text : List Char) :
    Decidable (∀ current ∈ text, holds current) := List.decidableBAll holds text

/-- `std::to_string` of an unsigned number. -/
def decimal (number : Nat) : List Char := Nat.toDigits 10 number

theorem decimal_injective : Function.Injective decimal := fun first second same => by
  have read := congrArg (Nat.ofDigitChars 10 · 0) same
  simpa only [decimal, Nat.ofDigitChars_ten_toDigits] using read

/-- What stands after the first dot. -/
def stripDialect (kind : Name) : Name := (kind.dropWhile (· != '.')).tail

/-- The first number from the counter on whose candidate is not taken, if the fuel lasts. -/
def firstFree (taken : List Name) (stem : Name) : Nat → Nat → Nat
  | 0, counter => counter
  | fuel + 1, counter =>
      if taken.contains (stem ++ decimal counter) then firstFree taken stem fuel (counter + 1)
      else counter

/-- The state of the analysis: the names of the operations that have one, the names in use,
and for each kind of operation the next number to try. -/
structure NameAnalysis (Op : Type) where
  nameAttr : Op → Option Name
  namedOperations : List Name
  counters : Name → Nat

namespace NameAnalysis

variable {Op : Type} (namer : NameAnalysis Op)

def genUniqueName (kind : Name) : Name × NameAnalysis Op :=
  let stem := stripDialect kind
  let number := firstFree namer.namedOperations stem namer.namedOperations.length
    (namer.counters kind)
  (stem ++ decimal number,
    { namer with counters := Function.update namer.counters kind (number + 1) })

variable [DecidableEq Op]

/-- The name of an operation that has none of its own, as functions do. -/
def getName (kind : Op → Name) (op : Op) : Name × NameAnalysis Op :=
  match namer.nameAttr op with
  | some name => (name, namer)
  | none =>
      let (name, namer) := namer.genUniqueName (kind op)
      (name, { namer with
        nameAttr := Function.update namer.nameAttr op (some name)
        namedOperations := name :: namer.namedOperations })

end NameAnalysis

end Dynamatic.CfgAnnotation

/-!
## The annotation of the control-flow graph

`getCFGEdges` collects where each block of a function goes, `annotateCFG` writes
this on the function as a string and `unserializeEdges` reads the string back
with two regular expressions.
-/

namespace Dynamatic.CfgAnnotation

/-- Where a block goes, by the numbers of the blocks, and the name of the operation that
gives the condition. -/
inductive CFGNode where
  | unconditional (successor : BitVec 32)
  | conditional (trueSuccessor falseSuccessor : BitVec 32) (condition : Name)
  deriving DecidableEq, Repr

def CFGNode.conditionName : CFGNode → Option Name
  | .unconditional _ => none
  | .conditional _ _ condition => some condition

/-- The map from the number of a block to where the block goes. -/
abbrev CFGAnnotation := BitVec 32 → Option CFGNode

inductive Fault where
  /-- An error on the function, with its text. -/
  | error (message : List Char)
  /-- A failure without an error. -/
  | failure
  /-- The program stops: no value is there to take, or a number does not fit. -/
  | abort
  deriving DecidableEq, Repr

namespace CFGAnnotation

def empty : CFGAnnotation := fun _ => none

/-- Two keys mark the free places of the map and cannot be inserted. -/
def isReserved (id : BitVec 32) : Bool := decide (2 ^ 32 - 2 ≤ id.toNat)

/-- An entry that exists already stays. -/
def insert (edges : CFGAnnotation) (id : BitVec 32) (node : CFGNode) :
    Except Fault CFGAnnotation :=
  if isReserved id then throw .abort
  else pure (if (edges id).isSome then edges else Function.update edges id (some node))

/-- An order in which the map lists its entries. -/
structure Enumerates (edges : CFGAnnotation) (order : List (BitVec 32)) : Prop where
  nodup : order.Nodup
  mem_iff : ∀ id, id ∈ order ↔ (edges id).isSome = true

end CFGAnnotation

/-! ### The edges of a function -/

inductive Value (Op : Type) where
  | result (op : Op) (number : Nat)
  | argument (argNo : Nat)

/-- How a block ends; a destination is a position among the blocks. -/
inductive Terminator (Op : Type) (size : Nat) where
  | branch (dest : Fin size)
  | condBranch (condition : Value Op) (trueDest falseDest : Fin size)
  | return
  | other

/-- The blocks of a function, their terminators with the block number these are annotated
with, and the kinds of the operations. -/
structure Region (Op : Type) where
  size : Nat
  terminator : Fin size → Terminator Op size
  logicBB : Fin size → Option (BitVec 32)
  kind : Op → Name

namespace Region

variable {Op : Type} [DecidableEq Op] (region : Region Op)

def getIDBlock (block : Fin region.size) : Except Fault (BitVec 32) :=
  match region.logicBB block with
  | some id => pure id
  | none => throw .abort

/-- A condition that no operation gives is named by its position. -/
def conditionName (namer : NameAnalysis Op) : Value Op → Name × NameAnalysis Op
  | .result op _ => namer.getName region.kind op
  | .argument argNo => (['a', 'r', 'g'] ++ decimal argNo, namer)

def visitBlock (state : CFGAnnotation × NameAnalysis Op) (block : Fin region.size) :
    Except Fault ( CFGAnnotation × NameAnalysis Op) := do
  let (edges, namer) := state
  let blockID ← region.getIDBlock block
  match region.terminator block with
  | .branch dest =>
      let successor ← region.getIDBlock dest
      let edges ← edges.insert blockID (.unconditional successor)
      return (edges, namer)
  | .condBranch condition trueDest falseDest =>
      let (name, namer) := region.conditionName namer condition
      let trueDestID ← region.getIDBlock trueDest
      let falseDestID ← region.getIDBlock falseDest
      let edges ← edges.insert blockID (.conditional trueDestID falseDestID name)
      return (edges, namer)
  | .return => return (edges, namer)
  -- A diagnostic is emitted and the block is left out.
  | .other => return (edges, namer)

def getCFGEdges (namer : NameAnalysis Op) : Except Fault ( CFGAnnotation × NameAnalysis Op) :=
  (List.finRange region.size).foldlM region.visitBlock (.empty, namer)

/-- The names the analysis gives the conditions of a list of blocks, asked in this order. -/
def conditionNames : NameAnalysis Op → List (Fin region.size) → List Name
  | _, [] => []
  | namer, block :: rest =>
      match region.terminator block with
      | .condBranch condition _ _ =>
          let (name, namer) := region.conditionName namer condition
          name :: conditionNames namer rest
      | _ => conditionNames namer rest

/-- Every block has a number of its own. -/
structure Numbered : Prop where
  numbered : ∀ block, ∃ id, region.logicBB block = some id ∧ CFGAnnotation.isReserved id = false
  distinct : Function.Injective region.logicBB

end Region

/-! ### Writing -/

def openEdge : Char := '['
def closeEdge : Char := ']'
def delimiter : Char := ','

def edgeText (sourceBB : BitVec 32) : CFGNode → List Char
  | .unconditional successor =>
      decimal sourceBB.toNat ++ delimiter :: decimal successor.toNat
  | .conditional trueSuccessor falseSuccessor condition =>
      decimal sourceBB.toNat ++ delimiter :: (decimal trueSuccessor.toNat ++
        delimiter :: (decimal falseSuccessor.toNat ++ delimiter :: condition))

/-- The string for the entries of the map in the order in which it lists them. -/
def annotateCFG (edges : CFGAnnotation) (order : List (BitVec 32)) : List Char :=
  order.flatMap fun sourceBB =>
    match edges sourceBB with
    | some edge => openEdge :: (edgeText sourceBB edge ++ [closeEdge])
    | none => []

/-! ### Reading -/

/-- `(.*?)\]` behind an opening bracket: up to the first closing one, if no line ends before. -/
def matchContent : List Char → Option (List Char × List Char)
  | [] => none
  | current :: rest =>
      if current = closeEdge then some ([], rest)
      else if current = '\n' ∨ current = '\r' then none
      else (matchContent rest).map fun (content, suffix) => (current :: content, suffix)

theorem length_of_matchContent {input content suffix : List Char}
    (found : matchContent input = some (content, suffix)) : suffix.length < input.length := by
  induction input generalizing content with
  | nil => cases found
  | cons current rest inductionHypothesis =>
      rw [matchContent] at found
      split at found
      · cases found
        exact Nat.lt_succ_self _
      · split at found
        · cases found
        · obtain ⟨⟨shorter, _⟩, foundRest, same⟩ := Option.map_eq_some_iff.mp found
          cases same
          exact Nat.lt_succ_of_lt (inductionHypothesis foundRest)

/-- What stands in the brackets, by repeated search for `\[(.*?)\]`. -/
def getBracketsContent : List Char → List (List Char)
  | [] => []
  | current :: rest =>
      if current = openEdge then
        match _ : matchContent rest with
        | some (content, suffix) => content :: getBracketsContent suffix
        | none => getBracketsContent rest
      else getBracketsContent rest
  termination_by input => input.length
  decreasing_by
    · exact Nat.lt_succ_of_lt (length_of_matchContent ‹_›)
    · simp
    · simp

/-- `(\d+)`: all the digits, of which there is one. -/
def matchDigits (input : List Char) : Option (List Char × List Char) :=
  if (input.takeWhile Char.isDigit).isEmpty then none
  else some (input.takeWhile Char.isDigit, input.dropWhile Char.isDigit)

def matchDelimiter : List Char → Option (List Char)
  | [] => none
  | current :: rest => if current = delimiter then some rest else none

/-- `[a-zA-Z0-9]+` up to the end. -/
def IsWord (name : Name) : Prop := name ≠ [] ∧ ∀ current ∈ name, current.isAlphanum = true

instance (name : Name) : Decidable (IsWord name) := inferInstanceAs (Decidable (_ ∧ _))

/-- `(\d+),(\d+)` on the whole input. -/
def matchUnconditional (input : List Char) : Option (List Char × List Char) := do
  let (source, rest) ← matchDigits input
  let rest ← matchDelimiter rest
  let (successor, rest) ← matchDigits rest
  if rest.isEmpty then return (source, successor) else none

/-- `(\d+),(\d+),(\d+),([a-zA-Z0-9]+)` on the whole input. -/
def matchConditional (input : List Char) :
    Option (List Char × List Char × List Char × Name) := do
  let (source, rest) ← matchDigits input
  let rest ← matchDelimiter rest
  let (trueSuccessor, rest) ← matchDigits rest
  let rest ← matchDelimiter rest
  let (falseSuccessor, rest) ← matchDigits rest
  let name ← matchDelimiter rest
  if IsWord name then return (source, trueSuccessor, falseSuccessor, name) else none

/-- The number the digits stand for, if a word of 64 bits holds it, cut down to 32 bits. -/
def stoul (digits : List Char) : Except Fault (BitVec 32) :=
  let number := Nat.ofDigitChars 10 digits 0
  if number < 2 ^ 64 then pure (.ofNat 32 number) else throw .abort

def noAnnotation : List Char := "Handshake function has no annotation `cfg.edges`\n".toList

def wrongFormat (edge : List Char) : List Char :=
  "Format of CFG annotation is not correct the following edge: ".toList ++ edge ++ ['\n']

def parseEdge (edge : List Char) : Except Fault (BitVec 32 × CFGNode) :=
  match matchUnconditional edge with
  | some (source, successor) => do
      return (← stoul source, .unconditional (← stoul successor))
  | none =>
      match matchConditional edge with
      | some (source, trueSuccessor, falseSuccessor, name) => do
          return (← stoul source,
            .conditional (← stoul trueSuccessor) (← stoul falseSuccessor) name)
      | none => throw (.error (wrongFormat edge))

def insertEdge (result : CFGAnnotation) (edge : List Char) : Except Fault CFGAnnotation := do
  let (source, node) ← parseEdge edge
  result.insert source node

def unserializeEdges ( annotation : Option (List Char)) : Except Fault CFGAnnotation :=
  match annotation with
  | none => throw (.error noAnnotation)
  | some edges => (getBracketsContent edges).foldlM insertEdge .empty

/-- Whatever order the map lists its entries in, the string is read back as the map. -/
def Region.RoundTrips {Op : Type} [DecidableEq Op] (region : Region Op)
    (namer : NameAnalysis Op) : Prop :=
  ∃ edges after, region.getCFGEdges namer = .ok (edges, after) ∧
    ∀ order, edges.Enumerates order →
      unserializeEdges (some (annotateCFG edges order)) = .ok edges

end Dynamatic.CfgAnnotation
