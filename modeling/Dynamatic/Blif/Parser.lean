import Mathlib.Data.List.DropRight
import Dynamatic.BooleanLogic.Parser
import Dynamatic.ControlFlow.PostOrder

/-!
# Logic networks

The nodes of a `LogicNetwork` with their fanins and their function, and the ways
in which the reader adds to them. A node is a pointer, and a set of nodes lists
them in the order of their addresses: `address` is the address of the node made
for a name.
-/

namespace Dynamatic.Blif

open Dynamatic.ControlFlow

abbrev Name := List Char

/-- A property of all characters of a text is decided along the text. -/
instance decidableText {holds : Char → Prop} [DecidablePred holds] (text : List Char) :
    Decidable (∀ current ∈ text, holds current) := List.decidableBAll holds text

structure Node where
  isBlackboxOutput : Bool
  isChannelEdge : Bool
  isConstZero : Bool
  isConstOne : Bool
  isInput : Bool
  isOutput : Bool
  isLatchInput : Bool
  isLatchOutput : Bool
  fanins : List Name
  fanouts : List Name
  function : List Char

namespace Node

/-- A node as it is made. -/
def new : Node where
  isBlackboxOutput := false
  isChannelEdge := false
  isConstZero := false
  isConstOne := false
  isInput := false
  isOutput := false
  isLatchInput := false
  isLatchOutput := false
  fanins := []
  fanouts := []
  function := []

variable (node : Node)

def isPrimaryInput : Bool :=
  node.isConstOne || node.isConstZero || node.isInput || node.isLatchOutput ||
    node.isBlackboxOutput

def isPrimaryOutput : Bool := node.isOutput || node.isLatchInput

/-- Another type than the two is reported and changes nothing more. -/
def configureIONode (type : Name) : Node :=
  { node with
    isChannelEdge := true
    isInput := node.isInput || decide (type = ".inputs".toList)
    isOutput := node.isOutput || decide (type ≠ ".inputs".toList ∧ type = ".outputs".toList) }

/-- Another value than the two is reported and changes nothing. -/
def configureConstantNode : Node :=
  { node with
    isConstZero := node.isConstZero || decide (node.function = ['0'])
    isConstOne := node.isConstOne || decide (node.function ≠ ['0'] ∧ node.function = ['1']) }

end Node

/-! ### Sets of nodes -/

section Sets

variable (address : Name → Nat)

/-- Insert a node in a set, which lists its nodes by their addresses, if it is not there. -/
def insertNode (name : Name) : List Name → List Name
  | [] => [name]
  | first :: rest =>
      if address name < address first then name :: first :: rest
      else if name = first then first :: rest
      else first :: insertNode name rest

/-- The set of the nodes of a list. -/
def setOf (names : List Name) : List Name := names.foldr (insertNode address) []

end Sets

structure LogicNetwork where
  moduleName : Name
  latches : List (Name × Name)
  /-- The keys of the map from names to nodes, and the node of each. -/
  names : List Name
  node : Name → Node
  nodesTopologicalOrder : List Name

namespace LogicNetwork

def empty : LogicNetwork where
  moduleName := []
  latches := []
  names := []
  node := fun _ => .new
  nodesTopologicalOrder := []

variable (address : Name → Nat) (network : LogicNetwork)

/-- A name that has a node keeps it; one that has none stands for a new one already. -/
def createNode (name : Name) : LogicNetwork :=
  if name ∈ network.names then network else { network with names := network.names ++ [name] }

def modifyNode (name : Name) (change : Node → Node) : LogicNetwork :=
  { network with node := Function.update network.node name (change (network.node name)) }

def addIONode (name type : Name) : LogicNetwork :=
  (network.createNode name).modifyNode name fun node => node.configureIONode type

def addLatch (inputName outputName : Name) : LogicNetwork :=
  let network := (network.createNode inputName).createNode outputName
  let network := network.modifyNode inputName fun node => { node with isLatchInput := true }
  let network := network.modifyNode outputName fun node => { node with isLatchOutput := true }
  { network with latches := network.latches ++ [(inputName, outputName)] }

def addConstantNode (name : Name) (function : List Char) : LogicNetwork :=
  (network.createNode name).modifyNode name fun node =>
    { node with function := function }.configureConstantNode

def addEdge (fanin fanout : Name) : LogicNetwork :=
  (network.modifyNode fanout fun node =>
      { node with fanins := insertNode address fanin node.fanins }).modifyNode fanin fun node =>
    { node with fanouts := insertNode address fanout node.fanouts }

/-- The inputs of the gate and its output are the nodes of the list but the last, and the last. -/
def addLogicGate (inputs : List Name) (output : Name) (function : List Char) : LogicNetwork :=
  let network := (network.createNode output).modifyNode output fun node =>
    { node with function := function }
  inputs.foldl (fun network input => (network.createNode input).addEdge address input output) network

/-- The set of the nodes with a flag. -/
def getNodes (flag : Node → Bool) : List Name :=
  setOf address (network.names.filter fun name => flag (network.node name))

def getInputs : List Name := network.getNodes address Node.isInput

def getOutputs : List Name := network.getNodes address Node.isOutput

def fanins (name : Name) : List Name := (network.node name).fanins

/-- The depth of the search is bounded by the number of the nodes. -/
def topologicalOrderUtil (name : Name) (state : List Name × List Name) : List Name × List Name :=
  PostOrder.visit network.fanins (network.names.length + 1) name state

def generateTopologicalOrder : LogicNetwork :=
  let primaryInputs := network.getNodes address Node.isPrimaryInput
  let primaryOutputs := network.getNodes address Node.isPrimaryOutput
  { network with
    nodesTopologicalOrder :=
      (primaryOutputs.foldl (fun state name => network.topologicalOrderUtil name state)
        ([], primaryInputs)).2 }

/-! ### Writing -/

/-- The words of a line, each behind a blank. -/
def listed (names : List Name) : List Char := names.flatMap fun name => ' ' :: name

/-- The lines for a gate: a constant, or a gate of one or two fanins. -/
def writeNode (name : Name) : List (List Char) :=
  let node := network.node name
  if node.isConstZero || node.isConstOne then
    [".names".toList ++ listed [name], if node.isConstZero then ['0'] else ['1']]
  else if node.fanins.length = 1 ∨ node.fanins.length = 2 then
    [".names".toList ++ listed (node.fanins ++ [name]), node.function]
  else []

def writeLines : List (List Char) :=
  [".model ".toList ++ network.moduleName, ".inputs".toList ++ listed (network.getInputs address),
    ".outputs".toList ++ listed (network.getOutputs address)] ++
  (network.latches.map fun latch => ".latch".toList ++ listed [latch.1, latch.2]) ++
  network.nodesTopologicalOrder.flatMap network.writeNode ++ [".end".toList]

def writeToFile : List Char := (network.writeLines address).flatMap fun line => line ++ ['\n']

end LogicNetwork

end Dynamatic.Blif

/-!
## The reader of BLIF files

`parseBlifFile` reads a file line by line, puts continued lines together and adds
to the network what the first word of a line says. The line after a `.names` line
is the cover of the gate, of which the reader keeps the first word.
-/

namespace Dynamatic.Blif

open Dynamatic.BooleanLogic

abbrev Line := List Char

/-- The words of a line, which white space parts. -/
def words : Line → List Name
  | [] => []
  | current :: rest =>
      if isspace current then words rest
      else (current :: rest.takeWhile fun next => !isspace next) ::
        words (rest.dropWhile fun next => !isspace next)
  termination_by line => line.length
  decreasing_by
    · simp
    · have shorter := (List.dropWhile_suffix (l := rest) fun next => !isspace next).length_le
      simp only [List.length_cons]
      omega

/-- The lines of a file; the last may lack its line break. -/
def getLines (text : List Char) : List Line :=
  let parts := text.splitOn '\n'
  if parts.getLast? = some [] then parts.dropLast else parts

def endsInBreak (text : List Char) : Bool := decide ((text.splitOn '\n').getLast? = some [])

/-- Put a line that ends in a backslash together with the next, which is empty at the end of
the file. The last character of an empty line is undefined. -/
def joinLines (line : Line) : List Line → Option (Line × List Line)
  | [] =>
      let line := line.rdropWhile fun last => last == '\\'
      if line.isEmpty then none else some (line, [])
  | next :: rest =>
      if line.isEmpty then none
      else if line.getLast? = some '\\' then joinLines (line.dropLast ++ next) rest
      else some (line, next :: rest)

theorem length_of_joinLines {line joined : Line} {rest left : List Line}
    (joins : joinLines line rest = some (joined, left)) : left.length ≤ rest.length := by
  induction rest generalizing line with
  | nil =>
      rw [joinLines] at joins
      split at joins
      · cases joins
      · cases joins
        exact Nat.le_refl _
  | cons next rest inductionHypothesis =>
      rw [joinLines] at joins
      split at joins
      · cases joins
      · split at joins
        · exact Nat.le_succ_of_le (inductionHypothesis joins)
        · cases joins
          exact Nat.le_refl _

/-- The first word of the line after a `.names` line. At the end of the file the line read last
stays, if it lacks its line break. -/
def coverWord (terminated : Bool) : List Line → List Char
  | [] => if terminated then [] else ".names".toList
  | row :: _ => (words row).headD []

section Parse

variable (address : Name → Nat) (terminated : Bool) (network : LogicNetwork)

/-- What a statement adds to the network, and the lines left to read, from its type, its other
words and its line. -/
def parseStatement (type : Name) (args : List Name) (line : Line) (rest : List Line) :
    Option (List Line × LogicNetwork) :=
  if type = ".model".toList then
    some (rest, { network with moduleName := args.headD [] })
  else if type = ".inputs".toList ∨ type = ".outputs".toList then
    some (rest, (args.filter fun nodeName => decide (nodeName ≠ "rst".toList)).foldl
      (fun network nodeName => network.addIONode nodeName type) network)
  else if type = ".latch".toList then
    some (rest, network.addLatch (args.headD []) (args.tail.headD []))
  else if type = ".names".toList then
    match args.getLast? with
    | none => none
    | some output =>
        if args.length = 1 then
          some (rest.tail, network.addConstantNode output (coverWord terminated rest))
        else
          some (rest.tail,
            network.addLogicGate address args.dropLast output (coverWord terminated rest))
  else if ".subckt".toList.isPrefixOf line then some (rest, network)
  else if ".end".toList.isPrefixOf line then some ([], network)
  else some (rest, network)

def parseLine (line : Line) (rest : List Line) : Option (List Line × LogicNetwork) :=
  if line.isEmpty || line.head? == some '#' then some (rest, network)
  else
    match joinLines line rest with
    | none => none
    | some (line, rest) =>
        parseStatement address terminated network ((words line).headD []) (words line).tail line rest

variable {address terminated network}

theorem length_of_parseStatement {type : Name} {args : List Name} {line : Line}
    {rest left : List Line} {result : LogicNetwork}
    (parses : parseStatement address terminated network type args line rest = some (left, result)) :
    left.length ≤ rest.length := by
  have tailShorter : rest.tail.length ≤ rest.length := by simp
  rw [parseStatement] at parses
  split at parses
  case isTrue => cases parses; exact Nat.le_refl _
  split at parses
  case isTrue => cases parses; exact Nat.le_refl _
  split at parses
  case isTrue => cases parses; exact Nat.le_refl _
  split at parses
  case isTrue =>
    split at parses
    · cases parses
    · split at parses <;> cases parses <;> exact tailShorter
  split at parses
  case isTrue => cases parses; exact Nat.le_refl _
  split at parses
  case isTrue => cases parses; exact Nat.zero_le _
  case isFalse => cases parses; exact Nat.le_refl _

theorem length_of_parseLine {line : Line} {rest left : List Line} {result : LogicNetwork}
    (parses : parseLine address terminated network line rest = some (left, result)) :
    left.length ≤ rest.length := by
  rw [parseLine] at parses
  split at parses
  case isTrue =>
    cases parses
    exact Nat.le_refl _
  case isFalse =>
    split at parses
    case h_1 => cases parses
    case h_2 joined after joins =>
      exact Nat.le_trans (length_of_parseStatement parses) (length_of_joinLines joins)

variable (address terminated)

def parseLines : List Line → LogicNetwork → Option LogicNetwork
  | [], network => some network
  | line :: rest, network =>
      match _ : parseLine address terminated network line rest with
      | none => none
      | some (left, network) => parseLines left network
  termination_by lines => lines.length
  decreasing_by exact Nat.lt_succ_of_le (length_of_parseLine ‹_›)

end Parse

def parseBlifFile (address : Name → Nat) (text : List Char) : Option LogicNetwork :=
  (parseLines address (endsInBreak text) (getLines text) .empty).map fun network =>
    network.generateTopologicalOrder address

end Dynamatic.Blif
