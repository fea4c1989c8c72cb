import Dynamatic.Blif.Contents

/-!
# What a BLIF text says

The meaning of a BLIF text as such: its ports, its latches, and for every gate the
row of its cover with the value that the output has there. An output or the input
of a latch computes what its gates say of the inputs and the latch outputs.
-/

namespace Dynamatic.Blif

open Dynamatic.BooleanLogic

/-! ### Gates -/

/-- A constant, or a gate with one row: where the row holds of the inputs, the output has the
value, and elsewhere it does not. -/
structure Gate where
  inputs : List Name
  output : Name
  row : List Char
  value : Bool

/-- The row of a cover: a literal for each input. -/
def IsRow (inputs : List Name) (row : List Char) : Prop :=
  row.length = inputs.length ∧ ∀ literal ∈ row, literal = '0' ∨ literal = '1' ∨ literal = '-'

instance (inputs : List Name) (row : List Char) : Decidable (IsRow inputs row) :=
  inferInstanceAs (Decidable (_ ∧ _))

def holdsOf (literal : Char) (value : Bool) : Bool :=
  if literal = '1' then value else if literal = '0' then !value else true

namespace Gate

variable (gate : Gate)

/-- The inputs, each with its literal. -/
def literals : List (Name × Char) := gate.inputs.zip gate.row

def evaluate (values : Name → Bool) : Bool :=
  (gate.literals.all fun literal => holdsOf literal.2 (values literal.1)) == gate.value

/-- The words of the cover of a gate. -/
def coverWords : List (List Char) :=
  let value := if gate.value then ['1'] else ['0']
  if gate.inputs = [] then [value] else [gate.row, value]

/-- Two gates have the same input-to-row correspondence and the same output. -/
structure Corresponds (other : Gate) : Prop where
  output : gate.output = other.output
  literals : gate.literals.Perm other.literals
  value : gate.value = other.value

end Gate

/-- What a name computes, given the gates and the names that no gate drives. -/
inductive Computes (isGate : Gate → Prop) (isSource : Name → Prop) (environment : Name → Bool) :
    Name → Bool → Prop where
  | source {name} (undriven : isSource name) :
      Computes isGate isSource environment name (environment name)
  | gate {gate} (values : Name → Bool) (drives : isGate gate)
      (inputs : ∀ input ∈ gate.inputs,
        Computes isGate isSource environment input (values input)) :
      Computes isGate isSource environment gate.output (gate.evaluate values)

/-! ### Texts -/

/-- A comment, or a line of white space. -/
def IsComment (line : Line) : Prop :=
  (∀ current ∈ line, isspace current = true) ∨ line.head? = some '#'

/-- A part of a text. Comments may stand between the line of a gate and its cover. -/
inductive Item where
  | comment
  | model (args : List Name)
  | inputs (nodeNames : List Name)
  | outputs (nodeNames : List Name)
  | latch (input output : Name) (more : List Name)
  | gate (between : List Line) (gate : Gate)

namespace Item

def inputNames : Item → List Name
  | .inputs nodeNames => nodeNames
  | _ => []

def outputNames : Item → List Name
  | .outputs nodeNames => nodeNames
  | _ => []

def latch? : Item → Option (Name × Name)
  | .latch input output _ => some (input, output)
  | _ => none

/-- A gate with the comments before its cover. -/
def gate? : Item → Option (List Line × Gate)
  | .gate between logicGate => some (between, logicGate)
  | _ => none

/-- The lines of a part. -/
def Spelled (lines : List Line) : Item → Prop
  | .comment => ∃ line, lines = [line] ∧ IsComment line
  | .model args => Statement.SpelledAs ".model".toList args lines
  | .inputs nodeNames => Statement.SpelledAs ".inputs".toList nodeNames lines
  | .outputs nodeNames => Statement.SpelledAs ".outputs".toList nodeNames lines
  | .latch input output more =>
      Statement.SpelledAs ".latch".toList (input :: output :: more) lines
  | .gate between logicGate =>
      ∃ first row, lines = first ++ between ++ [row] ∧
        Statement.SpelledAs ".names".toList (logicGate.inputs ++ [logicGate.output]) first ∧
        (∀ line ∈ between, IsComment line) ∧ Plain row ∧ words row = logicGate.coverWords

end Item

/-- The parts of a text whose gates are constants or have one or two inputs and one row, whose
names are driven once, and whose ports are not the reset. -/
structure Circuit where
  items : List Item
  small : ∀ part ∈ items.filterMap Item.gate?,
    part.2.inputs.length ≤ 2 ∧ IsRow part.2.inputs part.2.row
  once : ((items.filterMap Item.gate?).map fun part => part.2.output).Nodup
  inner : ∀ part ∈ items.filterMap Item.gate?,
    part.2.output ∉ items.flatMap Item.inputNames ∧
      ∀ latch ∈ items.filterMap Item.latch?, part.2.output ≠ latch.2
  ports : "rst".toList ∉ items.flatMap Item.inputNames ∧
    "rst".toList ∉ items.flatMap Item.outputNames

namespace Circuit

variable (circuit : Circuit)

def inputs : List Name := circuit.items.flatMap Item.inputNames

def outputs : List Name := circuit.items.flatMap Item.outputNames

def latches : List (Name × Name) := circuit.items.filterMap Item.latch?

/-- The gates, each with the comments before its cover. -/
def parts : List (List Line × Gate) := circuit.items.filterMap Item.gate?

def gates : List Gate := circuit.parts.map Prod.snd

/-- A text says a circuit. -/
def SaidBy (text : List Char) : Prop :=
  ∃ parts rest, getLines text = parts.flatten ++ rest ∧
    List.Forall₂ (fun (item : Item) part => item.Spelled part) circuit.items parts ∧
    (rest = [] ∨ ∃ last more, rest = last :: more ∧ EndLine last)

/-- What an output or the input of a latch needs. -/
inductive OnWay : Name → Prop where
  | output {name} (isOutput : name ∈ circuit.outputs) : OnWay name
  | latch {latch} (isLatch : latch ∈ circuit.latches) : OnWay latch.1
  | input {gate input} (isGate : gate ∈ circuit.gates) (onWay : OnWay gate.output)
      (isInput : input ∈ gate.inputs) : OnWay input

/-- What a name computes as the text says. -/
def Computes (environment : Name → Bool) : Name → Bool → Prop :=
  Blif.Computes (fun gate => gate ∈ circuit.gates)
    (fun name => ∀ gate ∈ circuit.gates, gate.output ≠ name) environment

end Circuit

/-! ### Networks -/

namespace LogicNetwork

variable (network : LogicNetwork)

/-- The gate that a node stands for. A node has no value for its row: the row is where the output
is one. -/
def gate? (name : Name) : Option Gate :=
  let node := network.node name
  if node.isConstZero || node.isConstOne then some ⟨[], name, [], !node.isConstZero⟩
  else if node.fanins ≠ [] ∧ IsRow node.fanins node.function then
    some ⟨node.fanins, name, node.function, true⟩
  else none

/-- A node that nothing drives. -/
def IsSource (name : Name) : Prop :=
  (network.node name).isConstZero = false ∧ (network.node name).isConstOne = false ∧
    network.fanins name = []

def Computes (environment : Name → Bool) : Name → Bool → Prop :=
  Blif.Computes (fun gate => network.gate? gate.output = some gate) network.IsSource environment

end LogicNetwork

/-! ### Correspondence -/

theorem Gate.inputs_of_literals {gate : Gate} (isRow : IsRow gate.inputs gate.row) :
    gate.literals.map Prod.fst = gate.inputs :=
  List.map_fst_zip (Nat.le_of_eq isRow.1.symm)

/-- Gates with the same literals have the same inputs and compute the same. -/
theorem Gate.Corresponds.mem_inputs_iff {gate other : Gate} (same : gate.Corresponds other)
    (isRow : IsRow gate.inputs gate.row) (otherIsRow : IsRow other.inputs other.row)
    {input : Name} : input ∈ gate.inputs ↔ input ∈ other.inputs := by
  rw [← inputs_of_literals isRow, ← inputs_of_literals otherIsRow]
  exact (same.literals.map Prod.fst).mem_iff

theorem Gate.Corresponds.evaluate_eq {gate other : Gate} (same : gate.Corresponds other)
    (values : Name → Bool) : gate.evaluate values = other.evaluate values := by
  rw [evaluate, evaluate, same.literals.all_eq, same.value]

end Dynamatic.Blif
