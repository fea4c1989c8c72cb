import Dynamatic.Numerals
import Mathlib.Data.List.Basic

/-!
# Wiring the subject graphs of a circuit

Each operation of a circuit has a module with nodes for its ports. A module records the modules of
its operands that are results, in order, and for each of them the number of the result that it
takes; it then connects the nodes of its operands to the modules at the same positions.
-/

namespace Dynamatic.SubjectGraph

/-- The classes of modules. An arithmetic operation may be one that is mapped to a DSP slice. -/
inductive ModuleKind where
  | arith (mappedToDSP : Bool)
  | floatingPoint | fork | mux | controlMerge | conditionalBranch | source | load | store
  | constant | extTrunc | select | siFP | merge | branchSink | buffer | blackBox
  deriving DecidableEq, Repr

namespace ModuleKind

/-- The numbers of operands that an operation of the kind has. -/
def HasOperands : ModuleKind → Nat → Prop
  | arith _, count | floatingPoint, count | conditionalBranch, count | load, count
  | store, count => count = 2
  | fork, count | constant, count | extTrunc, count | siFP, count | branchSink, count
  | buffer, count => count = 1
  | select, count => count = 3
  | source, count => count = 0
  | mux, count => 0 < count
  | controlMerge, _ | merge, _ | blackBox, _ => True

/-- The numbers of results that an operation of the kind has. -/
def HasResults : ModuleKind → Nat → Prop
  | controlMerge, count | conditionalBranch, count | load, count | store, count => count = 2
  | fork, _ | blackBox, _ => True
  | _, count => count ≤ 1

/-- `returnOutputNodes`: the output whose nodes stand for a result number. -/
def returnOutputNodes : ModuleKind → Nat → Nat
  | controlMerge, channelIndex | conditionalBranch, channelIndex | load, channelIndex
  | store, channelIndex => if channelIndex = 0 then 0 else 1
  | fork, channelIndex | blackBox, channelIndex => channelIndex
  | _, _ => 0

theorem returnOutputNodes_eq {kind : ModuleKind} {count number : Nat}
    (hasResults : kind.HasResults count) (bounded : number < count) :
    kind.returnOutputNodes number = number := by
  cases kind <;> simp only [HasResults] at hasResults <;>
    simp only [returnOutputNodes] <;> try omega
  all_goals split <;> omega

end ModuleKind

/-- A function argument or a result of an operation. -/
inductive Value (Op : Type) where
  | argument (number : Nat)
  | result (op : Op) (number : Nat)
  deriving DecidableEq

namespace Value

variable {Op : Type}

def getDefiningOp : Value Op → Option Op
  | argument _ => none
  | result op _ => some op

/-- The result number, for a result of the operation. -/
def numberFrom [DecidableEq Op] (producer : Op) : Value Op → Option Nat
  | argument _ => none
  | result op number => if op = producer then some number else none

end Value

/-- The operations of a function with the values that they take. -/
structure Circuit (Op : Type) where
  operations : List Op
  kind : Op → ModuleKind
  operands : Op → List (Value Op)
  numResults : Op → Nat
  width : Value Op → Nat
  mem_operations : ∀ op, op ∈ operations
  hasOperands : ∀ op, (kind op).HasOperands (operands op).length
  hasResults : ∀ op, (kind op).HasResults (numResults op)
  isResult : ∀ op producer number, .result producer number ∈ operands op →
    number < numResults producer

/-- What a module records of its operands. -/
structure Connections (Op : Type) where
  inputSubjectGraphs : List Op
  inputSubjectGraphToResultNumber : Op → Option Nat

inductive Wire where
  | ready
  | valid
  | data (bit : Nat)
  deriving DecidableEq

inductive Port where
  | input (operand : Nat)
  | output (result : Nat)
  deriving DecidableEq

/-- A node of a module that stands for a wire of one of its ports. -/
structure Node (Op : Type) where
  op : Op
  port : Port
  wire : Wire
  deriving DecidableEq

/-- A call of `connectNodes`. -/
structure Connect (Op : Type) where
  currentNode : Node Op
  previousNode : Node Op
  channel : Value Op

/-- The call is about both nodes, whichever is the current one. -/
def Connect.Joins {Op : Type} (connect : Connect Op) (first second : Node Op) : Prop :=
  connect.currentNode = first ∧ connect.previousNode = second ∨
    connect.currentNode = second ∧ connect.previousNode = first

section Building

variable {Op : Type} [DecidableEq Op]

def Connections.addOperand (connections : Connections Op) : Value Op → Connections Op
  | .argument _ => connections
  | .result definingOp number =>
      { inputSubjectGraphs := connections.inputSubjectGraphs ++ [definingOp]
        inputSubjectGraphToResultNumber :=
          Function.update connections.inputSubjectGraphToResultNumber definingOp (some number) }

def buildSubjectGraphConnections (operands : List (Value Op)) : Connections Op :=
  operands.foldl Connections.addOperand ⟨[], fun _ => none⟩

theorem foldl_addOperand (operands : List (Value Op)) (connections : Connections Op) :
    (operands.foldl Connections.addOperand connections).inputSubjectGraphs =
      connections.inputSubjectGraphs ++ operands.filterMap Value.getDefiningOp ∧
    ∀ producer,
      (operands.foldl Connections.addOperand connections).inputSubjectGraphToResultNumber
        producer = (operands.filterMap (Value.numberFrom producer)).getLast?.or
          (connections.inputSubjectGraphToResultNumber producer) := by
  induction operands generalizing connections with
  | nil => simp
  | cons operand operands inductionHypothesis =>
      obtain ⟨inputs, numbers⟩ := inductionHypothesis (connections.addOperand operand)
      rw [List.foldl_cons]
      cases operand with
      | argument number => exact ⟨inputs, numbers⟩
      | result op number =>
          refine ⟨?_, fun producer => ?_⟩
          · rw [inputs, Connections.addOperand, List.append_assoc]
            rfl
          · rw [numbers, Connections.addOperand]
            by_cases same : op = producer
            · subst same
              have here : Value.numberFrom op (.result op number) = some number := if_pos rfl
              rw [List.filterMap_cons_some here, List.getLast?_cons]
              dsimp only
              rw [Function.update_self]
              cases (operands.filterMap (Value.numberFrom op)).getLast? <;> rfl
            · have elsewhere : Value.numberFrom producer (.result op number) = none := if_neg same
              rw [List.filterMap_cons_none elsewhere]
              dsimp only
              rw [Function.update_of_ne (Ne.symm same)]

/-- The modules are recorded in the order of the operands that are results, and of each producer
the number of the last one. -/
theorem buildSubjectGraphConnections_spec (operands : List (Value Op)) :
    (buildSubjectGraphConnections operands).inputSubjectGraphs =
      operands.filterMap Value.getDefiningOp ∧
    ∀ producer,
      (buildSubjectGraphConnections operands).inputSubjectGraphToResultNumber producer =
        (operands.filterMap (Value.numberFrom producer)).getLast? := by
  obtain ⟨inputs, numbers⟩ := foldl_addOperand operands ⟨[], fun _ => none⟩
  exact ⟨inputs, fun producer => (numbers producer).trans (Option.or_none)⟩

end Building

namespace Circuit

variable {Op : Type} [DecidableEq Op] (circuit : Circuit Op)

def connectionsOf (op : Op) : Connections Op :=
  buildSubjectGraphConnections (circuit.operands op)

/-- The width of the data of an operand. -/
def dataWidth (op : Op) (operand : Nat) : Nat :=
  ((circuit.operands op)[operand]?.map circuit.width).getD 0

def isBlackbox (op : Op) : Bool :=
  match circuit.kind op with
  | .arith mappedToDSP => mappedToDSP && decide (4 < circuit.dataWidth op 0)
  | .floatingPoint | .siFP | .blackBox => true
  | _ => false

def inputNode (op : Op) (operand : Nat) (wire : Wire) : Node Op := ⟨op, .input operand, wire⟩

/-- A node of the output that a module returns for a result number. -/
def outputNode (op : Op) (channelIndex : Nat) (wire : Wire) : Node Op :=
  ⟨op, .output ((circuit.kind op).returnOutputNodes channelIndex), wire⟩

/-- Connect the nodes of an operand to the module at an index. -/
def connectInputNodesHelper (op : Op) (operand inputIndex : Nat) : List (Connect Op) :=
  match (circuit.connectionsOf op).inputSubjectGraphs[inputIndex]? with
  | none => []
  | some moduleBefore =>
      let resultNumber :=
        ((circuit.connectionsOf op).inputSubjectGraphToResultNumber moduleBefore).getD 0
      let channel := .result moduleBefore resultNumber
      [⟨circuit.outputNode moduleBefore resultNumber .ready, inputNode op operand .ready, channel⟩,
        ⟨inputNode op operand .valid, circuit.outputNode moduleBefore resultNumber .valid,
          channel⟩] ++
      if circuit.isBlackbox op then []
      else (List.range (circuit.dataWidth op operand)).map fun bit =>
        ⟨inputNode op operand (.data bit),
          circuit.outputNode moduleBefore resultNumber (.data bit), channel⟩

/-- The operands that the modules of a kind connect, each to the module at its own index. -/
def connectedOperands (op : Op) : List Nat :=
  let operands := circuit.operands op
  let inputSubjectGraphs := (circuit.connectionsOf op).inputSubjectGraphs
  match circuit.kind op with
  | .arith _ | .floatingPoint | .store => [0, 1]
  | .fork | .branchSink => if inputSubjectGraphs.isEmpty then [] else [0]
  | .mux => 0 :: (List.range (operands.length - 1)).map (· + 1)
  | .controlMerge | .merge => List.range operands.length
  | .conditionalBranch => 0 :: if inputSubjectGraphs.length ≠ 1 then [1] else []
  | .source => []
  | .load | .constant | .extTrunc | .siFP | .buffer => [0]
  | .select => [0, 1, 2]
  | .blackBox => (List.range operands.length).filter fun operand =>
      (operands[operand]?.bind Value.getDefiningOp).isSome

def connectInputNodes (op : Op) : List (Connect Op) :=
  (circuit.connectedOperands op).flatMap fun operand =>
    circuit.connectInputNodesHelper op operand operand

def connectSubjectGraphs : List (Connect Op) :=
  circuit.operations.flatMap circuit.connectInputNodes

/-- Two nodes are joined if one is connected to the other. -/
def Joined (first second : Node Op) : Prop :=
  ∃ connect ∈ circuit.connectSubjectGraphs, connect.Joins first second

/-- The wires of a value's channel. -/
def HasWire (value : Value Op) : Wire → Prop
  | .ready | .valid => True
  | .data bit => bit < circuit.width value

/-- Each node of an operand is joined to the node of the result that the operand is, and to no
other. -/
def WiredRight (op : Op) (operand : Nat) (value : Value Op) : Prop :=
  ∀ wire, circuit.HasWire value wire → ∀ node,
    circuit.Joined (inputNode op operand wire) node ↔
      ∃ producer number, value = .result producer number ∧ node = ⟨producer, .output number, wire⟩

/-- The operands that are results, by their producers, and the last one of a producer. -/
def producers (op : Op) : List Op := (circuit.operands op).filterMap Value.getDefiningOp

def lastNumber (op producer : Op) : Option Nat :=
  ((circuit.operands op).filterMap (Value.numberFrom producer)).getLast?

/-- The position of an operand leads to its value: a result is that of the producer at the
operand's position among the results, and the last operand that the producer gives; at an argument's
position there is no result. The data of a black box and what a load gets from memory are not
connected. -/
def LedRight (op : Op) (operand : Nat) : Value Op → Prop
  | .argument _ => circuit.kind op = .blackBox ∨ circuit.kind op = .load ∧ operand = 1 ∨
      (circuit.producers op).length ≤ operand
  | .result producer number =>
      ¬ (circuit.kind op = .load ∧ operand = 1) ∧
        (circuit.producers op)[operand]? = some producer ∧
        circuit.lastNumber op producer = some number ∧
        (circuit.isBlackbox op = true → circuit.width (.result producer number) = 0)

variable {circuit} {op producer : Op} {operand number : Nat} {value : Value Op} {wire : Wire}
  {node : Node Op}

theorem inputSubjectGraphs_eq (op : Op) :
    (circuit.connectionsOf op).inputSubjectGraphs = circuit.producers op :=
  (buildSubjectGraphConnections_spec (circuit.operands op)).1

theorem inputSubjectGraphToResultNumber_eq (op producer : Op) :
    (circuit.connectionsOf op).inputSubjectGraphToResultNumber producer =
      circuit.lastNumber op producer :=
  (buildSubjectGraphConnections_spec (circuit.operands op)).2 producer

omit [DecidableEq Op] in
theorem dataWidth_eq (isOperand : (circuit.operands op)[operand]? = some value) :
    circuit.dataWidth op operand = circuit.width value := by
  rw [dataWidth, isOperand, Option.map_some, Option.getD_some]

/-- A producer of an operand gives a last one, which is a result that it has. -/
theorem exists_lastNumber (mem : producer ∈ circuit.producers op) :
    ∃ number, circuit.lastNumber op producer = some number ∧
      number < circuit.numResults producer := by
  obtain ⟨value, isOperand, isProducer⟩ := List.mem_filterMap.mp mem
  cases value with
  | argument => cases isProducer
  | result definingOp number =>
      obtain rfl := Option.some.inj isProducer
      have given : number ∈ (circuit.operands op).filterMap (Value.numberFrom definingOp) :=
        List.mem_filterMap.mpr ⟨_, isOperand, if_pos rfl⟩
      cases last : circuit.lastNumber op definingOp with
      | none =>
          rw [lastNumber, List.getLast?_eq_none_iff] at last
          rw [last] at given
          exact absurd given List.not_mem_nil
      | some lastNumber =>
          obtain ⟨lastValue, lastOperand, isLast⟩ :=
            List.mem_filterMap.mp (List.mem_of_getLast? last)
          refine ⟨lastNumber, rfl, ?_⟩
          cases lastValue with
          | argument => cases isLast
          | result producer taken =>
              by_cases same : producer = definingOp
              · subst same
                obtain rfl : taken = lastNumber := Option.some.inj ((if_pos rfl).symm.trans isLast)
                exact circuit.isResult op producer taken lastOperand
              · cases (if_neg same).symm.trans isLast

/-- The wires of an operand that are connected. -/
def ConnectsWire (circuit : Circuit Op) (op : Op) (operand : Nat) : Wire → Prop
  | .ready | .valid => True
  | .data bit => circuit.isBlackbox op = false ∧ bit < circuit.dataWidth op operand

/-- What the nodes of an operand are connected to. -/
theorem exists_joins_iff {first second : Node Op} :
    (∃ connect ∈ circuit.connectInputNodesHelper op operand operand,
      connect.Joins first second) ↔
    ∃ producer number wire, (circuit.producers op)[operand]? = some producer ∧
      circuit.lastNumber op producer = some number ∧ circuit.ConnectsWire op operand wire ∧
      (first = inputNode op operand wire ∧ second = circuit.outputNode producer number wire ∨
        first = circuit.outputNode producer number wire ∧ second = inputNode op operand wire) := by
  rw [connectInputNodesHelper, inputSubjectGraphs_eq]
  cases here : (circuit.producers op)[operand]? with
  | none => simp
  | some producer =>
      obtain ⟨number, isLast, -⟩ := exists_lastNumber (List.mem_of_getElem? here)
      simp only [inputSubjectGraphToResultNumber_eq, isLast, Option.getD_some, Connect.Joins,
        List.mem_append, List.mem_cons, List.not_mem_nil, or_false]
      constructor
      · rintro ⟨connect, (rfl | rfl) | mem, joins⟩
        · exact ⟨producer, number, .ready, rfl, isLast, trivial, by tauto⟩
        · exact ⟨producer, number, .valid, rfl, isLast, trivial, by tauto⟩
        · split at mem
          · exact absurd mem List.not_mem_nil
          · obtain ⟨bit, inside, rfl⟩ := List.mem_map.mp mem
            rename_i open_
            exact ⟨producer, number, .data bit, rfl, isLast,
              ⟨Bool.not_eq_true _ ▸ open_, List.mem_range.mp inside⟩, by tauto⟩
      · rintro ⟨_, _, wire, ⟨⟩, isLast', connects, joins⟩
        obtain rfl := Option.some.inj (isLast.symm.trans isLast')
        cases wire with
        | ready => exact ⟨_, .inl (.inl rfl), by tauto⟩
        | valid => exact ⟨_, .inl (.inr rfl), by tauto⟩
        | data bit =>
            refine ⟨⟨inputNode op operand (.data bit),
              circuit.outputNode producer number (.data bit), .result producer number⟩, .inr ?_,
              by tauto⟩
            rw [if_neg (Bool.eq_false_iff.mp connects.1)]
            exact List.mem_map.mpr ⟨bit, List.mem_range.mpr connects.2, rfl⟩

/-- A node of an operand is joined to the last result that the producer at its position gives. -/
theorem joined_inputNode_iff :
    circuit.Joined (inputNode op operand wire) node ↔
      operand ∈ circuit.connectedOperands op ∧ circuit.ConnectsWire op operand wire ∧
      ∃ producer number, (circuit.producers op)[operand]? = some producer ∧
        circuit.lastNumber op producer = some number ∧ node = ⟨producer, .output number, wire⟩ := by
  have outputs : ∀ {producer number}, circuit.lastNumber op producer = some number →
      (circuit.producers op)[operand]? = some producer →
        circuit.outputNode producer number wire = ⟨producer, .output number, wire⟩ := by
    intro producer number isLast here
    obtain ⟨_, isLast', bounded⟩ := exists_lastNumber (List.mem_of_getElem? here)
    obtain rfl := Option.some.inj (isLast.symm.trans isLast')
    rw [outputNode, ModuleKind.returnOutputNodes_eq (circuit.hasResults producer) bounded]
  constructor
  · rintro ⟨connect, mem, joins⟩
    obtain ⟨other, -, mem⟩ := List.mem_flatMap.mp mem
    obtain ⟨place, connected, mem⟩ := List.mem_flatMap.mp mem
    obtain ⟨producer, number, wire', here, isLast, connects, sides⟩ :=
      exists_joins_iff.mp ⟨connect, mem, joins⟩
    rcases sides with ⟨isInput, isOutput⟩ | ⟨isOutput, -⟩
    · cases isInput
      exact ⟨connected, connects, producer, number, here, isLast,
        isOutput.trans (outputs isLast here)⟩
    · cases isOutput
  · rintro ⟨connected, connects, producer, number, here, isLast, rfl⟩
    obtain ⟨connect, mem, joins⟩ := exists_joins_iff.mpr ⟨producer, number, wire, here, isLast,
      connects, .inl ⟨rfl, (outputs isLast here).symm⟩⟩
    exact ⟨connect, List.mem_flatMap.mpr ⟨op, circuit.mem_operations op,
      List.mem_flatMap.mpr ⟨operand, connected, mem⟩⟩, joins⟩

/-- Which operands are connected at all, among those that have a module at their position. -/
theorem mem_connectedOperands (isOperand : (circuit.operands op)[operand]? = some value)
    (here : operand < (circuit.producers op).length) :
    operand ∈ circuit.connectedOperands op ↔
      ¬ (circuit.kind op = .load ∧ operand = 1) ∧
        (circuit.kind op = .blackBox → value.getDefiningOp.isSome = true) := by
  have bound := (List.getElem?_eq_some_iff.mp isOperand).1
  have hasOperands := circuit.hasOperands op
  have nonempty : circuit.producers op ≠ [] := List.ne_nil_of_length_pos (by omega)
  rw [connectedOperands, inputSubjectGraphs_eq]
  generalize circuit.kind op = kind at hasOperands
  cases kind <;> simp only [ModuleKind.HasOperands] at hasOperands <;>
    simp only [isOperand, nonempty, reduceCtorEq, false_and, not_false_eq_true, false_implies,
      and_self, iff_true, List.mem_cons, List.not_mem_nil, or_false, List.isEmpty_iff, if_false,
      true_and, and_true, List.mem_range, List.mem_map, List.mem_filter, Option.bind_some,
      true_implies]
  case mux =>
    cases operand with
    | zero => exact .inl rfl
    | succ place => exact .inr ⟨place, by omega, rfl⟩
  case conditionalBranch =>
    rcases Nat.lt_or_ge operand 1 with first | second
    · exact .inl (by omega)
    · rw [if_pos (by omega)]
      exact .inr (List.mem_singleton.mpr (by omega))
  case blackBox => exact and_iff_right bound
  all_goals omega

/-- An argument is not connected if no module is recorded at its position. -/
theorem wiredRight_argument {argument : Nat}
    (isOperand : (circuit.operands op)[operand]? = some (.argument argument)) :
    circuit.WiredRight op operand (.argument argument) ↔
      circuit.LedRight op operand (.argument argument) := by
  constructor
  · intro right
    by_contra astray
    obtain ⟨notBlack, astray⟩ := not_or.mp astray
    obtain ⟨notLoad, here⟩ := not_or.mp astray
    have here : operand < (circuit.producers op).length := Nat.lt_of_not_le here
    have connected := (mem_connectedOperands isOperand here).mpr
      ⟨notLoad, fun black => absurd black notBlack⟩
    have isProducer := List.getElem?_eq_getElem here
    obtain ⟨number, isLast, -⟩ := exists_lastNumber (List.mem_of_getElem? isProducer)
    obtain ⟨_, _, same, -⟩ := (right .valid trivial _).mp
      (joined_inputNode_iff.mpr ⟨connected, trivial, _, number, isProducer, isLast, rfl⟩)
    cases same
  · intro led wire _ node
    refine iff_of_false (fun joined => ?_) fun ⟨_, _, same, _⟩ => nomatch same
    obtain ⟨connected, -, _, _, isProducer, -⟩ := joined_inputNode_iff.mp joined
    have here := (List.getElem?_eq_some_iff.mp isProducer).1
    obtain ⟨notLoad, notBlack⟩ := (mem_connectedOperands isOperand here).mp connected
    rcases led with black | load | outside
    · exact Bool.false_ne_true (notBlack black)
    · exact notLoad load
    · omega

/-- A result is connected by the producer at its position and by this producer's last number. -/
theorem wiredRight_result
    (isOperand : (circuit.operands op)[operand]? = some (.result producer number)) :
    circuit.WiredRight op operand (.result producer number) ↔
      circuit.LedRight op operand (.result producer number) := by
  constructor
  · intro right
    have joined := (right .valid trivial _).mpr ⟨producer, number, rfl, rfl⟩
    obtain ⟨connected, -, found, last, isProducer, isLast, same⟩ := joined_inputNode_iff.mp joined
    have here := (List.getElem?_eq_some_iff.mp isProducer).1
    cases same
    refine ⟨((mem_connectedOperands isOperand here).mp connected).1, isProducer, isLast, ?_⟩
    intro black
    by_contra wide
    have joined := (right (.data 0) (Nat.pos_of_ne_zero wide) _).mpr ⟨producer, number, rfl, rfl⟩
    obtain ⟨-, ⟨notBlack, -⟩, -⟩ := joined_inputNode_iff.mp joined
    rw [black] at notBlack
    cases notBlack
  · rintro ⟨notLoad, isProducer, isLast, narrow⟩ wire hasWire node
    have here := (List.getElem?_eq_some_iff.mp isProducer).1
    have connected := (mem_connectedOperands isOperand here).mpr ⟨notLoad, fun _ => rfl⟩
    have connects : circuit.ConnectsWire op operand wire := by
      cases wire with
      | ready => trivial
      | valid => trivial
      | data bit =>
          have inside : bit < circuit.width (.result producer number) := hasWire
          refine ⟨Bool.eq_false_iff.mpr fun black => ?_, ?_⟩
          · rw [narrow black] at inside
            exact Nat.not_lt_zero _ inside
          · rw [dataWidth_eq isOperand]
            exact inside
    rw [joined_inputNode_iff]
    constructor
    · rintro ⟨-, -, found, last, isFound, isLast', rfl⟩
      obtain rfl := Option.some.inj (isProducer.symm.trans isFound)
      obtain rfl := Option.some.inj (isLast.symm.trans isLast')
      exact ⟨producer, number, rfl, rfl⟩
    · rintro ⟨_, _, ⟨⟩, rfl⟩
      exact ⟨connected, connects, producer, number, isProducer, isLast, rfl⟩

/-- The nodes of an operand are joined to those of exactly the result that the operand is if and
only if the operand's position and its producer lead to this result. -/
theorem wiredRight_iff (circuit : Circuit Op) (op : Op) (operand : Nat) (value : Value Op)
    (isOperand : (circuit.operands op)[operand]? = some value) :
    circuit.WiredRight op operand value ↔ circuit.LedRight op operand value := by
  cases value with
  | argument argument => exact wiredRight_argument isOperand
  | result producer number => exact wiredRight_result isOperand

open Numerals in
/-- A bit is forked and added to itself. -/
def doubling : Circuit (Fin 2) where
  operations := [0, 1]
  kind
    | 0 => .fork
    | 1 => .arith true
  operands
    | 0 => [.argument 0]
    | 1 => [.result 0 0, .result 0 1]
  numResults
    | 0 => 2
    | 1 => 1
  width _ := 1
  mem_operations := by decide
  hasOperands
    | 0 => rfl
    | 1 => rfl
  hasResults
    | 0 => trivial
    | 1 => Nat.le_refl 1
  isResult
    | 0, _, _, mem => by cases List.mem_singleton.mp mem
    | 1, producer, number, mem => by
        rcases List.mem_pair.mp mem with same | same <;>
          obtain ⟨rfl, rfl⟩ := Value.result.inj same <;> decide

/-- The second operand is joined to the second result of the fork. -/
theorem wiredRight_doubling :
    (doubling.operands 1)[1]? = some (.result 0 1) ∧ doubling.WiredRight 1 1 (.result 0 1) :=
  ⟨rfl, (wiredRight_iff doubling 1 1 (.result 0 1) rfl).mpr
    ⟨by decide, rfl, rfl, by decide⟩⟩

/-- And so is the first. -/
theorem not_wiredRight_doubling :
    ¬ ∀ operand value, (doubling.operands 1)[operand]? = some value →
      doubling.WiredRight 1 operand value := by
  intro wired
  have joined := (wired 0 (.result 0 0) rfl .valid trivial ⟨0, .output 0, .valid⟩).mpr
    ⟨0, 0, rfl, rfl⟩
  obtain ⟨-, -, producer, number, isProducer, isLast, same⟩ := joined_inputNode_iff.mp joined
  cases same
  exact absurd isLast (by decide)

end Circuit

end Dynamatic.SubjectGraph
