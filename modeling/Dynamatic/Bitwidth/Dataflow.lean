import Dynamatic.Bitwidth.MinimalValue

/-!
# Dataflow graphs and their runs

Operations of the handshake dialect connected by channels. An operation fires when it
has the tokens it needs, and puts tokens on its result channels; extensions,
truncations and constants are combinational, so an operand is a wire made of them over
a channel. A run is a sequence of firings, whose labels decide everything that is left
open: which operand a merge takes, and what comes from outside.
-/

namespace Dynamatic.Bitwidth

/-- The bits of a token; a control token has none. -/
structure Word where
  width : Nat
  bits : BitVec width
  deriving DecidableEq, Repr

namespace Word

def ofNat (width value : Nat) : Word := ⟨width, BitVec.ofNat width value⟩

def extSI (width : Nat) (word : Word) : Word := ⟨width, word.bits.signExtend width⟩

def extUI (width : Nat) (word : Word) : Word := ⟨width, word.bits.setWidth width⟩

def truncI (width : Nat) (word : Word) : Word := ⟨width, word.bits.setWidth width⟩

def isZero (word : Word) : Bool := word.bits.toNat = 0

end Word

/-- A result of an operation that is not combinational. -/
structure Channel where
  op : Nat
  result : Nat
  deriving DecidableEq, Repr

inductive ChannelType where
  | control
  | integer (width : Nat)
  | other (width : Nat)
  deriving DecidableEq, Repr

def ChannelType.width : ChannelType → Nat
  | control => 0
  | integer width => width
  | other width => width

/-- A value: a channel, or combinational operations over one. -/
inductive Wire where
  | channel (source : Channel)
  | extSI (width : Nat) (operand : Wire)
  | extUI (width : Nat) (operand : Wire)
  | truncI (width : Nat) (operand : Wire)
  | constant (value : Word) (ctrl : Wire)
  deriving DecidableEq, Repr

def Wire.width (type : Channel → ChannelType) : Wire → Nat
  | .channel source => (type source).width
  | .extSI width _ => width
  | .extUI width _ => width
  | .truncI width _ => width
  | .constant value _ => value.width

/-- The operations that the pass tells apart. -/
inductive OpKind where
  /-- An argument of the function. -/
  | argument
  | buffer
  | fork (size : Nat)
  | lazyFork (size : Nat)
  | branch
  /-- Operands: condition, data. Results: true, false. -/
  | condBranch
  | merge
  /-- Operands: select, then the data. -/
  | mux
  /-- Results: data, index. -/
  | controlMerge
  | first
  /-- Operands: condition, true value, false value. -/
  | select
  | other
  deriving DecidableEq, Repr

structure Operation where
  kind : OpKind
  operands : List Wire
  deriving DecidableEq, Repr

/-- The operations, the types of their results, and what the other operations emit: it
depends on a choice and on what they took so far from each operand. -/
structure Graph where
  ops : List Operation
  type : Channel → ChannelType
  behavior : Nat → Nat → (Nat → List Word) → List (Nat × Nat)

/-- A firing: the operation and what is left open to it. -/
structure Label where
  op : Nat
  choice : Nat
  payload : Nat
  takes : List Nat
  deriving DecidableEq, Repr

/-- The tokens that were put on each channel, and how many each operand took. -/
structure State where
  history : Channel → List Word
  taken : Nat → Nat → Nat

namespace State

variable (state : State)

def initial : State := ⟨fun _ => [], fun _ _ => 0⟩

/-- A token of a wire, by its position. -/
def tokenAt (position : Nat) : Wire → Option Word
  | .channel source => (state.history source)[position]?
  | .extSI width operand => (tokenAt position operand).map (Word.extSI width)
  | .extUI width operand => (tokenAt position operand).map (Word.extUI width)
  | .truncI width operand => (tokenAt position operand).map (Word.truncI width)
  | .constant value ctrl => (tokenAt position ctrl).map fun _ => value

/-- The next token of an operand. -/
def peek (op : Nat) (operands : List Wire) (index : Nat) : Option Word :=
  operands[index]?.bind (state.tokenAt (state.taken op index))

/-- What an operand took so far. -/
def past (op : Nat) (operands : List Wire) (index : Nat) : List Word :=
  match operands[index]? with
  | some wire => (List.range (state.taken op index)).filterMap fun position =>
      state.tokenAt position wire
  | none => []

/-- The state after an operation took tokens from some operands and emitted others. -/
def after (op : Nat) (takes : List Nat) (emits : List (Nat × Word)) : State where
  history := fun channel =>
    if channel.op = op then
      state.history channel ++ (emits.filter fun emit => emit.1 = channel.result).map Prod.snd
    else state.history channel
  taken := fun taker index => state.taken taker index + if taker = op ∧ index ∈ takes then 1 else 0

end State

namespace Graph

variable (graph : Graph)

/-- What a firing takes and emits, from the next tokens of the operands. -/
def fires (kind : OpKind) (numOperands : Nat) (label : Label) (past : Nat → List Word)
    (peek : Nat → Option Word) : Option (List Nat × List (Nat × Word)) :=
  match kind with
  | .argument => some ([], [(0, .ofNat (graph.type ⟨label.op, 0⟩).width label.payload)])
  | .buffer | .branch => do
      let word ← peek 0
      some ([0], [(0, word)])
  | .fork size | .lazyFork size => do
      let word ← peek 0
      some ([0], (List.range size).map fun result => (result, word))
  | .condBranch => do
      let condition ← peek 0
      let word ← peek 1
      some ([0, 1], [(if condition.isZero then 1 else 0, word)])
  | .merge => do
      let word ← peek label.choice
      some ([label.choice], [(0, word)])
  | .mux => do
      let select ← peek 0
      let word ← peek (select.bits.toNat + 1)
      some ([0, select.bits.toNat + 1], [(0, word)])
  | .controlMerge => do
      let word ← peek label.choice
      some ([label.choice],
        [(0, word), (1, .ofNat (graph.type ⟨label.op, 1⟩).width label.choice)])
  | .first => do
      let words ← (List.range numOperands).mapM peek
      let word ← words[label.choice]?
      if word.isZero && !words.all Word.isZero then none
      else some (List.range numOperands, [(0, word)])
  | .select => do
      let condition ← peek 0
      let trueValue ← peek 1
      let falseValue ← peek 2
      some ([0, 1, 2], [(0, if condition.isZero then falseValue else trueValue)])
  | .other => do
      let _ ← label.takes.mapM peek
      let seen := fun index => past index ++ if index ∈ label.takes then (peek index).toList else []
      some (label.takes, (graph.behavior label.op label.choice seen).map fun (result, value) =>
        (result, .ofNat (graph.type ⟨label.op, result⟩).width value))

/-- One firing, if the operation has its tokens. -/
def step (state : State) (label : Label) : Option State := do
  let operation ← graph.ops[label.op]?
  let (takes, emits) ← graph.fires operation.kind operation.operands.length label
    (state.past label.op operation.operands) (state.peek label.op operation.operands)
  some (state.after label.op takes emits)

/-- The state after a sequence of firings, if all are possible. -/
def run (labels : List Label) : Option State := labels.foldlM graph.step .initial

def width (wire : Wire) : Nat := wire.width graph.type

/-- The result of a control merge that does not carry data. -/
def isIndex (channel : Channel) : Bool :=
  match graph.ops[channel.op]? with
  | some operation => operation.kind = .controlMerge && channel.result ≠ 0
  | none => false

/-- The data operands of an operation that forwards one of them, by their numbers. -/
def forwardedIndices (operation : Operation) : List Nat :=
  match operation.kind with
  | .buffer | .fork _ | .lazyFork _ | .branch => [0]
  | .condBranch => [1]
  | .merge | .controlMerge | .first => List.range operation.operands.length
  | .mux => (List.range (operation.operands.length - 1)).map (· + 1)
  | .select => [1, 2]
  | .argument | .other => []

/-- The data operands of an operation that forwards one of them. -/
def forwarded (operation : Operation) : List Wire :=
  (forwardedIndices operation).filterMap fun index => operation.operands[index]?

/-- What the IR verifier promises of types: a forwarding operation's data operands are as
wide as its data results. -/
structure Verified : Prop where
  forwardedWidth : ∀ {op operation result wire}, graph.ops[op]? = some operation →
    wire ∈ forwarded operation → graph.isIndex ⟨op, result⟩ = false →
      graph.width wire = (graph.type ⟨op, result⟩).width

end Graph

end Dynamatic.Bitwidth
