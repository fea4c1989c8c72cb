import Dynamatic.Clocked.Machine
import Dynamatic.Clocked.Priority
import Dynamatic.Handshake.Buffers
import Dynamatic.Handshake.Forks
import Dynamatic.Numerals
import Mathlib.Data.List.ReduceOption
import Mathlib.Data.Nat.Log

/-!
# The sharing wrapper

Several operations share one pipelined unit. An operation may send its operands
when it holds a credit; the arbiter grants one request per cycle, the selection
buffer remembers whose operands are in the unit, and results wait in a buffer per
operation that has room for as many results as the operation has credits. The
signals are those of `sharing_wrapper.py` and `sharing_support.vhd`; the shared
unit is a delay line that applies a function.
-/

namespace Dynamatic.Sharing

open Dynamatic.Clocked Dynamatic.Handshake

/-- The parameters of a wrapper: one entry of `credits` per operation. -/
structure Config where
  bitwidth : Nat
  numSharedOperands : Nat
  someOperand : 0 < numSharedOperands
  latency : Nat
  someLatency : 0 < latency
  groupSize : Nat
  credits : Fin groupSize → Nat
  someCredit : ∀ op, 0 < credits op

variable {config : Config}

abbrev Word (config : Config) := BitVec config.bitwidth

abbrev Operands (config : Config) := Fin config.numSharedOperands → Word config

/-- The registers of the wrapper, and the stages of the shared unit, the one that
comes out next first. -/
structure State (config : Config) where
  counterReg : Fin config.groupSize → Nat
  condBuffer : BreakDv (BitVec config.groupSize)
  outBuffer : Fin config.groupSize → Fifo (Word config)
  unit : List (Option (Word config))

/-- The ports the environment drives. -/
structure Input (config : Config) where
  opIn : Fin config.groupSize → Operands config
  opInValid : Fin config.groupSize → Fin config.numSharedOperands → Bool
  opOutReady : Fin config.groupSize → Bool

/-- `bitscan`: the lowest request is granted. -/
def bitscan {size : Nat} (request : BitVec size) : BitVec size := request &&& ~~~ (request - 1)

/-- `crush_oh_mux`: the loop runs down the selection, so that the lowest selected
word stays. -/
def crushOhMux {size width : Nat} (sel : BitVec size) (ins : Fin size → BitVec width) :
    BitVec width :=
  (List.finRange size).reverse.foldl
    (fun result (index : Fin size) => if sel.getLsbD index then ins index else result)
    (if bounded : 0 < size then ins ⟨size - 1, by omega⟩ else 0)

section Signals

variable (state : State config) (input : Input config)

/-- `counter_width` of a credit counter. -/
def counterWidth (op : Fin config.groupSize) : Nat := Nat.clog 2 (1 + config.credits op)

def creditValid (op : Fin config.groupSize) : Bool := decide (state.counterReg op ≠ 0)

def creditReady (op : Fin config.groupSize) : Bool :=
  decide (state.counterReg op ≠ config.credits op)

/-- `outs_valid` of an operation's `crush_sync`: its operands and a credit. -/
def syncValid (op : Fin config.groupSize) : Bool :=
  decide (∀ operand, input.opInValid op operand = true) && creditValid state op

def arbiterOut : BitVec config.groupSize := bitscan (pack (syncValid state input))

/-- A bit of `arbiter_out`. -/
def granted (op : Fin config.groupSize) : Bool := (arbiterOut state input).getLsbD op

def arbiterOutValid : Bool := decide (∃ op, syncValid state input op = true)

/-- `ins_ready` of an operand at its `crush_sync`. -/
def opInReady (op : Fin config.groupSize) (operand : Fin config.numSharedOperands) : Bool :=
  decide (∀ other, other ≠ operand → input.opInValid op other = true) && creditValid state op &&
    granted state input op

/-- `ins_ready` of the credit at its `crush_sync`. -/
def creditTaken (op : Fin config.groupSize) : Bool :=
  decide (∀ operand, input.opInValid op operand = true) && granted state input op

def toSharedUnit : Operands config := fun operand =>
  crushOhMux (arbiterOut state input) fun op => input.opIn op operand

/-- The result the shared unit shows. -/
def fromSharedUnit : Option (Word config) := state.unit.head?.join

/-- The sinks of an operation's output fork: the output and the credit counter. -/
def outForkSinks (op : Fin config.groupSize) : Fin 2 → Bool :=
  ![input.opOutReady op, creditReady state op]

/-- A bit of the selection buffer's output. -/
def selected (op : Fin config.groupSize) : Bool := state.condBuffer.outs.getLsbD op

def branchReady (op : Fin config.groupSize) : Bool :=
  FifoBreakNone.insReady (state.outBuffer op) (lazyForkReady (outForkSinks state input op))

def outputStalled : Bool :=
  decide (∃ op, selected state op = true ∧ branchReady state input op = false)

def condBufferReady : Bool := (fromSharedUnit state).isSome && !outputStalled state input

def branchValid (op : Fin config.groupSize) : Bool :=
  selected state op && state.condBuffer.outsValid && (fromSharedUnit state).isSome

def outBufferValid (op : Fin config.groupSize) : Bool :=
  FifoBreakNone.outsValid (state.outBuffer op) (branchValid state op)

open Numerals in
def opOutValid (op : Fin config.groupSize) : Bool :=
  lazyForkValid (outBufferValid state op) (outForkSinks state input op) 0

def opOut (op : Fin config.groupSize) : Word config :=
  FifoBreakNone.outs (state.outBuffer op) ((fromSharedUnit state).getD 0)

open Numerals in
/-- `p_update_counter`. -/
def counterNext (op : Fin config.groupSize) : Nat :=
  let inputTransfer :=
    lazyForkValid (outBufferValid state op) (outForkSinks state input op) 1 && creditReady state op
  let outputTransfer := creditValid state op && creditTaken state input op
  if inputTransfer && !outputTransfer then (state.counterReg op + 1) % 2 ^ counterWidth op
  else if !inputTransfer && outputTransfer then
    (state.counterReg op + (2 ^ counterWidth op - 1)) % 2 ^ counterWidth op
  else state.counterReg op

/-- The clocked processes, around a unit that computes `shared`. -/
def next (shared : Operands config → Word config) : State config where
  counterReg := counterNext state input
  condBuffer :=
    state.condBuffer.next config.latency (arbiterOut state input) (arbiterOutValid state input)
      (condBufferReady state input)
  outBuffer op :=
    FifoBreakNone.next (state.outBuffer op) (config.credits op) ((fromSharedUnit state).getD 0)
      (branchValid state op) (lazyForkReady (outForkSinks state input op))
  unit :=
    state.unit.tail ++
      [if arbiterOutValid state input then some (shared (toSharedUnit state input)) else none]

end Signals

/-- The registers after reset, with an empty unit. -/
def reset (config : Config) : State config where
  counterReg := config.credits
  condBuffer := .reset config.latency 0
  outBuffer _ := .reset fun _ => 0
  unit := List.replicate config.latency none

/-- A wrapper around a unit that computes `shared`, with the inputs it is driven
with from reset on. -/
structure Run (config : Config) where
  shared : Operands config → Word config
  inputs : Nat → Input config

namespace Run

variable (run : Run config)

def machine : Machine (State config) (Input config) Unit where
  next state input := next state input run.shared
  output _ _ := ()

def stateAt (cycle : Nat) : State config := run.machine.stateAt (reset config) run.inputs cycle

/-- An operand channel transfers. -/
def opInFires (op : Fin config.groupSize) (operand : Fin config.numSharedOperands) (cycle : Nat) :
    Bool :=
  (run.inputs cycle).opInValid op operand &&
    opInReady (run.stateAt cycle) (run.inputs cycle) op operand

/-- The operand tuples an operation has given before a cycle. -/
def operands (op : Fin config.groupSize) : Nat → List (Operands config) :=
  transfers (fun cycle => decide (∀ operand, run.opInFires op operand cycle = true))
    (fun cycle => (run.inputs cycle).opIn op)

/-- The results an operation has been given before a cycle. -/
def results (op : Fin config.groupSize) : Nat → List (Word config) :=
  transfers
    (fun cycle => opOutValid (run.stateAt cycle) (run.inputs cycle) op &&
      (run.inputs cycle).opOutReady op)
    (fun cycle => opOut (run.stateAt cycle) op)

/-- The operation whose operands enter the unit in a cycle, and their result. -/
def entering (cycle : Nat) : Option (Fin config.groupSize × Word config) :=
  ((List.finRange config.groupSize).find? (granted (run.stateAt cycle) (run.inputs cycle))).map
    fun op => (op, run.shared ((run.inputs cycle).opIn op))

/-- What each stage of the unit holds, the one that comes out next first: what
entered in the last `latency` cycles. -/
def flight : Nat → List (Option (Fin config.groupSize × Word config))
  | 0 => List.replicate config.latency none
  | cycle + 1 => (flight cycle).tail ++ [run.entering cycle]

/-- The results of one operation among the tokens of the unit. -/
def inUnit (op : Fin config.groupSize) (cycle : Nat) : List (Word config) :=
  (run.flight cycle).reduceOption.filterMap fun token => if token.1 = op then some token.2 else none

end Run

end Dynamatic.Sharing
