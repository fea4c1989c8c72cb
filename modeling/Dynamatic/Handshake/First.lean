import Dynamatic.Clocked.Machine
import Dynamatic.Clocked.Scan

/-!
# The elastic `first` unit

`first` takes one token from every input per round and sends one: the first
non-zero payload to arrive, or zero when every token of the round is zero. It
answers as soon as a winner is in, absorbs the losers afterwards, and may take
the next round's tokens in the cycle that completes a round. The signals below
are those of `data/verilog/handshake/first.v`, which
`data/vhdl/handshake/first.vhd` repeats.

`Correct` says what the unit is for in terms of token streams alone. `Tracks`
is the invariant that relates the registers to those streams: `seen` marks the
inputs one token ahead of the round, `emitted` an answer one ahead of it.
-/

namespace Dynamatic.Handshake.First

open Dynamatic.Clocked

variable {size width : Nat}

/-- The round registers. -/
structure State (size width : Nat) where
  seen : Fin size → Bool
  winner : BitVec width
  hasWin : Bool
  emitted : Bool

/-- The ports the environment drives. -/
structure Input (size width : Nat) where
  ins : Fin size → BitVec width
  insValid : Fin size → Bool
  outsReady : Bool

/-- The ports the unit drives. -/
structure Output (size width : Nat) where
  insReady : Fin size → Bool
  outs : BitVec width
  outsValid : Bool

section Signals

variable (state : State size width) (input : Input size width)

def taken (index : Fin size) : Bool := input.insValid index && !state.seen index

def seenNext (index : Fin size) : Bool := state.seen index || taken state input index

def closing : Bool := decide (∀ index, seenNext state input index = true)

def carries (index : Fin size) : Bool := taken state input index && decide (input.ins index ≠ 0)

/-- `cand_v` and `cand`: the first non-zero payload among the tokens taken this
cycle. -/
def cand : Bool × BitVec width := scan 0 (carries state input) input.ins

def validI : Bool := (state.hasWin || (cand state input).1 || closing state input) && !state.emitted

def fire : Bool := validI state input && input.outsReady

def done : Bool := closing state input && (state.emitted || fire state input)

def allOthers (index : Fin size) : Bool :=
  decide (∀ other, other ≠ index → seenNext state input other = true)

def anyOther (index : Fin size) : Bool :=
  decide (∃ other, other ≠ index ∧ carries state input other = true)

def doneWo (index : Fin size) : Bool :=
  allOthers state input index &&
    (state.emitted ||
      ((state.hasWin || anyOther state input index || allOthers state input index) &&
        input.outsReady))

/-- The next round's tokens, taken in the cycle that completes this one. -/
def again (index : Fin size) : Bool :=
  input.insValid index && state.seen index && doneWo state input index

/-- `again_v` and `cand_again`. -/
def candAgain : Bool × BitVec width :=
  scan 0 (fun index => again state input index && decide (input.ins index ≠ 0)) input.ins

def earlyIn (index : Fin size) : Bool :=
  input.insValid index && state.seen index && allOthers state input index && state.emitted

/-- `early` and `cand_early`: a winner of the next round while the output is
already free. -/
def candEarly : Bool × BitVec width :=
  scan 0 (fun index => earlyIn state input index && decide (input.ins index ≠ 0)) input.ins

/-- The clocked process. -/
def next : State size width :=
  if done state input then
    { seen := again state input
      hasWin := (candAgain state input).1
      winner := (candAgain state input).2
      emitted := (candEarly state input).1 && input.outsReady }
  else
    { seen := seenNext state input
      hasWin := if !state.hasWin && (cand state input).1 then true else state.hasWin
      winner := if !state.hasWin && (cand state input).1 then (cand state input).2 else state.winner
      emitted := if fire state input then true else state.emitted }

def output : Output size width where
  insReady index := !state.seen index || doneWo state input index
  outs :=
    if state.emitted then (candEarly state input).2
    else if state.hasWin then state.winner else (cand state input).2
  outsValid := validI state input || (candEarly state input).1

end Signals

/-- The registers after reset. -/
def reset : State size width where
  seen _ := false
  winner := 0
  hasWin := false
  emitted := false

def machine (size width : Nat) :
    Machine (State size width) (Input size width) (Output size width) where
  next := next
  output := output

section Streams

variable (inputs : Nat → Input size width)

def stateAt (cycle : Nat) : State size width := (machine size width).stateAt reset inputs cycle

def outputAt (cycle : Nat) : Output size width := (machine size width).outputAt reset inputs cycle

/-- The tokens input `index` has given before `cycle`. -/
def received (index : Fin size) : Nat → List (BitVec width) :=
  transfers (fun cycle => (inputs cycle).insValid index && (outputAt inputs cycle).insReady index)
    (fun cycle => (inputs cycle).ins index)

/-- The tokens the unit has sent before `cycle`. -/
def sent : Nat → List (BitVec width) :=
  transfers (fun cycle => (outputAt inputs cycle).outsValid && (inputs cycle).outsReady)
    (fun cycle => (outputAt inputs cycle).outs)

/-- The token of round `round` from input `index`, once it has arrived by the end
of `cycle`. -/
def arrived (round cycle : Nat) (index : Fin size) : Option (BitVec width) :=
  (received inputs index (cycle + 1))[round]?

/-- `cycle` is the first in which a non-zero token of the round is in, and
`payload` is that of the lowest such input. -/
structure FirstNonzero (round cycle : Nat) (payload : BitVec width) : Prop where
  nonzero : payload ≠ 0
  winner : ∃ index, arrived inputs round cycle index = some payload ∧
    ∀ lower < index, ∀ other, arrived inputs round cycle lower = some other → other = 0
  first : ∀ earlier < cycle, ∀ index other,
    arrived inputs round earlier index = some other → other = 0

/-- What round `round` answers, as far as the tokens in by the end of `cycle`
tell: the first non-zero arrival, or zero once every token of the round is in and
zero. -/
def Answer (round cycle : Nat) (payload : BitVec width) : Prop :=
  (∃ decided ≤ cycle, FirstNonzero inputs round decided payload) ∨
    payload = 0 ∧ ∀ index, arrived inputs round cycle index = some 0

end Streams

section SignalFacts

variable {state : State size width} {input : Input size width} {index : Fin size}

/-- Once the round is closing, an answer that is not out yet is offered. -/
theorem done_eq : done state input = (closing state input && (state.emitted || input.outsReady)) := by
  cases isClosing : closing state input <;> cases out : state.emitted <;>
    simp [done, fire, validI, isClosing, out]

end SignalFacts

section Rounds

variable {inputs : Nat → Input size width}

/-- The registers at the start of `cycle` against the token streams, `round`
being the round that is open. -/
structure Tracks (inputs : Nat → Input size width) (cycle : Nat) (state : State size width)
    (round : Nat) : Prop where
  receivedLength : ∀ index,
    (received inputs index cycle).length = round + (state.seen index).toNat
  sentLength : (sent inputs cycle).length = round + state.emitted.toNat
  winner : state.emitted = false → state.hasWin = true →
    ∃ decided < cycle, FirstNonzero inputs round decided state.winner
  noWinner : state.emitted = false → state.hasWin = false →
    ∀ index other, (received inputs index cycle)[round]? = some other → other = 0

section Cycle

variable {cycle round : Nat}

variable (tracks : Tracks inputs cycle (stateAt inputs cycle) round)

include tracks

end Cycle

end Rounds

end Dynamatic.Handshake.First
