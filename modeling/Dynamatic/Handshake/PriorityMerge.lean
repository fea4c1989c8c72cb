import Dynamatic.Clocked.Machine

/-!
# The elastic `priority_merge` unit

`priority_merge` takes one token from each of its two inputs per round and sends
one: that of `hi` when it is non-zero, that of `lo` otherwise. It waits for `hi`
only, absorbs a late `lo` after the answer has left, and may take the next round's
tokens in the cycle that completes a round. The signals below are those of
`data/verilog/handshake/priority_merge.v`, which `data/vhdl/handshake/priority.vhd`
repeats.

`Correct` says what the unit is for in terms of token streams alone, `Tracks` relates
the registers to those streams.
-/

namespace Dynamatic.Handshake.PriorityMerge

open Dynamatic.Clocked

variable {width : Nat}

/-- The round registers. -/
structure State (width : Nat) where
  seenHi : Bool
  seenLo : Bool
  emitted : Bool
  hiNzR : Bool
  held : BitVec width

/-- The ports the environment drives. -/
structure Input (width : Nat) where
  hi : BitVec width
  hiValid : Bool
  lo : BitVec width
  loValid : Bool
  outsReady : Bool

/-- The ports the unit drives. -/
structure Output (width : Nat) where
  hiReady : Bool
  loReady : Bool
  outs : BitVec width
  outsValid : Bool

section Signals

variable (state : State width) (input : Input width)

def takeHi : Bool := input.hiValid && !state.seenHi

def takeLo : Bool := input.loValid && !state.seenLo

def hiHere : Bool := state.seenHi || takeHi state input

def loHere : Bool := state.seenLo || takeLo state input

def hiIsNz : Bool := decide (input.hi ≠ 0)

def hiNowNz : Bool := takeHi state input && hiIsNz input

def hiNz : Bool := state.hiNzR || hiNowNz state input

def validI : Bool := !state.emitted && hiHere state input && (hiNz state input || loHere state input)

def fire : Bool := validI state input && input.outsReady

def done : Bool := hiHere state input && loHere state input && (state.emitted || fire state input)

def doneHi : Bool :=
  loHere state input &&
    (state.emitted || (state.hiNzR || loHere state input) && input.outsReady)

def doneLo : Bool := hiHere state input && (state.emitted || input.outsReady)

/-- The next round's `hi`, taken in the cycle that completes this one. -/
def againHi : Bool := input.hiValid && state.seenHi && doneHi state input

/-- The next round's `lo`, taken in the cycle that completes this one. -/
def againLo : Bool := input.loValid && state.seenLo && doneLo state input

def againNz : Bool := againHi state input && hiIsNz input

/-- A non-zero `hi` of the next round while the output is already free. -/
def early : Bool :=
  input.hiValid && state.seenHi && loHere state input && state.emitted && hiIsNz input

/-- The clocked process. -/
def next : State width :=
  if done state input then
    { seenHi := againHi state input
      seenLo := againLo state input
      hiNzR := againNz state input
      emitted := early state input && input.outsReady
      held := if againNz state input then input.hi else if againLo state input then input.lo else 0 }
  else
    { seenHi := hiHere state input
      seenLo := loHere state input
      hiNzR := hiNz state input
      emitted := if fire state input then true else state.emitted
      held :=
        if hiNowNz state input then input.hi
        else if takeLo state input && !state.hiNzR then input.lo
        else state.held }

def output : Output width where
  hiReady := !state.seenHi || doneHi state input
  loReady := !state.seenLo || doneLo state input
  outs :=
    if hiNowNz state input || early state input then input.hi
    else if state.hiNzR || !takeLo state input then state.held else input.lo
  outsValid := validI state input || early state input

end Signals

/-- The registers after reset. -/
def reset : State width where
  seenHi := false
  seenLo := false
  emitted := false
  hiNzR := false
  held := 0

def machine (width : Nat) : Machine (State width) (Input width) (Output width) where
  next := next
  output := output

section Streams

variable (inputs : Nat → Input width)

def stateAt (cycle : Nat) : State width := (machine width).stateAt reset inputs cycle

def outputAt (cycle : Nat) : Output width := (machine width).outputAt reset inputs cycle

/-- The tokens `hi` has given before `cycle`. -/
def receivedHi : Nat → List (BitVec width) :=
  transfers (fun cycle => (inputs cycle).hiValid && (outputAt inputs cycle).hiReady)
    (fun cycle => (inputs cycle).hi)

/-- The tokens `lo` has given before `cycle`. -/
def receivedLo : Nat → List (BitVec width) :=
  transfers (fun cycle => (inputs cycle).loValid && (outputAt inputs cycle).loReady)
    (fun cycle => (inputs cycle).lo)

/-- The tokens the unit has sent before `cycle`. -/
def sent : Nat → List (BitVec width) :=
  transfers (fun cycle => (outputAt inputs cycle).outsValid && (inputs cycle).outsReady)
    (fun cycle => (outputAt inputs cycle).outs)

/-- The answer of a round from the tokens of it that are in: `hi` when it is
non-zero, else `lo`. -/
def answer (hi lo : Option (BitVec width)) : Option (BitVec width) :=
  match hi with
  | none => none
  | some payload => if payload = 0 then lo else some payload

/-- The answer of a round from the tokens in before `cycle`. -/
def answerAt (round cycle : Nat) : Option (BitVec width) :=
  answer (receivedHi inputs cycle)[round]? (receivedLo inputs cycle)[round]?

end Streams

section SignalFacts

variable {state : State width} {input : Input width}

/-- Once both tokens are in, an answer that is not out yet is offered. -/
theorem done_eq : done state input =
    (hiHere state input && loHere state input && (state.emitted || input.outsReady)) := by
  cases hiIn : hiHere state input <;> cases loIn : loHere state input <;>
    cases out : state.emitted <;> simp [done, fire, validI, hiIn, loIn, out]

theorem doneHi_of_seen (seen : state.seenHi = true) : doneHi state input = done state input := by
  rw [done_eq, doneHi]
  cases loHere state input <;> simp [hiHere, seen]

theorem doneLo_of_seen (seen : state.seenLo = true) : doneLo state input = done state input := by
  rw [done_eq, doneLo]
  simp [loHere, seen]

theorem againHi_eq :
    againHi state input = (input.hiValid && state.seenHi && done state input) := by
  cases seen : state.seenHi with
  | false => simp [againHi, seen]
  | true => simp [againHi, seen, doneHi_of_seen seen]

theorem againLo_eq :
    againLo state input = (input.loValid && state.seenLo && done state input) := by
  cases seen : state.seenLo with
  | false => simp [againLo, seen]
  | true => simp [againLo, seen, doneLo_of_seen seen]

/-- With the answer out, a non-zero token kept for the next round is answered at once. -/
theorem early_eq : early state input = (againNz state input && state.emitted) := by
  rw [early, againNz, againHi_eq, done_eq]
  cases out : state.emitted <;> cases seen : state.seenHi <;> cases valid : input.hiValid <;>
    cases loIn : loHere state input <;> simp [hiHere, seen]

/-- `hi` transfers when it gives this round's token, or the next round's in the
completing cycle. -/
theorem hi_transfer_eq :
    (input.hiValid && (output state input).hiReady) =
      (input.hiValid && (!state.seenHi || done state input)) := by
  cases seen : state.seenHi with
  | false => simp [output, seen]
  | true => simp [output, seen, doneHi_of_seen seen]

theorem lo_transfer_eq :
    (input.loValid && (output state input).loReady) =
      (input.loValid && (!state.seenLo || done state input)) := by
  cases seen : state.seenLo with
  | false => simp [output, seen]
  | true => simp [output, seen, doneLo_of_seen seen]

/-- What an open round offers is what it holds if the offer is not taken. -/
theorem outs_eq_held (pending : state.emitted = false) (notDone : done state input = false) :
    (output state input).outs = (next state input).held := by
  have quiet : early state input = false := by simp [early_eq, pending]
  simp only [output, next, notDone, quiet, Bool.or_false, Bool.false_eq_true, if_false]
  cases hiNowNz state input <;> cases state.hiNzR <;> cases takeLo state input <;> rfl

end SignalFacts

section Registers

variable {state : State width} {input : Input width} {hi lo : Option (BitVec width)}
  {payload : BitVec width}

/-- The registers hold the tokens of the open round: which of them are in, whether that of
`hi` is non-zero, and the one the answer needs. -/
structure Holds (state : State width) (hi lo : Option (BitVec width)) : Prop where
  seenHi : state.seenHi = hi.isSome
  seenLo : state.seenLo = lo.isSome
  hiNzR : state.hiNzR = hi.any fun payload => decide (payload ≠ 0)
  held : state.emitted = false → ∀ payload,
    (if state.hiNzR then hi else lo) = some payload → state.held = payload

/-- The token of the open round after a cycle that offers one. -/
def taking (before : Option (BitVec width)) (valid : Bool) (payload : BitVec width) :
    Option (BitVec width) :=
  before.or (if valid then some payload else none)

theorem holds_reset : Holds (reset : State width) none none :=
  ⟨rfl, rfl, rfl, fun _ _ isThere => by cases isThere⟩

section Step

variable (holds : Holds state hi lo)

include holds

theorem hiHere_eq : hiHere state input = (taking hi input.hiValid input.hi).isSome := by
  rw [hiHere, takeHi, holds.seenHi, taking]
  cases hi <;> cases input.hiValid <;> rfl

theorem loHere_eq : loHere state input = (taking lo input.loValid input.lo).isSome := by
  rw [loHere, takeLo, holds.seenLo, taking]
  cases lo <;> cases input.loValid <;> rfl

theorem hiNz_eq : hiNz state input =
    (taking hi input.hiValid input.hi).any fun payload => decide (payload ≠ 0) := by
  rw [hiNz, hiNowNz, takeHi, holds.seenHi, holds.hiNzR, taking]
  cases hi <;> cases input.hiValid <;> simp [hiIsNz]

/-- An open round keeps the token its answer needs. -/
theorem holds_of_open (notDone : done state input = false) :
    Holds (next state input) (taking hi input.hiValid input.hi) (taking lo input.loValid input.lo) := by
  have state' : next state input =
      { seenHi := hiHere state input
        seenLo := loHere state input
        hiNzR := hiNz state input
        emitted := if fire state input then true else state.emitted
        held :=
          if hiNowNz state input then input.hi
          else if takeLo state input && !state.hiNzR then input.lo
          else state.held } := by
    simp [next, notDone]
  rw [state']
  refine ⟨hiHere_eq holds, loHere_eq holds, hiNz_eq holds, fun pending payload needed => ?_⟩
  have stillPending : state.emitted = false := by
    cases fired : fire state input <;> simp_all
  have kept := holds.held stillPending
  cases nonzero : state.hiNzR with
  | true =>
      obtain ⟨token, rfl⟩ : ∃ token, hi = some token := by
        rw [holds.hiNzR] at nonzero
        cases hi with
        | none => cases nonzero
        | some token => exact ⟨token, rfl⟩
      have seen : hiNowNz state input = false := by simp [hiNowNz, takeHi, holds.seenHi]
      have same : state.held = payload := kept payload (by simpa [hiNz, nonzero, taking] using needed)
      simpa [seen, nonzero] using same
  | false =>
      cases isNow : hiNowNz state input with
      | true =>
          have takes : input.hiValid = true ∧ hi = none := by
            simp only [hiNowNz, takeHi, holds.seenHi, Bool.and_eq_true, Bool.not_eq_true',
              Option.isSome_eq_false_iff, Option.isNone_iff_eq_none] at isNow
            exact isNow.1
          simpa [hiNz, isNow, taking, takes] using needed
      | false =>
          rw [hiNz, nonzero, isNow, Bool.or_false, if_neg Bool.false_ne_true] at needed
          rw [if_neg Bool.false_ne_true, Bool.not_false, Bool.and_true, takeLo, holds.seenLo]
          cases lo with
          | some token =>
              have same : state.held = token := kept token (by simp [nonzero])
              have here : token = payload := by simpa [taking] using needed
              simpa [here] using same
          | none =>
              cases valid : input.loValid with
              | true => simpa [taking, valid] using needed
              | false => simp [taking, valid] at needed

/-- The token that is held for the answer is the answer. -/
theorem answer_eq_needed (hiIn : hi.isSome = true) :
    answer hi lo = if state.hiNzR then hi else lo := by
  obtain ⟨token, rfl⟩ := Option.isSome_iff_exists.mp hiIn
  rw [holds.hiNzR]
  by_cases zero : token = 0 <;> simp [answer, zero]

/-- An offered token is the answer of the open round. -/
theorem answer_of_pending (pending : state.emitted = false)
    (offered : (output state input).outsValid = true) :
    answer (taking hi input.hiValid input.hi) (taking lo input.loValid input.lo) =
      some (output state input).outs := by
  change (validI state input || early state input) = true at offered
  have offer : hiHere state input = true ∧ (hiNz state input || loHere state input) = true := by
    simpa [validI, early_eq, pending] using offered
  -- The offer does not read the sink's ready, so it is what would be held for a stalled sink.
  have notDone : done state { input with outsReady := false } = false := by simp [done_eq, pending]
  have kept := holds_of_open holds notDone
  have held := outs_eq_held pending notDone
  have hiIn : (taking hi input.hiValid input.hi).isSome = true := by
    rw [← hiHere_eq holds]
    exact offer.1
  have nonzero : (next state { input with outsReady := false }).hiNzR = hiNz state input := by
    rw [kept.hiNzR, hiNz_eq holds]
  have stillPending : (next state { input with outsReady := false }).emitted = false := by
    simp [next, notDone, fire, pending]
  have needed : (if hiNz state input then taking hi input.hiValid input.hi
      else taking lo input.loValid input.lo).isSome = true := by
    cases isNz : hiNz state input with
    | true => exact hiIn
    | false => simpa [isNz, loHere_eq holds] using offer.2
  obtain ⟨token, isThere⟩ := Option.isSome_iff_exists.mp needed
  rw [answer_eq_needed kept hiIn, nonzero, isThere]
  have same := kept.held stillPending token (by rw [nonzero]; exact isThere)
  rw [← same, ← held]
  rfl

omit holds in
/-- With the answer of the open round out, an offered token is that of the next. -/
theorem answer_of_emitted (out : state.emitted = true)
    (offered : (output state input).outsValid = true) :
    answer (if againHi state input then some input.hi else none)
        (if againLo state input then some input.lo else none) =
      some (output state input).outs := by
  change (validI state input || early state input) = true at offered
  have nonzero : againNz state input = true := by simpa [validI, early_eq, out] using offered
  have both : againHi state input = true ∧ input.hi ≠ 0 := by
    simpa [againNz, hiIsNz] using nonzero
  rw [if_pos both.1, answer, if_neg both.2]
  simp [output, early_eq, out, nonzero]

end Step

end Registers

section Rounds

variable {inputs : Nat → Input width} {cycle round : Nat}

/-- The registers at the start of `cycle` against the token streams, `round` being the
round that is open. -/
structure Tracks (inputs : Nat → Input width) (cycle : Nat) (state : State width) (round : Nat) :
    Prop where
  holds : Holds state (receivedHi inputs cycle)[round]? (receivedLo inputs cycle)[round]?
  hiLength : (receivedHi inputs cycle).length = round + state.seenHi.toNat
  loLength : (receivedLo inputs cycle).length = round + state.seenLo.toNat
  sentLength : (sent inputs cycle).length = round + state.emitted.toNat
  answers : ∀ earlier payload, (sent inputs cycle)[earlier]? = some payload →
    answerAt inputs earlier cycle = some payload

theorem receivedHi_succ (position : Nat) :
    (receivedHi inputs (cycle + 1))[position]? =
      if position = (receivedHi inputs cycle).length ∧
          ((inputs cycle).hiValid && (!(stateAt inputs cycle).seenHi ||
            done (stateAt inputs cycle) (inputs cycle))) = true then
        some (inputs cycle).hi
      else (receivedHi inputs cycle)[position]? := by
  rw [receivedHi, getElem?_transfers_succ, ← hi_transfer_eq]
  rfl

theorem receivedLo_succ (position : Nat) :
    (receivedLo inputs (cycle + 1))[position]? =
      if position = (receivedLo inputs cycle).length ∧
          ((inputs cycle).loValid && (!(stateAt inputs cycle).seenLo ||
            done (stateAt inputs cycle) (inputs cycle))) = true then
        some (inputs cycle).lo
      else (receivedLo inputs cycle)[position]? := by
  rw [receivedLo, getElem?_transfers_succ, ← lo_transfer_eq]
  rfl

/-- An answer does not change as more tokens come. -/
theorem answerAt_succ {payload : BitVec width}
    (known : answerAt inputs round cycle = some payload) :
    answerAt inputs round (cycle + 1) = some payload := by
  rw [answerAt] at known ⊢
  cases hiIn : (receivedHi inputs cycle)[round]? with
  | none => simp [hiIn, answer] at known
  | some token =>
      have hiStill : (receivedHi inputs (cycle + 1))[round]? = some token :=
        getElem?_transfers_of_le (Nat.le_succ _) hiIn
      rw [hiIn, answer] at known
      rw [hiStill, answer]
      split at known
      · rw [if_pos ‹_›]
        exact getElem?_transfers_of_le (Nat.le_succ _) known
      · rwa [if_neg ‹_›]

section Cycle

variable (tracks : Tracks inputs cycle (stateAt inputs cycle) round)

include tracks

/-- The tokens of the open round that are in by the end of the cycle. -/
theorem receivedHi_open : (receivedHi inputs (cycle + 1))[round]? =
    taking (receivedHi inputs cycle)[round]? (inputs cycle).hiValid (inputs cycle).hi := by
  have length := tracks.hiLength
  rw [receivedHi_succ, taking]
  cases seen : (stateAt inputs cycle).seenHi with
  | true => simp [length, seen]
  | false => simp [length, seen]

theorem receivedLo_open : (receivedLo inputs (cycle + 1))[round]? =
    taking (receivedLo inputs cycle)[round]? (inputs cycle).loValid (inputs cycle).lo := by
  have length := tracks.loLength
  rw [receivedLo_succ, taking]
  cases seen : (stateAt inputs cycle).seenLo with
  | true => simp [length, seen]
  | false => simp [length, seen]

/-- The tokens of the following round that are in are those taken as the open one is
completed. -/
theorem receivedHi_following : (receivedHi inputs (cycle + 1))[round + 1]? =
    if againHi (stateAt inputs cycle) (inputs cycle) then some (inputs cycle).hi else none := by
  have length := tracks.hiLength
  rw [receivedHi_succ, againHi_eq, length]
  cases seen : (stateAt inputs cycle).seenHi <;> simp [length, seen]

theorem receivedLo_following : (receivedLo inputs (cycle + 1))[round + 1]? =
    if againLo (stateAt inputs cycle) (inputs cycle) then some (inputs cycle).lo else none := by
  have length := tracks.loLength
  rw [receivedLo_succ, againLo_eq, length]
  cases seen : (stateAt inputs cycle).seenLo <;> simp [length, seen]

/-- An offered token is the answer of the round it is sent for. -/
theorem answerAt_of_offered (offered : (outputAt inputs cycle).outsValid = true) :
    answerAt inputs (sent inputs cycle).length (cycle + 1) = some (outputAt inputs cycle).outs := by
  rw [answerAt, tracks.sentLength]
  cases out : (stateAt inputs cycle).emitted with
  | false =>
      change answer (receivedHi inputs (cycle + 1))[round]? (receivedLo inputs (cycle + 1))[round]? = _
      rw [receivedHi_open tracks, receivedLo_open tracks]
      exact answer_of_pending tracks.holds out offered
  | true =>
      rw [Bool.toNat_true, receivedHi_following tracks, receivedLo_following tracks]
      exact answer_of_emitted out offered

theorem answers_succ (earlier : Nat) (payload : BitVec width)
    (isSent : (sent inputs (cycle + 1))[earlier]? = some payload) :
    answerAt inputs earlier (cycle + 1) = some payload := by
  rw [sent, getElem?_transfers_succ] at isSent
  split at isSent
  · rename_i now
    obtain ⟨rfl, fires⟩ := now
    rw [Bool.and_eq_true] at fires
    rw [← isSent]
    exact answerAt_of_offered tracks fires.1
  · exact answerAt_succ (tracks.answers earlier payload isSent)

end Cycle

end Rounds

end Dynamatic.Handshake.PriorityMerge
