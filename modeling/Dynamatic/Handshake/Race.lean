import Mathlib.Data.Fintype.Sum
import Mathlib.Order.WellFounded
import Dynamatic.Clocked.Machine
import Dynamatic.Clocked.Scan
import Dynamatic.Handshake.RaceCandidates

/-!
# The elastic `race` unit

A race answers each round as soon as the inputs that have arrived determine a
winner among its candidates, and then absorbs the late inputs. The signals below
are those of the architecture that `race.py` writes for a list of candidates and
a setting of `reopen_after_taken`; the decision logic appears in it twice, over
the open round and over the next round's tokens.

`Contract` says in terms of token streams which candidate answers a round. It is
stated for any set of cycles in which a round may be decided: the unit decides a
round in the cycles after the one in which the previous answer was taken
(`Opened`), not in every cycle.
-/

namespace Dynamatic.Handshake.Race

open Dynamatic.Clocked

variable {sizeTokens sizeFlags bitwidth : Nat}

/-- The inputs in one vector: the tokens, then the flags. -/
abbrev Source (sizeTokens sizeFlags : Nat) := Fin sizeTokens ⊕ Fin sizeFlags

section Decision

/-- One view of the inputs: which have arrived, and the value each shows. -/
structure View (sizeTokens sizeFlags bitwidth : Nat) where
  arr : Source sizeTokens sizeFlags → Bool
  token : Fin sizeTokens → BitVec bitwidth
  flag : Fin sizeFlags → Bool

variable (view : View sizeTokens sizeFlags bitwidth)

def car (token : Fin sizeTokens) : Bool := view.arr (.inl token) && decide (view.token token ≠ 0)

def emp (token : Fin sizeTokens) : Bool := view.arr (.inl token) && decide (view.token token = 0)

def lt (flag : Fin sizeFlags) : Bool := view.arr (.inr flag) && view.flag flag

def lf (flag : Fin sizeFlags) : Bool := view.arr (.inr flag) && !view.flag flag

variable (candidates : Candidates sizeTokens sizeFlags bitwidth)

def en (number : Fin candidates.count) : Bool :=
  (candidates.candidate number).flags.all (lt view) &&
    (candidates.candidate number).unlessFlags.all (lf view) &&
    match (candidates.candidate number).answers with
    | .payload _ => true
    | .token index => car view index

def rf (number : Fin candidates.count) : Bool :=
  (candidates.candidate number).flags.any (lf view) ||
    (candidates.candidate number).unlessFlags.any (lt view) ||
    match (candidates.candidate number).answers with
    | .payload _ => false
    | .token index => emp view index

def win (number : Fin candidates.count) : Bool :=
  en view candidates number && (candidates.candidate number).after.all (rf view candidates)

def anyWin : Bool := decide (∃ number, win view candidates number = true)

def allRef : Bool := decide (∀ number, rf view candidates number = true)

/-- A winner with no winner before it. -/
def sel (number : Fin candidates.count) : Bool :=
  win view candidates number && !decide (∃ before < number, win view candidates before = true)

def pay : BitVec bitwidth :=
  muxOneHot (sel view candidates) fun number =>
    match (candidates.candidate number).answers with
    | .payload value => value
    | .token index => view.token index

end Decision

/-- The round registers: which inputs gave their token and the value each gave,
the answer held while the sink stalls, and whether it has been taken. -/
structure State (sizeTokens sizeFlags bitwidth : Nat) where
  seen : Source sizeTokens sizeFlags → Bool
  tval : Fin sizeTokens → BitVec bitwidth
  fval : Fin sizeFlags → Bool
  winner : BitVec bitwidth
  hasWin : Bool
  emitted : Bool

/-- The ports the environment drives. -/
structure Input (sizeTokens sizeFlags bitwidth : Nat) where
  tokens : Fin sizeTokens → BitVec bitwidth
  tokensValid : Fin sizeTokens → Bool
  flags : Fin sizeFlags → Bool
  flagsValid : Fin sizeFlags → Bool
  outsReady : Bool

/-- The ports the unit drives. -/
structure Output (sizeTokens sizeFlags bitwidth : Nat) where
  tokensReady : Fin sizeTokens → Bool
  flagsReady : Fin sizeFlags → Bool
  outs : BitVec bitwidth
  outsValid : Bool

section Signals

variable (candidates : Candidates sizeTokens sizeFlags bitwidth) (reopenAfterTaken : Bool)
  (state : State sizeTokens sizeFlags bitwidth) (input : Input sizeTokens sizeFlags bitwidth)

def iv : Source sizeTokens sizeFlags → Bool
  | .inl token => input.tokensValid token
  | .inr flag => input.flagsValid flag

def arr (source : Source sizeTokens sizeFlags) : Bool := state.seen source || iv input source

/-- `pre and suf`: all the others arrived. -/
def othersIn (source : Source sizeTokens sizeFlags) : Bool :=
  decide (∀ other, other ≠ source → arr state input other = true)

def closing : Bool := decide (∀ source, arr state input source = true)

/-- The round's view: what arrived, with the value it arrived with. -/
def view : View sizeTokens sizeFlags bitwidth where
  arr := arr state input
  token index := if state.seen (.inl index) then state.tval index else input.tokens index
  flag index := if state.seen (.inr index) then state.fval index else input.flags index

/-- The next round's view, in this round's completing cycle with the answer out:
the inputs that gave this round's token and give the next one's. -/
def earlyView : View sizeTokens sizeFlags bitwidth where
  arr source :=
    iv input source && state.seen source && othersIn state input source && state.emitted
  token := input.tokens
  flag := input.flags

def validI : Bool :=
  (state.hasWin || anyWin (view state input) candidates || allRef (view state input) candidates) &&
    !state.emitted

def fire : Bool := validI candidates state input && input.outsReady

def done : Bool := closing state input && (state.emitted || fire candidates state input)

def doneWo (source : Source sizeTokens sizeFlags) : Bool :=
  othersIn state input source &&
    if reopenAfterTaken then state.emitted else state.emitted || input.outsReady

def again (source : Source sizeTokens sizeFlags) : Bool :=
  iv input source && state.seen source && doneWo reopenAfterTaken state input source

def early : Bool :=
  state.emitted && closing state input &&
    (anyWin (earlyView state input) candidates || allRef (earlyView state input) candidates)

/-- The clocked process. -/
def next : State sizeTokens sizeFlags bitwidth :=
  if done candidates state input then
    -- The next round, from what it gave in this cycle.
    { seen := again reopenAfterTaken state input
      tval := fun index =>
        if again reopenAfterTaken state input (.inl index) then input.tokens index
        else state.tval index
      fval := fun index =>
        if again reopenAfterTaken state input (.inr index) then input.flags index
        else state.fval index
      winner := if state.emitted then pay (earlyView state input) candidates else state.winner
      hasWin := if state.emitted then anyWin (earlyView state input) candidates else false
      emitted := if state.emitted then early candidates state input && input.outsReady else false }
  else
    { seen := arr state input
      tval := fun index =>
        if iv input (.inl index) && !state.seen (.inl index) then input.tokens index
        else state.tval index
      fval := fun index =>
        if iv input (.inr index) && !state.seen (.inr index) then input.flags index
        else state.fval index
      winner :=
        if !state.hasWin && anyWin (view state input) candidates then
          pay (view state input) candidates
        else state.winner
      hasWin :=
        if !state.hasWin && anyWin (view state input) candidates then true else state.hasWin
      emitted := if fire candidates state input then true else state.emitted }

def sourceReady (source : Source sizeTokens sizeFlags) : Bool :=
  !state.seen source || doneWo reopenAfterTaken state input source

def output : Output sizeTokens sizeFlags bitwidth where
  tokensReady index := sourceReady reopenAfterTaken state input (.inl index)
  flagsReady index := sourceReady reopenAfterTaken state input (.inr index)
  outs :=
    if state.emitted then pay (earlyView state input) candidates
    else if state.hasWin then state.winner else pay (view state input) candidates
  outsValid := validI candidates state input || early candidates state input

end Signals

/-- The registers after reset. -/
def reset : State sizeTokens sizeFlags bitwidth where
  seen _ := false
  tval _ := 0
  fval _ := false
  winner := 0
  hasWin := false
  emitted := false

def machine (candidates : Candidates sizeTokens sizeFlags bitwidth) (reopenAfterTaken : Bool) :
    Machine (State sizeTokens sizeFlags bitwidth) (Input sizeTokens sizeFlags bitwidth)
      (Output sizeTokens sizeFlags bitwidth) where
  next := next candidates reopenAfterTaken
  output := output candidates reopenAfterTaken

section Outcome

/-- The tokens of one round that have arrived. -/
structure Arrivals (sizeTokens sizeFlags bitwidth : Nat) where
  token : Fin sizeTokens → Option (BitVec bitwidth)
  flag : Fin sizeFlags → Option Bool

variable (arrivals : Arrivals sizeTokens sizeFlags bitwidth)
  (candidates : Candidates sizeTokens sizeFlags bitwidth)

/-- The flags arrived true, the unless flags false and the token non-zero. -/
def Enabled (number : Fin candidates.count) : Prop :=
  (∀ flag ∈ (candidates.candidate number).flags, arrivals.flag flag = some true) ∧
    (∀ flag ∈ (candidates.candidate number).unlessFlags, arrivals.flag flag = some false) ∧
    match (candidates.candidate number).answers with
    | .payload _ => True
    | .token index => ∃ value, value ≠ 0 ∧ arrivals.token index = some value

/-- A flag arrived false, an unless flag true, or the token zero. -/
def Refused (number : Fin candidates.count) : Prop :=
  (∃ flag ∈ (candidates.candidate number).flags, arrivals.flag flag = some false) ∨
    (∃ flag ∈ (candidates.candidate number).unlessFlags, arrivals.flag flag = some true) ∨
    match (candidates.candidate number).answers with
    | .payload _ => False
    | .token index => arrivals.token index = some 0

/-- Enabled, with every candidate of the `after` list refused. -/
def Wins (number : Fin candidates.count) : Prop :=
  Enabled arrivals candidates number ∧
    ∀ before ∈ (candidates.candidate number).after, Refused arrivals candidates before

/-- What a candidate answers with. -/
def Pays (number : Fin candidates.count) (payload : BitVec bitwidth) : Prop :=
  match (candidates.candidate number).answers with
  | .payload value => payload = value
  | .token index => arrivals.token index = some payload

/-- The lowest-index winner answers with `payload`. -/
def WonBy (payload : BitVec bitwidth) : Prop :=
  ∃ number, Wins arrivals candidates number ∧
    (∀ lower < number, ¬ Wins arrivals candidates lower) ∧
    Pays arrivals candidates number payload

end Outcome

/-- A unit with the inputs it is driven with from reset on. -/
structure Run (sizeTokens sizeFlags bitwidth : Nat) where
  candidates : Candidates sizeTokens sizeFlags bitwidth
  reopenAfterTaken : Bool
  inputs : Nat → Input sizeTokens sizeFlags bitwidth

namespace Run

variable (run : Run sizeTokens sizeFlags bitwidth)

def stateAt (cycle : Nat) : State sizeTokens sizeFlags bitwidth :=
  (machine run.candidates run.reopenAfterTaken).stateAt reset run.inputs cycle

def outputAt (cycle : Nat) : Output sizeTokens sizeFlags bitwidth :=
  (machine run.candidates run.reopenAfterTaken).outputAt reset run.inputs cycle

/-- The tokens a token input has given before a cycle. -/
def receivedTokens (index : Fin sizeTokens) : Nat → List (BitVec bitwidth) :=
  transfers
    (fun cycle =>
      (run.inputs cycle).tokensValid index && (run.outputAt cycle).tokensReady index)
    (fun cycle => (run.inputs cycle).tokens index)

/-- The tokens a flag input has given before a cycle. -/
def receivedFlags (index : Fin sizeFlags) : Nat → List Bool :=
  transfers
    (fun cycle => (run.inputs cycle).flagsValid index && (run.outputAt cycle).flagsReady index)
    (fun cycle => (run.inputs cycle).flags index)

/-- How many tokens an input has given before a cycle. -/
def receivedCount (source : Source sizeTokens sizeFlags) (cycle : Nat) : Nat :=
  match source with
  | .inl index => (run.receivedTokens index cycle).length
  | .inr index => (run.receivedFlags index cycle).length

/-- The answers taken before a cycle. -/
def sent : Nat → List (BitVec bitwidth) :=
  transfers (fun cycle => (run.outputAt cycle).outsValid && (run.inputs cycle).outsReady)
    (fun cycle => (run.outputAt cycle).outs)

/-- The tokens of round `round` in by the end of `cycle`. -/
def arrived (round cycle : Nat) : Arrivals sizeTokens sizeFlags bitwidth where
  token index := (run.receivedTokens index (cycle + 1))[round]?
  flag index := (run.receivedFlags index (cycle + 1))[round]?

/-- The cycles after the one in which the answer before round `round` was taken. -/
def Opened (round cycle : Nat) : Prop := round ≤ (run.sent cycle).length

/-- `cycle` is the first of the cycles that count in which the arrived tokens of
the round make a candidate win, and the lowest winner pays `payload`. -/
structure FirstWin (counts : Nat → Nat → Prop) (round cycle : Nat) (payload : BitVec bitwidth) :
    Prop where
  counted : counts round cycle
  won : WonBy (run.arrived round cycle) run.candidates payload
  first : ∀ earlier < cycle, counts round earlier → ∀ number,
    ¬ Wins (run.arrived round earlier) run.candidates number

/-- What round `round` answers, as far as the tokens in by the end of `cycle`
tell: the payload of its first winner, or zero once every candidate is refused. -/
def Answer (counts : Nat → Nat → Prop) (round cycle : Nat) (payload : BitVec bitwidth) : Prop :=
  (∃ decided ≤ cycle, run.FirstWin counts round decided payload) ∨
    payload = 0 ∧ ∀ number, Refused (run.arrived round cycle) run.candidates number

end Run

/-- What a view shows as arrived. -/
def View.arrivals (shown : View sizeTokens sizeFlags bitwidth) :
    Arrivals sizeTokens sizeFlags bitwidth where
  token index := if shown.arr (.inl index) then some (shown.token index) else none
  flag index := if shown.arr (.inr index) then some (shown.flag index) else none

/-- Everything that had arrived is still there, with its value. -/
structure Arrivals.Extends (arrivals later : Arrivals sizeTokens sizeFlags bitwidth) : Prop where
  token : ∀ index value, arrivals.token index = some value → later.token index = some value
  flag : ∀ index value, arrivals.flag index = some value → later.flag index = some value

section DecisionFacts

variable {shown : View sizeTokens sizeFlags bitwidth}
  {candidates : Candidates sizeTokens sizeFlags bitwidth} {number : Fin candidates.count}
  {arrivals later : Arrivals sizeTokens sizeFlags bitwidth}

theorem lt_iff (flag : Fin sizeFlags) :
    lt shown flag = true ↔ shown.arrivals.flag flag = some true := by
  simp [lt, View.arrivals]

theorem lf_iff (flag : Fin sizeFlags) :
    lf shown flag = true ↔ shown.arrivals.flag flag = some false := by
  simp [lf, View.arrivals]

theorem en_iff : en shown candidates number = true ↔ Enabled shown.arrivals candidates number := by
  rw [en, Enabled]
  cases (candidates.candidate number).answers with
  | payload value => simp [List.all_eq_true, lt_iff, lf_iff]
  | token index =>
      simp only [Bool.and_eq_true, List.all_eq_true, lt_iff, lf_iff, and_assoc]
      refine and_congr_right fun _ => and_congr_right fun _ => ?_
      simp only [car, View.arrivals, Bool.and_eq_true, decide_eq_true_eq,
        Option.ite_none_right_eq_some, Option.some.injEq]
      exact ⟨fun carried => ⟨_, carried.2, carried.1, rfl⟩,
        fun ⟨value, nonzero, isIn, equal⟩ => ⟨isIn, equal ▸ nonzero⟩⟩

theorem rf_iff : rf shown candidates number = true ↔ Refused shown.arrivals candidates number := by
  rw [rf, Refused]
  cases (candidates.candidate number).answers with
  | payload value => simp [List.any_eq_true, lt_iff, lf_iff]
  | token index =>
      simp only [Bool.or_eq_true, List.any_eq_true, lt_iff, lf_iff, or_assoc]
      refine or_congr_right (or_congr_right ?_)
      simp [emp, View.arrivals]

theorem win_iff : win shown candidates number = true ↔ Wins shown.arrivals candidates number := by
  simp [win, Wins, en_iff, rf_iff, List.all_eq_true]

theorem anyWin_iff :
    anyWin shown candidates = true ↔ ∃ number, Wins shown.arrivals candidates number := by
  simp [anyWin, win_iff]

theorem allRef_iff :
    allRef shown candidates = true ↔ ∀ number, Refused shown.arrivals candidates number := by
  simp [allRef, rf_iff]

/-- With every input in, each candidate is enabled or refused. -/
theorem enabled_or_refused (tokens : ∀ index, ∃ value, arrivals.token index = some value)
    (flags : ∀ index, ∃ value, arrivals.flag index = some value) :
    Enabled arrivals candidates number ∨ Refused arrivals candidates number := by
  by_cases refused : Refused arrivals candidates number
  · exact .inr refused
  · refine .inl ⟨fun flag mem => ?_, fun flag mem => ?_, ?_⟩
    · obtain ⟨value, isIn⟩ := flags flag
      cases value with
      | true => exact isIn
      | false => exact absurd (.inl ⟨flag, mem, isIn⟩) refused
    · obtain ⟨value, isIn⟩ := flags flag
      cases value with
      | true => exact absurd (.inr (.inl ⟨flag, mem, isIn⟩)) refused
      | false => exact isIn
    · split <;> rename_i index found
      · trivial
      · obtain ⟨value, isIn⟩ := tokens index
        refine ⟨value, fun zero => refused (.inr (.inr ?_)), isIn⟩
        rw [found]
        exact zero ▸ isIn

/-- With every input in, a candidate wins or all are refused: among the enabled
ones, one that waits for no other enabled one wins. -/
theorem wins_or_all_refused (acyclic : candidates.Acyclic)
    (tokens : ∀ index, ∃ value, arrivals.token index = some value)
    (flags : ∀ index, ∃ value, arrivals.flag index = some value) :
    (∃ number, Wins arrivals candidates number) ∨
      ∀ number, Refused arrivals candidates number := by
  by_cases enabled : ∃ number, Enabled arrivals candidates number
  · left
    have irreflexive : Std.Irrefl (Relation.TransGen
        fun before later => before ∈ (candidates.candidate later).after) := ⟨acyclic⟩
    have wellFounded := Finite.wellFounded_of_trans_of_irrefl (Relation.TransGen
      fun before later => before ∈ (candidates.candidate later).after)
    obtain ⟨number, isEnabled, first⟩ := wellFounded.has_min
      {number | Enabled arrivals candidates number} enabled
    refine ⟨number, isEnabled, fun before mem => ?_⟩
    exact (enabled_or_refused tokens flags).resolve_left fun also =>
      first before also (.single mem)
  · right
    intro number
    exact (enabled_or_refused tokens flags).resolve_left fun also => enabled ⟨number, also⟩

end DecisionFacts

section SignalFacts

variable {candidates : Candidates sizeTokens sizeFlags bitwidth} {reopenAfterTaken : Bool}
  {state : State sizeTokens sizeFlags bitwidth} {input : Input sizeTokens sizeFlags bitwidth}
  {source : Source sizeTokens sizeFlags}

/-- Once every input is in, the round is decided. -/
theorem decided_of_closing (acyclic : candidates.Acyclic) (closed : closing state input = true) :
    (anyWin (view state input) candidates || allRef (view state input) candidates) = true := by
  have allIn : ∀ source, arr state input source = true := of_decide_eq_true closed
  rw [Bool.or_eq_true, anyWin_iff, allRef_iff]
  exact wins_or_all_refused acyclic (fun index => ⟨_, by simp [View.arrivals, view, allIn]; rfl⟩)
    (fun index => ⟨_, by simp [View.arrivals, view, allIn]; rfl⟩)

/-- The round is over in the cycle that closes it, unless its answer waits. -/
theorem done_eq (acyclic : candidates.Acyclic) :
    done candidates state input = (closing state input && (state.emitted || input.outsReady)) := by
  cases closed : closing state input with
  | false => simp [done, closed]
  | true =>
      have decided := decided_of_closing acyclic closed
      cases out : state.emitted with
      | true => simp [done, closed, out]
      | false => simp [done, fire, validI, closed, out, Bool.or_assoc, decided]

end SignalFacts

end Dynamatic.Handshake.Race
