import Dynamatic.Speculation.Speculator

/-!
# The save-commit unit

A save-commit keeps the input tokens it sends speculatively until the speculator
confirms or refutes them. Two control channels drive it independently: `ctrl_issue`
says when to send, `ctrl_history` when to release; a RESEND or a NO_CMP comes on
both and is taken from both at once. The signals and processes are those of
`spec_save_commit.py`.

`Epoch` is the account of one run since reset or the last RESEND, in terms of the
tokens on the ports: what was kept, what was sent and how much was released.
-/

namespace Dynamatic.Speculation.SaveCommit

open Dynamatic.Clocked Dynamatic.Speculation.Speculator

variable {α : Type}

/-- The registers. -/
structure State (α : Type) where
  tail : Nat
  head : Nat
  curr : Nat
  currEmpty : Bool
  empty : Bool
  full : Bool
  memory : Nat → α
  misspecRecoveryBit : Bool

/-- The ports the environment drives. -/
structure Input (α : Type) where
  ins : α
  insValid : Bool
  insSpec : Bool
  issue : Issue
  issueValid : Bool
  history : History
  historyValid : Bool
  outsReady : Bool

/-- What `signal_proc` drives. -/
structure Driven (α : Type) where
  headEn : Bool
  currEn : Bool
  outsValid : Bool
  outs : α
  outsSpec : Bool
  issueReady : Bool
  historyReady : Bool

section Signals

variable (state : State α) (input : Input α)

def leavingRecovery : Bool := state.misspecRecoveryBit && !input.insSpec && input.insValid

def noUnkilledMispreds : Bool := !state.misspecRecoveryBit || leavingRecovery state input

def doSpec : Bool :=
  noUnkilledMispreds state input && (input.issueValid && decide (input.issue = .doSpec))

def doCmpCorrect : Bool :=
  noUnkilledMispreds state input && (input.historyValid && decide (input.history = .resolve))

def doResend : Bool :=
  (input.issueValid && decide (input.issue = .resend)) &&
    (input.historyValid && decide (input.history = .resend))

def doNoCmp : Bool :=
  noUnkilledMispreds state input && (input.issueValid && decide (input.issue = .noCmp)) &&
    (input.historyValid && decide (input.history = .noCmp))

def resendAccept : Bool := doResend input && input.outsReady

def dropSpecIns : Bool := (doResend input || state.misspecRecoveryBit) && input.insSpec

def insReady : Bool := dropSpecIns state input || !state.full

def tailEn : Bool := input.insValid && insReady state input && !dropSpecIns state input

/-- `signal_proc`: later branches override what earlier ones drive. -/
def driven : Driven α :=
  let defaults : Driven α :=
    { headEn := false, currEn := false, outsValid := false, outs := state.memory state.head
      outsSpec := false, issueReady := false, historyReady := false }
  let speculating :=
    if doSpec state input then
      if state.currEmpty then
        if input.insValid && !state.full then
          { defaults with
            outsSpec := true, issueReady := input.outsReady, currEn := input.outsReady
            outsValid := true, outs := input.ins }
        else { defaults with outsSpec := true }
      else
        { defaults with
          outsSpec := true, issueReady := input.outsReady, currEn := input.outsReady
          outsValid := true, outs := state.memory state.curr }
    else defaults
  let resolving :=
    if doCmpCorrect state input then { speculating with historyReady := true, headEn := true }
    else speculating
  let resending :=
    if doResend input then
      { resolving with
        issueReady := input.outsReady, historyReady := input.outsReady
        outsValid := true, outs := state.memory state.head }
    else resolving
  if doNoCmp state input then
    if state.empty then
      if input.insValid then
        { resending with
          issueReady := input.outsReady, historyReady := input.outsReady
          currEn := input.outsReady, headEn := input.outsReady
          outsValid := true, outs := input.ins }
      else resending
    else
      { resending with
        issueReady := input.outsReady, historyReady := input.outsReady
        currEn := input.outsReady, headEn := input.outsReady
        outsValid := true, outs := state.memory state.head }
  else resending

def headEn : Bool := (driven state input).headEn

def currEn : Bool := (driven state input).currEn

/-- The clocked processes, with `depth` words of memory. -/
def next (depth : Nat) : State α where
  tail :=
    if resendAccept input then 0
    else if tailEn state input then (state.tail + 1) % depth else state.tail
  head :=
    if resendAccept input then 0
    else if headEn state input then (state.head + 1) % depth else state.head
  curr :=
    if resendAccept input then 0
    else if currEn state input then (state.curr + 1) % depth else state.curr
  full :=
    if resendAccept input then false
    else if tailEn state input && !headEn state input then
      if (state.tail + 2) % depth = state.head then true else state.full
    else if !tailEn state input && headEn state input then false
    else state.full
  empty :=
    if resendAccept input then true
    else if !tailEn state input && headEn state input then
      if (state.head + 1) % depth = state.tail then true else state.empty
    else if tailEn state input && !headEn state input then false
    else state.empty
  currEmpty :=
    if resendAccept input then true
    else if !tailEn state input && currEn state input then
      if (state.curr + 1) % depth = state.tail then true else state.currEmpty
    else if tailEn state input && !currEn state input then false
    else state.currEmpty
  memory :=
    if tailEn state input then Function.update state.memory state.tail input.ins else state.memory
  misspecRecoveryBit :=
    if resendAccept input then true
    else if leavingRecovery state input then false
    else state.misspecRecoveryBit

end Signals

/-- The registers after reset, over any memory contents. -/
def reset (memory : Nat → α) : State α where
  tail := 0
  head := 0
  curr := 0
  currEmpty := true
  empty := true
  full := false
  memory := memory
  misspecRecoveryBit := false

def machine (α : Type) (depth : Nat) : Machine (State α) (Input α) (Driven α) where
  next state input := next state input depth
  output := driven

section Protocol

/-- What a speculator tells its save-commits. -/
inductive Event where
  | doSpec
  | resolve
  | resend
  | noCmp
  deriving DecidableEq

/-- The token of an event on `ctrl_issue`. -/
def Event.issue : Event → Option Issue
  | .doSpec => some .doSpec
  | .resolve => none
  | .resend => some .resend
  | .noCmp => some .noCmp

/-- The token of an event on `ctrl_history`. -/
def Event.history : Event → Option History
  | .doSpec => none
  | .resolve => some .resolve
  | .resend => some .resend
  | .noCmp => some .noCmp

/-- How many speculations wait for their outcome after an event: a RESOLVE answers
one, a RESEND refutes one and with it all later ones, and a NO_CMP comes when none
waits. -/
def follow : Nat → Event → Option Nat
  | waiting, .doSpec => some (waiting + 1)
  | waiting + 1, .resolve => some waiting
  | _ + 1, .resend => some 0
  | 0, .noCmp => some 0
  | _, _ => none

/-- The events, in order, are those a speculator emits. -/
def Legal (script : List Event) : Prop := script.foldlM follow 0 ≠ none

/-- The DO_SPECs since the last RESEND, on top of `count`. -/
def specsFrom (count : Nat) (issues : List Issue) : Nat :=
  issues.foldl
    (fun count token => match token with
      | .doSpec => count + 1
      | .resend => 0
      | .noCmp => count) count

/-- The RESOLVEs since the last RESEND, on top of `count`. -/
def resolvesFrom (count : Nat) (histories : List History) : Nat :=
  histories.foldl
    (fun count token => match token with
      | .resolve => count + 1
      | .resend => 0
      | .noCmp => count) count

/-- How many tokens of `ctrl_issue` have a counterpart on `ctrl_history`. -/
def pairedIssues (issues : List Issue) : Nat := issues.countP (· ≠ .doSpec)

/-- How many tokens of `ctrl_history` have a counterpart on `ctrl_issue`. -/
def pairedHistories (histories : List History) : Nat := histories.countP (· ≠ .resolve)

end Protocol

/-- A save-commit with at least one word of memory, what the memory holds at
power-up, and the inputs it is driven with from reset on. -/
structure Run (α : Type) where
  depth : Nat
  someWord : 0 < depth
  memory : Nat → α
  inputs : Nat → Input α

/-- The tokens kept, the data sent and the number of tokens released since reset or
the last RESEND. -/
structure Epoch (α : Type) where
  kept : List α
  sent : List α
  released : Nat

namespace Run

variable (run : Run α)

def stateAt (cycle : Nat) : State α :=
  (machine α run.depth).stateAt (reset run.memory) run.inputs cycle

def outputAt (cycle : Nat) : Driven α :=
  (machine α run.depth).outputAt (reset run.memory) run.inputs cycle

/-- How many tokens the unit can keep: one word of the memory stays free, unless it
is the only one. -/
def capacity : Nat := max (run.depth - 1) 1

/-- The token of `ctrl_issue` taken in a cycle. -/
def issueTaken (cycle : Nat) : Option Issue :=
  if (run.inputs cycle).issueValid && (run.outputAt cycle).issueReady then
    some (run.inputs cycle).issue
  else none

/-- The token of `ctrl_history` taken in a cycle. -/
def historyTaken (cycle : Nat) : Option History :=
  if (run.inputs cycle).historyValid && (run.outputAt cycle).historyReady then
    some (run.inputs cycle).history
  else none

/-- An input token is taken in a cycle, and not dropped as mis-speculated. -/
def keeps (cycle : Nat) : Bool :=
  (run.inputs cycle).insValid && insReady (run.stateAt cycle) (run.inputs cycle) &&
    !dropSpecIns (run.stateAt cycle) (run.inputs cycle)

/-- The data a cycle sends. -/
def sends (cycle : Nat) : Option α :=
  if (run.outputAt cycle).outsValid && (run.inputs cycle).outsReady then
    some (run.outputAt cycle).outs
  else none

/-- The account at the start of a cycle. -/
def epoch : Nat → Epoch α
  | 0 => ⟨[], [], 0⟩
  | cycle + 1 =>
      if run.issueTaken cycle = some .resend then ⟨[], [], 0⟩
      else
        { kept := (epoch cycle).kept ++ if run.keeps cycle then [(run.inputs cycle).ins] else []
          sent := (epoch cycle).sent ++
            if (run.issueTaken cycle).isSome then (run.sends cycle).toList else []
          released := (epoch cycle).released + (run.historyTaken cycle).isSome.toNat }

/-- The tokens of `ctrl_issue` taken before a cycle. -/
def issues : Nat → List Issue :=
  transfers (fun cycle => (run.inputs cycle).issueValid && (run.outputAt cycle).issueReady)
    (fun cycle => (run.inputs cycle).issue)

/-- The tokens of `ctrl_history` taken before a cycle. -/
def histories : Nat → List History :=
  transfers (fun cycle => (run.inputs cycle).historyValid && (run.outputAt cycle).historyReady)
    (fun cycle => (run.inputs cycle).history)

/-- Each control channel carries, in order, what a speculator emits; how far one is
behind the other is open. -/
def Follows : Prop :=
  ∀ cycle, ∃ script, Legal script ∧ run.issues cycle <+: script.filterMap Event.issue ∧
    run.histories cycle <+: script.filterMap Event.history

/-- No RESOLVE reaches a unit that takes it before its DO_SPEC does, and no
non-speculative token reaches a unit with room for it as it accepts a RESEND. -/
structure InOrder : Prop where
  resolved : ∀ cycle, doCmpCorrect (run.stateAt cycle) (run.inputs cycle) = true →
    resolvesFrom 0 (run.histories cycle) < specsFrom 0 (run.issues (cycle + 1))
  resent : ∀ cycle, resendAccept (run.inputs cycle) = true →
    ¬ ((run.inputs cycle).insValid = true ∧ (run.inputs cycle).insSpec = false ∧
      (run.stateAt cycle).full = false)

/-- The unit's contract over one run from reset. -/
structure Saves : Prop where
  /-- The k-th DO_SPEC or NO_CMP of an epoch sends the k-th kept token, and the
  oldest kept tokens are released, after they were sent. -/
  sent : ∀ cycle, (run.epoch cycle).sent <+: (run.epoch cycle).kept ∧
    (run.epoch cycle).released ≤ (run.epoch cycle).sent.length
  /-- Each control on `ctrl_issue` sends one token, and nothing else sends. -/
  once : ∀ cycle, (run.sends cycle).isSome = (run.issueTaken cycle).isSome
  /-- The memory holds the tokens that are not released. -/
  held : ∀ cycle, window run.depth (run.stateAt cycle).memory (run.stateAt cycle).head
      ((run.epoch cycle).kept.length - (run.epoch cycle).released) =
    (run.epoch cycle).kept.drop (run.epoch cycle).released
  /-- A RESEND sends the oldest token that was sent and not released. -/
  resent : ∀ cycle, run.issueTaken cycle = some .resend →
    run.historyTaken cycle = some .resend ∧
    (run.epoch cycle).released < (run.epoch cycle).sent.length ∧
    run.sends cycle = (run.epoch cycle).kept[(run.epoch cycle).released]?
  /-- No more tokens are kept than fit. -/
  bounded : ∀ cycle,
    (run.epoch cycle).kept.length - (run.epoch cycle).released ≤ run.capacity
  /-- The cycle that starts a new epoch takes no token it does not keep. -/
  notLost : ∀ cycle, run.issueTaken cycle = some .resend → run.keeps cycle = false

end Run

section Pointers

/-- The registers stand for the tokens `kept` in an epoch, of which `sent` have been
sent and `released` released: the pointers are these counts around the memory. -/
structure Pointers (depth : Nat) (state : State α) (kept : List α) (sent released : Nat) : Prop where
  headEq : state.head = released % depth
  currEq : state.curr = sent % depth
  tailEq : state.tail = kept.length % depth
  releasedLe : released ≤ sent
  sentLe : sent ≤ kept.length
  fits : kept.length - released ≤ max (depth - 1) 1
  fullEq : state.full = decide (kept.length - released = max (depth - 1) 1)
  emptyEq : state.empty = decide (kept.length = released)
  currEmptyEq : state.currEmpty = decide (kept.length = sent)
  words : window depth state.memory state.head (kept.length - released) = kept.drop released

variable {depth : Nat} {state : State α} {input : Input α} {kept : List α} {sent released : Nat}

theorem pointers_reset (memory : Nat → α) (recovery : Bool) :
    Pointers depth
      { reset memory with misspecRecoveryBit := recovery } [] 0 0 where
  headEq := by simp [reset]
  currEq := by simp [reset]
  tailEq := by simp [reset]
  releasedLe := Nat.le_refl _
  sentLe := Nat.le_refl _
  fits := by simp
  fullEq := by
    have positive : 0 < max (depth - 1) 1 := by omega
    simp [reset, Nat.ne_of_lt positive]
  emptyEq := rfl
  currEmptyEq := rfl
  words := rfl

/-- The word at a pointer that is `count` tokens into the epoch. -/
theorem Pointers.word (pointers : Pointers depth state kept sent released) {count : Nat}
    (unreleased : released ≤ count) (isKept : count < kept.length) :
    kept[count]? = some (state.memory (count % depth)) := by
  have shown : (window depth state.memory state.head (kept.length - released))[count - released]? =
      some (state.memory ((state.head + (count - released)) % depth)) :=
    getElem?_window (by omega)
  rw [pointers.words, List.getElem?_drop, pointers.headEq, Nat.mod_add_mod,
    show released + (count - released) = count by omega] at shown
  exact shown

/-- The pointers meet after `gap` more steps only if `gap` is none or all of the
slots. -/
private theorem meet_iff {count gap : Nat} (bounded : gap < depth) :
    (count + gap) % depth = count % depth ↔ gap = 0 :=
  slot_inj count bounded (by omega : 0 < depth)

theorem Pointers.full_meets (pointers : Pointers depth state kept sent released)
    (someWord : 0 < depth) (room : kept.length - released < max (depth - 1) 1) :
    (state.tail + 2) % depth = state.head ↔
      kept.length + 1 - released = max (depth - 1) 1 := by
  have sentLe := pointers.sentLe
  have releasedLe := pointers.releasedLe
  rw [pointers.tailEq, pointers.headEq, Nat.mod_add_mod,
    show kept.length + 2 = released + (kept.length - released + 2) by omega]
  rcases Nat.lt_or_ge 1 depth with wide | narrow
  · by_cases last : kept.length - released + 2 = depth
    · rw [last, Nat.add_mod_right]
      refine ⟨fun _ => by omega, fun _ => rfl⟩
    · rw [meet_iff (by omega)]
      omega
  · have single : depth = 1 := by omega
    subst single
    simp only [Nat.mod_one, true_iff]
    omega

private theorem advance (count : Nat) (enable : Bool) :
    (if enable then (count % depth + 1) % depth else count % depth) =
      (count + enable.toNat) % depth := by
  cases enable <;> simp

/-- Releasing the oldest token, if there is one, drops the first word. -/
theorem Pointers.release (pointers : Pointers depth state kept sent released) (release : Bool) :
    window depth state.memory ((released + release.toNat) % depth)
        (kept.length - (released + release.toNat)) =
      kept.drop (released + release.toNat) := by
  have words := pointers.words
  rw [pointers.headEq] at words
  cases release with
  | false => exact words
  | true =>
      rw [Bool.toNat_true]
      rcases Nat.lt_or_ge released kept.length with some | none
      · rw [show kept.length - released = kept.length - (released + 1) + 1 by omega, window_succ,
          Nat.mod_add_mod, List.drop_eq_getElem_cons some] at words
        exact (List.cons.inj words).2
      · rw [show kept.length - (released + 1) = 0 by omega, window_zero,
          List.drop_eq_nil_of_le (by omega)]

/-- Keeping a token appends it. -/
theorem Pointers.keep (pointers : Pointers depth state kept sent released) (value : α)
    {count : Nat} (bounded : count ≤ kept.length + 1) (fits : kept.length - count < depth)
    (words : window depth state.memory (count % depth) (kept.length - count) = kept.drop count) :
    window depth (Function.update state.memory state.tail value) (count % depth)
        (kept.length + 1 - count) =
      (kept ++ [value]).drop count := by
  rcases Nat.lt_or_ge kept.length count with beyond | inside
  · rw [show kept.length + 1 - count = 0 by omega, window_zero,
      List.drop_eq_nil_of_le (by simp; omega)]
  · rw [show kept.length + 1 - count = kept.length - count + 1 by omega,
      window_push value ?_ fits, words, List.drop_append_of_le_length inside]
    rw [pointers.tailEq, Nat.mod_add_mod, show count + (kept.length - count) = kept.length by omega]

/-- One clock edge that takes no RESEND, in terms of what the enables do to the
counts. -/
theorem pointers_next (pointers : Pointers depth state kept sent released) (someWord : 0 < depth)
    (stays : resendAccept input = false)
    (sendable : currEn state input = true → sent < kept.length + (tailEn state input).toNat)
    (releasable : headEn state input = true → released < sent + (currEn state input).toNat) :
    Pointers depth (next state input depth)
      (kept ++ if tailEn state input then [input.ins] else [])
      (sent + (currEn state input).toNat) (released + (headEn state input).toNat) := by
  have releasedLe := pointers.releasedLe
  have sentLe := pointers.sentLe
  have fits := pointers.fits
  have room : tailEn state input = true → kept.length - released < max (depth - 1) 1 := by
    intro written
    have open' : state.full = false := by
      simp only [tailEn, insReady, Bool.and_eq_true, Bool.or_eq_true, Bool.not_eq_true'] at written
      rcases written.1.2 with drops | open'
      · rw [written.2] at drops
        cases drops
      · exact open'
    rw [pointers.fullEq, decide_eq_false_iff_not] at open'
    omega
  have length : (kept ++ if tailEn state input then [input.ins] else []).length =
      kept.length + (tailEn state input).toNat := by
    cases tailEn state input <;> simp
  have sentLe' : sent + (currEn state input).toNat ≤ kept.length + (tailEn state input).toNat := by
    cases sends : currEn state input with
    | false => simpa using Nat.le_add_right_of_le sentLe
    | true => exact sendable sends
  have releasedLe' : released + (headEn state input).toNat ≤ sent + (currEn state input).toNat := by
    cases releases : headEn state input with
    | false => simpa using Nat.le_add_right_of_le releasedLe
    | true => exact releasable releases
  refine ⟨?_, ?_, ?_, releasedLe', by rw [length]; exact sentLe', ?_, ?_, ?_, ?_, ?_⟩
  · simp only [next, stays, Bool.false_eq_true, if_false, pointers.headEq]
    exact advance released _
  · simp only [next, stays, Bool.false_eq_true, if_false, pointers.currEq]
    exact advance sent _
  · simp only [next, stays, Bool.false_eq_true, if_false, pointers.tailEq, length]
    exact advance kept.length _
  · rw [length]
    cases written : tailEn state input with
    | false => simp only [Bool.toNat_false]; omega
    | true =>
        have space := room written
        simp only [Bool.toNat_true]
        omega
  · simp only [next, stays, Bool.false_eq_true, if_false, length]
    cases written : tailEn state input with
    | true =>
        have space := room written
        have notFull : state.full = false := by
          rw [pointers.fullEq, decide_eq_false_iff_not]
          omega
        cases headEn state input with
        | true => simp [pointers.fullEq]
        | false => simp [pointers.full_meets someWord space, notFull]
    | false =>
        cases releases : headEn state input with
        | true =>
            simp only [releases, written, Bool.toNat_true, Bool.toNat_false] at releasedLe' sentLe'
            have short : kept.length - (released + 1) ≠ max (depth - 1) 1 := by omega
            simp [short]
        | false => simp [pointers.fullEq]
  · simp only [next, stays, Bool.false_eq_true, if_false, length]
    cases written : tailEn state input with
    | true =>
        cases headEn state input with
        | true => simp [pointers.emptyEq]
        | false =>
            have some : ¬ kept.length + 1 = released := by omega
            simp [some]
    | false =>
        cases releases : headEn state input with
        | true =>
            simp only [releases, written, Bool.toNat_true, Bool.toNat_false] at releasedLe' sentLe'
            have some : ¬ kept.length = released := by omega
            have meets : (state.head + 1) % depth = state.tail ↔ kept.length = released + 1 := by
              rw [pointers.headEq, pointers.tailEq, Nat.mod_add_mod,
                show kept.length = released + 1 + (kept.length - (released + 1)) by omega, eq_comm,
                meet_iff (by omega)]
              omega
            simp [meets, pointers.emptyEq, some]
        | false => simp [pointers.emptyEq]
  · simp only [next, stays, Bool.false_eq_true, if_false, length]
    cases written : tailEn state input with
    | true =>
        cases currEn state input with
        | true => simp [pointers.currEmptyEq]
        | false =>
            have some : ¬ kept.length + 1 = sent := by omega
            simp [some]
    | false =>
        cases sends : currEn state input with
        | true =>
            simp only [sends, written, Bool.toNat_true, Bool.toNat_false] at sentLe'
            have some : ¬ kept.length = sent := by omega
            have meets : (state.curr + 1) % depth = state.tail ↔ kept.length = sent + 1 := by
              rw [pointers.currEq, pointers.tailEq, Nat.mod_add_mod,
                show kept.length = sent + 1 + (kept.length - (sent + 1)) by omega, eq_comm,
                meet_iff (by omega)]
              omega
            simp [meets, pointers.currEmptyEq, some]
        | false => simp [pointers.currEmptyEq]
  · have words := pointers.release (headEn state input)
    have head : (next state input depth).head =
        (released + (headEn state input).toNat) % depth := by
      simp only [next, stays, Bool.false_eq_true, if_false, pointers.headEq]
      exact advance released _
    rw [head, length]
    cases written : tailEn state input with
    | false => simpa [next, written] using words
    | true =>
        have space := room written
        simp only [next, written, if_true, Bool.toNat_true]
        exact pointers.keep input.ins (by rw [written] at sentLe'; exact releasedLe'.trans sentLe')
          (by omega) words

end Pointers

section Alignment

variable {issues : List Issue} {histories : List History} {issue : Issue} {history : History}

@[simp] theorem specsFrom_concat (count : Nat) (token : Issue) :
    specsFrom count (issues ++ [token]) =
      match token with
      | .doSpec => specsFrom count issues + 1
      | .resend => 0
      | .noCmp => specsFrom count issues := by
  simp [specsFrom]

@[simp] theorem resolvesFrom_concat (count : Nat) (token : History) :
    resolvesFrom count (histories ++ [token]) =
      match token with
      | .resolve => resolvesFrom count histories + 1
      | .resend => 0
      | .noCmp => resolvesFrom count histories := by
  simp [resolvesFrom]

/-- Once both channels have taken equally many paired tokens, the next paired tokens
are those of one event, and the channels have taken all that precedes it. -/
theorem paired_next {script : List Event} {waiting specs resolves : Nat}
    (legal : script.foldlM follow waiting ≠ none) (balance : specs = resolves + waiting)
    (issued : issues ++ [issue] <+: script.filterMap Event.issue)
    (recorded : histories ++ [history] <+: script.filterMap Event.history)
    (issuePaired : issue ≠ .doSpec) (historyPaired : history ≠ .resolve)
    (paired : pairedIssues issues = pairedHistories histories) :
    (issue = .resend ∧ resolvesFrom resolves histories < specsFrom specs issues) ∨
      (issue = .noCmp ∧ specsFrom specs issues = resolvesFrom resolves histories) := by
  induction script generalizing waiting specs resolves issues histories with
  | nil => simp at issued
  | cons event script inductionHypothesis =>
      cases event with
      | doSpec =>
          cases issues with
          | nil => simp_all [Event.issue]
          | cons token issues =>
              simp only [Event.issue, Event.history, List.filterMap_cons, List.cons_append,
                List.cons_prefix_cons] at issued recorded
              obtain ⟨rfl, issued⟩ := issued
              have later := inductionHypothesis
                (by simpa [follow] using legal : script.foldlM follow (waiting + 1) ≠ none)
                (by omega : specs + 1 = resolves + (waiting + 1)) issued recorded
                (by simpa [pairedIssues] using paired)
              exact later
      | resolve =>
          cases histories with
          | nil => simp_all [Event.history]
          | cons token histories =>
              simp only [Event.issue, Event.history, List.filterMap_cons, List.cons_append,
                List.cons_prefix_cons] at issued recorded
              obtain ⟨rfl, recorded⟩ := recorded
              cases waiting with
              | zero => simp [follow] at legal
              | succ waiting =>
                  have later := inductionHypothesis
                    (by simpa [follow] using legal : script.foldlM follow waiting ≠ none)
                    (by omega : specs = resolves + 1 + waiting) issued recorded
                    (by simpa [pairedHistories] using paired)
                  exact later
      | resend =>
          cases waiting with
          | zero => simp [follow] at legal
          | succ waiting =>
              cases issues with
              | nil =>
                  cases histories with
                  | nil =>
                      left
                      simp_all [Event.issue, specsFrom, resolvesFrom]
                  | cons token histories =>
                      simp only [Event.history, List.filterMap_cons, List.cons_append,
                        List.cons_prefix_cons] at recorded
                      obtain ⟨rfl, -⟩ := recorded
                      simp [pairedIssues, pairedHistories] at paired
              | cons token issues =>
                  cases histories with
                  | nil =>
                      simp only [Event.issue, List.filterMap_cons, List.cons_append,
                        List.cons_prefix_cons] at issued
                      obtain ⟨rfl, -⟩ := issued
                      simp [pairedIssues, pairedHistories] at paired
                  | cons other histories =>
                      simp only [Event.issue, Event.history, List.filterMap_cons, List.cons_append,
                        List.cons_prefix_cons] at issued recorded
                      obtain ⟨rfl, issued⟩ := issued
                      obtain ⟨rfl, recorded⟩ := recorded
                      have later := inductionHypothesis
                        (by simpa [follow] using legal : script.foldlM follow 0 ≠ none)
                        (rfl : 0 = 0 + 0) issued recorded
                        (by simpa [pairedIssues, pairedHistories] using paired)
                      exact later
      | noCmp =>
          cases waiting with
          | succ waiting => simp [follow] at legal
          | zero =>
              cases issues with
              | nil =>
                  cases histories with
                  | nil =>
                      right
                      simp_all [Event.issue, specsFrom, resolvesFrom]
                  | cons token histories =>
                      simp only [Event.history, List.filterMap_cons, List.cons_append,
                        List.cons_prefix_cons] at recorded
                      obtain ⟨rfl, -⟩ := recorded
                      simp [pairedIssues, pairedHistories] at paired
              | cons token issues =>
                  cases histories with
                  | nil =>
                      simp only [Event.issue, List.filterMap_cons, List.cons_append,
                        List.cons_prefix_cons] at issued
                      obtain ⟨rfl, -⟩ := issued
                      simp [pairedIssues, pairedHistories] at paired
                  | cons other histories =>
                      simp only [Event.issue, Event.history, List.filterMap_cons, List.cons_append,
                        List.cons_prefix_cons] at issued recorded
                      obtain ⟨rfl, issued⟩ := issued
                      obtain ⟨rfl, recorded⟩ := recorded
                      have later := inductionHypothesis
                        (by simpa [follow] using legal : script.foldlM follow 0 ≠ none) balance
                        issued recorded (by simpa [pairedIssues, pairedHistories] using paired)
                      exact later

end Alignment

section Cycle

variable (state : State α) (input : Input α)

/-- There is a token to speculate on. -/
def canSpec : Bool := !state.currEmpty || (input.insValid && !state.full)

/-- There is a token to send without comparison. -/
def canNoCmp : Bool := !state.empty || input.insValid

theorem headEn_eq : headEn state input =
    if doNoCmp state input && canNoCmp state input then input.outsReady
    else doCmpCorrect state input := by
  simp only [headEn, driven, apply_ite Driven.headEn, ite_self, canNoCmp]
  grind

theorem currEn_eq : currEn state input =
    if doNoCmp state input && canNoCmp state input then input.outsReady
    else doSpec state input && canSpec state input && input.outsReady := by
  simp only [currEn, driven, apply_ite Driven.currEn, ite_self, canNoCmp, canSpec]
  grind

theorem issueReady_eq : (driven state input).issueReady =
    if doNoCmp state input && canNoCmp state input || doResend input then input.outsReady
    else doSpec state input && canSpec state input && input.outsReady := by
  simp only [driven, apply_ite Driven.issueReady, ite_self, canNoCmp, canSpec]
  grind

theorem historyReady_eq : (driven state input).historyReady =
    if doNoCmp state input && canNoCmp state input || doResend input then input.outsReady
    else doCmpCorrect state input := by
  simp only [driven, apply_ite Driven.historyReady, ite_self, canNoCmp]
  grind

theorem outsValid_eq : (driven state input).outsValid =
    (doNoCmp state input && canNoCmp state input || doResend input || doSpec state input && canSpec state input) := by
  simp only [driven, apply_ite Driven.outsValid, ite_self, canNoCmp, canSpec]
  grind

theorem outs_eq : (driven state input).outs =
    if doNoCmp state input && canNoCmp state input then
      if state.empty then input.ins else state.memory state.head
    else if doResend input then state.memory state.head 
    else if doSpec state input && canSpec state input then if state.currEmpty then input.ins else state.memory state.curr
    else state.memory state.head := by
  simp only [driven, apply_ite Driven.outs, ite_self, canNoCmp, canSpec]
  grind

/-- What a cycle does for `ctrl_issue`. -/
theorem issue_cases :
    (input.issueValid && (driven state input).issueReady) = false ∧
        ((driven state input).outsValid && input.outsReady) = false ∧
        currEn state input = false ∧ resendAccept input = false ∨
      (input.issueValid && (driven state input).issueReady) = true ∧
        ((driven state input).outsValid && input.outsReady) = true ∧
        (resendAccept input = true ∧ input.issue = .resend ∧
            (driven state input).outs = state.memory state.head ∨
          resendAccept input = false ∧ currEn state input = true ∧
            (input.issue = .doSpec ∧
                (state.currEmpty = true → tailEn state input = true) ∧
                (driven state input).outs =
                  (if state.currEmpty then input.ins else state.memory state.curr) ∨
              input.issue = .noCmp ∧
                (state.empty = true → state.full = false → tailEn state input = true) ∧
                (driven state input).outs =
                  if state.empty then input.ins else state.memory state.head)) := by
  simp only [issueReady_eq, outsValid_eq, currEn_eq, outs_eq, tailEn, insReady, dropSpecIns,
    resendAccept, doSpec, doResend, doNoCmp, canSpec, canNoCmp, noUnkilledMispreds, leavingRecovery]
  obtain ⟨ins, insValid, insSpec, issue, issueValid, history, historyValid, outsReady⟩ := input
  cases issue <;> cases history <;> grind

/-- What a cycle does for `ctrl_history`: a RESEND and a NO_CMP are taken with their
counterparts on `ctrl_issue`. -/
theorem history_cases :
    (input.historyValid && (driven state input).historyReady) = false ∧
        headEn state input = false ∧ doCmpCorrect state input = false ∧
        ((input.issueValid && (driven state input).issueReady) = true → input.issue = .doSpec) ∨
      (input.historyValid && (driven state input).historyReady) = true ∧
        (input.history = .resolve ∧ headEn state input = true ∧ doCmpCorrect state input = true ∧
            ((input.issueValid && (driven state input).issueReady) = true → input.issue = .doSpec) ∨
          (input.issueValid && (driven state input).issueReady) = true ∧
            doCmpCorrect state input = false ∧
            (input.history = .noCmp ∧ input.issue = .noCmp ∧ headEn state input = true ∨
              input.history = .resend ∧ input.issue = .resend)) := by
  simp only [historyReady_eq, issueReady_eq, headEn_eq, doSpec, doCmpCorrect, doResend, doNoCmp,
    canSpec, canNoCmp]
  obtain ⟨ins, insValid, insSpec, issue, issueValid, history, historyValid, outsReady⟩ := input
  cases issue <;> cases history <;> grind

end Cycle

namespace Run

variable (run : Run α) (cycle : Nat)

/-- What the unit can do in a cycle: a RESEND or a NO_CMP, taken from both channels at
once, or what each channel asks for on its own. -/
theorem cycle_cases {state : State α} {input : Input α} (here : run.stateAt cycle = state)
    (driving : run.inputs cycle = input) :
    (resendAccept input = true ∧ run.issueTaken cycle = some .resend ∧
        run.historyTaken cycle = some .resend ∧
        run.sends cycle = some (state.memory state.head) ∧ doCmpCorrect state input = false) ∨
      (resendAccept input = false ∧ run.issueTaken cycle = some .noCmp ∧
        run.historyTaken cycle = some .noCmp ∧ currEn state input = true ∧
        headEn state input = true ∧
        (state.empty = true → state.full = false → tailEn state input = true) ∧
        run.sends cycle = some (if state.empty then input.ins else state.memory state.head) ∧
        doCmpCorrect state input = false) ∨
      (resendAccept input = false ∧
        (run.issueTaken cycle = none ∧ run.sends cycle = none ∧ currEn state input = false ∨
          run.issueTaken cycle = some .doSpec ∧ currEn state input = true ∧
            (state.currEmpty = true → tailEn state input = true) ∧
            run.sends cycle =
              some (if state.currEmpty then input.ins else state.memory state.curr)) ∧
        (run.historyTaken cycle = none ∧ headEn state input = false ∧
            doCmpCorrect state input = false ∨
          run.historyTaken cycle = some .resolve ∧ headEn state input = true ∧
            doCmpCorrect state input = true)) := by
  have output : run.outputAt cycle = driven state input := by rw [← here, ← driving]; rfl
  have issues := issue_cases state input
  have histories := history_cases state input
  simp only [issueTaken, historyTaken, sends, output, driving]
  rcases issues with ⟨idle, silent, still, stays⟩ |
    ⟨taken, sent, ⟨accepts, token, outs⟩ | ⟨stays, moves, ⟨token, bypass, outs⟩ |
      ⟨token, bypass, outs⟩⟩⟩ <;>
    rcases histories with ⟨waits, holds, unresolved, spec⟩ |
      ⟨recorded, ⟨other, releases, resolved, spec⟩ | ⟨paired, unresolved, ⟨other, same, releases⟩ |
        ⟨other, same⟩⟩⟩ <;>
    simp_all

variable {run cycle}

theorem stateAt_succ :
    run.stateAt (cycle + 1) = next (run.stateAt cycle) (run.inputs cycle) run.depth := rfl

theorem keeps_eq : run.keeps cycle = tailEn (run.stateAt cycle) (run.inputs cycle) := rfl

theorem issues_succ : run.issues (cycle + 1) = run.issues cycle ++ (run.issueTaken cycle).toList := by
  rw [issues, transfers_succ, issueTaken]
  split <;> rfl

theorem histories_succ :
    run.histories (cycle + 1) = run.histories cycle ++ (run.historyTaken cycle).toList := by
  rw [histories, transfers_succ, historyTaken]
  split <;> rfl

/-- What a RESEND does, read off its token. -/
theorem resend_taken (issued : run.issueTaken cycle = some .resend) :
    resendAccept (run.inputs cycle) = true ∧ run.historyTaken cycle = some .resend ∧
      run.sends cycle = some ((run.stateAt cycle).memory (run.stateAt cycle).head) := by
  rcases run.cycle_cases cycle rfl rfl with ⟨accepts, -, recorded, sends, -⟩ | ⟨-, other, -⟩ |
    ⟨-, ⟨other, -⟩ | ⟨other, -⟩, -⟩
  · exact ⟨accepts, recorded, sends⟩
  · rw [issued] at other
    cases other
  · rw [issued] at other
    cases other
  · rw [issued] at other
    cases other

theorem issueTaken_of_accepts (accepts : resendAccept (run.inputs cycle) = true) :
    run.issueTaken cycle = some .resend := by
  rcases run.cycle_cases cycle rfl rfl with ⟨-, issued, -⟩ | ⟨stays, -⟩ | ⟨stays, -⟩
  · exact issued
  · rw [accepts] at stays
    cases stays
  · rw [accepts] at stays
    cases stays

theorem historyTaken_of_correct
    (correct : doCmpCorrect (run.stateAt cycle) (run.inputs cycle) = true) :
    run.historyTaken cycle = some .resolve := by
  rcases run.cycle_cases cycle rfl rfl with ⟨-, -, -, -, other⟩ |
    ⟨-, -, -, -, -, -, -, other⟩ | ⟨-, -, ⟨-, -, other⟩ | ⟨recorded, -⟩⟩
  · rw [correct] at other
    cases other
  · rw [correct] at other
    cases other
  · rw [correct] at other
    cases other
  · exact recorded

theorem epoch_succ_of_resend (resends : run.issueTaken cycle = some .resend) :
    run.epoch (cycle + 1) = ⟨[], [], 0⟩ := by
  rw [epoch, if_pos resends]

theorem epoch_succ (stays : run.issueTaken cycle ≠ some .resend) :
    run.epoch (cycle + 1) =
      { kept := (run.epoch cycle).kept ++ if run.keeps cycle then [(run.inputs cycle).ins] else []
        sent := (run.epoch cycle).sent ++
          if (run.issueTaken cycle).isSome then (run.sends cycle).toList else []
        released := (run.epoch cycle).released + (run.historyTaken cycle).isSome.toNat } := by
  rw [epoch, if_neg stays]

/-- The channels take their paired tokens together, and the controls taken account for
the tokens sent and released. -/
theorem balanced (run : Run α) (cycle : Nat) :
    pairedIssues (run.issues cycle) = pairedHistories (run.histories cycle) ∧
      (run.epoch cycle).sent.length + resolvesFrom 0 (run.histories cycle) =
        (run.epoch cycle).released + specsFrom 0 (run.issues cycle) := by
  induction cycle with
  | zero => exact ⟨rfl, rfl⟩
  | succ cycle inductionHypothesis =>
      obtain ⟨paired, balance⟩ := inductionHypothesis
      rw [issues_succ, histories_succ]
      rcases run.cycle_cases cycle rfl rfl with ⟨-, issued, recorded, -⟩ |
        ⟨-, issued, recorded, -, -, -, sends, -⟩ |
        ⟨-, ⟨issued, sends, -⟩ | ⟨issued, -, -, sends⟩, ⟨recorded, -⟩ | ⟨recorded, -⟩⟩
      · rw [epoch_succ_of_resend issued]
        simpa [issued, recorded, pairedIssues, pairedHistories] using paired
      all_goals
        rw [epoch_succ (by simp [issued])]
        simp only [issued, recorded, sends, Option.toList, Option.isSome, List.append_nil,
          specsFrom_concat, resolvesFrom_concat, List.length_append]
        refine ⟨by simpa [pairedIssues, pairedHistories] using paired, ?_⟩
        simp only [if_true, List.length_singleton, Bool.false_eq_true, if_false, List.length_nil,
          Bool.toNat_true, Bool.toNat_false]
        omega

/-- A NO_CMP comes when all that was sent is released, and a RESEND when some of it is
not. -/
theorem paired_taken (follows : run.Follows) {issue : Issue} {history : History}
    (issued : run.issueTaken cycle = some issue) (recorded : run.historyTaken cycle = some history)
    (issuePaired : issue ≠ .doSpec) (historyPaired : history ≠ .resolve) :
    (issue = .resend ∧ (run.epoch cycle).released < (run.epoch cycle).sent.length) ∨
      (issue = .noCmp ∧ (run.epoch cycle).released = (run.epoch cycle).sent.length) := by
  obtain ⟨paired, balance⟩ := run.balanced cycle
  obtain ⟨script, legal, issuePrefix, historyPrefix⟩ := follows (cycle + 1)
  rw [issues_succ, issued] at issuePrefix
  rw [histories_succ, recorded] at historyPrefix
  rcases paired_next legal (rfl : 0 = 0 + 0) issuePrefix historyPrefix issuePaired
    historyPaired paired with ⟨token, waits⟩ | ⟨token, answered⟩
  · exact .inl ⟨token, by omega⟩
  · exact .inr ⟨token, by omega⟩

private theorem prefix_concat {sent kept : List α} {value : α} (before : sent <+: kept)
    (found : kept[sent.length]? = some value) : sent ++ [value] <+: kept := by
  obtain ⟨rest, rfl⟩ := before
  cases rest with
  | nil => simp at found
  | cons first rest =>
      obtain rfl : first = value := by simpa using found
      exact ⟨rest, by simp⟩

/-- The token at a pointer, or the one that arrives when nothing is there, is the next
kept token. -/
private theorem kept_at {depth count sent released : Nat} {state : State α} {input : Input α}
    {kept : List α} {isEmpty : Bool} (pointers : Pointers depth state kept sent released)
    (unreleased : released ≤ count) (bounded : count ≤ kept.length)
    (emptyEq : isEmpty = decide (kept.length = count))
    (bypass : isEmpty = true → tailEn state input = true) :
    (kept ++ if tailEn state input then [input.ins] else [])[count]? =
      some (if isEmpty then input.ins else state.memory (count % depth)) := by
  cases isEmpty with
  | true =>
      have reached : kept.length = count := of_decide_eq_true emptyEq.symm
      simp [bypass rfl, ← reached]
  | false =>
      have more : ¬ kept.length = count := of_decide_eq_false emptyEq.symm
      rw [List.getElem?_append_left (by omega), pointers.word unreleased (by omega)]
      rfl

/-- The registers stand for the epoch. -/
structure Tracks (run : Run α) (cycle : Nat) : Prop where
  pointers : Pointers run.depth (run.stateAt cycle) (run.epoch cycle).kept
    (run.epoch cycle).sent.length (run.epoch cycle).released
  sent : (run.epoch cycle).sent <+: (run.epoch cycle).kept

theorem tracks_zero : run.Tracks 0 := ⟨pointers_reset run.memory false, List.prefix_rfl⟩

theorem tracks_succ_of_resend (accepts : resendAccept (run.inputs cycle) = true)
    (issued : run.issueTaken cycle = some .resend) : run.Tracks (cycle + 1) := by
  have cleared : run.stateAt (cycle + 1) =
      { reset (run.stateAt (cycle + 1)).memory with misspecRecoveryBit := true } := by
    simp [stateAt_succ, next, accepts, reset]
  refine ⟨?_, by rw [epoch_succ_of_resend issued]⟩
  rw [epoch_succ_of_resend issued, cleared]
  exact pointers_reset _ _

/-- A cycle without a RESEND keeps the account, if it sends the next kept token and
releases a token that was sent. -/
theorem Tracks.next (tracks : run.Tracks cycle) {state : State α} {input : Input α}
    (here : run.stateAt cycle = state) (driving : run.inputs cycle = input)
    (stays : resendAccept input = false) (notResend : run.issueTaken cycle ≠ some .resend)
    (issued : (run.issueTaken cycle).isSome = currEn state input)
    (recorded : (run.historyTaken cycle).isSome = headEn state input)
    (sends : currEn state input = true → ∃ value, run.sends cycle = some value ∧
      ((run.epoch cycle).kept ++ if tailEn state input then [input.ins] else [])[
        (run.epoch cycle).sent.length]? = some value)
    (releasable : headEn state input = true →
      (run.epoch cycle).released < (run.epoch cycle).sent.length + (currEn state input).toNat) :
    run.Tracks (cycle + 1) := by
  obtain ⟨pointers, sentPrefix⟩ := tracks
  have epoch := epoch_succ notResend
  rw [keeps_eq, issued, recorded, here, driving] at epoch
  rw [here] at pointers
  have sendable : currEn state input = true →
      (run.epoch cycle).sent.length <
        (run.epoch cycle).kept.length + (tailEn state input).toNat := by
    intro moves
    obtain ⟨value, -, found⟩ := sends moves
    have bound := (List.getElem?_eq_some_iff.mp found).1
    cases written : tailEn state input <;> simpa [written] using bound
  have step := pointers_next pointers run.someWord stays sendable releasable
  constructor
  · rw [epoch, stateAt_succ, here, driving]
    have length : ((run.epoch cycle).sent ++
        if currEn state input then (run.sends cycle).toList else []).length =
          (run.epoch cycle).sent.length + (currEn state input).toNat := by
      cases moves : currEn state input with
      | false => simp
      | true =>
          obtain ⟨value, sent, -⟩ := sends moves
          simp [sent]
    rw [length]
    exact step
  · rw [epoch]
    cases moves : currEn state input with
    | false => simpa using sentPrefix.trans (List.prefix_append _ _)
    | true =>
        obtain ⟨value, sent, found⟩ := sends moves
        simp only [sent, if_true, Option.toList]
        exact prefix_concat (sentPrefix.trans (List.prefix_append _ _)) found

theorem Tracks.succ (tracks : run.Tracks cycle) (follows : run.Follows) (inOrder : run.InOrder) :
    run.Tracks (cycle + 1) := by
  have pointers := tracks.pointers
  have balance := (run.balanced cycle).2
  rcases run.cycle_cases cycle rfl rfl with ⟨accepts, issued, recorded, -⟩ |
    ⟨stays, issued, recorded, moves, releases, bypass, sends, -⟩ |
    ⟨stays, spec, history⟩
  · exact tracks_succ_of_resend accepts issued
  · have answered : (run.epoch cycle).released = (run.epoch cycle).sent.length := by
      simpa using paired_taken follows issued recorded (by simp) (by simp)
    refine tracks.next rfl rfl stays (by simp [issued]) (by simp [issued, moves])
      (by simp [recorded, releases]) (fun _ => ⟨_, sends, ?_⟩) (fun _ => by simp [moves, answered])
    rw [pointers.headEq, answered]
    refine kept_at pointers (by omega) pointers.sentLe (by rw [pointers.emptyEq, answered]) ?_
    intro empty
    refine bypass empty ?_
    have reached : (run.epoch cycle).kept.length = (run.epoch cycle).released := by
      simpa [pointers.emptyEq] using empty
    rw [pointers.fullEq, decide_eq_false_iff_not]
    omega
  · have specs : specsFrom 0 (run.issues (cycle + 1)) = specsFrom 0 (run.issues cycle) +
        (currEn (run.stateAt cycle) (run.inputs cycle)).toNat := by
      rw [issues_succ]
      rcases spec with ⟨issued, -, still⟩ | ⟨issued, moves, -⟩
      · simp [issued, still]
      · simp [issued, moves]
    refine tracks.next rfl rfl stays ?_ ?_ ?_ ?_ ?_
    · rcases spec with ⟨issued, -⟩ | ⟨issued, -⟩ <;> simp [issued]
    · rcases spec with ⟨issued, -, still⟩ | ⟨issued, moves, -⟩
      · simp [issued, still]
      · simp [issued, moves]
    · rcases history with ⟨recorded, holds, -⟩ | ⟨recorded, releases, -⟩
      · simp [recorded, holds]
      · simp [recorded, releases]
    · intro moves
      rcases spec with ⟨-, -, still⟩ | ⟨-, -, bypass, sends⟩
      · simp [still] at moves
      · refine ⟨_, sends, ?_⟩
        rw [pointers.currEq]
        exact kept_at pointers pointers.releasedLe pointers.sentLe pointers.currEmptyEq bypass
    · intro releases
      rcases history with ⟨-, holds, -⟩ | ⟨-, -, correct⟩
      · simp [holds] at releases
      · have resolved := inOrder.resolved cycle correct
        omega

theorem tracks (follows : run.Follows) (inOrder : run.InOrder) (cycle : Nat) :
    run.Tracks cycle := by
  induction cycle with
  | zero => exact tracks_zero
  | succ cycle inductionHypothesis => exact inductionHypothesis.succ follows inOrder

/-- A run whose registers stand for the epochs meets the contract, if no token comes
with a RESEND. -/
theorem saves_of_tracks (follows : run.Follows) (tracks : ∀ cycle, run.Tracks cycle)
    (resent : ∀ cycle, run.issueTaken cycle = some .resend → run.keeps cycle = false) :
    run.Saves where
  sent cycle := ⟨(tracks cycle).sent, (tracks cycle).pointers.releasedLe⟩
  once cycle := by
    rcases run.cycle_cases cycle rfl rfl with ⟨-, issued, -, sends, -⟩ |
      ⟨-, issued, -, -, -, -, sends, -⟩ | ⟨-, ⟨issued, sends, -⟩ | ⟨issued, -, -, sends⟩, -⟩ <;>
    simp [issued, sends]
  held cycle := (tracks cycle).pointers.words
  resent cycle issued := by
    obtain ⟨-, recorded, sends⟩ := resend_taken issued
    have pointers := (tracks cycle).pointers
    have sentLe := pointers.sentLe
    have unreleased : (run.epoch cycle).released < (run.epoch cycle).sent.length := by
      simpa using paired_taken follows issued recorded (by simp) (by simp)
    refine ⟨recorded, unreleased, ?_⟩
    rw [sends, pointers.word (Nat.le_refl _) (by omega), pointers.headEq]
  bounded cycle := (tracks cycle).pointers.fits
  notLost := resent

/-- Over a run driven by a speculator, the save-commit meets its contract exactly when
no RESOLVE overtakes its DO_SPEC and no RESEND is accepted as a non-speculative token
comes. -/
theorem saves_iff_inOrder (run : Run α) (follows : run.Follows) : run.Saves ↔ run.InOrder := by
  constructor
  · intro saves
    refine ⟨fun cycle correct => ?_, fun cycle accepts ⟨valid, nonSpec, notFull⟩ => ?_⟩
    · have balance := (run.balanced (cycle + 1)).2
      have released := (saves.sent (cycle + 1)).2
      rw [histories_succ, historyTaken_of_correct correct, Option.toList, resolvesFrom_concat]
        at balance
      simp only at balance
      omega
    · have lost := saves.notLost cycle (issueTaken_of_accepts accepts)
      simp [keeps, valid, insReady, dropSpecIns, nonSpec, notFull] at lost
  · intro inOrder
    refine saves_of_tracks follows (tracks follows inOrder) fun cycle issued => ?_
    have accepts := (resend_taken issued).1
    have resends : doResend (run.inputs cycle) = true := (Bool.and_eq_true _ _ ▸ accepts).1
    have calm := inOrder.resent cycle accepts
    cases kept : run.keeps cycle with
    | false => rfl
    | true =>
        simp only [keeps, insReady, dropSpecIns, resends, Bool.true_or, Bool.true_and,
          Bool.and_eq_true, Bool.not_eq_true', Bool.or_eq_true] at kept
        exact absurd ⟨kept.1.1, kept.2, by simpa [kept.2] using kept.1.2⟩ calm

/-- A run whose control channels fall silent follows any script that covers what they
carried. -/
theorem follows_of_silent (last : Nat) (script : List Event) (legal : Legal script)
    (silent : ∀ cycle, last ≤ cycle →
      (run.inputs cycle).issueValid = false ∧ (run.inputs cycle).historyValid = false)
    (issued : run.issues last <+: script.filterMap Event.issue)
    (recorded : run.histories last <+: script.filterMap Event.history) : run.Follows := by
  intro cycle
  refine ⟨script, legal, ?_⟩
  rcases Nat.le_total cycle last with before | after
  · exact ⟨(transfers_grows before).trans issued, (transfers_grows before).trans recorded⟩
  · induction after with
    | refl => exact ⟨issued, recorded⟩
    | @step cycle after inductionHypothesis =>
        obtain ⟨issueIdle, historyIdle⟩ := silent cycle after
        rw [issues_succ, histories_succ]
        simpa [issueTaken, historyTaken, issueIdle, historyIdle] using inductionHypothesis

/-- A DO_SPEC that sends the token of its own cycle, and its RESOLVE in the next. -/
def confirmed : Run Nat where
  depth := 2
  someWord := by decide
  memory _ := 0
  inputs
    | 0 => ⟨5, true, false, .doSpec, true, .noCmp, false, true⟩
    | 1 => ⟨0, false, false, .noCmp, false, .resolve, true, true⟩
    | _ => ⟨0, false, false, .noCmp, false, .noCmp, false, true⟩

theorem confirmed_follows : confirmed.Follows := by
  refine follows_of_silent 2 [.doSpec, .resolve] (by simp [Legal, follow])
    ?_ (by decide) (by decide)
  rintro (_ | _ | cycle) after
  · omega
  · omega
  · exact ⟨rfl, rfl⟩

theorem confirmed_inOrder : confirmed.InOrder := by
  constructor
  · rintro (_ | _ | cycle) correct
    · exact absurd correct (by decide)
    · decide
    · simp [doCmpCorrect, confirmed] at correct
  · rintro (_ | _ | cycle) accepts
    · exact absurd accepts (by decide)
    · exact absurd accepts (by decide)
    · simp [resendAccept, doResend, confirmed] at accepts

theorem confirmed_saves :
    confirmed.Follows ∧ (confirmed.Saves ↔ confirmed.InOrder) ∧ confirmed.InOrder ∧
      (confirmed.epoch 2).sent = [5] ∧ (confirmed.epoch 2).released = 1 :=
  ⟨confirmed_follows, saves_iff_inOrder confirmed confirmed_follows, confirmed_inOrder, by decide,
    by decide⟩

/-- A RESOLVE that is there before its DO_SPEC. -/
def overtaken : Run Nat where
  depth := 2
  someWord := by decide
  memory _ := 0
  inputs
    | 0 => ⟨0, false, false, .noCmp, false, .resolve, true, true⟩
    | 1 => ⟨5, true, false, .doSpec, true, .noCmp, false, true⟩
    | _ => ⟨0, false, false, .noCmp, false, .noCmp, false, true⟩

/-- A RESEND that is accepted as the next non-speculative token comes. -/
def clobbered : Run Nat where
  depth := 3
  someWord := by decide
  memory _ := 0
  inputs
    | 0 => ⟨5, true, false, .doSpec, true, .noCmp, false, true⟩
    | 1 => ⟨6, true, false, .resend, true, .resend, true, true⟩
    | _ => ⟨0, false, false, .noCmp, false, .noCmp, false, true⟩

/-- The RESOLVE releases a token before anything was sent, and the unit does not know the
token it then sends to be released; the token that comes with the RESEND is taken and
forgotten. -/
theorem overtaken_and_clobbered_not_saved :
    (overtaken.Follows ∧ (overtaken.epoch 1).sent = [] ∧ (overtaken.epoch 1).released = 1 ∧
        ¬ overtaken.Saves) ∧
      (clobbered.Follows ∧ clobbered.keeps 1 = true ∧ (clobbered.epoch 2).kept = [] ∧
        ¬ clobbered.Saves) := by
  refine ⟨⟨?_, by decide, by decide, fun saves => ?_⟩,
    ⟨?_, by decide, by decide, fun saves => ?_⟩⟩
  · refine follows_of_silent 2 [.doSpec, .resolve] (by simp [Legal, follow])
      ?_ (by decide) (by decide)
    rintro (_ | _ | cycle) after
    · omega
    · omega
    · exact ⟨rfl, rfl⟩
  · exact absurd (saves.sent 1).2 (by decide)
  · refine follows_of_silent 2 [.doSpec, .resend] (by simp [Legal, follow])
      ?_ (by decide) (by decide)
    rintro (_ | _ | cycle) after
    · omega
    · omega
    · exact ⟨rfl, rfl⟩
  · exact absurd (saves.notLost 1 (by decide)) (by decide)

end Run

end Dynamatic.Speculation.SaveCommit
