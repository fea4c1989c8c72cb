import Mathlib.Data.List.FinRange
import Dynamatic.Clocked.Machine

/-!
# The elastic `stand_in` unit

A stand-in passes its producer's token on, and answers zero for a round that a
commit ended before the token came. A kill ends the open round; two registers
remember whether the open round's token has passed and whether a zero is owed for
the round before. The signals are those of `stand_in.v`.
-/

namespace Dynamatic.Handshake.StandIn

open Dynamatic.Clocked

variable {size dataType : Nat}

/-- What the unit reads in a cycle: its input channel, one kill of each commit of
the producer's domain, and the ready of its output channel. -/
structure Input (size dataType : Nat) where
  ins : BitVec dataType
  insValid : Bool
  kill : Fin size → Bool
  outsReady : Bool

structure State where
  sent : Bool
  owe : Bool
deriving DecidableEq

structure Output (dataType : Nat) where
  outs : BitVec dataType
  outsValid : Bool
  insReady : Bool

def State.reset : State := { sent := false, owe := false }

/-- The producer's token goes through this cycle. -/
def passed (state : State) (input : Input size dataType) : Bool :=
  input.insValid && input.outsReady && !state.owe

/-- One round ends, whichever commit ends it. -/
def killAny (input : Input size dataType) : Bool := (List.finRange size).any input.kill

def machine : Machine State (Input size dataType) (Output dataType) where
  next state input :=
    { sent := if killAny input then false else state.sent || passed state input
      owe := killAny input && !(state.sent || passed state input) || state.owe && !input.outsReady }
  output state input :=
    { outs := if state.owe then 0 else input.ins
      outsValid := state.owe || input.insValid
      insReady := input.outsReady && !state.owe }

section Run

variable (inputs : Nat → Input size dataType)

def stateAt (cycle : Nat) : State := machine.stateAt .reset inputs cycle

def outputAt (cycle : Nat) : Output dataType := machine.outputAt .reset inputs cycle

/-- The producer's channel transfers. -/
def gives (cycle : Nat) : Bool := (inputs cycle).insValid && (outputAt inputs cycle).insReady

/-- The consumer's channel transfers. -/
def takes (cycle : Nat) : Bool := (outputAt inputs cycle).outsValid && (inputs cycle).outsReady

/-- The tokens the consumer has received before a cycle. -/
def received (cycle : Nat) : List (BitVec dataType) :=
  transfers (takes inputs) (fun earlier => (outputAt inputs earlier).outs) cycle

/-- How many rounds have ended before a cycle, which is also the number of the open one. -/
def round : Nat → Nat
  | 0 => 0
  | cycle + 1 => round cycle + (killAny (inputs cycle)).toNat

/-- The kills that arrive in a cycle. -/
def killCount (cycle : Nat) : Nat := (List.finRange size).countP (inputs cycle).kill

/-- The kills that have arrived before a cycle. -/
def kills : Nat → Nat
  | 0 => 0
  | cycle + 1 => kills cycle + killCount inputs cycle

/-- The kills that have arrived in one round. -/
def killsOf (number : Nat) : Nat → Nat
  | 0 => 0
  | cycle + 1 => killsOf number cycle + if round inputs cycle = number then killCount inputs cycle else 0

/-- The tokens the producer has given in one round. -/
def tokensOf (number cycle : Nat) : List (BitVec dataType) :=
  transfers (fun earlier => gives inputs earlier && decide (round inputs earlier = number))
    (fun earlier => (inputs earlier).ins) cycle

/-- What the consumer is to receive for a round: the producer's token if it came, or else
zero. -/
def answer (number cycle : Nat) : BitVec dataType := (tokensOf inputs number cycle).headD 0

/-- The producer gives at most one token in a round, at most one kill ends it, and none
comes while a token is offered and not taken. -/
structure Promise : Prop where
  oneToken : ∀ number cycle, (tokensOf inputs number cycle).length ≤ 1
  oneKill : ∀ number cycle, killsOf inputs number cycle ≤ 1
  taken : ∀ cycle, killAny (inputs cycle) = true → (outputAt inputs cycle).outsValid = true →
    (inputs cycle).outsReady = true

end Run

variable {inputs : Nat → Input size dataType} {cycle number : Nat}

theorem gives_eq_passed (cycle : Nat) :
    gives inputs cycle = passed (stateAt inputs cycle) (inputs cycle) := by
  simp only [gives, outputAt, Machine.outputAt, machine, passed, stateAt, Bool.and_assoc]

/-- The consumer takes an owed zero or the producer's token. -/
theorem takes_eq (cycle : Nat) :
    takes inputs cycle =
      if (stateAt inputs cycle).owe then (inputs cycle).outsReady else gives inputs cycle := by
  rw [gives_eq_passed]
  cases owed : (stateAt inputs cycle).owe <;>
    simp_all [takes, outputAt, Machine.outputAt, machine, passed, stateAt]

theorem outs_eq (cycle : Nat) :
    (outputAt inputs cycle).outs = if (stateAt inputs cycle).owe then 0 else (inputs cycle).ins :=
  rfl

theorem sent_succ (cycle : Nat) :
    (stateAt inputs (cycle + 1)).sent =
      if killAny (inputs cycle) then false
      else (stateAt inputs cycle).sent || gives inputs cycle := by
  rw [gives_eq_passed]
  rfl

theorem owe_succ (cycle : Nat) :
    (stateAt inputs (cycle + 1)).owe =
      (killAny (inputs cycle) && !((stateAt inputs cycle).sent || gives inputs cycle) ||
        (stateAt inputs cycle).owe && !(inputs cycle).outsReady) := by
  rw [gives_eq_passed]
  rfl

/-- While a zero is owed the producer waits. -/
theorem gives_of_owe (owed : (stateAt inputs cycle).owe = true) : gives inputs cycle = false := by
  simp [gives_eq_passed, passed, owed]

@[simp] theorem round_succ (cycle : Nat) :
    round inputs (cycle + 1) = round inputs cycle + (killAny (inputs cycle)).toNat := rfl

variable (inputs) in
theorem round_mono {later : Nat} (ordered : cycle ≤ later) :
    round inputs cycle ≤ round inputs later := by
  induction ordered with
  | refl => exact Nat.le_refl _
  | step _ inductionHypothesis => exact Nat.le_trans inductionHypothesis (Nat.le_add_right _ _)

theorem tokensOf_succ (number cycle : Nat) :
    tokensOf inputs number (cycle + 1) =
      tokensOf inputs number cycle ++
        if gives inputs cycle = true ∧ round inputs cycle = number then [(inputs cycle).ins]
        else [] := by
  simp [tokensOf, transfers_succ]

/-- A round that is not open gets no more tokens. -/
theorem tokensOf_succ_of_ne (other : round inputs cycle ≠ number) :
    tokensOf inputs number (cycle + 1) = tokensOf inputs number cycle := by
  simp [tokensOf_succ, other]

/-- Under the promise a cycle brings at most one kill. -/
theorem Promise.killCount_eq (promise : Promise inputs) (cycle : Nat) :
    killCount inputs cycle = (killAny (inputs cycle)).toNat := by
  have bounded : killCount inputs cycle ≤ 1 := by
    have here := promise.oneKill (round inputs cycle) (cycle + 1)
    simp only [killsOf, if_true] at here
    omega
  cases killed : killAny (inputs cycle) with
  | false =>
      have none : ∀ commit, (inputs cycle).kill commit = false := by simpa [killAny] using killed
      simp [killCount, none]
  | true =>
      have some : 0 < killCount inputs cycle := by
        rw [killCount, List.countP_pos_iff]
        simpa [killAny] using killed
      simp only [Bool.toNat_true]
      omega

/-- Each kill ends one round. -/
theorem Promise.kills_eq (promise : Promise inputs) (cycle : Nat) :
    kills inputs cycle = round inputs cycle := by
  induction cycle with
  | zero => rfl
  | succ cycle inductionHypothesis =>
      rw [kills, inductionHypothesis, promise.killCount_eq, round_succ]

variable (inputs) in
/-- The registers tell how far the consumer has been served. -/
structure Served (cycle : Nat) : Prop where
  /-- One token for each round ended, but the one owed, and the open round's if it passed. -/
  balanced : (received inputs cycle).length + (stateAt inputs cycle).owe.toNat =
    round inputs cycle + (stateAt inputs cycle).sent.toNat
  exclusive : (stateAt inputs cycle).owe = true → (stateAt inputs cycle).sent = false
  opened : (tokensOf inputs (round inputs cycle) cycle).length = (stateAt inputs cycle).sent.toNat
  unopened : ∀ number, round inputs cycle < number → tokensOf inputs number cycle = []
  /-- The round a zero is owed for got no token. -/
  owed : ∀ number, (stateAt inputs cycle).owe = true → number + 1 = round inputs cycle →
    tokensOf inputs number cycle = []
  answers : ∀ number token, (received inputs cycle)[number]? = some token →
    token = answer inputs number cycle

theorem served_zero : Served inputs 0 where
  balanced := rfl
  exclusive owed := by cases owed
  opened := rfl
  unopened _ _ := rfl
  owed _ owed := by cases owed
  answers number token found := by simp [received] at found

/-- A round that ends has its owed zero taken before another is owed. -/
theorem Promise.ready_of_owe (promise : Promise inputs)
    (killed : killAny (inputs cycle) = true) (owed : (stateAt inputs cycle).owe = true) :
    (inputs cycle).outsReady = true := by
  refine promise.taken cycle killed ?_
  change ((stateAt inputs cycle).owe || _) = true
  rw [owed, Bool.true_or]

section Step

variable (promise : Promise inputs) (served : Served inputs cycle)
include promise served

/-- The open round's token has not passed when the producer gives one. -/
theorem Served.not_sent_of_gives (given : gives inputs cycle = true) :
    (stateAt inputs cycle).sent = false := by
  have bounded := promise.oneToken (round inputs cycle) (cycle + 1)
  rw [tokensOf_succ, if_pos ⟨given, rfl⟩, List.length_append, served.opened] at bounded
  cases sent : (stateAt inputs cycle).sent with
  | false => rfl
  | true => simp [sent] at bounded

theorem Served.balanced_succ :
    (received inputs (cycle + 1)).length + (stateAt inputs (cycle + 1)).owe.toNat =
      round inputs (cycle + 1) + (stateAt inputs (cycle + 1)).sent.toNat := by
  have balanced := served.balanced
  have unsent := served.not_sent_of_gives promise
  have exclusive := served.exclusive
  have ready : killAny (inputs cycle) = true → (stateAt inputs cycle).owe = true →
      (inputs cycle).outsReady = true := promise.ready_of_owe
  have waits : (stateAt inputs cycle).owe = true → gives inputs cycle = false := gives_of_owe
  rw [received, length_transfers_succ, takes_eq, round_succ, owe_succ, sent_succ]
  rw [received] at balanced
  cases owed : (stateAt inputs cycle).owe <;> cases sent : (stateAt inputs cycle).sent <;>
    cases given : gives inputs cycle <;> cases killed : killAny (inputs cycle) <;>
    cases taken : (inputs cycle).outsReady <;> simp_all

/-- The token received in a cycle is the answer of the round whose turn it is. -/
theorem Served.answer_of_takes (taken : takes inputs cycle = true) :
    (outputAt inputs cycle).outs = answer inputs (received inputs cycle).length (cycle + 1) := by
  have balanced := served.balanced
  rw [outs_eq, answer]
  cases owed : (stateAt inputs cycle).owe with
  | true =>
      -- The zero of the last round that ended.
      have unsent := served.exclusive owed
      have turn : (received inputs cycle).length + 1 = round inputs cycle := by
        simpa [owed, unsent] using balanced
      rw [tokensOf_succ_of_ne (by omega), served.owed _ owed turn]
      rfl
  | false =>
      -- The open round's own token.
      have given : gives inputs cycle = true := by simpa [takes_eq, owed] using taken
      have unsent := served.not_sent_of_gives promise given
      have turn : (received inputs cycle).length = round inputs cycle := by
        simpa [owed, unsent] using balanced
      have none : tokensOf inputs (round inputs cycle) cycle = [] := by
        rw [← List.length_eq_zero_iff, served.opened, unsent]
        rfl
      simp [turn, tokensOf_succ, none, given]

theorem Served.answer_succ {token : BitVec dataType}
    (found : (received inputs cycle)[number]? = some token) :
    token = answer inputs number (cycle + 1) := by
  rw [served.answers number token found]
  by_cases here : round inputs cycle = number
  · -- The open round has its token, so it gets no other.
    have bounded : number < (received inputs cycle).length :=
      (List.getElem?_eq_some_iff.mp found).1
    have balanced := served.balanced
    have sent : (stateAt inputs cycle).sent = true := by
      by_contra unsent
      simp only [Bool.not_eq_true] at unsent
      simp only [unsent, Bool.toNat_false] at balanced
      omega
    have idle : gives inputs cycle = false := by
      by_contra given
      simp only [Bool.not_eq_false] at given
      simp [served.not_sent_of_gives promise given] at sent
    simp [answer, tokensOf_succ, idle]
  · rw [answer, answer, tokensOf_succ_of_ne here]

theorem served_succ : Served inputs (cycle + 1) where
  balanced := served.balanced_succ promise
  exclusive owed := by
    have ready : killAny (inputs cycle) = true → (stateAt inputs cycle).owe = true →
      (inputs cycle).outsReady = true := promise.ready_of_owe
    have exclusive := served.exclusive
    have waits : (stateAt inputs cycle).owe = true → gives inputs cycle = false := gives_of_owe
    rw [owe_succ] at owed
    rw [sent_succ]
    cases killed : killAny (inputs cycle) with
    | true => simp
    | false => simp_all
  opened := by
    rw [sent_succ, round_succ]
    cases killed : killAny (inputs cycle) with
    | true =>
        rw [tokensOf_succ_of_ne (by simp), served.unopened _ (by simp)]
        rfl
    | false =>
        have unsent := served.not_sent_of_gives promise
        simp only [Bool.toNat_false, Nat.add_zero, tokensOf_succ, List.length_append, served.opened]
        cases given : gives inputs cycle <;> simp_all
  unopened number beyond := by
    rw [round_succ] at beyond
    rw [tokensOf_succ_of_ne (by omega)]
    exact served.unopened number (by omega)
  owed number owed turn := by
    rw [owe_succ] at owed
    rw [round_succ] at turn
    cases killed : killAny (inputs cycle) with
    | true =>
        have here : round inputs cycle = number := by simpa [killed] using turn.symm
        have ready := promise.ready_of_owe killed
        have none : (stateAt inputs cycle).sent = false ∧ gives inputs cycle = false := by
          cases before : (stateAt inputs cycle).owe <;> simp_all
        have length := served.opened
        rw [none.1, here] at length
        rw [tokensOf_succ, none.2, List.length_eq_zero_iff.mp length]
        simp
    | false =>
        simp only [killed, Bool.false_and, Bool.false_or, Bool.and_eq_true] at owed
        rw [killed, Bool.toNat_false, Nat.add_zero] at turn
        rw [tokensOf_succ_of_ne (by omega)]
        exact served.owed number owed.1 turn
  answers number token found := by
    rw [received, getElem?_transfers_succ] at found
    split at found
    · rename_i here
      rw [here.1, ← Option.some.inj found]
      exact served.answer_of_takes promise here.2
    · exact served.answer_succ promise found

end Step

theorem Promise.served (promise : Promise inputs) (cycle : Nat) : Served inputs cycle := by
  induction cycle with
  | zero => exact served_zero
  | succ cycle inductionHypothesis => exact served_succ promise inductionHypothesis

/-- A round that has ended is answered by the next cycle in which the consumer is
ready. -/
theorem Promise.lt_length_received (promise : Promise inputs) {later : Nat}
    (ended : number < round inputs cycle) (ordered : cycle ≤ later)
    (ready : (inputs later).outsReady = true) : number < (received inputs (later + 1)).length := by
  have still := round_mono inputs ordered
  have balanced := (promise.served later).balanced
  rw [received, length_transfers_succ, takes_eq]
  rw [received] at balanced
  cases owed : (stateAt inputs later).owe <;> simp_all <;> omega

/-- The consumer receives exactly one token for each round, in the order of the
rounds: the producer's token if it came and zero if the round was killed before. -/
theorem serves_every_round (promise : Promise inputs) (cycle : Nat) :
    (received inputs cycle).length + (stateAt inputs cycle).owe.toNat =
        kills inputs cycle + (stateAt inputs cycle).sent.toNat ∧
      (∀ number token, (received inputs cycle)[number]? = some token →
        token = answer inputs number cycle) ∧
      ∀ number later, number < kills inputs cycle → cycle ≤ later →
        (inputs later).outsReady = true → number < (received inputs (later + 1)).length := by
  rw [promise.kills_eq]
  have served := promise.served cycle
  exact ⟨served.balanced, served.answers, fun number later ended ordered ready =>
    promise.lt_length_received ended ordered ready⟩

/-- A kill in every cycle; only the first round gets its token. -/
def killedInputs (cycle : Nat) : Input 1 32 where
  ins := 5
  insValid := cycle == 0
  kill := fun _ => true
  outsReady := true

theorem killedInputs_promise : Promise killedInputs where
  oneToken number cycle := by
    induction cycle with
    | zero => exact Nat.zero_le _
    | succ cycle inductionHypothesis =>
        rw [tokensOf, length_transfers_succ]
        cases cycle with
        | zero => simpa using Bool.toNat_le _
        | succ cycle => simpa [gives, killedInputs, tokensOf] using inductionHypothesis
  oneKill number cycle := by
    have numbered : ∀ cycle, round killedInputs cycle = cycle := by
      intro cycle
      induction cycle with
      | zero => rfl
      | succ cycle inductionHypothesis => rw [round_succ, inductionHypothesis]; rfl
    have counted : ∀ cycle, killsOf killedInputs number cycle = if number < cycle then 1 else 0 := by
      intro cycle
      induction cycle with
      | zero => rfl
      | succ cycle inductionHypothesis =>
          have one : killCount killedInputs cycle = 1 := rfl
          rw [killsOf, inductionHypothesis, numbered, one]
          split <;> split <;> split <;> omega
    rw [counted]
    split <;> omega
  taken cycle _ _ := rfl

theorem serves_every_round_killed :
    received killedInputs 3 = [5, 0] ∧ (2 + 1 = kills killedInputs 3 + 0 ∧
      ∀ number later, number < kills killedInputs 3 → 3 ≤ later →
        (killedInputs later).outsReady = true →
          number < (received killedInputs (later + 1)).length) :=
  ⟨by decide, (serves_every_round killedInputs_promise 3).1,
    (serves_every_round killedInputs_promise 3).2.2⟩

end Dynamatic.Handshake.StandIn
