import Mathlib.Algebra.GroupWithZero.Nat
import Mathlib.Logic.Function.Iterate
import Dynamatic.Clocked.Machine

/-!
# Iterative units

A unit that works on one set of operands at a time: it loads them when it is idle, takes the same
step a fixed number of times, and holds the result until it is taken. Whatever the step, the
results leave in the order of the operands, each a fixed number of cycles after them.
-/

namespace Dynamatic.Clocked

/-- What tells one iterative unit from another. -/
structure Iterative (Operands Data Result : Type) where
  iterations : Nat
  countWidth : Nat
  load : Operands → Data
  step : Data → Data
  result : Data → Result

namespace Iterative

/-- The registers of an iterative unit. -/
structure State (Data : Type) where
  busy : Bool
  done : Bool
  count : Nat
  data : Data

/-- What the environment drives. -/
structure Input (Operands : Type) where
  operands : Operands
  operandsValid : Bool
  resultReady : Bool

variable {Operands Data Result : Type}

section Signals

variable (state : State Data) (input : Input Operands)

def idle : Bool := !state.busy && (!state.done || input.resultReady)

def accept : Bool := input.operandsValid && idle state input

/-- `done`, once a result that is taken has left. -/
def undone : Bool := if state.done && input.resultReady then false else state.done

end Signals

variable (unit : Iterative Operands Data Result)

/-- The clocked process. -/
def next (state : State Data) (input : Input Operands) : State Data :=
  if accept state input then
    { busy := true
      done := undone state input
      count := 0
      data := unit.load input.operands }
  else if state.busy then
    { busy := if state.count = unit.iterations - 1 then false else state.busy
      done := if state.count = unit.iterations - 1 then true else undone state input
      count := (state.count + 1) % 2 ^ unit.countWidth
      data := unit.step state.data }
  else { state with done := undone state input }

def machine : Machine (State Data) (Input Operands) (Option Result) where
  next := unit.next
  output := fun state _ => if state.done then some (unit.result state.data) else none

/-- The registers after reset, whatever the operand registers hold. -/
def reset (data : Data) : State Data where
  busy := false
  done := false
  count := 0
  data := data

/-- The result that the unit computes. -/
def answer (operands : Operands) : Result := unit.result (unit.step^[unit.iterations] (unit.load operands))

/-- The operands that are accepted in a cycle. -/
def takes (state : State Data) (input : Input Operands) : List Operands :=
  if accept state input then [input.operands] else []

/-- The result that is taken in a cycle. -/
def sends (state : State Data) (input : Input Operands) : List Result :=
  if input.resultReady then (unit.machine.output state input).toList else []

/-- The unit has taken `steps` steps on its operands. -/
structure Running (state : State Data) (operands : Operands) (steps : Nat) : Prop where
  busy : state.busy = true
  undone : state.done = false
  count : state.count = steps
  left : steps < unit.iterations
  data : state.data = unit.step^[steps] (unit.load operands)

/-- The result of the operands waits. -/
structure Finished (state : State Data) (operands : Operands) : Prop where
  notBusy : state.busy = false
  done : state.done = true
  data : state.data = unit.step^[unit.iterations] (unit.load operands)

/-- The results that are still to leave. -/
inductive Holds (state : State Data) : List Result → Prop where
  | idle (notBusy : state.busy = false) (undone : state.done = false) : Holds state []
  | running {operands : Operands} {steps : Nat} (running : unit.Running state operands steps) :
      Holds state [unit.answer operands]
  | finished {operands : Operands} (finished : unit.Finished state operands) :
      Holds state [unit.answer operands]

variable {unit} {state : State Data} {input : Input Operands} {operands : Operands}

/-- Accepted operands are loaded. -/
theorem running_of_accept (positive : 0 < unit.iterations) (accepted : accept state input = true) :
    unit.Running (unit.next state input) input.operands 0 := by
  have undone : undone state input = false := by
    simp only [accept, idle, Bool.and_eq_true, Bool.or_eq_true, Bool.not_eq_true'] at accepted
    rcases accepted.2.2 with undone | ready
    · simp [Iterative.undone, undone]
    · simp [Iterative.undone, ready]
  rw [next, if_pos accepted]
  exact ⟨rfl, undone, rfl, positive, rfl⟩

/-- A busy unit takes the next step, or has taken the last. -/
theorem Running.next {steps : Nat} (fits : unit.iterations ≤ 2 ^ unit.countWidth)
    (running : unit.Running state operands steps) :
    accept state input = false ∧ if steps + 1 = unit.iterations then
        unit.Finished (unit.next state input) operands
      else unit.Running (unit.next state input) operands (steps + 1) := by
  have refused : accept state input = false := by simp [accept, idle, running.busy]
  have left := running.left
  have stepped : unit.step state.data = unit.step^[steps + 1] (unit.load operands) := by
    rw [running.data, Function.iterate_succ_apply']
  refine ⟨refused, ?_⟩
  rw [Iterative.next, refused, if_neg Bool.false_ne_true, if_pos running.busy, running.count]
  split
  · rename_i last
    have isLast : steps = unit.iterations - 1 := by omega
    rw [last] at stepped
    exact ⟨if_pos isLast, if_pos isLast, stepped⟩
  · have notLast : steps ≠ unit.iterations - 1 := by omega
    refine ⟨(if_neg notLast).trans running.busy, (if_neg notLast).trans ?_, ?_, by omega, stepped⟩
    · simp [Iterative.undone, running.undone]
    · exact Nat.mod_eq_of_lt (by omega)

/-- A result is held until it is taken. -/
theorem Finished.next (finished : unit.Finished state operands) (waits : input.resultReady = false) :
    unit.Finished (unit.next state input) operands := by
  have refused : accept state input = false := by
    simp [accept, Iterative.idle, finished.done, waits]
  have notBusy : ¬ state.busy = true := by simp [finished.notBusy]
  rw [Iterative.next, refused, if_neg Bool.false_ne_true, if_neg notBusy]
  refine ⟨finished.notBusy, ?_, finished.data⟩
  rw [Iterative.undone, waits, Bool.and_false, if_neg Bool.false_ne_true]
  exact finished.done

theorem Finished.output (finished : unit.Finished state operands) :
    unit.machine.output state input = some (unit.answer operands) := by
  simp only [machine, finished.done, if_pos, finished.data]
  rfl

theorem output_of_undone (undone : state.done = false) : unit.machine.output state input = none := by
  simp only [machine, undone]
  rfl

/-- A unit that is idle and accepts nothing stays so. -/
theorem idle_next (notBusy : state.busy = false) (undone : undone state input = false)
    (refused : accept state input = false) : unit.Holds (unit.next state input) [] := by
  have still : ¬ state.busy = true := by simp [notBusy]
  rw [next, refused, if_neg Bool.false_ne_true, if_neg still]
  exact .idle notBusy undone

/-- Accepted operands are held as their answer, over an idle unit. -/
theorem holds_of_undone (positive : 0 < unit.iterations) (notBusy : state.busy = false)
    (undone : undone state input = false) : ∃ rest, unit.Holds (unit.next state input) rest ∧
      (takes state input).map unit.answer = rest := by
  cases accepted : accept state input with
  | true =>
      refine ⟨_, .running (running_of_accept positive accepted), ?_⟩
      rw [takes, accepted]
      rfl
  | false =>
      refine ⟨_, idle_next notBusy undone accepted, ?_⟩
      rw [takes, accepted]
      rfl

/-- The answers still to leave and those of the operands accepted leave or are held. -/
theorem holds_next (positive : 0 < unit.iterations) (fits : unit.iterations ≤ 2 ^ unit.countWidth)
    {held : List Result} (holds : unit.Holds state held) :
    ∃ rest, unit.Holds (unit.next state input) rest ∧
      held ++ (takes state input).map unit.answer = unit.sends state input ++ rest := by
  cases holds with
  | idle notBusy undone =>
      have still : Iterative.undone state input = false := by simp [Iterative.undone, undone]
      obtain ⟨rest, after, same⟩ := @holds_of_undone _ _ _ unit _ _ positive notBusy still
      refine ⟨rest, after, ?_⟩
      rw [sends, output_of_undone undone, same]
      cases input.resultReady <;> rfl
  | @running operands steps running =>
      obtain ⟨refused, after⟩ := @Running.next _ _ _ _ _ input _ _ fits running
      refine ⟨[unit.answer operands], ?_, ?_⟩
      · split at after
        · exact .finished after
        · exact .running after
      · rw [takes, refused, sends, output_of_undone running.undone]
        cases input.resultReady <;> rfl
  | @finished operands finished =>
      cases ready : input.resultReady with
      | true =>
          have undone : Iterative.undone state input = false := by simp [Iterative.undone, ready]
          obtain ⟨rest, after, same⟩ :=
            @holds_of_undone _ _ _ unit _ _ positive finished.notBusy undone
          refine ⟨rest, after, ?_⟩
          rw [sends, if_pos ready, finished.output, same]
          rfl
      | false =>
          have refused : accept state input = false := by
            simp [accept, idle, finished.done, ready]
          refine ⟨_, .finished (finished.next ready), ?_⟩
          rw [takes, refused, sends, ready]
          rfl

theorem Holds.length_le {held : List Result} (holds : unit.Holds state held) : held.length ≤ 1 := by
  cases holds <;> simp

/-- Operands are accepted only when nothing is left to leave after the cycle. -/
theorem Holds.sends_of_accept {held : List Result} (holds : unit.Holds state held)
    (accepted : accept state input = true) : unit.sends state input = held := by
  simp only [accept, Iterative.idle, Bool.and_eq_true, Bool.or_eq_true, Bool.not_eq_true']
    at accepted
  obtain ⟨-, notBusy, free⟩ := accepted
  cases holds with
  | idle _ undone =>
      rw [sends, output_of_undone undone]
      split <;> rfl
  | running running =>
      rw [running.busy] at notBusy
      cases notBusy
  | finished finished =>
      have ready : input.resultReady = true := by
        rcases free with undone | ready
        · rw [finished.done] at undone
          cases undone
        · exact ready
      rw [sends, if_pos ready, finished.output]
      rfl

/-- A result that is not taken is output again. -/
theorem Holds.output_next {held : List Result} (holds : unit.Holds state held) {result : Result}
    (offered : unit.machine.output state input = some result)
    (waits : input.resultReady = false) (later : Input Operands) :
    unit.machine.output (unit.next state input) later = some result := by
  cases holds with
  | idle _ undone =>
      rw [output_of_undone undone] at offered
      cases offered
  | running running =>
      rw [output_of_undone running.undone] at offered
      cases offered
  | finished finished =>
      rw [finished.output] at offered
      rw [(finished.next waits).output, offered]

section Run

variable {inputs : Nat → Input Operands} {start : State Data} {cycle : Nat}

theorem running_at (fits : unit.iterations ≤ 2 ^ unit.countWidth) {steps : Nat}
    (left : steps < unit.iterations)
    (starts : unit.Running (unit.machine.stateAt start inputs cycle) operands 0) :
    unit.Running (unit.machine.stateAt start inputs (cycle + steps)) operands steps := by
  induction steps with
  | zero => exact starts
  | succ steps inductionHypothesis =>
      have after := (@Running.next _ _ _ _ _ (inputs (cycle + steps)) _ _ fits
        (inductionHypothesis (by omega))).2
      rwa [if_neg (by omega)] at after

/-- A result is there a fixed number of cycles after its operands. -/
theorem finished_at (positive : 0 < unit.iterations)
    (fits : unit.iterations ≤ 2 ^ unit.countWidth)
    (accepted : accept (unit.machine.stateAt start inputs cycle) (inputs cycle) = true) :
    unit.Finished (unit.machine.stateAt start inputs (cycle + unit.iterations + 1))
      (inputs cycle).operands := by
  have starts : unit.Running (unit.machine.stateAt start inputs (cycle + 1))
      (inputs cycle).operands 0 := running_of_accept positive accepted
  have last := running_at fits (Nat.sub_lt positive Nat.one_pos) starts
  have after :=
    (@Running.next _ _ _ _ _ (inputs (cycle + 1 + (unit.iterations - 1))) _ _ fits last).2
  rw [if_pos (by omega)] at after
  have same : cycle + unit.iterations + 1 = cycle + 1 + (unit.iterations - 1) + 1 := by omega
  rw [same]
  exact after

end Run

end Iterative

end Dynamatic.Clocked
