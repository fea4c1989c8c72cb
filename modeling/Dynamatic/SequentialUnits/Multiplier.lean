import Mathlib.Data.Nat.Log
import Mathlib.Tactic.Ring
import Dynamatic.Clocked.Iterative
import Dynamatic.Numerals
import Mathlib.Data.Fin.VecNotation

/-!
# The ports of the sequential arithmetic units

The sequential divider and multiplier join their operands, work on one pair at a time, and hold
the result until it is taken. `Answers` says what such a unit is for in terms of the tokens it
transfers.
-/

namespace Dynamatic.SequentialUnits

open Dynamatic.Clocked

section Join

variable {size : Nat}

/-- `outs_valid` of a join. -/
def joinValid (insValid : Fin size → Bool) : Bool := decide (∀ index, insValid index = true)

/-- `ins_ready` of a join. -/
def joinReady (insValid : Fin size → Bool) (outsReady : Bool) (index : Fin size) : Bool :=
  decide (∀ other, index ≠ other → insValid other = true) && outsReady

/-- Each input of a join transfers exactly when its output does. -/
theorem valid_and_joinReady (insValid : Fin size → Bool) (outsReady : Bool) (index : Fin size) :
    (insValid index && joinReady insValid outsReady index) = (joinValid insValid && outsReady) := by
  rw [joinReady, ← Bool.and_assoc]
  congr 1
  refine Bool.eq_iff_iff.mpr ?_
  simp only [joinValid, Bool.and_eq_true, decide_eq_true_eq]
  refine ⟨fun ⟨here, others⟩ other => ?_, fun all => ⟨all index, fun other _ => all other⟩⟩
  by_cases same : index = other
  · exact same ▸ here
  · exact others other same

end Join

variable {width : Nat} {Data State : Type}

/-- The ports that the environment of a unit drives. -/
structure Input (width : Nat) where
  lhs : BitVec width
  lhsValid : Bool
  rhs : BitVec width
  rhsValid : Bool
  resultReady : Bool

/-- The ports that a unit drives. -/
structure Output (width : Nat) where
  result : BitVec width
  resultValid : Bool
  lhsReady : Bool
  rhsReady : Bool

/-- The valid signals of the operands, that of `lhs` first. -/
def Input.valids (input : Input width) : Fin 2 → Bool := ![input.lhsValid, input.rhsValid]

/-- The operands, behind their join. -/
def Input.joined (input : Input width) : Iterative.Input (BitVec width × BitVec width) where
  operands := (input.lhs, input.rhs)
  operandsValid := joinValid input.valids
  resultReady := input.resultReady

open Numerals in
/-- An iterative unit between a join and its result port. -/
def shell (unit : Iterative (BitVec width × BitVec width) Data (BitVec width)) :
    Machine (Iterative.State Data) (Input width) (Output width) where
  next := fun state input => unit.next state input.joined
  output := fun state input =>
    { result := unit.result state.data
      resultValid := state.done
      lhsReady := joinReady input.valids (Iterative.idle state input.joined) 0
      rhsReady := joinReady input.valids (Iterative.idle state input.joined) 1 }

section Tokens

variable (machine : Machine State (Input width) (Output width)) (state : State)
  (input : Input width)

def lhsTransfers : Bool := input.lhsValid && (machine.output state input).lhsReady

def rhsTransfers : Bool := input.rhsValid && (machine.output state input).rhsReady

/-- The operand pair that is accepted in a cycle. -/
def accepts : List (BitVec width × BitVec width) :=
  if lhsTransfers machine state input then [(input.lhs, input.rhs)] else []

/-- The result that is offered in a cycle. -/
def offer : Option (BitVec width) :=
  if (machine.output state input).resultValid then some (machine.output state input).result
  else none

/-- The result that is taken in a cycle. -/
def sends : List (BitVec width) :=
  if input.resultReady then (offer machine state input).toList else []

end Tokens

section Runs

variable (machine : Machine State (Input width) (Output width))
  (answer : BitVec width × BitVec width → BitVec width) (start : State)
  (inputs : Nat → Input width)

/-- The answers to the operand pairs accepted before each cycle. -/
def answers (cycle : Nat) : List (BitVec width) :=
  (machine.collect (accepts machine) start inputs cycle).map answer

/-- The results taken before each cycle. -/
def results : Nat → List (BitVec width) := machine.collect (sends machine) start inputs

/-- What is offered in each cycle. -/
def offerAt (cycle : Nat) : Option (BitVec width) :=
  offer machine (machine.stateAt start inputs cycle) (inputs cycle)

/-- Each operand pair is answered once, in order, `latency` cycles later: both operands transfer
together, the answer is held until it is taken, and the next pair comes no earlier. -/
structure Answers (latency cycle : Nat) : Prop where
  together : lhsTransfers machine (machine.stateAt start inputs cycle) (inputs cycle) =
    rhsTransfers machine (machine.stateAt start inputs cycle) (inputs cycle)
  inOrder : results machine start inputs cycle <+: answers machine answer start inputs cycle
  atMostOne : (answers machine answer start inputs cycle).length ≤
    (results machine start inputs cycle).length + 1
  before : ∀ pair, accepts machine (machine.stateAt start inputs cycle) (inputs cycle) = [pair] →
    results machine start inputs (cycle + 1) = answers machine answer start inputs cycle
  due : ∀ pair, accepts machine (machine.stateAt start inputs cycle) (inputs cycle) = [pair] →
    offerAt machine start inputs (cycle + latency) = some (answer pair)
  held : ∀ result, offerAt machine start inputs cycle = some result →
    (inputs cycle).resultReady = false → offerAt machine start inputs (cycle + 1) = some result

end Runs

section Shell

variable {unit : Iterative (BitVec width × BitVec width) Data (BitVec width)}
  {state : Iterative.State Data} {input : Input width}

theorem lhsTransfers_shell :
    lhsTransfers (shell unit) state input = Iterative.accept state input.joined :=
  valid_and_joinReady input.valids _ 0

theorem rhsTransfers_shell :
    rhsTransfers (shell unit) state input = Iterative.accept state input.joined :=
  valid_and_joinReady input.valids _ 1

theorem accepts_shell : accepts (shell unit) state input = Iterative.takes state input.joined := by
  rw [accepts, lhsTransfers_shell]
  rfl

theorem accept_of_accepts {pair : BitVec width × BitVec width}
    (accepted : accepts (shell unit) state input = [pair]) :
    Iterative.accept state input.joined = true ∧ pair = (input.lhs, input.rhs) := by
  rw [accepts, lhsTransfers_shell] at accepted
  split at accepted
  · rename_i here
    exact ⟨here, (List.cons.inj accepted).1.symm⟩
  · cases accepted

variable {data : Data} {inputs : Nat → Input width}

theorem stateAt_shell (cycle : Nat) : (shell unit).stateAt (Iterative.reset data) inputs cycle =
    unit.machine.stateAt (Iterative.reset data) (fun cycle => (inputs cycle).joined) cycle := by
  induction cycle with
  | zero => rfl
  | succ cycle inductionHypothesis =>
      rw [Machine.stateAt_succ, inductionHypothesis]
      rfl

theorem offerAt_shell (cycle : Nat) :
    offerAt (shell unit) (Iterative.reset data) inputs cycle =
      unit.machine.output ((shell unit).stateAt (Iterative.reset data) inputs cycle)
        (inputs cycle).joined := rfl

/-- What is held of the answers, in every cycle of a run. -/
theorem shell_queue (positive : 0 < unit.iterations) (fits : unit.iterations ≤ 2 ^ unit.countWidth)
    (cycle : Nat) : ∃ held,
    unit.Holds ((shell unit).stateAt (Iterative.reset data) inputs cycle) held ∧
      answers (shell unit) unit.answer (Iterative.reset data) inputs cycle =
        results (shell unit) (Iterative.reset data) inputs cycle ++ held := by
  have step : ∀ state (input : Input width) held, unit.Holds state held →
      ∃ rest, unit.Holds ((shell unit).next state input) rest ∧
        held ++ (accepts (shell unit) state input).map unit.answer =
          sends (shell unit) state input ++ rest := by
    intro state input held holds
    rw [accepts_shell]
    exact Iterative.holds_next positive fits holds
  rw [answers, Machine.map_collect]
  exact Machine.queue (Iterative.Holds.idle rfl rfl) step cycle

/-- An iterative unit between its ports answers each operand pair. -/
theorem shell_answers (positive : 0 < unit.iterations)
    (fits : unit.iterations ≤ 2 ^ unit.countWidth) (data : Data) (inputs : Nat → Input width)
    (cycle : Nat) :
    Answers (shell unit) unit.answer (Iterative.reset data) inputs (unit.iterations + 1) cycle := by
  obtain ⟨held, holds, queued⟩ := @shell_queue _ _ _ data inputs positive fits cycle
  refine ⟨lhsTransfers_shell.trans rhsTransfers_shell.symm, ⟨held, queued.symm⟩, ?_, ?_, ?_, ?_⟩
  · have one := holds.length_le
    rw [queued, List.length_append]
    omega
  · intro pair accepted
    rw [queued, ← holds.sends_of_accept (accept_of_accepts accepted).1]
    rfl
  · intro pair accepted
    obtain ⟨here, rfl⟩ := accept_of_accepts accepted
    rw [stateAt_shell] at here
    rw [offerAt_shell, stateAt_shell]
    exact (Iterative.finished_at positive fits here).output
  · intro result offered waits
    rw [offerAt_shell] at offered ⊢
    exact holds.output_next offered waits _

end Shell

end Dynamatic.SequentialUnits

/-!
## The sequential multiplier

The unit of `muli_sequential.v` adds, in each cycle, the multiplicand times the next `step` bits
of the multiplier. What has been added is the multiplicand times the multiplier's bits so far.
-/

namespace Dynamatic.SequentialUnits

open Dynamatic.Clocked

variable {width stepBits : Nat}

/-- The number of cycles that a product takes. -/
def iterations (width stepBits : Nat) : Nat := (width + stepBits - 1) / stepBits

/-- The width of the multiplier register. -/
def padded (width stepBits : Nat) : Nat := iterations width stepBits * stepBits

structure MultiplierData (width stepBits : Nat) where
  aReg : BitVec width
  bReg : BitVec (padded width stepBits)
  acc : BitVec width

namespace MultiplierData

variable (data : MultiplierData width stepBits)

/-- The multiplicand times the next bits of the multiplier, in full. -/
def partialProduct : BitVec (width + stepBits) :=
  data.aReg.setWidth (width + stepBits) *
    (data.bReg.extractLsb' 0 stepBits).setWidth (width + stepBits)

def step : MultiplierData width stepBits where
  aReg := data.aReg <<< stepBits
  bReg := data.bReg >>> stepBits
  acc := data.acc + data.partialProduct.setWidth width

end MultiplierData

/-- The unit of `muli_sequential.v`, between its ports. -/
def muliSequential (width stepBits : Nat) :
    Iterative (BitVec width × BitVec width) (MultiplierData width stepBits) (BitVec width) where
  iterations := iterations width stepBits
  countWidth := Nat.clog 2 (iterations width stepBits + 1)
  load := fun (lhs, rhs) => { aReg := lhs, bReg := rhs.setWidth (padded width stepBits), acc := 0 }
  step := MultiplierData.step
  result := MultiplierData.acc

theorem iterations_pos (positive : 0 < width) (stepPositive : 0 < stepBits) :
    0 < iterations width stepBits :=
  Nat.div_pos (by omega) stepPositive

/-- The steps cover the multiplier, the last one perhaps with fewer bits. -/
theorem le_padded (stepPositive : 0 < stepBits) : width ≤ padded width stepBits := by
  have whole := Nat.div_add_mod (width + stepBits - 1) stepBits
  have rest := Nat.mod_lt (width + stepBits - 1) stepPositive
  rw [padded, iterations, Nat.mul_comm]
  omega

namespace MultiplierData

/-- The multiplicand has been multiplied by the low `taken` bits of the multiplier. -/
structure Multiplied (data : MultiplierData width stepBits) (lhs rhs : BitVec width)
    (taken : Nat) : Prop where
  aReg_eq : data.aReg = lhs * BitVec.ofNat width (2 ^ taken)
  bReg_eq : data.bReg.toNat = rhs.toNat / 2 ^ taken
  acc_eq : data.acc = lhs * BitVec.ofNat width (rhs.toNat % 2 ^ taken)

variable {data : MultiplierData width stepBits} {lhs rhs : BitVec width} {taken : Nat}

/-- Only the low bits of the product are added. -/
theorem setWidth_partialProduct : data.partialProduct.setWidth width =
    data.aReg * BitVec.ofNat width (data.bReg.toNat % 2 ^ stepBits) := by
  refine BitVec.eq_of_toNat_eq ?_
  have divides : 2 ^ width ∣ 2 ^ (width + stepBits) := pow_dvd_pow 2 (Nat.le_add_right _ _)
  rw [BitVec.toNat_setWidth, partialProduct, BitVec.toNat_mul, BitVec.toNat_setWidth,
    BitVec.toNat_setWidth, BitVec.extractLsb'_toNat, Nat.shiftRight_zero, ← Nat.mul_mod,
    Nat.mod_mod_of_dvd _ divides, BitVec.toNat_mul, BitVec.toNat_ofNat, Nat.mul_mod_mod]

/-- One step takes the next bits of the multiplier. -/
theorem Multiplied.step (multiplied : data.Multiplied lhs rhs taken) :
    data.step.Multiplied lhs rhs (taken + stepBits) := by
  refine ⟨?_, ?_, ?_⟩
  · refine BitVec.eq_of_toNat_eq ?_
    rw [MultiplierData.step, multiplied.aReg_eq, BitVec.toNat_shiftLeft, Nat.shiftLeft_eq,
      BitVec.toNat_mul, BitVec.toNat_ofNat, Nat.mod_mul_mod, Nat.mul_right_comm,
      Nat.mul_mod_mod, Nat.mul_assoc, BitVec.toNat_mul, BitVec.toNat_ofNat, Nat.mul_mod_mod,
      Nat.pow_add, Nat.mul_comm (2 ^ stepBits)]
  · rw [MultiplierData.step, BitVec.toNat_ushiftRight, multiplied.bReg_eq,
      Nat.shiftRight_eq_div_pow, Nat.div_div_eq_div_mul, Nat.pow_add]
  · rw [MultiplierData.step, setWidth_partialProduct, multiplied.acc_eq, multiplied.aReg_eq,
      multiplied.bReg_eq, BitVec.mul_assoc, ← BitVec.mul_add, ← BitVec.ofNat_mul, ← BitVec.ofNat_add,
      Nat.pow_add, Nat.mod_mul]

theorem Multiplied.iterate (multiplied : data.Multiplied lhs rhs 0) (steps : Nat) :
    (MultiplierData.step^[steps] data).Multiplied lhs rhs (steps * stepBits) := by
  induction steps with
  | zero => rwa [Nat.zero_mul]
  | succ steps inductionHypothesis =>
      rw [Function.iterate_succ_apply', Nat.succ_mul]
      exact inductionHypothesis.step

theorem multiplied_load (stepPositive : 0 < stepBits) (lhs rhs : BitVec width) :
    Multiplied ⟨lhs, rhs.setWidth (padded width stepBits), 0⟩ lhs rhs 0 where
  aReg_eq := by simp
  bReg_eq := by
    have wide : 2 ^ width ≤ 2 ^ padded width stepBits :=
      Nat.pow_le_pow_right Nat.two_pos (le_padded stepPositive)
    rw [BitVec.toNat_setWidth, Nat.mod_eq_of_lt (Nat.lt_of_lt_of_le rhs.isLt wide), Nat.pow_zero,
      Nat.div_one]
  acc_eq := by simp [Nat.mod_one]

end MultiplierData

theorem muliSequential_answer (stepPositive : 0 < stepBits) (lhs rhs : BitVec width) :
    (muliSequential width stepBits).answer (lhs, rhs) = lhs * rhs := by
  have multiplied := (MultiplierData.multiplied_load stepPositive lhs rhs).iterate
    (iterations width stepBits)
  have whole : rhs.toNat < 2 ^ padded width stepBits :=
    Nat.lt_of_lt_of_le rhs.isLt (Nat.pow_le_pow_right Nat.two_pos (le_padded stepPositive))
  refine multiplied.acc_eq.trans ?_
  rw [← padded, Nat.mod_eq_of_lt whole, BitVec.ofNat_toNat, BitVec.setWidth_eq]

/-- The sequential multiplier answers each operand pair with its product. -/
theorem muliSequential_answers (positive : 0 < width) (stepPositive : 0 < stepBits)
    (data : MultiplierData width stepBits) (inputs : Nat → Input width) (cycle : Nat) :
    Answers (shell (muliSequential width stepBits))
      (fun (lhs, rhs) => BitVec.ofNat width (lhs.toNat * rhs.toNat)) (Iterative.reset data) inputs
      (iterations width stepBits + 1) cycle := by
  have product : (fun (lhs, rhs) => BitVec.ofNat width (lhs.toNat * rhs.toNat)) =
      (muliSequential width stepBits).answer := by
    funext (lhs, rhs)
    rw [muliSequential_answer stepPositive]
    rfl
  have fits : iterations width stepBits ≤ 2 ^ Nat.clog 2 (iterations width stepBits + 1) :=
    (Nat.le_succ _).trans (Nat.le_pow_clog Nat.one_lt_two _)
  rw [product]
  exact shell_answers (iterations_pos positive stepPositive) fits data inputs cycle

/-- Operands for three steps of three bits, the last with one bit to go. -/
def sevens (cycle : Nat) : Input 7 where
  lhs := BitVec.ofNat 7 (3 * cycle + 100)
  lhsValid := true
  rhs := BitVec.ofNat 7 (5 * cycle + 77)
  rhsValid := true
  resultReady := cycle % 3 = 1

theorem muliSequential_answers_sevens :
    Answers (shell (muliSequential 7 3))
      (fun (lhs, rhs) => BitVec.ofNat 7 (lhs.toNat * rhs.toNat)) (Iterative.reset ⟨0, 0, 0⟩) sevens
      (iterations 7 3 + 1) 10 :=
  muliSequential_answers (by decide) (by decide) ⟨0, 0, 0⟩ sevens 10

end Dynamatic.SequentialUnits
