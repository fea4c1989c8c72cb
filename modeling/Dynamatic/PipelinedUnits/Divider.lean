import Dynamatic.Clocked.Pipeline
import Dynamatic.SequentialUnits.Divider

/-!
# Pipelined dividers

`divsi.v` and `remsi.v`: a join, operand registers, one restoring stage for each bit, result
registers, and beside them a shift register of valid bits that ends in an output buffer. All
registers load when the output buffer is ready. The two units differ in what happens to the
operands before the first stage and to the results after the last.
-/

namespace Dynamatic.PipelinedUnits

open Dynamatic.Clocked Dynamatic.SequentialUnits

variable {width : Nat} {Sign : Type}

/-- The registers of one stage of the division. -/
structure Stage (width : Nat) (Sign : Type) where
  dividend : BitVec width
  divisor : BitVec width
  remd : BitVec width
  sign : Sign

namespace Stage

variable (stage : Stage width Sign)

/-- The remainder shifted left, with the top bit of the dividend shifted in. -/
def comb : BitVec width := stage.remd.shiftConcat stage.dividend.msb

/-- The difference, its borrow on top. -/
def cal : BitVec (width + 1) :=
  stage.comb.setWidth (width + 1) - stage.divisor.setWidth (width + 1)

/-- What the next stage loads. -/
def step : Stage width Sign where
  dividend := stage.dividend.shiftConcat (!stage.cal.msb)
  divisor := stage.divisor
  remd := if stage.cal.msb then stage.comb else stage.cal.setWidth width
  sign := stage.sign

/-- The registers of a sequential divider at this point, which has no sign of its own here. -/
def data : DividerData width where
  dividend := stage.dividend
  divisor := stage.divisor
  remd := stage.remd
  negate := false

end Stage

/-- What tells the two units apart. -/
structure Core (width : Nat) (Sign : Type) where
  dividendU : BitVec width → BitVec width
  divisorU : BitVec width → BitVec width
  signI : BitVec width → BitVec width → Sign
  quot : Sign → BitVec width → BitVec width
  remd : Sign → BitVec width → BitVec width
  dout : BitVec width → BitVec width → BitVec width

/-- `dynamatic_units_sdiv_32ns_32ns_32_36_1_div`, whose quotient is the result: the stages divide
magnitudes, and two sign bits travel along. -/
def divsi (width : Nat) : Core width (Bool × Bool) where
  dividendU := fun dividend => if dividend.msb then ~~~dividend + 1 else dividend
  divisorU := fun divisor => if divisor.msb then ~~~divisor + 1 else divisor
  signI := fun dividend divisor => (dividend.msb ^^ divisor.msb, dividend.msb)
  quot := fun sign quotU => if sign.1 then ~~~quotU + 1 else quotU
  remd := fun sign remdU => if sign.2 then ~~~remdU + 1 else remdU
  dout := fun quot _ => quot

/-- `dynamatic_units_urem_32ns_32ns_32_36_1_div`, whose remainder is the result. -/
def remsi (width : Nat) : Core width Unit where
  dividendU := fun dividend => dividend
  divisorU := fun divisor => divisor
  signI := fun _ _ => ()
  quot := fun _ quotU => quotU
  remd := fun _ remdU => remdU
  dout := fun _ remd => remd

structure State (width : Nat) (Sign : Type) where
  dividend0 : BitVec width
  divisor0 : BitVec width
  stages : Fin (width + 1) → Stage width Sign
  quot : BitVec width
  remd : BitVec width
  regs : Fin (width + 2) → Bool
  outputValid : Bool

/-- `delay_buffer`: a shift register of valid bits. -/
def delayBuffer {size : Nat} (regs : Fin (size + 1) → Bool) (validIn readyIn : Bool) :
    Fin (size + 1) → Bool :=
  if readyIn then Fin.cons validIn fun place : Fin size => regs place.castSucc else regs

/-- `ins_ready` of `oehb_dataless`. -/
def oehbReady (outputValid outsReady : Bool) : Bool := !outputValid || outsReady

/-- The register of `oehb_dataless`. -/
def oehbNext (outputValid insValid outsReady : Bool) : Bool :=
  insValid || !outsReady && outputValid

namespace Core

variable (core : Core width Sign)

/-- What the first stage loads from the operand registers. -/
def load (dividend divisor : BitVec width) : Stage width Sign where
  dividend := core.dividendU dividend
  divisor := core.divisorU divisor
  remd := 0
  sign := core.signI dividend divisor

/-- The clocked processes of the unit, with the reset released. -/
def next (state : State width Sign) (input : Input width) : State width Sign :=
  let ce := oehbReady state.outputValid input.resultReady
  let last := state.stages (Fin.last width)
  { dividend0 := if ce then input.lhs else state.dividend0
    divisor0 := if ce then input.rhs else state.divisor0
    stages :=
      if ce then
        Fin.cons (core.load state.dividend0 state.divisor0)
          fun place : Fin width => (state.stages place.castSucc).step
      else state.stages
    quot := if ce then core.quot last.sign last.dividend else state.quot
    remd := if ce then core.remd last.sign last.remd else state.remd
    regs := delayBuffer state.regs (joinValid input.valids) ce
    outputValid :=
      oehbNext state.outputValid (state.regs (Fin.last (width + 1))) input.resultReady }

open Numerals in
/-- The unit between its ports. -/
def machine : Machine (State width Sign) (Input width) (Output width) where
  next := core.next
  output := fun state input =>
    let ce := oehbReady state.outputValid input.resultReady
    { result := core.dout state.quot state.remd
      resultValid := state.outputValid
      lhsReady := joinReady input.valids ce 0
      rhsReady := joinReady input.valids ce 1 }

/-- The stage registers that an operand pair passes. -/
def stageOf (pair : BitVec width × BitVec width) (place : Nat) : Stage width Sign :=
  Stage.step^[place] (core.load pair.1 pair.2)

/-- The result that the unit computes. -/
def answer (pair : BitVec width × BitVec width) : BitVec width :=
  let last := core.stageOf pair width
  core.dout (core.quot last.sign last.dividend) (core.remd last.sign last.remd)

/-- A state after reset: no valid bit is set, and the data registers hold anything. -/
structure Reset (state : State width Sign) : Prop where
  regs : ∀ place, state.regs place = false
  outputValid : state.outputValid = false

/-- The registers hold the operand pairs that the places of a pipeline hold: valid bits and data
registers stand for the same places. -/
structure Represents (state : State width Sign)
    (places : Pipeline.Places (BitVec width × BitVec width)) : Prop where
  regs : ∀ place : Fin (width + 2), state.regs place = (places place).isSome
  outputValid : state.outputValid = (places (width + 2)).isSome
  operands : ∀ pair, places 0 = some pair → state.dividend0 = pair.1 ∧ state.divisor0 = pair.2
  stages : ∀ (place : Fin (width + 1)) (pair), places (place + 1) = some pair →
    state.stages place = core.stageOf pair place
  result : ∀ pair, places (width + 2) = some pair →
    core.dout state.quot state.remd = core.answer pair

variable {core} {state : State width Sign} {input : Input width}
  {places : Pipeline.Places (BitVec width × BitVec width)}

theorem represents_empty (reset : Reset state) : core.Represents state Pipeline.empty where
  regs := reset.regs
  outputValid := reset.outputValid
  operands := fun _ isSome => nomatch isSome
  stages := fun _ _ isSome => nomatch isSome
  result := fun _ isSome => nomatch isSome

/-- The registers load in the cycles in which the pipeline moves. -/
theorem Represents.oehbReady (represents : core.Represents state places) :
    oehbReady state.outputValid input.resultReady =
      Pipeline.moves (width + 2) places input.joined := by
  rw [PipelinedUnits.oehbReady, represents.outputValid, Pipeline.moves, Option.not_isSome]
  rfl

/-- In a cycle that moves, each register takes over the place before it. -/
theorem Represents.moved (represents : core.Represents state places)
    (ready : PipelinedUnits.oehbReady state.outputValid input.resultReady = true) :
    core.Represents (core.next state input)
      (Pipeline.shifted (Pipeline.entering input.joined) places) := by
  refine ⟨fun place => ?_, ?_, fun pair enters => ?_, fun place pair here => ?_,
    fun pair here => ?_⟩
  · rw [next, delayBuffer, ready, if_pos rfl]
    cases place using Fin.cases with
    | zero =>
      show joinValid input.valids = (Pipeline.entering input.joined).isSome
      cases valid : joinValid input.valids <;> simp [Pipeline.entering, Input.joined, valid]
    | succ place => exact represents.regs place.castSucc
  · have last := represents.regs (Fin.last (width + 1))
    simp only [PipelinedUnits.oehbReady, Bool.or_eq_true, Bool.not_eq_true'] at ready
    rw [next]
    simp only [oehbNext, last]
    rcases ready with free | isReady
    · rw [free, Bool.and_false, Bool.or_false]
      rfl
    · rw [isReady, Bool.not_true, Bool.false_and, Bool.or_false]
      rfl
  · rw [next, ready]
    simp only [Pipeline.shifted, Pipeline.entering] at enters
    split at enters
    next => exact (Option.some.inj enters) ▸ ⟨rfl, rfl⟩
    next => cases enters
  · rw [next, ready]
    simp only [if_true]
    cases place using Fin.cases with
    | zero =>
      obtain ⟨dividend, divisor⟩ := represents.operands pair here
      rw [Fin.cons_zero, dividend, divisor]
      rfl
    | succ place =>
      have before := represents.stages place.castSucc pair here
      rw [Fin.cons_succ, before, stageOf, stageOf, Fin.val_succ, Function.iterate_succ_apply']
      rfl
  · have before := represents.stages (Fin.last width) pair here
    rw [next, ready]
    simp only [if_true, before]
    rfl

/-- In a cycle that stalls, every register stays as it is. -/
theorem Represents.stalled (represents : core.Represents state places)
    (stalls : PipelinedUnits.oehbReady state.outputValid input.resultReady = false) :
    core.Represents (core.next state input) places := by
  have stays : core.next state input = state := by
    simp only [PipelinedUnits.oehbReady, Bool.or_eq_false_iff, Bool.not_eq_false'] at stalls
    cases state
    simp_all [next, PipelinedUnits.oehbReady, delayBuffer, oehbNext]
  rwa [stays]

/-- The unit simulates the pipeline. -/
theorem Represents.next (represents : core.Represents state places) :
    core.Represents (core.next state input)
      ((Pipeline.machine (width + 2)).next places input.joined) := by
  have ready := @Represents.oehbReady _ _ core _ input _ represents
  cases moving : Pipeline.moves (width + 2) places input.joined with
  | true =>
    rw [Pipeline.next_of_moves moving]
    exact represents.moved (ready.trans moving)
  | false =>
    rw [Pipeline.next_of_stalls moving]
    exact represents.stalled (ready.trans moving)

end Core

/-! ## The streams of a unit -/

section Streams

variable {Registers : Type} (machine : Machine Registers (Input width) (Output width))
  (answer : BitVec width × BitVec width → BitVec width) (start : Registers)
  (inputs : Nat → Input width)

/-- A cycle in which no result waits. -/
def flows (cycle : Nat) : Bool :=
  (offerAt machine start inputs cycle).isNone || (inputs cycle).resultReady

/-- Each operand pair is answered once, in order: both operands transfer together, no more pairs
than `latency` are under way, an answer is offered once `latency` cycles flowed, whatever the
stalls between them, and it is held until it is taken. -/
structure Pipelined (latency cycle : Nat) : Prop where
  together : lhsTransfers machine (machine.stateAt start inputs cycle) (inputs cycle) =
    rhsTransfers machine (machine.stateAt start inputs cycle) (inputs cycle)
  inOrder : results machine start inputs cycle <+: answers machine answer start inputs cycle
  underWay : (answers machine answer start inputs cycle).length ≤
    (results machine start inputs cycle).length + latency
  due : ∀ pair, accepts machine (machine.stateAt start inputs cycle) (inputs cycle) = [pair] →
    ∀ later, Nat.count (fun offset => flows machine start inputs (cycle + 1 + offset)) later + 1 =
      latency → offerAt machine start inputs (cycle + 1 + later) = some (answer pair)
  held : ∀ result, offerAt machine start inputs cycle = some result →
    (inputs cycle).resultReady = false → offerAt machine start inputs (cycle + 1) = some result

end Streams

namespace Core

variable {core : Core width Sign} {state start : State width Sign} {input : Input width}
  {places : Pipeline.Places (BitVec width × BitVec width)} {inputs : Nat → Input width}

theorem lhsTransfers_eq : lhsTransfers core.machine state input =
    (joinValid input.valids && PipelinedUnits.oehbReady state.outputValid input.resultReady) :=
  valid_and_joinReady input.valids _ 0

theorem rhsTransfers_eq : rhsTransfers core.machine state input =
    (joinValid input.valids && PipelinedUnits.oehbReady state.outputValid input.resultReady) :=
  valid_and_joinReady input.valids _ 1

/-- The pairs that are accepted enter the pipeline. -/
theorem Represents.accepts (represents : core.Represents state places) :
    accepts core.machine state input = Pipeline.takes (width + 2) places input.joined := by
  have ready := @Represents.oehbReady _ _ core _ input _ represents
  rw [SequentialUnits.accepts, lhsTransfers_eq, ready, Pipeline.takes, Pipeline.entering]
  cases Pipeline.moves (width + 2) places input.joined <;>
    cases valid : joinValid input.valids <;> simp [Input.joined, valid]

/-- What is offered is the answer to the pair in the last place. -/
theorem Represents.offer (represents : core.Represents state places) :
    offer core.machine state input = (places (width + 2)).map core.answer := by
  rw [SequentialUnits.offer]
  simp only [machine, represents.outputValid]
  cases here : places (width + 2) with
  | none => rfl
  | some pair =>
    rw [represents.result pair here]
    rfl

theorem Represents.sends (represents : core.Represents state places) :
    sends core.machine state input =
      (Pipeline.sends (width + 2) places input.joined).map core.answer := by
  rw [SequentialUnits.sends, represents.offer, Pipeline.sends, Input.joined]
  cases input.resultReady <;> cases places (width + 2) <;> rfl

/-- The pipeline that a run of the unit simulates. -/
abbrev placesAt (inputs : Nat → Input width) :
    Nat → Pipeline.Places (BitVec width × BitVec width) :=
  (Pipeline.machine (width + 2)).stateAt Pipeline.empty fun cycle => (inputs cycle).joined

theorem represents_stateAt (reset : Reset start) (inputs : Nat → Input width) (cycle : Nat) :
    core.Represents (core.machine.stateAt start inputs cycle) (placesAt inputs cycle) :=
  @Machine.simulates _ _ _ _ _ _ core.machine (Pipeline.machine (width + 2)) Input.joined
    core.Represents start Pipeline.empty (represents_empty reset)
    (fun _ _ _ represents => represents.next) inputs cycle

theorem offerAt_eq (reset : Reset start) (inputs : Nat → Input width) (cycle : Nat) :
    offerAt core.machine start inputs cycle =
      (placesAt inputs cycle (width + 2)).map core.answer :=
  (represents_stateAt reset inputs cycle).offer

theorem flows_eq (reset : Reset start) (inputs : Nat → Input width) (cycle : Nat) :
    flows core.machine start inputs cycle =
      Pipeline.moves (width + 2) (placesAt inputs cycle) (inputs cycle).joined := by
  rw [flows, offerAt_eq reset, Option.isNone_map]
  rfl

theorem answers_eq (reset : Reset start) (inputs : Nat → Input width) (cycle : Nat) :
    answers core.machine core.answer start inputs cycle =
      ((Pipeline.machine (width + 2)).collect (Pipeline.takes (width + 2)) Pipeline.empty
        (fun cycle => (inputs cycle).joined) cycle).map core.answer := by
  rw [answers]
  congr 1
  induction cycle with
  | zero => rfl
  | succ cycle ih =>
    rw [Machine.collect_succ, Machine.collect_succ, ih, (represents_stateAt reset inputs cycle).accepts]

theorem results_eq (reset : Reset start) (inputs : Nat → Input width) (cycle : Nat) :
    results core.machine start inputs cycle =
      ((Pipeline.machine (width + 2)).collect (Pipeline.sends (width + 2)) Pipeline.empty
        (fun cycle => (inputs cycle).joined) cycle).map core.answer := by
  rw [results]
  induction cycle with
  | zero => rfl
  | succ cycle ih =>
    rw [Machine.collect_succ, Machine.collect_succ, List.map_append, ih,
      (represents_stateAt reset inputs cycle).sends]

/-- A unit is a pipeline for its answer, for whatever its registers hold at reset. -/
theorem pipelined (core : Core width Sign) (reset : Reset start) (inputs : Nat → Input width)
    (cycle : Nat) :
    Pipelined core.machine core.answer start inputs (width + 3) cycle := by
  have queued := @Pipeline.takes_eq_sends _ (width + 2) (fun cycle => (inputs cycle).joined) cycle
  have split : answers core.machine core.answer start inputs cycle =
      results core.machine start inputs cycle ++
        (Pipeline.held (width + 2) (placesAt inputs cycle)).map core.answer := by
    rw [answers_eq reset, results_eq reset, queued, List.map_append]
  refine ⟨lhsTransfers_eq.trans rhsTransfers_eq.symm, ⟨_, split.symm⟩, ?_, ?_, ?_⟩
  · rw [split, List.length_append, List.length_map]
    exact Nat.add_le_add_left Pipeline.length_held_le _
  · intro pair accepted later counted
    rw [(represents_stateAt reset inputs cycle).accepts] at accepted
    have moved := Pipeline.place_of_moves (Pipeline.first_of_takes accepted) later
    simp only [flows_eq reset] at counted
    rw [Nat.zero_add, Nat.succ.inj counted] at moved
    rw [offerAt_eq reset, placesAt, moved]
    rfl
  · intro result offered waits
    rw [offerAt_eq reset] at offered ⊢
    obtain ⟨pair, here, rfl⟩ := Option.map_eq_some_iff.mp offered
    have stalls : Pipeline.moves (width + 2) (placesAt inputs cycle) (inputs cycle).joined =
        false := by
      simp [Pipeline.moves, here, Input.joined, waits]
    rw [placesAt, Machine.stateAt_succ, Pipeline.next_of_stalls stalls, here]
    rfl

end Core

end Dynamatic.PipelinedUnits
