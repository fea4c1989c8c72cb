import Dynamatic.Clocked.Fifo
import Dynamatic.Clocked.Machine
import Dynamatic.Handshake.Forks
import Dynamatic.Numerals

/-!
# The speculator

The speculator predicts the data of an iteration before it comes and keeps its
predictions in a history until the real data confirms or refutes them. The
definitions follow `speculator.py` entity by entity: the core with its state
machine, the predictor, the prediction FIFO, the lazy forks behind the core's
events and the decoders that join them into the four outputs.
-/

namespace Dynamatic.Speculation.Speculator

open Dynamatic.Clocked Dynamatic.Handshake

variable {bitwidth : Nat}

/-- The states of `specFSM`. -/
inductive Fsm where
  | idle
  | kill
  | killOnlyData
  deriving DecidableEq

/-- The tokens of `ctrl_issue`. -/
inductive Issue where
  | doSpec
  | resend
  | noCmp
  deriving DecidableEq

/-- The tokens of `ctrl_history`. -/
inductive History where
  | resolve
  | resend
  | noCmp
  deriving DecidableEq

/-- The tokens of `ctrl_commit`. -/
inductive Commit where
  | pass
  | kill
  deriving DecidableEq

/-- The registers: the core's, the predictor's, the data fork's and the
prediction history. -/
structure State (bitwidth : Nat) where
  fsm : Fsm
  resendDone : Bool
  dataToResend : BitVec bitwidth
  dataReg : BitVec bitwidth
  transmitValue : Fin 2 → Bool
  predFifo : Fifo (BitVec bitwidth)

/-- The ports the environment drives. -/
structure Input (bitwidth : Nat) where
  ins : BitVec bitwidth
  insValid : Bool
  insSpec : Bool
  triggerValid : Bool
  triggerSpec : Bool
  outsReady : Bool
  issueReady : Bool
  historyReady : Bool
  commitReady : Bool

/-- The ports the unit drives. -/
structure Output (bitwidth : Nat) where
  insReady : Bool
  triggerReady : Bool
  outs : BitVec bitwidth
  outsSpec : Bool
  outsValid : Bool
  issue : Issue
  issueValid : Bool
  history : History
  historyValid : Bool
  commit : Commit
  commitValid : Bool

/-- What `specFSMOutputs` drives. -/
structure CoreOutputs where
  dataInReady : Bool := false
  triggerReady : Bool := false
  predHistInReady : Bool := false
  predHistOutValid : Bool := false
  doSpecValid : Bool := false
  resolveSpecValid : Bool := false
  killValid : Bool := false
  noCmpValid : Bool := false
  resendValid : Bool := false

section Core

variable (state : State bitwidth) (input : Input bitwidth)

open Numerals in
def dataInValid : Bool := state.transmitValue 0 && input.insValid

def predHistIn : BitVec bitwidth := state.predFifo.memory state.predFifo.head

def predHistInValid : Bool := !state.predFifo.empty

def predHistOutReady : Bool := !state.predFifo.full

def misspecDetected : Bool :=
  dataInValid state input && predHistInValid state && decide (input.ins ≠ predHistIn state)

def dataMatchesPrediction : Bool :=
  dataInValid state input && predHistInValid state && decide (input.ins = predHistIn state)

def readyToReSpeculate : Bool := !predHistInValid state && (input.triggerValid && !input.triggerSpec)

def nonspecDataArrived : Bool := dataInValid state input && !input.insSpec

def nextFsm : Fsm :=
  match state.fsm with
  | .idle => if misspecDetected state input then .kill else .idle
  | .kill =>
      if readyToReSpeculate state input then
        if nonspecDataArrived state input then .idle else .killOnlyData
      else .kill
  | .killOnlyData => if nonspecDataArrived state input then .idle else .killOnlyData

def dataBeforePrediction : Bool :=
  input.triggerValid && dataInValid state input && !predHistInValid state

def doSpec : Bool := input.triggerValid && predHistOutReady state

/-- The sinks of the do-spec fork: the data decoder and the issue decoder. -/
def doSpecSinks : Fin 2 → Bool := ![input.outsReady, input.issueReady]

/-- The sinks of the resolve fork: the history decoder and the commit decoder. -/
def resolveSinks : Fin 2 → Bool := ![input.historyReady, input.commitReady]

/-- The sinks of the resend and no-compare forks: the data, issue and history
decoders. -/
def resendSinks : Fin 3 → Bool := ![input.outsReady, input.issueReady, input.historyReady]

/-- `specFSMOutputs`. -/
def coreOutputs : CoreOutputs :=
  match state.fsm with
  | .idle =>
      if misspecDetected state input then { dataInReady := true, triggerReady := true }
      else
        let matched := dataMatchesPrediction state input
        let before := dataBeforePrediction state input
        let speculates := !before && doSpec state input
        { dataInReady :=
            if before then lazyForkReady (resendSinks input)
            else matched && lazyForkReady (resolveSinks input)
          triggerReady :=
            if before then lazyForkReady (resendSinks input)
            else speculates && lazyForkReady (doSpecSinks input)
          predHistInReady := matched && lazyForkReady (resolveSinks input)
          predHistOutValid := speculates && lazyForkReady (doSpecSinks input)
          doSpecValid := speculates
          resolveSpecValid := matched
          noCmpValid := before }
  | .kill =>
      { dataInReady := input.insSpec
        triggerReady := input.triggerSpec
        predHistInReady := input.commitReady
        killValid := predHistInValid state
        resendValid := !state.resendDone }
  | .killOnlyData =>
      { dataInReady := input.insSpec
        triggerReady := doSpec state input && lazyForkReady (doSpecSinks input)
        predHistOutValid := doSpec state input && lazyForkReady (doSpecSinks input)
        doSpecValid := doSpec state input }

/-- The outputs of the data fork: the core, and the predictor, which is always
ready. -/
def dataSinks : Fin 2 → Bool := ![(coreOutputs state input).dataInReady, true]

def tailEn : Bool := !state.predFifo.full && (coreOutputs state input).predHistOutValid

def headEn : Bool := !state.predFifo.empty && (coreOutputs state input).predHistInReady

open Numerals in
/-- The clocked processes; `depth` is the number of words of the history, whose
full flag looks two slots ahead. -/
def next (depth : Nat) : State bitwidth where
  fsm := nextFsm state input
  resendDone :=
    if state.fsm = .idle ∧ misspecDetected state input then false
    else if state.fsm = .kill ∧ lazyForkReady (resendSinks input) then true
    else state.resendDone
  dataToResend :=
    if state.fsm = .idle ∧ misspecDetected state input then input.ins else state.dataToResend
  dataReg := if state.transmitValue 1 && input.insValid then input.ins else state.dataReg
  transmitValue := transmitNext input.insValid state.transmitValue (dataSinks state input)
  predFifo :=
    state.predFifo.step depth 2 (tailEn state input) (headEn state input) state.dataReg

open Numerals in
/-- The decoders, over the lazy forks of the core's events. -/
def output : Output bitwidth :=
  let core := coreOutputs state input
  let doSpecOut := lazyForkValid core.doSpecValid (doSpecSinks input)
  let resolveOut := lazyForkValid core.resolveSpecValid (resolveSinks input)
  let resendOut := lazyForkValid core.resendValid (resendSinks input)
  let noCmpOut := lazyForkValid core.noCmpValid (resendSinks input)
  { insReady := eagerForkReady state.transmitValue (dataSinks state input)
    triggerReady := core.triggerReady
    outs :=
      if doSpecOut 0 then state.dataReg
      else if resendOut 0 then state.dataToResend else input.ins
    outsSpec := doSpecOut 0
    outsValid := doSpecOut 0 || resendOut 0 || noCmpOut 0
    issue := if resendOut 1 then .resend else if noCmpOut 1 then .noCmp else .doSpec
    issueValid := doSpecOut 1 || resendOut 1 || noCmpOut 1
    history := if resendOut 2 then .resend else if noCmpOut 2 then .noCmp else .resolve
    historyValid := resolveOut 0 || resendOut 2 || noCmpOut 2
    commit := if core.killValid then .kill else .pass
    commitValid := resolveOut 1 || core.killValid }

end Core

/-- The registers after reset, over what the unreset ones hold at power-up. -/
def reset (dataToResend : BitVec bitwidth) (memory : Nat → BitVec bitwidth) : State bitwidth where
  fsm := .idle
  resendDone := false
  dataToResend := dataToResend
  dataReg := 0
  transmitValue _ := true
  predFifo := .reset memory

def machine (bitwidth depth : Nat) :
    Machine (State bitwidth) (Input bitwidth) (Output bitwidth) where
  next state input := next state input depth
  output := output

/-- A speculator with a history of at least two words, what its unreset registers
hold at power-up, and the inputs it is driven with from reset on. -/
structure Run (bitwidth : Nat) where
  depth : Nat
  deep : 2 ≤ depth
  dataToResend : BitVec bitwidth
  memory : Nat → BitVec bitwidth
  inputs : Nat → Input bitwidth

namespace Run

variable (run : Run bitwidth)

def stateAt (cycle : Nat) : State bitwidth :=
  (machine bitwidth run.depth).stateAt (reset run.dataToResend run.memory) run.inputs cycle

def outputAt (cycle : Nat) : Output bitwidth :=
  (machine bitwidth run.depth).outputAt (reset run.dataToResend run.memory) run.inputs cycle

/-- The token of `ctrl_issue` taken in a cycle. -/
def issued (cycle : Nat) : Option Issue :=
  if (run.outputAt cycle).issueValid && (run.inputs cycle).issueReady then
    some (run.outputAt cycle).issue
  else none

/-- The token of `ctrl_history` taken in a cycle. -/
def recorded (cycle : Nat) : Option History :=
  if (run.outputAt cycle).historyValid && (run.inputs cycle).historyReady then
    some (run.outputAt cycle).history
  else none

/-- The token of the data output taken in a cycle, with its spec bit. -/
def sent (cycle : Nat) : Option (BitVec bitwidth × Bool) :=
  if (run.outputAt cycle).outsValid && (run.inputs cycle).outsReady then
    some ((run.outputAt cycle).outs, (run.outputAt cycle).outsSpec)
  else none

/-- The data token taken from the input in a cycle. -/
def taken (cycle : Nat) : Option (BitVec bitwidth) :=
  if (run.inputs cycle).insValid && (run.outputAt cycle).insReady then
    some (run.inputs cycle).ins
  else none

end Run

section Events

variable (state : State bitwidth) (input : Input bitwidth)

def fireDoSpec : Bool :=
  (coreOutputs state input).doSpecValid && lazyForkReady (doSpecSinks input)

def fireResolve : Bool :=
  (coreOutputs state input).resolveSpecValid && lazyForkReady (resolveSinks input)

def fireKill : Bool := (coreOutputs state input).killValid && input.commitReady

def fireResend : Bool :=
  (coreOutputs state input).resendValid && lazyForkReady (resendSinks input)

def fireNoCmp : Bool :=
  (coreOutputs state input).noCmpValid && lazyForkReady (resendSinks input)

end Events

section EventFacts

variable {state : State bitwidth} {input : Input bitwidth}

/-- The history is pushed exactly when a DO_SPEC leaves. -/
theorem tailEn_eq : tailEn state input = fireDoSpec state input := by
  simp only [tailEn, fireDoSpec, coreOutputs]
  cases state.fsm with
  | idle =>
      cases misspecDetected state input <;> cases full : state.predFifo.full <;>
        simp [doSpec, predHistOutReady, full]
  | kill => simp
  | killOnlyData => cases full : state.predFifo.full <;> simp [doSpec, predHistOutReady, full]

/-- The history is popped exactly when a prediction is confirmed or killed. -/
theorem headEn_eq : headEn state input = (fireResolve state input || fireKill state input) := by
  simp only [headEn, fireResolve, fireKill, coreOutputs]
  cases state.fsm with
  | idle =>
      cases misspecDetected state input <;> cases empty : state.predFifo.empty <;>
        simp [dataMatchesPrediction, predHistInValid, empty]
  | kill => simp [predHistInValid]
  | killOnlyData => simp

/-- A DO_SPEC and a NO_CMP never leave together. -/
theorem fireNoCmp_of_fireDoSpec (fired : fireDoSpec state input = true) :
    fireNoCmp state input = false := by
  simp only [fireDoSpec, fireNoCmp, coreOutputs] at fired ⊢
  cases fsm : state.fsm with
  | idle =>
      cases misspec : misspecDetected state input <;>
        cases before : dataBeforePrediction state input <;> simp_all
  | kill => simp
  | killOnlyData => simp

theorem fsm_of_fireResend (fired : fireResend state input = true) : state.fsm = .kill := by
  simp only [fireResend, coreOutputs] at fired
  cases fsm : state.fsm with
  | idle => cases misspec : misspecDetected state input <;> simp_all
  | kill => rfl
  | killOnlyData => simp_all

theorem fsm_of_fireKill (fired : fireKill state input = true) :
    state.fsm = .kill ∧ state.predFifo.empty = false := by
  simp only [fireKill, coreOutputs] at fired
  cases fsm : state.fsm with
  | idle => cases misspec : misspecDetected state input <;> simp_all
  | kill => simp_all [predHistInValid]
  | killOnlyData => simp_all

/-- A confirmed prediction equals the data that confirms it. -/
theorem fireResolve_iff : fireResolve state input = true ↔
    state.fsm = .idle ∧ dataMatchesPrediction state input = true ∧
      lazyForkReady (resolveSinks input) = true := by
  simp only [fireResolve, coreOutputs]
  cases state.fsm with
  | idle =>
      cases misspec : misspecDetected state input with
      | false => simp
      | true =>
          have unmatched : dataMatchesPrediction state input = false := by
            simp only [misspecDetected, Bool.and_eq_true, decide_eq_true_eq] at misspec
            simp [dataMatchesPrediction, misspec.2]
          simp [unmatched]
  | kill => simp
  | killOnlyData => simp

theorem kill_no_events (input : Input bitwidth) (killing : state.fsm = .kill) :
    fireDoSpec state input = false ∧ fireNoCmp state input = false ∧
      fireResolve state input = false := by
  simp [fireDoSpec, fireNoCmp, fireResolve, coreOutputs, killing]

end EventFacts

namespace Run

variable (run : Run bitwidth) (cycle : Nat)

theorem stateAt_succ :
    run.stateAt (cycle + 1) = next (run.stateAt cycle) (run.inputs cycle) run.depth := rfl

theorem outputAt_eq : run.outputAt cycle = output (run.stateAt cycle) (run.inputs cycle) := rfl

/-- A decoder that joins three offers into one output passes on the first in its
order that transfers. -/
private theorem decoder_token {α : Type} (ready third first second : Bool) (x y z : α) :
    (if (third || first || second) && ready then
        some (if first then x else if second then y else z) else none) =
      if first && ready then some x else if second && ready then some y
      else if third && ready then some z else none := by
  cases ready <;> cases third <;> cases first <;> cases second <;> rfl

/-- `ctrl_issue` carries the core's events. -/
theorem issued_eq :
    run.issued cycle =
      if fireResend (run.stateAt cycle) (run.inputs cycle) then some .resend
      else if fireNoCmp (run.stateAt cycle) (run.inputs cycle) then some .noCmp
      else if fireDoSpec (run.stateAt cycle) (run.inputs cycle) then some .doSpec
      else none := by
  rw [fireResend, fireNoCmp, fireDoSpec, ← lazyForkValid_and_ready _ (doSpecSinks _) 1,
    ← lazyForkValid_and_ready _ (resendSinks _) 1, ← lazyForkValid_and_ready _ (resendSinks _) 1]
  exact decoder_token _ _ _ _ _ _ _

/-- `ctrl_history` carries the core's events. -/
theorem recorded_eq :
    run.recorded cycle =
      if fireResend (run.stateAt cycle) (run.inputs cycle) then some .resend
      else if fireNoCmp (run.stateAt cycle) (run.inputs cycle) then some .noCmp
      else if fireResolve (run.stateAt cycle) (run.inputs cycle) then some .resolve
      else none := by
  rw [fireResend, fireNoCmp, fireResolve, ← lazyForkValid_and_ready _ (resolveSinks _) 0,
    ← lazyForkValid_and_ready _ (resendSinks _) 2, ← lazyForkValid_and_ready _ (resendSinks _) 2]
  exact decoder_token _ _ _ _ _ _ _

/-- `ctrl_commit` carries a kill or a pass, with the transfer of its event. -/
theorem commit_eq :
    ((run.outputAt cycle).commitValid && (run.inputs cycle).commitReady) =
        (fireResolve (run.stateAt cycle) (run.inputs cycle) ||
          fireKill (run.stateAt cycle) (run.inputs cycle)) ∧
      (run.outputAt cycle).commit =
        if (coreOutputs (run.stateAt cycle) (run.inputs cycle)).killValid then .kill else .pass := by
  refine ⟨?_, rfl⟩
  rw [fireResolve, fireKill, ← lazyForkValid_and_ready _ (resolveSinks _) 1]
  exact Bool.and_or_distrib_right _ _ _

/-- The data output shows the prediction when a DO_SPEC leaves. -/
theorem outs_of_fireDoSpec
    (fired : fireDoSpec (run.stateAt cycle) (run.inputs cycle) = true) :
    (run.outputAt cycle).outs = (run.stateAt cycle).dataReg := by
  rw [fireDoSpec, ← lazyForkValid_and_ready _ (doSpecSinks _) 0, Bool.and_eq_true] at fired
  exact if_pos fired.1

/-- The data, issue and history outputs all take the RESEND, with the kept data. -/
theorem resent_of_fireResend
    (fired : fireResend (run.stateAt cycle) (run.inputs cycle) = true) :
    run.sent cycle = some ((run.stateAt cycle).dataToResend, false) ∧
      run.issued cycle = some .resend ∧ run.recorded cycle = some .resend := by
  refine ⟨?_, by rw [issued_eq, fired]; rfl, by rw [recorded_eq, fired]; rfl⟩
  have killing := fsm_of_fireResend fired
  have unspeculated : (coreOutputs (run.stateAt cycle) (run.inputs cycle)).doSpecValid = false := by
    simp [coreOutputs, killing]
  rw [fireResend, ← lazyForkValid_and_ready _ (resendSinks _) 0, Bool.and_eq_true] at fired
  have ready : (run.inputs cycle).outsReady = true := fired.2
  simp [sent, outputAt_eq, output, fired.1, ready, unspeculated]

end Run

end Dynamatic.Speculation.Speculator
