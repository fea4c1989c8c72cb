import Mathlib.Algebra.BigOperators.Fin
import Mathlib.Algebra.Order.BigOperators.Group.Finset
import Mathlib.Tactic.FinCases
import Dynamatic.Clocked.Machine
import Dynamatic.Clocked.Scan

/-!
# Completion of the memory controller

A controller without loads counts the stores its basic blocks announce less the
stores it performs, and issues its memory-end token when the count is zero, no
announcement arrives and the end of the kernel's requests was announced. The
signals are those of `mem_controller_loadless.v` and of `mc_control`.

An announcement names how many stores it announces, not which. A zero count thus
says that as many stores were performed as announced, which is not the same once
a store has overtaken its announcement.
-/

namespace Dynamatic.MemoryController

open Dynamatic.Clocked

variable {numControls numStores addrType dataType : Nat}

/-- `priority_out` of `write_priority`. -/
def writePriority (req dataReady : Fin numStores → Bool) : Fin numStores → Bool :=
  grantFirst fun port => req port && dataReady port

/-- `ready` of `write_address_ready`. -/
def writeAddressReady (sel nReady : Fin numStores → Bool) (port : Fin numStores) : Bool :=
  nReady port && sel port

inductive Fsm where
  | idle
  | running
deriving DecidableEq

/-- The registers of `mc_control`. -/
structure Control where
  fsm : Fsm
  noMoreRequests : Bool
deriving DecidableEq

namespace Control

def reset : Control := { fsm := .idle, noMoreRequests := false }

variable (control : Control)

def fsmRunning : Bool := decide (control.fsm = .running)

def memStartReady : Bool := decide (control.fsm = .idle)

def memEndValid (allRequestsDone : Bool) : Bool :=
  control.noMoreRequests && allRequestsDone && control.fsmRunning

def ctrlEndReady : Bool := !control.noMoreRequests

def functionReturn (allRequestsDone memEndReady : Bool) : Bool :=
  control.noMoreRequests && allRequestsDone && memEndReady && control.fsmRunning

def next (memStartValid memEndReady ctrlEndValid allRequestsDone : Bool) : Control where
  fsm :=
    match control.fsm with
    | .idle => if memStartValid then .running else .idle
    | .running => if control.functionReturn allRequestsDone memEndReady then .idle else .running
  noMoreRequests :=
    if control.functionReturn allRequestsDone memEndReady then false
    else if ctrlEndValid then true else control.noMoreRequests

end Control

/-- What the controller reads in a cycle. -/
structure Input (numControls numStores addrType dataType : Nat) where
  memStartValid : Bool
  memEndReady : Bool
  ctrlEndValid : Bool
  ctrl : Fin numControls → BitVec 32
  ctrlValid : Fin numControls → Bool
  stAddr : Fin numStores → BitVec addrType
  stAddrValid : Fin numStores → Bool
  stData : Fin numStores → BitVec dataType
  stDataValid : Fin numStores → Bool

structure Output (numControls numStores addrType dataType : Nat) where
  memStartReady : Bool
  memEndValid : Bool
  ctrlEndReady : Bool
  ctrlReady : Fin numControls → Bool
  stAddrReady : Fin numStores → Bool
  stDataReady : Fin numStores → Bool
  storeEn : Bool
  storeAddr : BitVec addrType
  storeData : BitVec dataType

structure State where
  counter : BitVec 32
  control : Control

def State.reset : State := { counter := 0, control := .reset }

namespace Input

variable (input : Input numControls numStores addrType dataType)

def storeAccessPortCompleteRequest (port : Fin numStores) : Bool :=
  input.stAddrValid port && input.stDataValid port

/-- `priorityOut` of the write arbiter. -/
def priorityOut : Fin numStores → Bool :=
  writePriority input.storeAccessPortCompleteRequest fun _ => true

def storeAccessPortSelected (port : Fin numStores) : Bool :=
  writeAddressReady input.priorityOut (fun _ => true) port

def storeEn : Bool := (List.finRange numStores).any input.priorityOut

/-- The counter after the announcements and the store of a cycle. -/
def count (counter : BitVec 32) : BitVec 32 :=
  let announced := (List.finRange numControls).foldl
    (fun counter control =>
      if input.ctrlValid control then counter + input.ctrl control else counter) counter
  if input.storeEn then announced - 1 else announced

/-- No store remains and no announcement arrives. -/
def allRequestsDone (counter : BitVec 32) : Bool :=
  counter == 0 && (List.finRange numControls).all fun control => !input.ctrlValid control

end Input

def memControllerLoadless : Machine State (Input numControls numStores addrType dataType)
    (Output numControls numStores addrType dataType) where
  next state input :=
    { counter := input.count state.counter
      control := state.control.next input.memStartValid input.memEndReady input.ctrlEndValid
        (input.allRequestsDone state.counter) }
  output state input :=
    { memStartReady := state.control.memStartReady
      memEndValid := state.control.memEndValid (input.allRequestsDone state.counter)
      ctrlEndReady := state.control.ctrlEndReady
      ctrlReady := fun _ => true
      stAddrReady := input.storeAccessPortSelected
      stDataReady := input.storeAccessPortSelected
      storeEn := input.storeEn
      storeAddr := selectLast 0 input.priorityOut input.stAddr
      storeData := selectLast 0 input.priorityOut input.stData }

namespace Completion

section Run

variable (inputs : Nat → Input numControls numStores addrType dataType)

def stateAt (cycle : Nat) : State := memControllerLoadless.stateAt .reset inputs cycle

def outputAt (cycle : Nat) : Output numControls numStores addrType dataType :=
  memControllerLoadless.outputAt .reset inputs cycle

/-- How often a channel has transferred before a cycle. -/
def count (fires : Nat → Bool) : Nat → Nat
  | 0 => 0
  | cycle + 1 => count fires cycle + (fires cycle).toNat

/-- The memStart tokens accepted before a cycle. -/
def memStarts : Nat → Nat :=
  count fun cycle => (inputs cycle).memStartValid && (outputAt inputs cycle).memStartReady

/-- The memory-end tokens taken before a cycle. -/
def memEnds : Nat → Nat :=
  count fun cycle => (outputAt inputs cycle).memEndValid && (inputs cycle).memEndReady

/-- The ctrlEnd tokens accepted before a cycle. -/
def ctrlEnds : Nat → Nat :=
  count fun cycle => (inputs cycle).ctrlEndValid && (outputAt inputs cycle).ctrlEndReady

/-- The stores performed before a cycle. -/
def performed : Nat → Nat := count fun cycle => (outputAt inputs cycle).storeEn

/-- The stores of one port performed before a cycle. -/
def performedOn (port : Fin numStores) : Nat → Nat :=
  count fun cycle => (inputs cycle).storeAccessPortCompleteRequest port &&
    (outputAt inputs cycle).stAddrReady port

/-- The stores announced before a cycle. -/
def announced : Nat → Nat
  | 0 => 0
  | cycle + 1 => announced cycle +
      ∑ control, if (inputs cycle).ctrlValid control then ((inputs cycle).ctrl control).toNat else 0

variable (stores : Nat → Fin numControls → Fin numStores → Nat)

/-- Each announcement counts the stores it announces, given port by port. -/
def Announces : Prop :=
  ∀ cycle control, (inputs cycle).ctrlValid control = true →
    ∑ port, stores cycle control port = ((inputs cycle).ctrl control).toNat

/-- The stores of one port announced before a cycle. -/
def announcedOn (port : Fin numStores) : Nat → Nat
  | 0 => 0
  | cycle + 1 => announcedOn port cycle +
      ∑ control, if (inputs cycle).ctrlValid control then stores cycle control port else 0

/-- Fewer than 2^32 stores are outstanding: announced and not performed, or performed and
not announced. -/
def Bounded : Prop :=
  ∀ cycle, announced inputs cycle < performed inputs cycle + 2 ^ 32 ∧
    performed inputs cycle < announced inputs cycle + 2 ^ 32

/-- The counter tells how many stores remain, and a memory-end token is offered only after its
own ctrlEnd and memStart were accepted and every announced store has been performed. -/
structure Completes : Prop where
  counted : ∀ cycle, ((stateAt inputs cycle).counter.toNat : Int) =
    ((announced inputs cycle : Int) - performed inputs cycle) % 2 ^ 32
  afterCtrlEnd : ∀ cycle, memEnds inputs cycle + (outputAt inputs cycle).memEndValid.toNat ≤
    ctrlEnds inputs cycle
  afterStores : ∀ cycle, (outputAt inputs cycle).memEndValid = true →
    ∀ port, announcedOn inputs stores port (cycle + 1) ≤ performedOn inputs port cycle
  afterMemStart : ∀ cycle, memEnds inputs cycle + (outputAt inputs cycle).memEndValid.toNat ≤
    memStarts inputs cycle

/-- Once the kernel runs and its ctrlEnd was accepted, the stores ahead of their announcement
are never exactly as many as the announced ones that remain. -/
def NeverFalseZero : Prop :=
  ∀ cycle, (stateAt inputs cycle).control.fsm = .running →
    (stateAt inputs cycle).control.noMoreRequests = true →
    (∀ control, (inputs cycle).ctrlValid control = false) →
    (∃ port, announcedOn inputs stores port cycle < performedOn inputs port cycle) →
    announced inputs cycle ≠ performed inputs cycle

end Run

variable {inputs : Nat → Input numControls numStores addrType dataType}
  {stores : Nat → Fin numControls → Fin numStores → Nat} {cycle : Nat}

section Counter

variable (input : Input numControls numStores addrType dataType)

private theorem foldl_announce (controls : List (Fin numControls)) (counter : BitVec 32) :
    controls.foldl (fun counter control =>
        if input.ctrlValid control then counter + input.ctrl control else counter) counter =
      counter + BitVec.ofNat 32 (controls.map fun control =>
        if input.ctrlValid control then (input.ctrl control).toNat else 0).sum := by
  induction controls generalizing counter with
  | nil => simp
  | cons control rest inductionHypothesis =>
      rw [List.foldl_cons, inductionHypothesis, List.map_cons, List.sum_cons, BitVec.ofNat_add,
        ← BitVec.add_assoc]
      cases input.ctrlValid control <;> simp

theorem count_eq (counter : BitVec 32) :
    input.count counter =
      counter + BitVec.ofNat 32
        (∑ control, if input.ctrlValid control then (input.ctrl control).toNat else 0) -
          BitVec.ofNat 32 input.storeEn.toNat := by
  rw [Input.count, foldl_announce, Fin.sum_univ_def]
  cases input.storeEn <;> simp

end Counter

/-- The counter is the stores announced less those performed. -/
theorem counter_eq (cycle : Nat) :
    (stateAt inputs cycle).counter =
      BitVec.ofNat 32 (announced inputs cycle) - BitVec.ofNat 32 (performed inputs cycle) := by
  induction cycle with
  | zero => simp [stateAt, State.reset, announced, performed, count]
  | succ cycle inductionHypothesis =>
      change (inputs cycle).count (stateAt inputs cycle).counter = _
      have taken : performed inputs (cycle + 1) =
          performed inputs cycle + (inputs cycle).storeEn.toNat := rfl
      rw [count_eq, inductionHypothesis, announced, taken, BitVec.ofNat_add, BitVec.ofNat_add]
      grind

variable (inputs) in
theorem counter_toNat (cycle : Nat) :
    ((stateAt inputs cycle).counter.toNat : Int) =
      ((announced inputs cycle : Int) - performed inputs cycle) % 2 ^ 32 := by
  rw [counter_eq, BitVec.toNat_sub, BitVec.toNat_ofNat, BitVec.toNat_ofNat]
  omega

/-- With a bounded number of stores outstanding the counter is zero exactly when as many were
performed as announced. -/
theorem counter_eq_zero_iff (bounded : Bounded inputs) (cycle : Nat) :
    (stateAt inputs cycle).counter = 0 ↔ announced inputs cycle = performed inputs cycle := by
  have counted := counter_toNat inputs cycle
  obtain ⟨fewAnnounced, fewPerformed⟩ := bounded cycle
  constructor
  · intro zero
    simp only [zero, BitVec.ofNat_eq_ofNat, BitVec.toNat_ofNat] at counted
    omega
  · intro same
    apply BitVec.eq_of_toNat_eq
    simp only [BitVec.ofNat_eq_ofNat, BitVec.toNat_ofNat]
    omega

variable (inputs cycle) in
theorem memEndValid_eq_true :
    (outputAt inputs cycle).memEndValid = true ↔
      (stateAt inputs cycle).control.fsm = .running ∧
        (stateAt inputs cycle).control.noMoreRequests = true ∧
        (∀ control, (inputs cycle).ctrlValid control = false) ∧
        (stateAt inputs cycle).counter = 0 := by
  change ((stateAt inputs cycle).control.noMoreRequests &&
    ((stateAt inputs cycle).counter == 0 && _) && _) = true ↔ _
  simp only [Control.fsmRunning, Bool.and_eq_true, beq_iff_eq, decide_eq_true_eq, List.all_eq_true,
    List.mem_finRange, forall_const, Bool.not_eq_true']
  tauto

theorem Control.functionReturn_eq (control : Control) (allRequestsDone memEndReady : Bool) :
    control.functionReturn allRequestsDone memEndReady =
      (control.memEndValid allRequestsDone && memEndReady) := by
  simp only [Control.functionReturn, Control.memEndValid]
  cases control.fsmRunning <;> simp

theorem control_succ (cycle : Nat) :
    (stateAt inputs (cycle + 1)).control =
      { fsm :=
          match (stateAt inputs cycle).control.fsm with
          | .idle => if (inputs cycle).memStartValid then .running else .idle
          | .running =>
              if (outputAt inputs cycle).memEndValid && (inputs cycle).memEndReady then .idle
              else .running
        noMoreRequests :=
          if (outputAt inputs cycle).memEndValid && (inputs cycle).memEndReady then false
          else if (inputs cycle).ctrlEndValid then true
          else (stateAt inputs cycle).control.noMoreRequests } := by
  change Control.next _ _ _ _ _ = _
  rw [Control.next, Control.functionReturn_eq]
  rfl

/-- Each memStart token starts one execution, and each memory-end token ends one. -/
theorem memStarts_eq (cycle : Nat) :
    memStarts inputs cycle =
      memEnds inputs cycle + (stateAt inputs cycle).control.fsmRunning.toNat := by
  induction cycle with
  | zero => rfl
  | succ cycle inductionHypothesis =>
      have offered := memEndValid_eq_true inputs cycle
      have ready : (outputAt inputs cycle).memStartReady =
        decide ((stateAt inputs cycle).control.fsm = .idle) := rfl
      rw [memStarts, memEnds, count, count, ← memStarts, ← memEnds, inductionHypothesis, ready,
        Control.fsmRunning, Control.fsmRunning, control_succ]
      cases before : (stateAt inputs cycle).control.fsm with
      | idle =>
          have silent : (outputAt inputs cycle).memEndValid = false := by
            simpa [before] using offered
          cases started : (inputs cycle).memStartValid <;> simp [silent]
      | running =>
          cases ended : ((outputAt inputs cycle).memEndValid && (inputs cycle).memEndReady) <;> simp

/-- A ctrlEnd token waits until the memory-end token it allows is taken. -/
theorem ctrlEnds_eq (cycle : Nat) :
    ctrlEnds inputs cycle =
      memEnds inputs cycle + (stateAt inputs cycle).control.noMoreRequests.toNat := by
  induction cycle with
  | zero => rfl
  | succ cycle inductionHypothesis =>
      have offered := memEndValid_eq_true inputs cycle
      have ready : (outputAt inputs cycle).ctrlEndReady =
        !(stateAt inputs cycle).control.noMoreRequests := rfl
      rw [ctrlEnds, memEnds, count, count, ← ctrlEnds, ← memEnds, inductionHypothesis, ready,
        control_succ]
      cases before : (stateAt inputs cycle).control.noMoreRequests with
      | false =>
          have silent : (outputAt inputs cycle).memEndValid = false := by
            simpa [before] using offered
          cases arrived : (inputs cycle).ctrlEndValid <;> simp [silent]
      | true =>
          cases ended : ((outputAt inputs cycle).memEndValid && (inputs cycle).memEndReady) <;> simp

section Stores

theorem announced_eq_sum (announces : Announces inputs stores) (cycle : Nat) :
    announced inputs cycle = ∑ port, announcedOn inputs stores port cycle := by
  induction cycle with
  | zero => simp [announced, announcedOn]
  | succ cycle inductionHypothesis =>
      simp only [announced, announcedOn, Finset.sum_add_distrib, inductionHypothesis]
      rw [Finset.sum_comm]
      refine congrArg _ (Finset.sum_congr rfl fun control _ => ?_)
      cases valid : (inputs cycle).ctrlValid control with
      | false => simp
      | true => simp [announces cycle control valid]

/-- The stores a port performs in a cycle are the grants it gets. -/
theorem storeEn_toNat (cycle : Nat) :
    (inputs cycle).storeEn.toNat =
      ∑ port, ((inputs cycle).storeAccessPortCompleteRequest port &&
        (outputAt inputs cycle).stAddrReady port).toNat := by
  have granted : ∀ port, ((inputs cycle).storeAccessPortCompleteRequest port &&
      (outputAt inputs cycle).stAddrReady port) = (inputs cycle).priorityOut port := by
    intro port
    change ((inputs cycle).storeAccessPortCompleteRequest port &&
      (true && (inputs cycle).priorityOut port)) = _
    cases chosen : (inputs cycle).priorityOut port with
    | false => simp
    | true =>
        have asked := asks_of_grantFirst chosen
        simpa using asked
  simp only [granted]
  cases enabled : (inputs cycle).storeEn with
  | false =>
      have none : ∀ port, (inputs cycle).priorityOut port = false := by
        simpa [Input.storeEn] using enabled
      simp [none]
  | true =>
      obtain ⟨port, chosen⟩ : ∃ port, (inputs cycle).priorityOut port = true := by
        simpa [Input.storeEn] using enabled
      rw [Finset.sum_eq_single port, chosen]
      · intro other _ different
        rw [Bool.toNat_eq_zero, Bool.eq_false_iff]
        exact fun chosenOther => different (grantFirst_unique chosenOther chosen)
      · exact fun absent => absurd (Finset.mem_univ port) absent

theorem performed_eq_sum (cycle : Nat) :
    performed inputs cycle = ∑ port, performedOn inputs port cycle := by
  induction cycle with
  | zero => simp [performed, performedOn, count]
  | succ cycle inductionHypothesis =>
      calc performed inputs cycle + (inputs cycle).storeEn.toNat
          = (∑ port, performedOn inputs port cycle) + ∑ port, _ := by
            rw [inductionHypothesis, storeEn_toNat]
        _ = ∑ port, performedOn inputs port (cycle + 1) := Finset.sum_add_distrib.symm

/-- When no announcement arrives, every announced store has been performed, provided as many
were performed as announced and none is ahead of its announcement. -/
theorem announcedOn_le_of_balanced (announces : Announces inputs stores)
    (silent : ∀ control, (inputs cycle).ctrlValid control = false)
    (balanced : announced inputs cycle = performed inputs cycle)
    (noneAhead : ∀ port, performedOn inputs port cycle ≤ announcedOn inputs stores port cycle)
    (port : Fin numStores) :
    announcedOn inputs stores port (cycle + 1) ≤ performedOn inputs port cycle := by
  rw [announced_eq_sum announces, performed_eq_sum] at balanced
  have each := (Finset.sum_eq_sum_iff_of_le fun port _ => noneAhead port).mp balanced.symm
  simp [announcedOn, silent, each port (Finset.mem_univ port)]

end Stores

/-- The controller completes as it should in exactly the runs in which it never sees a false
zero: as many stores ahead of their announcement as announced ones that remain. -/
theorem completes_iff (announces : Announces inputs stores) (bounded : Bounded inputs) :
    Completes inputs stores ↔ NeverFalseZero inputs stores := by
  constructor
  · rintro completes cycle running ended silent ⟨port, ahead⟩ balanced
    have offered := (memEndValid_eq_true inputs cycle).mpr
      ⟨running, ended, silent, (counter_eq_zero_iff bounded cycle).mpr balanced⟩
    have done : ∀ port, announcedOn inputs stores port cycle ≤ performedOn inputs port cycle := by
      intro port
      simpa [announcedOn, silent] using completes.afterStores cycle offered port
    rw [announced_eq_sum announces, performed_eq_sum] at balanced
    have each := (Finset.sum_eq_sum_iff_of_le fun port _ => done port).mp balanced
    exact absurd (each port (Finset.mem_univ port)) (Nat.ne_of_lt ahead)
  · intro neverFalse
    refine ⟨counter_toNat inputs, fun cycle => ?_, fun cycle offered => ?_, fun cycle => ?_⟩
    · rw [ctrlEnds_eq]
      have allowed := memEndValid_eq_true inputs cycle
      cases offered : (outputAt inputs cycle).memEndValid <;> simp_all
    · obtain ⟨running, ended, silent, zero⟩ := (memEndValid_eq_true inputs cycle).mp offered
      have balanced := (counter_eq_zero_iff bounded cycle).mp zero
      refine announcedOn_le_of_balanced announces silent balanced fun port => ?_
      by_contra ahead
      exact neverFalse cycle running ended silent ⟨port, Nat.lt_of_not_le ahead⟩ balanced
    · rw [memStarts_eq]
      have allowed := memEndValid_eq_true inputs cycle
      cases offered : (outputAt inputs cycle).memEndValid <;> simp_all [Control.fsmRunning]

/-- Two blocks announce a store each, in cycles 0 and 2. If the second block's store overtakes
its announcement it comes in cycle 0 with the ctrlEnd token, and the first block's in cycle 2. -/
def kernelInputs (overtakes : Bool) : Nat → Input 2 2 8 8
  | 0 =>
      { memStartValid := true, memEndReady := true, ctrlEndValid := overtakes
        ctrl := ![1, 0], ctrlValid := ![true, false]
        stAddr := ![3, 4], stAddrValid := ![!overtakes, overtakes]
        stData := ![5, 6], stDataValid := ![!overtakes, overtakes] }
  | 2 =>
      { memStartValid := false, memEndReady := true, ctrlEndValid := !overtakes
        ctrl := ![0, 1], ctrlValid := ![false, true]
        stAddr := ![3, 4], stAddrValid := ![overtakes, !overtakes]
        stData := ![5, 6], stDataValid := ![overtakes, !overtakes] }
  | _ =>
      { memStartValid := false, memEndReady := true, ctrlEndValid := false
        ctrl := ![0, 0], ctrlValid := ![false, false]
        stAddr := ![0, 0], stAddrValid := ![false, false]
        stData := ![0, 0], stDataValid := ![false, false] }

/-- Each block announces the store of its own port. -/
def kernelStores (_ : Nat) (control port : Fin 2) : Nat := if control = port then 1 else 0

theorem kernelInputs_announces (overtakes : Bool) :
    Announces (kernelInputs overtakes) kernelStores := by
  intro cycle control valid
  match cycle with
  | 0 => revert overtakes control; decide
  | 1 => revert overtakes control; decide
  | 2 => revert overtakes control; decide
  | cycle + 3 => revert valid; fin_cases control <;> simp [kernelInputs]

/-- Nothing happens from cycle 3 on. -/
theorem kernelInputs_settled (overtakes : Bool) (cycle : Nat) :
    announced (kernelInputs overtakes) (cycle + 3) = announced (kernelInputs overtakes) 3 ∧
    performed (kernelInputs overtakes) (cycle + 3) = performed (kernelInputs overtakes) 3 ∧
    ∀ port,
      announcedOn (kernelInputs overtakes) kernelStores port (cycle + 3) =
        announcedOn (kernelInputs overtakes) kernelStores port 3 ∧
      performedOn (kernelInputs overtakes) port (cycle + 3) =
        performedOn (kernelInputs overtakes) port 3 := by
  induction cycle with
  | zero => simp
  | succ cycle inductionHypothesis =>
      obtain ⟨announcedEq, performedEq, onEach⟩ := inductionHypothesis
      refine ⟨announcedEq, performedEq, fun port => ?_⟩
      rw [← (onEach port).1, ← (onEach port).2]
      fin_cases port <;> exact ⟨rfl, rfl⟩

theorem kernelInputs_bounded (overtakes : Bool) : Bounded (kernelInputs overtakes) := by
  intro cycle
  match cycle with
  | 0 => revert overtakes; decide
  | 1 => revert overtakes; decide
  | 2 => revert overtakes; decide
  | cycle + 3 =>
      rw [(kernelInputs_settled overtakes cycle).1, (kernelInputs_settled overtakes cycle).2.1]
      revert overtakes
      decide

theorem kernelInputs_completes : Completes (kernelInputs false) kernelStores := by
  refine (completes_iff (kernelInputs_announces false) (kernelInputs_bounded false)).mpr ?_
  rintro cycle - - - ⟨port, ahead⟩
  refine absurd ahead (Nat.not_lt.mpr ?_)
  match cycle with
  | 0 => revert port; decide
  | 1 => revert port; decide
  | 2 => revert port; decide
  | cycle + 3 =>
      obtain ⟨announcedEq, performedEq⟩ := (kernelInputs_settled false cycle).2.2 port
      rw [announcedEq, performedEq]
      clear ahead announcedEq performedEq
      revert port
      decide

/-- With the second block's store ahead of its announcement, the memory-end token is offered
while the first block's announced store has not been performed. -/
theorem not_completes_of_overtaken :
    Announces (kernelInputs true) kernelStores ∧ Bounded (kernelInputs true) ∧
      ¬ Completes (kernelInputs true) kernelStores := by
  refine ⟨kernelInputs_announces true, kernelInputs_bounded true, fun completes => ?_⟩
  have late := completes.afterStores 1 (by decide) 0
  revert late
  decide

end Completion

end Dynamatic.MemoryController
