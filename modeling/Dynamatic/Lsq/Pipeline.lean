import Dynamatic.Lsq.Circuit

/-!
# Runs of the load-store queue

A run is the queue's cycles from reset, next to what the kernel around it means by
its accesses and what the memory behind it does. The kernel's accesses are the
loads and stores of the groups in the order they are allocated; the k-th access of
a port has the k-th address and data of that port. The memory performs the writes
it accepts in order and answers a read with the word at some instant between the
request and the response.
-/

namespace Dynamatic.Lsq

open Dynamatic.Clocked

variable {configs : Configs}

/-- The registers over time; what a cycle shows is the cycle itself. -/
def machine (configs : Configs) : Machine (State configs) (Input configs) (Cycle configs) where
  next state input := (Cycle.mk state input).next
  output := Cycle.mk

/-- A load of the kernel: its port, and how many stores are ordered before it. -/
structure Load where
  port : Nat
  before : Nat
  deriving DecidableEq, Inhabited

/-- A run from reset, with the addresses and data the kernel has for the accesses of
each port, what the memory holds at first, how many writes it has performed by each
cycle, and the request, by cycle and channel, that each read response answers. -/
structure Run (configs : Configs) where
  start : State configs
  reset : Reset start
  inputs : Nat → Input configs
  ldAddr : Nat → Nat → BitVec configs.addrW
  stAddr : Nat → Nat → BitVec configs.addrW
  stData : Nat → Nat → BitVec configs.dataW
  memory : BitVec configs.addrW → BitVec configs.dataW
  performed : Nat → Nat
  request : Nat → Nat → Nat × Nat

namespace Run

variable (run : Run configs)

def cycle (time : Nat) : Cycle configs := (machine configs).outputAt run.start run.inputs time

theorem input_cycle (time : Nat) : (run.cycle time).input = run.inputs time := rfl

theorem state_zero : (run.cycle 0).state = run.start := rfl

theorem state_succ (time : Nat) : (run.cycle (time + 1)).state = (run.cycle time).next := rfl

section Allocation

/-- The group accepted in a cycle. -/
def groupAt (time : Nat) : Option Nat :=
  (List.range configs.numGroups).find? (run.cycle time).groupInitHs

/-- The stores allocated before a cycle, by their ports, in program order. -/
def stores : Nat → List Nat
  | 0 => []
  | time + 1 =>
      stores time ++ match run.groupAt time with
        | none => []
        | some group =>
            (List.range (configs.gaNumStores.getD group 0)).map
              (Configs.value configs.gaStPortIdx group)

/-- The loads allocated before a cycle, in program order. -/
def loads : Nat → List Load
  | 0 => []
  | time + 1 =>
      loads time ++ match run.groupAt time with
        | none => []
        | some group =>
            (List.range (configs.gaNumLoads.getD group 0)).map fun load =>
              { port := Configs.value configs.gaLdPortIdx group load
                before := (run.stores time).length + Configs.value configs.gaLdOrder group load }

end Allocation

section Tokens

/-- The addresses taken on a load port before a cycle. -/
def ldAddrTokens (port : Nat) : Nat → List (BitVec configs.addrW) :=
  transfers
    (fun time => (run.inputs time).ldpAddrValid port && (run.cycle time).lda.portReady port)
    (fun time => (run.inputs time).ldpAddr port)

/-- The data given on a load port before a cycle. -/
def ldDataTokens (port : Nat) : Nat → List (BitVec configs.dataW) :=
  transfers
    (fun time => (run.cycle time).ldd.portValid port && (run.inputs time).ldpDataReady port)
    (fun time => (run.cycle time).ldd.portPayload (run.cycle time).state.ldqData port)

/-- The addresses taken on a store port before a cycle. -/
def stAddrTokens (port : Nat) : Nat → List (BitVec configs.addrW) :=
  transfers
    (fun time => (run.inputs time).stpAddrValid port && (run.cycle time).sta.portReady port)
    (fun time => (run.inputs time).stpAddr port)

/-- The data taken on a store port before a cycle. -/
def stDataTokens (port : Nat) : Nat → List (BitVec configs.dataW) :=
  transfers
    (fun time => (run.inputs time).stpDataValid port && (run.cycle time).std.portReady port)
    (fun time => (run.inputs time).stpData port)

/-- The writes the memory has accepted before a cycle. -/
def writes : Nat → List (BitVec configs.addrW × BitVec configs.dataW) :=
  transfers (fun time => (run.cycle time).wreqValid && (run.inputs time).wreqReady)
    (fun time => ((run.cycle time).wreqAddr, (run.cycle time).wreqData))

/-- The write responses before a cycle. -/
def responses : Nat → List Unit :=
  transfers (fun time => (run.inputs time).wrespValid) fun _ => ()

/-- A read request is accepted on a memory channel. -/
def requests (time channel : Nat) : Bool :=
  (run.cycle time).rreqValid channel && (run.inputs time).rreqReady channel

end Tokens

section Kernel

/-- The memory after writes. -/
def contents (writes : List (BitVec configs.addrW × BitVec configs.dataW)) :
    BitVec configs.addrW → BitVec configs.dataW :=
  writes.foldl (fun memory write => Function.update memory write.1 write.2) run.memory

/-- The writes of the stores of a program, in order. -/
def program (ports : List Nat) : List (BitVec configs.addrW × BitVec configs.dataW) :=
  ports.mapIdx fun index port =>
    (run.stAddr port ((ports.take index).count port), run.stData port ((ports.take index).count port))

/-- What the loads of a port read when all accesses allocated before a cycle execute
one after another. -/
def sequential (port time : Nat) : List (BitVec configs.dataW) :=
  ((run.loads time).filter (·.port = port)).mapIdx fun index load =>
    run.contents ((run.program (run.stores time)).take load.before) (run.ldAddr port index)

end Kernel

section Environment

/-- At most one group is allocated in a cycle. -/
def OneGroup : Prop :=
  ∀ time left right, left < configs.numGroups → right < configs.numGroups →
    (run.cycle time).groupInitHs left = true → (run.cycle time).groupInitHs right = true →
    left = right

/-- Every port delivers the addresses and data of its accesses in order. -/
structure Delivers : Prop where
  ldAddr : ∀ time, ∀ port < configs.numLdPorts, (run.inputs time).ldpAddrValid port = true →
    (run.cycle time).lda.portReady port = true →
    (run.inputs time).ldpAddr port = run.ldAddr port (run.ldAddrTokens port time).length
  stAddr : ∀ time, ∀ port < configs.numStPorts, (run.inputs time).stpAddrValid port = true →
    (run.cycle time).sta.portReady port = true →
    (run.inputs time).stpAddr port = run.stAddr port (run.stAddrTokens port time).length
  stData : ∀ time, ∀ port < configs.numStPorts, (run.inputs time).stpDataValid port = true →
    (run.cycle time).std.portReady port = true →
    (run.inputs time).stpData port = run.stData port (run.stDataTokens port time).length

/-- The memory performs the writes it accepted in order, each before its response. -/
structure PerformsWrites : Prop where
  monotone : ∀ time, run.performed time ≤ run.performed (time + 1)
  accepted : ∀ time, run.performed time ≤ (run.writes time).length
  responded : ∀ time, (run.responses time).length ≤ run.performed time

/-- A read response comes on a channel. -/
def answers (time channel : Nat) : Prop :=
  channel < configs.numLdMem ∧ (run.inputs time).rrespValid channel = true

/-- The memory answers each read at most once, with a word it held between the request
and the response. -/
structure AnswersReads : Prop where
  requested : ∀ time channel, run.answers time channel →
    (run.request time channel).1 ≤ time ∧ (run.request time channel).2 < configs.numLdMem ∧
    run.requests (run.request time channel).1 (run.request time channel).2 = true ∧
    (run.inputs time).rrespId channel =
      (run.cycle (run.request time channel).1).rreqId (run.request time channel).2
  once : ∀ time channel other otherChannel, run.answers time channel →
    run.answers other otherChannel →
    run.request time channel = run.request other otherChannel →
    time = other ∧ channel = otherChannel
  word : ∀ time channel, run.answers time channel →
    ∃ instant, run.performed (run.request time channel).1 ≤ instant ∧
      instant ≤ run.performed (time + 1) ∧
      (run.inputs time).rrespData channel =
        run.contents ((run.writes (time + 1)).take instant)
          ((run.cycle (run.request time channel).1).rreqAddr (run.request time channel).2)

end Environment

end Run

end Dynamatic.Lsq

/-!
## What the pipeline stages show

The dependency checks look at the queues through up to two register stages. A check
of stage `pcomp` sees the queues `compLag` cycles back, one of stage `p0` is made
`zeroLag` cycles back. The lemmas below say so for every setting of the stages; in
the first cycles, where the stages hold what the reset gave them, nothing is seen.
-/

namespace Dynamatic.Lsq

namespace Configs

variable (configs : Configs)

/-- The cycles by which the comparisons lag behind the queues. -/
def compLag : Nat := configs.pipeComp.toNat

/-- The cycles by which the decisions lag behind the comparisons. -/
def zeroLag : Nat := configs.pipe0.toNat

/-- The cycles by which the memory requests lag behind the decisions. -/
def oneLag : Nat := configs.pipe1.toNat

theorem compLag_le : configs.compLag ≤ 1 := Bool.toNat_le _

theorem zeroLag_le : configs.zeroLag ≤ 1 := Bool.toNat_le _

theorem oneLag_le : configs.oneLag ≤ 1 := Bool.toNat_le _

end Configs

variable {configs : Configs}

/-- A cycle's comparisons are those of the queues as they were `back` then. -/
structure Compares (now back : Cycle configs) : Prop where
  ldqWen : now.ldqWenPcomp = back.ldqWen
  ldqHeadOh : now.ldqHeadOhPcomp = back.ldqHeadOh
  ldqAlloc : now.ldqAllocPcomp = back.state.ldqAlloc
  ldqAddrValid : now.ldqAddrValidPcomp = back.state.ldqAddrValid
  stqAlloc : now.stqAllocPcomp = back.state.stqAlloc
  stqAddrValid : now.stqAddrValidPcomp = back.state.stqAddrValid
  stqDataValid : now.stqDataValidPcomp = back.state.stqDataValid
  addrSame : now.addrSamePcomp = back.addrSame
  storeIsOlder : now.storeIsOlderPcomp = back.state.storeIsOlder

namespace Run

variable (run : Run configs) (time : Nat)

theorem compares : Compares (run.cycle (time + configs.compLag)) (run.cycle time) := by
  rw [Configs.compLag]
  cases stage : configs.pipeComp with
  | false =>
      refine ⟨?_, ?_, ?_, ?_, ?_, ?_, ?_, ?_, ?_⟩
      · exact if_neg (by simp [stage])
      · exact if_neg (by simp [stage])
      · exact if_neg (by simp [stage])
      · exact if_neg (by simp [stage])
      · exact if_neg (by simp [stage])
      · exact if_neg (by simp [stage])
      · exact if_neg (by simp [stage])
      · exact if_neg (by simp [stage])
      · exact if_neg (by simp [stage])
  | true =>
      refine ⟨?_, ?_, ?_, ?_, ?_, ?_, ?_, ?_, ?_⟩
      · exact if_pos (by simp [stage])
      · exact if_pos (by simp [stage])
      · exact if_pos (by simp [stage])
      · exact if_pos (by simp [stage])
      · exact if_pos (by simp [stage])
      · exact if_pos (by simp [stage])
      · exact if_pos (by simp [stage])
      · exact if_pos (by simp [stage])
      · exact if_pos (by simp [stage])

variable {run time}

/-- Nothing is seen before the first comparison. -/
theorem compares_early (early : time < configs.compLag) (entry : Nat) :
    (run.cycle time).ldqAllocPcomp entry = false ∧ (run.cycle time).stqAllocPcomp entry = false := by
  have stage : configs.pipeComp = true := by
    rw [Configs.compLag] at early
    cases isOn : configs.pipeComp with
    | true => rfl
    | false => simp [isOn] at early
  obtain rfl : time = 0 := by
    have := configs.compLag_le
    omega
  rw [Cycle.ldqAllocPcomp, Cycle.stqAllocPcomp, if_pos stage, if_pos stage, state_zero]
  exact ⟨run.reset.ldqAllocPcompQ entry, run.reset.stqAllocPcompQ entry⟩

variable (run time)

theorem ldqWenP0_eq :
    (run.cycle (time + configs.zeroLag)).ldqWenP0 = (run.cycle time).ldqWenPcomp := by
  rw [Configs.zeroLag, Cycle.ldqWenP0]
  cases stage : configs.pipe0 with
  | false => rfl
  | true => rfl

theorem canLoadP0_eq :
    (run.cycle (time + configs.zeroLag)).canLoadP0 = (run.cycle time).canLoadD := by
  rw [Configs.zeroLag, Cycle.canLoadP0]
  cases stage : configs.pipe0 with
  | false => rfl
  | true => rfl

theorem ldqHeadOhP0_eq :
    (run.cycle (time + configs.zeroLag)).ldqHeadOhP0 = (run.cycle time).ldqHeadOhPcomp := by
  rw [Configs.zeroLag, Cycle.ldqHeadOhP0]
  cases stage : configs.pipe0 with
  | false => rfl
  | true => rfl

theorem canBypassP0_eq :
    (run.cycle (time + configs.zeroLag)).canBypassP0 = (run.cycle time).canBypassD := by
  rw [Configs.zeroLag, Cycle.canBypassP0]
  cases stage : configs.pipe0 with
  | false => rfl
  | true => rfl

theorem bypassIdxOhP0_eq :
    (run.cycle (time + configs.zeroLag)).bypassIdxOhP0 = (run.cycle time).bypassIdxOhD := by
  rw [Configs.zeroLag, Cycle.bypassIdxOhP0]
  cases stage : configs.pipe0 with
  | false => rfl
  | true => rfl

theorem bypassIdxOhP1_eq (load : Nat) :
    (run.cycle (time + configs.oneLag)).bypassIdxOhP1 load = (run.cycle time).bypassIdxOhP0 load := by
  rw [Configs.oneLag, Cycle.bypassIdxOhP1]
  cases stage : configs.pipe1 with
  | false => rfl
  | true => rfl

theorem bypassEnP1_eq (load : Nat) :
    (run.cycle (time + configs.oneLag)).bypassEnP1 load = (run.cycle time).bypassEn load := by
  rw [Configs.oneLag, Cycle.bypassEnP1]
  cases stage : configs.pipe1 with
  | false => rfl
  | true => rfl

/-- The store checked is the one the issue pointer is at when the check counts. -/
theorem storeReqValidP0_eq :
    (run.cycle (time + configs.zeroLag)).storeReqValidP0 =
      (run.cycle time).storeReqValidAt (run.cycle (time + configs.zeroLag)).state.stqIssue := by
  rw [Configs.zeroLag, Cycle.storeReqValidP0]
  cases stage : configs.pipe0 with
  | false => rfl
  | true => rfl

theorem stLdConflictP0_eq :
    (run.cycle (time + configs.zeroLag)).stLdConflictP0 =
      (run.cycle time).stLdConflictAt (run.cycle (time + configs.zeroLag)).state.stqIssue := by
  rw [Configs.zeroLag, Cycle.stLdConflictP0]
  cases stage : configs.pipe0 with
  | false => rfl
  | true => rfl

theorem stqTailUpdatePcomp_eq :
    (run.cycle (time + 1 + configs.compLag)).stqTailUpdatePcomp =
      decide ((run.cycle time).numStores ≠ 0) := by
  rw [Configs.compLag, Cycle.stqTailUpdatePcomp]
  cases stage : configs.pipeComp with
  | false => rfl
  | true => rfl

variable {run time}

/-- Nothing is decided before the first decision. -/
theorem decides_early (early : time < configs.zeroLag) :
    (∀ load, (run.cycle time).canLoadP0 load = false) ∧
      (∀ load store, (run.cycle time).canBypassP0 load store = false) ∧
      (run.cycle time).storeReqValidP0 = false := by
  have stage : configs.pipe0 = true := by
    rw [Configs.zeroLag] at early
    cases isOn : configs.pipe0 with
    | true => rfl
    | false => simp [isOn] at early
  obtain rfl : time = 0 := by
    have := configs.zeroLag_le
    omega
  rw [Cycle.canLoadP0, Cycle.canBypassP0, Cycle.storeReqValidP0, if_pos stage, if_pos stage,
    if_pos stage, state_zero]
  exact ⟨run.reset.canLoadP0Q, run.reset.canBypassP0Q, run.reset.storeReqValidP0Q⟩

/-- Nothing is forwarded before the first decision. -/
theorem bypassEnP1_early (early : time < configs.oneLag) (load : Nat) :
    (run.cycle time).bypassEnP1 load = false := by
  have stage : configs.pipe1 = true := by
    rw [Configs.oneLag] at early
    cases isOn : configs.pipe1 with
    | true => rfl
    | false => simp [isOn] at early
  obtain rfl : time = 0 := by
    have := configs.oneLag_le
    omega
  rw [Cycle.bypassEnP1, if_pos stage, state_zero]
  exact run.reset.bypassEnP1Q load

end Run

end Dynamatic.Lsq
