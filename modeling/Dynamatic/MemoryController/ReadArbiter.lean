import Mathlib.Data.Fin.VecNotation
import Dynamatic.Clocked.Machine
import Dynamatic.Clocked.Scan

/-!
# The load side of the memory controller

The arbiter of `mc_support.v` grants one load port a cycle, presents its address
to the memory, and hands the word that comes back a cycle later to that port. A
port whose consumer stalls keeps its word in a register of its own. What a port
is granted it delivers: `Run.words_eq` says so for the words of the accepted
addresses, the words delivered and the one on offer.
-/

namespace Dynamatic.MemoryController

open Dynamatic.Clocked

variable {arbiterSize addrType dataType : Nat}

/-- `priority_out` of `read_priority`. -/
def readPriority (req dataReady : Fin arbiterSize → Bool) : Fin arbiterSize → Bool :=
  grantFirst fun port => req port && dataReady port

/-- `addr_out` of `read_address_mux`. -/
def readAddressMux (sel : Fin arbiterSize → Bool) (addrIn : Fin arbiterSize → BitVec addrType) :
    BitVec addrType :=
  selectLast 0 sel addrIn

/-- `ready` of `read_address_ready`. -/
def readAddressReady (sel nReady : Fin arbiterSize → Bool) (port : Fin arbiterSize) : Bool :=
  nReady port && sel port

/-- The registers of `read_data_signals`. -/
structure ReadData (arbiterSize dataType : Nat) where
  selPrev : Fin arbiterSize → Bool
  valid : Fin arbiterSize → Bool
  outReg : Fin arbiterSize → BitVec dataType

namespace ReadData

def reset : ReadData arbiterSize dataType where
  selPrev _ := false
  valid _ := false
  outReg _ := 0

variable (registers : ReadData arbiterSize dataType) (readData : BitVec dataType)

def outData (port : Fin arbiterSize) : BitVec dataType :=
  if registers.selPrev port then readData else registers.outReg port

def next (sel nReady : Fin arbiterSize → Bool) : ReadData arbiterSize dataType where
  selPrev := sel
  valid port := if sel port then true else if nReady port then false else registers.valid port
  outReg port := if registers.selPrev port then readData else registers.outReg port

end ReadData

/-- What the read arbiter reads in a cycle: the addresses requested, the readies of the
data outputs, and the word the memory returns. -/
structure ReadInput (arbiterSize addrType dataType : Nat) where
  pValid : Fin arbiterSize → Bool
  addressIn : Fin arbiterSize → BitVec addrType
  nReady : Fin arbiterSize → Bool
  dataFromMemory : BitVec dataType

structure ReadOutput (arbiterSize addrType dataType : Nat) where
  ready : Fin arbiterSize → Bool
  valid : Fin arbiterSize → Bool
  dataOut : Fin arbiterSize → BitVec dataType
  readEnable : Bool
  readAddress : BitVec addrType

/-- `priorityOut` of `read_memory_arbiter`. -/
def ReadInput.priorityOut (input : ReadInput arbiterSize addrType dataType) :
    Fin arbiterSize → Bool :=
  readPriority input.pValid input.nReady

def readMemoryArbiter : Machine (ReadData arbiterSize dataType)
    (ReadInput arbiterSize addrType dataType) (ReadOutput arbiterSize addrType dataType) where
  next registers input := registers.next input.dataFromMemory input.priorityOut input.nReady
  output registers input :=
    { ready := readAddressReady input.priorityOut input.nReady
      valid := registers.valid
      dataOut := registers.outData input.dataFromMemory
      readEnable := (List.finRange arbiterSize).any input.priorityOut
      readAddress := readAddressMux input.priorityOut input.addressIn }

namespace ReadArbiter

section Run

variable (inputs : Nat → ReadInput arbiterSize addrType dataType)

def registersAt (cycle : Nat) : ReadData arbiterSize dataType :=
  readMemoryArbiter.stateAt .reset inputs cycle

def outputAt (cycle : Nat) : ReadOutput arbiterSize addrType dataType :=
  readMemoryArbiter.outputAt .reset inputs cycle

/-- The address channel of a port transfers. -/
def accepts (port : Fin arbiterSize) (cycle : Nat) : Bool :=
  (inputs cycle).pValid port && (outputAt inputs cycle).ready port

/-- The data channel of a port transfers. -/
def delivers (port : Fin arbiterSize) (cycle : Nat) : Bool :=
  (outputAt inputs cycle).valid port && (inputs cycle).nReady port

/-- The memory returns the word of the presented address one cycle later. -/
def Returns (contents : Nat → BitVec addrType → BitVec dataType) : Prop :=
  ∀ cycle, (outputAt inputs cycle).readEnable = true →
    (inputs (cycle + 1)).dataFromMemory = contents cycle (outputAt inputs cycle).readAddress

/-- The memory words of the addresses a port was granted, each as the memory held it at the
grant. -/
def words (contents : Nat → BitVec addrType → BitVec dataType) (port : Fin arbiterSize)
    (cycle : Nat) : List (BitVec dataType) :=
  transfers (accepts inputs port)
    (fun earlier => contents earlier ((inputs earlier).addressIn port)) cycle

/-- The words a port has delivered. -/
def delivered (port : Fin arbiterSize) (cycle : Nat) : List (BitVec dataType) :=
  transfers (delivers inputs port) (fun earlier => (outputAt inputs earlier).dataOut port) cycle

/-- The word a port offers in a cycle. -/
def offered (port : Fin arbiterSize) (cycle : Nat) : List (BitVec dataType) :=
  if (outputAt inputs cycle).valid port then [(outputAt inputs cycle).dataOut port] else []

end Run

variable {inputs : Nat → ReadInput arbiterSize addrType dataType} {cycle : Nat}
  {port : Fin arbiterSize}

theorem ready_of_priorityOut (granted : (inputs cycle).priorityOut port = true) :
    (inputs cycle).pValid port = true ∧ (inputs cycle).nReady port = true := by
  have asked := asks_of_grantFirst granted
  simpa using asked

/-- A port accepts an address exactly when it is granted. -/
theorem accepts_eq (port : Fin arbiterSize) (cycle : Nat) :
    accepts inputs port cycle = (inputs cycle).priorityOut port := by
  change ((inputs cycle).pValid port &&
    ((inputs cycle).nReady port && (inputs cycle).priorityOut port)) = _
  cases granted : (inputs cycle).priorityOut port with
  | false => simp
  | true =>
      obtain ⟨asked, ready⟩ := ready_of_priorityOut granted
      simp [asked, ready]

/-- At most one port is granted. -/
theorem accepts_unique {other : Fin arbiterSize} (accepted : accepts inputs port cycle = true)
    (acceptedOther : accepts inputs other cycle = true) : port = other := by
  rw [accepts_eq] at accepted acceptedOther
  exact grantFirst_unique accepted acceptedOther

/-- The granted port's address is presented to the memory. -/
theorem readAddress_of_accepts (accepted : accepts inputs port cycle = true) :
    (outputAt inputs cycle).readEnable = true ∧
      (outputAt inputs cycle).readAddress = (inputs cycle).addressIn port := by
  rw [accepts_eq] at accepted
  constructor
  · exact List.any_eq_true.mpr ⟨port, List.mem_finRange port, accepted⟩
  · exact selectLast_eq accepted fun other granted => grantFirst_unique granted accepted

theorem valid_succ (port : Fin arbiterSize) (cycle : Nat) :
    (outputAt inputs (cycle + 1)).valid port =
      (accepts inputs port cycle ||
        (outputAt inputs cycle).valid port && !(inputs cycle).nReady port) := by
  rw [accepts_eq]
  change (if (inputs cycle).priorityOut port then true
    else if (inputs cycle).nReady port then false else (outputAt inputs cycle).valid port) = _
  cases (inputs cycle).priorityOut port <;> cases (inputs cycle).nReady port <;> simp

theorem dataOut_succ (port : Fin arbiterSize) (cycle : Nat) :
    (outputAt inputs (cycle + 1)).dataOut port =
      if accepts inputs port cycle then (inputs (cycle + 1)).dataFromMemory
      else (outputAt inputs cycle).dataOut port := by
  rw [accepts_eq]
  rfl

/-- The word on offer is that of the address just accepted, or the one that still waits. -/
theorem offered_succ {contents : Nat → BitVec addrType → BitVec dataType}
    (returns : Returns inputs contents) (port : Fin arbiterSize) (cycle : Nat) :
    offered inputs port (cycle + 1) =
      (if (inputs cycle).nReady port then [] else offered inputs port cycle) ++
        if accepts inputs port cycle then [contents cycle ((inputs cycle).addressIn port)]
        else [] := by
  rw [offered, offered, valid_succ, dataOut_succ]
  cases accepted : accepts inputs port cycle with
  | false =>
      cases ready : (inputs cycle).nReady port <;>
        cases waiting : (outputAt inputs cycle).valid port <;> simp
  | true =>
      obtain ⟨enabled, presented⟩ := readAddress_of_accepts accepted
      have ready := (ready_of_priorityOut (accepts_eq port cycle ▸ accepted)).2
      simp [ready, returns cycle enabled, presented]

/-- Every word a port was granted has been delivered, in order, but the one on offer. -/
theorem words_eq {contents : Nat → BitVec addrType → BitVec dataType}
    (returns : Returns inputs contents) (port : Fin arbiterSize) (cycle : Nat) :
    words inputs contents port cycle =
      delivered inputs port cycle ++ offered inputs port cycle := by
  induction cycle with
  | zero => rfl
  | succ cycle inductionHypothesis =>
      rw [words, delivered, transfers_succ, transfers_succ, offered_succ returns]
      rw [words, delivered, offered] at inductionHypothesis
      rw [inductionHypothesis, offered, delivers]
      cases ready : (inputs cycle).nReady port <;>
        cases waiting : (outputAt inputs cycle).valid port <;> simp

/-- A stalled port keeps its word on offer. -/
theorem offered_of_stalled (waiting : (outputAt inputs cycle).valid port = true)
    (stalled : (inputs cycle).nReady port = false) :
    (outputAt inputs (cycle + 1)).valid port = true ∧
      (outputAt inputs (cycle + 1)).dataOut port = (outputAt inputs cycle).dataOut port := by
  have refused : accepts inputs port cycle = false := by
    rw [accepts_eq]
    by_contra granted
    simp only [Bool.not_eq_false] at granted
    simp [(ready_of_priorityOut granted).2] at stalled
  rw [valid_succ, dataOut_succ, refused, waiting, stalled]
  exact ⟨rfl, rfl⟩

/-- The words of the accepted addresses are delivered by the next cycle in which the port's
consumer is ready. -/
theorem length_words_le {contents : Nat → BitVec addrType → BitVec dataType}
    (returns : Returns inputs contents) {later : Nat} (ordered : cycle ≤ later)
    (ready : (inputs later).nReady port = true) :
    (words inputs contents port cycle).length ≤ (delivered inputs port (later + 1)).length := by
  have still : (words inputs contents port cycle).length ≤
      (words inputs contents port later).length := length_transfers_mono ordered
  have listed := congrArg List.length (words_eq returns port later)
  rw [delivered, length_transfers_succ, delivers, ready]
  rw [List.length_append, delivered, offered] at listed
  cases waiting : (outputAt inputs later).valid port <;> simp_all

/-- The load side grants one port a cycle and answers each accepted address with one token on
its own port: the word the memory held there at the grant, in the order of acceptance, kept
while the port is stalled and delivered when it is ready. -/
theorem loads_answered (contents : Nat → BitVec addrType → BitVec dataType)
    (returns : Returns inputs contents) :
    (∀ cycle port other, accepts inputs port cycle = true → accepts inputs other cycle = true →
      port = other) ∧
    (∀ port cycle, words inputs contents port cycle =
      delivered inputs port cycle ++ offered inputs port cycle) ∧
    (∀ port cycle, (outputAt inputs cycle).valid port = true → (inputs cycle).nReady port = false →
      (outputAt inputs (cycle + 1)).valid port = true ∧
        (outputAt inputs (cycle + 1)).dataOut port = (outputAt inputs cycle).dataOut port) ∧
    ∀ port cycle later, cycle ≤ later → (inputs later).nReady port = true →
      (words inputs contents port cycle).length ≤ (delivered inputs port (later + 1)).length :=
  ⟨fun _ _ _ => accepts_unique, words_eq returns, fun _ _ => offered_of_stalled,
    fun _ _ _ => length_words_le returns⟩

/-- Two ports that always ask, the first of which stalls after its grant; each word of the
memory is its own address. -/
def stalledInputs : Nat → ReadInput 2 8 8
  | 0 => { pValid := fun _ => true, addressIn := ![3, 4], nReady := fun _ => true
           dataFromMemory := 0 }
  | 1 => { pValid := fun _ => true, addressIn := ![3, 4], nReady := ![false, true]
           dataFromMemory := 3 }
  | _ + 2 => { pValid := fun _ => true, addressIn := ![3, 4], nReady := ![false, true]
               dataFromMemory := 4 }

theorem loads_answered_stalled :
    offered stalledInputs 0 3 = [3] ∧ delivered stalledInputs 1 3 = [4] ∧
      ∀ port cycle, words stalledInputs (fun _ address => address) port cycle =
        delivered stalledInputs port cycle ++ offered stalledInputs port cycle :=
  ⟨by decide, by decide, (loads_answered (fun _ address => address) fun cycle _ =>
    match cycle with
    | 0 => rfl
    | 1 => rfl
    | _ + 2 => rfl).2.1⟩

end ReadArbiter

end Dynamatic.MemoryController
