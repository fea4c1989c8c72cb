import Dynamatic.Handshake.Buffers
import Dynamatic.MemoryController.ReadArbiter

/-!
# Killing loads in flight

A load whose requester may be stopped counts the words it owes. On a kill every
word still owed becomes one to drop: it is taken from the memory controller and
offered to nobody. The signals are those of `load_kill_drop.v`; `System` is such
a load on one port of the controller's read arbiter, whose other ports do as they
please.
-/

namespace Dynamatic.MemoryController

open Dynamatic.Clocked Dynamatic.Handshake

variable {arbiterSize addrType dataType : Nat}

namespace LoadKillDrop

structure State (addrType dataType : Nat) where
  addrSlot : Tehb (BitVec addrType)
  dataSlot : Tehb (BitVec dataType)
  owed : BitVec 2
  drop : BitVec 2

structure Input (addrType dataType : Nat) where
  addrIn : BitVec addrType
  addrInValid : Bool
  addrOutReady : Bool
  dataFromMem : BitVec dataType
  dataFromMemValid : Bool
  dataOutReady : Bool
  kill : Bool

structure Output (addrType dataType : Nat) where
  addrInReady : Bool
  addrOut : BitVec addrType
  addrOutValid : Bool
  dataFromMemReady : Bool
  dataOut : BitVec dataType
  dataOutValid : Bool

def State.reset : State addrType dataType :=
  { addrSlot := .reset 0, dataSlot := .reset 0, owed := 0, drop := 0 }

variable (state : State addrType dataType) (input : Input addrType dataType)

def dropping : Bool := state.drop != 0

def wordReady : Bool := input.dataOutReady || dropping state

def wordValid : Bool := state.dataSlot.outsValid input.dataFromMemValid

def accepted : Bool := input.addrInValid && state.addrSlot.insReady

def passed : Bool := wordValid state input && wordReady state input

def owedNext : BitVec 2 :=
  state.owed + BitVec.zeroExtend 2 (BitVec.ofBool (accepted state input)) -
    BitVec.zeroExtend 2 (BitVec.ofBool (passed state input))

/-- As long as the words owed are between none and three, the counter does not wrap. -/
theorem toNat_owedNext
    (covered : (passed state input).toNat ≤ state.owed.toNat + (accepted state input).toNat)
    (bounded : state.owed.toNat + (accepted state input).toNat ≤ (passed state input).toNat + 3) :
    (owedNext state input).toNat + (passed state input).toNat =
      state.owed.toNat + (accepted state input).toNat := by
  rw [owedNext, BitVec.toNat_sub, BitVec.toNat_add]
  revert covered bounded
  cases accepted state input <;> cases passed state input <;>
    simp only [BitVec.toNat_setWidth, BitVec.toNat_ofBool, Bool.toNat_false, Bool.toNat_true] <;>
    omega

def machine : Machine (State addrType dataType) (Input addrType dataType)
    (Output addrType dataType) where
  next state input :=
    { addrSlot := state.addrSlot.next input.addrIn input.addrInValid input.addrOutReady
      dataSlot := state.dataSlot.next input.dataFromMem input.dataFromMemValid (wordReady state input)
      owed := owedNext state input
      drop :=
        if input.kill then owedNext state input
        else if dropping state && passed state input then state.drop - 1
        else state.drop }
  output state input :=
    { addrInReady := state.addrSlot.insReady
      addrOut := state.addrSlot.outs input.addrIn
      addrOutValid := state.addrSlot.outsValid input.addrInValid
      dataFromMemReady := state.dataSlot.insReady
      dataOut := state.dataSlot.outs input.dataFromMem
      -- A word owed to a stopped evaluation is taken and offered to nobody.
      dataOutValid := wordValid state input && !dropping state }

end LoadKillDrop

open LoadKillDrop

/-- What the load and the arbiter read from outside in a cycle: the load's own channels and
kill, and the other ports' requests and readies. -/
structure SystemInput (arbiterSize addrType dataType : Nat) where
  addrIn : BitVec addrType
  addrInValid : Bool
  dataOutReady : Bool
  kill : Bool
  others : ReadInput arbiterSize addrType dataType

structure System (arbiterSize addrType dataType : Nat) where
  load : LoadKillDrop.State addrType dataType
  arbiter : ReadData arbiterSize dataType

namespace System

def reset : System arbiterSize addrType dataType := { load := .reset, arbiter := .reset }

section Run

variable (port : Fin arbiterSize)

/-- What the arbiter reads, the load on its port. -/
def arbiterInput (load : LoadKillDrop.State addrType dataType)
    (input : SystemInput arbiterSize addrType dataType) : ReadInput arbiterSize addrType dataType where
  pValid := Function.update input.others.pValid port (load.addrSlot.outsValid input.addrInValid)
  addressIn := Function.update input.others.addressIn port (load.addrSlot.outs input.addrIn)
  nReady := Function.update input.others.nReady port load.dataSlot.insReady
  dataFromMemory := input.others.dataFromMemory

/-- What the load reads, the arbiter behind its memory channels. -/
def loadInput (system : System arbiterSize addrType dataType)
    (input : SystemInput arbiterSize addrType dataType) : LoadKillDrop.Input addrType dataType :=
  let arbiter := readMemoryArbiter.output system.arbiter (arbiterInput port system.load input)
  { addrIn := input.addrIn
    addrInValid := input.addrInValid
    addrOutReady := arbiter.ready port
    dataFromMem := arbiter.dataOut port
    dataFromMemValid := arbiter.valid port
    dataOutReady := input.dataOutReady
    kill := input.kill }

def next (system : System arbiterSize addrType dataType)
    (input : SystemInput arbiterSize addrType dataType) : System arbiterSize addrType dataType where
  load := LoadKillDrop.machine.next system.load (loadInput port system input)
  arbiter := readMemoryArbiter.next system.arbiter (arbiterInput port system.load input)

variable (inputs : Nat → SystemInput arbiterSize addrType dataType)

def systemAt : Nat → System arbiterSize addrType dataType
  | 0 => reset
  | cycle + 1 => (systemAt cycle).next port (inputs cycle)

def arbiterInputs (cycle : Nat) : ReadInput arbiterSize addrType dataType :=
  arbiterInput port (systemAt port inputs cycle).load (inputs cycle)

def loadInputs (cycle : Nat) : LoadKillDrop.Input addrType dataType :=
  loadInput port (systemAt port inputs cycle) (inputs cycle)

def loadAt (cycle : Nat) : LoadKillDrop.State addrType dataType := (systemAt port inputs cycle).load

def outputAt (cycle : Nat) : LoadKillDrop.Output addrType dataType :=
  LoadKillDrop.machine.output (loadAt port inputs cycle) (loadInputs port inputs cycle)

/-- The addresses the load has accepted. -/
def addresses (cycle : Nat) : List (BitVec addrType) :=
  transfers (fun earlier => (inputs earlier).addrInValid && (outputAt port inputs earlier).addrInReady)
    (fun earlier => (inputs earlier).addrIn) cycle

/-- The addresses of the load that the arbiter has granted. -/
def granted (cycle : Nat) : List (BitVec addrType) :=
  transfers (ReadArbiter.accepts (arbiterInputs port inputs) port)
    (fun earlier => (outputAt port inputs earlier).addrOut) cycle

/-- The memory words of the granted addresses, each as the memory held it at the grant. -/
def words (contents : Nat → BitVec addrType → BitVec dataType) (cycle : Nat) :
    List (BitVec dataType) :=
  transfers (ReadArbiter.accepts (arbiterInputs port inputs) port)
    (fun earlier => contents earlier (outputAt port inputs earlier).addrOut) cycle

/-- The words taken from the controller, delivered or dropped. -/
def taken (cycle : Nat) : List (BitVec dataType) :=
  transfers (fun earlier => passed (loadAt port inputs earlier) (loadInputs port inputs earlier))
    (fun earlier => (outputAt port inputs earlier).dataOut) cycle

/-- The load's data output transfers. -/
def delivers (cycle : Nat) : Bool :=
  (outputAt port inputs cycle).dataOutValid && (inputs cycle).dataOutReady

/-- How many addresses had been accepted at the end of the latest kill cycle. -/
def acceptedAtKill : Nat → Nat
  | 0 => 0
  | cycle + 1 =>
      if (inputs cycle).kill then (addresses port inputs (cycle + 1)).length
      else acceptedAtKill cycle

/-- The words delivered after the latest kill cycle. -/
def deliveredSince : Nat → List (BitVec dataType)
  | 0 => []
  | cycle + 1 =>
      if (inputs cycle).kill then []
      else deliveredSince cycle ++
        if delivers port inputs cycle then [(outputAt port inputs cycle).dataOut] else []

end Run

variable {port : Fin arbiterSize} {inputs : Nat → SystemInput arbiterSize addrType dataType}
  {cycle : Nat}

theorem arbiter_eq (cycle : Nat) :
    (systemAt port inputs cycle).arbiter =
      ReadArbiter.registersAt (arbiterInputs port inputs) cycle := by
  induction cycle with
  | zero => rfl
  | succ cycle inductionHypothesis =>
      change readMemoryArbiter.next (systemAt port inputs cycle).arbiter _ = _
      rw [inductionHypothesis]
      rfl

theorem loadInputs_eq (cycle : Nat) :
    loadInputs port inputs cycle =
      { addrIn := (inputs cycle).addrIn
        addrInValid := (inputs cycle).addrInValid
        addrOutReady := (ReadArbiter.outputAt (arbiterInputs port inputs) cycle).ready port
        dataFromMem := (ReadArbiter.outputAt (arbiterInputs port inputs) cycle).dataOut port
        dataFromMemValid := (ReadArbiter.outputAt (arbiterInputs port inputs) cycle).valid port
        dataOutReady := (inputs cycle).dataOutReady
        kill := (inputs cycle).kill } := by
  rw [loadInputs, loadInput, arbiter_eq]
  rfl

/-- The arbiter's address channel on the load's port is the load's. -/
theorem accepts_eq (cycle : Nat) :
    ReadArbiter.accepts (arbiterInputs port inputs) port cycle =
      ((loadAt port inputs cycle).addrSlot.outsValid (inputs cycle).addrInValid &&
        (loadInputs port inputs cycle).addrOutReady) := by
  rw [loadInputs_eq, ReadArbiter.accepts]
  simp [arbiterInputs, arbiterInput, loadAt]

theorem addrOut_eq (cycle : Nat) :
    (arbiterInputs port inputs cycle).addressIn port = (outputAt port inputs cycle).addrOut := by
  rw [outputAt, loadInputs_eq]
  simp [arbiterInputs, arbiterInput, loadAt, LoadKillDrop.machine]

theorem words_eq (contents : Nat → BitVec addrType → BitVec dataType) (cycle : Nat) :
    words port inputs contents cycle =
      ReadArbiter.words (arbiterInputs port inputs) contents port cycle := by
  simp only [words, ReadArbiter.words, addrOut_eq]

/-- The arbiter's data channel on the load's port is the load's. -/
theorem delivers_eq (cycle : Nat) :
    ReadArbiter.delivers (arbiterInputs port inputs) port cycle =
      ((loadInputs port inputs cycle).dataFromMemValid &&
        (loadAt port inputs cycle).dataSlot.insReady) := by
  rw [loadInputs_eq, ReadArbiter.delivers]
  simp [arbiterInputs, arbiterInput, loadAt]

variable (port inputs) in
/-- Every accepted address is granted, in order, but the one in the slot. -/
theorem addresses_eq (cycle : Nat) :
    addresses port inputs cycle =
      granted port inputs cycle ++ (loadAt port inputs cycle).addrSlot.contents := by
  induction cycle with
  | zero => rfl
  | succ cycle inductionHypothesis =>
      have slot := (loadAt port inputs cycle).addrSlot.contents_append (inputs cycle).addrIn
        (inputs cycle).addrInValid (loadInputs port inputs cycle).addrOutReady
      rw [addresses, granted, transfers_succ, transfers_succ, ← addresses, ← granted,
        inductionHypothesis, accepts_eq, List.append_assoc, List.append_assoc]
      exact congrArg _ slot

variable (port inputs) in
theorem addresses_isPrefix (cycle : Nat) :
    granted port inputs cycle <+: addresses port inputs cycle := by
  rw [addresses_eq]
  exact List.prefix_append _ _

/-- Every word the arbiter has delivered was taken, in order, but the one in the slot. -/
theorem delivered_eq (cycle : Nat) :
    ReadArbiter.delivered (arbiterInputs port inputs) port cycle =
      taken port inputs cycle ++ (loadAt port inputs cycle).dataSlot.contents := by
  induction cycle with
  | zero => rfl
  | succ cycle inductionHypothesis =>
      have slot := (loadAt port inputs cycle).dataSlot.contents_append
        (loadInputs port inputs cycle).dataFromMem (loadInputs port inputs cycle).dataFromMemValid
        (wordReady (loadAt port inputs cycle) (loadInputs port inputs cycle))
      have word : (loadInputs port inputs cycle).dataFromMem =
          (ReadArbiter.outputAt (arbiterInputs port inputs) cycle).dataOut port := by
        rw [loadInputs_eq]
      rw [ReadArbiter.delivered, taken, transfers_succ, transfers_succ, ← taken,
        ← ReadArbiter.delivered, inductionHypothesis, delivers_eq, ← word, List.append_assoc,
        List.append_assoc]
      exact congrArg _ slot

/-- The latest kill comes no earlier than any kill before. -/
theorem length_addresses_le_acceptedAtKill {killed : Nat} (kill : (inputs killed).kill = true)
    (earlier : killed < cycle) :
    (addresses port inputs (killed + 1)).length ≤ acceptedAtKill port inputs cycle := by
  induction earlier with
  | refl => simp [acceptedAtKill, kill]
  | step before inductionHypothesis =>
      rw [acceptedAtKill]
      split
      · exact length_transfers_mono (Nat.succ_le_succ (Nat.le_of_lt before))
      · exact inductionHypothesis

theorem taken_succ (cycle : Nat) :
    taken port inputs (cycle + 1) = taken port inputs cycle ++
      if passed (loadAt port inputs cycle) (loadInputs port inputs cycle)
      then [(outputAt port inputs cycle).dataOut] else [] :=
  transfers_succ cycle

section Words

variable {contents : Nat → BitVec addrType → BitVec dataType}
  (returns : ReadArbiter.Returns (arbiterInputs port inputs) contents)
include returns

/-- Every word granted was taken, in order, but those in the slot and in the arbiter. -/
theorem words_eq_taken (cycle : Nat) :
    words port inputs contents cycle =
      taken port inputs cycle ++ ((loadAt port inputs cycle).dataSlot.contents ++
        ReadArbiter.offered (arbiterInputs port inputs) port cycle) := by
  rw [words_eq, ReadArbiter.words_eq returns, delivered_eq, List.append_assoc]

theorem words_isPrefix (cycle : Nat) :
    taken port inputs cycle <+: words port inputs contents cycle := by
  rw [words_eq_taken returns]
  exact List.prefix_append _ _

/-- The words in flight are at most three: in the two slots and in the arbiter. -/
theorem length_addresses_le (cycle : Nat) :
    (taken port inputs cycle).length ≤ (addresses port inputs cycle).length ∧
      (addresses port inputs cycle).length ≤ (taken port inputs cycle).length + 3 := by
  have accepted := congrArg List.length (addresses_eq port inputs cycle)
  have listed := congrArg List.length (words_eq_taken returns cycle)
  have granting : (granted port inputs cycle).length = (words port inputs contents cycle).length :=
    length_transfers_eq _ cycle
  have oneAddress := (loadAt port inputs cycle).addrSlot.length_contents_le
  have oneWord := (loadAt port inputs cycle).dataSlot.length_contents_le
  have oneOffered : (ReadArbiter.offered (arbiterInputs port inputs) port cycle).length ≤ 1 := by
    rw [ReadArbiter.offered]
    split <;> simp
  simp only [List.length_append] at accepted listed
  omega

/-- The counter of words owed does not wrap. -/
theorem owed_eq (cycle : Nat) :
    (loadAt port inputs cycle).owed.toNat + (taken port inputs cycle).length =
      (addresses port inputs cycle).length := by
  induction cycle with
  | zero => rfl
  | succ cycle inductionHypothesis =>
      have before := length_addresses_le returns cycle
      have after := length_addresses_le returns (cycle + 1)
      have owed : (loadAt port inputs (cycle + 1)).owed =
        owedNext (loadAt port inputs cycle) (loadInputs port inputs cycle) := rfl
      have arrives : (addresses port inputs (cycle + 1)).length =
          (addresses port inputs cycle).length +
            (accepted (loadAt port inputs cycle) (loadInputs port inputs cycle)).toNat :=
        length_transfers_succ cycle
      have leaves : (taken port inputs (cycle + 1)).length = (taken port inputs cycle).length +
          (passed (loadAt port inputs cycle) (loadInputs port inputs cycle)).toNat :=
        length_transfers_succ cycle
      rw [arrives, leaves] at after
      rw [arrives, leaves, owed, ← inductionHypothesis]
      have counted := toNat_owedNext (loadAt port inputs cycle) (loadInputs port inputs cycle)
        (by omega) (by omega)
      omega

/-- The counter of words to drop holds those owed for the addresses accepted up to the latest
kill. -/
theorem drop_eq (cycle : Nat) :
    (loadAt port inputs cycle).drop.toNat =
      acceptedAtKill port inputs cycle - (taken port inputs cycle).length := by
  induction cycle with
  | zero => rfl
  | succ cycle inductionHypothesis =>
      have owed := owed_eq returns (cycle + 1)
      have drop : (loadAt port inputs (cycle + 1)).drop =
          if (inputs cycle).kill then (loadAt port inputs (cycle + 1)).owed
          else if dropping (loadAt port inputs cycle) &&
            passed (loadAt port inputs cycle) (loadInputs port inputs cycle)
          then (loadAt port inputs cycle).drop - 1 else (loadAt port inputs cycle).drop := rfl
      have leaves : (taken port inputs (cycle + 1)).length = (taken port inputs cycle).length +
          (passed (loadAt port inputs cycle) (loadInputs port inputs cycle)).toNat :=
        length_transfers_succ cycle
      rw [drop, acceptedAtKill]
      cases killed : (inputs cycle).kill with
      | true =>
          simp only [if_true]
          omega
      | false =>
          simp only [Bool.false_eq_true, if_false]
          by_cases dropped : dropping (loadAt port inputs cycle) &&
              passed (loadAt port inputs cycle) (loadInputs port inputs cycle)
          · obtain ⟨owing, pass⟩ := Bool.and_eq_true_iff.mp dropped
            have positive : (loadAt port inputs cycle).drop ≠ 0 := by simpa [dropping] using owing
            rw [if_pos dropped, leaves, pass, Bool.toNat_true, BitVec.toNat_sub_of_le]
            · change _ - 1 = _
              omega
            · bv_omega
          · rw [if_neg dropped, inductionHypothesis, leaves]
            cases pass : passed (loadAt port inputs cycle) (loadInputs port inputs cycle) with
            | false => rfl
            | true =>
                have none : (loadAt port inputs cycle).drop = 0 := by
                  simpa [dropping, pass] using dropped
                rw [none] at inductionHypothesis
                simp only [BitVec.ofNat_eq_ofNat, BitVec.toNat_ofNat, Nat.zero_mod] at *
                omega

theorem dropping_eq (cycle : Nat) :
    dropping (loadAt port inputs cycle) =
      decide ((taken port inputs cycle).length < acceptedAtKill port inputs cycle) := by
  have counted := drop_eq returns cycle
  rw [Bool.eq_iff_iff, dropping, bne_iff_ne, decide_eq_true_iff, ne_eq, ← BitVec.toNat_inj, counted]
  simp only [BitVec.ofNat_eq_ofNat, BitVec.toNat_ofNat, Nat.zero_mod]
  omega

/-- A word is delivered when it is taken and its address came after the latest kill. -/
theorem delivers_iff (cycle : Nat) :
    delivers port inputs cycle = true ↔
      passed (loadAt port inputs cycle) (loadInputs port inputs cycle) = true ∧
        acceptedAtKill port inputs cycle ≤ (taken port inputs cycle).length := by
  have alive := dropping_eq returns cycle
  have offers : delivers port inputs cycle =
      (wordValid (loadAt port inputs cycle) (loadInputs port inputs cycle) &&
        !dropping (loadAt port inputs cycle) && (loadInputs port inputs cycle).dataOutReady) := rfl
  rw [offers, passed, wordReady, alive, ← Nat.not_lt]
  by_cases dead : (taken port inputs cycle).length < acceptedAtKill port inputs cycle <;> simp [dead]

/-- The words delivered after the latest kill are the words taken whose addresses were accepted
after it. -/
theorem deliveredSince_eq (cycle : Nat) :
    deliveredSince port inputs cycle =
      (taken port inputs cycle).drop (acceptedAtKill port inputs cycle) := by
  induction cycle with
  | zero => rfl
  | succ cycle inductionHypothesis =>
      rw [deliveredSince, acceptedAtKill]
      cases killed : (inputs cycle).kill with
      | true =>
          simp only [if_true]
          exact (List.drop_eq_nil_of_le (length_addresses_le returns (cycle + 1)).1).symm
      | false =>
          have delivered := delivers_iff returns cycle
          simp only [Bool.false_eq_true, if_false]
          rw [inductionHypothesis, taken_succ]
          cases pass : passed (loadAt port inputs cycle) (loadInputs port inputs cycle) with
          | false =>
              have silent : delivers port inputs cycle = false := by simpa [pass] using delivered
              simp [silent]
          | true =>
              by_cases alive : acceptedAtKill port inputs cycle ≤ (taken port inputs cycle).length
              · simp [delivered.mpr ⟨pass, alive⟩, List.drop_append_of_le_length alive]
              · have silent : delivers port inputs cycle = false := by
                  simpa [pass, alive] using delivered
                simp only [silent, Bool.false_eq_true, if_false, if_true, List.append_nil]
                rw [List.drop_eq_nil_of_le (by omega), List.drop_eq_nil_of_le (by simp; omega)]

/-- A word whose address was accepted by the end of a kill cycle is taken as soon as it comes
and delivered to nobody. -/
theorem dropped_of_killed {killed : Nat} (kill : (inputs killed).kill = true)
    (earlier : killed < cycle)
    (dead : (taken port inputs cycle).length < (addresses port inputs (killed + 1)).length)
    (arrived : wordValid (loadAt port inputs cycle) (loadInputs port inputs cycle) = true) :
    passed (loadAt port inputs cycle) (loadInputs port inputs cycle) = true ∧
      delivers port inputs cycle = false := by
  have latest : (addresses port inputs (killed + 1)).length ≤ acceptedAtKill port inputs cycle :=
    length_addresses_le_acceptedAtKill kill earlier
  have drops : dropping (loadAt port inputs cycle) = true := by
    rw [dropping_eq returns, decide_eq_true_iff]
    omega
  constructor
  · simp [passed, wordReady, arrived, drops]
  · rw [Bool.eq_false_iff]
    intro delivered
    have alive := ((delivers_iff returns cycle).mp delivered).2
    omega

/-- With no word owed, every accepted address was granted and its word taken. -/
theorem taken_of_owed_eq_zero (none : (loadAt port inputs cycle).owed = 0) :
    granted port inputs cycle = addresses port inputs cycle ∧
      taken port inputs cycle = words port inputs contents cycle := by
  have owed := owed_eq returns cycle
  have accepted := addresses_isPrefix port inputs cycle
  have listed := words_isPrefix returns cycle
  have granting : (granted port inputs cycle).length = (words port inputs contents cycle).length :=
    length_transfers_eq _ cycle
  have fewGranted := accepted.length_le
  have fewTaken := listed.length_le
  rw [none, BitVec.ofNat_eq_ofNat, BitVec.toNat_ofNat, Nat.zero_mod, Nat.zero_add] at owed
  exact ⟨accepted.eq_of_length (by omega), listed.eq_of_length (by omega)⟩

end Words

variable (port inputs) in
/-- The load drops the words of stopped evaluations and delivers the others. -/
structure DropsDead (contents : Nat → BitVec addrType → BitVec dataType) : Prop where
  /-- Neither counter wraps: they count the words owed, and those owed since the latest kill. -/
  owed : ∀ cycle, (loadAt port inputs cycle).owed.toNat + (taken port inputs cycle).length =
    (addresses port inputs cycle).length
  drop : ∀ cycle, (loadAt port inputs cycle).drop.toNat =
    acceptedAtKill port inputs cycle - (taken port inputs cycle).length
  /-- The words come in the order in which their addresses were accepted. -/
  ordered : ∀ cycle, granted port inputs cycle <+: addresses port inputs cycle ∧
    taken port inputs cycle <+: words port inputs contents cycle
  dropped : ∀ killed cycle, (inputs killed).kill = true → killed < cycle →
    (taken port inputs cycle).length < (addresses port inputs (killed + 1)).length →
    wordValid (loadAt port inputs cycle) (loadInputs port inputs cycle) = true →
    passed (loadAt port inputs cycle) (loadInputs port inputs cycle) = true ∧
      delivers port inputs cycle = false
  /-- The words delivered after the latest kill are those of the addresses accepted after it,
  all of them once no word is owed. -/
  delivered : ∀ cycle,
    deliveredSince port inputs cycle =
        (taken port inputs cycle).drop (acceptedAtKill port inputs cycle) ∧
      ((loadAt port inputs cycle).owed = 0 →
        granted port inputs cycle = addresses port inputs cycle ∧
        deliveredSince port inputs cycle =
          (words port inputs contents cycle).drop (acceptedAtKill port inputs cycle))

/-- On any port of the arbiter, whatever the other ports do, a load that may be stopped drops
the words of stopped evaluations and delivers the others in order. -/
theorem dropsDead (contents : Nat → BitVec addrType → BitVec dataType)
    (returns : ReadArbiter.Returns (arbiterInputs port inputs) contents) :
    DropsDead port inputs contents where
  owed := owed_eq returns
  drop := drop_eq returns
  ordered cycle := ⟨addresses_isPrefix port inputs cycle, words_isPrefix returns cycle⟩
  dropped _ _ kill earlier dead arrived := dropped_of_killed returns kill earlier dead arrived
  delivered cycle := by
    refine ⟨deliveredSince_eq returns cycle, fun none => ?_⟩
    obtain ⟨allGranted, allTaken⟩ := taken_of_owed_eq_zero returns none
    exact ⟨allGranted, allTaken ▸ deliveredSince_eq returns cycle⟩

/-- A new address in every cycle; the consumer stalls until cycle 4, and a kill comes in cycle
2. The word of an address is the cycle in which it was granted. -/
def killedInputs (cycle : Nat) : SystemInput 1 8 8 where
  addrIn := BitVec.ofNat 8 (cycle + 100)
  addrInValid := true
  dataOutReady := decide (4 ≤ cycle)
  kill := decide (cycle = 2)
  others :=
    { pValid := fun _ => false, addressIn := fun _ => 0, nReady := fun _ => false
      dataFromMemory := BitVec.ofNat 8 (cycle - 1) }

theorem dropsDead_killed :
    acceptedAtKill 0 killedInputs 8 = 3 ∧ deliveredSince 0 killedInputs 8 = [5, 6] ∧
      DropsDead 0 killedInputs fun cycle _ => BitVec.ofNat 8 cycle :=
  ⟨by decide, by decide, dropsDead (fun cycle _ => BitVec.ofNat 8 cycle) fun _ _ => rfl⟩

end System

end Dynamatic.MemoryController
