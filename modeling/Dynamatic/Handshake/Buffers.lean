import Dynamatic.Clocked.Fifo

/-!
# Elastic buffers

The buffers that `fifo_break_dv.py`, `one_slot_break_dv.py` and
`fifo_break_none.py` generate, and the queues they implement. A `fifo_break_dv`
of one slot is generated as a `one_slot_break_dv`; a `fifo_break_none` puts a
bypass in front of a FIFO that is used as soon as a token has to wait. A `tehb`
of `tehb.v` is one slot with such a bypass, whose ready is a register.
-/

namespace Dynamatic.Handshake

open Dynamatic.Clocked

variable {α : Type}

namespace FifoBreakDv

variable (fifo : Fifo α)

def insReady (outsReady : Bool) : Bool := !fifo.full || outsReady

def readEn (outsReady : Bool) : Bool := outsReady && !fifo.empty

def writeEn (insValid outsReady : Bool) : Bool := insValid && (!fifo.full || outsReady)

def outsValid : Bool := !fifo.empty

def outs : α := fifo.memory fifo.head

def next (slots : Nat) (ins : α) (insValid outsReady : Bool) : Fifo α :=
  fifo.step slots 1 (writeEn fifo insValid outsReady) (readEn fifo outsReady) ins

variable {fifo} {slots : Nat} {contents : List α}

/-- A queue that takes a token whenever one is offered, as long as the token
finds room or the sink is ready. -/
theorem holds_next (holds : fifo.Holds slots slots contents) {ins : α} {insValid outsReady : Bool}
    (room : insValid = true → contents.length < slots ∨ outsReady = true) :
    (next fifo slots ins insValid outsReady).Holds slots slots
      ((if outsReady then contents.tail else contents) ++ if insValid then [ins] else []) := by
  have writes : writeEn fifo insValid outsReady = insValid := by
    cases insValid with
    | false => rfl
    | true =>
        rcases room rfl with short | ready
        · simp [writeEn, holds.fullEq, Nat.ne_of_lt short]
        · simp [writeEn, ready]
  have positive : 0 < slots := Nat.lt_of_le_of_lt (Nat.zero_le _) holds.headBounded
  have reads : readEn fifo outsReady = (outsReady && !decide (contents = [])) := by
    simp [readEn, holds.emptyEq]
  have sameTail : (if readEn fifo outsReady then contents.tail else contents) =
      if outsReady then contents.tail else contents := by
    cases contents <;> simp [reads]
  rw [next, writes, ← sameTail]
  refine Fifo.holds_step holds rfl (by decide) (fun valid unread => ?_) (fun read => ?_)
  · rcases room valid with short | ready
    · exact short
    · rw [reads, ready] at unread
      have empty : contents = [] := by simpa using unread
      simpa [empty] using positive
  · simp only [reads, Bool.and_eq_true, Bool.not_eq_true', decide_eq_false_iff_not] at read
    exact read.2

end FifoBreakDv

/-- The registers of a generated `fifo_break_dv`: those of a `one_slot_break_dv`
when it has one slot. -/
inductive BreakDv (α : Type) where
  | oneSlot (outputValid : Bool) (outs : α)
  | fifo (registers : Fifo α)

namespace BreakDv

def reset (slots : Nat) (zero : α) : BreakDv α :=
  if slots = 1 then .oneSlot false zero else .fifo (.reset fun _ => zero)

def outsValid : BreakDv α → Bool
  | .oneSlot outputValid _ => outputValid
  | .fifo registers => FifoBreakDv.outsValid registers

def outs : BreakDv α → α
  | .oneSlot _ outs => outs
  | .fifo registers => FifoBreakDv.outs registers

def insReady (buffer : BreakDv α) (outsReady : Bool) : Bool :=
  match buffer with
  | .oneSlot outputValid _ => !outputValid || outsReady
  | .fifo registers => FifoBreakDv.insReady registers outsReady

def next (buffer : BreakDv α) (slots : Nat) (ins : α) (insValid outsReady : Bool) : BreakDv α :=
  match buffer with
  | .oneSlot outputValid outs =>
      .oneSlot (insValid || outputValid && !outsReady)
        (if (!outputValid || outsReady) && insValid then ins else outs)
  | .fifo registers => .fifo (FifoBreakDv.next registers slots ins insValid outsReady)

/-- The registers stand for a queue of at most `slots` tokens. -/
def Holds (slots : Nat) : BreakDv α → List α → Prop
  | .oneSlot outputValid outs, contents => slots = 1 ∧ contents = if outputValid then [outs] else []
  | .fifo registers, contents => registers.Holds slots slots contents

variable {slots : Nat} {buffer : BreakDv α} {contents : List α}

theorem holds_reset (zero : α) (positive : 0 < slots) : (reset slots zero).Holds slots [] := by
  rw [reset]
  split
  · rename_i one
    exact ⟨one, rfl⟩
  · exact Fifo.holds_reset _ positive positive

theorem Holds.outsValid_eq (holds : buffer.Holds slots contents) :
    buffer.outsValid = !contents.isEmpty := by
  cases buffer with
  | oneSlot outputValid outs =>
      obtain ⟨-, rfl⟩ := holds
      cases outputValid <;> rfl
  | fifo registers =>
      cases contents <;> simp [BreakDv.outsValid, FifoBreakDv.outsValid, Fifo.Holds.emptyEq holds]

theorem Holds.outs_eq {first : α} {rest : List α} (holds : buffer.Holds slots (first :: rest)) :
    buffer.outs = first := by
  cases buffer with
  | oneSlot outputValid outs =>
      obtain ⟨-, listed⟩ := holds
      cases outputValid with
      | true => exact (List.cons.inj listed).1.symm
      | false => cases listed
  | fifo registers =>
      have head := Fifo.Holds.head_eq holds (List.cons_ne_nil _ _)
      exact (List.cons.inj head).1.symm

theorem holds_next (holds : buffer.Holds slots contents) {ins : α} {insValid outsReady : Bool}
    (room : insValid = true → contents.length < slots ∨ outsReady = true) :
    (buffer.next slots ins insValid outsReady).Holds slots
      ((if outsReady then contents.tail else contents) ++ if insValid then [ins] else []) := by
  cases buffer with
  | oneSlot outputValid outs =>
      obtain ⟨rfl, rfl⟩ := holds
      refine ⟨rfl, ?_⟩
      cases insValid <;> cases outsReady <;> cases outputValid <;> simp_all
  | fifo registers => exact FifoBreakDv.holds_next holds room

end BreakDv

namespace FifoBreakNone

variable (fifo : Fifo α)

def outsValid (insValid : Bool) : Bool := insValid || FifoBreakDv.outsValid fifo

def outs (ins : α) : α := if FifoBreakDv.outsValid fifo then FifoBreakDv.outs fifo else ins

def insReady (outsReady : Bool) : Bool := FifoBreakDv.insReady fifo outsReady || outsReady

def next (slots : Nat) (ins : α) (insValid outsReady : Bool) : Fifo α :=
  FifoBreakDv.next fifo slots ins (insValid && (!outsReady || FifoBreakDv.outsValid fifo)) outsReady

variable {fifo} {slots : Nat} {contents : List α} {ins : α} {insValid outsReady : Bool}

/-- The tokens at hand in a cycle: those stored, and the one that comes in. -/
def passing (contents : List α) (ins : α) (insValid : Bool) : List α :=
  contents ++ if insValid then [ins] else []

theorem outsValid_eq (holds : fifo.Holds slots slots contents) :
    outsValid fifo insValid = !(passing contents ins insValid).isEmpty := by
  cases insValid <;> cases contents <;>
    simp [outsValid, FifoBreakDv.outsValid, passing, holds.emptyEq]

theorem outs_eq (holds : fifo.Holds slots slots contents) {first : α} {rest : List α}
    (some : passing contents ins insValid = first :: rest) : outs fifo ins = first := by
  cases contents with
  | nil =>
      cases insValid with
      | false => cases some
      | true =>
          have same : ins = first := (List.cons.inj some).1
          simp [outs, FifoBreakDv.outsValid, holds.emptyEq, same]
  | cons oldest stored =>
      have head := (List.cons.inj (holds.head_eq (List.cons_ne_nil _ _))).1
      have same : oldest = first := (List.cons.inj some).1
      simp [outs, FifoBreakDv.outsValid, FifoBreakDv.outs, holds.emptyEq, ← head, same]

/-- The sink takes the oldest token at hand, and the others are stored. -/
theorem holds_next (holds : fifo.Holds slots slots contents)
    (room : insValid = true → contents.length < slots) :
    (next fifo slots ins insValid outsReady).Holds slots slots
      (if outsReady then (passing contents ins insValid).tail
        else passing contents ins insValid) := by
  have stored : (next fifo slots ins insValid outsReady).Holds slots slots
      ((if outsReady then contents.tail else contents) ++
        if insValid && (!outsReady || FifoBreakDv.outsValid fifo) then [ins] else []) :=
    FifoBreakDv.holds_next holds
      (fun valid => .inl (room (by simp only [Bool.and_eq_true] at valid; exact valid.1)))
  have same : (if outsReady then contents.tail else contents) ++
      (if insValid && (!outsReady || FifoBreakDv.outsValid fifo) then [ins] else []) =
      if outsReady then (passing contents ins insValid).tail else passing contents ins insValid := by
    cases outsReady <;> cases insValid <;> cases contents <;>
      simp [passing, FifoBreakDv.outsValid, holds.emptyEq]
  rw [same] at stored
  exact stored

end FifoBreakNone

/-- The registers of a `tehb`. -/
structure Tehb (α : Type) where
  fullReg : Bool
  dataReg : α

namespace Tehb

def reset (zero : α) : Tehb α := { fullReg := false, dataReg := zero }

variable (slot : Tehb α)

def insReady : Bool := !slot.fullReg

def outsValid (insValid : Bool) : Bool := insValid || slot.fullReg

def outs (ins : α) : α := if slot.insReady then ins else slot.dataReg

def next (ins : α) (insValid outsReady : Bool) : Tehb α where
  fullReg := (insValid || slot.fullReg) && !outsReady
  dataReg := if slot.insReady && insValid && !outsReady then ins else slot.dataReg

/-- The token that waits in the slot. -/
def contents : List α := if slot.fullReg then [slot.dataReg] else []

theorem length_contents_le : slot.contents.length ≤ 1 := by
  rw [contents]
  split <;> simp

/-- What comes in goes out or waits, the waiting token first. -/
theorem contents_append (ins : α) (insValid outsReady : Bool) :
    slot.contents ++ (if insValid && slot.insReady then [ins] else []) =
      (if slot.outsValid insValid && outsReady then [slot.outs ins] else []) ++
        (slot.next ins insValid outsReady).contents := by
  obtain ⟨fullReg, dataReg⟩ := slot
  cases fullReg <;> cases insValid <;> cases outsReady <;>
    simp [contents, insReady, outsValid, outs, next]

/-- The token at hand is offered: the waiting one, or the one that comes in. -/
theorem contents_offered (ins : α) (insValid : Bool) :
    slot.contents ++ (if insValid && slot.insReady then [ins] else []) =
      if slot.outsValid insValid then [slot.outs ins] else [] := by
  obtain ⟨fullReg, dataReg⟩ := slot
  cases fullReg <;> cases insValid <;> simp [contents, insReady, outsValid, outs]

/-- What waits after a cycle is what was offered and not taken. -/
theorem contents_next (ins : α) (insValid outsReady : Bool) :
    (slot.next ins insValid outsReady).contents =
      if slot.outsValid insValid && !outsReady then [slot.outs ins] else [] := by
  obtain ⟨fullReg, dataReg⟩ := slot
  cases fullReg <;> cases insValid <;> cases outsReady <;>
    simp [contents, insReady, outsValid, outs, next]

end Tehb

end Dynamatic.Handshake
