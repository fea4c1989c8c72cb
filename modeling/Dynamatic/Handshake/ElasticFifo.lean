import Dynamatic.Handshake.Buffers
import Mathlib.Data.Nat.Log
import Dynamatic.Clocked.Machine

/-!
# Elastic FIFOs

The FIFOs of `elastic_fifo_inner.v`, `tfifo.v` and `ofifo.v`: a ring memory with full and empty
flags, the same with a bypass, and the same behind a `tehb`. Each is a queue with as many places
as it has slots.
-/

namespace Dynamatic.Handshake

open Dynamatic.Clocked

variable {width : Nat}

/-- The ports that the environment of a FIFO drives. -/
structure FifoInput (width : Nat) where
  ins : BitVec width
  insValid : Bool
  outsReady : Bool

/-- The ports that a FIFO drives. -/
structure FifoOutput (width : Nat) where
  insReady : Bool
  outs : BitVec width
  outsValid : Bool

namespace ElasticFifoInner

/-- The width of the pointers, at least one bit. -/
def ptrWidth (numSlots : Nat) : Nat := if 1 < numSlots then Nat.clog 2 numSlots else 1

/-- The index behind a pointer, computed as an integer. -/
def following (numSlots pointer : Nat) : Nat := if pointer + 1 = numSlots then 0 else pointer + 1

variable (fifo : Fifo (BitVec width)) (input : FifoInput width)

def insReady : Bool := !fifo.full || input.outsReady

def readEn : Bool := input.outsReady && !fifo.empty

def outsValid : Bool := !fifo.empty

def writeEn : Bool := input.insValid && (!fifo.full || input.outsReady)

def outs : BitVec width := fifo.memory fifo.head

/-- The clocked processes. -/
def next (numSlots : Nat) : Fifo (BitVec width) where
  memory :=
    if writeEn fifo input then Function.update fifo.memory fifo.tail input.ins else fifo.memory
  tail :=
    if writeEn fifo input then following numSlots fifo.tail % 2 ^ ptrWidth numSlots else fifo.tail
  head :=
    if readEn fifo input then following numSlots fifo.head % 2 ^ ptrWidth numSlots else fifo.head
  full :=
    if writeEn fifo input && !readEn fifo input then
      if following numSlots fifo.tail = fifo.head then true else fifo.full
    else if !writeEn fifo input && readEn fifo input then false else fifo.full
  empty :=
    if !writeEn fifo input && readEn fifo input then
      if following numSlots fifo.head = fifo.tail then true else fifo.empty
    else if writeEn fifo input && !readEn fifo input then false else fifo.empty

def machine (width numSlots : Nat) :
    Machine (Fifo (BitVec width)) (FifoInput width) (FifoOutput width) where
  next := fun fifo input => next fifo input numSlots
  output := fun fifo input => ⟨insReady fifo input, outs fifo, outsValid fifo⟩

end ElasticFifoInner

namespace Tfifo

variable (fifo : Fifo (BitVec width)) (input : FifoInput width)

/-- What the wrapped FIFO gets: a token that cannot pass by. -/
def inner : FifoInput width where
  ins := input.ins
  insValid := input.insValid && (!input.outsReady || ElasticFifoInner.outsValid fifo)
  outsReady := input.outsReady

def outs : BitVec width :=
  if ElasticFifoInner.outsValid fifo then ElasticFifoInner.outs fifo else input.ins

def outsValid : Bool := input.insValid || ElasticFifoInner.outsValid fifo

def insReady : Bool := ElasticFifoInner.insReady fifo (inner fifo input) || input.outsReady

def machine (width numSlots : Nat) :
    Machine (Fifo (BitVec width)) (FifoInput width) (FifoOutput width) where
  next := fun fifo input => ElasticFifoInner.next fifo (inner fifo input) numSlots
  output := fun fifo input => ⟨insReady fifo input, outs fifo input, outsValid fifo input⟩

end Tfifo

/-- The registers of an `ofifo`: those of its `tehb` and of its FIFO. -/
structure Ofifo (width : Nat) where
  tehb : Tehb (BitVec width)
  fifo : Fifo (BitVec width)

namespace Ofifo

variable (unit : Ofifo width) (input : FifoInput width)

/-- What the FIFO gets from the `tehb`. -/
def inner : FifoInput width where
  ins := unit.tehb.outs input.ins
  insValid := unit.tehb.outsValid input.insValid
  outsReady := input.outsReady

def fifoReady : Bool := ElasticFifoInner.insReady unit.fifo (inner unit input)

def machine (width numSlots : Nat) : Machine (Ofifo width) (FifoInput width) (FifoOutput width) where
  next := fun unit input =>
    { tehb := unit.tehb.next input.ins input.insValid (fifoReady unit input)
      fifo := ElasticFifoInner.next unit.fifo (inner unit input) numSlots }
  output := fun unit _ =>
    ⟨unit.tehb.insReady, ElasticFifoInner.outs unit.fifo, ElasticFifoInner.outsValid unit.fifo⟩

end Ofifo

/-! ### Tokens -/

section Tokens

variable {State : Type} (machine : Machine State (FifoInput width) (FifoOutput width))

/-- The token that is accepted in a cycle. -/
def takes (state : State) (input : FifoInput width) : List (BitVec width) :=
  if input.insValid && (machine.output state input).insReady then [input.ins] else []

/-- The token that is offered in a cycle. -/
def offer (state : State) (input : FifoInput width) : Option (BitVec width) :=
  if (machine.output state input).outsValid then some (machine.output state input).outs else none

/-- The token that is output in a cycle. -/
def sends (state : State) (input : FifoInput width) : List (BitVec width) :=
  if input.outsReady then (offer machine state input).toList else []

/-- The tokens output so far are those accepted, in order, up to the tokens held. -/
def Queued (start : State) (inputs : Nat → FifoInput width) (cycle : Nat)
    (held : List (BitVec width)) : Prop :=
  machine.collect (takes machine) start inputs cycle =
    machine.collect (sends machine) start inputs cycle ++ held

/-- The incoming token, where it passes by. -/
def passing (bypass : Bool) (input : FifoInput width) : List (BitVec width) :=
  if bypass && input.insValid then [input.ins] else []

/-- A queue of limited length that offers the oldest token at hand. -/
structure BoundedQueue (capacity : Nat) (bypass : Bool) (start : State)
    (inputs : Nat → FifoInput width) (cycle : Nat) (held : List (BitVec width)) : Prop where
  queued : Queued machine start inputs cycle held
  bounded : held.length ≤ capacity
  offered : offer machine (machine.stateAt start inputs cycle) (inputs cycle) =
    (held ++ passing bypass (inputs cycle)).head?

end Tokens

namespace ElasticFifoInner

variable {numSlots : Nat} {fifo : Fifo (BitVec width)} {held : List (BitVec width)}
  {input : FifoInput width}

theorem le_two_pow_ptrWidth (numSlots : Nat) : numSlots ≤ 2 ^ ptrWidth numSlots := by
  rw [ptrWidth]
  split
  · exact Nat.le_pow_clog Nat.one_lt_two numSlots
  · omega

theorem following_eq {pointer : Nat} (bounded : pointer < numSlots) :
    following numSlots pointer = (pointer + 1) % numSlots := by
  rw [following]
  split
  · rename_i last
    rw [last, Nat.mod_self]
  · rw [Nat.mod_eq_of_lt (by omega)]

theorem following_mod {pointer : Nat} (bounded : pointer < numSlots) :
    following numSlots pointer % 2 ^ ptrWidth numSlots = (pointer + 1) % numSlots := by
  have positive : 0 < numSlots := Nat.lt_of_le_of_lt (Nat.zero_le _) bounded
  rw [following_eq bounded]
  exact Nat.mod_eq_of_lt
    (Nat.lt_of_lt_of_le (Nat.mod_lt _ positive) (le_two_pow_ptrWidth numSlots))

/-- The pointers wrap at the number of slots. -/
theorem next_eq (head : fifo.head < numSlots) (tail : fifo.tail < numSlots) :
    next fifo input numSlots =
      fifo.step numSlots 1 (writeEn fifo input) (readEn fifo input) input.ins := by
  rw [next, Fifo.step, following_mod head, following_mod tail, following_eq head,
    following_eq tail]

/-- A token is written if it finds room, the oldest one read if the sink is ready. -/
theorem holds_next (holds : fifo.Holds numSlots numSlots held) :
    (next fifo input numSlots).Holds numSlots numSlots
      ((if readEn fifo input then held.tail else held) ++
        if writeEn fifo input then [input.ins] else []) := by
  have positive : 0 < numSlots := Nat.lt_of_le_of_lt (Nat.zero_le _) holds.headBounded
  have tail : fifo.tail < numSlots := holds.tailEq ▸ Nat.mod_lt _ positive
  rw [next_eq holds.headBounded tail]
  refine Fifo.holds_step holds rfl Nat.one_pos (fun writes unread => ?_) (fun reads => ?_)
  · simp only [writeEn, holds.fullEq, Bool.and_eq_true, Bool.or_eq_true, Bool.not_eq_true',
      decide_eq_false_iff_not] at writes
    rcases writes.2 with notFull | ready
    · exact lt_of_le_of_ne holds.fits notFull
    · simp only [readEn, ready, holds.emptyEq, Bool.true_and, Bool.not_eq_false',
        decide_eq_true_eq] at unread
      omega
  · simp only [readEn, holds.emptyEq, Bool.and_eq_true, Bool.not_eq_true', decide_eq_false_iff_not,
      List.length_eq_zero_iff] at reads
    exact reads.2

theorem readEn_eq (holds : fifo.Holds numSlots numSlots held) :
    readEn fifo input = (input.outsReady && !decide (held.length = 0)) := by
  rw [readEn, holds.emptyEq]

/-- The oldest token is offered. -/
theorem offer_eq (holds : fifo.Holds numSlots numSlots held) :
    (if outsValid fifo then some (outs fifo) else none) = held.head? := by
  cases held with
  | nil => simp [outsValid, holds.emptyEq]
  | cons first rest =>
      have isFirst := (List.cons.inj (holds.head_eq (List.cons_ne_nil _ _))).1
      simp [outsValid, outs, holds.emptyEq, ← isFirst]

/-- What is held and accepted goes out or is held. -/
theorem takes_append (holds : fifo.Holds numSlots numSlots held) :
    held ++ takes (machine width numSlots) fifo input =
      sends (machine width numSlots) fifo input ++
        ((if readEn fifo input then held.tail else held) ++
          if writeEn fifo input then [input.ins] else []) := by
  have offered : offer (machine width numSlots) fifo input = held.head? := offer_eq holds
  have same : takes (machine width numSlots) fifo input =
      if writeEn fifo input then [input.ins] else [] := rfl
  rw [same, sends, offered, ← List.append_assoc, readEn_eq holds]
  cases held <;> cases input.outsReady <;> rfl

/-- A FIFO that has just been reset, over any memory. -/
theorem queue (positive : 0 < numSlots) (memory : Nat → BitVec width)
    (inputs : Nat → FifoInput width) (cycle : Nat) : ∃ held,
    ((machine width numSlots).stateAt (.reset memory) inputs cycle).Holds numSlots numSlots held ∧
      Queued (machine width numSlots) (.reset memory) inputs cycle held :=
  Machine.queue (Fifo.holds_reset memory positive positive)
    (fun _ _ _ holds => ⟨_, holds_next holds, takes_append holds⟩) cycle

end ElasticFifoInner

namespace Tfifo

variable {numSlots : Nat} {fifo : Fifo (BitVec width)} {held : List (BitVec width)}
  {input : FifoInput width}

/-- The oldest token at hand is offered, the incoming one if none is held. -/
theorem offer_eq (holds : fifo.Holds numSlots numSlots held) :
    offer (machine width numSlots) fifo input =
      (held ++ passing true input).head? := by
  have offered := ElasticFifoInner.offer_eq holds
  cases held with
  | nil =>
      have none : ElasticFifoInner.outsValid fifo = false := by
        simp [ElasticFifoInner.outsValid, holds.emptyEq]
      cases valid : input.insValid <;> simp [offer, machine, outsValid, outs, passing, none, valid]
  | cons first rest =>
      have some : ElasticFifoInner.outsValid fifo = true := by
        simp [ElasticFifoInner.outsValid, holds.emptyEq]
      rw [if_pos some] at offered
      simpa [offer, machine, outsValid, outs, some] using offered

/-- A token goes past an empty FIFO to a ready sink, otherwise through it. -/
theorem takes_append (holds : fifo.Holds numSlots numSlots held) :
    held ++ takes (machine width numSlots) fifo input =
      sends (machine width numSlots) fifo input ++
        ((if ElasticFifoInner.readEn fifo (inner fifo input) then held.tail else held) ++
          if ElasticFifoInner.writeEn fifo (inner fifo input) then [input.ins] else []) := by
  rw [sends, offer_eq holds, ElasticFifoInner.readEn_eq holds]
  cases held <;> cases ready : input.outsReady <;> cases valid : input.insValid <;>
    cases full : fifo.full <;>
    simp [takes, machine, insReady, inner, passing, ElasticFifoInner.insReady,
      ElasticFifoInner.writeEn, ElasticFifoInner.outsValid, holds.emptyEq, ready, valid, full]

theorem queue (positive : 0 < numSlots) (memory : Nat → BitVec width)
    (inputs : Nat → FifoInput width) (cycle : Nat) : ∃ held,
    ((machine width numSlots).stateAt (.reset memory) inputs cycle).Holds numSlots numSlots held ∧
      Queued (machine width numSlots) (.reset memory) inputs cycle held :=
  Machine.queue (Fifo.holds_reset memory positive positive)
    (fun _ _ _ holds => ⟨_, ElasticFifoInner.holds_next holds, takes_append holds⟩) cycle

end Tfifo

namespace Ofifo

variable {numSlots : Nat} {unit : Ofifo width} {held : List (BitVec width)}
  {input : FifoInput width}

def reset (zero : BitVec width) (memory : Nat → BitVec width) : Ofifo width where
  tehb := .reset zero
  fifo := .reset memory

/-- The tokens of the FIFO come before that of the `tehb`, which waits only behind a full one. -/
structure Holds (numSlots : Nat) (unit : Ofifo width) (held : List (BitVec width)) : Prop where
  stored : ∃ stored, unit.fifo.Holds numSlots numSlots stored ∧
    held = stored ++ unit.tehb.contents ∧
      (unit.tehb.fullReg = true → stored.length = numSlots)

theorem Holds.length_le (holds : unit.Holds numSlots held) : held.length ≤ numSlots + 1 := by
  obtain ⟨stored, inFifo, rfl, _⟩ := holds
  have one := unit.tehb.length_contents_le
  have fits := inFifo.fits
  rw [List.length_append]
  omega

theorem offer_eq (positive : 0 < numSlots) (holds : unit.Holds numSlots held) :
    offer (machine width numSlots) unit input = held.head? := by
  obtain ⟨stored, inFifo, rfl, behindFull⟩ := holds
  have offered : offer (machine width numSlots) unit input = stored.head? :=
    ElasticFifoInner.offer_eq inFifo
  rw [offered]
  cases stored with
  | nil =>
      have free : unit.tehb.fullReg = false := by
        by_contra full
        have length := behindFull (Bool.eq_true_of_not_eq_false full)
        rw [List.length_nil] at length
        omega
      simp [Tehb.contents, free]
  | cons first rest => rfl

theorem holds_next (holds : unit.Holds numSlots held) :
    ∃ rest, ((machine width numSlots).next unit input).Holds numSlots rest ∧
      held ++ takes (machine width numSlots) unit input =
        sends (machine width numSlots) unit input ++ rest := by
  obtain ⟨stored, inFifo, rfl, behindFull⟩ := holds
  have passed := unit.tehb.contents_append input.ins input.insValid (fifoReady unit input)
  have moved := @ElasticFifoInner.takes_append _ _ _ _ (inner unit input) inFifo
  have after := @ElasticFifoInner.holds_next _ _ _ _ (inner unit input) inFifo
  refine ⟨_, ⟨_, after, rfl, fun full => ?_⟩, ?_⟩
  · -- a token stays behind only if nothing moves in a full FIFO
    have stays : fifoReady unit input = false := by
      have full : ((input.insValid || unit.tehb.fullReg) && !fifoReady unit input) = true := full
      simpa using (Bool.and_eq_true_iff.mp full).2
    rw [fifoReady, ElasticFifoInner.insReady, Bool.or_eq_false_iff] at stays
    have isFull : unit.fifo.full = true := by simpa using stays.1
    rw [inFifo.fullEq, decide_eq_true_eq] at isFull
    simp [ElasticFifoInner.readEn, ElasticFifoInner.writeEn, stays.2, inFifo.fullEq, isFull]
  · have isTaken : takes (machine width numSlots) unit input =
        if input.insValid && unit.tehb.insReady then [input.ins] else [] := rfl
    have isMoved : takes (ElasticFifoInner.machine width numSlots) unit.fifo (inner unit input) =
        if unit.tehb.outsValid input.insValid && fifoReady unit input then
          [unit.tehb.outs input.ins] else [] := rfl
    have isSent : sends (ElasticFifoInner.machine width numSlots) unit.fifo (inner unit input) =
        sends (machine width numSlots) unit input := rfl
    rw [isTaken, List.append_assoc, passed, ← isMoved, ← List.append_assoc, moved, isSent,
      List.append_assoc]
    rfl

theorem queue (positive : 0 < numSlots) (zero : BitVec width) (memory : Nat → BitVec width)
    (inputs : Nat → FifoInput width) (cycle : Nat) : ∃ held,
    ((machine width numSlots).stateAt (reset zero memory) inputs cycle).Holds numSlots held ∧
      Queued (machine width numSlots) (reset zero memory) inputs cycle held := by
  have initial : (reset zero memory).Holds numSlots [] :=
    ⟨[], Fifo.holds_reset memory positive positive, rfl, nofun⟩
  exact Machine.queue initial (fun _ _ _ holds => holds_next holds) cycle

end Ofifo

/-- The FIFOs are bounded queues, whatever their memory holds after reset, and the flags tell
when the inner one is full and when it is empty. -/
theorem elasticFifos_boundedQueue {numSlots : Nat} (positive : 0 < numSlots) (zero : BitVec width)
    (memory : Nat → BitVec width) (inputs : Nat → FifoInput width) (cycle : Nat) :
    (∃ held, BoundedQueue (ElasticFifoInner.machine width numSlots) numSlots false (.reset memory)
        inputs cycle held ∧
      let fifo := (ElasticFifoInner.machine width numSlots).stateAt (.reset memory) inputs cycle
      (fifo.full = true ↔ held.length = numSlots) ∧ (fifo.empty = true ↔ held.length = 0)) ∧
    (∃ held, BoundedQueue (Tfifo.machine width numSlots) numSlots true (.reset memory) inputs
      cycle held) ∧
    ∃ held, BoundedQueue (Ofifo.machine width numSlots) (numSlots + 1) false
      (Ofifo.reset zero memory) inputs cycle held := by
  refine ⟨?_, ?_, ?_⟩
  · obtain ⟨held, holds, queued⟩ := ElasticFifoInner.queue positive memory inputs cycle
    refine ⟨held, ⟨queued, holds.fits, ?_⟩, ?_, ?_⟩
    · rw [passing, Bool.false_and, if_neg Bool.false_ne_true, List.append_nil]
      exact ElasticFifoInner.offer_eq holds
    · rw [holds.fullEq, decide_eq_true_eq]
    · rw [holds.emptyEq, decide_eq_true_eq]
  · obtain ⟨held, holds, queued⟩ := Tfifo.queue positive memory inputs cycle
    exact ⟨held, queued, holds.fits, Tfifo.offer_eq holds⟩
  · obtain ⟨held, holds, queued⟩ := Ofifo.queue positive zero memory inputs cycle
    refine ⟨held, queued, holds.length_le, ?_⟩
    rw [passing, Bool.false_and, if_neg Bool.false_ne_true, List.append_nil]
    exact Ofifo.offer_eq positive holds

/-- A source that always offers a token, and a sink that takes every other one. -/
def alternating (cycle : Nat) : FifoInput 8 := ⟨BitVec.ofNat 8 cycle, true, cycle % 2 = 1⟩

theorem elasticFifos_boundedQueue_three :
    (∃ held, BoundedQueue (ElasticFifoInner.machine 8 3) 3 false (.reset fun _ => 0) alternating 9
        held ∧
      let fifo := (ElasticFifoInner.machine 8 3).stateAt (.reset fun _ => 0) alternating 9
      (fifo.full = true ↔ held.length = 3) ∧ (fifo.empty = true ↔ held.length = 0)) ∧
    (∃ held, BoundedQueue (Tfifo.machine 8 3) 3 true (.reset fun _ => 0) alternating 9 held) ∧
    ∃ held, BoundedQueue (Ofifo.machine 8 3) (3 + 1) false (Ofifo.reset 0 fun _ => 0) alternating 9
      held :=
  elasticFifos_boundedQueue (by decide) 0 (fun _ => 0) alternating 9

end Dynamatic.Handshake
