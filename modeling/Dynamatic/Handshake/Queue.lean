import Dynamatic.Handshake.ElasticFifo
import Mathlib.Data.List.DropRight

/-!
# Queues that publish their occupancy

The queue of `queue.py`: a ring memory with a head, a tail and a count register, which may hold
tokens at reset. `initialTokens` reads these from a text and refuses more of them than there are
slots. From reset the queue outputs its initial tokens and then the accepted ones, and its two
published counts are the tokens held and the slots left.
-/

namespace Dynamatic.Handshake

open Dynamatic.Clocked

/-- The parameters of a queue: no more tokens at reset than slots. -/
structure Queue (numSlots width : Nat) where
  initial : List (BitVec width)
  fits : initial.length ≤ numSlots
  sizeWidth : Nat
  spaceWidth : Nat

namespace Queue

variable {numSlots width : Nat}

/-! ### The initial tokens -/

section InitialTokens

/-- What `str.strip` removes. -/
def isSpace (character : Char) : Bool :=
  let code := character.toNat
  (9 ≤ code && code ≤ 13) || (28 ≤ code && code ≤ 32) || code == 133 || code == 160 ||
    code == 5760 || (8192 ≤ code && code ≤ 8202) || code == 8232 || code == 8233 ||
    code == 8239 || code == 8287 || code == 12288

def strip (text : List Char) : List Char := (text.dropWhile isSpace).rdropWhile isSpace

/-- A token that its text spells bit by bit. -/
def Spelled (width : Nat) (token : List Char) : Prop :=
  token.length = width ∧ ∀ character ∈ token, character = '0' ∨ character = '1'

instance (token : List Char) : Decidable (Spelled width token) :=
  inferInstanceAs (Decidable (_ ∧ _))

variable (name : String)

/-- The first token that is not spelled at the data width is refused. -/
def checkTokens (width : Nat) : List (List Char) → Except String Unit
  | [] => return ()
  | token :: rest =>
      if Spelled width token then checkTokens width rest
      else
        let text := String.ofList token
        throw s!"queue {name}: initial token '{text}' is not {width} bits"

def initialTokens (text : List Char) (numSlots width : Nat) : Except String (List (List Char)) :=
  let text := strip text
  if text = [] ∨ text = ['n', 'o', 'n', 'e'] then return []
  else
    let tokens := (text.splitOn ',').map strip
    let count := tokens.length
    if numSlots < count then
      throw s!"queue {name}: {count} initial tokens but {numSlots} slots"
    else if width = 0 then
      throw s!"queue {name}: initial tokens on a dataless channel"
    else do
      checkTokens name width tokens
      return tokens

/-- The word that a bit string literal stands for, first character first. -/
def bits (width : Nat) (token : List Char) : BitVec width :=
  (BitVec.ofBoolListBE (token.map (· == '1'))).setWidth width

end InitialTokens

/-! ### The registers -/

/-- The registers of a queue. Without data the memory is a column of empty words. -/
structure Registers (width : Nat) where
  memory : Nat → BitVec width
  head : Nat
  tail : Nat
  count : Nat

section Signals

variable (numSlots : Nat) (registers : Registers width) (input : FifoInput width)

def empty : Bool := registers.count == 0

def full : Bool := registers.count == numSlots

def insReady : Bool := !full numSlots registers

def outsValid : Bool := !empty registers

def readEn : Bool := input.outsReady && !empty registers

def writeEn : Bool := input.insValid && !full numSlots registers

def outs : BitVec width := registers.memory registers.head

/-- The tokens held, as published to the reader. -/
def outsSize (sizeWidth : Nat) : BitVec sizeWidth := BitVec.ofNat sizeWidth registers.count

/-- The slots left, as published to the writer. -/
def insSpace (spaceWidth : Nat) : BitVec spaceWidth :=
  BitVec.ofNat spaceWidth (numSlots - registers.count)

/-- The clocked processes. Only a queue with initial tokens resets its memory. -/
def clocked (initial : List (BitVec width)) (rst : Bool) : Registers width where
  count :=
    if rst then initial.length
    else if writeEn numSlots registers input && !readEn registers input then registers.count + 1
    else if readEn registers input && !writeEn numSlots registers input then registers.count - 1
    else registers.count
  tail :=
    if rst then initial.length % numSlots
    else if writeEn numSlots registers input then (registers.tail + 1) % numSlots
    else registers.tail
  head :=
    if rst then 0
    else if readEn registers input then (registers.head + 1) % numSlots
    else registers.head
  memory :=
    if rst && !initial.isEmpty then fun slot => initial.getD slot (registers.memory slot)
    else if writeEn numSlots registers input then
      Function.update registers.memory registers.tail input.ins
    else registers.memory

end Signals

/-- The registers after an edge with `rst` high. -/
def reset (queue : Queue numSlots width) (registers : Registers width) (input : FifoInput width) :
    Registers width :=
  clocked numSlots registers input queue.initial true

def machine (queue : Queue numSlots width) :
    Machine (Registers width) (FifoInput width) (FifoOutput width) where
  next := fun registers input => clocked numSlots registers input queue.initial false
  output := fun registers _ => ⟨insReady numSlots registers, outs registers, outsValid registers⟩

/-! ### What the parser accepts -/

section Accepted

variable {name : String} {text : List Char} {tokens : List (List Char)}

theorem checkTokens_ok : checkTokens name width tokens = .ok () ↔
    ∀ token ∈ tokens, Spelled width token := by
  induction tokens with
  | nil => simp [checkTokens, pure, Except.pure]
  | cons token rest inductionHypothesis =>
      rw [checkTokens, List.forall_mem_cons, ← inductionHypothesis]
      by_cases spelled : Spelled width token
      · rw [if_pos spelled, and_iff_right spelled]
      · rw [if_neg spelled]
        simp [spelled, throw, throwThe, MonadExceptOf.throw]

/-- The accepted tokens fit the slots and are spelled at the data width. -/
theorem initialTokens_fits (accepted : initialTokens name text numSlots width = .ok tokens) :
    tokens.length ≤ numSlots ∧ ∀ token ∈ tokens, Spelled width token := by
  rw [initialTokens] at accepted
  split at accepted
  · cases accepted
    exact ⟨Nat.zero_le _, by simp⟩
  · dsimp only at accepted
    split at accepted
    · cases accepted
    rename_i fits
    split at accepted
    · cases accepted
    cases checked : checkTokens name width (((strip text).splitOn ',').map strip) with
    | error problem => simp [checked, bind, Except.bind] at accepted
    | ok _ =>
        simp only [checked, bind, Except.bind, pure, Except.pure, Except.ok.injEq] at accepted
        subst accepted
        exact ⟨Nat.le_of_not_lt fits, checkTokens_ok.mp checked⟩

end Accepted

/-- `generate_queue` on the parameters that the unit is generated from. -/
def generateQueue (name : String) (text : List Char) (numSlots width sizeWidth spaceWidth : Nat) :
    Except String (Queue numSlots width) :=
  match accepted : initialTokens name text numSlots width with
  | .ok tokens =>
      .ok { initial := tokens.map (bits width)
            fits := by simpa using (initialTokens_fits accepted).1
            sizeWidth
            spaceWidth }
  | .error problem => .error problem

theorem generateQueue_initial {name : String} {text : List Char} {sizeWidth spaceWidth : Nat}
    {queue : Queue numSlots width}
    (generated : generateQueue name text numSlots width sizeWidth spaceWidth = .ok queue) :
    ∃ tokens, initialTokens name text numSlots width = .ok tokens ∧
      queue.initial = tokens.map (bits width) ∧ queue.sizeWidth = sizeWidth ∧
      queue.spaceWidth = spaceWidth := by
  rw [generateQueue] at generated
  split at generated
  · rename_i tokens accepted
    cases generated
    exact ⟨tokens, accepted, rfl, rfl, rfl⟩
  · cases generated

/-! ### A run -/

/-- The registers stand for the tokens `held`. -/
structure Holds (numSlots : Nat) (registers : Registers width) (held : List (BitVec width)) :
    Prop where
  headBounded : registers.head < numSlots
  countEq : registers.count = held.length
  tailEq : registers.tail = (registers.head + held.length) % numSlots
  heldEq : held = window numSlots registers.memory registers.head held.length
  fits : held.length ≤ numSlots

section Run

variable {registers : Registers width} {held : List (BitVec width)} {input : FifoInput width}

theorem holds_reset (queue : Queue numSlots width) (someSlot : 0 < numSlots) :
    Holds numSlots (queue.reset registers input) queue.initial where
  headBounded := someSlot
  countEq := rfl
  tailEq := by simp [reset, clocked]
  heldEq := by
    refine List.ext_getElem (by simp) fun slot before _ => ?_
    have fits := queue.fits
    have preloads : queue.initial.isEmpty = false := by
      cases listed : queue.initial with
      | nil => simp [listed] at before
      | cons first rest => rfl
    have inMemory : slot % numSlots = slot := Nat.mod_eq_of_lt (by omega)
    simp [reset, clocked, window, preloads, inMemory, before]
  fits := queue.fits

/-- The registers after a read. -/
def popped (numSlots : Nat) (registers : Registers width) : Registers width :=
  { registers with head := (registers.head + 1) % numSlots, count := registers.count - 1 }

/-- The registers after a write. -/
def pushed (numSlots : Nat) (registers : Registers width) (value : BitVec width) :
    Registers width :=
  { registers with
    memory := Function.update registers.memory registers.tail value
    tail := (registers.tail + 1) % numSlots
    count := registers.count + 1 }

theorem holds_popped {first : BitVec width} {rest : List (BitVec width)}
    (holds : Holds numSlots registers (first :: rest)) :
    first = registers.memory registers.head ∧ Holds numSlots (popped numSlots registers) rest := by
  have positive : 0 < numSlots := Nat.lt_of_le_of_lt (Nat.zero_le _) holds.headBounded
  have listed := holds.heldEq
  rw [List.length_cons, window_succ, Nat.mod_eq_of_lt holds.headBounded] at listed
  obtain ⟨isFirst, isRest⟩ := List.cons.inj listed
  refine ⟨isFirst, ?_⟩
  exact {
    headBounded := Nat.mod_lt _ positive
    countEq := by simp [popped, holds.countEq]
    tailEq := by
      simp only [popped, holds.tailEq, slot_add, List.length_cons, Nat.add_comm 1]
    heldEq := isRest
    fits := Nat.le_of_succ_le holds.fits }

theorem holds_pushed (holds : Holds numSlots registers held) (room : held.length < numSlots)
    (value : BitVec width) :
    Holds numSlots (pushed numSlots registers value) (held ++ [value]) where
  headBounded := holds.headBounded
  countEq := by simp [pushed, holds.countEq]
  tailEq := by
    simp only [pushed, holds.tailEq, slot_add, List.length_append, List.length_singleton]
  heldEq := by
    rw [List.length_append, List.length_singleton]
    exact (congrArg (· ++ [value]) holds.heldEq).trans
      (window_push value holds.tailEq room).symm
  fits := by
    rw [List.length_append, List.length_singleton]
    exact room

/-- The tokens held after a cycle. -/
def after (numSlots : Nat) (registers : Registers width) (input : FifoInput width)
    (held : List (BitVec width)) : List (BitVec width) :=
  (if readEn registers input then held.tail else held) ++
    if writeEn numSlots registers input then [input.ins] else []

/-- The three registers move as one read, then one write. -/
theorem clocked_eq (initial : List (BitVec width))
    (someToken : readEn registers input = true → registers.count ≠ 0) :
    clocked numSlots registers input initial false =
      let rest := if readEn registers input then popped numSlots registers else registers
      if writeEn numSlots registers input then pushed numSlots rest input.ins else rest := by
  cases reads : readEn registers input <;> cases writes : writeEn numSlots registers input <;>
    simp [clocked, popped, pushed, reads, writes]
  have some := someToken reads
  omega

theorem holds_clocked (initial : List (BitVec width)) (holds : Holds numSlots registers held) :
    Holds numSlots (clocked numSlots registers input initial false)
      (after numSlots registers input held) := by
  have someToken : readEn registers input = true → registers.count ≠ 0 := by
    intro reads
    simp only [readEn, empty, Bool.and_eq_true, Bool.not_eq_true', beq_eq_false_iff_ne] at reads
    exact reads.2
  have room : writeEn numSlots registers input = true → held.length < numSlots := by
    intro writes
    simp only [writeEn, full, holds.countEq, Bool.and_eq_true, Bool.not_eq_true',
      beq_eq_false_iff_ne] at writes
    exact lt_of_le_of_ne holds.fits writes.2
  have rest : Holds numSlots
      (if readEn registers input then popped numSlots registers else registers)
      (if readEn registers input then held.tail else held) := by
    split
    · rename_i reads
      cases held with
      | nil => exact absurd holds.countEq (someToken reads)
      | cons first rest => exact (holds_popped holds).2
    · exact holds
  rw [clocked_eq initial someToken, after]
  dsimp only
  split
  · rename_i writes
    refine holds_pushed rest ?_ _
    have some := room writes
    split <;> simp <;> omega
  · simpa using rest

/-- The oldest token is offered. -/
theorem offer_eq (queue : Queue numSlots width) (holds : Holds numSlots registers held) :
    offer queue.machine registers input = held.head? := by
  cases held with
  | nil => simp [offer, machine, outsValid, empty, holds.countEq]
  | cons first rest =>
      have isFirst := (holds_popped holds).1
      simp [offer, machine, outsValid, outs, empty, holds.countEq, ← isFirst]

/-- What is held and accepted goes out or is held. -/
theorem takes_append (queue : Queue numSlots width) (holds : Holds numSlots registers held) :
    held ++ takes queue.machine registers input =
      sends queue.machine registers input ++ after numSlots registers input held := by
  have same : takes queue.machine registers input =
      if writeEn numSlots registers input then [input.ins] else [] := rfl
  rw [same, sends, offer_eq queue holds, after, ← List.append_assoc]
  cases held <;> cases ready : input.outsReady <;> simp [readEn, empty, holds.countEq, ready]

theorem holds_stateAt (queue : Queue numSlots width) (someSlot : 0 < numSlots)
    (inputs : Nat → FifoInput width) (cycle : Nat) : ∃ held,
    Holds numSlots (queue.machine.stateAt (queue.reset registers input) inputs cycle) held ∧
      queue.initial ++ queue.machine.collect (takes queue.machine) (queue.reset registers input)
          inputs cycle =
        queue.machine.collect (sends queue.machine) (queue.reset registers input) inputs cycle ++
          held :=
  Machine.queue_from (holds_reset queue someSlot)
    (fun _ _ _ holds => ⟨_, holds_clocked queue.initial holds, takes_append queue holds⟩) cycle

end Run

/-- What a queue did up to a cycle, and what it shows in it: `held` is what is left of its
initial tokens and of those accepted. -/
structure Occupied (queue : Queue numSlots width) (initial : List (BitVec width))
    (start : Registers width) (inputs : Nat → FifoInput width) (cycle : Nat)
    (held : List (BitVec width)) : Prop where
  inOrder : initial ++ queue.machine.collect (takes queue.machine) start inputs cycle =
    queue.machine.collect (sends queue.machine) start inputs cycle ++ held
  count : (queue.machine.stateAt start inputs cycle).count = held.length
  bounded : held.length ≤ numSlots
  head : (queue.machine.stateAt start inputs cycle).head < numSlots
  tail : (queue.machine.stateAt start inputs cycle).tail =
    ((queue.machine.stateAt start inputs cycle).head +
      (queue.machine.stateAt start inputs cycle).count) % numSlots
  offered : offer queue.machine (queue.machine.stateAt start inputs cycle) (inputs cycle) =
    held.head?
  accepts : insReady numSlots (queue.machine.stateAt start inputs cycle) =
    decide (held.length < numSlots)
  outsSize : numSlots < 2 ^ queue.sizeWidth →
    (outsSize (queue.machine.stateAt start inputs cycle) queue.sizeWidth).toNat = held.length
  insSpace : numSlots < 2 ^ queue.spaceWidth →
    (insSpace numSlots (queue.machine.stateAt start inputs cycle) queue.spaceWidth).toNat =
      numSlots - held.length

/-- From reset, on every input, a queue outputs the tokens that its text lists and then those it
accepts. Its count is the number of tokens held, its tail stays that far ahead of its head, and
ports that are wide enough show the tokens held and the slots left. -/
theorem generateQueue_occupied {name : String} {text : List Char} {sizeWidth spaceWidth : Nat}
    {queue : Queue numSlots width} (someSlot : 0 < numSlots)
    (generated : generateQueue name text numSlots width sizeWidth spaceWidth = .ok queue) :
    ∃ tokens, initialTokens name text numSlots width = .ok tokens ∧
      ∀ before during inputs cycle, ∃ held,
        Occupied queue (tokens.map (bits width)) (queue.reset before during) inputs cycle held := by
  obtain ⟨tokens, accepted, initial, -, -⟩ := generateQueue_initial generated
  refine ⟨tokens, accepted, fun before during inputs cycle => ?_⟩
  obtain ⟨held, holds, inOrder⟩ := holds_stateAt queue someSlot inputs cycle
  have fits := holds.fits
  refine ⟨held, ?_⟩
  exact {
    inOrder := initial ▸ inOrder
    count := holds.countEq
    bounded := fits
    head := holds.headBounded
    tail := by rw [holds.countEq, holds.tailEq]
    offered := offer_eq queue holds
    accepts := by
      rw [insReady, full, holds.countEq]
      by_cases last : held.length = numSlots
      · simp [last]
      · simp [last, lt_of_le_of_ne fits last]
    outsSize := fun wide => by
      rw [Queue.outsSize, holds.countEq, BitVec.toNat_ofNat, Nat.mod_eq_of_lt (by omega)]
    insSpace := fun wide => by
      rw [Queue.insSpace, holds.countEq, BitVec.toNat_ofNat, Nat.mod_eq_of_lt (by omega)] }

/-- A queue of three slots that starts with two tokens. -/
def twoOfThree : Queue 3 2 where
  initial := [2#2, 1#2]
  fits := by decide
  sizeWidth := 2
  spaceWidth := 2

theorem generateQueue_occupied_twoOfThree :
    ∃ tokens, initialTokens "queue" ['1', '0', ',', ' ', '0', '1'] 3 2 = .ok tokens ∧
      ∀ before during inputs cycle, ∃ held,
        Occupied twoOfThree (tokens.map (bits 2)) (twoOfThree.reset before during) inputs cycle
          held :=
  @generateQueue_occupied 3 2 "queue" _ 2 2 _ (by decide) rfl

end Queue

end Dynamatic.Handshake
