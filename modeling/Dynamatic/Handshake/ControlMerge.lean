import Dynamatic.Clocked.Scan
import Dynamatic.Handshake.Buffers
import Dynamatic.Handshake.Forks
import Dynamatic.Clocked.Machine

/-!
# Control merges

The `control_merge_dataless` of `control_merge.v`: a `merge_dataless` picks the lowest valid
input, the number of that input waits in a `tehb`, and an eager fork hands the token to `outs`
and the number to `index`. The merge may choose anew in each cycle, but only the choice that
the `tehb` takes is accepted.
-/

namespace Dynamatic.Handshake

open Dynamatic.Clocked

variable {size indexType : Nat}

/-- One turn of the loop of `merge_dataless`. -/
def mergeStep (insValid : Fin size → Bool) (outsReady : Bool) (tmp : Bool × (Fin size → Bool))
    (index : Fin size) : Bool × (Fin size → Bool) :=
  if insValid index && !tmp.1 then (true, Function.update tmp.2 index outsReady) else tmp

/-- `outs_valid` and `ins_ready` of a `merge_dataless`. -/
def mergeDataless (insValid : Fin size → Bool) (outsReady : Bool) : Bool × (Fin size → Bool) :=
  (List.finRange size).foldl (mergeStep insValid outsReady) (false, fun _ => false)

/-- The ready of no input but one. -/
def readyAt (outsReady : Bool) (index : Fin size) : Fin size → Bool :=
  Function.update (fun _ => false) index outsReady

private theorem foldl_mergeStep (insValid : Fin size → Bool) (outsReady : Bool)
    (indices : List (Fin size)) (tmp : Bool × (Fin size → Bool))
    (untouched : tmp.1 = false → tmp.2 = fun _ => false) :
    indices.foldl (mergeStep insValid outsReady) tmp =
      indices.foldl (scanStep insValid (readyAt outsReady)) tmp := by
  induction indices generalizing tmp with
  | nil => rfl
  | cons index rest inductionHypothesis =>
      have same : mergeStep insValid outsReady tmp index =
          scanStep insValid (readyAt outsReady) tmp index := by
        rw [mergeStep, scanStep, Bool.and_comm]
        split
        · rename_i hit
          rw [Bool.and_eq_true, Bool.not_eq_true'] at hit
          rw [untouched hit.1, readyAt]
        · rfl
      rw [List.foldl_cons, List.foldl_cons, same]
      refine inductionHypothesis _ ?_
      rw [scanStep]
      split
      · intro isFalse
        cases isFalse
      · exact untouched

/-- The loop finds the first valid input. -/
theorem mergeDataless_eq (insValid : Fin size → Bool) (outsReady : Bool) :
    mergeDataless insValid outsReady = scan (fun _ => false) insValid (readyAt outsReady) :=
  foldl_mergeStep insValid outsReady _ _ fun _ => rfl

/-- The registers of a `control_merge_dataless`: those of its `tehb` and of its fork. -/
structure ControlMerge (indexType : Nat) where
  tehb : Tehb (BitVec indexType)
  transmitValue : Fin 2 → Bool

namespace ControlMerge

/-- The ports the environment drives. -/
structure Input (size : Nat) where
  insValid : Fin size → Bool
  outsReady : Bool
  indexReady : Bool

/-- The ports the unit drives. -/
structure Output (size indexType : Nat) where
  insReady : Fin size → Bool
  outsValid : Bool
  index : BitVec indexType
  indexValid : Bool

/-- The number of an input, as wide as the index. -/
def number (indexType : Nat) (index : Fin size) : BitVec indexType := BitVec.ofNat indexType index

def indexTehb (insValid : Fin size → Bool) : BitVec indexType :=
  (scan 0 insValid (number indexType)).2

section Signals

variable (unit : ControlMerge indexType) (input : Input size)

def dataAvailable : Bool := (mergeDataless input.insValid unit.tehb.insReady).1

def tehbOutValid : Bool := unit.tehb.outsValid (dataAvailable unit input)

/-- The readies of the two outputs of the fork, that of `outs` first. -/
def sinks : Fin 2 → Bool := ![input.outsReady, input.indexReady]

def readyToFork : Bool := eagerForkReady unit.transmitValue (sinks input)

def forkValid (output : Fin 2) : Bool := unit.transmitValue output && tehbOutValid unit input

end Signals

def machine (size indexType : Nat) :
    Machine (ControlMerge indexType) (Input size) (Output size indexType) where
  next := fun unit input =>
    { tehb := unit.tehb.next (indexTehb input.insValid) (dataAvailable unit input)
        (readyToFork unit input)
      transmitValue :=
        transmitNext (tehbOutValid unit input) unit.transmitValue (sinks input) }
  output := fun unit input =>
    { insReady := (mergeDataless input.insValid unit.tehb.insReady).2
      outsValid := forkValid unit input 0
      index := unit.tehb.outs (indexTehb input.insValid)
      indexValid := forkValid unit input 1 }

def reset : ControlMerge indexType where
  tehb := .reset 0
  transmitValue := fun _ => true

section Tokens

variable (unit : ControlMerge indexType) (input : Input size)

/-- The inputs whose tokens are accepted in a cycle. -/
def accepts : List (Fin size) :=
  (List.finRange size).filter fun index =>
    input.insValid index && ((machine size indexType).output unit input).insReady index

/-- The token that leaves through `outs` in a cycle. -/
def sendsOuts : List Unit :=
  if ((machine size indexType).output unit input).outsValid && input.outsReady then [()] else []

/-- The token that leaves through `index` in a cycle. -/
def sendsIndex : List (BitVec indexType) :=
  if ((machine size indexType).output unit input).indexValid && input.indexReady then
    [((machine size indexType).output unit input).index]
  else []

end Tokens

/-- The numbers of the inputs accepted before each cycle. -/
def accepted (indexType : Nat) (inputs : Nat → Input size) : Nat → List (Fin size) :=
  (machine size indexType).collect accepts reset inputs

variable {unit : ControlMerge indexType} {input : Input size}

/-- The input that the merge chooses, if any, is the only one accepted. -/
theorem accepts_eq : ∃ chosen : List (Fin size),
    accepts unit input = (if unit.tehb.insReady then chosen else []) ∧
      (chosen = [] ∧ dataAvailable unit input = false ∨
        ∃ index, chosen = [index] ∧ dataAvailable unit input = true ∧
          indexTehb input.insValid = number indexType index) := by
  rcases first_hit_or_none input.insValid with noneValid | ⟨index, hit, first⟩
  · refine ⟨[], ?_, .inl ⟨rfl, ?_⟩⟩
    · simp [accepts, noneValid]
    · rw [dataAvailable, mergeDataless_eq, scan_of_none noneValid]
  · refine ⟨[index], ?_, .inr ⟨index, rfl, ?_, ?_⟩⟩
    · have readies : ((machine size indexType).output unit input).insReady =
          readyAt unit.tehb.insReady index := by
        simp only [machine]
        rw [mergeDataless_eq, scan_of_first hit first]
      have one : (List.finRange size).filter (· == index) = [index] := by
        rw [List.filter_beq, List.count_eq_one_of_mem (List.nodup_finRange size)
          (List.mem_finRange index)]
        rfl
      rw [accepts, readies]
      cases ready : unit.tehb.insReady with
      | false => simp [readyAt]
      | true =>
          rw [if_pos rfl, ← one]
          refine List.filter_congr fun other _ => ?_
          by_cases same : other = index
          · simp [readyAt, same, hit]
          · simp [readyAt, same]
    · rw [dataAvailable, mergeDataless_eq, scan_of_first hit first]
    · rw [indexTehb, scan_of_first hit first]

theorem length_accepts_le : (accepts unit input).length ≤ 1 := by
  obtain ⟨chosen, accepted, ⟨rfl, -⟩ | ⟨index, rfl, -, -⟩⟩ := @accepts_eq _ _ unit input
  all_goals
    rw [accepted]
    split <;> simp

/-- The number that the `tehb` takes is that of the accepted input. -/
theorem map_accepts : (accepts unit input).map (number indexType) =
    if dataAvailable unit input && unit.tehb.insReady then [indexTehb input.insValid] else [] := by
  obtain ⟨chosen, accepted, ⟨rfl, none⟩ | ⟨index, rfl, available, same⟩⟩ := @accepts_eq _ _ unit input
  · simp [accepted, none]
  · rw [accepted, available, same, Bool.true_and]
    split <;> rfl

section Outputs

variable {α : Type} (token : BitVec indexType → α) (output : Fin 2)

/-- What leaves through an output in a cycle, as `token` reads it. -/
def sends (unit : ControlMerge indexType) (input : Input size) : List α :=
  if forkValid unit input output && sinks input output then
    [token (unit.tehb.outs (indexTehb input.insValid))]
  else []

/-- The waiting number, where the output has not transmitted it yet. -/
def waiting (unit : ControlMerge indexType) : List α :=
  if unit.transmitValue output then unit.tehb.contents.map token else []

/-- Every output waits for the next token while none is stored. -/
def Fresh (unit : ControlMerge indexType) : Prop :=
  unit.tehb.fullReg = false → ∀ output, unit.transmitValue output = true

/-- What an output still has to send. -/
def Holds (unit : ControlMerge indexType) (held : List α) : Prop :=
  Fresh unit ∧ held = waiting token output unit

variable {token output}

private theorem map_offer (offered transmits : Bool) (value : BitVec indexType) :
    (if transmits then (if offered then [value] else []).map token else []) =
      if offered && transmits then [token value] else [] := by
  cases offered <;> cases transmits <;> rfl

theorem fresh_next : Fresh ((machine size indexType).next unit input) := by
  intro notFull
  exact transmitNext_of_done notFull

/-- What waits and what is accepted is what the fork has to transmit. -/
theorem waiting_append (fresh : Fresh unit) :
    waiting token output unit ++ (accepts unit input).map (fun index => token (number _ index)) =
      if tehbOutValid unit input && unit.transmitValue output then
        [token (unit.tehb.outs (indexTehb input.insValid))]
      else [] := by
  have offered := congrArg (List.map token)
    (unit.tehb.contents_offered (indexTehb input.insValid) (dataAvailable unit input))
  rw [← map_accepts, List.map_append, List.map_map] at offered
  cases full : unit.tehb.fullReg with
  | false =>
      have empty : unit.tehb.contents = [] := by simp [Tehb.contents, full]
      rw [empty, List.map_nil, List.nil_append] at offered
      rw [waiting, fresh full output, empty, Bool.and_true]
      refine offered.trans ?_
      rw [tehbOutValid]
      split <;> rfl
  | true =>
      have none : (accepts unit input).map (number indexType) = [] := by
        rw [map_accepts, Tehb.insReady, full]
        simp
      rw [List.map_eq_nil_iff] at none
      rw [none, List.map_nil, List.append_nil] at offered
      rw [none, List.map_nil, List.append_nil, waiting, offered]
      exact map_offer _ _ _

/-- What waits and what is accepted goes out or waits. -/
theorem sends_append (fresh : Fresh unit) :
    waiting token output unit ++ (accepts unit input).map (fun index => token (number _ index)) =
      sends token output unit input ++
        waiting token output ((machine size indexType).next unit input) := by
  have after : waiting token output ((machine size indexType).next unit input) =
      if (tehbOutValid unit input && !readyToFork unit input) &&
        transmitNext (tehbOutValid unit input) unit.transmitValue (sinks input) output then
          [token (unit.tehb.outs (indexTehb input.insValid))] else [] := by
    rw [waiting, machine, Tehb.contents_next]
    exact map_offer _ _ _
  rw [waiting_append fresh, after]
  exact transmit_append _ _

/-- What waits is offered until the sink takes it. -/
theorem waiting_sent (fresh : Fresh unit) (ready : sinks input output = true) :
    waiting token output unit <+: sends token output unit input := by
  have offered : sends token output unit input =
      waiting token output unit ++ (accepts unit input).map (fun index => token (number _ index)) := by
    rw [waiting_append fresh, sends, forkValid, ready, Bool.and_true, Bool.and_comm]
  exact ⟨_, offered.symm⟩

theorem Holds.length_le {held : List α} (holds : Holds token output unit held) :
    held.length ≤ 1 := by
  rw [holds.2, waiting]
  split
  · rw [List.length_map]
    exact unit.tehb.length_contents_le
  · exact Nat.zero_le 1

variable (token output)

/-- Each output gets one token for every accepted input. -/
theorem delivers (inputs : Nat → Input size) (cycle : Nat) :
    Delivers (fun cycle => (accepted indexType inputs cycle).map fun index => token (number _ index))
      ((machine size indexType).collect (sends token output) reset inputs)
      (fun cycle => sinks (inputs cycle) output) cycle := by
  have initial : Holds token output (reset : ControlMerge indexType) [] := ⟨fun _ _ => rfl, rfl⟩
  have step : ∀ unit (input : Input size) held, Holds token output unit held →
      ∃ rest, Holds token output ((machine size indexType).next unit input) rest ∧
        held ++ (accepts unit input).map (fun index => token (number _ index)) =
          sends token output unit input ++ rest := by
    rintro unit input held ⟨fresh, rfl⟩
    exact ⟨_, ⟨fresh_next, rfl⟩, sends_append fresh⟩
  have offered : ∀ unit (input : Input size) held, Holds token output unit held →
      sinks input output = true → held <+: sends token output unit input := by
    rintro unit input held ⟨fresh, rfl⟩ ready
    exact waiting_sent fresh ready
  have collected : (fun cycle =>
      (accepted indexType inputs cycle).map fun index => token (number _ index)) =
      (machine size indexType).collect
        (fun unit input => (accepts unit input).map fun index => token (number _ index)) reset
        inputs := by
    funext cycle
    exact Machine.map_collect _ _ cycle
  rw [collected]
  exact Machine.delivers initial step (fun _ _ holds => holds.length_le) offered cycle

end Outputs

/-- Every accepted token leaves once through `outs`, and its number once through `index`, both in
the order of acceptance. -/
theorem controlMerge_delivers (size indexType : Nat) (inputs : Nat → Input size) (cycle : Nat) :
    (accepts ((machine size indexType).stateAt reset inputs cycle) (inputs cycle)).length ≤ 1 ∧
      Delivers (fun cycle => (accepted indexType inputs cycle).map fun _ => ())
        ((machine size indexType).collect sendsOuts reset inputs)
        (fun cycle => (inputs cycle).outsReady) cycle ∧
      Delivers (fun cycle => (accepted indexType inputs cycle).map (number indexType))
        ((machine size indexType).collect sendsIndex reset inputs)
        (fun cycle => (inputs cycle).indexReady) cycle ∧
      (size ≤ 2 ^ indexType →
        Delivers (fun cycle => (accepted indexType inputs cycle).map Fin.val)
          (fun cycle => ((machine size indexType).collect sendsIndex reset inputs cycle).map
            BitVec.toNat)
          (fun cycle => (inputs cycle).indexReady) cycle) := by
  have numbers := delivers (id : BitVec indexType → _) 1 inputs cycle
  refine ⟨length_accepts_le, delivers (fun _ => ()) 0 inputs cycle, numbers, fun fits => ?_⟩
  have same : (fun cycle => ((accepted indexType inputs cycle).map fun index =>
      id (number indexType index)).map BitVec.toNat) =
      fun cycle => (accepted indexType inputs cycle).map Fin.val := by
    funext cycle
    rw [List.map_map]
    refine List.map_congr_left fun index _ => ?_
    exact Nat.mod_eq_of_lt (Nat.lt_of_lt_of_le index.2 fits)
  have natural := numbers.map BitVec.toNat
  rwa [same] at natural

end ControlMerge

end Dynamatic.Handshake
