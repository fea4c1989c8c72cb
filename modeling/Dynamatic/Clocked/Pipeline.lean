import Dynamatic.Clocked.Iterative
import Mathlib.Data.Nat.Count

/-!
# Pipelines whose stages stall together

A row of places that all move on in the same cycles: whenever the last place is free or is being
emptied. What enters a place leaves it in the next cycle that moves, so the row is a queue, and
what has entered is in the last place after as many moves as there are places before it.
-/

namespace Dynamatic.Clocked

/-- Related states stay related over a run when each cycle keeps them so. -/
theorem Machine.simulates {State Other Input OtherInput Output OtherOutput : Type}
    {machine : Machine State Input Output} {other : Machine Other OtherInput OtherOutput}
    {translate : Input → OtherInput} {Related : State → Other → Prop} {start : State}
    {otherStart : Other} (starts : Related start otherStart)
    (steps : ∀ state otherState input, Related state otherState →
      Related (machine.next state input) (other.next otherState (translate input)))
    (inputs : Nat → Input) (cycle : Nat) :
    Related (machine.stateAt start inputs cycle)
      (other.stateAt otherStart (fun cycle => translate (inputs cycle)) cycle) := by
  induction cycle with
  | zero => exact starts
  | succ cycle ih => exact steps _ _ _ ih

namespace Pipeline

variable {Operands : Type}

/-- What each place holds, place zero behind the input. -/
abbrev Places (Operands : Type) := Nat → Option Operands

/-- No place holds anything. -/
def empty : Places Operands := fun _ => none

/-- What the input brings. -/
def entering (input : Iterative.Input Operands) : Option Operands :=
  if input.operandsValid then some input.operands else none

/-- Everything moves on by a place. -/
def shifted (first : Option Operands) (places : Places Operands) : Places Operands
  | 0 => first
  | place + 1 => places place

variable (depth : Nat)

section Signals

variable (places : Places Operands) (input : Iterative.Input Operands)

/-- The places move when the last, at `depth`, is free or is being emptied. -/
def moves : Bool := (places depth).isNone || input.resultReady

/-- The operands that enter in a cycle. -/
def takes : List Operands := if moves depth places input then (entering input).toList else []

/-- The operands that leave in a cycle. -/
def sends : List Operands := if input.resultReady then (places depth).toList else []

end Signals

def machine : Machine (Places Operands) (Iterative.Input Operands) (Option Operands) where
  next := fun places input =>
    if moves depth places input then shifted (entering input) places else places
  output := fun places _ => places depth

/-- What is in the places up to the last, oldest first. -/
def held (places : Places Operands) : List Operands :=
  (List.range (depth + 1)).reverse.filterMap places

variable {depth} {places : Places Operands} {input : Iterative.Input Operands}

theorem next_of_moves (moving : moves depth places input = true) :
    (machine depth).next places input = shifted (entering input) places := if_pos moving

theorem next_of_stalls (stalling : moves depth places input = false) :
    (machine depth).next places input = places := if_neg (Bool.eq_false_iff.mp stalling)

theorem held_empty : held depth (@empty Operands) = [] := by
  simp [held, empty, List.filterMap_eq_nil_iff]

theorem length_held_le : (held depth places).length ≤ depth + 1 :=
  (List.length_filterMap_le _ _).trans (by simp)

/-- A move lets the last place go and takes in the first. -/
theorem held_shifted (first : Option Operands) :
    held depth places ++ first.toList =
      (places depth).toList ++ held depth (shifted first places) := by
  have last : (List.range (depth + 1)).reverse = depth :: (List.range depth).reverse := by
    rw [List.range_succ, List.reverse_append, List.reverse_singleton, List.singleton_append]
  have behind : (List.range (depth + 1)).reverse = (List.range depth).reverse.map Nat.succ ++ [0] := by
    rw [List.range_succ_eq_map, List.reverse_cons, List.map_reverse]
  have moved : ∀ list : List Nat, (list.map Nat.succ).filterMap (shifted first places) =
      list.filterMap places := fun list => List.filterMap_map
  have front : [0].filterMap (shifted first places) = first.toList := by
    cases first <;> rfl
  have rest : held depth (shifted first places) =
      (List.range depth).reverse.filterMap places ++ first.toList := by
    rw [held, behind, List.filterMap_append, moved, front]
  rw [rest, ← List.append_assoc, held, last]
  cases here : places depth <;> simp [here]

theorem held_next : held depth places ++ takes depth places input =
    sends depth places input ++ held depth ((machine depth).next places input) := by
  cases moving : moves depth places input with
  | true =>
    have leaves : sends depth places input = (places depth).toList := by
      simp only [moves, Bool.or_eq_true] at moving
      rw [sends]
      rcases moving with free | ready
      · rw [Option.isNone_iff_eq_none.mp free]
        simp
      · rw [if_pos ready]
    rw [takes, moving, if_pos rfl, leaves, next_of_moves moving]
    exact held_shifted (entering input)
  | false =>
    have waits : input.resultReady = false := by
      simp only [moves, Bool.or_eq_false_iff] at moving
      exact moving.2
    rw [takes, moving, sends, waits, next_of_stalls moving]
    simp

variable {inputs : Nat → Iterative.Input Operands}

/-- What has entered is what has left, then what the places hold. -/
theorem takes_eq_sends (cycle : Nat) :
    (machine depth).collect (takes depth) empty inputs cycle =
      (machine depth).collect (sends depth) empty inputs cycle ++
        held depth ((machine depth).stateAt empty inputs cycle) := by
  obtain ⟨rest, rfl, queued⟩ := @Machine.queue _ _ _ _ (machine depth) empty inputs (takes depth)
    (sends depth) (fun places list => list = held depth places) held_empty.symm
    (fun places input list holds => ⟨_, rfl, holds ▸ held_next⟩) cycle
  exact queued

/-- What is in a place is a place further on after each move. -/
theorem place_of_moves {start : Places Operands} {cycle place : Nat} {operands : Operands}
    (here : (machine depth).stateAt start inputs cycle place = some operands) (later : Nat) :
    (machine depth).stateAt start inputs (cycle + later)
      (place + Nat.count (fun offset =>
        moves depth ((machine depth).stateAt start inputs (cycle + offset))
          (inputs (cycle + offset)) = true) later) = some operands := by
  induction later with
  | zero => exact here
  | succ later ih =>
    rw [Nat.count_succ, ← Nat.add_assoc cycle, Machine.stateAt_succ]
    cases moving : moves depth ((machine depth).stateAt start inputs (cycle + later))
      (inputs (cycle + later)) with
    | true =>
      rw [next_of_moves moving, if_pos rfl]
      exact ih
    | false =>
      rw [next_of_stalls moving, if_neg Bool.false_ne_true]
      exact ih

/-- What enters is in the first place in the next cycle. -/
theorem first_of_takes {start : Places Operands} {cycle : Nat} {operands : Operands}
    (entered : takes depth ((machine depth).stateAt start inputs cycle) (inputs cycle) =
      [operands]) :
    (machine depth).stateAt start inputs (cycle + 1) 0 = some operands := by
  rw [takes] at entered
  split at entered
  next moving =>
    rw [Machine.stateAt_succ, next_of_moves moving]
    exact Option.toList_eq_singleton_iff.mp entered
  next => cases entered

end Pipeline

end Dynamatic.Clocked
