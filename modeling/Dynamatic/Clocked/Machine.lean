import Mathlib.Data.List.Basic

/-!
# Clocked machines and the tokens they transfer

A synchronous circuit is a next-state function over its registers, read once in
every cycle. `Machine.stateAt` is the register contents at the start of each
cycle of a run, and `Machine.invariant` is the induction every safety proof
over runs goes through. `transfers` lists what a channel has carried, so that
"the r-th token" of a channel is an ordinary list lookup; `eventual` is the lookup
in a growing list without a cycle.
-/

namespace Dynamatic.Clocked

/-- A synchronous circuit: what its registers hold after a cycle, and what its
ports show during one. -/
structure Machine (State Input Output : Type) where
  next : State → Input → State
  output : State → Input → Output

namespace Machine

variable {State Input Output : Type} (machine : Machine State Input Output)

/-- The registers at the start of each cycle of the run on `inputs`. -/
def stateAt (start : State) (inputs : Nat → Input) : Nat → State
  | 0 => start
  | cycle + 1 => machine.next (stateAt start inputs cycle) (inputs cycle)

/-- The ports during each cycle of the run on `inputs`. -/
def outputAt (start : State) (inputs : Nat → Input) (cycle : Nat) : Output :=
  machine.output (machine.stateAt start inputs cycle) (inputs cycle)

@[simp] theorem stateAt_zero (start : State) (inputs : Nat → Input) :
    machine.stateAt start inputs 0 = start := rfl

theorem stateAt_succ (start : State) (inputs : Nat → Input) (cycle : Nat) :
    machine.stateAt start inputs (cycle + 1) =
      machine.next (machine.stateAt start inputs cycle) (inputs cycle) := rfl

/-- A property of the cycle and the registers that holds at the start and that
every cycle preserves holds throughout the run. -/
theorem invariant {start : State} {inputs : Nat → Input} (Holds : Nat → State → Prop)
    (initial : Holds 0 start)
    (preserved : ∀ cycle, Holds cycle (machine.stateAt start inputs cycle) →
      Holds (cycle + 1) (machine.next (machine.stateAt start inputs cycle) (inputs cycle)))
    (cycle : Nat) : Holds cycle (machine.stateAt start inputs cycle) := by
  induction cycle with
  | zero => exact initial
  | succ cycle inductionHypothesis => exact preserved cycle inductionHypothesis

end Machine

/-- The payloads a channel carries in the cycles before `cycle`, oldest first. -/
def transfers {α : Type} (fires : Nat → Bool) (payload : Nat → α) : Nat → List α
  | 0 => []
  | cycle + 1 =>
      transfers fires payload cycle ++ (if fires cycle then [payload cycle] else [])

section Transfers

variable {α : Type} {fires : Nat → Bool} {payload : Nat → α}

@[simp] theorem transfers_zero : transfers fires payload 0 = [] := rfl

theorem transfers_succ (cycle : Nat) :
    transfers fires payload (cycle + 1) =
      transfers fires payload cycle ++ (if fires cycle then [payload cycle] else []) := rfl

theorem transfers_succ_of_fires {cycle : Nat} (fired : fires cycle = true) :
    transfers fires payload (cycle + 1) = transfers fires payload cycle ++ [payload cycle] := by
  simp [transfers_succ, fired]

theorem transfers_succ_of_idle {cycle : Nat} (idle : fires cycle = false) :
    transfers fires payload (cycle + 1) = transfers fires payload cycle := by
  simp [transfers_succ, idle]

@[simp] theorem length_transfers_succ (cycle : Nat) :
    (transfers fires payload (cycle + 1)).length =
      (transfers fires payload cycle).length + (fires cycle).toNat := by
  cases fired : fires cycle <;> simp [transfers_succ, fired]

/-- How many tokens a channel has carried does not depend on their payloads. -/
theorem length_transfers_eq {β : Type} (other : Nat → β) (cycle : Nat) :
    (transfers fires other cycle).length = (transfers fires payload cycle).length := by
  induction cycle with
  | zero => rfl
  | succ cycle inductionHypothesis =>
      rw [length_transfers_succ, length_transfers_succ, inductionHypothesis]

/-- A channel's past is never rewritten. -/
theorem transfers_grows {early late : Nat} (ordered : early ≤ late) :
    transfers fires payload early <+: transfers fires payload late := by
  induction ordered with
  | refl => exact List.prefix_rfl
  | step _ inductionHypothesis => exact inductionHypothesis.trans (List.prefix_append _ _)

theorem length_transfers_mono {early late : Nat} (ordered : early ≤ late) :
    (transfers fires payload early).length ≤ (transfers fires payload late).length :=
  (transfers_grows ordered).length_le

/-- A token that has been transferred keeps its index and its payload. -/
theorem getElem?_transfers_of_le {early late index : Nat} {value : α} (ordered : early ≤ late)
    (found : (transfers fires payload early)[index]? = some value) :
    (transfers fires payload late)[index]? = some value := by
  obtain ⟨suffix, equal⟩ := transfers_grows ordered
  rw [← equal, List.getElem?_append_left (List.getElem?_eq_some_iff.mp found).1]
  exact found

/-- The tokens a channel holds after a cycle are those it held before, and the
one of this cycle at the next index. -/
theorem getElem?_transfers_succ (cycle index : Nat) :
    (transfers fires payload (cycle + 1))[index]? =
      if index = (transfers fires payload cycle).length ∧ fires cycle = true then
        some (payload cycle)
      else (transfers fires payload cycle)[index]? := by
  cases fired : fires cycle with
  | false => simp [transfers_succ_of_idle fired]
  | true =>
      rw [transfers_succ_of_fires fired, List.getElem?_append]
      split
      · rename_i before
        simp [Nat.ne_of_lt before]
      · rename_i notBefore
        by_cases here : index = (transfers fires payload cycle).length
        · simp [here]
        · have beyond : 0 < index - (transfers fires payload cycle).length := by omega
          simp only [here, false_and, if_false]
          rw [List.getElem?_eq_none (by simp; omega), List.getElem?_eq_none (by omega)]

end Transfers

section Eventual

variable {α : Type} [Inhabited α] {lists : Nat → List α}

open Classical in
/-- What a list that only grows from cycle to cycle holds at an index, once it is that
long. -/
noncomputable def eventual (lists : Nat → List α) (index : Nat) : α :=
  if reached : ∃ cycle, index < (lists cycle).length then (lists reached.choose).getD index default
  else default

theorem getElem?_eq_eventual (grows : ∀ cycle, lists cycle <+: lists (cycle + 1)) {cycle index : Nat}
    (reached : index < (lists cycle).length) :
    (lists cycle)[index]? = some (eventual lists index) := by
  have grown : ∀ early late, early ≤ late → lists early <+: lists late := by
    intro early late ordered
    induction ordered with
    | refl => exact List.prefix_rfl
    | step _ inductionHypothesis => exact inductionHypothesis.trans (grows _)
  have chosen : ∃ cycle, index < (lists cycle).length := ⟨cycle, reached⟩
  have bound := chosen.choose_spec
  rw [eventual, dif_pos chosen, List.getD_eq_getElem?_getD]
  rcases Nat.le_total cycle chosen.choose with before | after
  · obtain ⟨rest, equal⟩ := grown _ _ before
    rw [← equal, List.getElem?_append_left reached, List.getElem?_eq_getElem reached]
    rfl
  · obtain ⟨rest, equal⟩ := grown _ _ after
    rw [← equal, List.getElem?_append_left bound, List.getElem?_eq_getElem bound]
    rfl

end Eventual

/-! ### Machines that queue

What a machine emits in each cycle of a run, collected. If what comes in always makes up what
goes out and what is held, it does so for the whole run: what goes out is what came in, in
order, up to what is held. -/

namespace Machine

variable {State Input Output α : Type} (machine : Machine State Input Output)

/-- What a machine emits in the cycles before `cycle`, oldest first. -/
def collect (emits : State → Input → List α) (start : State) (inputs : Nat → Input) :
    Nat → List α
  | 0 => []
  | cycle + 1 =>
      collect emits start inputs cycle ++
        emits (machine.stateAt start inputs cycle) (inputs cycle)

variable {emits : State → Input → List α} {start : State} {inputs : Nat → Input}

@[simp] theorem collect_zero : machine.collect emits start inputs 0 = [] := rfl

theorem collect_succ (cycle : Nat) : machine.collect emits start inputs (cycle + 1) =
    machine.collect emits start inputs cycle ++
      emits (machine.stateAt start inputs cycle) (inputs cycle) := rfl

theorem map_collect {β : Type} (f : α → β) (cycle : Nat) :
    (machine.collect emits start inputs cycle).map f =
      machine.collect (fun state input => (emits state input).map f) start inputs cycle := by
  induction cycle with
  | zero => rfl
  | succ cycle inductionHypothesis =>
      rw [collect_succ, List.map_append, inductionHypothesis, collect_succ]

variable {machine}

/-- What is held at the start and what came in is what went out, followed by what is held. -/
theorem queue_from {takes sends : State → Input → List α} {Holds : State → List α → Prop}
    {first : List α} (initial : Holds start first)
    (step : ∀ state input held, Holds state held → ∃ rest, Holds (machine.next state input) rest ∧
      held ++ takes state input = sends state input ++ rest) (cycle : Nat) :
    ∃ held, Holds (machine.stateAt start inputs cycle) held ∧
      first ++ machine.collect takes start inputs cycle =
        machine.collect sends start inputs cycle ++ held := by
  induction cycle with
  | zero => exact ⟨first, initial, List.append_nil first⟩
  | succ cycle inductionHypothesis =>
      obtain ⟨held, holds, collected⟩ := inductionHypothesis
      obtain ⟨rest, after, moved⟩ := step _ (inputs cycle) held holds
      refine ⟨rest, after, ?_⟩
      rw [collect_succ, collect_succ, ← List.append_assoc, collected, List.append_assoc, moved,
        List.append_assoc]

/-- What came in is what went out, followed by what is held. -/
theorem queue {takes sends : State → Input → List α} {Holds : State → List α → Prop}
    (initial : Holds start [])
    (step : ∀ state input held, Holds state held → ∃ rest, Holds (machine.next state input) rest ∧
      held ++ takes state input = sends state input ++ rest) (cycle : Nat) :
    ∃ held, Holds (machine.stateAt start inputs cycle) held ∧
      machine.collect takes start inputs cycle = machine.collect sends start inputs cycle ++ held :=
  queue_from initial step cycle

end Machine

/-- A stream that is passed on in order, with at most one token behind, and that one goes to the
sink as soon as it is ready. -/
structure Delivers {α : Type} (taken sent : Nat → List α) (ready : Nat → Bool) (cycle : Nat) :
    Prop where
  inOrder : sent cycle <+: taken cycle
  atMostOne : (taken cycle).length ≤ (sent cycle).length + 1
  delivered : ready cycle = true → taken cycle <+: sent (cycle + 1)

theorem Delivers.map {α β : Type} {taken sent : Nat → List α} {ready : Nat → Bool} {cycle : Nat}
    (delivers : Delivers taken sent ready cycle) (f : α → β) :
    Delivers (fun cycle => (taken cycle).map f) (fun cycle => (sent cycle).map f) ready cycle where
  inOrder := delivers.inOrder.map f
  atMostOne := by simpa using delivers.atMostOne
  delivered := fun isReady => (delivers.delivered isReady).map f

/-- A machine that holds at most one token, and offers it, delivers. -/
theorem Machine.delivers {State Input Output α : Type} {machine : Machine State Input Output}
    {takes sends : State → Input → List α} {start : State} {inputs : Nat → Input}
    {ready : Input → Bool} {Holds : State → List α → Prop} (initial : Holds start [])
    (step : ∀ state input held, Holds state held → ∃ rest, Holds (machine.next state input) rest ∧
      held ++ takes state input = sends state input ++ rest)
    (bounded : ∀ state held, Holds state held → held.length ≤ 1)
    (offered : ∀ state input held, Holds state held → ready input = true →
      held <+: sends state input) (cycle : Nat) :
    Delivers (machine.collect takes start inputs) (machine.collect sends start inputs)
      (fun cycle => ready (inputs cycle)) cycle := by
  obtain ⟨held, holds, collected⟩ := queue initial step cycle
  refine ⟨⟨held, collected.symm⟩, ?_, fun isReady => ?_⟩
  · have one := bounded _ _ holds
    rw [collected, List.length_append]
    omega
  · rw [collected, collect_succ]
    exact (List.prefix_append_right_inj _).mpr (offered _ _ _ holds isReady)

end Dynamatic.Clocked
