import Dynamatic.DeciderPaths.Search
import Mathlib.Data.Fintype.Card

/-!
# The walks that the search takes

A walk from a channel to a branch passes outputs of forks and buffers. The search visits the walks
one after the other, the ones through later outputs of a fork first, if there are only forks,
buffers whose slots have names and branches on the way.
-/

namespace Dynamatic.DeciderPaths

/-- What a walk meets: a sent bit or a slot. -/
inductive Event where
  | sent (namer : EagerForkSentNamer)
  | slot (namer : BufferSlotFullNamer)
  deriving DecidableEq, Repr

/-- The sent bits before the first slot. -/
def beforeFirstSlot : List Event → List EagerForkSentNamer
  | .sent namer :: events => namer :: beforeFirstSlot events
  | _ => []

/-- The slots, each with the sent bits up to the next one. -/
def effectiveSlots : List Event → List EffectiveSlotNamer
  | [] => []
  | .sent _ :: events => effectiveSlots events
  | .slot namer :: events => ⟨namer, beforeFirstSlot events⟩ :: effectiveSlots events

section Events

variable {events more : List Event}

theorem beforeFirstSlot_append_of_eq_nil (noSlot : effectiveSlots events = []) :
    beforeFirstSlot (events ++ more) = beforeFirstSlot events ++ beforeFirstSlot more := by
  induction events with
  | nil => rfl
  | cons event events inductionHypothesis =>
      cases event with
      | sent namer => exact congrArg (namer :: ·) (inductionHypothesis noSlot)
      | slot namer => exact absurd noSlot (List.cons_ne_nil _ _)

theorem beforeFirstSlot_append_of_ne_nil (someSlot : effectiveSlots events ≠ []) :
    beforeFirstSlot (events ++ more) = beforeFirstSlot events := by
  induction events with
  | nil => exact absurd rfl someSlot
  | cons event events inductionHypothesis =>
      cases event with
      | sent namer => exact congrArg (namer :: ·) (inductionHypothesis someSlot)
      | slot namer => rfl

/-- A sent bit is copied to the last slot. -/
theorem effectiveSlots_append_sent (sent : EagerForkSentNamer) :
    effectiveSlots (events ++ [.sent sent]) = copySent sent (effectiveSlots events) := by
  induction events with
  | nil => rfl
  | cons event events inductionHypothesis =>
      cases event with
      | sent namer => exact inductionHypothesis
      | slot namer =>
          rw [List.cons_append, effectiveSlots, effectiveSlots, inductionHypothesis]
          cases slots : effectiveSlots events with
          | nil =>
              rw [beforeFirstSlot_append_of_eq_nil slots]
              rfl
          | cons slot rest =>
              rw [beforeFirstSlot_append_of_ne_nil (by simp [slots])]
              rfl

theorem effectiveSlots_append (isSlot : beforeFirstSlot more = []) :
    effectiveSlots (events ++ more) = effectiveSlots events ++ effectiveSlots more := by
  induction events with
  | nil => rfl
  | cons event events inductionHypothesis =>
      cases event with
      | sent namer => exact inductionHypothesis
      | slot namer =>
          have same : beforeFirstSlot (events ++ more) = beforeFirstSlot events := by
            by_cases noSlot : effectiveSlots events = []
            · rw [beforeFirstSlot_append_of_eq_nil noSlot, isSlot, List.append_nil]
            · exact beforeFirstSlot_append_of_ne_nil noSlot
          rw [List.cons_append, effectiveSlots, effectiveSlots, inductionHypothesis, same]
          rfl

theorem beforeFirstSlot_map_slot (slots : List BufferSlotFullNamer) :
    beforeFirstSlot (slots.map .slot) = [] := by
  cases slots <;> rfl

theorem effectiveSlots_map_slot (slots : List BufferSlotFullNamer) :
    effectiveSlots (slots.map .slot) = slots.map (⟨·, []⟩) := by
  induction slots with
  | nil => rfl
  | cons slot slots inductionHypothesis =>
      rw [List.map_cons, List.map_cons, effectiveSlots, inductionHypothesis,
        beforeFirstSlot_map_slot]

end Events

/-- An output of a fork or a buffer that a walk passes. -/
inductive Step (Op : Type) where
  | output (fork : Op) (index : Nat)
  | buffer (op : Op)

def Step.op {Op : Type} : Step Op → Op
  | output fork _ => fork
  | buffer op => op

namespace Circuit

variable {Op Value : Type} (circuit : Circuit Op Value)

def stepEvents : Step Op → List Event
  | .output fork index => (circuit.getInternalSentStateNamers fork)[index]?.toList.map .sent
  | .buffer op => ((circuit.getInternalSlotStateNamers op).getD []).map .slot

def events (steps : List (Step Op)) : List Event := steps.flatMap circuit.stepEvents

/-- A walk from a channel to a branch that uses the last channel of the walk. -/
inductive Walk : Value → List (Step Op) → Op → Prop where
  | branch {value : Value} (isBranch : circuit.kind (circuit.user value) = .conditionalBranch) :
      Walk value [] (circuit.user value)
  | output {value operand channel : Value} {results : List Value} {index : Nat}
      {steps : List (Step Op)} {branch : Op}
      (isFork : circuit.kind (circuit.user value) = .fork operand results)
      (taken : results[index]? = some channel) (rest : Walk channel steps branch) :
      Walk value (.output (circuit.user value) index :: steps) branch
  | buffer {value operand result : Value} {numSlots : Nat} {bufferType : BufferType}
      {steps : List (Step Op)} {branch : Op}
      (isBuffer : circuit.kind (circuit.user value) = .buffer operand numSlots bufferType result)
      (rest : Walk result steps branch) :
      Walk value (.buffer (circuit.user value) :: steps) branch

/-- The sent bits that the search puts on a path before its first slot. -/
def leaked : List (Step Op) → List EagerForkSentNamer
  | [] => []
  | .output fork index :: steps =>
      (circuit.getInternalSentStateNamers fork).take index ++ leaked steps
  | .buffer op :: steps =>
      if (circuit.getInternalSlotStateNamers op).getD [] = [] then leaked steps else []

/-- The partial path of the search behind a walk. -/
def reached (steps : List (Step Op)) (cur : Value) : PartialPath Value :=
  ⟨effectiveSlots (circuit.events steps), circuit.leaked steps, cur⟩

/-- The path that the search returns for a walk. -/
def found (steps : List (Step Op)) (branch : Op) : UnstartedPath Op :=
  ⟨effectiveSlots (circuit.events steps), circuit.leaked steps, branch⟩

variable {circuit} {steps more : List (Step Op)} {value channel : Value} {op : Op} {index : Nat}

theorem effectiveSlots_buffer_eq_nil :
    effectiveSlots (circuit.stepEvents (.buffer op)) = [] ↔
      (circuit.getInternalSlotStateNamers op).getD [] = [] := by
  rw [stepEvents, effectiveSlots_map_slot, List.map_eq_nil_iff]

theorem events_cons (step : Step Op) :
    circuit.events (step :: steps) = circuit.stepEvents step ++ circuit.events steps := rfl

theorem events_concat (step : Step Op) :
    circuit.events (steps ++ [step]) = circuit.events steps ++ circuit.stepEvents step := by
  rw [events, List.flatMap_append, List.flatMap_singleton, events]

/-- There are slots on the whole walk where there are on its parts. -/
theorem effectiveSlots_events_cons_eq_nil (step : Step Op) :
    effectiveSlots (circuit.events (step :: steps)) = [] ↔
      effectiveSlots (circuit.stepEvents step) = [] ∧
        effectiveSlots (circuit.events steps) = [] := by
  rw [events_cons]
  generalize circuit.stepEvents step = events
  induction events with
  | nil => simp [effectiveSlots]
  | cons event events inductionHypothesis =>
      cases event with
      | sent namer => exact inductionHypothesis
      | slot namer => simp [effectiveSlots]

theorem effectiveSlots_output (fork : Op) (index : Nat) :
    effectiveSlots (circuit.stepEvents (.output fork index)) = [] := by
  rw [stepEvents]
  cases (circuit.getInternalSentStateNamers fork)[index]? <;> rfl

theorem leaked_append_of_eq_nil (noSlot : effectiveSlots (circuit.events steps) = []) :
    circuit.leaked (steps ++ more) = circuit.leaked steps ++ circuit.leaked more := by
  induction steps with
  | nil => rfl
  | cons step steps inductionHypothesis =>
      obtain ⟨here, later⟩ := (effectiveSlots_events_cons_eq_nil step).mp noSlot
      cases step with
      | output fork index =>
          rw [List.cons_append, leaked, leaked, inductionHypothesis later, List.append_assoc]
      | buffer op =>
          rw [effectiveSlots_buffer_eq_nil] at here
          rw [List.cons_append, leaked, leaked, if_pos here, if_pos here,
            inductionHypothesis later]

theorem leaked_append_of_ne_nil (someSlot : effectiveSlots (circuit.events steps) ≠ []) :
    circuit.leaked (steps ++ more) = circuit.leaked steps := by
  induction steps with
  | nil => exact absurd rfl someSlot
  | cons step steps inductionHypothesis =>
      rw [Ne, effectiveSlots_events_cons_eq_nil] at someSlot
      cases step with
      | output fork index =>
          have later := fun none => someSlot ⟨effectiveSlots_output fork index, none⟩
          rw [List.cons_append, leaked, leaked, inductionHypothesis later]
      | buffer op =>
          rw [List.cons_append, leaked, leaked]
          split
          · rename_i here
            exact inductionHypothesis fun none =>
              someSlot ⟨effectiveSlots_buffer_eq_nil.mpr here, none⟩
          · rfl

/-- What the search does at a buffer. -/
theorem reached_buffer {slots : List BufferSlotFullNamer}
    (named : circuit.getInternalSlotStateNamers op = some slots) :
    circuit.reached (steps ++ [.buffer op]) channel =
      ⟨effectiveSlots (circuit.events steps) ++ slots.map (⟨·, []⟩), circuit.leaked steps,
        channel⟩ := by
  have isSlot : circuit.stepEvents (.buffer op) = slots.map .slot := by
    rw [stepEvents, named, Option.getD_some]
  have none : circuit.leaked [.buffer op] = [] := by
    rw [leaked, leaked, ite_self]
  rw [reached, events_concat, isSlot, effectiveSlots_append (beforeFirstSlot_map_slot slots),
    effectiveSlots_map_slot]
  by_cases noSlot : effectiveSlots (circuit.events steps) = []
  · rw [leaked_append_of_eq_nil noSlot, none, List.append_nil]
  · rw [leaked_append_of_ne_nil noSlot]

theorem forkPaths_getElem? (path : PartialPath Value)
    (outputs : List (EagerForkSentNamer × Value)) (index : Nat) :
    (forkPaths path outputs)[index]? = outputs[index]?.map fun (sent, channel) =>
      if path.slots = [] then
        ⟨path.slots, path.startSents ++ (outputs.take index).map Prod.fst, channel⟩
      else ⟨copySent sent path.slots, path.startSents, channel⟩ := by
  induction outputs generalizing path index with
  | nil => rfl
  | cons output outputs inductionHypothesis =>
      obtain ⟨sent, channel⟩ := output
      rw [forkPaths]
      split
      · rename_i noSlot
        cases index with
        | zero => simp [noSlot]
        | succ index =>
            rw [List.getElem?_cons_succ, List.getElem?_cons_succ, inductionHypothesis]
            simp [noSlot]
      · rename_i someSlot
        cases index with
        | zero => simp [someSlot]
        | succ index =>
            rw [List.getElem?_cons_succ, List.getElem?_cons_succ, inductionHypothesis]
            simp [someSlot]

theorem length_forkPaths (path : PartialPath Value)
    (outputs : List (EagerForkSentNamer × Value)) :
    (forkPaths path outputs).length = outputs.length := by
  induction outputs generalizing path with
  | nil => rfl
  | cons output outputs inductionHypothesis =>
      rw [forkPaths]
      split <;> rw [List.length_cons, List.length_cons, inductionHypothesis]

theorem length_getInternalSentStateNamers {operand : Value} {results : List Value}
    (isFork : circuit.kind op = .fork operand results) :
    (circuit.getInternalSentStateNamers op).length = results.length := by
  rw [getInternalSentStateNamers, isFork]
  simp

theorem getElem?_zip_of_taken {operand : Value} {results : List Value}
    (isFork : circuit.kind op = .fork operand results) (taken : results[index]? = some channel) :
    ∃ sent, (circuit.getInternalSentStateNamers op)[index]? = some sent ∧
      ((circuit.getInternalSentStateNamers op).zip results)[index]? = some (sent, channel) := by
  have bound := (List.getElem?_eq_some_iff.mp taken).1
  rw [← length_getInternalSentStateNamers isFork] at bound
  have isSent := List.getElem?_eq_getElem bound
  exact ⟨_, isSent, List.getElem?_zip_eq_some.mpr ⟨isSent, taken⟩⟩

/-- There is a path for each output. -/
theorem exists_forkPaths {operand : Value} {results : List Value}
    (isFork : circuit.kind op = .fork operand results) (path : PartialPath Value)
    (taken : results[index]? = some channel) :
    ∃ next, (forkPaths path ((circuit.getInternalSentStateNamers op).zip results))[index]? =
      some next ∧ next.cur = channel := by
  obtain ⟨sent, -, zipped⟩ := getElem?_zip_of_taken isFork taken
  rw [forkPaths_getElem?, zipped, Option.map_some]
  refine ⟨_, rfl, ?_⟩
  dsimp only
  split <;> rfl

/-- What the search does at a fork. -/
theorem forkPaths_reached {operand : Value} {results : List Value}
    (isFork : circuit.kind op = .fork operand results) (taken : results[index]? = some channel) :
    (forkPaths (circuit.reached steps value)
        ((circuit.getInternalSentStateNamers op).zip results))[index]? =
      some (circuit.reached (steps ++ [.output op index]) channel) := by
  have sameLength := length_getInternalSentStateNamers isFork
  obtain ⟨sent, isSent, zipped⟩ := getElem?_zip_of_taken isFork taken
  have isEvent : circuit.stepEvents (.output op index) = [.sent sent] := by
    rw [stepEvents, isSent]
    rfl
  have single : circuit.leaked [.output op index] =
      (circuit.getInternalSentStateNamers op).take index := by
    rw [leaked, leaked, List.append_nil]
  have firsts : (((circuit.getInternalSentStateNamers op).zip results).take index).map Prod.fst =
      (circuit.getInternalSentStateNamers op).take index := by
    rw [List.map_take, List.map_fst_zip (by omega)]
  rw [forkPaths_getElem?, zipped, Option.map_some, firsts, reached, reached, events_concat, isEvent,
    effectiveSlots_append_sent]
  by_cases noSlot : effectiveSlots (circuit.events steps) = []
  · rw [leaked_append_of_eq_nil noSlot, single, noSlot]
    rfl
  · rw [leaked_append_of_ne_nil noSlot]
    simp only [if_neg noSlot]

end Circuit

end Dynamatic.DeciderPaths
