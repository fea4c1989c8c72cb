import Mathlib.Data.List.Basic

/-!
# Interleavings of two sequences of events

Two parties act on one state, each event changing it and answering. When no event of
one party is seen by an event of the other, every interleaving leaves the state and
gives each party the answers of running the first party and then the second.
-/

namespace Dynamatic.Concurrency

/-- What an event makes of a state, and what it answers there. -/
structure System (State Event Answer : Type) where
  next : State → Event → State
  answer : State → Event → Answer

/-- The party that an event of an interleaving belongs to. -/
inductive Party where
  | first
  | second
  deriving DecidableEq, Repr

/-- The events of one party, in the order of the interleaving. -/
def eventsOf {Event : Type} (party : Party) (trace : List (Party × Event)) : List Event :=
  (trace.filter fun step => step.1 = party).map Prod.snd

section Project

variable {Event : Type} {party other : Party} {event : Event} {trace : List (Party × Event)}

@[simp] theorem eventsOf_cons_self :
    eventsOf party ((party, event) :: trace) = event :: eventsOf party trace := by
  simp [eventsOf]

theorem eventsOf_cons_of_ne (differs : other ≠ party) :
    eventsOf party ((other, event) :: trace) = eventsOf party trace := by
  simp [eventsOf, differs]

end Project

namespace System

variable {State Event Answer : Type} (system : System State Event Answer)

def run (state : State) (events : List Event) : State := events.foldl system.next state

/-- The answers to a sequence of events. -/
def answers : State → List Event → List Answer
  | _, [] => []
  | state, event :: rest => system.answer state event :: answers (system.next state event) rest

/-- The answers that one party gets in an interleaving. -/
def answersOf (party : Party) : State → List (Party × Event) → List Answer
  | _, [] => []
  | state, (owner, event) :: rest =>
      let later := answersOf party (system.next state event) rest
      if owner = party then system.answer state event :: later else later

@[simp] theorem run_cons (state : State) (event : Event) (rest : List Event) :
    system.run state (event :: rest) = system.run (system.next state event) rest := rfl

/-- Neither of two events sees the other. -/
structure Independent (left right : Event) : Prop where
  commutes : ∀ state,
    system.next (system.next state left) right = system.next (system.next state right) left
  answerLeft : ∀ state, system.answer (system.next state right) left = system.answer state left
  answerRight : ∀ state, system.answer (system.next state left) right = system.answer state right

variable {system} {events : List Event} {event : Event}

/-- An event moves behind events that it is independent of. -/
theorem run_next_of_independent (independent : ∀ before ∈ events, system.Independent before event)
    (state : State) :
    system.run (system.next state event) events = system.next (system.run state events) event := by
  induction events generalizing state with
  | nil => rfl
  | cons before rest inductionHypothesis =>
      have head := independent before List.mem_cons_self
      have tail := fun other mem => independent other (List.mem_cons_of_mem _ mem)
      rw [run_cons, run_cons, ← head.commutes, inductionHypothesis tail]

theorem answer_run_of_independent
    (independent : ∀ before ∈ events, system.Independent before event) (state : State) :
    system.answer (system.run state events) event = system.answer state event := by
  induction events generalizing state with
  | nil => rfl
  | cons before rest inductionHypothesis =>
      have head := independent before List.mem_cons_self
      have tail := fun other mem => independent other (List.mem_cons_of_mem _ mem)
      rw [run_cons, inductionHypothesis tail, head.answerRight]

theorem answers_next_of_independent
    (independent : ∀ before ∈ events, system.Independent before event) (state : State) :
    system.answers (system.next state event) events = system.answers state events := by
  induction events generalizing state with
  | nil => rfl
  | cons before rest inductionHypothesis =>
      have head := independent before List.mem_cons_self
      have tail := fun other mem => independent other (List.mem_cons_of_mem _ mem)
      rw [answers, answers, head.answerLeft, ← head.commutes, inductionHypothesis tail]

/-- Every interleaving of independent parties is as running one after the other, in the
state that it leaves and in what each party is answered. -/
theorem interleaving_sequential {trace : List (Party × Event)}
    (independent : ∀ left ∈ eventsOf .first trace, ∀ right ∈ eventsOf .second trace,
      system.Independent left right) (state : State) :
    system.run state (trace.map Prod.snd) =
        system.run (system.run state (eventsOf .first trace)) (eventsOf .second trace) ∧
      system.answersOf .first state trace = system.answers state (eventsOf .first trace) ∧
      system.answersOf .second state trace =
        system.answers (system.run state (eventsOf .first trace)) (eventsOf .second trace) := by
  induction trace generalizing state with
  | nil => exact ⟨rfl, rfl, rfl⟩
  | cons step rest inductionHypothesis =>
      obtain ⟨party, event⟩ := step
      cases party with
      | first =>
          have other : eventsOf .second ((Party.first, event) :: rest) = eventsOf .second rest :=
            eventsOf_cons_of_ne (by decide)
          rw [other, eventsOf_cons_self] at independent ⊢
          obtain ⟨run, first, second⟩ := inductionHypothesis
            (fun left mem => independent left (List.mem_cons_of_mem _ mem)) (system.next state event)
          refine ⟨run, ?_, ?_⟩
          · rw [answersOf, answers, first]
            rfl
          · rw [answersOf, second]
            rfl
      | second =>
          have other : eventsOf .first ((Party.second, event) :: rest) = eventsOf .first rest :=
            eventsOf_cons_of_ne (by decide)
          rw [other, eventsOf_cons_self] at independent ⊢
          have moves := fun left mem => independent left mem event List.mem_cons_self
          obtain ⟨run, first, second⟩ := inductionHypothesis
            (fun left mem right also => independent left mem right (List.mem_cons_of_mem _ also))
            (system.next state event)
          rw [run_next_of_independent moves] at run second
          rw [answers_next_of_independent moves] at first
          refine ⟨run, ?_, ?_⟩
          · rw [answersOf, first]
            rfl
          · rw [answersOf, second, answers, answer_run_of_independent moves]
            rfl

end System

end Dynamatic.Concurrency
