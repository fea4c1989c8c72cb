import Mathlib.Data.Option.Basic

/-!
# Machines in lockstep

Two deterministic machines run in lockstep under a relation of their states when each step
of one is a step of the other to related states, and both halt together. The relation then
holds after every number of steps.
-/

namespace Dynamatic.Refinement

variable {State Other Third : Type}

/-- The state after a number of steps, unless the machine has halted before. -/
def runFor (step : State → Option State) (start : State) : Nat → Option State
  | 0 => some start
  | count + 1 => (runFor step start count).bind step

/-- Related states step to related states, or both halt. -/
def Lockstep (step : State → Option State) (stepOther : Other → Option Other)
    (related : State → Other → Prop) : Prop :=
  ∀ {state other}, related state other → Option.Rel related (step state) (stepOther other)

variable {step : State → Option State} {stepOther : Other → Option Other}
  {stepThird : Third → Option Third} {related : State → Other → Prop}
  {relatedThird : Other → Third → Prop}

theorem rel_bind {state : Option State} {other : Option Other}
    (relates : Option.Rel related state other)
    (lockstep : Lockstep step stepOther related) :
    Option.Rel related (state.bind step) (other.bind stepOther) := by
  cases relates with
  | none => exact .none
  | some relates => exact lockstep relates

/-- The relation holds along the runs from related states. -/
theorem Lockstep.runFor (lockstep : Lockstep step stepOther related) {start : State}
    {startOther : Other} (starts : related start startOther) (count : Nat) :
    Option.Rel related (runFor step start count) (Refinement.runFor stepOther startOther count) := by
  induction count with
  | zero => exact .some starts
  | succ count inductionHypothesis => exact rel_bind inductionHypothesis lockstep

theorem rel_mono {first second : State → Other → Prop} {state : Option State}
    {other : Option Other} (relates : Option.Rel first state other)
    (weaker : ∀ {state other}, first state other → second state other) :
    Option.Rel second state other := by
  cases relates with
  | none => exact .none
  | some relates => exact .some (weaker relates)

theorem rel_comp {state : Option State} {other : Option Other} {third : Option Third}
    (first : Option.Rel related state other) (second : Option.Rel relatedThird other third) :
    Option.Rel (fun state third => ∃ other, related state other ∧ relatedThird other third)
      state third := by
  cases first with
  | none =>
      cases second
      exact .none
  | some relates =>
      cases second with
      | some relatesThird => exact .some ⟨_, relates, relatesThird⟩

end Dynamatic.Refinement
