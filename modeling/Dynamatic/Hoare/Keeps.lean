import Mathlib.Data.List.Basic

/-!
# Programs that keep an invariant of their state

Partial correctness of programs that carry a state and may fault: from a state with the
invariant, a program that returns leaves a state with the invariant and a result with
the postcondition. A program that faults keeps everything.
-/

namespace Dynamatic.Hoare

variable {State Fault Result Next : Type}

/-- From a state with the invariant the program returns, if it does, into a state with
the invariant, and its result has the postcondition. -/
def Keeps (Holds : State → Prop) (program : StateT State (Except Fault) Result)
    (Post : Result → Prop) : Prop :=
  ∀ before result after, Holds before → program before = .ok (result, after) →
    Holds after ∧ Post result

variable {Holds : State → Prop} {Post : Result → Prop}

theorem Keeps.bind {program : StateT State (Except Fault) Result}
    {rest : Result → StateT State (Except Fault) Next}
    {Mid : Result → Prop} {Last : Next → Prop}
    (first : Keeps Holds program Mid)
    (then_ : ∀ result, Mid result → Keeps Holds (rest result) Last) :
    Keeps Holds (program >>= rest) Last := by
  intro before result after holds returns
  cases step : program before with
  | error fault => simp [Bind.bind, StateT.bind, Except.bind, step] at returns
  | ok pair =>
      obtain ⟨value, middle⟩ := pair
      obtain ⟨kept, mid⟩ := first before value middle holds step
      refine then_ value mid middle result after kept ?_
      simpa [Bind.bind, StateT.bind, Except.bind, step] using returns

theorem Keeps.mono {program : StateT State (Except Fault) Result} {Weaker : Result → Prop}
    (keeps : Keeps Holds program Post) (weaker : ∀ result, Post result → Weaker result) :
    Keeps Holds program Weaker := by
  intro before result after holds returns
  obtain ⟨kept, post⟩ := keeps before result after holds returns
  exact ⟨kept, weaker result post⟩

end Dynamatic.Hoare
