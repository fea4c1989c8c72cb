import Mathlib.Order.Monotone.Basic

/-!
# What happens eventually

A quantity that grows again and again passes every number, and finitely many things
that each happen for good have all happened at some time.
-/

namespace Dynamatic.Clocked

/-- A count that grows while it is not past the goal gets past it. -/
theorem exists_counted {count : Nat → Nat} {goal start : Nat}
    (grows : ∀ time ≥ start, count time ≤ goal → ∃ later > time, count time < count later) :
    ∃ time ≥ start, goal < count time := by
  suffices reaches : ∀ missing, ∀ time ≥ start, goal < count time + missing →
      ∃ later ≥ start, goal < count later from
    reaches (goal + 1) start (Nat.le_refl _) (by omega)
  intro missing
  induction missing with
  | zero => exact fun time after past => ⟨time, after, past⟩
  | succ missing inductionHypothesis =>
      intro time after past
      rcases Nat.lt_or_ge goal (count time) with already | notYet
      · exact ⟨time, after, already⟩
      · obtain ⟨later, ordered, more⟩ := grows time after notYet
        exact inductionHypothesis later (by omega) (by omega)

/-- Each of finitely many things that happen for good has happened by some time. -/
theorem exists_all {Happened : Nat → Nat → Prop}
    (keeps : ∀ {early late item}, early ≤ late → Happened early item → Happened late item)
    {number : Nat} (each : ∀ item < number, ∃ time, Happened time item) :
    ∃ time, ∀ item < number, Happened time item := by
  induction number with
  | zero => exact ⟨0, fun item before => absurd before (Nat.not_lt_zero _)⟩
  | succ number inductionHypothesis =>
      obtain ⟨time, earlier⟩ := inductionHypothesis fun item before =>
        each item (Nat.lt_succ_of_lt before)
      obtain ⟨last, happened⟩ := each number (Nat.lt_succ_self _)
      refine ⟨max time last, fun item before => ?_⟩
      rcases Nat.eq_or_lt_of_le (Nat.le_of_lt_succ before) with rfl | less
      · exact keeps (Nat.le_max_right _ _) happened
      · exact keeps (Nat.le_max_left _ _) (earlier item less)

/-- Tokens offered to a port while it is ready are taken, as many as it is ready for. -/
theorem exists_taken {taken number : Nat → Nat} {valid ready : Nat → Bool}
    (counted : ∀ time, taken (time + 1) = taken time + (valid time && ready time).toNat)
    (isReady : ∀ time, ready time = decide (taken time < number time))
    (more : ∀ {early late}, early ≤ late → number early ≤ number late)
    (offers : ∀ time, ready time = true → ∃ later ≥ time, valid later = true)
    {goal start : Nat} (below : goal < number start) : ∃ time, goal < taken time := by
  have mono : Monotone taken := monotone_nat_of_le_succ fun time => by
    rw [counted]
    exact Nat.le_add_right _ _
  have grows : ∀ time ≥ start, taken time ≤ goal → ∃ later > time, taken time < taken later := by
    intro time after notYet
    have waits : ready time = true := by
      have grown := more after
      rw [isReady, decide_eq_true_eq]
      omega
    obtain ⟨later, ordered, offered⟩ := offers time waits
    have kept := mono ordered
    refine ⟨later + 1, by omega, ?_⟩
    rw [counted, offered, isReady, Bool.true_and]
    rcases Nat.lt_or_ge (taken time) (taken later) with already | same
    · omega
    · have grown := more (after.trans ordered)
      rw [decide_eq_true (by omega), Bool.toNat_true]
      omega
  obtain ⟨time, -, past⟩ := exists_counted grows
  exact ⟨time, past⟩

end Dynamatic.Clocked
