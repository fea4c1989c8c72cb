import Mathlib.Data.Set.Card

/-!
# The occupancy of an unbounded schedule

A schedule starts round after round. In every round each job arrives and leaves some cycles after
the start. The occupancy of a cycle is the number of jobs, of all rounds, that have arrived and not
left. If the rounds repeat, it has its peak before the jobs of the first of them have left.
-/

namespace Dynamatic.Schedules

universe u

structure Schedule (Job : Type u) where
  jobs : List Job
  nodup : jobs.Nodup
  start : Nat → Nat
  arrive : Nat → Job → Nat
  leave : Nat → Job → Nat

namespace Schedule

variable {Job : Type u} (schedule : Schedule Job)

/-- A job of a round has arrived and not left. -/
def Present (round : Nat) (job : Job) (cycle : Nat) : Prop :=
  schedule.start round + schedule.arrive round job ≤ cycle ∧
    cycle < schedule.start round + schedule.leave round job

instance (round : Nat) (job : Job) (cycle : Nat) : Decidable (schedule.Present round job cycle) :=
  inferInstanceAs (Decidable (_ ∧ _))

def present (cycle : Nat) : Set (Nat × Job) :=
  {entry | entry.2 ∈ schedule.jobs ∧ schedule.Present entry.1 entry.2 cycle}

/-- The jobs that are present, over all rounds. -/
noncomputable def occupancy (cycle : Nat) : ℕ∞ := (schedule.present cycle).encard

/-- The jobs of the first rounds that are present. -/
def countIn (cycle : Nat) : Nat → Nat
  | 0 => 0
  | rounds + 1 => countIn cycle rounds +
      schedule.jobs.countP fun job => schedule.Present rounds job cycle

variable {schedule} {cycle rounds : Nat}

theorem encard_present_round (round cycle : Nat) :
    {job | job ∈ schedule.jobs ∧ schedule.Present round job cycle}.encard =
      schedule.jobs.countP fun job => schedule.Present round job cycle := by
  classical
  have same : {job | job ∈ schedule.jobs ∧ schedule.Present round job cycle} =
      ((schedule.jobs.filter fun job => schedule.Present round job cycle).toFinset : Set Job) := by
    ext job
    simp
  rw [same, Set.encard_coe_eq_coe_finsetCard, List.toFinset_card_of_nodup
    (schedule.nodup.filter _), List.countP_eq_length_filter]

theorem encard_present_rounds (rounds cycle : Nat) :
    {entry | entry ∈ schedule.present cycle ∧ entry.1 < rounds}.encard =
      schedule.countIn cycle rounds := by
  induction rounds with
  | zero => simp [countIn]
  | succ rounds inductionHypothesis =>
      have split : {entry | entry ∈ schedule.present cycle ∧ entry.1 < rounds + 1} =
          {entry | entry ∈ schedule.present cycle ∧ entry.1 < rounds} ∪
            (rounds, ·) '' {job | job ∈ schedule.jobs ∧ schedule.Present rounds job cycle} := by
        ext ⟨round, job⟩
        constructor
        · rintro ⟨isPresent, bound⟩
          rcases Nat.lt_succ_iff_lt_or_eq.mp bound with less | rfl
          · exact .inl ⟨isPresent, less⟩
          · exact .inr ⟨job, isPresent, rfl⟩
        · rintro (⟨isPresent, bound⟩ | ⟨_, isPresent, same⟩)
          · exact ⟨isPresent, Nat.lt_succ_of_lt bound⟩
          · cases same
            exact ⟨isPresent, Nat.lt_succ_self rounds⟩
      have disjoint : Disjoint {entry | entry ∈ schedule.present cycle ∧ entry.1 < rounds}
          ((rounds, ·) '' {job | job ∈ schedule.jobs ∧ schedule.Present rounds job cycle}) := by
        refine Set.disjoint_left.mpr ?_
        rintro _ ⟨-, bound⟩ ⟨job, -, rfl⟩
        exact Nat.lt_irrefl rounds bound
      have injective : Function.Injective fun job : Job => (rounds, job) :=
        fun _ _ same => congrArg Prod.snd same
      rw [split, Set.encard_union_eq disjoint, inductionHypothesis, injective.encard_image,
        encard_present_round, countIn, Nat.cast_add]

/-- Only rounds whose jobs have begun to arrive count. -/
theorem occupancy_eq_countIn
    (later : ∀ round, rounds ≤ round → ∀ job ∈ schedule.jobs,
      cycle < schedule.start round + schedule.arrive round job) :
    schedule.occupancy cycle = schedule.countIn cycle rounds := by
  rw [← encard_present_rounds, occupancy]
  congr 1
  ext ⟨round, job⟩
  refine ⟨fun isPresent => ⟨isPresent, ?_⟩, And.left⟩
  by_contra bound
  have arrives : schedule.start round + schedule.arrive round job ≤ cycle := isPresent.2.1
  have := later round (Nat.le_of_not_lt bound) job isPresent.1
  omega

/-- After `count` rounds the same rounds follow, `period` cycles later. -/
structure Repeats (schedule : Schedule Job) (count period : Nat) : Prop where
  start : ∀ round, schedule.start (round + count) = schedule.start round + period
  arrive : ∀ round, schedule.arrive (round + count) = schedule.arrive round
  leave : ∀ round, schedule.leave (round + count) = schedule.leave round

variable {count period horizon : Nat}

theorem Repeats.present_iff (repeats : schedule.Repeats count period) {round : Nat} {job : Job}
    (late : period ≤ cycle) :
    schedule.Present (round + count) job cycle ↔
      schedule.Present round job (cycle - period) := by
  rw [Present, Present, repeats.start, repeats.arrive, repeats.leave]
  omega

/-- A cycle by which the jobs of the first rounds have left is like the one a period before. -/
theorem Repeats.occupancy_sub (repeats : schedule.Repeats count period)
    (left : ∀ round < count, ∀ job ∈ schedule.jobs,
      schedule.start round + schedule.leave round job ≤ cycle) (late : period ≤ cycle) :
    schedule.occupancy cycle = schedule.occupancy (cycle - period) := by
  have same : schedule.present cycle =
      (fun entry => (entry.1 + count, entry.2)) '' schedule.present (cycle - period) := by
    ext ⟨round, job⟩
    constructor
    · rintro ⟨mem, isPresent⟩
      by_cases first : round < count
      · have leaves : cycle < schedule.start round + schedule.leave round job := isPresent.2
        have := left round first job mem
        omega
      · obtain ⟨round, rfl⟩ := Nat.exists_eq_add_of_le' (Nat.le_of_not_lt first)
        exact ⟨(round, job), ⟨mem, (repeats.present_iff late).mp isPresent⟩, rfl⟩
    · rintro ⟨⟨round, job⟩, ⟨mem, isPresent⟩, same⟩
      cases same
      exact ⟨mem, (repeats.present_iff late).mpr isPresent⟩
  have injective : Function.Injective fun entry : Nat × Job => (entry.1 + count, entry.2) := by
    rintro ⟨round, job⟩ ⟨other, _⟩ same
    have rounds := congrArg Prod.fst same
    have jobs := congrArg Prod.snd same
    exact Prod.ext (Nat.add_right_cancel rounds) jobs
  rw [occupancy, same, injective.encard_image, occupancy]

theorem Repeats.occupancy_eq_zero (repeats : schedule.Repeats count period)
    (left : ∀ round < count, ∀ job ∈ schedule.jobs,
      schedule.start round + schedule.leave round job ≤ cycle) (early : cycle < period) :
    schedule.occupancy cycle = 0 := by
  rw [occupancy, Set.encard_eq_zero]
  refine Set.eq_empty_of_forall_notMem ?_
  rintro ⟨round, job⟩ ⟨mem, isPresent⟩
  by_cases first : round < count
  · have leaves : cycle < schedule.start round + schedule.leave round job := isPresent.2
    have := left round first job mem
    omega
  · obtain ⟨round, rfl⟩ := Nat.exists_eq_add_of_le' (Nat.le_of_not_lt first)
    have begins := isPresent.1
    rw [repeats.start] at begins
    omega

/-- No cycle is busier than all cycles before the jobs of the first rounds have left. -/
theorem Repeats.exists_before (repeats : schedule.Repeats count period) (positive : 0 < period)
    (left : ∀ round < count, ∀ job ∈ schedule.jobs,
      schedule.start round + schedule.leave round job ≤ horizon) (some : 0 < horizon)
    (cycle : Nat) : ∃ earlier < horizon, schedule.occupancy cycle ≤ schedule.occupancy earlier := by
  induction cycle using Nat.strongRecOn with
  | ind cycle inductionHypothesis =>
      by_cases early : cycle < horizon
      · exact ⟨cycle, early, le_rfl⟩
      · have gone : ∀ round < count, ∀ job ∈ schedule.jobs,
            schedule.start round + schedule.leave round job ≤ cycle := fun round first job mem =>
          Nat.le_trans (left round first job mem) (Nat.le_of_not_lt early)
        by_cases late : period ≤ cycle
        · rw [repeats.occupancy_sub gone late]
          exact inductionHypothesis (cycle - period) (by omega)
        · rw [repeats.occupancy_eq_zero gone (Nat.lt_of_not_le late)]
          exact ⟨0, some, zero_le⟩

end Schedule

end Dynamatic.Schedules
