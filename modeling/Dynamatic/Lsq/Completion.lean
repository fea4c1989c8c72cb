import Dynamatic.Lsq.Flags

/-!
# Completion of the master queue

A master load-store queue takes a memStart token as the kernel starts, and offers the
memEnd token once the ctrlEnd token was given, both queues are empty and no group is
requested. The register behind the memEnd token is set and never cleared, so the
queue keeps its promise for one execution only: with a second memStart token, or a
second memEnd token taken, it offers a memEnd token that no ctrlEnd token stands for.
-/

namespace Dynamatic.Lsq

open Dynamatic.Clocked

variable {configs : Configs}

namespace Run

variable (run : Run configs)

/-- The memStart tokens taken before a cycle. -/
def memStarts (time : Nat) : Nat :=
  (transfers (fun time => (run.inputs time).memStartValid && (run.cycle time).state.memStartReady)
    (fun _ => ()) time).length

/-- The memEnd tokens taken before a cycle. -/
def memEnds (time : Nat) : Nat :=
  (transfers (fun time => (run.cycle time).state.memEndValid && (run.inputs time).memEndReady)
    (fun _ => ()) time).length

/-- The ctrlEnd tokens taken before a cycle. -/
def ctrlEnds (time : Nat) : Nat :=
  (transfers (fun time => (run.inputs time).ctrlEndValid && (run.cycle time).state.ctrlEndReady)
    (fun _ => ()) time).length

/-- No group is requested. -/
def Quiet (time : Nat) : Prop :=
  ∀ group < configs.numGroups, (run.inputs time).groupInitValid group = false

/-- Every load and store has left its queue. -/
def Drained (time : Nat) : Prop :=
  (∀ entry < configs.numLdqEntries, (run.cycle time).state.ldqAlloc entry = false) ∧
    ∀ entry < configs.numStqEntries, (run.cycle time).state.stqAlloc entry = false

/-- The kernel gives the ctrlEnd token of an execution after its memStart token was taken
and after its groups: those requested later are of later executions. -/
structure Executes : Prop where
  ctrlEnd : ∀ time, (run.inputs time).ctrlEndValid = true → run.ctrlEnds time < run.memStarts time
  groups : ∀ early late, early < late → (run.inputs early).ctrlEndValid = true → run.Quiet early →
    ¬ run.Quiet late → run.ctrlEnds early + 1 < run.memStarts late

/-- The memEnd token of an execution is offered after its ctrlEnd token came and its loads
and stores completed, and as soon as that is so; one is taken for each memStart token. -/
structure Completes (time : Nat) : Prop where
  offered : (run.cycle time).state.memEndValid = true →
    run.memEnds time < run.memStarts time ∨ (run.inputs time).memEndReady = true →
    (∃ earlier < time, (run.inputs earlier).ctrlEndValid = true ∧
        run.ctrlEnds earlier = run.memEnds time) ∧
      run.Drained time
  one : run.memEnds time ≤ run.memStarts time ∧ run.memStarts time ≤ run.memEnds time + 1
  prompt : (run.inputs time).ctrlEndValid = true → run.Quiet time → run.Drained time →
    (run.cycle (time + 1)).state.memEndValid = true

/-- After a memEnd token was taken, there is no memStart token and none takes another. -/
def OneExecution (time : Nat) : Prop :=
  run.memEnds time = 0 ∨
    (run.inputs time).memStartValid = false ∧ (run.inputs time).memEndReady = false

/-- What the completion registers stand for in a single execution. -/
structure Executing (time : Nat) : Prop where
  starts : run.memStarts time ≤ 1
  ends : run.memEnds time ≤ 1
  memStartReady : (run.cycle time).state.memStartReady = true ↔ run.memStarts time = run.memEnds time
  running : (run.cycle time).state.memEndValid = false →
    run.memEnds time = 0 ∧ run.ctrlEnds time = 0 ∧ (run.cycle time).state.ctrlEndReady = false
  ended : (run.cycle time).state.memEndValid = true →
    run.memStarts time = 1 ∧ run.Drained time ∧
      ∃ earlier < time, (run.inputs earlier).ctrlEndValid = true ∧ run.Quiet earlier ∧
        run.ctrlEnds earlier = 0

variable {run} {time early late : Nat}

section Counts

theorem memStarts_succ : run.memStarts (time + 1) = run.memStarts time +
    ((run.inputs time).memStartValid && (run.cycle time).state.memStartReady).toNat :=
  length_transfers_succ time

theorem memEnds_succ : run.memEnds (time + 1) = run.memEnds time +
    ((run.cycle time).state.memEndValid && (run.inputs time).memEndReady).toNat :=
  length_transfers_succ time

theorem ctrlEnds_succ : run.ctrlEnds (time + 1) = run.ctrlEnds time +
    ((run.inputs time).ctrlEndValid && (run.cycle time).state.ctrlEndReady).toNat :=
  length_transfers_succ time

theorem memStarts_mono (run : Run configs) (ordered : early ≤ late) :
    run.memStarts early ≤ run.memStarts late :=
  length_transfers_mono ordered

end Counts

section Drained

/-- Queues that are empty stay empty while no group is requested. -/
theorem Drained.succ (drained : run.Drained time) (quiet : run.Quiet time) :
    run.Drained (time + 1) := by
  have none : ∀ group < configs.numGroups, (run.cycle time).groupInitHs group = false := by
    intro group bounded
    refine Bool.eq_false_iff.mpr fun accepted => ?_
    have asked := Cycle.groupInitAnd_of_hs accepted
    rw [Cycle.groupInitAnd, input_cycle, quiet group bounded, Bool.and_false] at asked
    cases asked
  have noLoads : (run.cycle time).numLoads = 0 := mux1HROM_of_none none
  have noStores : (run.cycle time).numStores = 0 := mux1HROM_of_none none
  rw [Drained, state_succ]
  simp only [Cycle.next, Cycle.ldqWen, Cycle.stqWen, noLoads, noStores, Nat.not_lt_zero,
    decide_false, cyclicLeftShift_const, Bool.false_or, Cycle.ldqAllocNext, Cycle.stqAllocNext]
  exact ⟨fun entry bounded => by rw [drained.1 entry bounded, Bool.and_false],
    fun entry bounded => by rw [drained.2 entry bounded, Bool.and_false]⟩

/-- The completion condition, in terms of the inputs and the allocation bits. -/
theorem tempGenMem_iff (occupancy : (run.cycle time).Occupancy) :
    (run.cycle time).tempGenMem = true ↔
      (run.inputs time).ctrlEndValid = true ∧ run.Quiet time ∧ run.Drained time := by
  simp only [Cycle.tempGenMem, Bool.and_eq_true, Bool.not_eq_true', reduceOr_eq_false,
    occupancy.ldqEmpty, occupancy.stqEmpty, input_cycle]
  constructor
  · rintro ⟨⟨⟨given, stores⟩, loads⟩, quiet⟩
    exact ⟨given, quiet, loads, stores⟩
  · rintro ⟨given, quiet, loads, stores⟩
    exact ⟨⟨⟨given, stores⟩, loads⟩, quiet⟩

end Drained

section Executing

theorem executing_zero : run.Executing 0 := by
  have reset := run.reset
  refine ⟨Nat.zero_le _, Nat.zero_le _, ?_, fun _ => ⟨rfl, rfl, ?_⟩, fun valid => ?_⟩
  · rw [state_zero, reset.memStartReady]
    exact ⟨fun _ => rfl, fun _ => rfl⟩
  · rw [state_zero, reset.ctrlEndReady]
  · rw [state_zero, reset.memEndValid] at valid
    cases valid

variable (executes : run.Executes) (occupancy : ∀ time, (run.cycle time).Occupancy)

include executes occupancy

theorem executing_succ (now : run.Executing time) (single : run.OneExecution time) :
    run.Executing (time + 1) := by
  obtain ⟨starts, ends, ready, running, ended⟩ := now
  have condition := tempGenMem_iff (occupancy time)
  have endsSucc : run.memEnds (time + 1) = _ := memEnds_succ
  have startsSucc : run.memStarts (time + 1) = _ := memStarts_succ
  -- A memStart token is taken only as the first, and so is a memEnd token.
  have firstStart : ((run.inputs time).memStartValid && (run.cycle time).state.memStartReady) = true →
      run.memStarts time = 0 := by
    intro fires
    rw [Bool.and_eq_true] at fires
    have equal := ready.mp fires.2
    rcases single with first | ⟨idle, -⟩
    · omega
    · rw [idle] at fires
      cases fires.1
  have firstEnd : ((run.cycle time).state.memEndValid && (run.inputs time).memEndReady) = true →
      run.memEnds time = 0 ∧ run.memStarts time = 1 := by
    intro fires
    rw [Bool.and_eq_true] at fires
    refine ⟨single.resolve_right fun idle => ?_, (ended fires.1).1⟩
    rw [idle.2] at fires
    cases fires.2
  have startsNext : run.memStarts (time + 1) ≤ 1 := by
    cases fires : (run.inputs time).memStartValid && (run.cycle time).state.memStartReady with
    | false =>
        rw [fires, Bool.toNat_false] at startsSucc
        omega
    | true =>
        have := firstStart fires
        rw [fires, Bool.toNat_true] at startsSucc
        omega
  refine ⟨startsNext, ?_, ?_, fun notEnded => ?_, fun isEnded => ?_⟩
  · cases fires : (run.cycle time).state.memEndValid && (run.inputs time).memEndReady with
    | false =>
        rw [fires, Bool.toNat_false] at endsSucc
        omega
    | true =>
        have := firstEnd fires
        rw [fires, Bool.toNat_true] at endsSucc
        omega
  · rw [state_succ]
    simp only [Cycle.next, input_cycle]
    cases taken : (run.cycle time).state.memEndValid && (run.inputs time).memEndReady with
    | true =>
        have first := firstEnd taken
        have notReady : (run.cycle time).state.memStartReady = false :=
          Bool.eq_false_iff.mpr fun set => by
            have := ready.mp set
            omega
        rw [taken, Bool.toNat_true] at endsSucc
        rw [notReady, Bool.and_false, Bool.toNat_false] at startsSucc
        simp only [Bool.true_or, true_iff]
        omega
    | false =>
        rw [taken, Bool.toNat_false] at endsSucc
        cases isReady : (run.cycle time).state.memStartReady with
        | false =>
            rw [isReady, Bool.and_false, Bool.toNat_false] at startsSucc
            rw [isReady] at ready
            simp only [Bool.false_or, Bool.and_false, Bool.false_eq_true, false_iff] at ready ⊢
            omega
        | true =>
            have equal := ready.mp isReady
            cases given : (run.inputs time).memStartValid with
            | false =>
                rw [given, Bool.false_and, Bool.toNat_false] at startsSucc
                simp only [Bool.false_or, Bool.not_false, Bool.and_true, true_iff]
                omega
            | true =>
                rw [given, isReady, Bool.and_self, Bool.toNat_true] at startsSucc
                simp only [Bool.false_or, Bool.and_self, Bool.not_true, Bool.false_and,
                  Bool.false_eq_true, false_iff]
                omega
  · rw [state_succ] at notEnded ⊢
    simp only [Cycle.next, Bool.or_eq_false_iff, input_cycle] at notEnded ⊢
    obtain ⟨noEnds, noCtrlEnds, notReady⟩ := running notEnded.2
    rw [notEnded.2, Bool.false_and, Bool.toNat_false] at endsSucc
    refine ⟨by omega, ?_, ?_⟩
    · rw [ctrlEnds_succ, noCtrlEnds, notReady, Bool.and_false]
      rfl
    · rw [notReady, notEnded.1]
      simp
  · rw [state_succ] at isEnded
    simp only [Cycle.next, Bool.or_eq_true] at isEnded
    have startsKept := run.memStarts_mono (Nat.le_add_right time 1)
    cases wasEnded : (run.cycle time).state.memEndValid with
    | true =>
        obtain ⟨started, drained, earlier, before, given, quiet, first⟩ := ended wasEnded
        have stillQuiet : run.Quiet time := by
          by_contra asked
          have later := executes.groups earlier time before given quiet asked
          omega
        exact ⟨by omega, drained.succ stillQuiet, earlier, Nat.lt_succ_of_lt before, given, quiet,
          first⟩
    | false =>
        rw [wasEnded] at isEnded
        obtain ⟨given, quiet, drained⟩ := condition.mp (isEnded.resolve_right (by simp))
        have started := executes.ctrlEnd time given
        exact ⟨by omega, drained.succ quiet, time, Nat.lt_succ_self _, given, quiet,
          (running wasEnded).2.1⟩

theorem executing (time : Nat) (single : ∀ earlier < time, run.OneExecution earlier) :
    run.Executing time := by
  induction time with
  | zero => exact executing_zero
  | succ time inductionHypothesis =>
      exact executing_succ executes occupancy
        (inductionHypothesis fun earlier before => single earlier (Nat.lt_succ_of_lt before))
        (single time (Nat.lt_succ_self _))

theorem completes_of_oneExecution (single : ∀ time, run.OneExecution time) (time : Nat) :
    run.Completes time := by
  obtain ⟨starts, ends, ready, running, ended⟩ :=
    executing executes occupancy time fun earlier _ => single earlier
  refine ⟨fun valid asked => ?_, ?_, fun given quiet drained => ?_⟩
  · obtain ⟨started, drained, earlier, before, given, -, first⟩ := ended valid
    have notTaken : run.memEnds time = 0 := by
      rcases single time with first | ⟨-, idle⟩
      · exact first
      · rw [idle] at asked
        have less := asked.resolve_right (by simp)
        omega
    exact ⟨⟨earlier, before, given, first.trans notTaken.symm⟩, drained⟩
  · cases valid : (run.cycle time).state.memEndValid with
    | true =>
        have started := (ended valid).1
        omega
    | false =>
        have notTaken := (running valid).1
        omega
  · rw [state_succ]
    simp [Cycle.next, (tempGenMem_iff (occupancy time)).mpr ⟨given, quiet, drained⟩]

theorem oneExecution_of_completes (completes : ∀ time, run.Completes time) (time : Nat) :
    run.OneExecution time := by
  induction time using Nat.strong_induction_on with
  | _ time inductionHypothesis =>
      obtain ⟨starts, ends, ready, running, ended⟩ :=
        executing executes occupancy time inductionHypothesis
      by_cases notTaken : run.memEnds time = 0
      · exact .inl notTaken
      · have valid : (run.cycle time).state.memEndValid = true := by
          by_contra notValid
          exact notTaken (running (Bool.not_eq_true _ ▸ notValid)).1
        have started := (ended valid).1
        -- No ctrlEnd token stands for a second memEnd token.
        have noSecond : ¬ ∃ earlier ≤ time, (run.inputs earlier).ctrlEndValid = true ∧
            run.ctrlEnds earlier = 1 := by
          rintro ⟨earlier, before, given, second⟩
          have later := executes.ctrlEnd earlier given
          have kept := run.memStarts_mono before
          omega
        have idle : (run.inputs time).memEndReady = false := by
          refine Bool.eq_false_iff.mpr fun taken => ?_
          obtain ⟨⟨earlier, before, given, same⟩, -⟩ := (completes time).offered valid (.inr taken)
          exact noSecond ⟨earlier, Nat.le_of_lt before, given, by omega⟩
        refine .inr ⟨Bool.eq_false_iff.mpr fun given => ?_, idle⟩
        have more : run.memStarts (time + 1) = 2 := by
          rw [memStarts_succ, given, ready.mpr (by omega), started]
          rfl
        have same : run.memEnds (time + 1) = run.memEnds time := by
          rw [memEnds_succ, idle, Bool.and_false]
          rfl
        have stays : (run.cycle (time + 1)).state.memEndValid = true := by
          rw [state_succ]
          simp [Cycle.next, valid]
        obtain ⟨⟨earlier, before, ctrlEnd, equal⟩, -⟩ :=
          (completes (time + 1)).offered stays (.inl (by omega))
        exact noSecond ⟨earlier, Nat.le_of_lt_succ before, ctrlEnd, by omega⟩

end Executing

/-- The master completes its executions properly exactly if there is only one: no memStart
token comes and no second memEnd token is taken after the first. The head of the store
queue is not lost throughout. -/
theorem completes_iff_oneExecution (oneGroup : run.OneGroup) (answersWrites : run.AnswersWrites)
    (executes : run.Executes) (kept : ∀ time, ¬ (run.cycle time).HeadLost) :
    (∀ time, run.Completes time) ↔ ∀ time, run.OneExecution time := by
  have occupancy : ∀ time, (run.cycle time).Occupancy := fun time =>
    occupancy_of_storeQueue oneGroup (storeQueue oneGroup answersWrites kept time)
  exact ⟨oneExecution_of_completes executes occupancy, completes_of_oneExecution executes occupancy⟩

/-- Two executions without accesses: the second memStart token comes as soon as the first
memEnd token was taken, and a memEnd token is taken before the second ctrlEnd token. -/
def restarted : Run (Configs.small false false false) where
  start := State.clear _
  reset := reset_clear
  inputs time :=
    { groupInitValid := fun _ => false
      ldpAddr := fun _ => 0
      ldpAddrValid := fun _ => false
      ldpDataReady := fun _ => false
      stpAddr := fun _ => 0
      stpAddrValid := fun _ => false
      stpData := fun _ => 0
      stpDataValid := fun _ => false
      stpExecReady := fun _ => false
      rreqReady := fun _ => false
      rrespValid := fun _ => false
      rrespId := fun _ => 0
      rrespData := fun _ => 0
      wreqReady := false
      wrespValid := false
      memStartValid := decide (time = 0 ∨ time = 3)
      ctrlEndValid := decide (time = 1 ∨ time = 2 ∨ time = 6 ∨ time = 7)
      memEndReady := decide (time = 2 ∨ time = 4) }
  ldAddr _ _ := 0
  stAddr _ _ := 0
  stData _ _ := 0
  memory _ := 0
  performed _ := 0
  request _ _ := (0, 0)

theorem restarted_oneGroup : restarted.OneGroup := by
  intro _ left right leftBounded rightBounded _ _
  have only : (Configs.small false false false).numGroups = 1 := rfl
  omega

theorem restarted_answersWrites : restarted.AnswersWrites := by
  intro time
  have none : restarted.responded time = 0 := by
    induction time with
    | zero => rfl
    | succ time inductionHypothesis =>
        rw [responded_succ, inductionHypothesis]
        rfl
  rw [none]
  exact Nat.zero_le _

theorem restarted_executes : restarted.Executes := by
  refine ⟨fun time given => ?_, fun _ _ _ _ _ asked => absurd (fun _ _ => rfl) asked⟩
  have when : time = 1 ∨ time = 2 ∨ time = 6 ∨ time = 7 := of_decide_eq_true given
  rcases when with rfl | rfl | rfl | rfl
  · decide +kernel
  · decide +kernel
  · decide +kernel
  · decide +kernel

theorem completes_iff_oneExecution_restarted :
    (∀ time, restarted.Completes time) ↔ ∀ time, restarted.OneExecution time :=
  completes_iff_oneExecution restarted_oneGroup restarted_answersWrites restarted_executes
    fun _ lost => by cases lost.1

theorem not_completes_restarted :
    restarted.OneGroup ∧ restarted.AnswersWrites ∧ restarted.Executes ∧
      ¬ ∀ time, restarted.Completes time := by
  refine ⟨restarted_oneGroup, restarted_answersWrites, restarted_executes, fun completes => ?_⟩
  have single := oneExecution_of_completes restarted_executes (fun time => occupancy_of_storeQueue
    restarted_oneGroup (storeQueue restarted_oneGroup restarted_answersWrites
      (fun _ lost => by cases lost.1) time)) completes 3
  have taken : restarted.memEnds 3 = 1 := by decide +kernel
  rcases single with none | ⟨idle, -⟩
  · omega
  · exact absurd idle (by decide)

end Run

end Dynamatic.Lsq
