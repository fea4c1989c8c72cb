import Dynamatic.Speculation.Accounting

/-!
# Recovery from a mis-prediction

A refuted prediction sends the speculator to its kill state, in which it offers a
RESEND with the data that refuted it until the data, issue and history outputs
all take it. The kill state is left once the history is empty and a
non-speculative trigger is there, whether or not the RESEND has been taken: a
non-speculative trigger is expected to come only as a consequence of it. That
expectation is `TriggersFollowResend`.
-/

namespace Dynamatic.Speculation.Speculator

open Dynamatic.Clocked Dynamatic.Handshake

variable {bitwidth : Nat}

namespace Run

section Contract

variable (run : Run bitwidth)

/-- A mis-prediction is detected in a cycle. -/
def Detects (cycle : Nat) : Prop :=
  (run.stateAt cycle).fsm = .idle ∧
    misspecDetected (run.stateAt cycle) (run.inputs cycle) = true

/-- A RESEND is issued in a cycle. -/
def Resends (cycle : Nat) : Prop := run.issued cycle = some .resend

/-- No RESEND is issued after `detected` and before `cycle`. -/
def Unresent (detected cycle : Nat) : Prop :=
  ∀ between, detected < between → between < cycle → ¬ run.Resends between

/-- Until the RESEND of a detected mis-prediction is issued, no non-speculative
trigger is present in a cycle in which no prediction is held. -/
def TriggersFollowResend : Prop :=
  ∀ detected cycle, run.Detects detected → detected < cycle → run.Unresent detected (cycle + 1) →
    (run.ledger cycle).held = [] →
    ((run.inputs cycle).triggerValid && !(run.inputs cycle).triggerSpec) = false

/-- The contract on recovery over one run from reset. -/
structure Recovery : Prop where
  /-- A detected mis-prediction is resent in the first later cycle in which the
  data, issue and history consumers are all ready, with its data on all three. -/
  resent : ∀ detected cycle, run.Detects detected → detected < cycle →
    run.Unresent detected cycle → (run.inputs cycle).outsReady = true →
    (run.inputs cycle).issueReady = true → (run.inputs cycle).historyReady = true →
    run.sent cycle = some ((run.inputs detected).ins, false) ∧
      run.issued cycle = some .resend ∧ run.recorded cycle = some .resend
  /-- Until then nothing is issued, and no other mis-prediction is detected. -/
  quiet : ∀ detected cycle, run.Detects detected → detected < cycle →
    run.Unresent detected cycle →
    run.issued cycle ≠ some .doSpec ∧ run.issued cycle ≠ some .noCmp ∧ ¬ run.Detects cycle
  /-- A RESEND carries the data of the mis-prediction it is for on all three
  outputs. -/
  carries : ∀ cycle, run.Resends cycle → ∃ detected < cycle, run.Detects detected ∧
    run.Unresent detected cycle ∧
    run.sent cycle = some ((run.inputs detected).ins, false) ∧ run.recorded cycle = some .resend
  /-- A mis-prediction is resent once: there is no other RESEND before the next
  detection. -/
  once : ∀ first cycle, run.Resends first → first < cycle →
    (∀ between, first < between → between < cycle → ¬ run.Detects between) → ¬ run.Resends cycle

end Contract

variable {run : Run bitwidth} {cycle detected : Nat}

theorem lazyForkReady_resendSinks (input : Input bitwidth) :
    lazyForkReady (resendSinks input) =
      (input.outsReady && input.issueReady && input.historyReady) := by
  refine Bool.eq_iff_iff.mpr ?_
  simp [lazyForkReady, resendSinks, Fin.forall_fin_succ, and_assoc]

theorem resends_iff :
    run.Resends cycle ↔ (run.stateAt cycle).fsm = .kill ∧
      (run.stateAt cycle).resendDone = false ∧
      lazyForkReady (resendSinks (run.inputs cycle)) = true := by
  have fires : run.Resends cycle ↔
      fireResend (run.stateAt cycle) (run.inputs cycle) = true := by
    rw [Resends, issued_eq]
    cases fireResend (run.stateAt cycle) (run.inputs cycle) with
    | true => simp
    | false =>
        cases fireNoCmp (run.stateAt cycle) (run.inputs cycle) <;>
          cases fireDoSpec (run.stateAt cycle) (run.inputs cycle) <;> simp
  rw [fires]
  constructor
  · intro fired
    have killing := fsm_of_fireResend fired
    simpa [fireResend, coreOutputs, killing] using fired
  · rintro ⟨killing, pending, ready⟩
    simp [fireResend, coreOutputs, killing, pending, ready]

/-- The unit waits for its RESEND to be taken, with `data` to resend. -/
structure Recovering (run : Run bitwidth) (cycle : Nat) (data : BitVec bitwidth) : Prop where
  killing : (run.stateAt cycle).fsm = .kill
  pending : (run.stateAt cycle).resendDone = false
  keeps : (run.stateAt cycle).dataToResend = data

theorem recovering_of_detects (detects : run.Detects cycle) :
    run.Recovering (cycle + 1) (run.inputs cycle).ins := by
  obtain ⟨idle, misspec⟩ := detects
  constructor <;> simp [stateAt_succ, next, nextFsm, idle, misspec]

/-- A RESEND that is not taken keeps waiting, unless the kill state is left. -/
theorem Recovering.step {data : BitVec bitwidth} (recovering : run.Recovering cycle data)
    (unsent : ¬ run.Resends cycle)
    (stays : readyToReSpeculate (run.stateAt cycle) (run.inputs cycle) = false) :
    run.Recovering (cycle + 1) data := by
  obtain ⟨killing, pending, rfl⟩ := recovering
  have stalled : lazyForkReady (resendSinks (run.inputs cycle)) = false := by
    rw [resends_iff] at unsent
    simpa [killing, pending] using unsent
  constructor <;> simp [stateAt_succ, next, nextFsm, killing, pending, stays, stalled]

/-- The RESEND of a detection waits until it is taken. -/
theorem recovering_until (follow : run.TriggersFollowResend) (detects : run.Detects detected)
    (later : detected < cycle) (unresent : run.Unresent detected cycle) :
    run.Recovering cycle (run.inputs detected).ins := by
  induction later with
  | refl => exact recovering_of_detects detects
  | @step cycle later inductionHypothesis =>
      have before : run.Unresent detected cycle := fun between after before =>
        unresent between after (Nat.lt_succ_of_lt before)
      refine (inductionHypothesis before).step (unresent cycle later (Nat.lt_succ_self _)) ?_
      refine Bool.eq_false_iff.mpr fun leaves => ?_
      simp only [readyToReSpeculate, Bool.and_eq_true, Bool.not_eq_true'] at leaves
      have none : (run.ledger cycle).held = [] := by
        refine not_ne_iff.mp fun some => ?_
        rw [(held_ne_nil_iff (run.accounts_stateAt cycle)).mp some] at leaves
        cases leaves.1
      simpa [leaves] using follow detected cycle detects later unresent none

/-- What waits to be resent comes from a detection that was not yet resent. -/
theorem recovering_since (killing : (run.stateAt cycle).fsm = .kill)
    (pending : (run.stateAt cycle).resendDone = false) :
    ∃ detected < cycle, run.Detects detected ∧ run.Unresent detected cycle ∧
      (run.stateAt cycle).dataToResend = (run.inputs detected).ins := by
  induction cycle with
  | zero => cases killing
  | succ cycle inductionHypothesis =>
      by_cases detects : run.Detects cycle
      · refine ⟨cycle, Nat.lt_succ_self _, detects, fun between after before => by omega, ?_⟩
        exact (recovering_of_detects detects).keeps
      · -- Without a detection the kill state is entered from the kill state only.
        have before : (run.stateAt cycle).fsm = .kill := by
          simp only [stateAt_succ, next, nextFsm] at killing
          cases fsm : (run.stateAt cycle).fsm with
          | idle =>
              have calm : misspecDetected (run.stateAt cycle) (run.inputs cycle) = false :=
                Bool.eq_false_iff.mpr fun misspec => detects ⟨fsm, misspec⟩
              simp [fsm, calm] at killing
          | kill => rfl
          | killOnlyData =>
              cases arrived : nonspecDataArrived (run.stateAt cycle) (run.inputs cycle) <;>
                simp [fsm, arrived] at killing
        have unsent : lazyForkReady (resendSinks (run.inputs cycle)) = false ∧
            (run.stateAt cycle).resendDone = false := by
          simpa [stateAt_succ, next, before] using pending
        obtain ⟨detected, earlier, detects, unresent, keeps⟩ := inductionHypothesis before unsent.2
        refine ⟨detected, Nat.lt_succ_of_lt earlier, detects, fun between after bounded => ?_, ?_⟩
        · rcases Nat.lt_succ_iff_lt_or_eq.mp bounded with bounded | rfl
          · exact unresent between after bounded
          · simp [resends_iff, unsent]
        · simpa [stateAt_succ, next, before] using keeps

/-- After a RESEND none is pending before the next detection. -/
theorem resendDone_of_resends {first : Nat} (resends : run.Resends first) (later : first < cycle)
    (calm : ∀ between, first < between → between < cycle → ¬ run.Detects between) :
    (run.stateAt cycle).resendDone = true := by
  induction later with
  | refl =>
      obtain ⟨killing, -, ready⟩ := resends_iff.mp resends
      simp [stateAt_succ, next, killing, ready]
  | @step cycle later inductionHypothesis =>
      have done := inductionHypothesis fun between after before =>
        calm between after (Nat.lt_succ_of_lt before)
      have undetected : ¬ ((run.stateAt cycle).fsm = .idle ∧
          misspecDetected (run.stateAt cycle) (run.inputs cycle) = true) :=
        calm cycle later (Nat.lt_succ_self _)
      simp [stateAt_succ, next, undetected, done]

theorem resent_of_recovering {data : BitVec bitwidth} (recovering : run.Recovering cycle data)
    (ready : lazyForkReady (resendSinks (run.inputs cycle)) = true) :
    run.sent cycle = some (data, false) ∧ run.issued cycle = some .resend ∧
      run.recorded cycle = some .resend := by
  rw [← recovering.keeps]
  refine run.resent_of_fireResend cycle ?_
  simp [fireResend, coreOutputs, recovering.killing, recovering.pending, ready]

/-- Over every run in which non-speculative triggers come only after the RESEND
they follow from, each detected mis-prediction is resent exactly once, with its
data on the data, issue and history outputs and nothing issued before. -/
theorem mispredictions_resent (run : Run bitwidth) (follow : run.TriggersFollowResend) :
    run.Recovery where
  resent detected cycle detects later unresent outs issue history := by
    refine resent_of_recovering (recovering_until follow detects later unresent) ?_
    simp [lazyForkReady_resendSinks, outs, issue, history]
  quiet detected cycle detects later unresent := by
    have recovering := recovering_until follow detects later unresent
    obtain ⟨noSpec, noCmp, -⟩ := kill_no_events (run.inputs cycle) recovering.killing
    refine ⟨?_, ?_, fun detects => ?_⟩
    · rw [Ne, issued_doSpec_iff, noSpec]
      simp
    · rw [issued_eq, noCmp, noSpec]
      split <;> simp
    · have idle := detects.1
      rw [recovering.killing] at idle
      cases idle
  carries cycle resends := by
    obtain ⟨killing, pending, ready⟩ := resends_iff.mp resends
    obtain ⟨detected, earlier, detects, unresent, keeps⟩ := recovering_since killing pending
    obtain ⟨sent, -, recorded⟩ := resent_of_recovering ⟨killing, pending, keeps⟩ ready
    exact ⟨detected, earlier, detects, unresent, sent, recorded⟩
  once first cycle resends later calm again := by
    have done := resendDone_of_resends resends later calm
    rw [(resends_iff.mp again).2.1] at done
    cases done

theorem twoSlots_deep : 2 ≤ 2 := Nat.le_refl 2

/-- One prediction, made in cycle 0 and refuted in cycle 1. Every consumer is
ready, so it is resent and killed in cycle 2; the next trigger comes in cycle 3. -/
def recovered : Run 1 where
  depth := 2
  deep := twoSlots_deep
  dataToResend := 0
  memory _ := 0
  inputs
    | 0 => ⟨0, false, false, true, false, true, true, true, true⟩
    | 1 => ⟨1, true, false, false, false, true, true, true, true⟩
    | 3 => ⟨0, false, false, true, false, true, true, true, true⟩
    | _ => ⟨0, false, false, false, false, true, true, true, true⟩

theorem recovered_follows : recovered.TriggersFollowResend := by
  intro detected cycle detects later unresent
  have misspec := detects.2
  have resends : recovered.Resends 2 := (by decide : recovered.issued 2 = some .resend)
  match detected with
  | 0 => exact absurd misspec (by decide)
  | 1 => exact absurd resends (unresent 2 (by decide) (by omega))
  | 2 => exact absurd misspec (by decide)
  | 3 => exact absurd misspec (by decide)
  | detected + 4 => simp [misspecDetected, dataInValid, recovered] at misspec

theorem mispredictions_resent_recovered :
    recovered.TriggersFollowResend ∧ recovered.Detects 1 ∧ recovered.Recovery :=
  ⟨recovered_follows, ⟨by decide, by decide⟩, mispredictions_resent recovered recovered_follows⟩

/-- The same prediction and refutation, with the data consumer stalled in cycles 2
and 3 and the next, non-speculative trigger there from cycle 3 until it is taken. -/
def abandoned : Run 1 where
  depth := 2
  deep := twoSlots_deep
  dataToResend := 0
  memory _ := 0
  inputs
    | 0 => ⟨0, false, false, true, false, true, true, true, true⟩
    | 1 => ⟨1, true, false, false, false, true, true, true, true⟩
    | 2 => ⟨0, false, false, false, false, false, true, true, true⟩
    | 3 => ⟨0, false, false, true, false, false, true, true, true⟩
    | 4 => ⟨0, false, false, true, false, true, true, true, true⟩
    | _ => ⟨0, false, false, false, false, true, true, true, true⟩

/-- An early non-speculative trigger ends the recovery without its RESEND: in
cycle 4, with every consumer ready, the unit speculates again instead. -/
theorem abandoned_not_recovered : abandoned.Detects 1 ∧ ¬ abandoned.Recovery := by
  have detects : abandoned.Detects 1 := ⟨by decide, by decide⟩
  refine ⟨detects, fun recovery => ?_⟩
  have unresent : abandoned.Unresent 1 4 := by
    intro between after before
    have inside : between = 2 ∨ between = 3 := by omega
    rcases inside with rfl | rfl
    · exact (by decide : ¬ abandoned.issued 2 = some .resend)
    · exact (by decide : ¬ abandoned.issued 3 = some .resend)
  exact absurd (recovery.quiet 1 4 detects (by decide) unresent).1 (by decide)

end Run

end Dynamatic.Speculation.Speculator
