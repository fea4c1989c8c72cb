import Dynamatic.Speculation.Speculator

/-!
# Prediction accounting

Each prediction is answered once, by a pass or a kill, in the order in which the
predictions were made. `Ledger` is the abstract account of a speculator: the
predictions made, the answers given and the data tokens compared, with one
operation for each thing that may happen to it. The machine's registers stand
for the unanswered part of the ledger.
-/

namespace Dynamatic.Speculation.Speculator

open Dynamatic.Clocked Dynamatic.Handshake

/-- What has happened so far: the predictions made, the answers to them, and the
data tokens compared, each with the number of the prediction it was compared
with. -/
structure Ledger (α : Type) where
  predictions : List α
  answers : List Commit
  comparisons : List (Nat × α)

namespace Ledger

variable {α : Type} {ledger : Ledger α}

def predict (ledger : Ledger α) (prediction : α) : Ledger α :=
  { ledger with predictions := ledger.predictions ++ [prediction] }

/-- Compare a data token with the oldest unanswered prediction. -/
def compare (ledger : Ledger α) (data : α) : Ledger α :=
  { ledger with comparisons := ledger.comparisons ++ [(ledger.answers.length, data)] }

def answer (ledger : Ledger α) (commit : Commit) : Ledger α :=
  { ledger with answers := ledger.answers ++ [commit] }

/-- The predictions that wait for an answer. -/
def held (ledger : Ledger α) : List α := ledger.predictions.drop ledger.answers.length

/-- The account is in order. -/
structure Balanced (ledger : Ledger α) : Prop where
  /-- Only predictions that were made are answered. -/
  answered : ledger.answers.length ≤ ledger.predictions.length
  /-- Only predictions that were made are compared. -/
  compared : ∀ comparison ∈ ledger.comparisons, comparison.1 < ledger.predictions.length
  /-- Each prediction is compared with at most one data token. -/
  ordered : ledger.comparisons.Pairwise fun earlier later => earlier.1 < later.1
  /-- A prediction passes exactly when the data token compared with it equals it. -/
  verdict : ∀ number commit, ledger.answers[number]? = some commit →
    (commit = .pass ↔ ∃ prediction, ledger.predictions[number]? = some prediction ∧
      (number, prediction) ∈ ledger.comparisons)

/-- Every comparison is answered. -/
def Open (ledger : Ledger α) : Prop :=
  ∀ comparison ∈ ledger.comparisons, comparison.1 < ledger.answers.length

/-- A comparison that is not answered has refuted its prediction. -/
def Refuted (ledger : Ledger α) : Prop :=
  ∀ comparison ∈ ledger.comparisons, comparison.1 ≤ ledger.answers.length ∧
    (comparison.1 = ledger.answers.length →
      ledger.predictions[comparison.1]? ≠ some comparison.2)

theorem Open.refuted (isOpen : ledger.Open) : ledger.Refuted := fun comparison mem =>
  ⟨Nat.le_of_lt (isOpen comparison mem), fun same => absurd (isOpen comparison mem) (by omega)⟩

/-- With every prediction answered, so is every comparison. -/
theorem Balanced.open_of_answered (balanced : ledger.Balanced) (none : ledger.held = []) :
    ledger.Open := by
  intro comparison mem
  have made := balanced.compared comparison mem
  have all : ledger.predictions.length ≤ ledger.answers.length := List.drop_eq_nil_iff.mp none
  omega

section Predict

variable (prediction : α)

theorem Balanced.predict (balanced : ledger.Balanced) : (ledger.predict prediction).Balanced where
  answered := by
    have answered := balanced.answered
    simp only [Ledger.predict, List.length_append]
    omega
  compared comparison mem := by
    have made := balanced.compared comparison mem
    simp only [Ledger.predict, List.length_append]
    omega
  ordered := balanced.ordered
  verdict number commit isAnswer := by
    have bounded : number < ledger.predictions.length :=
      Nat.lt_of_lt_of_le (List.getElem?_eq_some_iff.mp isAnswer).1 balanced.answered
    have same : (ledger.predict prediction).predictions[number]? = ledger.predictions[number]? :=
      List.getElem?_append_left bounded
    rw [same]
    exact balanced.verdict number commit isAnswer

end Predict

section Compare

variable {data : α}

private theorem ordered_compare (balanced : ledger.Balanced) (isOpen : ledger.Open) :
    (ledger.compare data).comparisons.Pairwise fun earlier later => earlier.1 < later.1 := by
  refine List.pairwise_append.mpr ⟨balanced.ordered, List.pairwise_singleton _ _, ?_⟩
  intro comparison mem later isLast
  rw [List.mem_singleton.mp isLast]
  exact isOpen comparison mem

private theorem mem_compare {comparison : Nat × α} :
    comparison ∈ (ledger.compare data).comparisons ↔
      comparison ∈ ledger.comparisons ∨ comparison = (ledger.answers.length, data) := by
  simp [Ledger.compare]

theorem Balanced.compare (balanced : ledger.Balanced) (isOpen : ledger.Open)
    (made : ledger.answers.length < ledger.predictions.length) :
    (ledger.compare data).Balanced where
  answered := balanced.answered
  compared comparison mem := by
    rcases mem_compare.mp mem with mem | rfl
    · exact balanced.compared comparison mem
    · exact made
  ordered := ordered_compare balanced isOpen
  verdict number commit isAnswer := by
    have bounded := (List.getElem?_eq_some_iff.mp isAnswer).1
    rw [balanced.verdict number commit isAnswer]
    refine exists_congr fun prediction => and_congr_right fun _ => ?_
    rw [mem_compare]
    refine ⟨.inl, fun mem => mem.resolve_right fun new => ?_⟩
    have same : number = ledger.answers.length := congrArg Prod.fst new
    simp only [Ledger.compare] at bounded
    omega

/-- A data token that differs from the oldest prediction refutes it. -/
theorem Open.refute (isOpen : ledger.Open)
    (different : ledger.predictions[ledger.answers.length]? ≠ some data) :
    (ledger.compare data).Refuted := by
  intro comparison mem
  rcases mem_compare.mp mem with mem | rfl
  · exact isOpen.refuted comparison mem
  · exact ⟨Nat.le_refl _, fun _ => different⟩

end Compare

section Answer

private theorem getElem?_answer {commit : Commit} {number : Nat} {given : Commit}
    (isAnswer : (ledger.answer commit).answers[number]? = some given) :
    ledger.answers[number]? = some given ∨
      number = ledger.answers.length ∧ given = commit := by
  rw [Ledger.answer, List.getElem?_append] at isAnswer
  split at isAnswer
  · exact .inl isAnswer
  · rename_i beyond
    have last : number - ledger.answers.length = 0 := by
      have bounded := (List.getElem?_eq_some_iff.mp isAnswer).1
      simpa using bounded
    rw [last] at isAnswer
    exact .inr ⟨by omega, by simpa using isAnswer.symm⟩

/-- A prediction is answered by a pass when the token compared with it equals it,
and by a kill when none does. -/
theorem Balanced.answer {commit : Commit} (balanced : ledger.Balanced)
    (made : ledger.answers.length < ledger.predictions.length)
    (right : commit = .pass ↔
      ∃ prediction, ledger.predictions[ledger.answers.length]? = some prediction ∧
        (ledger.answers.length, prediction) ∈ ledger.comparisons) :
    (ledger.answer commit).Balanced where
  answered := by
    simp only [Ledger.answer, List.length_append, List.length_singleton]
    omega
  compared := balanced.compared
  ordered := balanced.ordered
  verdict number given isAnswer := by
    rcases getElem?_answer isAnswer with isAnswer | ⟨rfl, rfl⟩
    · exact balanced.verdict number given isAnswer
    · exact right

theorem Refuted.answer {commit : Commit} (refuted : ledger.Refuted) :
    (ledger.answer commit).Open := by
  intro comparison mem
  have bounded := (refuted comparison mem).1
  simp only [Ledger.answer, List.length_append, List.length_singleton]
  omega

/-- A killed prediction has not been compared with a token that equals it. -/
theorem Balanced.kill (balanced : ledger.Balanced) (refuted : ledger.Refuted)
    (made : ledger.answers.length < ledger.predictions.length) :
    (ledger.answer .kill).Balanced := by
  refine balanced.answer made ⟨nofun, ?_⟩
  rintro ⟨prediction, isMade, mem⟩
  exact absurd isMade ((refuted _ mem).2 rfl)

/-- A data token that equals the oldest prediction passes it. -/
theorem Balanced.confirm {data : α} (balanced : ledger.Balanced) (isOpen : ledger.Open)
    (same : ledger.predictions[ledger.answers.length]? = some data) :
    ((ledger.compare data).answer .pass).Balanced := by
  have made := (List.getElem?_eq_some_iff.mp same).1
  refine (balanced.compare isOpen made).answer made ⟨fun _ => ⟨data, same, ?_⟩, fun _ => rfl⟩
  exact mem_compare.mpr (.inr rfl)

theorem Open.confirm {data : α} (isOpen : ledger.Open) :
    ((ledger.compare data).answer .pass).Open := by
  intro comparison mem
  have length : ((ledger.compare data).answer .pass).answers.length = ledger.answers.length + 1 := by
    simp [Ledger.answer, Ledger.compare]
  rw [length]
  rcases mem_compare.mp mem with mem | rfl
  · exact Nat.lt_succ_of_lt (isOpen comparison mem)
  · exact Nat.lt_succ_self _

end Answer

end Ledger

variable {bitwidth : Nat}

namespace Run

section Streams

variable (run : Run bitwidth)

/-- The predictions issued before a cycle: the data sent with each DO_SPEC. -/
def predictions : Nat → List (BitVec bitwidth) :=
  transfers (fun cycle => decide (run.issued cycle = some .doSpec))
    (fun cycle => (run.outputAt cycle).outs)

/-- The tokens taken from `ctrl_commit` before a cycle. -/
def answers : Nat → List Commit :=
  transfers (fun cycle => (run.outputAt cycle).commitValid && (run.inputs cycle).commitReady)
    (fun cycle => (run.outputAt cycle).commit)

/-- A data token is taken to be compared with the head of the history. -/
def comparing (cycle : Nat) : Bool :=
  decide ((run.stateAt cycle).fsm = .idle) && !(run.stateAt cycle).predFifo.empty &&
    (run.taken cycle).isSome

/-- The data tokens compared before a cycle, each with the number of answers given
until then. -/
def comparisons : Nat → List (Nat × BitVec bitwidth) :=
  transfers run.comparing (fun cycle => ((run.answers cycle).length, (run.inputs cycle).ins))

def ledger (cycle : Nat) : Ledger (BitVec bitwidth) where
  predictions := run.predictions cycle
  answers := run.answers cycle
  comparisons := run.comparisons cycle

end Streams

variable {run : Run bitwidth} {cycle : Nat}

theorem issued_doSpec_iff :
    run.issued cycle = some .doSpec ↔
      fireDoSpec (run.stateAt cycle) (run.inputs cycle) = true := by
  rw [issued_eq]
  constructor
  · intro isIssued
    split at isIssued
    · cases isIssued
    · split at isIssued
      · cases isIssued
      · split at isIssued
        · assumption
        · cases isIssued
  · intro fired
    have unresent : fireResend (run.stateAt cycle) (run.inputs cycle) = false := by
      refine Bool.eq_false_iff.mpr fun resent => ?_
      rw [(kill_no_events _ (fsm_of_fireResend resent)).1] at fired
      cases fired
    simp [unresent, fireNoCmp_of_fireDoSpec fired, fired]

theorem predictions_succ :
    run.predictions (cycle + 1) = run.predictions cycle ++
      if fireDoSpec (run.stateAt cycle) (run.inputs cycle) then [(run.stateAt cycle).dataReg]
      else [] := by
  rw [predictions, transfers_succ]
  cases fired : fireDoSpec (run.stateAt cycle) (run.inputs cycle) with
  | true => simp [issued_doSpec_iff, fired, outs_of_fireDoSpec]
  | false => simp [issued_doSpec_iff, fired]

theorem answers_succ :
    run.answers (cycle + 1) = run.answers cycle ++
      if fireResolve (run.stateAt cycle) (run.inputs cycle) then [.pass]
      else if fireKill (run.stateAt cycle) (run.inputs cycle) then [.kill] else [] := by
  rw [answers, transfers_succ, (run.commit_eq cycle).1, (run.commit_eq cycle).2]
  cases resolved : fireResolve (run.stateAt cycle) (run.inputs cycle) with
  | true =>
      have idle := (fireResolve_iff.mp resolved).1
      have alive : (coreOutputs (run.stateAt cycle) (run.inputs cycle)).killValid = false := by
        cases misspec : misspecDetected (run.stateAt cycle) (run.inputs cycle) <;>
          simp [coreOutputs, idle, misspec]
      simp [alive]
  | false =>
      cases killed : fireKill (run.stateAt cycle) (run.inputs cycle) with
      | true =>
          have valid : (coreOutputs (run.stateAt cycle) (run.inputs cycle)).killValid = true := by
            rw [fireKill, Bool.and_eq_true] at killed
            exact killed.1
          simp [valid]
      | false => simp

/-- The history's pushes and pops are the ledger's predictions and answers. -/
theorem held_succ (balanced : (run.ledger cycle).Balanced)
    (popped : headEn (run.stateAt cycle) (run.inputs cycle) = true → (run.ledger cycle).held ≠ []) :
    (run.ledger (cycle + 1)).held =
      (if headEn (run.stateAt cycle) (run.inputs cycle) then (run.ledger cycle).held.tail
        else (run.ledger cycle).held) ++
      if tailEn (run.stateAt cycle) (run.inputs cycle) then [(run.stateAt cycle).dataReg]
      else [] := by
  have answered : (run.answers cycle).length ≤ (run.predictions cycle).length := balanced.answered
  have length : (run.answers (cycle + 1)).length = (run.answers cycle).length +
      (headEn (run.stateAt cycle) (run.inputs cycle)).toNat := by
    rw [answers_succ, headEn_eq]
    cases fireResolve (run.stateAt cycle) (run.inputs cycle) <;>
      cases fireKill (run.stateAt cycle) (run.inputs cycle) <;> simp
  have bounded : (run.answers (cycle + 1)).length ≤ (run.predictions cycle).length := by
    cases pops : headEn (run.stateAt cycle) (run.inputs cycle) with
    | false => simpa [length, pops] using answered
    | true =>
        have some : ¬ (run.predictions cycle).length ≤ (run.answers cycle).length := fun none =>
          popped pops (List.drop_eq_nil_iff.mpr none)
        simp only [length, pops, Bool.toNat_true]
        omega
  rw [Ledger.held, ledger, predictions_succ, ← tailEn_eq, List.drop_append_of_le_length bounded,
    length]
  cases headEn (run.stateAt cycle) (run.inputs cycle) <;> simp [Ledger.held, ledger]

/-- The invariant of the account: what the registers say about the ledger. -/
structure Accounts (run : Run bitwidth) (cycle : Nat) (state : State bitwidth) : Prop where
  forkOpen : state.transmitValue 0 = true
  balanced : (run.ledger cycle).Balanced
  refuted : (run.ledger cycle).Refuted
  settled : state.fsm ≠ .kill → (run.ledger cycle).Open
  history : state.predFifo.Holds run.depth (run.depth - 1) (run.ledger cycle).held

private theorem predict_if {ledger : Ledger (BitVec bitwidth)} (balanced : ledger.Balanced)
    (isOpen : ledger.Open) (made : Bool) (prediction : BitVec bitwidth) :
    (if made then ledger.predict prediction else ledger).Balanced ∧
      (if made then ledger.predict prediction else ledger).Open := by
  cases made with
  | true => exact ⟨balanced.predict prediction, isOpen⟩
  | false => exact ⟨balanced, isOpen⟩

section Cycle

variable (accounts : run.Accounts cycle (run.stateAt cycle))
include accounts

theorem dataInValid_eq :
    dataInValid (run.stateAt cycle) (run.inputs cycle) = (run.inputs cycle).insValid := by
  simp [dataInValid, accounts.forkOpen]

/-- The predictor is always ready, so the core's ready is the input's. -/
theorem insReady_eq : (run.outputAt cycle).insReady =
    (coreOutputs (run.stateAt cycle) (run.inputs cycle)).dataInReady := by
  simp [outputAt_eq, output, eagerForkReady, keepValue, dataSinks, Fin.forall_fin_two,
    accounts.forkOpen]

theorem held_ne_nil_iff :
    (run.ledger cycle).held ≠ [] ↔ predHistInValid (run.stateAt cycle) = true := by
  simp [predHistInValid, accounts.history.emptyEq]

/-- The head of the history is the oldest unanswered prediction. -/
theorem head_prediction (some : predHistInValid (run.stateAt cycle) = true) :
    (run.ledger cycle).predictions[(run.ledger cycle).answers.length]? =
      .some (predHistIn (run.stateAt cycle)) := by
  have head := accounts.history.head_eq ((held_ne_nil_iff accounts).mpr some)
  have first : (run.ledger cycle).held[0]? = .some (predHistIn (run.stateAt cycle)) := by
    rw [head]
    rfl
  simpa [Ledger.held] using first

theorem comparing_eq :
    run.comparing cycle = (fireResolve (run.stateAt cycle) (run.inputs cycle) ||
      decide ((run.stateAt cycle).fsm = .idle) &&
        misspecDetected (run.stateAt cycle) (run.inputs cycle)) := by
  have isTaken : (run.taken cycle).isSome = ((run.inputs cycle).insValid &&
      (coreOutputs (run.stateAt cycle) (run.inputs cycle)).dataInReady) := by
    rw [taken, insReady_eq accounts]
    split <;> simp_all
  rw [comparing, isTaken, fireResolve, ← dataInValid_eq accounts]
  cases fsm : (run.stateAt cycle).fsm with
  | idle =>
      cases valid : dataInValid (run.stateAt cycle) (run.inputs cycle) <;>
        cases empty : (run.stateAt cycle).predFifo.empty <;>
        by_cases same : (run.inputs cycle).ins = predHistIn (run.stateAt cycle) <;>
        simp [coreOutputs, fsm, misspecDetected, dataMatchesPrediction, dataBeforePrediction,
          predHistInValid, valid, empty, same]
  | kill => simp [coreOutputs, fsm]
  | killOnlyData => simp [coreOutputs, fsm]

theorem ledger_succ :
    run.ledger (cycle + 1) =
      { predictions := run.predictions cycle ++
          if fireDoSpec (run.stateAt cycle) (run.inputs cycle) then [(run.stateAt cycle).dataReg]
          else []
        answers := run.answers cycle ++
          if fireResolve (run.stateAt cycle) (run.inputs cycle) then [.pass]
          else if fireKill (run.stateAt cycle) (run.inputs cycle) then [.kill] else []
        comparisons := run.comparisons cycle ++
          if fireResolve (run.stateAt cycle) (run.inputs cycle) ||
              decide ((run.stateAt cycle).fsm = .idle) &&
                misspecDetected (run.stateAt cycle) (run.inputs cycle) then
            [((run.answers cycle).length, (run.inputs cycle).ins)]
          else [] } := by
  rw [ledger, predictions_succ, answers_succ, comparisons, transfers_succ, comparing_eq accounts]

/-- A refuted prediction starts the recovery: nothing else happens in its cycle. -/
theorem ledger_of_misspec (idle : (run.stateAt cycle).fsm = .idle)
    (misspec : misspecDetected (run.stateAt cycle) (run.inputs cycle) = true) :
    run.ledger (cycle + 1) = (run.ledger cycle).compare (run.inputs cycle).ins := by
  have core : coreOutputs (run.stateAt cycle) (run.inputs cycle) =
      { dataInReady := true, triggerReady := true } := by
    simp [coreOutputs, idle, misspec]
  rw [ledger_succ accounts]
  simp [fireDoSpec, fireResolve, fireKill, core, idle, misspec, Ledger.compare, ledger]

/-- While speculating, the oldest prediction may be confirmed and a new one made. -/
theorem ledger_of_speculating (idle : (run.stateAt cycle).fsm = .idle)
    (noMisspec : misspecDetected (run.stateAt cycle) (run.inputs cycle) = false) :
    let confirmed := if fireResolve (run.stateAt cycle) (run.inputs cycle) then
        ((run.ledger cycle).compare (run.inputs cycle).ins).answer .pass
      else run.ledger cycle
    run.ledger (cycle + 1) =
      if fireDoSpec (run.stateAt cycle) (run.inputs cycle) then
        confirmed.predict (run.stateAt cycle).dataReg
      else confirmed := by
  have alive : fireKill (run.stateAt cycle) (run.inputs cycle) = false := by
    simp [fireKill, coreOutputs, idle, noMisspec]
  rw [ledger_succ accounts]
  cases fireResolve (run.stateAt cycle) (run.inputs cycle) <;>
    cases fireDoSpec (run.stateAt cycle) (run.inputs cycle) <;>
    simp [alive, noMisspec, ledger, Ledger.predict, Ledger.compare, Ledger.answer]

/-- While recovering, predictions are only killed. -/
theorem ledger_of_killing (killing : (run.stateAt cycle).fsm = .kill) :
    run.ledger (cycle + 1) =
      if fireKill (run.stateAt cycle) (run.inputs cycle) then (run.ledger cycle).answer .kill
      else run.ledger cycle := by
  obtain ⟨noSpec, -, noResolve⟩ := kill_no_events (run.inputs cycle) killing
  rw [ledger_succ accounts]
  cases fireKill (run.stateAt cycle) (run.inputs cycle) <;>
    simp [killing, noSpec, noResolve, ledger, Ledger.answer]

/-- While stale data is dropped, predictions are only made. -/
theorem ledger_of_killOnlyData (dropping : (run.stateAt cycle).fsm = .killOnlyData) :
    run.ledger (cycle + 1) =
      if fireDoSpec (run.stateAt cycle) (run.inputs cycle) then
        (run.ledger cycle).predict (run.stateAt cycle).dataReg
      else run.ledger cycle := by
  have quiet : fireResolve (run.stateAt cycle) (run.inputs cycle) = false ∧
      fireKill (run.stateAt cycle) (run.inputs cycle) = false := by
    simp [fireResolve, fireKill, coreOutputs, dropping]
  rw [ledger_succ accounts]
  cases fireDoSpec (run.stateAt cycle) (run.inputs cycle) <;>
    simp [dropping, quiet, ledger, Ledger.predict]

/-- Every cycle keeps the ledger balanced; outside the kill state no comparison is
left unanswered. -/
theorem ledger_step :
    (run.ledger (cycle + 1)).Balanced ∧ (run.ledger (cycle + 1)).Refuted ∧
      (nextFsm (run.stateAt cycle) (run.inputs cycle) ≠ .kill →
        (run.ledger (cycle + 1)).Open) := by
  cases fsm : (run.stateAt cycle).fsm with
  | idle =>
      have isOpen := accounts.settled (by simp [fsm])
      cases misspec : misspecDetected (run.stateAt cycle) (run.inputs cycle) with
      | true =>
          simp only [misspecDetected, Bool.and_eq_true, decide_eq_true_eq] at misspec
          have head := head_prediction accounts misspec.1.2
          rw [ledger_of_misspec accounts fsm (by simp [misspecDetected, misspec])]
          refine ⟨accounts.balanced.compare isOpen (List.getElem?_eq_some_iff.mp head).1,
            isOpen.refute ?_, fun leaves => absurd ?_ leaves⟩
          · rw [head]
            exact fun same => misspec.2 (Option.some.inj same).symm
          · simp [nextFsm, fsm, misspecDetected, misspec]
      | false =>
          rw [ledger_of_speculating accounts fsm misspec]
          have confirmed : (if fireResolve (run.stateAt cycle) (run.inputs cycle) then
                ((run.ledger cycle).compare (run.inputs cycle).ins).answer .pass
              else run.ledger cycle).Balanced ∧
              (if fireResolve (run.stateAt cycle) (run.inputs cycle) then
                ((run.ledger cycle).compare (run.inputs cycle).ins).answer .pass
              else run.ledger cycle).Open := by
            cases resolved : fireResolve (run.stateAt cycle) (run.inputs cycle) with
            | true =>
                obtain ⟨-, matches', -⟩ := fireResolve_iff.mp resolved
                simp only [dataMatchesPrediction, Bool.and_eq_true, decide_eq_true_eq] at matches'
                refine ⟨accounts.balanced.confirm isOpen ?_, isOpen.confirm⟩
                rw [matches'.2]
                exact head_prediction accounts matches'.1.2
            | false => exact ⟨accounts.balanced, isOpen⟩
          obtain ⟨balanced, stillOpen⟩ := predict_if confirmed.1 confirmed.2
            (fireDoSpec (run.stateAt cycle) (run.inputs cycle)) (run.stateAt cycle).dataReg
          exact ⟨balanced, stillOpen.refuted, fun _ => stillOpen⟩
  | kill =>
      rw [ledger_of_killing accounts fsm]
      cases killed : fireKill (run.stateAt cycle) (run.inputs cycle) with
      | true =>
          have some : predHistInValid (run.stateAt cycle) = true := by
            simp [predHistInValid, (fsm_of_fireKill killed).2]
          have head := head_prediction accounts some
          have isOpen : ((run.ledger cycle).answer .kill).Open := accounts.refuted.answer
          exact ⟨accounts.balanced.kill accounts.refuted (List.getElem?_eq_some_iff.mp head).1,
            isOpen.refuted, fun _ => isOpen⟩
      | false =>
          refine ⟨accounts.balanced, accounts.refuted, fun leaves => ?_⟩
          -- The kill state is left only with an empty history.
          refine accounts.balanced.open_of_answered (not_ne_iff.mp fun some => leaves ?_)
          simp [nextFsm, fsm, readyToReSpeculate, (held_ne_nil_iff accounts).mp some]
  | killOnlyData =>
      rw [ledger_of_killOnlyData accounts fsm]
      have isOpen := accounts.settled (by simp [fsm])
      obtain ⟨balanced, stillOpen⟩ := predict_if accounts.balanced isOpen
        (fireDoSpec (run.stateAt cycle) (run.inputs cycle)) (run.stateAt cycle).dataReg
      exact ⟨balanced, stillOpen.refuted, fun _ => stillOpen⟩

/-- Every cycle keeps the account. -/
theorem accounts_next :
    run.Accounts (cycle + 1) (next (run.stateAt cycle) (run.inputs cycle) run.depth) := by
  obtain ⟨balanced, refuted, settled⟩ := ledger_step accounts
  have pops : headEn (run.stateAt cycle) (run.inputs cycle) = true →
      (run.ledger cycle).held ≠ [] := by
    intro popped
    simp only [headEn, Bool.and_eq_true] at popped
    exact (held_ne_nil_iff accounts).mpr popped.1
  refine ⟨?_, balanced, refuted, settled, ?_⟩
  · simp only [next, transmitNext]
    cases kept : keepValue ((run.stateAt cycle).transmitValue 0)
        (dataSinks (run.stateAt cycle) (run.inputs cycle) 0) with
    | true => rfl
    | false =>
        have ready : eagerForkReady (run.stateAt cycle).transmitValue
            (dataSinks (run.stateAt cycle) (run.inputs cycle)) = true :=
          decide_eq_true (Fin.forall_fin_two.mpr ⟨kept, by simp [keepValue, dataSinks]⟩)
        simp [ready]
  · rw [held_succ accounts.balanced pops]
    refine Fifo.holds_step accounts.history ?_ (by decide) ?_ pops
    · have deep := run.deep
      omega
    · intro pushed _
      simp only [tailEn, Bool.and_eq_true, Bool.not_eq_true', accounts.history.fullEq,
        decide_eq_false_iff_not] at pushed
      exact Nat.lt_of_le_of_ne accounts.history.fits pushed.1

end Cycle

/-- The account is kept throughout every run. -/
theorem accounts_stateAt (run : Run bitwidth) (cycle : Nat) :
    run.Accounts cycle (run.stateAt cycle) := by
  refine (machine bitwidth run.depth).invariant (fun cycle state => run.Accounts cycle state) ?_
    (fun cycle accounts => accounts_next accounts) cycle
  have deep := run.deep
  refine ⟨rfl, ⟨Nat.le_refl _, nofun, List.Pairwise.nil, nofun⟩, nofun, fun _ => nofun, ?_⟩
  exact Fifo.holds_reset _ (by omega) (by omega)

end Run

end Dynamatic.Speculation.Speculator
