import Dynamatic.Lsq.Forwarding
import Dynamatic.Lsq.Progress

/-!
# Sequential consistency of the loads

The data register of an entry holds what its load reads when the accesses execute one
after another, from the cycle in which the data come. A load port gives the data of
its loads in order, each as its load leaves the queue.
-/

namespace Dynamatic.Lsq

open Dynamatic.Clocked

variable {configs : Configs}

namespace Run

variable (run : Run configs)

/-- The data tokens given on a load port before a cycle. -/
def ldDataCount (time port : Nat) : Nat := (run.ldDataTokens port time).length

/-- The loads left are those whose data were not given yet. -/
structure LoadsGiven (time : Nat) : Prop where
  remaining : ∀ load, run.LdLive time load ↔
    load < run.numLoads time ∧ run.ldDataCount time (run.ldPort load) ≤ rank run.ldPort load
  total : ∀ port < configs.numLdPorts, run.ldDataCount time port ≤
    Nat.count (fun load => run.ldPort load = port) (run.numLoads time)

variable {run} {time load issue port : Nat} {way : Option Nat}

theorem PerformsWrites.answersWrites (performs : run.PerformsWrites) : run.AnswersWrites :=
  fun time => (performs.responded time).trans (performs.accepted time)

section Data

variable (oneGroup : run.OneGroup) (channels : 0 < configs.numLdMem)

include oneGroup channels

/-- At most one answer of a cycle is for a load. -/
theorem readIdxOh_eq_false_of_ne (reads : run.AnswersRequests) (serves : run.ServesBy time way issue load)
    {port : Nat} (bounded : port < configs.numLdMem)
    (other : ∀ channel, way = some channel → run.answers time port →
      ¬ ((run.request time port).2 = channel ∧
        run.Forwards issue (run.request time port).1 channel)) :
    (run.cycle time).readIdxOh (load % configs.numLdqEntries) port = false := by
  refine Bool.eq_false_iff.mpr fun shown => ?_
  rw [Cycle.readIdxOh_iff] at shown
  have answers : run.answers time port := ⟨bounded, shown.1⟩
  obtain ⟨there, thereIssue, sameId, issues, forwards⟩ :=
    exists_forwards_of_answers oneGroup reads answers
  have live := (serves.waiting oneGroup channels reads).1
  have thereServes : run.ServesBy time (some _) thereIssue there :=
    ⟨issues, port, answers, rfl, forwards⟩
  have thereLive := (thereServes.waiting oneGroup channels reads).1
  obtain rfl := (live.occupies oneGroup).eq (thereLive.occupies oneGroup) (shown.2.symm.trans sameId)
  obtain ⟨rfl, sameWay⟩ := serves.1.unique oneGroup channels issues
  exact other _ sameWay answers ⟨rfl, forwards⟩

variable (delivers : run.Delivers) (performs : run.PerformsWrites) (words : run.AnswersReads)
  (off : configs.stResp = false)

include delivers performs words off

/-- What is written to an entry is what its load reads in program order. -/
theorem ServesBy.data_eq (serves : run.ServesBy time way issue load) :
    (run.cycle time).readData (load % configs.numLdqEntries) |||
        (run.cycle time).bypassData (load % configs.numLdqEntries) =
      run.ldDataOf load := by
  have reads := words.toRequests
  have writes := performs.answersWrites
  have waiting := serves.waiting oneGroup channels reads
  cases way with
  | none =>
      have noAnswer : (run.cycle time).readData (load % configs.numLdqEntries) = 0 :=
        mux1H_of_none fun port bounded => readIdxOh_eq_false_of_ne oneGroup channels reads serves
          bounded fun channel none => by cases none
      obtain ⟨issues, rfl⟩ := serves
      rw [noAnswer, bypassData_eq oneGroup channels delivers writes reads off issues]
      exact BitVec.zero_or
  | some channel =>
      obtain ⟨issues, port, answers, rfl, forwards⟩ := id serves
      have stage := forwards.stage
      have ordered := (reads.requested time port answers).1
      have answered : (run.cycle time).readData (load % configs.numLdqEntries) =
          (run.inputs time).rrespData port := by
        refine mux1H_of_unique answers.1 ?_ fun other bounded chosen => ?_
        · obtain ⟨-, -, -, sameId⟩ := reads.requested time port answers
          exact Cycle.readIdxOh_iff.mpr
            ⟨answers.2, sameId.trans (forwards.rreqId_eq oneGroup issues)⟩
        · by_contra differs
          have silent := readIdxOh_eq_false_of_ne oneGroup channels reads serves bounded
            fun channel same otherAnswers otherForwards => by
              cases same
              obtain ⟨sameChannel, otherForwards⟩ := otherForwards
              have sameTime := otherForwards.unique forwards
              exact differs (reads.once _ _ _ _ otherAnswers answers
                (Prod.ext sameTime sameChannel)).2
          rw [silent] at chosen
          cases chosen
      rw [answered, bypassData_of_channel oneGroup channels delivers writes reads off issues
        (by omega) waiting.1]
      exact BitVec.or_zero.trans (word_eq oneGroup channels delivers writes reads off performs words
        answers forwards issues waiting)

/-- An entry holds its load's data from when they came. -/
theorem ldqData_eq (occupies : run.Occupies time load) (received : run.LdReceived time load) :
    (run.cycle time).state.ldqData (load % configs.numLdqEntries) = run.ldDataOf load := by
  have reads := words.toRequests
  induction time with
  | zero => exact absurd occupies.1 (Nat.not_lt_zero _)
  | succ time inductionHypothesis =>
      rw [state_succ]
      simp only [Cycle.next]
      have there : load < run.numLoads time := by
        rcases ldReceived_succ.mp received with already | ⟨wasThere, -⟩
        · exact already.allocated
        · exact wasThere.1
      have was := occupies.earlier (Nat.le_succ _) there
      cases written : (run.cycle time).ldqDataWen (load % configs.numLdqEntries) with
      | true =>
          obtain ⟨other, way, issue, same, serves⟩ :=
            servesBy_of_ldqDataWen oneGroup reads written (Nat.mod_lt _ configs.someLdq)
          have live := (serves.waiting oneGroup channels reads).1
          obtain rfl := (live.occupies oneGroup).eq was same
          rw [if_pos rfl]
          exact serves.data_eq oneGroup channels delivers performs words off
      | false =>
          rw [if_neg (by simp)]
          refine inductionHypothesis was ((ldReceived_succ.mp received).resolve_right fun now => ?_)
          rw [written] at now
          cases now.2

end Data

section Given

theorem ldDataCount_succ (port : Nat) : run.ldDataCount (time + 1) port =
    run.ldDataCount time port +
      ((run.cycle time).ldd.portValid port && (run.inputs time).ldpDataReady port).toNat :=
  length_transfers_succ time

variable (oneGroup : run.OneGroup)

include oneGroup

theorem serves_ldd (time : Nat) : ∃ start,
    (run.cycle time).ldd.Serves run.ldPort (run.LdLive time) start (run.numLoads time) := by
  obtain ⟨start, serves⟩ := serves_lda oneGroup time
  exact ⟨start, serves.ring, serves.headOh, serves.ports⟩

theorem loadsGiven (time : Nat) : run.LoadsGiven time := by
  induction time with
  | zero =>
      refine ⟨fun load => ⟨False.elim, fun inside => absurd inside.1 (Nat.not_lt_zero _)⟩,
        fun port _ => Nat.zero_le _⟩
  | succ time inductionHypothesis =>
      obtain ⟨remaining, total⟩ := inductionHypothesis
      obtain ⟨start, serves⟩ := serves_ldd oneGroup time
      have grows := run.numLoads_mono (Nat.le_add_right time 1)
      have noMore : ∀ port < configs.numLdPorts, run.ldDataCount (time + 1) port ≤
          Nat.count (fun load => run.ldPort load = port) (run.numLoads time) := by
        intro port bounded
        rw [ldDataCount_succ]
        cases fires : (run.cycle time).ldd.portValid port && (run.inputs time).ldpDataReady port with
        | false => exact total port bounded
        | true =>
            have valid := (Bool.and_eq_true_iff.mp fires).1
            obtain ⟨load, live, rfl, turn, -⟩ :=
              (Entries.portValid_iff serves remaining bounded).mp valid
            rw [← turn]
            exact rank_lt_count ((remaining load).mp live).1
      refine ⟨fun load => ?_, fun port bounded => (noMore port bounded).trans
        (Nat.count_monotone _ grows)⟩
      rw [LdLive]
      constructor
      · rintro (⟨new, inside⟩ | ⟨live, kept⟩)
        · refine ⟨inside, (noMore _ (ldPort_lt oneGroup inside)).trans ?_⟩
          exact Nat.count_monotone _ new
        · refine ⟨((remaining load).mp live).1.trans_le grows, ?_⟩
          exact (Entries.remaining_step serves remaining live fun port _ => ldDataCount_succ port).mp kept
      · rintro ⟨inside, left⟩
        rcases Nat.lt_or_ge load (run.numLoads time) with old | new
        · have live : run.LdLive time load := by
            refine (remaining load).mpr ⟨old, ?_⟩
            rw [ldDataCount_succ] at left
            omega
          exact .inr ⟨live, (Entries.remaining_step serves remaining live
            fun port _ => ldDataCount_succ port).mpr left⟩
        · exact .inl ⟨new, inside⟩

variable (channels : 0 < configs.numLdMem) (delivers : run.Delivers)
  (performs : run.PerformsWrites) (words : run.AnswersReads) (off : configs.stResp = false)

include channels delivers performs words off

/-- The k-th token of a port has the data of its k-th load. -/
theorem getElem?_ldDataTokens (there : load < run.numLoads time)
    (given : rank run.ldPort load < run.ldDataCount time (run.ldPort load)) :
    (run.ldDataTokens (run.ldPort load) time)[rank run.ldPort load]? = some (run.ldDataOf load) := by
  induction time with
  | zero => exact absurd there (Nat.not_lt_zero _)
  | succ time inductionHypothesis =>
      obtain ⟨start, serves⟩ := serves_ldd oneGroup time
      obtain ⟨remaining, total⟩ := loadsGiven oneGroup time
      have bounded := ldPort_lt oneGroup there
      rw [ldDataCount_succ] at given
      rcases Nat.lt_or_ge (rank run.ldPort load) (run.ldDataCount time (run.ldPort load)) with
        already | now
      · have old : load < run.numLoads time := by
          by_contra new
          have counts := Nat.count_monotone (fun other => run.ldPort other = run.ldPort load)
            (Nat.le_of_not_lt new)
          have most := total _ bounded
          rw [rank] at already
          omega
        exact getElem?_transfers_of_le (Nat.le_succ _) (inductionHypothesis old already)
      · cases fires : (run.cycle time).ldd.portValid (run.ldPort load) &&
            (run.inputs time).ldpDataReady (run.ldPort load) with
        | false =>
            rw [fires, Bool.toNat_false] at given
            omega
        | true =>
            rw [fires, Bool.toNat_true] at given
            have turn : rank run.ldPort load = run.ldDataCount time (run.ldPort load) := by omega
            have valid := (Bool.and_eq_true_iff.mp fires).1
            obtain ⟨other, live, same, otherTurn, dataValid⟩ :=
              (Entries.portValid_iff serves remaining bounded).mp valid
            obtain rfl := rank_inj same (otherTurn.trans turn.symm)
            have occupies := live.occupies oneGroup
            have received := (ldqDataValid_iff oneGroup occupies).mp dataValid
            rw [ldDataTokens, getElem?_transfers_succ, if_pos ⟨turn, fires⟩,
              Entries.portPayload_eq serves remaining live turn]
            exact congrArg some
              (ldqData_eq oneGroup channels delivers performs words off occupies received)

omit channels delivers performs words off in
/-- The k-th load of a port in program order. -/
theorem getElem?_sequential (there : load < run.numLoads time) :
    (run.sequential (run.ldPort load) time)[rank run.ldPort load]? = some (run.ldDataOf load) := by
  have each : ∀ index < run.numLoads time,
      (run.loads time)[index]? = some (eventual run.loads index) := fun index before =>
    getElem?_eq_eventual loads_grows before
  have counted : ((run.loads time).take load).countP (fun entry => decide (entry.port = run.ldPort load)) =
      rank run.ldPort load := by
    rw [countP_take fun index before => each index (before.trans there), rank]
    simp only [decide_eq_true_eq]
    rfl
  have kept : ((run.loads time).filter fun entry => decide (entry.port = run.ldPort load))[
      rank run.ldPort load]? = some (eventual run.loads load) := by
    rw [← counted]
    exact getElem?_filter_countP (each load there) (decide_eq_true rfl)
  have order := before_le oneGroup there
  rw [sequential, List.getElem?_mapIdx, kept, Option.map_some, program_stores, ← List.map_take,
    List.take_range, ← before, Nat.min_eq_left order]
  rfl

end Given

/-- Loads are sequentially consistent: the tokens given on a load port are what its loads
read when all accesses allocated so far execute one after another. The generator fails for
a memory without load channels. -/
theorem ldDataTokens_sequential (off : configs.stResp = false) (channels : 0 < configs.numLdMem)
    (oneGroup : run.OneGroup) (delivers : run.Delivers) (performs : run.PerformsWrites)
    (reads : run.AnswersReads) (time : Nat) {port : Nat} (bounded : port < configs.numLdPorts) :
    run.ldDataTokens port time <+: run.sequential port time := by
  rw [List.prefix_iff_getElem?]
  intro index inside
  have total := (loadsGiven oneGroup time).total port bounded
  obtain ⟨load, there, rfl, turn⟩ := exists_rank (Nat.lt_of_lt_of_le inside total)
  subst turn
  have token := getElem?_ldDataTokens oneGroup channels delivers performs reads off there inside
  rw [getElem?_sequential oneGroup there, ← token, List.getElem?_eq_getElem inside]

theorem forwarded_performsWrites : forwarded.PerformsWrites := by
  have performed : ∀ time, forwarded.performed time = if time ≤ 2 then 0 else 1 := fun _ => rfl
  refine ⟨fun time => ?_, fun time => ?_, fun time => ?_⟩
  · rw [performed, performed]
    split <;> split <;> omega
  · rw [performed]
    split
    · exact Nat.zero_le _
    · have written : (forwarded.writes 3).length = 1 := by decide +kernel
      rw [← written]
      exact length_transfers_mono (by omega)
  · have answered := responded_of_once (fun time => (rfl : (forwarded.inputs time).wrespValid = _)) time
    rw [responded] at answered
    rw [answered, performed]
    split <;> split <;> omega

theorem forwarded_answersReads : forwarded.AnswersReads :=
  ⟨forwarded_answersRequests.requested, forwarded_answersRequests.once,
    fun _ _ answers => absurd answers.2 (by simp [forwarded])⟩

theorem ldDataTokens_sequential_forwarded :
    (∀ time, forwarded.ldDataTokens 0 time <+: forwarded.sequential 0 time) ∧
      forwarded.ldDataTokens 0 4 = [1] :=
  ⟨fun time => ldDataTokens_sequential rfl (by decide) forwarded_oneGroup forwarded_delivers
    forwarded_performsWrites forwarded_answersReads time (by decide), by decide +kernel⟩

end Run

end Dynamatic.Lsq
