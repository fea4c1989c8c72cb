import Dynamatic.Lsq.Loads

/-!
# Issuing loads

A load is issued once, either on a memory channel or by taking the data of a store.
What was issued on a channel becomes one read request, and each request is answered
at most once; so the data written to an entry are those of the load that has it, and
that load is still waiting for them.
-/

namespace Dynamatic.Lsq

open Dynamatic.Clocked

variable {configs : Configs}

namespace Cycle

variable {now : Cycle configs} {load left right channel : Nat}

theorem canLoad_of_canLoadList (listed : now.canLoadList channel load = true) :
    now.canLoad load = true := by
  induction channel with
  | zero => exact listed
  | succ channel inductionHypothesis =>
      rw [canLoadList, Bool.and_eq_true] at listed
      exact inductionHypothesis listed.2

theorem canLoad_of_loadIdxOh (chosen : now.loadIdxOh channel load = true) :
    load < configs.numLdqEntries ∧ now.canLoad load = true :=
  ⟨(cyclicPriorityMasking_le chosen).1,
    canLoad_of_canLoadList (cyclicPriorityMasking_le chosen).2⟩

/-- A channel's load is not left for the channels after it. -/
theorem loadIdxOh_of_canLoadList (before : left < right) (listed : now.canLoadList right load = true) :
    now.loadIdxOh left load = false := by
  induction right with
  | zero => exact absurd before (Nat.not_lt_zero _)
  | succ right inductionHypothesis =>
      rw [canLoadList, Bool.and_eq_true, Bool.not_eq_true'] at listed
      rcases Nat.eq_or_lt_of_le (Nat.le_of_lt_succ before) with rfl | earlier
      · exact listed.1
      · exact inductionHypothesis earlier listed.2

theorem loadIdxOh_channel_unique (onLeft : now.loadIdxOh left load = true)
    (onRight : now.loadIdxOh right load = true) : left = right := by
  rcases Nat.lt_trichotomy left right with before | rfl | after
  · rw [loadIdxOh_of_canLoadList before (cyclicPriorityMasking_le onRight).2] at onLeft
    cases onLeft
  · rfl
  · rw [loadIdxOh_of_canLoadList after (cyclicPriorityMasking_le onLeft).2] at onRight
    cases onRight

theorem ldqIssueSet_iff : now.ldqIssueSet load = true ↔ ∃ channel < configs.numLdMem,
    now.loadIdxOh channel load = true ∧ now.loadP1Ready channel = true ∨
      now.bypassEn load = true := by
  simp [ldqIssueSet]

/-- A load takes the data of the youngest conflicting store. -/
theorem bypassEn_iff : now.bypassEn load = true ↔ configs.bypass = true ∧
    ∃ store < configs.numStqEntries, now.bypassIdxOhP0 load store = true ∧
      now.state.ldqIssue load = false ∧ now.canBypassP0 load store = true := by
  simp [bypassEn, canBypass]

theorem readIdxOh_iff : now.readIdxOh load channel = true ↔
    now.input.rrespValid channel = true ∧ now.input.rrespId channel = load := by
  simp [readIdxOh]

/-- The youngest conflicting store conflicts. -/
theorem loadConflict_of_bypassIdxOhD {store : Nat} (chosen : now.bypassIdxOhD load store = true) :
    now.loadConflict load = true := by
  rw [bypassIdxOhD] at chosen
  cases on : configs.bypass with
  | false => simp [on] at chosen
  | true =>
      rw [on, if_pos rfl, cyclicPriorityMaskingReverse, Bool.and_eq_true, decide_eq_true_eq] at chosen
      obtain ⟨bounded, masked⟩ := chosen
      have conflicts := (cyclicPriorityMasking_le masked).2
      rw [loadConflict, reduceOr_eq_true]
      exact ⟨_, by omega, conflicts⟩

end Cycle

namespace Run

variable (run : Run configs)

/-- A load is issued in a cycle: on a memory channel, or with a store's data. -/
def IssuesBy (time : Nat) (way : Option Nat) (load : Nat) : Prop :=
  run.Occupies (time - configs.lag) load ∧
    match way with
    | none => (run.cycle time).bypassEn (load % configs.numLdqEntries) = true
    | some channel => channel < configs.numLdMem ∧
        (run.cycle time).loadIdxOh channel (load % configs.numLdqEntries) = true ∧
        (run.cycle time).loadP1Ready channel = true

/-- The request accepted on a channel is for what was issued on it in a cycle. -/
structure Forwards (issue time channel : Nat) : Prop where
  accepted : run.requests time channel = true
  stage : issue + configs.oneLag ≤ time
  enabled : (run.cycle issue).loadEn channel = true
  ready : (run.cycle issue).loadP1Ready channel = true
  same : (run.cycle time).loadIdxOhP1 channel = (run.cycle issue).loadIdxOh channel
  first : ∀ between, issue + configs.oneLag ≤ between → between < time →
    run.requests between channel = false

/-- The data of a load come in a cycle: from a store, or as the answer to its request. -/
def ServesBy (time : Nat) (way : Option Nat) (issue load : Nat) : Prop :=
  run.IssuesBy issue way load ∧
    match way with
    | none => time = issue + configs.oneLag
    | some channel => ∃ port, run.answers time port ∧ (run.request time port).2 = channel ∧
        run.Forwards issue (run.request time port).1 channel

/-- The memory answers the requests it has accepted, each at most once. -/
structure AnswersRequests : Prop where
  requested : ∀ time channel, run.answers time channel →
    (run.request time channel).1 ≤ time ∧ (run.request time channel).2 < configs.numLdMem ∧
    run.requests (run.request time channel).1 (run.request time channel).2 = true ∧
    (run.inputs time).rrespId channel =
      (run.cycle (run.request time channel).1).rreqId (run.request time channel).2
  once : ∀ time channel other otherChannel, run.answers time channel →
    run.answers other otherChannel →
    run.request time channel = run.request other otherChannel →
    time = other ∧ channel = otherChannel

variable {run} {time other issue channel load index : Nat} {way otherWay : Option Nat}

theorem AnswersReads.toRequests (reads : run.AnswersReads) : run.AnswersRequests :=
  ⟨reads.requested, reads.once⟩

section Decisions

/-- A decision to load was made on the queues as they were `lag` cycles back. -/
theorem canLoadP0_seen (ready : (run.cycle time).canLoadP0 index = true) :
    ∃ back, time = back + configs.lag ∧ (run.cycle back).state.ldqAlloc index = true ∧
      (run.cycle back).state.ldqAddrValid index = true ∧
      (run.cycle (back + configs.compLag)).loadConflict index = false := by
  rcases Nat.lt_or_ge time configs.zeroLag with early | decided
  · rw [(decides_early early).1] at ready
    cases ready
  · obtain ⟨checked, rfl⟩ := Nat.exists_eq_add_of_le' decided
    rw [canLoadP0_eq] at ready
    simp only [Cycle.canLoadD, Cycle.loadReqValid, Bool.and_eq_true, Bool.not_eq_true'] at ready
    obtain ⟨clear, alloc, addrValid⟩ := ready
    rcases Nat.lt_or_ge checked configs.compLag with early | compared
    · rw [(compares_early early _).1] at alloc
      cases alloc
    · obtain ⟨back, rfl⟩ := Nat.exists_eq_add_of_le' compared
      have compares := run.compares back
      rw [compares.ldqAlloc] at alloc
      rw [compares.ldqAddrValid] at addrValid
      exact ⟨back, Nat.add_assoc _ _ _, alloc, addrValid, clear⟩

/-- A decision to take a store's data was made on the queues as they were `lag` cycles
back. -/
theorem canBypassP0_seen {store : Nat} (ready : (run.cycle time).canBypassP0 index store = true) :
    ∃ back, time = back + configs.lag ∧ (run.cycle back).state.ldqAlloc index = true ∧
      (run.cycle back).state.ldqAddrValid index = true ∧
      (run.cycle back).state.stqAddrValid store = true ∧
      (run.cycle back).state.stqDataValid store = true ∧
      (run.cycle back).state.ldqAddr index = (run.cycle back).state.stqAddr store := by
  rcases Nat.lt_or_ge time configs.zeroLag with early | decided
  · rw [(decides_early early).2.1] at ready
    cases ready
  · obtain ⟨checked, rfl⟩ := Nat.exists_eq_add_of_le' decided
    rw [canBypassP0_eq] at ready
    simp only [Cycle.canBypassD, Cycle.addrValidPcomp, Bool.and_eq_true] at ready
    obtain ⟨⟨⟨alloc, dataValid⟩, addrSame⟩, loadValid, storeValid⟩ := ready
    rcases Nat.lt_or_ge checked configs.compLag with early | compared
    · rw [(compares_early early _).1] at alloc
      cases alloc
    · obtain ⟨back, rfl⟩ := Nat.exists_eq_add_of_le' compared
      have compares := run.compares back
      rw [compares.ldqAlloc] at alloc
      rw [compares.ldqAddrValid] at loadValid
      rw [compares.stqAddrValid] at storeValid
      rw [compares.stqDataValid] at dataValid
      rw [compares.addrSame, Cycle.addrSame, decide_eq_true_eq] at addrSame
      exact ⟨back, Nat.add_assoc _ _ _, alloc, loadValid, storeValid, dataValid, addrSame⟩

/-- The youngest conflicting store is the one found `zeroLag` cycles back. -/
theorem bypassIdxOhP0_lag (back : Nat) :
    (run.cycle (back + configs.lag)).bypassIdxOhP0 =
      (run.cycle (back + configs.compLag)).bypassIdxOhD := by
  rw [Configs.lag, ← Nat.add_assoc, run.bypassIdxOhP0_eq]

/-- The search for the oldest load starts at the head of `lag` cycles back. -/
theorem ldqHeadOhP0_lag (back : Nat) :
    (run.cycle (back + configs.lag)).ldqHeadOhP0 = bitsToOH (run.cycle back).state.ldqHead := by
  rw [Configs.lag, ← Nat.add_assoc, run.ldqHeadOhP0_eq, (run.compares back).ldqHeadOh]
  rfl

end Decisions

section Issue

variable (oneGroup : run.OneGroup)

include oneGroup

/-- What is issued is a load that was in the queue `lag` cycles back, with its address,
and was not issued before. -/
theorem IssuesBy.seen (issues : run.IssuesBy time way load) :
    configs.lag ≤ time ∧ run.LdLive (time - configs.lag) load ∧
      (run.cycle (time - configs.lag)).state.ldqAddrValid (load % configs.numLdqEntries) = true ∧
      ¬ run.LdIssued time load := by
  obtain ⟨occupies, by_⟩ := issues
  have decided : (run.cycle time).state.ldqIssue (load % configs.numLdqEntries) = false ∧
      ∃ back, time = back + configs.lag ∧
        (run.cycle back).state.ldqAlloc (load % configs.numLdqEntries) = true ∧
        (run.cycle back).state.ldqAddrValid (load % configs.numLdqEntries) = true := by
    cases way with
    | none =>
        obtain ⟨-, store, -, -, notIssued, ready⟩ := Cycle.bypassEn_iff.mp by_
        obtain ⟨back, equal, alloc, addrValid, -⟩ := canBypassP0_seen ready
        exact ⟨notIssued, back, equal, alloc, addrValid⟩
    | some channel =>
        obtain ⟨-, ready⟩ := Cycle.canLoad_of_loadIdxOh by_.2.1
        rw [Cycle.canLoad, Bool.and_eq_true, Bool.not_eq_true'] at ready
        obtain ⟨back, equal, alloc, addrValid, -⟩ := canLoadP0_seen ready.2
        exact ⟨ready.1, back, equal, alloc, addrValid⟩
  obtain ⟨notIssued, back, rfl, alloc, addrValid⟩ := decided
  have issue := ldqIssue_iff oneGroup occupies
  rw [Nat.add_sub_cancel] at occupies ⊢
  obtain ⟨there, live, same⟩ := exists_ldLive oneGroup (Nat.mod_lt _ configs.someLdq) alloc
  obtain rfl := (live.occupies oneGroup).eq occupies same
  refine ⟨Nat.le_add_left _ _, live, addrValid, fun issued => ?_⟩
  rw [issue.mpr issued] at notIssued
  cases notIssued

variable (channels : 0 < configs.numLdMem)

include channels

omit oneGroup in
theorem IssuesBy.ldIssued (issues : run.IssuesBy time way load) (before : time < other) :
    run.LdIssued other load := by
  obtain ⟨occupies, by_⟩ := issues
  refine ⟨time, before, occupies, Cycle.ldqIssueSet_iff.mpr ?_⟩
  cases way with
  | none => exact ⟨0, channels, .inr by_⟩
  | some channel => exact ⟨channel, by_.1, .inl by_.2⟩

omit oneGroup channels in
/-- A load that conflicts with no store does not take a store's data. -/
theorem not_issuesBy_both (chosen : run.IssuesBy time (some channel) load)
    (bypasses : run.IssuesBy time none load) : False := by
  obtain ⟨-, -, idx, -⟩ := chosen
  obtain ⟨-, ready⟩ := Cycle.canLoad_of_loadIdxOh idx
  rw [Cycle.canLoad, Bool.and_eq_true] at ready
  obtain ⟨back, rfl, -, -, clear⟩ := canLoadP0_seen ready.2
  obtain ⟨-, store, -, youngest, -, -⟩ := Cycle.bypassEn_iff.mp bypasses.2
  rw [bypassIdxOhP0_lag] at youngest
  rw [Cycle.loadConflict_of_bypassIdxOhD youngest] at clear
  cases clear

/-- A load is issued once, in one way. -/
theorem IssuesBy.unique (left : run.IssuesBy time way load)
    (right : run.IssuesBy other otherWay load) : time = other ∧ way = otherWay := by
  rcases Nat.lt_trichotomy time other with before | rfl | after
  · exact absurd (left.ldIssued channels before) (right.seen oneGroup).2.2.2
  · refine ⟨rfl, ?_⟩
    cases way with
    | none =>
        cases otherWay with
        | none => rfl
        | some channel => exact (not_issuesBy_both right left).elim
    | some channel =>
        cases otherWay with
        | none => exact (not_issuesBy_both left right).elim
        | some otherChannel =>
            rw [Cycle.loadIdxOh_channel_unique left.2.2.1 right.2.2.1]
  · exact absurd (right.ldIssued channels after) (left.seen oneGroup).2.2.2

end Issue

section Requests

/-- The memory stage holds what was issued to it until the memory accepts it. -/
theorem loadP1_holds (stage : configs.pipe1 = true)
    (holding : (run.cycle time).state.loadEnP1Q channel = true) :
    ∃ issue < time, (run.cycle issue).loadEn channel = true ∧
      (run.cycle issue).loadP1Ready channel = true ∧
      (run.cycle time).state.loadIdxOhP1Q channel = (run.cycle issue).loadIdxOh channel ∧
      ∀ between, issue < between → between < time → run.requests between channel = false := by
  induction time with
  | zero =>
      rw [state_zero, run.reset.loadEnP1Q] at holding
      cases holding
  | succ time inductionHypothesis =>
      rw [state_succ] at holding ⊢
      simp only [Cycle.next] at holding ⊢
      cases ready : (run.cycle time).loadP1Ready channel with
      | true =>
          rw [ready, if_pos rfl] at holding
          exact ⟨time, Nat.lt_succ_self _, holding, ready, by simp, fun between _ _ => by omega⟩
      | false =>
          rw [ready, if_neg (by simp)] at holding
          obtain ⟨issue, before, enabled, wasReady, same, quiet⟩ := inductionHypothesis holding
          refine ⟨issue, Nat.lt_succ_of_lt before, enabled, wasReady, by simpa using same,
            fun between after within => ?_⟩
          rcases Nat.eq_or_lt_of_le (Nat.le_of_lt_succ within) with rfl | earlier
          · rw [Cycle.loadP1Ready, if_pos stage, Bool.or_eq_false_iff] at ready
            rw [requests, Cycle.rreqValid]
            exact ready.1
          · exact quiet between after earlier

theorem exists_forwards (accepted : run.requests time channel = true) :
    ∃ issue, run.Forwards issue time channel := by
  have parts := accepted
  rw [requests, Cycle.rreqValid, Bool.and_eq_true] at parts
  obtain ⟨enabled, ready⟩ := parts
  cases stage : configs.pipe1 with
  | false =>
      rw [Cycle.loadEnP1, if_neg (by simp [stage])] at enabled
      refine ⟨time, accepted, ?_, enabled, ?_, ?_, fun between after before => ?_⟩
      · simp [Configs.oneLag, stage]
      · rw [Cycle.loadP1Ready, if_neg (by simp [stage]), enabled, Bool.and_true]
        exact ready
      · rw [Cycle.loadIdxOhP1, if_neg (by simp [stage])]
      · simp only [Configs.oneLag, stage, Bool.toNat_false] at after
        omega
  | true =>
      rw [Cycle.loadEnP1, if_pos stage] at enabled
      obtain ⟨issue, before, wasEnabled, wasReady, same, quiet⟩ := loadP1_holds stage enabled
      have oneLag : configs.oneLag = 1 := by simp [Configs.oneLag, stage]
      refine ⟨issue, accepted, by omega, wasEnabled, wasReady, ?_, fun between after within => ?_⟩
      · rw [Cycle.loadIdxOhP1, if_pos stage]
        exact same
      · exact quiet between (by omega) within

/-- What was issued is requested once. -/
theorem Forwards.unique (left : run.Forwards issue time channel)
    (right : run.Forwards issue other channel) : time = other := by
  rcases Nat.lt_trichotomy time other with before | rfl | after
  · have quiet := right.first time left.stage before
    rw [left.accepted] at quiet
    cases quiet
  · rfl
  · have quiet := left.first other right.stage after
    rw [right.accepted] at quiet
    cases quiet

variable (oneGroup : run.OneGroup)

include oneGroup

/-- A channel is given one load at a time. -/
theorem loadIdxOh_unique {left right : Nat} (onLeft : (run.cycle time).loadIdxOh channel left = true)
    (onRight : (run.cycle time).loadIdxOh channel right = true) : left = right := by
  obtain ⟨-, ready⟩ := Cycle.canLoad_of_loadIdxOh onLeft
  rw [Cycle.canLoad, Bool.and_eq_true] at ready
  obtain ⟨back, rfl, -⟩ := canLoadP0_seen ready.2
  obtain ⟨start, queue⟩ := loadQueue oneGroup back
  rw [Cycle.loadIdxOh, ldqHeadOhP0_lag, queue.head] at onLeft onRight
  exact cyclicPriorityMasking_unique onLeft onRight

/-- A request is for a load. -/
theorem Forwards.issuesBy (forwards : run.Forwards issue time channel)
    (bounded : channel < configs.numLdMem) :
    ∃ load, run.IssuesBy issue (some channel) load := by
  have enabled := forwards.enabled
  rw [Cycle.loadEn, reduceOr_eq_true] at enabled
  obtain ⟨index, inside, listed⟩ := enabled
  have ready := Cycle.canLoad_of_canLoadList listed
  rw [Cycle.canLoad, Bool.and_eq_true] at ready
  obtain ⟨back, rfl, -⟩ := canLoadP0_seen ready.2
  obtain ⟨start, queue⟩ := loadQueue oneGroup back
  obtain ⟨kept, keptInside, chosen⟩ := exists_cyclicPriorityMasking start inside listed
  rw [← queue.head, ← ldqHeadOhP0_lag] at chosen
  obtain ⟨-, keptReady⟩ := Cycle.canLoad_of_loadIdxOh chosen
  rw [Cycle.canLoad, Bool.and_eq_true] at keptReady
  obtain ⟨same, equal, alloc, -⟩ := canLoadP0_seen keptReady.2
  obtain rfl : same = back := by omega
  obtain ⟨load, live, rfl⟩ := exists_ldLive oneGroup keptInside alloc
  refine ⟨load, ?_, bounded, chosen, forwards.ready⟩
  rw [Nat.add_sub_cancel]
  exact live.occupies oneGroup

/-- A request names the entry of its load. -/
theorem Forwards.rreqId_eq (forwards : run.Forwards issue time channel)
    (issues : run.IssuesBy issue (some channel) load) :
    (run.cycle time).rreqId channel = load % configs.numLdqEntries := by
  have wide := (le_two_pow_log2Ceil configs.numLdqEntries).trans
    (Nat.pow_le_pow_right (by decide) configs.idFits)
  rw [Cycle.rreqId, forwards.same]
  exact ohToBits_of_unique (Nat.mod_lt _ configs.someLdq) wide issues.2.2.1
    fun other _ chosen => loadIdxOh_unique oneGroup chosen issues.2.2.1

end Requests

section Served

/-- A load gets its data once. -/
theorem ServesBy.unique (oneGroup : run.OneGroup) (channels : 0 < configs.numLdMem)
    (reads : run.AnswersRequests) {otherIssue : Nat} (left : run.ServesBy time way issue load)
    (right : run.ServesBy other otherWay otherIssue load) :
    time = other ∧ way = otherWay ∧ issue = otherIssue := by
  obtain ⟨leftIssues, leftCame⟩ := left
  obtain ⟨rightIssues, rightCame⟩ := right
  obtain ⟨rfl, rfl⟩ := leftIssues.unique oneGroup channels rightIssues
  refine ⟨?_, rfl, rfl⟩
  cases way with
  | none => exact leftCame.trans rightCame.symm
  | some channel =>
      obtain ⟨port, leftAnswers, leftChannel, leftForwards⟩ := leftCame
      obtain ⟨otherPort, rightAnswers, rightChannel, rightForwards⟩ := rightCame
      have sameTime := leftForwards.unique rightForwards
      exact (reads.once _ _ _ _ leftAnswers rightAnswers
        (Prod.ext sameTime (leftChannel.trans rightChannel.symm))).1

variable (oneGroup : run.OneGroup)

include oneGroup

/-- An answer is for a load's request and names its entry. -/
theorem exists_forwards_of_answers (reads : run.AnswersRequests) {port : Nat}
    (answers : run.answers time port) : ∃ load issue,
      (run.inputs time).rrespId port = load % configs.numLdqEntries ∧
      run.IssuesBy issue (some (run.request time port).2) load ∧
      run.Forwards issue (run.request time port).1 (run.request time port).2 := by
  obtain ⟨-, channelBounded, accepted, sameId⟩ := reads.requested time port answers
  obtain ⟨issue, forwards⟩ := exists_forwards accepted
  obtain ⟨load, issues⟩ := forwards.issuesBy oneGroup channelBounded
  exact ⟨load, issue, sameId.trans (forwards.rreqId_eq oneGroup issues), issues, forwards⟩

/-- Data are written to an entry only for a load that was issued. -/
theorem servesBy_of_ldqDataWen (reads : run.AnswersRequests)
    (written : (run.cycle time).ldqDataWen index = true) (bounded : index < configs.numLdqEntries) :
    ∃ load way issue, load % configs.numLdqEntries = index ∧ run.ServesBy time way issue load := by
  rw [Cycle.ldqDataWen, Bool.or_eq_true] at written
  rcases written with bypassed | answered
  · rcases Nat.lt_or_ge time configs.oneLag with early | late
    · rw [bypassEnP1_early early] at bypassed
      cases bypassed
    · obtain ⟨issue, rfl⟩ := Nat.exists_eq_add_of_le' late
      rw [bypassEnP1_eq] at bypassed
      have enabled := bypassed
      obtain ⟨-, store, -, -, -, ready⟩ := Cycle.bypassEn_iff.mp bypassed
      obtain ⟨back, rfl, alloc, -⟩ := canBypassP0_seen ready
      obtain ⟨load, live, rfl⟩ := exists_ldLive oneGroup bounded alloc
      refine ⟨load, none, _, rfl, ⟨?_, enabled⟩, rfl⟩
      rw [Nat.add_sub_cancel]
      exact live.occupies oneGroup
  · rw [Cycle.readValid, reduceOr_eq_true] at answered
    obtain ⟨port, portBounded, shown⟩ := answered
    rw [Cycle.readIdxOh_iff] at shown
    have answers : run.answers time port := ⟨portBounded, shown.1⟩
    obtain ⟨load, issue, sameId, issues, forwards⟩ := exists_forwards_of_answers oneGroup reads answers
    exact ⟨load, some _, issue, sameId.symm.trans shown.2, issues, port, answers, rfl, forwards⟩

theorem ServesBy.ldqDataWen (reads : run.AnswersRequests)
    (serves : run.ServesBy time way issue load) :
    (run.cycle time).ldqDataWen (load % configs.numLdqEntries) = true := by
  obtain ⟨issues, came⟩ := serves
  rw [Cycle.ldqDataWen, Bool.or_eq_true]
  cases way with
  | none =>
      subst came
      rw [bypassEnP1_eq]
      exact .inl issues.2
  | some channel =>
      obtain ⟨port, answers, rfl, forwards⟩ := came
      obtain ⟨-, -, -, sameId⟩ := reads.requested time port answers
      rw [Cycle.readValid, reduceOr_eq_true]
      refine .inr ⟨port, answers.1, ?_⟩
      exact Cycle.readIdxOh_iff.mpr
        ⟨answers.2, sameId.trans (forwards.rreqId_eq oneGroup issues)⟩

omit oneGroup in
/-- Data come after they were asked for. -/
theorem ServesBy.issue_le (reads : run.AnswersRequests)
    (serves : run.ServesBy time way issue load) : issue ≤ time := by
  obtain ⟨issues, came⟩ := serves
  cases way with
  | none => exact came ▸ Nat.le_add_right _ _
  | some channel =>
      obtain ⟨port, answers, rfl, forwards⟩ := came
      have requested := (reads.requested time port answers).1
      have stage := forwards.stage
      omega

variable (channels : 0 < configs.numLdMem) (reads : run.AnswersRequests)

include channels reads

/-- Data come to a load that is in the queue and waits for them. -/
theorem ServesBy.waiting (serves : run.ServesBy time way issue load) :
    run.LdLive time load ∧ ¬ run.LdReceived time load := by
  induction time using Nat.strong_induction_on generalizing way issue load with
  | _ time inductionHypothesis =>
      have notReceived : ¬ run.LdReceived time load := by
        rintro ⟨earlier, before, occupies, written⟩
        obtain ⟨there, thereWay, thereIssue, same, thereServes⟩ :=
          servesBy_of_ldqDataWen oneGroup reads written (Nat.mod_lt _ configs.someLdq)
        have live := (inductionHypothesis earlier before thereServes).1
        obtain rfl := (live.occupies oneGroup).eq occupies same
        have sameTime := (thereServes.unique oneGroup channels reads serves).1
        omega
      refine ⟨?_, notReceived⟩
      by_contra gone
      have ordered := serves.issue_le reads
      have there := (serves.1.seen oneGroup).2.1.occupies oneGroup
      refine notReceived (ldReceived_of_not_ldLive oneGroup ?_ gone)
      exact there.1.trans_le (run.numLoads_mono (by omega))

/-- A load has received its data if they have come. -/
theorem ldReceived_iff :
    run.LdReceived time load ↔ ∃ earlier < time, ∃ way issue, run.ServesBy earlier way issue load := by
  constructor
  · rintro ⟨earlier, before, occupies, written⟩
    obtain ⟨there, way, issue, same, serves⟩ :=
      servesBy_of_ldqDataWen oneGroup reads written (Nat.mod_lt _ configs.someLdq)
    have live := (serves.waiting oneGroup channels reads).1
    obtain rfl := (live.occupies oneGroup).eq occupies same
    exact ⟨earlier, before, way, issue, serves⟩
  · rintro ⟨earlier, before, way, issue, serves⟩
    have live := (serves.waiting oneGroup channels reads).1
    exact ⟨earlier, before, live.occupies oneGroup, serves.ldqDataWen oneGroup reads⟩

end Served

end Run

end Dynamatic.Lsq
