import Dynamatic.Clocked.Eventually
import Dynamatic.Lsq.Writes

/-!
# Progress of the stores

If the kernel gives the ports the tokens they wait for and the memory takes and
answers its requests, every store is written at last. A store waits for the older
loads and a load for the older stores, so the stores are followed in program order;
of the loads that may be issued the oldest goes first.
-/

namespace Dynamatic.Lsq

open Dynamatic.Clocked

variable {configs : Configs}

namespace Run

variable (run : Run configs)

/-- The ports get the tokens they wait for, and the memory takes the requests it is shown
and answers those it took. -/
structure Fair : Prop where
  ldAddr : ∀ time, ∀ port < configs.numLdPorts, (run.cycle time).lda.portReady port = true →
    ∃ later ≥ time, (run.inputs later).ldpAddrValid port = true
  stAddr : ∀ time, ∀ port < configs.numStPorts, (run.cycle time).sta.portReady port = true →
    ∃ later ≥ time, (run.inputs later).stpAddrValid port = true
  stData : ∀ time, ∀ port < configs.numStPorts, (run.cycle time).std.portReady port = true →
    ∃ later ≥ time, (run.inputs later).stpDataValid port = true
  rreqReady : ∀ time, ∀ channel < configs.numLdMem, (run.cycle time).rreqValid channel = true →
    ∃ later ≥ time, (run.inputs later).rreqReady channel = true
  wreqReady : ∀ time, (run.cycle time).wreqValid = true →
    ∃ later ≥ time, (run.inputs later).wreqReady = true
  rresp : ∀ time, ∀ channel < configs.numLdMem, run.requests time channel = true →
    ∃ later port, run.answers later port ∧ run.request later port = (time, channel)
  wresp : ∀ time, ∃ later, run.accepted time ≤ run.responded later

variable {run} {time early late load store issue channel : Nat}

section Tokens

variable (oneGroup : run.OneGroup) (channels : 0 < configs.numLdMem) (delivers : run.Delivers)
  (writes : run.AnswersWrites) (reads : run.AnswersRequests) (off : configs.stResp = false)
  (fair : run.Fair)

include oneGroup delivers fair

theorem exists_ldAddrKnown (channels : 0 < configs.numLdMem) (reads : run.AnswersRequests)
    (there : load < run.numLoads time) : ∃ later, run.LdAddrKnown later load := by
  have bounded := ldPort_lt oneGroup there
  refine exists_taken (fun time => ldAddrCount_succ (run.ldPort load)) (fun time => ?_)
    (fun ordered => Nat.count_monotone (fun other => run.ldPort other = run.ldPort load)
      (run.numLoads_mono ordered))
    (fun time => fair.ldAddr time _ bounded) (rank_lt_count there)
  obtain ⟨start, serves⟩ := serves_lda oneGroup time
  exact Entries.portReady_eq serves
    (ldDelivery oneGroup channels delivers reads time).delivered bounded

include writes off

theorem exists_stAddrKnown (there : store < run.numStores time) :
    ∃ later, run.StAddrKnown later store := by
  have holds := storesHold off oneGroup delivers writes
  have bounded := (holds time).ports store there
  refine exists_taken (fun time => stAddrCount_succ (run.stPort store)) (fun time => ?_)
    (fun ordered => Nat.count_monotone (fun other => run.stPort other = run.stPort store)
      (run.numStores_mono ordered))
    (fun time => fair.stAddr time _ bounded) (rank_lt_count there)
  exact Entries.portReady_eq (holds time).serves_sta (holds time).addr.delivered bounded

theorem exists_stDataKnown (there : store < run.numStores time) :
    ∃ later, run.StDataKnown later store := by
  have holds := storesHold off oneGroup delivers writes
  have bounded := (holds time).ports store there
  refine exists_taken (fun time => stDataCount_succ (run.stPort store)) (fun time => ?_)
    (fun ordered => Nat.count_monotone (fun other => run.stPort other = run.stPort store)
      (run.numStores_mono ordered))
    (fun time => fair.stData time _ bounded) (rank_lt_count there)
  exact Entries.portReady_eq (holds time).serves_std (holds time).data.delivered bounded

end Tokens

section Received

theorem LdIssued.mono (issued : run.LdIssued early load) (ordered : early ≤ late) :
    run.LdIssued late load := by
  obtain ⟨earlier, before, there⟩ := issued
  exact ⟨earlier, before.trans_le ordered, there⟩

theorem LdIssued.exists_issuesBy (issued : run.LdIssued time load) :
    ∃ issue < time, ∃ way, run.IssuesBy issue way load := by
  obtain ⟨issue, before, occupies, set⟩ := issued
  obtain ⟨channel, bounded, ⟨chosen, ready⟩ | bypasses⟩ := Cycle.ldqIssueSet_iff.mp set
  · exact ⟨issue, before, some channel, occupies, bounded, chosen, ready⟩
  · exact ⟨issue, before, none, occupies, bypasses⟩

/-- What was issued on a channel is requested at last. -/
theorem IssuesBy.exists_forwards (fair : run.Fair)
    (issues : run.IssuesBy issue (some channel) load) : ∃ time, run.Forwards issue time channel := by
  obtain ⟨-, bounded, chosen, ready⟩ := issues
  have enabled : (run.cycle issue).loadEn channel = true := by
    have listed := cyclicPriorityMasking_le chosen
    rw [Cycle.loadEn, reduceOr_eq_true]
    exact ⟨_, listed⟩
  cases stage : configs.pipe1 with
  | false =>
      have accepts := ready
      rw [Cycle.loadP1Ready, if_neg (by simp [stage]), Bool.and_eq_true] at accepts
      refine ⟨issue, ?_, ?_, enabled, ready, ?_, fun between after before => ?_⟩
      · rw [requests, Cycle.rreqValid, Cycle.loadEnP1, if_neg (by simp [stage]), enabled,
          Bool.true_and]
        exact accepts.1
      · simp [Configs.oneLag, stage]
      · rw [Cycle.loadIdxOhP1, if_neg (by simp [stage])]
      · simp only [Configs.oneLag, stage, Bool.toNat_false] at after
        omega
  | true =>
      have oneLag : configs.oneLag = 1 := by simp [Configs.oneLag, stage]
      have enters : (run.cycle (issue + 1)).state.loadEnP1Q channel = true ∧
          (run.cycle (issue + 1)).state.loadIdxOhP1Q channel = (run.cycle issue).loadIdxOh channel := by
        rw [state_succ]
        simp [Cycle.next, ready, enabled]
      -- The stage keeps it as long as the memory is not ready.
      have stays : ∀ waited, (∀ between, issue < between → between < issue + 1 + waited →
            (run.inputs between).rreqReady channel = false) →
          (run.cycle (issue + 1 + waited)).state.loadEnP1Q channel = true ∧
            (run.cycle (issue + 1 + waited)).state.loadIdxOhP1Q channel =
              (run.cycle issue).loadIdxOh channel := by
        intro waited
        induction waited with
        | zero => exact fun _ => enters
        | succ waited inductionHypothesis =>
            intro unready
            obtain ⟨holding, same⟩ := inductionHypothesis fun between after before =>
              unready between after (by omega)
            have busy : (run.cycle (issue + 1 + waited)).loadP1Ready channel = false := by
              have notReady := unready (issue + 1 + waited) (by omega) (by omega)
              rw [Cycle.loadP1Ready, if_pos stage, Cycle.loadEnP1, if_pos stage, holding,
                input_cycle, notReady]
              rfl
            rw [← Nat.add_assoc, state_succ]
            simp [Cycle.next, busy, holding, same]
      have shown : (run.cycle (issue + 1)).rreqValid channel = true := by
        rw [Cycle.rreqValid, Cycle.loadEnP1, if_pos stage]
        exact enters.1
      have some : ∃ waited, (run.inputs (issue + 1 + waited)).rreqReady channel = true := by
        obtain ⟨later, after, taken⟩ := fair.rreqReady _ channel bounded shown
        exact ⟨later - (issue + 1), by rwa [Nat.add_sub_cancel' after]⟩
      have quiet : ∀ between, issue < between → between < issue + 1 + Nat.find some →
          (run.inputs between).rreqReady channel = false := by
        intro between after before
        have least := Nat.find_min some (m := between - (issue + 1)) (by omega)
        rw [show issue + 1 + (between - (issue + 1)) = between by omega] at least
        simpa using least
      obtain ⟨holding, same⟩ := stays _ quiet
      refine ⟨issue + 1 + Nat.find some, ?_, by omega, enabled, ready, ?_,
        fun between after before => ?_⟩
      · rw [requests, Cycle.rreqValid, Cycle.loadEnP1, if_pos stage, holding, Nat.find_spec some]
        rfl
      · rw [Cycle.loadIdxOhP1, if_pos stage]
        exact same
      · rw [requests, quiet between (by omega) before, Bool.and_false]

variable (oneGroup : run.OneGroup) (channels : 0 < configs.numLdMem)
  (reads : run.AnswersRequests)

include oneGroup channels reads

/-- An issued load receives its data. -/
theorem LdIssued.exists_received (fair : run.Fair) (issued : run.LdIssued time load) :
    ∃ later, run.LdReceived later load := by
  obtain ⟨issue, -, way, issues⟩ := issued.exists_issuesBy
  suffices served : ∃ later, run.ServesBy later way issue load by
    obtain ⟨later, serves⟩ := served
    exact ⟨later + 1, (ldReceived_iff oneGroup channels reads).mpr
      ⟨later, Nat.lt_succ_self _, way, issue, serves⟩⟩
  cases way with
  | none => exact ⟨issue + configs.oneLag, issues, rfl⟩
  | some channel =>
      obtain ⟨time, forwards⟩ := issues.exists_forwards fair
      obtain ⟨later, port, answers, same⟩ :=
        fair.rresp time channel issues.2.1 forwards.accepted
      refine ⟨later, issues, port, answers, by rw [same], ?_⟩
      rw [same]
      exact forwards

/-- A load gets no data before it is issued. -/
theorem LdReceived.ldIssued (received : run.LdReceived time load) : run.LdIssued time load := by
  obtain ⟨earlier, before, way, issue, serves⟩ := (ldReceived_iff oneGroup channels reads).mp received
  have ordered := serves.issue_le reads
  exact serves.1.ldIssued channels (by omega)

end Received

section Loads

variable (oneGroup : run.OneGroup) (channels : 0 < configs.numLdMem) (delivers : run.Delivers)
  (writes : run.AnswersWrites) (reads : run.AnswersRequests) (off : configs.stResp = false)

include oneGroup channels reads

/-- A load may be issued once its address has come and the stores before it are answered. -/
theorem canLoad_of_answered (delivers : run.Delivers) (writes : run.AnswersWrites)
    (off : configs.stResp = false) {back : Nat} (there : load < run.numLoads back)
    (known : run.LdAddrKnown back load) (answered : run.before load ≤ run.responded back)
    (waits : ¬ run.LdIssued (back + configs.lag) load) :
    run.LdLive back load ∧
      (run.cycle (back + configs.lag)).canLoad (load % configs.numLdqEntries) = true := by
  have holds := storesHold off oneGroup delivers writes
  have live : run.LdLive back load := by
    by_contra gone
    have received := ldReceived_of_not_ldLive oneGroup there gone
    exact waits ((received.ldIssued oneGroup channels reads).mono (Nat.le_add_right _ _))
  have notIssued : (run.cycle (back + configs.lag)).state.ldqIssue
      (load % configs.numLdqEntries) = false := by
    refine Bool.eq_false_iff.mpr fun issued => waits ((ldqIssue_iff oneGroup ?_).mp issued)
    rw [Nat.add_sub_cancel]
    exact live.occupies oneGroup
  have compares := run.compares back
  have clear : (run.cycle (back + configs.compLag)).loadConflict
      (load % configs.numLdqEntries) = false := by
    rw [Cycle.loadConflict, reduceOr_eq_false]
    intro index bounded
    have notOlder : (run.cycle back).state.storeIsOlder (load % configs.numLdqEntries) index =
        false := by
      refine Bool.eq_false_iff.mpr fun isOlder => ?_
      obtain ⟨store, isLive, -, before⟩ :=
        (storeIsOlder_iff oneGroup writes off holds live bounded).mp isOlder
      have := isLive.1
      omega
    rw [Cycle.ldStConflict, compares.storeIsOlder, notOlder]
    simp
  refine ⟨live, ?_⟩
  rw [Cycle.canLoad, notIssued, Configs.lag, ← Nat.add_assoc, canLoadP0_eq, Cycle.canLoadD, clear,
    Cycle.loadReqValid, compares.ldqAlloc, compares.ldqAddrValid, live.allocated oneGroup,
    (ldqAddrValid_iff oneGroup channels delivers reads live).mpr known]
  rfl

omit channels reads in
/-- When the first channel takes a load, it is the oldest that may be issued. -/
theorem exists_issuesBy_of_canLoad (channels : 0 < configs.numLdMem) {back : Nat}
    (live : run.LdLive back load)
    (may : (run.cycle (back + configs.lag)).canLoad (load % configs.numLdqEntries) = true)
    (ready : (run.cycle (back + configs.lag)).loadP1Ready 0 = true) :
    ∃ other ≤ load, run.IssuesBy (back + configs.lag) (some 0) other := by
  obtain ⟨start, queue⟩ := loadQueue oneGroup back
  have fits := queue.ring.fits
  have inside := queue.ring.inside load live
  obtain ⟨kept, keptInside, chosen⟩ :=
    exists_cyclicPriorityMasking start (Nat.mod_lt load configs.someLdq) may
  have chosenLoad : (run.cycle (back + configs.lag)).loadIdxOh 0 kept = true := by
    rw [Cycle.loadIdxOh, ldqHeadOhP0_lag, queue.head]
    exact chosen
  obtain ⟨-, keptMay⟩ := Cycle.canLoad_of_loadIdxOh chosenLoad
  rw [Cycle.canLoad, Bool.and_eq_true] at keptMay
  obtain ⟨same, equal, alloc, -⟩ := canLoadP0_seen keptMay.2
  obtain rfl : same = back := by omega
  obtain ⟨other, otherLive, rfl⟩ := exists_ldLive oneGroup keptInside alloc
  have otherInside := queue.ring.inside other otherLive
  refine ⟨other, ?_, ?_, channels, chosenLoad, ready⟩
  · by_contra younger
    rw [cyclicPriorityMasking_oldest otherInside.1 (by omega)] at chosen
    rw [chosen.2 load inside.1 (by omega)] at may
    cases may
  · rw [Nat.add_sub_cancel]
    exact otherLive.occupies oneGroup

omit oneGroup reads in
/-- The first channel takes a load at last if there always is one. -/
theorem exists_loadP1Ready (fair : run.Fair) {start : Nat} {index : Nat}
    (bounded : index < configs.numLdqEntries)
    (may : ∀ time ≥ start, (run.cycle time).canLoad index = true) :
    ∃ time ≥ start, (run.cycle time).loadP1Ready 0 = true := by
  have enabled : ∀ time ≥ start, (run.cycle time).loadEn 0 = true := fun time after => by
    rw [Cycle.loadEn, reduceOr_eq_true]
    exact ⟨index, bounded, may time after⟩
  by_cases shown : (run.cycle start).rreqValid 0 = true
  · obtain ⟨later, after, taken⟩ := fair.rreqReady start 0 channels shown
    refine ⟨later, after, ?_⟩
    rw [Cycle.loadP1Ready, input_cycle, taken, enabled later after]
    cases configs.pipe1 with
    | false => rfl
    | true => cases (run.cycle later).loadEnP1 0 <;> rfl
  · rw [Cycle.rreqValid, Bool.not_eq_true] at shown
    refine ⟨start, Nat.le_refl _, ?_⟩
    cases stage : configs.pipe1 with
    | false =>
        rw [Cycle.loadEnP1, if_neg (by simp [stage]), enabled start (Nat.le_refl _)] at shown
        cases shown
    | true =>
        rw [Cycle.loadP1Ready, if_pos stage, shown]
        rfl

/-- A load is issued at last if its address comes and the stores before it are answered. -/
theorem exists_ldIssued (delivers : run.Delivers) (writes : run.AnswersWrites)
    (off : configs.stResp = false) (fair : run.Fair) {start : Nat}
    (there : load < run.numLoads start) (known : run.LdAddrKnown start load)
    (answered : run.before load ≤ run.responded start) : ∃ time, run.LdIssued time load := by
  classical
  by_contra never
  rw [not_exists] at never
  have may : ∀ back ≥ start, run.LdLive back load ∧
      (run.cycle (back + configs.lag)).canLoad (load % configs.numLdqEntries) = true :=
    fun back after => canLoad_of_answered oneGroup channels reads delivers writes off
      (there.trans_le (run.numLoads_mono after)) (known.mono after)
      (answered.trans (run.responded_mono after)) (never _)
  -- Whatever is issued instead is an older load, and there are only finitely many.
  have grows : ∀ time ≥ start + configs.lag,
      ((Finset.range load).filter fun other => run.LdIssued time other).card ≤ load →
      ∃ later > time, ((Finset.range load).filter fun other => run.LdIssued time other).card <
        ((Finset.range load).filter fun other => run.LdIssued later other).card := by
    intro time after _
    have mayFrom : ∀ later ≥ time,
        (run.cycle later).canLoad (load % configs.numLdqEntries) = true := fun later ordered => by
      have shown := (may (later - configs.lag) (by omega)).2
      rwa [Nat.sub_add_cancel (by omega)] at shown
    obtain ⟨later, ordered, ready⟩ :=
      exists_loadP1Ready channels fair (Nat.mod_lt load configs.someLdq) mayFrom
    obtain ⟨live, mayNow⟩ := may (later - configs.lag) (by omega)
    have back : later - configs.lag + configs.lag = later := Nat.sub_add_cancel (by omega)
    obtain ⟨other, least, issues⟩ := exists_issuesBy_of_canLoad oneGroup channels live mayNow
      (by rwa [back])
    rw [back] at issues
    have less : other < load := by
      refine Nat.lt_of_le_of_ne least ?_
      rintro rfl
      exact never _ (issues.ldIssued channels (Nat.lt_succ_self _))
    have unissued : ¬ run.LdIssued time other := fun issued =>
      (issues.seen oneGroup).2.2.2 (issued.mono ordered)
    refine ⟨later + 1, Nat.lt_succ_of_le ordered, Finset.card_lt_card ⟨fun item member => ?_, fun all => ?_⟩⟩
    · rw [Finset.mem_filter] at member ⊢
      exact ⟨member.1, member.2.mono (ordered.trans (Nat.le_succ _))⟩
    · have member := all (Finset.mem_filter.mpr ⟨Finset.mem_range.mpr less,
        issues.ldIssued channels (Nat.lt_succ_self _)⟩)
      exact unissued (Finset.mem_filter.mp member).2
  obtain ⟨time, -, past⟩ := exists_counted grows
  have few := Finset.card_filter_le (Finset.range load) fun other => run.LdIssued time other
  rw [Finset.card_range] at few
  omega

end Loads

section Stores

variable (oneGroup : run.OneGroup) (channels : 0 < configs.numLdMem) (delivers : run.Delivers)
  (writes : run.AnswersWrites) (reads : run.AnswersRequests) (off : configs.stResp = false)

include oneGroup delivers writes off

/-- A store is issued when it was seen with its address and data and no older load
waits. -/
theorem storeEn_of_settled {start : Nat} (turn : run.issued time = store)
    (late : start + configs.lag + 2 ≤ time) (there : store < run.numStores start)
    (addrKnown : run.StAddrKnown start store) (dataKnown : run.StDataKnown start store)
    (unanswered : run.responded time ≤ store)
    (received : ∀ load < run.numLoads time, run.before load ≤ store → run.LdReceived start load) :
    (run.cycle time).storeEn = true := by
  have holds := storesHold off oneGroup delivers writes
  have now := holds time
  have compLag_le := configs.compLag_le
  have lagEq : configs.lag = configs.compLag + configs.zeroLag := rfl
  obtain ⟨back, rfl⟩ := Nat.exists_eq_add_of_le' (by omega : configs.lag ≤ time)
  have past := holds back
  have compares := run.compares back
  have slot := Nat.mod_lt store configs.someStq
  have live : run.StLive back store :=
    ⟨(run.responded_mono (Nat.le_add_right _ _)).trans unanswered,
      there.trans_le (run.numStores_mono (by omega))⟩
  have running : (run.cycle (back + configs.lag)).state.storeIssueStall = false := by
    refine Bool.eq_false_iff.mpr fun stall => ?_
    have last := (now.stalled stall).2
    have grown := run.numStores_mono
      (by omega : start ≤ back + configs.lag - 1 - configs.compLag)
    omega
  have valid : (run.cycle (back + configs.lag)).storeReqValidP0 = true := by
    have addrValid : (run.cycle back).state.stqAddrValid (store % configs.numStqEntries) = true :=
      (past.addr.delivered.valid store live).trans (decide_eq_true (addrKnown.mono (by omega)))
    have dataValid : (run.cycle back).state.stqDataValid (store % configs.numStqEntries) = true :=
      (past.data.delivered.valid store live).trans (decide_eq_true (dataKnown.mono (by omega)))
    rw [Configs.lag, ← Nat.add_assoc, storeReqValidP0_eq, Nat.add_assoc, ← Configs.lag, now.issue,
      turn, Cycle.storeReqValidAt, muxLookUp_of_lt slot, Cycle.storeReqValidArr, compares.stqAlloc,
      compares.stqAddrValid, compares.stqDataValid, past.queue.ring.allocated store live, addrValid,
      dataValid]
    rfl
  have clear : (run.cycle (back + configs.lag)).storeConflict = false := by
    rw [Cycle.storeConflict, reduceOr_eq_false]
    intro index bounded
    rw [Configs.lag, ← Nat.add_assoc, stLdConflictP0_eq, Nat.add_assoc, ← Configs.lag, now.issue,
      turn, Cycle.stLdConflictAt, compares.ldqAlloc, compares.storeIsOlder]
    cases alloc : (run.cycle back).state.ldqAlloc index with
    | false => simp
    | true =>
        obtain ⟨load, loadLive, rfl⟩ := exists_ldLive oneGroup bounded alloc
        cases isOlder : (run.cycle back).state.storeIsOlder (load % configs.numLdqEntries)
            (store % configs.numStqEntries) with
        | true => simp
        | false =>
            have seen := (loadLive.occupies oneGroup).1
            have older : run.before load ≤ store := by
              by_contra younger
              have set := (storeIsOlder_iff oneGroup writes off holds loadLive slot).mpr
                ⟨store, live, rfl, by omega⟩
              rw [isOlder] at set
              cases set
            have gotData := received load
              (seen.trans_le (run.numLoads_mono (Nat.le_add_right _ _))) older
            have occupies : run.Occupies (back + configs.compLag) load :=
              (loadLive.occupies_succ oneGroup).earlier (by omega)
                (seen.trans_le (run.numLoads_mono (Nat.le_add_right _ _)))
            have completed : (run.cycle (back + configs.compLag)).loadCompleted
                (load % configs.numLdqEntries) = true :=
              (ldqDataValid_iff oneGroup occupies).mpr (gotData.mono (by omega))
            rw [completed]
            simp
  rw [Cycle.storeEn, clear, valid, running]
  rfl

omit oneGroup writes off delivers in
/-- A write request that is shown stays until the memory takes it. -/
theorem wreqValid_succ_of_pending (stage : configs.pipe1 = true)
    (holding : (run.cycle time).state.storeEnP1Q = true)
    (same : run.accepted (time + 1) = run.accepted time) :
    (run.cycle (time + 1)).state.storeEnP1Q = true := by
  have shown : (run.cycle time).wreqValid = true := by
    rw [Cycle.wreqValid, Cycle.storeEnP1, if_pos stage]
    exact holding
  have busy : (run.cycle time).storeP1Ready = false := by
    rw [accepted_succ, shown, Bool.true_and] at same
    cases ready : (run.inputs time).wreqReady with
    | true =>
        rw [ready, Bool.toNat_true] at same
        omega
    | false =>
        rw [Cycle.storeP1Ready, if_pos stage, Cycle.storeEnP1, if_pos stage, holding, input_cycle,
          ready]
        rfl
  rw [state_succ]
  simp [Cycle.next, busy, holding]

include channels reads

/-- The loads before a store receive their data once the stores before it are written. -/
theorem exists_received_of_accepted (fair : run.Fair) (there : store < run.numStores time)
    (reached : store ≤ run.accepted early) :
    ∃ start, ∀ later, ∀ load < run.numLoads later, run.before load ≤ store →
      run.LdReceived start load := by
  obtain ⟨answer, answered⟩ := fair.wresp early
  have each : ∀ load < run.numLoads time,
      ∃ later, run.before load ≤ store → run.LdReceived later load := by
    intro load inside
    by_cases older : run.before load ≤ store
    · obtain ⟨known, isKnown⟩ := exists_ldAddrKnown oneGroup delivers fair channels reads inside
      obtain ⟨later, issued⟩ := exists_ldIssued oneGroup channels reads delivers writes off fair
        (inside.trans_le (run.numLoads_mono (by omega : time ≤ time + known + answer)))
        (isKnown.mono (by omega))
        ((older.trans (reached.trans answered)).trans (run.responded_mono (by omega)))
      obtain ⟨last, received⟩ := issued.exists_received oneGroup channels reads fair
      exact ⟨last, fun _ => received⟩
    · exact ⟨0, fun isOlder => absurd isOlder older⟩
  obtain ⟨start, all⟩ :=
    exists_all (fun ordered received older => (received older).mono ordered) each
  refine ⟨start, fun later load inside older => all load ?_ older⟩
  by_contra new
  have := le_before oneGroup (Nat.le_of_not_lt new) inside
  omega

/-- Once the stores before it are written, a store is written at last. -/
theorem exists_accepted_of_reached (fair : run.Fair) (there : store < run.numStores time)
    (reached : store ≤ run.accepted early) : ∃ later, store < run.accepted later := by
  have holds := storesHold off oneGroup delivers writes
  by_contra never
  have most : ∀ later, run.accepted later ≤ store := fun later =>
    Nat.le_of_not_lt fun more => never ⟨later, more⟩
  obtain ⟨loads, received⟩ := exists_received_of_accepted oneGroup channels delivers writes reads off
    fair there reached
  obtain ⟨addr, addrKnown⟩ := exists_stAddrKnown oneGroup delivers writes off fair there
  obtain ⟨data, dataKnown⟩ := exists_stDataKnown oneGroup delivers writes off fair there
  obtain ⟨start, startEq⟩ : ∃ start, start = time + early + loads + addr + data := ⟨_, rfl⟩
  have exactly : ∀ later ≥ start, run.accepted later = store := fun later after =>
    Nat.le_antisymm (most later) (reached.trans (length_transfers_mono (by omega)))
  have enabled : ∀ later ≥ start + configs.lag + 2, run.issued later = store →
      (run.cycle later).storeEn = true := fun later after turn =>
    storeEn_of_settled oneGroup delivers writes off turn after
      (there.trans_le (run.numStores_mono (by omega))) (addrKnown.mono (by omega))
      (dataKnown.mono (by omega)) ((writes later).trans (most later)) fun load inside older =>
        (received later load inside older).mono (by omega)
  have persists : ∃ first ≥ start, ∀ later ≥ first, (run.cycle later).wreqValid = true := by
    cases stage : configs.pipe1 with
    | false =>
        refine ⟨start + configs.lag + 2, by omega, fun later after => ?_⟩
        have inFlight := (holds later).inFlight
        rw [stage, Bool.false_and, Bool.toNat_false, exactly later (by omega)] at inFlight
        rw [Cycle.wreqValid, Cycle.storeEnP1, if_neg (by simp [stage])]
        exact enabled later after inFlight
    | true =>
        have stays : ∀ first ≥ start, (run.cycle first).state.storeEnP1Q = true →
            ∀ later ≥ first, (run.cycle later).wreqValid = true := by
          intro first after holding later ordered
          have still : (run.cycle later).state.storeEnP1Q = true := by
            induction later, ordered using Nat.le_induction with
            | base => exact holding
            | succ later ordered inductionHypothesis =>
                refine wreqValid_succ_of_pending stage inductionHypothesis ?_
                rw [exactly _ (by omega), exactly _ (by omega)]
          rw [Cycle.wreqValid, Cycle.storeEnP1, if_pos stage]
          exact still
        cases holding : (run.cycle (start + configs.lag + 2)).state.storeEnP1Q with
        | true => exact ⟨_, by omega, stays _ (by omega) holding⟩
        | false =>
            have inFlight := (holds (start + configs.lag + 2)).inFlight
            rw [holding, Bool.and_false, Bool.toNat_false, exactly _ (by omega)] at inFlight
            have issues := enabled _ (Nat.le_refl _) inFlight
            have free : (run.cycle (start + configs.lag + 2)).storeP1Ready = true := by
              rw [Cycle.storeP1Ready, if_pos stage, Cycle.storeEnP1, if_pos stage, holding]
              rfl
            refine ⟨start + configs.lag + 2 + 1, by omega, stays _ (by omega) ?_⟩
            rw [state_succ]
            simp [Cycle.next, free, issues]
  obtain ⟨first, after, valid⟩ := persists
  obtain ⟨later, ordered, ready⟩ := fair.wreqReady first (valid first (Nat.le_refl _))
  have last := most (later + 1)
  rw [accepted_succ, valid later ordered, ready, exactly later (by omega)] at last
  exact absurd last (Nat.not_succ_le_self _)

/-- In a fair environment every store is written at last. -/
theorem exists_accepted (fair : run.Fair) (there : store < run.numStores time) :
    ∃ later, store < run.accepted later := by
  induction store with
  | zero =>
      have reached : 0 ≤ run.accepted 0 := Nat.zero_le _
      exact exists_accepted_of_reached oneGroup channels delivers writes reads off fair there reached
  | succ store inductionHypothesis =>
      obtain ⟨early, reached⟩ := inductionHypothesis (by omega)
      exact exists_accepted_of_reached oneGroup channels delivers writes reads off fair there reached

omit oneGroup channels delivers writes reads off in
/-- The writes of a run are those of the allocated stores in program order. A request is
for the next of them, and no older load with the same or an unknown address waits for its
data then; in a fair environment each of them is written at last. The generator fails for
a memory without load channels. -/
theorem writes_inOrder (off : configs.stResp = false) (channels : 0 < configs.numLdMem)
    (oneGroup : run.OneGroup) (delivers : run.Delivers) (writes : run.AnswersWrites)
    (reads : run.AnswersRequests) :
    (∀ time, run.writes time <+: run.program (run.stores time) ∧
      ((run.cycle time).wreqValid = true →
        (run.program (run.stores time))[(run.writes time).length]? =
            some ((run.cycle time).wreqAddr, (run.cycle time).wreqData) ∧
          ∀ load < run.numLoads time, run.before load ≤ (run.writes time).length →
            run.LdReceived time load ∨
              run.LdAddrKnown time load ∧ run.ldAddrOf load ≠ (run.cycle time).wreqAddr)) ∧
      (run.Fair → ∀ time, ∀ store < run.numStores time,
        ∃ later, store < (run.writes later).length) := by
  refine ⟨fun time => ⟨?_, fun valid => ?_⟩, fun fair time store there => ?_⟩
  · have holds := storesHold off oneGroup delivers writes time
    have inFlight := holds.inFlight
    have seen := holds.seen.trans (run.numStores_mono (Nat.sub_le _ _))
    rw [writes_eq oneGroup channels delivers writes reads off, program_stores]
    refine List.IsPrefix.map _ ?_
    rw [show run.numStores time = run.accepted time + (run.numStores time - run.accepted time) by
      omega, List.range_add]
    exact List.prefix_append _ _
  · obtain ⟨there, payload, clear⟩ := wreqValid_seen oneGroup channels delivers writes reads off valid
    have addr : (run.cycle time).wreqAddr = run.stAddrOf (run.accepted time) :=
      congrArg Prod.fst payload
    rw [payload, program_stores, List.getElem?_map, ← accepted, List.getElem?_range there, addr]
    exact ⟨rfl, clear⟩
  · exact exists_accepted oneGroup channels delivers writes reads off fair there

end Stores

/-- A store and a load of its address: the load takes the data of the store. -/
def forwarded : Run (Configs.small false false true) where
  start := State.clear _
  reset := reset_clear
  inputs time :=
    { groupInitValid := fun _ => decide (time = 0)
      ldpAddr := fun _ => 1
      ldpAddrValid := fun _ => decide (time = 1)
      ldpDataReady := fun _ => true
      stpAddr := fun _ => 1
      stpAddrValid := fun _ => decide (time = 1)
      stpData := fun _ => 1
      stpDataValid := fun _ => decide (time = 1)
      stpExecReady := fun _ => false
      rreqReady := fun _ => true
      rrespValid := fun _ => false
      rrespId := fun _ => 0
      rrespData := fun _ => 0
      wreqReady := decide (time = 2)
      wrespValid := decide (time = 3)
      memStartValid := false
      ctrlEndValid := false
      memEndReady := false }
  ldAddr _ _ := 1
  stAddr _ _ := 1
  stData _ _ := 1
  memory _ := 0
  performed time := if time ≤ 2 then 0 else 1
  request _ _ := (0, 0)

theorem forwarded_oneGroup : forwarded.OneGroup := by
  intro _ left right leftBounded rightBounded _ _
  have only : (Configs.small false false true).numGroups = 1 := rfl
  omega

theorem forwarded_delivers : forwarded.Delivers :=
  ⟨fun _ _ _ _ _ => rfl, fun _ _ _ _ _ => rfl, fun _ _ _ _ _ => rfl⟩

theorem forwarded_answersWrites : forwarded.AnswersWrites :=
  answersWrites_of_once (fun _ => rfl) (by decide +kernel)

theorem forwarded_answersRequests : forwarded.AnswersRequests :=
  ⟨fun _ _ answers => absurd answers.2 (by simp [forwarded]),
    fun _ _ _ _ answers => absurd answers.2 (by simp [forwarded])⟩

theorem writes_inOrder_forwarded :
    (∀ time, forwarded.writes time <+: forwarded.program (forwarded.stores time) ∧
      ((forwarded.cycle time).wreqValid = true →
        (forwarded.program (forwarded.stores time))[(forwarded.writes time).length]? =
            some ((forwarded.cycle time).wreqAddr, (forwarded.cycle time).wreqData) ∧
          ∀ load < forwarded.numLoads time,
            forwarded.before load ≤ (forwarded.writes time).length →
            forwarded.LdReceived time load ∨ forwarded.LdAddrKnown time load ∧
              forwarded.ldAddrOf load ≠ (forwarded.cycle time).wreqAddr)) ∧
      (forwarded.Fair → ∀ time, ∀ store < forwarded.numStores time,
        ∃ later, store < (forwarded.writes later).length) :=
  writes_inOrder rfl (by decide) forwarded_oneGroup forwarded_delivers forwarded_answersWrites
    forwarded_answersRequests

end Run

end Dynamatic.Lsq
