import Dynamatic.Lsq.Writes

/-!
# The data of a load

A load reads the memory after the writes of the stores before it in the program. If it
goes to the memory, the stores before it that it may conflict with have been performed,
and no later store of its address is written until its answer comes. If it takes a
store's data, that is the last store of its address before it, and the entry still
holds that store's data when they are taken.
-/

namespace Dynamatic.Lsq

open Dynamatic.Clocked

variable {configs : Configs}

/-- The reverse mask keeps one bit at most. -/
theorem cyclicPriorityMaskingReverse_unique {size stop index other : Nat} {din : Nat → Bool}
    (left : cyclicPriorityMaskingReverse size din (bitsToOHSub1 size (stop % size)) index = true)
    (right : cyclicPriorityMaskingReverse size din (bitsToOHSub1 size (stop % size)) other = true) :
    index = other := by
  have leftBounded : index < size := by
    rw [cyclicPriorityMaskingReverse, Bool.and_eq_true, decide_eq_true_eq] at left
    exact left.1
  have rightBounded : other < size := by
    rw [cyclicPriorityMaskingReverse, Bool.and_eq_true, decide_eq_true_eq] at right
    exact right.1
  -- A turn later, so that the turn before the end has natural numbers.
  rw [← Nat.add_mod_right] at left right
  obtain ⟨entry, after, before, rfl⟩ := exists_slot stop leftBounded
  obtain ⟨later, afterOther, beforeOther, rfl⟩ := exists_slot stop rightBounded
  rw [cyclicPriorityMaskingReverse_youngest before (by omega)] at left
  rw [cyclicPriorityMaskingReverse_youngest beforeOther (by omega)] at right
  rcases Nat.lt_trichotomy entry later with less | rfl | more
  · rw [left.2 later less beforeOther] at right
    cases right.1
  · rfl
  · rw [right.2 entry more before] at left
    cases left.1

namespace Run

variable (run : Run configs)

/-- What a load reads when the accesses execute one after another. -/
noncomputable def ldDataOf (load : Nat) : BitVec configs.dataW :=
  run.contents ((List.range (run.before load)).map run.write) (run.ldAddrOf load)

variable {run} {time back load store index issue : Nat} {way : Option Nat}

/-- Writes to other addresses do not change a word. -/
theorem contents_write_congr {left right : Nat} {addr : BitVec configs.addrW} (ordered : left ≤ right)
    (differs : ∀ store, left ≤ store → store < right → run.stAddrOf store ≠ addr) :
    run.contents ((List.range right).map run.write) addr =
      run.contents ((List.range left).map run.write) addr := by
  induction right, ordered using Nat.le_induction with
  | base => rfl
  | succ right ordered inductionHypothesis =>
      have last := differs right ordered (Nat.lt_succ_self _)
      rw [← inductionHypothesis fun store after before => differs store after (by omega),
        List.range_succ, List.map_append, contents, List.foldl_append]
      exact Function.update_of_ne (Ne.symm last) _ _

/-- The last write to an address is the word there. -/
theorem contents_write_last {right : Nat} {addr : BitVec configs.addrW} (before : store < right)
    (here : run.stAddrOf store = addr)
    (differs : ∀ later, store < later → later < right → run.stAddrOf later ≠ addr) :
    run.contents ((List.range right).map run.write) addr = run.stDataOf store := by
  rw [contents_write_congr (show store + 1 ≤ right from before) fun later after inside =>
    differs later after inside, List.range_succ, List.map_append, contents, List.foldl_append]
  subst here
  exact Function.update_self _ _ _

/-- A write accepted by a cycle was accepted in an earlier one. -/
theorem exists_accepting (before : store < run.accepted time) :
    ∃ cycle < time, (run.cycle cycle).wreqValid = true ∧ run.accepted cycle = store := by
  induction time with
  | zero => exact absurd before (Nat.not_lt_zero _)
  | succ time inductionHypothesis =>
      rcases Nat.lt_or_ge store (run.accepted time) with old | new
      · obtain ⟨cycle, inside, shown⟩ := inductionHypothesis old
        exact ⟨cycle, Nat.lt_succ_of_lt inside, shown⟩
      · rw [accepted_succ] at before
        cases fires : (run.cycle time).wreqValid && (run.inputs time).wreqReady with
        | false =>
            rw [fires, Bool.toNat_false] at before
            omega
        | true =>
            rw [fires, Bool.toNat_true] at before
            exact ⟨time, Nat.lt_succ_self _, (Bool.and_eq_true_iff.mp fires).1, by omega⟩

section Conflicts

variable (oneGroup : run.OneGroup) (channels : 0 < configs.numLdMem) (delivers : run.Delivers)
  (writes : run.AnswersWrites) (reads : run.AnswersRequests) (off : configs.stResp = false)

include oneGroup channels delivers writes reads off

/-- A load conflicts with the stores before it that are in the queue and whose address
is the same or unknown. -/
theorem ldStConflict_iff (live : run.LdLive back load) (known : run.LdAddrKnown back load)
    (bounded : index < configs.numStqEntries) :
    (run.cycle (back + configs.compLag)).ldStConflict (load % configs.numLdqEntries) index = true ↔
      ∃ store, run.StLive (back + configs.compLag) store ∧ store % configs.numStqEntries = index ∧
        store < run.before load ∧
        (run.StAddrKnown back store → run.stAddrOf store = run.ldAddrOf load) := by
  have holds := storesHold off oneGroup delivers writes
  have compares := run.compares back
  have ordered : back ≤ back + configs.compLag := Nat.le_add_right _ _
  have oneMore := configs.compLag_le
  have answered := run.responded_mono ordered
  have inTime := before_le oneGroup (live.occupies oneGroup).1
  have fits := (holds back).queue.ring.fits
  have fitsNow := (holds (back + configs.compLag)).queue.ring.fits
  have room := (holds back).room oneGroup
  have grows := run.numStores_mono (by omega : back + configs.compLag ≤ back + 1)
  have addrOf := ldqAddr_eq oneGroup channels delivers reads live known
  have sameAddr : ∀ store, run.StLive back store →
      (((run.cycle back).addrSame (load % configs.numLdqEntries) (store % configs.numStqEntries) ||
          !(run.cycle back).state.stqAddrValid (store % configs.numStqEntries)) = true ↔
        (run.StAddrKnown back store → run.stAddrOf store = run.ldAddrOf load)) := by
    intro store storeLive
    have valid : (run.cycle back).state.stqAddrValid (store % configs.numStqEntries) =
        decide (rank run.stPort store < run.stAddrCount back (run.stPort store)) :=
      (holds back).addr.delivered.valid store storeLive
    rw [valid, Bool.or_eq_true, Bool.not_eq_true', decide_eq_false_iff_not]
    by_cases isKnown : run.StAddrKnown back store
    · rw [Cycle.addrSame, decide_eq_true_eq, addrOf,
        storeLive.stqAddr oneGroup delivers writes off isKnown]
      exact ⟨fun either _ => (either.resolve_right fun unknown => unknown isKnown).symm,
        fun same => .inl (same isKnown).symm⟩
    · exact ⟨fun _ yes => absurd yes isKnown, fun _ => .inr isKnown⟩
  rw [Cycle.ldStConflict, compares.stqAlloc, compares.storeIsOlder, compares.addrSame,
    compares.stqAddrValid, Cycle.storeCompleted, if_neg (by simp [off]), Bool.not_not]
  simp only [Bool.and_eq_true]
  constructor
  · rintro ⟨⟨⟨-, still⟩, older⟩, addr⟩
    obtain ⟨store, storeLive, rfl, before⟩ :=
      (storeIsOlder_iff oneGroup writes off holds live bounded).mp older
    obtain ⟨there, thereLive, same⟩ :=
      (holds (back + configs.compLag)).queue.ring.occupied _ bounded still
    -- The entry cannot have gone to a later store in so short a time.
    have equal : there = store := eq_of_slot configs.numStqEntries (run.responded back)
      (answered.trans thereLive.1) (by have := thereLive.2; omega) storeLive.1
      (storeLive.2.trans_le fits) same
    subst equal
    exact ⟨there, thereLive, rfl, before, (sameAddr there storeLive).mp addr⟩
  · rintro ⟨store, storeLive, rfl, before, addr⟩
    have wasLive : run.StLive back store := ⟨answered.trans storeLive.1, by omega⟩
    exact ⟨⟨⟨(holds back).queue.ring.allocated store wasLive,
      (holds (back + configs.compLag)).queue.ring.allocated store storeLive⟩,
      (storeIsOlder_iff oneGroup writes off holds live bounded).mpr ⟨store, wasLive, rfl, before⟩⟩,
      (sameAddr store wasLive).mpr addr⟩

/-- Without a conflict, the stores before a load are answered or have other addresses. -/
theorem differs_of_loadConflict (live : run.LdLive back load) (known : run.LdAddrKnown back load)
    (clear : (run.cycle (back + configs.compLag)).loadConflict (load % configs.numLdqEntries) = false)
    (before : store < run.before load)
    (unanswered : run.responded (back + configs.compLag) ≤ store) :
    run.StAddrKnown back store ∧ run.stAddrOf store ≠ run.ldAddrOf load := by
  have slot := Nat.mod_lt store configs.someStq
  have inTime := before_le oneGroup (live.occupies oneGroup).1
  have grows := run.numStores_mono (Nat.le_add_right back configs.compLag)
  rw [Cycle.loadConflict, reduceOr_eq_false] at clear
  have none := clear _ slot
  rw [← Bool.not_eq_true,
    ldStConflict_iff oneGroup channels delivers writes reads off live known slot] at none
  have differs : ¬ (run.StAddrKnown back store → run.stAddrOf store = run.ldAddrOf load) :=
    fun same => none ⟨store, ⟨unanswered, by omega⟩, rfl, before, same⟩
  rwa [Classical.not_imp] at differs

/-- A load without a conflict has none later. -/
theorem loadConflict_mono (live : run.LdLive back load) (known : run.LdAddrKnown back load)
    (clear : (run.cycle (back + configs.compLag)).loadConflict (load % configs.numLdqEntries) = false)
    {later : Nat} (ordered : back ≤ later) (laterLive : run.LdLive later load) :
    (run.cycle (later + configs.compLag)).loadConflict (load % configs.numLdqEntries) = false := by
  rw [Cycle.loadConflict, reduceOr_eq_false]
  intro index bounded
  refine Bool.eq_false_iff.mpr fun conflicts => ?_
  obtain ⟨store, storeLive, -, before, same⟩ :=
    (ldStConflict_iff oneGroup channels delivers writes reads off laterLive (known.mono ordered)
      bounded).mp conflicts
  have answered := run.responded_mono (by omega : back + configs.compLag ≤ later + configs.compLag)
  obtain ⟨addrKnown, differs⟩ := differs_of_loadConflict oneGroup channels delivers writes reads off
    live known clear before (answered.trans storeLive.1)
  exact differs (same (addrKnown.mono ordered))

end Conflicts

section Values

/-- A load that is left was left before. -/
theorem LdLive.earlier {late early : Nat} (live : run.LdLive late load) (ordered : early ≤ late)
    (there : load < run.numLoads early) : run.LdLive early load := by
  induction late, ordered using Nat.le_induction with
  | base => exact live
  | succ late ordered inductionHypothesis =>
      rw [LdLive] at live
      have grows := run.numLoads_mono ordered
      exact inductionHypothesis (live.resolve_left fun new => by omega).1

variable (oneGroup : run.OneGroup) (channels : 0 < configs.numLdMem) (delivers : run.Delivers)
  (writes : run.AnswersWrites) (reads : run.AnswersRequests) (off : configs.stResp = false)

include oneGroup delivers writes off

/-- The entry of a store keeps its data for two cycles after the store is left. -/
theorem stqData_kept {seen : Nat} (live : run.StLive seen store)
    (known : run.StDataKnown time store) (after : seen ≤ time) (late : time ≤ seen + 2) :
    (run.cycle time).state.stqData (store % configs.numStqEntries) = run.stDataOf store := by
  have holds := storesHold off oneGroup delivers writes
  have now := holds time
  have room := (holds seen).room oneGroup
  have grows := run.numStores_mono (by omega : time - 1 ≤ seen + 1)
  have oldest := live.1
  refine now.data.held store (live.2.trans_le (run.numStores_mono after)) known fun inside => ?_
  by_contra received
  have young := now.data.lt_seen (now.ports _ inside) (Nat.lt_of_not_le received)
  have size : (run.cycle time).std.numEntries = configs.numStqEntries := rfl
  omega

include channels reads

/-- A load that takes a store's data takes those of the last store of its address before
it. -/
theorem bypassData_eq (issues : run.IssuesBy issue none load) :
    (run.cycle (issue + configs.oneLag)).bypassData (load % configs.numLdqEntries) =
      run.ldDataOf load := by
  have holds := storesHold off oneGroup delivers writes
  have compLag_le := configs.compLag_le
  have zeroLag_le := configs.zeroLag_le
  have oneLag_le := configs.oneLag_le
  have lagEq : configs.lag = configs.compLag + configs.zeroLag := rfl
  obtain ⟨lagged, live, addrValid, -⟩ := issues.seen oneGroup
  obtain ⟨back, rfl⟩ := Nat.exists_eq_add_of_le' lagged
  rw [Nat.add_sub_cancel] at live addrValid
  have known := (ldqAddrValid_iff oneGroup channels delivers reads live).mp addrValid
  obtain ⟨on, index, bounded, youngest, -, ready⟩ := Cycle.bypassEn_iff.mp issues.2
  obtain ⟨same, equal, -, -, storeAddrValid, storeDataValid, sameAddr⟩ := canBypassP0_seen ready
  obtain rfl : back = same := by omega
  have shown : (run.cycle (back + configs.lag + configs.oneLag)).bypassIdxOhP1
      (load % configs.numLdqEntries) = cyclicPriorityMaskingReverse configs.numStqEntries
        ((run.cycle (back + configs.compLag)).ldStConflict (load % configs.numLdqEntries))
        (bitsToOHSub1 configs.numStqEntries
          (run.numStores (back + configs.compLag) % configs.numStqEntries)) := by
    rw [bypassIdxOhP1_eq, bypassIdxOhP0_lag, Cycle.bypassIdxOhD, if_pos on, Cycle.stqLastOh,
      (holds _).queue.tail]
  rw [← run.bypassIdxOhP1_eq, shown] at youngest
  rw [Cycle.bypassData, shown, mux1H_of_unique bounded youngest
    fun other _ chosen => cyclicPriorityMaskingReverse_unique chosen youngest]
  -- The store chosen is a conflicting one.
  have masked := youngest
  rw [cyclicPriorityMaskingReverse, Bool.and_eq_true, decide_eq_true_eq] at masked
  have conflicts := (cyclicPriorityMasking_le masked.2).2
  rw [show configs.numStqEntries - 1 - (configs.numStqEntries - 1 - index) = index by omega]
    at conflicts
  obtain ⟨store, storeLive, rfl, before, -⟩ :=
    (ldStConflict_iff oneGroup channels delivers writes reads off live known bounded).mp conflicts
  have answered := run.responded_mono (Nat.le_add_right back configs.compLag)
  have inTime := before_le oneGroup (live.occupies oneGroup).1
  have grown := run.numStores_mono (Nat.le_add_right back configs.compLag)
  have fits := (holds (back + configs.compLag)).queue.ring.fits
  have wasLive : run.StLive back store := ⟨answered.trans storeLive.1, by omega⟩
  have addrKnown : run.StAddrKnown back store := by
    have shown := ((holds back).addr.delivered.valid store wasLive).symm.trans storeAddrValid
    rwa [decide_eq_true_eq] at shown
  have dataKnown : run.StDataKnown back store := by
    have shown := ((holds back).data.delivered.valid store wasLive).symm.trans storeDataValid
    rwa [decide_eq_true_eq] at shown
  have here : run.stAddrOf store = run.ldAddrOf load := by
    rw [← wasLive.stqAddr oneGroup delivers writes off addrKnown, ← sameAddr,
      ldqAddr_eq oneGroup channels delivers reads live known]
  rw [stqData_kept oneGroup delivers writes off storeLive (dataKnown.mono (by omega)) (by omega)
    (by omega), ldDataOf]
  refine (contents_write_last before here fun later after inside laterHere => ?_).symm
  have first := storeLive.1
  rw [cyclicPriorityMaskingReverse_youngest storeLive.2 (by omega)] at youngest
  have quiet := youngest.2 later after (by omega)
  rw [← Bool.not_eq_true, ldStConflict_iff oneGroup channels delivers writes reads off live known
    (Nat.mod_lt later configs.someStq)] at quiet
  exact quiet ⟨later, ⟨storeLive.1.trans (Nat.le_of_lt after), by omega⟩, rfl, inside,
    fun _ => laterHere⟩

/-- Nothing is forwarded into the answer of a load that was issued on a channel. -/
theorem bypassData_of_channel {channel : Nat} (issues : run.IssuesBy issue (some channel) load)
    (after : issue + configs.oneLag ≤ time) (live : run.LdLive time load) :
    (run.cycle time).bypassData (load % configs.numLdqEntries) = 0 := by
  have lagEq : configs.lag = configs.compLag + configs.zeroLag := rfl
  obtain ⟨lagged, wasLive, addrValid, -⟩ := issues.seen oneGroup
  obtain ⟨back, rfl⟩ := Nat.exists_eq_add_of_le' lagged
  rw [Nat.add_sub_cancel] at wasLive addrValid
  have known := (ldqAddrValid_iff oneGroup channels delivers reads wasLive).mp addrValid
  obtain ⟨-, ready⟩ := Cycle.canLoad_of_loadIdxOh issues.2.2.1
  rw [Cycle.canLoad, Bool.and_eq_true] at ready
  obtain ⟨same, equal, -, -, clear⟩ := canLoadP0_seen ready.2
  obtain rfl : back = same := by omega
  obtain ⟨later, rfl⟩ := Nat.exists_eq_add_of_le' (by omega : configs.lag + configs.oneLag ≤ time)
  have there := (wasLive.occupies oneGroup).1
  have laterLive := live.earlier (Nat.le_add_right later _)
    (there.trans_le (run.numLoads_mono (by omega)))
  have stillClear := loadConflict_mono oneGroup channels delivers writes reads off wasLive known clear
    (by omega) laterLive
  rw [Cycle.bypassData]
  refine mux1H_of_none fun index _ => Bool.eq_false_iff.mpr fun chosen => ?_
  rw [← Nat.add_assoc, bypassIdxOhP1_eq, bypassIdxOhP0_lag] at chosen
  rw [Cycle.loadConflict_of_bypassIdxOhD chosen] at stillClear
  cases stillClear

/-- The answer to a load's request is the word that the stores before it leave. -/
theorem word_eq {port : Nat} (performs : run.PerformsWrites) (words : run.AnswersReads)
    (answers : run.answers time port)
    (forwards : run.Forwards issue (run.request time port).1 (run.request time port).2)
    (issues : run.IssuesBy issue (some (run.request time port).2) load)
    (waiting : run.LdLive time load ∧ ¬ run.LdReceived time load) :
    (run.inputs time).rrespData port = run.ldDataOf load := by
  obtain ⟨live, notReceived⟩ := waiting
  obtain ⟨instant, fromRequest, toAnswer, word⟩ := words.word time port answers
  have ordered := (reads.requested time port answers).1
  have stage := forwards.stage
  have lagEq : configs.lag = configs.compLag + configs.zeroLag := rfl
  obtain ⟨lagged, wasLive, addrValid, -⟩ := issues.seen oneGroup
  obtain ⟨back, rfl⟩ := Nat.exists_eq_add_of_le' lagged
  rw [Nat.add_sub_cancel] at wasLive addrValid
  have known := (ldqAddrValid_iff oneGroup channels delivers reads wasLive).mp addrValid
  have there := (wasLive.occupies oneGroup).1
  have liveAtRequest := live.earlier ordered (there.trans_le (run.numLoads_mono (by omega)))
  have addr : (run.cycle (run.request time port).1).rreqAddr (run.request time port).2 =
      run.ldAddrOf load := by
    rw [Cycle.rreqAddr, forwards.same, mux1H_of_unique (Nat.mod_lt load configs.someLdq)
      issues.2.2.1 fun other _ chosen => loadIdxOh_unique oneGroup chosen issues.2.2.1]
    exact ldqAddr_eq oneGroup channels delivers reads liveAtRequest (known.mono (by omega))
  obtain ⟨-, ready⟩ := Cycle.canLoad_of_loadIdxOh issues.2.2.1
  rw [Cycle.canLoad, Bool.and_eq_true] at ready
  obtain ⟨same, equal, -, -, clear⟩ := canLoadP0_seen ready.2
  obtain rfl : back = same := by omega
  have accepted : instant ≤ run.accepted (time + 1) := toAnswer.trans (performs.accepted _)
  rw [word, addr, writes_eq oneGroup channels delivers writes reads off, ← List.map_take,
    List.take_range, Nat.min_eq_left accepted, ldDataOf]
  rcases Nat.le_total instant (run.before load) with early | late
  · -- The stores before the load that were not performed have other addresses.
    refine (contents_write_congr early fun store after before => ?_).symm
    have answered : run.responded (back + configs.compLag) ≤ store := by
      refine (run.responded_mono (by omega : _ ≤ (run.request time port).1)).trans ?_
      exact (performs.responded _).trans (fromRequest.trans after)
    exact (differs_of_loadConflict oneGroup channels delivers writes reads off wasLive known clear
      before answered).2
  · -- The stores behind the load that were performed were clear of it.
    refine contents_write_congr late fun store after before => ?_
    obtain ⟨cycle, inside, shown, turn⟩ : ∃ cycle < time + 1,
        (run.cycle cycle).wreqValid = true ∧ run.accepted cycle = store :=
      exists_accepting (before.trans_le accepted)
    obtain ⟨allocated, -, isClear⟩ := wreqValid_seen oneGroup channels delivers writes reads off shown
    rw [turn] at allocated isClear
    have loadThere : load < run.numLoads cycle := by
      by_contra new
      have := le_before oneGroup (Nat.le_of_not_lt new) there
      omega
    rcases isClear load loadThere after with received | ⟨-, differs⟩
    · exact absurd (received.mono (Nat.le_of_lt_succ inside)) notReceived
    · exact Ne.symm differs

end Values

end Run

end Dynamatic.Lsq
