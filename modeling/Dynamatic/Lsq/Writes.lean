import Dynamatic.Lsq.Order

/-!
# The writes of a run

The memory is asked for the stores in program order, each with its own address and
data, and for none while an older load with the same or an unknown address waits for
its data.
-/

namespace Dynamatic.Lsq

open Dynamatic.Clocked

variable {configs : Configs}

namespace Run

variable (run : Run configs)

/-- The write of a store. -/
noncomputable def write (store : Nat) : BitVec configs.addrW × BitVec configs.dataW :=
  (run.stAddrOf store, run.stDataOf store)

/-- No older load with the same or an unknown address waits for its data. -/
def Clear (time store : Nat) : Prop :=
  ∀ load < run.numLoads time, run.before load ≤ store →
    run.LdReceived time load ∨
      run.LdAddrKnown time load ∧ run.ldAddrOf load ≠ run.stAddrOf store

variable {run} {time load store : Nat}

section Program

/-- The program's writes are those of its stores in order. -/
theorem program_stores (time : Nat) :
    run.program (run.stores time) = (List.range (run.numStores time)).map run.write := by
  have each : ∀ index < run.numStores time, (run.stores time)[index]? = some (run.stPort index) :=
    fun index before => getElem?_eq_eventual stores_grows before
  refine List.ext_getElem? fun index => ?_
  rw [program, List.getElem?_mapIdx, List.getElem?_map]
  rcases Nat.lt_or_ge index (run.numStores time) with inside | outside
  · have counted : ((run.stores time).take index).count (run.stPort index) = rank run.stPort index := by
      rw [List.count, countP_take fun other before => each other (before.trans inside), rank]
      simp only [beq_iff_eq]
    rw [each index inside, List.getElem?_range inside, Option.map_some, Option.map_some, counted]
    rfl
  · rw [List.getElem?_eq_none outside, List.getElem?_eq_none (by simpa using outside)]
    rfl

end Program

section Requests

variable (oneGroup : run.OneGroup) (channels : 0 < configs.numLdMem) (delivers : run.Delivers)
  (writes : run.AnswersWrites) (reads : run.AnswersRequests) (off : configs.stResp = false)

include oneGroup

/-- A load still there as new ones are written has its entry after that. -/
theorem LdLive.occupies_succ (live : run.LdLive time load) : run.Occupies (time + 1) load := by
  obtain ⟨start, queue⟩ := loadQueue oneGroup time
  obtain ⟨fits, less⟩ : (run.cycle time).numLoads ≤ (run.cycle time).emptyLoads ∧ _ :=
    numLoads_le oneGroup
  obtain ⟨first, -, -, rest, room⟩ := queue.room (fun empty => (ldqEmpty_iff queue).mp empty) less fits
  have least := rest load live
  have there := (live.occupies oneGroup).1
  have grows := run.numLoads_mono (Nat.le_add_right time 1)
  rw [← numLoads_succ oneGroup] at room
  exact ⟨by omega, by omega⟩

/-- New loads are younger than the stores already there. -/
theorem Clear.succ (clear : run.Clear time store) (there : store < run.numStores time) :
    run.Clear (time + 1) store := by
  intro load inside older
  rcases Nat.lt_or_ge load (run.numLoads time) with old | new
  · rcases clear load old older with received | ⟨known, differs⟩
    · exact .inl (received.mono (Nat.le_succ _))
    · exact .inr ⟨known.mono (Nat.le_succ _), differs⟩
  · have := le_before oneGroup new inside
    omega

include writes delivers off

theorem StLive.stqAddr (live : run.StLive time store) (known : run.StAddrKnown time store) :
    (run.cycle time).state.stqAddr (store % configs.numStqEntries) = run.stAddrOf store := by
  have holds := storesHold off oneGroup delivers writes time
  exact holds.addr.payload holds.serves_sta live known

theorem StLive.stqData (live : run.StLive time store) (known : run.StDataKnown time store) :
    (run.cycle time).state.stqData (store % configs.numStqEntries) = run.stDataOf store := by
  have holds := storesHold off oneGroup delivers writes time
  exact holds.data.payload holds.serves_std live known

include channels reads

/-- A store is issued only when it is clear of older loads. -/
theorem clear_of_storeEn (enabled : (run.cycle time).storeEn = true) :
    run.Clear time (run.issued time) := by
  intro load there older
  have holds := storesHold off oneGroup delivers writes
  obtain ⟨back, rfl, storeLive, addrKnown, -⟩ := storeEn_seen writes (fun earlier _ => holds earlier)
    enabled
  have seen : load < run.numLoads back := by
    by_contra new
    have := le_before oneGroup (Nat.le_of_not_lt new) there
    have before := storeLive.2
    omega
  by_cases live : run.LdLive back load
  · have slot := Nat.mod_lt load configs.someLdq
    have storeSlot := Nat.mod_lt (run.issued (back + configs.lag)) configs.someStq
    simp only [Cycle.storeEn, Bool.and_eq_true, Bool.not_eq_true'] at enabled
    have clear := enabled.1.1
    rw [Cycle.storeConflict, reduceOr_eq_false] at clear
    have noConflict := clear _ slot
    have compares := run.compares back
    rw [Configs.lag, ← Nat.add_assoc, stLdConflictP0_eq, Nat.add_assoc, ← Configs.lag,
      (holds _).issue, Cycle.stLdConflictAt, compares.ldqAlloc, compares.storeIsOlder,
      compares.addrSame, compares.ldqAddrValid, live.allocated oneGroup] at noConflict
    have notOlder : (run.cycle back).state.storeIsOlder (load % configs.numLdqEntries)
        (run.issued (back + configs.lag) % configs.numStqEntries) = false := by
      refine Bool.eq_false_iff.mpr fun isOlder => ?_
      obtain ⟨store, isLive, same, before⟩ :=
        (storeIsOlder_iff oneGroup writes off holds live storeSlot).mp isOlder
      have fits := (holds back).queue.ring.fits
      have equal := eq_of_slot configs.numStqEntries (run.responded back) isLive.1
        (isLive.2.trans_le fits) storeLive.1 (storeLive.2.trans_le fits) same
      omega
    rw [notOlder] at noConflict
    cases completed : (run.cycle (back + configs.compLag)).loadCompleted
        (load % configs.numLdqEntries) with
    | true =>
        have occupies : run.Occupies (back + configs.compLag) load := by
          have compLag_le := configs.compLag_le
          refine (live.occupies_succ oneGroup).earlier (by omega) (seen.trans_le ?_)
          exact run.numLoads_mono (Nat.le_add_right _ _)
        have received := (ldqDataValid_iff oneGroup occupies).mp completed
        exact .inl (received.mono (by rw [Configs.lag]; omega))
    | false =>
        simp only [completed, Bool.not_false, Bool.and_self, Bool.true_and, Bool.or_eq_false_iff,
          Bool.not_eq_false'] at noConflict
        obtain ⟨differs, addrValid⟩ := noConflict
        have known := (ldqAddrValid_iff oneGroup channels delivers reads live).mp addrValid
        rw [Cycle.addrSame, decide_eq_false_iff_not,
          ldqAddr_eq oneGroup channels delivers reads live known,
          storeLive.stqAddr oneGroup delivers writes off addrKnown] at differs
        exact .inr ⟨known.mono (Nat.le_add_right _ _), differs⟩
  · exact .inl ((ldReceived_of_not_ldLive oneGroup seen live).mono (Nat.le_add_right _ _))

/-- The stores issued are clear of older loads. -/
theorem clear_of_issued (before : store < run.issued time) : run.Clear time store := by
  have holds := storesHold off oneGroup delivers writes
  induction time with
  | zero => exact absurd before (Nat.not_lt_zero _)
  | succ time inductionHypothesis =>
      have seen := (holds time).seen.trans (run.numStores_mono (Nat.sub_le _ _))
      rcases Nat.lt_or_ge store (run.issued time) with old | new
      · exact (inductionHypothesis old).succ oneGroup (by omega)
      · cases issues : (run.cycle time).stqIssueEn with
        | false =>
            rw [issued, issues, Bool.toNat_false] at before
            omega
        | true =>
            rw [issued, issues, Bool.toNat_true] at before
            obtain rfl : store = run.issued time := by omega
            rw [Cycle.stqIssueEn, Bool.and_eq_true] at issues
            have clear := clear_of_storeEn oneGroup channels delivers writes reads off issues.1
            have isIssued : run.issued time < run.issued (time + 1) := by
              rw [issued, Cycle.stqIssueEn, issues.1, issues.2]
              exact Nat.lt_succ_self _
            have inside := issued_succ_known writes (fun earlier _ => holds earlier) isIssued
            exact clear.succ oneGroup inside.2.2

/-- A write request is for the next store, with its address and data, and that store is
clear of older loads. -/
theorem wreqValid_seen (valid : (run.cycle time).wreqValid = true) :
    run.accepted time < run.numStores time ∧
      ((run.cycle time).wreqAddr, (run.cycle time).wreqData) = run.write (run.accepted time) ∧
      run.Clear time (run.accepted time) := by
  have holds := storesHold off oneGroup delivers writes
  have now := holds time
  have inFlight := now.inFlight
  have pending := now.pending
  have slot := Nat.mod_lt (run.accepted time) configs.someStq
  obtain ⟨index, known, there, clear⟩ :
      (run.cycle time).storeIdxP1 = run.accepted time % configs.numStqEntries ∧
        (run.StAddrKnown time (run.accepted time) ∧ run.StDataKnown time (run.accepted time)) ∧
        run.accepted time < run.numStores time ∧ run.Clear time (run.accepted time) := by
    rw [Cycle.wreqValid, Cycle.storeEnP1] at valid
    rw [Cycle.storeIdxP1]
    cases stage : configs.pipe1 with
    | false =>
        rw [if_neg (by simp [stage])] at valid
        simp only [stage, Bool.false_and, Bool.toNat_false, Nat.add_zero] at inFlight
        obtain ⟨back, equal, live, addrKnown, dataKnown, -⟩ :=
          storeEn_seen writes (fun earlier _ => holds earlier) valid
        have clear := clear_of_storeEn oneGroup channels delivers writes reads off valid
        have ordered : back ≤ time := by omega
        rw [inFlight] at live addrKnown dataKnown clear
        exact ⟨by rw [if_neg (by simp), now.issue, inFlight],
          ⟨addrKnown.mono ordered, dataKnown.mono ordered⟩,
          live.2.trans_le (run.numStores_mono ordered), clear⟩
    | true =>
        rw [if_pos stage] at valid
        simp only [stage, valid, Bool.and_self, Bool.toNat_true] at inFlight pending
        have seen := now.seen.trans (run.numStores_mono (Nat.sub_le _ _))
        have waiting : run.accepted time < run.issued time := by omega
        exact ⟨by rw [if_pos rfl]; exact pending trivial, now.known _ waiting, by omega,
          clear_of_issued oneGroup channels delivers writes reads off waiting⟩
  have live : run.StLive time (run.accepted time) := ⟨writes time, there⟩
  refine ⟨there, ?_, clear⟩
  rw [Cycle.wreqAddr, Cycle.wreqData, index, muxLookUp_of_lt slot, muxLookUp_of_lt slot,
    live.stqAddr oneGroup delivers writes off known.1,
    live.stqData oneGroup delivers writes off known.2]
  rfl

/-- The writes accepted are those of the first stores of the program. -/
theorem writes_eq (time : Nat) : run.writes time = (List.range (run.accepted time)).map run.write := by
  induction time with
  | zero => rfl
  | succ time inductionHypothesis =>
      rw [accepted_succ]
      cases fires : (run.cycle time).wreqValid && (run.inputs time).wreqReady with
      | false =>
          rw [Run.writes, transfers_succ_of_idle fires, Bool.toNat_false, Nat.add_zero]
          exact inductionHypothesis
      | true =>
          have valid := (Bool.and_eq_true_iff.mp fires).1
          have payload := (wreqValid_seen oneGroup channels delivers writes reads off valid).2.1
          rw [Run.writes, transfers_succ_of_fires fires, Bool.toNat_true, List.range_succ,
            List.map_append, List.map_singleton, ← payload]
          exact congrArg (· ++ _) inductionHypothesis

end Requests

end Run

end Dynamatic.Lsq
