import Dynamatic.Lsq.Issue
import Dynamatic.Lsq.Stores

/-!
# The order of loads and stores

Addresses come to the loads of a port in order, since no load leaves the queue
without its own. The order matrix has a bit for each load and store entry; it tells
which of the stores in the queue come before the load in the program.
-/

namespace Dynamatic.Lsq

open Dynamatic.Clocked

variable {configs : Configs}

namespace Run

variable (run : Run configs)

/-- The address tokens taken on a load port before a cycle. -/
def ldAddrCount (time port : Nat) : Nat := (run.ldAddrTokens port time).length

/-- The address of a load. -/
noncomputable def ldAddrOf (load : Nat) : BitVec configs.addrW :=
  run.ldAddr (run.ldPort load) (rank run.ldPort load)

/-- The address of a load has come by a cycle. -/
def LdAddrKnown (time load : Nat) : Prop :=
  rank run.ldPort load < run.ldAddrCount time (run.ldPort load)

variable {run} {time early late load store index : Nat}

theorem ldAddrCount_succ (port : Nat) : run.ldAddrCount (time + 1) port =
    run.ldAddrCount time port +
      ((run.inputs time).ldpAddrValid port && (run.cycle time).lda.portReady port).toNat :=
  length_transfers_succ time

theorem LdAddrKnown.mono (known : run.LdAddrKnown early load) (ordered : early ≤ late) :
    run.LdAddrKnown late load :=
  Nat.lt_of_lt_of_le known (length_transfers_mono ordered)

/-- A load was allocated in some cycle. -/
theorem exists_allocated (there : load < run.numLoads time) :
    ∃ cycle < time, run.numLoads cycle ≤ load ∧ load < run.numLoads (cycle + 1) := by
  induction time with
  | zero => exact absurd there (Nat.not_lt_zero _)
  | succ time inductionHypothesis =>
      rcases Nat.lt_or_ge load (run.numLoads time) with old | new
      · obtain ⟨cycle, before, allocated⟩ := inductionHypothesis old
        exact ⟨cycle, Nat.lt_succ_of_lt before, allocated⟩
      · exact ⟨time, Nat.lt_succ_self _, new, there⟩

section Allocated

variable (oneGroup : run.OneGroup)

include oneGroup

theorem ldPort_lt (there : load < run.numLoads time) : run.ldPort load < configs.numLdPorts := by
  obtain ⟨cycle, -, new, inside⟩ := exists_allocated there
  exact (allocated_load oneGroup new inside).1

/-- The stores before a load are allocated with it or earlier. -/
theorem before_le (there : load < run.numLoads time) : run.before load ≤ run.numStores time := by
  obtain ⟨cycle, earlier, new, inside⟩ := exists_allocated there
  have bounds := (allocated_load oneGroup new inside).2.2.2.1
  exact bounds.trans (run.numStores_mono earlier)

/-- The stores allocated earlier than a load come before it. -/
theorem le_before (new : run.numLoads time ≤ load) (there : load < run.numLoads late) :
    run.numStores time ≤ run.before load := by
  obtain ⟨cycle, -, after, inside⟩ := exists_allocated there
  have bounds := (allocated_load oneGroup after inside).2.2.1
  have ordered : time ≤ cycle := by
    by_contra less
    have grows := run.numLoads_mono (by omega : cycle + 1 ≤ time)
    omega
  exact (run.numStores_mono ordered).trans bounds

theorem ldqPortIdx_eq (occupies : run.Occupies time load) :
    (run.cycle time).state.ldqPortIdx (load % configs.numLdqEntries) = run.ldPort load := by
  induction time with
  | zero => exact absurd occupies.1 (Nat.not_lt_zero _)
  | succ time inductionHypothesis =>
      rw [state_succ]
      simp only [Cycle.next, ldqWen_eq oneGroup occupies]
      rcases Nat.lt_or_ge load (run.numLoads time) with old | new
      · rw [if_neg (by simpa using old)]
        exact inductionHypothesis (occupies.earlier (Nat.le_succ _) old)
      · have less : (run.cycle time).numLoads < configs.numLdqEntries := (numLoads_le oneGroup).2
        have added : run.numLoads (time + 1) = _ := numLoads_succ oneGroup
        have inside := occupies.1
        rw [if_pos (by simpa using new), Cycle.ldqPortIdxIn, ldqTail_eq oneGroup, Configs.ldqAddrW,
          cyclicLeftShift_entry new (by omega)]
        exact (allocated_load oneGroup new inside).2.1

theorem serves_lda (time : Nat) : ∃ start,
    (run.cycle time).lda.Serves run.ldPort (run.LdLive time) start (run.numLoads time) := by
  obtain ⟨start, queue⟩ := loadQueue oneGroup time
  refine ⟨start, queue.ring, congrArg bitsToOH queue.head, fun load live => ?_⟩
  have occupies := live.occupies oneGroup
  exact ⟨ldPort_lt oneGroup occupies.1, ldqPortIdx_eq oneGroup occupies⟩

end Allocated

section Addresses

theorem ldDelivery_zero : (run.cycle 0).lda.Delivery (run.cycle 0).state.ldqAddr run.ldPort
    (run.LdLive 0) (run.numLoads 0) (run.numLoads (0 - 1)) (run.ldAddrCount 0) run.ldAddrOf :=
  ⟨⟨fun _ => False.elim, fun _ before => absurd before (Nat.not_lt_zero _)⟩,
    fun _ _ => Nat.zero_le _, fun _ before => absurd before (Nat.not_lt_zero _)⟩

variable (oneGroup : run.OneGroup) (channels : 0 < configs.numLdMem) (delivers : run.Delivers)
  (reads : run.AnswersRequests)

include oneGroup channels delivers reads

theorem ldDelivery_succ (holds : ∀ earlier ≤ time, (run.cycle earlier).lda.Delivery
      (run.cycle earlier).state.ldqAddr run.ldPort (run.LdLive earlier) (run.numLoads earlier)
      (run.numLoads (earlier - 1)) (run.ldAddrCount earlier) run.ldAddrOf) :
    (run.cycle (time + 1)).lda.Delivery (run.cycle (time + 1)).state.ldqAddr run.ldPort
      (run.LdLive (time + 1)) (run.numLoads (time + 1)) (run.numLoads time)
      (run.ldAddrCount (time + 1)) run.ldAddrOf := by
  obtain ⟨start, serves⟩ := serves_lda oneGroup time
  obtain ⟨first, queue⟩ := loadQueue oneGroup (time + 1)
  have less : (run.cycle time).numLoads < configs.numLdqEntries := (numLoads_le oneGroup).2
  have added : run.numLoads (time + 1) = _ := numLoads_succ oneGroup
  have room := queue.ring.fits
  have ports : ∀ load < run.numLoads (time + 1), run.ldPort load < configs.numLdPorts :=
    fun load there => ldPort_lt oneGroup there
  rw [added] at ports room ⊢
  refine (holds time (Nat.le_refl _)).step serves (run.numLoads_mono (Nat.sub_le _ _))
    configs.someLdq rfl rfl (fun _ => rfl) (fun index inside => ?_) room
    (fun load live => (queue.ring.inside load live).1) (fun load live => ?_)
    (fun load live waiting => ?_) (fun load new before => ?_) ports
    (fun port _ => ldAddrCount_succ port) (fun load live valid turn ready => ?_)
  · change (run.cycle time).ldqWen index = true ↔ _
    rw [Cycle.ldqWen, ldqTail_eq oneGroup]
    exact wen_iff inside (Nat.le_of_lt less)
  · rw [LdLive, added] at live
    exact live.imp id fun kept => kept.1
  · -- A load that leaves has its data, and it was issued with its address.
    rw [LdLive]
    refine .inr ⟨live, Bool.eq_false_iff.mpr fun released => ?_⟩
    have valid := Entries.payloadValid_of_entryReset released
    have received := (ldqDataValid_iff oneGroup (live.occupies oneGroup)).mp valid
    obtain ⟨earlier, before, way, issue, served⟩ :=
      (ldReceived_iff oneGroup channels reads).mp received
    obtain ⟨-, seenLive, addrValid, -⟩ := served.1.seen oneGroup
    have ordered := served.issue_le reads
    have known : run.LdAddrKnown (issue - configs.lag) load := by
      have shown := ((holds (issue - configs.lag) (by omega)).delivered.valid _ seenLive).symm.trans
        addrValid
      rwa [decide_eq_true_eq] at shown
    have still : run.LdAddrKnown (time + 1) load := known.mono (by omega)
    rw [LdAddrKnown] at still
    omega
  · rw [LdLive, added]
    exact .inl ⟨new, before⟩
  · have occupies := live.occupies oneGroup
    have bounded := ldPort_lt oneGroup occupies.1
    refine (delivers.ldAddr time _ bounded valid ready).trans ?_
    rw [ldAddrOf, turn]
    rfl

/-- The load addresses taken went to the loads in order. -/
theorem ldDelivery (time : Nat) : (run.cycle time).lda.Delivery (run.cycle time).state.ldqAddr
    run.ldPort (run.LdLive time) (run.numLoads time) (run.numLoads (time - 1))
    (run.ldAddrCount time) run.ldAddrOf := by
  induction time using Nat.strong_induction_on with
  | _ time inductionHypothesis =>
      cases time with
      | zero => exact ldDelivery_zero
      | succ time =>
          exact ldDelivery_succ oneGroup channels delivers reads fun earlier before =>
            inductionHypothesis earlier (Nat.lt_succ_of_le before)

theorem ldqAddrValid_iff (live : run.LdLive time load) :
    (run.cycle time).state.ldqAddrValid (load % configs.numLdqEntries) = true ↔
      run.LdAddrKnown time load := by
  have shown := (ldDelivery oneGroup channels delivers reads time).delivered.valid load live
  change (run.cycle time).state.ldqAddrValid (load % configs.numLdqEntries) = _ at shown
  rw [shown, decide_eq_true_eq]
  rfl

theorem ldqAddr_eq (live : run.LdLive time load) (known : run.LdAddrKnown time load) :
    (run.cycle time).state.ldqAddr (load % configs.numLdqEntries) = run.ldAddrOf load := by
  obtain ⟨start, serves⟩ := serves_lda oneGroup time
  exact (ldDelivery oneGroup channels delivers reads time).payload serves live known

end Addresses

section Matrix

variable (oneGroup : run.OneGroup) (writes : run.AnswersWrites) (off : configs.stResp = false)
  (holds : ∀ time, run.StoresHold time)

include oneGroup writes off holds

/-- The entry of a new store is not released as it is written. -/
theorem stqReset_of_new (new : run.numStores time ≤ store) (there : store < run.numStores (time + 1)) :
    (run.cycle time).stqReset (store % configs.numStqEntries) = false := by
  have answered : run.responded (time + 1) ≤ run.issued (time + 1) :=
    responded_succ_le writes fun earlier _ => holds earlier
  have issued : run.issued (time + 1) ≤ run.numStores time :=
    issued_succ_le writes fun earlier _ => holds earlier
  have room := (holds time).room oneGroup
  rw [Cycle.stqReset, if_neg (by simp [off]), Cycle.responded, input_cycle, (holds time).resp]
  cases responds : (run.inputs time).wrespValid with
  | false => rfl
  | true =>
      rw [responded_succ, responds, Bool.toNat_true] at answered
      rw [Bool.true_and, decide_eq_false_iff_not]
      intro same
      have equal := eq_of_slot configs.numStqEntries (run.responded time) (Nat.le_refl _)
        (Nat.lt_add_of_pos_right configs.someStq) (by omega) (by omega) same
      omega

/-- The stores left after a cycle are the new ones and those not released. -/
theorem stLive_succ_iff : run.StLive (time + 1) store ↔
    run.numStores time ≤ store ∧ store < run.numStores (time + 1) ∨
      run.StLive time store ∧
        (run.cycle time).stqReset (store % configs.numStqEntries) = false := by
  rw [stLive_succ oneGroup writes fun earlier _ => holds earlier, ← numStores_succ oneGroup,
    Cycle.stqReset, if_neg (by simp [off])]
  rfl

/-- The order matrix tells the stores in the queue that come before a load. -/
theorem storeIsOlder_iff (live : run.LdLive time load) (bounded : index < configs.numStqEntries) :
    (run.cycle time).state.storeIsOlder (load % configs.numLdqEntries) index = true ↔
      ∃ store, run.StLive time store ∧ store % configs.numStqEntries = index ∧
        store < run.before load := by
  induction time generalizing index with
  | zero => exact live.elim
  | succ time inductionHypothesis =>
      have occupies := live.occupies oneGroup
      rw [state_succ]
      simp only [Cycle.next, ldqWen_eq oneGroup occupies]
      rcases Nat.lt_or_ge load (run.numLoads time) with old | new
      · have wasLive : run.LdLive time load := by
          rw [LdLive] at live
          exact (live.resolve_left fun isNew => absurd isNew.1 (Nat.not_le_of_lt old)).1
        have earlier := before_le oneGroup old
        rw [if_neg (by simpa using old), Bool.and_eq_true, Bool.not_eq_true',
          inductionHypothesis wasLive bounded]
        constructor
        · rintro ⟨kept, store, storeLive, rfl, before⟩
          exact ⟨store, (stLive_succ_iff oneGroup writes off holds).mpr (.inr ⟨storeLive, kept⟩), rfl,
            before⟩
        · rintro ⟨store, storeLive, rfl, before⟩
          rcases (stLive_succ_iff oneGroup writes off holds).mp storeLive with ⟨after, -⟩ | ⟨was, kept⟩
          · omega
          · exact ⟨kept, store, was, rfl, before⟩
      · have less : (run.cycle time).numLoads < configs.numLdqEntries := (numLoads_le oneGroup).2
        have added : run.numLoads (time + 1) = _ := numLoads_succ oneGroup
        have inside := occupies.1
        obtain ⟨-, -, afterAll, beforeAll, rom⟩ := allocated_load oneGroup new inside
        obtain ⟨entry, after, last, rfl⟩ := exists_slot (run.numStores time) bounded
        have order : (run.cycle time).gaLsOrder (load % configs.numLdqEntries)
            (entry % configs.numStqEntries) = decide (entry < run.before load) := by
          rw [Cycle.gaLsOrder, ldqTail_eq oneGroup, Configs.ldqAddrW,
            cyclicLeftShift_entry new (by omega), (holds time).queue.tail, Configs.stqAddrW,
            cyclicLeftShift_entry after last, rom, Nat.add_sub_cancel' after]
        rw [if_pos (by simpa using new), order, Bool.and_eq_true, Bool.not_eq_true', Bool.or_eq_true,
          decide_eq_true_eq]
        constructor
        · rintro ⟨kept, allocated | before⟩
          · obtain ⟨store, was, same⟩ := (holds time).queue.ring.occupied _ bounded allocated
            have there := was.2
            refine ⟨store, (stLive_succ_iff oneGroup writes off holds).mpr (.inr ⟨was, ?_⟩), same, by omega⟩
            rwa [same]
          · exact ⟨entry, (stLive_succ_iff oneGroup writes off holds).mpr (.inl ⟨after, by omega⟩), rfl,
              before⟩
        · rintro ⟨store, storeLive, same, before⟩
          rcases (stLive_succ_iff oneGroup writes off holds).mp storeLive with
            ⟨isNew, there⟩ | ⟨was, kept⟩
          · have room := (holds time).room oneGroup
            have ordered := (holds time).queue.ring.ordered
            have equal := eq_of_slot configs.numStqEntries (run.numStores time) isNew
              (by omega) after last same
            subst equal
            exact ⟨stqReset_of_new oneGroup writes off holds isNew there, .inr before⟩
          · rw [← same]
            exact ⟨kept, .inl ((holds time).queue.ring.allocated store was)⟩

end Matrix

end Run

end Dynamatic.Lsq
