import Dynamatic.Lsq.Loads

/-!
# The store queue

Without store responses to the kernel, stores leave the queue in order as their write
responses come. The issue pointer runs between the oldest store left and the tail, and
may meet the tail with the queue full; then only the stall bit keeps it from issuing
the oldest stores again. `StoresHold` relates the store queue's registers to the
stores of the run, numbered in program order, and says what the pipelined issue
decision has seen of them.
-/

namespace Dynamatic.Lsq

open Dynamatic.Clocked

variable {configs : Configs}

namespace Configs

variable (configs : Configs)

theorem someStq : 0 < configs.numStqEntries := Nat.lt_of_lt_of_le (by decide) configs.someStqAddr

end Configs

namespace Run

variable (run : Run configs)

/-- The write responses before a cycle. -/
def responded (time : Nat) : Nat := (run.responses time).length

/-- The writes accepted before a cycle. -/
def accepted (time : Nat) : Nat := (run.writes time).length

/-- The memory answers only writes it has accepted. -/
def AnswersWrites : Prop := ∀ time, run.responded time ≤ run.accepted time

/-- The stores issued to the memory stage before a cycle. -/
def issued : Nat → Nat
  | 0 => 0
  | time + 1 => issued time + (run.cycle time).stqIssueEn.toNat

/-- The address tokens taken on a store port before a cycle. -/
def stAddrCount (time port : Nat) : Nat := (run.stAddrTokens port time).length

/-- The data tokens taken on a store port before a cycle. -/
def stDataCount (time port : Nat) : Nat := (run.stDataTokens port time).length

/-- The address of a store. -/
noncomputable def stAddrOf (store : Nat) : BitVec configs.addrW :=
  run.stAddr (run.stPort store) (rank run.stPort store)

/-- The data of a store. -/
noncomputable def stDataOf (store : Nat) : BitVec configs.dataW :=
  run.stData (run.stPort store) (rank run.stPort store)

/-- The address of a store has come by a cycle. -/
def StAddrKnown (time store : Nat) : Prop :=
  rank run.stPort store < run.stAddrCount time (run.stPort store)

/-- The data of a store has come by a cycle. -/
def StDataKnown (time store : Nat) : Prop :=
  rank run.stPort store < run.stDataCount time (run.stPort store)

/-- A store is in the queue. -/
def StLive (time store : Nat) : Prop := run.responded time ≤ store ∧ store < run.numStores time

/-- The store queue's registers stand for the stores of the run. -/
structure StoresHold (time : Nat) : Prop where
  queue : Queue configs.numStqEntries (run.cycle time).state.stqAlloc
    (run.cycle time).state.stqHead (run.cycle time).state.stqTail (run.StLive time)
    (run.responded time) (run.numStores time)
  resp : (run.cycle time).state.stqResp = run.responded time % configs.numStqEntries
  issue : (run.cycle time).state.stqIssue = run.issued time % configs.numStqEntries
  ports : ∀ store < run.numStores time, run.stPort store < configs.numStPorts
  portIdx : ∀ store, run.StLive time store →
    (run.cycle time).state.stqPortIdx (store % configs.numStqEntries) = run.stPort store
  addr : (run.cycle time).sta.Delivery (run.cycle time).state.stqAddr run.stPort (run.StLive time)
    (run.numStores time) (run.numStores (time - 1)) (run.stAddrCount time) run.stAddrOf
  data : (run.cycle time).std.Delivery (run.cycle time).state.stqData run.stPort (run.StLive time)
    (run.numStores time) (run.numStores (time - 1)) (run.stDataCount time) run.stDataOf
  inFlight : run.issued time =
    run.accepted time + (configs.pipe1 && (run.cycle time).state.storeEnP1Q).toNat
  pending : (configs.pipe1 && (run.cycle time).state.storeEnP1Q) = true →
    (run.cycle time).state.storeIdxP1Q = run.accepted time % configs.numStqEntries
  known : ∀ store < run.issued time, run.StAddrKnown time store ∧ run.StDataKnown time store
  /-- Only stores are issued that the decision has seen. -/
  seen : run.issued time ≤ run.numStores (time - configs.lag)
  /-- With every store it has seen issued, the decision is stalled, or the next entry was
  free. -/
  notRepeated : run.issued time = run.numStores (time - configs.lag) →
    (run.cycle time).state.storeIssueStall = true ∨
      run.issued time < run.responded (time - configs.lag) + configs.numStqEntries
  /-- While it is stalled, the tail has not moved. -/
  stalled : (run.cycle time).state.storeIssueStall = true →
    0 < run.issued time ∧ run.issued time = run.numStores (time - 1 - configs.compLag)

section Growth

variable {run} {time early late : Nat}

theorem responded_succ :
    run.responded (time + 1) = run.responded time + (run.inputs time).wrespValid.toNat :=
  length_transfers_succ time

theorem accepted_succ : run.accepted (time + 1) =
    run.accepted time + ((run.cycle time).wreqValid && (run.inputs time).wreqReady).toNat :=
  length_transfers_succ time

theorem stAddrCount_succ (port : Nat) : run.stAddrCount (time + 1) port =
    run.stAddrCount time port +
      ((run.inputs time).stpAddrValid port && (run.cycle time).sta.portReady port).toNat :=
  length_transfers_succ time

theorem stDataCount_succ (port : Nat) : run.stDataCount (time + 1) port =
    run.stDataCount time port +
      ((run.inputs time).stpDataValid port && (run.cycle time).std.portReady port).toNat :=
  length_transfers_succ time

theorem responded_mono (run : Run configs) (ordered : early ≤ late) : run.responded early ≤ run.responded late :=
  length_transfers_mono ordered

/-- The responses of a memory that answers once. -/
theorem responded_of_once {cycle : Nat}
    (once : ∀ time, (run.inputs time).wrespValid = decide (time = cycle)) (time : Nat) :
    run.responded time = if time ≤ cycle then 0 else 1 := by
  induction time with
  | zero => simp [responded, responses, transfers]
  | succ time inductionHypothesis =>
      rw [responded_succ, inductionHypothesis, once]
      by_cases here : time = cycle
      · simp [here]
      · by_cases early : time ≤ cycle
        · simp [here, early, show time + 1 ≤ cycle by omega]
        · simp [here, early, show ¬ time + 1 ≤ cycle by omega]

/-- A memory that answers once, after a write, answers what it has accepted. -/
theorem answersWrites_of_once {cycle : Nat}
    (once : ∀ time, (run.inputs time).wrespValid = decide (time = cycle))
    (written : 1 ≤ run.accepted (cycle + 1)) : run.AnswersWrites := by
  intro time
  rw [responded_of_once once]
  split
  · exact Nat.zero_le _
  · exact written.trans (length_transfers_mono (by omega))

theorem StAddrKnown.mono {store : Nat} (known : run.StAddrKnown early store)
    (ordered : early ≤ late) : run.StAddrKnown late store :=
  Nat.lt_of_lt_of_le known (length_transfers_mono ordered)

theorem StDataKnown.mono {store : Nat} (known : run.StDataKnown early store)
    (ordered : early ≤ late) : run.StDataKnown late store :=
  Nat.lt_of_lt_of_le known (length_transfers_mono ordered)

end Growth

variable {run} {time : Nat}

theorem storesHold_zero : run.StoresHold 0 := by
  have reset := run.reset
  have noStore : ∀ store, ¬ run.StLive 0 store := fun store live => Nat.not_lt_zero _ live.2
  refine ⟨⟨?_, ?_, ?_⟩, ?_, ?_, ?_, ?_, ?_, ?_, ?_, ?_, ?_, ?_, ?_, ?_⟩
  · exact (Ring.empty _ 0 (fun index => reset.stqAlloc index)).congr _ fun store =>
      ⟨False.elim, noStore store⟩
  · rw [state_zero, reset.stqHead]
    rfl
  · rw [state_zero, reset.stqTail]
    rfl
  · rw [state_zero, reset.stqResp]
    rfl
  · rw [state_zero, reset.stqIssue]
    rfl
  · intro store before
    exact absurd before (Nat.not_lt_zero _)
  · intro store live
    exact absurd live (noStore store)
  · exact ⟨⟨fun store live => absurd live (noStore store), fun store before => absurd before (Nat.not_lt_zero _)⟩,
      fun p _ => Nat.zero_le _, fun store before => absurd before (Nat.not_lt_zero _)⟩
  · exact ⟨⟨fun store live => absurd live (noStore store), fun store before => absurd before (Nat.not_lt_zero _)⟩,
      fun p _ => Nat.zero_le _, fun store before => absurd before (Nat.not_lt_zero _)⟩
  · rw [state_zero, reset.storeEnP1Q, Bool.and_false]
    rfl
  · rw [state_zero, reset.storeEnP1Q, Bool.and_false]
    intro none
    cases none
  · intro store before
    exact absurd before (Nat.not_lt_zero _)
  · exact Nat.zero_le _
  · intro _
    right
    have someStq := configs.someStq
    have none : run.issued 0 = 0 := rfl
    omega
  · rw [state_zero, reset.storeIssueStall]
    intro none
    cases none

namespace StoresHold

variable (holds : run.StoresHold time)

include holds

theorem serves_sta : (run.cycle time).sta.Serves run.stPort (run.StLive time) (run.responded time)
    (run.numStores time) where
  ring := holds.queue.ring
  headOh := congrArg bitsToOH holds.queue.head
  ports store live := ⟨holds.ports store live.2, holds.portIdx store live⟩

theorem serves_std : (run.cycle time).std.Serves run.stPort (run.StLive time) (run.responded time)
    (run.numStores time) where
  ring := holds.queue.ring
  headOh := congrArg bitsToOH holds.queue.head
  ports store live := ⟨holds.ports store live.2, holds.portIdx store live⟩

/-- The empty flag looks at the oldest store. -/
theorem stqEmpty_iff : (run.cycle time).stqEmpty = true ↔ ∀ store, ¬ run.StLive time store := by
  have slot := Nat.mod_lt (run.responded time) configs.someStq
  rw [Cycle.stqEmpty, holds.queue.head, muxLookUp_of_lt slot, Bool.not_eq_true',
    ← Bool.not_eq_true]
  have oldest := holds.queue.ring.alloc_iff (Nat.le_refl _)
    (Nat.lt_add_of_pos_right configs.someStq)
  rw [oldest]
  have ordered := holds.queue.ring.ordered
  constructor
  · intro none store live
    exact none ⟨Nat.le_refl _, Nat.lt_of_le_of_lt live.1 live.2⟩
  · intro none
    exact none _

/-- A group is accepted only into free entries. -/
theorem room (oneGroup : run.OneGroup) :
    run.numStores (time + 1) ≤ run.responded time + configs.numStqEntries := by
  obtain ⟨fits, less⟩ := numStores_le oneGroup
  obtain ⟨first, after, before, rest, room⟩ :=
    holds.queue.room (fun empty => holds.stqEmpty_iff.mp empty) less fits
  rw [numStores_succ oneGroup]
  rcases Nat.lt_or_ge (run.responded time) (run.numStores time) with some | none
  · have := rest _ ⟨Nat.le_refl _, some⟩
    omega
  · have ordered := holds.queue.ring.ordered
    omega

theorem responded_le_issued (writes : run.AnswersWrites) :
    run.responded time ≤ run.issued time := by
  have answered := writes time
  have inFlight := holds.inFlight
  omega

end StoresHold

/-- What a valid store request has seen: the store at the issue pointer, with its address
and data, `lag` cycles back. -/
theorem storeReqValidP0_seen (valid : (run.cycle time).storeReqValidP0 = true)
    (slot : (run.cycle time).state.stqIssue < configs.numStqEntries) :
    ∃ back, time = back + configs.lag ∧
      (run.cycle back).state.stqAlloc (run.cycle time).state.stqIssue = true ∧
      (run.cycle back).state.stqAddrValid (run.cycle time).state.stqIssue = true ∧
      (run.cycle back).state.stqDataValid (run.cycle time).state.stqIssue = true := by
  rcases Nat.lt_or_ge time configs.zeroLag with early | decided
  · rw [(decides_early early).2.2] at valid
    cases valid
  · obtain ⟨checked, rfl⟩ := Nat.exists_eq_add_of_le' decided
    rw [storeReqValidP0_eq, Cycle.storeReqValidAt, muxLookUp_of_lt slot] at valid
    simp only [Cycle.storeReqValidArr, Bool.and_eq_true] at valid
    rcases Nat.lt_or_ge checked configs.compLag with early | compared
    · rw [(compares_early early _).2] at valid
      cases valid.1.1
    · obtain ⟨back, rfl⟩ := Nat.exists_eq_add_of_le' compared
      have compares := run.compares back
      rw [compares.stqAlloc, compares.stqAddrValid, compares.stqDataValid] at valid
      exact ⟨back, Nat.add_assoc _ _ _, valid.1.1, valid.1.2, valid.2⟩

/-- A pointer that advances when it is enabled counts how often it was. -/
private theorem pointer_step {size : Nat} (someSlot : 0 < size) (count : Nat) (enable : Bool) :
    (if enable then wrapAddConst size (count % size) 1 else count % size) =
      (count + enable.toNat) % size := by
  cases enable with
  | false => rfl
  | true => rw [if_pos rfl, wrapAddConst_eq (Nat.mod_lt _ someSlot) someSlot, Nat.mod_add_mod]; rfl

section Step

variable (oneGroup : run.OneGroup) (writes : run.AnswersWrites)
  (holds : ∀ earlier ≤ time, run.StoresHold earlier)

include writes holds

/-- The store that may be issued is the next one, and its address and data came at least
two cycles after it was allocated. -/
theorem storeEn_seen (enabled : (run.cycle time).storeEn = true) :
    ∃ back, time = back + configs.lag ∧ run.StLive back (run.issued time) ∧
      run.StAddrKnown back (run.issued time) ∧ run.StDataKnown back (run.issued time) ∧
      run.issued time < run.numStores (back - 1) := by
  have now := holds time (Nat.le_refl _)
  simp only [Cycle.storeEn, Bool.and_eq_true, Bool.not_eq_true'] at enabled
  obtain ⟨⟨-, valid⟩, running⟩ := enabled
  have slot := Nat.mod_lt (run.issued time) configs.someStq
  rw [← now.issue] at slot
  obtain ⟨back, rfl, alloc, addrValid, dataValid⟩ := storeReqValidP0_seen valid slot
  have past := holds back (Nat.le_add_right _ _)
  rw [now.issue] at alloc addrValid dataValid
  have seen := now.seen
  have notRepeated := now.notRepeated
  rw [Nat.add_sub_cancel, running] at notRepeated
  rw [Nat.add_sub_cancel] at seen
  have least : run.responded back ≤ run.issued (back + configs.lag) :=
    (run.responded_mono (Nat.le_add_right _ _)).trans (now.responded_le_issued writes)
  have fits := past.queue.ring.fits
  have live : run.StLive back (run.issued (back + configs.lag)) := by
    refine (past.queue.ring.alloc_iff least ?_).mp alloc
    rcases Nat.eq_or_lt_of_le seen with all | some
    · rcases notRepeated all with stalled | free
      · cases stalled
      · exact free
    · omega
  have addrKnown : run.StAddrKnown back (run.issued (back + configs.lag)) := by
    have shown := (past.addr.delivered.valid _ live).symm.trans addrValid
    rwa [decide_eq_true_eq] at shown
  have dataKnown : run.StDataKnown back (run.issued (back + configs.lag)) := by
    have shown := (past.data.delivered.valid _ live).symm.trans dataValid
    rwa [decide_eq_true_eq] at shown
  exact ⟨back, rfl, live, addrKnown, dataKnown,
    past.addr.lt_seen (past.ports _ live.2) addrKnown⟩

/-- Every store issued by the end of a cycle has its address and data. -/
theorem issued_succ_known {store : Nat} (before : store < run.issued (time + 1)) :
    run.StAddrKnown time store ∧ run.StDataKnown time store ∧ store < run.numStores time := by
  have now := holds time (Nat.le_refl _)
  rw [issued] at before
  rcases Nat.lt_or_ge store (run.issued time) with old | new
  · have seen := now.seen.trans (run.numStores_mono (Nat.sub_le _ _))
    exact ⟨(now.known store old).1, (now.known store old).2, by omega⟩
  · have enabled : (run.cycle time).stqIssueEn = true := by
      cases issues : (run.cycle time).stqIssueEn with
      | true => rfl
      | false =>
          rw [issues, Bool.toNat_false] at before
          omega
    rw [enabled, Bool.toNat_true] at before
    obtain rfl : store = run.issued time := by omega
    rw [Cycle.stqIssueEn, Bool.and_eq_true] at enabled
    obtain ⟨back, equal, live, addrKnown, dataKnown, -⟩ := storeEn_seen writes holds enabled.1
    have ordered : back ≤ time := by omega
    exact ⟨addrKnown.mono ordered, dataKnown.mono ordered,
      Nat.lt_of_lt_of_le live.2 (run.numStores_mono ordered)⟩

theorem issued_succ_le : run.issued (time + 1) ≤ run.numStores time := by
  rcases Nat.eq_zero_or_pos (run.issued (time + 1)) with none | some
  · omega
  · have last := (issued_succ_known writes holds
      (by omega : run.issued (time + 1) - 1 < run.issued (time + 1))).2.2
    omega

omit writes in
/-- A write leaves the memory stage as it is accepted, and a store enters it as it is
issued. -/
theorem inFlight_succ : run.issued (time + 1) =
      run.accepted (time + 1) + (configs.pipe1 && (run.cycle (time + 1)).state.storeEnP1Q).toNat ∧
    ((configs.pipe1 && (run.cycle (time + 1)).state.storeEnP1Q) = true →
      (run.cycle (time + 1)).state.storeIdxP1Q = run.accepted (time + 1) % configs.numStqEntries) := by
  have now := holds time (Nat.le_refl _)
  have inFlight := now.inFlight
  have pending := now.pending
  rw [accepted_succ, issued, state_succ]
  cases stage : configs.pipe1 with
  | false =>
      simp only [stage, Bool.false_and, Bool.toNat_false] at inFlight ⊢
      refine ⟨?_, by simp⟩
      simp only [Cycle.stqIssueEn, Cycle.storeP1Ready, Cycle.wreqValid, Cycle.storeEnP1, stage,
        Bool.false_eq_true, if_false, input_cycle]
      omega
  | true =>
      simp only [stage, Bool.true_and] at inFlight pending ⊢
      simp only [Cycle.next, Cycle.stqIssueEn, Cycle.storeP1Ready, Cycle.wreqValid, Cycle.storeEnP1,
        stage, if_true, input_cycle]
      cases holding : (run.cycle time).state.storeEnP1Q with
      | false =>
          simp only [holding, Bool.false_and, Bool.not_false, Bool.or_true, Bool.and_true, if_true,
            Bool.toNat_false] at inFlight ⊢
          refine ⟨by omega, fun _ => ?_⟩
          rw [now.issue, inFlight]
      | true =>
          simp only [holding, Bool.true_and, Bool.not_true, Bool.or_false, Bool.toNat_true]
            at inFlight pending ⊢
          cases ready : (run.inputs time).wreqReady with
          | true =>
              simp only [Bool.and_true, if_true, Bool.toNat_true]
              refine ⟨by omega, fun _ => ?_⟩
              rw [now.issue, inFlight]
          | false =>
              simp only [Bool.and_false, Bool.false_eq_true, if_false, Bool.toNat_false,
                Bool.toNat_true, Nat.add_zero]
              exact ⟨inFlight, fun _ => pending trivial⟩

/-- A store is answered only once it was issued. -/
theorem responded_succ_le : run.responded (time + 1) ≤ run.issued (time + 1) := by
  have answered := writes (time + 1)
  have inFlight := (inFlight_succ holds).1
  omega

include oneGroup

/-- The stores left in the queue after a cycle. -/
theorem stLive_succ (store : Nat) :
    run.StLive (time + 1) store ↔
      run.numStores time ≤ store ∧ store < run.numStores time + (run.cycle time).numStores ∨
        run.StLive time store ∧
          ((run.inputs time).wrespValid &&
            decide ((run.cycle time).state.stqResp = store % configs.numStqEntries)) = false := by
  have now := holds time (Nat.le_refl _)
  have ordered := now.queue.ring.ordered
  have fits := now.queue.ring.fits
  have answered := (responded_succ_le writes holds).trans (issued_succ_le writes holds)
  rw [StLive, StLive, numStores_succ oneGroup, now.resp]
  rw [responded_succ] at answered ⊢
  cases responds : (run.inputs time).wrespValid with
  | false =>
      simp only [Bool.false_and, and_true, Bool.toNat_false, Nat.add_zero]
      omega
  | true =>
      simp only [responds, Bool.toNat_true, Bool.true_and, decide_eq_false_iff_not] at answered ⊢
      constructor
      · rintro ⟨after, before⟩
        rcases Nat.lt_or_ge store (run.numStores time) with old | new
        · refine .inr ⟨⟨by omega, old⟩, fun same => ?_⟩
          have equal := eq_of_slot configs.numStqEntries _ (Nat.le_refl _)
            (Nat.lt_add_of_pos_right configs.someStq) (by omega) (by omega) same
          omega
        · exact .inl ⟨new, before⟩
      · rintro (⟨new, before⟩ | ⟨⟨after, before⟩, other⟩)
        · omega
        · have notOldest : store ≠ run.responded time := fun equal => other (by rw [equal])
          omega

theorem queue_succ (off : configs.stResp = false) :
    Queue configs.numStqEntries (run.cycle (time + 1)).state.stqAlloc
      (run.cycle (time + 1)).state.stqHead (run.cycle (time + 1)).state.stqTail
      (run.StLive (time + 1)) (run.responded (time + 1)) (run.numStores (time + 1)) := by
  have now := holds time (Nat.le_refl _)
  have answered := (responded_succ_le writes holds).trans (issued_succ_le writes holds)
  obtain ⟨-, less⟩ := numStores_le oneGroup
  have room := now.room oneGroup
  rw [numStores_succ oneGroup] at room
  have stepped := (now.queue.ring.step (run.cycle time).numStores (run.cycle time).stqReset
    (run.cycle time).stqWen room (fun index inside => by
      rw [Cycle.stqWen, now.queue.tail]
      exact wen_iff inside (Nat.le_of_lt less))).congr (run.StLive (time + 1))
    (fun store => by
      rw [stLive_succ oneGroup writes holds, Cycle.stqReset, if_neg (by simp [off]), Cycle.responded]
      rfl)
  rw [← numStores_succ oneGroup] at stepped
  refine ⟨stepped.advance (run.responded_mono (Nat.le_succ _))
    (answered.trans (run.numStores_mono (Nat.le_succ _))) (fun store live => live.1), ?_, ?_⟩
  · rw [state_succ, responded_succ]
    simp only [Cycle.next, Cycle.stqHeadNext, off, Bool.false_eq_true, if_false, input_cycle]
    rw [now.queue.head]
    exact pointer_step configs.someStq _ _
  · rw [state_succ, numStores_succ oneGroup]
    simp only [Cycle.next]
    rw [now.queue.tail, wrapAdd_eq (Nat.mod_lt _ configs.someStq) (Nat.le_of_lt less),
      Nat.mod_add_mod]

omit writes in
/-- The new entries are behind the old ones. -/
theorem stqWen_eq {store : Nat} (live : run.StLive (time + 1) store) :
    (run.cycle time).stqWen (store % configs.numStqEntries) =
      decide (run.numStores time ≤ store) := by
  have now := holds time (Nat.le_refl _)
  have room := now.room oneGroup
  have after := (run.responded_mono (Nat.le_succ time)).trans live.1
  have before := live.2
  obtain ⟨-, less⟩ := numStores_le oneGroup
  rw [Bool.eq_iff_iff, Cycle.stqWen, now.queue.tail, decide_eq_true_eq,
    show configs.stqAddrW = log2Ceil configs.numStqEntries from rfl,
    wen_iff (Nat.mod_lt _ configs.someStq) (Nat.le_of_lt less), ← numStores_succ oneGroup]
  have ordered := now.queue.ring.ordered
  constructor
  · rintro ⟨entry, isNew, inside, same⟩
    have equal := eq_of_slot configs.numStqEntries (run.responded time)
      (by omega) (by omega) after (by omega) same
    omega
  · intro isNew
    exact ⟨store, isNew, before, rfl⟩

/-- Whichever dispatcher, its tokens are handed out and the stores that leave have
theirs. -/
theorem delivery_succ {width : Nat} {entries entries' : Entries} {register : Nat → BitVec width}
    {portValid : Nat → Bool} {payload : Nat → BitVec width} {count count' : Nat → Nat}
    {value : Nat → BitVec width}
    (delivery : entries.Delivery register run.stPort (run.StLive time) (run.numStores time)
      (run.numStores (time - 1)) count value)
    (serves : entries.Serves run.stPort (run.StLive time) (run.responded time) (run.numStores time))
    (size : entries.numEntries = configs.numStqEntries)
    (sameEntries : entries'.numEntries = entries.numEntries)
    (numPorts : entries.numPorts = configs.numStPorts) (samePorts : entries'.numPorts = entries.numPorts)
    (valid' : ∀ index, entries'.payloadValid index = (!(run.cycle time).stqWen index &&
      (entries.entryWen portValid index || entries.payloadValid index)))
    (ports : ∀ store < run.numStores (time + 1), run.stPort store < configs.numStPorts)
    (counted : ∀ p, count' p = count p + (portValid p && entries.portReady p).toNat)
    (known : ∀ store < run.issued (time + 1), rank run.stPort store < count (run.stPort store))
    (stream : ∀ p < configs.numStPorts, portValid p = true → entries.portReady p = true →
      ∀ store, run.stPort store = p → rank run.stPort store = count p → payload p = value store) :
    entries'.Delivery
      (fun index => if entries.entryWen portValid index then entries.entryPayload payload index
        else register index)
      run.stPort (run.StLive (time + 1)) (run.numStores (time + 1)) (run.numStores time) count'
      value := by
  have now := holds time (Nat.le_refl _)
  obtain ⟨-, less⟩ := numStores_le oneGroup
  have room := now.room oneGroup
  have answered := responded_succ_le writes holds
  have added : run.numStores (time + 1) = _ := numStores_succ oneGroup
  have live' := stLive_succ oneGroup writes holds
  rw [added] at ports room ⊢
  refine delivery.step serves (run.numStores_mono (Nat.sub_le _ _)) (by rw [size]; exact configs.someStq)
    sameEntries samePorts valid' (fun index inside => ?_)
    (by rw [size]; exact room)
    (fun store live => (run.responded_mono (Nat.le_succ _)).trans live.1) (fun store live => ?_)
    (fun store live waiting => ?_) (fun store new before => ?_)
    (by rw [numPorts]; exact ports) (fun p _ => counted p) (fun store live valid turn ready => ?_)
  · rw [size] at inside ⊢
    rw [Cycle.stqWen, now.queue.tail]
    exact wen_iff inside (Nat.le_of_lt less)
  · rcases (live' store).mp live with new | ⟨old, -⟩
    · exact .inl new
    · exact .inr old
  · refine ⟨?_, Nat.lt_of_lt_of_le live.2 (run.numStores_mono (Nat.le_succ _))⟩
    by_contra gone
    have isKnown := known store (by omega)
    rw [counted] at waiting
    omega
  · exact (live' store).mpr (.inl ⟨new, before⟩)
  · exact stream _ (ports store (Nat.lt_of_lt_of_le live.2 (by omega))) valid ready store rfl turn

omit writes in
/-- The reset of the stall bit tells that the tail moved. -/
theorem storeIssueStallReset_eq (late : 1 + configs.compLag ≤ time) :
    (run.cycle time).storeIssueStallReset =
      decide (run.numStores (time - 1 - configs.compLag) < run.numStores (time - configs.compLag)) := by
  obtain ⟨moved, rfl⟩ := Nat.exists_eq_add_of_le' late
  have update := run.stqTailUpdatePcomp_eq moved
  rw [Cycle.storeIssueStallReset, show moved + (1 + configs.compLag) = moved + 1 + configs.compLag by
    omega, update, decide_eq_decide,
    show moved + 1 + configs.compLag - 1 - configs.compLag = moved by omega,
    show moved + 1 + configs.compLag - configs.compLag = moved + 1 by omega, numStores_succ oneGroup]
  omega

omit oneGroup in
/-- The stall bit is set as the last store is issued. -/
theorem storeIssueStallSet_eq :
    (run.cycle time).storeIssueStallSet =
      ((run.cycle time).stqIssueEn && decide (run.issued time + 1 = run.numStores time)) := by
  have now := holds time (Nat.le_refl _)
  rw [Cycle.storeIssueStallSet, Cycle.stqIssueNext, now.issue, now.queue.tail,
    wrapAddConst_eq (Nat.mod_lt _ configs.someStq) configs.someStq, Nat.mod_add_mod]
  cases issues : (run.cycle time).stqIssueEn with
  | false => simp
  | true =>
      have least := now.responded_le_issued writes
      have fits := now.queue.ring.fits
      have next := issued_succ_le writes holds
      rw [issued, issues, Bool.toNat_true] at next
      have meets : (run.issued time + 1) % configs.numStqEntries =
            run.numStores time % configs.numStqEntries ↔
          run.issued time + 1 = run.numStores time := by
        refine ⟨fun same => ?_, fun equal => by rw [equal]⟩
        exact eq_of_slot configs.numStqEntries (run.issued time + 1)
          (Nat.le_refl _) (Nat.lt_add_of_pos_right configs.someStq) next (by omega) same
      simp [meets]

theorem stalled_succ (stalls : (run.cycle (time + 1)).state.storeIssueStall = true) :
    0 < run.issued (time + 1) ∧
      run.issued (time + 1) = run.numStores (time + 1 - 1 - configs.compLag) := by
  have now := holds time (Nat.le_refl _)
  rw [state_succ] at stalls
  simp only [Cycle.next, Bool.and_eq_true, Bool.not_eq_true', Bool.or_eq_true] at stalls
  obtain ⟨unmoved, stall | set⟩ := stalls
  · have idle : (run.cycle time).stqIssueEn = false := by
      simp [Cycle.stqIssueEn, Cycle.storeEn, stall]
    obtain ⟨some, last⟩ := now.stalled stall
    rw [issued, idle, Bool.toNat_false, Nat.add_zero]
    refine ⟨some, ?_⟩
    rcases Nat.lt_or_ge time (1 + configs.compLag) with early | late
    · rw [show time - 1 - configs.compLag = 0 by omega] at last
      have none : run.numStores 0 = 0 := rfl
      omega
    · rw [storeIssueStallReset_eq oneGroup holds late, decide_eq_false_iff_not] at unmoved
      have grows := run.numStores_mono
        (by omega : time - 1 - configs.compLag ≤ time - configs.compLag)
      rw [Nat.add_sub_cancel]
      omega
  · rw [storeIssueStallSet_eq writes holds, Bool.and_eq_true, decide_eq_true_eq] at set
    obtain ⟨issues, all⟩ := set
    have enabled := issues
    rw [Cycle.stqIssueEn, Bool.and_eq_true] at enabled
    obtain ⟨back, equal, -, -, -, early⟩ := storeEn_seen writes holds enabled.1
    rw [issued, issues, Bool.toNat_true, Nat.add_sub_cancel]
    rw [Configs.lag] at equal
    have least := run.numStores_mono (by omega : back - 1 ≤ time - configs.compLag)
    have most := run.numStores_mono (by omega : time - configs.compLag ≤ time)
    omega

theorem notRepeated_succ (all : run.issued (time + 1) = run.numStores (time + 1 - configs.lag)) :
    (run.cycle (time + 1)).state.storeIssueStall = true ∨
      run.issued (time + 1) <
        run.responded (time + 1 - configs.lag) + configs.numStqEntries := by
  have now := holds time (Nat.le_refl _)
  have compLag_le := configs.compLag_le
  have zeroLag_le := configs.zeroLag_le
  have lagEq : configs.lag = configs.compLag + configs.zeroLag := rfl
  rw [state_succ]
  simp only [Cycle.next, Bool.and_eq_true, Bool.not_eq_true', Bool.or_eq_true]
  cases issues : (run.cycle time).stqIssueEn with
  | true =>
      have enabled := issues
      rw [Cycle.stqIssueEn, Bool.and_eq_true] at enabled
      obtain ⟨back, equal, -, -, -, early⟩ := storeEn_seen writes holds enabled.1
      have more : run.issued (time + 1) = run.issued time + 1 := by
        rw [issued, issues, Bool.toNat_true]
      have late : 1 < back := by
        by_contra notLate
        rw [show back - 1 = 0 by omega] at early
        exact absurd early (Nat.not_lt_zero _)
      have bounds := run.numStores_mono (by omega : back - 1 ≤ time + 1 - configs.lag)
      rcases Nat.lt_or_ge (run.issued (time + 1)) (run.numStores time) with moved | last
      · -- The tail moved in the one cycle that the decision has not seen: its entry was free.
        have behind : back + 1 < time := by
          by_contra notBehind
          have := run.numStores_mono (by omega : time ≤ time + 1 - configs.lag)
          omega
        have room := (holds (back + 1) (by omega)).room oneGroup
        rw [show back + 1 + 1 = time by omega] at room
        rw [show time + 1 - configs.lag = back + 1 by omega]
        exact .inr (by omega)
      · refine .inl ⟨?_, .inr ?_⟩
        · rw [storeIssueStallReset_eq oneGroup holds (by omega), decide_eq_false_iff_not]
          have least := run.numStores_mono
            (by omega : back - 1 ≤ time - 1 - configs.compLag)
          have most := run.numStores_mono (by omega : time - configs.compLag ≤ time)
          omega
        · have bound := issued_succ_le writes holds
          rw [storeIssueStallSet_eq writes holds, issues, Bool.true_and,
            decide_eq_true_eq]
          omega
  | false =>
      have same : run.issued (time + 1) = run.issued time := by
        rw [issued, issues, Bool.toNat_false, Nat.add_zero]
      have seen := now.seen
      have grows := run.numStores_mono (by omega : time - configs.lag ≤ time + 1 - configs.lag)
      rcases now.notRepeated (by omega) with stall | free
      · obtain ⟨some, last⟩ := now.stalled stall
        refine .inl ⟨?_, .inl stall⟩
        have late : 1 + configs.compLag ≤ time := by
          by_contra notLate
          rw [show time - 1 - configs.compLag = 0 by omega] at last
          have none : run.numStores 0 = 0 := rfl
          omega
        rw [storeIssueStallReset_eq oneGroup holds late, decide_eq_false_iff_not]
        have most := run.numStores_mono
          (by omega : time - configs.compLag ≤ time + 1 - configs.lag)
        omega
      · have grows := run.responded_mono
          (by omega : time - configs.lag ≤ time + 1 - configs.lag)
        exact .inr (by omega)

omit oneGroup in
theorem seen_succ : run.issued (time + 1) ≤ run.numStores (time + 1 - configs.lag) := by
  have now := holds time (Nat.le_refl _)
  have grows := run.numStores_mono (by omega : time - configs.lag ≤ time + 1 - configs.lag)
  cases issues : (run.cycle time).stqIssueEn with
  | false =>
      rw [issued, issues, Bool.toNat_false, Nat.add_zero]
      exact now.seen.trans grows
  | true =>
      have enabled := issues
      rw [Cycle.stqIssueEn, Bool.and_eq_true] at enabled
      obtain ⟨back, equal, live, -⟩ := storeEn_seen writes holds enabled.1
      rw [issued, issues, Bool.toNat_true]
      rw [show time - configs.lag = back by omega] at grows
      exact Nat.lt_of_lt_of_le live.2 grows

theorem storesHold_succ (off : configs.stResp = false) (delivers : run.Delivers) :
    run.StoresHold (time + 1) := by
  have now := holds time (Nat.le_refl _)
  have ports : ∀ store < run.numStores (time + 1), run.stPort store < configs.numStPorts := by
    intro store before
    rcases Nat.lt_or_ge store (run.numStores time) with old | new
    · exact now.ports store old
    · exact (allocated_store oneGroup new before).1
  have known := fun store (before : store < run.issued (time + 1)) =>
    issued_succ_known writes holds before
  have inFlight := inFlight_succ holds
  refine ⟨queue_succ oneGroup writes holds off, ?_, ?_, ports, fun store live => ?_, ?_, ?_,
    inFlight.1, inFlight.2, fun store before => ?_, seen_succ writes holds,
    notRepeated_succ oneGroup writes holds, stalled_succ oneGroup writes holds⟩
  · rw [state_succ, responded_succ]
    simp only [Cycle.next, now.resp, input_cycle]
    exact pointer_step configs.someStq _ _
  · rw [state_succ]
    simp only [Cycle.next, now.issue]
    exact pointer_step configs.someStq _ _
  · rw [state_succ]
    simp only [Cycle.next, stqWen_eq oneGroup holds live]
    rcases Nat.lt_or_ge store (run.numStores time) with old | new
    · rw [if_neg (by simpa using old)]
      exact now.portIdx store ⟨(run.responded_mono (Nat.le_succ _)).trans live.1, old⟩
    · have fits := (queue_succ oneGroup writes holds off).ring.fits
      have room := now.room oneGroup
      have ordered := now.queue.ring.ordered
      have before := live.2
      rw [if_pos (by simpa using new), Cycle.stqPortIdxIn, now.queue.tail, Configs.stqAddrW,
        cyclicLeftShift_entry new (by omega)]
      exact (allocated_store oneGroup new live.2).2
  · refine delivery_succ oneGroup writes holds now.addr now.serves_sta rfl rfl rfl rfl (fun _ => rfl)
      ports stAddrCount_succ (fun store before => (known store before).1) ?_
    rintro _ bounded valid ready store rfl turn
    refine (delivers.stAddr time _ bounded valid ready).trans ?_
    rw [stAddrOf, turn]
    rfl
  · refine delivery_succ oneGroup writes holds now.data now.serves_std rfl rfl rfl rfl (fun _ => rfl)
      ports stDataCount_succ (fun store before => (known store before).2.1) ?_
    rintro _ bounded valid ready store rfl turn
    refine (delivers.stData time _ bounded valid ready).trans ?_
    rw [stDataOf, turn]
    rfl
  · exact ⟨(known store before).1.mono (Nat.le_succ _), (known store before).2.1.mono (Nat.le_succ _)⟩

end Step

/-- In every cycle of a run the store queue stands for the stores of the run. -/
theorem storesHold (off : configs.stResp = false) (oneGroup : run.OneGroup)
    (delivers : run.Delivers) (writes : run.AnswersWrites) (time : Nat) : run.StoresHold time := by
  induction time using Nat.strong_induction_on with
  | _ time inductionHypothesis =>
      cases time with
      | zero => exact storesHold_zero
      | succ time =>
          exact storesHold_succ oneGroup writes
            (fun earlier before => inductionHypothesis earlier (Nat.lt_succ_of_le before)) off delivers

end Run

end Dynamatic.Lsq
