import Dynamatic.Lsq.Stores

/-!
# Occupancy and the empty flags

In each queue the allocated entries lie between head and tail, the empty flag tells
whether there are any, and groups are written to free entries only. The load queue
looks at all its allocation bits for the empty flag, the store queue only at the one
under its head. With store responses and `headLag` that head may be behind: if the
oldest store is released while others stay, the flag of the next cycle is wrong.
-/

namespace Dynamatic.Lsq

open Dynamatic.Clocked

variable {configs : Configs}

/-- The allocated entries are within the slots from the head up to the tail. -/
def Between (size : Nat) (alloc : Nat → Bool) (head tail : Nat) : Prop :=
  ∃ count ≤ size, tail = (head + count) % size ∧
    ∀ index < size, alloc index = true → ∃ offset < count, index = (head + offset) % size

namespace Cycle

variable (now : Cycle configs)

/-- The occupancy of both queues is what their pointers and flags say. -/
structure Occupancy : Prop where
  loadsBetween : Between configs.numLdqEntries now.state.ldqAlloc now.state.ldqHead now.state.ldqTail
  storesBetween : Between configs.numStqEntries now.state.stqAlloc now.state.stqHead now.state.stqTail
  ldqEmpty : now.ldqEmpty = true ↔ ∀ entry < configs.numLdqEntries, now.state.ldqAlloc entry = false
  stqEmpty : now.stqEmpty = true ↔ ∀ entry < configs.numStqEntries, now.state.stqAlloc entry = false
  loadsFree : ∀ entry < configs.numLdqEntries, now.ldqWen entry = true →
    now.state.ldqAlloc entry = false
  storesFree : ∀ entry < configs.numStqEntries, now.stqWen entry = true →
    now.state.stqAlloc entry = false

/-- With store responses and a lagging head, the oldest store is released while another
stays or is allocated. -/
def HeadLost : Prop :=
  configs.stResp = true ∧ configs.headLag = true ∧
    ∃ oldest < configs.numStqEntries, now.state.stqAlloc oldest = true ∧
      oldestHead configs.numStqEntries configs.stqAddrW now.state.stqAlloc now.state.stqTail =
        oldest ∧
      now.stqReset oldest = true ∧
      (now.numStores ≠ 0 ∨ ∃ other < configs.numStqEntries,
        now.state.stqAlloc other = true ∧ now.stqReset other = false)

end Cycle

section Queue

variable {size start stop head tail : Nat} {alloc : Nat → Bool} {live : Nat → Prop}

theorem Queue.between (queue : Queue size alloc head tail live start stop) :
    Between size alloc head tail := by
  have ordered := queue.ring.ordered
  have fits := queue.ring.fits
  refine ⟨stop - start, by omega, ?_, fun index bounded set => ?_⟩
  · rw [queue.tail, queue.head, Nat.mod_add_mod, Nat.add_sub_cancel' ordered]
  · obtain ⟨entry, isLive, rfl⟩ := queue.ring.occupied index bounded set
    have inside := queue.ring.inside entry isLive
    refine ⟨entry - start, by omega, ?_⟩
    rw [queue.head, Nat.mod_add_mod, Nat.add_sub_cancel' inside.1]

/-- What is written was free. -/
theorem Queue.written_free (queue : Queue size alloc head tail live start stop)
    {number : Nat} {empty : Bool} (isEmpty : empty = true → ∀ entry, ¬ live entry)
    (less : number < size) (free : number ≤ if empty then size else wrapSub size head tail)
    {index : Nat} (bounded : index < size)
    (written : cyclicLeftShift size (log2Ceil size) tail (fun offset => decide (offset < number))
      index = true) : alloc index = false := by
  obtain ⟨first, after, before, rest, room⟩ := queue.room isEmpty less free
  rw [queue.tail, wen_iff bounded (Nat.le_of_lt less)] at written
  obtain ⟨entry, new, inside, rfl⟩ := written
  refine Bool.eq_false_iff.mpr fun set => ?_
  obtain ⟨other, isLive, same⟩ := queue.ring.occupied _ bounded set
  have otherInside := queue.ring.inside other isLive
  have least := rest other isLive
  have equal := eq_of_slot size first least (by omega) (by omega) (by omega) same
  omega

end Queue

namespace Run

variable {run : Run configs} {time : Nat}

/-- The store queue with store responses stands for some stores of the run, and its head
is at a store if there is one. -/
def StoreQueue (run : Run configs) (time : Nat) : Prop :=
  ∃ live start, Queue configs.numStqEntries (run.cycle time).state.stqAlloc
      (run.cycle time).state.stqHead (run.cycle time).state.stqTail live start (run.numStores time) ∧
    ((∃ store, live store) → live start)

theorem stqEmpty_iff {start : Nat} {live : Nat → Prop}
    (queue : Queue configs.numStqEntries (run.cycle time).state.stqAlloc
      (run.cycle time).state.stqHead (run.cycle time).state.stqTail live start (run.numStores time))
    (atHead : (∃ store, live store) → live start) :
    (run.cycle time).stqEmpty = true ↔ ∀ store, ¬ live store := by
  have slot := Nat.mod_lt start configs.someStq
  have oldest := queue.ring.alloc_iff (Nat.le_refl _) (Nat.lt_add_of_pos_right configs.someStq)
  rw [Cycle.stqEmpty, queue.head, muxLookUp_of_lt slot, Bool.not_eq_true', ← Bool.not_eq_true,
    oldest]
  exact ⟨fun none store isLive => none (atHead ⟨store, isLive⟩), fun none => none start⟩

theorem storeQueue_zero : run.StoreQueue 0 := by
  refine ⟨fun _ => False, 0, ⟨Ring.empty _ 0 fun index => run.reset.stqAlloc index, ?_, ?_⟩, ?_⟩
  · rw [state_zero, run.reset.stqHead]
    rfl
  · rw [state_zero, run.reset.stqTail]
    rfl
  · rintro ⟨_, none⟩
    exact none

theorem storeQueue_succ (oneGroup : run.OneGroup) (on : configs.stResp = true)
    (kept : ¬ (run.cycle time).HeadLost) (holds : run.StoreQueue time) :
    run.StoreQueue (time + 1) := by
  obtain ⟨live, start, queue, atHead⟩ := holds
  obtain ⟨fits, less⟩ := numStores_le oneGroup
  obtain ⟨first, stepped, someKept, someOld, noneKept, noneOld⟩ :=
    queue.step configs.someStq configs.headLag
      (fun empty => (stqEmpty_iff queue atHead).mp empty) less fits rfl
  have headEq : (run.cycle (time + 1)).state.stqHead =
      Cycle.oldestHead configs.numStqEntries (log2Ceil configs.numStqEntries)
        (if configs.headLag then (run.cycle time).state.stqAlloc
          else fun index => !(run.cycle time).stqReset index && (run.cycle time).state.stqAlloc index)
        (run.cycle time).state.stqTail := by
    rw [state_succ]
    simp only [Cycle.next, Cycle.stqHeadNext, on, if_true]
    rfl
  have newest : ∀ store, run.numStores time ≤ store →
      store < run.numStores time + (run.cycle time).numStores →
      run.numStores time ≤ run.numStores time ∧
        run.numStores time < run.numStores time + (run.cycle time).numStores := by
    intro store after before
    omega
  refine ⟨fun store => run.numStores time ≤ store ∧
      store < run.numStores time + (run.cycle time).numStores ∨
      live store ∧ (run.cycle time).stqReset (store % configs.numStqEntries) = false,
    first, ⟨?_, ?_, ?_⟩, fun some => ?_⟩
  · rw [numStores_succ oneGroup]
    exact stepped.ring
  · rw [headEq]
    exact stepped.head
  · rw [numStores_succ oneGroup]
    exact stepped.tail
  · cases lagging : configs.headLag with
    | false =>
        by_cases old : ∃ store, live store ∧
            (run.cycle time).stqReset (store % configs.numStqEntries) = false
        · exact .inr (someKept lagging old)
        · obtain ⟨store, ⟨after, before⟩ | isKept⟩ := some
          · rw [noneKept lagging old]
            exact .inl (newest store after before)
          · exact absurd ⟨store, isKept⟩ old
    | true =>
        by_cases old : ∃ store, live store
        · have oldest := someOld lagging old
          refine .inr ⟨oldest, ?_⟩
          by_contra released
          have lost : (run.cycle time).HeadLost := by
            refine ⟨on, lagging, first % configs.numStqEntries, Nat.mod_lt _ configs.someStq,
              queue.ring.allocated _ oldest, ?_, by simpa using released, ?_⟩
            · have head := stepped.head
              rwa [if_pos lagging] at head
            · obtain ⟨store, ⟨after, before⟩ | ⟨isLive, stays⟩⟩ := some
              · exact .inl (by omega)
              · exact .inr ⟨_, Nat.mod_lt _ configs.someStq, queue.ring.allocated _ isLive, stays⟩
          exact kept lost
        · obtain ⟨store, ⟨after, before⟩ | ⟨isLive, -⟩⟩ := some
          · rw [noneOld lagging old]
            exact .inl (newest store after before)
          · exact absurd ⟨store, isLive⟩ old

section Observed

variable (run)

/-- The run with the ports' own tokens for the kernel's addresses and data, and writes
performed as they are answered. -/
noncomputable def observed : Run configs :=
  { run with
    stAddr := fun port => eventual (run.stAddrTokens port)
    stData := fun port => eventual (run.stDataTokens port)
    ldAddr := fun port => eventual (run.ldAddrTokens port)
    performed := run.responded }

/-- A token is what its list holds from then on. -/
private theorem token_eq {width : Nat} (fires : Nat → Bool) (payload : Nat → BitVec width)
    {cycle : Nat} (fired : fires cycle = true) :
    payload cycle =
      eventual (transfers fires payload) (transfers fires payload cycle).length := by
  have grows : ∀ cycle, transfers fires payload cycle <+: transfers fires payload (cycle + 1) :=
    fun cycle => transfers_grows (Nat.le_succ cycle)
  have reached : (transfers fires payload cycle).length <
      (transfers fires payload (cycle + 1)).length := by
    rw [length_transfers_succ, fired]
    exact Nat.lt_succ_self _
  have shown := getElem?_eq_eventual grows reached
  rw [getElem?_transfers_succ, if_pos ⟨rfl, fired⟩] at shown
  exact Option.some.inj shown

theorem observed_delivers : run.observed.Delivers where
  ldAddr _ port _ valid ready :=
    token_eq (fun time => (run.inputs time).ldpAddrValid port && (run.cycle time).lda.portReady port)
      (fun time => (run.inputs time).ldpAddr port) (Bool.and_eq_true_iff.mpr ⟨valid, ready⟩)
  stAddr _ port _ valid ready :=
    token_eq (fun time => (run.inputs time).stpAddrValid port && (run.cycle time).sta.portReady port)
      (fun time => (run.inputs time).stpAddr port) (Bool.and_eq_true_iff.mpr ⟨valid, ready⟩)
  stData _ port _ valid ready :=
    token_eq (fun time => (run.inputs time).stpDataValid port && (run.cycle time).std.portReady port)
      (fun time => (run.inputs time).stpData port) (Bool.and_eq_true_iff.mpr ⟨valid, ready⟩)

end Observed

theorem stores_observed (time : Nat) : run.observed.stores time = run.stores time := by
  induction time with
  | zero => rfl
  | succ time inductionHypothesis =>
      rw [stores, stores, inductionHypothesis]
      rfl

theorem storeQueue_of_off (off : configs.stResp = false) (oneGroup : run.OneGroup)
    (answersWrites : run.AnswersWrites) (time : Nat) : run.StoreQueue time := by
  have observedGroup : run.observed.OneGroup := oneGroup
  have holds : run.observed.StoresHold time := storesHold off observedGroup run.observed_delivers
    answersWrites time
  have queue := holds.queue
  rw [numStores, stores_observed] at queue
  refine ⟨run.observed.StLive time, run.responded time, queue, ?_⟩
  rintro ⟨store, after, before⟩
  exact ⟨Nat.le_refl _, Nat.lt_of_le_of_lt after before⟩

theorem storeQueue (oneGroup : run.OneGroup) (answersWrites : run.AnswersWrites)
    (kept : ∀ time, ¬ (run.cycle time).HeadLost) (time : Nat) : run.StoreQueue time := by
  cases on : configs.stResp with
  | false => exact storeQueue_of_off on oneGroup answersWrites time
  | true =>
      induction time with
      | zero => exact storeQueue_zero
      | succ time inductionHypothesis =>
          exact storeQueue_succ oneGroup on (kept time) inductionHypothesis

theorem occupancy_of_storeQueue (oneGroup : run.OneGroup) (holds : run.StoreQueue time) :
    (run.cycle time).Occupancy := by
  obtain ⟨firstLoad, loads⟩ := loadQueue oneGroup time
  obtain ⟨liveStore, firstStore, stores, atHead⟩ := holds
  obtain ⟨loadsFit, loadsLess⟩ := numLoads_le oneGroup
  obtain ⟨storesFit, storesLess⟩ := numStores_le oneGroup
  have ldqEmpty := ldqEmpty_iff loads
  have stqEmpty := stqEmpty_iff stores atHead
  exact
    { loadsBetween := loads.between
      storesBetween := stores.between
      ldqEmpty := ldqEmpty.trans (loads.free_iff configs.someLdq)
      stqEmpty := stqEmpty.trans (stores.free_iff configs.someStq)
      loadsFree := fun entry bounded written =>
        loads.written_free ldqEmpty.mp loadsLess loadsFit bounded written
      storesFree := fun entry bounded written =>
        stores.written_free stqEmpty.mp storesLess storesFit bounded written }

/-- After the head was lost, the store queue looks empty and is not. -/
theorem not_occupancy_of_headLost (oneGroup : run.OneGroup) (lost : (run.cycle time).HeadLost)
    (now : (run.cycle time).Occupancy) : ¬ (run.cycle (time + 1)).Occupancy := by
  obtain ⟨on, lagging, oldest, bounded, allocated, isOldest, released, others⟩ := lost
  intro next
  have notWritten : (run.cycle time).stqWen oldest = false := by
    refine Bool.eq_false_iff.mpr fun written => ?_
    rw [now.storesFree oldest bounded written] at allocated
    cases allocated
  have looksEmpty : (run.cycle (time + 1)).stqEmpty = true := by
    have head : (run.cycle (time + 1)).state.stqHead = oldest := by
      rw [state_succ]
      simp only [Cycle.next, Cycle.stqHeadNext, on, lagging, if_true]
      exact isOldest
    rw [Cycle.stqEmpty, head, muxLookUp_of_lt bounded, state_succ]
    simp [Cycle.next, Cycle.stqAllocNext, notWritten, released]
  have empty := next.stqEmpty.mp looksEmpty
  rcases others with more | ⟨other, otherBounded, otherAllocated, stays⟩
  · obtain ⟨-, less⟩ := numStores_le oneGroup
    obtain ⟨count, -, tail, -⟩ := now.storesBetween
    have tailBounded : (run.cycle time).state.stqTail < configs.numStqEntries := by
      rw [tail]
      exact Nat.mod_lt _ configs.someStq
    have written : (run.cycle time).stqWen (run.cycle time).state.stqTail = true := by
      rw [Cycle.stqWen, Configs.stqAddrW]
      nth_rewrite 1 [← Nat.mod_eq_of_lt tailBounded]
      rw [wen_iff tailBounded (Nat.le_of_lt less)]
      exact ⟨_, Nat.le_refl _, by omega, Nat.mod_eq_of_lt tailBounded⟩
    have free := empty _ tailBounded
    rw [state_succ] at free
    simp [Cycle.next, written] at free
  · have free := empty other otherBounded
    rw [state_succ] at free
    simp [Cycle.next, Cycle.stqAllocNext, stays, otherAllocated] at free

/-- The occupancy of both queues is what their pointers and flags say throughout a run
exactly if the lagging head never loses its store. -/
theorem occupancy_iff_head_kept (oneGroup : run.OneGroup) (answersWrites : run.AnswersWrites) :
    (∀ time, (run.cycle time).Occupancy) ↔ ∀ time, ¬ (run.cycle time).HeadLost := by
  constructor
  · intro occupancy time lost
    exact not_occupancy_of_headLost oneGroup lost (occupancy time) (occupancy (time + 1))
  · intro kept time
    exact occupancy_of_storeQueue oneGroup (storeQueue oneGroup answersWrites kept time)

/-- A store that is performed and answered, and given back to the kernel in the cycle in
which the group of the next store is accepted. -/
def relieved : Run (Configs.small true true false) where
  start := State.clear _
  reset := reset_clear
  inputs time :=
    { groupInitValid := fun _ => decide (time = 0 ∨ time = 4)
      ldpAddr := fun _ => 0
      ldpAddrValid := fun _ => false
      ldpDataReady := fun _ => false
      stpAddr := fun _ => 0
      stpAddrValid := fun _ => decide (time = 1)
      stpData := fun _ => 0
      stpDataValid := fun _ => decide (time = 1)
      stpExecReady := fun _ => decide (time = 4)
      rreqReady := fun _ => false
      rrespValid := fun _ => false
      rrespId := fun _ => 0
      rrespData := fun _ => 0
      wreqReady := decide (time = 2)
      wrespValid := decide (time = 3)
      memStartValid := false
      ctrlEndValid := false
      memEndReady := false }
  ldAddr _ _ := 0
  stAddr _ _ := 0
  stData _ _ := 0
  memory _ := 0
  performed time := if time ≤ 2 then 0 else 1
  request _ _ := (0, 0)

theorem relieved_oneGroup : relieved.OneGroup := by
  intro _ left right leftBounded rightBounded _ _
  have only : (Configs.small true true false).numGroups = 1 := rfl
  omega

theorem relieved_answersWrites : relieved.AnswersWrites :=
  answersWrites_of_once (fun _ => rfl) (by decide +kernel)

theorem occupancy_iff_head_kept_relieved :
    (∀ time, (relieved.cycle time).Occupancy) ↔ ∀ time, ¬ (relieved.cycle time).HeadLost :=
  occupancy_iff_head_kept relieved_oneGroup relieved_answersWrites

theorem relieved_head_lost :
    relieved.OneGroup ∧ relieved.AnswersWrites ∧
      ¬ ∀ time, (relieved.cycle time).Occupancy := by
  refine ⟨relieved_oneGroup, relieved_answersWrites, fun occupancy => ?_⟩
  have lost : (relieved.cycle 4).HeadLost :=
    ⟨rfl, rfl, 0, by decide, by decide +kernel, by decide +kernel, by decide +kernel,
      .inl (by decide +kernel)⟩
  exact not_occupancy_of_headLost relieved_oneGroup lost (occupancy 4) (occupancy 5)

end Run

end Dynamatic.Lsq
