import Dynamatic.Lsq.Occupancy

/-!
# The load queue

Loads leave the queue in any order, each as its port takes its data. A load has its
entry from its allocation until the entry is given to a later load; the entry's bits
say since then whether the load was issued and has received its data. The issue bit
is cleared late, with the pipeline stages of the decisions, so that it is read as
the decisions see the queue.
-/

namespace Dynamatic.Lsq

open Dynamatic.Clocked

variable {configs : Configs}

namespace Configs

variable (configs : Configs)

/-- The cycles by which the issue decisions lag behind the queues. -/
def lag : Nat := configs.compLag + configs.zeroLag

theorem someLdq : 0 < configs.numLdqEntries := Nat.lt_of_lt_of_le (by decide) configs.someLdqAddr

end Configs

/-- Only an entry with its payload is released to its port. -/
theorem Entries.payloadValid_of_entryReset {entries : Entries} {portReady : Nat → Bool}
    {entry : Nat} (released : entries.entryReset portReady entry = true) :
    entries.payloadValid entry = true := by
  rw [Entries.entryReset, reduceOr_eq_true] at released
  obtain ⟨port, -, shown⟩ := released
  simp only [Entries.entryWaitingForPortValid, Bool.and_eq_true] at shown
  exact shown.1.2

namespace Run

variable (run : Run configs)

/-- A load is in the queue. -/
def LdLive : Nat → Nat → Prop
  | 0, _ => False
  | time + 1, load =>
      run.numLoads time ≤ load ∧ load < run.numLoads (time + 1) ∨
        LdLive time load ∧ (run.cycle time).ldqReset (load % configs.numLdqEntries) = false

/-- The entry of an allocated load is not given to a later one. -/
def Occupies (time load : Nat) : Prop :=
  load < run.numLoads time ∧ run.numLoads time ≤ load + configs.numLdqEntries

/-- The data of a load was written to its entry. -/
def LdReceived (time load : Nat) : Prop :=
  ∃ earlier < time, run.Occupies earlier load ∧
    (run.cycle earlier).ldqDataWen (load % configs.numLdqEntries) = true

/-- A load was issued to the memory or took a store's data. -/
def LdIssued (time load : Nat) : Prop :=
  ∃ earlier < time, run.Occupies (earlier - configs.lag) load ∧
    (run.cycle earlier).ldqIssueSet (load % configs.numLdqEntries) = true

variable {run} {time early late load other : Nat}

section Queue

theorem ldqEmpty_iff {start : Nat} {live : Nat → Prop}
    (queue : Queue configs.numLdqEntries (run.cycle time).state.ldqAlloc
      (run.cycle time).state.ldqHead (run.cycle time).state.ldqTail live start (run.numLoads time)) :
    (run.cycle time).ldqEmpty = true ↔ ∀ load, ¬ live load := by
  rw [queue.free_iff configs.someLdq, Cycle.ldqEmpty, Bool.not_eq_true', reduceOr_eq_false]

variable (oneGroup : run.OneGroup)

include oneGroup

/-- The load queue stands for the loads that are left. -/
theorem loadQueue (time : Nat) :
    ∃ start, Queue configs.numLdqEntries (run.cycle time).state.ldqAlloc
      (run.cycle time).state.ldqHead (run.cycle time).state.ldqTail (run.LdLive time) start
      (run.numLoads time) := by
  induction time with
  | zero =>
      refine ⟨0, Ring.empty _ 0 fun index => run.reset.ldqAlloc index, ?_, ?_⟩
      · rw [state_zero, run.reset.ldqHead]
        rfl
      · rw [state_zero, run.reset.ldqTail]
        rfl
  | succ time inductionHypothesis =>
      obtain ⟨start, queue⟩ := inductionHypothesis
      obtain ⟨fits, less⟩ := numLoads_le oneGroup
      obtain ⟨first, stepped, -⟩ := queue.step configs.someLdq configs.headLag
        (fun empty => (ldqEmpty_iff queue).mp empty) less fits rfl
      refine ⟨first, ⟨?_, ?_, ?_⟩⟩
      · rw [numLoads_succ oneGroup]
        refine stepped.ring.congr _ fun load => ?_
        rw [LdLive, numLoads_succ oneGroup]
        rfl
      · exact stepped.head
      · rw [numLoads_succ oneGroup]
        exact stepped.tail

theorem ldqTail_eq : (run.cycle time).state.ldqTail = run.numLoads time % configs.numLdqEntries := by
  obtain ⟨_, queue⟩ := loadQueue oneGroup time
  exact queue.tail

theorem LdLive.occupies (live : run.LdLive time load) : run.Occupies time load := by
  obtain ⟨start, queue⟩ := loadQueue oneGroup time
  have inside := queue.ring.inside load live
  have fits := queue.ring.fits
  exact ⟨inside.2, by omega⟩

theorem LdLive.allocated (live : run.LdLive time load) :
    (run.cycle time).state.ldqAlloc (load % configs.numLdqEntries) = true := by
  obtain ⟨start, queue⟩ := loadQueue oneGroup time
  exact queue.ring.allocated load live

/-- An allocated entry holds a load that is left. -/
theorem exists_ldLive {index : Nat} (bounded : index < configs.numLdqEntries)
    (allocated : (run.cycle time).state.ldqAlloc index = true) :
    ∃ load, run.LdLive time load ∧ load % configs.numLdqEntries = index := by
  obtain ⟨start, queue⟩ := loadQueue oneGroup time
  exact queue.ring.occupied index bounded allocated

end Queue

section Occupies

/-- An entry is one load's at a time. -/
theorem Occupies.eq (left : run.Occupies time load) (right : run.Occupies time other)
    (same : load % configs.numLdqEntries = other % configs.numLdqEntries) : load = other := by
  obtain ⟨leftBefore, leftLast⟩ := left
  obtain ⟨rightBefore, rightLast⟩ := right
  have someLdq := configs.someLdq
  exact eq_of_slot configs.numLdqEntries (run.numLoads time - configs.numLdqEntries)
    (by omega) (by omega) (by omega) (by omega) same

/-- A load that has its entry later had it since it was allocated. -/
theorem Occupies.earlier (occupies : run.Occupies late load) (ordered : early ≤ late)
    (there : load < run.numLoads early) : run.Occupies early load :=
  ⟨there, (run.numLoads_mono ordered).trans occupies.2⟩

variable (oneGroup : run.OneGroup)

include oneGroup

/-- Of the loads that have their entries after a cycle, those written in it are new. -/
theorem ldqWen_eq (occupies : run.Occupies (time + 1) load) :
    (run.cycle time).ldqWen (load % configs.numLdqEntries) = decide (run.numLoads time ≤ load) := by
  obtain ⟨before, last⟩ := occupies
  have less : (run.cycle time).numLoads < configs.numLdqEntries := (numLoads_le oneGroup).2
  have grows := run.numLoads_mono (Nat.le_succ time)
  have added : run.numLoads (time + 1) = _ := numLoads_succ oneGroup
  rw [Bool.eq_iff_iff, Cycle.ldqWen, ldqTail_eq oneGroup, decide_eq_true_eq, Configs.ldqAddrW,
    wen_iff (Nat.mod_lt _ configs.someLdq) (Nat.le_of_lt less), ← added]
  constructor
  · rintro ⟨entry, new, inside, same⟩
    have occupant : run.Occupies (time + 1) entry := ⟨inside, by omega⟩
    obtain rfl := occupant.eq ⟨before, last⟩ same
    exact new
  · intro new
    exact ⟨load, new, before, rfl⟩

end Occupies

section Received

theorem ldReceived_succ :
    run.LdReceived (time + 1) load ↔ run.LdReceived time load ∨ run.Occupies time load ∧
      (run.cycle time).ldqDataWen (load % configs.numLdqEntries) = true := by
  constructor
  · rintro ⟨earlier, before, received⟩
    rcases Nat.eq_or_lt_of_le (Nat.le_of_lt_succ before) with rfl | already
    · exact .inr received
    · exact .inl ⟨earlier, already, received⟩
  · rintro (⟨earlier, before, received⟩ | received)
    · exact ⟨earlier, Nat.lt_succ_of_lt before, received⟩
    · exact ⟨time, Nat.lt_succ_self _, received⟩

theorem LdReceived.mono (received : run.LdReceived early load) (ordered : early ≤ late) :
    run.LdReceived late load := by
  obtain ⟨earlier, before, there⟩ := received
  exact ⟨earlier, before.trans_le ordered, there⟩

theorem LdReceived.allocated (received : run.LdReceived time load) : load < run.numLoads time := by
  obtain ⟨earlier, before, occupies, -⟩ := received
  exact occupies.1.trans_le (run.numLoads_mono (Nat.le_of_lt before))

variable (oneGroup : run.OneGroup)

include oneGroup

/-- The valid bit of an entry tells whether its load has received its data. -/
theorem ldqDataValid_iff (occupies : run.Occupies time load) :
    (run.cycle time).state.ldqDataValid (load % configs.numLdqEntries) = true ↔
      run.LdReceived time load := by
  induction time with
  | zero => exact absurd occupies.1 (Nat.not_lt_zero _)
  | succ time inductionHypothesis =>
      rw [state_succ]
      simp only [Cycle.next, ldqWen_eq oneGroup occupies, Bool.and_eq_true, Bool.or_eq_true,
        Bool.not_eq_true', decide_eq_false_iff_not, Nat.not_le]
      constructor
      · rintro ⟨old, written | valid⟩
        · exact ldReceived_succ.mpr (.inr ⟨occupies.earlier (Nat.le_succ _) old, written⟩)
        · have before := occupies.earlier (Nat.le_succ _) old
          exact ldReceived_succ.mpr (.inl ((inductionHypothesis before).mp valid))
      · intro received
        rcases ldReceived_succ.mp received with already | ⟨before, written⟩
        · have old := already.allocated
          exact ⟨old, .inr ((inductionHypothesis (occupies.earlier (Nat.le_succ _) old)).mpr already)⟩
        · exact ⟨before.1, .inl written⟩

/-- A load leaves the queue only with its data. -/
theorem ldReceived_of_not_ldLive (there : load < run.numLoads time)
    (gone : ¬ run.LdLive time load) : run.LdReceived time load := by
  induction time with
  | zero => exact absurd there (Nat.not_lt_zero _)
  | succ time inductionHypothesis =>
      rw [LdLive, not_or, not_and, not_and] at gone
      have old : load < run.numLoads time := by
        by_contra new
        exact gone.1 (Nat.le_of_not_lt new) there
      by_cases live : run.LdLive time load
      · have released : (run.cycle time).ldqReset (load % configs.numLdqEntries) = true := by
          simpa using gone.2 live
        have valid := Entries.payloadValid_of_entryReset released
        exact ((ldqDataValid_iff oneGroup (live.occupies oneGroup)).mp valid).mono (Nat.le_succ _)
      · exact (inductionHypothesis old live).mono (Nat.le_succ _)

end Received

section Issued

theorem ldIssued_succ :
    run.LdIssued (time + 1) load ↔ run.LdIssued time load ∨ run.Occupies (time - configs.lag) load ∧
      (run.cycle time).ldqIssueSet (load % configs.numLdqEntries) = true := by
  constructor
  · rintro ⟨earlier, before, issued⟩
    rcases Nat.eq_or_lt_of_le (Nat.le_of_lt_succ before) with rfl | already
    · exact .inr issued
    · exact .inl ⟨earlier, already, issued⟩
  · rintro (⟨earlier, before, issued⟩ | issued)
    · exact ⟨earlier, Nat.lt_succ_of_lt before, issued⟩
    · exact ⟨time, Nat.lt_succ_self _, issued⟩

/-- What clears the issue bits was written as many cycles ago as the decisions lag. -/
theorem ldqWenP0_lag (time : Nat) :
    (run.cycle (time + configs.lag)).ldqWenP0 = (run.cycle time).ldqWen := by
  rw [Configs.lag, ← Nat.add_assoc, run.ldqWenP0_eq, (run.compares time).ldqWen]

variable (oneGroup : run.OneGroup)

include oneGroup

/-- The issue bit of an entry tells whether the load that the decisions see in it was
issued. -/
theorem ldqIssue_iff (occupies : run.Occupies (time - configs.lag) load) :
    (run.cycle time).state.ldqIssue (load % configs.numLdqEntries) = true ↔
      run.LdIssued time load := by
  induction time with
  | zero =>
      rw [Nat.zero_sub] at occupies
      exact absurd occupies.1 (Nat.not_lt_zero _)
  | succ time inductionHypothesis =>
      have late : configs.lag ≤ time := by
        by_contra early
        rw [show time + 1 - configs.lag = 0 by omega] at occupies
        exact absurd occupies.1 (Nat.not_lt_zero _)
      obtain ⟨back, rfl⟩ := Nat.exists_eq_add_of_le' late
      rw [show back + configs.lag + 1 - configs.lag = back + 1 by omega] at occupies
      rw [Nat.add_sub_cancel] at inductionHypothesis
      rw [state_succ, ldIssued_succ, Nat.add_sub_cancel]
      simp only [Cycle.next, ldqWenP0_lag, ldqWen_eq oneGroup occupies, Bool.and_eq_true,
        Bool.or_eq_true, Bool.not_eq_true', decide_eq_false_iff_not, Nat.not_le]
      constructor
      · rintro ⟨old, set | issued⟩
        · exact .inr ⟨occupies.earlier (Nat.le_succ _) old, set⟩
        · have before := occupies.earlier (Nat.le_succ _) old
          exact .inl ((inductionHypothesis before).mp issued)
      · rintro (issued | ⟨before, set⟩)
        · obtain ⟨earlier, ordered, there, -⟩ := id issued
          have old : load < run.numLoads back :=
            there.1.trans_le (run.numLoads_mono (by omega))
          exact ⟨old, .inr ((inductionHypothesis (occupies.earlier (Nat.le_succ _) old)).mpr issued)⟩
        · exact ⟨before.1, .inl set⟩

end Issued

end Run

end Dynamatic.Lsq
