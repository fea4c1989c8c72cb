import Dynamatic.Lsq.Allocation

/-!
# Round-robin arbitration between the groups

With several groups that may request entries in the same cycle, a mask with one bit
selects where the search for a group starts, and the bit behind the group that was
granted is the mask of the next cycle. A cycle in which no group is granted leaves a
mask without a bit, and with it no group is granted again.
-/

namespace Dynamatic.Lsq

open Dynamatic.Clocked

/-- The mask of the group at which the search starts. -/
def OneHot (size : Nat) (mask : Nat → Bool) : Prop :=
  ∃ base < size, ∀ index < size, mask index = bitsToOH base index

variable {size : Nat} {din mask : Nat → Bool}

/-- From a mask with one bit, the search stops at one request only. -/
theorem OneHot.unique (oneHot : OneHot size mask) {left right : Nat}
    (isLeft : cyclicPriorityMasking size din mask left = true)
    (isRight : cyclicPriorityMasking size din mask right = true) : left = right := by
  obtain ⟨base, bounded, same⟩ := oneHot
  rw [cyclicPriorityMasking_congr same] at isLeft isRight
  obtain ⟨leftEntry, leftAfter, leftBefore, rfl⟩ :=
    exists_slot base (cyclicPriorityMasking_le isLeft).1
  obtain ⟨rightEntry, rightAfter, rightBefore, rfl⟩ :=
    exists_slot base (cyclicPriorityMasking_le isRight).1
  rw [← Nat.mod_eq_of_lt bounded] at isLeft isRight
  obtain ⟨leftSet, leftClear⟩ := (cyclicPriorityMasking_oldest leftAfter leftBefore).mp isLeft
  obtain ⟨rightSet, rightClear⟩ := (cyclicPriorityMasking_oldest rightAfter rightBefore).mp isRight
  rcases Nat.lt_trichotomy leftEntry rightEntry with earlier | rfl | later
  · rw [rightClear leftEntry leftAfter earlier] at leftSet
    cases leftSet
  · rfl
  · rw [leftClear rightEntry rightAfter later] at rightSet
    cases rightSet

/-- From a mask with one bit, the search finds a request. -/
theorem OneHot.exists (oneHot : OneHot size mask) {index : Nat} (inside : index < size)
    (set : din index = true) : ∃ found, cyclicPriorityMasking size din mask found = true := by
  obtain ⟨base, bounded, same⟩ := oneHot
  have requested : ∃ offset, din ((base + offset) % size) = true := by
    obtain ⟨entry, after, -, rfl⟩ := exists_slot base inside
    exact ⟨entry - base, by rwa [Nat.add_sub_cancel' after]⟩
  have offsetBounded : Nat.find requested < size := by
    obtain ⟨entry, after, before, rfl⟩ := exists_slot base inside
    have least := Nat.find_min' requested (m := entry - base) (by rwa [Nat.add_sub_cancel' after])
    omega
  refine ⟨(base + Nat.find requested) % size, ?_⟩
  rw [cyclicPriorityMasking_congr same,
    cyclicPriorityMasking_slot din base (Nat.find requested) bounded offsetBounded]
  refine ⟨Nat.find_spec requested, fun earlier before => ?_⟩
  exact Bool.eq_false_iff.mpr (Nat.find_min requested before)

variable {configs : Configs}

namespace Cycle

variable (now : Cycle configs)

/-- Some group requests entries and fits in the queues. -/
def Requested : Prop := ∃ group < configs.numGroups, now.groupInitAnd group = true

/-- A group is granted. -/
def Granted (group : Nat) : Prop := group < configs.numGroups ∧ now.groupInitHs group = true

def AtMostOne : Prop := ∀ left right, now.Granted left → now.Granted right → left = right

/-- Of the groups that request entries and fit, if any, exactly one is granted. -/
def ExactlyOne : Prop :=
  now.Requested → ∃! group, now.Granted group ∧ now.groupInitAnd group = true

variable {now}

theorem requested_of_granted {group : Nat} (granted : now.Granted group) :
    now.groupInitAnd group = true :=
  groupInitAnd_of_hs granted.2

section Multi

variable (multi : configs.gaMulti = true)

include multi

theorem groupInitHs_multi (group : Nat) : now.groupInitHs group =
    cyclicPriorityMasking configs.numGroups now.groupInitAnd now.state.gaRrMask group := by
  rw [groupInitHs, if_pos multi]

theorem atMostOne_of_oneHot (oneHot : OneHot configs.numGroups now.state.gaRrMask) :
    now.AtMostOne := by
  rintro left right ⟨-, isLeft⟩ ⟨-, isRight⟩
  rw [groupInitHs_multi multi] at isLeft isRight
  exact oneHot.unique isLeft isRight

theorem exists_granted (oneHot : OneHot configs.numGroups now.state.gaRrMask)
    (requested : now.Requested) : ∃ group, now.Granted group := by
  obtain ⟨group, bounded, set⟩ := requested
  obtain ⟨found, isFound⟩ := oneHot.exists bounded set
  refine ⟨found, (cyclicPriorityMasking_le isFound).1, ?_⟩
  rwa [groupInitHs_multi multi]

/-- Without a bit in the mask no group is granted. -/
theorem not_granted (clear : ∀ group < configs.numGroups, now.state.gaRrMask group = false)
    (group : Nat) : ¬ now.Granted group := by
  rintro ⟨-, accepted⟩
  rw [groupInitHs_multi multi, cyclicPriorityMasking_of_noBase clear] at accepted
  cases accepted

end Multi

/-- The bit behind the granted group is the mask of the next cycle. -/
theorem oneHot_next (atMostOne : now.AtMostOne) {group : Nat} (granted : now.Granted group) :
    OneHot configs.numGroups now.next.gaRrMask := by
  have bounded := granted.1
  refine ⟨(group + 1) % configs.numGroups, Nat.mod_lt _ (by omega), fun index inside => ?_⟩
  have before : (index + configs.numGroups - 1) % configs.numGroups < configs.numGroups :=
    Nat.mod_lt _ (by omega)
  have turns : ((index + configs.numGroups - 1) % configs.numGroups + 1) % configs.numGroups =
      index := by
    rw [Nat.mod_add_mod, show index + configs.numGroups - 1 + 1 = index + configs.numGroups by omega,
      Nat.add_mod_right, Nat.mod_eq_of_lt inside]
  rw [bitsToOH, Bool.eq_iff_iff, decide_eq_true_eq]
  constructor
  · intro set
    rw [← atMostOne _ group ⟨before, set⟩ granted, turns]
  · rintro rfl
    have back : ((group + 1) % configs.numGroups + configs.numGroups - 1) % configs.numGroups =
        group := by
      have same : (1 + ((group + 1) % configs.numGroups + configs.numGroups - 1)) %
          configs.numGroups = (1 + group) % configs.numGroups := by
        rw [show 1 + ((group + 1) % configs.numGroups + configs.numGroups - 1) =
          (group + 1) % configs.numGroups + configs.numGroups by omega, Nat.add_mod_right,
          Nat.mod_mod, Nat.add_comm]
      have congruent := Nat.ModEq.add_left_cancel' 1 same
      exact (Nat.mod_eq_of_modEq congruent bounded)
    show now.groupInitHs _ = true
    rw [back]
    exact granted.2

theorem clear_next (none : ∀ group, ¬ now.Granted group) :
    ∀ group < configs.numGroups, now.next.gaRrMask group = false := by
  intro group bounded
  refine Bool.eq_false_iff.mpr fun set => none _ ⟨?_, set⟩
  exact Nat.mod_lt _ (by omega)

end Cycle

/-! ### Runs -/

section Runs

variable (start : State configs) (inputs : Nat → Input configs)

/-- A cycle of the circuit from given registers on. -/
def cycleFrom (time : Nat) : Cycle configs := (machine configs).outputAt start inputs time

variable {start inputs}

/-- The mask keeps one bit up to the first cycle without a request, and none from then on. -/
theorem gaRrMask_from (multi : configs.gaMulti = true)
    (oneHot : OneHot configs.numGroups start.gaRrMask) (inputs : Nat → Input configs)
    (time : Nat) :
    (OneHot configs.numGroups (cycleFrom start inputs time).state.gaRrMask ∧
        ∀ earlier < time, (cycleFrom start inputs earlier).Requested) ∨
      ((∀ group < configs.numGroups,
          (cycleFrom start inputs time).state.gaRrMask group = false) ∧
        ∃ earlier < time, ¬ (cycleFrom start inputs earlier).Requested) := by
  induction time with
  | zero => exact .inl ⟨oneHot, fun _ below => absurd below (Nat.not_lt_zero _)⟩
  | succ time inductionHypothesis =>
      rcases inductionHypothesis with ⟨mask, busy⟩ | ⟨clear, earlier, below, idle⟩
      · by_cases requested : (cycleFrom start inputs time).Requested
        · obtain ⟨group, granted⟩ := Cycle.exists_granted multi mask requested
          refine .inl ⟨Cycle.oneHot_next (Cycle.atMostOne_of_oneHot multi mask) granted, ?_⟩
          intro earlier below
          rcases Nat.lt_succ_iff_lt_or_eq.mp below with before | rfl
          · exact busy earlier before
          · exact requested
        · refine .inr ⟨Cycle.clear_next fun group granted => requested ?_, time, Nat.lt_succ_self _,
            requested⟩
          exact ⟨group, granted.1, Cycle.requested_of_granted granted⟩
      · refine .inr ⟨Cycle.clear_next (Cycle.not_granted multi clear), earlier, ?_, idle⟩
        exact Nat.lt_succ_of_lt below

theorem atMostOne_from (multi : configs.gaMulti = true)
    (oneHot : OneHot configs.numGroups start.gaRrMask) (time : Nat) :
    (cycleFrom start inputs time).AtMostOne := by
  rcases gaRrMask_from multi oneHot inputs time with ⟨mask, -⟩ | ⟨clear, -⟩
  · exact Cycle.atMostOne_of_oneHot multi mask
  · exact fun left _ granted _ => absurd granted (Cycle.not_granted multi clear left)

/-- A cycle serves its requests exactly when all cycles before it had one. -/
theorem exactlyOne_iff (multi : configs.gaMulti = true)
    (oneHot : OneHot configs.numGroups start.gaRrMask) (time : Nat) :
    (cycleFrom start inputs time).ExactlyOne ↔
      ((cycleFrom start inputs time).Requested →
        ∀ earlier < time, (cycleFrom start inputs earlier).Requested) := by
  refine forall_congr' fun requested => ?_
  rcases gaRrMask_from multi oneHot inputs time with
    ⟨mask, busy⟩ | ⟨clear, earlier, below, idle⟩
  · refine ⟨fun _ => busy, fun _ => ?_⟩
    obtain ⟨group, granted⟩ := Cycle.exists_granted multi mask requested
    refine ⟨group, ⟨granted, Cycle.requested_of_granted granted⟩, fun other isOther => ?_⟩
    exact Cycle.atMostOne_of_oneHot multi mask _ _ isOther.1 granted
  · refine ⟨?_, fun busy => absurd (busy earlier below) idle⟩
    rintro ⟨group, ⟨granted, -⟩, -⟩
    exact absurd granted (Cycle.not_granted multi clear group)

/-- From a mask with one bit, at most one group is granted in any cycle; requests are served in all
cycles exactly if no cycle without a request comes before one with a request. -/
theorem arbitration (multi : configs.gaMulti = true) (start : State configs)
    (oneHot : OneHot configs.numGroups start.gaRrMask) (inputs : Nat → Input configs) :
    (∀ time, (cycleFrom start inputs time).AtMostOne) ∧
      ((∀ time, (cycleFrom start inputs time).ExactlyOne) ↔
        ∀ idle busy, idle < busy → (cycleFrom start inputs busy).Requested →
          (cycleFrom start inputs idle).Requested) := by
  refine ⟨atMostOne_from multi oneHot, fun served idle busy before requested => ?_,
    fun continued time => ?_⟩
  · exact (exactlyOne_iff multi oneHot busy).mp (served busy) requested idle before
  · exact (exactlyOne_iff multi oneHot time).mpr fun requested earlier before =>
      continued earlier time before requested

end Runs

/-! ### One group -/

/-- One group of a load and a store, with round-robin arbitration. -/
def Configs.smallMulti : Configs := { Configs.small false false true with gaMulti := true }

/-- The registers with the mask of the group. -/
def State.first (configs : Configs) : State configs :=
  { State.clear configs with gaRrMask := fun group => decide (group = 0) }

/-- Nothing but a request of the first group from a cycle on. -/
def requestsFrom (configs : Configs) (begin time : Nat) : Input configs where
  groupInitValid group := decide (begin ≤ time) && decide (group = 0)
  ldpAddr _ := 0
  ldpAddrValid _ := false
  ldpDataReady _ := false
  stpAddr _ := 0
  stpAddrValid _ := false
  stpData _ := 0
  stpDataValid _ := false
  stpExecReady _ := false
  rreqReady _ := false
  rrespValid _ := false
  rrespId _ := 0
  rrespData _ := 0
  wreqReady := false
  wrespValid := false
  memStartValid := false
  ctrlEndValid := false
  memEndReady := false

theorem oneHot_first (configs : Configs) (some : 0 < configs.numGroups) :
    OneHot configs.numGroups (State.first configs).gaRrMask :=
  ⟨0, some, fun _ _ => decide_eq_decide.mpr eq_comm⟩

theorem arbitration_smallMulti :
    (∀ time, (cycleFrom (State.first Configs.smallMulti)
      (requestsFrom Configs.smallMulti 0) time).AtMostOne) ∧
      ((∀ time, (cycleFrom (State.first Configs.smallMulti)
        (requestsFrom Configs.smallMulti 0) time).ExactlyOne) ↔
        ∀ idle busy, idle < busy →
          (cycleFrom (State.first Configs.smallMulti)
            (requestsFrom Configs.smallMulti 0) busy).Requested →
          (cycleFrom (State.first Configs.smallMulti)
            (requestsFrom Configs.smallMulti 0) idle).Requested) :=
  arbitration rfl _ (oneHot_first _ (by decide)) _

/-- After a first cycle without a request, the group that requests its entries is not granted. -/
theorem not_exactlyOne_smallMulti :
    ¬ ∀ time, (cycleFrom (State.first Configs.smallMulti)
      (requestsFrom Configs.smallMulti 1) time).ExactlyOne := by
  intro served
  have idle : ¬ (cycleFrom (State.first Configs.smallMulti)
      (requestsFrom Configs.smallMulti 1) 0).Requested := by
    rintro ⟨group, -, set⟩
    simp [Cycle.groupInitAnd, cycleFrom, Machine.outputAt, machine, requestsFrom] at set
  have requested : (cycleFrom (State.first Configs.smallMulti)
      (requestsFrom Configs.smallMulti 1) 1).Requested := ⟨0, by decide, by decide⟩
  have mask := oneHot_first Configs.smallMulti (by decide)
  exact idle ((exactlyOne_iff rfl mask 1).mp (served 1) requested 0 Nat.zero_lt_one)

end Dynamatic.Lsq
