import Dynamatic.Lsq.Pipeline

/-!
# Allocation

What the group allocator does in a cycle, in terms of the loads and stores of the
run: a group is accepted only if the counts of free entries cover it, and the
entries written are those behind the tails, with the ports and the order that the
configuration gives the group's accesses.
-/

namespace Dynamatic.Lsq

open Dynamatic.Clocked

variable {configs : Configs}

namespace Cycle

variable {now : Cycle configs} {group : Nat}

/-- A group is accepted only if it is requested and fits. -/
theorem groupInitAnd_of_hs (accepted : now.groupInitHs group = true) :
    now.groupInitAnd group = true := by
  rw [groupInitHs] at accepted
  split at accepted
  · exact (cyclicPriorityMasking_le accepted).2
  · exact accepted

/-- A group is accepted only while its entries are free. -/
theorem groupInitReady_of_hs (accepted : now.groupInitHs group = true) :
    configs.gaNumLoads.getD group 0 ≤ now.emptyLoads ∧
      configs.gaNumStores.getD group 0 ≤ now.emptyStores := by
  have both := groupInitAnd_of_hs accepted
  simp only [groupInitAnd, groupInitReady, Bool.and_eq_true, decide_eq_true_eq] at both
  exact both.1

end Cycle

namespace Run

variable {run : Run configs} {time : Nat}

theorem loads_grows (time : Nat) : run.loads time <+: run.loads (time + 1) :=
  List.prefix_append _ _

theorem stores_grows (time : Nat) : run.stores time <+: run.stores (time + 1) :=
  List.prefix_append _ _

variable (run)

/-- The number of loads allocated before a cycle. -/
def numLoads (time : Nat) : Nat := (run.loads time).length

/-- The number of stores allocated before a cycle. -/
def numStores (time : Nat) : Nat := (run.stores time).length

/-- The port of a load. -/
noncomputable def ldPort (load : Nat) : Nat := (eventual run.loads load).port

/-- The stores ordered before a load. -/
noncomputable def before (load : Nat) : Nat := (eventual run.loads load).before

/-- The port of a store. -/
noncomputable def stPort (store : Nat) : Nat := eventual run.stores store

variable {run}

theorem numLoads_mono (run : Run configs) {early late : Nat} (ordered : early ≤ late) :
    run.numLoads early ≤ run.numLoads late := by
  induction ordered with
  | refl => exact Nat.le_refl _
  | step _ inductionHypothesis => exact inductionHypothesis.trans (loads_grows _).length_le

theorem numStores_mono (run : Run configs) {early late : Nat} (ordered : early ≤ late) :
    run.numStores early ≤ run.numStores late := by
  induction ordered with
  | refl => exact Nat.le_refl _
  | step _ inductionHypothesis => exact inductionHypothesis.trans (stores_grows _).length_le

/-- What a cycle allocates: nothing, or the accesses of one group. -/
theorem allocates (oneGroup : run.OneGroup) (time : Nat) :
    (run.groupAt time = none ∧ (run.cycle time).numLoads = 0 ∧ (run.cycle time).numStores = 0 ∧
        run.numLoads (time + 1) = run.numLoads time ∧
        run.numStores (time + 1) = run.numStores time) ∨
      ∃ group < configs.numGroups, run.groupAt time = some group ∧
        (run.cycle time).groupInitHs group = true ∧
        (∀ other < configs.numGroups, (run.cycle time).groupInitHs other = true → other = group) ∧
        (run.cycle time).numLoads = configs.gaNumLoads.getD group 0 ∧
        (run.cycle time).numStores = configs.gaNumStores.getD group 0 ∧
        run.numLoads (time + 1) = run.numLoads time + configs.gaNumLoads.getD group 0 ∧
        run.numStores (time + 1) = run.numStores time + configs.gaNumStores.getD group 0 := by
  cases found : run.groupAt time with
  | none =>
      have none : ∀ group < configs.numGroups, (run.cycle time).groupInitHs group = false := by
        intro group bounded
        simpa using List.find?_eq_none.mp found group (List.mem_range.mpr bounded)
      refine .inl ⟨rfl, mux1HROM_of_none none, mux1HROM_of_none none, ?_, ?_⟩
      · simp [numLoads, loads, found]
      · simp [numStores, stores, found]
  | some group =>
      have accepted : (run.cycle time).groupInitHs group = true := List.find?_some found
      have bounded : group < configs.numGroups :=
        List.mem_range.mp (List.mem_of_find?_eq_some found)
      have only : ∀ other < configs.numGroups,
          (run.cycle time).groupInitHs other = true → other = group :=
        fun other inside also => oneGroup time other group inside bounded also accepted
      refine .inr ⟨group, bounded, rfl, accepted, only, mux1HROM_of_unique bounded accepted only,
        mux1HROM_of_unique bounded accepted only, ?_, ?_⟩
      · simp [numLoads, loads, found]
      · simp [numStores, stores, found]

section OneGroup

variable (oneGroup : run.OneGroup)

include oneGroup

theorem numLoads_succ : run.numLoads (time + 1) = run.numLoads time + (run.cycle time).numLoads := by
  rcases allocates oneGroup time with ⟨-, none, -, same, -⟩ | ⟨group, -, -, -, -, loads, -, more, -⟩
  · rw [none, same, Nat.add_zero]
  · rw [loads, more]

theorem numStores_succ :
    run.numStores (time + 1) = run.numStores time + (run.cycle time).numStores := by
  rcases allocates oneGroup time with ⟨-, -, none, -, same⟩ | ⟨group, -, -, -, -, -, stores, -, more⟩
  · rw [none, same, Nat.add_zero]
  · rw [stores, more]

/-- The group fits the free entries and leaves one slot. -/
theorem numLoads_le : (run.cycle time).numLoads ≤ (run.cycle time).emptyLoads ∧
    (run.cycle time).numLoads < configs.numLdqEntries := by
  have someLdqAddr := configs.someLdqAddr
  rcases allocates oneGroup time with ⟨-, none, -⟩ | ⟨group, bounded, -, accepted, -, loads, -⟩
  · omega
  · rw [loads]
    exact ⟨(Cycle.groupInitReady_of_hs accepted).1, configs.loadsFit group bounded⟩

theorem numStores_le : (run.cycle time).numStores ≤ (run.cycle time).emptyStores ∧
    (run.cycle time).numStores < configs.numStqEntries := by
  have someStqAddr := configs.someStqAddr
  rcases allocates oneGroup time with ⟨-, -, none, -⟩ | ⟨group, bounded, -, accepted, -, -, stores, -⟩
  · omega
  · rw [stores]
    exact ⟨(Cycle.groupInitReady_of_hs accepted).2, configs.storesFit group bounded⟩

/-- What is recorded for a load as it is allocated. -/
theorem allocated_load {load : Nat} (after : run.numLoads time ≤ load)
    (within : load < run.numLoads (time + 1)) :
    run.ldPort load < configs.numLdPorts ∧
      (run.cycle time).ldqPortIdxRom (load - run.numLoads time) = run.ldPort load ∧
      run.numStores time ≤ run.before load ∧ run.before load ≤ run.numStores (time + 1) ∧
      ∀ store, (run.cycle time).gaLsOrderRom (load - run.numLoads time) store =
        decide (run.numStores time + store < run.before load) := by
  rcases allocates oneGroup time with ⟨-, -, -, same, -⟩ |
    ⟨group, bounded, found, accepted, only, -, -, more, stores⟩
  · omega
  · have inside : load - run.numLoads time < configs.gaNumLoads.getD group 0 := by omega
    have entry : eventual run.loads load =
        { port := Configs.value configs.gaLdPortIdx group (load - run.numLoads time)
          before := (run.stores time).length +
            Configs.value configs.gaLdOrder group (load - run.numLoads time) } := by
      have shown := getElem?_eq_eventual loads_grows within
      rw [loads, found, List.getElem?_append_right after, List.getElem?_map, ← numLoads,
        List.getElem?_range inside] at shown
      exact (Option.some.inj shown).symm
    have order := configs.orderFits group bounded _ inside
    refine ⟨?_, ?_, ?_, ?_, fun store => ?_⟩
    · rw [ldPort, entry]
      exact configs.loadPorts group bounded _ inside
    · rw [ldPort, entry]
      exact mux1HROM_of_unique bounded accepted only
    · rw [before, entry]
      exact Nat.le_add_right _ _
    · rw [before, entry, stores]
      exact Nat.add_le_add_left order _
    · rw [before, entry, Bool.eq_iff_iff, Cycle.gaLsOrderRom, reduceOr_eq_true]
      simp only [Bool.and_eq_true, decide_eq_true_eq, numStores, Nat.add_lt_add_iff_left]
      constructor
      · rintro ⟨other, otherBounded, also, less⟩
        rwa [only other otherBounded also] at less
      · intro less
        exact ⟨group, bounded, accepted, less⟩

/-- What is recorded for a store as it is allocated. -/
theorem allocated_store {store : Nat} (after : run.numStores time ≤ store)
    (within : store < run.numStores (time + 1)) :
    run.stPort store < configs.numStPorts ∧
      (run.cycle time).stqPortIdxRom (store - run.numStores time) = run.stPort store := by
  rcases allocates oneGroup time with ⟨-, -, -, -, same⟩ |
    ⟨group, bounded, found, accepted, only, -, -, -, more⟩
  · omega
  · have inside : store - run.numStores time < configs.gaNumStores.getD group 0 := by omega
    have entry : run.stPort store =
        Configs.value configs.gaStPortIdx group (store - run.numStores time) := by
      have shown := getElem?_eq_eventual stores_grows within
      rw [stores, found, List.getElem?_append_right after, List.getElem?_map, ← numStores,
        List.getElem?_range inside] at shown
      exact (Option.some.inj shown).symm
    rw [entry]
    exact ⟨configs.storePorts group bounded _ inside, mux1HROM_of_unique bounded accepted only⟩

end OneGroup

end Run

/-- A shifted array holds its rows behind the tail. -/
theorem cyclicLeftShift_entry {α : Type} {size stop entry : Nat} {din : Nat → α}
    (after : stop ≤ entry) (before : entry < stop + size) :
    cyclicLeftShift size (log2Ceil size) (stop % size) din (entry % size) = din (entry - stop) := by
  have fits := (Nat.mod_lt stop (by omega : 0 < size)).trans_le (le_two_pow_log2Ceil size)
  have shifted := cyclicLeftShift_slot din fits
    (by omega : entry - stop < size)
  rwa [Nat.mod_add_mod, Nat.add_sub_cancel' after] at shifted

/-- The entries written are those of the new numbers. -/
theorem wen_iff {size stop number index : Nat} (bounded : index < size) (fits : number ≤ size) :
    cyclicLeftShift size (log2Ceil size) (stop % size) (fun offset => decide (offset < number))
        index = true ↔
      ∃ entry, stop ≤ entry ∧ entry < stop + number ∧ entry % size = index := by
  constructor
  · intro set
    obtain ⟨entry, after, before, rfl⟩ := exists_slot stop bounded
    rw [cyclicLeftShift_entry after before, decide_eq_true_eq] at set
    exact ⟨entry, after, by omega, rfl⟩
  · rintro ⟨entry, after, before, rfl⟩
    rw [cyclicLeftShift_entry after (by omega), decide_eq_true_eq]
    omega

end Dynamatic.Lsq
