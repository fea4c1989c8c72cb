import Dynamatic.Lsq.Arbitration

/-!
# What a granted group writes

The ROM rows of the granted group, rotated by the tails, are the entries that the
queues write: one row for each load and each store from the tails on, around the ends
of the queues, and no other.
-/

namespace Dynamatic.Lsq

open Dynamatic.Clocked

variable {configs : Configs}

namespace Configs

variable (configs)

/-- The entry of the load queue that is a number of entries behind the tail. -/
def ldqSlot (tail load : Nat) : Nat := (tail + load) % configs.numLdqEntries

/-- The entry of the store queue that is a number of entries behind the tail. -/
def stqSlot (tail store : Nat) : Nat := (tail + store) % configs.numStqEntries

end Configs

namespace Cycle

/-- The slots of a group with their ports and order, and the tails behind them. -/
structure Writes (now : Cycle configs) (group : Nat) : Prop where
  ldqWen : ∀ index < configs.numLdqEntries, now.ldqWen index = true ↔
    ∃ load < configs.gaNumLoads.getD group 0, configs.ldqSlot now.state.ldqTail load = index
  stqWen : ∀ index < configs.numStqEntries, now.stqWen index = true ↔
    ∃ store < configs.gaNumStores.getD group 0, configs.stqSlot now.state.stqTail store = index
  ldqPortIdx : ∀ load < configs.gaNumLoads.getD group 0,
    now.ldqPortIdxIn (configs.ldqSlot now.state.ldqTail load) =
      Configs.value configs.gaLdPortIdx group load
  stqPortIdx : ∀ store < configs.gaNumStores.getD group 0,
    now.stqPortIdxIn (configs.stqSlot now.state.stqTail store) =
      Configs.value configs.gaStPortIdx group store
  lsOrder : ∀ load < configs.gaNumLoads.getD group 0, ∀ store < configs.gaNumStores.getD group 0,
    now.gaLsOrder (configs.ldqSlot now.state.ldqTail load)
        (configs.stqSlot now.state.stqTail store) =
      decide (store < Configs.value configs.gaLdOrder group load)
  otherStores : ∀ load < configs.gaNumLoads.getD group 0, ∀ index < configs.numStqEntries,
    (∀ store < configs.gaNumStores.getD group 0,
      configs.stqSlot now.state.stqTail store ≠ index) →
    now.gaLsOrder (configs.ldqSlot now.state.ldqTail load) index = false
  otherLoads : (configs.gaLdOrder.getD group []).length ≤ configs.gaNumLoads.getD group 0 →
    ∀ index < configs.numLdqEntries,
      (∀ load < configs.gaNumLoads.getD group 0,
        configs.ldqSlot now.state.ldqTail load ≠ index) →
      ∀ store < configs.numStqEntries, now.gaLsOrder index store = false
  ldqTail : now.next.ldqTail =
    (now.state.ldqTail + configs.gaNumLoads.getD group 0) % configs.numLdqEntries
  stqTail : now.next.stqTail =
    (now.state.stqTail + configs.gaNumStores.getD group 0) % configs.numStqEntries

variable {now : Cycle configs} {group : Nat}

/-! ### The ROMs -/

section Rom

variable (only : now.AtMostOne) (granted : now.Granted group)

include only granted

/-- A ROM shows the row of the granted group. -/
theorem mux1HROM_granted (value : Nat → Nat) :
    mux1HROM configs.numGroups now.groupInitHs value = value group :=
  mux1HROM_of_unique granted.1 granted.2 fun other bounded set =>
    only other group ⟨bounded, set⟩ granted

theorem gaLsOrderRom_granted (load store : Nat) :
    now.gaLsOrderRom load store = decide (store < Configs.value configs.gaLdOrder group load) := by
  rw [gaLsOrderRom, Bool.eq_iff_iff, reduceOr_eq_true, decide_eq_true_eq]
  constructor
  · rintro ⟨other, bounded, both⟩
    rw [Bool.and_eq_true, decide_eq_true_eq] at both
    rw [← only other group ⟨bounded, both.1⟩ granted]
    exact both.2
  · intro less
    refine ⟨group, granted.1, ?_⟩
    rw [Bool.and_eq_true, decide_eq_true_eq]
    exact ⟨granted.2, less⟩

end Rom

/-! ### The slots -/

/-- The entries written are those behind the tail. -/
theorem written_iff {size tail number index : Nat} (tailBounded : tail < size)
    (fits : number < size) (bounded : index < size) :
    cyclicLeftShift size (log2Ceil size) tail (fun offset => decide (offset < number)) index = true ↔
      ∃ offset < number, (tail + offset) % size = index := by
  have written : cyclicLeftShift size (log2Ceil size) (tail % size)
      (fun offset => decide (offset < number)) index = true ↔
      ∃ entry, tail ≤ entry ∧ entry < tail + number ∧ entry % size = index :=
    wen_iff bounded (Nat.le_of_lt fits)
  rw [Nat.mod_eq_of_lt tailBounded] at written
  rw [written]
  constructor
  · rintro ⟨entry, after, before, slot⟩
    exact ⟨entry - tail, by omega, by rwa [Nat.add_sub_cancel' after]⟩
  · rintro ⟨offset, below, slot⟩
    exact ⟨tail + offset, Nat.le_add_right _ _, by omega, slot⟩

/-- Each slot is some number of slots behind the tail. -/
theorem exists_offset {size index : Nat} (tail : Nat) (bounded : index < size) :
    ∃ offset < size, (tail + offset) % size = index := by
  obtain ⟨entry, after, before, slot⟩ := exists_slot tail bounded
  exact ⟨entry - tail, by omega, by rwa [Nat.add_sub_cancel' after]⟩

section Slots

variable (ldqTail : now.state.ldqTail < configs.numLdqEntries)
  (stqTail : now.state.stqTail < configs.numStqEntries)

include ldqTail in
theorem ldqShift_slot {α : Type} (din : Nat → α) {load : Nat} (bounded : load < configs.numLdqEntries) :
    cyclicLeftShift configs.numLdqEntries configs.ldqAddrW now.state.ldqTail din
      (configs.ldqSlot now.state.ldqTail load) = din load :=
  cyclicLeftShift_slot din (ldqTail.trans_le (le_two_pow_log2Ceil _)) bounded

include stqTail in
theorem stqShift_slot {α : Type} (din : Nat → α) {store : Nat}
    (bounded : store < configs.numStqEntries) :
    cyclicLeftShift configs.numStqEntries configs.stqAddrW now.state.stqTail din
      (configs.stqSlot now.state.stqTail store) = din store :=
  cyclicLeftShift_slot din (stqTail.trans_le (le_two_pow_log2Ceil _)) bounded

variable (only : now.AtMostOne) (granted : now.Granted group)

include ldqTail stqTail only granted

/-- The order of a load's row is that of the configuration, seen from the tails. -/
theorem gaLsOrder_slots {load store : Nat} (loadBounded : load < configs.numLdqEntries)
    (storeBounded : store < configs.numStqEntries) :
    now.gaLsOrder (configs.ldqSlot now.state.ldqTail load)
        (configs.stqSlot now.state.stqTail store) =
      decide (store < Configs.value configs.gaLdOrder group load) := by
  rw [gaLsOrder, ldqShift_slot ldqTail _ loadBounded, stqShift_slot stqTail _ storeBounded,
    gaLsOrderRom_granted only granted]

/-- The granted group writes its slots, with its ports and its order, and moves the tails behind
them. -/
theorem writes_granted : now.Writes group := by
  have loads : now.numLoads = configs.gaNumLoads.getD group 0 := mux1HROM_granted only granted _
  have stores : now.numStores = configs.gaNumStores.getD group 0 := mux1HROM_granted only granted _
  have loadsFit := configs.loadsFit group granted.1
  have storesFit := configs.storesFit group granted.1
  refine ⟨fun index bounded => ?_, fun index bounded => ?_, fun load inside => ?_,
    fun store inside => ?_, fun load inside store storeInside => ?_,
    fun load inside index bounded other => ?_, fun rows index bounded other store storeBounded => ?_,
    ?_, ?_⟩
  · rw [ldqWen, loads]
    exact written_iff ldqTail loadsFit bounded
  · rw [stqWen, stores]
    exact written_iff stqTail storesFit bounded
  · rw [ldqPortIdxIn, ldqShift_slot ldqTail _ (inside.trans loadsFit)]
    exact mux1HROM_granted only granted _
  · rw [stqPortIdxIn, stqShift_slot stqTail _ (inside.trans storesFit)]
    exact mux1HROM_granted only granted _
  · exact gaLsOrder_slots ldqTail stqTail only granted (inside.trans loadsFit)
      (storeInside.trans storesFit)
  · obtain ⟨store, storeBounded, rfl⟩ := exists_offset now.state.stqTail bounded
    rw [← Configs.stqSlot, gaLsOrder_slots ldqTail stqTail only granted (inside.trans loadsFit)
      storeBounded]
    have behind : configs.gaNumStores.getD group 0 ≤ store :=
      Nat.le_of_not_lt fun within => other store within rfl
    have order := configs.orderFits group granted.1 load inside
    exact decide_eq_false (Nat.not_lt.mpr (order.trans behind))
  · obtain ⟨load, loadBounded, rfl⟩ := exists_offset now.state.ldqTail bounded
    obtain ⟨offset, offsetBounded, rfl⟩ := exists_offset now.state.stqTail storeBounded
    rw [← Configs.ldqSlot, ← Configs.stqSlot,
      gaLsOrder_slots ldqTail stqTail only granted loadBounded offsetBounded]
    have behind : configs.gaNumLoads.getD group 0 ≤ load :=
      Nat.le_of_not_lt fun within => other load within rfl
    have padded : Configs.value configs.gaLdOrder group load = 0 := by
      rw [Configs.value, List.getD_eq_default _ _ (rows.trans behind)]
    rw [padded]
    exact decide_eq_false (Nat.not_lt_zero _)
  · show wrapAdd configs.numLdqEntries now.state.ldqTail now.numLoads = _
    rw [loads]
    exact wrapAdd_eq ldqTail (Nat.le_of_lt loadsFit)
  · show wrapAdd configs.numStqEntries now.state.stqTail now.numStores = _
    rw [stores]
    exact wrapAdd_eq stqTail (Nat.le_of_lt storesFit)

end Slots

end Cycle

/-- The first cycle of a queue in which its group is granted. -/
theorem writes_smallMulti :
    Cycle.Writes (cycleFrom (State.first Configs.smallMulti) (requestsFrom Configs.smallMulti 0) 0)
      0 :=
  Cycle.writes_granted (by decide) (by decide)
    (atMostOne_from rfl (oneHot_first _ (by decide)) 0) ⟨by decide, by decide⟩

end Dynamatic.Lsq
