import Dynamatic.LsqSizing.QueueSize
import Dynamatic.LsqSizing.WorstCase
import Mathlib.Algebra.Order.BigOperators.Group.List

/-!
# The sizing of the LSQs of a CFDFC

The window of twice the latest deallocation includes the busiest cycle if the iterations start at
one interval, but not always if two intervals alternate: the second iteration can start behind it.
And the worst-case interval is zero if no load is before a store, so that the loop never ends.
-/

namespace Dynamatic.LsqSizing

open Dynamatic.Schedules

/-! ### Intervals in rotation -/

section Rotation

variable {listOfII : List Nat} {iter : Nat}

theorem iiOf_of_lt (bound : iter < listOfII.length) : iiOf listOfII iter = listOfII[iter] := by
  rw [iiOf, Nat.mod_eq_of_lt bound, List.getD_eq_getElem?_getD, List.getElem?_eq_getElem bound,
    Option.getD_some]

theorem iiOf_add_length (iter : Nat) :
    iiOf listOfII (iter + listOfII.length) = iiOf listOfII iter := by
  rw [iiOf, iiOf, Nat.add_mod_right]

theorem startOf_eq_sum_take (bound : iter ≤ listOfII.length) :
    startOf listOfII iter = (listOfII.take iter).sum := by
  induction iter with
  | zero => rfl
  | succ iter inductionHypothesis =>
      rw [startOf, inductionHypothesis (Nat.le_of_succ_le bound), iiOf_of_lt bound,
        List.sum_take_succ listOfII iter bound]

theorem startOf_length (listOfII : List Nat) :
    startOf listOfII listOfII.length = listOfII.sum := by
  rw [startOf_eq_sum_take (Nat.le_refl _), List.take_length]

theorem startOf_add_length (iter : Nat) :
    startOf listOfII (iter + listOfII.length) = startOf listOfII iter + listOfII.sum := by
  induction iter with
  | zero => rw [Nat.zero_add, startOf_length, startOf, Nat.zero_add]
  | succ iter inductionHypothesis =>
      rw [Nat.add_right_comm, startOf, inductionHypothesis, iiOf_add_length, startOf]
      exact Nat.add_right_comm _ _ _

/-- The starts pass every cycle if some interval is positive. -/
theorem exists_le_startOf (positive : 0 < listOfII.sum) (cycle : Nat) :
    ∃ last, cycle ≤ startOf listOfII last := by
  induction cycle with
  | zero => exact ⟨0, Nat.zero_le _⟩
  | succ cycle inductionHypothesis =>
      obtain ⟨last, le⟩ := inductionHypothesis
      refine ⟨last + listOfII.length, ?_⟩
      rw [startOf_add_length]
      exact Nat.add_le_add le positive

theorem startOf_eq_zero (zero : listOfII.sum = 0) (iter : Nat) : startOf listOfII iter = 0 := by
  induction iter with
  | zero => rfl
  | succ iter inductionHypothesis =>
      rw [startOf, inductionHypothesis, Nat.zero_add, iiOf, List.getD_eq_getElem?_getD]
      cases isInterval : listOfII[iter % listOfII.length]? with
      | none => rfl
      | some ii =>
          have le := List.le_sum_of_mem (List.mem_of_getElem? isInterval)
          exact Nat.eq_zero_of_le_zero (zero ▸ le)

end Rotation

namespace Accesses

section Window

variable {Op Lsq : Type} [DecidableEq Lsq] {accesses : Accesses Op Lsq} {listOfII : List Nat}

theorem schedule_repeats (lsq : Lsq) :
    (accesses.schedule listOfII lsq).Repeats listOfII.length listOfII.sum where
  start := startOf_add_length
  arrive iter := congrArg accesses.allocTimes (iiOf_add_length iter)
  leave iter := congrArg accesses.deallocTimes (iiOf_add_length iter)

omit [DecidableEq Lsq] in
theorem le_latestEnd {ii : Nat} {op : Op} (isInterval : ii ∈ listOfII) (mem : op ∈ accesses.ops) :
    accesses.deallocTimes ii op ≤ accesses.latestEnd listOfII :=
  (isGreatest_foldl_max id 0 _).2 (.inr ⟨_, List.mem_flatMap.mpr
    ⟨ii, isInterval, List.mem_map_of_mem mem⟩, rfl⟩)

omit [DecidableEq Lsq] in
theorem latestEnd_pos {op : Op} (mem : op ∈ accesses.ops) (some : listOfII ≠ []) :
    0 < accesses.latestEnd listOfII := by
  obtain ⟨ii, isInterval⟩ := List.exists_mem_of_ne_nil listOfII some
  exact Nat.lt_of_lt_of_le (accesses.alloc_pos ii op)
    ((accesses.ordered ii op mem).trans (le_latestEnd isInterval mem))

/-- The times that are counted are values of an `int`. -/
structure InRange (accesses : Accesses Op Lsq) (listOfII : List Nat) : Prop where
  window : accesses.latestEnd listOfII * 2 < 2 ^ 31
  times : ∀ op ∈ accesses.ops, ∀ iter,
    startOf listOfII iter < accesses.latestEnd listOfII * 2 →
      accesses.Fits (accesses.opsOf (accesses.lsqOp op)) listOfII iter

/-- No cycle behind the window, in the first rotation, is busier than all cycles in it. -/
def Covers (accesses : Accesses Op Lsq) (listOfII : List Nat) : Prop :=
  ∀ op ∈ accesses.ops, ∀ cycle, accesses.latestEnd listOfII * 2 ≤ cycle →
    cycle < startOf listOfII (listOfII.length - 1) + accesses.latestEnd listOfII →
      ∃ earlier < accesses.latestEnd listOfII * 2,
        (accesses.schedule listOfII (accesses.lsqOp op)).occupancy cycle ≤
          (accesses.schedule listOfII (accesses.lsqOp op)).occupancy earlier

omit [DecidableEq Lsq] in
theorem ends_iff {ops : List Op} {maxEndTime : Nat} :
    accesses.Ends ops listOfII maxEndTime ↔ (∃ last, maxEndTime ≤ startOf listOfII last) ∧
      ∀ iter, startOf listOfII iter < maxEndTime → accesses.Fits ops listOfII iter := by
  constructor
  · rintro ⟨last, ends, before⟩
    refine ⟨⟨last, ends⟩, fun iter inTime => (before iter ?_).2⟩
    by_contra behind
    exact Nat.not_lt.mpr (ends.trans (startOf_mono (Nat.le_of_not_lt behind))) inTime
  · rintro ⟨exists_last, fits⟩
    refine ⟨Nat.find exists_last, Nat.find_spec exists_last, fun iter before => ?_⟩
    have inTime := Nat.lt_of_not_le (Nat.find_min exists_last before)
    exact ⟨inTime, fits iter inTime⟩

theorem sized_iff (some : listOfII ≠ []) :
    accesses.Sized listOfII ↔ (accesses.ops ≠ [] → 0 < listOfII.sum) ∧
      accesses.InRange listOfII ∧ accesses.Covers listOfII := by
  constructor
  · intro sized
    refine ⟨fun used => ?_, ⟨sized.window, fun op mem => (ends_iff.mp (sized.ends op mem)).2⟩,
      fun op mem cycle _ _ => sized.peak op mem cycle⟩
    obtain ⟨op, mem⟩ := List.exists_mem_of_ne_nil accesses.ops used
    obtain ⟨last, ends, -⟩ := sized.ends op mem
    refine Nat.pos_of_ne_zero fun zero => ?_
    have positive := latestEnd_pos mem some
    rw [startOf_eq_zero zero] at ends
    omega
  · rintro ⟨progresses, inRange, covers⟩
    refine ⟨inRange.window, fun op mem => ends_iff.mpr ⟨exists_le_startOf
      (progresses (List.ne_nil_of_mem mem)) _, inRange.times op mem⟩, fun op mem cycle => ?_⟩
    have positive := latestEnd_pos mem some
    have left : ∀ round < listOfII.length, ∀ job ∈ accesses.opsOf (accesses.lsqOp op),
        startOf listOfII round + accesses.deallocTimes (iiOf listOfII round) job ≤
          startOf listOfII (listOfII.length - 1) + accesses.latestEnd listOfII := by
      intro round first job isJob
      refine Nat.add_le_add (startOf_mono (Nat.le_sub_one_of_lt first)) ?_
      rw [iiOf_of_lt first]
      exact le_latestEnd (List.getElem_mem first) (List.mem_filter.mp isJob).1
    obtain ⟨earlier, bound, le⟩ := (schedule_repeats (accesses.lsqOp op)).exists_before
      (progresses (List.ne_nil_of_mem mem)) left (by omega) cycle
    by_cases inWindow : earlier < accesses.latestEnd listOfII * 2
    · exact ⟨earlier, inWindow, le⟩
    · obtain ⟨before, inside, busier⟩ := covers op mem earlier (Nat.le_of_not_lt inWindow) bound
      exact ⟨before, inside, le.trans busier⟩

/-- One interval covers all. -/
theorem covers_singleton (ii : Nat) : accesses.Covers [ii] := by
  intro op mem cycle behind before
  have : startOf [ii] ([ii].length - 1) = 0 := rfl
  omega

/-- With two intervals, only the first three iterations matter. -/
theorem covers_pair_iff {first second : Nat} :
    accesses.Covers [first, second] ↔ ∀ op ∈ accesses.ops, ∀ cycle,
      accesses.latestEnd [first, second] * 2 ≤ cycle →
        cycle < first + accesses.latestEnd [first, second] →
          ∃ earlier < accesses.latestEnd [first, second] * 2,
            (accesses.schedule [first, second] (accesses.lsqOp op)).countIn cycle 3 ≤
              (accesses.schedule [first, second] (accesses.lsqOp op)).countIn earlier 3 := by
  have second_start : startOf [first, second] 1 = first := Nat.zero_add first
  have fourth_start : startOf [first, second] 3 = first + second + first := by
    simp [startOf, iiOf]
  have same : [first, second].length - 1 = 1 := rfl
  rw [Covers, same, second_start]
  refine forall₂_congr fun op mem => forall₃_congr fun cycle behind before =>
    exists_congr fun earlier => and_congr_right fun inside => ?_
  rw [occupancy_eq (show cycle < startOf [first, second] 3 by omega),
    occupancy_eq (show earlier < startOf [first, second] 3 by omega), Nat.cast_le]

/-! ### The sizes of all LSQs -/

/-- The size in the map, or 0. -/
def sizeOf (sizes : List (Lsq × Nat)) (lsq : Lsq) : Nat := (sizes.lookup lsq).getD 0

theorem sizeOf_eq {sizes : List (Lsq × Nat)} (nodup : (sizes.map Prod.fst).Nodup) {lsq : Lsq}
    {size : Nat} (mem : (lsq, size) ∈ sizes) : sizeOf sizes lsq = size := by
  induction sizes with
  | nil => cases mem
  | cons entry sizes inductionHypothesis =>
      obtain ⟨first, nodup⟩ := List.nodup_cons.mp nodup
      rw [sizeOf, List.lookup_cons]
      rcases List.mem_cons.mp mem with rfl | later
      · simp
      · have differs : lsq ≠ entry.1 := by
          rintro rfl
          exact first (List.mem_map.mpr ⟨(entry.1, size), later, rfl⟩)
        rw [beq_false_of_ne differs]
        exact inductionHypothesis nodup later

theorem sizeOf_eq_zero {sizes : List (Lsq × Nat)} {lsq : Lsq}
    (absent : lsq ∉ sizes.map Prod.fst) : sizeOf sizes lsq = 0 := by
  rw [sizeOf, List.lookup_eq_none_iff.mpr fun entry mem => ?_, Option.getD_none]
  exact bne_iff_ne.mpr fun same => absent (same ▸ List.mem_map_of_mem mem)

theorem keys_of_calcQueueSize {fuel : Nat} {sizes : List (Lsq × Nat)}
    (isSizes : accesses.calcQueueSize fuel listOfII = some sizes) :
    sizes.map Prod.fst = (accesses.ops.map accesses.lsqOp).dedup := by
  obtain ⟨maxEndTime, -, isSizes⟩ := Option.bind_eq_some_iff.mp isSizes
  exact (mapM_pair_eq_some.mp isSizes).1

theorem calcQueueSize_mono {fuel : Nat} {sizes : List (Lsq × Nat)}
    (isSizes : accesses.calcQueueSize fuel listOfII = some sizes) (extra : Nat) :
    accesses.calcQueueSize (fuel + extra) listOfII = some sizes := by
  obtain ⟨maxEndTime, isEnd, isSizes⟩ := Option.bind_eq_some_iff.mp isSizes
  obtain ⟨keys, values⟩ := mapM_pair_eq_some.mp isSizes
  exact Option.bind_eq_some_iff.mpr ⟨maxEndTime, isEnd, mapM_pair_eq_some.mpr
    ⟨keys, fun entry mem => maxSlots_mono (values entry mem) extra⟩⟩

/-- An LSQ that is not used has no entries. -/
theorem occupancy_of_not_used {lsq : Lsq} (unused : ¬∃ op ∈ accesses.ops, accesses.lsqOp op = lsq)
    (cycle : Nat) : (accesses.schedule listOfII lsq).occupancy cycle = 0 := by
  have none : accesses.opsOf lsq = [] := List.filter_eq_nil_iff.mpr fun op mem uses =>
    unused ⟨op, mem, of_decide_eq_true uses⟩
  refine @Schedule.occupancy_eq_countIn _ _ cycle 0 fun round _ op mem => ?_
  have isOp : op ∈ accesses.opsOf lsq := mem
  rw [none] at isOp
  cases isOp

/-- The sizes are right if they are the most entries of each LSQ, used or not. -/
theorem rightSizes_iff {sizes : List (Lsq × Nat)}
    (keys : sizes.map Prod.fst = (accesses.ops.map accesses.lsqOp).dedup) :
    accesses.RightSizes listOfII sizes ↔ ∀ lsq,
      IsGreatest (Set.range (accesses.schedule listOfII lsq).occupancy) (sizeOf sizes lsq) := by
  have nodup : (sizes.map Prod.fst).Nodup := keys ▸ List.nodup_dedup _
  constructor
  · intro right lsq
    by_cases used : ∃ op ∈ accesses.ops, accesses.lsqOp op = lsq
    · obtain ⟨entry, mem, rfl⟩ := List.mem_map.mp (right.keys ▸ mem_queues.mpr used)
      rw [sizeOf_eq nodup mem]
      exact right.greatest entry mem
    · rw [sizeOf_eq_zero fun mem => used (mem_queues.mp (keys ▸ mem))]
      exact ⟨⟨0, occupancy_of_not_used used 0⟩, Set.forall_mem_range.mpr fun cycle =>
        (occupancy_of_not_used used cycle).le⟩
  · intro right
    refine ⟨keys, fun entry mem => ?_⟩
    rw [← sizeOf_eq nodup mem]
    exact right entry.1

end Window

end Accesses

/-! ### The pass -/

/-- A CFDFC, with the times that have been found for its accesses. -/
structure CFDFC (Node Lsq : Type) where
  graph : CFDFCGraph Node Lsq
  /-- The earliest start time of the phi node in the block of an access. -/
  earliestStartTime : Node → Nat
  loadDeallocTimes : Nat → Node → Nat
  storeDeallocTimes : Nat → Node → Nat
  loadsOrdered : ∀ ii, ∀ load ∈ graph.lsqOps .load,
    earliestStartTime load + 1 ≤ loadDeallocTimes ii load
  storesOrdered : ∀ ii, ∀ store ∈ graph.lsqOps .store,
    earliestStartTime store + 1 ≤ storeDeallocTimes ii store

/-- The intervals between the iterations, in their order. -/
def listOfIIs (collisions : String) (initialII worstCaseII : Nat) : List Nat :=
  if collisions = "full" then [worstCaseII]
  else if collisions = "half" then [initialII, worstCaseII]
  else [initialII]

/-- The loads and then the stores of each LSQ. -/
def mergeSizes {Lsq : Type} [DecidableEq Lsq] (loadSizes storeSizes : List (Lsq × Nat)) :
    List (Lsq × Nat × Nat) :=
  (loadSizes.map fun entry => (entry.1, entry.2, Accesses.sizeOf storeSizes entry.1)) ++
    (storeSizes.filter fun entry => entry.1 ∉ loadSizes.map Prod.fst).map fun entry =>
      (entry.1, 0, entry.2)

section Merge

open Accesses

variable {Lsq : Type} [DecidableEq Lsq] {loadSizes storeSizes : List (Lsq × Nat)}

theorem mem_mergeSizes (loadKeys : (loadSizes.map Prod.fst).Nodup)
    (storeKeys : (storeSizes.map Prod.fst).Nodup) {lsq : Lsq} {sizes : Nat × Nat} :
    (lsq, sizes) ∈ mergeSizes loadSizes storeSizes ↔
      (lsq ∈ loadSizes.map Prod.fst ∨ lsq ∈ storeSizes.map Prod.fst) ∧
        sizes = (sizeOf loadSizes lsq, sizeOf storeSizes lsq) := by
  rw [mergeSizes, List.mem_append]
  constructor
  · rintro (isLoad | isStore)
    · obtain ⟨⟨key, size⟩, mem, same⟩ := List.mem_map.mp isLoad
      cases same
      exact ⟨.inl (List.mem_map_of_mem mem), by rw [sizeOf_eq loadKeys mem]⟩
    · obtain ⟨⟨key, size⟩, kept, same⟩ := List.mem_map.mp isStore
      cases same
      obtain ⟨mem, absent⟩ := List.mem_filter.mp kept
      refine ⟨.inr (List.mem_map_of_mem mem), ?_⟩
      rw [sizeOf_eq storeKeys mem, sizeOf_eq_zero (of_decide_eq_true absent)]
  · rintro ⟨isKey, rfl⟩
    by_cases isLoad : lsq ∈ loadSizes.map Prod.fst
    · obtain ⟨⟨_, size⟩, mem, rfl⟩ := List.mem_map.mp isLoad
      refine .inl (List.mem_map.mpr ⟨_, mem, ?_⟩)
      rw [sizeOf_eq loadKeys mem]
    · obtain ⟨⟨_, size⟩, mem, rfl⟩ := List.mem_map.mp (isKey.resolve_left isLoad)
      refine .inr (List.mem_map.mpr ⟨_, List.mem_filter.mpr ⟨mem, decide_eq_true isLoad⟩, ?_⟩)
      rw [sizeOf_eq storeKeys mem, sizeOf_eq_zero isLoad]

end Merge

namespace CFDFC

variable {Node Lsq : Type} [DecidableEq Node] [Fintype Node] [DecidableEq Lsq]
  (cfdfc : CFDFC Node Lsq)

def lsqOp (name : Node) : Option Lsq := (cfdfc.graph.nodes name).op.bind Operation.lsqOp

def getAllocTimes (_ : Nat) (name : Node) : Nat := cfdfc.earliestStartTime name + 1

def loads : Accesses Node (Option Lsq) where
  ops := cfdfc.graph.lsqOps .load
  nodup := cfdfc.graph.nodup.filter _
  lsqOp := cfdfc.lsqOp
  allocTimes := cfdfc.getAllocTimes
  deallocTimes := cfdfc.loadDeallocTimes
  alloc_pos _ name := Nat.succ_pos (cfdfc.earliestStartTime name)
  ordered := cfdfc.loadsOrdered

def stores : Accesses Node (Option Lsq) where
  ops := cfdfc.graph.lsqOps .store
  nodup := cfdfc.graph.nodup.filter _
  lsqOp := cfdfc.lsqOp
  allocTimes := cfdfc.getAllocTimes
  deallocTimes := cfdfc.storeDeallocTimes
  alloc_pos _ name := Nat.succ_pos (cfdfc.earliestStartTime name)
  ordered := cfdfc.storesOrdered

/-- The sizes for the loads and the stores of each LSQ, if there are accesses to one. -/
def sizeLSQsForCFDFC (fuel initialII : Nat) (collisions : String) :
    Option (Option (List (Option Lsq × Nat × Nat))) :=
  if cfdfc.loads.ops = [] ∧ cfdfc.stores.ops = [] then some none
  else do
    let listOfII := listOfIIs collisions initialII cfdfc.graph.getWorstCaseII
    let loadSizes ← cfdfc.loads.calcQueueSize fuel listOfII
    let storeSizes ← cfdfc.stores.calcQueueSize fuel listOfII
    some (some (mergeSizes loadSizes storeSizes))

/-- Each LSQ with an access gets the most entries that its loads, and its stores, ever need. -/
def Right (listOfII : List Nat) : Option (List (Option Lsq × Nat × Nat)) → Prop
  | none => cfdfc.loads.ops = [] ∧ cfdfc.stores.ops = []
  | some sizes =>
      (∀ lsq, lsq ∈ sizes.map Prod.fst ↔
        ∃ op ∈ cfdfc.loads.ops ++ cfdfc.stores.ops, cfdfc.lsqOp op = lsq) ∧
      ∀ entry ∈ sizes,
        IsGreatest (Set.range (cfdfc.loads.schedule listOfII entry.1).occupancy) entry.2.1 ∧
          IsGreatest (Set.range (cfdfc.stores.schedule listOfII entry.1).occupancy) entry.2.2

/-- The sizing ends, and its sizes are right for the unbounded schedule. -/
def SizedRight (initialII : Nat) (collisions : String) : Prop :=
  ∃ worstCaseII, IsGreatest cfdfc.graph.collisions worstCaseII ∧
    ∃ fuel result, cfdfc.sizeLSQsForCFDFC fuel initialII collisions = some result ∧
      cfdfc.Right (listOfIIs collisions initialII worstCaseII) result

variable {cfdfc} {listOfII : List Nat}

omit [DecidableEq Node] [Fintype Node] in
theorem right_mergeSizes {loadSizes storeSizes : List (Option Lsq × Nat)}
    (loadKeys : loadSizes.map Prod.fst = (cfdfc.loads.ops.map cfdfc.lsqOp).dedup)
    (storeKeys : storeSizes.map Prod.fst = (cfdfc.stores.ops.map cfdfc.lsqOp).dedup) :
    cfdfc.Right listOfII (some (mergeSizes loadSizes storeSizes)) ↔
      cfdfc.loads.RightSizes listOfII loadSizes ∧ cfdfc.stores.RightSizes listOfII storeSizes := by
  have mem_merge := @mem_mergeSizes _ _ loadSizes storeSizes
    (loadKeys ▸ List.nodup_dedup _) (storeKeys ▸ List.nodup_dedup _)
  constructor
  · rintro ⟨-, right⟩
    refine ⟨⟨loadKeys, fun entry mem => ?_⟩, ⟨storeKeys, fun entry mem => ?_⟩⟩
    · have merged := (right _ (mem_merge.mpr
        ⟨.inl (List.mem_map_of_mem mem), rfl⟩)).1
      rwa [Accesses.sizeOf_eq (loadKeys ▸ List.nodup_dedup _) mem] at merged
    · have merged := (right _ (mem_merge.mpr
        ⟨.inr (List.mem_map_of_mem mem), rfl⟩)).2
      rwa [Accesses.sizeOf_eq (storeKeys ▸ List.nodup_dedup _) mem] at merged
  · rintro ⟨loadsRight, storesRight⟩
    refine ⟨fun lsq => ?_, fun entry mem => ?_⟩
    · have isKey : lsq ∈ (mergeSizes loadSizes storeSizes).map Prod.fst ↔
          lsq ∈ loadSizes.map Prod.fst ∨ lsq ∈ storeSizes.map Prod.fst := by
        constructor
        · intro mem
          obtain ⟨⟨_, sizes⟩, isEntry, rfl⟩ := List.mem_map.mp mem
          exact (mem_merge.mp isEntry).1
        · exact fun mem => List.mem_map.mpr ⟨_, mem_merge.mpr ⟨mem, rfl⟩, rfl⟩
      rw [isKey, loadKeys, storeKeys]
      simp only [List.mem_dedup, List.mem_map, List.mem_append, or_and_right, exists_or]
    · obtain ⟨lsq, sizes⟩ := entry
      rw [(mem_merge.mp mem).2]
      exact ⟨(Accesses.rightSizes_iff loadKeys).mp loadsRight lsq,
        (Accesses.rightSizes_iff storeKeys).mp storesRight lsq⟩

/-- With accesses, the sizing is right if both windows can be counted and include the busiest
cycle. -/
theorem sizedRight_iff_sized {initialII : Nat} {collisions : String}
    (used : ¬(cfdfc.loads.ops = [] ∧ cfdfc.stores.ops = [])) :
    cfdfc.SizedRight initialII collisions ↔
      ∃ worstCaseII, IsGreatest cfdfc.graph.collisions worstCaseII ∧
        cfdfc.loads.Sized (listOfIIs collisions initialII worstCaseII) ∧
          cfdfc.stores.Sized (listOfIIs collisions initialII worstCaseII) := by
  refine exists_congr fun worstCaseII => and_congr_right fun isWorst => ?_
  have same := isWorst.unique (CFDFCGraph.isGreatest_getWorstCaseII cfdfc.graph)
  simp only [sizeLSQsForCFDFC, if_neg used, ← same]
  constructor
  · rintro ⟨fuel, result, isResult, right⟩
    obtain ⟨loadSizes, isLoads, isResult⟩ := Option.bind_eq_some_iff.mp isResult
    obtain ⟨storeSizes, isStores, isResult⟩ := Option.bind_eq_some_iff.mp isResult
    cases isResult
    obtain ⟨loadsRight, storesRight⟩ := (right_mergeSizes
      (Accesses.keys_of_calcQueueSize isLoads) (Accesses.keys_of_calcQueueSize isStores)).mp right
    exact ⟨Accesses.calcQueueSize_iff.mp ⟨fuel, loadSizes, isLoads, loadsRight⟩,
      Accesses.calcQueueSize_iff.mp ⟨fuel, storeSizes, isStores, storesRight⟩⟩
  · rintro ⟨loadsSized, storesSized⟩
    obtain ⟨fuel, loadSizes, isLoads, loadsRight⟩ := Accesses.calcQueueSize_iff.mpr loadsSized
    obtain ⟨extra, storeSizes, isStores, storesRight⟩ := Accesses.calcQueueSize_iff.mpr storesSized
    have loadsToo := Accesses.calcQueueSize_mono isLoads extra
    have storesToo := Accesses.calcQueueSize_mono isStores fuel
    rw [Nat.add_comm] at storesToo
    refine ⟨fuel + extra, _, Option.bind_eq_some_iff.mpr ⟨loadSizes, loadsToo,
      Option.bind_eq_some_iff.mpr ⟨storeSizes, storesToo, rfl⟩⟩, ?_⟩
    exact (right_mergeSizes (Accesses.keys_of_calcQueueSize isLoads)
      (Accesses.keys_of_calcQueueSize isStores)).mpr ⟨loadsRight, storesRight⟩

end CFDFC

/-! ### When the sizes are right -/

/-- The times are in range. If the initial interval and the worst-case interval alternate, a cycle
behind the window, before the second iteration ends, has no more entries of the first three
iterations than some cycle in the window. -/
def Accesses.Adequate {Op Lsq : Type} [DecidableEq Lsq] (accesses : Accesses Op Lsq)
    (collisions : String) (initialII worstCaseII : Nat) : Prop :=
  accesses.InRange (listOfIIs collisions initialII worstCaseII) ∧
    (collisions = "half" → ∀ op ∈ accesses.ops, ∀ cycle,
      accesses.latestEnd [initialII, worstCaseII] * 2 ≤ cycle →
        cycle < initialII + accesses.latestEnd [initialII, worstCaseII] →
          ∃ earlier < accesses.latestEnd [initialII, worstCaseII] * 2,
            (accesses.schedule [initialII, worstCaseII] (accesses.lsqOp op)).countIn cycle 3 ≤
              (accesses.schedule [initialII, worstCaseII] (accesses.lsqOp op)).countIn earlier 3)

section Modes

variable {collisions : String} {initialII worstCaseII : Nat}

theorem listOfIIs_ne_nil : listOfIIs collisions initialII worstCaseII ≠ [] := by
  rw [listOfIIs]
  split
  · exact List.cons_ne_nil _ _
  · split <;> exact List.cons_ne_nil _ _

/-- The loop makes progress, except at a worst-case interval of zero alone. -/
theorem sum_listOfIIs_pos_iff (initial : 1 ≤ initialII) :
    0 < (listOfIIs collisions initialII worstCaseII).sum ↔
      (collisions = "full" → 0 < worstCaseII) := by
  rw [listOfIIs]
  split
  · rename_i isFull
    simp only [isFull, List.sum_singleton, true_implies]
  · rename_i notFull
    refine iff_of_true ?_ fun isFull => absurd isFull notFull
    split <;> simp <;> omega

theorem adequate_iff {Op Lsq : Type} [DecidableEq Lsq] {accesses : Accesses Op Lsq} :
    accesses.Adequate collisions initialII worstCaseII ↔
      accesses.InRange (listOfIIs collisions initialII worstCaseII) ∧
        accesses.Covers (listOfIIs collisions initialII worstCaseII) := by
  refine and_congr_right fun _ => ?_
  by_cases isHalf : collisions = "half"
  · subst isHalf
    exact (forall_prop_of_true rfl).trans Accesses.covers_pair_iff.symm
  · refine iff_of_true (fun isHalf' => absurd isHalf' isHalf) ?_
    rw [listOfIIs, if_neg isHalf]
    split <;> exact Accesses.covers_singleton _

end Modes

section Main

variable {Node Lsq : Type} [DecidableEq Node] [Fintype Node] [DecidableEq Lsq]

/-- The sizing ends with the right sizes if and only if there is nothing to size, or the worst case
is not zero where it is the only interval, and the window is adequate. -/
theorem sizeLSQsForCFDFC_iff (cfdfc : CFDFC Node Lsq) (collisions : String) {initialII : Nat}
    (initial : 1 ≤ initialII) :
    cfdfc.SizedRight initialII collisions ↔
      cfdfc.loads.ops = [] ∧ cfdfc.stores.ops = [] ∨
        ∃ worstCaseII, IsGreatest cfdfc.graph.collisions worstCaseII ∧
          (collisions = "full" → 0 < worstCaseII) ∧
            cfdfc.loads.Adequate collisions initialII worstCaseII ∧
              cfdfc.stores.Adequate collisions initialII worstCaseII := by
  by_cases unused : cfdfc.loads.ops = [] ∧ cfdfc.stores.ops = []
  · refine iff_of_true ⟨_, CFDFCGraph.isGreatest_getWorstCaseII cfdfc.graph, 0, none, ?_, unused⟩
      (.inl unused)
    rw [CFDFC.sizeLSQsForCFDFC, if_pos unused]
  · rw [CFDFC.sizedRight_iff_sized unused, or_iff_right unused]
    refine exists_congr fun worstCaseII => and_congr_right fun _ => ?_
    rw [Accesses.sized_iff listOfIIs_ne_nil, Accesses.sized_iff listOfIIs_ne_nil,
      sum_listOfIIs_pos_iff initial, adequate_iff, adequate_iff]
    have used : cfdfc.loads.ops ≠ [] ∨ cfdfc.stores.ops ≠ [] := not_and_or.mp unused
    tauto

/-- A loop with one load of an LSQ, whose stores are elsewhere. -/
def oneLoad : CFDFC Unit Unit where
  graph :=
    { names := [()]
      nodup := List.nodup_singleton ()
      complete := fun _ => List.mem_singleton_self ()
      nodes := fun _ => ⟨1, some ⟨.load, some (), true⟩, [], [], []⟩ }
  earliestStartTime _ := 0
  loadDeallocTimes _ _ := 3
  storeDeallocTimes _ _ := 3
  loadsOrdered _ _ _ := by decide
  storesOrdered _ _ _ := by decide

/-- At the initial interval, the load is sized. -/
theorem sizeLSQsForCFDFC_oneLoad : oneLoad.SizedRight 2 "none" := by
  refine (sizeLSQsForCFDFC_iff oneLoad "none" (by decide)).mpr (.inr
    ⟨_, CFDFCGraph.isGreatest_getWorstCaseII oneLoad.graph, by decide, ?_, ?_⟩)
  · refine ⟨⟨by decide, fun op _ iter inTime => ?_⟩, by decide⟩
    have bound : startOf [2] iter < 6 := inTime
    have next : startOf [2] (iter + 1) = startOf [2] iter + 2 := by
      rw [startOf, iiOf, List.length_singleton, Nat.mod_one]
      rfl
    refine ⟨fun op _ => ?_, fun op _ => ?_, ?_⟩
    · exact Nat.lt_trans (Nat.add_lt_add_left bound 1) (by decide)
    · exact Nat.lt_trans (Nat.add_lt_add_left bound 3) (by decide)
    · exact next ▸ Nat.lt_trans (Nat.add_lt_add_right bound 2) (by decide)
  · exact ⟨⟨by decide, fun op mem => nomatch mem⟩, by decide⟩

/-- If all accesses collide, it is not: the worst-case interval is zero, and the loop never ends. -/
theorem not_sizedRight_oneLoad : ¬∀ collisions initialII, 1 ≤ initialII →
    oneLoad.SizedRight initialII collisions := by
  intro always
  have unused : ¬(oneLoad.loads.ops = [] ∧ oneLoad.stores.ops = []) :=
    fun none => nomatch none.1
  obtain ⟨worstCaseII, isWorst, loadsSized, -⟩ :=
    (CFDFC.sizedRight_iff_sized unused).mp (always "full" 1 (Nat.le_refl 1))
  have isZero : worstCaseII = 0 := by
    rcases isWorst.1 with isZero | ⟨load, store, path, -, isStore, -⟩
    · exact isZero
    · cases isStore
  have progresses := ((Accesses.sized_iff listOfIIs_ne_nil).mp loadsSized).1
    (List.cons_ne_nil () [])
  rw [isZero] at progresses
  exact Nat.lt_irrefl 0 progresses

end Main

end Dynamatic.LsqSizing
