import Dynamatic.Schedules.Occupancy
import Mathlib.Algebra.Order.Ring.Int
import Mathlib.Data.Finset.Max
import Mathlib.Tactic.Ring

/-!
# The sizes of the queues of an LSQ

`calcQueueSize` starts iteration after iteration, at the intervals of a list that it takes in
rotation, and counts the entries that are allocated and deallocated in each cycle up to twice the
latest deallocation. The running sum is the number of entries in use.
-/

namespace Dynamatic.LsqSizing

open Dynamatic.Schedules

/-- The value in an `int`, if it fits. -/
def int? (value : Nat) : Option Nat := if value < 2 ^ 31 then some value else none

/-- `listOfII[iter % listOfII.size()]`. -/
def iiOf (listOfII : List Nat) (iter : Nat) : Nat := listOfII.getD (iter % listOfII.length) 0

/-- The start of an iteration when the intervals are taken in rotation. -/
def startOf (listOfII : List Nat) : Nat → Nat
  | 0 => 0
  | iter + 1 => startOf listOfII iter + iiOf listOfII iter

/-- One change to the number of entries for each time. -/
def addTimes (maxEndTime : Nat) (change : Int) (startOffset : Nat) :
    List Nat → (Nat → Int) → Option (Nat → Int)
  | [], cycles => some cycles
  | time :: times, cycles =>
      match int? (time + startOffset) with
      | none => none
      | some t =>
          addTimes maxEndTime change startOffset times
            (if t < maxEndTime then Function.update cycles t (cycles t + change) else cycles)

def slotsPerCycle (allocPerCycle : Nat → Int) : Nat → Int
  | 0 => allocPerCycle 0
  | cycle + 1 => slotsPerCycle allocPerCycle cycle + allocPerCycle (cycle + 1)

/-- The loads or the stores that use LSQs, with the times of an iteration at each interval. -/
structure Accesses (Op Lsq : Type) where
  ops : List Op
  nodup : ops.Nodup
  lsqOp : Op → Lsq
  allocTimes : Nat → Op → Nat
  deallocTimes : Nat → Op → Nat
  alloc_pos : ∀ ii op, 0 < allocTimes ii op
  ordered : ∀ ii, ∀ op ∈ ops, allocTimes ii op ≤ deallocTimes ii op

namespace Accesses

variable {Op Lsq : Type} (accesses : Accesses Op Lsq)

/-- The latest deallocation, at any of the intervals. -/
def latestEnd (listOfII : List Nat) : Nat :=
  (listOfII.flatMap fun ii => accesses.ops.map (accesses.deallocTimes ii)).foldl max 0

/-- The loop over the iterations. -/
def fillCycles (ops : List Op) (listOfII : List Nat) (maxEndTime : Nat) :
    Nat → Nat → Nat → (Nat → Int) → Option (Nat → Int)
  | 0, _, _, _ => none
  | fuel + 1, startOffset, iter, allocPerCycle =>
      if startOffset < maxEndTime then do
        let ii := iiOf listOfII iter
        let allocPerCycle ←
          addTimes maxEndTime 1 startOffset (ops.map (accesses.allocTimes ii)) allocPerCycle
        let allocPerCycle ←
          addTimes maxEndTime (-1) startOffset (ops.map (accesses.deallocTimes ii)) allocPerCycle
        let startOffset ← int? (startOffset + ii)
        fillCycles ops listOfII maxEndTime fuel startOffset (iter + 1) allocPerCycle
      else some allocPerCycle

/-- The size of the queue that the accesses use; it is undefined if there are no cycles. -/
def maxSlots (fuel : Nat) (ops : List Op) (listOfII : List Nat) (maxEndTime : Nat) :
    Option Nat := do
  let allocPerCycle ← accesses.fillCycles ops listOfII maxEndTime fuel 0 0 fun _ => 0
  let maxSlots ← ((List.range maxEndTime).map (slotsPerCycle allocPerCycle)).max?
  some maxSlots.toNat

variable [DecidableEq Lsq]

def opsOf (lsq : Lsq) : List Op := accesses.ops.filter fun op => accesses.lsqOp op = lsq

def calcQueueSize (fuel : Nat) (listOfII : List Nat) : Option (List (Lsq × Nat)) := do
  let maxEndTime ← int? (accesses.latestEnd listOfII * 2)
  (accesses.ops.map accesses.lsqOp).dedup.mapM fun lsq => do
    let size ← accesses.maxSlots fuel (accesses.opsOf lsq) listOfII maxEndTime
    some (lsq, size)

/-- The unbounded schedule of the entries of an LSQ. -/
def schedule (listOfII : List Nat) (lsq : Lsq) : Schedule Op where
  jobs := accesses.opsOf lsq
  nodup := accesses.nodup.filter _
  start := startOf listOfII
  arrive iter := accesses.allocTimes (iiOf listOfII iter)
  leave iter := accesses.deallocTimes (iiOf listOfII iter)

end Accesses

/-! ### Counting -/

theorem int?_eq_some {value result : Nat} :
    int? value = some result ↔ value < 2 ^ 31 ∧ result = value := by
  rw [int?]
  split
  · rename_i fits
    rw [Option.some.injEq]
    exact ⟨fun same => ⟨fits, same.symm⟩, fun same => same.2.symm⟩
  · rename_i overflows
    exact ⟨nofun, fun fits => absurd fits.1 overflows⟩

theorem countP_le_succ {Job : Type} (jobs : List Job) (time : Job → Nat) (cycle : Nat) :
    jobs.countP (fun job => time job ≤ cycle + 1) =
      jobs.countP (fun job => time job ≤ cycle) + jobs.countP fun job => time job = cycle + 1 := by
  induction jobs with
  | nil => rfl
  | cons job jobs inductionHypothesis =>
      simp only [List.countP_cons, inductionHypothesis, decide_eq_true_eq]
      split <;> split <;> split <;> omega

/-- What has been allocated is in use or deallocated. -/
theorem countP_le_sub {Job : Type} (jobs : List Job) {arrive leave : Job → Nat}
    (ordered : ∀ job ∈ jobs, arrive job ≤ leave job) (cycle : Nat) :
    jobs.countP (fun job => arrive job ≤ cycle) =
      jobs.countP (fun job => arrive job ≤ cycle ∧ cycle < leave job) +
        jobs.countP fun job => leave job ≤ cycle := by
  induction jobs with
  | nil => rfl
  | cons job jobs inductionHypothesis =>
      have here := ordered job List.mem_cons_self
      simp only [List.countP_cons, decide_eq_true_eq,
        inductionHypothesis fun job mem => ordered job (List.mem_cons_of_mem _ mem)]
      split <;> split <;> split <;> omega

/-- The first of the times changes one cycle. -/
theorem addTimes_cons_eq {maxEndTime startOffset time : Nat} (change : Int) (times : List Nat)
    (cycles : Nat → Int) (cycle : Nat) :
    ((if time + startOffset < maxEndTime then
        Function.update cycles (time + startOffset) (cycles (time + startOffset) + change)
      else cycles) cycle +
      if cycle < maxEndTime then change * times.countP fun time => time + startOffset = cycle
      else 0) =
    cycles cycle +
      if cycle < maxEndTime then
        change * ((time :: times).countP fun time => time + startOffset = cycle : Nat)
      else 0 := by
  rw [List.countP_cons]
  by_cases here : time + startOffset = cycle
  · subst here
    by_cases bound : time + startOffset < maxEndTime
    · simp only [if_pos bound, Function.update_self, decide_true, if_true]
      push_cast
      ring
    · simp only [if_neg bound]
  · have untouched : (if time + startOffset < maxEndTime then
        Function.update cycles (time + startOffset) (cycles (time + startOffset) + change)
        else cycles) cycle = cycles cycle := by
      split
      · exact Function.update_of_ne (Ne.symm here) _ _
      · rfl
    rw [untouched]
    simp [here]

theorem addTimes_eq_some {maxEndTime startOffset : Nat} {change : Int} {times : List Nat}
    {cycles result : Nat → Int} :
    addTimes maxEndTime change startOffset times cycles = some result ↔
      (∀ time ∈ times, time + startOffset < 2 ^ 31) ∧
        result = fun cycle => cycles cycle +
          if cycle < maxEndTime then
            change * times.countP fun time => time + startOffset = cycle
          else 0 := by
  induction times generalizing cycles with
  | nil => simp [addTimes, eq_comm]
  | cons time times inductionHypothesis =>
      rw [addTimes, List.forall_mem_cons, int?]
      by_cases fits : time + startOffset < 2 ^ 31
      · rw [if_pos fits]
        simp only [inductionHypothesis, addTimes_cons_eq, fits, true_and]
      · rw [if_neg fits]
        exact ⟨nofun, fun both => absurd both.1.1 fits⟩

/-- Times that fit change the cycles that they are in. -/
theorem exists_addTimes {Op : Type} {ops : List Op} {times : Op → Nat} {startOffset : Nat}
    (maxEndTime : Nat) (change : Int) (cycles : Nat → Int)
    (fits : ∀ op ∈ ops, times op + startOffset < 2 ^ 31) :
    ∃ result, addTimes maxEndTime change startOffset (ops.map times) cycles = some result ∧
      ∀ cycle < maxEndTime, result cycle =
        cycles cycle + change * ops.countP fun op => times op + startOffset = cycle := by
  refine ⟨_, addTimes_eq_some.mpr ⟨List.forall_mem_map.mpr fits, rfl⟩, fun cycle bound => ?_⟩
  rw [if_pos bound, List.countP_map]
  rfl

/-! ### The loop -/

namespace Accesses

section Loop

variable {Op Lsq : Type} {accesses : Accesses Op Lsq} {ops : List Op} {listOfII : List Nat}
  {maxEndTime iter : Nat}

/-- The change to the number of entries in a cycle by the first iterations. -/
def change (accesses : Accesses Op Lsq) (ops : List Op) (listOfII : List Nat) (cycle : Nat) :
    Nat → Int
  | 0 => 0
  | iter + 1 => change accesses ops listOfII cycle iter +
      ops.countP (fun op => startOf listOfII iter + accesses.allocTimes (iiOf listOfII iter) op =
        cycle) -
      ops.countP fun op => startOf listOfII iter + accesses.deallocTimes (iiOf listOfII iter) op =
        cycle

/-- The times of an iteration, and the start of the next, are values of an `int`. -/
structure Fits (accesses : Accesses Op Lsq) (ops : List Op) (listOfII : List Nat) (iter : Nat) :
    Prop where
  alloc : ∀ op ∈ ops,
    accesses.allocTimes (iiOf listOfII iter) op + startOf listOfII iter < 2 ^ 31
  dealloc : ∀ op ∈ ops,
    accesses.deallocTimes (iiOf listOfII iter) op + startOf listOfII iter < 2 ^ 31
  next : startOf listOfII (iter + 1) < 2 ^ 31

/-- The cycles have been filled by the first iterations. -/
def Filled (accesses : Accesses Op Lsq) (ops : List Op) (listOfII : List Nat)
    (maxEndTime iter : Nat) (cycles : Nat → Int) : Prop :=
  ∀ cycle < maxEndTime, cycles cycle = accesses.change ops listOfII cycle iter

/-- What an iteration does. -/
theorem fillCycles_succ {cycles : Nat → Int} (goesOn : startOf listOfII iter < maxEndTime)
    (fits : accesses.Fits ops listOfII iter)
    (filled : accesses.Filled ops listOfII maxEndTime iter cycles) (fuel : Nat) :
    ∃ next, accesses.Filled ops listOfII maxEndTime (iter + 1) next ∧
      accesses.fillCycles ops listOfII maxEndTime (fuel + 1) (startOf listOfII iter) iter cycles =
        accesses.fillCycles ops listOfII maxEndTime fuel (startOf listOfII (iter + 1)) (iter + 1)
          next := by
  obtain ⟨allocated, isAllocated, allocs⟩ := exists_addTimes maxEndTime 1 cycles fits.alloc
  obtain ⟨next, isDeallocated, deallocs⟩ := exists_addTimes maxEndTime (-1) allocated fits.dealloc
  refine ⟨next, fun cycle bound => ?_, ?_⟩
  · rw [deallocs cycle bound, allocs cycle bound, filled cycle bound, change]
    simp only [Nat.add_comm (startOf listOfII iter)]
    omega
  · have isNext : int? (startOf listOfII iter + iiOf listOfII iter) =
        some (startOf listOfII (iter + 1)) := int?_eq_some.mpr ⟨fits.next, rfl⟩
    rw [fillCycles, if_pos goesOn]
    simp only [isAllocated, isDeallocated, isNext, Option.bind_eq_bind, Option.bind_some]

theorem fits_of_fillCycles {cycles result : Nat → Int} {fuel : Nat}
    (goesOn : startOf listOfII iter < maxEndTime)
    (fills : accesses.fillCycles ops listOfII maxEndTime (fuel + 1) (startOf listOfII iter) iter
      cycles = some result) : accesses.Fits ops listOfII iter := by
  rw [fillCycles, if_pos goesOn] at fills
  obtain ⟨allocated, isAllocated, fills⟩ := Option.bind_eq_some_iff.mp fills
  obtain ⟨deallocated, isDeallocated, fills⟩ := Option.bind_eq_some_iff.mp fills
  obtain ⟨startOffset, isNext, -⟩ := Option.bind_eq_some_iff.mp fills
  exact ⟨List.forall_mem_map.mp (addTimes_eq_some.mp isAllocated).1,
    List.forall_mem_map.mp (addTimes_eq_some.mp isDeallocated).1, (int?_eq_some.mp isNext).1⟩

/-- The loop ends behind iterations that start in time and fit. -/
theorem fillCycles_ends (rounds : Nat) {cycles : Nat → Int}
    (filled : accesses.Filled ops listOfII maxEndTime iter cycles)
    (goesOn : ∀ round, iter ≤ round → round < iter + rounds →
      startOf listOfII round < maxEndTime ∧ accesses.Fits ops listOfII round)
    (ends : maxEndTime ≤ startOf listOfII (iter + rounds)) :
    ∃ result, accesses.fillCycles ops listOfII maxEndTime (rounds + 1) (startOf listOfII iter) iter
      cycles = some result := by
  induction rounds generalizing iter cycles with
  | zero =>
      rw [Nat.add_zero] at ends
      exact ⟨cycles, by rw [fillCycles, if_neg (Nat.not_lt.mpr ends)]⟩
  | succ rounds inductionHypothesis =>
      obtain ⟨inTime, fits⟩ := goesOn iter (Nat.le_refl iter) (by omega)
      obtain ⟨next, nextFilled, same⟩ := fillCycles_succ inTime fits filled (rounds + 1)
      rw [same]
      refine inductionHypothesis nextFilled (fun round after before => ?_) ?_
      · exact goesOn round (by omega) (by omega)
      · rwa [Nat.add_right_comm, Nat.add_assoc]

/-- Where the loop ends, the iterations that start in time fit and have filled the cycles. -/
theorem fillCycles_some {fuel : Nat} {cycles result : Nat → Int}
    (filled : accesses.Filled ops listOfII maxEndTime iter cycles)
    (fills : accesses.fillCycles ops listOfII maxEndTime fuel (startOf listOfII iter) iter cycles =
      some result) :
    ∃ last, maxEndTime ≤ startOf listOfII last ∧
      accesses.Filled ops listOfII maxEndTime last result ∧
      ∀ round, iter ≤ round → round < last →
        startOf listOfII round < maxEndTime ∧ accesses.Fits ops listOfII round := by
  induction fuel generalizing iter cycles with
  | zero => cases fills
  | succ fuel inductionHypothesis =>
      by_cases goesOn : startOf listOfII iter < maxEndTime
      · have fits := fits_of_fillCycles goesOn fills
        obtain ⟨next, nextFilled, same⟩ := fillCycles_succ goesOn fits filled fuel
        obtain ⟨last, ends, lastFilled, before⟩ := inductionHypothesis nextFilled (same ▸ fills)
        refine ⟨last, ends, lastFilled, fun round after less => ?_⟩
        rcases Nat.eq_or_lt_of_le after with rfl | later
        · exact ⟨goesOn, fits⟩
        · exact before round later less
      · rw [fillCycles, if_neg goesOn] at fills
        cases fills
        exact ⟨iter, Nat.le_of_not_lt goesOn, filled, fun round after less => by omega⟩

theorem fillCycles_mono {fuel : Nat} {cycles result : Nat → Int} {startOffset : Nat}
    (fills : accesses.fillCycles ops listOfII maxEndTime fuel startOffset iter cycles =
      some result) (extra : Nat) :
    accesses.fillCycles ops listOfII maxEndTime (fuel + extra) startOffset iter cycles =
      some result := by
  induction fuel generalizing startOffset iter cycles with
  | zero => cases fills
  | succ fuel inductionHypothesis =>
      rw [Nat.add_right_comm]
      rw [fillCycles] at fills ⊢
      split at fills
      · rename_i goesOn
        obtain ⟨allocated, isAllocated, fills⟩ := Option.bind_eq_some_iff.mp fills
        obtain ⟨deallocated, isDeallocated, fills⟩ := Option.bind_eq_some_iff.mp fills
        obtain ⟨next, isNext, fills⟩ := Option.bind_eq_some_iff.mp fills
        rw [if_pos goesOn]
        simp only [isAllocated, isDeallocated, isNext, Option.bind_eq_bind, Option.bind_some]
        exact inductionHypothesis fills
      · rename_i ends
        rwa [if_neg ends]

end Loop

/-! ### The running sum -/

section Running

variable {Op Lsq : Type} [DecidableEq Lsq] {accesses : Accesses Op Lsq} {listOfII : List Nat}
  {lsq : Lsq} {maxEndTime size : Nat}

theorem startOf_mono : Monotone (startOf listOfII) :=
  monotone_nat_of_le_succ fun _ => Nat.le_add_right _ _

theorem countIn_schedule (cycle rounds : Nat) :
    (accesses.schedule listOfII lsq).countIn cycle (rounds + 1) =
      (accesses.schedule listOfII lsq).countIn cycle rounds +
        (accesses.opsOf lsq).countP fun op =>
          startOf listOfII rounds + accesses.allocTimes (iiOf listOfII rounds) op ≤ cycle ∧
            cycle < startOf listOfII rounds + accesses.deallocTimes (iiOf listOfII rounds) op :=
  rfl

theorem alloc_le_dealloc (round : Nat) {op : Op} (mem : op ∈ accesses.opsOf lsq) :
    startOf listOfII round + accesses.allocTimes (iiOf listOfII round) op ≤
      startOf listOfII round + accesses.deallocTimes (iiOf listOfII round) op :=
  Nat.add_le_add_left (accesses.ordered _ op (List.mem_filter.mp mem).1) _

/-- The number of entries changes from cycle to cycle as the loop has counted. -/
theorem countIn_succ (cycle rounds : Nat) :
    ((accesses.schedule listOfII lsq).countIn (cycle + 1) rounds : Int) =
      (accesses.schedule listOfII lsq).countIn cycle rounds +
        accesses.change (accesses.opsOf lsq) listOfII (cycle + 1) rounds := by
  induction rounds with
  | zero => rfl
  | succ rounds inductionHypothesis =>
      have ordered := fun op mem => @alloc_le_dealloc _ _ _ accesses listOfII lsq rounds op mem
      have before := countP_le_sub _ ordered cycle
      have behind := countP_le_sub _ ordered (cycle + 1)
      rw [countP_le_succ, countP_le_succ] at behind
      rw [countIn_schedule, countIn_schedule, change]
      omega

theorem countIn_zero (rounds : Nat) :
    ((accesses.schedule listOfII lsq).countIn 0 rounds : Int) =
      accesses.change (accesses.opsOf lsq) listOfII 0 rounds := by
  induction rounds with
  | zero => rfl
  | succ rounds inductionHypothesis =>
      have ordered := fun op mem => @alloc_le_dealloc _ _ _ accesses listOfII lsq rounds op mem
      have behind := countP_le_sub _ ordered 0
      simp only [Nat.le_zero] at behind
      rw [countIn_schedule, change]
      simp only [Nat.le_zero]
      omega

/-- The running sum is the number of entries of the iterations that have been counted. -/
theorem slotsPerCycle_eq {rounds cycle : Nat} {cycles : Nat → Int}
    (filled : accesses.Filled (accesses.opsOf lsq) listOfII maxEndTime rounds cycles)
    (bound : cycle < maxEndTime) :
    slotsPerCycle cycles cycle = (accesses.schedule listOfII lsq).countIn cycle rounds := by
  induction cycle with
  | zero => rw [slotsPerCycle, filled 0 bound, countIn_zero]
  | succ cycle inductionHypothesis =>
      rw [slotsPerCycle, inductionHypothesis (Nat.lt_of_succ_lt bound), filled _ bound,
        countIn_succ]

theorem occupancy_eq {rounds cycle : Nat} (ends : cycle < startOf listOfII rounds) :
    (accesses.schedule listOfII lsq).occupancy cycle =
      (accesses.schedule listOfII lsq).countIn cycle rounds := by
  refine Schedule.occupancy_eq_countIn fun round later op mem => ?_
  have := @startOf_mono listOfII _ _ later
  exact Nat.lt_of_lt_of_le (Nat.lt_of_lt_of_le ends this) (Nat.le_add_right _ _)

/-- The loop ends, without an overflow. -/
def Ends (accesses : Accesses Op Lsq) (ops : List Op) (listOfII : List Nat) (maxEndTime : Nat) :
    Prop :=
  ∃ last, maxEndTime ≤ startOf listOfII last ∧
    ∀ round < last, startOf listOfII round < maxEndTime ∧ accesses.Fits ops listOfII round

/-- The size of a queue is the most entries that are in use in a cycle before the end. -/
theorem maxSlots_iff :
    (∃ fuel, accesses.maxSlots fuel (accesses.opsOf lsq) listOfII maxEndTime = some size) ↔
      accesses.Ends (accesses.opsOf lsq) listOfII maxEndTime ∧
        (∀ cycle < maxEndTime, (accesses.schedule listOfII lsq).occupancy cycle ≤ size) ∧
          ∃ cycle < maxEndTime, (accesses.schedule listOfII lsq).occupancy cycle = size := by
  have begins : accesses.Filled (accesses.opsOf lsq) listOfII maxEndTime 0 fun _ => 0 :=
    fun cycle bound => rfl
  have isPeak : ∀ {last cycles}, maxEndTime ≤ startOf listOfII last →
      accesses.Filled (accesses.opsOf lsq) listOfII maxEndTime last cycles →
      ((∃ slots, ((List.range maxEndTime).map (slotsPerCycle cycles)).max? = some slots ∧
          slots.toNat = size) ↔
        (∀ cycle < maxEndTime, (accesses.schedule listOfII lsq).occupancy cycle ≤ size) ∧
          ∃ cycle < maxEndTime, (accesses.schedule listOfII lsq).occupancy cycle = size) := by
    intro last cycles ends filled
    have same : ∀ cycle < maxEndTime, slotsPerCycle cycles cycle =
        (accesses.schedule listOfII lsq).countIn cycle last := fun cycle => slotsPerCycle_eq filled
    have counts : ∀ cycle < maxEndTime, (accesses.schedule listOfII lsq).occupancy cycle =
        (accesses.schedule listOfII lsq).countIn cycle last := fun cycle bound =>
      occupancy_eq (Nat.lt_of_lt_of_le bound ends)
    constructor
    · rintro ⟨slots, isMax, isSize⟩
      obtain ⟨mem, above⟩ := List.max?_eq_some_iff.mp isMax
      obtain ⟨cycle, cycleMem, isSlots⟩ := List.mem_map.mp mem
      have bound := List.mem_range.mp cycleMem
      rw [same cycle bound] at isSlots
      refine ⟨fun other otherBound => ?_, cycle, bound, ?_⟩
      · have le := above _ (List.mem_map_of_mem (List.mem_range.mpr otherBound))
        rw [same other otherBound] at le
        rw [counts other otherBound, Nat.cast_le]
        omega
      · rw [counts cycle bound, Nat.cast_inj]
        omega
    · rintro ⟨above, cycle, bound, isSize⟩
      rw [counts cycle bound, Nat.cast_inj] at isSize
      refine ⟨size, List.max?_eq_some_iff.mpr ⟨List.mem_map.mpr ⟨cycle, List.mem_range.mpr bound,
        ?_⟩, ?_⟩, Int.toNat_natCast size⟩
      · rw [same cycle bound, isSize]
      · refine List.forall_mem_map.mpr fun other otherMem => ?_
        have otherBound := List.mem_range.mp otherMem
        have le := above other otherBound
        rw [counts other otherBound, Nat.cast_le] at le
        rw [same other otherBound]
        exact Int.ofNat_le.mpr le
  constructor
  · rintro ⟨fuel, isSize⟩
    obtain ⟨cycles, fills, isSize⟩ := Option.bind_eq_some_iff.mp isSize
    obtain ⟨slots, isMax, isSize⟩ := Option.bind_eq_some_iff.mp isSize
    obtain ⟨last, ends, filled, before⟩ := @fillCycles_some _ _ _ _ _ _ 0 _ _ _ begins fills
    exact ⟨⟨last, ends, fun round less => before round (Nat.zero_le round) less⟩,
      (isPeak ends filled).mp ⟨slots, isMax, Option.some.inj isSize⟩⟩
  · rintro ⟨⟨last, ends, before⟩, peak⟩
    obtain ⟨cycles, fills⟩ := @fillCycles_ends _ _ _ _ _ _ 0 last _ begins
      (fun round _ less => before round (by omega)) (by rwa [Nat.zero_add])
    obtain ⟨last', ends', filled, -⟩ := @fillCycles_some _ _ _ _ _ _ 0 _ _ _ begins fills
    obtain ⟨slots, isMax, isSize⟩ := (isPeak ends' filled).mpr peak
    refine ⟨last + 1, ?_⟩
    rw [maxSlots]
    simp only [show startOf listOfII 0 = 0 from rfl] at fills
    simp only [fills, isMax, Option.bind_eq_bind, Option.bind_some, isSize]

omit [DecidableEq Lsq] in
theorem maxSlots_mono {fuel : Nat} {ops : List Op}
    (isSize : accesses.maxSlots fuel ops listOfII maxEndTime = some size) (extra : Nat) :
    accesses.maxSlots (fuel + extra) ops listOfII maxEndTime = some size := by
  obtain ⟨cycles, fills, rest⟩ := Option.bind_eq_some_iff.mp isSize
  exact Option.bind_eq_some_iff.mpr ⟨cycles, fillCycles_mono fills extra, rest⟩

end Running

/-! ### All queues -/

section Queues

variable {Op Lsq : Type} [DecidableEq Lsq] {accesses : Accesses Op Lsq} {listOfII : List Nat}

/-- Each LSQ that is used has the size of the most entries that are ever in use. -/
structure RightSizes (accesses : Accesses Op Lsq) (listOfII : List Nat) (sizes : List (Lsq × Nat)) :
    Prop where
  keys : sizes.map Prod.fst = (accesses.ops.map accesses.lsqOp).dedup
  greatest : ∀ entry ∈ sizes,
    IsGreatest (Set.range (accesses.schedule listOfII entry.1).occupancy) entry.2

/-- The cycles up to twice the latest deallocation can be counted and include the busiest. -/
structure Sized (accesses : Accesses Op Lsq) (listOfII : List Nat) : Prop where
  window : accesses.latestEnd listOfII * 2 < 2 ^ 31
  ends : ∀ op ∈ accesses.ops, accesses.Ends (accesses.opsOf (accesses.lsqOp op)) listOfII
    (accesses.latestEnd listOfII * 2)
  peak : ∀ op ∈ accesses.ops, ∀ cycle, ∃ earlier < accesses.latestEnd listOfII * 2,
    (accesses.schedule listOfII (accesses.lsqOp op)).occupancy cycle ≤
      (accesses.schedule listOfII (accesses.lsqOp op)).occupancy earlier

theorem mem_queues {lsq : Lsq} :
    lsq ∈ (accesses.ops.map accesses.lsqOp).dedup ↔
      ∃ op ∈ accesses.ops, accesses.lsqOp op = lsq := by
  rw [List.mem_dedup, List.mem_map]

omit [DecidableEq Lsq] in
/-- The pairs of some keys with their values. -/
theorem mapM_pair_eq_some {keys : List Lsq} {f : Lsq → Option Nat} {pairs : List (Lsq × Nat)} :
    (keys.mapM fun key => do
      let value ← f key
      some (key, value)) = some pairs ↔
      pairs.map Prod.fst = keys ∧ ∀ pair ∈ pairs, f pair.1 = some pair.2 := by
  induction keys generalizing pairs with
  | nil =>
      rw [List.mapM_nil, List.map_eq_nil_iff]
      constructor
      · intro same
        cases same
        exact ⟨rfl, nofun⟩
      · rintro ⟨rfl, -⟩
        rfl
  | cons key keys inductionHypothesis =>
      rw [List.mapM_cons]
      constructor
      · intro same
        obtain ⟨pair, isPair, same⟩ := Option.bind_eq_some_iff.mp same
        obtain ⟨value, isValue, isPair⟩ := Option.bind_eq_some_iff.mp isPair
        obtain ⟨rest, isRest, same⟩ := Option.bind_eq_some_iff.mp same
        obtain ⟨restKeys, restValues⟩ := inductionHypothesis.mp isRest
        cases isPair
        cases same
        exact ⟨by rw [List.map_cons, restKeys], List.forall_mem_cons.mpr ⟨isValue, restValues⟩⟩
      · rintro ⟨sameKeys, values⟩
        obtain ⟨⟨_, value⟩, rest, rfl, rfl, restKeys⟩ := List.map_eq_cons_iff.mp sameKeys
        obtain ⟨isValue, restValues⟩ := List.forall_mem_cons.mp values
        have isRest := inductionHypothesis.mpr ⟨restKeys, restValues⟩
        exact Option.bind_eq_some_iff.mpr ⟨_, Option.bind_eq_some_iff.mpr ⟨value, isValue, rfl⟩,
          Option.bind_eq_some_iff.mpr ⟨rest, isRest, rfl⟩⟩

/-- There is fuel for all of the queues. -/
theorem exists_fuel {maxEndTime : Nat} {lsqs : List Lsq} (each : ∀ lsq ∈ lsqs, ∃ fuel size,
    accesses.maxSlots fuel (accesses.opsOf lsq) listOfII maxEndTime = some size) :
    ∃ fuel, ∀ lsq ∈ lsqs, ∃ size,
      accesses.maxSlots fuel (accesses.opsOf lsq) listOfII maxEndTime = some size := by
  induction lsqs with
  | nil => exact ⟨0, nofun⟩
  | cons lsq lsqs inductionHypothesis =>
      obtain ⟨⟨fuel, size, isSize⟩, others⟩ := List.forall_mem_cons.mp each
      obtain ⟨extra, rest⟩ := inductionHypothesis others
      refine ⟨fuel + extra, List.forall_mem_cons.mpr ⟨⟨size, maxSlots_mono isSize extra⟩, ?_⟩⟩
      intro other mem
      obtain ⟨size, isSize⟩ := rest other mem
      exact ⟨size, Nat.add_comm extra fuel ▸ maxSlots_mono isSize fuel⟩

/-- In a window that has been filled, a cycle is the busiest. -/
theorem Sized.exists_maxSlots (sized : accesses.Sized listOfII) {op : Op}
    (mem : op ∈ accesses.ops) : ∃ fuel size,
    accesses.maxSlots fuel (accesses.opsOf (accesses.lsqOp op)) listOfII
      (accesses.latestEnd listOfII * 2) = some size := by
  obtain ⟨first, firstBound, -⟩ := sized.peak op mem 0
  obtain ⟨busiest, inWindow, above⟩ := Finset.exists_max_image
    (Finset.range (accesses.latestEnd listOfII * 2))
    (accesses.schedule listOfII (accesses.lsqOp op)).occupancy
    ⟨first, Finset.mem_range.mpr firstBound⟩
  have bound := Finset.mem_range.mp inWindow
  obtain ⟨last, ends, -⟩ := sized.ends op mem
  have counts := @occupancy_eq _ _ _ accesses listOfII (accesses.lsqOp op) last busiest
    (Nat.lt_of_lt_of_le bound ends)
  obtain ⟨fuel, isSize⟩ := maxSlots_iff.mpr ⟨sized.ends op mem, fun cycle inside =>
    (above cycle (Finset.mem_range.mpr inside)).trans counts.le, busiest, bound, counts⟩
  exact ⟨fuel, _, isSize⟩

/-- The sizes are right if the window can be counted and includes the busiest cycle. -/
theorem calcQueueSize_iff :
    (∃ fuel sizes, accesses.calcQueueSize fuel listOfII = some sizes ∧
      accesses.RightSizes listOfII sizes) ↔ accesses.Sized listOfII := by
  constructor
  · rintro ⟨fuel, sizes, isSizes, right⟩
    obtain ⟨maxEndTime, isEnd, isSizes⟩ := Option.bind_eq_some_iff.mp isSizes
    obtain ⟨fits, rfl⟩ := int?_eq_some.mp isEnd
    have values := (mapM_pair_eq_some.mp isSizes).2
    have entryOf : ∀ op ∈ accesses.ops, ∃ entry ∈ sizes, entry.1 = accesses.lsqOp op :=
      fun op mem => List.mem_map.mp (right.keys ▸ mem_queues.mpr ⟨op, mem, rfl⟩)
    refine ⟨fits, fun op mem => ?_, fun op mem cycle => ?_⟩
    · obtain ⟨entry, entryMem, same⟩ := entryOf op mem
      rw [← same]
      exact (maxSlots_iff.mp ⟨fuel, values entry entryMem⟩).1
    · obtain ⟨entry, entryMem, same⟩ := entryOf op mem
      obtain ⟨-, -, peak, bound, isPeak⟩ := maxSlots_iff.mp ⟨fuel, values entry entryMem⟩
      rw [← same]
      exact ⟨peak, bound, ((right.greatest entry entryMem).2 ⟨cycle, rfl⟩).trans isPeak.ge⟩
  · intro sized
    obtain ⟨fuel, each⟩ := @exists_fuel _ _ _ accesses listOfII (accesses.latestEnd listOfII * 2)
      (accesses.ops.map accesses.lsqOp).dedup fun lsq used => by
        obtain ⟨op, mem, rfl⟩ := mem_queues.mp used
        exact sized.exists_maxSlots mem
    choose! size isSize using each
    have keys : ((accesses.ops.map accesses.lsqOp).dedup.map fun lsq => (lsq, size lsq)).map
        Prod.fst = (accesses.ops.map accesses.lsqOp).dedup := by
      rw [List.map_map]
      exact List.map_id _
    refine ⟨fuel, _, Option.bind_eq_some_iff.mpr ⟨_, int?_eq_some.mpr ⟨sized.window, rfl⟩,
      mapM_pair_eq_some.mpr ⟨keys, List.forall_mem_map.mpr isSize⟩⟩,
      keys, List.forall_mem_map.mpr fun lsq used => ?_⟩
    obtain ⟨op, mem, rfl⟩ := mem_queues.mp used
    obtain ⟨-, above, busiest, -, isPeak⟩ := maxSlots_iff.mp ⟨fuel, isSize _ used⟩
    refine ⟨⟨busiest, isPeak⟩, Set.forall_mem_range.mpr fun cycle => ?_⟩
    obtain ⟨earlier, bound, le⟩ := sized.peak op mem cycle
    exact le.trans (above earlier bound)

end Queues

end Accesses

end Dynamatic.LsqSizing
