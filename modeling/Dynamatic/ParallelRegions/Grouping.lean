import Dynamatic.ParallelRegions.Chains

/-!
# Ranges of a chain

The main loop of `groupChain` closes ranges of units one after the other. The groups it
emits lie in the order of the chain and do not overlap; the regions of a group are runs of
units that share no dependence with each other.
-/

namespace Dynamatic.ParallelRegions

section Grouping

variable (dep : Nat → Nat → Bool)

/-- The ranges of a chain of units that become groups. -/
def closedRanges (n : Nat) : List (Nat × Nat) :=
  if n < 2 then []
  else (ranges dep n).filter fun range => 2 ≤ computeRegions dep range.1 range.2

variable {dep}

/-- What the main loop keeps: the closed ranges lie before the start of the open one. -/
structure Ordered (j : Nat) (state : Nat × List (Nat × Nat)) : Prop where
  started : state.1 < j
  proper : ∀ range ∈ state.2, range.1 ≤ range.2 ∧ range.2 < state.1
  apart : state.2.Pairwise fun range other => range.2 < other.1

/-- A range that ends behind all closed ones is closed as well. -/
theorem Ordered.close {j last : Nat} {rangeStart : Nat} {closed : List (Nat × Nat)}
    (ordered : Ordered j (rangeStart, closed)) (least : rangeStart ≤ last) :
    Ordered (last + 2) (last + 1, closed ++ [(rangeStart, last)]) where
  started := Nat.lt_succ_self _
  proper := by
    intro range mem
    rcases List.mem_append.mp mem with mem | mem
    · obtain ⟨nonempty, before⟩ := ordered.proper range mem
      exact ⟨nonempty, by dsimp only at before ⊢; omega⟩
    · cases List.mem_singleton.mp mem
      exact ⟨least, Nat.lt_succ_self _⟩
  apart := by
    rw [List.pairwise_append]
    refine ⟨ordered.apart, List.pairwise_singleton _ _, ?_⟩
    intro range mem other isLast
    cases List.mem_singleton.mp isLast
    exact (ordered.proper range mem).2

/-- The open range starts later and nothing is closed. -/
theorem Ordered.restart {j later : Nat} {rangeStart : Nat} {closed : List (Nat × Nat)}
    (ordered : Ordered j (rangeStart, closed)) (least : rangeStart ≤ later) (below : later ≤ j) :
    Ordered (j + 1) (later, closed) where
  started := Nat.lt_succ_of_le below
  proper := fun range mem =>
    ⟨(ordered.proper range mem).1, Nat.lt_of_lt_of_le (ordered.proper range mem).2 least⟩
  apart := ordered.apart

theorem Ordered.rangeStep {j : Nat} {state : Nat × List (Nat × Nat)} (ordered : Ordered j state) :
    Ordered (j + 1) (rangeStep dep state j) := by
  obtain ⟨rangeStart, closed⟩ := state
  have started : rangeStart < j := ordered.started
  have kept : Ordered (j + 1) (rangeStart, closed) :=
    ordered.restart (Nat.le_refl _) (Nat.le_of_lt started)
  rw [ParallelRegions.rangeStep]
  split
  · rename_i firstDep lastDep _ isLast
    split
    · split
      · exact kept
      · have least : rangeStart ≤ j - 1 := by omega
        have whole : j - 1 + 1 = j := by omega
        have closing := ordered.close least
        rw [show j - 1 + 2 = j + 1 by omega, whole] at closing
        exact closing
    · split
      · rename_i before
        have inRange := (List.mem_filter.mp (List.mem_of_getLast? isLast)).1
        rw [List.mem_range'_1] at inRange
        exact ordered.restart (by omega) (by omega)
      · exact kept
  · exact kept

/-- The main loop, from its first unit on. -/
theorem Ordered.foldl {count : Nat} {state : Nat × List (Nat × Nat)} {j : Nat}
    (ordered : Ordered j state) :
    Ordered (j + count) ((List.range' j count).foldl (ParallelRegions.rangeStep dep) state) := by
  induction count generalizing j state with
  | zero => exact ordered
  | succ count inductionHypothesis =>
      rw [List.range'_succ, List.foldl_cons, Nat.add_comm count, ← Nat.add_assoc]
      exact inductionHypothesis ordered.rangeStep

/-- The ranges of a chain are proper, within the chain, apart, and in the order of the chain. -/
theorem ordered_ranges {n : Nat} (several : 2 ≤ n) :
    (∀ range ∈ ranges dep n, range.1 ≤ range.2 ∧ range.2 < n) ∧
      (ranges dep n).Pairwise fun range other => range.2 < other.1 := by
  have start : Ordered 1 (0, []) := ⟨Nat.one_pos, nofun, List.Pairwise.nil⟩
  have finished : Ordered (1 + (n - 1))
      ((List.range' 1 (n - 1)).foldl (ParallelRegions.rangeStep dep) (0, [])) := start.foldl
  rw [ranges]
  cases result : (List.range' 1 (n - 1)).foldl (ParallelRegions.rangeStep dep) (0, []) with
  | mk rangeStart closed =>
      rw [result] at finished
      have started : rangeStart < 1 + (n - 1) := finished.started
      have least : rangeStart ≤ n - 1 := by omega
      have whole : n - 1 + 1 = n := by omega
      have closing := finished.close least
      exact ⟨fun range mem => whole ▸ closing.proper range mem, closing.apart⟩

/-! ### Regions -/

/-- A range has as many regions as `computeRegions` counts. -/
theorem length_regionUnits {first last : Nat} (proper : first ≤ last) :
    (regionUnits dep first last).length = computeRegions dep first last := by
  have whole : last + 1 - first = last - first + 1 := by omega
  have others : (List.range' (first + 1) (last - first)).filter
      (fun k => k = first || regionOf dep first last k ≠ regionOf dep first last (k - 1))
      = (List.range' (first + 1) (last - first)).filter
        fun k => regionOf dep first last k ≠ regionOf dep first last (k - 1) := by
    refine List.filter_congr fun k mem => ?_
    have above : k ≠ first := by
      rw [List.mem_range'_1] at mem
      omega
    simp [above]
  rw [regionUnits, computeRegions, whole, Spans.length_runs, List.range'_succ,
    List.filter_cons_of_pos (by simp), others, List.length_cons]

/-- A region is a run of consecutive units. -/
theorem exists_range'_of_mem_regionUnits {first last : Nat} {run : List Nat}
    (isRun : run ∈ regionUnits dep first last) :
    ∃ start length, 0 < length ∧ run = List.range' start length := by
  obtain ⟨before, after, split⟩ := List.append_of_mem isRun
  have whole : (regionUnits dep first last).flatten = List.range' first (last + 1 - first) :=
    Spans.flatten_runs _ _
  rw [split, List.flatten_append, List.flatten_cons] at whole
  obtain ⟨skipped, _, _, rest⟩ := List.range'_eq_append_iff.mp whole.symm
  obtain ⟨length, _, isRange, _⟩ := List.range'_eq_append_iff.mp rest.symm
  have nonempty : run.length ≠ 0 :=
    fun empty => Spans.ne_nil_of_mem_runs isRun (List.length_eq_zero_iff.mp empty)
  rw [isRange, List.length_range'] at nonempty
  exact ⟨first + skipped * 1, length, Nat.pos_of_ne_zero nonempty, isRange⟩

end Grouping

/-- The groups of a chain lie apart and in the order of the chain. The regions of a group cut its
range into runs of units, at least two, and no dependence crosses from one run to another. -/
theorem closedRanges_grouping (dep : Nat → Nat → Bool) (n : Nat) :
    (∀ range ∈ closedRanges dep n, range.1 ≤ range.2 ∧ range.2 < n) ∧
      ((closedRanges dep n).Pairwise fun range other => range.2 < other.1) ∧
      ∀ range ∈ closedRanges dep n,
        (regionUnits dep range.1 range.2).flatten
            = List.range' range.1 (range.2 + 1 - range.1) ∧
          (∀ run ∈ regionUnits dep range.1 range.2,
            ∃ start length, 0 < length ∧ run = List.range' start length) ∧
          2 ≤ (regionUnits dep range.1 range.2).length ∧
          ∀ (r s : Nat) (run other : List Nat),
            (regionUnits dep range.1 range.2)[r]? = some run →
            (regionUnits dep range.1 range.2)[s]? = some other → r ≠ s →
            ∀ i ∈ run, ∀ j ∈ other, i < j → dep i j = false := by
  rw [closedRanges]
  split
  · exact ⟨nofun, List.Pairwise.nil, nofun⟩
  · rename_i several
    obtain ⟨within, apart⟩ := ordered_ranges (Nat.le_of_not_lt several)
    refine ⟨fun range mem => within range (List.mem_filter.mp mem).1, apart.filter _, ?_⟩
    intro range mem
    obtain ⟨isRange, enough⟩ := List.mem_filter.mp mem
    refine ⟨Spans.flatten_runs _ _, fun run isRun => exists_range'_of_mem_regionUnits isRun, ?_,
      fun r s run other isRun isOther differs i inRun j inOther less =>
        not_dep_of_regionUnits isRun isOther differs inRun inOther less⟩
    rw [length_regionUnits (within range isRange).1]
    exact of_decide_eq_true enough

end Dynamatic.ParallelRegions
