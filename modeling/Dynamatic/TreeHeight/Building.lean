import Dynamatic.TreeHeight.Reduction
import Mathlib.Algebra.BigOperators.Group.List.Basic

/-!
# Balanced trees of adders

What `build` creates for a list of values: adders for the values from the next one on, in order,
that make up a tree of least height with the list as its leaves, and that add up the list.
-/

namespace Dynamatic.TreeHeight

open Dynamatic.Trees

namespace Graph

variable {vals : List Nat} {next : Nat}

theorem build_one (value next : Nat) : build [value] next = (value, [], next) := by
  rw [build]
  rfl

/-- What is created for a list of values, and where the next one goes. -/
structure Builds (vals : List Nat) (next : Nat) (built : Nat × List AddIOp × Nat) :
    Prop where
  next_le : next ≤ built.2.2
  root_lt : built.1 < built.2.2
  results : built.2.1.map AddIOp.result = List.range' next (built.2.2 - next)
  uses : ∀ add ∈ built.2.1, ∀ used, add.Uses used → used ∈ vals ∨ next ≤ used ∧ used < add.result
  rootMem : built.1 ∈ vals ∨ next ≤ built.1

/-- What holds of a list of one value, and of one whose halves it holds of, holds of all. -/
theorem build_induction {motive : List Nat → Nat → Nat × List AddIOp × Nat → Prop}
    (one : ∀ value next, motive [value] next (value, [], next))
    (halves : ∀ (vals : List Nat) (next : Nat), 2 ≤ vals.length →
      motive (vals.take (vals.length / 2)) next (build (vals.take (vals.length / 2)) next) →
      (∀ next, motive (vals.drop (vals.length / 2)) next
        (build (vals.drop (vals.length / 2)) next)) →
      motive vals next (build vals next))
    (vals : List Nat) (next : Nat) (nonempty : vals ≠ []) :
    motive vals next (build vals next) := by
  generalize measure : vals.length = count
  induction count using Nat.strongRecOn generalizing vals next with
  | ind count inductionHypothesis =>
      have positive := List.length_pos_of_ne_nil nonempty
      by_cases short : vals.length ≤ 1
      · obtain ⟨value, rfl⟩ := List.length_eq_one_iff.mp (Nat.le_antisymm short positive)
        rw [build_one]
        exact one value next
      · have takeLength : (vals.take (vals.length / 2)).length = vals.length / 2 := by
          rw [List.length_take]
          omega
        have dropLength : (vals.drop (vals.length / 2)).length = vals.length - vals.length / 2 :=
          List.length_drop
        refine halves vals next (by omega) ?_ fun next => ?_
        · refine inductionHypothesis _ ?_ _ _ ?_ rfl
          · omega
          · exact List.ne_nil_of_length_pos (by omega)
        · refine inductionHypothesis _ ?_ _ _ ?_ rfl
          · omega
          · exact List.ne_nil_of_length_pos (by omega)

/-- A list of several values is built from what is built for its halves. -/
theorem build_several (several : 2 ≤ vals.length) (next : Nat) :
    ∃ lhs rhs, build (vals.take (vals.length / 2)) next = lhs ∧
      build (vals.drop (vals.length / 2)) lhs.2.2 = rhs ∧
      build vals next =
        (rhs.2.2, lhs.2.1 ++ rhs.2.1 ++ [⟨rhs.2.2, lhs.1, rhs.1⟩], rhs.2.2 + 1) := by
  refine ⟨_, _, rfl, rfl, ?_⟩
  rw [build, if_neg (by omega)]

theorem builds_build (vals : List Nat) (next : Nat) (nonempty : vals ≠ [])
    (bounded : ∀ value ∈ vals, value < next) : Builds vals next (build vals next) := by
  revert bounded
  refine build_induction (motive := fun vals next built =>
    (∀ value ∈ vals, value < next) → Builds vals next built) ?_ ?_ vals next nonempty
  · intro value next bounded
    exact ⟨Nat.le_refl _, bounded value (List.mem_singleton_self value), by simp,
      fun _ mem => absurd mem List.not_mem_nil, .inl (List.mem_singleton_self value)⟩
  · intro vals next several left right bounded
    obtain ⟨lhs, rhs, isLhs, isRhs, whole⟩ := build_several several next
    rw [isLhs] at left
    have left := left fun value mem => bounded value (List.mem_of_mem_take mem)
    have leftNext := left.next_le
    have right := right lhs.2.2 fun value mem =>
      Nat.lt_of_lt_of_le (bounded value (List.mem_of_mem_drop mem)) leftNext
    rw [isRhs] at right
    have rightNext := right.next_le
    have rightRoot := right.root_lt
    have leftRoot := left.root_lt
    rw [whole]
    refine ⟨?_, Nat.lt_succ_self _, ?_, ?_, .inr (Nat.le_trans leftNext rightNext)⟩
    · exact Nat.le_succ_of_le (Nat.le_trans leftNext rightNext)
    · have split : rhs.2.2 + 1 - next = (lhs.2.2 - next) + (rhs.2.2 - lhs.2.2) + 1 := by omega
      have middle : next + (lhs.2.2 - next) = lhs.2.2 := by omega
      have last : next + (lhs.2.2 - next + (rhs.2.2 - lhs.2.2)) = rhs.2.2 := by omega
      rw [List.map_append, List.map_append, left.results, right.results, List.map_singleton, split,
        List.range'_1_concat, ← List.range'_append_1, middle, last]
    · intro add mem used uses
      rcases List.mem_append.mp mem with below | here
      · rcases List.mem_append.mp below with leftMem | rightMem
        · exact (left.uses add leftMem used uses).imp_left List.mem_of_mem_take
        · refine (right.uses add rightMem used uses).imp List.mem_of_mem_drop fun fresh => ?_
          exact ⟨Nat.le_trans leftNext fresh.1, fresh.2⟩
      · rw [List.mem_singleton.mp here] at uses ⊢
        rcases uses with rfl | rfl
        · refine left.rootMem.imp List.mem_of_mem_take fun fresh => ⟨fresh, ?_⟩
          exact Nat.lt_of_lt_of_le leftRoot rightNext
        · rcases right.rootMem with inVals | fresh
          · exact .inl (List.mem_of_mem_drop inVals)
          · exact .inr ⟨Nat.le_trans leftNext fresh, rightRoot⟩

variable {built : Nat × List AddIOp × Nat} {add : AddIOp}

theorem Builds.result_bounds (builds : Builds vals next built) (mem : add ∈ built.2.1) :
    next ≤ add.result ∧ add.result < built.2.2 := by
  have isResult : add.result ∈ built.2.1.map AddIOp.result := List.mem_map_of_mem mem
  rw [builds.results, List.mem_range'_1] at isResult
  have := builds.next_le
  omega

/-- What the created adders use comes before their own results. -/
theorem Builds.used_lt (builds : Builds vals next built) (bounded : ∀ value ∈ vals, value < next)
    (mem : add ∈ built.2.1) {used : Nat} (uses : add.Uses used) : used < add.result := by
  have bounds := builds.result_bounds mem
  rcases builds.uses add mem used uses with inVals | fresh
  · exact Nat.lt_of_lt_of_le (bounded used inVals) bounds.1
  · exact fresh.2

/-- Wherever the created adders define their results and the list has no adders, the tree has the
list as its leaves and the least height, and so has the tree of every created adder. -/
theorem unfolds_build (vals : List Nat) (next : Nat) (nonempty : vals ≠ []) (graph : Graph)
    (created : ∀ add ∈ (build vals next).2.1, graph.definingAdd add.result = some add)
    (leaves : ∀ value ∈ vals, graph.definingAdd value = none) :
    (∃ tree, graph.Unfolds (build vals next).1 tree ∧ tree.leaves = vals ∧
      tree.height = Nat.clog 2 vals.length) ∧
    ∀ add ∈ (build vals next).2.1, ∃ tree, graph.Unfolds add.result tree ∧
      tree.height = Nat.clog 2 tree.leaves.length := by
  revert created leaves
  refine build_induction (motive := fun vals next built =>
    (∀ add ∈ built.2.1, graph.definingAdd add.result = some add) →
    (∀ value ∈ vals, graph.definingAdd value = none) →
    (∃ tree, graph.Unfolds built.1 tree ∧ tree.leaves = vals ∧
      tree.height = Nat.clog 2 vals.length) ∧
    ∀ add ∈ built.2.1, ∃ tree, graph.Unfolds add.result tree ∧
      tree.height = Nat.clog 2 tree.leaves.length) ?_ ?_ vals next nonempty
  · intro value next _ leaves
    refine ⟨⟨.leaf value, .leaf (leaves value (List.mem_singleton_self value)), rfl, ?_⟩,
      fun _ mem => absurd mem List.not_mem_nil⟩
    exact (Nat.clog_one_right 2).symm
  · intro vals next several left right
    obtain ⟨lhs, rhs, isLhs, isRhs, whole⟩ := build_several several next
    rw [isLhs] at left
    have right := right lhs.2.2
    rw [isRhs] at right
    rw [whole]
    intro created leaves
    obtain ⟨⟨leftTree, unfoldsLeft, leftLeaves, leftHeight⟩, leftLow⟩ := left
      (fun add mem => created add (List.mem_append_left _ (List.mem_append_left _ mem)))
      fun value mem => leaves value (List.mem_of_mem_take mem)
    obtain ⟨⟨rightTree, unfoldsRight, rightLeaves, rightHeight⟩, rightLow⟩ := right
      (fun add mem => created add (List.mem_append_left _ (List.mem_append_right _ mem)))
      fun value mem => leaves value (List.mem_of_mem_drop mem)
    have isTop := created _ (List.mem_append_right _ (List.mem_singleton_self _))
    have unfolds : graph.Unfolds rhs.2.2 (.node rhs.2.2 leftTree rightTree) :=
      .node isTop unfoldsLeft unfoldsRight
    have wholeLeaves : (LabelledTree.node rhs.2.2 leftTree rightTree).leaves = vals := by
      rw [LabelledTree.leaves, leftLeaves, rightLeaves, List.take_append_drop]
    have low : (LabelledTree.node rhs.2.2 leftTree rightTree).height = Nat.clog 2 vals.length := by
      have shorter : min (vals.length / 2) vals.length = vals.length / 2 := by omega
      rw [LabelledTree.height, leftHeight, rightHeight, List.length_take, List.length_drop, shorter,
        LabelledTree.clog_halves several]
    refine ⟨⟨_, unfolds, wholeLeaves, low⟩, fun add mem => ?_⟩
    rcases List.mem_append.mp mem with below | here
    · exact (List.mem_append.mp below).elim (leftLow add) (rightLow add)
    · rw [List.mem_singleton.mp here]
      exact ⟨_, unfolds, by rw [wholeLeaves, low]⟩

/-- The values that adders define are the sums of their operands. -/
def Adds {width : Nat} (adds : List AddIOp) (value : Nat → BitVec width) : Prop :=
  ∀ add ∈ adds, value add.result = value add.lhs + value add.rhs

/-- Adders are not affected by values that neither they nor their operands have. -/
theorem Adds.congr {width : Nat} {adds : List AddIOp} {value other : Nat → BitVec width}
    (isSum : Adds adds value) {bound : Nat} (results : ∀ add ∈ adds, add.result < bound)
    (used : ∀ add ∈ adds, ∀ used, add.Uses used → used < add.result)
    (same : ∀ index < bound, other index = value index) : Adds adds other := by
  intro add mem
  have below := results add mem
  rw [same _ below, same _ (Nat.lt_trans (used add mem _ (.inl rfl)) below),
    same _ (Nat.lt_trans (used add mem _ (.inr rfl)) below)]
  exact isSum add mem

/-- The created values can be given so that the tree adds up the list. -/
theorem exists_sum_build {width : Nat} (vals : List Nat) (next : Nat) (nonempty : vals ≠ [])
    (bounded : ∀ value ∈ vals, value < next) (value : Nat → BitVec width) :
    ∃ value' : Nat → BitVec width, (∀ index < next, value' index = value index) ∧
      Adds (build vals next).2.1 value' ∧ value' (build vals next).1 = (vals.map value).sum := by
  revert bounded value
  refine build_induction (motive := fun vals next built => (∀ value ∈ vals, value < next) →
    ∀ value : Nat → BitVec width,
      ∃ value' : Nat → BitVec width, (∀ index < next, value' index = value index) ∧
        Adds built.2.1 value' ∧ value' built.1 = (vals.map value).sum) ?_ ?_ vals next nonempty
  · intro leaf next _ value
    exact ⟨value, fun _ _ => rfl, fun _ mem => absurd mem List.not_mem_nil, by simp⟩
  · intro vals next several left right bounded value
    obtain ⟨lhs, rhs, isLhs, isRhs, whole⟩ := build_several several next
    have takeBounded : ∀ value ∈ vals.take (vals.length / 2), value < next :=
      fun value mem => bounded value (List.mem_of_mem_take mem)
    have takeNonempty : vals.take (vals.length / 2) ≠ [] := by
      rw [Ne, List.take_eq_nil_iff]
      rintro (zero | rfl)
      · omega
      · simp at several
    have leftBuilds := builds_build _ next takeNonempty takeBounded
    rw [isLhs] at left leftBuilds
    have leftNext := leftBuilds.next_le
    have dropBounded : ∀ value ∈ vals.drop (vals.length / 2), value < lhs.2.2 :=
      fun value mem => Nat.lt_of_lt_of_le (bounded value (List.mem_of_mem_drop mem)) leftNext
    have dropNonempty : vals.drop (vals.length / 2) ≠ [] := by
      rw [Ne, List.drop_eq_nil_iff]
      omega
    have rightBuilds := builds_build _ lhs.2.2 dropNonempty dropBounded
    have right := right lhs.2.2
    rw [isRhs] at right rightBuilds
    have rightNext := rightBuilds.next_le
    obtain ⟨value1, same1, adds1, sum1⟩ := left takeBounded value
    obtain ⟨value2, same2, adds2, sum2⟩ := right dropBounded value1
    rw [whole]
    have kept : ∀ index < rhs.2.2,
        Function.update value2 rhs.2.2 (value2 lhs.1 + value2 rhs.1) index = value2 index :=
      fun index below => Function.update_of_ne (Nat.ne_of_lt below) _ _
    refine ⟨Function.update value2 rhs.2.2 (value2 lhs.1 + value2 rhs.1), ?_, ?_, ?_⟩
    · intro index below
      rw [kept index (by omega), same2 index (by omega), same1 index below]
    · have leftAdds : Adds lhs.2.1 value2 := adds1.congr
        (fun add mem => (leftBuilds.result_bounds mem).2)
        (fun add mem _ => leftBuilds.used_lt takeBounded mem) same2
      intro add mem
      rcases List.mem_append.mp mem with below | here
      · rcases List.mem_append.mp below with leftMem | rightMem
        · exact leftAdds.congr (fun add mem => Nat.lt_of_lt_of_le
            (leftBuilds.result_bounds mem).2 rightNext)
            (fun add mem _ => leftBuilds.used_lt takeBounded mem) kept add leftMem
        · exact adds2.congr (fun add mem => (rightBuilds.result_bounds mem).2)
            (fun add mem _ => rightBuilds.used_lt dropBounded mem) kept add rightMem
      · rw [List.mem_singleton.mp here]
        dsimp only
        rw [Function.update_self, kept _ (Nat.lt_of_lt_of_le leftBuilds.root_lt rightNext),
          kept _ rightBuilds.root_lt]
    · have dropSame : (vals.drop (vals.length / 2)).map value1 =
          (vals.drop (vals.length / 2)).map value :=
        List.map_congr_left fun index mem => same1 index (bounded index (List.mem_of_mem_drop mem))
      dsimp only
      rw [Function.update_self, same2 _ leftBuilds.root_lt, sum1, sum2, dropSame,
        ← List.sum_append, ← List.map_append, List.take_append_drop]

end Graph

end Dynamatic.TreeHeight
