import Dynamatic.ControlFlow.TopologicalOrder
import Mathlib.Data.List.Pairwise

/-!
# Nodes already in topological order

If of the ready nodes the least is numbered next, and every edge goes to a greater node, then the
nodes are numbered from the least to the greatest.
-/

namespace Dynamatic.ControlFlow.TopologicalOrder

variable {Node : Type} [DecidableEq Node] {next : Node → List Node}
  {pick : List Node → Option Node} {nodes : List Node} {source : Node} {state : State Node}
  {key : Node → Nat}

/-- The numbered nodes rise, and are less than those that are left. -/
structure Rises (key : Node → Nat) (nodes : List Node) (state : State Node) : Prop where
  numbered : state.numbered.Pairwise fun first second => key first < key second
  below : ∀ first ∈ state.numbered, ∀ node ∈ nodes, node ∉ state.numbered → key first < key node

/-- The least node that is ready is the least that is left. -/
theorem Keeps.le_of_least (keeps : Keeps next nodes source state)
    (graph : Graph next nodes source)
    (edges : ∀ parent ∈ nodes, ∀ node ∈ next parent, key parent < key node) {least : Node}
    (isLeast : ∀ other ∈ state.ready, key least ≤ key other) {node : Node} (isNode : node ∈ nodes)
    (isLeft : node ∉ state.numbered) : key least ≤ key node := by
  generalize bound : key node = value
  induction value using Nat.strongRecOn generalizing node with
  | ind value inductionHypothesis =>
      by_cases isReady : node ∈ state.ready
      · rw [← bound]
        exact isLeast node isReady
      · have waits : ¬ (node = source ∨ state.pending node = 0 ∧ node ∈ nodes.flatMap next) := by
          rw [← keeps.released, List.mem_append]
          exact not_or.mpr ⟨isReady, isLeft⟩
        obtain ⟨notSource, waits⟩ := not_or.mp waits
        have isEntered := List.mem_flatMap.mpr (graph.entered node isNode notSource)
        have pending : state.pending node ≠ 0 := fun zero => waits ⟨zero, isEntered⟩
        rw [keeps.pending, Ne, List.count_eq_zero, not_not, List.mem_flatMap] at pending
        obtain ⟨parent, parentLeft, isNext⟩ := pending
        obtain ⟨isParent, notNumbered⟩ := List.mem_filter.mp parentLeft
        have less := edges parent isParent node isNext
        rw [bound] at less
        exact Nat.le_of_lt (Nat.lt_of_le_of_lt
          (inductionHypothesis _ less isParent (of_decide_eq_true notNumbered) rfl) less)

theorem Rises.step (rises : Rises key nodes state) (keeps : Keeps next nodes source state)
    (graph : Graph next nodes source)
    (edges : ∀ parent ∈ nodes, ∀ node ∈ next parent, key parent < key node)
    (injective : ∀ first ∈ nodes, ∀ second ∈ nodes, key first = key second → first = second)
    (picks : ∀ ready node, pick ready = some node →
      node ∈ ready ∧ ∀ other ∈ ready, key node ≤ key other) {after : State Node}
    (steps : step next pick state = some after) : Rises key nodes after := by
  obtain ⟨least, isPicked, rfl⟩ := Option.map_eq_some_iff.mp steps
  obtain ⟨isReady, isLeast⟩ := picks _ _ isPicked
  have isNode : least ∈ nodes := keeps.within (List.mem_append_left _ isReady)
  have isLeft : least ∉ state.numbered := fun mem =>
    (List.nodup_append.mp keeps.distinct).2.2 least isReady least mem rfl
  refine ⟨List.pairwise_append.mpr ⟨rises.numbered, List.pairwise_singleton _ _, ?_⟩, ?_⟩
  · intro first mem second isSecond
    rw [List.mem_singleton.mp isSecond]
    exact rises.below first mem least isNode isLeft
  · intro first mem node otherNode otherLeft
    obtain ⟨notNumbered, apart⟩ := not_or.mp (mt List.mem_append.mpr otherLeft)
    rcases List.mem_append.mp mem with before | last
    · exact rises.below first before node otherNode notNumbered
    · rw [List.mem_singleton.mp last]
      refine Nat.lt_of_le_of_ne (keeps.le_of_least graph edges isLeast otherNode notNumbered) ?_
      exact fun same => apart (List.mem_singleton.mpr (injective _ isNode _ otherNode same).symm)

theorem Rises.run (graph : Graph next nodes source)
    (edges : ∀ parent ∈ nodes, ∀ node ∈ next parent, key parent < key node)
    (injective : ∀ first ∈ nodes, ∀ second ∈ nodes, key first = key second → first = second)
    (picks : ∀ ready node, pick ready = some node →
      node ∈ ready ∧ ∀ other ∈ ready, key node ≤ key other) (fuel : Nat)
    (rises : Rises key nodes state) (keeps : Keeps next nodes source state) :
    Rises key nodes (run next pick fuel state) := by
  induction fuel generalizing state with
  | zero => exact rises
  | succ fuel inductionHypothesis =>
      rw [TopologicalOrder.run]
      cases steps : TopologicalOrder.step next pick state with
      | none => exact rises
      | some after =>
          exact inductionHypothesis (rises.step keeps graph edges injective picks steps)
            (keeps.step graph (fun ready node isPicked => (picks ready node isPicked).1) steps)

omit [DecidableEq Node] in
/-- A list that rises and has the same nodes is the order in which they are numbered. -/
theorem Numbers.eq_of_rises {numbered sorted : List Node} (numbers : Numbers next nodes numbered)
    (rises : numbered.Pairwise fun first second => key first < key second)
    (sortedRises : sorted.Pairwise fun first second => key first < key second)
    (same : ∀ node, node ∈ sorted ↔ node ∈ nodes) : numbered = sorted := by
  have distinct : sorted.Nodup := by
    refine sortedRises.imp fun {first second} less equal => ?_
    rw [equal] at less
    exact Nat.lt_irrefl _ less
  have perm : numbered.Perm sorted :=
    (List.perm_ext_iff_of_nodup numbers.distinct distinct).mpr fun node =>
      (numbers.mem_iff node).trans (same node).symm
  exact perm.eq_of_pairwise (fun first second _ _ less greater =>
    absurd (Nat.lt_trans less greater) (Nat.lt_irrefl _)) rises sortedRises

end Dynamatic.ControlFlow.TopologicalOrder
