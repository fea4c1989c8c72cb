import Dynamatic.TreeHeight.Correct

/-!
# Applying the reduction again and again

Every adder that the pattern creates has a tree of least height, and the trees of the adders that
stay keep their leaves and get no higher. So each application leaves fewer adders that the pattern
can be applied to.
-/

namespace Dynamatic.TreeHeight

open Dynamatic.Trees

namespace Graph

variable {graph after : Graph} {op newTree fuel value : Nat} {tree : LabelledTree Nat}

/-- The pattern finds a tree that is higher than its leaves require. -/
def Applicable (graph : Graph) (value : Nat) : Prop :=
  ∃ tree, graph.Unfolds value tree ∧ tree.height ≠ Nat.clog 2 tree.leaves.length

/-- The pattern has rewritten an adder. -/
def Step (before after : Graph) : Prop :=
  before.WellFormed ∧ ∃ fuel op newTree, matchAndRewrite before fuel op = .rewritten after newTree

/-- Where the pattern ends there is a tree, for which the fuel suffices. -/
theorem exists_tree (ends : matchAndRewrite graph fuel op ≠ .endless) :
    ∃ tree, graph.Unfolds op tree ∧ tree.height < fuel := by
  rw [matchAndRewrite] at ends
  split at ends
  · exact unfolds_of_computeAddTreeHeight ‹_›
  · exact absurd rfl ends

/-- Where the pattern rewrites an adder, the tree is too high and its adders have been erased. -/
theorem erases_of_rewritten
    (rewrites : matchAndRewrite graph fuel op = .rewritten after newTree) :
    ∃ tree, graph.Unfolds op tree ∧ op ∈ tree.inner ∧
      tree.height ≠ Nat.clog 2 tree.leaves.length ∧
      (tree.inner.filter (· ≠ op)).reverse.foldlM eraseOp (graph.replaced op tree.leaves) =
        some after ∧
      newTree = (build tree.leaves graph.next).1 := by
  obtain ⟨tree, unfolds, enough⟩ := exists_tree (by rw [rewrites]; exact nofun)
  rw [matchAndRewrite_eq unfolds enough] at rewrites
  split at rewrites
  · cases rewrites
  · rename_i high
    split at rewrites
    · cases rewrites
    · rename_i erases
      cases rewrites
      refine ⟨tree, unfolds, ?_, high, erases, rfl⟩
      cases unfolds with
      | leaf => exact absurd (Nat.clog_one_right 2).symm high
      | node => exact List.mem_append_right _ (List.mem_singleton_self op)

section Rewriting

variable (wellFormed : graph.WellFormed) (unfolds : graph.Unfolds op tree)
  (isAdd : op ∈ tree.inner)
  (erases : (tree.inner.filter (· ≠ op)).reverse.foldlM eraseOp
    (graph.replaced op tree.leaves) = some after)

include wellFormed unfolds isAdd erases

/-- The tree of a value that stays had the same leaves, and was as high or higher. -/
theorem exists_tree_before {below : LabelledTree Nat} (unfoldsAfter : after.Unfolds value below)
    (old : value < graph.next) (outside : value ∉ tree.inner) :
    ∃ before, graph.Unfolds value before ∧ before.leaves = below.leaves ∧
      below.height ≤ before.height := by
  have afterFormed := wellFormed_after wellFormed unfolds isAdd erases
  have owned := owned_of_erases wellFormed unfolds isAdd erases
  obtain ⟨⟨balanced, unfoldsBalanced, sameLeaves, low⟩, -⟩ :=
    unfolds_after wellFormed unfolds isAdd erases
  induction unfoldsAfter with
  | @leaf value isLeaf =>
      refine ⟨.leaf value, .leaf ?_, rfl, Nat.le_refl _⟩
      rw [definingAdd_eq_none, List.mem_map] at isLeaf ⊢
      rintro ⟨add, addMem, rfl⟩
      exact isLeaf ⟨_, (mem_after wellFormed unfolds isAdd erases).mpr
        (.inl ⟨add, addMem, outside, rfl⟩), rfl⟩
  | @node value add left right isAfter unfoldsLeft unfoldsRight leftBefore rightBefore =>
      obtain ⟨addMem, rfl⟩ := (definingAdd_eq_some afterFormed).mp isAfter
      rcases (mem_after wellFormed unfolds isAdd erases).mp addMem with
        ⟨was, wasMem, wasOutside, rfl⟩ | new
      · -- an operand that is the replaced adder had the replaced tree
        have side : ∀ {used below}, was.Uses used → used < graph.next →
            after.Unfolds (subst op (build tree.leaves graph.next).1 used) below →
            (subst op (build tree.leaves graph.next).1 used < graph.next →
              subst op (build tree.leaves graph.next).1 used ∉ tree.inner →
              ∃ before, graph.Unfolds (subst op (build tree.leaves graph.next).1 used) before ∧
                before.leaves = below.leaves ∧ below.height ≤ before.height) →
            ∃ before, graph.Unfolds used before ∧ before.leaves = below.leaves ∧
              below.height ≤ before.height := by
          intro used below uses usedOld unfoldsUsed before
          by_cases isOp : used = op
          · rw [subst, if_pos isOp] at unfoldsUsed
            rw [unfoldsUsed.unique unfoldsBalanced, isOp]
            exact ⟨tree, unfolds, sameLeaves.symm, low ▸ tree.clog_le_height⟩
          · rw [subst, if_neg isOp] at before
            exact before usedOld fun inside =>
              wasOutside (owned.adds used inside isOp was wasMem uses)
        obtain ⟨leftTree, unfoldsLeftTree, leftLeaves, leftLe⟩ :=
          side (.inl rfl) (wellFormed.lhs was wasMem) unfoldsLeft leftBefore
        obtain ⟨rightTree, unfoldsRightTree, rightLeaves, rightLe⟩ :=
          side (.inr rfl) (wellFormed.rhs was wasMem) unfoldsRight rightBefore
        refine ⟨.node was.result leftTree rightTree, .node
          ((definingAdd_eq_some wellFormed).mpr ⟨wasMem, rfl⟩) unfoldsLeftTree unfoldsRightTree,
          ?_, ?_⟩
        · rw [LabelledTree.leaves, leftLeaves, rightLeaves]
          rfl
        · rw [LabelledTree.height, LabelledTree.height]
          omega
      · have bounds := (builds_leaves wellFormed unfolds isAdd).result_bounds new
        omega

/-- An adder that the pattern can be applied to afterwards was one before. -/
theorem applicable_before (isResult : value ∈ after.adds.map AddIOp.result)
    (applicable : after.Applicable value) :
    value ∈ graph.adds.map AddIOp.result ∧ graph.Applicable value := by
  obtain ⟨below, unfoldsAfter, high⟩ := applicable
  obtain ⟨add, addMem, rfl⟩ := List.mem_map.mp isResult
  rcases (mem_after wellFormed unfolds isAdd erases).mp addMem with
    ⟨was, wasMem, outside, rfl⟩ | new
  · refine ⟨List.mem_map.mpr ⟨was, wasMem, rfl⟩, ?_⟩
    obtain ⟨before, unfoldsBefore, leaves, le⟩ := exists_tree_before wellFormed unfolds isAdd
      erases unfoldsAfter (wellFormed.results was wasMem) outside
    refine ⟨before, unfoldsBefore, ?_⟩
    have least := below.clog_le_height
    rw [leaves]
    omega
  · obtain ⟨low, unfoldsLow, isLow⟩ := (unfolds_after wellFormed unfolds isAdd erases).2 add new
    rw [unfoldsAfter.unique unfoldsLow] at high
    exact absurd isLow high

end Rewriting

open Classical in
/-- The adders that the pattern can be applied to. -/
noncomputable def applicable (graph : Graph) : Finset Nat :=
  (graph.adds.map AddIOp.result).toFinset.filter graph.Applicable

theorem mem_applicable : value ∈ graph.applicable ↔
    value ∈ graph.adds.map AddIOp.result ∧ graph.Applicable value := by
  classical
  rw [applicable, Finset.mem_filter, List.mem_toFinset]

theorem Step.card_lt (step : Step graph after) :
    after.applicable.card < graph.applicable.card := by
  obtain ⟨wellFormed, fuel, op, newTree, rewrites⟩ := step
  obtain ⟨tree, unfolds, isAdd, high, erases, -⟩ := erases_of_rewritten rewrites
  obtain ⟨add, isOp⟩ := unfolds.exists_add isAdd
  obtain ⟨addMem, rfl⟩ := (definingAdd_eq_some wellFormed).mp isOp
  have isResult : add.result ∈ graph.adds.map AddIOp.result := List.mem_map_of_mem addMem
  refine Finset.card_lt_card ((Finset.ssubset_iff_of_subset ?_).mpr ⟨add.result, ?_, ?_⟩)
  · intro value mem
    obtain ⟨isAfter, applicable⟩ := mem_applicable.mp mem
    exact mem_applicable.mpr (applicable_before wellFormed unfolds isAdd erases isAfter applicable)
  · exact mem_applicable.mpr ⟨isResult, tree, unfolds, high⟩
  · intro mem
    exact (erased_after wellFormed unfolds isAdd erases isResult).mpr isAdd
      (mem_applicable.mp mem).1

/-- The pattern cannot be applied forever. -/
theorem wellFounded_step : WellFounded fun after before : Graph => Step before after :=
  Subrelation.wf (fun step => Step.card_lt step)
    (measure fun graph : Graph => graph.applicable.card).wf

/-- The pattern ends on an adder, and if it rewrites it then as it should. -/
def Right (graph : Graph) (op : Nat) : Prop :=
  ∃ fuel, match matchAndRewrite graph fuel op with
    | .endless => False
    | .optimal => True
    | .failedErase => False
    | .rewritten after newTree =>
        ∃ tree, graph.Unfolds op tree ∧ graph.Rewrites op tree after newTree

/-- The adders below have no cycle, and their tree is as low as can be or nothing else uses them. -/
def Reducible (graph : Graph) (op : Nat) : Prop :=
  ∃ tree, graph.Unfolds op tree ∧
    (tree.height = Nat.clog 2 tree.leaves.length ∨ graph.Owned op tree)

theorem reducible_of_right (wellFormed : graph.WellFormed) (right : graph.Right op) :
    graph.Reducible op := by
  obtain ⟨fuel, right⟩ := right
  split at right
  · exact right.elim
  · rename_i optimal
    obtain ⟨tree, unfolds, enough⟩ := exists_tree (by rw [optimal]; exact nofun)
    rw [matchAndRewrite_eq unfolds enough] at optimal
    split at optimal
    · exact ⟨tree, unfolds, .inl ‹_›⟩
    · split at optimal <;> cases optimal
  · exact right.elim
  · rename_i rewrites
    obtain ⟨tree, unfolds, isAdd, -, erases, -⟩ := erases_of_rewritten rewrites
    exact ⟨tree, unfolds, .inr (owned_of_erases wellFormed unfolds isAdd erases)⟩

theorem right_of_reducible (wellFormed : graph.WellFormed)
    (isResult : op ∈ graph.adds.map AddIOp.result) (reducible : graph.Reducible op) :
    graph.Right op := by
  obtain ⟨tree, unfolds, low | owned⟩ := reducible
  · refine ⟨tree.height + 1, ?_⟩
    rw [matchAndRewrite_eq unfolds (Nat.lt_succ_self _), if_pos low]
    trivial
  · refine ⟨tree.height + 1, ?_⟩
    have isAdd : op ∈ tree.inner := by
      cases unfolds with
      | leaf isLeaf => exact absurd isResult (definingAdd_eq_none.mp isLeaf)
      | node => exact List.mem_append_right _ (List.mem_singleton_self op)
    obtain ⟨after, erases⟩ := erases_of_owned wellFormed unfolds isAdd owned
    rw [matchAndRewrite_eq unfolds (Nat.lt_succ_self _), erases]
    by_cases low : tree.height = Nat.clog 2 tree.leaves.length
    · rw [if_pos low]
      trivial
    · rw [if_neg low]
      exact ⟨tree, unfolds, rewrites_after wellFormed unfolds isAdd erases⟩

end Graph

/-- The pattern does to an adder what it should if and only if the adders below it have no cycle
and their tree is as low as can be or nothing else uses them; and it cannot be applied forever. -/
theorem addTreeHeightReduction_iff (graph : Graph) (op : Nat) (wellFormed : graph.WellFormed)
    (isResult : op ∈ graph.adds.map AddIOp.result) :
    (graph.Right op ↔ graph.Reducible op) ∧
      WellFounded fun after before : Graph => Graph.Step before after :=
  ⟨⟨Graph.reducible_of_right wellFormed, Graph.right_of_reducible wellFormed isResult⟩,
    Graph.wellFounded_step⟩

/-- Four values added up one after the other. -/
def chain : Graph where
  adds := [⟨4, 0, 1⟩, ⟨5, 4, 2⟩, ⟨6, 5, 3⟩]
  others := [[6]]
  next := 7

theorem chain_wellFormed : chain.WellFormed := by
  refine ⟨?_, ?_, ?_, ?_, ?_⟩ <;> decide

/-- The tree of the last sum. -/
def chainTree : LabelledTree Nat :=
  .node 6 (.node 5 (.node 4 (.leaf 0) (.leaf 1)) (.leaf 2)) (.leaf 3)

theorem chain_unfolds (others : List (List Nat)) :
    ({ chain with others := others } : Graph).Unfolds 6 chainTree :=
  .node rfl (.node rfl (.node rfl (.leaf rfl) (.leaf rfl)) (.leaf rfl)) (.leaf rfl)

example : matchAndRewrite chain 5 6 =
    .rewritten { adds := [⟨7, 0, 1⟩, ⟨8, 2, 3⟩, ⟨9, 7, 8⟩], others := [[9]], next := 10 } 9 := by
  decide +kernel

theorem addTreeHeightReduction_chain :
    (chain.WellFormed ∧ 6 ∈ chain.adds.map AddIOp.result) ∧ chain.Right 6 := by
  refine ⟨⟨chain_wellFormed, by decide⟩, ?_⟩
  refine (addTreeHeightReduction_iff chain 6 chain_wellFormed (by decide)).1.mpr ?_
  exact ⟨chainTree, chain_unfolds [[6]], .inr ⟨by decide, by decide, by decide⟩⟩

/-- Another operation uses the first of the sums as well. -/
def shared : Graph := { chain with others := [[6], [4]] }

theorem not_right_shared :
    ¬ ∀ (graph : Graph) (op : Nat), graph.WellFormed → op ∈ graph.adds.map AddIOp.result →
      graph.Right op := by
  intro right
  have wellFormed : shared.WellFormed := by
    refine ⟨?_, ?_, ?_, ?_, ?_⟩ <;> decide
  obtain ⟨tree, unfolds, reducible⟩ :=
    Graph.reducible_of_right wellFormed (right shared 6 wellFormed (by decide))
  obtain rfl := unfolds.unique (chain_unfolds [[6], [4]])
  rcases reducible with low | owned
  · exact absurd low (by decide)
  · exact owned.others 4 (by decide) (by decide) [4] (by decide) (by decide)

end Dynamatic.TreeHeight
