import Dynamatic.Trees.Binary
import Mathlib.Data.BitVec

/-!
# Reducing the height of trees of adders

`AddTreeHeightReduction` flattens an adder through all operands that are adders, builds a balanced
tree of what it finds, puts it in the adder's place and erases the adders that it went through,
those that use a value before the one that defines it.
-/

namespace Dynamatic.TreeHeight

open Dynamatic.Trees

/-- An adder. Values are numbered. -/
structure AddIOp where
  result : Nat
  lhs : Nat
  rhs : Nat
  deriving DecidableEq, Repr

def AddIOp.Uses (add : AddIOp) (value : Nat) : Prop := add.lhs = value ∨ add.rhs = value

instance (add : AddIOp) (value : Nat) : Decidable (add.Uses value) :=
  inferInstanceAs (Decidable (_ ∨ _))

/-- The adders of a function and the operands of its other operations; values from `next` on are
not used yet. -/
structure Graph where
  adds : List AddIOp
  others : List (List Nat)
  next : Nat
  deriving DecidableEq, Repr

namespace Graph

/-- No value has two adders, and the values of the graph come before the next. -/
structure WellFormed (graph : Graph) : Prop where
  distinct : (graph.adds.map AddIOp.result).Nodup
  results : ∀ add ∈ graph.adds, add.result < graph.next
  lhs : ∀ add ∈ graph.adds, add.lhs < graph.next
  rhs : ∀ add ∈ graph.adds, add.rhs < graph.next
  operands : ∀ operands ∈ graph.others, ∀ value ∈ operands, value < graph.next

variable (graph : Graph)

def definingAdd (value : Nat) : Option AddIOp :=
  graph.adds.find? fun add => add.result = value

def useEmpty (value : Nat) : Prop :=
  (∀ add ∈ graph.adds, ¬ add.Uses value) ∧ ∀ operands ∈ graph.others, value ∉ operands

instance (value : Nat) : Decidable (graph.useEmpty value) :=
  inferInstanceAs (Decidable (_ ∧ _))

/-- `computeAddTreeHeight`, without an answer if the recursion does not end with the fuel. -/
def computeAddTreeHeight : Nat → Nat → Option Nat
  | 0, _ => none
  | fuel + 1, value =>
      match graph.definingAdd value with
      | none => some 0
      | some add => do
          let left ← computeAddTreeHeight fuel add.lhs
          let right ← computeAddTreeHeight fuel add.rhs
          some (1 + max left right)

/-- `collect`: the operands of the tree and the adders to be erased, in this order. -/
def collect (op : Nat) : Nat → Nat → Option (List Nat × List Nat)
  | 0, _ => none
  | fuel + 1, value =>
      match graph.definingAdd value with
      | none => some ([value], [])
      | some add => do
          let (operands, toBeErased) ← collect op fuel add.lhs
          let (operands', toBeErased') ← collect op fuel add.rhs
          some (operands ++ operands',
            toBeErased ++ toBeErased' ++ if value ≠ op then [value] else [])

/-- `build`: the value of a balanced tree, the adders that are created for it and the next value. -/
def build (vals : List Nat) (next : Nat) : Nat × List AddIOp × Nat :=
  if vals.length ≤ 1 then (vals.headD 0, [], next)
  else
    let lhs := build (vals.take (vals.length / 2)) next
    let rhs := build (vals.drop (vals.length / 2)) lhs.2.2
    (rhs.2.2, lhs.2.1 ++ rhs.2.1 ++ [⟨rhs.2.2, lhs.1, rhs.1⟩], rhs.2.2 + 1)
  termination_by vals.length
  decreasing_by
    · rw [List.length_take]
      omega
    · rw [List.length_drop]
      omega

/-- The value that stands in the place of a replaced one. -/
def subst (op newTree value : Nat) : Nat := if value = op then newTree else value

/-- `replaceOp`: every use of the operation's result becomes one of the new value. -/
def replaceOp (op newTree : Nat) : Graph :=
  { graph with
    adds := (graph.adds.filter (·.result ≠ op)).map fun add =>
      { add with lhs := subst op newTree add.lhs, rhs := subst op newTree add.rhs }
    others := graph.others.map (·.map (subst op newTree)) }

/-- `eraseOp`, which fails for an operation that is erased already or has users left. -/
def eraseOp (value : Nat) : Option Graph :=
  if value ∈ graph.adds.map AddIOp.result ∧ graph.useEmpty value then
    some { graph with adds := graph.adds.filter (·.result ≠ value) }
  else none

end Graph

/-- How the pattern ends on an adder, if the recursion over the operands ends. -/
inductive Outcome where
  | endless
  | optimal
  | failedErase
  | rewritten (graph : Graph) (newTree : Nat)
  deriving DecidableEq, Repr

def matchAndRewrite (graph : Graph) (fuel : Nat) (op : Nat) : Outcome :=
  match graph.collect op fuel op, graph.computeAddTreeHeight fuel op with
  | some (addTreeOperands, toBeErased), some height =>
      if height = Nat.clog 2 addTreeOperands.length then .optimal
      else
        let (newTree, created, next) := Graph.build addTreeOperands graph.next
        let built := { graph with adds := graph.adds ++ created, next := next }
        match toBeErased.reverse.foldlM Graph.eraseOp (built.replaceOp op newTree) with
        | none => .failedErase
        | some graph => .rewritten graph newTree
  | _, _ => .endless

/-! ### Trees of adders -/

/-- The tree of adders that defines a value. -/
inductive Graph.Unfolds (graph : Graph) : Nat → LabelledTree Nat → Prop where
  | leaf {value : Nat} (isLeaf : graph.definingAdd value = none) : Unfolds graph value (.leaf value)
  | node {value : Nat} {add : AddIOp} {left right : LabelledTree Nat}
      (isAdd : graph.definingAdd value = some add) (unfoldsLeft : Unfolds graph add.lhs left)
      (unfoldsRight : Unfolds graph add.rhs right) : Unfolds graph value (.node value left right)

namespace Graph

variable {graph : Graph} {value op : Nat} {add : AddIOp} {tree : LabelledTree Nat} {fuel : Nat}

theorem definingAdd_eq_some (wellFormed : graph.WellFormed) :
    graph.definingAdd value = some add ↔ add ∈ graph.adds ∧ add.result = value := by
  constructor
  · intro found
    exact ⟨List.mem_of_find?_eq_some found, by simpa using List.find?_some found⟩
  · rintro ⟨mem, rfl⟩
    rw [definingAdd]
    have distinct := wellFormed.distinct
    generalize graph.adds = adds at mem distinct
    induction adds with
    | nil => exact absurd mem List.not_mem_nil
    | cons first adds inductionHypothesis =>
        rw [List.map_cons, List.nodup_cons] at distinct
        rcases List.mem_cons.mp mem with rfl | later
        · exact List.find?_cons_of_pos (decide_eq_true rfl)
        · have apart : first.result ≠ add.result := fun same =>
            distinct.1 (same ▸ List.mem_map_of_mem later)
          rw [List.find?_cons_of_neg (by simpa using apart)]
          exact inductionHypothesis later distinct.2

theorem definingAdd_eq_none : graph.definingAdd value = none ↔
    value ∉ graph.adds.map AddIOp.result := by
  rw [definingAdd, List.find?_eq_none, List.mem_map]
  constructor
  · rintro none ⟨add, mem, rfl⟩
    exact none add mem (decide_eq_true rfl)
  · intro none add mem isResult
    exact none ⟨add, mem, of_decide_eq_true isResult⟩

theorem Unfolds.unique (unfolds : graph.Unfolds value tree) {other : LabelledTree Nat}
    (unfoldsOther : graph.Unfolds value other) : tree = other := by
  induction unfolds generalizing other with
  | leaf isLeaf =>
      cases unfoldsOther with
      | leaf => rfl
      | node isAdd => cases isLeaf.symm.trans isAdd
  | node isAdd _ _ leftUnique rightUnique =>
      cases unfoldsOther with
      | leaf isLeaf => cases isLeaf.symm.trans isAdd
      | node isAdd' unfoldsLeft unfoldsRight =>
          cases isAdd.symm.trans isAdd'
          rw [leftUnique unfoldsLeft, rightUnique unfoldsRight]

/-- The leaves of a tree have no adder. -/
theorem Unfolds.leaf_not_add (unfolds : graph.Unfolds value tree) :
    ∀ leaf ∈ tree.leaves, graph.definingAdd leaf = none := by
  induction unfolds with
  | leaf isLeaf => exact fun leaf mem => List.mem_singleton.mp mem ▸ isLeaf
  | node _ _ _ leftLeaves rightLeaves =>
      intro leaf mem
      exact (List.mem_append.mp mem).elim (leftLeaves leaf) (rightLeaves leaf)

/-- The inner values of a tree have adders. -/
theorem Unfolds.exists_add (unfolds : graph.Unfolds value tree) {label : Nat}
    (mem : label ∈ tree.inner) : ∃ add, graph.definingAdd label = some add := by
  induction unfolds with
  | leaf => exact absurd mem List.not_mem_nil
  | node isAdd _ _ leftAdds rightAdds =>
      rcases List.mem_append.mp mem with below | here
      · exact (List.mem_append.mp below).elim leftAdds rightAdds
      · rw [List.mem_singleton.mp here]
        exact ⟨_, isAdd⟩

/-- The tree has the value itself, as a leaf or as the last inner value. -/
theorem Unfolds.mem_self (unfolds : graph.Unfolds value tree) :
    value ∈ tree.inner ∨ value ∈ tree.leaves := by
  cases unfolds with
  | leaf => exact .inr (List.mem_singleton_self value)
  | node => exact .inl (List.mem_append_right _ (List.mem_singleton_self value))

/-- What an adder of the tree uses is in the tree. -/
theorem Unfolds.mem_of_uses (unfolds : graph.Unfolds value tree) {label : Nat}
    (mem : label ∈ tree.inner) (isAdd : graph.definingAdd label = some add) {used : Nat}
    (uses : add.Uses used) : used ∈ tree.inner ∨ used ∈ tree.leaves := by
  induction unfolds with
  | leaf => exact absurd mem List.not_mem_nil
  | @node value own left right isOwn unfoldsLeft unfoldsRight leftUses rightUses =>
      have inLeft : used ∈ left.inner ∨ used ∈ left.leaves →
          used ∈ (LabelledTree.node value left right).inner ∨
            used ∈ (LabelledTree.node value left right).leaves :=
        Or.imp (fun here => List.mem_append_left _ (List.mem_append_left _ here))
          (List.mem_append_left _)
      have inRight : used ∈ right.inner ∨ used ∈ right.leaves →
          used ∈ (LabelledTree.node value left right).inner ∨
            used ∈ (LabelledTree.node value left right).leaves :=
        Or.imp (fun here => List.mem_append_left _ (List.mem_append_right _ here))
          (List.mem_append_right _)
      rcases List.mem_append.mp mem with below | here
      · rcases List.mem_append.mp below with leftMem | rightMem
        · exact inLeft (leftUses leftMem)
        · exact inRight (rightUses rightMem)
      · rw [List.mem_singleton.mp here, isOwn] at isAdd
        obtain rfl := Option.some.inj isAdd
        rcases uses with rfl | rfl
        · exact inLeft unfoldsLeft.mem_self
        · exact inRight unfoldsRight.mem_self

/-- The trees of the adders of a tree are no higher. -/
theorem Unfolds.height_le (unfolds : graph.Unfolds value tree) {label : Nat}
    (mem : label ∈ tree.inner) {below : LabelledTree Nat}
    (unfoldsBelow : graph.Unfolds label below) : below.height ≤ tree.height := by
  induction unfolds with
  | leaf => exact absurd mem List.not_mem_nil
  | @node value add left right isAdd unfoldsLeft unfoldsRight leftLe rightLe =>
      rcases List.mem_append.mp mem with inside | here
      · rw [LabelledTree.height]
        rcases List.mem_append.mp inside with leftMem | rightMem
        · have := leftLe leftMem
          omega
        · have := rightLe rightMem
          omega
      · rw [List.mem_singleton.mp here] at unfoldsBelow
        rw [unfoldsBelow.unique (.node isAdd unfoldsLeft unfoldsRight)]

/-- The adders of a tree have trees themselves, and none uses itself. -/
theorem Unfolds.not_uses_self (unfolds : graph.Unfolds value tree) {label : Nat}
    (mem : label ∈ tree.inner) (isAdd : graph.definingAdd label = some add) :
    ¬ add.Uses label := by
  induction unfolds with
  | leaf => exact absurd mem List.not_mem_nil
  | @node value own left right isOwn unfoldsLeft unfoldsRight leftUses rightUses =>
      rcases List.mem_append.mp mem with below | here
      · exact (List.mem_append.mp below).elim leftUses rightUses
      · rw [List.mem_singleton.mp here, isOwn] at isAdd
        rw [List.mem_singleton.mp here]
        obtain rfl := Option.some.inj isAdd
        have whole : graph.Unfolds value (.node value left right) :=
          .node isOwn unfoldsLeft unfoldsRight
        rintro (same | same)
        · rw [same] at unfoldsLeft
          have heights := congrArg LabelledTree.height (unfoldsLeft.unique whole)
          rw [LabelledTree.height] at heights
          omega
        · rw [same] at unfoldsRight
          have heights := congrArg LabelledTree.height (unfoldsRight.unique whole)
          rw [LabelledTree.height] at heights
          omega

/-- An adder is not below itself. -/
theorem Unfolds.not_mem_below {left right : LabelledTree Nat}
    (unfolds : graph.Unfolds op (.node op left right)) :
    op ∉ left.inner ∧ op ∉ right.inner := by
  cases unfolds with
  | node isAdd unfoldsLeft unfoldsRight =>
      have whole : graph.Unfolds op (.node op left right) := .node isAdd unfoldsLeft unfoldsRight
      constructor
      · intro mem
        have := unfoldsLeft.height_le mem whole
        rw [LabelledTree.height] at this
        omega
      · intro mem
        have := unfoldsRight.height_le mem whole
        rw [LabelledTree.height] at this
        omega

/-- In a tree whose adders differ none uses a value that comes later. -/
theorem Unfolds.pairwise_not_uses (unfolds : graph.Unfolds value tree)
    (distinct : tree.inner.Nodup) :
    tree.inner.Pairwise fun first second =>
      ∀ add, graph.definingAdd first = some add → ¬ add.Uses second := by
  induction unfolds with
  | leaf => exact .nil
  | @node value own left right isOwn unfoldsLeft unfoldsRight leftPairwise rightPairwise =>
      rw [LabelledTree.inner] at distinct ⊢
      obtain ⟨below, -, fresh⟩ := List.nodup_append.mp distinct
      obtain ⟨leftDistinct, rightDistinct, apart⟩ := List.nodup_append.mp below
      refine List.pairwise_append.mpr ⟨List.pairwise_append.mpr ⟨leftPairwise leftDistinct,
        rightPairwise rightDistinct, ?_⟩, List.pairwise_singleton _ _, ?_⟩
      · intro first firstMem second secondMem add isAdd uses
        rcases unfoldsLeft.mem_of_uses firstMem isAdd uses with inside | leaf
        · exact apart second inside second secondMem rfl
        · obtain ⟨_, isAdder⟩ := unfoldsRight.exists_add secondMem
          cases (unfoldsLeft.leaf_not_add second leaf).symm.trans isAdder
      · intro first firstMem second secondMem add isAdd uses
        rw [List.mem_singleton.mp secondMem] at uses
        have outside : ∀ {top : Nat} {subtree : LabelledTree Nat}, graph.Unfolds top subtree →
            first ∈ subtree.inner → value ∉ subtree.inner → False := by
          intro top subtree unfolds mem notInside
          rcases unfolds.mem_of_uses mem isAdd uses with inside | leaf
          · exact notInside inside
          · cases (unfolds.leaf_not_add value leaf).symm.trans isOwn
        have notBelow : value ∉ left.inner ++ right.inner := fun mem =>
          fresh value mem value (List.mem_singleton_self value) rfl
        rcases List.mem_append.mp firstMem with leftMem | rightMem
        · exact outside unfoldsLeft leftMem fun mem => notBelow (List.mem_append_left _ mem)
        · exact outside unfoldsRight rightMem fun mem => notBelow (List.mem_append_right _ mem)

/-! ### The recursions -/

theorem Unfolds.collect_eq (unfolds : graph.Unfolds value tree) (enough : tree.height < fuel) :
    graph.collect op fuel value = some (tree.leaves, tree.inner.filter (· ≠ op)) := by
  induction unfolds generalizing fuel with
  | leaf isLeaf =>
      obtain ⟨fuel, rfl⟩ := Nat.exists_eq_succ_of_ne_zero (Nat.ne_of_gt enough)
      rw [collect, isLeaf]
      rfl
  | @node value add left right isAdd _ _ leftEq rightEq =>
      obtain ⟨fuel, rfl⟩ := Nat.exists_eq_succ_of_ne_zero (Nat.ne_zero_of_lt enough)
      rw [LabelledTree.height] at enough
      rw [collect, isAdd]
      dsimp only
      rw [leftEq (by omega), rightEq (by omega), LabelledTree.inner, LabelledTree.leaves,
        List.filter_append, List.filter_append]
      by_cases same : value = op <;> simp [same]

theorem Unfolds.computeAddTreeHeight_eq (unfolds : graph.Unfolds value tree)
    (enough : tree.height < fuel) :
    graph.computeAddTreeHeight fuel value = some tree.height := by
  induction unfolds generalizing fuel with
  | leaf isLeaf =>
      obtain ⟨fuel, rfl⟩ := Nat.exists_eq_succ_of_ne_zero (Nat.ne_of_gt enough)
      rw [computeAddTreeHeight, isLeaf]
      rfl
  | @node value add left right isAdd _ _ leftEq rightEq =>
      obtain ⟨fuel, rfl⟩ := Nat.exists_eq_succ_of_ne_zero (Nat.ne_zero_of_lt enough)
      rw [LabelledTree.height] at enough ⊢
      rw [computeAddTreeHeight, isAdd]
      dsimp only
      rw [leftEq (by omega), rightEq (by omega)]
      rfl

/-- The recursion only ends on a value that has a tree, and within the fuel. -/
theorem unfolds_of_computeAddTreeHeight {height : Nat}
    (computes : graph.computeAddTreeHeight fuel value = some height) :
    ∃ tree, graph.Unfolds value tree ∧ tree.height < fuel := by
  induction fuel generalizing value height with
  | zero => cases computes
  | succ fuel inductionHypothesis =>
      rw [computeAddTreeHeight] at computes
      cases isAdd : graph.definingAdd value with
      | none => exact ⟨.leaf value, .leaf isAdd, Nat.succ_pos fuel⟩
      | some add =>
          rw [isAdd] at computes
          obtain ⟨leftHeight, isLeft, computes⟩ := Option.bind_eq_some_iff.mp computes
          obtain ⟨rightHeight, isRight, -⟩ := Option.bind_eq_some_iff.mp computes
          obtain ⟨left, unfoldsLeft, leftLt⟩ := inductionHypothesis isLeft
          obtain ⟨right, unfoldsRight, rightLt⟩ := inductionHypothesis isRight
          refine ⟨.node value left right, .node isAdd unfoldsLeft unfoldsRight, ?_⟩
          rw [LabelledTree.height]
          omega

end Graph

end Dynamatic.TreeHeight
