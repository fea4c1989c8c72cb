/-!
# Forests given by parents

A node of a forest knows the node above it. A place is a node or, above every
root, nothing at all; the chain of a place lists the nodes at and above it, the
innermost first. Two places have a meet: the place whose chain is what their
chains share.
-/

namespace Dynamatic.LoopNest

universe u

/-- Every node names the one above it; the rank falls on the way up. -/
structure ParentForest (Node : Type u) where
  parent : Node → Option Node
  rank : Node → Nat
  rank_parent : ∀ {node above}, parent node = some above → rank above < rank node

namespace ParentForest

variable {Node : Type u} (forest : ParentForest Node)

/-- The nodes met on at most `fuel` steps up from a place. -/
def chainUpTo : Nat → Option Node → List Node
  | 0, _ => []
  | _ + 1, none => []
  | fuel + 1, some node => node :: chainUpTo fuel (forest.parent node)

/-- Fuel that suffices for the whole chain of a place. -/
def height : Option Node → Nat
  | none => 0
  | some node => forest.rank node + 1

/-- The nodes at and above a place, the innermost first. -/
def chain (place : Option Node) : List Node :=
  forest.chainUpTo (forest.height place) place

/-- How many nodes are at or above a place. -/
def depth (place : Option Node) : Nat :=
  (forest.chain place).length

theorem height_parent (node : Node) :
    forest.height (forest.parent node) ≤ forest.rank node := by
  cases above : forest.parent node with
  | none => exact Nat.zero_le _
  | some outer => exact forest.rank_parent above

/-- Fuel past the height of the place changes nothing. -/
theorem chainUpTo_congr {first second : Nat} {place : Option Node}
    (enough : forest.height place ≤ first) (enough' : forest.height place ≤ second) :
    forest.chainUpTo first place = forest.chainUpTo second place := by
  induction first generalizing second place with
  | zero =>
    cases place with
    | none => cases second <;> rfl
    | some node => exact absurd enough (Nat.not_succ_le_zero _)
  | succ first ih =>
    cases place with
    | none => cases second <;> rfl
    | some node =>
      cases second with
      | zero => exact absurd enough' (Nat.not_succ_le_zero _)
      | succ second =>
        have above := forest.height_parent node
        rw [chainUpTo, chainUpTo, ih (Nat.le_trans above (Nat.le_of_succ_le_succ enough))
          (Nat.le_trans above (Nat.le_of_succ_le_succ enough'))]

@[simp] theorem chain_some (node : Node) :
    forest.chain (some node) = node :: forest.chain (forest.parent node) := by
  rw [chain, height, chainUpTo, chain,
    forest.chainUpTo_congr (forest.height_parent node) (Nat.le_refl _)]

@[simp] theorem depth_some (node : Node) :
    forest.depth (some node) = forest.depth (forest.parent node) + 1 := by
  rw [depth, chain_some, List.length_cons, depth]

theorem mem_chain_self (node : Node) : node ∈ forest.chain (some node) := by
  rw [chain_some]
  exact List.mem_cons_self

/-- The chain of a node in it ends a chain. -/
theorem chain_suffix {place : Option Node} {outer : Node} (mem : outer ∈ forest.chain place) :
    forest.chain (some outer) <:+ forest.chain place := by
  generalize measure : forest.depth place = depth
  induction depth generalizing place with
  | zero => rw [List.eq_nil_of_length_eq_zero measure] at mem; exact absurd mem List.not_mem_nil
  | succ depth ih =>
    cases place with
    | none => exact absurd mem List.not_mem_nil
    | some node =>
      rw [depth_some] at measure
      rw [forest.chain_some node] at mem ⊢
      cases List.mem_cons.mp mem with
      | inl same =>
        subst same
        exact ⟨[], by rw [List.nil_append, chain_some]⟩
      | inr above =>
        exact List.IsSuffix.trans (ih above (Nat.succ.inj measure)) (List.suffix_cons _ _)

theorem depth_le_of_mem {place : Option Node} {outer : Node}
    (mem : outer ∈ forest.chain place) : forest.depth (some outer) ≤ forest.depth place :=
  (forest.chain_suffix mem).length_le

theorem mem_chain_trans {place : Option Node} {middle outer : Node}
    (above : outer ∈ forest.chain (some middle)) (mem : middle ∈ forest.chain place) :
    outer ∈ forest.chain place :=
  (forest.chain_suffix mem).subset above

/-- No node is at or above a place that is less deep than it. -/
theorem not_mem_of_depth_lt {place : Option Node} {node : Node}
    (deeper : forest.depth place < forest.depth (some node)) : node ∉ forest.chain place :=
  fun mem => absurd (forest.depth_le_of_mem mem) (Nat.not_le_of_lt deeper)

/-- The chain of the meet is what two chains share. -/
def IsMeet (meet first second : Option Node) : Prop :=
  ∀ node, node ∈ forest.chain meet ↔ node ∈ forest.chain first ∧ node ∈ forest.chain second

variable {forest}

theorem IsMeet.refl (place : Option Node) : forest.IsMeet place place place :=
  fun _ => (and_self_iff).symm

theorem IsMeet.symm {meet first second : Option Node} (isMeet : forest.IsMeet meet first second) :
    forest.IsMeet meet second first :=
  fun node => (isMeet node).trans and_comm

/-- A node that is not above the other place can be left. -/
theorem IsMeet.of_parent {meet second : Option Node} {node : Node}
    (isMeet : forest.IsMeet meet (forest.parent node) second)
    (beside : node ∉ forest.chain second) : forest.IsMeet meet (some node) second := by
  intro outer
  rw [isMeet outer, chain_some, List.mem_cons]
  constructor
  · rintro ⟨above, mem⟩
    exact ⟨.inr above, mem⟩
  · rintro ⟨same | above, mem⟩
    · subst same
      exact absurd mem beside
    · exact ⟨above, mem⟩

/-- Of two nodes equally deep both can be left. -/
theorem IsMeet.of_parents {meet : Option Node} {first second : Node}
    (isMeet : forest.IsMeet meet (forest.parent first) (forest.parent second))
    (level : forest.depth (some first) = forest.depth (some second)) (distinct : first ≠ second) :
    forest.IsMeet meet (some first) (some second) := by
  have shallow : forest.depth (forest.parent first) < forest.depth (some second) := by
    rw [← level, depth_some]
    exact Nat.lt_succ_self _
  have halfway : forest.IsMeet meet (forest.parent first) (some second) :=
    (isMeet.symm.of_parent (forest.not_mem_of_depth_lt shallow)).symm
  refine halfway.of_parent fun mem => ?_
  rw [chain_some, List.mem_cons] at mem
  cases mem with
  | inl same => exact distinct same
  | inr above =>
    have bound := forest.depth_le_of_mem above
    rw [level, depth_some] at bound
    exact absurd bound (Nat.not_succ_le_self _)

/-- A meet that is a node is at or above both, and below all such nodes. -/
theorem IsMeet.innermost {meet : Node} {first second : Option Node}
    (isMeet : forest.IsMeet (some meet) first second) :
    (meet ∈ forest.chain first ∧ meet ∈ forest.chain second) ∧
      ∀ outer, outer ∈ forest.chain first → outer ∈ forest.chain second →
        outer ∈ forest.chain (some meet) :=
  ⟨(isMeet meet).mp (forest.mem_chain_self meet), fun outer inFirst inSecond =>
    (isMeet outer).mpr ⟨inFirst, inSecond⟩⟩

/-- A node at or above both places is no deeper than their meet. -/
theorem IsMeet.depth_le {meet first second : Option Node} {outer : Node}
    (isMeet : forest.IsMeet meet first second) (inFirst : outer ∈ forest.chain first)
    (inSecond : outer ∈ forest.chain second) : forest.depth (some outer) ≤ forest.depth meet :=
  forest.depth_le_of_mem ((isMeet outer).mpr ⟨inFirst, inSecond⟩)

end ParentForest

end Dynamatic.LoopNest
