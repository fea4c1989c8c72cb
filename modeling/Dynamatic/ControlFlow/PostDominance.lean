import Dynamatic.ControlFlow.Preorder
import Mathlib.Data.Finset.Max

/-!
# Postdominance in graphs with cycles

A node postdominates those from which every path to an exit comes through it, and dominates
those to which every path from the entry does. Where every node leads to an exit, the
postdominators of a node come one after the other, and each node but the last ones has an
immediate one. A node depends on a branch with a successor that it postdominates where it
does not postdominate the branch.
-/

namespace Dynamatic.ControlFlow

variable {Node : Type}

/-- Every path from the node to an exit comes through the goal. -/
def PostDom (successors : Node → List Node) (exits : List Node) (goal node : Node) : Prop :=
  ∀ last ∈ exits, ¬ Reach successors (· ∈ [goal]) node last

def StrictPostDom (successors : Node → List Node) (exits : List Node) (goal node : Node) : Prop :=
  goal ≠ node ∧ PostDom successors exits goal node

/-- Every path from the entry to the node comes through the goal. -/
def Dom (successors : Node → List Node) (entry goal node : Node) : Prop :=
  ¬ Reach successors (· ∈ [goal]) entry node

/-- The node postdominates one of the ways from the branch, and not the branch. -/
def DependsOn (successors : Node → List Node) (exits : List Node) (node branch : Node) : Prop :=
  ∃ next ∈ successors branch, PostDom successors exits node next ∧
    ¬ StrictPostDom successors exits node branch

/-- Every node leads to an exit. -/
def LeadsToExits (successors : Node → List Node) (exits : List Node) : Prop :=
  ∀ node, ∃ last ∈ exits, Reach successors (· ∈ ([] : List Node)) node last

/-- The next node up the tree of postdominators; the last ones are below a root of their own. -/
def Immediate (successors : Node → List Node) (exits : List Node) : Option Node → Node → Prop
  | none, node => ∀ goal, PostDom successors exits goal node → goal = node
  | some parent, node => StrictPostDom successors exits parent node ∧
      ∀ goal, StrictPostDom successors exits goal node → PostDom successors exits goal parent

variable {successors : Node → List Node} {exits : List Node} {goal other node : Node}

section Order

theorem PostDom.refl (node : Node) : PostDom successors exits node node :=
  fun _ _ reach => reach.free_first (.head _)

theorem PostDom.trans (further : PostDom successors exits goal other)
    (postDom : PostDom successors exits other node) : PostDom successors exits goal node := by
  intro last isExit reach
  rcases reach.around_or_through (· ∈ [other]) with around | ⟨member, isOther, _, rest⟩
  · exact postDom last isExit (around.mono fun _ => .inr)
  · rw [List.mem_singleton.mp isOther] at rest
    exact further last isExit rest

theorem PostDom.next {next : Node} (postDom : PostDom successors exits goal node)
    (differs : goal ≠ node) (edge : next ∈ successors node) :
    PostDom successors exits goal next := fun last isExit reach =>
  postDom last isExit (.step (fun mem => differs (List.mem_singleton.mp mem).symm) edge reach)

/-- The postdominators of a node come one after the other. -/
theorem PostDom.total (leads : LeadsToExits successors exits)
    (postDom : PostDom successors exits goal node) (also : PostDom successors exits other node) :
    PostDom successors exits goal other ∨ PostDom successors exits other goal := by
  obtain ⟨last, isExit, reach⟩ := leads node
  induction reach with
  | @here node =>
      by_cases same : goal = node
      · exact .inr (same ▸ also)
      · exact absurd (.here fun mem => same (List.mem_singleton.mp mem).symm)
          (postDom node isExit)
  | @step node next last _ edge _ inductionHypothesis =>
      by_cases same : goal = node
      · exact .inr (same ▸ also)
      · by_cases sameOther : other = node
        · exact .inl (sameOther ▸ postDom)
        · exact inductionHypothesis (postDom.next same edge) (also.next sameOther edge) isExit

/-- A path stays around some nodes, or passes one of them for the last time. -/
theorem Reach.last_visit {avoid : Node → Prop} {last : Node}
    (reach : Reach successors avoid node last) (members : Node → Prop) :
    Reach successors members node last ∨ ∃ member, members member ∧
      (member = last ∨ ∃ next ∈ successors member, Reach successors members next last) := by
  induction reach with
  | @here node =>
      by_cases mem : members node
      · exact .inr ⟨node, mem, .inl rfl⟩
      · exact .inl (.here mem)
  | @step node next last _ edge _ inductionHypothesis =>
      rcases inductionHypothesis with around | later
      · by_cases mem : members node
        · exact .inr ⟨node, mem, .inr ⟨next, edge, around⟩⟩
        · exact .inl (.step mem edge around)
      · exact .inr later

theorem PostDom.antisymm (leads : LeadsToExits successors exits)
    (postDom : PostDom successors exits goal node) (back : PostDom successors exits node goal) :
    goal = node := by
  by_contra differs
  obtain ⟨last, isExit, reach⟩ := leads node
  -- past the last visit to one of the two, a path does not come through the other
  have leaves : ∀ {member other}, (member = goal ∧ other = node) ∨ (member = node ∧ other = goal) →
      (member = last ∨ ∃ next ∈ successors member,
        Reach successors (fun passed => passed = goal ∨ passed = node) next last) →
      Reach successors (· ∈ [other]) member last := by
    intro member other isPair further
    have apart : member ∉ [other] := by
      rcases isPair with ⟨rfl, rfl⟩ | ⟨rfl, rfl⟩
      · simpa using differs
      · simpa using Ne.symm differs
    rcases further with rfl | ⟨next, edge, around⟩
    · exact .here apart
    · refine .step apart edge (around.mono fun passed mem => ?_)
      rw [List.mem_singleton.mp mem]
      exact isPair.elim (fun pair => .inr pair.2) fun pair => .inl pair.2
  rcases reach.last_visit (fun passed => passed = goal ∨ passed = node) with
    around | ⟨member, rfl | rfl, further⟩
  · exact around.free_first (.inr rfl)
  · exact back last isExit (leaves (.inl ⟨rfl, rfl⟩) further)
  · exact postDom last isExit (leaves (.inr ⟨rfl, rfl⟩) further)

end Order

/-! ### Ranks -/

section Ranks

variable {rank : Node → Nat}

theorem Reach.rank_le {avoid : Node → Prop} {last : Node}
    (falls : ∀ node, ∀ next ∈ successors node, rank next < rank node)
    (reach : Reach successors avoid node last) : rank last ≤ rank node := by
  induction reach with
  | here => exact Nat.le_refl _
  | step _ edge _ inductionHypothesis =>
      exact inductionHypothesis.trans (Nat.le_of_lt (falls _ _ edge))

/-- Where ranks fall along the edges, control gets to a branch before what depends on it. -/
theorem DependsOn.rank_lt {branch : Node} (leads : LeadsToExits successors exits)
    (falls : ∀ node, ∀ next ∈ successors node, rank next < rank node)
    (depends : DependsOn successors exits node branch) : rank node < rank branch := by
  obtain ⟨next, edge, below, _⟩ := depends
  obtain ⟨last, isExit, reach⟩ := leads next
  rcases reach.around_or_through (· ∈ [node]) with around | ⟨member, isNode, before, _⟩
  · exact absurd (around.mono fun _ => .inr) (below last isExit)
  · rw [List.mem_singleton.mp isNode] at before
    exact Nat.lt_of_le_of_lt (before.rank_le falls) (falls branch next edge)

/-- Where ranks fall along the edges and only the exit has none, every node leads to it. -/
theorem leadsToExits_of_falls {exit : Node}
    (falls : ∀ node, ∀ next ∈ successors node, rank next < rank node)
    (goesOn : ∀ node, node ≠ exit → successors node ≠ []) : LeadsToExits successors [exit] := by
  intro node
  refine ⟨exit, List.mem_singleton_self exit, ?_⟩
  induction isRank : rank node using Nat.strong_induction_on generalizing node with
  | _ bound inductionHypothesis =>
      by_cases same : node = exit
      · exact same ▸ .here (List.not_mem_nil)
      · obtain ⟨next, edge⟩ := List.exists_mem_of_ne_nil _ (goesOn node same)
        have reach := inductionHypothesis (rank next) (isRank ▸ falls node next edge) next rfl
        exact .step List.not_mem_nil edge reach

end Ranks

/-! ### Nodes under other names -/

section Names

variable {Name : Type} {nodeOf : Name → Node} {next : Name → List Name} {ends : List Name}
  {name last : Name}

theorem reach_map_iff (injective : Function.Injective nodeOf)
    (maps : ∀ name, successors (nodeOf name) = (next name).map nodeOf) {avoid : Node → Prop} :
    Reach successors avoid (nodeOf name) (nodeOf last) ↔
      Reach next (fun name => avoid (nodeOf name)) name last := by
  constructor
  · intro reach
    generalize isNode : nodeOf name = node at reach
    generalize isLast : nodeOf last = lastNode at reach
    induction reach generalizing name with
    | here free =>
        rw [injective (isNode.trans isLast.symm)]
        exact .here (isLast ▸ free)
    | step free edge _ inductionHypothesis =>
        rw [← isNode, maps] at edge
        obtain ⟨further, isNext, isFurther⟩ := List.mem_map.mp edge
        exact .step (isNode ▸ free) isNext (inductionHypothesis isFurther isLast)
  · intro reach
    induction reach with
    | here free => exact .here free
    | step free edge _ inductionHypothesis =>
        exact .step free (maps _ ▸ List.mem_map_of_mem edge) inductionHypothesis

theorem postDom_map_iff (injective : Function.Injective nodeOf)
    (maps : ∀ name, successors (nodeOf name) = (next name).map nodeOf) {goal : Name} :
    PostDom successors (ends.map nodeOf) (nodeOf goal) (nodeOf name) ↔
      PostDom next ends goal name := by
  have around : (fun passed => nodeOf passed ∈ [nodeOf goal]) = (· ∈ [goal]) := by
    funext passed
    simp [injective.eq_iff]
  simp only [PostDom, List.forall_mem_map, reach_map_iff injective maps, around]

theorem dependsOn_map_iff (injective : Function.Injective nodeOf)
    (maps : ∀ name, successors (nodeOf name) = (next name).map nodeOf) {branch : Name} :
    DependsOn successors (ends.map nodeOf) (nodeOf name) (nodeOf branch) ↔
      DependsOn next ends name branch := by
  simp only [DependsOn, StrictPostDom, maps, List.mem_map, exists_exists_and_eq_and, ne_eq,
    injective.eq_iff, postDom_map_iff injective maps]

end Names

/-! ### The tree of postdominators -/

section Tree

variable [Fintype Node] [DecidableEq Node]

instance decidablePostDom (goal node : Node) : Decidable (PostDom successors exits goal node) :=
  inferInstanceAs (Decidable (∀ last ∈ exits, ¬ Reach successors (· ∈ [goal]) node last))

instance decidableStrictPostDom (goal node : Node) :
    Decidable (StrictPostDom successors exits goal node) :=
  inferInstanceAs (Decidable (goal ≠ node ∧ PostDom successors exits goal node))

instance decidableDom (entry goal node : Node) : Decidable (Dom successors entry goal node) :=
  inferInstanceAs (Decidable (¬ Reach successors (· ∈ [goal]) entry node))

instance decidableDependsOn (node branch : Node) :
    Decidable (DependsOn successors exits node branch) :=
  inferInstanceAs (Decidable (∃ next ∈ successors branch, PostDom successors exits node next ∧
    ¬ StrictPostDom successors exits node branch))

instance decidableLeadsToExits : Decidable (LeadsToExits successors exits) :=
  inferInstanceAs
    (Decidable (∀ node, ∃ last ∈ exits, Reach successors (· ∈ ([] : List Node)) node last))

instance decidableImmediate : (parent : Option Node) → (node : Node) →
    Decidable (Immediate successors exits parent node)
  | none, node => inferInstanceAs
      (Decidable (∀ goal, PostDom successors exits goal node → goal = node))
  | some parent, node => inferInstanceAs
      (Decidable (StrictPostDom successors exits parent node ∧
        ∀ goal, StrictPostDom successors exits goal node → PostDom successors exits goal parent))

/-- The nodes that are postdominated. -/
def subtree (successors : Node → List Node) (exits : List Node) (goal : Node) : Finset Node :=
  Finset.univ.filter (PostDom successors exits goal)

@[simp]
theorem mem_subtree : node ∈ subtree successors exits goal ↔ PostDom successors exits goal node := by
  simp [subtree]

theorem StrictPostDom.card_lt (leads : LeadsToExits successors exits)
    (strict : StrictPostDom successors exits goal node) :
    (subtree successors exits node).card < (subtree successors exits goal).card := by
  refine Finset.card_lt_card (Finset.ssubset_iff_of_subset ?_ |>.mpr ⟨goal, ?_, ?_⟩)
  · intro other mem
    exact mem_subtree.mpr (strict.2.trans (mem_subtree.mp mem))
  · exact mem_subtree.mpr (.refl goal)
  · exact fun mem => strict.1 (strict.2.antisymm leads (mem_subtree.mp mem))

/-- Among the common postdominators there is one that all others postdominate. -/
theorem exists_nearest (leads : LeadsToExits successors exits) {first second : Node}
    (onFirst : PostDom successors exits goal first)
    (onSecond : PostDom successors exits goal second) :
    ∃ nearest, PostDom successors exits nearest first ∧ PostDom successors exits nearest second ∧
      ∀ other, PostDom successors exits other first → PostDom successors exits other second →
        PostDom successors exits other nearest := by
  have nonempty : (Finset.univ.filter fun other => PostDom successors exits other first ∧
      PostDom successors exits other second).Nonempty := ⟨goal, by simp [onFirst, onSecond]⟩
  obtain ⟨nearest, mem, least⟩ := Finset.exists_min_image _
    (fun other => (subtree successors exits other).card) nonempty
  simp only [Finset.mem_filter, Finset.mem_univ, true_and] at mem least
  refine ⟨nearest, mem.1, mem.2, fun other isFirst isSecond => ?_⟩
  rcases isFirst.total leads mem.1 with above | below
  · exact above
  · by_cases same : nearest = other
    · exact same ▸ .refl nearest
    · have less := StrictPostDom.card_lt leads ⟨same, below⟩
      have notLess := least other ⟨isFirst, isSecond⟩
      omega

/-- The node is below the parent in the tree. -/
def Below (successors : Node → List Node) (exits : List Node) (parent : Option Node)
    (node : Node) : Prop :=
  ∀ goal ∈ parent, StrictPostDom successors exits goal node

/-- A node below a parent is below one of its children, or is one itself. -/
theorem exists_child (leads : LeadsToExits successors exits) {parent : Option Node}
    (below : Below successors exits parent node) :
    ∃ child, Immediate successors exits parent child ∧ PostDom successors exits child node := by
  classical
  have nonempty : (Finset.univ.filter fun other => PostDom successors exits other node ∧
      Below successors exits parent other).Nonempty :=
    ⟨node, by simp [below, PostDom.refl]⟩
  obtain ⟨child, mem, most⟩ := Finset.exists_max_image _
    (fun other => (subtree successors exits other).card) nonempty
  simp only [Finset.mem_filter, Finset.mem_univ, true_and] at mem most
  refine ⟨child, ?_, mem.1⟩
  -- nothing between the parent and the child postdominates the child
  have highest : ∀ {goal}, StrictPostDom successors exits goal child →
      ¬ Below successors exits parent goal := by
    intro goal strict isBelow
    have less := strict.card_lt leads
    have notLess := most goal ⟨strict.2.trans mem.1, isBelow⟩
    omega
  cases parent with
  | none =>
      intro goal postDom
      by_contra differs
      exact highest ⟨differs, postDom⟩ nofun
  | some parent =>
      have parentStrict : StrictPostDom successors exits parent child := mem.2 parent rfl
      refine ⟨parentStrict, fun goal strict => ?_⟩
      rcases strict.2.total leads parentStrict.2 with above | inside
      · exact above
      · by_cases same : parent = goal
        · exact same ▸ .refl parent
        · refine absurd ?_ (highest strict)
          rintro other isParent
          cases isParent
          exact ⟨same, inside⟩

end Tree

end Dynamatic.ControlFlow
