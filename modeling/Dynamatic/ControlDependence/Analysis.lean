import Dynamatic.ControlFlow.PostDominance
import Mathlib.Algebra.Order.BigOperators.Group.Finset
import Mathlib.Data.Fintype.BigOperators

/-!
# Control dependence analysis

`identifyAllControlDeps` follows the tree of postdominators from the nearest common one of
an edge's ends down to the successor; `addDepsOfDeps` adds the dependences of dependences
until nothing changes.
-/

namespace Dynamatic.ControlDependence

open ControlFlow

/-- A region whose blocks are given by their numbers. -/
structure Region (size : Nat) where
  front : Fin size
  successors : Fin size → List (Fin size)

/-- The answers of the postdominance analysis for a region. A node of the tree is a block, or
the root above all of them, `none`. -/
structure PostDominanceInfo (size : Nat) where
  properlyPostDominates : Fin size → Fin size → Bool
  findNearestCommonDominator : Fin size → Fin size → Option (Fin size)
  children : Option (Fin size) → List (Fin size)

/-- The answers are those for the paths of the region to its exits, which blocks without
successors are. -/
structure PostDominanceInfo.Documented {size : Nat} (info : PostDominanceInfo size)
    (region : Region size) (exits : List (Fin size)) : Prop where
  returns : ∀ block, region.successors block = [] → block ∈ exits
  leads : LeadsToExits region.successors exits
  properlyPostDominates_iff : ∀ goal block, info.properlyPostDominates goal block = true ↔
    StrictPostDom region.successors exits goal block
  common_iff : ∀ first second goal,
    PostDom region.successors exits goal first ∧ PostDom region.successors exits goal second ↔
      ∃ nearest ∈ info.findNearestCommonDominator first second,
        PostDom region.successors exits goal nearest
  mem_children : ∀ parent child,
    child ∈ info.children parent ↔ Immediate region.successors exits parent child

/-- The sets of blocks on which the blocks depend. -/
abbrev Deps (size : Nat) := Fin size → Finset (Fin size)

section Analysis

variable {size : Nat}

/-- The path down the tree from one node to another, if there is one. -/
def enumeratePathsInPostDomTree (info : PostDominanceInfo size) :
    Nat → Option (Fin size) → Option (Fin size) → Option (List (Option (Fin size)))
  | 0, _, _ => none
  | depth + 1, startNode, endNode =>
      if startNode = endNode then some [startNode]
      else ((info.children startNode).findSome? fun node =>
        enumeratePathsInPostDomTree info depth (some node) endNode).map (startNode :: ·)

def insertDep (deps : Deps size) (block dep : Fin size) : Deps size :=
  Function.update deps block (insert dep (deps block))

/-- The blocks on the path depend on the block, but for the ends of the path and the block. -/
def insertOnPath (leastCommonAnc : Option (Fin size)) (bb successor : Fin size) (deps : Deps size)
    (domInfo : Option (Fin size)) : Deps size :=
  match domInfo with
  | none => deps
  | some blockInPath =>
      if some blockInPath = leastCommonAnc ∨ blockInPath = bb ∨ blockInPath = successor then deps
      else insertDep deps blockInPath bb

/-- An edge makes blocks depend on the block where it starts. -/
def depsOfEdge (info : PostDominanceInfo size) (bb : Fin size) (deps : Deps size)
    (successor : Fin size) : Deps size :=
  if info.properlyPostDominates successor bb then deps
  else
    let leastCommonAnc := info.findNearestCommonDominator successor bb
    let path := (enumeratePathsInPostDomTree info (size + 1) leastCommonAnc (some successor)).getD []
    path.foldl (insertOnPath leastCommonAnc bb successor) (insertDep deps successor bb)

/-- The dependences that the edges of the region give. -/
def depsOfEdges (region : Region size) (info : PostDominanceInfo size) : Deps size :=
  (List.finRange size).foldl
    (fun deps bb => (region.successors bb).foldl (depsOfEdge info bb) deps) fun _ => ∅

/-- Move the dependences of a block's dependences into the block's own. -/
def addDepsOfBlock (state : Deps size × Bool) (block : Fin size) : Deps size × Bool :=
  let (deps, changed) := state
  let blockDeps := deps block ∪ (deps block).biUnion deps
  (Function.update deps block blockDeps, changed || blockDeps ≠ deps block)

/-- Pass over the blocks until a pass changes nothing. -/
def addDepsOfDeps : Nat → Deps size → Deps size
  | 0, deps => deps
  | passes + 1, deps =>
      let (deps, changed) := (List.finRange size).foldl addDepsOfBlock (deps, false)
      if changed then addDepsOfDeps passes deps else deps

/-- As many passes as there are pairs of blocks, and one that changes nothing. -/
def identifyAllControlDeps (region : Region size) (info : PostDominanceInfo size) : Deps size :=
  if size = 1 then fun _ => ∅
  else addDepsOfDeps (size * size + 1) (depsOfEdges region info)

end Analysis

/-! ### Paths down the tree -/

section Tree

variable {size : Nat} {info : PostDominanceInfo size} {region : Region size}
  {exits : List (Fin size)}

/-- Whether a node is above a block in the tree, or the block itself. -/
def Above (region : Region size) (exits : List (Fin size)) (node : Option (Fin size))
    (block : Fin size) : Prop :=
  ∀ goal ∈ node, PostDom region.successors exits goal block

/-- What is below a child is below its parent. -/
theorem Above.of_child {parent : Option (Fin size)} {child block : Fin size}
    (immediate : Immediate region.successors exits parent child)
    (below : PostDom region.successors exits child block) : Above region exits parent block := by
  intro goal isParent
  cases isParent
  exact immediate.1.2.trans below

/-- A path that is found leads down. -/
theorem above_of_enumeratePaths (documented : info.Documented region exits) {depth : Nat}
    {startNode : Option (Fin size)} {endBlock : Fin size} {path : List (Option (Fin size))}
    (found : enumeratePathsInPostDomTree info depth startNode (some endBlock) = some path) :
    Above region exits startNode endBlock := by
  induction depth generalizing startNode path with
  | zero => cases found
  | succ depth inductionHypothesis =>
      rw [enumeratePathsInPostDomTree] at found
      split at found
      · rename_i same
        rw [same]
        intro goal isGoal
        cases isGoal
        exact .refl endBlock
      · obtain ⟨rest, foundRest, _⟩ := Option.map_eq_some_iff.mp found
        obtain ⟨child, isChild, foundChild⟩ := List.exists_of_findSome?_eq_some foundRest
        exact .of_child ((documented.mem_children startNode child).mp isChild)
          (inductionHypothesis foundChild child rfl)

/-- The blocks on a path that is found are those between its ends. -/
theorem mem_enumeratePaths (documented : info.Documented region exits) {depth : Nat}
    {startNode : Option (Fin size)} {endBlock : Fin size} {path : List (Option (Fin size))}
    (found : enumeratePathsInPostDomTree info depth startNode (some endBlock) = some path)
    (block : Fin size) :
    some block ∈ path ↔ Above region exits startNode block ∧
      PostDom region.successors exits block endBlock := by
  have isAbove := above_of_enumeratePaths documented found
  induction depth generalizing startNode path with
  | zero => cases found
  | succ depth inductionHypothesis =>
      rw [enumeratePathsInPostDomTree] at found
      split at found
      · rename_i same
        cases found
        subst same
        rw [List.mem_singleton, Option.some.injEq]
        constructor
        · rintro rfl
          exact ⟨isAbove, .refl block⟩
        · rintro ⟨above, below⟩
          exact below.antisymm documented.leads (above endBlock rfl)
      · obtain ⟨rest, foundRest, rfl⟩ := Option.map_eq_some_iff.mp found
        obtain ⟨child, isChild, foundChild⟩ := List.exists_of_findSome?_eq_some foundRest
        have immediate := (documented.mem_children startNode child).mp isChild
        have childAbove := above_of_enumeratePaths documented foundChild
        have onRest := inductionHypothesis foundChild childAbove
        rw [List.mem_cons]
        refine (or_congr_right onRest).trans ?_
        constructor
        · rintro (isStart | ⟨above, below⟩)
          · subst isStart
            exact ⟨fun goal isGoal => by cases isGoal; exact .refl block, isAbove block rfl⟩
          · exact ⟨.of_child immediate (above child rfl), below⟩
        · rintro ⟨above, below⟩
          rcases (childAbove child rfl).total documented.leads below with inside | atop
          · exact .inr ⟨fun goal isGoal => by cases isGoal; exact inside, below⟩
          · by_cases same : block = child
            · subst same
              exact .inr ⟨fun goal isGoal => by cases isGoal; exact .refl block, below⟩
            · refine .inl ?_
              cases startNode with
              | none => exact absurd (immediate block atop) same
              | some parent =>
                  have higher := immediate.2 block ⟨same, atop⟩
                  exact congrArg some (higher.antisymm documented.leads (above parent rfl))

/-- How many nodes a path down from a node can have. -/
def height (region : Region size) (exits : List (Fin size)) : Option (Fin size) → Nat
  | none => size + 1
  | some block => (subtree region.successors exits block).card

theorem height_child_lt (leads : LeadsToExits region.successors exits)
    {parent : Option (Fin size)} {child : Fin size}
    (immediate : Immediate region.successors exits parent child) :
    height region exits (some child) < height region exits parent := by
  cases parent with
  | none =>
      have few := Finset.card_le_univ (subtree region.successors exits child)
      rw [Fintype.card_fin] at few
      exact Nat.lt_succ_of_le few
  | some parent => exact immediate.1.card_lt leads

/-- A path down is found if there is one. -/
theorem exists_enumeratePaths (documented : info.Documented region exits) {depth : Nat}
    {startNode : Option (Fin size)} {endBlock : Fin size}
    (above : Above region exits startNode endBlock)
    (enough : height region exits startNode ≤ depth) :
    ∃ path, enumeratePathsInPostDomTree info depth startNode (some endBlock) = some path := by
  induction depth generalizing startNode with
  | zero =>
      cases startNode with
      | none => exact absurd enough (Nat.not_succ_le_zero size)
      | some start =>
          have nonempty : 0 < (subtree region.successors exits start).card :=
            Finset.card_pos.mpr ⟨start, mem_subtree.mpr (.refl start)⟩
          exact absurd (Nat.lt_of_lt_of_le nonempty enough) (Nat.lt_irrefl 0)
  | succ depth inductionHypothesis =>
      rw [enumeratePathsInPostDomTree]
      split
      · exact ⟨_, rfl⟩
      · rename_i differs
        have below : Below region.successors exits startNode endBlock := by
          intro goal isStart
          cases isStart
          exact ⟨fun same => differs (congrArg some same), above goal rfl⟩
        obtain ⟨child, immediate, further⟩ := exists_child documented.leads below
        have lower := height_child_lt documented.leads immediate
        have childAbove : Above region exits (some child) endBlock := by
          intro goal isChild
          cases isChild
          exact further
        obtain ⟨path, found⟩ := inductionHypothesis childAbove (by omega)
        have isChild := (documented.mem_children startNode child).mpr immediate
        cases foundRest : (info.children startNode).findSome? fun node =>
            enumeratePathsInPostDomTree info depth (some node) (some endBlock) with
        | some rest => exact ⟨_, rfl⟩
        | none =>
            have missed := List.findSome?_eq_none_iff.mp foundRest child isChild
            rw [found] at missed
            cases missed

end Tree

/-! ### Dependences of edges -/

section Edges

variable {size : Nat} {info : PostDominanceInfo size} {region : Region size}
  {exits : List (Fin size)} {a bb successor block : Fin size}

/-- A fold in which each item adds its dependences adds those of all items. -/
theorem mem_foldl_deps {Item : Type} {f : Deps size → Item → Deps size}
    {adds : Item → Fin size → Fin size → Prop}
    (spec : ∀ deps item a block, a ∈ f deps item block ↔ a ∈ deps block ∨ adds item a block)
    (items : List Item) (deps : Deps size) (a block : Fin size) :
    a ∈ items.foldl f deps block ↔ a ∈ deps block ∨ ∃ item ∈ items, adds item a block := by
  induction items generalizing deps with
  | nil => simp
  | cons item items inductionHypothesis =>
      rw [List.foldl_cons, inductionHypothesis, spec, or_assoc]
      simp

@[simp]
theorem mem_insertDep {deps : Deps size} {dep : Fin size} :
    a ∈ insertDep deps bb dep block ↔ a ∈ deps block ∨ (a = dep ∧ block = bb) := by
  rw [insertDep]
  by_cases same : block = bb
  · subst same
    simp [or_comm]
  · simp [same]

theorem mem_insertOnPath {leastCommonAnc domInfo : Option (Fin size)} {deps : Deps size} :
    a ∈ insertOnPath leastCommonAnc bb successor deps domInfo block ↔
      a ∈ deps block ∨ (a = bb ∧ some block = domInfo ∧ some block ≠ leastCommonAnc ∧
        block ≠ bb ∧ block ≠ successor) := by
  cases domInfo with
  | none => simp [insertOnPath]
  | some blockInPath =>
      rw [insertOnPath]
      split
      · rename_i isEnd
        refine ⟨.inl, ?_⟩
        rintro (mem | ⟨_, same, apart⟩)
        · exact mem
        · cases same
          rcases isEnd with isEnd | isEnd | isEnd
          · exact absurd isEnd apart.1
          · exact absurd isEnd apart.2.1
          · exact absurd isEnd apart.2.2
      · rename_i inside
        rw [mem_insertDep]
        refine or_congr_right (and_congr_right fun _ => ?_)
        constructor
        · rintro rfl
          exact ⟨rfl, by simpa only [not_or] using inside⟩
        · rintro ⟨same, _⟩
          exact Option.some.inj same

/-- What an edge makes depend on the block where it starts. -/
def EdgeDependent (region : Region size) (info : PostDominanceInfo size) (exits : List (Fin size))
    (bb successor block : Fin size) : Prop :=
  ¬ StrictPostDom region.successors exits successor bb ∧
    (block = successor ∨
      (Above region exits (info.findNearestCommonDominator successor bb) block ∧
        PostDom region.successors exits block successor) ∧
        some block ≠ info.findNearestCommonDominator successor bb ∧ block ≠ bb ∧
        block ≠ successor)

theorem mem_depsOfEdge (documented : info.Documented region exits) (deps : Deps size)
    (successor a block : Fin size) :
    a ∈ depsOfEdge info bb deps successor block ↔
      a ∈ deps block ∨ (a = bb ∧ EdgeDependent region info exits bb successor block) := by
  rw [depsOfEdge, EdgeDependent]
  split
  · rename_i strict
    have isStrict := (documented.properlyPostDominates_iff successor bb).mp strict
    simp [isStrict]
  · rename_i notStrict
    have apart : ¬ StrictPostDom region.successors exits successor bb := fun strict =>
      notStrict ((documented.properlyPostDominates_iff successor bb).mpr strict)
    have isAbove : Above region exits (info.findNearestCommonDominator successor bb) successor :=
      fun nearest isNearest =>
        ((documented.common_iff successor bb nearest).mpr ⟨nearest, isNearest, .refl nearest⟩).1
    have enough : height region exits (info.findNearestCommonDominator successor bb)
        ≤ size + 1 := by
      cases info.findNearestCommonDominator successor bb with
      | none => exact Nat.le_refl _
      | some nearest =>
          have few := Finset.card_le_univ (subtree region.successors exits nearest)
          rw [Fintype.card_fin] at few
          exact Nat.le_succ_of_le few
    obtain ⟨path, found⟩ := exists_enumeratePaths documented isAbove enough
    dsimp only
    rw [found, Option.getD_some, mem_foldl_deps (fun _ _ _ _ => mem_insertOnPath), mem_insertDep]
    have onPath := mem_enumeratePaths documented found block
    constructor
    · rintro ((mem | ⟨rfl, rfl⟩) | ⟨_, mem, rfl, rfl, further⟩)
      · exact .inl mem
      · exact .inr ⟨rfl, apart, .inl rfl⟩
      · exact .inr ⟨rfl, apart, .inr ⟨onPath.mp mem, further⟩⟩
    · rintro (mem | ⟨rfl, _, rfl | ⟨between, further⟩⟩)
      · exact .inl (.inl mem)
      · exact .inl (.inr ⟨rfl, rfl⟩)
      · exact .inr ⟨some block, onPath.mpr between, rfl, rfl, further⟩

theorem mem_depsOfEdges (documented : info.Documented region exits) :
    a ∈ depsOfEdges region info block ↔
      ∃ successor ∈ region.successors a, EdgeDependent region info exits a successor block := by
  have perBlock : ∀ (deps : Deps size) (bb a block : Fin size),
      a ∈ (region.successors bb).foldl (depsOfEdge info bb) deps block ↔ a ∈ deps block ∨
        (a = bb ∧ ∃ successor ∈ region.successors bb,
          EdgeDependent region info exits bb successor block) := by
    intro deps bb a block
    rw [mem_foldl_deps (mem_depsOfEdge documented)]
    refine or_congr_right ?_
    constructor
    · rintro ⟨successor, edge, same, dependent⟩
      exact ⟨same, successor, edge, dependent⟩
    · rintro ⟨same, successor, edge, dependent⟩
      exact ⟨successor, edge, same, dependent⟩
  rw [depsOfEdges, mem_foldl_deps perBlock]
  constructor
  · rintro (mem | ⟨_, _, rfl, further⟩)
    · cases mem
    · exact further
  · intro further
    exact .inr ⟨a, List.mem_finRange a, rfl, further⟩

/-- What an edge makes depend on a block does depend on it. -/
theorem EdgeDependent.dependsOn (documented : info.Documented region exits)
    (edge : successor ∈ region.successors bb)
    (dependent : EdgeDependent region info exits bb successor block) :
    DependsOn region.successors exits block bb := by
  obtain ⟨notStrict, rfl | ⟨⟨above, below⟩, notNearest, _, _⟩⟩ := dependent
  · exact ⟨block, edge, .refl block, notStrict⟩
  · refine ⟨successor, edge, below, fun strict => ?_⟩
    obtain ⟨nearest, isNearest, atop⟩ :=
      (documented.common_iff successor bb block).mp ⟨below, strict.2⟩
    have same := atop.antisymm documented.leads (above nearest isNearest)
    exact notNearest (same ▸ isNearest.symm)

/-- Of two different blocks, one depends on the other as an edge says. -/
theorem edgeDependent_of_dependsOn (documented : info.Documented region exits) (differs : block ≠ bb)
    (depends : DependsOn region.successors exits block bb) :
    ∃ successor ∈ region.successors bb, EdgeDependent region info exits bb successor block := by
  obtain ⟨successor, edge, below, notStrict⟩ := depends
  have notOver : ¬ PostDom region.successors exits block bb :=
    fun atop => notStrict ⟨differs, atop⟩
  refine ⟨successor, edge, fun strict => notOver (below.trans strict.2), ?_⟩
  by_cases same : block = successor
  · exact .inl same
  · refine .inr ⟨⟨fun nearest isNearest => ?_, below⟩, fun isNearest => ?_, differs, same⟩
    · obtain ⟨onSuccessor, onBlock⟩ :=
        (documented.common_iff successor bb nearest).mpr ⟨nearest, isNearest, .refl nearest⟩
      rcases onSuccessor.total documented.leads below with above | atop
      · exact above
      · exact absurd (atop.trans onBlock) notOver
    · exact notOver ((documented.common_iff successor bb block).mpr
        ⟨block, isNearest.symm, .refl block⟩).2

end Edges

end Dynamatic.ControlDependence
