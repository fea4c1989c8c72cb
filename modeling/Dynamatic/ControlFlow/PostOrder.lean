import Mathlib.Data.List.Nodup
import Mathlib.Data.List.Perm.Subperm

/-!
# Depth-first post-order

`visit` lists a node behind its successors, as far as they are not already listed
or on the way down to it. Whatever the graph, every node that is listed has its
successors listed, and what was listed before stays.
-/

namespace Dynamatic.ControlFlow.PostOrder

variable {Node : Type} [DecidableEq Node]

/-- Go on to each of the nodes in turn that is neither on the way nor listed by then. -/
def visitAll (go : Node → List Node × List Node → List Node × List Node)
    (nodes : List Node) (state : List Node × List Node) : List Node × List Node :=
  nodes.foldl (fun (visited, order) node =>
    if node ∈ order ∨ node ∈ visited then (visited, order) else go node (visited, order)) state

/-- Visit a node, given the nodes on the way to it and the nodes listed. A successor on the way
closes a cycle and is left out. -/
def visit (next : Node → List Node) : Nat → Node → List Node × List Node → List Node × List Node
  | 0, _, state => state
  | fuel + 1, node, (visited, order) =>
      if node ∈ order then (visited, order)
      else
        let (visited, order) := visitAll (visit next fuel) (next node) (visited.insert node, order)
        (visited.filter (fun other => decide (other ≠ node)), order ++ [node])

/-- Nodes that are listed have their successors listed, but those listed before and those on the
way. -/
def ClosedBut (next : Node → List Node) (before visited order : List Node) : Prop :=
  ∀ node ∈ order, node ∈ before ∨ ∀ successor ∈ next node, successor ∈ order ∨ successor ∈ visited

/-- What is reached from a state in which some nodes are on the way and some listed. -/
structure Reached (next : Node → List Node) (way order : List Node)
    (result : List Node × List Node) : Prop where
  way_eq : result.1 = way
  kept : order ⊆ result.2
  closed : ClosedBut next order way result.2

variable {next : Node → List Node} {way order : List Node} {result : List Node × List Node}

omit [DecidableEq Node] in
theorem Reached.refl : Reached next way order (way, order) :=
  ⟨rfl, fun _ mem => mem, fun _ mem => .inl mem⟩

omit [DecidableEq Node] in
theorem Reached.trans {middle : List Node} (first : Reached next way order (way, middle))
    (second : Reached next way middle result) : Reached next way order result := by
  refine ⟨second.way_eq, List.Subset.trans first.kept second.kept, fun node mem => ?_⟩
  rcases second.closed node mem with old | new
  · rcases first.closed node old with older | listed
    · exact .inl older
    · refine .inr fun successor isNext => ?_
      exact (listed successor isNext).imp_left fun mem => second.kept mem
  · exact .inr new

/-- If each node that is gone on to is reached, all the nodes are listed or on the way. -/
theorem reached_visitAll {go : Node → List Node × List Node → List Node × List Node}
    {nodes : List Node}
    (goes : ∀ node ∈ nodes, ∀ order, node ∉ way →
      Reached next way order (go node (way, order)) ∧ node ∈ (go node (way, order)).2)
    (order : List Node) :
    Reached next way order (visitAll go nodes (way, order)) ∧
      ∀ node ∈ nodes, node ∈ (visitAll go nodes (way, order)).2 ∨ node ∈ way := by
  induction nodes generalizing order with
  | nil => exact ⟨.refl, fun _ mem => by cases mem⟩
  | cons node nodes inductionHypothesis =>
      have rest := inductionHypothesis fun other mem => goes other (List.mem_cons_of_mem _ mem)
      by_cases passed : node ∈ order ∨ node ∈ way
      · have step : visitAll go (node :: nodes) (way, order) = visitAll go nodes (way, order) := by
          simp only [visitAll, List.foldl_cons, if_pos passed]
        obtain ⟨reached, listed⟩ := rest order
        rw [step]
        refine ⟨reached, fun other mem => ?_⟩
        rcases List.mem_cons.mp mem with rfl | later
        · exact passed.imp_left fun mem => reached.kept mem
        · exact listed other later
      · obtain ⟨first, here⟩ :=
          goes node List.mem_cons_self order fun mem => passed (.inr mem)
        obtain ⟨middle, isMiddle⟩ : ∃ middle, go node (way, order) = (way, middle) :=
          ⟨_, Prod.ext first.way_eq rfl⟩
        have step : visitAll go (node :: nodes) (way, order) = visitAll go nodes (way, middle) := by
          simp only [visitAll, List.foldl_cons, if_neg passed, isMiddle]
        obtain ⟨reached, listed⟩ := rest middle
        rw [isMiddle] at first here
        rw [step]
        refine ⟨first.trans reached, fun other mem => ?_⟩
        rcases List.mem_cons.mp mem with rfl | later
        · exact .inl (reached.kept here)
        · exact listed other later

/-- With fuel for every node that is not on the way, a visit lists its node. -/
theorem reached_visit {nodes : List Node} (closed : ∀ node ∈ nodes, next node ⊆ nodes)
    {fuel : Nat} {node : Node} (isNode : node ∈ nodes) (distinct : way.Nodup)
    (within : way ⊆ nodes) (fresh : node ∉ way) (enough : nodes.length < fuel + way.length)
    (order : List Node) :
    Reached next way order (visit next fuel node (way, order)) ∧
      node ∈ (visit next fuel node (way, order)).2 := by
  induction fuel generalizing node way order with
  | zero =>
      have few := (distinct.subperm within).length_le
      omega
  | succ fuel inductionHypothesis =>
      rw [visit]
      by_cases listed : node ∈ order
      · rw [if_pos listed]
        exact ⟨.refl, listed⟩
      · have longer : way.insert node = node :: way := List.insert_of_not_mem fresh
        have goes : ∀ successor ∈ next node, ∀ order, successor ∉ node :: way →
            Reached next (node :: way) order (visit next fuel successor (node :: way, order)) ∧
              successor ∈ (visit next fuel successor (node :: way, order)).2 := by
          intro successor isNext order apart
          refine inductionHypothesis (closed node isNode isNext)
            (List.nodup_cons.mpr ⟨fresh, distinct⟩) (List.cons_subset.mpr ⟨isNode, within⟩) apart
            ?_ order
          rw [List.length_cons]
          omega
        obtain ⟨reached, successors⟩ := reached_visitAll goes order
        obtain ⟨middle, isMiddle⟩ : ∃ middle,
            visitAll (visit next fuel) (next node) (node :: way, order) = (node :: way, middle) :=
          ⟨_, Prod.ext reached.way_eq rfl⟩
        have back : (node :: way).filter (fun other => decide (other ≠ node)) = way := by
          rw [List.filter_cons_of_neg (by simp)]
          refine List.filter_eq_self.mpr fun other mem => decide_eq_true ?_
          rintro rfl
          exact fresh mem
        have passes : ∀ successor, successor ∈ middle ∨ successor ∈ node :: way →
            successor ∈ middle ++ [node] ∨ successor ∈ way := by
          rintro successor (mem | mem)
          · exact .inl (List.mem_append_left _ mem)
          · rcases List.mem_cons.mp mem with rfl | onWay
            · exact .inl (List.mem_append_right _ (List.mem_singleton_self _))
            · exact .inr onWay
        rw [if_neg listed, longer, isMiddle]
        rw [isMiddle] at reached successors
        refine ⟨⟨back, fun other mem => List.mem_append_left _ (reached.kept mem), ?_⟩, by simp⟩
        intro other mem
        rcases List.mem_append.mp mem with old | new
        · refine (reached.closed other old).imp_right fun all successor isNext => ?_
          exact passes successor (all successor isNext)
        · rw [List.mem_singleton.mp new]
          exact .inr fun successor isNext => passes successor (successors successor isNext)

/-! ### Where a node was found -/

/-- Every node of a list is one of some first nodes or a successor of a node behind it. -/
def Parented (next : Node → List Node) (first : List Node) : List Node → Prop
  | [] => True
  | node :: later =>
      (node ∈ first ∨ ∃ parent ∈ later, node ∈ next parent) ∧ Parented next first later

omit [DecidableEq Node] in
theorem Parented.append {first nodes others : List Node} (parented : Parented next first nodes)
    (also : Parented next first others) : Parented next first (nodes ++ others) := by
  induction nodes with
  | nil => exact also
  | cons node later inductionHypothesis =>
      refine ⟨parented.1.imp_right ?_, inductionHypothesis parented.2⟩
      rintro ⟨parent, mem, isNext⟩
      exact ⟨parent, List.mem_append_left _ mem, isNext⟩

omit [DecidableEq Node] in
theorem Parented.mono {first more nodes : List Node} (parented : Parented next first nodes)
    (within : first ⊆ more) : Parented next more nodes := by
  induction nodes with
  | nil => trivial
  | cons node later inductionHypothesis =>
      exact ⟨parented.1.imp_left fun mem => within mem, inductionHypothesis parented.2⟩

omit [DecidableEq Node] in
/-- The successors of a node are parented by the node behind them. -/
theorem Parented.close {node : Node} {nodes : List Node}
    (parented : Parented next (next node) nodes) : Parented next [node] (nodes ++ [node]) := by
  induction nodes with
  | nil => exact ⟨.inl (List.mem_singleton_self _), trivial⟩
  | cons other later inductionHypothesis =>
      refine ⟨.inr ?_, inductionHypothesis parented.2⟩
      rcases parented.1 with isNext | ⟨parent, mem, isNext⟩
      · exact ⟨node, List.mem_append_right _ (List.mem_singleton_self _), isNext⟩
      · exact ⟨parent, List.mem_append_left _ mem, isNext⟩

/-- What a visit lists is parented by the node it visits. -/
theorem parented_visit (fuel : Nat) (node : Node) (way order : List Node) :
    ∃ added, (visit next fuel node (way, order)).2 = order ++ added ∧
      Parented next [node] added := by
  induction fuel generalizing node way order with
  | zero => exact ⟨[], by simp [visit], trivial⟩
  | succ fuel inductionHypothesis =>
      have all : ∀ (nodes way order : List Node), ∃ added,
          (visitAll (visit next fuel) nodes (way, order)).2 = order ++ added ∧
            Parented next nodes added := by
        intro nodes
        induction nodes with
        | nil => exact fun way order => ⟨[], by simp [visitAll], trivial⟩
        | cons first nodes rest =>
            intro way order
            have weaken : ∀ {added}, Parented next nodes added →
                Parented next (first :: nodes) added :=
              fun parented => parented.mono (List.subset_cons_self _ _)
            rw [visitAll, List.foldl_cons]
            dsimp only
            split
            case isTrue =>
              obtain ⟨added, same, parented⟩ := rest way order
              exact ⟨added, same, weaken parented⟩
            case isFalse =>
              obtain ⟨here, same, parented⟩ := inductionHypothesis first way order
              obtain ⟨added, sameRest, parentedRest⟩ :=
                rest (visit next fuel first (way, order)).1 (visit next fuel first (way, order)).2
              refine ⟨here ++ added, ?_, ?_⟩
              · rw [← List.append_assoc, ← same]
                exact sameRest
              · refine Parented.append (parented.mono ?_) (weaken parentedRest)
                exact List.cons_subset.mpr ⟨List.mem_cons_self, List.nil_subset _⟩
      rw [visit]
      split
      case isTrue => exact ⟨[], by simp, trivial⟩
      case isFalse =>
        obtain ⟨added, same, parented⟩ := all (next node) (way.insert node) order
        refine ⟨added ++ [node], ?_, parented.close⟩
        dsimp only
        rw [same, List.append_assoc]

omit [DecidableEq Node] in
/-- Nodes whose successors are among them hold all that is parented by one of them. -/
theorem Parented.subset {first nodes all : List Node} (parented : Parented next first nodes)
    (within : first ⊆ all) (closed : ∀ node ∈ all, next node ⊆ all) : nodes ⊆ all := by
  induction nodes with
  | nil => exact List.nil_subset _
  | cons node later inductionHypothesis =>
      have rest := inductionHypothesis parented.2
      refine List.cons_subset.mpr ⟨?_, rest⟩
      rcases parented.1 with isFirst | ⟨parent, mem, isNext⟩
      · exact within isFirst
      · exact closed parent (rest mem) isNext

/-- In the reverse order, a node that is not one of the first comes behind one it is a successor
of. -/
theorem Parented.exists_parent {first nodes : List Node} (parented : Parented next first nodes)
    {node : Node} (mem : node ∈ nodes) (notFirst : node ∉ first) :
    ∃ parent ∈ nodes, node ∈ next parent ∧
      nodes.reverse.idxOf parent < nodes.reverse.idxOf node := by
  induction nodes with
  | nil => cases mem
  | cons other later inductionHypothesis =>
      rw [List.reverse_cons]
      by_cases isLater : node ∈ later
      · obtain ⟨parent, isParent, isNext, less⟩ := inductionHypothesis parented.2 isLater
        refine ⟨parent, List.mem_cons_of_mem _ isParent, isNext, ?_⟩
        rwa [List.idxOf_append_of_mem (List.mem_reverse.mpr isParent),
          List.idxOf_append_of_mem (List.mem_reverse.mpr isLater)]
      · have same : node = other := (List.mem_cons.mp mem).resolve_right isLater
        subst same
        obtain ⟨parent, isParent, isNext⟩ := parented.1.resolve_left notFirst
        refine ⟨parent, List.mem_cons_of_mem _ isParent, isNext, ?_⟩
        have inReverse := List.mem_reverse.mpr isParent
        rw [List.idxOf_append_of_mem inReverse,
          List.idxOf_append_of_notMem (mt List.mem_reverse.mp isLater)]
        have short := List.idxOf_lt_length_of_mem inReverse
        omega

end Dynamatic.ControlFlow.PostOrder
