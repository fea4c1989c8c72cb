import Mathlib.Data.Finset.Card
import Mathlib.Data.List.Chain
import Mathlib.Data.Nat.Find

/-!
# Dominance

A node dominates another one if every walk from the entry to that one comes through it. The
immediate dominators form a tree, and climbing it from a node passes all of its dominators.
Where a walk leaves what a node dominates, it passes the dominance frontier of the node; so between
the last visit of the nearest marked dominator and the node there is no mark if the frontiers of
marked nodes are marked.
-/

namespace Dynamatic.ControlFlow

variable {Node : Type} {successors : Node → List Node} {entry : Node}

/-- Nodes along edges, from the entry on. -/
def IsWalk (successors : Node → List Node) (entry : Node) (walk : List Node) : Prop :=
  walk.IsChain (fun node next => next ∈ successors node) ∧ walk.head? = some entry

def Reaches (successors : Node → List Node) (entry node : Node) : Prop :=
  ∃ walk, IsWalk successors entry walk ∧ walk.getLast? = some node

/-- Every walk to a node comes through another one, or the same. -/
def Dominates (successors : Node → List Node) (entry dominator node : Node) : Prop :=
  ∀ walk, IsWalk successors entry walk → walk.getLast? = some node → dominator ∈ walk

def StrictlyDominates (successors : Node → List Node) (entry dominator node : Node) : Prop :=
  dominator ≠ node ∧ Dominates successors entry dominator node

/-- The strict dominator that all others dominate. -/
def IsImmediateDominator (successors : Node → List Node) (entry dominator node : Node) : Prop :=
  StrictlyDominates successors entry dominator node ∧
    ∀ other, StrictlyDominates successors entry other node →
      Dominates successors entry other dominator

/-- A node that an edge leads to from what another node dominates, but that it does not dominate
strictly itself. -/
def InFrontier (successors : Node → List Node) (entry node edgeNode : Node) : Prop :=
  ∃ pred, Reaches successors entry pred ∧ edgeNode ∈ successors pred ∧
    Dominates successors entry node pred ∧ ¬ StrictlyDominates successors entry node edgeNode

section Walks

variable {walk other : List Node} {node next : Node} {time : Nat}

/-- A walk as far as a node that it passes. -/
theorem IsWalk.take (isWalk : IsWalk successors entry walk) (here : walk[time]? = some node) :
    IsWalk successors entry (walk.take (time + 1)) ∧
      (walk.take (time + 1)).getLast? = some node := by
  obtain ⟨bound, isNode⟩ := List.getElem?_eq_some_iff.mp here
  refine ⟨⟨isWalk.1.take _, ?_⟩, ?_⟩
  · rw [List.head?_take, if_neg (Nat.succ_ne_zero _)]
    exact isWalk.2
  · rw [List.getLast?_eq_getElem?, List.length_take, Nat.min_eq_left bound, Nat.succ_sub_one,
      List.getElem?_take, if_pos (Nat.lt_succ_self _)]
    exact here

theorem IsWalk.reaches (isWalk : IsWalk successors entry walk) (here : walk[time]? = some node) :
    Reaches successors entry node :=
  ⟨_, isWalk.take here⟩

/-- A walk goes on with an edge. -/
theorem IsWalk.concat (isWalk : IsWalk successors entry walk) (last : walk.getLast? = some node)
    (edge : next ∈ successors node) : IsWalk successors entry (walk ++ [next]) := by
  refine ⟨isWalk.1.append (.singleton next) fun before isLast after isFirst => ?_, ?_⟩
  · rw [last] at isLast
    cases isLast
    cases isFirst
    exact edge
  · rw [List.head?_append, isWalk.2]
    rfl

/-- Nodes next to each other on a walk are joined by an edge. -/
theorem IsWalk.edge (isWalk : IsWalk successors entry walk) (here : walk[time]? = some node)
    (after : walk[time + 1]? = some next) : next ∈ successors node := by
  obtain ⟨bound, isNext⟩ := List.getElem?_eq_some_iff.mp after
  obtain ⟨_, isNode⟩ := List.getElem?_eq_some_iff.mp here
  have edge := List.isChain_iff_getElem.mp isWalk.1 time bound
  rwa [isNode, isNext] at edge

/-- A walk to a node other than the entry ends with an edge. -/
theorem IsWalk.exists_edge (isWalk : IsWalk successors entry walk)
    (last : walk.getLast? = some node) (notEntry : node ≠ entry) :
    ∃ pred ∈ walk, Reaches successors entry pred ∧ node ∈ successors pred := by
  rw [List.getLast?_eq_getElem?] at last
  obtain ⟨bound, -⟩ := List.getElem?_eq_some_iff.mp last
  cases isLast : walk.length - 1 with
  | zero =>
      rw [isLast, ← List.head?_eq_getElem?, isWalk.2] at last
      exact absurd (Option.some.inj last).symm notEntry
  | succ time =>
      rw [isLast] at last
      have before : walk[time]? = some walk[time] := List.getElem?_eq_getElem (by omega)
      exact ⟨walk[time], List.getElem_mem _, isWalk.reaches before, isWalk.edge before last⟩

/-- Another walk to a node that a walk passes may go on with the rest of the walk. -/
theorem exists_detour (isWalk : IsWalk successors entry walk) (here : walk[time]? = some node)
    {later : Nat} (le : time ≤ later) {last : Node} (isLast : walk[later]? = some last)
    (isOther : IsWalk successors entry other) (reaches : other.getLast? = some node) :
    ∃ detour, IsWalk successors entry detour ∧ detour.getLast? = some last ∧
      ∀ passed ∈ detour, passed ∈ other ∨
        ∃ moment, time < moment ∧ moment ≤ later ∧ walk[moment]? = some passed := by
  induction le generalizing last with
  | refl =>
      rw [here] at isLast
      cases isLast
      exact ⟨other, isOther, reaches, fun _ mem => .inl mem⟩
  | @step later le inductionHypothesis =>
      obtain ⟨bound, -⟩ := List.getElem?_eq_some_iff.mp isLast
      have before : walk[later]? = some walk[later] := List.getElem?_eq_getElem (by omega)
      obtain ⟨detour, isDetour, ends, passes⟩ := inductionHypothesis before
      refine ⟨detour ++ [last], isDetour.concat ends (isWalk.edge before isLast),
        List.getLast?_concat, fun passed mem => ?_⟩
      rcases List.mem_append.mp mem with old | new
      · rcases passes passed old with inOther | ⟨moment, after, atMost, isPassed⟩
        · exact .inl inOther
        · exact .inr ⟨moment, after, by omega, isPassed⟩
      · rw [List.mem_singleton.mp new]
        exact .inr ⟨later + 1, Nat.lt_succ_of_le le, le_rfl, isLast⟩

end Walks

section Order

variable {dominator node other : Node}

theorem Dominates.refl (node : Node) : Dominates successors entry node node :=
  fun _ _ last => List.mem_of_getLast? last

theorem Dominates.trans (first : Dominates successors entry dominator other)
    (second : Dominates successors entry other node) :
    Dominates successors entry dominator node := by
  intro walk isWalk last
  obtain ⟨time, here⟩ := List.mem_iff_getElem?.mp (second walk isWalk last)
  obtain ⟨isShorter, ends⟩ := isWalk.take here
  exact List.mem_of_mem_take (first _ isShorter ends)

/-- Of two nodes that dominate each other, walks come to neither, or they are one. -/
theorem Dominates.antisymm (reaches : Reaches successors entry node)
    (first : Dominates successors entry dominator node)
    (second : Dominates successors entry node dominator) : dominator = node := by
  by_contra differ
  have never : ∀ length, ∀ {first second : Node}, first ≠ second →
      Dominates successors entry first second → Dominates successors entry second first →
        ∀ walk, walk.length ≤ length → IsWalk successors entry walk →
          walk.getLast? ≠ some second := by
    intro length
    induction length with
    | zero =>
        intro first second _ _ _ walk short isWalk last
        rw [List.length_eq_zero_iff.mp (Nat.le_zero.mp short)] at last
        cases last
    | succ length inductionHypothesis =>
        intro first second differ dominates back walk short isWalk last
        obtain ⟨time, here⟩ := List.mem_iff_getElem?.mp (dominates walk isWalk last)
        obtain ⟨isShorter, ends⟩ := isWalk.take here
        refine inductionHypothesis differ.symm back dominates _ ?_ isShorter ends
        -- the walk to the dominator is shorter, as it does not end at the node
        obtain ⟨bound, isFirst⟩ := List.getElem?_eq_some_iff.mp here
        have notLast : time + 1 ≠ walk.length := by
          intro whole
          rw [List.getLast?_eq_getElem?, ← whole, Nat.add_sub_cancel, here] at last
          exact differ (Option.some.inj last)
        rw [List.length_take]
        omega
  obtain ⟨walk, isWalk, last⟩ := reaches
  exact never walk.length differ first second walk le_rfl isWalk last

theorem StrictlyDominates.reaches (reaches : Reaches successors entry node)
    (strictly : StrictlyDominates successors entry dominator node) :
    Reaches successors entry dominator := by
  obtain ⟨walk, isWalk, last⟩ := reaches
  obtain ⟨time, here⟩ := List.mem_iff_getElem?.mp (strictly.2 walk isWalk last)
  exact isWalk.reaches here

theorem StrictlyDominates.trans (reaches : Reaches successors entry node)
    (first : Dominates successors entry dominator other)
    (second : StrictlyDominates successors entry other node) :
    StrictlyDominates successors entry dominator node := by
  refine ⟨fun same => ?_, first.trans second.2⟩
  subst same
  exact second.1 (Dominates.antisymm reaches second.2 first)

/-- Nothing comes before the entry. -/
theorem not_strictlyDominates_entry : ¬ StrictlyDominates successors entry dominator entry := by
  rintro ⟨differs, dominates⟩
  exact differs (List.mem_singleton.mp (dominates [entry] ⟨.singleton _, rfl⟩ rfl))

/-- A strict dominator dominates the sources of all edges. -/
theorem StrictlyDominates.of_edge {pred : Node} (edge : node ∈ successors pred)
    (strictly : StrictlyDominates successors entry dominator node) :
    Dominates successors entry dominator pred := by
  intro walk isWalk last
  have mem := strictly.2 _ (isWalk.concat last edge) List.getLast?_concat
  rcases List.mem_append.mp mem with old | new
  · exact old
  · exact absurd (List.mem_singleton.mp new) strictly.1

/-- Walks first come to a node from where it does not dominate. -/
theorem exists_edge_not_dominated (reaches : Reaches successors entry node)
    (notEntry : node ≠ entry) : ∃ pred, Reaches successors entry pred ∧ node ∈ successors pred ∧
      ¬ Dominates successors entry node pred := by
  classical
  obtain ⟨walk, isWalk, last⟩ := reaches
  have visited : ∃ time, walk[time]? = some node :=
    List.mem_iff_getElem?.mp (List.mem_of_getLast? last)
  have here := Nat.find_spec visited
  have earliest {time : Nat} := Nat.find_min visited (m := time)
  cases isFirst : Nat.find visited with
  | zero =>
      rw [isFirst, ← List.head?_eq_getElem?, isWalk.2] at here
      exact absurd (Option.some.inj here).symm notEntry
  | succ time =>
      rw [isFirst] at here earliest
      obtain ⟨bound, -⟩ := List.getElem?_eq_some_iff.mp here
      have before : walk[time]? = some walk[time] := List.getElem?_eq_getElem (by omega)
      refine ⟨walk[time], isWalk.reaches before, isWalk.edge before here, fun dominates => ?_⟩
      obtain ⟨isShorter, ends⟩ := isWalk.take before
      obtain ⟨moment, isNode⟩ := List.mem_iff_getElem?.mp (dominates _ isShorter ends)
      rw [List.getElem?_take] at isNode
      split at isNode
      · exact earliest ‹_› isNode
      · cases isNode

end Order

section Frontier

variable {walk : List Node} {node last : Node} {time later : Nat}

/-- A walk from a node to one that it does not strictly dominate passes its frontier. -/
theorem exists_frontier (isWalk : IsWalk successors entry walk) (here : walk[time]? = some node)
    (lt : time < later) (isLast : walk[later]? = some last)
    (leaves : ¬ StrictlyDominates successors entry node last) :
    ∃ moment passed, time < moment ∧ moment ≤ later ∧ walk[moment]? = some passed ∧
      InFrontier successors entry node passed := by
  induction later, lt using Nat.le_induction generalizing last with
  | base =>
      exact ⟨time + 1, last, Nat.lt_succ_self _, le_rfl, isLast, node, isWalk.reaches here,
        isWalk.edge here isLast, .refl node, leaves⟩
  | succ later lt inductionHypothesis =>
      obtain ⟨bound, -⟩ := List.getElem?_eq_some_iff.mp isLast
      have before : walk[later]? = some walk[later] := List.getElem?_eq_getElem (by omega)
      by_cases inside : StrictlyDominates successors entry node walk[later]
      · exact ⟨later + 1, last, by omega, le_rfl, isLast, _, isWalk.reaches before,
          isWalk.edge before isLast, inside.2, leaves⟩
      · obtain ⟨moment, passed, after, atMost, isPassed, isFrontier⟩ :=
          inductionHypothesis before inside
        exact ⟨moment, passed, after, by omega, isPassed, isFrontier⟩

/-- What is passed after the last visit of a dominator dominates no later node, if it dominates the
dominator. -/
theorem not_strictlyDominates_after (isWalk : IsWalk successors entry walk) {dominator : Node}
    (dominates : Dominates successors entry dominator last) (here : walk[time]? = some node)
    (le : time ≤ later) (isLast : walk[later]? = some last)
    (notAgain : ∀ moment, time ≤ moment → moment ≤ later → walk[moment]? ≠ some dominator) :
    ¬ Dominates successors entry node dominator := by
  intro above
  have below : Dominates successors entry dominator node := by
    intro other isOther reaches
    obtain ⟨detour, isDetour, ends, passes⟩ := exists_detour isWalk here le isLast isOther reaches
    rcases passes dominator (dominates detour isDetour ends) with inOther | ⟨moment, after, atMost, isPassed⟩
    · exact inOther
    · exact absurd isPassed (notAgain moment after.le atMost)
  have same := Dominates.antisymm (isWalk.reaches here) below above
  exact notAgain time le_rfl le (same ▸ here)

variable {marked : Node → Prop} {nearest : Node}

/-- No mark is passed between the last visit of the nearest marked strict dominator of a node and
the node, if the frontiers of marked nodes are marked. -/
theorem not_marked_between (isWalk : IsWalk successors entry walk)
    (closed : ∀ {node edgeNode}, marked node → InFrontier successors entry node edgeNode →
      marked edgeNode)
    (isNearest : StrictlyDominates successors entry nearest last)
    (others : ∀ {other}, marked other → StrictlyDominates successors entry other last →
      Dominates successors entry other nearest)
    (isLast : walk[later]? = some last)
    (fromFrontier : ∀ {node}, marked node → ¬ InFrontier successors entry node last)
    (notAgain : ∀ moment, time < moment → moment ≤ later → walk[moment]? ≠ some nearest) :
    ∀ moment, time < moment → moment < later → ∀ {node}, walk[moment]? = some node →
      ¬ marked node := by
  suffices none : ∀ steps moment, later - moment ≤ steps → time < moment → moment < later →
      ∀ {node}, walk[moment]? = some node → ¬ marked node by
    exact fun moment => none (later - moment) moment le_rfl
  intro steps
  induction steps with
  | zero =>
      intro moment few _ lt
      omega
  | succ steps inductionHypothesis =>
      intro moment few after lt node here isMarked
      have leaves : ¬ StrictlyDominates successors entry node last := fun strictly =>
        not_strictlyDominates_after isWalk isNearest.2 here lt.le isLast
          (fun moment' from_ => notAgain moment' (by omega)) (others isMarked strictly)
      obtain ⟨moment', passed, later', atMost, isPassed, isFrontier⟩ :=
        exists_frontier isWalk here lt isLast leaves
      rcases Nat.lt_or_eq_of_le atMost with before | same
      · exact inductionHypothesis moment' (by omega) (by omega) before isPassed
          (closed isMarked isFrontier)
      · subst same
        rw [isLast] at isPassed
        cases isPassed
        exact fromFrontier isMarked isFrontier

end Frontier

/-! ### Climbing the tree -/

section Tree

variable {idom : Node → Option Node} {nodes : List Node} {fuel : Nat} {node : Node}

/-- The immediate dominator of each node that walks come to; the entry has none. -/
def IsDominatorTree (successors : Node → List Node) (entry : Node) (idom : Node → Option Node) :
    Prop :=
  ∀ node, Reaches successors entry node → node ≠ entry →
    ∃ dominator, idom node = some dominator ∧ IsImmediateDominator successors entry dominator node

/-- What is found at the nearest node on the way up the tree. -/
def climb {Value : Type} (idom : Node → Option Node) (found : Node → Option Value) :
    Nat → Node → Option Value
  | 0, _ => none
  | fuel + 1, node =>
      match found node with
      | some value => some value
      | none => (idom node).bind (climb idom found fuel)

/-- The nodes on the way up the tree to one where it stops. -/
def runners [DecidableEq Node] (idom : Node → Option Node) (stop : Node) :
    Nat → Node → Option (List Node)
  | 0, _ => none
  | fuel + 1, runner =>
      if runner = stop then some []
      else (idom runner).bind fun up => (runners idom stop fuel up).map (runner :: ·)

open Classical in
/-- The nodes above a node in the tree. -/
noncomputable def strictDominators (successors : Node → List Node) (entry : Node)
    (nodes : List Node) (node : Node) : Finset Node :=
  nodes.toFinset.filter fun other => StrictlyDominates successors entry other node

theorem card_strictDominators_lt (all : ∀ node, Reaches successors entry node → node ∈ nodes)
    (reaches : Reaches successors entry node) {dominator : Node}
    (strictly : StrictlyDominates successors entry dominator node) :
    (strictDominators successors entry nodes dominator).card <
      (strictDominators successors entry nodes node).card := by
  classical
  refine Finset.card_lt_card ((Finset.ssubset_iff_of_subset fun other mem => ?_).mpr
    ⟨dominator, ?_, ?_⟩)
  · obtain ⟨isNode, above⟩ := Finset.mem_filter.mp mem
    exact Finset.mem_filter.mpr ⟨isNode, strictly.trans reaches above.2⟩
  · exact Finset.mem_filter.mpr ⟨List.mem_toFinset.mpr (all _ (strictly.reaches reaches)), strictly⟩
  · exact fun mem => (Finset.mem_filter.mp mem).2.1 rfl

/-- A tree is less high than it has nodes. -/
theorem card_strictDominators_lt_length
    (all : ∀ node, Reaches successors entry node → node ∈ nodes)
    (reaches : Reaches successors entry node) :
    (strictDominators successors entry nodes node).card < nodes.length := by
  classical
  refine Nat.lt_of_lt_of_le (Finset.card_lt_card ((Finset.ssubset_iff_of_subset
    (Finset.filter_subset _ _)).mpr ⟨node, List.mem_toFinset.mpr (all _ reaches), ?_⟩))
    nodes.toFinset_card_le
  exact fun mem => (Finset.mem_filter.mp mem).2.1 rfl

variable (tree : IsDominatorTree successors entry idom)
  (all : ∀ node, Reaches successors entry node → node ∈ nodes)

include tree all

/-- Climbing finds what the nearest dominator has. -/
theorem exists_climb {Value : Type} {found : Node → Option Value} (atEntry : found entry ≠ none)
    (reaches : Reaches successors entry node)
    (enough : (strictDominators successors entry nodes node).card < fuel) :
    ∃ nearest value, climb idom found fuel node = some value ∧ found nearest = some value ∧
      Dominates successors entry nearest node ∧
      ∀ other, found other ≠ none → Dominates successors entry other node →
        Dominates successors entry other nearest := by
  induction fuel generalizing node with
  | zero => exact absurd enough (Nat.not_lt_zero _)
  | succ fuel inductionHypothesis =>
      cases isFound : found node with
      | some value =>
          refine ⟨node, value, ?_, isFound, .refl node, fun _ _ => id⟩
          rw [climb, isFound]
      | none =>
          have notEntry : node ≠ entry := fun same => atEntry (same ▸ isFound)
          obtain ⟨dominator, isIdom, strictly, above⟩ := tree node reaches notEntry
          have lower := card_strictDominators_lt all reaches strictly
          obtain ⟨nearest, value, isValue, isNearest, dominates, others⟩ :=
            inductionHypothesis (strictly.reaches reaches) (by omega)
          refine ⟨nearest, value, ?_, isNearest, dominates.trans strictly.2,
            fun other isOther otherDominates => others other isOther (above other ⟨?_, otherDominates⟩)⟩
          · rw [climb, isFound, isIdom]
            exact isValue
          · rintro rfl
            exact isOther isFound

/-- On the way up to a dominator are all nodes that dominate the start and not the end. -/
theorem exists_runners [DecidableEq Node] {stop : Node} (reaches : Reaches successors entry node)
    (dominates : Dominates successors entry stop node)
    (enough : (strictDominators successors entry nodes node).card < fuel) :
    ∃ passed, runners idom stop fuel node = some passed ∧
      ∀ other, Dominates successors entry other node → ¬ Dominates successors entry other stop →
        other ∈ passed := by
  induction fuel generalizing node with
  | zero => exact absurd enough (Nat.not_lt_zero _)
  | succ fuel inductionHypothesis =>
      by_cases same : node = stop
      · subst same
        exact ⟨[], by rw [runners, if_pos rfl], fun _ above notAbove => absurd above notAbove⟩
      · have strictlyStop : StrictlyDominates successors entry stop node := ⟨Ne.symm same, dominates⟩
        have notEntry : node ≠ entry := by
          rintro rfl
          exact not_strictlyDominates_entry strictlyStop
        obtain ⟨dominator, isIdom, strictly, above⟩ := tree node reaches notEntry
        have lower := card_strictDominators_lt all reaches strictly
        obtain ⟨passed, isPassed, passes⟩ := inductionHypothesis (strictly.reaches reaches)
          (above stop strictlyStop) (by omega)
        refine ⟨node :: passed, ?_, fun other otherDominates notStop => ?_⟩
        · rw [runners, if_neg same, isIdom, Option.bind_some, isPassed]
          rfl
        · by_cases isNode : other = node
          · exact isNode ▸ List.mem_cons_self ..
          · exact List.mem_cons_of_mem _
              (passes other (above other ⟨isNode, otherDominates⟩) notStop)

end Tree

end Dynamatic.ControlFlow
