import Mathlib.Data.Fintype.EquivFin
import Mathlib.Data.Fintype.List

/-!
# Searches that stop at a boundary

A depth-first search that goes on from a node to its successors until it meets a stopping node
finds the frontier of the node: the stopping nodes that are met first on some path. Every path
from a node to a stopping node crosses the frontier, and where each node that does not stop the
search computes a value from its successors, the values at the frontier fix the value of the node.
-/

namespace Dynamatic.ControlFlow.Frontier

variable {Node : Type} [DecidableEq Node] (next : Node → List Node) (stops : Node → Bool)

/-- Search on from a node, given the nodes visited and the stopping nodes found. -/
def search : Nat → Node → List Node × List Node → List Node × List Node
  | 0, _, state => state
  | fuel + 1, node, (visited, found) =>
      if node ∈ visited then (visited, found)
      else if stops node then (node :: visited, found ++ [node])
      else
        (next node).foldl (fun state successor => search fuel successor state)
          (node :: visited, found)

/-- A stopping node that a path from a node meets first. -/
inductive Meets : Node → Node → Prop where
  | here {node} (stopped : stops node = true) : Meets node node
  | further {node successor leaf} (passes : stops node = false) (isNext : successor ∈ next node)
      (meets : Meets successor leaf) : Meets node leaf

variable {next stops}

omit [DecidableEq Node] in
/-! ### What the search finds -/

/-- A visited node is found if it stops the search, and has its successors visited otherwise. -/
def Complete (next : Node → List Node) (stops : Node → Bool) (state : List Node × List Node)
    (node : Node) : Prop :=
  if stops node then node ∈ state.2 else next node ⊆ state.1

/-- What a search adds to the nodes visited and to those found. -/
structure Searched (next : Node → List Node) (stops : Node → Bool) (nodes : List Node)
    (state result : List Node × List Node) : Prop where
  visitedKept : state.1 ⊆ result.1
  foundKept : state.2 ⊆ result.2
  within : result.1 ⊆ nodes
  distinct : result.1.Nodup
  complete : ∀ node ∈ result.1, node ∈ state.1 ∨ Complete next stops result node

section Search

variable {nodes : List Node} {state middle result : List Node × List Node}

omit [DecidableEq Node] in
theorem Complete.mono {node : Node} (complete : Complete next stops state node)
    (visitedKept : state.1 ⊆ result.1) (foundKept : state.2 ⊆ result.2) :
    Complete next stops result node := by
  rw [Complete] at complete ⊢
  split at complete
  case isTrue stopped =>
    rw [if_pos stopped]
    exact foundKept complete
  case isFalse passes =>
    rw [if_neg passes]
    exact List.Subset.trans complete visitedKept

omit [DecidableEq Node] in
theorem Searched.refl (within : state.1 ⊆ nodes) (distinct : state.1.Nodup) :
    Searched next stops nodes state state :=
  ⟨fun _ mem => mem, fun _ mem => mem, within, distinct, fun _ mem => .inl mem⟩

omit [DecidableEq Node] in
theorem Searched.trans (first : Searched next stops nodes state middle)
    (second : Searched next stops nodes middle result) :
    Searched next stops nodes state result where
  visitedKept := List.Subset.trans first.visitedKept second.visitedKept
  foundKept := List.Subset.trans first.foundKept second.foundKept
  within := second.within
  distinct := second.distinct
  complete := fun node mem => by
    rcases second.complete node mem with old | complete
    · exact (first.complete node old).imp_right
        fun before => before.mono second.visitedKept second.foundKept
    · exact .inr complete

omit [DecidableEq Node] in
/-- If a search from each of some nodes is as it should be, so is one from all of them in turn. -/
theorem searched_foldl {go : Node → List Node × List Node → List Node × List Node}
    {successors : List Node}
    (goes : ∀ node ∈ successors, ∀ middle, state.1 ⊆ middle.1 → middle.1 ⊆ nodes →
      middle.1.Nodup → Searched next stops nodes middle (go node middle) ∧
        node ∈ (go node middle).1)
    (within : state.1 ⊆ nodes) (distinct : state.1.Nodup) :
    Searched next stops nodes state
        (successors.foldl (fun state successor => go successor state) state) ∧
      successors ⊆ (successors.foldl (fun state successor => go successor state) state).1 := by
  induction successors generalizing state with
  | nil => exact ⟨.refl within distinct, List.nil_subset _⟩
  | cons node successors inductionHypothesis =>
      obtain ⟨first, here⟩ := goes node List.mem_cons_self state (fun _ mem => mem) within distinct
      obtain ⟨rest, visited⟩ := @inductionHypothesis (go node state)
        (fun other mem middle kept => goes other (List.mem_cons_of_mem _ mem) middle
          (List.Subset.trans first.visitedKept kept))
        first.within first.distinct
      exact ⟨first.trans rest, List.cons_subset.mpr ⟨rest.visitedKept here, visited⟩⟩

/-- With fuel for every node that is not visited, a search visits its node and all it leads to. -/
theorem searched_search (closed : ∀ node ∈ nodes, next node ⊆ nodes) {fuel : Nat} {node : Node}
    (isNode : node ∈ nodes) (within : state.1 ⊆ nodes) (distinct : state.1.Nodup)
    (enough : nodes.length < fuel + state.1.length) :
    Searched next stops nodes state (search next stops fuel node state) ∧
      node ∈ (search next stops fuel node state).1 := by
  induction fuel generalizing node state with
  | zero =>
      have few := (distinct.subperm within).length_le
      omega
  | succ fuel inductionHypothesis =>
      obtain ⟨visited, found⟩ := state
      dsimp only at within distinct enough
      rw [search]
      by_cases old : node ∈ visited
      · rw [if_pos old]
        exact ⟨.refl within distinct, old⟩
      have longer : node :: visited ⊆ nodes := List.cons_subset.mpr ⟨isNode, within⟩
      have stillDistinct : (node :: visited).Nodup := List.nodup_cons.mpr ⟨old, distinct⟩
      rw [if_neg old]
      by_cases stopped : stops node
      · rw [if_pos stopped]
        refine ⟨⟨List.subset_cons_self _ _, List.subset_append_left _ _, longer, stillDistinct,
          fun other mem => ?_⟩, List.mem_cons_self⟩
        rcases List.mem_cons.mp mem with rfl | mem
        · exact .inr (by simp [Complete, stopped])
        · exact .inl mem
      · rw [if_neg stopped]
        obtain ⟨searched, successors⟩ := @searched_foldl _ next stops nodes
          (node :: visited, found) (search next stops fuel) (next node)
          (fun successor isNext middle kept within distinct => inductionHypothesis
            (closed node isNode isNext) within distinct (by
              have more := (stillDistinct.subperm kept).length_le
              rw [List.length_cons] at more
              omega))
          longer stillDistinct
        have here := searched.visitedKept List.mem_cons_self
        refine ⟨⟨List.Subset.trans (List.subset_cons_self _ _) searched.visitedKept,
          searched.foundKept, searched.within, searched.distinct, fun other mem => ?_⟩, here⟩
        rcases searched.complete other mem with before | complete
        · rcases List.mem_cons.mp before with rfl | before
          · exact .inr (by rw [Complete, if_neg stopped]; exact successors)
          · exact .inl before
        · exact .inr complete

/-- What is found is met. -/
theorem meets_search {fuel : Nat} {node leaf : Node}
    (mem : leaf ∈ (search next stops fuel node state).2) :
    leaf ∈ state.2 ∨ Meets next stops node leaf := by
  induction fuel generalizing node state with
  | zero => exact .inl mem
  | succ fuel inductionHypothesis =>
      obtain ⟨visited, found⟩ := state
      rw [search] at mem
      split at mem
      case isTrue => exact .inl mem
      case isFalse =>
        split at mem
        case isTrue stopped =>
          refine (List.mem_append.mp mem).imp_right fun last => ?_
          rw [List.mem_singleton.mp last]
          exact .here stopped
        case isFalse passes =>
          have all : ∀ (successors : List Node), successors ⊆ next node →
              ∀ state, leaf ∈ (successors.foldl
                  (fun state successor => search next stops fuel successor state) state).2 →
                leaf ∈ state.2 ∨ Meets next stops node leaf := by
            intro successors
            induction successors with
            | nil => exact fun _ _ mem => .inl mem
            | cons successor successors rest =>
                intro within state mem
                obtain ⟨isNext, within⟩ := List.cons_subset.mp within
                rcases rest within _ mem with found | meets
                · refine (inductionHypothesis found).imp_right fun meets => ?_
                  exact .further (Bool.eq_false_iff.mpr passes) isNext meets
                · exact .inr meets
          exact all (next node) (fun _ mem => mem) (node :: visited, found) mem

/-- A search from the start finds the frontier of its node. -/
theorem mem_search (closed : ∀ node ∈ nodes, next node ⊆ nodes) {node leaf : Node}
    (isNode : node ∈ nodes) :
    leaf ∈ (search next stops (nodes.length + 1) node ([], [])).2 ↔
      Meets next stops node leaf := by
  constructor
  · intro mem
    exact (meets_search mem).resolve_left List.not_mem_nil
  · intro meets
    obtain ⟨searched, here⟩ := @searched_search _ _ next stops nodes ([], []) closed
      (nodes.length + 1) node isNode (List.nil_subset _) List.nodup_nil (Nat.lt_succ_self _)
    generalize search next stops (nodes.length + 1) node ([], []) = result at searched here
    have complete : ∀ other ∈ result.1, Complete next stops result other :=
      fun other mem => (searched.complete other mem).resolve_left List.not_mem_nil
    clear isNode
    induction meets with
    | @here node stopped =>
        have found := complete node here
        rwa [Complete, if_pos stopped] at found
    | @further node successor leaf passes isNext _ inductionHypothesis =>
        have visited := complete node here
        rw [Complete, if_neg (by simp [passes])] at visited
        exact inductionHypothesis (visited isNext)

end Search

/-! ### What a frontier separates -/

omit [DecidableEq Node] in
/-- A path that starts in a stopping node crosses the frontier of its last node. -/
theorem exists_meets_of_path {path : List Node} {first node : Node}
    (chain : path.IsChain fun before after => before ∈ next after)
    (starts : path.head? = some first) (ends : path.getLast? = some node)
    (stopped : stops first = true) : ∃ leaf ∈ path, Meets next stops node leaf := by
  induction path using List.reverseRecOn generalizing node with
  | nil => cases starts
  | append_singleton path last inductionHypothesis =>
      obtain rfl : last = node := by simpa using ends
      by_cases here : stops last = true
      · exact ⟨last, by simp, .here here⟩
      obtain ⟨chainBefore, -, joined⟩ := List.isChain_append.mp chain
      cases before : path.getLast? with
      | none =>
          obtain rfl := List.getLast?_eq_none_iff.mp before
          obtain rfl : last = first := by simpa using starts
          exact absurd stopped here
      | some fanin =>
          have nonempty : path ≠ [] := by
            rintro rfl
            cases before
          obtain ⟨leaf, mem, meets⟩ := inductionHypothesis chainBefore
            (by rwa [List.head?_append_of_ne_nil _ nonempty] at starts) before
          refine ⟨leaf, List.mem_append_left _ mem, .further (Bool.eq_false_iff.mpr here) ?_ meets⟩
          exact joined fanin (by simp [before]) last (by simp)

omit [DecidableEq Node] in
/-- Values that agree at the frontier of a node agree at the node, if each node that does not stop
the search computes its value from those of its successors. -/
theorem eq_of_meets {Value : Type} {nodes : List Node} {values others : Node → Value}
    {node : Node} (closed : ∀ node ∈ nodes, next node ⊆ nodes)
    (accessible : Acc (fun before after => before ∈ next after) node) (isNode : node ∈ nodes)
    (computes : ∀ other ∈ nodes, stops other = false →
      (∀ successor ∈ next other, values successor = others successor) →
        values other = others other)
    (agree : ∀ leaf, Meets next stops node leaf → values leaf = others leaf) :
    values node = others node := by
  induction accessible with
  | intro node _ inductionHypothesis =>
      cases stopped : stops node with
      | true => exact agree node (.here stopped)
      | false =>
          refine computes node isNode stopped fun successor isNext => ?_
          exact inductionHypothesis successor isNext (closed node isNode isNext)
            fun leaf meets => agree leaf (.further stopped isNext meets)

/-- Where no node leads back to itself, every node of a finite graph is accessible. -/
theorem accessible_of_acyclic {nodes : List Node} (closed : ∀ node ∈ nodes, next node ⊆ nodes)
    (acyclic : ∀ node ∈ nodes,
      ¬ Relation.TransGen (fun before after => before ∈ next after) node node)
    {node : Node} (isNode : node ∈ nodes) :
    Acc (fun before after => before ∈ next after) node := by
  let leads : { node // node ∈ nodes } → { node // node ∈ nodes } → Prop := fun before after =>
    Relation.TransGen (fun before after => before ∈ next after) before.1 after.1
  have transitive : IsTrans _ leads := ⟨fun _ _ _ first second => first.trans second⟩
  have irreflexive : Std.Irrefl leads := ⟨fun node => acyclic node.1 node.2⟩
  have wellFounded := Finite.wellFounded_of_trans_of_irrefl leads
  have all : ∀ node : { node // node ∈ nodes },
      Acc (fun before after => before ∈ next after) node.1 := by
    intro node
    induction node using wellFounded.induction with
    | _ node inductionHypothesis =>
        refine Acc.intro _ fun before isNext => ?_
        exact inductionHypothesis ⟨before, closed node.1 node.2 isNext⟩ (.single isNext)
  exact all ⟨node, isNode⟩

omit [DecidableEq Node] in
/-- A rank that grows along the edges rules out cycles. -/
theorem acyclic_of_rank {nodes : List Node} (closed : ∀ node ∈ nodes, next node ⊆ nodes)
    (rank : Node → Nat)
    (grows : ∀ node ∈ nodes, ∀ successor ∈ next node, rank successor < rank node) {node : Node}
    (isNode : node ∈ nodes) :
    ¬ Relation.TransGen (fun before after => before ∈ next after) node node := by
  have less : ∀ {first last}, last ∈ nodes →
      Relation.TransGen (fun before after => before ∈ next after) first last →
        rank first < rank last := by
    intro first last isNode leads
    induction leads with
    | single isNext => exact grows _ isNode _ isNext
    | tail _ isNext inductionHypothesis =>
        exact Nat.lt_trans (inductionHypothesis (closed _ isNode isNext)) (grows _ isNode _ isNext)
  exact fun cycle => Nat.lt_irrefl _ (less isNode cycle)

end Dynamatic.ControlFlow.Frontier
