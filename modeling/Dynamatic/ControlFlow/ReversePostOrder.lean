import Dynamatic.ControlFlow.Preorder

/-!
# Reverse post-order

`topo` puts a node in front of all that has been finished once the nodes behind its edges are
visited. It finishes all that a node leads to, once each. Where a path leads to a node from one
behind it, around all that is in front of it, a path leads back; so without cycles each node
comes before its successors.
-/

namespace Dynamatic.ControlFlow

variable {Node : Type} {successors : Node → List Node}

/-- The nodes that are visited so far, and those that are finished, the last one first. -/
def topo [DecidableEq Node] (successors : Node → List Node) :
    Nat → List Node × List Node → Node → List Node × List Node
  | 0, state, _ => state
  | bound + 1, (visited, order), u =>
      if u ∈ visited then (visited, order)
      else
        let (visited, order) :=
          (successors u).foldl (topo successors bound) (u :: visited, order)
        (visited, u :: order)

/-- Some edges lead from one node to another. -/
def Path (successors : Node → List Node) : Node → Node → Prop :=
  Relation.ReflTransGen fun node next => next ∈ successors node

/-- From a node behind another one, a path around some nodes and around all in front leads to
the other one only if a path leads back. -/
def ComesBack (successors : Node → List Node) (way : Node → Prop) (order : List Node) : Prop :=
  ∀ {front first rest}, order = front ++ first :: rest → ∀ node ∈ rest,
    Reach successors (fun passed => way passed ∨ passed ∈ front) node first →
      Path successors first node

theorem Reach.path {avoid : Node → Prop} {node last : Node}
    (reach : Reach successors avoid node last) : Path successors node last := by
  induction reach with
  | here => exact .refl
  | step _ edge _ inductionHypothesis => exact .head edge inductionHypothesis

/-- A path leads around nodes that are not led to from others. -/
theorem Path.reach {avoid : Node → Prop} {node last : Node} (path : Path successors node last)
    (forward : ∀ node next, next ∈ successors node → ¬ avoid node → ¬ avoid next)
    (free : ¬ avoid node) : Reach successors avoid node last := by
  induction path using Relation.ReflTransGen.head_induction_on with
  | refl => exact .here free
  | head edge _ inductionHypothesis =>
      exact .step free edge (inductionHypothesis (forward _ _ edge free))

/-! ### The traversal -/

section Topo

variable {way : Node → Prop}

/-- The nodes that are visited are on the way or finished. -/
structure Halfway (successors : Node → List Node) (way : Node → Prop)
    (state : List Node × List Node) : Prop where
  visited : ∀ node, node ∈ state.1 ↔ way node ∨ node ∈ state.2
  apart : ∀ node ∈ state.2, ¬ way node
  nodup : state.2.Nodup
  closed : ∀ node ∈ state.2, ∀ next ∈ successors node, next ∈ state.1
  comesBack : ComesBack successors way state.2

/-- Some nodes are visited, and with them what they lead to. -/
structure Finishes (successors : Node → List Node) (nodes : List Node)
    (state result : List Node × List Node) : Prop where
  visited : state.1 ⊆ result.1
  kept : state.2 ⊆ result.2
  fresh : ∀ node ∈ result.2, node ∈ state.2 ∨ ∃ start ∈ nodes, Path successors start node
  all : nodes ⊆ result.1

/-- What is finished is closed, so it does not lead to a node that is not visited. -/
theorem Halfway.not_reach {state : List Node × List Node} (halfway : Halfway successors way state)
    {node last : Node} (mem : node ∈ state.2) (unvisited : last ∉ state.1) :
    ¬ Reach successors way node last := by
  intro reach
  induction reach with
  | here => exact unvisited ((halfway.visited _).mpr (.inr mem))
  | step free edge rest inductionHypothesis =>
      have isVisited := (halfway.visited _).mp (halfway.closed _ mem _ edge)
      exact inductionHypothesis (isVisited.resolve_left rest.free_first) unvisited

/-- If each of the nodes is visited in turn, all are. -/
theorem finishes_foldl {go : List Node × List Node → Node → List Node × List Node}
    {holds : List Node × List Node → Prop} {nodes : List Node} {state : List Node × List Node}
    (goes : ∀ node ∈ nodes, ∀ state, Halfway successors way state → holds state →
      Halfway successors way (go state node) ∧ Finishes successors [node] state (go state node))
    (keeps : ∀ state result, state.1 ⊆ result.1 → holds state → holds result)
    (halfway : Halfway successors way state) (initial : holds state) :
    Halfway successors way (nodes.foldl go state) ∧
      Finishes successors nodes state (nodes.foldl go state) := by
  induction nodes generalizing state with
  | nil =>
      exact ⟨halfway, List.Subset.refl _, List.Subset.refl _, fun _ => .inl, List.nil_subset _⟩
  | cons first nodes inductionHypothesis =>
      obtain ⟨between, one⟩ := goes first List.mem_cons_self state halfway initial
      obtain ⟨after, others⟩ := inductionHypothesis
        (fun node mem => goes node (List.mem_cons_of_mem _ mem)) between
        (keeps _ _ one.visited initial)
      refine ⟨after, List.Subset.trans one.visited others.visited,
        List.Subset.trans one.kept others.kept, fun node mem => ?_, ?_⟩
      · rcases others.fresh node mem with old | ⟨start, isStart, path⟩
        · refine (one.fresh node old).imp_right fun ⟨start, isStart, path⟩ => ?_
          exact ⟨first, List.mem_cons_self, List.mem_singleton.mp isStart ▸ path⟩
        · exact .inr ⟨start, List.mem_cons_of_mem _ isStart, path⟩
      · exact List.cons_subset.mpr
          ⟨others.visited (one.all (List.mem_singleton_self first)), others.all⟩

/-- A node whose successors have been visited is finished. -/
theorem Halfway.finish {node : Node} {state result : List Node × List Node}
    (before : Halfway successors way state) (unvisited : node ∉ state.1)
    (after : Halfway successors (fun other => way other ∨ other = node) result)
    (finishes : Finishes successors (successors node) (node :: state.1, state.2) result) :
    Halfway successors way (result.1, node :: result.2) where
  visited := by
    intro other
    rw [after.visited, or_assoc, List.mem_cons]
  apart := by
    intro other mem onWay
    rcases List.mem_cons.mp mem with rfl | later
    · exact unvisited ((before.visited _).mpr (.inl onWay))
    · exact after.apart other later (.inl onWay)
  nodup := List.nodup_cons.mpr ⟨fun mem => after.apart node mem (.inr rfl), after.nodup⟩
  closed := by
    intro other mem next edge
    rcases List.mem_cons.mp mem with rfl | later
    · exact finishes.all edge
    · exact after.closed other later next edge
  comesBack := by
    intro front first rest isOrder other mem reach
    cases front with
    | nil =>
        cases isOrder
        rcases finishes.fresh other mem with old | ⟨next, edge, path⟩
        · refine absurd (reach.mono fun _ => .inl) (before.not_reach old unvisited)
        · exact .head edge path
    | cons second front =>
        obtain ⟨rfl, isRest⟩ := List.cons.inj isOrder
        refine after.comesBack isRest other mem (reach.mono fun passed avoided => ?_)
        rcases avoided with (onWay | rfl) | inFront
        · exact .inl onWay
        · exact .inr List.mem_cons_self
        · exact .inr (List.mem_cons_of_mem _ inFront)

/-- A node is on the way before its successors are visited. -/
theorem Halfway.start {node : Node} {state : List Node × List Node}
    (halfway : Halfway successors way state) (unvisited : node ∉ state.1) :
    Halfway successors (fun other => way other ∨ other = node) (node :: state.1, state.2) where
  visited := by
    intro other
    rw [List.mem_cons, halfway.visited, or_comm, or_right_comm]
  apart := by
    rintro other mem (onWay | rfl)
    · exact halfway.apart other mem onWay
    · exact unvisited ((halfway.visited _).mpr (.inr mem))
  nodup := halfway.nodup
  closed := fun other mem next edge => List.mem_cons_of_mem _ (halfway.closed other mem next edge)
  comesBack := by
    intro front first rest isOrder other mem reach
    exact halfway.comesBack isOrder other mem (reach.mono fun _ => .imp_left .inl)

variable [DecidableEq Node] {nodes : List Node}
  (within : ∀ node ∈ nodes, ∀ next ∈ successors node, next ∈ nodes)

include within

/-- With fuel for every node that is not visited, a node is visited with all that it leads to. -/
theorem finishes_topo {bound : Nat} {node : Node} {state : List Node × List Node}
    (enough : (nodes.toFinset \ state.1.toFinset).card ≤ bound) (isNode : node ∈ nodes)
    (halfway : Halfway successors way state) :
    Halfway successors way (topo successors bound state node) ∧
      Finishes successors [node] state (topo successors bound state node) := by
  induction bound generalizing node way state with
  | zero =>
      have none := Finset.card_eq_zero.mp (Nat.le_zero.mp enough)
      have isVisited : node ∈ state.1 := by
        by_contra unvisited
        have mem : node ∈ nodes.toFinset \ state.1.toFinset := by simp [isNode, unvisited]
        rw [none] at mem
        cases mem
      exact ⟨halfway, List.Subset.refl _, List.Subset.refl _, fun _ => .inl,
        List.cons_subset.mpr ⟨isVisited, List.nil_subset _⟩⟩
  | succ bound inductionHypothesis =>
      obtain ⟨visited, order⟩ := state
      rw [topo]
      split
      · rename_i isVisited
        exact ⟨halfway, List.Subset.refl _, List.Subset.refl _, fun _ => .inl,
          List.cons_subset.mpr ⟨isVisited, List.nil_subset _⟩⟩
      · rename_i unvisited
        have fewer : (nodes.toFinset \ (node :: visited).toFinset).card ≤ bound := by
          refine Nat.le_of_lt_succ (Nat.lt_of_lt_of_le (Finset.card_lt_card ?_) enough)
          refine Finset.ssubset_iff_of_subset (fun other mem => ?_) |>.mpr ⟨node, ?_, ?_⟩
          · simp only [Finset.mem_sdiff, List.mem_toFinset, List.mem_cons, not_or] at mem ⊢
            exact ⟨mem.1, mem.2.2⟩
          · simp [isNode, unvisited]
          · simp
        obtain ⟨after, finishes⟩ := @finishes_foldl _ _ _ _
          (fun state => (nodes.toFinset \ state.1.toFinset).card ≤ bound) _ _
          (fun next edge _ halfway enough =>
            inductionHypothesis enough (within node isNode next edge) halfway)
          (fun _ _ grows enough => (Finset.card_le_card (Finset.sdiff_subset_sdiff subset_rfl
            fun _ mem => List.mem_toFinset.mpr (grows (List.mem_toFinset.mp mem)))).trans enough)
          (halfway.start unvisited) fewer
        refine ⟨halfway.finish unvisited after finishes, ?_, ?_, fun other mem => ?_, ?_⟩
        · exact List.Subset.trans (List.subset_cons_self _ _) finishes.visited
        · exact List.Subset.trans finishes.kept (List.subset_cons_self _ _)
        · rcases List.mem_cons.mp mem with rfl | later
          · exact .inr ⟨other, List.mem_cons_self, .refl⟩
          · refine (finishes.fresh other later).imp_right fun ⟨next, edge, path⟩ => ?_
            exact ⟨node, List.mem_cons_self, .head edge path⟩
        · exact List.cons_subset.mpr ⟨finishes.visited List.mem_cons_self, List.nil_subset _⟩

/-- What some nodes lead to is finished once, and comes back. -/
structure PostOrdered (successors : Node → List Node) (starts order : List Node) : Prop where
  nodup : order.Nodup
  mem_iff : ∀ node, node ∈ order ↔ ∃ start ∈ starts, Path successors start node
  comesBack : ComesBack successors (fun _ => False) order

theorem postOrdered_topo {bound : Nat} {starts : List Node} (enough : nodes.length ≤ bound)
    (areNodes : starts ⊆ nodes) :
    PostOrdered successors starts (starts.foldl (topo successors bound) ([], [])).2 := by
  have initial : Halfway successors (fun _ => False) (([], []) : List Node × List Node) := by
    refine ⟨by simp, by simp, List.nodup_nil, by simp, fun {front} _ _ isOrder => ?_⟩
    cases front <;> cases isOrder
  have few : ∀ state : List Node × List Node, (nodes.toFinset \ state.1.toFinset).card ≤ bound :=
    fun state => (Finset.card_le_card Finset.sdiff_subset).trans
      (nodes.toFinset_card_le.trans enough)
  obtain ⟨after, finishes⟩ := @finishes_foldl _ _ _ _ (fun _ => True) starts _
    (fun node mem state halfway _ => finishes_topo within (few state) (areNodes mem) halfway)
    (fun _ _ _ holds => holds) initial trivial
  have visited {node : Node} := (after.visited node).trans (or_iff_right id)
  refine ⟨after.nodup, fun node => ⟨fun mem => ?_, ?_⟩, after.comesBack⟩
  · exact (finishes.fresh node mem).resolve_left List.not_mem_nil
  · rintro ⟨start, isStart, path⟩
    induction path with
    | refl => exact visited.mp (finishes.all isStart)
    | tail _ edge inductionHypothesis =>
        exact visited.mp (after.closed _ inductionHypothesis _ edge)

end Topo

/-! ### Without cycles -/

section Acyclic

variable {rank : Node → Nat} {starts order front rest : List Node} {node last : Node}

theorem Path.rank_le (falls : ∀ node, ∀ next ∈ successors node, rank next < rank node)
    (path : Path successors node last) : rank last ≤ rank node := by
  induction path with
  | refl => exact Nat.le_refl _
  | tail _ edge inductionHypothesis =>
      exact (Nat.le_of_lt (falls _ _ edge)).trans inductionHypothesis

/-- Where ranks fall along the edges, what a node leads to comes behind it. -/
theorem PostOrdered.mem_rest (ordered : PostOrdered successors starts order)
    (falls : ∀ node, ∀ next ∈ successors node, rank next < rank node)
    (isOrder : order = front ++ node :: rest) (path : Path successors node last) :
    last ∈ node :: rest := by
  induction path with
  | refl => exact List.mem_cons_self
  | @tail middle next before edge inductionHypothesis =>
      obtain ⟨early, late, isSplit⟩ := List.append_of_mem inductionHypothesis
      rw [isSplit, ← List.append_assoc] at isOrder
      have nodup := isOrder ▸ ordered.nodup
      have isMiddle : middle ∈ order := isOrder ▸ List.mem_append_right _ List.mem_cons_self
      have isNext : next ∈ order := by
        obtain ⟨start, isStart, path⟩ := (ordered.mem_iff middle).mp isMiddle
        exact (ordered.mem_iff next).mpr ⟨start, isStart, path.tail edge⟩
      -- otherwise the edge to a node in front would come back
      have notBefore : next ∉ front ++ early := by
        intro inFront
        obtain ⟨far, between, isFront⟩ := List.append_of_mem inFront
        rw [isFront, List.append_assoc, List.cons_append] at isOrder nodup
        have apart := (List.nodup_append.mp nodup).2.2
        have back := ordered.comesBack isOrder middle (by simp)
          (.step (fun avoided => apart _ (avoided.resolve_left id) middle (by simp) rfl) edge
            (.here fun avoided => apart _ (avoided.resolve_left id) next (by simp) rfl))
        exact Nat.lt_irrefl _ (Nat.lt_of_le_of_lt (back.rank_le falls) (falls _ _ edge))
      rw [isOrder] at isNext
      have behind := (List.mem_append.mp isNext).resolve_left notBefore
      rw [isSplit]
      exact List.mem_append_right _ behind

end Acyclic

end Dynamatic.ControlFlow
