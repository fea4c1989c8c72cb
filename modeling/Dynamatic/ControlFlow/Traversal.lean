import Dynamatic.ControlFlow.Preorder

/-!
# Traversals that cut edges

A depth-first traversal visits each node once and goes on along its edges, except where an edge
is cut; a cut changes a state. Afterwards every edge of a visited node has been cut or leads to
a visited node. Without cuts, traversals from several nodes one after the other list what is
reached from one of them.
-/

namespace Dynamatic.ControlFlow

variable {Node Edge State : Type} (edges : Node → List Edge) (target : Edge → Node)
  (cut : State → Edge → Option State)

/-- Go on along an edge that is not cut. -/
def follow (go : List Node × State → Node → List Node × State) :
    List Node × State → Edge → List Node × State
  | (visited, state), edge =>
      match cut state edge with
      | some state => (visited, state)
      | none => go (visited, state) (target edge)

/-- The nodes visited so far and the state, after a node is visited. -/
def traverse [DecidableEq Node] : Nat → List Node × State → Node → List Node × State
  | 0, state, _ => state
  | fuel + 1, (visited, state), node =>
      if node ∈ visited then (visited, state)
      else (edges node).foldl (follow target cut (traverse fuel)) (node :: visited, state)

/-! ### What is covered -/

section Covers

/-- What a traversal does, with a property of the edges that were cut: the edges of the nodes
that it adds are cut or lead to visited nodes. -/
structure Covers (done : State → Edge → Prop) (state result : List Node × State) : Prop where
  visited : state.1 ⊆ result.1
  keeps : ∀ edge, done state.2 edge → done result.2 edge
  covered : ∀ node ∈ result.1, node ∈ state.1 ∨
    ∀ edge ∈ edges node, done result.2 edge ∨ target edge ∈ result.1

variable {edges target cut} {done : State → Edge → Prop} {state middle result : List Node × State}

theorem Covers.refl (state : List Node × State) : Covers edges target done state state :=
  ⟨List.Subset.refl _, fun _ => id, fun _ => .inl⟩

theorem Covers.trans (first : Covers edges target done state middle)
    (second : Covers edges target done middle result) : Covers edges target done state result where
  visited := List.Subset.trans first.visited second.visited
  keeps := fun edge isDone => second.keeps edge (first.keeps edge isDone)
  covered := by
    intro node mem
    rcases second.covered node mem with early | late
    · refine (first.covered node early).imp_right fun covered edge isEdge => ?_
      exact (covered edge isEdge).imp (second.keeps edge) fun mem => second.visited mem
    · exact .inr late

/-- A node with all its edges taken is covered. -/
theorem Covers.visit {visited : List Node} {held : State} {node : Node}
    (covers : Covers edges target done (node :: visited, held) result)
    (taken : ∀ edge ∈ edges node, done result.2 edge ∨ target edge ∈ result.1) :
    Covers edges target done (visited, held) result where
  visited := (List.cons_subset.mp covers.visited).2
  keeps := covers.keeps
  covered := by
    intro other mem
    rcases covers.covered other mem with early | late
    · rcases List.mem_cons.mp early with rfl | old
      · exact .inr taken
      · exact .inl old
    · exact .inr late

variable (cuts : ∀ {state after edge}, cut state edge = some after → done after edge)
  (keeps : ∀ {state after edge}, cut state edge = some after → ∀ other, done state other →
    done after other)

include cuts keeps

/-- If each node that is gone on to is covered, all edges are taken. -/
theorem covers_foldl {go : List Node × State → Node → List Node × State} {start : List Node}
    (goes : ∀ state : List Node × State, start ⊆ state.1 → ∀ node,
      Covers edges target done state (go state node) ∧ node ∈ (go state node).1)
    (within : start ⊆ state.1) (rest : List Edge) :
    Covers edges target done state (rest.foldl (follow target cut go) state) ∧
      ∀ edge ∈ rest, done (rest.foldl (follow target cut go) state).2 edge ∨
        target edge ∈ (rest.foldl (follow target cut go) state).1 := by
  induction rest generalizing state with
  | nil => exact ⟨.refl state, fun _ mem => nomatch mem⟩
  | cons edge rest inductionHypothesis =>
      have one : Covers edges target done state (follow target cut go state edge) ∧
          (done (follow target cut go state edge).2 edge ∨
            target edge ∈ (follow target cut go state edge).1) := by
        obtain ⟨visited, held⟩ := state
        rw [follow]
        split
        · rename_i after isCut
          exact ⟨⟨List.Subset.refl _, keeps isCut, fun _ => .inl⟩, .inl (cuts isCut)⟩
        · obtain ⟨covers, mem⟩ := goes (visited, held) within (target edge)
          exact ⟨covers, .inr mem⟩
      obtain ⟨first, taken⟩ := one
      obtain ⟨others, all⟩ := inductionHypothesis (List.Subset.trans within first.visited)
      refine ⟨first.trans others, List.forall_mem_cons.mpr ⟨?_, all⟩⟩
      exact taken.imp (others.keeps edge) fun mem => others.visited mem

/-- With fuel for every node that is not visited, a node is visited and covered. -/
theorem covers_traverse [DecidableEq Node] [Fintype Node] {fuel : Nat} {node : Node}
    (enough : (Finset.univ.filter (· ∉ state.1)).card < fuel) :
    Covers edges target done state (traverse edges target cut fuel state node) ∧
      node ∈ (traverse edges target cut fuel state node).1 := by
  induction fuel generalizing state node with
  | zero => exact absurd enough (Nat.not_lt_zero _)
  | succ fuel inductionHypothesis =>
      obtain ⟨visited, held⟩ := state
      rw [traverse]
      split
      · rename_i mem
        exact ⟨.refl _, mem⟩
      · rename_i fresh
        obtain ⟨covers, taken⟩ := @covers_foldl _ _ _ edges target cut done (node :: visited, held)
          cuts keeps (traverse edges target cut fuel) (node :: visited)
          (fun state within next => by
            refine inductionHypothesis (Nat.lt_of_lt_of_le (Finset.card_lt_card ?_)
              (Nat.le_of_lt_succ enough))
            refine Finset.ssubset_iff_of_subset (fun other mem => ?_) |>.mpr
              ⟨node, by simpa using fresh, by simpa using within List.mem_cons_self⟩
            simp only [Finset.mem_filter, Finset.mem_univ, true_and] at mem ⊢
            exact fun seen => mem (within (.tail _ seen)))
          (List.Subset.refl _) (edges node)
        exact ⟨covers.visit taken, covers.visited List.mem_cons_self⟩

end Covers

/-! ### What is kept -/

section Kept

variable {edges target cut} {holds : List Node × State → Prop} {entered : Node → Prop}

/-- What holds before a traversal, and is kept when a node is entered and when an edge is cut,
holds after it. -/
theorem holds_traverse [DecidableEq Node]
    (enters : ∀ {visited state node}, entered node → holds (visited, state) →
      holds (node :: visited, state))
    (cuts : ∀ {visited state after node}, entered node → ∀ edge ∈ edges node,
      holds (visited, state) → cut state edge = some after → holds (visited, after))
    (goes : ∀ {visited state node}, entered node → ∀ edge ∈ edges node,
      holds (visited, state) → cut state edge = none → entered (target edge))
    {fuel : Nat} {state : List Node × State} {node : Node} (isEntered : entered node)
    (initial : holds state) : holds (traverse edges target cut fuel state node) := by
  induction fuel generalizing state node with
  | zero => exact initial
  | succ fuel inductionHypothesis =>
      obtain ⟨visited, held⟩ := state
      rw [traverse]
      split
      · exact initial
      · refine List.foldlRecOn (edges node) (follow target cut (traverse edges target cut fuel))
          (enters isEntered initial) fun state stillHolds edge isEdge => ?_
        obtain ⟨visited, held⟩ := state
        rw [follow]
        split
        · rename_i isCut
          exact cuts isEntered edge isEdge stillHolds isCut
        · rename_i goesOn
          exact inductionHypothesis (goes isEntered edge isEdge stillHolds goesOn) stillHolds

end Kept

/-! ### Traversals without cuts -/

section Marks

variable [DecidableEq Node] [Fintype Node] {successors : Node → List Node} {avoid : Node → Prop}
  {order starts : List Node} {node : Node}

/-- Traversals from several nodes list what is reached from one of them, around nodes that are
listed before. -/
theorem mem_foldl_preorder (listed : ∀ node, avoid node → node ∈ order)
    (closed : ∀ node ∈ order, ¬ avoid node → ∀ next ∈ successors node, next ∈ order) :
    node ∈ starts.foldl (preorder successors (Fintype.card Node + 1)) order ↔
      node ∈ order ∨ ∃ start ∈ starts, Reach successors avoid start node := by
  induction starts generalizing order with
  | nil => simp
  | cons start starts inductionHypothesis =>
      obtain ⟨added, isListed, isAdded, _⟩ := lists_whole successors order start
      have within {first last : Node} (mem : first ∈ order)
          (reach : Reach successors avoid first last) : last ∈ order := by
        induction reach with
        | here => exact mem
        | step free edge _ inductionHypothesis =>
            exact inductionHypothesis (closed _ mem free _ edge)
      have isReached : node ∈ order ++ added ↔
          node ∈ order ∨ Reach successors avoid start node := by
        rw [List.mem_append, isAdded]
        constructor
        · exact Or.imp_right fun reach => reach.mono listed
        · rintro (mem | reach)
          · exact .inl mem
          · rcases reach.around_or_through (· ∈ order) with around | ⟨member, mem, _, rest⟩
            · exact .inr (around.mono fun _ => .inr)
            · exact .inl (within mem rest)
      have stillClosed : ∀ node ∈ order ++ added, ¬ avoid node → ∀ next ∈ successors node,
          next ∈ order ++ added := by
        intro node mem free next edge
        rcases List.mem_append.mp mem with old | new
        · exact List.mem_append_left _ (closed node old free next edge)
        · by_cases inOrder : next ∈ order
          · exact List.mem_append_left _ inOrder
          · have reach := (isAdded node).mp new
            exact List.mem_append_right _ ((isAdded next).mpr
              (reach.trans (.step reach.free_last edge (.here inOrder))))
      rw [List.foldl_cons, isListed, inductionHypothesis
        (fun node avoided => List.mem_append_left _ (listed node avoided)) stillClosed, isReached,
        or_assoc]
      simp only [List.mem_cons, exists_eq_or_imp]

end Marks

end Dynamatic.ControlFlow
