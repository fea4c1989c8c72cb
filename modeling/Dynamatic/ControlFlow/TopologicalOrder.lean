import Mathlib.Data.List.Nodup
import Mathlib.Data.List.Perm.Subperm

/-!
# Numbering in topological order

A node is ready once every edge into it comes from a numbered node. Whichever ready
node is numbered next, in a graph without cycles in which each node but the source
is entered, every node is numbered, behind all nodes that enter it.
-/

namespace Dynamatic.ControlFlow.TopologicalOrder

variable {Node : Type} [DecidableEq Node]

structure State (Node : Type) where
  ready : List Node
  /-- The number of edges into a node from nodes that are not numbered. -/
  pending : Node → Nat
  numbered : List Node

/-- An edge is done with, and its node ready if it was the last. -/
def release (released : (Node → Nat) × List Node) (node : Node) : (Node → Nat) × List Node :=
  let pending := Function.update released.1 node (released.1 node - 1)
  (pending, if pending node = 0 then released.2 ++ [node] else released.2)

section Run

variable (next : Node → List Node) (pick : List Node → Option Node)

def step (state : State Node) : Option (State Node) :=
  (pick state.ready).map fun node =>
    let released := (next node).foldl release (state.pending, state.ready.erase node)
    ⟨released.2, released.1, state.numbered ++ [node]⟩

def run : Nat → State Node → State Node
  | 0, state => state
  | fuel + 1, state =>
      match step next pick state with
      | none => state
      | some state => run fuel state

end Run

/-! ### Releasing edges -/

/-- Releasing edges takes each node's edges off what it waits for, and nodes that wait for no
others are ready behind. -/
theorem foldl_release (nodes : List Node) (pending : Node → Nat) (ready : List Node)
    (enough : ∀ node, nodes.count node ≤ pending node) :
    let released := nodes.foldl release (pending, ready)
    (∀ node, released.1 node = pending node - nodes.count node) ∧
      (∀ node, node ∈ released.2 ↔
        node ∈ ready ∨ node ∈ nodes ∧ pending node = nodes.count node) ∧
      (ready.Nodup → (∀ node ∈ nodes, node ∉ ready) → released.2.Nodup) := by
  induction nodes generalizing pending ready with
  | nil => exact ⟨fun _ => rfl, fun _ => by simp, fun distinct _ => distinct⟩
  | cons first nodes inductionHypothesis =>
      have one : 1 ≤ pending first := Nat.le_trans (by simp) (enough first)
      have later : ∀ node, nodes.count node ≤
          Function.update pending first (pending first - 1) node := by
        intro node
        have more := enough node
        rw [List.count_cons] at more
        by_cases same : node = first
        · subst same
          rw [Function.update_self]
          simp only [BEq.rfl, if_true] at more
          omega
        · rw [Function.update_of_ne same]
          omega
      rw [List.foldl_cons]
      obtain ⟨left, isReady, distinct⟩ := inductionHypothesis
        (Function.update pending first (pending first - 1))
        (release (pending, ready) first).2 later
      have reduced : Function.update pending first (pending first - 1) first = pending first - 1 :=
        Function.update_self ..
      have counted : (first :: nodes).count first = nodes.count first + 1 := List.count_cons_self
      have laterFirst := later first
      rw [reduced] at laterFirst
      refine ⟨fun node => ?_, fun node => (isReady node).trans ?_, fun nodup fresh => ?_⟩
      · refine (left node).trans ?_
        by_cases same : node = first
        · subst same
          rw [reduced, counted]
          omega
        · rw [Function.update_of_ne same, List.count_cons_of_ne (Ne.symm same)]
      · dsimp only [release]
        rw [reduced]
        by_cases same : node = first
        · subst same
          by_cases last : pending node = 1
          · rw [if_pos (by omega), counted]
            refine iff_of_true (.inl (by simp)) (.inr ⟨List.mem_cons_self, ?_⟩)
            omega
          · rw [if_neg (by omega), reduced, counted]
            refine or_congr_right ?_
            constructor
            · rintro ⟨-, equal⟩
              exact ⟨List.mem_cons_self, by omega⟩
            · rintro ⟨-, equal⟩
              exact ⟨List.count_pos_iff.mp (by omega), by omega⟩
        · rw [Function.update_of_ne same, List.count_cons_of_ne (Ne.symm same), List.mem_cons,
            or_iff_right same]
          split <;> simp [same]
      · have notReady : first ∉ ready := fresh first List.mem_cons_self
        have pushed : (release (pending, ready) first).2 =
            if pending first - 1 = 0 then ready ++ [first] else ready := by
          dsimp only [release]
          rw [reduced]
        by_cases last : pending first - 1 = 0
        · rw [if_pos last] at pushed
          refine distinct ?_ fun node mem isReady => ?_
          · rw [pushed, List.nodup_append]
            refine ⟨nodup, List.nodup_singleton _, fun node mem other isFirst same => ?_⟩
            rw [same, List.mem_singleton.mp isFirst] at mem
            exact notReady mem
          · rw [pushed] at isReady
            rcases List.mem_append.mp isReady with old | new
            · exact fresh node (List.mem_cons_of_mem _ mem) old
            · rw [List.mem_singleton.mp new] at mem
              have some := List.count_pos_iff.mpr mem
              omega
        · rw [if_neg last] at pushed
          refine distinct ?_ fun node mem => ?_
          · rw [pushed]
            exact nodup
          · rw [pushed]
            exact fresh node (List.mem_cons_of_mem _ mem)

/-! ### Numbering -/

/-- The nodes and edges that are numbered: the source is not entered, every other node is. -/
structure Graph (next : Node → List Node) (nodes : List Node) (source : Node) : Prop where
  distinct : nodes.Nodup
  isNode : source ∈ nodes
  closed : ∀ node ∈ nodes, next node ⊆ nodes
  source_notEntered : ∀ node ∈ nodes, source ∉ next node
  entered : ∀ node ∈ nodes, node ≠ source → ∃ parent ∈ nodes, node ∈ next parent

/-- The nodes that are not numbered. -/
def left (nodes numbered : List Node) : List Node := nodes.filter fun node => node ∉ numbered

/-- What numbering keeps. -/
structure Keeps (next : Node → List Node) (nodes : List Node) (source : Node)
    (state : State Node) : Prop where
  distinct : (state.ready ++ state.numbered).Nodup
  within : state.ready ++ state.numbered ⊆ nodes
  pending : ∀ node, state.pending node = ((left nodes state.numbered).flatMap next).count node
  released : ∀ node, node ∈ state.ready ++ state.numbered ↔
    node = source ∨ state.pending node = 0 ∧ node ∈ nodes.flatMap next
  ordered : ∀ before node after, state.numbered = before ++ node :: after →
    ∀ parent ∈ nodes, node ∈ next parent → parent ∈ before

variable {next : Node → List Node} {pick : List Node → Option Node} {nodes : List Node}
  {source : Node} {state : State Node}

theorem left_perm (distinct : nodes.Nodup) {numbered : List Node} {node : Node}
    (isNode : node ∈ nodes) (isLeft : node ∉ numbered) :
    (left nodes numbered).Perm (node :: left nodes (numbered ++ [node])) := by
  have mem : node ∈ left nodes numbered := List.mem_filter.mpr ⟨isNode, by simpa using isLeft⟩
  have erased : left nodes (numbered ++ [node]) = (left nodes numbered).erase node := by
    rw [left, left, (distinct.filter _).erase_eq_filter, List.filter_filter]
    refine List.filter_congr fun other _ => ?_
    rw [Bool.eq_iff_iff]
    simp [and_comm]
  rw [erased]
  exact List.perm_cons_erase mem

/-- A node that is ready waits for nothing. -/
theorem Keeps.pending_eq_zero (keeps : Keeps next nodes source state)
    (graph : Graph next nodes source) {node : Node} (mem : node ∈ state.ready ++ state.numbered) :
    state.pending node = 0 := by
  rcases (keeps.released node).mp mem with rfl | ⟨zero, -⟩
  · rw [keeps.pending, List.count_eq_zero, List.mem_flatMap]
    rintro ⟨other, isLeft, isNext⟩
    exact graph.source_notEntered other (List.mem_of_mem_filter isLeft) isNext
  · exact zero

theorem Keeps.step (keeps : Keeps next nodes source state) (graph : Graph next nodes source)
    (picks : ∀ ready node, pick ready = some node → node ∈ ready) {after : State Node}
    (steps : step next pick state = some after) : Keeps next nodes source after := by
  obtain ⟨node, isPicked, rfl⟩ := Option.map_eq_some_iff.mp steps
  have isReady := picks _ _ isPicked
  have isNode : node ∈ nodes := keeps.within (List.mem_append_left _ isReady)
  obtain ⟨readyDistinct, numberedDistinct, apart⟩ := List.nodup_append.mp keeps.distinct
  have notNumbered : node ∉ state.numbered := fun mem => apart node isReady node mem rfl
  have counts : ∀ other, state.pending other = (next node).count other +
      ((left nodes (state.numbered ++ [node])).flatMap next).count other := by
    intro other
    have perm := (left_perm graph.distinct isNode notNumbered).flatMap_right next
    rw [keeps.pending, perm.count_eq, List.flatMap_cons, List.count_append]
  obtain ⟨pending, mem_ready, distinct⟩ := foldl_release (next node) state.pending
    (state.ready.erase node) fun other => by rw [counts]; exact Nat.le_add_right _ _
  have waiting : ∀ other ∈ next node, other ∉ state.ready ++ state.numbered := by
    intro other isNext mem
    have zero := keeps.pending_eq_zero graph mem
    have some := List.count_pos_iff.mpr isNext
    rw [counts] at zero
    omega
  generalize (next node).foldl release (state.pending, state.ready.erase node) = released at *
  have mem_after : ∀ other, other ∈ released.2 ++ (state.numbered ++ [node]) ↔
      other ∈ state.ready ++ state.numbered ∨
        other ∈ next node ∧ state.pending other = (next node).count other := by
    intro other
    have split : other ∈ state.ready ↔ other ∈ state.ready.erase node ∨ other = node := by
      rw [readyDistinct.mem_erase_iff]
      by_cases same : other = node
      · simp [same, isReady]
      · simp [same]
    simp only [List.mem_append, mem_ready, split, List.mem_singleton]
    tauto
  refine ⟨?_, ?_, fun other => ?_, fun other => ?_, ?_⟩
  · have readyApart : ∀ other ∈ next node, other ∉ state.ready.erase node := fun other isNext mem =>
      waiting other isNext (List.mem_append_left _ (List.mem_of_mem_erase mem))
    have released := distinct (readyDistinct.erase node) readyApart
    refine List.nodup_append.mpr ⟨released, ?_, ?_⟩
    · refine List.nodup_append.mpr ⟨numberedDistinct, List.nodup_singleton _, ?_⟩
      intro first mem second isNode same
      rw [same, List.mem_singleton.mp isNode] at mem
      exact notNumbered mem
    · intro first mem second isNumbered same
      rw [← same] at isNumbered
      rcases (mem_ready first).mp mem with old | ⟨isNext, -⟩
      · rcases List.mem_append.mp isNumbered with numbered | isNode
        · exact apart first (List.mem_of_mem_erase old) first numbered rfl
        · rw [List.mem_singleton.mp isNode] at old
          exact readyDistinct.not_mem_erase old
      · refine waiting first isNext ?_
        rcases List.mem_append.mp isNumbered with numbered | isNode
        · exact List.mem_append_right _ numbered
        · rw [List.mem_singleton.mp isNode]
          exact List.mem_append_left _ isReady
  · intro other mem
    rcases (mem_after other).mp mem with old | ⟨isNext, -⟩
    · exact keeps.within old
    · exact graph.closed node isNode isNext
  · dsimp only
    rw [pending, counts]
    omega
  · dsimp only
    rw [mem_after, keeps.released, pending]
    have parts := counts other
    constructor
    · rintro ((isSource | ⟨zero, entered⟩) | ⟨isNext, equal⟩)
      · exact .inl isSource
      · exact .inr ⟨by omega, entered⟩
      · exact .inr ⟨by omega, List.mem_flatMap.mpr ⟨node, isNode, isNext⟩⟩
    · rintro (isSource | ⟨zero, entered⟩)
      · exact .inl (.inl isSource)
      · by_cases isNext : other ∈ next node
        · exact .inr ⟨isNext, by omega⟩
        · have none := List.count_eq_zero.mpr isNext
          exact .inl (.inr ⟨by omega, entered⟩)
  · intro before last after same parent isParent isNext
    rcases List.eq_nil_or_concat after with rfl | ⟨others, final, rfl⟩
    · obtain ⟨rfl, isLast⟩ := List.append_inj' same rfl
      cases isLast
      have zero := keeps.pending_eq_zero graph (List.mem_append_left _ isReady)
      rw [keeps.pending, List.count_eq_zero, List.mem_flatMap] at zero
      by_contra notNumbered
      exact zero ⟨parent, List.mem_filter.mpr ⟨isParent, by simpa using notNumbered⟩, isNext⟩
    · rw [List.concat_eq_append, ← List.cons_append, ← List.append_assoc] at same
      exact keeps.ordered before last others (List.append_inj' same rfl).1 parent isParent isNext

/-! ### Whole runs -/

/-- At first the source is ready. -/
def start (next : Node → List Node) (nodes : List Node) (source : Node) : State Node :=
  ⟨[source], fun node => (nodes.flatMap next).count node, []⟩

theorem Keeps.start (graph : Graph next nodes source) :
    Keeps next nodes source (start next nodes source) := by
  refine ⟨by simp [TopologicalOrder.start], ?_, fun node => ?_, fun node => ?_, ?_⟩
  · exact List.cons_subset.mpr ⟨graph.isNode, List.nil_subset _⟩
  · simp [TopologicalOrder.start, left]
  · have never : ¬ ((nodes.flatMap next).count node = 0 ∧ node ∈ nodes.flatMap next) :=
      fun ⟨zero, mem⟩ => List.count_eq_zero.mp zero mem
    simp only [TopologicalOrder.start, never, or_false, List.append_nil, List.mem_singleton]
  · intro before node after same
    simp [TopologicalOrder.start] at same

theorem Keeps.run (graph : Graph next nodes source)
    (picks : ∀ ready node, pick ready = some node → node ∈ ready)
    (picksNone : ∀ ready, pick ready = none → ready = []) (fuel : Nat)
    (keeps : Keeps next nodes source state) :
    Keeps next nodes source (run next pick fuel state) ∧
      ((run next pick fuel state).ready = [] ∨
        fuel + state.numbered.length ≤ (run next pick fuel state).numbered.length) := by
  induction fuel generalizing state with
  | zero => exact ⟨keeps, .inr (by simp [TopologicalOrder.run])⟩
  | succ fuel inductionHypothesis =>
      rw [TopologicalOrder.run]
      cases steps : TopologicalOrder.step next pick state with
      | none => exact ⟨keeps, .inl (picksNone _ (Option.map_eq_none_iff.mp steps))⟩
      | some after =>
          obtain ⟨kept, done⟩ := inductionHypothesis (keeps.step graph picks steps)
          have longer : after.numbered.length = state.numbered.length + 1 := by
            obtain ⟨node, -, rfl⟩ := Option.map_eq_some_iff.mp steps
            exact List.length_append
          refine ⟨kept, done.imp_right fun enough => ?_⟩
          dsimp only
          omega

/-- Without cycles, every node gets ready. -/
theorem Keeps.all_numbered (keeps : Keeps next nodes source state)
    (graph : Graph next nodes source) (rank : Node → Nat)
    (rises : ∀ parent ∈ nodes, ∀ node ∈ next parent, rank parent < rank node)
    (done : state.ready = []) : nodes ⊆ state.numbered := by
  have released := keeps.released
  rw [done, List.nil_append] at released
  have all : ∀ bound, ∀ node ∈ nodes, rank node < bound → node ∈ state.numbered := by
    intro bound
    induction bound with
    | zero => exact fun _ _ less => absurd less (Nat.not_lt_zero _)
    | succ bound inductionHypothesis =>
        intro node isNode less
        rw [released]
        by_cases isSource : node = source
        · exact .inl isSource
        · refine .inr ⟨?_, List.mem_flatMap.mpr (graph.entered node isNode isSource)⟩
          rw [keeps.pending, List.count_eq_zero, List.mem_flatMap]
          rintro ⟨parent, isLeft, isNext⟩
          obtain ⟨isParent, notNumbered⟩ := List.mem_filter.mp isLeft
          have below := rises parent isParent node isNext
          have numbered := inductionHypothesis parent isParent (by omega)
          simp [numbered] at notNumbered
  exact fun node isNode => all (rank node + 1) node isNode (Nat.lt_succ_self _)

/-- Every node is numbered once, behind all nodes that enter it. -/
structure Numbers (next : Node → List Node) (nodes numbered : List Node) : Prop where
  distinct : numbered.Nodup
  mem_iff : ∀ node, node ∈ numbered ↔ node ∈ nodes
  ordered : ∀ before node after, numbered = before ++ node :: after →
    ∀ parent ∈ nodes, node ∈ next parent → parent ∈ before

theorem numbers_run (graph : Graph next nodes source)
    (picks : ∀ ready node, pick ready = some node → node ∈ ready)
    (picksNone : ∀ ready, pick ready = none → ready = []) (rank : Node → Nat)
    (rises : ∀ parent ∈ nodes, ∀ node ∈ next parent, rank parent < rank node)
    {fuel : Nat} (enough : nodes.length ≤ fuel) :
    Numbers next nodes (run next pick fuel (start next nodes source)).numbered := by
  obtain ⟨keeps, done⟩ := Keeps.run graph picks picksNone fuel (Keeps.start graph)
  have distinct := (List.nodup_append.mp keeps.distinct).2.1
  have within := (List.append_subset.mp keeps.within).2
  refine ⟨distinct, fun node => ⟨fun mem => within mem, fun isNode => ?_⟩, keeps.ordered⟩
  rcases done with ready | long
  · exact keeps.all_numbered graph rank rises ready isNode
  · have none : (start next nodes source).numbered.length = 0 := rfl
    have whole := (distinct.subperm within).perm_of_length_le (by omega)
    exact whole.mem_iff.mpr isNode

/-- A node that enters another comes before it. -/
theorem Numbers.idxOf_lt {numbered : List Node} (numbers : Numbers next nodes numbered)
    {parent node : Node} (isParent : parent ∈ nodes) (isNode : node ∈ nodes)
    (isNext : node ∈ next parent) : numbered.idxOf parent < numbered.idxOf node := by
  obtain ⟨before, after, same⟩ := List.append_of_mem ((numbers.mem_iff node).mpr isNode)
  have isBefore := numbers.ordered before node after same parent isParent isNext
  have distinct := numbers.distinct
  rw [same] at distinct ⊢
  have fresh : node ∉ before := fun mem =>
    (List.nodup_append.mp distinct).2.2 node mem node List.mem_cons_self rfl
  rw [List.idxOf_append_of_mem isBefore, List.idxOf_append_of_notMem fresh]
  have short := List.idxOf_lt_length_of_mem isBefore
  omega

end Dynamatic.ControlFlow.TopologicalOrder
