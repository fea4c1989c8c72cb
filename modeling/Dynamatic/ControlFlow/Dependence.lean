import Dynamatic.ControlFlow.PostDominance
import Dynamatic.ControlFlow.ReversePostOrder

/-!
# First nodes and dependence

In a part of a graph that its edges do not leave, there is only one first node, from any
node, of a set that holds the branches on which its nodes depend. So where ranks fall along
the edges, a run, which takes one of the edges of each node, leads to a node of the set if
any path does that takes the same edges at the nodes of the set.
-/

namespace Dynamatic.ControlFlow

variable {Node : Type} {successors : Node → List Node} {exits : List Node}
  {part members : Node → Prop} {rank : Node → Nat} {node goal first second : Node}

/-- The edges do not leave a part of the graph. -/
def Kept (successors : Node → List Node) (part : Node → Prop) : Prop :=
  ∀ {node next}, part node → next ∈ successors node → part next

theorem Kept.reach {avoid : Node → Prop} (kept : Kept successors part) (inside : part node)
    (reach : Reach successors avoid node goal) : part goal := by
  induction reach with
  | here => exact inside
  | step _ edge _ inductionHypothesis => exact inductionHypothesis (kept inside edge)

/-- In a part of the graph, a set holds the branches on which its nodes depend. -/
def Closed (successors : Node → List Node) (exits : List Node) (part members : Node → Prop) :
    Prop :=
  ∀ {branch node}, part branch → members node → DependsOn successors exits node branch →
    members branch

/-- A path leads to a node of the set through nodes outside of it. -/
inductive First (successors : Node → List Node) (members : Node → Prop) : Node → Node → Prop where
  | here {node : Node} (mem : members node) : First successors members node node
  | step {node next last : Node} (outside : ¬ members node) (edge : next ∈ successors node)
      (rest : First successors members next last) : First successors members node last

section First

theorem First.mem (isFirst : First successors members node first) : members first := by
  induction isFirst with
  | here mem => exact mem
  | step _ _ _ inductionHypothesis => exact inductionHypothesis

theorem First.path (isFirst : First successors members node first) :
    Path successors node first := by
  induction isFirst with
  | here => exact .refl
  | step _ edge _ inductionHypothesis => exact .head edge inductionHypothesis

/-- A path to a node of the set comes to a first one. -/
theorem Path.exists_first (path : Path successors node goal) (mem : members goal) :
    ∃ first, First successors members node first ∧ Path successors first goal := by
  classical
  induction path using Relation.ReflTransGen.head_induction_on with
  | refl => exact ⟨goal, .here mem, .refl⟩
  | @head node next edge rest inductionHypothesis =>
      by_cases inSet : members node
      · exact ⟨node, .here inSet, .head edge rest⟩
      · obtain ⟨first, isFirst, further⟩ := inductionHypothesis
        exact ⟨first, .step inSet edge isFirst, further⟩

theorem First.kept (kept : Kept successors part) (isFirst : First successors members node first)
    (inside : part node) : part first := by
  induction isFirst with
  | here => exact inside
  | step _ edge _ inductionHypothesis => exact inductionHypothesis (kept inside edge)

theorem First.postDom (kept : Kept successors part) (closed : Closed successors exits part members)
    (isFirst : First successors members node first) (inside : part node) :
    PostDom successors exits first node := by
  induction isFirst with
  | here => exact .refl _
  | @step node next first outside edge rest inductionHypothesis =>
      by_contra notPostDom
      have below := inductionHypothesis (kept inside edge)
      exact outside (closed inside rest.mem ⟨next, edge, below, fun strict => notPostDom strict.2⟩)

/-- What comes for certain, and is in the set, comes after the first node of the set. -/
theorem First.postDom_of_mem (isFirst : First successors members node first)
    (mem : members second) (postDom : PostDom successors exits second node) :
    PostDom successors exits second first := by
  induction isFirst with
  | here => exact postDom
  | step outside edge _ inductionHypothesis =>
      exact inductionHypothesis (postDom.next (fun same => outside (same ▸ mem)) edge)

/-- There is only one first node of a closed set. -/
theorem First.unique (kept : Kept successors part)
    (closed : Closed successors exits part members) (leads : LeadsToExits successors exits)
    (inside : part node) (isFirst : First successors members node first)
    (isSecond : First successors members node second) : first = second :=
  (isSecond.postDom_of_mem isFirst.mem (isFirst.postDom kept closed inside)).antisymm leads
    (isFirst.postDom_of_mem isSecond.mem (isSecond.postDom kept closed inside))

/-- In a topological order of what a node leads to, its first node of a closed set comes before
the others. -/
theorem First.find?_eq_some [DecidablePred members] {order : List Node} (kept : Kept successors part)
    (closed : Closed successors exits part members) (leads : LeadsToExits successors exits)
    (ordered : PostOrdered successors [node] order)
    (falls : ∀ node, ∀ next ∈ successors node, rank next < rank node) (inside : part node)
    (isFirst : First successors members node first) :
    order.find? (fun other => decide (members other)) = some first := by
  have reached {other : Node} : other ∈ order ↔ Path successors node other := by
    rw [ordered.mem_iff]
    simp
  cases found : order.find? (fun other => decide (members other)) with
  | none =>
      have outside := List.find?_eq_none.mp found first (reached.mpr isFirst.path)
      exact absurd (decide_eq_true isFirst.mem) outside
  | some other =>
      obtain ⟨isMember, front, rest, isOrder, before⟩ := List.find?_eq_some_iff_append.mp found
      have mem : members other := of_decide_eq_true isMember
      have isReached : other ∈ order := isOrder ▸ List.mem_append_right _ List.mem_cons_self
      obtain ⟨second, isSecond, further⟩ := (reached.mp isReached).exists_first mem
      rw [isSecond.unique kept closed leads inside isFirst] at further
      have isListed : first ∈ order := reached.mpr isFirst.path
      rw [isOrder] at isListed
      rcases List.mem_append.mp isListed with inFront | behind
      · have outside := before first inFront
        simp [isFirst.mem] at outside
      · rcases List.mem_cons.mp behind with same | later
        · rw [same]
        · -- otherwise the path from the first node would lead to one in front of it
          obtain ⟨between, last, rfl⟩ := List.append_of_mem later
          have nodup := isOrder ▸ ordered.nodup
          rw [← List.cons_append, ← List.append_assoc] at isOrder nodup
          have again := ordered.mem_rest falls isOrder further
          exact absurd rfl ((List.nodup_append.mp nodup).2.2 other (by simp) other again)

end First

/-! ### Runs -/

/-- A run takes one of the edges of each node that has some. -/
structure Takes (successors : Node → List Node) (taken : Node → Option Node) : Prop where
  edge : ∀ {node next}, taken node = some next → next ∈ successors node
  goesOn : ∀ {node}, successors node ≠ [] → ∃ next, taken node = some next

/-- The run from a node comes to another one. -/
def Leads (taken : Node → Option Node) : Node → Node → Prop :=
  Relation.ReflTransGen fun node next => taken node = some next

/-- A path leads to a node and takes the same edges as the run at the nodes of a set. -/
inductive Agrees (successors : Node → List Node) (taken : Node → Option Node)
    (members : Node → Prop) : Node → Node → Prop where
  | here {node : Node} : Agrees successors taken members node node
  | step {node next goal : Node} (edge : next ∈ successors node)
      (same : members node → taken node = some next)
      (rest : Agrees successors taken members next goal) :
      Agrees successors taken members node goal

section Runs

variable {taken : Node → Option Node}

theorem leads_iff_of_taken {next : Node} (isTaken : taken node = some next)
    (differs : node ≠ goal) : Leads taken node goal ↔ Leads taken next goal := by
  constructor
  · intro leads
    rcases Relation.ReflTransGen.cases_head leads with same | ⟨other, isOther, rest⟩
    · exact absurd same differs
    · rw [isTaken] at isOther
      cases isOther
      exact rest
  · exact .head isTaken

theorem Takes.eq_none (takes : Takes successors taken) (isEnd : successors node = []) :
    taken node = none := by
  cases isTaken : taken node with
  | none => rfl
  | some next =>
      have edge := takes.edge isTaken
      rw [isEnd] at edge
      cases edge

/-- A run goes no further where no edge is taken. -/
theorem Leads.eq_of_none (isTaken : taken node = none) (leads : Leads taken node goal) :
    node = goal := by
  rcases Relation.ReflTransGen.cases_head leads with same | ⟨next, isNext, _⟩
  · exact same
  · rw [isTaken] at isNext
    cases isNext

theorem Leads.agrees (takes : Takes successors taken) (leads : Leads taken node goal) :
    Agrees successors taken members node goal := by
  induction leads using Relation.ReflTransGen.head_induction_on with
  | refl => exact .here
  | head isTaken _ inductionHypothesis =>
      exact .step (takes.edge isTaken) (fun _ => isTaken) inductionHypothesis

/-- A path stops at the goal, and need not agree there. -/
theorem Agrees.whole {more : Node → Prop} (agrees : Agrees successors taken members node goal)
    (within : ∀ node, successors node ≠ [] → more node → node = goal ∨ members node) :
    Agrees successors taken more node goal := by
  classical
  induction agrees with
  | here => exact .here
  | @step node next goal edge same _ inductionHypothesis =>
      by_cases isGoal : node = goal
      · exact isGoal ▸ .here
      · refine .step edge (fun mem => ?_) (inductionHypothesis within)
        exact same ((within node (List.ne_nil_of_mem edge) mem).resolve_left isGoal)

/-- A run to a node of the set comes to a first one. -/
theorem Leads.exists_first (takes : Takes successors taken) (leads : Leads taken node goal)
    (mem : members goal) :
    ∃ first, First successors members node first ∧ Leads taken first goal := by
  classical
  induction leads using Relation.ReflTransGen.head_induction_on with
  | refl => exact ⟨goal, .here mem, .refl⟩
  | @head node next isTaken rest inductionHypothesis =>
      by_cases inSet : members node
      · exact ⟨node, .here inSet, .head isTaken rest⟩
      · obtain ⟨first, isFirst, further⟩ := inductionHypothesis
        exact ⟨first, .step inSet (takes.edge isTaken) isFirst, further⟩

variable (falls : ∀ {node next}, next ∈ successors node → rank next < rank node)
  (ends : ∀ {node}, successors node = [] → members node)

include falls ends

/-- A run comes to a node of a set that holds the ends. -/
theorem exists_first (takes : Takes successors taken) (node : Node) :
    ∃ first, First successors members node first ∧ Leads taken node first := by
  classical
  induction isRank : rank node using Nat.strong_induction_on generalizing node with
  | _ bound inductionHypothesis =>
      by_cases inSet : members node
      · exact ⟨node, .here inSet, .refl⟩
      · obtain ⟨next, isTaken⟩ := takes.goesOn (mt ends inSet)
        have edge := takes.edge isTaken
        obtain ⟨first, isFirst, leads⟩ :=
          inductionHypothesis (rank next) (isRank ▸ falls edge) next rfl
        exact ⟨first, .step inSet edge isFirst, .head isTaken leads⟩

variable (takes : Takes successors taken) (kept : Kept successors part)
  (closed : Closed successors exits part members) (toExits : LeadsToExits successors exits)

include takes kept closed toExits

/-- A run leads to a node of the set if it does from the first one. -/
theorem First.leads_iff (isFirst : First successors members node first) (inside : part node)
    (mem : members goal) : Leads taken node goal ↔ Leads taken first goal := by
  constructor
  · intro leads
    obtain ⟨other, isOther, further⟩ := leads.exists_first takes mem
    exact isFirst.unique kept closed toExits inside isOther ▸ further
  · intro leads
    obtain ⟨other, isOther, before⟩ := exists_first falls ends takes node
    rw [isOther.unique kept closed toExits inside isFirst] at before
    exact before.trans leads

/-- A run leads to a node of the set if a path does that agrees with it at the nodes of the set. -/
theorem Agrees.leads (agrees : Agrees successors taken members node goal) (inside : part node)
    (mem : members goal) : Leads taken node goal := by
  classical
  induction agrees with
  | here => exact .refl
  | @step node next goal edge same _ inductionHypothesis =>
      have further := inductionHypothesis (kept inside edge) mem
      by_cases inSet : members node
      · exact .head (same inSet) further
      · obtain ⟨first, isFirst, rest⟩ := further.exists_first takes mem
        have onNode : First successors members node first := .step inSet edge isFirst
        exact (onNode.leads_iff falls ends takes kept closed toExits inside mem).mpr rest

end Runs

end Dynamatic.ControlFlow
