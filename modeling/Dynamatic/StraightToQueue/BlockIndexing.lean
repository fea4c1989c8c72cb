import Mathlib.Data.List.MinMax
import Dynamatic.ControlFlow.Dominance
import Dynamatic.ControlFlow.PostOrder
import Dynamatic.ControlFlow.TopologicalOrder

/-!
# Numbering the blocks of a region

`BlockIndexing` numbers the blocks in a topological order of the control-flow graph
without its back edges, which are the edges towards a block that does not come later
in a reverse post-order. Among the blocks that are ready the first in the region is
numbered next, and blocks that are not reachable come last. In such an order each
block comes behind its dominators.
-/

namespace Dynamatic.StraightToQueue

open Dynamatic.ControlFlow

/-- The blocks of a region in their order, the entry first, and the successors of each. -/
structure Region (Block : Type) where
  entry : Block
  others : List Block
  successors : Block → List Block
  distinct : (entry :: others).Nodup
  closed : ∀ block ∈ entry :: others, successors block ⊆ entry :: others

namespace Region

variable {Block : Type} (region : Region Block)

def blocks : List Block := region.entry :: region.others

/-- Blocks along the edges of the region. -/
def IsPath (path : List Block) : Prop :=
  path.IsChain fun block successor => successor ∈ region.successors block

/-- Control from the entry on, as far as it has come. -/
def IsExecution (execution : List Block) : Prop :=
  region.IsPath execution ∧ execution.head? = some region.entry

def IsReachable (block : Block) : Prop :=
  ∃ execution, region.IsExecution execution ∧ execution.getLast? = some block

/-- A block other than the second is on every way to it. -/
def ProperlyDominates (dominator block : Block) : Prop :=
  dominator ≠ block ∧ ∀ execution, region.IsExecution execution →
    execution.getLast? = some block → dominator ∈ execution

variable {region} in
/-- Control goes on to a successor. -/
theorem IsExecution.concat {execution : List Block} (isExecution : region.IsExecution execution)
    {parent block : Block} (last : execution.getLast? = some parent)
    (isNext : block ∈ region.successors parent) : region.IsExecution (execution ++ [block]) :=
  IsWalk.concat isExecution last isNext

variable [DecidableEq Block]

instance (execution : List Block) : Decidable (region.IsExecution execution) :=
  inferInstanceAs (Decidable
    (execution.IsChain (fun block successor => successor ∈ region.successors block) ∧
      execution.head? = some region.entry))

/-- The position of a block in the region. -/
def position (block : Block) : Nat := region.blocks.idxOf block

/-- The reachable blocks in a reverse post-order. -/
def reversePostOrder : List Block :=
  (PostOrder.visit region.successors (region.blocks.length + 1) region.entry ([], [])).2.reverse

/-- The place of a block in the reverse post-order, and zero for a block that is not there. -/
def rpoIndex (block : Block) : Nat :=
  if block ∈ region.reversePostOrder then region.reversePostOrder.idxOf block else 0

def isForwardEdge (src dst : Block) : Bool := decide (region.rpoIndex src < region.rpoIndex dst)

/-- The successors of a block through edges that are not back edges. -/
def forward (block : Block) : List Block :=
  (region.successors block).filter (region.isForwardEdge block)

/-- The blocks that have a place in the reverse post-order. -/
def reachable : List Block := region.reversePostOrder.dedup

/-- The block on top of the ready blocks is the first in the region. -/
def top (readyBlocks : List Block) : Option Block := readyBlocks.argmin region.position

/-- The blocks by their indices. -/
def indexToBlock : List Block :=
  (TopologicalOrder.run region.forward region.top region.blocks.length
      (TopologicalOrder.start region.forward region.reachable region.entry)).numbered ++
    region.blocks.filter fun block => block ∉ region.reversePostOrder

def getIndexFromBlock (block : Block) : Option Nat :=
  if block ∈ region.indexToBlock then some (region.indexToBlock.idxOf block) else none

def isGreater (first second : Block) : Bool :=
  match region.getIndexFromBlock first, region.getIndexFromBlock second with
  | some firstIndex, some secondIndex => decide (firstIndex > secondIndex)
  | _, _ => false

def isLess (first second : Block) : Bool :=
  match region.getIndexFromBlock first, region.getIndexFromBlock second with
  | some firstIndex, some secondIndex => decide (firstIndex < secondIndex)
  | _, _ => false

end Region

/-! ### The reverse post-order -/

namespace Region

variable {Block : Type} [DecidableEq Block] {region : Region Block}

theorem mem_reversePostOrder {block : Block} :
    block ∈ region.reversePostOrder ↔
      block ∈ (PostOrder.visit region.successors (region.blocks.length + 1) region.entry
        ([], [])).2 := List.mem_reverse

private theorem reached_entry :
    PostOrder.Reached region.successors [] []
        (PostOrder.visit region.successors (region.blocks.length + 1) region.entry ([], [])) ∧
      region.entry ∈
        (PostOrder.visit region.successors (region.blocks.length + 1) region.entry ([], [])).2 :=
  PostOrder.reached_visit region.closed List.mem_cons_self List.nodup_nil (List.nil_subset _)
    List.not_mem_nil (Nat.lt_succ_self region.blocks.length) []

theorem entry_mem_reversePostOrder : region.entry ∈ region.reversePostOrder :=
  mem_reversePostOrder.mpr reached_entry.2

theorem successors_mem_reversePostOrder {block : Block} (mem : block ∈ region.reversePostOrder) :
    region.successors block ⊆ region.reversePostOrder := by
  intro successor isNext
  have listed := (reached_entry.1.closed block (mem_reversePostOrder.mp mem)).resolve_left
    List.not_mem_nil successor isNext
  exact mem_reversePostOrder.mpr (listed.resolve_right List.not_mem_nil)

/-- Every listed block but the entry is a successor of one that comes before it. -/
theorem exists_parent {block : Block} (mem : block ∈ region.reversePostOrder)
    (notEntry : block ≠ region.entry) :
    ∃ parent ∈ region.reversePostOrder, block ∈ region.successors parent ∧
      region.rpoIndex parent < region.rpoIndex block := by
  obtain ⟨added, same, parented⟩ := PostOrder.parented_visit (region.blocks.length + 1)
    region.entry ([] : List Block) []
  rw [List.nil_append] at same
  rw [mem_reversePostOrder, same] at mem
  obtain ⟨parent, isParent, isNext, less⟩ :=
    parented.exists_parent mem (mt List.mem_singleton.mp notEntry)
  rw [← same, ← mem_reversePostOrder] at isParent mem
  refine ⟨parent, isParent, isNext, ?_⟩
  rwa [rpoIndex, rpoIndex, if_pos isParent, if_pos mem, reversePostOrder, same]

/-- What is executed is reachable. -/
theorem mem_reversePostOrder_of_execution {execution : List Block}
    (isExecution : region.IsExecution execution) {block : Block} (mem : block ∈ execution) :
    block ∈ region.reversePostOrder := by
  have all : ∀ (path : List Block), region.IsPath path →
      (∀ first ∈ path.head?, first ∈ region.reversePostOrder) →
      ∀ block ∈ path, block ∈ region.reversePostOrder := by
    intro path
    induction path with
    | nil => exact fun _ _ _ mem => by cases mem
    | cons first rest inductionHypothesis =>
        intro isPath head
        have here := head first rfl
        refine List.forall_mem_cons.mpr ⟨here, inductionHypothesis isPath.tail ?_⟩
        cases rest with
        | nil => exact fun _ mem => by cases mem
        | cons next rest =>
            rintro _ ⟨⟩
            exact successors_mem_reversePostOrder here (List.isChain_cons_cons.mp isPath).1
  refine all execution isExecution.1 (fun first isFirst => ?_) block mem
  rw [isExecution.2] at isFirst
  cases isFirst
  exact entry_mem_reversePostOrder

theorem rpoIndex_entry : region.rpoIndex region.entry = 0 := by
  obtain ⟨rest, same⟩ : ∃ rest, region.reversePostOrder = region.entry :: rest := by
    rw [reversePostOrder, PostOrder.visit, if_neg List.not_mem_nil]
    dsimp only
    rw [List.reverse_append]
    exact ⟨_, rfl⟩
  rw [rpoIndex, if_pos entry_mem_reversePostOrder, same, List.idxOf_cons_self]

theorem mem_reachable {block : Block} :
    block ∈ region.reachable ↔ block ∈ region.reversePostOrder := List.mem_dedup

/-- The forward edges between the reachable blocks are a graph for the numbering. -/
theorem graph_forward : TopologicalOrder.Graph region.forward region.reachable region.entry where
  distinct := List.nodup_dedup _
  isNode := mem_reachable.mpr entry_mem_reversePostOrder
  closed := by
    intro block mem successor isNext
    have isSuccessor := List.mem_of_mem_filter isNext
    exact mem_reachable.mpr (successors_mem_reversePostOrder (mem_reachable.mp mem) isSuccessor)
  source_notEntered := by
    intro block _ isNext
    have less := of_decide_eq_true (List.mem_filter.mp isNext).2
    rw [rpoIndex_entry] at less
    exact Nat.not_lt_zero _ less
  entered := by
    intro block mem notEntry
    obtain ⟨parent, isParent, isNext, less⟩ := exists_parent (mem_reachable.mp mem) notEntry
    exact ⟨parent, mem_reachable.mpr isParent, List.mem_filter.mpr ⟨isNext, decide_eq_true less⟩⟩

/-! ### The indices -/

theorem mem_blocks_of_reachable {block : Block} (mem : block ∈ region.reversePostOrder) :
    block ∈ region.blocks := by
  obtain ⟨added, same, parented⟩ := PostOrder.parented_visit (region.blocks.length + 1)
    region.entry ([] : List Block) []
  rw [List.nil_append] at same
  rw [mem_reversePostOrder, same] at mem
  refine parented.subset (List.cons_subset.mpr ⟨List.mem_cons_self, List.nil_subset _⟩) ?_ mem
  exact region.closed

/-- The reachable blocks are numbered first, behind the blocks that forward edges lead from. -/
theorem numbers_reachable :
    TopologicalOrder.Numbers region.forward region.reachable
      (TopologicalOrder.run region.forward region.top region.blocks.length
        (TopologicalOrder.start region.forward region.reachable region.entry)).numbered := by
  refine TopologicalOrder.numbers_run graph_forward ?_ ?_ region.rpoIndex ?_ ?_
  · exact fun ready block isTop => List.argmin_mem isTop
  · exact fun ready noTop => List.argmin_eq_none.mp noTop
  · exact fun parent _ block isNext => of_decide_eq_true (List.mem_filter.mp isNext).2
  · have within : region.reachable ⊆ region.blocks := fun block mem =>
      mem_blocks_of_reachable (mem_reachable.mp mem)
    exact ((List.nodup_dedup _).subperm within).length_le

theorem mem_indexToBlock {block : Block} (isBlock : block ∈ region.blocks) :
    block ∈ region.indexToBlock := by
  by_cases mem : block ∈ region.reversePostOrder
  · exact List.mem_append_left _ ((numbers_reachable.mem_iff block).mpr (mem_reachable.mpr mem))
  · exact List.mem_append_right _ (List.mem_filter.mpr ⟨isBlock, decide_eq_true mem⟩)

theorem isLess_iff {first second : Block} (isFirst : first ∈ region.blocks)
    (isSecond : second ∈ region.blocks) :
    region.isLess first second = true ↔
      region.indexToBlock.idxOf first < region.indexToBlock.idxOf second := by
  rw [isLess, getIndexFromBlock, getIndexFromBlock, if_pos (mem_indexToBlock isFirst),
    if_pos (mem_indexToBlock isSecond)]
  exact decide_eq_true_iff

theorem isGreater_eq (first second : Block) :
    region.isGreater first second = region.isLess second first := by
  rw [isGreater, isLess]
  cases region.getIndexFromBlock first <;> cases region.getIndexFromBlock second <;> rfl

/-- Of two blocks, one comes first. -/
theorem isLess_or_isLess {first second : Block} (isFirst : first ∈ region.blocks)
    (isSecond : second ∈ region.blocks) (apart : first ≠ second) :
    region.isLess first second = true ∨ region.isLess second first = true := by
  rw [isLess_iff isFirst isSecond, isLess_iff isSecond isFirst]
  refine Nat.lt_or_gt_of_ne fun same => apart ?_
  exact (List.idxOf_inj (mem_indexToBlock isFirst)).mp same

/-- Blocks along forward edges have rising indices. -/
theorem isLess_of_forward {parent block : Block} (isParent : parent ∈ region.reachable)
    (isNext : block ∈ region.forward parent) : region.isLess parent block = true := by
  have isBlock := graph_forward.closed parent isParent isNext
  have less := numbers_reachable.idxOf_lt isParent isBlock isNext
  rw [isLess_iff (mem_blocks_of_reachable (mem_reachable.mp isParent))
    (mem_blocks_of_reachable (mem_reachable.mp isBlock)), indexToBlock,
    List.idxOf_append_of_mem ((numbers_reachable.mem_iff parent).mpr isParent),
    List.idxOf_append_of_mem ((numbers_reachable.mem_iff block).mpr isBlock)]
  exact less

theorem isLess_asymm {first second : Block} (less : region.isLess first second = true) :
    region.isLess second first = false := by
  rw [isLess] at less ⊢
  cases isFirst : region.getIndexFromBlock first <;>
    cases isSecond : region.getIndexFromBlock second <;> simp_all
  omega

theorem isLess_trans {first second third : Block} (less : region.isLess first second = true)
    (later : region.isLess second third = true) : region.isLess first third = true := by
  rw [isLess] at less later ⊢
  cases isFirst : region.getIndexFromBlock first <;>
    cases isSecond : region.getIndexFromBlock second <;>
    cases isThird : region.getIndexFromBlock third <;> simp_all
  omega

/-- Execution reaches a block along forward edges. -/
theorem exists_forward_execution {block : Block} (mem : block ∈ region.reversePostOrder) :
    ∃ execution, region.IsExecution execution ∧ execution.getLast? = some block ∧
      ∀ other ∈ execution, other ≠ block → region.isLess other block = true := by
  have all : ∀ bound, ∀ block ∈ region.reversePostOrder, region.rpoIndex block < bound →
      ∃ execution, region.IsExecution execution ∧ execution.getLast? = some block ∧
        ∀ other ∈ execution, other ≠ block → region.isLess other block = true := by
    intro bound
    induction bound with
    | zero => exact fun _ _ less => absurd less (Nat.not_lt_zero _)
    | succ bound inductionHypothesis =>
        intro block mem below
        by_cases isEntry : block = region.entry
        · subst isEntry
          refine ⟨[region.entry], ⟨.singleton _, rfl⟩, rfl, fun other isOther apart => ?_⟩
          exact absurd (List.mem_singleton.mp isOther) apart
        · obtain ⟨parent, isParent, isNext, rises⟩ := exists_parent mem isEntry
          obtain ⟨execution, isExecution, last, less⟩ :=
            inductionHypothesis parent isParent (by omega)
          have forward : block ∈ region.forward parent :=
            List.mem_filter.mpr ⟨isNext, decide_eq_true rises⟩
          have step := isLess_of_forward (mem_reachable.mpr isParent) forward
          refine ⟨execution ++ [block], isExecution.concat last isNext, List.getLast?_concat,
            fun other isOther apart => ?_⟩
          rcases List.mem_append.mp isOther with earlier | here
          · by_cases same : other = parent
            · rw [same]
              exact step
            · exact isLess_trans (less other earlier same) step
          · exact absurd (List.mem_singleton.mp here) apart
  exact all (region.rpoIndex block + 1) block mem (Nat.lt_succ_self _)

/-- A block comes behind its dominators. -/
theorem isLess_of_properlyDominates {dominator block : Block}
    (mem : block ∈ region.reversePostOrder)
    (dominates : region.ProperlyDominates dominator block) :
    region.isLess dominator block = true := by
  obtain ⟨execution, isExecution, last, less⟩ := exists_forward_execution mem
  exact less dominator (dominates.2 execution isExecution last) dominates.1

end Region

end Dynamatic.StraightToQueue
