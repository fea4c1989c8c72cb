import Dynamatic.ControlFlow.SortedOrder
import Dynamatic.Numerals
import Dynamatic.StraightToQueue.BlockIndexing

/-!
# The order of the block numbers

`BlockIndexing` gives each block of a region a number of its own. In the order of the numbers a
block comes behind its dominators, edges that are not back edges go up, and blocks that are not
reachable come last; a region that lists its blocks in such an order keeps it.
-/

namespace Dynamatic.StraightToQueue

open Dynamatic.ControlFlow

namespace Region

variable {Block : Type} [DecidableEq Block] (region : Region Block)

def getBlockFromIndex (index : Nat) : Option Block := region.indexToBlock[index]?

/-- The number of a block of the region. -/
def number (block : Block) : Nat := (region.getIndexFromBlock block).getD 0

/-- An order of the blocks by numbers. A block that is not reachable dominates none. -/
structure InOrder (number : Block → Nat) : Prop where
  dominators : ∀ dominator block, region.IsReachable dominator → block ∈ region.blocks →
    region.ProperlyDominates dominator block → number dominator < number block
  forwardEdges : ∀ src, region.IsReachable src → ∀ dst ∈ region.successors src,
    region.isForwardEdge src dst = true → number src < number dst
  unreachableLast : ∀ first ∈ region.blocks, ∀ last ∈ region.blocks, region.IsReachable first →
    ¬ region.IsReachable last → number first < number last

variable {region}

theorem isReachable_iff {block : Block} :
    region.IsReachable block ↔ block ∈ region.reversePostOrder := by
  constructor
  · rintro ⟨execution, isExecution, last⟩
    exact mem_reversePostOrder_of_execution isExecution (List.mem_of_getLast? last)
  · intro mem
    obtain ⟨execution, isExecution, last, -⟩ := exists_forward_execution mem
    exact ⟨execution, isExecution, last⟩

/-- The blocks that are reachable and those that are not are all numbered, each once. -/
theorem indexToBlock_perm : region.indexToBlock.Perm region.blocks := by
  have numbers := @numbers_reachable Block _ region
  have reachable : (region.blocks.filter (· ∈ region.reversePostOrder)).Perm
      (TopologicalOrder.run region.forward region.top region.blocks.length
        (TopologicalOrder.start region.forward region.reachable region.entry)).numbered := by
    refine (List.perm_ext_iff_of_nodup (region.distinct.filter _) numbers.distinct).mpr ?_
    intro block
    rw [numbers.mem_iff, mem_reachable, List.mem_filter, decide_eq_true_iff]
    exact and_iff_right_of_imp mem_blocks_of_reachable
  refine (reachable.symm.append_right _).trans ?_
  have whole := List.filter_append_perm (· ∈ region.reversePostOrder) region.blocks
  simpa only [Bool.not_eq_true, decide_not] using whole

theorem getIndexFromBlock_eq {block : Block} (isBlock : block ∈ region.blocks) :
    region.getIndexFromBlock block = some (region.indexToBlock.idxOf block) :=
  if_pos (mem_indexToBlock isBlock)

theorem number_eq {block : Block} (isBlock : block ∈ region.blocks) :
    region.number block = region.indexToBlock.idxOf block := by
  rw [number, getIndexFromBlock_eq isBlock, Option.getD_some]

/-- A block has an index below the number of blocks, and is the block with this index. -/
theorem getBlockFromIndex_of_mem {block : Block} (isBlock : block ∈ region.blocks) :
    ∃ index < region.blocks.length, region.getIndexFromBlock block = some index ∧
      region.getBlockFromIndex index = some block := by
  have bound := List.idxOf_lt_length_of_mem (mem_indexToBlock isBlock)
  refine ⟨region.indexToBlock.idxOf block, ?_, getIndexFromBlock_eq isBlock, ?_⟩
  · rw [← indexToBlock_perm.length_eq]
    exact bound
  · rw [getBlockFromIndex, List.getElem?_eq_getElem bound, List.getElem_idxOf]

theorem getIndexFromBlock_of_lt {index : Nat} (bound : index < region.blocks.length) :
    ∃ block ∈ region.blocks, region.getBlockFromIndex index = some block ∧
      region.getIndexFromBlock block = some index := by
  rw [← indexToBlock_perm.length_eq] at bound
  have isBlock := indexToBlock_perm.subset (List.getElem_mem bound)
  refine ⟨region.indexToBlock[index], isBlock, List.getElem?_eq_getElem bound, ?_⟩
  have distinct := indexToBlock_perm.nodup_iff.mpr region.distinct
  rw [getIndexFromBlock_eq isBlock, distinct.idxOf_getElem]

/-! ### The order of the numbers -/

theorem number_lt_of_isLess {first second : Block} (isFirst : first ∈ region.blocks)
    (isSecond : second ∈ region.blocks) (less : region.isLess first second = true) :
    region.number first < region.number second := by
  rw [number_eq isFirst, number_eq isSecond]
  exact (isLess_iff isFirst isSecond).mp less

theorem number_lt_of_unreachable {first last : Block} (isLast : last ∈ region.blocks)
    (reachable : region.IsReachable first) (unreachable : ¬ region.IsReachable last) :
    region.number first < region.number last := by
  have listed := isReachable_iff.mp reachable
  have notListed := mt isReachable_iff.mpr unreachable
  have isFirst := (numbers_reachable.mem_iff first).mpr (mem_reachable.mpr listed)
  have notNumbered := mt (numbers_reachable.mem_iff last).mp (mt mem_reachable.mp notListed)
  rw [number_eq (mem_blocks_of_reachable listed), number_eq isLast, indexToBlock,
    List.idxOf_append_of_mem isFirst, List.idxOf_append_of_notMem notNumbered]
  have bound := List.idxOf_lt_length_of_mem isFirst
  omega

/-- The numbers are in order. -/
theorem inOrder_number : region.InOrder region.number where
  dominators := by
    intro dominator block reachable isBlock dominates
    by_cases blockReachable : region.IsReachable block
    · have isDominator := mem_blocks_of_reachable (isReachable_iff.mp reachable)
      exact number_lt_of_isLess isDominator isBlock
        (isLess_of_properlyDominates (isReachable_iff.mp blockReachable) dominates)
    · exact number_lt_of_unreachable isBlock reachable blockReachable
  forwardEdges := by
    intro src reachable dst isNext isForward
    have listed := isReachable_iff.mp reachable
    have forward : dst ∈ region.forward src := List.mem_filter.mpr ⟨isNext, isForward⟩
    exact number_lt_of_isLess (mem_blocks_of_reachable listed)
      (mem_blocks_of_reachable (successors_mem_reversePostOrder listed isNext))
      (isLess_of_forward (mem_reachable.mpr listed) forward)
  unreachableLast := fun _ _ _ isLast => number_lt_of_unreachable isLast

/-! ### A region in order -/

theorem blocks_rises : region.blocks.Pairwise fun first second =>
    region.position first < region.position second := by
  refine List.pairwise_iff_getElem.mpr fun first second isFirst isSecond less => ?_
  have distinct : region.blocks.Nodup := region.distinct
  rw [position, position, distinct.idxOf_getElem, distinct.idxOf_getElem]
  exact less

theorem position_injective {first second : Block} (isFirst : first ∈ region.blocks)
    (same : region.position first = region.position second) : first = second :=
  (List.idxOf_inj isFirst).mp same

/-- The block on top of the ready ones has the least position. -/
theorem top_least {ready : List Block} {block : Block} (isTop : region.top ready = some block) :
    block ∈ ready ∧ ∀ other ∈ ready, region.position block ≤ region.position other :=
  ⟨List.argmin_mem isTop, fun _ mem => List.le_of_mem_argmin mem isTop⟩

/-- The reachable blocks of a region in order are numbered in the order in which they stand. -/
theorem numbered_eq_filter (inOrder : region.InOrder region.position) :
    (TopologicalOrder.run region.forward region.top region.blocks.length
      (TopologicalOrder.start region.forward region.reachable region.entry)).numbered =
    region.blocks.filter (· ∈ region.reversePostOrder) := by
  have edges : ∀ parent ∈ region.reachable, ∀ block ∈ region.forward parent,
      region.position parent < region.position block := by
    intro parent isParent block isForward
    obtain ⟨isNext, isForward⟩ := List.mem_filter.mp isForward
    have reachable := isReachable_iff.mpr (mem_reachable.mp isParent)
    exact inOrder.forwardEdges parent reachable block isNext isForward
  have injective : ∀ first ∈ region.reachable, ∀ second ∈ region.reachable,
      region.position first = region.position second → first = second := by
    intro first isFirst second _ same
    exact position_injective (mem_blocks_of_reachable (mem_reachable.mp isFirst)) same
  have rises := TopologicalOrder.Rises.run graph_forward edges injective
    (fun _ _ => top_least) region.blocks.length ⟨.nil, fun _ mem => absurd mem List.not_mem_nil⟩
    (TopologicalOrder.Keeps.start graph_forward)
  refine numbers_reachable.eq_of_rises rises.numbered (blocks_rises.filter _) fun block => ?_
  rw [mem_reachable, List.mem_filter, decide_eq_true_iff]
  exact and_iff_right_of_imp mem_blocks_of_reachable

/-- A region in order keeps it. -/
theorem indexToBlock_eq_blocks (inOrder : region.InOrder region.position) :
    region.indexToBlock = region.blocks := by
  refine indexToBlock_perm.eq_of_pairwise (fun first second _ _ less greater =>
    absurd (Nat.lt_trans less greater) (Nat.lt_irrefl _)) ?_ blocks_rises
  rw [indexToBlock, numbered_eq_filter inOrder]
  refine List.pairwise_append.mpr ⟨blocks_rises.filter _, blocks_rises.filter _, ?_⟩
  intro first isFirst last isLast
  obtain ⟨isFirst, listed⟩ := List.mem_filter.mp isFirst
  obtain ⟨isLast, notListed⟩ := List.mem_filter.mp isLast
  exact inOrder.unreachableLast first isFirst last isLast
    (isReachable_iff.mpr (of_decide_eq_true listed))
    (mt isReachable_iff.mp (of_decide_eq_true notListed))

/-- The indices are those below the number of blocks, one for each block, they are in order, and
they are the positions of the blocks of a region that is in order. -/
theorem blockIndexing_correct (region : Region Block) :
    (∀ block ∈ region.blocks, ∃ index < region.blocks.length,
      region.getIndexFromBlock block = some index ∧ region.getBlockFromIndex index = some block) ∧
    (∀ index < region.blocks.length, ∃ block ∈ region.blocks,
      region.getBlockFromIndex index = some block ∧ region.getIndexFromBlock block = some index) ∧
    region.InOrder region.number ∧
    (region.InOrder region.position →
      ∀ block ∈ region.blocks, region.getIndexFromBlock block = some (region.position block)) := by
  refine ⟨fun _ => getBlockFromIndex_of_mem, fun _ => getIndexFromBlock_of_lt, inOrder_number, ?_⟩
  intro inOrder block isBlock
  rw [getIndexFromBlock_eq isBlock, indexToBlock_eq_blocks inOrder, position]

open Numerals in
/-- A loop of two blocks, behind which the region lists a block that is not reachable. -/
def twoBlockLoop : Region (Fin 3) where
  entry := 0
  others := [1, 2]
  successors
    | 0 => [1] | 1 => [0, 1] | 2 => [1]
  distinct := by decide
  closed := by decide

theorem twoBlockLoop_inOrder : twoBlockLoop.InOrder twoBlockLoop.position := by
  have unreachable : ¬ twoBlockLoop.IsReachable 2 := by
    rw [isReachable_iff]
    decide
  have entered : ∀ dominator, twoBlockLoop.ProperlyDominates dominator 0 → False := by
    intro dominator dominates
    have mem := dominates.2 [0] ⟨.singleton 0, rfl⟩ rfl
    exact dominates.1 (List.mem_singleton.mp mem)
  refine ⟨?_, ?_, ?_⟩
  · intro dominator block reachable isBlock dominates
    have notLast : dominator ≠ 2 := by
      rintro rfl
      exact unreachable reachable
    have notEntry : block ≠ 0 := by
      rintro rfl
      exact entered dominator dominates
    have apart := dominates.1
    clear isBlock reachable dominates
    revert dominator block
    decide
  · intro src reachable dst isNext isForward
    have notLast : src ≠ 2 := by
      rintro rfl
      exact unreachable reachable
    clear reachable
    revert src dst
    decide
  · intro first isFirst last isLast reachable notReachable
    have onlyLast : ∀ block, block ∉ twoBlockLoop.reversePostOrder → block = 2 := by decide
    obtain rfl := onlyLast last (mt isReachable_iff.mpr notReachable)
    have apart : first ≠ 2 := by
      rintro rfl
      exact unreachable reachable
    clear isLast isFirst reachable notReachable
    revert first
    decide

theorem blockIndexing_twoBlockLoop :
    ∀ block ∈ twoBlockLoop.blocks,
      twoBlockLoop.getIndexFromBlock block = some (twoBlockLoop.position block) :=
  (blockIndexing_correct twoBlockLoop).2.2.2 twoBlockLoop_inOrder

end Region

end Dynamatic.StraightToQueue
