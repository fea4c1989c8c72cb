import Dynamatic.StraightToQueue.Chains

/-!
# Minimization keeps the chains

A predecessor is removed from a group when another one behind it waits for it and
dominates the group: control goes from the first through the other to the group, and
the chain through the other stays. So an execution is linked to a later one exactly
when conflicting accesses lead from one to the other, each in a block that is numbered
before the next or lies in a loop with it.
-/

namespace Dynamatic.StraightToQueue

variable {Block : Type} [DecidableEq Block] {region : Region Block}

/-- What the dominance information says about blocks that control comes to. -/
def IsDominanceInfo (region : Region Block) (properlyDominates : Block → Block → Bool) : Prop :=
  ∀ dominator block, region.IsReachable block →
    (properlyDominates dominator block = true ↔ region.ProperlyDominates dominator block)

/-- Executions of a block are connected to all later executions of another. -/
def Connected (preds : Block → List Block) (execution : List Block) (pred block : Block) : Prop :=
  ∀ first last, first < last → execution[first]? = some pred → execution[last]? = some block →
    Chain preds execution first last

section Minimize

variable {properlyDominates : Block → Block → Bool} {execution : List Block}

omit [DecidableEq Block] in
/-- Control comes to what is executed. -/
theorem Region.IsExecution.take {last : Nat} {block : Block}
    (isExecution : region.IsExecution execution) (isLast : execution[last]? = some block) :
    region.IsExecution (execution.take (last + 1)) ∧
      (execution.take (last + 1)).getLast? = some block :=
  ControlFlow.IsWalk.take isExecution isLast

theorem minimizeGroup_preds (graph : GroupsGraph Block) (group : Block) {pred block : Block} :
    pred ∈ (minimizeGroup region properlyDominates graph group).preds block ↔
      pred ∈ graph.preds block ∧
        (block = group → pred ∉ predsToRemove region properlyDominates graph group) := by
  dsimp only [minimizeGroup]
  by_cases same : block = group
  · subst same
    rw [Function.update_self, List.mem_filter, decide_eq_true_eq]
    exact and_congr_right fun _ => ⟨fun kept _ => kept, fun kept => kept rfl⟩
  · rw [Function.update_of_ne same]
    exact ⟨fun isPred => ⟨isPred, fun equal => absurd equal same⟩, fun both => both.1⟩

/-- A predecessor is removed for one that comes behind it and dominates the group. -/
theorem mem_predsToRemove {graph : GroupsGraph Block} {group sp : Block} :
    sp ∈ predsToRemove region properlyDominates graph group ↔
      sp ∈ graph.preds group ∧ ∃ bp ∈ graph.preds group, sp ≠ bp ∧
        region.isLess bp sp = false ∧ sp ∈ graph.preds bp ∧ properlyDominates bp group = true := by
  rw [predsToRemove, List.mem_filter, List.any_eq_true]
  refine and_congr_right fun _ => exists_congr fun bp => and_congr_right fun _ => ?_
  rw [Region.isGreater_eq, Bool.and_eq_true, Bool.and_eq_true, Bool.not_eq_true',
    Bool.or_eq_false_iff, decide_eq_false_iff_not, decide_eq_true_eq, and_assoc]

/-- In the region, a predecessor is only removed for one with a higher index. -/
theorem isLess_of_behind {sp bp : Block} (isFirst : sp ∈ region.blocks)
    (isSecond : bp ∈ region.blocks) (apart : sp ≠ bp) (behind : region.isLess bp sp = false) :
    region.isLess sp bp = true := by
  refine (Region.isLess_or_isLess isFirst isSecond apart).resolve_right ?_
  rw [behind]
  exact Bool.false_ne_true

/-- All predecessors of the old graph are connected in the new one. -/
theorem connected_minimizeGroup (info : IsDominanceInfo region properlyDominates)
    (isExecution : region.IsExecution execution) (graph : GroupsGraph Block) (group : Block)
    {pred block : Block} (isPred : pred ∈ graph.preds block) :
    Connected (minimizeGroup region properlyDominates graph group).preds execution pred block := by
  by_cases same : block = group
  swap
  · intro first last later isFirst isLast
    refine Chain.of_pred ?_ later isFirst isLast
    exact (minimizeGroup_preds graph group).mpr ⟨isPred, fun equal => absurd equal same⟩
  subst same
  -- The removed predecessors are reached in falling order of their indices.
  induction number : region.indexToBlock.length - region.indexToBlock.idxOf pred
    using Nat.strong_induction_on generalizing pred with
  | _ number inductionHypothesis =>
      subst number
      intro first last later isFirst isLast
      by_cases kept : pred ∈ predsToRemove region properlyDominates graph block
      swap
      · refine Chain.of_pred ?_ later isFirst isLast
        exact (minimizeGroup_preds graph block).mpr ⟨isPred, fun _ => kept⟩
      obtain ⟨-, bp, isBp, apart, behind, waits, dominating⟩ := mem_predsToRemove.mp kept
      have way := isExecution.take isLast
      have dominates := (info bp block ⟨_, way⟩).mp dominating
      have inRegion : ∀ {other : Block}, other ∈ execution → other ∈ region.blocks := fun mem =>
        Region.mem_blocks_of_reachable
          (Region.mem_reversePostOrder_of_execution isExecution mem)
      have isBlock : pred ∈ region.blocks := inRegion (List.mem_of_getElem? isFirst)
      have isBpBlock : bp ∈ region.blocks :=
        inRegion (List.mem_of_mem_take (dominates.2 _ way.1 way.2))
      have before := isLess_of_behind isBlock isBpBlock apart behind
      obtain ⟨middle, above, below, isMiddle⟩ :=
        exists_between isExecution dominates before later isFirst isLast
      have toMiddle : Chain (minimizeGroup region properlyDominates graph block).preds execution
          first middle := by
        refine Chain.of_pred ?_ above isFirst isMiddle
        exact (minimizeGroup_preds graph block).mpr ⟨waits, fun equal => absurd equal dominates.1⟩
      have rises := (Region.isLess_iff isBlock isBpBlock).mp before
      have bound := List.idxOf_lt_length_of_mem (Region.mem_indexToBlock isBpBlock)
      have fromMiddle := inductionHypothesis
        (region.indexToBlock.length - region.indexToBlock.idxOf bp) (by omega) isBp rfl
        middle last below isMiddle isLast
      exact toMiddle.trans fromMiddle

omit [DecidableEq Block] in
/-- Chains lead through any graph that connects the predecessors. -/
theorem Chain.of_connected {preds others : Block → List Block}
    (connected : ∀ {pred block}, pred ∈ preds block → Connected others execution pred block)
    {first last : Nat} (chain : Chain preds execution first last) :
    Chain others execution first last := by
  induction chain with
  | refl => exact .refl
  | tail _ step inductionHypothesis =>
      refine inductionHypothesis.trans ?_
      cases step with
      | sameBlock later isFirst isNext => exact .single (.sameBlock later isFirst isNext)
      | group later isFirst isNext isPred _ => exact connected isPred _ _ later isFirst isNext

theorem chain_minimizeGroupsConnections (info : IsDominanceInfo region properlyDominates)
    (isExecution : region.IsExecution execution) (visits : List Block) (graph : GroupsGraph Block)
    {first last : Nat} (chain : Chain graph.preds execution first last) :
    Chain (minimizeGroupsConnections region properlyDominates visits graph).preds execution
      first last := by
  induction visits generalizing graph with
  | nil => exact chain
  | cons group visits inductionHypothesis =>
      refine inductionHypothesis _ (chain.of_connected ?_)
      exact connected_minimizeGroup info isExecution graph group

theorem preds_minimizeGroupsConnections (visits : List Block) (graph : GroupsGraph Block)
    (block : Block) :
    (minimizeGroupsConnections region properlyDominates visits graph).preds block ⊆
      graph.preds block := by
  induction visits generalizing graph with
  | nil => exact fun _ isPred => isPred
  | cons group visits inductionHypothesis =>
      intro pred isPred
      exact ((minimizeGroup_preds graph group).mp (inductionHypothesis _ isPred)).1

end Minimize

/-! ### Allocation order -/

section Order

variable {Loop : Type} [DecidableEq Loop] {loopsOf : Block → List Loop}

/-- Whether a block holds an access that conflicts with one of another block behind it: the other
is numbered later, or both lie in a loop. -/
def IsOrdered (region : Region Block) (loopsOf : Block → List Loop)
    (operations : List (MemPortOp Block)) (producer consumer : Block) : Prop :=
  producer ≠ consumer ∧
    (∃ i ∈ operations, i.block = producer ∧ ∃ j ∈ operations, j.block = consumer ∧
      ¬ (i.isLoad = true ∧ j.isLoad = true)) ∧
    (region.isLess producer consumer = true ∨
      isSameLoopBlocks loopsOf producer consumer = true)

/-- Dependencies on other blocks are between conflicting accesses, and ordered. -/
structure Sound (region : Region Block) (loopsOf : Block → List Loop)
    (operations : List (MemPortOp Block)) (deps : List (ProdConsMemDep Block)) : Prop where
  ordered : ∀ dep ∈ deps, dep.prodBb ≠ dep.consBb →
    IsOrdered region loopsOf operations dep.prodBb dep.consBb

theorem sound_addPair {operations : List (MemPortOp Block)} {deps : List (ProdConsMemDep Block)}
    (sound : Sound region loopsOf operations deps) {i j : MemPortOp Block}
    (isFirst : i ∈ operations) (isSecond : j ∈ operations) :
    Sound region loopsOf operations (addPair region loopsOf deps i j) := by
  rw [addPair]
  split
  case isTrue => exact sound
  case isFalse related =>
    have notLoads : ¬ (i.isLoad = true ∧ j.isLoad = true) := by
      intro loads
      refine related ?_
      rw [areBothLoad, loads.1, loads.2]
      simp
    split
    case isTrue => exact sound
    case isFalse =>
      split
      case isFalse => exact sound
      case isTrue before =>
        have forward : ∀ apart : j.block ≠ i.block,
            IsOrdered region loopsOf operations j.block i.block := fun apart =>
          ⟨apart, ⟨j, isSecond, rfl, i, isFirst, rfl, fun loads => notLoads loads.symm⟩, .inl before⟩
        split
        case isTrue sameLoop =>
          refine ⟨fun dep mem apart => ?_⟩
          rcases List.mem_append.mp mem with old | new
          · exact sound.ordered dep old apart
          · rcases List.mem_cons.mp new with rfl | back
            · exact forward apart
            · cases List.mem_singleton.mp back
              exact ⟨apart, ⟨i, isFirst, rfl, j, isSecond, rfl, notLoads⟩, .inr sameLoop⟩
        case isFalse =>
          refine ⟨fun dep mem apart => ?_⟩
          rcases List.mem_append.mp mem with old | new
          · exact sound.ordered dep old apart
          · cases List.mem_singleton.mp new
            exact forward apart

theorem sound_addSelf {operations : List (MemPortOp Block)} {deps : List (ProdConsMemDep Block)}
    (sound : Sound region loopsOf operations deps) (op : MemPortOp Block) :
    Sound region loopsOf operations (addSelf loopsOf deps op) := by
  rw [addSelf]
  split
  · exact sound
  · split
    · exact sound
    · split
      · exact sound
      · split
        · exact sound
        · refine ⟨fun dep mem apart => ?_⟩
          rcases List.mem_append.mp mem with old | new
          · exact sound.ordered dep old apart
          · cases List.mem_singleton.mp new
            exact absurd rfl apart

theorem sound_identifyMemoryDependencies (operations : List (MemPortOp Block)) :
    Sound region loopsOf operations (identifyMemoryDependencies region loopsOf operations) := by
  refine foldl_keeps (Sound region loopsOf operations)
    (fun deps op _ kept => sound_addSelf kept op) ?_
  refine foldl_keeps (Sound region loopsOf operations) (fun deps i isFirst kept => ?_)
    ⟨fun _ mem => by cases mem⟩
  exact foldl_keeps (Sound region loopsOf operations)
    (fun deps j isSecond kept => sound_addPair kept isFirst isSecond) kept

/-- Between two executions there is a path. -/
theorem isThereAPath_of_execution {execution : List Block} (isExecution : region.IsExecution execution)
    {i j : MemPortOp Block} {first last : Nat} (later : first < last)
    (isFirst : execution[first]? = some i.block) (isLast : execution[last]? = some j.block)
    (apart : i.block ≠ j.block) : isThereAPath region i j = true := by
  have path : region.IsPath ((execution.take (last + 1)).drop first) :=
    (isExecution.1.take _).drop _
  rw [isThereAPath, Bool.not_eq_true', List.isEmpty_eq_false_iff]
  refine findAllPaths_ne_nil path ?_ ?_ ?_ apart
  · rw [List.head?_drop, List.getElem?_take, if_pos (Nat.lt_succ_of_lt later)]
    exact isFirst
  · obtain ⟨-, takenLast⟩ := isExecution.take isLast
    obtain ⟨bound, -⟩ := List.getElem?_eq_some_iff.mp isLast
    rw [List.getLast?_drop, if_neg (by rw [List.length_take]; omega)]
    exact takenLast
  · intro block mem
    have executed := List.mem_of_mem_take (List.mem_of_mem_drop mem)
    exact Region.mem_blocks_of_reachable
      (Region.mem_reversePostOrder_of_execution isExecution executed)

/-- The groups wait for those that are ordered before them. -/
theorem mem_preds_of_isOrdered {operations : List (MemPortOp Block)} {execution : List Block}
    (isExecution : region.IsExecution execution) {producer consumer : Block} {first last : Nat}
    (later : first < last) (isFirst : execution[first]? = some producer)
    (isLast : execution[last]? = some consumer)
    (isOrdered : IsOrdered region loopsOf operations producer consumer) :
    producer ∈ (constructGroupsGraph operations
      (identifyMemoryDependencies region loopsOf operations)).preds consumer := by
  obtain ⟨apart, ⟨i, mem, rfl, j, otherMem, rfl, stores⟩, ordered⟩ := isOrdered
  have reaches := isThereAPath_of_execution isExecution later isFirst isLast apart
  have conflict : Conflict region j i := ⟨apart.symm, fun loads => stores loads.symm, .inr reaches⟩
  refine (mem_preds_constructGroupsGraph _ _).mpr
    (mem_identifyMemoryDependencies otherMem mem conflict ?_)
  have inRegion : ∀ {place : Nat} {block : Block}, execution[place]? = some block →
      block ∈ region.blocks := fun isBlock => Region.mem_blocks_of_reachable
    (Region.mem_reversePostOrder_of_execution isExecution (List.mem_of_getElem? isBlock))
  rcases Region.isLess_or_isLess (inRegion isFirst) (inRegion isLast) apart with before | behind
  · exact .inl before
  · exact ordered.imp_right fun sameLoop => ⟨behind, sameLoop⟩

/-- The groups of accesses in the order in which they are allocated. -/
def allocationOrder (region : Region Block) (properlyDominates : Block → Block → Bool)
    (visits : List Block) (loopsOf : Block → List Loop) (operations : List (MemPortOp Block)) :
    GroupsGraph Block :=
  minimizeGroupsConnections region properlyDominates visits
    (constructGroupsGraph operations (identifyMemoryDependencies region loopsOf operations))

/-- One execution after another, of the same block or of one that is ordered behind it. -/
inductive OrderedStep (region : Region Block) (loopsOf : Block → List Loop)
    (operations : List (MemPortOp Block)) (execution : List Block) (first next : Nat) : Prop where
  | sameBlock {block} (later : first < next) (isFirst : execution[first]? = some block)
      (isNext : execution[next]? = some block) :
      OrderedStep region loopsOf operations execution first next
  | ordered {producer consumer} (later : first < next)
      (isFirst : execution[first]? = some producer) (isNext : execution[next]? = some consumer)
      (isOrdered : IsOrdered region loopsOf operations producer consumer) :
      OrderedStep region loopsOf operations execution first next

theorem OrderedStep.of_step {properlyDominates : Block → Block → Bool} {visits : List Block}
    {operations : List (MemPortOp Block)} {execution : List Block} {first next : Nat}
    (step : Step (allocationOrder region properlyDominates visits loopsOf operations).preds
      execution first next) : OrderedStep region loopsOf operations execution first next := by
  cases step with
  | sameBlock later isFirst isNext => exact .sameBlock later isFirst isNext
  | @group pred block later isFirst isNext isPred between =>
      have isDep := (mem_preds_constructGroupsGraph _ _).mp
        (preds_minimizeGroupsConnections visits _ block isPred)
      by_cases same : pred = block
      · subst same
        exact .sameBlock later isFirst isNext
      · exact .ordered later isFirst isNext
          ((sound_identifyMemoryDependencies operations).ordered _ isDep same)

theorem chain_of_orderedStep {properlyDominates : Block → Block → Bool}
    (info : IsDominanceInfo region properlyDominates) (visits : List Block)
    {operations : List (MemPortOp Block)} {execution : List Block}
    (isExecution : region.IsExecution execution) {first next : Nat}
    (step : OrderedStep region loopsOf operations execution first next) :
    Chain (allocationOrder region properlyDominates visits loopsOf operations).preds execution
      first next := by
  refine chain_minimizeGroupsConnections info isExecution visits _ ?_
  cases step with
  | sameBlock later isFirst isNext => exact .single (.sameBlock later isFirst isNext)
  | ordered later isFirst isNext isOrdered =>
      exact Chain.of_pred (mem_preds_of_isOrdered isExecution later isFirst isNext isOrdered)
        later isFirst isNext

theorem chain_iff_orderedStep {properlyDominates : Block → Block → Bool}
    (info : IsDominanceInfo region properlyDominates) (visits : List Block)
    {operations : List (MemPortOp Block)} {execution : List Block}
    (isExecution : region.IsExecution execution) {first last : Nat} :
    Chain (allocationOrder region properlyDominates visits loopsOf operations).preds execution
        first last ↔
      Relation.ReflTransGen (OrderedStep region loopsOf operations execution) first last := by
  constructor
  · intro chain
    induction chain with
    | refl => exact .refl
    | tail _ step inductionHypothesis => exact inductionHypothesis.tail (.of_step step)
  · intro ordered
    induction ordered with
    | refl => exact .refl
    | tail _ step inductionHypothesis =>
        exact inductionHypothesis.trans (chain_of_orderedStep info visits isExecution step)

/-- Where a block is executed and later another one with a conflicting access. -/
structure Conflicting (operations : List (MemPortOp Block)) (execution : List Block)
    (first last : Nat) : Prop where
  later : first < last
  accesses : ∃ i ∈ operations, ∃ j ∈ operations, execution[first]? = some i.block ∧
    execution[last]? = some j.block ∧ i.block ≠ j.block ∧ ¬ (i.isLoad = true ∧ j.isLoad = true)

/-- The allocations of conflicting accesses are chained in the order of their executions. -/
def KeepsOrder (preds : Block → List Block) (operations : List (MemPortOp Block))
    (execution : List Block) : Prop :=
  ∀ first last, Conflicting operations execution first last → Chain preds execution first last

/-- The order is kept in exactly those executions in which conflicting accesses are linked by
conflicting ones, each in a block that is numbered before the next or in a loop with it. -/
theorem keepsOrder_iff (properlyDominates : Block → Block → Bool)
    (info : IsDominanceInfo region properlyDominates) (visits : List Block)
    (operations : List (MemPortOp Block)) (execution : List Block)
    (isExecution : region.IsExecution execution) :
    KeepsOrder (allocationOrder region properlyDominates visits loopsOf operations).preds operations
        execution ↔
      ∀ first last, Conflicting operations execution first last →
        Relation.ReflTransGen (OrderedStep region loopsOf operations execution) first last :=
  forall_congr' fun _ => forall_congr' fun _ => forall_congr' fun _ =>
    chain_iff_orderedStep info visits isExecution

end Order

/-! ### A loop with its exit before its body -/

/-- A loop from the second block to the fourth, left to the third. -/
def exitBeforeBody : Region Nat where
  entry := 0
  others := [1, 2, 3]
  successors
    | 0 => [1]
    | 1 => [3, 2]
    | 3 => [1]
    | _ => []
  distinct := by decide
  closed := by decide

def exitBeforeBodyDominates (dominator block : Nat) : Bool :=
  decide ((dominator, block) ∈ [(0, 1), (0, 2), (0, 3), (1, 2), (1, 3)])

def exitBeforeBodyLoops (block : Nat) : List Unit :=
  if block = 1 ∨ block = 3 then [()] else []

theorem isDominanceInfo_exitBeforeBody :
    IsDominanceInfo exitBeforeBody exitBeforeBodyDominates := by
  rintro dominator block ⟨execution, isExecution, last⟩
  have isBlock : block ∈ [0, 1, 2, 3] := Region.mem_blocks_of_reachable
    (Region.mem_reversePostOrder_of_execution isExecution (List.mem_of_getLast? last))
  constructor
  · intro dominating
    refine ⟨?_, fun way isWay wayLast => ?_⟩
    · rintro rfl
      have never : ∀ block ∈ [0, 1, 2, 3], exitBeforeBodyDominates block block = false := by decide
      rw [never _ isBlock] at dominating
      cases dominating
    · have entered : 0 ∈ way := List.mem_of_mem_head? isWay.2
      -- The blocks behind the header are entered from it.
      have header : block = 2 ∨ block = 3 → 1 ∈ way := by
        intro behind
        obtain ⟨before, rfl⟩ := List.getLast?_eq_some_iff.mp wayLast
        cases beforeLast : before.getLast? with
        | none =>
            rw [List.getLast?_eq_none_iff] at beforeLast
            subst beforeLast
            have isEntry : block = 0 := Option.some.inj isWay.2
            omega
        | some parent =>
            have isNext := (List.isChain_append.mp isWay.1).2.2 parent beforeLast block rfl
            have isParent : parent = 1 := by
              match parent, isNext with
              | 0, isNext => simp_all [exitBeforeBody]
              | 1, _ => rfl
              | 3, isNext => simp_all [exitBeforeBody]
              | 2, isNext => simp_all [exitBeforeBody]
              | _ + 4, isNext => simp_all [exitBeforeBody]
            subst isParent
            exact List.mem_append_left _ (List.mem_of_getLast? beforeLast)
      have pair := of_decide_eq_true dominating
      simp only [List.mem_cons, Prod.mk.injEq, List.not_mem_nil, or_false] at pair
      rcases pair with ⟨rfl, -⟩ | ⟨rfl, -⟩ | ⟨rfl, -⟩ | ⟨rfl, rfl⟩ | ⟨rfl, rfl⟩
      · exact entered
      · exact entered
      · exact entered
      · exact header (.inl rfl)
      · exact header (.inr rfl)
  · rintro ⟨apart, onWays⟩
    have ways : ∀ block ∈ [0, 1, 2, 3], ∃ way, exitBeforeBody.IsExecution way ∧
        way.getLast? = some block ∧ ∀ other ∈ way, other ≠ block →
          exitBeforeBodyDominates other block = true := by
      intro block isBlock
      simp only [List.mem_cons, List.not_mem_nil, or_false] at isBlock
      rcases isBlock with rfl | rfl | rfl | rfl
      · exact ⟨[0], by decide, rfl, by decide⟩
      · exact ⟨[0, 1], by decide, rfl, by decide⟩
      · exact ⟨[0, 1, 2], by decide, rfl, by decide⟩
      · exact ⟨[0, 1, 3], by decide, rfl, by decide⟩
    obtain ⟨way, isWay, wayLast, dominated⟩ := ways block isBlock
    exact dominated dominator (onWays way isWay wayLast) apart

theorem keepsOrder_header : KeepsOrder
    (allocationOrder exitBeforeBody exitBeforeBodyDominates [1, 2] exitBeforeBodyLoops
      [⟨1, false⟩, ⟨2, true⟩]).preds [⟨1, false⟩, ⟨2, true⟩] [0, 1, 3, 1, 2] := by
  refine (keepsOrder_iff exitBeforeBodyDominates isDominanceInfo_exitBeforeBody [1, 2] _ _
    (by decide)).mpr ?_
  rintro first last ⟨later, i, isFirst, j, isSecond, atFirst, atLast, apart, stores⟩
  have bound : last < 5 := (List.getElem?_eq_some_iff.mp atLast).1
  have notExit : i.block ≠ 2 := by
    intro isExit
    rw [isExit] at atFirst
    have early : ∀ place < 4, ([0, 1, 3, 1, 2] : List Nat)[place]? ≠ some 2 := by decide
    exact early first (by omega) atFirst
  have before : i.block = 1 ∧ j.block = 2 := by
    simp only [List.mem_cons, List.not_mem_nil, or_false] at isFirst isSecond
    rcases isFirst with rfl | rfl <;> rcases isSecond with rfl | rfl <;> simp_all
  refine .single (.ordered later atFirst atLast
    ⟨apart, ⟨i, isFirst, rfl, j, isSecond, rfl, stores⟩, .inl ?_⟩)
  rw [before.1, before.2]
  decide

/-- The store of the body comes before the load behind the loop, but its group does not. -/
theorem not_keepsOrder_exitBeforeBody : exitBeforeBody.IsExecution [0, 1, 3, 1, 2] ∧
    ¬ KeepsOrder
      (allocationOrder exitBeforeBody exitBeforeBodyDominates [2, 3] exitBeforeBodyLoops
        [⟨3, false⟩, ⟨2, true⟩]).preds [⟨3, false⟩, ⟨2, true⟩] [0, 1, 3, 1, 2] := by
  refine ⟨by decide, fun keepsOrder => ?_⟩
  have conflicting : Conflicting [⟨3, false⟩, ⟨2, true⟩] [0, 1, 3, 1, 2] 2 4 :=
    ⟨by decide, ⟨3, false⟩, by decide, ⟨2, true⟩, by decide, rfl, rfl, by decide, by decide⟩
  obtain equal | ⟨next, step, -⟩ := Relation.ReflTransGen.cases_head (keepsOrder 2 4 conflicting)
  · cases equal
  · cases OrderedStep.of_step step with
    | sameBlock later isFirst isNext =>
        cases isFirst
        have once : ∀ place < 5, 2 < place → ([0, 1, 3, 1, 2] : List Nat)[place]? ≠ some 3 := by
          decide
        exact once next (List.getElem?_eq_some_iff.mp isNext).1 later isNext
    | ordered later isFirst isNext isOrdered =>
        cases isFirst
        obtain ⟨apart, ⟨-, -, -, j, isSecond, rfl, -⟩, ordered⟩ := isOrdered
        have isExit : j.block = 2 := by
          simp only [List.mem_cons, List.not_mem_nil, or_false] at isSecond
          rcases isSecond with rfl | rfl
          · exact absurd rfl apart
          · rfl
        rw [isExit] at ordered
        rcases ordered with before | sameLoop
        · revert before
          decide
        · obtain ⟨loop, -, around⟩ := isSameLoop_iff.mp sameLoop
          cases around

end Dynamatic.StraightToQueue
