import Dynamatic.StraightToQueue.Dependencies

/-!
# Chains of groups along an execution

If the groups wait for each other, the accesses of an execution are allocated along
chains: from a block to a later execution of it, and from the last execution of a
predecessor to the next execution of a group. Whenever an execution of a block comes
before an execution of another with a conflicting access, such a chain leads from
one to the other. A block that is numbered before a block that control can come from
depends on it the wrong way round, unless both lie in a loop.
-/

namespace Dynamatic.StraightToQueue

variable {Block : Type} [DecidableEq Block]

/-! ### Paths are found -/

section Paths

variable {region : Region Block} {finish : Block}

/-- A simple path through blocks that are not visited is found. -/
theorem dfsAllPaths_ne_nil {fuel : Nat} {start : Block} {rest path visited : List Block}
    (isPath : region.IsPath (start :: rest)) (simple : (start :: rest).Nodup)
    (last : (start :: rest).getLast? = some finish) (enough : rest.length < fuel)
    (fresh : ∀ block ∈ start :: rest, block ∉ visited)
    (begun : start = finish → path ≠ []) (endVisitCount : Nat) :
    dfsAllPaths region finish fuel start path visited endVisitCount ≠ [] := by
  induction rest generalizing fuel start path visited endVisitCount with
  | nil =>
      cases fuel with
      | zero => exact absurd enough (Nat.not_lt_zero _)
      | succ fuel =>
          have same : start = finish := Option.some.inj last
          have long : (path ++ [start]).length > 1 := by
            have some := List.length_pos_iff.mpr (begun same)
            rw [List.length_append, List.length_singleton]
            omega
          rw [dfsAllPaths, if_pos ⟨same, long⟩]
          exact List.cons_ne_nil _ _
  | cons next rest inductionHypothesis =>
      cases fuel with
      | zero => exact absurd enough (Nat.not_lt_zero _)
      | succ fuel =>
          obtain ⟨notLater, simpleRest⟩ := List.nodup_cons.mp simple
          have lastRest : (next :: rest).getLast? = some finish := by
            rwa [List.getLast?_cons_cons] at last
          have goesOn : start ≠ finish := by
            rintro rfl
            exact notLater (List.mem_of_getLast? lastRest)
          obtain ⟨isNext, isPathRest⟩ := List.isChain_cons_cons.mp isPath
          have freshRest : ∀ block ∈ next :: rest, block ∉ visited.insert start := by
            intro block mem isVisited
            rcases List.mem_insert_iff.mp isVisited with rfl | earlier
            · exact notLater mem
            · exact fresh block (List.mem_cons_of_mem _ mem) earlier
          have found := fun endVisitCount =>
            inductionHypothesis isPathRest simpleRest lastRest (Nat.lt_of_succ_lt_succ enough)
              freshRest (fun _ => List.append_ne_nil_of_right_ne_nil path (List.cons_ne_nil start []))
              endVisitCount
          rw [dfsAllPaths, if_neg fun both => goesOn both.1]
          intro none
          have noneHere := List.flatMap_eq_nil_iff.mp none next isNext
          rw [if_pos (.inl (freshRest next List.mem_cons_self))] at noneHere
          exact found _ noneHere

/-- Along a path, a simple one leads from its first block to its last. -/
theorem exists_simple {path : List Block} {start : Block} (isPath : region.IsPath path)
    (head : path.head? = some start) (last : path.getLast? = some finish) :
    ∃ simple, region.IsPath simple ∧ simple.Nodup ∧ simple.head? = some start ∧
      simple.getLast? = some finish ∧ simple ⊆ path := by
  induction path generalizing start with
  | nil => cases head
  | cons block rest inductionHypothesis =>
      cases head
      cases rest with
      | nil => exact ⟨[block], isPath, List.nodup_singleton _, rfl, last, fun _ mem => mem⟩
      | cons next rest =>
          obtain ⟨isNext, isPathRest⟩ := List.isChain_cons_cons.mp isPath
          have lastRest : (next :: rest).getLast? = some finish := by
            rwa [List.getLast?_cons_cons] at last
          obtain ⟨simple, simplePath, distinct, head, simpleLast, within⟩ :=
            inductionHypothesis isPathRest rfl lastRest
          by_cases passed : block ∈ simple
          · obtain ⟨before, after, rfl⟩ := List.append_of_mem passed
            refine ⟨block :: after, simplePath.right_of_append, (List.nodup_append.mp distinct).2.1,
              rfl, ?_, fun other mem => ?_⟩
            · rwa [List.getLast?_append_of_ne_nil _ (List.cons_ne_nil _ _)] at simpleLast
            · exact List.mem_cons_of_mem _ (within (List.mem_append_right _ mem))
          · cases simple with
            | nil => cases head
            | cons first simple =>
                cases head
                refine ⟨block :: next :: simple, List.isChain_cons_cons.mpr ⟨isNext, simplePath⟩,
                  List.nodup_cons.mpr ⟨passed, distinct⟩, rfl, ?_, ?_⟩
                · rwa [List.getLast?_cons_cons]
                · exact List.cons_subset_cons _ within

/-- Two blocks that control can pass one after the other are on a path. -/
theorem findAllPaths_ne_nil {path : List Block} {start : Block} (isPath : region.IsPath path)
    (head : path.head? = some start) (last : path.getLast? = some finish)
    (within : path ⊆ region.blocks) (apart : start ≠ finish) :
    findAllPaths region start finish ≠ [] := by
  obtain ⟨simple, simplePath, distinct, simpleHead, simpleLast, inPath⟩ :=
    exists_simple isPath head last
  have short := (distinct.subperm (List.Subset.trans inPath within)).length_le
  cases simple with
  | nil => cases simpleHead
  | cons first rest =>
      cases simpleHead
      rw [List.length_cons] at short
      exact dfsAllPaths_ne_nil simplePath distinct simpleLast (by omega)
        (fun _ _ => List.not_mem_nil) (fun same => absurd same apart) 0

end Paths

/-! ### Dependencies -/

section Dependencies

variable {Loop : Type} [DecidableEq Loop] {region : Region Block} {loopsOf : Block → List Loop}

/-- Dependencies that hold the backward one with each forward one in a loop. -/
def BothWays (region : Region Block) (loopsOf : Block → List Loop)
    (deps : List (ProdConsMemDep Block)) : Prop :=
  ∀ first second, region.isLess first second = true → ⟨first, second⟩ ∈ deps →
    isSameLoopBlocks loopsOf second first = true → ⟨second, first⟩ ∈ deps

theorem subset_addPair (deps : List (ProdConsMemDep Block)) (i j : MemPortOp Block) :
    deps ⊆ addPair region loopsOf deps i j := by
  rw [addPair]
  split
  · exact fun _ mem => mem
  · split
    · exact fun _ mem => mem
    · split
      · split <;> exact List.subset_append_left _ _
      · exact fun _ mem => mem

theorem bothWays_addPair {deps : List (ProdConsMemDep Block)}
    (bothWays : BothWays region loopsOf deps) (i j : MemPortOp Block) :
    BothWays region loopsOf (addPair region loopsOf deps i j) := by
  intro first second less mem sameLoop
  by_cases old : ⟨first, second⟩ ∈ deps
  · exact subset_addPair deps i j (bothWays first second less old sameLoop)
  · rw [addPair] at mem ⊢
    split at mem
    case isTrue => exact absurd mem old
    case isFalse related =>
      rw [if_neg related]
      split at mem
      case isTrue => exact absurd mem old
      case isFalse new =>
        rw [if_neg new]
        split at mem
        case isFalse => exact absurd mem old
        case isTrue before =>
          rw [if_pos before]
          split at mem
          case isTrue inLoop =>
            rw [if_pos inLoop]
            rcases List.mem_cons.mp ((List.mem_append.mp mem).resolve_left old) with same | back
            · cases same
              simp
            · cases List.mem_singleton.mp back
              rw [Region.isLess_asymm before] at less
              cases less
          case isFalse notInLoop =>
            cases List.mem_singleton.mp ((List.mem_append.mp mem).resolve_left old)
            exact absurd sameLoop notInLoop

/-- A pair that is related has its dependencies. -/
theorem mem_addPair {deps : List (ProdConsMemDep Block)} {i j : MemPortOp Block}
    (related : ¬ (isSameBlock i j || areBothLoad i j ||
      (!isThereAPath region i j && !isThereAPath region j i)) = true)
    (before : region.isLess j.block i.block = true) :
    ⟨j.block, i.block⟩ ∈ addPair region loopsOf deps i j := by
  rw [addPair, if_neg related]
  split
  case isTrue present => exact present
  case isFalse => split <;> simp

/-- What folds keep and reach. -/
theorem subset_foldl {Dep Item : Type} {step : List Dep → Item → List Dep}
    (grows : ∀ deps item, deps ⊆ step deps item) (items : List Item) (deps : List Dep) :
    deps ⊆ items.foldl step deps := by
  induction items generalizing deps with
  | nil => exact fun _ mem => mem
  | cons item items inductionHypothesis =>
      exact List.Subset.trans (grows deps item) (inductionHypothesis _)

theorem mem_foldl {Dep Item : Type} {step : List Dep → Item → List Dep} {dep : Dep}
    (grows : ∀ deps item, deps ⊆ step deps item) {items : List Item} {item : Item}
    (isItem : item ∈ items) (adds : ∀ deps, dep ∈ step deps item) (deps : List Dep) :
    dep ∈ items.foldl step deps := by
  obtain ⟨before, after, rfl⟩ := List.append_of_mem isItem
  rw [List.foldl_append, List.foldl_cons]
  exact subset_foldl grows after _ (adds _)

theorem foldl_keeps {State Item : Type} {step : State → Item → State} (kept : State → Prop)
    {items : List Item} (keeps : ∀ state, ∀ item ∈ items, kept state → kept (step state item))
    {state : State} (start : kept state) : kept (items.foldl step state) := by
  induction items generalizing state with
  | nil => exact start
  | cons item items inductionHypothesis =>
      refine inductionHypothesis (fun state other mem => ?_)
        (keeps state item List.mem_cons_self start)
      exact keeps state other (List.mem_cons_of_mem _ mem)

theorem subset_addSelf (deps : List (ProdConsMemDep Block)) (op : MemPortOp Block) :
    deps ⊆ addSelf loopsOf deps op := by
  rw [addSelf]
  split
  · exact fun _ mem => mem
  · split
    · exact fun _ mem => mem
    · split
      · exact fun _ mem => mem
      · split
        · exact fun _ mem => mem
        · exact List.subset_append_left _ _

/-- Conflicting accesses between which control can go. -/
structure Conflict (region : Region Block) (i j : MemPortOp Block) : Prop where
  apart : i.block ≠ j.block
  stores : ¬ (i.isLoad = true ∧ j.isLoad = true)
  reaches : isThereAPath region i j = true ∨ isThereAPath region j i = true

theorem Conflict.related {i j : MemPortOp Block} (conflict : Conflict region i j) :
    ¬ (isSameBlock i j || areBothLoad i j ||
      (!isThereAPath region i j && !isThereAPath region j i)) = true := by
  intro unrelated
  rw [Bool.or_eq_true, Bool.or_eq_true, isSameBlock, decide_eq_true_eq, areBothLoad,
    Bool.and_eq_true, Bool.and_eq_true, Bool.not_eq_true', Bool.not_eq_true'] at unrelated
  rcases unrelated with (same | loads) | ⟨noPath, noPathBack⟩
  · exact conflict.apart same
  · exact conflict.stores loads
  · rcases conflict.reaches with reaches | reaches
    · rw [noPath] at reaches
      cases reaches
    · rw [noPathBack] at reaches
      cases reaches

variable {operations : List (MemPortOp Block)} {i j : MemPortOp Block}

private theorem subset_addPairs (deps : List (ProdConsMemDep Block)) (i : MemPortOp Block) :
    deps ⊆ operations.foldl (fun deps j => addPair region loopsOf deps i j) deps :=
  subset_foldl (fun deps j => subset_addPair deps i j) operations deps

/-- The block that comes first is a producer of the other. -/
theorem forward_mem (isFirst : i ∈ operations) (isSecond : j ∈ operations)
    (conflict : Conflict region i j) (before : region.isLess j.block i.block = true) :
    ⟨j.block, i.block⟩ ∈ operations.foldl (fun allMemDeps i =>
      operations.foldl (fun deps j => addPair region loopsOf deps i j) allMemDeps) [] := by
  refine mem_foldl subset_addPairs isFirst (fun deps => ?_) []
  exact mem_foldl (fun deps j => subset_addPair deps i j) isSecond
    (fun deps => mem_addPair conflict.related before) deps

theorem mem_identifyMemoryDependencies (isFirst : i ∈ operations) (isSecond : j ∈ operations)
    (conflict : Conflict region i j)
    (ordered : region.isLess j.block i.block = true ∨
      region.isLess i.block j.block = true ∧
        isSameLoopBlocks loopsOf j.block i.block = true) :
    ⟨j.block, i.block⟩ ∈ identifyMemoryDependencies region loopsOf operations := by
  refine subset_foldl subset_addSelf operations _ ?_
  rcases ordered with before | ⟨behind, sameLoop⟩
  · exact forward_mem isFirst isSecond conflict before
  · have bothWays : BothWays region loopsOf (operations.foldl (fun allMemDeps i =>
        operations.foldl (fun deps j => addPair region loopsOf deps i j) allMemDeps) []) := by
      refine foldl_keeps (BothWays region loopsOf) (fun deps i _ kept => ?_)
        fun _ _ _ mem => (by cases mem)
      exact foldl_keeps (BothWays region loopsOf) (fun deps j _ kept => bothWays_addPair kept i j)
        kept
    have turned : Conflict region j i :=
      ⟨conflict.apart.symm, fun loads => conflict.stores loads.symm, conflict.reaches.symm⟩
    exact bothWays _ _ behind (forward_mem isSecond isFirst turned behind) sameLoop

end Dependencies

/-! ### Groups -/

theorem mem_preds_constructGroupsGraph (lsqOps : List (MemPortOp Block))
    (deps : List (ProdConsMemDep Block)) {producer consumer : Block} :
    producer ∈ (constructGroupsGraph lsqOps deps).preds consumer ↔
      ⟨producer, consumer⟩ ∈ deps := by
  have added : ∀ (deps : List (ProdConsMemDep Block)) (graph : GroupsGraph Block),
      producer ∈ (deps.foldl addEdge graph).preds consumer ↔
        producer ∈ graph.preds consumer ∨ ⟨producer, consumer⟩ ∈ deps := by
    intro deps
    induction deps with
    | nil => simp
    | cons dep deps inductionHypothesis =>
        intro graph
        rw [List.foldl_cons, inductionHypothesis, List.mem_cons, ← or_assoc]
        refine or_congr_left ?_
        dsimp only [addEdge]
        by_cases same : consumer = dep.consBb
        · subst same
          rw [Function.update_self, List.mem_insert_iff, or_comm]
          refine or_congr_right ⟨?_, fun equal => congrArg ProdConsMemDep.prodBb equal⟩
          rintro rfl
          rfl
        · rw [Function.update_of_ne same]
          refine ⟨.inl, fun either => either.resolve_right ?_⟩
          rintro rfl
          exact same rfl
  rw [constructGroupsGraph, added]
  exact or_iff_right List.not_mem_nil

/-- One step of a chain: to a later execution of a block, or from the last execution of a
predecessor to the next execution of the group. -/
inductive Step (preds : Block → List Block) (execution : List Block) (first next : Nat) : Prop where
  | sameBlock {block} (later : first < next) (isFirst : execution[first]? = some block)
      (isNext : execution[next]? = some block) : Step preds execution first next
  | group {pred block} (later : first < next) (isFirst : execution[first]? = some pred)
      (isNext : execution[next]? = some block) (isPred : pred ∈ preds block)
      (between : ∀ middle, first < middle → middle < next →
        execution[middle]? ≠ some pred ∧ execution[middle]? ≠ some block) :
      Step preds execution first next

/-- Steps one after another. -/
def Chain (preds : Block → List Block) (execution : List Block) : Nat → Nat → Prop :=
  Relation.ReflTransGen (Step preds execution)

section Chains

variable {preds : Block → List Block} {execution : List Block} {pred block : Block}
  {first last : Nat}

omit [DecidableEq Block] in
theorem Chain.sameBlock (notLater : first ≤ last) (isFirst : execution[first]? = some block)
    (isLast : execution[last]? = some block) : Chain preds execution first last := by
  rcases Nat.eq_or_lt_of_le notLater with rfl | later
  · exact .refl
  · exact .single (.sameBlock later isFirst isLast)

/-- The last place before a bound at which a block is executed. -/
theorem exists_last (isFirst : execution[first]? = some block) (before : first < last) :
    ∃ place, first ≤ place ∧ place < last ∧ execution[place]? = some block ∧
      ∀ middle, place < middle → middle < last → execution[middle]? ≠ some block := by
  induction last with
  | zero => exact absurd before (Nat.not_lt_zero _)
  | succ last inductionHypothesis =>
      by_cases here : execution[last]? = some block
      · exact ⟨last, Nat.le_of_lt_succ before, Nat.lt_succ_self _, here,
          fun middle above below => absurd above (Nat.not_lt.mpr (Nat.le_of_lt_succ below))⟩
      · have apart : first ≠ last := by
          rintro rfl
          exact here isFirst
        obtain ⟨place, notBefore, below, isPlace, none⟩ := inductionHypothesis (by omega)
        refine ⟨place, notBefore, Nat.lt_succ_of_lt below, isPlace, fun middle above under => ?_⟩
        rcases Nat.lt_succ_iff_lt_or_eq.mp under with earlier | rfl
        · exact none middle above earlier
        · exact here

theorem exists_next (isLast : execution[last]? = some block) (behind : first < last) :
    ∃ place, first < place ∧ place ≤ last ∧ execution[place]? = some block ∧
      ∀ middle, first < middle → middle < place → execution[middle]? ≠ some block := by
  have reached : ∃ place, first < place ∧ execution[place]? = some block := ⟨last, behind, isLast⟩
  obtain ⟨above, isPlace⟩ := Nat.find_spec reached
  refine ⟨Nat.find reached, above, Nat.find_min' reached ⟨behind, isLast⟩, isPlace, ?_⟩
  intro middle above below isMiddle
  exact Nat.find_min reached below ⟨above, isMiddle⟩

/-- A predecessor is connected to all later executions of a group. -/
theorem Chain.of_pred (isPred : pred ∈ preds block) (later : first < last)
    (isFirst : execution[first]? = some pred) (isLast : execution[last]? = some block) :
    Chain preds execution first last := by
  obtain ⟨next, behind, notAfter, isNext, noBlock⟩ := exists_next isLast later
  obtain ⟨place, notBefore, before, isPlace, noPred⟩ := exists_last isFirst behind
  have step : Step preds execution place next := by
    refine .group before isPlace isNext isPred fun middle above below => ⟨noPred middle above below, ?_⟩
    exact noBlock middle (Nat.lt_of_le_of_lt notBefore above) below
  exact ((Chain.sameBlock notBefore isFirst isPlace).tail step).trans
    (Chain.sameBlock notAfter isNext isLast)

end Chains

/-! ### Minimization -/

section Minimize

variable {region : Region Block} {properlyDominates : Block → Block → Bool}
  {execution : List Block} {first last : Nat}

omit [DecidableEq Block] in
/-- From one way to a block, control goes on as on another. -/
theorem isExecution_append {way : List Block} (isWay : region.IsExecution way)
    (isExecution : region.IsExecution execution) {block : Block}
    (wayLast : way.getLast? = some block) (isFirst : execution[first]? = some block)
    (number : Nat) :
    region.IsExecution (way ++ (execution.drop (first + 1)).take number) := by
  obtain ⟨before, rfl⟩ := List.getLast?_eq_some_iff.mp wayLast
  have dropped : execution.drop first = block :: execution.drop (first + 1) := by
    obtain ⟨bound, isBlock⟩ := List.getElem?_eq_some_iff.mp isFirst
    rw [List.drop_eq_getElem_cons bound, isBlock]
  have goesOn : region.IsPath (block :: (execution.drop (first + 1)).take number) := by
    have path := (isExecution.1.drop first).take (number + 1)
    rwa [dropped, List.take_succ_cons] at path
  refine ⟨?_, ?_⟩
  · rw [Region.IsPath, List.append_assoc, List.singleton_append]
    exact List.isChain_split.mpr ⟨isWay.1, goesOn⟩
  · rw [List.head?_append, isWay.2]
    rfl

/-- A block that dominates a second one, and comes behind a first one, is executed between them. -/
theorem exists_between {sp bp group : Block} (isExecution : region.IsExecution execution)
    (dominates : region.ProperlyDominates bp group) (before : region.isLess sp bp = true)
    (later : first < last) (isFirst : execution[first]? = some sp)
    (isLast : execution[last]? = some group) :
    ∃ middle, first < middle ∧ middle < last ∧ execution[middle]? = some bp := by
  by_contra none
  obtain ⟨bound, -⟩ := List.getElem?_eq_some_iff.mp isLast
  have dominatesFirst : region.ProperlyDominates bp sp := by
    refine ⟨?_, fun way isWay wayLast => ?_⟩
    · rintro rfl
      have never := Region.isLess_asymm before
      rw [before] at never
      cases never
    · have whole := isExecution_append isWay isExecution wayLast isFirst (last - first)
      have wholeLast : (way ++ (execution.drop (first + 1)).take (last - first)).getLast? =
          some group := by
        have length : ((execution.drop (first + 1)).take (last - first)).length = last - first := by
          rw [List.length_take, List.length_drop]
          omega
        have inside : last - first - 1 < last - first := by omega
        rw [List.getLast?_append, List.getLast?_eq_getElem?, length, List.getElem?_take,
          if_pos inside, List.getElem?_drop, show first + 1 + (last - first - 1) = last by omega,
          isLast]
        rfl
      rcases List.mem_append.mp (dominates.2 _ whole wholeLast) with onWay | between
      · exact onWay
      · obtain ⟨index, isIndex⟩ := List.mem_iff_getElem?.mp between
        rw [List.getElem?_take, List.getElem?_drop] at isIndex
        split at isIndex
        case isFalse => cases isIndex
        case isTrue inside =>
          refine absurd ⟨first + 1 + index, by omega, ?_, isIndex⟩ none
          refine Nat.lt_of_le_of_ne (by omega) fun same => dominates.1 ?_
          rw [same, isLast] at isIndex
          exact (Option.some.inj isIndex).symm
  have reachable : sp ∈ region.reversePostOrder :=
    Region.mem_reversePostOrder_of_execution isExecution (List.mem_of_getElem? isFirst)
  have behind := Region.isLess_asymm (Region.isLess_of_properlyDominates reachable dominatesFirst)
  rw [before] at behind
  cases behind

end Minimize

end Dynamatic.StraightToQueue
