import Dynamatic.PhiNetwork.Construction

/-!
# Where the merges go

The frontiers that are computed contain the dominance frontiers, and the blocks that get merges
contain the frontiers of the blocks of the values and of their own. Both computations end.
-/

namespace Dynamatic.PhiNetwork

open ControlFlow StraightToQueue

variable {Block : Type} [DecidableEq Block]

/-! ### All of a list -/

section Lists

variable {α β : Type} {f : α → Option β} {xs : List α}

theorem exists_mapM (each : ∀ x ∈ xs, ∃ y, f x = some y) :
    ∃ ys, xs.mapM f = some ys ∧ List.Forall₂ (fun x y => f x = some y) xs ys := by
  induction xs with
  | nil => exact ⟨[], rfl, .nil⟩
  | cons x xs inductionHypothesis =>
      obtain ⟨y, isFirst⟩ := each x (List.mem_cons_self ..)
      obtain ⟨ys, areRest, rest⟩ :=
        inductionHypothesis fun x mem => each x (List.mem_cons_of_mem _ mem)
      refine ⟨y :: ys, ?_, .cons isFirst rest⟩
      rw [List.mapM_cons, isFirst, areRest]
      rfl

theorem mem_flatten_of_forall₂ {g : α → Option (List β)} {ys : List (List β)}
    (each : List.Forall₂ (fun x y => g x = some y) xs ys) {x : α} (mem : x ∈ xs) :
    ∃ y, g x = some y ∧ ∀ z ∈ y, z ∈ ys.flatten := by
  induction each with
  | nil => cases mem
  | @cons head y _ ys isFirst _ inductionHypothesis =>
      rcases List.mem_cons.mp mem with rfl | later
      · exact ⟨y, isFirst, fun z inFirst => List.mem_append_left _ inFirst⟩
      · obtain ⟨y', isY, within⟩ := inductionHypothesis later
        exact ⟨y', isY, fun z inRest => List.mem_append_right _ (within z inRest)⟩

theorem exists_of_mem_flatten {g : α → Option (List β)} {ys : List (List β)}
    (each : List.Forall₂ (fun x y => g x = some y) xs ys) {z : β} (mem : z ∈ ys.flatten) :
    ∃ x ∈ xs, ∃ y, g x = some y ∧ z ∈ y := by
  induction each with
  | nil => cases mem
  | @cons head y _ ys isFirst _ inductionHypothesis =>
      rcases List.mem_append.mp mem with inFirst | later
      · exact ⟨head, List.mem_cons_self .., y, isFirst, inFirst⟩
      · obtain ⟨x, isX, y', isY, inside⟩ := inductionHypothesis later
        exact ⟨x, List.mem_cons_of_mem _ isX, y', isY, inside⟩

end Lists

/-! ### Blocks and edges -/

section Regions

variable {region : Region Block} {bb pred : Block}

theorem mem_getPredecessors :
    pred ∈ getPredecessors region bb ↔ pred ∈ region.blocks ∧ bb ∈ region.successors pred := by
  simp [getPredecessors]

omit [DecidableEq Block] in
/-- Control stays in the region. -/
theorem mem_blocks_of_reaches (reaches : Reaches region.successors region.entry bb) :
    bb ∈ region.blocks := by
  obtain ⟨walk, isWalk, last⟩ := reaches
  have each : ∀ time : Nat, ∀ {block : Block}, walk[time]? = some block → block ∈ region.blocks := by
    intro time
    induction time with
    | zero =>
        intro block here
        rw [← List.head?_eq_getElem?, isWalk.2] at here
        exact Option.some.inj here ▸ List.mem_cons_self ..
    | succ time inductionHypothesis =>
        intro block here
        obtain ⟨bound, -⟩ := List.getElem?_eq_some_iff.mp here
        have before : walk[time]? = some walk[time] := List.getElem?_eq_getElem (by omega)
        exact region.closed _ (inductionHypothesis before) (isWalk.edge before here)
  obtain ⟨time, here⟩ := List.mem_iff_getElem?.mp (List.mem_of_getLast? last)
  exact each time here

variable {domTree : Block → Option Block}

/-- The dominator tree is asked where it has an answer. -/
theorem isDominatorTree_getImmediateDominator
    (tree : IsDominatorTree region.successors region.entry domTree) :
    IsDominatorTree region.successors region.entry (getImmediateDominator region domTree) := by
  intro block reaches notEntry
  obtain ⟨pred, reachesPred, edge, -⟩ := exists_edge_not_dominated reaches notEntry
  have mem := mem_getPredecessors.mpr ⟨mem_blocks_of_reaches reachesPred, edge⟩
  rw [getImmediateDominator, if_neg (List.ne_nil_of_mem mem)]
  exact tree block reaches notEntry

end Regions

/-! ### Dominance frontiers -/

section Frontiers

variable {region : Region Block} {domTree : Block → Option Block}
  (tree : IsDominatorTree region.successors region.entry domTree)
  (reachable : ∀ block ∈ region.blocks, region.IsReachable block)
  (noPredecessors : getPredecessors region region.entry = [])

include reachable noPredecessors

/-- A block with one predecessor is in no dominance frontier. -/
theorem not_inFrontier_of_length {node bb : Block}
    (few : (getPredecessors region bb).length < 2) :
    ¬ InFrontier region.successors region.entry node bb := by
  rintro ⟨pred, reachesPred, edge, dominates, leaves⟩
  have mem := mem_getPredecessors.mpr ⟨mem_blocks_of_reaches reachesPred, edge⟩
  have only : ∀ other ∈ getPredecessors region bb, other = pred := by
    intro other isOther
    obtain ⟨single, isSingle⟩ := List.length_eq_one_iff.mp
      (Nat.le_antisymm (Nat.le_of_lt_succ few) (List.length_pos_of_mem mem))
    rw [isSingle] at mem isOther
    rw [List.mem_singleton.mp mem, List.mem_singleton.mp isOther]
  have notEntry : bb ≠ region.entry := by
    rintro rfl
    exact List.ne_nil_of_mem mem noPredecessors
  have reaches : Reaches region.successors region.entry bb :=
    reachable bb (region.closed _ (mem_blocks_of_reaches reachesPred) edge)
  obtain ⟨first, reachesFirst, firstEdge, notDominated⟩ := exists_edge_not_dominated reaches notEntry
  have isFirst := only first (mem_getPredecessors.mpr ⟨mem_blocks_of_reaches reachesFirst, firstEdge⟩)
  subst isFirst
  have onlyWay : Dominates region.successors region.entry first bb := by
    intro walk isWalk last
    obtain ⟨before, mem, reachesBefore, lastEdge⟩ := isWalk.exists_edge last notEntry
    exact only before (mem_getPredecessors.mpr ⟨mem_blocks_of_reaches reachesBefore, lastEdge⟩) ▸ mem
  refine leaves ⟨?_, dominates.trans onlyWay⟩
  rintro rfl
  exact notDominated dominates

include tree

/-- The frontier of each block that comes before is found. -/
theorem exists_frontierOf {bb : Block} (isBlock : bb ∈ region.blocks) :
    ∃ pairs, frontierOf region domTree bb = some pairs ∧ (∀ pair ∈ pairs, pair.2 = bb) ∧
      ∀ node, InFrontier region.successors region.entry node bb → (node, bb) ∈ pairs := by
  by_cases few : (getPredecessors region bb).length < 2
  · exact ⟨[], by rw [frontierOf, if_pos few], fun _ mem => (nomatch mem), fun node isFrontier =>
      absurd isFrontier (not_inFrontier_of_length reachable noPredecessors few)⟩
  have notEntry : bb ≠ region.entry := by
    rintro rfl
    rw [noPredecessors] at few
    exact few Nat.two_pos
  have reaches : Reaches region.successors region.entry bb := reachable bb isBlock
  have isTree := isDominatorTree_getImmediateDominator tree
  obtain ⟨stop, isStop, strictly, -⟩ := isTree bb reaches notEntry
  have climbs : ∀ pred ∈ getPredecessors region bb, ∃ passed,
      runners (getImmediateDominator region domTree) stop region.blocks.length pred = some passed ∧
      ∀ other, Dominates region.successors region.entry other pred →
        ¬ Dominates region.successors region.entry other stop → other ∈ passed := by
    intro pred isPred
    obtain ⟨isBlock, edge⟩ := mem_getPredecessors.mp isPred
    exact exists_runners isTree (fun _ => mem_blocks_of_reaches) (reachable pred isBlock)
      (strictly.of_edge edge)
      (card_strictDominators_lt_length (fun _ => mem_blocks_of_reaches) (reachable pred isBlock))
  obtain ⟨passed, arePassed, each⟩ := exists_mapM fun pred isPred =>
    (climbs pred isPred).imp fun _ climbed => climbed.1
  refine ⟨passed.flatten.map fun runner => (runner, bb), ?_, fun pair mem => ?_,
    fun node ⟨pred, reachesPred, edge, dominates, leaves⟩ => ?_⟩
  · rw [frontierOf, if_neg few, isStop, Option.bind_some, arePassed]
    rfl
  · obtain ⟨runner, -, rfl⟩ := List.mem_map.mp mem
    rfl
  · have isPred := mem_getPredecessors.mpr ⟨mem_blocks_of_reaches reachesPred, edge⟩
    obtain ⟨own, isOwn, within⟩ := mem_flatten_of_forall₂ each isPred
    obtain ⟨own', isOwn', passes⟩ := climbs pred isPred
    rw [isOwn] at isOwn'
    cases isOwn'
    exact List.mem_map_of_mem (within node
      (passes node dominates fun above => leaves (strictly.trans reaches above)))

/-- The computed frontiers contain the dominance frontiers. -/
theorem exists_getDominanceFrontier :
    ∃ frontier, getDominanceFrontier region domTree = some frontier ∧
      (∀ pair ∈ frontier, pair.2 ∈ region.blocks) ∧
      ∀ node edgeNode, InFrontier region.successors region.entry node edgeNode →
        (node, edgeNode) ∈ frontier := by
  have found (bb : Block) (isBlock : bb ∈ region.blocks) :=
    exists_frontierOf tree reachable noPredecessors isBlock
  obtain ⟨pairs, arePairs, each⟩ := exists_mapM fun bb isBlock =>
    (found bb isBlock).imp fun _ isFound => isFound.1
  refine ⟨pairs.flatten, ?_, fun pair mem => ?_, fun node edgeNode isFrontier => ?_⟩
  · rw [getDominanceFrontier, arePairs]
    rfl
  · obtain ⟨bb, isBlock, own, isOwn, inside⟩ := exists_of_mem_flatten each mem
    obtain ⟨own', isOwn', sound, -⟩ := found bb isBlock
    rw [isOwn] at isOwn'
    cases isOwn'
    exact sound pair inside ▸ isBlock
  · obtain ⟨pred, reachesPred, edge, -⟩ := id isFrontier
    have isBlock := region.closed _ (mem_blocks_of_reaches reachesPred) edge
    obtain ⟨own, isOwn, within⟩ := mem_flatten_of_forall₂ each isBlock
    obtain ⟨own', isOwn', -, complete⟩ := found edgeNode isBlock
    rw [isOwn] at isOwn'
    cases isOwn'
    exact within _ (complete node isFrontier)

end Frontiers

/-! ### The worklist -/

section Worklist

variable {blocks inputs : List Block} {frontier : List (Block × Block)} {state : Cryton Block}

theorem mem_frontierAt {x y : Block} : y ∈ frontierAt frontier x ↔ (x, y) ∈ frontier := by
  simp [frontierAt]

/-- The blocks that were to be visited are in the region, and those that were visited have their
frontiers in the result. -/
structure Cryton.Inv (blocks inputs : List Block) (frontier : List (Block × Block))
    (state : Cryton Block) : Prop where
  nodup : state.work.Nodup
  within : state.work ⊆ blocks
  inputs : inputs ⊆ state.work
  result : state.result ⊆ state.work
  visited : ∀ x ∈ state.work, x ∈ state.w ∨ frontierAt frontier x ⊆ state.result

/-- Blocks get phis, and those that were never to be visited are so now. -/
structure Cryton.Adds (ys : List Block) (state after : Cryton Block) : Prop where
  result : ∀ y, y ∈ after.result ↔ y ∈ state.result ∨ y ∈ ys
  work : ∀ y ∈ after.work, y ∈ state.work ∨ y ∈ ys ∧ y ∈ after.w
  kept : state.work ⊆ after.work
  visits : state.w ⊆ after.w
  nodup : after.work.Nodup
  resultWork : after.result ⊆ after.work
  count : after.w.length + state.work.length = state.w.length + after.work.length

theorem Cryton.adds_add (nodup : state.work.Nodup) (resultWork : state.result ⊆ state.work)
    (y : Block) : Cryton.Adds [y] state (state.add y) := by
  unfold Cryton.add
  split
  · rename_i hasAlready
    refine ⟨fun other => ?_, fun _ => .inl, List.Subset.refl _, List.Subset.refl _, nodup,
      resultWork, rfl⟩
    rw [List.mem_singleton]
    exact ⟨.inl, fun either => either.elim id fun same => same ▸ hasAlready⟩
  split
  · rename_i isWork
    refine ⟨fun other => ?_, fun _ => .inl, List.Subset.refl _, List.Subset.refl _, nodup,
      List.cons_subset.mpr ⟨isWork, resultWork⟩, rfl⟩
    rw [List.mem_cons, List.mem_singleton, or_comm]
  · rename_i notWork
    refine ⟨fun other => ?_, fun other mem => ?_, List.subset_cons_self _ _,
      List.subset_cons_self _ _, List.nodup_cons.mpr ⟨notWork, nodup⟩,
      List.cons_subset_cons _ resultWork, ?_⟩
    · rw [List.mem_cons, List.mem_singleton, or_comm]
    · rcases List.mem_cons.mp mem with rfl | old
      · exact .inr ⟨List.mem_singleton_self _, List.mem_cons_self ..⟩
      · exact .inl old
    · simp only [List.length_cons]
      omega

omit [DecidableEq Block] in
theorem Cryton.Adds.trans {ys zs : List Block} {middle after : Cryton Block}
    (first : Cryton.Adds ys state middle) (second : Cryton.Adds zs middle after) :
    Cryton.Adds (ys ++ zs) state after where
  result y := by rw [second.result, first.result, List.mem_append, or_assoc]
  work y mem := by
    rcases second.work y mem with old | ⟨isNew, inW⟩
    · rcases first.work y old with older | ⟨isNew, inW⟩
      · exact .inl older
      · exact .inr ⟨List.mem_append_left _ isNew, second.visits inW⟩
    · exact .inr ⟨List.mem_append_right _ isNew, inW⟩
  kept := List.Subset.trans first.kept second.kept
  visits := List.Subset.trans first.visits second.visits
  nodup := second.nodup
  resultWork := second.resultWork
  count := by
    have one := first.count
    have two := second.count
    omega

theorem Cryton.adds_foldl (ys : List Block) (nodup : state.work.Nodup)
    (resultWork : state.result ⊆ state.work) :
    Cryton.Adds ys state (ys.foldl Cryton.add state) := by
  induction ys generalizing state with
  | nil =>
      refine ⟨fun y => ?_, fun _ => .inl, List.Subset.refl _, List.Subset.refl _, nodup, resultWork,
        rfl⟩
      simp
  | cons y ys inductionHypothesis =>
      have first := Cryton.adds_add nodup resultWork y
      exact first.trans (inductionHypothesis first.nodup first.resultWork)

/-- Visiting a block keeps the invariant. -/
theorem Cryton.Inv.visit (inv : state.Inv blocks inputs frontier)
    (sound : ∀ pair ∈ frontier, pair.2 ∈ blocks) {x : Block} {w : List Block}
    (isNext : state.w = x :: w) :
    ((frontierAt frontier x).foldl Cryton.add { state with w := w }).Inv blocks inputs frontier ∧
      ((frontierAt frontier x).foldl Cryton.add { state with w := w }).w.length +
          (blocks.length -
            ((frontierAt frontier x).foldl Cryton.add { state with w := w }).work.length) <
        state.w.length + (blocks.length - state.work.length) := by
  have adds : Cryton.Adds (frontierAt frontier x) { state with w := w } _ :=
    Cryton.adds_foldl (frontierAt frontier x) inv.nodup inv.result
  generalize (frontierAt frontier x).foldl Cryton.add { state with w := w } = after at adds ⊢
  have within : after.work ⊆ blocks := by
    intro y mem
    rcases adds.work y mem with old | ⟨isNew, -⟩
    · exact inv.within old
    · exact sound (x, y) (mem_frontierAt.mp isNew)
  refine ⟨⟨adds.nodup, within, List.Subset.trans inv.inputs adds.kept, adds.resultWork,
    fun y mem => ?_⟩, ?_⟩
  · rcases adds.work y mem with old | ⟨-, inW⟩
    · rcases inv.visited y old with inW | done
      · rw [isNext] at inW
        rcases List.mem_cons.mp inW with rfl | later
        · exact .inr fun z inFrontier => (adds.result z).mpr (.inr inFrontier)
        · exact .inl (adds.visits later)
      · exact .inr fun z inFrontier => (adds.result z).mpr (.inl (done inFrontier))
    · exact .inl inW
  · have few : after.work.length ≤ blocks.length := (adds.nodup.subperm within).length_le
    have count : after.w.length + state.work.length = w.length + after.work.length := adds.count
    have grows : state.work.length ≤ after.work.length :=
      (inv.nodup.subperm adds.kept).length_le
    rw [isNext, List.length_cons]
    omega

/-- The worklist runs empty, and then all frontiers are in the result. -/
theorem Cryton.exists_run {fuel : Nat} (sound : ∀ pair ∈ frontier, pair.2 ∈ blocks)
    (inv : state.Inv blocks inputs frontier)
    (enough : state.w.length + (blocks.length - state.work.length) < fuel) :
    ∃ result, Cryton.run frontier fuel state = some result ∧
      ∀ x, x ∈ inputs ∨ x ∈ result → frontierAt frontier x ⊆ result := by
  induction fuel generalizing state with
  | zero => exact absurd enough (Nat.not_lt_zero _)
  | succ fuel inductionHypothesis =>
      cases isNext : state.w with
      | nil =>
          refine ⟨state.result, by rw [Cryton.run, isNext], fun x mem => ?_⟩
          have isWork : x ∈ state.work := mem.elim (inv.inputs ·) (inv.result ·)
          refine (inv.visited x isWork).resolve_left fun inW => ?_
          rw [isNext] at inW
          cases inW
      | cons x w =>
          obtain ⟨after, fewer⟩ := inv.visit sound isNext
          obtain ⟨result, isResult, closed⟩ := inductionHypothesis after (by omega)
          refine ⟨result, ?_, closed⟩
          rw [Cryton.run, isNext]
          exact isResult

end Worklist

/-- The algorithm ends, and the blocks it finds contain the dominance frontiers of the inputs and
of their own. -/
theorem exists_runCrytonAlgorithm {region : Region Block} {domTree : Block → Option Block}
    (tree : IsDominatorTree region.successors region.entry domTree)
    (reachable : ∀ block ∈ region.blocks, region.IsReachable block)
    (noPredecessors : getPredecessors region region.entry = []) {inputs : List Block}
    (nodup : inputs.Nodup) (within : inputs ⊆ region.blocks) :
    ∃ result, runCrytonAlgorithm region domTree inputs = some result ∧
      ∀ {node edgeNode}, node ∈ inputs ∨ node ∈ result →
        InFrontier region.successors region.entry node edgeNode → edgeNode ∈ result := by
  obtain ⟨frontier, isFrontier, sound, complete⟩ :=
    exists_getDominanceFrontier tree reachable noPredecessors
  have inv : Cryton.Inv region.blocks inputs frontier ⟨inputs, inputs, []⟩ :=
    ⟨nodup, within, List.Subset.refl _, List.nil_subset _, fun _ => .inl⟩
  have few := (nodup.subperm within).length_le
  obtain ⟨result, isResult, closed⟩ := Cryton.exists_run sound inv
    (show inputs.length + (region.blocks.length - inputs.length) < region.blocks.length + 1 by omega)
  refine ⟨result, ?_, fun mem inFrontier =>
    closed _ mem (mem_frontierAt.mpr (complete _ _ inFrontier))⟩
  rw [runCrytonAlgorithm, isFrontier]
  exact isResult

end Dynamatic.PhiNetwork
