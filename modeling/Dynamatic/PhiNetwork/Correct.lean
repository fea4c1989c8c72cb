import Dynamatic.Numerals
import Dynamatic.PhiNetwork.Values

/-!
# Phi networks are correct

Between the last visit of the nearest dominator that has a value or a merge and the visit of a
block, no value is defined and no merge is passed. So what a phi network gives to a block is the
value that was defined last before, along each execution.
-/

namespace Dynamatic.PhiNetwork

open ControlFlow StraightToQueue

variable {Block : Type} [DecidableEq Block] {region : Region Block}
  {domTree : Block → Option Block} {vals : List (Val Block)} {phis : List Block}

theorem valueToUse_ne_none_iff {bb : Block} :
    valueToUse vals phis bb ≠ none ↔ bb ∈ (vals.map Val.parentBlock).dedup ∨ bb ∈ phis := by
  rw [← inputBlocks_ne_none_iff, valueToUse]
  cases inputBlocks vals bb with
  | some val => simp
  | none => simp

/-- What a block has is in it. -/
theorem block_of_valueToUse {bb : Block} {operand : Operand Block}
    (has : valueToUse vals phis bb = some operand) : operand.block = bb := by
  unfold valueToUse at has
  split at has
  · rename_i val isInput
    cases has
    exact (inputBlocks_eq_some isInput).2.1
  · obtain ⟨-, same⟩ := Option.ite_none_right_eq_some.mp has
    cases same
    rfl

/-- What a construction rests on: the dominator tree, a region in which control comes to all
blocks and not back to the entry, a value in the entry, and merges in all frontiers. -/
structure Placed (region : Region Block) (domTree : Block → Option Block)
    (vals : List (Val Block)) (phis : List Block) : Prop where
  tree : IsDominatorTree region.successors region.entry domTree
  reachable : ∀ block ∈ region.blocks, region.IsReachable block
  noPredecessors : getPredecessors region region.entry = []
  atEntry : ∃ val ∈ vals, val.parentBlock = region.entry
  closed : ∀ {node edgeNode}, node ∈ (vals.map Val.parentBlock).dedup ∨ node ∈ phis →
    InFrontier region.successors region.entry node edgeNode → edgeNode ∈ phis

/-- The merges have the operands of their predecessors, and each block its input. -/
structure Wired (region : Region Block) (domTree : Block → Option Block) (vals : List (Val Block))
    (phis : List Block) (network : Network Block) : Prop where
  operands : ∀ block ∈ phis, ∀ pred ∈ getPredecessors region block,
    operandFrom region network block pred =
      climb (getImmediateDominator region domTree) (valueToUse vals phis) region.blocks.length pred
  inputs : ∀ bb ∈ region.blocks,
    network.inputPerBlock.lookup bb = inputOf region domTree vals phis bb

/-- A merge stands for what came from the predecessor. -/
theorem Wired.carried_merge {network : Network Block} {execution : List Block} {time : Nat}
    {bb pred : Block} {operand : Operand Block} (wired : Wired region domTree vals phis network)
    (isExecution : region.IsExecution execution) (here : execution[time + 1]? = some bb)
    (before : execution[time]? = some pred) (isPhi : bb ∈ phis)
    (climbs : climb (getImmediateDominator region domTree) (valueToUse vals phis)
      region.blocks.length pred = some operand) :
    carried region network execution (time + 1) (.merge bb) =
      carried region network execution time operand := by
  have isWalk : IsWalk region.successors region.entry execution := isExecution
  have isPred := mem_getPredecessors.mpr
    ⟨mem_blocks_of_reaches (isWalk.reaches before), isWalk.edge before here⟩
  rw [PhiNetwork.carried_merge here before, wired.operands bb isPhi pred isPred, climbs,
    Option.bind_some]

namespace Placed

variable (placed : Placed region domTree vals phis)

include placed

theorem entry_input : inputBlocks vals region.entry ≠ none := by
  obtain ⟨val, isVal, isEntry⟩ := placed.atEntry
  exact inputBlocks_ne_none_iff.mpr
    (List.mem_dedup.mpr (List.mem_map.mpr ⟨val, isVal, isEntry⟩))

theorem entry_has : valueToUse vals phis region.entry ≠ none :=
  valueToUse_ne_none_iff.mpr (.inl (inputBlocks_ne_none_iff.mp placed.entry_input))

theorem getImmediateDominator_tree :
    IsDominatorTree region.successors region.entry (getImmediateDominator region domTree) :=
  isDominatorTree_getImmediateDominator placed.tree

/-- Only the first block of an execution is the entry. -/
theorem ne_entry {execution : List Block} (isExecution : region.IsExecution execution) {time : Nat}
    {bb : Block} (here : execution[time + 1]? = some bb) : bb ≠ region.entry := by
  rintro rfl
  have isWalk : IsWalk region.successors region.entry execution := isExecution
  obtain ⟨bound, -⟩ := List.getElem?_eq_some_iff.mp here
  have before : execution[time]? = some execution[time] := List.getElem?_eq_getElem (by omega)
  have isPred := mem_getPredecessors.mpr
    ⟨mem_blocks_of_reaches (isWalk.reaches before), isWalk.edge before here⟩
  exact List.ne_nil_of_mem isPred placed.noPredecessors

/-- Climbing from a block that control comes to ends. -/
theorem exists_climb {bb : Block} (isBlock : bb ∈ region.blocks) :
    ∃ nearest operand, climb (getImmediateDominator region domTree) (valueToUse vals phis)
        region.blocks.length bb = some operand ∧ valueToUse vals phis nearest = some operand ∧
      Dominates region.successors region.entry nearest bb ∧
      ∀ other, valueToUse vals phis other ≠ none →
        Dominates region.successors region.entry other bb →
          Dominates region.successors region.entry other nearest :=
  ControlFlow.exists_climb placed.getImmediateDominator_tree (fun _ => mem_blocks_of_reaches)
    placed.entry_has (placed.reachable bb isBlock)
    (card_strictDominators_lt_length (fun _ => mem_blocks_of_reaches)
      (placed.reachable bb isBlock))

/-- So does climbing from above a block other than the entry. -/
theorem exists_foundValue {fuel : Nat} {bb : Block}
    (reaches : Reaches region.successors region.entry bb) (notEntry : bb ≠ region.entry)
    (enough : (strictDominators region.successors region.entry region.blocks bb).card < fuel) :
    ∃ nearest operand, foundValue region domTree vals phis fuel bb = some operand ∧
      valueToUse vals phis nearest = some operand ∧
      StrictlyDominates region.successors region.entry nearest bb ∧
      ∀ other, valueToUse vals phis other ≠ none →
        StrictlyDominates region.successors region.entry other bb →
          Dominates region.successors region.entry other nearest := by
  induction fuel generalizing bb with
  | zero => exact absurd enough (Nat.not_lt_zero _)
  | succ fuel inductionHypothesis =>
      obtain ⟨pred, reachesPred, edge, -⟩ := exists_edge_not_dominated reaches notEntry
      have isPred := mem_getPredecessors.mpr ⟨mem_blocks_of_reaches reachesPred, edge⟩
      obtain ⟨dominator, isIdom, strictly, above⟩ :=
        placed.getImmediateDominator_tree bb reaches notEntry
      cases has : valueToUse vals phis dominator with
      | some operand =>
          refine ⟨dominator, operand, ?_, has, strictly, fun other _ => above other⟩
          rw [foundValue, if_neg (List.ne_nil_of_mem isPred), isIdom, Option.bind_some, has]
      | none =>
          have notEntry' : dominator ≠ region.entry := fun same => placed.entry_has (same ▸ has)
          have lower := card_strictDominators_lt (fun _ => mem_blocks_of_reaches) reaches strictly
          obtain ⟨nearest, operand, isFound, isNearest, strictly', others⟩ :=
            inductionHypothesis (strictly.reaches reaches) notEntry' (by omega)
          refine ⟨nearest, operand, ?_, isNearest, .trans reaches strictly'.2 strictly,
            fun other isOther otherStrictly =>
              others other isOther ⟨?_, above other otherStrictly⟩⟩
          · rw [foundValue, if_neg (List.ne_nil_of_mem isPred), isIdom, Option.bind_some, has]
            exact isFound
          · rintro rfl
            exact isOther has

variable {network : Network Block} {execution : List Block} {time : Nat} {bb : Block}

/-- What the nearest strict dominator of a block without a merge has is what was defined last
before the visit of the block. -/
theorem carried_of_nearest (isExecution : region.IsExecution execution)
    (here : execution[time + 1]? = some bb) (noPhi : bb ∉ phis) {nearest : Block}
    {operand : Operand Block} (has : valueToUse vals phis nearest = some operand)
    (strictly : StrictlyDominates region.successors region.entry nearest bb)
    (others : ∀ other, valueToUse vals phis other ≠ none →
      StrictlyDominates region.successors region.entry other bb →
        Dominates region.successors region.entry other nearest)
    (before : ∀ moment ≤ time, execution[moment]? = some nearest →
      carried region network execution moment operand = lastInput vals execution moment) :
    carried region network execution (time + 1) operand = lastInput vals execution time := by
  have isWalk : IsWalk region.successors region.entry execution := isExecution
  obtain ⟨isUntil, ends⟩ := isWalk.take here
  obtain ⟨first, isFirst⟩ := List.mem_iff_getElem?.mp (strictly.2 _ isUntil ends)
  rw [List.getElem?_take] at isFirst
  have early : first < time + 1 + 1 := by
    by_contra late
    rw [if_neg late] at isFirst
    cases isFirst
  rw [if_pos early] at isFirst
  have firstBefore : first ≤ time := by
    refine Nat.le_of_lt_succ (Nat.lt_of_le_of_ne (Nat.le_of_lt_succ early) fun same => ?_)
    rw [same, here] at isFirst
    exact strictly.1 (Option.some.inj isFirst).symm
  -- the last visit of the dominator before the block
  let Visited (moment : Nat) : Prop := execution[moment]? = some nearest
  have atLast : Visited (Nat.findGreatest Visited time) := Nat.findGreatest_spec firstBefore isFirst
  have notAgain : ∀ moment, Nat.findGreatest Visited time < moment → moment ≤ time + 1 →
      execution[moment]? ≠ some nearest := by
    intro moment after atMost isNearest
    rcases Nat.lt_or_eq_of_le atMost with inside | rfl
    · exact Nat.findGreatest_is_greatest after (Nat.le_of_lt_succ inside) isNearest
    · rw [here] at isNearest
      exact strictly.1 (Option.some.inj isNearest).symm
  have le : Nat.findGreatest Visited time ≤ time := Nat.findGreatest_le time
  generalize Nat.findGreatest Visited time = last at atLast notAgain le
  have unmarked := @not_marked_between _ _ _ _ _ _ _ (fun block => valueToUse vals phis block ≠ none)
    _ isWalk (fun isMarked inFrontier => valueToUse_ne_none_iff.mpr
      (.inr (placed.closed (valueToUse_ne_none_iff.mp isMarked) inFrontier)))
    strictly (fun {other} => others other) here
    (fun isMarked inFrontier => noPhi
      (placed.closed (valueToUse_ne_none_iff.mp isMarked) inFrontier)) notAgain
  have notInput : ∀ moment, last < moment → moment ≤ time → ∀ {block},
      execution[moment]? = some block → inputBlocks vals block = none := by
    intro moment after atMost block isBlock
    by_contra isInput
    exact unmarked moment after (Nat.lt_succ_of_le atMost) isBlock
      (valueToUse_ne_none_iff.mpr (.inl (inputBlocks_ne_none_iff.mp isInput)))
  calc carried region network execution (time + 1) operand
      = carried region network execution last operand :=
        carried_eq (Nat.le_succ_of_le le) fun moment after atMost =>
          block_of_valueToUse has ▸ notAgain moment after atMost
    _ = lastInput vals execution last := before last le atLast
    _ = lastInput vals execution time := (lastInput_eq le notInput).symm

variable (wired : Wired region domTree vals phis network)

include wired

/-- What climbing from a block finds is what was defined last when control leaves the block. -/
theorem carried_climb (isExecution : region.IsExecution execution)
    (here : execution[time]? = some bb) :
    ∃ operand, climb (getImmediateDominator region domTree) (valueToUse vals phis)
        region.blocks.length bb = some operand ∧
      carried region network execution time operand = lastInput vals execution time := by
  have isWalk : IsWalk region.successors region.entry execution := isExecution
  induction time using Nat.strong_induction_on generalizing bb with
  | _ time inductionHypothesis =>
      obtain ⟨nearest, operand, climbs, isNearest, dominates, others⟩ :=
        placed.exists_climb (mem_blocks_of_reaches (isWalk.reaches here))
      refine ⟨operand, climbs, ?_⟩
      have own {operand' : Operand Block} (has : valueToUse vals phis bb = some operand') :
          operand = operand' := by
        obtain ⟨others', isLength⟩ : ∃ length, region.blocks.length = length + 1 :=
          ⟨region.others.length, rfl⟩
        rw [isLength, climb, has] at climbs
        exact (Option.some.inj climbs).symm
      cases isInput : inputBlocks vals bb with
      | some val =>
          have has : valueToUse vals phis bb = some (.value val) := by rw [valueToUse, isInput]
          have inBlock : execution[time]? = some val.parentBlock := by
            rw [here, (inputBlocks_eq_some isInput).2.1]
          rw [own has, carried_value inBlock, lastInput_of_input here isInput]
      | none =>
          cases time with
          | zero =>
              rw [← List.head?_eq_getElem?, isWalk.2] at here
              cases here
              exact absurd isInput placed.entry_input
          | succ time =>
              have same : lastInput vals execution (time + 1) = lastInput vals execution time := by
                refine lastInput_eq (Nat.le_succ time) fun moment after atMost block isBlock => ?_
                obtain rfl : moment = time + 1 := by omega
                rw [here] at isBlock
                cases isBlock
                exact isInput
              rw [same]
              obtain ⟨bound, -⟩ := List.getElem?_eq_some_iff.mp here
              have before : execution[time]? = some execution[time] :=
                List.getElem?_eq_getElem (by omega)
              by_cases isPhi : bb ∈ phis
              · have has : valueToUse vals phis bb = some (.merge bb) := by
                  rw [valueToUse, isInput]
                  exact if_pos isPhi
                obtain ⟨operand', climbs', isLast⟩ :=
                  inductionHypothesis time (Nat.lt_succ_self _) before
                rw [own has, wired.carried_merge isExecution here before isPhi climbs',
                  isLast]
              · have hasNone : valueToUse vals phis bb = none := by
                  rw [valueToUse, isInput]
                  exact if_neg isPhi
                have differs : nearest ≠ bb := by
                  rintro rfl
                  rw [hasNone] at isNearest
                  cases isNearest
                refine placed.carried_of_nearest isExecution here isPhi isNearest
                  ⟨differs, dominates⟩ (fun other isOther strictly => others other isOther strictly.2)
                  fun moment atMost isVisit => ?_
                obtain ⟨operand', climbs', isLast⟩ :=
                  inductionHypothesis moment (by omega) isVisit
                obtain ⟨length, isLength⟩ : ∃ length, region.blocks.length = length + 1 :=
                  ⟨region.others.length, rfl⟩
                rw [isLength, climb, isNearest] at climbs'
                cases climbs'
                exact isLast

/-- What comes into a block is what was defined last before its visit. -/
theorem carried_inputOf (isExecution : region.IsExecution execution)
    (here : execution[time + 1]? = some bb) :
    ∃ operand, network.inputPerBlock.lookup bb = some operand ∧
      carried region network execution (time + 1) operand = lastInput vals execution time := by
  have isWalk : IsWalk region.successors region.entry execution := isExecution
  have isBlock := mem_blocks_of_reaches (isWalk.reaches here)
  obtain ⟨bound, -⟩ := List.getElem?_eq_some_iff.mp here
  have before : execution[time]? = some execution[time] := List.getElem?_eq_getElem (by omega)
  rw [wired.inputs bb isBlock]
  by_cases isPhi : bb ∈ phis
  · obtain ⟨operand, climbs, isLast⟩ := placed.carried_climb wired isExecution before
    refine ⟨.merge bb, if_pos isPhi, ?_⟩
    rw [wired.carried_merge isExecution here before isPhi climbs, isLast]
  · have reaches := isWalk.reaches here
    obtain ⟨nearest, operand, isFound, isNearest, strictly, others⟩ :=
      placed.exists_foundValue reaches (placed.ne_entry isExecution here)
        (card_strictDominators_lt_length (fun _ => mem_blocks_of_reaches) reaches)
    refine ⟨operand, (if_neg isPhi).trans isFound, ?_⟩
    refine placed.carried_of_nearest isExecution here isPhi isNearest strictly others
      fun moment atMost isVisit => ?_
    obtain ⟨operand', climbs, isLast⟩ := placed.carried_climb wired isExecution isVisit
    obtain ⟨length, isLength⟩ : ∃ length, region.blocks.length = length + 1 :=
      ⟨region.others.length, rfl⟩
    rw [isLength, climb, isNearest] at climbs
    cases climbs
    exact isLast

omit wired in
/-- The entry has defined a value. -/
theorem exists_lastInput (isExecution : region.IsExecution execution)
    (here : execution[time + 1]? = some bb) :
    ∃ last, lastInput vals execution time = some last := by
  have first : execution[0]? = some region.entry := List.head?_eq_getElem? ▸ isExecution.2
  induction time generalizing bb with
  | zero =>
      obtain ⟨val, isInput⟩ := Option.ne_none_iff_exists'.mp placed.entry_input
      exact ⟨(val, 0), lastInput_of_input first isInput⟩
  | succ time inductionHypothesis =>
      obtain ⟨bound, -⟩ := List.getElem?_eq_some_iff.mp here
      rw [lastInput]
      split
      · exact ⟨_, rfl⟩
      · exact inductionHypothesis (List.getElem?_eq_getElem (by omega))

end Placed

/-! ### The construction -/

section Construction

theorem lookup_of_forall₂ {Result : Type} {f : Block → Option Result} {keys : List Block}
    {pairs : List (Block × Result)}
    (each : List.Forall₂ (fun key pair => (f key).map (key, ·) = some pair) keys pairs) {key : Block}
    (mem : key ∈ keys) : pairs.lookup key = f key := by
  induction each with
  | nil => cases mem
  | @cons head pair _ pairs isFirst _ inductionHypothesis =>
      obtain ⟨result, isResult, rfl⟩ := Option.map_eq_some_iff.mp isFirst
      by_cases same : key = head
      · subst same
        rw [List.lookup_cons_self, isResult]
      · rw [List.lookup_cons, beq_false_of_ne same]
        exact inductionHypothesis ((List.mem_cons.mp mem).resolve_left same)

theorem getElem?_idxOf_of_forall₂ {Result : Type} {f : Block → Option Result} {keys : List Block}
    {results : List Result}
    (each : List.Forall₂ (fun key result => f key = some result) keys results) {key : Block}
    (mem : key ∈ keys) : results[keys.idxOf key]? = f key := by
  induction each with
  | nil => cases mem
  | @cons head result _ results isFirst _ inductionHypothesis =>
      by_cases same : head = key
      · subst same
        rw [List.idxOf_cons_self, isFirst]
        rfl
      · rw [List.idxOf_cons_ne _ same]
        exact inductionHypothesis ((List.mem_cons.mp mem).resolve_left (Ne.symm same))

theorem mem_coveredPreds {bb pred : Block} :
    pred ∈ coveredPreds region bb ↔ pred ∈ getPredecessors region bb :=
  List.mem_eraseDups

variable (placed : Placed region domTree vals phis)

include placed

theorem Placed.exists_operandsOf (bb : Block) :
    ∃ operands, operandsOf region domTree vals phis bb = some operands ∧
      List.Forall₂ (fun pred operand => climb (getImmediateDominator region domTree)
          (valueToUse vals phis) region.blocks.length pred = some operand)
        (coveredPreds region bb) operands := by
  refine exists_mapM fun pred mem => ?_
  obtain ⟨nearest, operand, climbs, -⟩ :=
    placed.exists_climb (mem_getPredecessors.mp (mem_coveredPreds.mp mem)).1
  exact ⟨operand, climbs⟩

theorem Placed.exists_inputOf {bb : Block} (isBlock : bb ∈ region.blocks) :
    ∃ operand, inputOf region domTree vals phis bb = some operand := by
  unfold inputOf
  split
  · exact ⟨_, rfl⟩
  by_cases isEntry : bb = region.entry
  · subst isEntry
    obtain ⟨operand, has⟩ := Option.ne_none_iff_exists'.mp placed.entry_has
    refine ⟨operand, ?_⟩
    obtain ⟨length, isLength⟩ : ∃ length, region.blocks.length = length + 1 :=
      ⟨region.others.length, rfl⟩
    rw [isLength, foundValue, if_pos placed.noPredecessors, Option.bind_some, has]
  · obtain ⟨nearest, operand, isFound, -⟩ := placed.exists_foundValue
      (placed.reachable bb isBlock) isEntry
      (card_strictDominators_lt_length (fun _ => mem_blocks_of_reaches)
        (placed.reachable bb isBlock))
    exact ⟨operand, isFound⟩

/-- The merges and the inputs are all found. -/
theorem Placed.exists_wired : ∃ operandsPerPhi inputPerBlock,
    (phis.mapM fun bb => (operandsOf region domTree vals phis bb).map (bb, ·)) =
        some operandsPerPhi ∧
      (region.blocks.mapM fun bb => (inputOf region domTree vals phis bb).map (bb, ·)) =
        some inputPerBlock ∧
      Wired region domTree vals phis ⟨operandsPerPhi, inputPerBlock⟩ := by
  obtain ⟨operandsPerPhi, areOperands, eachPhi⟩ :
      ∃ pairs, (phis.mapM fun bb => (operandsOf region domTree vals phis bb).map (bb, ·)) =
        some pairs ∧ _ := exists_mapM fun bb _ => by
    obtain ⟨operands, isOperands, -⟩ := placed.exists_operandsOf bb
    exact ⟨(bb, operands), by rw [isOperands]; rfl⟩
  obtain ⟨inputPerBlock, areInputs, eachBlock⟩ :
      ∃ pairs, (region.blocks.mapM fun bb => (inputOf region domTree vals phis bb).map (bb, ·)) =
        some pairs ∧ _ := exists_mapM fun bb isBlock => by
    obtain ⟨operand, isInput⟩ := placed.exists_inputOf isBlock
    exact ⟨(bb, operand), by rw [isInput]; rfl⟩
  refine ⟨operandsPerPhi, inputPerBlock, areOperands, areInputs, fun block isPhi pred isPred => ?_,
    fun bb isBlock => lookup_of_forall₂ eachBlock isBlock⟩
  obtain ⟨operands, isOperands, each⟩ := placed.exists_operandsOf block
  rw [operandFrom, lookup_of_forall₂ eachPhi isPhi, isOperands, Option.bind_some]
  exact getElem?_idxOf_of_forall₂ each (mem_coveredPreds.mpr isPred)

omit placed

/-- The construction ends, and values of one type get a network. -/
theorem exists_createPhiNetwork (tree : IsDominatorTree region.successors region.entry domTree)
    (reachable : ∀ block ∈ region.blocks, region.IsReachable block)
    (noPredecessors : getPredecessors region region.entry = [])
    (inRegion : ∀ val ∈ vals, val.parentBlock ∈ region.blocks)
    (atEntry : ∃ val ∈ vals, val.parentBlock = region.entry) :
    ∃ outcome, createPhiNetwork region domTree vals = some outcome ∧
      ((∃ network, outcome = .ok network) ↔ ∀ val ∈ vals, ∀ other ∈ vals, val.type = other.type) ∧
      ∀ network, outcome = .ok network →
        ∃ phis, Placed region domTree vals phis ∧ Wired region domTree vals phis network := by
  have within : (vals.map Val.parentBlock).dedup ⊆ region.blocks := by
    intro bb mem
    obtain ⟨val, isVal, rfl⟩ := List.mem_map.mp (List.mem_dedup.mp mem)
    exact inRegion val isVal
  obtain ⟨phis, arePhis, closed⟩ :=
    exists_runCrytonAlgorithm tree reachable noPredecessors (List.nodup_dedup _) within
  have placed : Placed region domTree vals phis :=
    ⟨tree, reachable, noPredecessors, atEntry, closed⟩
  obtain ⟨operandsPerPhi, inputPerBlock, areOperands, areInputs, wired⟩ := placed.exists_wired
  cases vals with
  | nil =>
      obtain ⟨val, isVal, -⟩ := atEntry
      cases isVal
  | cons first rest =>
      rw [createPhiNetwork]
      by_cases differ : ((first :: rest).any fun val => val.type ≠ first.type) = true
      · rw [if_pos differ]
        refine ⟨_, rfl, ⟨fun ⟨network, isOk⟩ => (nomatch isOk), fun same => ?_⟩,
          fun network isOk => (nomatch isOk)⟩
        obtain ⟨val, isVal, other⟩ := List.any_eq_true.mp differ
        exact absurd (same val isVal first (List.mem_cons_self ..)) (of_decide_eq_true other)
      · rw [if_neg differ, arePhis]
        refine ⟨.ok ⟨operandsPerPhi, inputPerBlock⟩, ?_, ⟨fun _ val isVal other isOther => ?_,
          fun _ => ⟨_, rfl⟩⟩, fun network isOk => ?_⟩
        · simp only [Option.bind_eq_bind, Option.bind_some, areOperands, areInputs]
          rfl
        · have same {val : Val Block} (isVal : val ∈ first :: rest) : val.type = first.type := by
            by_contra different
            exact differ (List.any_eq_true.mpr ⟨val, isVal, decide_eq_true different⟩)
          rw [same isVal, same isOther]
        · cases isOk
          exact ⟨phis, placed, wired⟩

end Construction

/-- The construction ends. Values of one type get a network that gives each visit of a block, along
each execution, the value that was defined last before. -/
theorem createPhiNetwork_carries (tree : IsDominatorTree region.successors region.entry domTree)
    (reachable : ∀ block ∈ region.blocks, region.IsReachable block)
    (noPredecessors : getPredecessors region region.entry = [])
    (inRegion : ∀ val ∈ vals, val.parentBlock ∈ region.blocks)
    (atEntry : ∃ val ∈ vals, val.parentBlock = region.entry) :
    ∃ outcome, createPhiNetwork region domTree vals = some outcome ∧
      ((∃ network, outcome = .ok network) ↔
        ∀ val ∈ vals, ∀ other ∈ vals, val.type = other.type) ∧
      ∀ network, outcome = .ok network → ∀ execution, region.IsExecution execution →
        ∀ time bb, execution[time + 1]? = some bb →
          ∃ operand val visit, network.inputPerBlock.lookup bb = some operand ∧
            LastDefined vals execution (time + 1) val visit ∧
            carried region network execution (time + 1) operand = some (val, visit) := by
  obtain ⟨outcome, isOutcome, accepts, networks⟩ :=
    exists_createPhiNetwork tree reachable noPredecessors inRegion atEntry
  refine ⟨outcome, isOutcome, accepts, fun network isOk execution isExecution time bb here => ?_⟩
  obtain ⟨phis, placed, wired⟩ := networks network isOk
  obtain ⟨operand, isInput, isCarried⟩ := placed.carried_inputOf wired isExecution here
  obtain ⟨⟨val, visit⟩, isLast⟩ := placed.exists_lastInput isExecution here
  exact ⟨operand, val, visit, isInput, lastDefined_of_lastInput isLast, isCarried.trans isLast⟩

open Numerals in
/-- A branch whose sides come together again. -/
def diamond : Region (Fin 4) where
  entry := 0
  others := [1, 2, 3]
  successors := fun block => if block = 0 then [1, 2] else if block = 3 then [] else [3]
  distinct := by decide
  closed := by decide

open Numerals in
/-- The entry dominates the others immediately. -/
def diamondTree (block : Fin 4) : Option (Fin 4) := if block = 0 then none else some 0

theorem isDominatorTree_diamond :
    IsDominatorTree diamond.successors diamond.entry diamondTree := by
  intro node _ notEntry
  have above : Dominates diamond.successors diamond.entry 0 node := fun walk isWalk _ =>
    List.mem_of_head? isWalk.2
  refine ⟨0, if_neg notEntry, ⟨Ne.symm notEntry, above⟩, fun other strictly => ?_⟩
  -- each node has ways from the entry that have nothing else in common
  have walks {walk : List (Fin 4)} (isExecution : diamond.IsExecution walk)
      (last : walk.getLast? = some node) : other ∈ walk := strictly.2 walk isExecution last
  have isEntry : other = 0 := by
    match node with
    | 0 => exact absurd rfl notEntry
    | 1 =>
        have mem := @walks [0, 1] (by decide) rfl
        have differs := strictly.1
        simp at mem
        omega
    | 2 =>
        have mem := @walks [0, 2] (by decide) rfl
        have differs := strictly.1
        simp at mem
        omega
    | 3 =>
        have first := @walks [0, 1, 3] (by decide) rfl
        have second := @walks [0, 2, 3] (by decide) rfl
        have differs := strictly.1
        simp at first second
        omega
  exact isEntry ▸ Dominates.refl _

open Numerals in
/-- One value in the entry and one on a side. -/
def diamondVals : List (Val (Fin 4)) := [⟨0, none, 0, 32⟩, ⟨1, some 2, 0, 32⟩]

theorem createPhiNetwork_carries_diamond :
    ∃ network, createPhiNetwork diamond diamondTree diamondVals = some (.ok network) ∧
      ∀ execution, diamond.IsExecution execution → ∀ time bb, execution[time + 1]? = some bb →
        ∃ operand val visit, network.inputPerBlock.lookup bb = some operand ∧
          LastDefined diamondVals execution (time + 1) val visit ∧
          carried diamond network execution (time + 1) operand = some (val, visit) := by
  have reachable : ∀ block ∈ diamond.blocks, diamond.IsReachable block := by
    intro block _
    match block with
    | 0 => exact ⟨[0], by decide, rfl⟩
    | 1 => exact ⟨[0, 1], by decide, rfl⟩
    | 2 => exact ⟨[0, 2], by decide, rfl⟩
    | 3 => exact ⟨[0, 1, 3], by decide, rfl⟩
  obtain ⟨outcome, isOutcome, accepts, carries⟩ := @createPhiNetwork_carries _ _ _ _ diamondVals
    isDominatorTree_diamond reachable (by decide) (by decide) ⟨_, List.mem_cons_self .., rfl⟩
  obtain ⟨network, isOk⟩ := accepts.mpr (by decide)
  exact ⟨network, isOk ▸ isOutcome, carries network isOk⟩

end Dynamatic.PhiNetwork
