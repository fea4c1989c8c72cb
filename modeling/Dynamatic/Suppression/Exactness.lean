import Dynamatic.Suppression.Cloning
import Dynamatic.Suppression.Reduction

/-!
# The exact condition

The condition computed for a producer and a consumer holds for the executions from the
producer that reach the consumer. Where no path leads to the consumer, the sink stands for it
and every execution reaches the sink.
-/

namespace Dynamatic.Suppression

open BooleanLogic BoolExpression ControlFlow ControlDependence

variable {size : Nat} {cfg : FunctionCFG size} {origProd origCons block : Fin size}
  {outcome : Fin size → Bool}

/-! ### A consumer that is reached -/

section Reached

theorem localDest_mem_successors (differ : origProd ≠ origCons)
    (visited : block ∈ (built cfg origProd origCons).visited) {next : Fin size}
    (edge : next ∈ cfg.successors block) : localDest origCons next ∈
      (buildLocalCFGRegion cfg origProd origCons).successors (.clone block) := by
  have isLocal := (terminator_clone cfg differ block).resolve_right fun apart => apart.1 visited
  rw [LocalCFG.successors, isLocal, localTerminator]
  rw [FunctionCFG.successors] at edge
  cases isTerminator : cfg.terminator block with
  | ret =>
      rw [isTerminator] at edge
      cases edge
  | br dest =>
      rw [isTerminator] at edge
      exact List.mem_map_of_mem edge
  | condBr trueDest falseDest =>
      rw [isTerminator] at edge
      exact List.mem_map_of_mem edge

/-- A path to the consumer becomes a path to its proxy. -/
theorem path_proxy (differ : origProd ≠ origCons)
    (visited : block ∈ (built cfg origProd origCons).visited)
    (path : Path cfg.successors block origCons) :
    Path (buildLocalCFGRegion cfg origProd origCons).successors (.clone block) .proxy := by
  induction path using Relation.ReflTransGen.head_induction_on with
  | refl => exact absurd visited (clones_built differ).1.apart
  | @head block next edge _ inductionHypothesis =>
      have isEdge := localDest_mem_successors differ visited edge
      rw [localDest] at isEdge
      split at isEdge
      · exact .single isEdge
      · rename_i apart
        exact .head isEdge (inductionHypothesis (built_next differ visited edge apart))

theorem newCons_eq : (buildLocalCFGRegion cfg origProd origCons).newCons =
    if (built cfg origProd origCons).hasProxy then .proxy else .sink := rfl

/-- Only the clones of blocks have a condition. -/
theorem origMap_isSome (block trueDest falseDest : LocalBlock size)
    (isBranch : (buildLocalCFGRegion cfg origProd origCons).terminator block =
      .condBr trueDest falseDest) :
    ((buildLocalCFGRegion cfg origProd origCons).origMap block).isSome := by
  cases block with
  | clone orig => rfl
  | proxy => rfl
  | sink => cases isBranch

theorem evaluate_of_path {minimize : BoolExpression (Fin size) → BoolExpression (Fin size)}
    (equivalent : ∀ expr row, (minimize expr).evaluate row = expr.evaluate row)
    (differ : origProd ≠ origCons) (path : Path cfg.successors origProd origCons) :
    (suppressionCondition minimize cfg origProd origCons).evaluate outcome = true ↔
      origCons ∈ cfg.execution outcome origProd := by
  have visited := (@clones_built _ cfg _ _ differ).2.2
  have isProxy : (buildLocalCFGRegion cfg origProd origCons).newCons = .proxy := by
    rw [newCons_eq, if_pos ((hasProxy_iff differ).mpr path)]
  have wellFormed := wellFormed_buildLocalCFGRegion cfg differ
  have consumer : (buildLocalCFGRegion cfg origProd origCons).newCons ∈
      (buildLocalCFGRegion cfg origProd origCons).blocks := by
    rw [isProxy]
    exact (mem_blocks_iff cfg).mpr (path_proxy differ visited path)
  have exact_ := @evaluate_decisionGraph _ _ _ _ _ _ outcome wellFormed (postOrdered_topoOrder cfg)
    (fun _ => (mem_topoOrder_iff cfg).trans (mem_blocks_iff cfg).symm)
    ((mem_blocks_iff cfg).mpr .refl) (closed_controlDepsOf wellFormed consumer)
    (by rw [isProxy]; exact nofun) _ equivalent consumer origMap_isSome
  refine exact_.trans ?_
  rw [isProxy, mem_execution_iff]
  exact leads_proxy_iff differ visited

end Reached

/-! ### A consumer that is not reached -/

section Unreached

/-- The sink stands for the consumer, and is the first block of the decision graph. -/
theorem evaluate_of_not_path {minimize : BoolExpression (Fin size) → BoolExpression (Fin size)}
    (equivalent : ∀ expr row, (minimize expr).evaluate row = expr.evaluate row)
    (differ : origProd ≠ origCons) (noPath : ¬ Path cfg.successors origProd origCons) :
    (suppressionCondition minimize cfg origProd origCons).evaluate outcome = true := by
  have wellFormed := wellFormed_buildLocalCFGRegion cfg differ
  have isSink : (buildLocalCFGRegion cfg origProd origCons).newCons = .sink := by
    rw [newCons_eq, if_neg (mt (hasProxy_iff differ).mp noPath)]
  exact evaluate_enumeratePaths_of_eq equivalent (decisionGraph_newProd_of_sink wellFormed
    (postOrdered_topoOrder cfg) ((mem_blocks_iff cfg).mpr .refl) isSink rfl)

end Unreached

/-- The condition holds for the executions that reach the consumer, and for all if no path leads
to the consumer. -/
theorem evaluate_suppressionCondition
    {minimize : BoolExpression (Fin size) → BoolExpression (Fin size)}
    (equivalent : ∀ expr row, (minimize expr).evaluate row = expr.evaluate row)
    (cfg : FunctionCFG size) {producer consumer : Fin size} (differ : producer ≠ consumer)
    (outcome : Fin size → Bool) :
    (suppressionCondition minimize cfg producer consumer).evaluate outcome = true ↔
      consumer ∈ cfg.execution outcome producer ∨ ¬ Path cfg.successors producer consumer := by
  by_cases path : Path cfg.successors producer consumer
  · rw [evaluate_of_path equivalent differ path, or_iff_left (not_not_intro path)]
  · exact iff_of_true (evaluate_of_not_path equivalent differ path) (.inr path)

open Numerals in
/-- A branch on one side of another; the consumer is on a way of each. -/
def nestedBranches : FunctionCFG 5 where
  terminator := fun block =>
    match block with
    | 0 => .condBr 1 2
    | 1 => .condBr 3 4
    | 2 => .br 3
    | 3 => .br 4
    | 4 => .ret
  forward := by decide

theorem evaluate_suppressionCondition_nestedBranches :
    (suppressionCondition expansion.boolMinimize nestedBranches 0 3).evaluate (· = 1) = true :=
  (evaluate_suppressionCondition expansion.evaluate nestedBranches (by decide) (· = 1)).mpr
    (.inl (by decide))

open Numerals in
/-- Two blocks that end apart. -/
def apartBranches : FunctionCFG 3 where
  terminator := fun block => if block = 0 then .condBr 1 2 else .ret
  forward := by decide

theorem not_path_apartBranches : ¬ Path apartBranches.successors 1 2 := by
  intro path
  rcases Relation.ReflTransGen.cases_head path with same | ⟨next, edge, _⟩
  · exact absurd same (by decide)
  · cases edge

/-- The condition from one of the blocks to the other holds, although it is not reached. -/
theorem suppressionCondition_not_exact :
    ¬ ((suppressionCondition expansion.boolMinimize apartBranches 1 2).evaluate (fun _ => true) =
      true ↔ 2 ∈ apartBranches.execution (fun _ => true) 1) := by
  intro isExact
  have holds := @evaluate_of_not_path _ apartBranches 1 2 (fun _ => true) _ expansion.evaluate
    (by decide) not_path_apartBranches
  exact absurd (isExact.mp holds) (by decide)

end Dynamatic.Suppression
