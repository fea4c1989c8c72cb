import Dynamatic.Suppression.PathCondition

/-!
# Reduction to the dependences

From each block of a region the search finds the only first block among the consumer, the sink
and the dependences. So the decision graph is a region of the same form, and its runs lead to
the consumer where those of the region do.
-/

namespace Dynamatic.Suppression

open BooleanLogic ControlFlow

variable {Block : Type} {size : Nat}

/-! ### The same ends with other blocks -/

section Map

variable {Other : Type} {rename : Block → Other} {terminator : Terminator Block}

def Terminator.map (rename : Block → Other) : Terminator Block → Terminator Other
  | ret => ret
  | br dest => br (rename dest)
  | condBr trueDest falseDest => condBr (rename trueDest) (rename falseDest)

@[simp]
theorem Terminator.successors_map :
    (terminator.map rename).successors = terminator.successors.map rename := by
  cases terminator <;> rfl

@[simp]
theorem Terminator.taken_map {value : Bool} :
    (terminator.map rename).taken value = (terminator.taken value).map rename := by
  cases terminator with
  | ret => rfl
  | br dest => rfl
  | condBr trueDest falseDest => cases value <;> rfl

end Map

/-! ### The nearest blocks -/

section Nearest

variable {rank : Block → Nat} {start first block : Block}
  {graph : LocalCFG Block size} {nodeSet visited : List Block}

section Search

variable [DecidableEq Block]

/-- Once a block is found, the search goes on to no other. -/
theorem foldl_findNearest_some {bound : Nat} (nexts : List Block) :
    nexts.foldl (fun (found, visited) succ =>
        match found with
        | some res => (some res, visited)
        | none => findNearest graph nodeSet bound visited succ) (some first, visited) =
      (some first, visited) := by
  induction nexts with
  | nil => rfl
  | cons next nexts inductionHypothesis => exact inductionHypothesis

/-- The search finds a first block of a set that holds the sink. -/
theorem first_findNearest {bound : Nat} (wellFormed : graph.WellFormed rank) (sink : graph.sinkBB ∈ nodeSet)
    (enough : rank start < bound) (behind : ∀ passed ∈ visited, rank start < rank passed) :
    ∃ first after, findNearest graph nodeSet bound visited start = (some first, after) ∧
      First graph.successors (· ∈ nodeSet) start first := by
  induction bound generalizing start visited with
  | zero => exact absurd enough (Nat.not_lt_zero _)
  | succ bound inductionHypothesis =>
      by_cases mem : start ∈ nodeSet
      · exact ⟨start, visited, by rw [findNearest, if_pos mem], .here mem⟩
      · have unvisited : start ∉ visited := fun again => Nat.lt_irrefl _ (behind start again)
        have notSink : start ≠ graph.sinkBB := fun same => mem (same ▸ sink)
        obtain ⟨next, others, isSuccessors⟩ :=
          List.exists_cons_of_ne_nil (wellFormed.goesOn start notSink)
        have edge : next ∈ graph.successors start := isSuccessors ▸ List.mem_cons_self
        have falls := wellFormed.falls start next edge
        obtain ⟨first, after, isFound, isFirst⟩ := @inductionHypothesis next (start :: visited)
          (Nat.lt_of_lt_of_le falls (Nat.le_of_lt_succ enough))
          (List.forall_mem_cons.mpr ⟨falls, fun passed seen => falls.trans (behind passed seen)⟩)
        refine ⟨first, after, ?_, .step mem edge isFirst⟩
        rw [findNearest, if_neg mem, if_neg unvisited, isSuccessors, List.foldl_cons]
        dsimp only
        rw [isFound]
        exact foldl_findNearest_some others

end Search

/-- The sink is below all other blocks. -/
theorem LocalCFG.WellFormed.rank_sink_le (wellFormed : graph.WellFormed rank) (block : Block) :
    rank graph.sinkBB ≤ rank block := by
  obtain ⟨last, isLast, reach⟩ := leadsToExits_of_falls wellFormed.falls wellFormed.goesOn block
  exact List.mem_singleton.mp isLast ▸ reach.path.rank_le wellFormed.falls

theorem LocalCFG.WellFormed.rank_sink_lt (wellFormed : graph.WellFormed rank) (notSink : block ≠ graph.sinkBB) :
    rank graph.sinkBB < rank block := by
  obtain ⟨next, edge⟩ := List.exists_mem_of_ne_nil _ (wellFormed.goesOn block notSink)
  exact Nat.lt_of_le_of_lt (wellFormed.rank_sink_le next) (wellFormed.falls block next edge)

end Nearest

/-! ### The decision graph -/

section Decision

variable [DecidableEq Block] (graph : LocalCFG Block size) (deps : List Block)

/-- The consumer, the sink and the dependences. -/
def decisionNodes : List Block := graph.newCons :: graph.sinkBB :: deps

/-- The decision graph of a consumer that is no gamma. -/
def decisionGraph : LocalCFG (Option Block) size := buildDecisionGraph graph deps fun _ => none

def nearest (start : Block) : Block :=
  ((findNearest graph (decisionNodes graph deps) graph.bound [] start).1).getD graph.sinkBB

/-- The rank of a block of the decision graph, the dummy start above all others. -/
def decisionRank (rank : Block → Nat) : Option Block → Nat
  | none => graph.bound
  | some block => rank block

variable {graph deps} {rank : Block → Nat} {block : Block} {outcome : Fin size → Bool}

theorem decisionGraph_sink : (decisionGraph graph deps).terminator (some graph.sinkBB) = .ret := by
  simp [decisionGraph, buildDecisionGraph]

theorem decisionGraph_cons (apart : graph.newCons ≠ graph.sinkBB) :
    (decisionGraph graph deps).terminator (some graph.newCons) = .br (some graph.sinkBB) := by
  simp [decisionGraph, buildDecisionGraph, apart]

/-- A dependence leads to the nearest blocks. -/
theorem decisionGraph_terminator (notSink : block ≠ graph.sinkBB)
    (notCons : block ≠ graph.newCons) :
    (decisionGraph graph deps).terminator (some block) =
      (graph.terminator block).map fun dest => some (nearest graph deps dest) := by
  simp only [decisionGraph, buildDecisionGraph, if_neg notSink, if_neg notCons]
  cases graph.terminator block <;> rfl

theorem decisionGraph_taken (notSink : block ≠ graph.sinkBB) (notCons : block ≠ graph.newCons) :
    (decisionGraph graph deps).taken outcome (some block) =
      (graph.taken outcome block).map fun dest => some (nearest graph deps dest) := by
  rw [LocalCFG.taken, decisionGraph_terminator notSink notCons, Terminator.taken_map]
  rfl

theorem mem_decisionGraph_blocks :
    some block ∈ (decisionGraph graph deps).blocks ↔
      block ∈ graph.topoOrder ∧ block ∈ decisionNodes graph deps := by
  simp [decisionGraph, buildDecisionGraph, LocalCFG.blocks, decisionNodes]

variable (wellFormed : graph.WellFormed rank)

include wellFormed

theorem first_nearest (start : Block) :
    First graph.successors (· ∈ decisionNodes graph deps) start (nearest graph deps start) := by
  obtain ⟨first, after, isFound, isFirst⟩ := @first_findNearest _ _ _ start _
    (decisionNodes graph deps) [] _ _ wellFormed (.tail _ (.head _)) (wellFormed.enough start)
    fun _ mem => nomatch mem
  rw [nearest, isFound]
  exact isFirst

theorem rank_nearest_le (start : Block) : rank (nearest graph deps start) ≤ rank start :=
  (first_nearest wellFormed start).path.rank_le wellFormed.falls

/-- The edges of the decision graph lead down to its blocks. -/
theorem decisionGraph_edge {next : Option Block} (apart : graph.newCons ≠ graph.sinkBB)
    (edge : next ∈ (decisionGraph graph deps).successors (some block)) :
    ∃ dest, next = some dest ∧ dest ∈ decisionNodes graph deps ∧ rank dest < rank block ∧
      (block ∈ graph.blocks → dest ∈ graph.blocks) := by
  rw [LocalCFG.successors] at edge
  by_cases isSink : block = graph.sinkBB
  · rw [isSink, decisionGraph_sink] at edge
    cases edge
  · by_cases isCons : block = graph.newCons
    · rw [isCons, decisionGraph_cons apart] at edge
      exact ⟨graph.sinkBB, List.mem_singleton.mp edge, .tail _ (.head _),
        wellFormed.rank_sink_lt isSink, fun _ => wellFormed.sink_mem⟩
    · rw [decisionGraph_terminator isSink isCons, Terminator.successors_map] at edge
      obtain ⟨dest, isDest, rfl⟩ := List.mem_map.mp edge
      have isFirst := @first_nearest _ _ _ _ deps _ wellFormed dest
      have falls := wellFormed.falls block dest isDest
      exact ⟨_, rfl, isFirst.mem, Nat.lt_of_le_of_lt (rank_nearest_le wellFormed dest) falls,
        fun inside => isFirst.kept wellFormed.kept (wellFormed.kept inside isDest)⟩

section Region

variable (ordered : PostOrdered graph.successors [graph.newProd] graph.topoOrder)
  (listed : ∀ block, block ∈ graph.topoOrder ↔ block ∈ graph.blocks)
  (producer : graph.newProd ∈ graph.blocks)
  (closed : Closed graph.successors graph.ends (· ∈ graph.blocks)
    (· ∈ decisionNodes graph deps))
  (apart : graph.newCons ≠ graph.sinkBB)

include ordered producer closed

/-- The decision graph starts at the first block of the set. -/
theorem decisionGraph_newProd :
    (decisionGraph graph deps).newProd = some (nearest graph deps graph.newProd) :=
  First.find?_eq_some wellFormed.kept closed wellFormed.leads ordered wellFormed.falls producer
    (first_nearest wellFormed graph.newProd)

theorem decisionGraph_successors_none : (decisionGraph graph deps).successors none =
    [some (nearest graph deps graph.newProd)] := by
  rw [← decisionGraph_newProd wellFormed ordered producer closed]
  rfl

omit closed in
/-- Where the sink stands for the consumer, the decision graph starts there. -/
theorem decisionGraph_newProd_of_sink (isSink : graph.newCons = graph.sinkBB)
    (isDeps : deps = controlDepsOf graph graph.newCons) :
    (decisionGraph graph deps).newProd = some graph.newCons := by
  have noDeps : deps = [] := by rw [isDeps, isSink, controlDepsOf_sink wellFormed]
  have closed : Closed graph.successors graph.ends (· ∈ graph.blocks)
      (· ∈ decisionNodes graph deps) := by
    rw [isDeps]
    exact closed_controlDepsOf wellFormed (isSink ▸ wellFormed.sink_mem)
  have mem := (@first_nearest _ _ _ _ deps _ wellFormed graph.newProd).mem
  rw [decisionGraph_newProd wellFormed ordered producer closed]
  simp only [decisionNodes, noDeps, ← isSink, List.mem_cons, List.not_mem_nil, or_self,
    or_false] at mem
  rw [noDeps, mem]

include listed apart

theorem wellFormed_decisionGraph :
    (decisionGraph graph deps).WellFormed (decisionRank graph rank) where
  falls := by
    intro block next edge
    cases block with
    | none =>
        rw [decisionGraph_successors_none wellFormed ordered producer closed] at edge
        rw [List.mem_singleton.mp edge]
        exact wellFormed.enough _
    | some block =>
        obtain ⟨dest, rfl, _, falls, _⟩ := decisionGraph_edge wellFormed apart edge
        exact falls
  goesOn := by
    intro block notSink
    cases block with
    | none =>
        rw [decisionGraph_successors_none wellFormed ordered producer closed]
        exact List.cons_ne_nil _ _
    | some block =>
        have notSink : block ≠ graph.sinkBB := fun same => notSink (congrArg some same)
        rw [LocalCFG.successors]
        by_cases isCons : block = graph.newCons
        · rw [isCons, decisionGraph_cons apart]
          exact List.cons_ne_nil _ _
        · rw [decisionGraph_terminator notSink isCons, Terminator.successors_map]
          exact fun empty => wellFormed.goesOn block notSink (List.map_eq_nil_iff.mp empty)
  ret := by
    have isRet := @decisionGraph_sink _ _ _ graph deps
    exact congrArg Terminator.successors isRet
  nodup := by
    refine List.nodup_cons.mpr ⟨by simp [decisionGraph, buildDecisionGraph], ?_⟩
    exact (ordered.nodup.filter _).map (Option.some_injective _)
  kept := by
    intro block next inside edge
    cases block with
    | none =>
        rw [decisionGraph_successors_none wellFormed ordered producer closed] at edge
        have isFirst := @first_nearest _ _ _ _ deps _ wellFormed graph.newProd
        rw [List.mem_singleton.mp edge, mem_decisionGraph_blocks, listed]
        exact ⟨isFirst.kept wellFormed.kept producer, isFirst.mem⟩
    | some block =>
        obtain ⟨dest, rfl, mem, _, kept⟩ := decisionGraph_edge wellFormed apart edge
        rw [mem_decisionGraph_blocks, listed] at inside ⊢
        exact ⟨kept inside.1, mem⟩
  enough := by
    intro block
    cases block with
    | none => exact Nat.lt_succ_self _
    | some block => exact Nat.lt_succ_of_lt (wellFormed.enough block)

omit ordered listed producer in
/-- The runs of the decision graph lead to the consumer where those of the region do. -/
theorem leads_decisionGraph_iff (inside : block ∈ graph.blocks)
    (mem : block ∈ decisionNodes graph deps) :
    Leads ((decisionGraph graph deps).taken outcome) (some block) (some graph.newCons) ↔
      Leads (graph.taken outcome) block graph.newCons := by
  induction isRank : rank block using Nat.strong_induction_on generalizing block with
  | _ bound inductionHypothesis =>
      by_cases isCons : block = graph.newCons
      · rw [isCons]
        exact iff_of_true .refl .refl
      · have takes := takes_taken graph outcome
        by_cases isSink : block = graph.sinkBB
        · have isEnd := takes.eq_none (wellFormed.ret)
          have isDecisionEnd := (takes_taken (decisionGraph graph deps) outcome).eq_none
            (congrArg Terminator.successors decisionGraph_sink)
          rw [isSink]
          refine iff_of_false (fun leads => ?_) fun leads => apart (leads.eq_of_none isEnd).symm
          exact apart (Option.some.inj (leads.eq_of_none isDecisionEnd)).symm
        · obtain ⟨next, isTaken⟩ := takes.goesOn (wellFormed.goesOn block isSink)
          have edge := takes.edge isTaken
          have isFirst := @first_nearest _ _ _ _ deps _ wellFormed next
          have falls := wellFormed.falls block next edge
          have isDecision : (decisionGraph graph deps).taken outcome (some block) =
              some (some (nearest graph deps next)) := by
            rw [decisionGraph_taken isSink isCons, isTaken]
            rfl
          have further := inductionHypothesis _
            (isRank ▸ Nat.lt_of_le_of_lt (rank_nearest_le wellFormed next) falls)
            (isFirst.kept wellFormed.kept (wellFormed.kept inside edge)) isFirst.mem rfl
          rw [leads_iff_of_taken isDecision (mt (Option.some.inj ·) isCons), further,
            leads_iff_of_taken isTaken isCons]
          exact (isFirst.leads_iff (wellFormed.falls _ _)
            (fun isEnd => wellFormed.eq_sink_of_nil isEnd ▸ .tail _ (.head _)) takes
            wellFormed.kept closed wellFormed.leads (wellFormed.kept inside edge) (.head _)).symm

/-- The condition of the paths in the decision graph holds for the runs of the region that lead
to the consumer. -/
theorem evaluate_decisionGraph {minimize : BoolExpression (Fin size) → BoolExpression (Fin size)}
    (equivalent : ∀ expr row, (minimize expr).evaluate row = expr.evaluate row)
    (consumer : graph.newCons ∈ graph.blocks)
    (named : ∀ block trueDest falseDest, graph.terminator block = .condBr trueDest falseDest →
      (graph.origMap block).isSome) :
    (enumeratePaths (decisionGraph graph deps) minimize
        (controlDepsOf (decisionGraph graph deps) (some graph.newCons))).evaluate outcome = true ↔
      Leads (graph.taken outcome) graph.newProd graph.newCons := by
  have isFirst := @first_nearest _ _ _ _ deps _ wellFormed graph.newProd
  have inside := isFirst.kept wellFormed.kept producer
  have isProducer := decisionGraph_newProd wellFormed ordered producer closed
  have stillNamed : ∀ block trueDest falseDest,
      (decisionGraph graph deps).terminator block = .condBr trueDest falseDest →
        ((decisionGraph graph deps).origMap block).isSome := by
    intro block trueDest falseDest isBranch
    cases block with
    | none => cases isBranch
    | some block =>
        by_cases isSink : block = graph.sinkBB
        · rw [isSink, decisionGraph_sink] at isBranch
          cases isBranch
        · by_cases isCons : block = graph.newCons
          · rw [isCons, decisionGraph_cons apart] at isBranch
            cases isBranch
          · rw [decisionGraph_terminator isSink isCons] at isBranch
            cases isTerminator : graph.terminator block with
            | ret => rw [isTerminator] at isBranch; cases isBranch
            | br dest => rw [isTerminator] at isBranch; cases isBranch
            | condBr trueDest falseDest => exact named block trueDest falseDest isTerminator
  refine (evaluate_enumeratePaths equivalent
    (wellFormed_decisionGraph wellFormed ordered listed producer closed apart)
    (mt (Option.some.inj ·) apart)
    (mem_decisionGraph_blocks.mpr ⟨(listed _).mpr consumer, .head _⟩)
    (isProducer ▸ mem_decisionGraph_blocks.mpr ⟨(listed _).mpr inside, isFirst.mem⟩)
    stillNamed).trans ?_
  rw [isProducer]
  refine (leads_decisionGraph_iff wellFormed closed apart inside isFirst.mem).trans ?_
  exact (isFirst.leads_iff (wellFormed.falls _ _)
    (fun isEnd => wellFormed.eq_sink_of_nil isEnd ▸ .tail _ (.head _)) (takes_taken graph outcome)
    wellFormed.kept closed wellFormed.leads producer (.head _)).symm

end Region

end Decision

end Dynamatic.Suppression
