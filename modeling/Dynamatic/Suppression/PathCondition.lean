import Dynamatic.ControlFlow.Dependence
import Dynamatic.Suppression.LocalCFG

/-!
# Path conditions

In a region in which ranks fall along the edges and only the sink has none, the dependences of
the consumer, the consumer and the sink are closed under dependence. So the conditions of the
paths to the consumer are right although they leave out the branches on which the consumer
does not depend.
-/

namespace Dynamatic.Suppression

open BooleanLogic BoolExpression ControlFlow ControlDependence

variable {Block : Type} {size : Nat}

/-- Ranks fall along the edges, only the sink has none, and the edges stay in the region. -/
structure LocalCFG.WellFormed (graph : LocalCFG Block size) (rank : Block → Nat) : Prop where
  falls : ∀ block, ∀ next ∈ graph.successors block, rank next < rank block
  goesOn : ∀ block, block ≠ graph.sinkBB → graph.successors block ≠ []
  ret : graph.successors graph.sinkBB = []
  nodup : graph.blocks.Nodup
  kept : Kept graph.successors (· ∈ graph.blocks)
  enough : ∀ block, rank block < graph.bound

section Region

variable [DecidableEq Block] {graph : LocalCFG Block size} {rank : Block → Nat}
  {block branch dep node : Block}

/-- The blocks of the region without successors. -/
def LocalCFG.ends (graph : LocalCFG Block size) : List Block := graph.exits.map graph.blocks.get

theorem exists_position (mem : block ∈ graph.blocks) :
    ∃ position, graph.blocks.finIdxOf? block = some position ∧
      graph.blocks.get position = block := by
  cases found : graph.blocks.finIdxOf? block with
  | none => exact absurd mem (List.finIdxOf?_eq_none_iff.mp found)
  | some position => exact ⟨position, rfl, (List.finIdxOf?_eq_some_iff.mp found).1⟩

variable (wellFormed : graph.WellFormed rank)

include wellFormed

namespace LocalCFG.WellFormed

theorem maps (position : Fin graph.blocks.length) :
    graph.successors (graph.blocks.get position) =
      (graph.region.successors position).map graph.blocks.get := by
  have found : ∀ next ∈ graph.successors (graph.blocks.get position),
      Option.map graph.blocks.get (graph.blocks.finIdxOf? next) = some next := by
    intro next edge
    obtain ⟨place, isPlace, same⟩ :=
      exists_position (wellFormed.kept (List.get_mem _ position) edge)
    rw [isPlace, Option.map_some, same]
  rw [LocalCFG.region, List.map_filterMap, List.filterMap_congr found, List.filterMap_some]

omit [DecidableEq Block] in
theorem eq_sink_of_nil (isEnd : graph.successors block = []) : block = graph.sinkBB := by
  by_contra differs
  exact wellFormed.goesOn block differs isEnd

theorem eq_sink (mem : block ∈ graph.ends) : block = graph.sinkBB := by
  obtain ⟨position, isExit, rfl⟩ := List.mem_map.mp mem
  have empty := List.isEmpty_iff.mp (List.mem_filter.mp isExit).2
  exact wellFormed.eq_sink_of_nil (by rw [wellFormed.maps, empty, List.map_nil])

omit [DecidableEq Block] in
theorem sink_mem : graph.sinkBB ∈ graph.blocks := by
  obtain ⟨last, isLast, reach⟩ := leadsToExits_of_falls wellFormed.falls wellFormed.goesOn graph.front
  exact List.mem_singleton.mp isLast ▸ Kept.reach wellFormed.kept List.mem_cons_self reach

theorem sink_mem_ends : graph.sinkBB ∈ graph.ends := by
  obtain ⟨position, _, same⟩ := exists_position wellFormed.sink_mem
  refine List.mem_map.mpr ⟨position, List.mem_filter.mpr ⟨List.mem_finRange _, ?_⟩, same⟩
  have none := wellFormed.maps position
  rw [same, wellFormed.ret] at none
  rw [List.map_eq_nil_iff.mp none.symm]
  rfl

theorem leads : LeadsToExits graph.successors graph.ends := by
  intro block
  obtain ⟨last, isLast, reach⟩ := leadsToExits_of_falls wellFormed.falls wellFormed.goesOn block
  exact ⟨last, List.mem_singleton.mp isLast ▸ wellFormed.sink_mem_ends, reach⟩

omit [DecidableEq Block] in
theorem injective : Function.Injective graph.blocks.get :=
  List.nodup_iff_injective_get.mp wellFormed.nodup

theorem regionLeads : LeadsToExits graph.region.successors graph.exits := by
  intro position
  obtain ⟨last, isEnd, reach⟩ := wellFormed.leads (graph.blocks.get position)
  obtain ⟨exit, isExit, rfl⟩ := List.mem_map.mp isEnd
  exact ⟨exit, isExit, ((reach_map_iff wellFormed.injective wellFormed.maps).mp reach).mono
    fun _ mem => nomatch mem⟩

theorem documented :
    (PostDominanceInfo.ofPaths graph.region graph.exits).Documented graph.region graph.exits := by
  refine documented_ofPaths (fun position empty => ?_) wellFormed.regionLeads
  exact List.mem_filter.mpr ⟨List.mem_finRange _, List.isEmpty_iff.mpr empty⟩

theorem dependsOn_iff {position other : Fin graph.blocks.length} :
    DependsOn graph.successors graph.ends (graph.blocks.get position) (graph.blocks.get other) ↔
      DependsOn graph.region.successors graph.exits position other :=
  dependsOn_map_iff wellFormed.injective wellFormed.maps

end LocalCFG.WellFormed

omit wellFormed in
theorem mem_controlDepsOf {position : Fin graph.blocks.length}
    (found : graph.blocks.finIdxOf? block = some position) :
    dep ∈ controlDepsOf graph block ↔ ∃ place ∈ identifyAllControlDeps graph.region
      (.ofPaths graph.region graph.exits) position, graph.blocks.get place = dep := by
  rw [controlDepsOf, found]
  simp

/-- On each dependence of a block, some block depends directly. -/
theorem exists_dependsOn (mem : dep ∈ controlDepsOf graph block) :
    dep ∈ graph.blocks ∧ ∃ node, DependsOn graph.successors graph.ends node dep := by
  cases found : graph.blocks.finIdxOf? block with
  | none => simp [controlDepsOf, found] at mem
  | some position =>
      obtain ⟨place, isDep, rfl⟩ := (mem_controlDepsOf found).mp mem
      have depends := transGen_of_mem_identifyAllControlDeps wellFormed.documented isDep
      obtain ⟨node, _, direct⟩ := Relation.TransGen.tail'_iff.mp depends
      exact ⟨List.get_mem _ place, _, wellFormed.dependsOn_iff.mpr direct⟩

theorem not_dependsOn_sink : ¬ DependsOn graph.successors graph.ends graph.sinkBB branch := by
  rintro ⟨next, edge, _, notStrict⟩
  refine notStrict ⟨?_, fun last isEnd reach => ?_⟩
  · rintro rfl
    rw [wellFormed.ret] at edge
    cases edge
  · exact reach.free_last (List.mem_singleton.mpr (wellFormed.eq_sink isEnd))

theorem controlDepsOf_sink : controlDepsOf graph graph.sinkBB = [] := by
  obtain ⟨position, found, same⟩ := exists_position wellFormed.sink_mem
  refine List.eq_nil_iff_forall_not_mem.mpr fun dep isDep => ?_
  obtain ⟨place, isPlace, _⟩ := (mem_controlDepsOf found).mp isDep
  have depends := transGen_of_mem_identifyAllControlDeps wellFormed.documented isPlace
  obtain ⟨node, direct, _⟩ := Relation.TransGen.head'_iff.mp depends
  have fromSink := wellFormed.dependsOn_iff.mpr direct
  rw [same] at fromSink
  exact not_dependsOn_sink wellFormed fromSink

/-- A block and its dependences hold the branches on which they depend. -/
theorem closed_controlDepsOf (inside : block ∈ graph.blocks) :
    Closed graph.successors graph.ends (· ∈ graph.blocks)
      (· ∈ block :: graph.sinkBB :: controlDepsOf graph block) := by
  intro branch node branchInside mem depends
  obtain ⟨position, found, same⟩ := exists_position inside
  obtain ⟨branchPlace, _, rfl⟩ := exists_position branchInside
  -- the branch is a dependence, or the block itself
  have added {place : Fin graph.blocks.length}
      (depends : Relation.TransGen (DependsOn graph.region.successors graph.exits) position place) :
      graph.blocks.get place ∈ block :: graph.sinkBB :: controlDepsOf graph block := by
    rcases mem_identifyAllControlDeps_or_eq wellFormed.documented depends with isDep | rfl
    · exact .tail _ (.tail _ ((mem_controlDepsOf found).mpr ⟨place, isDep, rfl⟩))
    · exact same ▸ .head _
  rcases List.mem_cons.mp mem with rfl | further
  · rw [← same] at depends
    exact added (.single (wellFormed.dependsOn_iff.mp depends))
  · rcases List.mem_cons.mp further with rfl | isDep
    · exact absurd depends (not_dependsOn_sink wellFormed)
    · obtain ⟨place, isPlace, rfl⟩ := (mem_controlDepsOf found).mp isDep
      have before := transGen_of_mem_identifyAllControlDeps wellFormed.documented isPlace
      exact added (before.tail (wellFormed.dependsOn_iff.mp depends))

/-- A branch on which a block depends has another way, that does not lead to it for certain. -/
theorem exists_apart (depends : DependsOn graph.successors graph.ends node branch) :
    ∃ next ∈ graph.successors branch, ∃ other ∈ graph.successors branch, next ≠ other := by
  have falls := depends.rank_lt wellFormed.leads wellFormed.falls
  obtain ⟨next, edge, postDom, notStrict⟩ := depends
  have differs : node ≠ branch := by
    rintro rfl
    exact Nat.lt_irrefl _ falls
  have notPostDom : ¬ PostDom graph.successors graph.ends node branch :=
    fun postDom => notStrict ⟨differs, postDom⟩
  simp only [PostDom, not_forall, not_not] at notPostDom
  obtain ⟨last, isEnd, reach⟩ := notPostDom
  cases reach with
  | here =>
      rw [wellFormed.eq_sink isEnd, wellFormed.ret] at edge
      cases edge
  | @step _ other _ _ otherEdge rest =>
      refine ⟨next, edge, other, otherEdge, ?_⟩
      rintro rfl
      exact postDom last isEnd rest

end Region

/-! ### Runs -/

section Runs

/-- Where a run goes on, with given outcomes of the branch conditions. -/
def LocalCFG.taken (graph : LocalCFG Block size) (outcome : Fin size → Bool) (block : Block) :
    Option Block :=
  (graph.terminator block).taken ((graph.origMap block).elim false outcome)

theorem Terminator.mem_of_taken {terminator : Terminator Block} {value : Bool} {next : Block}
    (isTaken : terminator.taken value = some next) : next ∈ terminator.successors := by
  cases terminator with
  | ret => cases isTaken
  | br dest =>
      cases isTaken
      exact List.mem_singleton_self _
  | condBr trueDest falseDest =>
      cases isTaken
      cases value with
      | false => exact .tail _ (.head _)
      | true => exact .head _

theorem takes_taken (graph : LocalCFG Block size) (outcome : Fin size → Bool) :
    Takes graph.successors (graph.taken outcome) where
  edge := Terminator.mem_of_taken
  goesOn := by
    intro block goesOn
    rw [LocalCFG.taken]
    rw [LocalCFG.successors] at goesOn
    cases isTerminator : graph.terminator block with
    | ret => exact absurd (by rw [isTerminator]; rfl) goesOn
    | br dest => exact ⟨_, rfl⟩
    | condBr trueDest falseDest => exact ⟨_, rfl⟩

end Runs

/-! ### The condition of a path -/

section PathCondition

variable [DecidableEq Block] {graph : LocalCFG Block size} {rank : Block → Nat}
  {outcome : Fin size → Bool} {deps : List Block} {block next : Block}

/-- A path goes on with the literal of a dependence. -/
theorem getHybridPathExpression_append (exp : BoolExpression (Fin size)) (front : List Block) :
    getHybridPathExpression graph deps exp (front ++ [block, next]) =
      getHybridPathExpression graph deps
        (getHybridPathExpression graph deps exp (front ++ [block])) [block, next] := by
  induction front generalizing exp with
  | nil => rfl
  | cons first front inductionHypothesis =>
      cases front with
      | nil => rfl
      | cons second front => exact inductionHypothesis _

/-- The literal of a dependence holds where the run takes the edge. -/
theorem evaluate_getHybridPathExpression_pair (exp : BoolExpression (Fin size))
    (edge : next ∈ graph.successors block)
    (branches : block ∈ deps → ∃ trueDest falseDest orig, trueDest ≠ falseDest ∧
      graph.terminator block = .condBr trueDest falseDest ∧ graph.origMap block = some orig) :
    (getHybridPathExpression graph deps exp [block, next]).evaluate outcome = true ↔
      exp.evaluate outcome = true ∧ (block ∈ deps → graph.taken outcome block = some next) := by
  by_cases isDep : block ∈ deps
  · obtain ⟨trueDest, falseDest, orig, differ, isTerminator, isOrig⟩ := branches isDep
    simp only [getHybridPathExpression, isTerminator, isOrig, if_pos isDep, evaluate,
      Bool.and_eq_true, LocalCFG.taken, Terminator.taken, Option.elim_some]
    rw [LocalCFG.successors, isTerminator, Terminator.successors, List.mem_pair] at edge
    refine and_congr_right fun _ => ?_
    rcases edge with rfl | rfl
    · cases outcome orig <;> simp [isDep, differ.symm]
    · cases outcome orig <;> simp [isDep, differ]
  · simp only [getHybridPathExpression, isDep, false_implies, and_true]
    split <;> rfl

variable (wellFormed : graph.WellFormed rank) (apart : graph.newCons ≠ graph.sinkBB)
  (branches : ∀ block ∈ deps, ∃ trueDest falseDest orig, trueDest ≠ falseDest ∧
    graph.terminator block = .condBr trueDest falseDest ∧ graph.origMap block = some orig)

include wellFormed apart branches

/-- The condition of some continuation of a path holds if one agrees with the run at the
dependences. -/
theorem exists_allPaths_iff {bound : Nat} {front : List Block} (enough : rank block < bound)
    (before : ∀ passed ∈ front, rank block < rank passed) :
    (∃ path ∈ allPaths graph bound (front ++ [block]) block,
        (getHybridPathExpression graph deps one path).evaluate outcome = true) ↔
      (getHybridPathExpression graph deps one (front ++ [block])).evaluate outcome = true ∧
        Agrees graph.successors (graph.taken outcome) (· ∈ deps) block graph.newCons := by
  induction bound generalizing block front with
  | zero => exact absurd enough (Nat.not_lt_zero _)
  | succ bound inductionHypothesis =>
      rw [allPaths]
      split
      · rename_i same
        simp only [List.mem_singleton, exists_eq_left]
        exact ⟨fun holds => ⟨holds, same ▸ .here⟩, And.left⟩
      · rename_i differs
        have further {next : Block} (edge : next ∈ graph.successors block) :=
          (@inductionHypothesis next (front ++ [block])
            (Nat.lt_of_lt_of_le (wellFormed.falls _ _ edge) (Nat.le_of_lt_succ enough)) (by
              intro passed mem
              have falls := wellFormed.falls _ _ edge
              rcases List.mem_append.mp mem with old | new
              · exact falls.trans (before passed old)
              · exact List.mem_singleton.mp new ▸ falls))
        have pair {next : Block} (edge : next ∈ graph.successors block) :
            (getHybridPathExpression graph deps one (front ++ [block] ++ [next])).evaluate outcome =
              true ↔ (getHybridPathExpression graph deps one (front ++ [block])).evaluate outcome =
                true ∧ (block ∈ deps → graph.taken outcome block = some next) := by
          rw [List.append_assoc, List.singleton_append, getHybridPathExpression_append]
          exact evaluate_getHybridPathExpression_pair _ edge (branches block)
        constructor
        · rintro ⟨path, mem, holds⟩
          obtain ⟨next, edge, mem⟩ := List.mem_flatMap.mp mem
          split at mem
          · obtain ⟨isPath, agrees⟩ := (further edge).mp ⟨path, mem, holds⟩
            obtain ⟨isPath, same⟩ := (pair edge).mp isPath
            exact ⟨isPath, .step edge same agrees⟩
          · cases mem
        · rintro ⟨holds, agrees⟩
          cases agrees with
          | here => exact absurd rfl differs
          | @step _ next _ edge same rest =>
              obtain ⟨path, mem, holds⟩ := (further edge).mpr ⟨(pair edge).mpr ⟨holds, same⟩, rest⟩
              have notSink : next ≠ graph.sinkBB := by
                intro isSink
                cases rest with
                | here => exact apart isSink
                | step edge =>
                    rw [isSink, wellFormed.ret] at edge
                    cases edge
              have isNew : next ∉ front ++ [block] := by
                intro again
                have falls := wellFormed.falls _ _ edge
                rcases List.mem_append.mp again with old | new
                · exact Nat.lt_asymm falls (before next old)
                · exact Nat.lt_irrefl _ (List.mem_singleton.mp new ▸ falls)
              refine ⟨path, List.mem_flatMap.mpr ⟨next, edge, ?_⟩, holds⟩
              rwa [if_pos ⟨notSink, isNew⟩]

omit wellFormed apart branches in
theorem evaluate_foldl_or (paths : List (List Block)) (sop : BoolExpression (Fin size)) :
    (paths.foldl (fun sop path => or sop (getHybridPathExpression graph deps one path))
        sop).evaluate outcome = true ↔ sop.evaluate outcome = true ∨ ∃ path ∈ paths,
          (getHybridPathExpression graph deps one path).evaluate outcome = true := by
  induction paths generalizing sop with
  | nil => simp
  | cons first paths inductionHypothesis =>
      rw [List.foldl_cons, inductionHypothesis]
      simp [evaluate, or_assoc]

/-- The conditions of all paths hold together if a path agrees with the run. -/
theorem evaluate_enumeratePaths_iff {minimize : BoolExpression (Fin size) → BoolExpression (Fin size)}
    (equivalent : ∀ expr row, (minimize expr).evaluate row = expr.evaluate row) :
    (enumeratePaths graph minimize deps).evaluate outcome = true ↔
      Agrees graph.successors (graph.taken outcome) (· ∈ deps) graph.newProd graph.newCons := by
  have enough := Nat.lt_succ_of_lt (wellFormed.enough graph.newProd)
  have paths := @exists_allPaths_iff _ _ _ _ _ outcome _ _ wellFormed apart branches _ []
    enough (fun _ mem => nomatch mem)
  rw [List.nil_append] at paths
  refine Iff.trans ?_ (paths.trans (and_iff_right rfl))
  rw [enumeratePaths]
  split
  · rename_i none
    rw [List.isEmpty_iff.mp none]
    simp [evaluate]
  · rw [equivalent, evaluate_foldl_or]
    simp [evaluate]

omit wellFormed apart branches in
/-- A producer that is the consumer is always used. -/
theorem evaluate_enumeratePaths_of_eq
    {minimize : BoolExpression (Fin size) → BoolExpression (Fin size)}
    (equivalent : ∀ expr row, (minimize expr).evaluate row = expr.evaluate row)
    (same : graph.newProd = graph.newCons) :
    (enumeratePaths graph minimize deps).evaluate outcome = true := by
  simp [enumeratePaths, allPaths, same, getHybridPathExpression, equivalent, evaluate]

end PathCondition

/-- Where the consumer is not the sink, the condition of its paths holds for the runs that lead
to it. -/
theorem evaluate_enumeratePaths [DecidableEq Block] {graph : LocalCFG Block size}
    {rank : Block → Nat} {outcome : Fin size → Bool}
    {minimize : BoolExpression (Fin size) → BoolExpression (Fin size)}
    (equivalent : ∀ expr row, (minimize expr).evaluate row = expr.evaluate row)
    (wellFormed : graph.WellFormed rank) (apart : graph.newCons ≠ graph.sinkBB)
    (consumer : graph.newCons ∈ graph.blocks) (producer : graph.newProd ∈ graph.blocks)
    (named : ∀ block trueDest falseDest, graph.terminator block = .condBr trueDest falseDest →
      (graph.origMap block).isSome) :
    (enumeratePaths graph minimize (controlDepsOf graph graph.newCons)).evaluate outcome = true ↔
      Leads (graph.taken outcome) graph.newProd graph.newCons := by
  have branches : ∀ block ∈ controlDepsOf graph graph.newCons, ∃ trueDest falseDest orig,
      trueDest ≠ falseDest ∧ graph.terminator block = .condBr trueDest falseDest ∧
        graph.origMap block = some orig := by
    intro block isDep
    obtain ⟨_, node, depends⟩ := exists_dependsOn wellFormed isDep
    obtain ⟨next, edge, other, otherEdge, differ⟩ := exists_apart wellFormed depends
    rw [LocalCFG.successors] at edge otherEdge
    cases isTerminator : graph.terminator block with
    | ret =>
        rw [isTerminator] at edge
        cases edge
    | br dest =>
        rw [isTerminator] at edge otherEdge
        exact absurd ((List.mem_singleton.mp edge).trans (List.mem_singleton.mp otherEdge).symm)
          differ
    | condBr trueDest falseDest =>
        obtain ⟨orig, isOrig⟩ := Option.isSome_iff_exists.mp (named _ _ _ isTerminator)
        refine ⟨trueDest, falseDest, orig, ?_, rfl, isOrig⟩
        rintro rfl
        rw [isTerminator] at edge otherEdge
        simp only [Terminator.successors, List.mem_pair, or_self] at edge otherEdge
        exact differ (edge.trans otherEdge.symm)
  rw [evaluate_enumeratePaths_iff wellFormed apart branches equivalent]
  constructor
  · intro agrees
    refine Agrees.leads (wellFormed.falls _ _) ?_ (takes_taken graph outcome) wellFormed.kept
      (closed_controlDepsOf wellFormed consumer) wellFormed.leads (agrees.whole ?_) producer
      List.mem_cons_self
    · intro block isEnd
      exact wellFormed.eq_sink_of_nil isEnd ▸ .tail _ (.head _)
    · intro block goesOn mem
      rcases List.mem_cons.mp mem with same | further
      · exact .inl same
      · rcases List.mem_cons.mp further with same | isDep
        · exact absurd (same ▸ wellFormed.ret) goesOn
        · exact .inr isDep
  · exact Leads.agrees (takes_taken graph outcome)

end Dynamatic.Suppression
