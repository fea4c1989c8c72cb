import Dynamatic.Suppression.Reachability

/-!
# Rates are balanced

The branch tree of a variable registers a signal wherever the paths to the variable diverge,
with the tokens of the executions that take the path. So every lookup on a path to a variable
finds such a signal, also where the paths have not diverged yet, and the circuit of the
reaching condition of the consumer takes one token of every visited block.
-/

namespace Dynamatic.Suppression

open BooleanLogic BranchGraph

variable {size : Nat} {graph : BranchGraph size} {runs : List (Execution size)}
  {registry extended grown : SignalRegistry size} {minimizer : Minimizer (Fin size)}
  {var other : Fin size} {path query start base : PathContext size} {signal : Signal size}
  {requirements : List (PathContext size)}

section Lookups

namespace SignalRegistry

/-- Entries that are not on the path of a query do not matter to it. -/
theorem lookup_append {added : List (PathContext size × Signal size)}
    (isMap : extended.map var = registry.map var ++ added)
    (apart : ∀ entry ∈ added, ¬ entry.1 <+: query) :
    extended.lookup var query = registry.lookup var query := by
  rw [lookup, lookup, isMap, List.foldl_append]
  refine congrArg _ ?_
  generalize (registry.map var).foldl (closest query) none = best
  clear isMap
  induction added with
  | nil => rfl
  | cons entry added inductionHypothesis =>
      have skips : closest query best entry = best := if_neg (apart entry (List.mem_cons_self ..))
      rw [List.foldl_cons, skips]
      exact inductionHypothesis fun other mem => apart other (List.mem_cons_of_mem _ mem)

/-- Only which entries are on the path of a query matters. -/
theorem lookup_congr (same : ∀ entry ∈ registry.map var, entry.1 <+: query ↔ entry.1 <+: path) :
    registry.lookup var query = registry.lookup var path := by
  rw [lookup, lookup]
  refine congrArg _ ?_
  generalize none = best
  generalize registry.map var = entries at same
  induction entries generalizing best with
  | nil => rfl
  | cons entry entries inductionHypothesis =>
      have isSame := same entry (List.mem_cons_self ..)
      rw [List.foldl_cons, List.foldl_cons,
        inductionHypothesis _ fun other mem => same other (List.mem_cons_of_mem _ mem)]
      simp only [closest, isSame]

private theorem mem_of_foldl_closest {entries : List (PathContext size × Signal size)}
    {best : Option (PathContext size × Signal size)} {found : PathContext size × Signal size}
    (isFound : entries.foldl (closest query) best = some found) :
    best = some found ∨ found ∈ entries ∧ found.1 <+: query := by
  induction entries generalizing best with
  | nil => exact .inl isFound
  | cons entry entries inductionHypothesis =>
      rcases inductionHypothesis isFound with isBest | ⟨mem, isPath⟩
      · unfold closest at isBest
        split at isBest
        · rename_i isPath
          split at isBest
          · cases isBest
            exact .inr ⟨List.mem_cons_self .., isPath⟩
          · split at isBest
            · cases isBest
              exact .inr ⟨List.mem_cons_self .., isPath⟩
            · exact .inl isBest
        · exact .inl isBest
      · exact .inr ⟨List.mem_cons_of_mem _ mem, isPath⟩

@[simp] theorem map_registerSignal :
    (registry.registerSignal var path signal).map var = registry.map var ++ [(path, signal)] :=
  Function.update_self _ _ _

/-- The entry that was registered last is found by the queries for which there is no longer
one. -/
theorem lookup_registerSignal (isPath : path <+: query)
    (longest : ∀ entry ∈ registry.map var, entry.1 <+: query → entry.1.length ≤ path.length) :
    (registry.registerSignal var path signal).lookup var query = some signal := by
  rw [lookup, map_registerSignal, List.foldl_append, List.foldl_cons, List.foldl_nil]
  suffices kept : closest query ((registry.map var).foldl (closest query) none) (path, signal) =
      some (path, signal) from congrArg _ kept
  unfold closest
  rw [if_pos isPath]
  split
  · rfl
  · rename_i regPath val isBest
    obtain ⟨mem, isPrefix⟩ := (mem_of_foldl_closest isBest).resolve_left (nomatch ·)
    exact if_pos (longest _ mem isPrefix)

theorem map_registerSignal_of_ne (differs : other ≠ var) :
    (registry.registerSignal var path signal).map other = registry.map other :=
  Function.update_of_ne differs _ _

end SignalRegistry

end Lookups

section Requirements

private theorem mem_collect {steps : Nat} {onStack : List (Fin size)} {block : Block size}
    {full : PathContext size} (enough : ∀ first, block = .node first → size ≤ first + steps)
    (below : ∀ first, block = .node first → ∀ stacked ∈ onStack, stacked < first) :
    (var, full) ∈ graph.collect steps onStack block path ↔
      ∃ rest, full = path ++ rest ∧ graph.Leads block rest (.node var) := by
  induction steps generalizing onStack block path with
  | zero =>
      cases block with
      | node first => exact absurd (enough first rfl) (by omega)
      | consumer => exact ⟨fun mem => (nomatch mem), fun ⟨_, _, leads⟩ => nomatch leads⟩
      | sink => exact ⟨fun mem => (nomatch mem), fun ⟨_, _, leads⟩ => nomatch leads⟩
  | succ steps inductionHypothesis =>
      cases block with
      | consumer => exact ⟨fun mem => (nomatch mem), fun ⟨_, _, leads⟩ => nomatch leads⟩
      | sink => exact ⟨fun mem => (nomatch mem), fun ⟨_, _, leads⟩ => nomatch leads⟩
      | node first =>
          have side (value : Bool) : (var, full) ∈ graph.collect steps (first :: onStack)
              (graph.dest first value) (path ++ [⟨first, value⟩]) ↔ ∃ rest,
                full = path ++ [⟨first, value⟩] ++ rest ∧
                  graph.Leads (graph.dest first value) rest (.node var) := by
            refine inductionHypothesis (fun next isNext => ?_) fun next isNext stacked mem => ?_
            · have isEnough := enough first rfl
              have isLater := Fin.lt_def.mp (later isNext)
              omega
            · rcases List.mem_cons.mp mem with rfl | mem
              · exact later isNext
              · exact (below first rfl stacked mem).trans (later isNext)
          have unstacked : first ∉ onStack := fun mem => lt_irrefl _ (below first rfl first mem)
          rw [collect, if_neg unstacked, List.mem_cons, List.mem_append]
          constructor
          · rintro (isFirst | mem | mem)
            · obtain ⟨rfl, rfl⟩ := Prod.mk.inj isFirst
              exact ⟨[], (List.append_nil _).symm, .here⟩
            · obtain ⟨rest, rfl, leads⟩ := (side true).mp mem
              exact ⟨_, List.append_assoc .., .step leads⟩
            · obtain ⟨rest, rfl, leads⟩ := (side false).mp mem
              exact ⟨_, List.append_assoc .., .step leads⟩
          · rintro ⟨rest, rfl, leads⟩
            cases leads with
            | here => exact .inl (by rw [List.append_nil])
            | @step _ value rest _ leads =>
                cases value with
                | true => exact .inr (.inl ((side true).mpr ⟨rest, by simp, leads⟩))
                | false => exact .inr (.inr ((side false).mpr ⟨rest, by simp, leads⟩))

/-- The requirements of a variable are the paths to it. -/
theorem mem_varNeeds : path ∈ graph.varNeeds var ↔ graph.Leads graph.newProd path (.node var) := by
  have collected : (var, path) ∈ graph.collect size [] graph.newProd [] ↔
      ∃ rest, path = [] ++ rest ∧ graph.Leads graph.newProd rest (.node var) :=
    mem_collect (fun first _ => Nat.le_add_left _ _) fun _ _ stacked mem => nomatch mem
  simp only [varNeeds, List.mem_map, List.mem_filter, decide_eq_true_eq]
  constructor
  · rintro ⟨⟨_, _⟩, ⟨mem, rfl⟩, rfl⟩
    obtain ⟨rest, rfl, leads⟩ := collected.mp mem
    exact leads
  · exact fun leads => ⟨(var, path), ⟨collected.mpr ⟨path, rfl, leads⟩, rfl⟩, rfl⟩

private theorem length_le_of_node {first : Fin size}
    (leads : graph.Leads (.node first) path (.node var)) : first + path.length ≤ var := by
  induction path generalizing first with
  | nil =>
      cases leads
      exact le_refl _
  | cons step path inductionHypothesis =>
      cases leads with
      | @step _ value _ _ leads =>
          generalize isNext : graph.dest first value = block at leads
          cases block with
          | consumer => exact nomatch leads
          | sink => exact nomatch leads
          | node next =>
              have isLater := Fin.lt_def.mp (later isNext)
              have isLe := inductionHypothesis leads
              rw [List.length_cons]
              omega

theorem length_le_of_leads {block : Block size} (leads : graph.Leads block path (.node var)) :
    path.length ≤ size := by
  cases block with
  | node first => exact (Nat.le_of_add_left_le (length_le_of_node leads)).trans var.isLt.le
  | consumer => exact nomatch leads
  | sink => exact nomatch leads

/-- The requirements are the ways to the variable that go on from a path. -/
def AreWays (graph : BranchGraph size) (requirements : List (PathContext size))
    (var : Fin size) (start : PathContext size) : Prop :=
  ∀ path, path ∈ requirements ↔ graph.Leads graph.newProd path (.node var) ∧ start <+: path

/-- Where all requirements have a path in common, the executions that reach the variable take
it. -/
theorem AreWays.agrees_eq {run : Execution size} (areWays : AreWays graph requirements var start)
    (nonempty : requirements ≠ []) (grows : start <+: base)
    (common : ∀ path ∈ requirements, base <+: path) :
    (agrees start run && graph.reaches (.node var) graph.newProd run) =
      (agrees base run && graph.reaches (.node var) graph.newProd run) := by
  obtain ⟨witness, mem⟩ := List.exists_mem_of_ne_nil _ nonempty
  obtain ⟨leadsWitness, rest, isWitness⟩ := (areWays witness).mp mem
  rw [Bool.eq_iff_iff, Bool.and_eq_true, Bool.and_eq_true]
  refine ⟨fun ⟨takes, reached⟩ => ⟨?_, reached⟩, fun ⟨takes, reached⟩ => ⟨?_, reached⟩⟩
  · obtain ⟨path, leads, takesPath⟩ := reaches_iff.mp reached
    subst isWitness
    obtain ⟨middle, before, after⟩ := leadsWitness.split
    have isWay : start <+: path := by
      rcases before.comparable takes leads takesPath with isPrefix | ⟨onwards, rfl⟩
      · exact isPrefix
      · obtain ⟨_, leadsOther, leadsOn⟩ := before.split
        cases leads.unique leadsOther
        have isNil := (leadsOn.append after).eq_nil
        simp_all
    obtain ⟨_, rfl⟩ := common path ((areWays path).mpr ⟨leads, isWay⟩)
    rw [agrees_append, Bool.and_eq_true] at takesPath
    exact takesPath.1
  · obtain ⟨onwards, rfl⟩ := grows
    rw [agrees_append, Bool.and_eq_true] at takes
    exact takes.1

end Requirements

section Splits

private theorem le_foldl_max {lengths : List Nat} {first : Nat} :
    first ≤ lengths.foldl max first ∧ ∀ length ∈ lengths, length ≤ lengths.foldl max first := by
  induction lengths generalizing first with
  | nil => exact ⟨le_refl _, fun _ mem => nomatch mem⟩
  | cons head lengths inductionHypothesis =>
      obtain ⟨isLe, all⟩ := @inductionHypothesis (max first head)
      refine ⟨(le_max_left first head).trans isLe, fun length mem => ?_⟩
      rcases List.mem_cons.mp mem with rfl | mem
      · exact (le_max_right first length).trans isLe
      · exact all length mem

private theorem diverge_eq_false {depth : Nat} : diverge requirements depth = false ↔
    ∀ path ∈ requirements, ∀ second ∈ requirements, path[depth]? = second[depth]? := by
  simp [diverge]

/-- Requirements that go on from one path and do not diverge agree. -/
private theorem AreWays.getElem?_eq {depth index : Nat}
    (areWays : AreWays graph requirements var start)
    (together : ∀ position, start.length ≤ position → position < depth →
      diverge requirements position = false) (isLess : index < depth)
    {first second : PathContext size} (mem : first ∈ requirements)
    (memSecond : second ∈ requirements) : first[index]? = second[index]? := by
  rcases Nat.lt_or_ge index start.length with before | behind
  · obtain ⟨rest, rfl⟩ := ((areWays first).mp mem).2
    obtain ⟨others, rfl⟩ := ((areWays second).mp memSecond).2
    rw [List.getElem?_append_left before, List.getElem?_append_left before]
  · exact diverge_eq_false.mp (together index behind isLess) first mem second memSecond

/-- Without a split there is one requirement. -/
theorem AreWays.eq_of_findSplit_none (areWays : AreWays graph requirements var start)
    (isNone : findSplit requirements start.length = none) {first second : PathContext size}
    (mem : first ∈ requirements) (memSecond : second ∈ requirements) : first = second := by
  have together := List.find?_range'_eq_none.mp isNone
  have bounds {path : PathContext size} (mem : path ∈ requirements) :
      path.length ≤ (requirements.map List.length).foldl max 0 :=
    le_foldl_max.2 _ (List.mem_map_of_mem mem)
  refine List.ext_getElem? fun index => ?_
  rcases Nat.lt_or_ge index ((requirements.map List.length).foldl max 0) with isLess | isGreater
  · refine areWays.getElem?_eq (fun position isLe isLess => ?_) isLess mem memSecond
    simpa using together position isLe (by omega)
  · rw [List.getElem?_eq_none ((bounds mem).trans isGreater),
      List.getElem?_eq_none ((bounds memSecond).trans isGreater)]

/-- A block from which the ways to a variable diverge: all pass it, on one path. -/
structure Split (graph : BranchGraph size) (requirements : List (PathContext size))
    (var : Fin size) (start base : PathContext size) (splitVar : Fin size) : Prop where
  grows : start <+: base
  leads : graph.Leads graph.newProd base (.node splitVar)
  isOpen : graph.Open (.node var) (.node splitVar)
  isLess : splitVar < var
  passes : ∀ path ∈ requirements, ∃ value, base ++ [⟨splitVar, value⟩] <+: path

theorem AreWays.split {depth : Nat} (areWays : AreWays graph requirements var start)
    (isSplit : findSplit requirements start.length = some depth) :
    requirements ≠ [] ∧ ∃ base splitVar, base.length = depth ∧
      Split graph requirements var start base splitVar := by
  obtain ⟨diverges, inRange, together⟩ := List.find?_range'_eq_some.mp isSplit
  have isDepth := List.mem_range'_1.mp inRange
  have differs : ∃ first ∈ requirements, ∃ second ∈ requirements,
      first[depth]? ≠ second[depth]? := by simpa [diverge] using diverges
  obtain ⟨first, mem, second, memSecond, differs⟩ := differs
  have common {path : PathContext size} (memPath : path ∈ requirements) :
      path.take depth = first.take depth := by
    refine List.ext_getElem? fun index => ?_
    rw [List.getElem?_take, List.getElem?_take]
    split
    · rename_i isLess
      refine areWays.getElem?_eq (fun position isLe isLess => ?_) isLess memPath mem
      simpa using together position isLe isLess
    · rfl
  have isLength : (first.take depth).length = depth := by
    have lengths := congrArg List.length (common memSecond)
    rw [List.length_take, List.length_take] at lengths
    rw [List.length_take]
    by_contra isShort
    refine differs ?_
    rw [List.getElem?_eq_none (by omega), List.getElem?_eq_none (by omega)]
  have goesOn {path : PathContext size} (memPath : path ∈ requirements) :
      path = first.take depth ++ path.drop depth := by
    rw [← common memPath, List.take_append_drop]
  obtain ⟨leadsFirst, grows⟩ := (areWays first).mp mem
  obtain ⟨middle, before, after⟩ := (goesOn mem ▸ leadsFirst).split
  have leadsOn {path : PathContext size} (memPath : path ∈ requirements) :
      graph.Leads middle (path.drop depth) (.node var) := by
    obtain ⟨_, beforePath, afterPath⟩ := (goesOn memPath ▸ ((areWays path).mp memPath).1).split
    cases before.unique beforePath
    exact afterPath
  have isNot : middle ≠ .node var := by
    rintro rfl
    have ends {path : PathContext size} (memPath : path ∈ requirements) : path[depth]? = none :=
      List.getElem?_eq_none (List.drop_eq_nil_iff.mp (leadsOn memPath).eq_nil)
    exact differs ((ends mem).trans (ends memSecond).symm)
  obtain ⟨splitVar, rfl⟩ := Open.isNode ⟨_, after⟩ isNot
  refine ⟨List.ne_nil_of_mem mem, first.take depth, splitVar, isLength, ?_, before, ⟨_, after⟩,
    ?_, fun path memPath => ?_⟩
  · exact List.prefix_of_prefix_length_le grows (List.take_prefix _ _)
      (isDepth.1.trans (le_of_eq isLength.symm))
  · refine after.le.2 fun isNil => ?_
    rw [isNil] at after
    cases after
    exact isNot rfl
  · have leadsPath := leadsOn memPath
    generalize isRest : path.drop depth = rest at leadsPath
    cases leadsPath with
    | here => exact absurd rfl isNot
    | @step _ value rest _ _ =>
        exact ⟨value, rest, by rw [goesOn memPath, isRest, List.append_assoc]; rfl⟩

namespace Split

variable {splitVar : Fin size} {value : Bool}

/-- The step that a requirement takes at the split. -/
private theorem getElem?_splitVar (isPrefix : base ++ [⟨splitVar, value⟩] <+: path) :
    path[base.length]? = some ⟨splitVar, value⟩ := by
  obtain ⟨rest, rfl⟩ := isPrefix
  simp

theorem mem_group (split : Split graph requirements var start base splitVar) :
    path ∈ group requirements base.length splitVar value ↔
      path ∈ requirements ∧ base ++ [⟨splitVar, value⟩] <+: path := by
  rw [group, List.mem_filter, decide_eq_true_eq]
  refine and_congr_right fun mem => ⟨fun isStep => ?_, getElem?_splitVar⟩
  obtain ⟨other, isPrefix⟩ := split.passes path mem
  cases (getElem?_splitVar isPrefix).symm.trans isStep
  exact isPrefix

theorem areWays_group (split : Split graph requirements var start base splitVar)
    (areWays : AreWays graph requirements var start) :
    AreWays graph (group requirements base.length splitVar value) var
      (base ++ [⟨splitVar, value⟩]) := fun path => by
  rw [split.mem_group, areWays path, and_assoc]
  refine and_congr_right fun _ => and_iff_right_of_imp fun isPrefix => ?_
  exact split.grows.trans ((List.prefix_append _ _).trans isPrefix)

theorem splitVar_eq (split : Split graph requirements var start base splitVar)
    (nonempty : requirements ≠ []) :
    (requirements.head?.bind (·[base.length]?)).map PathStep.var = some splitVar := by
  cases requirements with
  | nil => exact absurd rfl nonempty
  | cons path requirements =>
      obtain ⟨value, isPrefix⟩ := split.passes path (List.mem_cons_self ..)
      rw [List.head?_cons, Option.bind_some, getElem?_splitVar isPrefix]
      rfl

/-- The skipped steps are filled in from any requirement of a group. -/
theorem base_eq (split : Split graph requirements var start base splitVar)
    (nonempty : requirements ≠ []) :
    ∃ repReq, (group requirements base.length splitVar false ++
        group requirements base.length splitVar true).head? = some repReq ∧
      start ++ (repReq.take base.length).drop start.length = base := by
  cases isHead : (group requirements base.length splitVar false ++
      group requirements base.length splitVar true).head? with
  | none =>
      obtain ⟨path, mem⟩ := List.exists_mem_of_ne_nil _ nonempty
      obtain ⟨value, isPrefix⟩ := split.passes path mem
      have isMember := split.mem_group.mpr ⟨mem, isPrefix⟩
      rw [List.head?_eq_none_iff, List.append_eq_nil_iff] at isHead
      cases value with
      | false => exact absurd (isHead.1 ▸ isMember) List.not_mem_nil
      | true => exact absurd (isHead.2 ▸ isMember) List.not_mem_nil
  | some repReq =>
      refine ⟨repReq, rfl, ?_⟩
      have isPrefix : base <+: repReq := by
        rcases List.mem_append.mp (List.mem_of_mem_head? isHead) with mem | mem
        · exact (List.prefix_append _ _).trans (split.mem_group.mp mem).2
        · exact (List.prefix_append _ _).trans (split.mem_group.mp mem).2
      rw [← List.prefix_iff_eq_take.mp isPrefix]
      obtain ⟨rest, rfl⟩ := split.grows
      rw [List.drop_left]

end Split

end Splits

section Trees

/-- The registry has a good signal for the variable on a path. -/
def ServedAt (graph : BranchGraph size) (runs : List (Execution size))
    (registry : SignalRegistry size) (var : Fin size) (path : PathContext size) : Prop :=
  ∃ signal, registry.lookup var path = some signal ∧ Serves graph runs var path signal

/-- A variable is served on all paths that lead to it, and before their end. -/
def Complete (graph : BranchGraph size) (runs : List (Execution size))
    (registry : SignalRegistry size) (var : Fin size) : Prop :=
  ∀ {path query}, graph.Leads graph.newProd path (.node var) → query <+: path →
    ServedAt graph runs registry var query

/-- Signals of drained units are registered, for a variable from a path on. -/
structure Extension (graph : BranchGraph size) (runs : List (Execution size)) (var : Fin size)
    (start : PathContext size) (registry extended : SignalRegistry size) : Prop where
  others : ∀ {other}, other ≠ var → extended.map other = registry.map other
  added : ∃ added, extended.map var = registry.map var ++ added ∧ ∀ entry ∈ added,
    start <+: entry.1 ∧ ∀ unit ∈ entry.2.units, Drained graph runs unit

theorem Serves.of_agrees (serves : Serves graph runs var path signal)
    (same : ∀ run, (agrees path run && graph.reaches (.node var) graph.newProd run) =
      (agrees query run && graph.reaches (.node var) graph.newProd run)) :
    Serves graph runs var query signal :=
  ⟨serves.limited, serves.uses,
    emitted_congr (fun run _ => same run) (fun _ _ _ => rfl) ▸ serves.delivers⟩

namespace Extension

theorem refl : Extension graph runs var start registry registry :=
  ⟨fun _ => rfl, [], (List.append_nil _).symm, fun _ mem => nomatch mem⟩

theorem trans (first : Extension graph runs var start registry extended)
    (second : Extension graph runs var start extended grown) :
    Extension graph runs var start registry grown := by
  obtain ⟨added, isAdded, fromStart⟩ := first.added
  obtain ⟨more, isMore, moreFromStart⟩ := second.added
  refine ⟨fun differs => (second.others differs).trans (first.others differs), added ++ more,
    by rw [isMore, isAdded, List.append_assoc], fun entry mem => ?_⟩
  exact (List.mem_append.mp mem).elim (fromStart entry) (moreFromStart entry)

theorem mono (extension : Extension graph runs var base registry extended)
    (grows : start <+: base) : Extension graph runs var start registry extended := by
  obtain ⟨added, isAdded, fromBase⟩ := extension.added
  exact ⟨extension.others, added, isAdded, fun entry mem =>
    ⟨grows.trans (fromBase entry mem).1, (fromBase entry mem).2⟩⟩

theorem servedAt (extension : Extension graph runs var start registry extended)
    (apart : ¬ start <+: query) (served : ServedAt graph runs registry var query) :
    ServedAt graph runs extended var query := by
  obtain ⟨signal, isFound, serves⟩ := served
  obtain ⟨added, isAdded, fromStart⟩ := extension.added
  refine ⟨signal, ?_, serves⟩
  rw [SignalRegistry.lookup_append isAdded fun entry mem isPath =>
    apart ((fromStart entry mem).1.trans isPath), isFound]

theorem complete (extension : Extension graph runs var start registry extended)
    (differs : other ≠ var) (complete : Complete graph runs registry other) :
    Complete graph runs extended other := fun leads isPrefix => by
  obtain ⟨signal, isFound, serves⟩ := complete leads isPrefix
  have isMap : extended.map other = registry.map other ++ [] := by
    rw [extension.others differs, List.append_nil]
  exact ⟨signal, (SignalRegistry.lookup_append isMap fun _ mem => nomatch mem).trans isFound,
    serves⟩

end Extension

/-- Before the requirements diverge, the signal at the start serves them. -/
theorem ServedAt.common (areWays : AreWays graph requirements var start)
    (only : ∀ entry ∈ registry.map var, start <+: entry.1 → entry.1 = start)
    (served : ServedAt graph runs registry var start) (nonempty : requirements ≠ [])
    (grows : start <+: query) (common : ∀ path ∈ requirements, query <+: path) :
    ServedAt graph runs registry var query := by
  obtain ⟨signal, isFound, serves⟩ := served
  refine ⟨signal, ?_, serves.of_agrees fun run => areWays.agrees_eq nonempty grows common⟩
  rw [← isFound]
  refine SignalRegistry.lookup_congr fun entry mem => ⟨fun isPath => ?_, fun isPath => ?_⟩
  · rcases List.prefix_or_prefix_of_prefix isPath grows with isPrefix | isPrefix
    · exact isPrefix
    · exact only entry mem isPrefix ▸ List.prefix_refl _
  · exact isPath.trans grows

variable {splitVar : Fin size} {value : Bool} {sourceVal condition suppress : Signal size}

/-- From the start, the variable of a split is reached on one path. -/
private theorem Split.areWays (split : Split graph requirements var start base splitVar)
    (areWays : AreWays graph requirements var start) : AreWays graph [base] splitVar start :=
    fun path => by
  rw [List.mem_singleton]
  constructor
  · rintro rfl
    exact ⟨split.leads, split.grows⟩
  · rintro ⟨leads, grows⟩
    -- the way on from the split goes to the variable after this path too
    obtain ⟨rest, leadsRest⟩ := split.isOpen
    obtain ⟨_, passes⟩ := split.passes (path ++ rest)
      ((areWays _).mpr ⟨leads.append leadsRest, grows.trans (List.prefix_append _ _)⟩)
    have isBase := (List.prefix_append _ _).trans passes
    rcases List.prefix_or_prefix_of_prefix isBase (List.prefix_append path rest) with
      ⟨between, rfl⟩ | ⟨between, rfl⟩
    · obtain ⟨middle, before, after⟩ := leads.split
      cases split.leads.unique before
      rw [after.eq_nil, List.append_nil]
    · obtain ⟨middle, before, after⟩ := split.leads.split
      cases leads.unique before
      rw [after.eq_nil, List.append_nil]

/-- The branch at a split sends either side the tokens of its executions. -/
theorem Split.serves_side (split : Split graph requirements var start base splitVar)
    (areWays : AreWays graph requirements var start) (nonempty : requirements ≠ [])
    (serves : Serves graph runs var start sourceVal)
    (servesSplit : Serves graph runs splitVar start condition)
    (suppresses : Delivers graph runs suppress (emitted runs (agrees base)
      fun run => !graph.reaches (.node var) (.node splitVar) run)) :
    Serves graph runs var (base ++ [⟨splitVar, value⟩])
      (.branch value (.branch false suppress condition) sourceVal) := by
  have common : ∀ path ∈ requirements, base <+: path := fun path mem => by
    obtain ⟨_, isPrefix⟩ := split.passes path mem
    exact (List.prefix_append _ _).trans isPrefix
  have ahead {run : Execution size} (takes : agrees base run = true) :
      graph.reaches (.node var) graph.newProd run =
        graph.reaches (.node var) (.node splitVar) run :=
    split.leads.reaches_eq takes split.isOpen
  have conditions : Delivers graph runs condition
      (emitted runs (agrees base) fun run => run splitVar) := by
    refine Serves.delivers_path (servesSplit.of_agrees fun run => ?_) split.leads
    exact (split.areWays areWays).agrees_eq (List.cons_ne_nil _ _) split.grows
      fun path mem => List.mem_singleton.mp mem ▸ List.prefix_refl _
  have active := suppresses.branch conditions servesSplit.limited false
  have data : Delivers graph runs sourceVal (emitted runs
      (fun run => agrees base run && (!graph.reaches (.node var) (.node splitVar) run) == false)
        fun run => run var) := by
    refine emitted_congr (fun run _ => ?_) (fun _ _ _ => rfl) ▸
      (serves.of_agrees fun run => areWays.agrees_eq nonempty split.grows common).delivers
    cases takes : agrees base run with
    | false => rfl
    | true => simp [ahead takes]
  refine ⟨rfl, ?_, ?_⟩
  · exact List.mem_cons_of_mem _ (List.mem_append_right _ serves.uses)
  · refine emitted_congr (fun run _ => ?_) (fun _ _ _ => rfl) ▸
      active.branch data serves.limited value
    cases takes : agrees base run with
    | false => simp [takes]
    | true => simp [ahead takes, takes, Bool.and_comm]

/-- The registry is extended so that the variable is served on all the requirements. -/
def Distributes (graph : BranchGraph size) (runs : List (Execution size)) (var : Fin size)
    (requirements : List (PathContext size)) (start : PathContext size)
    (registry : SignalRegistry size) (result : Option (SignalRegistry size)) : Prop :=
  ∃ extended, result = some extended ∧ Extension graph runs var start registry extended ∧
    ∀ path ∈ requirements, ∀ query, start <+: query → query <+: path →
      ServedAt graph runs extended var query

/-- What a registry has to hold before the requirements from a path on are distributed. -/
structure Prepared (graph : BranchGraph size) (runs : List (Execution size)) (var : Fin size)
    (start : PathContext size) (registry : SignalRegistry size) : Prop where
  only : ∀ entry ∈ registry.map var, start <+: entry.1 → entry.1 = start
  served : ServedAt graph runs registry var start
  earlier : ∀ other < var, Complete graph runs registry other

/-- A side is distributed when its signal is registered and its requirements are. -/
private theorem distributes_side {depth : Nat} (serves : Serves graph runs var path signal)
    (fresh : ∀ entry ∈ registry.map var, ¬ path <+: entry.1)
    (earlier : ∀ other < var, Complete graph runs registry other)
    (recurses : ∀ registry, requirements ≠ [] → Prepared graph runs var path registry →
      Distributes graph runs var requirements path registry
        (buildBranchTreeRecursive minimizer var depth requirements path registry)) :
    Distributes graph runs var requirements path registry
      (if requirements.isEmpty then some registry
      else buildBranchTreeRecursive minimizer var depth requirements path
        (registry.registerSignal var path signal)) := by
  cases isEmpty : requirements.isEmpty with
  | true =>
      rw [List.isEmpty_iff] at isEmpty
      subst isEmpty
      exact ⟨registry, rfl, .refl, fun _ mem => nomatch mem⟩
  | false =>
      have registers : Extension graph runs var path registry
          (registry.registerSignal var path signal) := by
        refine ⟨fun differs => SignalRegistry.map_registerSignal_of_ne differs, [(path, signal)],
          SignalRegistry.map_registerSignal, fun entry mem => ?_⟩
        cases List.mem_singleton.mp mem
        exact ⟨List.prefix_refl _, serves.delivers.drained⟩
      have prepared : Prepared graph runs var path (registry.registerSignal var path signal) := by
        refine ⟨fun entry mem grows => ?_, ⟨signal, ?_, serves⟩, fun other isLess =>
          registers.complete isLess.ne (earlier other isLess)⟩
        · rw [SignalRegistry.map_registerSignal] at mem
          rcases List.mem_append.mp mem with mem | mem
          · exact absurd grows (fresh entry mem)
          · cases List.mem_singleton.mp mem
            rfl
        · exact SignalRegistry.lookup_registerSignal (List.prefix_refl _)
            fun _ _ isPath => isPath.length_le
      obtain ⟨extended, isExtended, extension, served⟩ := recurses _ (by simpa using isEmpty) prepared
      exact ⟨extended, isExtended, registers.trans extension, served⟩

private theorem servesGoal_of_earlier
    (earlier : ∀ other < var, Complete graph runs registry other) :
    ServesGoal graph runs registry (.node var) base := by
  intro other path _ leads isOpen isNot
  obtain ⟨rest, leadsRest⟩ := isOpen
  have isLess : other < var := leadsRest.le.2 fun isNil => by
    subst isNil
    cases leadsRest
    exact isNot rfl
  obtain ⟨signal, isFound, serves⟩ := earlier other isLess leads (List.prefix_refl _)
  rwa [SignalRegistry.signal, isFound]

private theorem Split.isRequirement (split : Split graph requirements var start base splitVar)
    (areWays : AreWays graph requirements var start) (path : PathContext size) :
    path ∈ requirements ↔ graph.Leads graph.newProd path (.node var) ∧ base <+: path := by
  constructor
  · intro mem
    obtain ⟨_, isPrefix⟩ := split.passes path mem
    exact ⟨((areWays path).mp mem).1, (List.prefix_append _ _).trans isPrefix⟩
  · rintro ⟨leads, isPrefix⟩
    exact (areWays path).mpr ⟨leads, split.grows.trans isPrefix⟩

private theorem Split.length_le (split : Split graph requirements var start base splitVar)
    (areWays : AreWays graph requirements var start)
    (some : group requirements base.length splitVar value ≠ []) :
    (base ++ [⟨splitVar, value⟩] : PathContext size).length ≤ size := by
  obtain ⟨path, mem⟩ := List.exists_mem_of_ne_nil _ some
  obtain ⟨leads, isPrefix⟩ := (split.areWays_group areWays path).mp mem
  exact isPrefix.length_le.trans (length_le_of_leads leads)

private theorem Split.fresh (split : Split graph requirements var start base splitVar)
    (only : ∀ entry ∈ registry.map var, start <+: entry.1 → entry.1 = start) :
    ∀ entry ∈ registry.map var, ¬ base ++ [⟨splitVar, value⟩] <+: entry.1 := by
  intro entry mem grows
  have isStart := only entry mem (split.grows.trans ((List.prefix_append _ _).trans grows))
  have isLe := grows.length_le
  have isGe := split.grows.length_le
  rw [isStart, List.length_append, List.length_singleton] at isLe
  omega

private theorem sides_apart (isTrue : base ++ [⟨splitVar, true⟩] <+: query) :
    ¬ base ++ [⟨splitVar, false⟩] <+: query := fun isFalse => by
  have same := (List.prefix_of_prefix_length_le isTrue isFalse (by simp)).eq_of_length (by simp)
  simp at same

variable (minimizer) in
/-- The branch tree serves the variable on all its requirements. -/
theorem distributes_buildBranchTreeRecursive
    (differ : ∀ var, graph.trueDest var ≠ graph.falseDest var) {depth : Nat}
    (enough : size < start.length + depth) (short : start.length ≤ size)
    (areWays : AreWays graph requirements var start)
    (prepared : Prepared graph runs var start registry) :
    Distributes graph runs var requirements start registry
      (buildBranchTreeRecursive minimizer var depth requirements start registry) := by
  induction depth generalizing requirements start registry with
  | zero => omega
  | succ depth inductionHypothesis =>
      obtain ⟨sourceVal, isFound, serves⟩ := prepared.served
      cases isSplit : findSplit requirements start.length with
      | none =>
          refine ⟨registry, by simp [buildBranchTreeRecursive, isFound, isSplit], .refl,
            fun path mem query grows isPrefix => ?_⟩
          refine prepared.served.common areWays prepared.only (List.ne_nil_of_mem mem) grows
            fun other memOther => ?_
          rwa [areWays.eq_of_findSplit_none isSplit memOther mem]
      | some scanDepth =>
          obtain ⟨nonempty, base, splitVar, rfl, split⟩ := areWays.split isSplit
          obtain ⟨repReq, isRep, isBase⟩ := split.base_eq nonempty
          obtain ⟨condition, isCondition, servesSplit⟩ :=
            prepared.earlier splitVar split.isLess split.leads split.grows
          obtain ⟨suppress, isSuppress, suppresses⟩ := delivers_generateReachabilityLogic
            minimizer differ (split.isRequirement areWays) split.leads
            (servesGoal_of_earlier prepared.earlier)
          have sideServes (value : Bool) : Serves graph runs var (base ++ [⟨splitVar, value⟩]) _ :=
            split.serves_side areWays nonempty serves servesSplit suppresses
          have recurses (value : Bool) (registry : SignalRegistry size)
              (some : group requirements base.length splitVar value ≠ [])
              (prepared : Prepared graph runs var (base ++ [⟨splitVar, value⟩]) registry) :=
            inductionHypothesis (by
              have isLess := split.grows.length_le
              simp only [List.length_append, List.length_singleton]
              omega) (split.length_le areWays some) (split.areWays_group areWays) prepared
          obtain ⟨first, isFirst, extension, served⟩ := distributes_side (sideServes true)
            (split.fresh prepared.only) prepared.earlier (recurses true)
          have fresh : ∀ entry ∈ first.map var, ¬ base ++ [⟨splitVar, false⟩] <+: entry.1 := by
            obtain ⟨added, isAdded, fromSide⟩ := extension.added
            intro entry mem grows
            rcases List.mem_append.mp (isAdded ▸ mem) with mem | mem
            · exact split.fresh prepared.only entry mem grows
            · exact sides_apart (fromSide entry mem).1 grows
          obtain ⟨second, isSecond, extensionSecond, servedSecond⟩ := distributes_side
            (sideServes false) fresh
            (fun other isLess => extension.complete isLess.ne (prepared.earlier other isLess))
            (recurses false)
          have growsSide (value : Bool) : start <+: base ++ [⟨splitVar, value⟩] :=
            split.grows.trans (List.prefix_append _ _)
          refine ⟨second, ?_, (extension.mono (growsSide true)).trans
            (extensionSecond.mono (growsSide false)), fun path mem query grows isPrefix => ?_⟩
          · rw [buildBranchTreeRecursive]
            simp only [isFound, isSplit, split.splitVar_eq nonempty, isRep, isBase, isSuppress,
              SignalRegistry.signal, isCondition, Option.getD_some, Option.bind_eq_bind,
              Option.bind_some]
            rw [isFirst]
            exact isSecond
          obtain ⟨value, isStep⟩ := split.passes path mem
          rcases Nat.lt_or_ge base.length query.length with isLonger | isShorter
          · have isStepQuery : base ++ [⟨splitVar, value⟩] <+: query :=
              List.prefix_of_prefix_length_le isStep isPrefix (by
                rw [List.length_append, List.length_singleton]
                exact isLonger)
            cases value with
            | true =>
                exact extensionSecond.servedAt (sides_apart isStepQuery)
                  (served path (split.mem_group.mpr ⟨mem, isStep⟩) query isStepQuery isPrefix)
            | false =>
                exact servedSecond path (split.mem_group.mpr ⟨mem, isStep⟩) query isStepQuery
                  isPrefix
          · -- the paths have not diverged here: the signal at the start is still the closest
            have common : ∀ path ∈ requirements, query <+: path := fun other memOther =>
              (List.prefix_of_prefix_length_le isPrefix
                ((split.isRequirement areWays path).mp mem).2 isShorter).trans
                  ((split.isRequirement areWays other).mp memOther).2
            have apart (value : Bool) : ¬ base ++ [⟨splitVar, value⟩] <+: query := fun isStep => by
              have isLe := isStep.length_le
              rw [List.length_append, List.length_singleton] at isLe
              omega
            exact extensionSecond.servedAt (apart false) (extension.servedAt (apart true)
              (prepared.served.common areWays prepared.only nonempty grows common))

end Trees

section Networks

/-- All units of the registered signals are drained. -/
def RegistryDrained (graph : BranchGraph size) (runs : List (Execution size))
    (registry : SignalRegistry size) : Prop :=
  ∀ var, ∀ entry ∈ registry.map var, ∀ unit ∈ entry.2.units, Drained graph runs unit

theorem Extension.registryDrained (extension : Extension graph runs var start registry extended)
    (drained : RegistryDrained graph runs registry) : RegistryDrained graph runs extended := by
  intro other entry mem
  by_cases same : other = var
  · subst same
    obtain ⟨added, isAdded, fromStart⟩ := extension.added
    rw [isAdded] at mem
    exact (List.mem_append.mp mem).elim (drained other entry) fun mem => (fromStart entry mem).2
  · exact drained other entry (extension.others same ▸ mem)

private theorem serves_raw : Serves graph runs var [] (.raw var) :=
  ⟨rfl, List.mem_singleton_self _, delivers_raw⟩

variable (minimizer) in
/-- A variable is served when its condition is registered and distributed. -/
theorem extension_distribute (differ : ∀ var, graph.trueDest var ≠ graph.falseDest var)
    (untouched : registry.map var = [])
    (earlier : ∀ other < var, Complete graph runs registry other) :
    ∃ extended, graph.distribute minimizer registry var = some extended ∧
      Extension graph runs var [] registry extended ∧ Complete graph runs extended var := by
  have areWays : AreWays graph (graph.varNeeds var) var [] := fun path => by
    rw [mem_varNeeds]
    exact (and_iff_left List.nil_prefix).symm
  have notFound : registry.lookup var [] = none := by
    rw [SignalRegistry.lookup, untouched]
    rfl
  have registers : Extension graph runs var [] registry
      (registry.registerSignal var [] (.raw var)) := by
    refine ⟨fun differs => SignalRegistry.map_registerSignal_of_ne differs, [([], .raw var)],
      SignalRegistry.map_registerSignal, fun entry mem => ?_⟩
    cases List.mem_singleton.mp mem
    exact ⟨List.prefix_refl _, serves_raw.delivers.drained⟩
  have prepared : Prepared graph runs var [] (registry.registerSignal var [] (.raw var)) := by
    refine ⟨fun entry mem _ => ?_, ⟨.raw var, SignalRegistry.lookup_registerSignal
      (List.prefix_refl _) fun _ _ isPath => isPath.length_le, serves_raw⟩, fun other isLess =>
        registers.complete isLess.ne (earlier other isLess)⟩
    rw [SignalRegistry.map_registerSignal, untouched] at mem
    cases List.mem_singleton.mp mem
    rfl
  rw [distribute, notFound]
  by_cases several : 1 < (graph.varNeeds var).length
  · obtain ⟨extended, isExtended, extension, served⟩ :=
      distributes_buildBranchTreeRecursive minimizer differ
        (by rw [List.length_nil]; omega : size < ([] : PathContext size).length + (size + 1))
        (Nat.zero_le _) areWays prepared
    refine ⟨extended, by rw [if_pos several, isExtended], registers.trans extension,
      fun leads isPrefix => served _ (mem_varNeeds.mpr leads) _ List.nil_prefix isPrefix⟩
  · refine ⟨_, if_neg several, registers, fun {path query} leads isPrefix => ?_⟩
    have mem := mem_varNeeds.mpr leads
    refine prepared.served.common areWays prepared.only (List.ne_nil_of_mem mem) List.nil_prefix
      fun other memOther => ?_
    obtain ⟨only, isOnly⟩ : ∃ only, graph.varNeeds var = [only] :=
      List.length_eq_one_iff.mp (le_antisymm (not_lt.mp several) (List.length_pos_of_mem mem))
    rw [isOnly, List.mem_singleton] at mem memOther
    rwa [memOther, ← mem]

variable (minimizer) in
/-- The variables are distributed in their order. -/
private theorem complete_foldlM (differ : ∀ var, graph.trueDest var ≠ graph.falseDest var)
    {processed vars : List (Fin size)} (sorted : (processed ++ vars).Pairwise (· < ·))
    (covers : ∀ {var path}, graph.Leads graph.newProd path (.node var) → var ∈ processed ++ vars)
    (complete : ∀ var ∈ processed, Complete graph runs registry var)
    (untouched : ∀ var ∉ processed, registry.map var = [])
    (drained : RegistryDrained graph runs registry) :
    ∃ extended, vars.foldlM (graph.distribute minimizer) registry = some extended ∧
      (∀ var ∈ processed ++ vars, Complete graph runs extended var) ∧
      RegistryDrained graph runs extended := by
  induction vars generalizing processed registry with
  | nil => exact ⟨registry, rfl, by simpa using complete, drained⟩
  | cons var vars inductionHypothesis =>
      have fresh : var ∉ processed := fun mem =>
        lt_irrefl var ((List.pairwise_append.mp sorted).2.2 var mem var (List.mem_cons_self ..))
      have earlier : ∀ other < var, Complete graph runs registry other := by
        intro other isLess path query leads isPrefix
        rcases List.mem_append.mp (covers leads) with mem | mem
        · exact complete other mem leads isPrefix
        · rcases List.mem_cons.mp mem with rfl | mem
          · exact absurd isLess (lt_irrefl _)
          · have isLater := (List.pairwise_cons.mp (List.pairwise_append.mp sorted).2.1).1 other mem
            exact absurd isLess (lt_asymm isLater)
      obtain ⟨next, isNext, extension, isComplete⟩ :=
        extension_distribute minimizer differ (untouched var fresh) earlier
      have regroup : processed ++ [var] ++ vars = processed ++ var :: vars :=
        (List.append_cons processed var vars).symm
      obtain ⟨extended, isExtended, completes, isDrained⟩ :=
        @inductionHypothesis next (processed ++ [var]) (regroup ▸ sorted)
          (fun leads => regroup ▸ covers leads)
          (fun other mem => by
            rcases List.mem_append.mp mem with mem | mem
            · exact extension.complete (fun same => fresh (same ▸ mem)) (complete other mem)
            · exact List.mem_singleton.mp mem ▸ isComplete)
          (fun other absent => by
            have isNot : other ≠ var := fun same =>
              absent (List.mem_append_right _ (List.mem_singleton.mpr same))
            rw [extension.others isNot]
            exact untouched other fun mem => absent (List.mem_append_left _ mem))
          (extension.registryDrained drained)
      exact ⟨extended, by simp [isNext, isExtended], regroup ▸ completes, isDrained⟩

/-- The consumer can be reached from every node. -/
theorem open_consumer (differ : ∀ var, graph.trueDest var ≠ graph.falseDest var) (var : Fin size) :
    graph.Open .consumer (.node var) := by
  suffices opens : ∀ block, block ≠ .sink → graph.Open .consumer block from
    opens _ (by simp)
  intro block
  induction block using graph.block_induction with
  | consumer => exact fun _ => ⟨[], .here⟩
  | sink => exact fun isNot => absurd rfl isNot
  | node var inductionHypothesis =>
      intro _
      have side : ∃ value, graph.dest var value ≠ .sink := by
        by_contra both
        simp only [not_exists, ne_eq, not_not] at both
        exact differ var ((both true).trans (both false).symm)
      obtain ⟨value, isNot⟩ := side
      obtain ⟨path, leads⟩ := inductionHypothesis value isNot
      exact ⟨_, .step leads⟩

/-- The units of all registered signals. -/
def SignalRegistry.units (registry : SignalRegistry size) : List (Signal size) :=
  (List.finRange size).flatMap fun var => (registry.map var).flatMap fun entry => entry.2.units

/-- The circuits are built, and over any executions the output has one token for each, equal to
whether it reaches the consumer; no unit leaves a token, and the tokens of every visited block
are used. -/
def Balances (minimizer : Minimizer (Fin size)) (graph : BranchGraph size)
    (order : List (Fin size)) (expr : BoolExpression (Fin size))
    (runs : List (Execution size)) : Prop :=
  ∃ registry output, graph.buildDistributionNetwork minimizer = some registry ∧
    expressionToCircuit minimizer registry order expr = some output ∧
    (∀ᶠ time in Filter.atTop, history graph runs time output =
      runs.map fun run => token (graph.reaches .consumer graph.newProd run)) ∧
    (∀ unit ∈ output.units ++ registry.units, Drained graph runs unit) ∧
    ∀ run ∈ runs, ∀ var, graph.reaches (.node var) graph.newProd run → .raw var ∈ output.units

/-- The suppression circuit balances rates whenever the producer is a branch. -/
theorem suppression_balances (minimizer : Minimizer (Fin size)) (graph : DecisionGraph size)
    (first : Fin size) (isBranch : graph.newProd = .node first) (order : List (Fin size))
    (topological : graph.TopologicalOrder order) (expr : BoolExpression (Fin size))
    (evaluates : ∀ run, expr.evaluate run = graph.reaches .consumer graph.newProd run)
    (runs : List (Execution size)) :
    Balances minimizer graph.toBranchGraph order expr runs := by
  have differ (var : Fin size) : graph.trueDest var ≠ graph.falseDest var :=
    (graph.controls var).differ
  have sorted : ([] ++ graph.sortedVars).Pairwise (· < ·) :=
    (List.pairwise_ofFn.mpr fun _ _ isLess => isLess).filter _
  have covers {var : Fin size} {path : PathContext size}
      (leads : graph.Leads graph.newProd path (.node var)) : var ∈ [] ++ graph.sortedVars :=
    List.mem_filter.mpr ⟨List.mem_finRange var,
      decide_eq_true (List.ne_nil_of_mem (mem_varNeeds.mpr leads))⟩
  obtain ⟨registry, isRegistry, complete, drained⟩ :=
    @complete_foldlM size graph.toBranchGraph runs .empty minimizer differ [] graph.sortedVars
      sorted covers (fun _ mem => nomatch mem) (fun _ _ => rfl) fun _ _ mem => nomatch mem
  have servesGoal : ServesGoal graph.toBranchGraph runs registry .consumer [] := by
    intro var path _ leads _ _
    obtain ⟨signal, isFound, serves⟩ := complete var (covers leads) leads (List.prefix_refl _)
    rwa [SignalRegistry.signal, isFound]
  have tells : Tells graph.toBranchGraph .consumer graph.newProd false
      (minimizer.boolMinimize expr) := fun run => by
    rw [minimizer.evaluate, evaluates, Bool.xor_false]
  obtain ⟨output, isOutput, delivers⟩ := delivers_bddToCircuit differ (minimizer.minimal expr)
    tells (fun var mem => List.mem_filter.mpr ⟨topological.complete var, decide_eq_true mem⟩)
    (topological.forward.filter _) .here servesGoal
  refine ⟨registry, output, isRegistry, isOutput, ?_, fun unit mem => ?_, fun run _ var reached => ?_⟩
  · have limited : output.isUnlimited = false :=
      delivers.limited (isBranch ▸ open_consumer differ first) (by simp [isBranch])
    refine (delivers.delivers.eventually_eq limited).mono fun time isHistory => ?_
    have all : runs.filter (agrees []) = runs := List.filter_eq_self.mpr fun _ _ => rfl
    rw [isHistory, emitted, all]
    simp [tells _]
  · rcases List.mem_append.mp mem with mem | mem
    · exact delivers.delivers.drained unit mem
    · obtain ⟨var, _, mem⟩ := List.mem_flatMap.mp mem
      obtain ⟨entry, isEntry, mem⟩ := List.mem_flatMap.mp mem
      exact drained var entry isEntry unit mem
  · obtain ⟨path, leads, _⟩ := reaches_iff.mp reached
    exact delivers.uses leads (open_consumer differ var) (by simp)

open Numerals in
/-- The last branch is reached on two paths. -/
def rejoiningBranches : BranchGraph 3 where
  trueDest := fun var => if var = 2 then .consumer else .node 2
  falseDest := fun var => if var = 0 then .node 1 else .sink
  newProd := .node 0
  trueLater := by
    intro var next isNext
    split at isNext
    · cases isNext
    · cases isNext
      omega
  falseLater := by
    intro var next isNext
    split at isNext
    · cases isNext
      omega
    · cases isNext

def rejoining : DecisionGraph 3 where
  toBranchGraph := rejoiningBranches
  controls := by
    have last : rejoiningBranches.ControlDependence .consumer 2 :=
      .direct true (fun run => List.mem_singleton_self _) fun always =>
        absurd (always fun _ => false) (by decide)
    have side (value : Bool) {var : Fin 3} (leads : rejoiningBranches.dest var value = .node 2)
        (misses : ¬ ∀ run, .node 2 ∈ rejoiningBranches.trace run (.node var)) :
        rejoiningBranches.ControlDependence (.node 2) var := by
      refine .direct value (fun run => ?_) misses
      rw [leads, trace_node]
      exact List.mem_cons_self ..
    intro var
    match var with
    | 0 => exact .trans last (side true rfl fun always =>
        absurd (always fun _ => false) (by decide))
    | 1 => exact .trans last (side true rfl fun always =>
        absurd (always fun _ => false) (by decide))
    | 2 => exact last

theorem suppression_balances_rejoining : Balances expansion rejoining.toBranchGraph
    (List.finRange 3) (.or (.and (.literal 0 false) (.literal 2 false))
      (.and (.literal 0 true) (.and (.literal 1 false) (.literal 2 false))))
    [fun _ => true, fun var => var == 1, fun var => var != 0, fun _ => false] := by
  refine suppression_balances expansion rejoining 0 rfl _ ⟨List.mem_finRange, later_of_finRange⟩ _
    (fun run => ?_) _
  cases first : run 0 <;> cases second : run 1 <;> cases third : run 2 <;>
    simp [BoolExpression.evaluate, reaches, trace_node, dest, rejoining, rejoiningBranches, first,
      second, third]

def unconditional : DecisionGraph 0 where
  trueDest := fun var => var.elim0
  falseDest := fun var => var.elim0
  newProd := .consumer
  trueLater := fun {var} => var.elim0
  falseLater := fun {var} => var.elim0
  controls := fun var => var.elim0

/-- Without a branch the condition is a constant, which has tokens without end. -/
theorem unconditional_not_balances :
    ¬ Balances expansion unconditional.toBranchGraph [] .one [fun _ => true] := by
  rintro ⟨registry, output, _, isOutput, settles, _⟩
  have isConstant : output = .constant true .source := Option.some.inj isOutput.symm
  subst isConstant
  obtain ⟨time, isHistory, isLate⟩ := (settles.and (Filter.eventually_ge_atTop 4)).exists
  obtain ⟨earlier, rfl⟩ := Nat.exists_eq_add_of_le' isLate
  have isReplicate : history unconditional.toBranchGraph [fun _ => true] (earlier + 4)
      (.constant true .source) =
        (List.replicate (earlier + 2) (Bitwidth.Word.ofNat 0 0)).map fun _ => token true := rfl
  have lengths := congrArg List.length (isReplicate.symm.trans isHistory)
  simp at lengths

end Networks

end Dynamatic.Suppression
