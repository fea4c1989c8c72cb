import Dynamatic.ControlDependence.Analysis

/-!
# All control dependences

Passes over the blocks add the dependences of dependences. Each pass that changes something
adds a pair of blocks, so they come to an end, and then the dependences are closed: those of
a block on other blocks are the transitive closure of the dependences that edges give.
-/

namespace Dynamatic.ControlDependence

open ControlFlow

/-! ### Dependences of dependences -/

section Closure

variable {size : Nat} {deps after : Deps size} {a block dep : Fin size} {changed : Bool}

theorem mem_addDepsOfBlock {state : Deps size × Bool} {next : Fin size} :
    a ∈ (addDepsOfBlock state next).1 block ↔
      a ∈ state.1 block ∨ (block = next ∧ ∃ dep ∈ state.1 next, a ∈ state.1 dep) := by
  rw [addDepsOfBlock]
  by_cases same : block = next
  · subst same
    simp
  · simp [same]

/-- What is added is reached from what was there. -/
theorem transGen_of_mem_addDepsOfBlock {Depends : Fin size → Fin size → Prop}
    {state : Deps size × Bool} {next : Fin size}
    (within : ∀ {a block}, a ∈ state.1 block → Relation.TransGen Depends block a)
    (mem : a ∈ (addDepsOfBlock state next).1 block) : Relation.TransGen Depends block a := by
  rcases mem_addDepsOfBlock.mp mem with old | ⟨rfl, dep, isDep, further⟩
  · exact within old
  · exact (within isDep).trans (within further)

private theorem transGen_of_mem_pass {Depends : Fin size → Fin size → Prop}
    (blocks : List (Fin size)) {state : Deps size × Bool}
    (within : ∀ {a block}, a ∈ state.1 block → Relation.TransGen Depends block a)
    (mem : a ∈ (blocks.foldl addDepsOfBlock state).1 block) : Relation.TransGen Depends block a := by
  induction blocks generalizing state with
  | nil => exact within mem
  | cons next blocks inductionHypothesis =>
      exact inductionHypothesis (transGen_of_mem_addDepsOfBlock within) mem

theorem transGen_of_mem_addDepsOfDeps {Depends : Fin size → Fin size → Prop} {passes : Nat}
    (within : ∀ {a block}, a ∈ deps block → Relation.TransGen Depends block a)
    (mem : a ∈ addDepsOfDeps passes deps block) : Relation.TransGen Depends block a := by
  induction passes generalizing deps with
  | zero => exact within mem
  | succ passes inductionHypothesis =>
      have passed : ∀ {a block},
          a ∈ ((List.finRange size).foldl addDepsOfBlock (deps, false)).1 block →
          Relation.TransGen Depends block a :=
        transGen_of_mem_pass _ within
      rw [addDepsOfDeps] at mem
      dsimp only at mem
      split at mem
      · exact inductionHypothesis passed mem
      · exact passed mem

private theorem le_addDepsOfBlock (state : Deps size × Bool) (next : Fin size) :
    state.1 ≤ (addDepsOfBlock state next).1 :=
  fun _ _ mem => mem_addDepsOfBlock.mpr (.inl mem)

theorem le_pass (blocks : List (Fin size)) (state : Deps size × Bool) :
    state.1 ≤ (blocks.foldl addDepsOfBlock state).1 := by
  induction blocks generalizing state with
  | nil => exact le_refl _
  | cons next blocks inductionHypothesis =>
      exact (le_addDepsOfBlock state next).trans (inductionHypothesis _)

theorem le_addDepsOfDeps (passes : Nat) (deps : Deps size) : deps ≤ addDepsOfDeps passes deps := by
  induction passes generalizing deps with
  | zero => exact le_refl _
  | succ passes inductionHypothesis =>
      have grown := le_pass (List.finRange size) (deps, false)
      rw [addDepsOfDeps]
      dsimp only
      split
      · exact grown.trans (inductionHypothesis _)
      · exact grown

/-- All dependences together. -/
def total (deps : Deps size) : Nat := ∑ block, (deps block).card

theorem total_le (deps : Deps size) : total deps ≤ size * size := by
  have few : ∀ block ∈ Finset.univ, (deps block).card ≤ size := fun block _ => by
    simpa using Finset.card_le_univ (deps block)
  simpa [total] using Finset.sum_le_sum few

theorem total_lt (grown : deps ≤ after) (differs : deps block ≠ after block) :
    total deps < total after := by
  refine Finset.sum_lt_sum (fun other _ => Finset.card_le_card (grown other))
    ⟨block, Finset.mem_univ _, Finset.card_lt_card ?_⟩
  exact lt_of_le_of_ne (grown block) differs

/-- A pass that reports a change has added a dependence. -/
theorem total_lt_of_changed (blocks : List (Fin size)) {state : Deps size × Bool}
    (unchanged : state.2 = false) (reports : (blocks.foldl addDepsOfBlock state).2 = true) :
    total state.1 < total (blocks.foldl addDepsOfBlock state).1 := by
  induction blocks generalizing state with
  | nil =>
      rw [List.foldl_nil, unchanged] at reports
      cases reports
  | cons next blocks inductionHypothesis =>
      rw [List.foldl_cons] at reports ⊢
      have grown := le_pass blocks (addDepsOfBlock state next)
      by_cases differs : state.1 next = (addDepsOfBlock state next).1 next
      · have still : (addDepsOfBlock state next).2 = false := by
          rw [addDepsOfBlock] at differs ⊢
          simp_all
        have same : total state.1 ≤ total (addDepsOfBlock state next).1 :=
          Finset.sum_le_sum fun other _ => Finset.card_le_card (le_addDepsOfBlock state next other)
        exact lt_of_le_of_lt same (inductionHypothesis still reports)
      · have more := total_lt (le_addDepsOfBlock state next) differs
        exact lt_of_lt_of_le more (Finset.sum_le_sum fun other _ =>
          Finset.card_le_card (grown other))

/-- The dependences of dependences are among the dependences. -/
def Transitive (deps : Deps size) : Prop :=
  ∀ block, ∀ dep ∈ deps block, deps dep ⊆ deps block

/-- A pass that reports no change has found nothing to add. -/
theorem unchanged_of_pass (blocks : List (Fin size)) {state : Deps size × Bool}
    (reports : (blocks.foldl addDepsOfBlock state).2 = false) :
    state.2 = false ∧ (blocks.foldl addDepsOfBlock state).1 = state.1 ∧
      ∀ block ∈ blocks, ∀ dep ∈ state.1 block, state.1 dep ⊆ state.1 block := by
  induction blocks generalizing state with
  | nil => exact ⟨reports, rfl, nofun⟩
  | cons next blocks inductionHypothesis =>
      obtain ⟨deps, changed⟩ := state
      rw [List.foldl_cons] at reports ⊢
      obtain ⟨still, same, closed⟩ := inductionHypothesis reports
      have kept : deps next ∪ (deps next).biUnion deps = deps next ∧ changed = false := by
        rw [addDepsOfBlock, Bool.or_eq_false_iff, decide_eq_false_iff_not, not_not] at still
        exact still.symm
      have unchanged : (addDepsOfBlock (deps, changed) next).1 = deps := by
        rw [addDepsOfBlock]
        dsimp only
        rw [kept.1, Function.update_eq_self]
      rw [unchanged] at same closed
      refine ⟨kept.2, same, fun block mem dep isDep => ?_⟩
      rcases List.mem_cons.mp mem with rfl | later
      · have within := Finset.union_eq_left.mp kept.1
        exact (Finset.subset_biUnion_of_mem deps isDep).trans within
      · exact closed block later dep isDep

/-- With a pass for every pair of blocks, the passes end in a closed relation. -/
theorem transitive_addDepsOfDeps {passes : Nat} (enough : size * size < passes + total deps) :
    Transitive (addDepsOfDeps passes deps) := by
  induction passes generalizing deps with
  | zero =>
      have most := total_le deps
      omega
  | succ passes inductionHypothesis =>
      rw [addDepsOfDeps]
      dsimp only
      split
      · rename_i reports
        have more : total deps < _ := total_lt_of_changed (List.finRange size) rfl reports
        exact inductionHypothesis (by omega)
      · rename_i silent
        obtain ⟨_, same, closed⟩ :=
          unchanged_of_pass (List.finRange size) (Bool.eq_false_iff.mpr silent)
        rw [same]
        exact fun block dep isDep => closed block (List.mem_finRange block) dep isDep

end Closure

section AllControlDeps

variable {size : Nat} {info : PostDominanceInfo size} {region : Region size}
  {exits : List (Fin size)} {a b : Fin size}

theorem transGen_of_mem_identifyAllControlDeps (documented : info.Documented region exits)
    (mem : a ∈ identifyAllControlDeps region info b) :
    Relation.TransGen (DependsOn region.successors exits) b a := by
  rw [identifyAllControlDeps] at mem
  split at mem
  · cases mem
  · refine transGen_of_mem_addDepsOfDeps (fun {a block} direct => ?_) mem
    obtain ⟨successor, edge, dependent⟩ := (mem_depsOfEdges documented).mp direct
    exact .single (dependent.dependsOn documented edge)

/-- Along the dependence relation, the found dependences are only missing the block itself. -/
theorem mem_identifyAllControlDeps_or_eq (documented : info.Documented region exits)
    (depends : Relation.TransGen (DependsOn region.successors exits) b a) :
    a ∈ identifyAllControlDeps region info b ∨ a = b := by
  rw [identifyAllControlDeps]
  split
  · rename_i single
    subst single
    exact .inr (Subsingleton.elim a b)
  · have transitive : Transitive (addDepsOfDeps (size * size + 1) (depsOfEdges region info)) :=
      transitive_addDepsOfDeps (by omega)
    have direct : ∀ {block branch}, DependsOn region.successors exits block branch →
        branch ∈ addDepsOfDeps (size * size + 1) (depsOfEdges region info) block ∨
          branch = block := by
      intro block branch depends
      by_cases same : block = branch
      · exact .inr same.symm
      · refine .inl (le_addDepsOfDeps _ _ block ((mem_depsOfEdges documented).mpr ?_))
        exact edgeDependent_of_dependsOn documented same depends
    induction depends with
    | single depends => exact direct depends
    | tail _ depends inductionHypothesis =>
        rcases inductionHypothesis with mem | rfl
        · rcases direct depends with further | rfl
          · exact .inl (transitive _ _ mem further)
          · exact .inl mem
        · exact direct depends

/-- The dependences of a block on other blocks are those of the transitive closure. -/
theorem mem_identifyAllControlDeps_iff (documented : info.Documented region exits)
    (differs : a ≠ b) :
    a ∈ identifyAllControlDeps region info b ↔
      Relation.TransGen (DependsOn region.successors exits) b a :=
  ⟨transGen_of_mem_identifyAllControlDeps documented, fun depends =>
    (mem_identifyAllControlDeps_or_eq documented depends).resolve_right differs⟩

/-- A common postdominator that all others postdominate. -/
abbrev NearestCommon (region : Region size) (exits : List (Fin size))
    (first second anc : Fin size) : Prop :=
  PostDom region.successors exits anc first ∧ PostDom region.successors exits anc second ∧
    ∀ goal, PostDom region.successors exits goal first →
      PostDom region.successors exits goal second → PostDom region.successors exits goal anc

/-- The answers that are found by looking at all paths. -/
def PostDominanceInfo.ofPaths (region : Region size) (exits : List (Fin size)) :
    PostDominanceInfo size where
  properlyPostDominates := fun goal block => decide (StrictPostDom region.successors exits goal block)
  findNearestCommonDominator := fun first second =>
    (List.finRange size).find? fun anc => NearestCommon region exits first second anc
  children := fun parent =>
    (List.finRange size).filter fun child => Immediate region.successors exits parent child

theorem documented_ofPaths (returns : ∀ block, region.successors block = [] → block ∈ exits)
    (leads : LeadsToExits region.successors exits) :
    (PostDominanceInfo.ofPaths region exits).Documented region exits where
  returns := returns
  leads := leads
  properlyPostDominates_iff := fun _ _ => decide_eq_true_iff
  common_iff := by
    intro first second goal
    constructor
    · rintro ⟨onFirst, onSecond⟩
      obtain ⟨nearest, isCommon⟩ := exists_nearest leads onFirst onSecond
      have isFound : ((List.finRange size).find? fun anc =>
          NearestCommon region exits first second anc).isSome :=
        List.find?_isSome.mpr ⟨nearest, List.mem_finRange nearest, decide_eq_true isCommon⟩
      obtain ⟨anc, found⟩ := Option.isSome_iff_exists.mp isFound
      have isNearest := List.find?_some found
      rw [decide_eq_true_iff] at isNearest
      exact ⟨anc, found, isNearest.2.2 goal onFirst onSecond⟩
    · rintro ⟨nearest, isNearest, atop⟩
      have found : ((List.finRange size).find? fun anc =>
          NearestCommon region exits first second anc) = some nearest := isNearest
      have isNearest := List.find?_some found
      rw [decide_eq_true_iff] at isNearest
      exact ⟨atop.trans isNearest.1, atop.trans isNearest.2.1⟩
  mem_children := by
    intro parent child
    simp [PostDominanceInfo.ofPaths]

/-- A loop with a header that branches to its body and to the exit. -/
def loopRegion : Region 4 where
  front := 0
  successors := fun block => ([[1], [2, 3], [1], []] : List (List (Fin 4))).getD block []

theorem mem_identifyAllControlDeps_iff_loop :
    1 ∈ identifyAllControlDeps loopRegion (.ofPaths loopRegion [3]) 2 ↔
      Relation.TransGen (DependsOn loopRegion.successors [3]) 2 1 :=
  mem_identifyAllControlDeps_iff (documented_ofPaths (by decide) (by decide)) (by decide)

end AllControlDeps

end Dynamatic.ControlDependence
