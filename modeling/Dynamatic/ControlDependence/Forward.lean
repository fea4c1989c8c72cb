import Dynamatic.ControlDependence.Closure

/-!
# Forward control dependences

`identifyForwardControlDeps` keeps the dependences whose blocks a depth-first traversal
numbers first. The traversal numbers blocks in the order of their first paths from the
entry, which need not be the order in which control gets to them: the target that two
branches share is numbered before the second branch when the first one names it first.
-/

namespace Dynamatic.ControlDependence

open ControlFlow

section Forward

variable {size : Nat} (region : Region size)

/-- The blocks in the order in which they are numbered. -/
def dfs : List (Fin size) :=
  preorder region.successors (size + 1) [] region.front

/-- The number of a block; one that the traversal does not reach has none, which reads as 0. -/
def dfsNum (block : Fin size) : Nat :=
  if block ∈ dfs region then (dfs region).idxOf block else 0

def comesBeforeInCFG (a b : Fin size) : Bool :=
  dfsNum region a < dfsNum region b

def identifyForwardControlDeps (allControlDeps : Deps size) : Deps size := fun block =>
  (allControlDeps block).filter fun oneDep => comesBeforeInCFG region oneDep block

/-- The dependences of which the analysis keeps the forward ones. -/
def forwardControlDeps (info : PostDominanceInfo size) : Deps size :=
  identifyForwardControlDeps region (identifyAllControlDeps region info)

/-! ### Order of first paths -/

/-- Control can get from the entry to the block. -/
def Entered (block : Fin size) : Prop :=
  Reach region.successors (· ∈ ([] : List (Fin size))) region.front block

/-- Some path from the entry to the first block precedes all paths to the second; a block without
a path counts as the entry does. -/
def EntersFirst (a b : Fin size) : Prop :=
  Entered region b ∧ b ≠ region.front ∧
    (Entered region a →
      Ahead region.successors (· ∈ ([] : List (Fin size))) region.front a b)

variable {region} {a b : Fin size}

theorem mem_dfs : a ∈ dfs region ↔ Entered region a := by
  have enough : dfs region = reachable region.successors [] region.front := by
    rw [reachable, Fintype.card_fin, List.length_nil, List.drop_zero, dfs]
  rw [enough, mem_reachable, Entered]

theorem entered_front : Entered region region.front :=
  .here List.not_mem_nil

theorem idxOf_dfs_lt_iff (aEntered : Entered region a) (bEntered : Entered region b) :
    (dfs region).idxOf a < (dfs region).idxOf b ↔
      Ahead region.successors (· ∈ ([] : List (Fin size))) region.front a b := by
  have further := idxOf_preorder_lt_iff aEntered bEntered
  rwa [Fintype.card_fin] at further

theorem idxOf_dfs_front_lt (bEntered : Entered region b) (differs : b ≠ region.front) :
    (dfs region).idxOf region.front < (dfs region).idxOf b :=
  (idxOf_dfs_lt_iff entered_front bEntered).mpr (.of_start List.not_mem_nil differs)

theorem idxOf_dfs_front : (dfs region).idxOf region.front = 0 := by
  have frontMem : region.front ∈ dfs region := mem_dfs.mpr entered_front
  cases isList : dfs region with
  | nil =>
      rw [isList] at frontMem
      cases frontMem
  | cons first rest =>
      by_cases same : first = region.front
      · rw [same, List.idxOf_cons_self]
      · have firstMem : first ∈ dfs region := by
          rw [isList]
          exact .head _
        have less := idxOf_dfs_front_lt (mem_dfs.mp firstMem) same
        rw [isList, List.idxOf_cons_self] at less
        exact absurd less (Nat.not_lt_zero _)

theorem dfsNum_of_entered (entered : Entered region a) :
    dfsNum region a = (dfs region).idxOf a :=
  if_pos (mem_dfs.mpr entered)

theorem dfsNum_of_not_entered (apart : ¬ Entered region a) : dfsNum region a = 0 :=
  if_neg (mt mem_dfs.mp apart)

/-- A block is numbered first exactly if it is entered first. -/
theorem comesBeforeInCFG_iff : comesBeforeInCFG region a b ↔ EntersFirst region a b := by
  rw [comesBeforeInCFG, decide_eq_true_iff]
  by_cases bEntered : Entered region b
  · rw [dfsNum_of_entered bEntered]
    by_cases isFront : b = region.front
    · subst isFront
      rw [idxOf_dfs_front]
      exact ⟨fun less => absurd less (Nat.not_lt_zero _), fun first => absurd rfl first.2.1⟩
    · by_cases aEntered : Entered region a
      · rw [dfsNum_of_entered aEntered, idxOf_dfs_lt_iff aEntered bEntered]
        exact ⟨fun ahead => ⟨bEntered, isFront, fun _ => ahead⟩, fun first => first.2.2 aEntered⟩
      · have later := idxOf_dfs_front_lt bEntered isFront
        rw [idxOf_dfs_front] at later
        rw [dfsNum_of_not_entered aEntered]
        exact ⟨fun _ => ⟨bEntered, isFront, fun entered => absurd entered aEntered⟩, fun _ => later⟩
  · rw [dfsNum_of_not_entered bEntered]
    exact ⟨fun less => absurd less (Nat.not_lt_zero _), fun first => absurd first.1 bEntered⟩

end Forward

/-! ### Back edges -/

section BackEdges

variable {size : Nat} (region : Region size)

/-- The edge leads from inside a loop to its header. -/
def BackEdge (block next : Fin size) : Prop :=
  next ∈ region.successors block ∧ Entered region block ∧
    Dom region.successors region.front next block

/-- Control can get from one block to another without a back edge. -/
def ForwardPath : Fin size → Fin size → Prop :=
  Relation.TransGen fun block next =>
    next ∈ region.successors block ∧ ¬ BackEdge region block next

/-- The forward dependences are the dependences that do not go through a back edge. -/
def ForwardExact (info : PostDominanceInfo size) (exits : List (Fin size)) : Prop :=
  ∀ a b, a ∈ forwardControlDeps region info b ↔
    Relation.TransGen (DependsOn region.successors exits) b a ∧ ForwardPath region a b

variable {region} {info : PostDominanceInfo size} {exits : List (Fin size)} {a b : Fin size}

theorem mem_forwardControlDeps :
    a ∈ forwardControlDeps region info b ↔
      a ∈ identifyAllControlDeps region info b ∧ EntersFirst region a b := by
  rw [forwardControlDeps, identifyForwardControlDeps, Finset.mem_filter, comesBeforeInCFG_iff]

theorem not_entersFirst_self : ¬ EntersFirst region a a := by
  intro first
  have less := comesBeforeInCFG_iff.mpr first
  rw [comesBeforeInCFG, decide_eq_true_iff] at less
  exact Nat.lt_irrefl _ less

/-- A dependence that is entered first is a forward one. -/
theorem mem_forwardControlDeps_of_entersFirst (documented : info.Documented region exits)
    (depends : Relation.TransGen (DependsOn region.successors exits) b a)
    (first : EntersFirst region a b) : a ∈ forwardControlDeps region info b := by
  refine mem_forwardControlDeps.mpr ⟨?_, first⟩
  refine (mem_identifyAllControlDeps_or_eq documented depends).resolve_right fun same => ?_
  subst same
  exact not_entersFirst_self first

/-- The forward dependences are right exactly if blocks are entered before those that depend on
them where control gets there without a back edge, and only there. -/
theorem forwardExact_iff (documented : info.Documented region exits) :
    ForwardExact region info exits ↔
      ∀ a b, Relation.TransGen (DependsOn region.successors exits) b a →
        (EntersFirst region a b ↔ ForwardPath region a b) := by
  constructor
  · intro forwardExact a b depends
    constructor
    · intro first
      exact ((forwardExact a b).mp (mem_forwardControlDeps_of_entersFirst documented depends first)).2
    · intro path
      exact (mem_forwardControlDeps.mp ((forwardExact a b).mpr ⟨depends, path⟩)).2
  · intro agree a b
    constructor
    · intro mem
      obtain ⟨isDep, first⟩ := mem_forwardControlDeps.mp mem
      have depends := transGen_of_mem_identifyAllControlDeps documented isDep
      exact ⟨depends, (agree a b depends).mp first⟩
    · rintro ⟨depends, path⟩
      exact mem_forwardControlDeps_of_entersFirst documented depends
        ((agree a b depends).mpr path)

theorem forwardExact_iff_loop :
    ForwardExact loopRegion (.ofPaths loopRegion [3]) [3] ↔
      ∀ a b, Relation.TransGen (DependsOn loopRegion.successors [3]) b a →
        (EntersFirst loopRegion a b ↔ ForwardPath loopRegion a b) :=
  forwardExact_iff (documented_ofPaths (by decide) (by decide))

/-- Two conditions that share a target: it is the first successor of both. -/
def shortCircuit : Region 5 where
  front := 0
  successors := fun block =>
    ([[2, 1], [2, 3], [4], [4], []] : List (List (Fin 5))).getD block []

/-- The shared target is numbered before the second condition. -/
theorem not_forwardExact_shortCircuit :
    ¬ ∀ {size : Nat} (region : Region size) (info : PostDominanceInfo size)
        (exits : List (Fin size)), info.Documented region exits →
        ForwardExact region info exits := by
  intro forwardExact
  have documented : (PostDominanceInfo.ofPaths shortCircuit [4]).Documented shortCircuit [4] :=
    documented_ofPaths (by decide) (by decide)
  have depends : Relation.TransGen (DependsOn shortCircuit.successors [4]) 2 1 :=
    .single (by decide)
  have path : ForwardPath shortCircuit 1 2 :=
    .single ⟨by decide, fun back => absurd back.2.2 (by decide)⟩
  have kept := (forwardExact _ _ _ documented 1 2).mpr ⟨depends, path⟩
  have before := (Finset.mem_filter.mp kept).2
  exact absurd before (by decide)

/-! ### Acyclic regions -/

variable {rank : Fin size → Nat}

end BackEdges

end Dynamatic.ControlDependence
