import Dynamatic.Numerals
import Dynamatic.Speculation.PlacedSaves
import Mathlib.Data.Fintype.Fin

/-!
# Where commits are placed

The traversals from the speculator and from the save-commits leave a commit on every way to a
store, a memory controller or the end.
-/

namespace Dynamatic.Speculation.Placement

open ControlFlow

variable {Operation Value OpOperand : Type} {funcOp : FuncOp Operation Value OpOperand}

/-! ### One traversal -/

section Traversal

variable (funcOp)

/-- The operation needs a commit in front. -/
def NeedsCommit (operand : OpOperand) : Prop :=
  (funcOp.kind (funcOp.owner operand)).hasSideEffect = true

/-- Every way from the speculator or from a save-commit to a store, a memory controller or the
end passes a commit. -/
def CutsSideEffects (placements : Placements OpOperand) : Prop :=
  ∀ start, start = placements.speculator ∨ start ∈ placements.saveCommits →
    ∀ last, NeedsCommit funcOp last →
      ¬ Reach funcOp.behind (· ∈ placements.commits) start last

/-- Commits are added and nothing else, unless there is a failure. -/
def Extends (state result : Option (Placements OpOperand)) : Prop :=
  ∀ after, result = some after → ∃ before, state = some before ∧
    after.speculator = before.speculator ∧ after.saveCommits = before.saveCommits ∧
      after.saves = before.saves ∧ before.commits ⊆ after.commits

/-- An operand has a commit, unless there was a failure. -/
def Committed (state : Option (Placements OpOperand)) (operand : OpOperand) : Prop :=
  ∀ placements, state = some placements → operand ∈ placements.commits

/-- A way is cut at an operand: it has a commit, or ways start there. -/
def CutAt (state : Option (Placements OpOperand)) (operand : OpOperand) : Prop :=
  ∀ placements, state = some placements →
    operand ∈ placements.commits ∨ operand ∈ placements.speculator :: placements.saveCommits

/-- Commits are placed where they are needed, and those operations are not visited. -/
structure Needed (state : List Operation × Option (Placements OpOperand)) : Prop where
  visited : ∀ op ∈ state.1, (funcOp.kind op).hasSideEffect = false
  commits : ∀ placements, state.2 = some placements →
    ∀ operand ∈ placements.commits, NeedsCommit funcOp operand

variable {state middle result : Option (Placements OpOperand)} {placements : Placements OpOperand}
  {operand other : OpOperand}

theorem Extends.refl (state : Option (Placements OpOperand)) : Extends state state :=
  fun placements same => ⟨placements, same, rfl, rfl, rfl, List.Subset.refl _⟩

theorem Extends.trans (first : Extends state middle) (second : Extends middle result) :
    Extends state result := by
  intro after isAfter
  obtain ⟨between, isBetween, speculator, saveCommits, saves, commits⟩ := second after isAfter
  obtain ⟨before, isBefore, sameSpeculator, sameSaveCommits, sameSaves, more⟩ :=
    first between isBetween
  exact ⟨before, isBefore, speculator.trans sameSpeculator, saveCommits.trans sameSaveCommits,
    saves.trans sameSaves, List.Subset.trans more commits⟩

theorem Extends.committed (extends_ : Extends state result) (committed : Committed state operand) :
    Committed result operand := by
  intro after isAfter
  obtain ⟨before, isBefore, _, _, _, commits⟩ := extends_ after isAfter
  exact commits (committed before isBefore)

theorem Extends.cutAt (extends_ : Extends state result) (isCut : CutAt state operand) :
    CutAt result operand := by
  intro after isAfter
  obtain ⟨before, isBefore, speculator, saveCommits, _, commits⟩ := extends_ after isAfter
  rw [speculator, saveCommits]
  exact (isCut before isBefore).imp_left fun mem => commits mem

variable {funcOp} [DecidableEq OpOperand]

/-- Reaching an operand fails or places a commit where one is needed. -/
theorem commitOrGoOn_some (isReached : commitOrGoOn funcOp placements operand = some result) :
    Extends (some placements) result ∧ Committed result operand ∧
      ∀ after, result = some after → ∀ other ∈ after.commits,
        other ∈ placements.commits ∨ NeedsCommit funcOp other := by
  rw [commitOrGoOn] at isReached
  split at isReached
  · cases isReached
    exact ⟨nofun, nofun, nofun⟩
  · split at isReached
    · rename_i needsCommit
      cases isReached
      refine ⟨?_, ?_, ?_⟩
      · rintro after ⟨⟩
        exact ⟨placements, rfl, rfl, rfl, rfl, fun _ => List.mem_insert_of_mem⟩
      · rintro after ⟨⟩
        exact List.mem_insert_iff.mpr (.inl rfl)
      · rintro after ⟨⟩ other mem
        rcases List.mem_insert_iff.mp mem with rfl | old
        · exact .inr needsCommit
        · exact .inl old
    · cases isReached

theorem not_needsCommit (goesOn : commitOrGoOn funcOp placements operand = none) :
    (funcOp.kind (funcOp.owner operand)).hasSideEffect = false := by
  rw [commitOrGoOn] at goesOn
  split at goesOn
  · cases goesOn
  · split at goesOn
    · cases goesOn
    · rename_i notNeeded
      exact Bool.eq_false_iff.mpr notNeeded

/-- What a cut does: it is kept, and commits are placed where they are needed. -/
theorem cutByCommit_some (isCut : cutByCommit funcOp state operand = some result) :
    Extends state result ∧ CutAt result operand ∧
      ∀ after, result = some after → ∃ before, state = some before ∧
        ∀ other ∈ after.commits, other ∈ before.commits ∨ NeedsCommit funcOp other := by
  cases state with
  | none =>
      cases isCut
      exact ⟨.refl _, nofun, nofun⟩
  | some placements =>
      rw [cutByCommit] at isCut
      split at isCut
      · rename_i stops
        cases isCut
        refine ⟨.refl _, ?_, fun after same => ⟨after, same, fun _ => .inl⟩⟩
        rintro after ⟨⟩
        rw [List.mem_cons]
        exact stops.imp_right Or.symm
      · obtain ⟨extends_, committed, needed⟩ := commitOrGoOn_some isCut
        refine ⟨extends_, fun after same => .inl (committed after same), fun after same => ?_⟩
        exact ⟨placements, rfl, needed after same⟩

variable [DecidableEq Operation] [Fintype Operation]
  {start : List Operation × Option (Placements OpOperand)}

/-- A traversal covers what it visits, handles its operand, and places commits where they are
needed. -/
theorem findRegularCommitsTraversal_covers (operand : OpOperand) (needed : Needed funcOp start) :
    let result := findRegularCommitsTraversal funcOp start operand
    Covers (getSpecRegionTraversalTargets funcOp) funcOp.owner CutAt start result ∧
      Extends start.2 result.2 ∧ Needed funcOp result ∧
        (Committed result.2 operand ∨ funcOp.owner operand ∈ result.1) := by
  obtain ⟨visited, state⟩ := start
  cases state with
  | none => exact ⟨.refl _, .refl _, needed, .inl nofun⟩
  | some placements =>
      rw [findRegularCommitsTraversal]
      dsimp only
      split
      · rename_i result isReached
        obtain ⟨extends_, committed, commits⟩ := commitOrGoOn_some isReached
        refine ⟨⟨List.Subset.refl _, fun _ => extends_.cutAt, fun _ => .inl⟩, extends_,
          ⟨needed.visited, fun after same other mem => ?_⟩, .inl committed⟩
        exact (commits after same other mem).elim (needed.commits placements rfl other) id
      · rename_i goesOn
        obtain ⟨covers, isVisited⟩ := @covers_traverse _ _ _ (getSpecRegionTraversalTargets funcOp)
          funcOp.owner (cutByCommit funcOp) CutAt (visited, some placements)
          (fun isCut => (cutByCommit_some isCut).2.1)
          (fun isCut _ => (cutByCommit_some isCut).1.cutAt) _ _ (Fintype.card Operation + 1)
          (funcOp.owner operand) (Nat.lt_succ_of_le (Finset.card_le_univ _))
        have kept := @holds_traverse _ _ _ (getSpecRegionTraversalTargets funcOp) funcOp.owner
          (cutByCommit funcOp)
          (fun state => Extends (some placements) state.2 ∧ Needed funcOp state)
          (fun op => (funcOp.kind op).hasSideEffect = false) _ (by
            rintro visited state node notNeeded ⟨extends_, needed⟩
            exact ⟨extends_, List.forall_mem_cons.mpr ⟨notNeeded, needed.visited⟩, needed.commits⟩)
          (by
            rintro visited state after node _ edge _ ⟨extends_, needed⟩ isCut
            obtain ⟨further, _, commits⟩ := cutByCommit_some isCut
            refine ⟨extends_.trans further, needed.visited, fun after same other mem => ?_⟩
            obtain ⟨before, isBefore, commits⟩ := commits after same
            exact (commits other mem).elim (needed.commits before isBefore other) id)
          (by
            rintro visited state node _ edge _ ⟨_, _⟩ goesOn
            cases state with
            | none => cases goesOn
            | some placements =>
                rw [cutByCommit] at goesOn
                split at goesOn
                · cases goesOn
                · exact not_needsCommit goesOn)
          (Fintype.card Operation + 1) (visited, some placements) (funcOp.owner operand)
          (not_needsCommit goesOn) ⟨.refl _, needed⟩
        exact ⟨covers, kept.1, kept.2, .inr isVisited⟩

end Traversal

/-! ### All traversals -/

section Traversals

variable [DecidableEq OpOperand] [DecidableEq Operation] [Fintype Operation]
  {state : List Operation × Option (Placements OpOperand)}
  {placements result : Placements OpOperand}

/-- Traversals from several operands handle all of them. -/
theorem foldl_findRegularCommitsTraversal (starts : List OpOperand) (needed : Needed funcOp state) :
    let result := starts.foldl (findRegularCommitsTraversal funcOp) state
    Covers (getSpecRegionTraversalTargets funcOp) funcOp.owner CutAt state result ∧
      Extends state.2 result.2 ∧ Needed funcOp result ∧
        ∀ start ∈ starts, Committed result.2 start ∨ funcOp.owner start ∈ result.1 := by
  induction starts generalizing state with
  | nil => exact ⟨.refl _, .refl _, needed, fun _ mem => nomatch mem⟩
  | cons start starts inductionHypothesis =>
      obtain ⟨covers, extends_, stillNeeded, handled⟩ :=
        findRegularCommitsTraversal_covers start needed
      obtain ⟨others, further, neededAfter, all⟩ := inductionHypothesis stillNeeded
      refine ⟨covers.trans others, extends_.trans further, neededAfter,
        List.forall_mem_cons.mpr ⟨?_, all⟩⟩
      exact handled.imp further.committed fun mem => others.visited mem

/-- The regular commits cut all ways, and nothing but commits is placed. -/
theorem cutsSideEffects_findRegularCommits (noCommits : placements.commits = [])
    (isFound : findRegularCommits funcOp placements = some result) :
    result.speculator = placements.speculator ∧ result.saveCommits = placements.saveCommits ∧
      result.saves = placements.saves ∧ (∀ operand ∈ result.commits, NeedsCommit funcOp operand) ∧
        CutsSideEffects funcOp result := by
  have needed : Needed funcOp ([], some placements) := by
    refine ⟨nofun, ?_⟩
    rintro before ⟨⟩ operand mem
    rw [noCommits] at mem
    cases mem
  obtain ⟨covers, extends_, neededAfter, handled⟩ := foldl_findRegularCommitsTraversal
    (placements.speculator :: placements.saveCommits) needed
  rw [findRegularCommits] at isFound
  obtain ⟨before, ⟨⟩, speculator, saveCommits, saves, _⟩ := extends_ result isFound
  refine ⟨speculator, saveCommits, saves, neededAfter.commits result isFound, ?_⟩
  intro start isStart last needsCommit reach
  have starts {operand : OpOperand} (isStart : operand ∈ placements.speculator ::
      placements.saveCommits) (free : operand ∉ result.commits) := (handled operand isStart).resolve_left
    fun committed => free (committed result isFound)
  have visited := starts (by rwa [← speculator, ← saveCommits, List.mem_cons]) reach.free_first
  clear isStart
  induction reach with
  | here =>
      rw [NeedsCommit, neededAfter.visited _ visited] at needsCommit
      cases needsCommit
  | @step operand next last free edge rest inductionHypothesis =>
      refine inductionHypothesis needsCommit ?_
      have covered := (covers.covered _ visited).resolve_left List.not_mem_nil
      rcases covered next edge with isCut | isVisited
      · have cut := (isCut result isFound).resolve_left rest.free_first
        rw [speculator, saveCommits] at cut
        exact starts cut rest.free_first
      · exact isVisited

end Traversals

/-! ### Commits between blocks -/

section Between

variable (funcOp) (specPos : OpOperand)

/-- The speculator's operand, or one with a save-commit. -/
def IsStart (operand : OpOperand) : Prop :=
  operand = specPos ∨ SaveCommitAt funcOp specPos operand

open Classical in
/-- The operands behind an operand that needs no commit. -/
noncomputable def uncommittedBehind (operand : OpOperand) : List OpOperand :=
  if NeedsCommit funcOp operand then [] else funcOp.behind operand

/-- Behind the speculator or a save-commit, and not behind an operand that needs a commit. -/
def SpeculativeEdge (operand : OpOperand) : Prop :=
  ∃ start, IsStart funcOp specPos start ∧ ∃ first ∈ funcOp.behind start,
    Reach (uncommittedBehind funcOp) (fun _ => False) first operand

variable [DecidableEq OpOperand]

open Classical in
/-- A commit is placed at a speculative edge into a block with two speculative inputs. -/
def CommitBetween (fuel : Nat) (operand : OpOperand) : Prop :=
  ∃ arcs, getBBPredecessorArcs funcOp fuel = some arcs ∧ ∃ arc ∈ arcs, operand ∈ arc.edges ∧
    arc.srcBB ≠ some arc.dstBB ∧ SpeculativeEdge funcOp specPos operand ∧
      1 < (arcs.filter fun other => other.dstBB = arc.dstBB).countP fun other =>
        decide (∃ edge ∈ other.edges, SpeculativeEdge funcOp specPos edge)

variable {funcOp specPos} {placements result : Placements OpOperand} {operand : OpOperand}
  {marked : List OpOperand}

section Marked

variable [Fintype OpOperand]

/-- The marked edges are behind the speculator or a save-commit without a commit, and not behind
a commit. -/
theorem mem_speculativeEdges : operand ∈ speculativeEdges funcOp placements ↔
    ∃ start, (start = placements.speculator ∨
      start ∈ placements.saveCommits ∧ start ∉ placements.commits) ∧
        ∃ first ∈ funcOp.behind start,
          Reach (edgesBehind funcOp placements) (fun _ => False) first operand := by
  have isFlat : speculativeEdges funcOp placements =
      ((placements.speculator :: placements.saveCommits.filter (· ∉ placements.commits)).flatMap
        funcOp.behind).foldl (preorder (edgesBehind funcOp placements)
          (Fintype.card OpOperand + 1)) [] := by
    rw [List.foldl_flatMap]
    rfl
  rw [isFlat, mem_foldl_preorder (fun _ => False.elim) nofun, or_iff_right List.not_mem_nil]
  simp only [List.mem_flatMap, List.mem_cons, List.mem_filter, decide_eq_true_iff]
  constructor
  · rintro ⟨first, ⟨start, isStart, isFirst⟩, reach⟩
    exact ⟨start, isStart, first, isFirst, reach⟩
  · rintro ⟨start, isStart, first, isFirst, reach⟩
    exact ⟨first, ⟨start, isStart, isFirst⟩, reach⟩

/-- Where no start has a commit, the marked edges are the speculative ones. -/
theorem speculativeEdge_of_mem (cuts : CutsSideEffects funcOp placements)
    (needed : ∀ operand ∈ placements.commits, NeedsCommit funcOp operand)
    (isStart : ∀ start, start = placements.speculator ∨ start ∈ placements.saveCommits →
      IsStart funcOp specPos start ∧ ¬ NeedsCommit funcOp start)
    (mem : operand ∈ speculativeEdges funcOp placements) :
    SpeculativeEdge funcOp specPos operand := by
  obtain ⟨start, isOrigin, first, isFirst, reach⟩ := mem_speculativeEdges.mp mem
  have isOrigin : start = placements.speculator ∨ start ∈ placements.saveCommits :=
    isOrigin.imp_right And.left
  have free : start ∉ placements.commits := mt (needed start) (isStart start isOrigin).2
  refine ⟨start, (isStart start isOrigin).1, first, isFirst, ?_⟩
  -- an operand that is come to without a commit needs none
  have before : ∃ last, first ∈ funcOp.behind last ∧
      Reach funcOp.behind (· ∈ placements.commits) start last := ⟨start, isFirst, .here free⟩
  clear isFirst
  induction reach with
  | here => exact .here id
  | @step node next operand _ edge _ inductionHypothesis =>
      obtain ⟨last, isBehind, way⟩ := before
      rw [edgesBehind] at edge
      split at edge
      · cases edge
      · rename_i noCommit
        have onWay := way.trans (.step way.free_last isBehind (.here noCommit))
        have notNeeded : ¬ NeedsCommit funcOp node :=
          fun needsCommit => cuts start isOrigin node needsCommit onWay
        refine .step id ?_ (inductionHypothesis mem ⟨node, edge, onWay⟩)
        rw [uncommittedBehind, if_neg notNeeded]
        exact edge

end Marked

/-! ### Changes of the commits -/

section Changes

variable {initial : Placements OpOperand}

/-- The placements differ in the commits only. -/
def SameRest (placements result : Placements OpOperand) : Prop :=
  result.speculator = placements.speculator ∧ result.saves = placements.saves ∧
    result.saveCommits = placements.saveCommits

theorem foldl_addCommit (operands : List OpOperand) (placements : Placements OpOperand) :
    SameRest placements (operands.foldl Placements.addCommit placements) ∧
      ∀ operand, operand ∈ (operands.foldl Placements.addCommit placements).commits ↔
        operand ∈ placements.commits ∨ operand ∈ operands := by
  induction operands generalizing placements with
  | nil => exact ⟨⟨rfl, rfl, rfl⟩, by simp⟩
  | cons first operands inductionHypothesis =>
      obtain ⟨same, mem_iff⟩ := inductionHypothesis (placements.addCommit first)
      refine ⟨same, fun operand => ?_⟩
      rw [List.foldl_cons, mem_iff, Placements.addCommit, List.mem_insert_iff, List.mem_cons,
        or_comm (a := operand = first), or_assoc]

theorem foldl_eraseCommit (operands : List OpOperand) (placements : Placements OpOperand) :
    SameRest placements (operands.foldl Placements.eraseCommit placements) ∧
      ∀ operand, operand ∈ (operands.foldl Placements.eraseCommit placements).commits ↔
        operand ∈ placements.commits ∧ operand ∉ operands := by
  induction operands generalizing placements with
  | nil => exact ⟨⟨rfl, rfl, rfl⟩, by simp⟩
  | cons first operands inductionHypothesis =>
      obtain ⟨same, mem_iff⟩ := inductionHypothesis (placements.eraseCommit first)
      refine ⟨same, fun operand => ?_⟩
      rw [List.foldl_cons, mem_iff, Placements.eraseCommit, List.mem_filter, List.mem_cons,
        decide_eq_true_iff, not_or, and_assoc]

/-- Commits are added at operands with a property. -/
structure Adds (adds : OpOperand → Prop) (placements result : Placements OpOperand) : Prop where
  sameRest : SameRest placements result
  kept : placements.commits ⊆ result.commits
  added : ∀ operand ∈ result.commits, operand ∈ placements.commits ∨ adds operand

variable {adds : OpOperand → Prop}

omit [DecidableEq OpOperand] in
theorem Adds.refl (placements : Placements OpOperand) : Adds adds placements placements :=
  ⟨⟨rfl, rfl, rfl⟩, List.Subset.refl _, fun _ => .inl⟩

omit [DecidableEq OpOperand] in
theorem Adds.trans {middle : Placements OpOperand} (first : Adds adds placements middle)
    (second : Adds adds middle result) : Adds adds placements result where
  sameRest := ⟨second.sameRest.1.trans first.sameRest.1,
    second.sameRest.2.1.trans first.sameRest.2.1, second.sameRest.2.2.trans first.sameRest.2.2⟩
  kept := List.Subset.trans first.kept second.kept
  added := fun operand mem => (second.added operand mem).elim (first.added operand) .inr

omit [DecidableEq OpOperand] in
theorem adds_foldl {Item : Type} {step : Placements OpOperand → Item → Placements OpOperand}
    {items : List Item} (one : ∀ placements, ∀ item ∈ items, Adds adds placements (step placements item))
    (placements : Placements OpOperand) : Adds adds placements (items.foldl step placements) := by
  induction items generalizing placements with
  | nil => exact .refl placements
  | cons item items inductionHypothesis =>
      refine (one placements item List.mem_cons_self).trans ?_
      exact inductionHypothesis (fun placements item mem => one placements item (.tail _ mem)) _

theorem adds_commitArcs {arcs : List (BBArc OpOperand)}
    (isAdded : ∀ arc ∈ arcs, arc.srcBB ≠ some arc.dstBB → ∀ operand ∈ arc.edges,
      operand ∈ marked → adds operand) (placements : Placements OpOperand) :
    Adds adds placements (commitArcs marked arcs placements) := by
  refine adds_foldl (fun placements arc isArc => ?_) placements
  split
  · exact .refl placements
  · rename_i notBackedge
    obtain ⟨sameRest, mem_iff⟩ := foldl_addCommit (arc.edges.filter (· ∈ marked)) placements
    refine ⟨sameRest, fun operand mem => (mem_iff operand).mpr (.inl mem), fun operand mem => ?_⟩
    refine ((mem_iff operand).mp mem).imp_right fun isEdge => ?_
    obtain ⟨isEdge, isMarked⟩ := List.mem_filter.mp isEdge
    exact isAdded arc isArc notBackedge operand isEdge (of_decide_eq_true isMarked)

end Changes

variable {fuel : Nat}

/-- Commits between blocks are added at speculative edges. -/
theorem adds_commitBlocks {arcs : List (BBArc OpOperand)}
    (isArcs : getBBPredecessorArcs funcOp fuel = some arcs)
    (speculative : ∀ operand ∈ marked, SpeculativeEdge funcOp specPos operand)
    (placements : Placements OpOperand) :
    Adds (CommitBetween funcOp specPos fuel) placements (commitBlocks marked arcs placements) := by
  classical
  refine adds_foldl (fun placements bb _ => ?_) placements
  dsimp only
  split
  · rename_i many
    refine adds_commitArcs (fun arc isArc notBackedge operand isEdge isMarked => ?_) placements
    obtain ⟨isArc, isBlock⟩ := List.mem_filter.mp isArc
    have isBlock := of_decide_eq_true isBlock
    refine ⟨arcs, isArcs, arc, isArc, isEdge, notBackedge, speculative operand isMarked, ?_⟩
    rw [isBlock]
    refine Nat.lt_of_lt_of_le many (List.countP_mono_left fun other _ isSpeculative => ?_)
    obtain ⟨edge, isEdge, isMarked⟩ := List.any_eq_true.mp isSpeculative
    exact decide_eq_true ⟨edge, isEdge, speculative edge (of_decide_eq_true isMarked)⟩
  · exact .refl placements

variable [Fintype OpOperand]

/-- The commits that are marked are left. -/
theorem mem_commits_eraseUnreached (placements : Placements OpOperand) :
    SameRest placements (eraseUnreached funcOp placements) ∧
      ∀ operand, operand ∈ (eraseUnreached funcOp placements).commits ↔
        operand ∈ placements.commits ∧ operand ∈ speculativeEdges funcOp placements := by
  obtain ⟨sameRest, mem_iff⟩ := foldl_eraseCommit
    (placements.commits.filter (· ∉ speculativeEdges funcOp placements)) placements
  refine ⟨sameRest, fun operand => (mem_iff operand).trans (and_congr_right fun mem => ?_)⟩
  simp [mem]

/-- Where no save-commit shares its operand with a commit, the commits that are not marked are not
needed. -/
theorem cutsSideEffects_eraseUnreached
    (cuts : ∀ start, start = placements.speculator ∨ start ∈ placements.saveCommits →
      ¬ NeedsCommit funcOp start ∧ ∀ first ∈ funcOp.behind start, ∀ last, NeedsCommit funcOp last →
        ¬ Reach funcOp.behind (· ∈ placements.commits) first last)
    (free : ∀ start ∈ placements.saveCommits, start ∉ placements.commits) :
    CutsSideEffects funcOp (eraseUnreached funcOp placements) := by
  obtain ⟨sameRest, mem_iff⟩ := @mem_commits_eraseUnreached _ _ _ funcOp _ _ placements
  intro start isStart last needsCommit reach
  rw [sameRest.1, sameRest.2.2] at isStart
  obtain ⟨notNeeded, cutsBehind⟩ := cuts start isStart
  have around {operand last : OpOperand} (needsCommit : NeedsCommit funcOp last)
      (reach : Reach funcOp.behind (· ∈ (eraseUnreached funcOp placements).commits) operand last)
      (marked : operand ∈ speculativeEdges funcOp placements) :
      Reach funcOp.behind (· ∈ placements.commits) operand last := by
    induction reach with
    | here free => exact .here fun mem => free ((mem_iff _).mpr ⟨mem, marked⟩)
    | @step operand next _ free edge rest inductionHypothesis =>
        have noCommit : operand ∉ placements.commits :=
          fun mem => free ((mem_iff operand).mpr ⟨mem, marked⟩)
        refine .step noCommit edge (inductionHypothesis needsCommit ?_)
        obtain ⟨origin, isOrigin, first, isFirst, way⟩ := mem_speculativeEdges.mp marked
        refine mem_speculativeEdges.mpr ⟨origin, isOrigin, first, isFirst, way.trans ?_⟩
        refine .step id ?_ (.here id)
        rw [edgesBehind, if_neg noCommit]
        exact edge
  cases reach with
  | here => exact notNeeded needsCommit
  | @step _ first _ _ edge rest =>
      refine cutsBehind first edge last needsCommit (around needsCommit rest ?_)
      refine mem_speculativeEdges.mpr ⟨start, ?_, first, edge, .here id⟩
      exact isStart.imp_right fun mem => ⟨mem, free start mem⟩

end Between

/-! ### The placements -/

section Placements

variable (funcOp) (specPos : OpOperand) [DecidableEq OpOperand]

/-- An operation of the block with a speculative operand has a save or a save-commit on each
operand that is not speculative and does not only come from sources. -/
def SavesMixed (placements : Placements OpOperand) : Prop :=
  ∀ op, funcOp.logicBB op = funcOp.logicBB (funcOp.owner placements.speculator) →
    (∃ operand ∈ funcOp.operands op,
      Speculative funcOp placements.speculator (funcOp.get operand)) →
    ∀ operand ∈ funcOp.operands op,
      ¬ Speculative funcOp placements.speculator (funcOp.get operand) →
      ¬ FromSources funcOp (funcOp.get operand) →
        operand ∈ placements.saves ∨ operand ∈ placements.saveCommits

/-- Neither the speculator's operand nor one with a save-commit needs a commit, and none is placed
between blocks at one with a save-commit. -/
def StartsFree (fuel : Nat) : Prop :=
  ¬ NeedsCommit funcOp specPos ∧ ∀ operand, SaveCommitAt funcOp specPos operand →
    ¬ NeedsCommit funcOp operand ∧ ¬ CommitBetween funcOp specPos fuel operand

variable {funcOp specPos} [DecidableEq Operation] [Fintype Operation] [DecidableEq Value]
  [Fintype Value] [Fintype OpOperand] {fuel : Nat} {placements : Placements OpOperand}

/-- The placements cut all ways, where no way starts at an operand with a commit. -/
theorem findPlacements_cuts (alone : SpeculatorAlone funcOp specPos)
    (free : StartsFree funcOp specPos fuel)
    (isFound : findPlacements funcOp fuel specPos = some placements) :
    CutsSideEffects funcOp placements ∧ CutsBlock funcOp placements ∧
      SavesMixed funcOp placements := by
  simp only [findPlacements, Option.bind_eq_some_iff] at isFound
  obtain ⟨committed, ⟨cut, ⟨saved, isSaved, isCut⟩, isCommitted⟩, isFound⟩ := isFound
  obtain ⟨placed, cutsBlock⟩ :=
    saveCommitsPlaced_findSaveCommits (saveCommitsPlaced_findSaves alone isSaved) isCut
  obtain ⟨speculator, saveCommits, saves, needed, cuts⟩ :=
    cutsSideEffects_findRegularCommits placed.commits isCommitted
  rw [placed.speculator] at speculator
  obtain ⟨arcs, isArcs, rfl⟩ := Option.map_eq_some_iff.mp isFound
  have isStart : ∀ start, start = committed.speculator ∨ start ∈ committed.saveCommits →
      IsStart funcOp specPos start ∧ ¬ NeedsCommit funcOp start := by
    rw [speculator, saveCommits]
    rintro start (rfl | mem)
    · exact ⟨.inl rfl, free.1⟩
    · have isSaveCommit := placed.saveCommits start mem
      exact ⟨.inr isSaveCommit, (free.2 start isSaveCommit).1⟩
  have adds := adds_commitBlocks isArcs (fun _ => speculativeEdge_of_mem cuts needed isStart)
    committed
  obtain ⟨sameRest, _⟩ := @mem_commits_eraseUnreached _ _ _ funcOp _ _
    (commitBlocks (speculativeEdges funcOp committed) arcs committed)
  refine ⟨cutsSideEffects_eraseUnreached ?_ ?_, ?_, ?_⟩
  · intro start origin
    rw [adds.sameRest.1, adds.sameRest.2.2] at origin
    have notNeeded := (isStart start origin).2
    refine ⟨notNeeded, fun first isFirst last needsCommit reach => ?_⟩
    refine cuts start origin last needsCommit (.step (mt (needed start) notNeeded) isFirst ?_)
    exact reach.mono fun _ mem => adds.kept mem
  · intro start mem hasCommit
    rw [adds.sameRest.2.2] at mem
    obtain ⟨notNeeded, notBetween⟩ := free.2 start (placed.saveCommits start (saveCommits ▸ mem))
    exact (adds.added start hasCommit).elim (fun old => notNeeded (needed start old)) notBetween
  · have same := sameRest.1.trans (adds.sameRest.1.trans speculator)
    have sameSaveCommits := sameRest.2.2.trans (adds.sameRest.2.2.trans saveCommits)
    rw [CutsBlock, placed.speculator] at cutsBlock
    rwa [CutsBlock, same, sameSaveCommits]
  · have same := sameRest.1.trans (adds.sameRest.1.trans speculator)
    have sameSaves := sameRest.2.1.trans (adds.sameRest.2.1.trans saves)
    have sameSaveCommits := sameRest.2.2.trans (adds.sameRest.2.2.trans saveCommits)
    rw [SavesMixed, same, sameSaves, sameSaveCommits]
    intro op inBlock mixed operand isOperand notSpeculative notGenerated
    obtain rfl := funcOp.mem_operands.mp isOperand
    exact placed.covered operand ⟨inBlock, mixed, notSpeculative, notGenerated⟩

end Placements

/-! ### A branch and a store behind a save-commit -/

section Circuits

open Numerals in
/-- The condition of a branch is speculated on; its data comes from a mux. -/
def branchCircuit : FuncOp (Fin 5) (Fin 9) (Fin 8) where
  operations := List.finRange 5
  kind
    | 0 => .controlMerge | 1 => .mux | 3 => .conditionalBranch | 4 => .endOp | _ => .other
  logicBB op := if op < 4 then some 0 else none
  operands
    | 0 => [0] | 1 => [1, 2] | 2 => [3] | 3 => [4, 5] | 4 => [6, 7]
  results
    | 0 => [3, 4] | 1 => [5] | 2 => [6] | 3 => [7, 8] | 4 => []
  owner
    | 0 => 0 | 1 => 1 | 2 => 1 | 3 => 2 | 4 => 3 | 5 => 3 | 6 => 4 | 7 => 4
  get
    | 0 => 0 | 1 => 4 | 2 => 1 | 3 => 2 | 4 => 6 | 5 => 5 | 6 => 3 | 7 => 7
  definingOp
    | 3 => some 0 | 4 => some 0 | 5 => some 1 | 6 => some 2 | 7 => some 3 | 8 => some 3 | _ => none
  uses
    | 0 => [0] | 1 => [2] | 2 => [3] | 3 => [6] | 4 => [1] | 5 => [5] | 6 => [4] | 7 => [7]
    | 8 => []
  mem_operations := by decide
  mem_operands := by decide
  mem_results := by decide
  mem_uses := by decide

/-- The value of the speculator has no other use. -/
theorem speculatorAlone_branchCircuit : SpeculatorAlone branchCircuit 3 :=
  fun _ => by decide

/-- Only operands of the branch can have save-commits, and these do not leave the block. -/
theorem startsFree_branchCircuit : StartsFree branchCircuit 3 3 := by
  have isArcs : getBBPredecessorArcs branchCircuit 3 = some [⟨none, 0, [3, 2, 0]⟩] := by decide
  have isSaved : findSaves branchCircuit 3 ⟨3, [], [], []⟩ = some ⟨3, [5], [], []⟩ := by decide
  refine ⟨nofun, fun operand isSaveCommit => ?_⟩
  obtain ⟨apart, _, _, _, _, first⟩ := isSaveCommit
  have atBranch : branchCircuit.owner operand = 3 := by
    rcases first.mem with hasSave | same | isBranch
    · have isSave := (mem_saves_findSaves speculatorAlone_branchCircuit isSaved).1 operand
      rw [List.mem_singleton.mp (isSave.mpr hasSave)]
      rfl
    · exact absurd same apart
    · clear apart first
      revert operand
      decide
  clear apart first
  refine ⟨by rw [NeedsCommit, atBranch]; nofun, ?_⟩
  rintro ⟨arcs, isSome, arc, isArc, isEdge, -⟩
  cases isSome.symm.trans isArcs
  rw [List.mem_singleton.mp isArc] at isEdge
  clear isArc
  revert operand
  decide

/-- A commit is placed in front of the end, and a save-commit in front of the branch. -/
theorem findPlacements_branchCircuit :
    CutsSideEffects branchCircuit ⟨3, [], [7], [5]⟩ ∧ CutsBlock branchCircuit ⟨3, [], [7], [5]⟩ ∧
      SavesMixed branchCircuit ⟨3, [], [7], [5]⟩ :=
  findPlacements_cuts speculatorAlone_branchCircuit startsFree_branchCircuit
    (show findPlacements branchCircuit 3 3 = some ⟨3, [], [7], [5]⟩ by decide)

/-- The operand before it is extended is speculated on; the address of the store comes from a
mux, and its data is extended. -/
def storeCircuit : FuncOp (Fin 7) (Fin 13) (Fin 15) where
  operations := List.finRange 7
  kind
    | 0 => .controlMerge | 2 => .mux | 3 => .extSI | 4 => .store | 5 => .memoryController
    | 6 => .endOp | _ => .other
  logicBB op := if op < 5 then some 0 else none
  operands
    | 0 => [0] | 1 => [1] | 2 => [2, 3] | 3 => [4] | 4 => [5, 6] | 5 => [7, 8, 9, 10, 11, 12]
    | 6 => [13, 14]
  results
    | 0 => [5, 6] | 1 => [7] | 2 => [8] | 3 => [9] | 4 => [10, 11] | 5 => [12] | 6 => []
  owner
    | 0 => 0 | 1 => 1 | 2 => 2 | 3 => 2 | 4 => 3 | 5 => 4 | 6 => 4 | 13 => 6 | 14 => 6 | _ => 5
  get
    | 0 => 0 | 1 => 5 | 2 => 6 | 3 => 1 | 4 => 2 | 5 => 8 | 6 => 9 | 7 => 3 | 8 => 4 | 9 => 7
    | 10 => 10 | 11 => 11 | 12 => 5 | 13 => 5 | 14 => 12
  definingOp
    | 5 => some 0 | 6 => some 0 | 7 => some 1 | 8 => some 2 | 9 => some 3 | 10 => some 4
    | 11 => some 4 | 12 => some 5 | _ => none
  uses
    | 0 => [0] | 1 => [3] | 2 => [4] | 3 => [7] | 4 => [8] | 5 => [1, 12, 13] | 6 => [2]
    | 7 => [9] | 8 => [5] | 9 => [6] | 10 => [10] | 11 => [11] | 12 => [14]
  mem_operations := by decide
  mem_operands := by decide
  mem_results := by decide
  mem_uses := by decide

/-- The address of the store has a save-commit, and its commit is taken away. -/
theorem findPlacements_storeCircuit :
    findPlacements storeCircuit 3 4 = some ⟨4, [], [6], [5]⟩ ∧
      ¬ CutsSideEffects storeCircuit ⟨4, [], [6], [5]⟩ := by
  refine ⟨by decide, fun cuts => ?_⟩
  exact cuts 5 (.inr (by decide)) 5 rfl (.here (by decide))

end Circuits

end Dynamatic.Speculation.Placement
