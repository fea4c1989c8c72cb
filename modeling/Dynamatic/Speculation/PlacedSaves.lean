import Dynamatic.ControlFlow.Dependence
import Dynamatic.Speculation.Placement

/-!
# Where saves and save-commits are placed

In the block of the speculator each operation with speculative operands gets a save in front of
the others, but for what only comes from sources. The traversal from the control merge leaves a
save-commit, or the speculator, on every way to a conditional branch.
-/

namespace Dynamatic.Speculation.Placement

open ControlFlow

variable {Operation Value OpOperand : Type} (funcOp : FuncOp Operation Value OpOperand)

/-! ### Folds that may fail -/

section Folds

variable {State Item : Type} {step : State → Item → Option State} {state result : State}
  {items : List Item}

/-- What each step adds to a property of the state is added by all together. -/
theorem iff_of_foldlM {holds : State → Prop} {adds : Item → Prop}
    (one : ∀ state item after, step state item = some after →
      (holds after ↔ holds state ∨ adds item))
    (all : items.foldlM step state = some result) :
    holds result ↔ holds state ∨ ∃ item ∈ items, adds item := by
  induction items generalizing state with
  | nil =>
      cases all
      simp
  | cons item items inductionHypothesis =>
      rw [List.foldlM_cons] at all
      obtain ⟨after, isAfter, rest⟩ := Option.bind_eq_some_iff.mp all
      rw [inductionHypothesis rest, one state item after isAfter, or_assoc]
      simp only [List.mem_cons, exists_eq_or_imp]

/-- What each step keeps is kept by all together. -/
theorem eq_of_foldlM {Part : Type} {part : State → Part}
    (one : ∀ state item after, step state item = some after → part after = part state)
    (all : items.foldlM step state = some result) : part result = part state := by
  induction items generalizing state with
  | nil =>
      cases all
      rfl
  | cons item items inductionHypothesis =>
      rw [List.foldlM_cons] at all
      obtain ⟨after, isAfter, rest⟩ := Option.bind_eq_some_iff.mp all
      exact (inductionHypothesis rest).trans (one state item after isAfter)

end Folds

/-! ### Speculative values -/

section Values

variable (specPos : OpOperand)

/-- The speculator's tokens come to a value, up to the conditional branches. -/
inductive Reached : Value → Prop where
  | first {value : Value} (free : funcOp.kind (funcOp.owner specPos) ≠ .conditionalBranch)
      (isResult : value ∈ funcOp.results (funcOp.owner specPos)) : Reached value
  | next {value behind : Value} (reached : Reached value)
      (isBehind : behind ∈ funcOp.valuesBehind value) : Reached behind

/-- A value is that of the speculator or one that its tokens come to. -/
def Speculative (value : Value) : Prop :=
  value = funcOp.get specPos ∨ Reached funcOp specPos value

/-- Nothing else uses the value of the speculator, if its tokens come there again. -/
def SpeculatorAlone : Prop :=
  Reached funcOp specPos (funcOp.get specPos) →
    ∀ use ∈ funcOp.uses (funcOp.get specPos), use = specPos

/-- A value only comes from sources. -/
inductive FromSources : Value → Prop where
  | source {value : Value} {op : Operation} (isDefined : funcOp.definingOp value = some op)
      (isSource : funcOp.kind op = .source) : FromSources value
  | step {value : Value} {op : Operation} (isDefined : funcOp.definingOp value = some op)
      (all : ∀ operand ∈ funcOp.operands op, FromSources (funcOp.get operand)) : FromSources value

variable {funcOp specPos} {value : Value}

/-- The marked values are the speculative ones. -/
theorem mem_specValues [DecidableEq Value] [Fintype Value]
    (alone : SpeculatorAlone funcOp specPos) :
    value ∈ specValues funcOp specPos ↔ Speculative funcOp specPos value := by
  rw [specValues, markSpeculativePathsForSaves, Speculative]
  split
  · rename_i isBranch
    rw [List.mem_singleton]
    refine (or_iff_left fun reached => ?_).symm
    induction reached with
    | first free => exact free isBranch
    | next _ _ inductionHypothesis => exact inductionHypothesis
  · rename_i free
    rw [@mem_foldl_preorder _ _ _ funcOp.valuesBehind (· = funcOp.get specPos)
      [funcOp.get specPos] _ _ (fun _ => List.mem_singleton.mpr)
      (fun _ mem apart => absurd (List.mem_singleton.mp mem) apart), List.mem_singleton]
    constructor
    · rintro (same | ⟨start, isStart, reach⟩)
      · exact .inl same
      · have from_ : Reached funcOp specPos start := .first free isStart
        clear isStart
        induction reach with
        | here => exact .inr from_
        | step _ edge _ inductionHypothesis => exact inductionHypothesis (.next from_ edge)
    · rintro (same | reached)
      · exact .inl same
      · induction reached with
        | @first value _ isResult =>
            refine (em _).imp_right fun apart => ?_
            exact ⟨value, isResult, .here apart⟩
        | @next value behind reached isBehind inductionHypothesis =>
            refine (em _).imp_right fun apart => ?_
            rcases inductionHypothesis with same | ⟨start, isStart, reach⟩
            · -- the value of the speculator goes on from the speculator only
              obtain ⟨use, isUse, isResult⟩ := List.mem_flatMap.mp isBehind
              rw [same] at reached isUse
              rw [alone reached use isUse, if_neg free] at isResult
              exact ⟨behind, isResult, .here apart⟩
            · exact ⟨start, isStart, reach.trans (.step reach.free_last isBehind (.here apart))⟩

end Values

/-! ### Values that come from sources -/

section Sources

variable {funcOp} {value : Value} {answer : Bool}

theorem foldlM_all {Item : Type} {asks : Item → Option Bool} {holds : Item → Prop}
    {items : List Item} {start : Bool}
    (one : ∀ item answer, asks item = some answer → (answer = true ↔ holds item))
    (all : items.foldlM (fun all item => if all then asks item else some false) start =
      some answer) :
    answer = true ↔ start = true ∧ ∀ item ∈ items, holds item := by
  induction items generalizing start with
  | nil =>
      cases all
      simp
  | cons item items inductionHypothesis =>
      rw [List.foldlM_cons] at all
      obtain ⟨after, isAfter, rest⟩ := Option.bind_eq_some_iff.mp all
      rw [inductionHypothesis rest, List.forall_mem_cons]
      cases start with
      | false =>
          cases isAfter
          simp
      | true => rw [one item after isAfter, eq_self, true_and]

/-- An answer is right whatever fuel it took. -/
theorem isGeneratedBySourceOp_iff {fuel : Nat}
    (isAnswer : isGeneratedBySourceOp funcOp fuel value = some answer) :
    answer = true ↔ FromSources funcOp value := by
  induction fuel generalizing value answer with
  | zero => cases isAnswer
  | succ fuel inductionHypothesis =>
      rw [isGeneratedBySourceOp] at isAnswer
      split at isAnswer
      · rename_i isNone
        cases isAnswer
        refine iff_of_false Bool.false_ne_true fun comes => ?_
        cases comes with
        | source isDefined => simp [isNone] at isDefined
        | step isDefined => simp [isNone] at isDefined
      · rename_i defOp isSome
        split at isAnswer
        · rename_i isSource
          cases isAnswer
          exact iff_of_true rfl (.source isSome isSource)
        · rename_i notSource
          rw [foldlM_all (fun operand _ => inductionHypothesis) isAnswer, eq_self, true_and]
          refine ⟨.step isSome, fun comes => ?_⟩
          cases comes with
          | source isDefined isSource =>
              cases isSome.symm.trans isDefined
              exact absurd isSource notSource
          | step isDefined all =>
              cases isSome.symm.trans isDefined
              exact all

end Sources

/-! ### The saves -/

section Saves

variable (specPos : OpOperand)

/-- An operand of an operation in the speculator's block gets a save: it is not speculative but
another one is, and it does not only come from sources. -/
structure HasSave (operand : OpOperand) : Prop where
  inBlock : funcOp.logicBB (funcOp.owner operand) = funcOp.logicBB (funcOp.owner specPos)
  mixed : ∃ other ∈ funcOp.operands (funcOp.owner operand),
    Speculative funcOp specPos (funcOp.get other)
  notSpeculative : ¬ Speculative funcOp specPos (funcOp.get operand)
  notGenerated : ¬ FromSources funcOp (funcOp.get operand)

variable {funcOp specPos} [DecidableEq Value] [DecidableEq OpOperand]
  {placements result : Placements OpOperand} {operand : OpOperand} {marked : List Value}

/-- The saves of one operation. -/
theorem mem_saves_placeSaves {fuel : Nat} {blockOp : Operation}
    (isPlaced : placeSaves funcOp fuel marked placements blockOp = some result) :
    operand ∈ result.saves ↔ operand ∈ placements.saves ∨
      funcOp.owner operand = blockOp ∧ (∃ other ∈ funcOp.operands blockOp,
        funcOp.get other ∈ marked) ∧ funcOp.get operand ∉ marked ∧
        ¬ FromSources funcOp (funcOp.get operand) := by
  rw [placeSaves] at isPlaced
  split at isPlaced
  · rename_i both
    have mixed : ∃ other ∈ funcOp.operands blockOp, funcOp.get other ∈ marked := by
      simpa using both.1
    have one : ∀ (before : Placements OpOperand) (other : OpOperand)
        (after : Placements OpOperand),
        (if funcOp.get other ∈ marked then some before
          else (isGeneratedBySourceOp funcOp fuel (funcOp.get other)).map fun generated =>
            if generated then before else before.addSave other) = some after →
        (operand ∈ after.saves ↔ operand ∈ before.saves ∨ operand = other ∧
          funcOp.get operand ∉ marked ∧ ¬ FromSources funcOp (funcOp.get operand)) := by
      intro before other after isAfter
      split at isAfter
      · rename_i isMarked
        cases isAfter
        refine (or_iff_left fun added => ?_).symm
        exact added.2.1 (added.1 ▸ isMarked)
      · rename_i notMarked
        obtain ⟨generated, isAnswer, rfl⟩ := Option.map_eq_some_iff.mp isAfter
        have answer := isGeneratedBySourceOp_iff isAnswer
        split
        · rename_i isGenerated
          refine (or_iff_left fun added => ?_).symm
          exact added.2.2 (added.1 ▸ answer.mp isGenerated)
        · rename_i notGenerated
          rw [Placements.addSave, List.mem_insert_iff, or_comm]
          refine or_congr_right ⟨fun same => ⟨same, ?_⟩, And.left⟩
          rw [same]
          exact ⟨notMarked, mt answer.mpr notGenerated⟩
    rw [iff_of_foldlM one isPlaced]
    refine or_congr_right ⟨?_, ?_⟩
    · rintro ⟨other, isOperand, rfl, added⟩
      exact ⟨funcOp.mem_operands.mp isOperand, mixed, added⟩
    · rintro ⟨isOwner, _, added⟩
      exact ⟨operand, funcOp.mem_operands.mpr isOwner, rfl, added⟩
  · rename_i notBoth
    cases isPlaced
    refine (or_iff_left ?_).symm
    rintro ⟨isOwner, mixed, notMarked, _⟩
    have isOperand := funcOp.mem_operands.mpr isOwner
    refine notBoth ⟨List.any_eq_true.mpr ?_, List.any_eq_true.mpr ?_⟩
    · obtain ⟨other, isOther, isMarked⟩ := mixed
      exact ⟨other, isOther, decide_eq_true isMarked⟩
    · exact ⟨operand, isOperand, decide_eq_true notMarked⟩

/-- Saves are added and nothing else. -/
theorem rest_placeSaves {fuel : Nat} {blockOp : Operation}
    (isPlaced : placeSaves funcOp fuel marked placements blockOp = some result) :
    { result with saves := [] } = { placements with saves := [] } := by
  rw [placeSaves] at isPlaced
  split at isPlaced
  · refine @eq_of_foldlM _ _ _ _ _ _ _ (fun state => { state with saves := [] }) ?_ isPlaced
    intro before other after isAfter
    split at isAfter
    · cases isAfter
      rfl
    · obtain ⟨generated, _, rfl⟩ := Option.map_eq_some_iff.mp isAfter
      split <;> rfl
  · cases isPlaced
    rfl

/-- The saves are where they are needed. -/
theorem mem_saves_findSaves [Fintype Value] {fuel : Nat}
    (alone : SpeculatorAlone funcOp specPos)
    (isFound : findSaves funcOp fuel ⟨specPos, [], [], []⟩ = some result) :
    (∀ operand, operand ∈ result.saves ↔ HasSave funcOp specPos operand) ∧
      { result with saves := [] } = ⟨specPos, [], [], []⟩ := by
  obtain ⟨specBB, isBB, isFound⟩ := Option.bind_eq_some_iff.mp isFound
  refine ⟨fun operand => ?_, eq_of_foldlM (fun _ _ _ => rest_placeSaves) isFound⟩
  rw [iff_of_foldlM (fun _ _ _ => mem_saves_placeSaves) isFound, or_iff_right List.not_mem_nil]
  simp only [mem_specValues alone]
  constructor
  · rintro ⟨op, isOp, rfl, mixed, notSpeculative, notGenerated⟩
    have inBlock := of_decide_eq_true (List.mem_filter.mp isOp).2
    exact ⟨inBlock.trans isBB.symm, mixed, notSpeculative, notGenerated⟩
  · intro hasSave
    refine ⟨funcOp.owner operand, List.mem_filter.mpr ⟨funcOp.mem_operations _, ?_⟩, rfl,
      hasSave.mixed, hasSave.notSpeculative, hasSave.notGenerated⟩
    exact decide_eq_true (hasSave.inBlock.trans isBB)

end Saves

/-! ### The save-commits -/

section SaveCommits

variable (specPos : OpOperand)

/-- The operands behind an operand. -/
def FuncOp.behind (operand : OpOperand) : List OpOperand :=
  getSpecRegionTraversalTargets funcOp (funcOp.owner operand)

/-- A way from the control merge is cut at an operand. -/
def StopsAt (operand : OpOperand) : Prop :=
  HasSave funcOp specPos operand ∨ operand = specPos ∨
    funcOp.kind (funcOp.owner operand) = .conditionalBranch

/-- A control merge in the block of the speculator. -/
def IsBlockStart (mergeOp : Operation) : Prop :=
  funcOp.kind mergeOp = .controlMerge ∧
    funcOp.logicBB mergeOp = funcOp.logicBB (funcOp.owner specPos)

/-- An operand at which a way from the control merge is cut first, not by the speculator. -/
def SaveCommitAt (operand : OpOperand) : Prop :=
  operand ≠ specPos ∧ ∃ mergeOp, IsBlockStart funcOp specPos mergeOp ∧
    ∃ start ∈ getSpecRegionTraversalTargets funcOp mergeOp,
      First funcOp.behind (StopsAt funcOp specPos) start operand

/-- Every way from the control merge of the block to a conditional branch passes the speculator
or a save-commit. -/
def CutsBlock (placements : Placements OpOperand) : Prop :=
  ∀ mergeOp, funcOp.kind mergeOp = .controlMerge →
    funcOp.logicBB mergeOp = funcOp.logicBB (funcOp.owner placements.speculator) →
    ∀ start ∈ getSpecRegionTraversalTargets funcOp mergeOp, ∀ last,
      funcOp.kind (funcOp.owner last) = .conditionalBranch →
      ¬ Reach funcOp.behind
        (fun operand => operand = placements.speculator ∨ operand ∈ placements.saveCommits)
        start last

/-- What holds of the placements on the way through the block. -/
structure SaveCommitsPlaced (placements : Placements OpOperand) : Prop where
  speculator : placements.speculator = specPos
  commits : placements.commits = []
  saves : ∀ operand ∈ placements.saves, HasSave funcOp specPos operand
  covered : ∀ operand, HasSave funcOp specPos operand →
    operand ∈ placements.saves ∨ operand ∈ placements.saveCommits
  saveCommits : ∀ operand ∈ placements.saveCommits, SaveCommitAt funcOp specPos operand

variable {funcOp specPos} {operand : OpOperand} {placements result : Placements OpOperand}
  {mergeOp : Operation}

theorem HasSave.ne (hasSave : HasSave funcOp specPos operand) : operand ≠ specPos := by
  rintro rfl
  exact hasSave.notSpeculative (.inl rfl)

variable [DecidableEq OpOperand]

/-- A way that is not cut goes on. -/
theorem SaveCommitsPlaced.not_stopsAt (placed : SaveCommitsPlaced funcOp specPos placements)
    (goesOn : cutBySaveCommit funcOp placements operand = none) :
    ¬ StopsAt funcOp specPos operand := by
  rw [cutBySaveCommit, placed.speculator] at goesOn
  split at goesOn
  · cases goesOn
  · rename_i notSave
    split at goesOn
    · cases goesOn
    · rename_i notSaveCommit
      split at goesOn
      · cases goesOn
      · rename_i notSpeculator
        split at goesOn
        · cases goesOn
        · rename_i notBranch
          rintro (hasSave | isSpeculator | isBranch)
          · exact (placed.covered operand hasSave).elim notSave notSaveCommit
          · exact notSpeculator isSpeculator
          · exact notBranch isBranch

/-- A way that is cut gets a save-commit, if it is not cut yet. -/
theorem SaveCommitsPlaced.cut (placed : SaveCommitsPlaced funcOp specPos placements)
    (first : operand ≠ specPos → StopsAt funcOp specPos operand →
      SaveCommitAt funcOp specPos operand)
    (isCut : cutBySaveCommit funcOp placements operand = some result) :
    SaveCommitsPlaced funcOp specPos result := by
  rw [cutBySaveCommit, placed.speculator] at isCut
  split at isCut
  · rename_i isSave
    cases isCut
    have hasSave := placed.saves operand isSave
    refine ⟨placed.speculator, placed.commits, ?_, ?_, ?_⟩
    · intro other mem
      exact placed.saves other (List.mem_filter.mp mem).1
    · intro other otherSave
      by_cases same : other = operand
      · exact .inr (List.mem_insert_iff.mpr (.inl same))
      · refine (placed.covered other otherSave).imp (fun mem => ?_) fun mem => ?_
        · exact List.mem_filter.mpr ⟨mem, decide_eq_true same⟩
        · exact List.mem_insert_of_mem mem
    · intro other mem
      rcases List.mem_insert_iff.mp mem with rfl | old
      · exact first hasSave.ne (.inl hasSave)
      · exact placed.saveCommits other old
  · split at isCut
    · cases isCut
      exact placed
    · split at isCut
      · cases isCut
        exact placed
      · rename_i notSpeculator
        split at isCut
        · rename_i isBranch
          cases isCut
          refine ⟨placed.speculator, placed.commits, placed.saves, ?_, ?_⟩
          · intro other otherSave
            exact (placed.covered other otherSave).imp_right List.mem_insert_of_mem
          · intro other mem
            rcases List.mem_insert_iff.mp mem with rfl | old
            · exact first notSpeculator (.inr (.inr isBranch))
            · exact placed.saveCommits other old
        · cases isCut

/-- What is cut stays cut. -/
theorem cut_cutBySaveCommit (isCut : cutBySaveCommit funcOp placements operand = some result) :
    (operand = result.speculator ∨ operand ∈ result.saveCommits) ∧
      ∀ other, (other = placements.speculator ∨ other ∈ placements.saveCommits) →
        other = result.speculator ∨ other ∈ result.saveCommits := by
  rw [cutBySaveCommit] at isCut
  split at isCut
  · cases isCut
    exact ⟨.inr (List.mem_insert_iff.mpr (.inl rfl)), fun _ => .imp_right List.mem_insert_of_mem⟩
  · split at isCut
    · rename_i isSaveCommit
      cases isCut
      exact ⟨.inr isSaveCommit, fun _ => id⟩
    · split at isCut
      · rename_i isSpeculator
        cases isCut
        exact ⟨.inl isSpeculator, fun _ => id⟩
      · split at isCut
        · cases isCut
          exact ⟨.inr (List.mem_insert_iff.mpr (.inl rfl)),
            fun _ => .imp_right List.mem_insert_of_mem⟩
        · cases isCut

/-- The saves come first. -/
theorem saveCommitsPlaced_findSaves [DecidableEq Value] [Fintype Value] {fuel : Nat}
    (alone : SpeculatorAlone funcOp specPos)
    (isFound : findSaves funcOp fuel ⟨specPos, [], [], []⟩ = some result) :
    SaveCommitsPlaced funcOp specPos result := by
  obtain ⟨isSave, rest⟩ := mem_saves_findSaves alone isFound
  refine ⟨congrArg Placements.speculator rest, congrArg Placements.commits rest,
    fun operand => (isSave operand).mp, fun operand hasSave => .inl ((isSave operand).mpr hasSave),
    fun operand mem => ?_⟩
  have none : result.saveCommits = [] := congrArg Placements.saveCommits rest
  rw [none] at mem
  cases mem

variable [DecidableEq Operation] [Fintype Operation]

/-- The traversal places save-commits where ways from the control merge are cut first. -/
theorem saveCommitsPlaced_traversal (isStart : IsBlockStart funcOp specPos mergeOp)
    (placed : SaveCommitsPlaced funcOp specPos placements) :
    SaveCommitsPlaced funcOp specPos
        (findSaveCommitsTraversal funcOp ([], placements) mergeOp).2 ∧
      ∀ op ∈ (findSaveCommitsTraversal funcOp ([], placements) mergeOp).1,
        funcOp.kind op ≠ .conditionalBranch := by
  refine @holds_traverse _ _ _ (getSpecRegionTraversalTargets funcOp) funcOp.owner
    (cutBySaveCommit funcOp)
    (fun state => SaveCommitsPlaced funcOp specPos state.2 ∧
      ∀ op ∈ state.1, funcOp.kind op ≠ .conditionalBranch)
    -- where a way behind an entered operation is cut first, one from the merge is
    (fun op => funcOp.kind op ≠ .conditionalBranch ∧
      ∀ start ∈ getSpecRegionTraversalTargets funcOp op, ∀ operand, operand ≠ specPos →
        First funcOp.behind (StopsAt funcOp specPos) start operand →
          SaveCommitAt funcOp specPos operand)
    _ ?_ ?_ ?_ _ _ _ ?_ ?_
  · rintro visited state node ⟨notBranch, _⟩ ⟨placed, noBranch⟩
    exact ⟨placed, List.forall_mem_cons.mpr ⟨notBranch, noBranch⟩⟩
  · rintro visited state after node ⟨_, firsts⟩ edge isEdge ⟨placed, noBranch⟩ isCut
    exact ⟨placed.cut (fun apart stops => firsts edge isEdge edge apart (.here stops)) isCut,
      noBranch⟩
  · rintro visited state node ⟨_, firsts⟩ edge isEdge ⟨placed, _⟩ goesOn
    have goesOn := placed.not_stopsAt goesOn
    refine ⟨fun isBranch => goesOn (.inr (.inr isBranch)), fun start isStart operand apart first => ?_⟩
    exact firsts edge isEdge operand apart (.step goesOn isStart first)
  · refine ⟨by simp [isStart.1], fun start isTarget operand apart first => ?_⟩
    exact ⟨apart, mergeOp, isStart, start, isTarget, first⟩
  · exact ⟨placed, fun _ mem => nomatch mem⟩

/-- No way from the control merge to a conditional branch is left. -/
theorem not_reach_traversal (isStart : IsBlockStart funcOp specPos mergeOp)
    (placed : SaveCommitsPlaced funcOp specPos placements) {start last : OpOperand}
    (isTarget : start ∈ getSpecRegionTraversalTargets funcOp mergeOp)
    (isBranch : funcOp.kind (funcOp.owner last) = .conditionalBranch) :
    let result := (findSaveCommitsTraversal funcOp ([], placements) mergeOp).2
    ¬ Reach funcOp.behind
      (fun operand => operand = result.speculator ∨ operand ∈ result.saveCommits) start last := by
  intro result reach
  obtain ⟨covers, isVisited⟩ := @covers_traverse _ _ _ (getSpecRegionTraversalTargets funcOp)
    funcOp.owner (cutBySaveCommit funcOp)
    (fun placements operand => operand = placements.speculator ∨ operand ∈ placements.saveCommits)
    ([], placements) (fun isCut => (cut_cutBySaveCommit isCut).1)
    (fun isCut => (cut_cutBySaveCommit isCut).2) _ _ (Fintype.card Operation + 1) mergeOp
    (Nat.lt_succ_of_le (Finset.card_le_univ _))
  have noBranch := (saveCommitsPlaced_traversal isStart placed).2
  have goesOn : ∀ op ∈ (findSaveCommitsTraversal funcOp ([], placements) mergeOp).1,
      ∀ operand ∈ getSpecRegionTraversalTargets funcOp op,
        ¬ (operand = result.speculator ∨ operand ∈ result.saveCommits) →
          funcOp.owner operand ∈ (findSaveCommitsTraversal funcOp ([], placements) mergeOp).1 := by
    intro op mem operand isTarget free
    have covered := (covers.covered op mem).resolve_left List.not_mem_nil
    exact (covered operand isTarget).resolve_left free
  have visited := goesOn mergeOp isVisited start isTarget reach.free_first
  clear isTarget
  induction reach with
  | here => exact noBranch _ visited isBranch
  | step free edge rest inductionHypothesis =>
      exact inductionHypothesis isBranch (goesOn _ visited _ edge rest.free_first)

/-- Then save-commits cut all ways through the block. -/
theorem saveCommitsPlaced_findSaveCommits (placed : SaveCommitsPlaced funcOp specPos placements)
    (isFound : findSaveCommits funcOp placements = some result) :
    SaveCommitsPlaced funcOp specPos result ∧ CutsBlock funcOp result := by
  obtain ⟨specBB, isBB, isFound⟩ := Option.bind_eq_some_iff.mp isFound
  have mem_iff (op : Operation) : (op ∈ funcOp.operations.filter fun op =>
      funcOp.kind op = .controlMerge ∧ funcOp.logicBB op = some specBB) ↔
        IsBlockStart funcOp specPos op := by
    rw [List.mem_filter, and_iff_right (funcOp.mem_operations op), decide_eq_true_iff, IsBlockStart,
      ← placed.speculator, isBB]
  split at isFound
  · rename_i isNil
    cases isFound
    refine ⟨placed, fun mergeOp isMerge inBlock => ?_⟩
    rw [placed.speculator] at inBlock
    have mem := (mem_iff mergeOp).mpr ⟨isMerge, inBlock⟩
    rw [isNil] at mem
    cases mem
  · rename_i mergeOp isSingle
    cases isFound
    have isStart : IsBlockStart funcOp specPos mergeOp :=
      (mem_iff mergeOp).mp (isSingle ▸ List.mem_singleton_self _)
    have stillPlaced := (saveCommitsPlaced_traversal isStart placed).1
    refine ⟨stillPlaced, fun other isMerge inBlock start isTarget last isBranch => ?_⟩
    rw [stillPlaced.speculator] at inBlock
    have same := (mem_iff other).mpr ⟨isMerge, inBlock⟩
    rw [isSingle, List.mem_singleton] at same
    exact not_reach_traversal isStart placed (same ▸ isTarget) isBranch
  · cases isFound

end SaveCommits

end Dynamatic.Speculation.Placement
