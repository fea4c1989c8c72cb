import Mathlib.Data.List.Range

/-!
# Merging spans of points

Points on a line have labels. Merging a span gives all its points the label of the first
one; merged in the order of their first points, spans stay merged. The points are then
cut into runs wherever the label changes, so the points of a span end up in one run.
-/

namespace Dynamatic.Spans

/-- All points of a span take the label of the first. -/
def merge (label : Nat → Nat) (span : Nat × Nat) : Nat → Nat := fun point =>
  if span.1 ≤ point ∧ point ≤ span.2 then label span.1 else label point

/-- The labels after merging the spans one after the other; each point starts alone. -/
def mergeAll (spans : List (Nat × Nat)) : Nat → Nat := spans.foldl merge id

/-- The label does not change from the first point of a span to its last. -/
def ConstantOn (label : Nat → Nat) (span : Nat × Nat) : Prop :=
  ∀ point, span.1 ≤ point → point ≤ span.2 → label point = label span.1

section Merging

variable {label : Nat → Nat} {span other : Nat × Nat} {spans : List (Nat × Nat)}

theorem constantOn_merge (proper : span.1 ≤ span.2) : ConstantOn (merge label span) span := by
  intro point least most
  rw [merge, merge, if_pos ⟨least, most⟩, if_pos ⟨Nat.le_refl _, proper⟩]

/-- A span stays merged when another one that starts no earlier is merged. -/
theorem ConstantOn.merge (constant : ConstantOn label span) (later : span.1 ≤ other.1) :
    ConstantOn (Spans.merge label other) span := by
  intro point least most
  have start : Spans.merge label other span.1 = label span.1 := by
    rw [Spans.merge]
    split
    · rename_i inside
      rw [Nat.le_antisymm later inside.1]
    · rfl
  rw [start, Spans.merge]
  split
  · rename_i inside
    exact constant other.1 later (Nat.le_trans inside.1 most)
  · exact constant point least most

private theorem ConstantOn.foldl_merge (constant : ConstantOn label span)
    (later : ∀ other ∈ spans, span.1 ≤ other.1) :
    ConstantOn (spans.foldl Spans.merge label) span := by
  induction spans generalizing label with
  | nil => exact constant
  | cons first rest inductionHypothesis =>
      exact inductionHypothesis (constant.merge (later first (.head _))) fun other mem =>
        later other (.tail _ mem)

/-- Merged in the order of their first points, all spans are merged in the end. -/
theorem constantOn_mergeAll (sorted : spans.Pairwise fun span other => span.1 ≤ other.1)
    (mem : span ∈ spans) (proper : span.1 ≤ span.2) : ConstantOn (mergeAll spans) span := by
  obtain ⟨before, after, rfl⟩ := List.append_of_mem mem
  rw [List.pairwise_append, List.pairwise_cons] at sorted
  rw [mergeAll, List.foldl_append, List.foldl_cons]
  exact (constantOn_merge proper).foldl_merge sorted.2.1.1

end Merging

/-- The points cut wherever the label changes. -/
def runs (label : Nat → Nat) : List Nat → List (List Nat)
  | [] => []
  | point :: rest =>
      match runs label rest with
      | [] => [[point]]
      | run :: others =>
          if run.head?.map label = some (label point) then (point :: run) :: others
          else [point] :: run :: others

section Runs

variable {label : Nat → Nat}

theorem flatten_runs (label : Nat → Nat) (points : List Nat) : (runs label points).flatten = points := by
  induction points with
  | nil => rfl
  | cons point rest inductionHypothesis =>
      rw [runs]
      split
      · rename_i none
        rw [none] at inductionHypothesis
        rw [← inductionHypothesis]
        rfl
      · rename_i run others found
        rw [found] at inductionHypothesis
        rw [← inductionHypothesis]
        split <;> rfl

/-- The label changes on the way from one point to the other. -/
def Separated (label : Nat → Nat) (first last : Nat) : Prop :=
  ∃ point, first ≤ point ∧ point < last ∧ label point ≠ label (point + 1)

theorem Separated.not_constantOn {first last : Nat} (separated : Separated label first last) :
    ¬ ConstantOn label (first, last) := by
  intro constant
  obtain ⟨point, least, most, differs⟩ := separated
  have here := constant point least (Nat.le_of_lt most)
  have next := constant (point + 1) (Nat.le_succ_of_le least) most
  exact differs (here.trans next.symm)

/-- The first run starts at the first point. -/
private theorem head_runs {point : Nat} {rest run : List Nat} {others : List (List Nat)}
    (found : runs label (point :: rest) = run :: others) : ∃ more, run = point :: more := by
  rw [runs] at found
  split at found
  · cases found
    exact ⟨[], rfl⟩
  · split at found
    · cases found
      exact ⟨_, rfl⟩
    · cases found
      exact ⟨[], rfl⟩

/-- No run is empty. -/
theorem ne_nil_of_mem_runs {points run : List Nat} (mem : run ∈ runs label points) : run ≠ [] := by
  induction points generalizing run with
  | nil => cases mem
  | cons point rest inductionHypothesis =>
      rw [runs] at mem
      split at mem
      · rw [List.mem_singleton.mp mem]
        exact List.cons_ne_nil _ _
      · rename_i first others found
        split at mem
        · rcases List.mem_cons.mp mem with rfl | mem
          · exact List.cons_ne_nil _ _
          · exact inductionHypothesis (found ▸ List.mem_cons_of_mem _ mem)
        · rcases List.mem_cons.mp mem with rfl | mem
          · exact List.cons_ne_nil _ _
          · exact inductionHypothesis (found ▸ mem)

/-- There is one run more than there are changes of the label. -/
theorem length_runs (label : Nat → Nat) (start length : Nat) :
    (runs label (List.range' start (length + 1))).length
      = ((List.range' (start + 1) length).filter fun point =>
          label point ≠ label (point - 1)).length + 1 := by
  induction length generalizing start with
  | zero => rfl
  | succ length inductionHypothesis =>
      have later := inductionHypothesis (start + 1)
      rw [List.range'_succ, runs]
      split
      · rename_i none
        rw [none] at later
        cases later
      · rename_i run others found
        obtain ⟨more, rfl⟩ := head_runs (List.range'_succ ▸ found)
        rw [found] at later
        rw [List.range'_succ]
        split
        · rename_i same
          have unchanged : label (start + 1) = label start := Option.some.inj same
          rw [List.filter_cons_of_neg (by simp [unchanged]), ← later]
          rfl
        · rename_i differs
          have changed : label (start + 1) ≠ label start := fun same =>
            differs (congrArg some same)
          rw [List.length_cons, later, List.filter_cons_of_pos (by simp [changed])]
          rfl

/-- Between two runs of consecutive points the label changes. -/
theorem separated_runs (label : Nat → Nat) (start length : Nat) :
    (runs label (List.range' start length)).Pairwise fun run other =>
      ∀ point ∈ run, ∀ last ∈ other, Separated label point last := by
  induction length generalizing start with
  | zero => exact .nil
  | succ length inductionHypothesis =>
      have later := inductionHypothesis (start + 1)
      have beyond : ∀ run ∈ runs label (List.range' (start + 1) length), ∀ point ∈ run,
          start < point := by
        intro run isRun point mem
        have inRange : point ∈ List.range' (start + 1) length := by
          rw [← flatten_runs label (List.range' (start + 1) length)]
          exact List.mem_flatten.mpr ⟨run, isRun, mem⟩
        exact (List.mem_range'_1.mp inRange).1
      rw [List.range'_succ, runs]
      split
      · exact List.pairwise_singleton _ _
      · rename_i run others found
        have starts : ∃ more, run = (start + 1) :: more := by
          cases length with
          | zero => cases found
          | succ length => exact head_runs (List.range'_succ ▸ found)
        obtain ⟨more, rfl⟩ := starts
        rw [found] at later beyond
        rw [List.pairwise_cons] at later
        split
        · refine List.pairwise_cons.mpr ⟨fun other isOther point mem last isLast => ?_, later.2⟩
          cases mem with
          | head =>
              obtain ⟨change, least, most⟩ := later.1 other isOther _ (.head _) last isLast
              exact ⟨change, Nat.le_of_succ_le least, most⟩
          | tail _ mem => exact later.1 other isOther point mem last isLast
        · rename_i differs
          refine List.pairwise_cons.mpr ⟨?_, List.pairwise_cons.mpr later⟩
          intro other isOther point mem last isLast
          cases List.mem_singleton.mp mem
          refine ⟨start, Nat.le_refl _, beyond other isOther last isLast, fun same => differs ?_⟩
          exact congrArg some same.symm

end Runs

end Dynamatic.Spans
