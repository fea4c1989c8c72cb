import Dynamatic.LinearAlgebra.Elimination

/-!
# Integer Gaussian elimination

`gaussianElimination` without divisions: the row with the smallest entry of a column becomes the
pivot row, and the rows below it are scaled by the pivot before a multiple of its row is taken
off. The search for the smallest entry starts at the largest `int`, so that an entry of that
magnitude is never a pivot.
-/

namespace Dynamatic.LinearAlgebra

variable {rows cols : Nat}

/-- `std::numeric_limits<int>::max()`. -/
def intMax : Int := 2147483647

section Operations

variable (m : Matrix (Fin rows) (Fin cols) Int)

/-- The row of the pivot so far and its entry, after another row. -/
def comparePivot (k : Fin cols) (found : Option (Fin rows) × Int) (i : Fin rows) :
    Option (Fin rows) × Int :=
  if m i k ≠ 0 then if |m i k| < |found.2| then (some i, m i k) else found else found

/-- The row from `h` on with the smallest entry in column `k`, and the entry. -/
def findPivot (h : Nat) (k : Fin cols) : Option (Fin rows) × Int :=
  ((List.finRange rows).filter fun i => decide (h ≤ i.val)).foldl (comparePivot m k) (none, intMax)

/-- Two rows change places. -/
def swapRows (pivot other : Fin rows) : Matrix (Fin rows) (Fin cols) Int :=
  m.submatrix (Equiv.swap pivot other) id

/-- The entries of row `h` from column `k` on change their signs. -/
def negateFrom (h : Fin rows) (k : Fin cols) : Matrix (Fin rows) (Fin cols) Int :=
  .of fun i j => if i = h ∧ k ≤ j then m i j * -1 else m i j

/-- The rows below `h` are multiplied by its entry in column `k`, and their own entry there times
row `h` is taken off. Each of them only reads itself and row `h`. -/
def eliminateBelow (h : Fin rows) (k : Fin cols) : Matrix (Fin rows) (Fin cols) Int :=
  .of fun i j => if h < i then m i j * m h k - m i k * m h j else m i j

end Operations

/-- The matrix, the row that is next to get a pivot, and the column to search it in. -/
structure State (rows cols : Nat) where
  matrix : Matrix (Fin rows) (Fin cols) Int
  h : Nat
  k : Nat

/-- One turn of the outer loop, if it is entered. -/
def step (state : State rows cols) : Option (State rows cols) :=
  if inside : state.h < rows ∧ state.k < cols then
    let h : Fin rows := ⟨state.h, inside.1⟩
    let k : Fin cols := ⟨state.k, inside.2⟩
    match findPivot state.matrix state.h k with
    | (none, _) => some { state with k := state.k + 1 }
    | (some pivotRow, pivotValue) =>
      let swapped := swapRows state.matrix pivotRow h
      let positive := if pivotValue < 0 then negateFrom swapped h k else swapped
      some { matrix := eliminateBelow positive h k, h := state.h + 1, k := state.k + 1 }
  else none

/-- Turns of the loop, until it is left. -/
def run : Nat → State rows cols → State rows cols
  | 0, state => state
  | turns + 1, state =>
    match step state with
    | none => state
    | some next => run turns next

/-- The states in which a pivot is searched. -/
def searches : Nat → State rows cols → List (State rows cols)
  | 0, _ => []
  | turns + 1, state =>
    match step state with
    | none => []
    | some next => state :: searches turns next

def start (m : Matrix (Fin rows) (Fin cols) Int) : State rows cols := ⟨m, 0, 0⟩

/-- Every turn takes a column, so the loop is left after as many turns as there are columns. -/
def gaussianElimination (m : Matrix (Fin rows) (Fin cols) Int) :
    Matrix (Fin rows) (Fin cols) Int := (run cols (start m)).matrix

/-- If the column has an entry that is not zero, it has one that the search can find. -/
def PivotInReach (state : State rows cols) : Prop :=
  ∀ k : Fin cols, k = state.k → ∀ i : Fin rows, state.h ≤ i → state.matrix i k ≠ 0 →
    ∃ other : Fin rows, state.h ≤ other ∧ state.matrix other k ≠ 0 ∧
      |state.matrix other k| < intMax

instance (state : State rows cols) : Decidable (PivotInReach state) :=
  inferInstanceAs (Decidable (∀ _ : Fin cols, _ → ∀ _ : Fin rows, _ → _ → ∃ _ : Fin rows, _))

/-- Every search of the elimination can find a pivot where there is one. -/
def PivotsInReach (m : Matrix (Fin rows) (Fin cols) Int) : Prop :=
  ∀ state ∈ searches cols (start m), PivotInReach state

instance (m : Matrix (Fin rows) (Fin cols) Int) : Decidable (PivotsInReach m) :=
  List.decidableBAll _ _

/-! ## The turns -/

section Search

variable {m : Matrix (Fin rows) (Fin cols) Int} {h : Nat} {k : Fin cols}

/-- What the search has found among the rows it has seen. -/
structure Found (m : Matrix (Fin rows) (Fin cols) Int) (k : Fin cols) (seen : List (Fin rows))
    (found : Option (Fin rows) × Int) : Prop where
  none : found.1 = none → found.2 = intMax ∧
    ∀ i ∈ seen, m i k ≠ 0 → intMax ≤ |m i k|
  some : ∀ row, found.1 = some row → row ∈ seen ∧ m row k = found.2 ∧ m row k ≠ 0

theorem found_findPivot : Found m k
    ((List.finRange rows).filter fun i => decide (h ≤ i.val)) (findPivot m h k) := by
  rw [findPivot]
  induction (List.finRange rows).filter fun i => decide (h ≤ i.val) using List.reverseRecOn with
  | nil => exact ⟨fun _ => ⟨rfl, nofun⟩, nofun⟩
  | append_singleton seen row ih =>
    rw [List.foldl_append, List.foldl_cons, List.foldl_nil]
    generalize seen.foldl _ _ = found at ih ⊢
    have earlier : ∀ pivot, found.1 = some pivot →
        pivot ∈ seen ++ [row] ∧ m pivot k = found.2 ∧ m pivot k ≠ 0 := fun pivot present =>
      ⟨List.mem_append_left _ (ih.some pivot present).1, (ih.some pivot present).2⟩
    by_cases nonzero : m row k ≠ 0
    · by_cases smaller : |m row k| < |found.2|
      · rw [comparePivot, if_pos nonzero, if_pos smaller]
        refine ⟨nofun, fun pivot present => ?_⟩
        cases present
        exact ⟨by simp, rfl, nonzero⟩
      · rw [comparePivot, if_pos nonzero, if_neg smaller]
        refine ⟨fun missing => ?_, earlier⟩
        obtain ⟨sentinel, large⟩ := ih.none missing
        refine ⟨sentinel, fun i member present => ?_⟩
        rcases List.mem_append.mp member with before | here
        · exact large i before present
        · rw [List.mem_singleton.mp here]
          rw [sentinel] at smaller
          exact not_lt.mp smaller
    · rw [comparePivot, if_neg nonzero]
      refine ⟨fun missing => ⟨(ih.none missing).1, fun i member present => ?_⟩, earlier⟩
      rcases List.mem_append.mp member with before | here
      · exact (ih.none missing).2 i before present
      · exact absurd (List.mem_singleton.mp here ▸ present) nonzero

theorem findPivot_none {pivotValue : Int} (missing : findPivot m h k = (none, pivotValue))
    {i : Fin rows} (after : h ≤ i) (nonzero : m i k ≠ 0) : intMax ≤ |m i k| := by
  have found := @found_findPivot _ _ m h k
  rw [missing] at found
  exact (found.none rfl).2 i (by simp [after]) nonzero

theorem findPivot_some {pivotRow : Fin rows} {pivotValue : Int}
    (present : findPivot m h k = (some pivotRow, pivotValue)) :
    h ≤ pivotRow ∧ m pivotRow k = pivotValue ∧ m pivotRow k ≠ 0 := by
  have found := @found_findPivot _ _ m h k
  rw [present] at found
  obtain ⟨seen, rest⟩ := found.some pivotRow rfl
  exact ⟨by simpa using seen, rest⟩

end Search

/-- What one turn does. -/
inductive Turns (state next : State rows cols) : Prop where
  | skips {k : Fin cols} {pivotValue : Int} (row : state.h < rows) (column : state.k = k)
      (search : findPivot state.matrix state.h k = (none, pivotValue))
      (same : next = { state with k := state.k + 1 })
  | eliminates {h : Fin rows} {k : Fin cols} {pivotRow : Fin rows} {pivotValue : Int}
      (row : state.h = h) (column : state.k = k)
      (search : findPivot state.matrix h k = (some pivotRow, pivotValue))
      (same : next = ⟨eliminateBelow (if pivotValue < 0 then
        negateFrom (swapRows state.matrix pivotRow h) h k else swapRows state.matrix pivotRow h) h k,
        h + 1, k + 1⟩)

variable {state next : State rows cols}

theorem step_turns (steps : step state = some next) : Turns state next := by
  rw [step] at steps
  split at steps
  next inside =>
    dsimp only at steps
    split at steps
    next pivotValue search =>
      exact .skips inside.1 rfl search (Option.some.inj steps).symm
    next pivotRow pivotValue search =>
      exact .eliminates rfl rfl search (Option.some.inj steps).symm
  next => cases steps

theorem step_eq_none (stops : step state = none) : rows ≤ state.h ∨ cols ≤ state.k := by
  rw [step] at stops
  split at stops
  next inside =>
    dsimp only at stops
    split at stops <;> cases stops
  next outside => omega

/-- A turn moves on by a column. -/
theorem Turns.column (turns : Turns state next) : next.k = state.k + 1 := by
  cases turns with
  | skips row column search same => rw [same]
  | eliminates row column search same => rw [same, column]

/-- The loop is left. -/
theorem step_run {turns : Nat} (enough : cols ≤ state.k + turns) :
    step (run turns state) = none := by
  induction turns generalizing state with
  | zero =>
    rw [run, step, dif_neg]
    omega
  | succ turns ih =>
    rw [run]
    split
    next stops => exact stops
    next next steps =>
      have column := (step_turns steps).column
      exact ih (by omega)

/-! ## The null space -/

theorem nullSpace_negateFrom {m : Matrix (Fin rows) (Fin cols) Int} {h : Fin rows} {k : Fin cols}
    (zero : ∀ j < k, m h j = 0) : nullSpace (negateFrom m h k) = nullSpace m := by
  have scaled : negateFrom m h k = .of fun i j =>
      (if i = h then -1 else 1) * m i j + (0 : Int) * m h j := by
    ext i j
    rw [negateFrom, Matrix.of_apply, Matrix.of_apply]
    by_cases here : i = h
    · subst here
      by_cases after : k ≤ j
      · simp [after]
      · simp [after, zero j (not_le.mp after)]
    · simp [here]
  rw [scaled]
  refine nullSpace_combine h _ (fun _ => 0) (fun i => ?_) rfl
  split <;> decide

theorem nullSpace_eliminateBelow {m : Matrix (Fin rows) (Fin cols) Int} {h : Fin rows}
    {k : Fin cols} (nonzero : m h k ≠ 0) : nullSpace (eliminateBelow m h k) = nullSpace m := by
  have combined : eliminateBelow m h k = .of fun i j =>
      (if h < i then m h k else 1) * m i j + (if h < i then -m i k else 0) * m h j := by
    ext i j
    rw [eliminateBelow, Matrix.of_apply, Matrix.of_apply]
    split
    · ring
    · ring
  rw [combined]
  refine nullSpace_combine h _ (fun i => if h < i then -m i k else 0) (fun i => ?_)
    (if_neg (lt_irrefl h))
  split
  · exact nonzero
  · exact one_ne_zero

/-! ## The run -/

/-- What the loop keeps: the rows that are done are in echelon form, and the null space is that of
the matrix at the start. -/
structure Eliminated (m : Matrix (Fin rows) (Fin cols) Int) (state : State rows cols) : Prop where
  echelon : EchelonTo state.matrix state.h state.k
  same : nullSpace state.matrix = nullSpace m

variable {m : Matrix (Fin rows) (Fin cols) Int}

/-- The pivot row is zero before the column, in its new place and with its new sign. -/
theorem EchelonTo.signed {h pivotRow : Fin rows} {k : Fin cols} (echelon : EchelonTo m h k)
    (after : h ≤ pivotRow) (nonzero : m pivotRow k ≠ 0) (negative : Prop) [Decidable negative] :
    let signed := if negative then negateFrom (swapRows m pivotRow h) h k
      else swapRows m pivotRow h
    EchelonTo signed h k ∧ nullSpace signed = nullSpace m ∧ signed h k ≠ 0 := by
  have swappedRow : ∀ i : Fin rows, i < h → swapRows m pivotRow h i = m i := by
    intro i before
    funext j
    rw [swapRows, Matrix.submatrix_apply, id, Equiv.swap_apply_of_ne_of_ne
      (Fin.ne_of_lt (lt_of_lt_of_le before after)) (Fin.ne_of_lt before)]
  have swappedZero : ∀ i, h ≤ i → ∀ j < k, swapRows m pivotRow h i j = 0 := by
    intro i later j before
    refine echelon.below _ ?_ j before
    rcases eq_or_ne i pivotRow with rfl | notPivot
    · rw [Equiv.swap_apply_left]
    · rcases eq_or_ne i h with rfl | notRow
      · rw [Equiv.swap_apply_right]
        exact after
      · rw [Equiv.swap_apply_of_ne_of_ne notPivot notRow]
        exact later
  have swappedPivot : swapRows m pivotRow h h k = m pivotRow k := by
    rw [swapRows, Matrix.submatrix_apply, Equiv.swap_apply_right]
    rfl
  have swapped : nullSpace (swapRows m pivotRow h) = nullSpace m := nullSpace_submatrix _
  intro signed
  by_cases isNegative : negative
  · have isSigned : signed = negateFrom (swapRows m pivotRow h) h k := if_pos isNegative
    rw [isSigned]
    refine ⟨echelon.keep (fun i before => ?_) fun i later j before => ?_, ?_, ?_⟩
    · rw [← swappedRow i before]
      funext j
      exact if_neg fun both => Fin.ne_of_lt before both.1
    · rw [negateFrom, Matrix.of_apply, if_neg fun both => not_lt.mpr both.2 before]
      exact swappedZero i later j before
    · rw [nullSpace_negateFrom (swappedZero h le_rfl), swapped]
    · rw [negateFrom, Matrix.of_apply, if_pos ⟨rfl, le_rfl⟩, swappedPivot]
      exact mul_ne_zero nonzero (by decide)
  · have isSwapped : signed = swapRows m pivotRow h := if_neg isNegative
    rw [isSwapped]
    exact ⟨echelon.keep swappedRow swappedZero, swapped, swappedPivot ▸ nonzero⟩

/-- Rows below a pivot are cleared in its column, and stay zero before it. -/
theorem EchelonTo.eliminateBelow {h : Fin rows} {k : Fin cols} (echelon : EchelonTo m h k)
    (nonzero : m h k ≠ 0) : EchelonTo (eliminateBelow m h k) (h + 1) (k + 1) := by
  have kept : EchelonTo (LinearAlgebra.eliminateBelow m h k) h k := by
    refine echelon.keep (fun i before => ?_) fun i later j before => ?_
    · funext j
      exact if_neg (not_lt.mpr (le_of_lt before))
    · rw [LinearAlgebra.eliminateBelow, Matrix.of_apply, echelon.below i later j before,
        echelon.below h le_rfl j before, zero_mul, mul_zero, sub_zero, ite_self]
  refine kept.pivot ?_ fun i after => ?_
  · rw [LinearAlgebra.eliminateBelow, Matrix.of_apply, if_neg (lt_irrefl h)]
    exact nonzero
  · rw [LinearAlgebra.eliminateBelow, Matrix.of_apply, if_pos after, mul_comm, sub_self]

/-- A turn whose search can find a pivot keeps what is done. -/
theorem Eliminated.turn (eliminated : Eliminated m state) (inReach : PivotInReach state)
    (turns : Turns state next) : Eliminated m next := by
  cases turns with
  | @skips k pivotValue row column search same =>
    subst same
    refine ⟨eliminated.echelon.skip fun i after j here => ?_, eliminated.same⟩
    obtain rfl := Fin.ext (here.trans column)
    by_contra nonzero
    obtain ⟨other, otherAfter, present, small⟩ := inReach j here i after nonzero
    exact absurd (findPivot_none search otherAfter present) (not_le.mpr small)
  | @eliminates h k pivotRow pivotValue row column search same =>
    obtain ⟨after, -, nonzero⟩ := findPivot_some search
    have echelon : EchelonTo state.matrix h k := row ▸ column ▸ eliminated.echelon
    obtain ⟨signed, sameSpace, pivot⟩ := echelon.signed after nonzero (pivotValue < 0)
    subst same
    refine ⟨signed.eliminateBelow pivot, ?_⟩
    rw [nullSpace_eliminateBelow pivot, sameSpace, eliminated.same]

/-- So does a run whose searches all can. -/
theorem Eliminated.run {turns : Nat} (eliminated : Eliminated m state)
    (inReach : ∀ visited ∈ searches turns state, PivotInReach visited) :
    Eliminated m (run turns state) := by
  induction turns generalizing state with
  | zero => exact eliminated
  | succ turns ih =>
    rw [LinearAlgebra.run]
    split
    next stops => exact eliminated
    next next steps =>
      rw [searches, steps] at inReach
      exact ih (eliminated.turn (inReach state (by simp)) (step_turns steps))
        fun visited member => inReach visited (by simp [member])

/-- Elimination ends with a matrix in row echelon form and with the null space of its input, when
each of its searches can find a pivot where there is one. -/
theorem gaussianElimination_solves (inReach : PivotsInReach m) :
    (gaussianElimination m).IsRowEchelon ∧ nullSpace (gaussianElimination m) = nullSpace m := by
  have eliminated : Eliminated m (run cols (start m)) :=
    Eliminated.run ⟨EchelonTo.start m, rfl⟩ inReach
  have stops : step (run cols (start m)) = none := step_run (by simp)
  exact ⟨eliminated.echelon.isRowEchelon (step_eq_none stops), eliminated.same⟩

/-- A matrix with a column of zeros, a negative pivot and dependent rows. -/
def dependentRows : Matrix (Fin 3) (Fin 4) Int :=
  !![0, 4, 2, 6; 0, -2, 3, 1; 0, 2, 5, 7]

theorem gaussianElimination_solves_dependentRows :
    (gaussianElimination dependentRows).IsRowEchelon ∧
      nullSpace (gaussianElimination dependentRows) = nullSpace dependentRows :=
  gaussianElimination_solves (by decide)

/-- Two rows with the largest `int` in their one column. -/
def largestEntries : Matrix (Fin 2) (Fin 1) Int := !![2147483647; 2147483647]

/-- The largest `int` is never a pivot, so a column of it is left as it is. -/
theorem gaussianElimination_not_echelon :
    ¬ ∀ (rows cols : Nat) (m : Matrix (Fin rows) (Fin cols) Int),
      (gaussianElimination m).IsRowEchelon ∧ nullSpace (gaussianElimination m) = nullSpace m := by
  intro claim
  have echelon := (claim 2 1 largestEntries).1
  have cleared := @echelon 0 1 (by decide) 0 (by decide)
  exact absurd cleared (by decide)

end Dynamatic.LinearAlgebra
