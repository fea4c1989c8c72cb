import Mathlib.Data.Rat.Cast.Lemmas
import Mathlib.LinearAlgebra.Matrix.Echelon.Basic
import Mathlib.LinearAlgebra.Matrix.ToLin

/-!
# Elimination of rows

What holds of a matrix while rows are eliminated column by column, and why row operations with
integer coefficients keep the rational null space.
-/

namespace Dynamatic.LinearAlgebra

variable {rows cols : Nat}

section Echelon

variable {R : Type} [Zero R] {m other : Matrix (Fin rows) (Fin cols) R} {h k : Nat}

/-- The rows before `h` are in echelon form with their leading entries before column `k`, and the
others are zero before `k`. -/
structure EchelonTo (m : Matrix (Fin rows) (Fin cols) R) (h k : Nat) : Prop where
  below : ∀ i : Fin rows, h ≤ i → ∀ j : Fin cols, j < k → m i j = 0
  leading : ∀ i : Fin rows, i < h → ∃ lead : Fin cols, lead < k ∧ m i lead ≠ 0 ∧
    ∀ under, i < under → ∀ j ≤ lead, m under j = 0

theorem EchelonTo.start (m : Matrix (Fin rows) (Fin cols) R) : EchelonTo m 0 0 :=
  ⟨fun _ _ _ before => absurd before (Nat.not_lt_zero _),
    fun _ before => absurd before (Nat.not_lt_zero _)⟩

/-- The rows from `h` on may change as long as they stay zero before `k`. -/
theorem EchelonTo.keep (echelon : EchelonTo m h k) (same : ∀ i : Fin rows, i < h → other i = m i)
    (zero : ∀ i : Fin rows, h ≤ i → ∀ j : Fin cols, j < k → other i j = 0) :
    EchelonTo other h k := by
  refine ⟨zero, fun i before => ?_⟩
  obtain ⟨lead, inside, nonzero, cleared⟩ := echelon.leading i before
  refine ⟨lead, inside, same i before ▸ nonzero, fun under later j upTo => ?_⟩
  by_cases also : under < h
  · rw [same under also]
    exact cleared under later j upTo
  · exact zero under (by omega) j (Nat.lt_of_le_of_lt upTo inside)

/-- A column without a pivot is skipped. -/
theorem EchelonTo.skip (echelon : EchelonTo m h k)
    (zero : ∀ i : Fin rows, h ≤ i → ∀ j : Fin cols, j = k → m i j = 0) :
    EchelonTo m h (k + 1) := by
  refine ⟨fun i after j before => ?_, fun i before => ?_⟩
  · rcases Nat.lt_succ_iff_lt_or_eq.mp before with earlier | here
    · exact echelon.below i after j earlier
    · exact zero i after j here
  · obtain ⟨lead, inside, rest⟩ := echelon.leading i before
    exact ⟨lead, Nat.lt_succ_of_lt inside, rest⟩

/-- A pivot over a column that is cleared below it is another leading entry. -/
theorem EchelonTo.pivot {row : Fin rows} {column : Fin cols} (echelon : EchelonTo m row column)
    (nonzero : m row column ≠ 0) (cleared : ∀ i, row < i → m i column = 0) :
    EchelonTo m (row + 1) (column + 1) := by
  have below : ∀ i, row < i → ∀ j ≤ column, m i j = 0 := by
    intro i after j upTo
    rcases Nat.lt_or_eq_of_le upTo with before | here
    · exact echelon.below i (Nat.le_of_lt after) j before
    · rw [Fin.ext here]
      exact cleared i after
  refine ⟨fun i after j before => below i after j (Nat.lt_succ_iff.mp before), fun i before => ?_⟩
  rcases Nat.lt_succ_iff_lt_or_eq.mp before with earlier | here
  · obtain ⟨lead, inside, rest⟩ := echelon.leading i earlier
    exact ⟨lead, Nat.lt_succ_of_lt inside, rest⟩
  · obtain rfl := Fin.ext here
    exact ⟨column, Nat.lt_succ_self _, nonzero, below⟩

/-- When the rows or the columns are used up, the matrix is in row echelon form. -/
theorem EchelonTo.isRowEchelon (echelon : EchelonTo m h k) (done : rows ≤ h ∨ cols ≤ k) :
    m.IsRowEchelon := by
  intro upper lower order j zero
  by_cases before : upper.val < h
  · obtain ⟨lead, -, nonzero, cleared⟩ := echelon.leading upper before
    exact cleared lower order j (not_lt.mp fun left => nonzero (zero lead left))
  · have column := j.isLt
    have row := upper.isLt
    exact echelon.below lower (by omega) j (by omega)

end Echelon

section NullSpace

variable (m : Matrix (Fin rows) (Fin cols) Int)

/-- The rational vectors that the matrix takes to zero. -/
noncomputable def nullSpace : Submodule ℚ (Fin cols → ℚ) :=
  LinearMap.ker (m.map ((↑) : Int → ℚ)).mulVecLin

variable {m}

theorem mem_nullSpace {x : Fin cols → ℚ} :
    x ∈ nullSpace m ↔ ∀ i, ∑ j, (m i j : ℚ) * x j = 0 := by
  rw [nullSpace, LinearMap.mem_ker]
  exact funext_iff

/-- The order of the rows does not matter. -/
theorem nullSpace_submatrix (order : Equiv.Perm (Fin rows)) :
    nullSpace (m.submatrix order id) = nullSpace m := by
  ext x
  rw [mem_nullSpace, mem_nullSpace]
  exact order.forall_congr fun _ => Iff.rfl

/-- Rows may be scaled, and have a multiple of one row added to them. -/
theorem nullSpace_combine (row : Fin rows) (scale add : Fin rows → Int)
    (nonzero : ∀ i, scale i ≠ 0) (alone : add row = 0) :
    nullSpace (.of fun i j => scale i * m i j + add i * m row j) = nullSpace m := by
  ext x
  rw [mem_nullSpace, mem_nullSpace]
  have combined : ∀ i, ∑ j, ((scale i * m i j + add i * m row j : Int) : ℚ) * x j =
      scale i * ∑ j, (m i j : ℚ) * x j + add i * ∑ j, (m row j : ℚ) * x j := by
    intro i
    rw [Finset.mul_sum, Finset.mul_sum, ← Finset.sum_add_distrib]
    refine Finset.sum_congr rfl fun j _ => ?_
    push_cast
    ring
  simp only [Matrix.of_apply, combined]
  constructor
  · intro zero i
    have rowZero : ∑ j, (m row j : ℚ) * x j = 0 := by
      have here := zero row
      rw [alone, Int.cast_zero, zero_mul, add_zero] at here
      exact (mul_eq_zero.mp here).resolve_left (Int.cast_ne_zero.mpr (nonzero row))
    have here := zero i
    rw [rowZero, mul_zero, add_zero] at here
    exact (mul_eq_zero.mp here).resolve_left (Int.cast_ne_zero.mpr (nonzero i))
  · intro zero i
    rw [zero i, zero row, mul_zero, mul_zero, add_zero]

end NullSpace

end Dynamatic.LinearAlgebra
