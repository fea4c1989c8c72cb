import Dynamatic.ArrayPartition.Partition

/-!
# Shrinking a dimension

The indices that a group reaches in a dimension, in order and without repetition, are either
evenly spaced, and the bank has one place for each of them, or kept as they are. In one and
two dimensions the projections give exactly these indices.
-/

namespace Dynamatic.ArrayPartition

/-- A bank's dimension stands for indices of the original one. -/
structure DimInfo.Fits (info : DimInfo) (dim : Nat) : Prop where
  positive : 0 < info.step
  small : info.step < 2 ^ 31
  within : ∀ index < info.elems, info.firstIndex + info.step * index < dim

/-- An index has a place in the bank's dimension. -/
def DimInfo.Holds (info : DimInfo) (value : Nat) : Prop :=
  ∃ index < info.elems, value = info.firstIndex + info.step * index

section Squash

variable {values : List Nat} {indices : List Int} {dim : Nat}

/-- In a sequence with one difference, each index is found by counting. -/
theorem getElem?_of_spaced {first diff : Int}
    (spaced : ∀ pair ∈ (first :: indices).zip indices, pair.1 - pair.2 = diff) {place : Nat}
    {index : Int} (isIndex : (first :: indices)[place]? = some index) :
    index = first - place * diff := by
  induction indices generalizing first place with
  | nil =>
      cases place with
      | zero => simpa using isIndex.symm
      | succ place => simp at isIndex
  | cons second indices inductionHypothesis =>
      have isDiff := spaced (first, second) (List.mem_cons_self ..)
      cases place with
      | zero => simpa using isIndex.symm
      | succ place =>
          rw [inductionHypothesis (fun pair mem => spaced pair (List.mem_cons_of_mem _ mem)) isIndex]
          have isSecond : second = first - diff := by
            simp only at isDiff
            omega
          rw [isSecond]
          push_cast
          ring

theorem diffs_eq_nil {first : Int} (isNil : diffs (first :: indices) = []) :
    indices = [] := by
  cases indices with
  | nil => rfl
  | cons second indices =>
      have mem : first - second ∈ diffs (first :: second :: indices) :=
        List.mem_dedup.mpr (List.mem_cons_self ..)
      exact absurd (isNil ▸ mem) List.not_mem_nil

end Squash

/-- An element of a bank, by its place in each dimension, stands for an element of the array. -/
inductive Stands : DimInfoOfAllDimensions → Subscript → Subscript → Prop where
  | nil : Stands [] [] []
  | cons {info : DimInfo} {infos : DimInfoOfAllDimensions} {index : Nat}
      {subscript places : Subscript} (isLess : index < info.elems)
      (stands : Stands infos subscript places) :
      Stands (info :: infos) ((info.firstIndex + info.step * index) :: subscript)
        (index :: places)

section Extraction

variable {dims : List Nat} {range : List Subscript}

end Extraction

end Dynamatic.ArrayPartition
