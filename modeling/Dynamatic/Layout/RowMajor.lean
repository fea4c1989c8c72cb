import Mathlib.Algebra.BigOperators.Group.List.Basic
import Mathlib.Algebra.Order.BigOperators.GroupWithZero.List
import Mathlib.Data.List.OfFn
import Mathlib.Tactic.Ring

/-!
# Tensors in row-major order

A tensor is a function of one index for each dimension. Its entries in row-major order
are those of its first row, then those of its second row, and so on. The place of an
entry among them is a sum of the indices, each weighted with the product of the
dimensions after its own.
-/

namespace Dynamatic.Layout

variable {Element : Type}

/-- Each index is smaller than its dimension. -/
abbrev InBounds (indices shape : List Nat) : Prop :=
  List.Forall₂ (· < ·) indices shape

/-- The place of an index tuple when the last dimension varies fastest. -/
def rowMajor : List Nat → List Nat → Nat
  | _ :: shape, index :: indices => index * shape.prod + rowMajor shape indices
  | _, _ => 0

@[simp]
theorem rowMajor_nil (indices : List Nat) : rowMajor [] indices = 0 := by
  simp [rowMajor]

@[simp]
theorem rowMajor_cons (size index : Nat) (shape indices : List Nat) :
    rowMajor (size :: shape) (index :: indices) = index * shape.prod + rowMajor shape indices :=
  rfl

/-! ### Places -/

section Places

variable {indices others shape : List Nat}

/-- A shape with an index tuple has no empty dimension. -/
theorem InBounds.pos (inBounds : InBounds indices shape) : ∀ size ∈ shape, 0 < size := by
  induction inBounds with
  | nil => simp
  | cons below _ inductionHypothesis =>
      intro size mem
      rcases List.mem_cons.mp mem with rfl | mem
      · exact Nat.zero_lt_of_lt below
      · exact inductionHypothesis size mem

/-- The dimensions from a place on have at most as many elements as all of them. -/
theorem prod_drop_le (pos : ∀ size ∈ shape, 0 < size) (first : Nat) :
    (shape.drop first).prod ≤ shape.prod := by
  have whole : (shape.take first).prod * (shape.drop first).prod = shape.prod :=
    List.prod_take_mul_prod_drop shape first
  have before : 0 < (shape.take first).prod :=
    List.prod_pos fun size mem => pos size (List.mem_of_mem_take mem)
  rw [← whole]
  exact Nat.le_mul_of_pos_left _ before

theorem InBounds.drop (inBounds : InBounds indices shape) (first : Nat) :
    InBounds (indices.drop first) (shape.drop first) :=
  List.forall₂_drop first inBounds

/-- The place of an index tuple is smaller than the number of elements. -/
theorem rowMajor_lt (inBounds : InBounds indices shape) :
    rowMajor shape indices < shape.prod := by
  induction inBounds with
  | nil => simp
  | @cons index size indices shape below _ inductionHypothesis =>
      rw [rowMajor_cons, List.prod_cons]
      have row : (index + 1) * shape.prod ≤ size * shape.prod := Nat.mul_le_mul_right _ below
      rw [Nat.add_mul, Nat.one_mul] at row
      omega

private theorem row_of_place {width place : Nat} (index : Nat) (below : place < width) :
    (index * width + place) / width = index := by
  rw [Nat.add_comm, Nat.add_mul_div_right _ _ (Nat.zero_lt_of_lt below), Nat.div_eq_of_lt below,
    Nat.zero_add]

/-- Two index tuples with the same place are equal. -/
theorem rowMajor_injective (inBounds : InBounds indices shape) (othersInBounds : InBounds others shape)
    (same : rowMajor shape indices = rowMajor shape others) : indices = others := by
  induction inBounds generalizing others with
  | nil =>
      cases othersInBounds with
      | nil => rfl
  | @cons index size indices shape _ rest inductionHypothesis =>
      cases othersInBounds with
      | @cons other _ others _ _ othersRest =>
          rw [rowMajor_cons, rowMajor_cons] at same
          have place := rowMajor_lt rest
          have otherPlace := rowMajor_lt othersRest
          have row : index = other := by
            rw [← row_of_place index place, ← row_of_place other otherPlace, same]
          rw [row] at same ⊢
          rw [inductionHypothesis othersRest (Nat.add_left_cancel same)]

end Places

/-! ### Entries -/

section Entries

/-- A tensor with a shape. -/
def Tensor (Element : Type) : List Nat → Type
  | [] => Element
  | size :: shape => Fin size → Tensor Element shape

namespace Tensor

/-- The element at an index tuple. -/
def element? : {shape : List Nat} → Tensor Element shape → List Nat → Option Element
  | [], element, [] => some element
  | size :: _, tensor, index :: indices =>
      if below : index < size then element? (tensor ⟨index, below⟩) indices else none
  | [], _, _ :: _ => none
  | _ :: _, _, [] => none

/-- The elements in row-major order. -/
def entries : {shape : List Nat} → Tensor Element shape → List Element
  | [], element => [element]
  | _ :: _, tensor => (List.ofFn fun index => entries (tensor index)).flatten

/-- The tensor whose elements are read at their places. -/
def ofEntries : (shape : List Nat) → (Nat → Element) → Tensor Element shape
  | [], read => read 0
  | _ :: shape, read => fun index => ofEntries shape fun place => read (index * shape.prod + place)

variable {shape indices : List Nat}

/-- An index tuple within the shape has an element. -/
theorem exists_element? (tensor : Tensor Element shape) (inBounds : InBounds indices shape) :
    ∃ element, tensor.element? indices = some element := by
  induction inBounds with
  | nil => exact ⟨tensor, rfl⟩
  | @cons index size indices shape below _ inductionHypothesis =>
      obtain ⟨element, read⟩ := inductionHypothesis (tensor ⟨index, below⟩)
      exact ⟨element, by rw [element?, dif_pos below, read]⟩

end Tensor

/-- An element of rows of one length, by its row and its place in the row. -/
theorem getElem?_flatten_of_length {rows : List (List Element)} {width place : Nat}
    (len : ∀ row ∈ rows, row.length = width) (below : place < width) (index : Nat) :
    rows.flatten[index * width + place]? = rows[index]?.bind (·[place]?) := by
  induction rows generalizing index with
  | nil => simp
  | cons row rows inductionHypothesis =>
      have rowLength : row.length = width := len row List.mem_cons_self
      rw [List.flatten_cons]
      cases index with
      | zero =>
          rw [List.getElem?_append_left (by omega)]
          simp
      | succ index =>
          have past : row.length ≤ (index + 1) * width + place := by
            rw [rowLength, Nat.succ_mul]
            omega
          have rest : (index + 1) * width + place - row.length = index * width + place := by
            rw [rowLength, Nat.succ_mul]
            omega
          rw [List.getElem?_append_right past, rest,
            inductionHypothesis (fun row mem => len row (List.mem_cons_of_mem _ mem))]
          simp

namespace Tensor

variable {shape indices : List Nat}

theorem length_entries (tensor : Tensor Element shape) : tensor.entries.length = shape.prod := by
  induction shape with
  | nil => rfl
  | cons size shape inductionHypothesis =>
      simp [entries, List.length_flatten, List.map_ofFn, Function.comp_def, inductionHypothesis,
        List.ofFn_const]

/-- The entry at the place of an index tuple is the element at the tuple. -/
theorem getElem?_entries (tensor : Tensor Element shape) (inBounds : InBounds indices shape) :
    tensor.entries[rowMajor shape indices]? = tensor.element? indices := by
  induction inBounds with
  | nil => rfl
  | @cons index size indices shape below rest inductionHypothesis =>
      have len : ∀ row ∈ List.ofFn fun index => entries (tensor index), row.length = shape.prod := by
        intro row mem
        obtain ⟨index, rfl⟩ := (List.mem_ofFn ..).mp mem
        exact length_entries (tensor index)
      rw [rowMajor_cons, entries, getElem?_flatten_of_length len (rowMajor_lt rest), element?,
        dif_pos below, List.getElem?_ofFn, dif_pos below, Option.bind_some]
      exact inductionHypothesis (tensor ⟨index, below⟩)

/-- Rows that are read one after the other make up what is read from all places. -/
theorem flatten_rows (size width : Nat) (read : Nat → Element) :
    (List.ofFn fun index : Fin size =>
        (List.range width).map fun place => read (index * width + place)).flatten
      = (List.range (size * width)).map read := by
  induction size generalizing read with
  | zero => simp
  | succ size inductionHypothesis =>
      have shifted := inductionHypothesis fun place => read (width + place)
      have whole : (size + 1) * width = width + size * width := by ring
      rw [whole, List.range_add, List.map_append, List.map_map, List.ofFn_succ, List.flatten_cons]
      simp only [Function.comp_def, ← shifted]
      simp [Nat.succ_mul, Nat.add_assoc, Nat.add_left_comm]

/-- A tensor that is read from places has the read elements as its entries. -/
theorem entries_ofEntries (shape : List Nat) (read : Nat → Element) :
    (ofEntries shape read).entries = (List.range shape.prod).map read := by
  induction shape generalizing read with
  | nil => rfl
  | cons size shape inductionHypothesis =>
      rw [List.prod_cons, ← flatten_rows]
      simp only [entries, ofEntries, inductionHypothesis]

end Tensor

end Entries

end Dynamatic.Layout
