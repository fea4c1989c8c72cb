import Dynamatic.Layout.RowMajor
import Mathlib.Data.BitVec
import Mathlib.Data.List.GetD
import Mathlib.Data.Nat.Log

/-!
# Flattening of memrefs

The pass gives every memref of a static shape a single dimension. An access gets one
linear index, which is built from the operations on its indices, and the initial value
of a global is reshaped. Both follow the row-major order, so an access finds the element
that it found before.
-/

namespace Dynamatic.FlattenMemRef

open Layout

/-! ### Memrefs and globals -/

/-- A static shape; the number of its elements is an integer of 64 bits with a sign. -/
structure StaticShape where
  dims : List Nat
  numElements_lt : dims.prod < 2 ^ 63

namespace StaticShape

def numElements (shape : StaticShape) : Nat :=
  shape.dims.prod

/-- The shape with as many elements and a single dimension. -/
def flat (shape : StaticShape) : StaticShape where
  dims := [shape.numElements]
  numElements_lt := by simpa [numElements] using shape.numElements_lt

end StaticShape

inductive Shape where
  | static (shape : StaticShape)
  | dynamic (rank : Nat)

inductive ElementType where
  | integer (width : Nat)
  | float (width : Nat)
  | index
  deriving DecidableEq, Repr

structure MemRefType where
  shape : Shape
  elementType : ElementType

def MemRefType.rank (type : MemRefType) : Nat :=
  match type.shape with
  | .static shape => shape.dims.length
  | .dynamic rank => rank

def isUniDimensional (memref : MemRefType) : Bool :=
  memref.rank == 1

/-- The elements of a constant tensor. -/
structure DenseElementsAttr (Element : Type) where
  shape : List Nat
  tensor : Tensor Element shape

namespace DenseElementsAttr

variable {Element : Type}

def element? (attr : DenseElementsAttr Element) (indices : List Nat) : Option Element :=
  attr.tensor.element? indices

def entries (attr : DenseElementsAttr Element) : List Element :=
  attr.tensor.entries

end DenseElementsAttr

inductive Attribute (Element : Type) where
  | denseElements (attr : DenseElementsAttr Element)
  | other (text : String)

structure GlobalOp (Element : Type) where
  symName : String
  symVisibility : Option String
  type : MemRefType
  initialValue : Option (Attribute Element)
  constant : Bool
  alignment : Option Nat

/-- The element that a global starts with at an index tuple. -/
def GlobalOp.element? {Element : Type} (op : GlobalOp Element) (indices : List Nat) :
    Option Element :=
  match op.initialValue with
  | some (.denseElements attr) => attr.element? indices
  | _ => none

/-! ### Indices -/

/-- The operations that compute a linear index from the indices of an access. -/
inductive IndexTree where
  | constant (value : BitVec 64)
  | operand (position : Nat)
  | shiftLeft (value amount : IndexTree)
  | mul (left right : IndexTree)
  | add (left right : IndexTree)
  deriving DecidableEq, Repr

/-- What the operations give for the indices of an access. -/
def IndexTree.evaluate (indices : List (BitVec 64)) : IndexTree → BitVec 64
  | constant value => value
  | operand position => indices.getD position 0
  | shiftLeft value amount => value.evaluate indices <<< amount.evaluate indices
  | mul left right => left.evaluate indices * right.evaluate indices
  | add left right => left.evaluate indices + right.evaluate indices

/-- An index times the product of the dimensions after its own. -/
def partialIndex (memIdx : Nat) (dimProduct : BitVec 64) : IndexTree :=
  if dimProduct.toNat.isPowerOfTwo then
    .shiftLeft (.operand memIdx) (.constant (BitVec.ofNat 64 (Nat.log2 dimProduct.toNat)))
  else .mul (.operand memIdx) (.constant dimProduct)

/-- The indices before a place are added to what has been accumulated, the last one first. -/
def accumulateIndices (shape : List Nat) : Nat → BitVec 64 → IndexTree → IndexTree
  | 0, _, accumulated => accumulated
  | memIdx + 1, dimProduct, accumulated =>
      let dimProduct := dimProduct * BitVec.ofNat 64 (shape.getD (memIdx + 1) 0)
      accumulateIndices shape memIdx dimProduct
        (.add accumulated (partialIndex memIdx dimProduct))

def flattenIndices (memrefType : StaticShape) (numIndices : Nat) : IndexTree :=
  if numIndices = 0 then .constant 0
  else if numIndices = 1 then .operand 0
  else accumulateIndices memrefType.dims (numIndices - 1) 1 (.operand (numIndices - 1))

/-! ### Conversions -/

/-- The index that an access of several dimensions is left with. -/
def convertAccess (type : MemRefType) (numIndices : Nat) : Option IndexTree :=
  match type.shape with
  | .dynamic _ => none
  | .static shape =>
      if isUniDimensional type ∨ numIndices = 1 then none
      else some (flattenIndices shape numIndices)

section Conversion

variable {Element : Type}
  (reshape : DenseElementsAttr Element → List Nat → DenseElementsAttr Element)

/-- A global of several dimensions becomes one of a single dimension, with its initial value. -/
def convertGlobal (op : GlobalOp Element) : Option (GlobalOp Element) :=
  match op.type.shape with
  | .dynamic _ => none
  | .static shape =>
      if isUniDimensional op.type then none
      else
        let newType : MemRefType := { op.type with shape := .static shape.flat }
        match op.initialValue with
        | some (.denseElements denseAttr) =>
            some { op with
              type := newType
              initialValue := some (.denseElements (reshape denseAttr [shape.numElements])) }
        | initialValue => some { op with type := newType, initialValue := initialValue }

/-- Reshaping to as many elements keeps the elements in their row-major order. -/
structure KeepsData : Prop where
  shape_reshape : ∀ attr newShape, newShape.prod = attr.shape.prod →
    (reshape attr newShape).shape = newShape
  entries_reshape : ∀ attr newShape, newShape.prod = attr.shape.prod →
    (reshape attr newShape).entries = attr.entries

/-- The elements are read again in row-major order. -/
def reshapeRowMajor [Inhabited Element] (attr : DenseElementsAttr Element)
    (newShape : List Nat) : DenseElementsAttr Element where
  shape := newShape
  tensor := Tensor.ofEntries newShape fun place => attr.entries.getD place default

theorem keepsData_reshapeRowMajor [Inhabited Element] :
    KeepsData (reshapeRowMajor : DenseElementsAttr Element → List Nat → _) where
  shape_reshape := fun _ _ _ => rfl
  entries_reshape := by
    intro attr newShape same
    have len : attr.entries.length = newShape.prod := by
      rw [same]
      exact Tensor.length_entries attr.tensor
    apply List.ext_getElem?
    intro place
    rw [DenseElementsAttr.entries, reshapeRowMajor, Tensor.entries_ofEntries]
    by_cases below : place < newShape.prod
    · simp [below, len ▸ below]
    · rw [List.getElem?_eq_none (by simpa using below), List.getElem?_eq_none (by omega)]

end Conversion

/-! ### Linear indices -/

section LinearIndices

variable {indices : List (BitVec 64)} {shape : StaticShape}

/-- A shift by the logarithm of a power of two is the multiplication with it. -/
theorem evaluate_partialIndex (memIdx : Nat) (dimProduct : BitVec 64) :
    (partialIndex memIdx dimProduct).evaluate indices = indices.getD memIdx 0 * dimProduct := by
  rw [partialIndex]
  split
  · rename_i isPower
    obtain ⟨exponent, power⟩ := isPower
    have small : exponent < 64 := by
      have bound := dimProduct.isLt
      rw [power] at bound
      exact (Nat.pow_lt_pow_iff_right (by decide)).mp bound
    have amount : exponent % 18446744073709551616 = exponent := Nat.mod_eq_of_lt (by omega)
    apply BitVec.eq_of_toNat_eq
    simp [IndexTree.evaluate, power, Nat.log2_two_pow, amount, Nat.shiftLeft_eq]
  · rfl

/-- The value of the index at a place. -/
private theorem toNat_getD (memIdx : Nat) :
    (indices.getD memIdx 0).toNat = (indices.map BitVec.toNat).getD memIdx 0 := by
  rw [List.getD_eq_getElem?_getD, List.getD_eq_getElem?_getD, List.getElem?_map]
  cases indices[memIdx]? <;> rfl

/-- What has been accumulated from a place on is the row-major place within the dimensions
from there on. -/
theorem toNat_accumulateIndices (inBounds : InBounds (indices.map BitVec.toNat) shape.dims)
    {memIdx : Nat} {dimProduct : BitVec 64} {accumulated : IndexTree}
    (below : memIdx < shape.dims.length)
    (product : dimProduct.toNat = (shape.dims.drop (memIdx + 1)).prod)
    (place : (accumulated.evaluate indices).toNat
      = rowMajor (shape.dims.drop memIdx) ((indices.map BitVec.toNat).drop memIdx)) :
    ((accumulateIndices shape.dims memIdx dimProduct accumulated).evaluate indices).toNat
      = rowMajor shape.dims (indices.map BitVec.toNat) := by
  have len := inBounds.length_eq
  have fits : ∀ first, (shape.dims.drop first).prod < 2 ^ 63 := fun first =>
    (prod_drop_le inBounds.pos first).trans_lt shape.numElements_lt
  induction memIdx generalizing dimProduct accumulated with
  | zero => simpa [accumulateIndices] using place
  | succ memIdx inductionHypothesis =>
      have product' : (dimProduct * BitVec.ofNat 64 (shape.dims.getD (memIdx + 1) 0)).toNat
          = (shape.dims.drop (memIdx + 1)).prod := by
        have whole := fits (memIdx + 1)
        rw [List.drop_eq_getElem_cons below, List.prod_cons] at whole ⊢
        rw [List.getD_eq_getElem _ _ below, BitVec.toNat_mul, product, BitVec.toNat_ofNat,
          Nat.mul_mod_mod, Nat.mul_comm, Nat.mod_eq_of_lt (by omega)]
      rw [accumulateIndices]
      refine inductionHypothesis (by omega) product' ?_
      have memBelow : memIdx < shape.dims.length := by omega
      have mapBelow : memIdx < (indices.map BitVec.toNat).length := by omega
      have bound := rowMajor_lt (inBounds.drop memIdx)
      have whole := fits memIdx
      rw [List.drop_eq_getElem_cons memBelow, List.drop_eq_getElem_cons mapBelow] at bound ⊢
      rw [List.drop_eq_getElem_cons memBelow] at whole
      rw [rowMajor_cons] at bound ⊢
      rw [IndexTree.evaluate, BitVec.toNat_add, evaluate_partialIndex, BitVec.toNat_mul, product',
        toNat_getD, place, List.getD_eq_getElem _ _ mapBelow, Nat.add_mod_mod, Nat.add_comm,
        Nat.mod_eq_of_lt (by omega)]

/-- The flat index of an access is the row-major place of its indices. -/
theorem toNat_flattenIndices (inBounds : InBounds (indices.map BitVec.toNat) shape.dims) :
    ((flattenIndices shape indices.length).evaluate indices).toNat
      = rowMajor shape.dims (indices.map BitVec.toNat) := by
  have len := inBounds.length_eq
  rw [List.length_map] at len
  rw [flattenIndices]
  split
  · rename_i empty
    have noDims : shape.dims = [] := List.length_eq_zero_iff.mp (len ▸ empty)
    rw [noDims, rowMajor_nil]
    rfl
  · split
    · rename_i single
      obtain ⟨index, rfl⟩ := List.length_eq_one_iff.mp single
      obtain ⟨size, dims⟩ := List.length_eq_one_iff.mp (len ▸ single)
      simp [dims, IndexTree.evaluate]
    · have last : indices.length - 1 < shape.dims.length := by omega
      have mapLast : indices.length - 1 < (indices.map BitVec.toNat).length := by
        rw [List.length_map]
        omega
      have noneAfter : shape.dims.drop (indices.length - 1 + 1) = [] :=
        List.drop_eq_nil_of_le (by omega)
      refine toNat_accumulateIndices inBounds last (by simp [noneAfter]) ?_
      rw [List.drop_eq_getElem_cons last, List.drop_eq_getElem_cons mapLast, noneAfter,
        IndexTree.evaluate, toNat_getD, List.getD_eq_getElem _ _ mapLast]
      simp

end LinearIndices

/-! ### Globals -/

section Globals

variable {Element : Type}
  {reshape : DenseElementsAttr Element → List Nat → DenseElementsAttr Element}
  {op : GlobalOp Element} {attr : DenseElementsAttr Element} {shape : StaticShape}
  {indices : List Nat}

theorem DenseElementsAttr.getElem?_entries (inBounds : InBounds indices attr.shape) :
    attr.entries[rowMajor attr.shape indices]? = attr.element? indices :=
  Tensor.getElem?_entries attr.tensor inBounds

/-- An initial value of a single dimension has at each place the element of the tuple that
belongs there. -/
theorem element?_reshape (keeps : KeepsData reshape) (inBounds : InBounds indices attr.shape) :
    (reshape attr [attr.shape.prod]).element? [rowMajor attr.shape indices]
      = attr.element? indices := by
  have sameCount : [attr.shape.prod].prod = attr.shape.prod := List.prod_singleton
  have newShape := keeps.shape_reshape attr _ sameCount
  have flatInBounds : InBounds [rowMajor attr.shape indices]
      (reshape attr [attr.shape.prod]).shape := by
    rw [newShape]
    exact List.Forall₂.cons (rowMajor_lt inBounds) List.Forall₂.nil
  have flatPlace : rowMajor (reshape attr [attr.shape.prod]).shape [rowMajor attr.shape indices]
      = rowMajor attr.shape indices := by
    rw [newShape]
    simp
  rw [← DenseElementsAttr.getElem?_entries flatInBounds, flatPlace,
    keeps.entries_reshape attr _ sameCount, DenseElementsAttr.getElem?_entries inBounds]

/-- The converted global has at the row-major place of a tuple what it had at the tuple. -/
theorem element?_convertGlobal (keeps : KeepsData reshape)
    (static : op.type.shape = .static shape)
    (dense : op.initialValue = some (.denseElements attr)) (typed : attr.shape = shape.dims)
    (inBounds : InBounds indices shape.dims) :
    ((convertGlobal reshape op).getD op).element? [rowMajor shape.dims indices]
      = attr.element? indices := by
  rw [convertGlobal, static]
  dsimp only
  split
  · rename_i single
    have oneDim : shape.dims.length = 1 := by
      simpa [isUniDimensional, MemRefType.rank, static] using single
    obtain ⟨size, dims⟩ := List.length_eq_one_iff.mp oneDim
    obtain ⟨index, rfl⟩ := List.length_eq_one_iff.mp (inBounds.length_eq.trans oneDim)
    simp [GlobalOp.element?, dense, dims]
  · rw [dense, ← typed]
    simp only [Option.getD_some, GlobalOp.element?, StaticShape.numElements, ← typed]
    exact element?_reshape keeps (typed ▸ inBounds)

/-- Flat indices are within the elements, differ for different tuples, and find in the converted
global what the tuple found. -/
theorem flattenIndices_faithful {indices : List (BitVec 64)} (keeps : KeepsData reshape)
    (inBounds : InBounds (indices.map BitVec.toNat) shape.dims) :
    let flatIndex (operands : List (BitVec 64)) :=
      (flattenIndices shape operands.length).evaluate operands
    (flatIndex indices).toNat < shape.numElements ∧
      (∀ others : List (BitVec 64), InBounds (others.map BitVec.toNat) shape.dims →
        flatIndex others = flatIndex indices → others = indices) ∧
      ∀ (op : GlobalOp Element) (attr : DenseElementsAttr Element),
        op.type.shape = .static shape → op.initialValue = some (.denseElements attr) →
        attr.shape = shape.dims →
        ∃ element, attr.element? (indices.map BitVec.toNat) = some element ∧
          ((convertGlobal reshape op).getD op).element? [(flatIndex indices).toNat]
            = some element := by
  intro flatIndex
  have place := toNat_flattenIndices inBounds
  refine ⟨place ▸ rowMajor_lt inBounds, ?_, ?_⟩
  · intro others othersInBounds same
    have samePlace := congrArg BitVec.toNat same
    rw [toNat_flattenIndices othersInBounds, place] at samePlace
    have sameIndices := rowMajor_injective othersInBounds inBounds samePlace
    exact List.map_injective_iff.mpr BitVec.toNat_injective sameIndices
  · intro op attr static dense typed
    obtain ⟨element, read⟩ := Tensor.exists_element? attr.tensor (typed ▸ inBounds)
    refine ⟨element, read, ?_⟩
    rw [place, element?_convertGlobal keeps static dense typed inBounds]
    exact read

theorem flattenIndices_faithful_threeByFour :
    let shape : StaticShape := ⟨[3, 4], by decide⟩
    let flatIndex (operands : List (BitVec 64)) :=
      (flattenIndices shape operands.length).evaluate operands
    (flatIndex [2, 1]).toNat < shape.numElements ∧
      (∀ others : List (BitVec 64), InBounds (others.map BitVec.toNat) shape.dims →
        flatIndex others = flatIndex [2, 1] → others = [2, 1]) ∧
      ∀ (op : GlobalOp Nat) (attr : DenseElementsAttr Nat),
        op.type.shape = .static shape → op.initialValue = some (.denseElements attr) →
        attr.shape = shape.dims →
        ∃ element, attr.element? [2, 1] = some element ∧
          ((convertGlobal reshapeRowMajor op).getD op).element? [(flatIndex [2, 1]).toNat]
            = some element :=
  flattenIndices_faithful keepsData_reshapeRowMajor
    (List.Forall₂.cons (by decide) (List.Forall₂.cons (by decide) List.Forall₂.nil))

end Globals

end Dynamatic.FlattenMemRef
