import Dynamatic.ArrayPartition.Shrinking

/-!
# Rewriting an address computation

Where an address computation names the array type with a zero and one subscript for each
dimension, one rewriting leads it to the place in the bank that stands for its element, and
the bank of a global holds the value of this element there.
-/

namespace Dynamatic.ArrayPartition

variable {info : DimInfo} {infos : DimInfoOfAllDimensions} {dims : List Nat}
  {subscript places : Subscript} {valuation : Valuation}

section Places

theorem Stands.inBounds (stands : Stands infos subscript places) :
    InBounds (infos.map DimInfo.elems) places := by
  induction stands with
  | nil => exact .nil
  | cons isLess _ inductionHypothesis => exact .cons isLess inductionHypothesis

theorem Stands.original (stands : Stands infos subscript places) :
    ((infos.zip places).map fun (info, index) => info.firstIndex + info.step * index) =
      subscript := by
  induction stands with
  | nil => rfl
  | cons _ _ inductionHypothesis => exact congrArg _ inductionHypothesis

/-- The first element has the first place. -/
theorem Stands.zero (stands : Stands infos subscript places)
    (fits : List.Forall₂ DimInfo.Fits infos dims) (zero : ∀ index ∈ subscript, index = 0) :
    position (infos.map DimInfo.elems) places = 0 := by
  induction stands generalizing dims with
  | nil => rfl
  | @cons info infos index subscript places isLess _ inductionHypothesis =>
      cases fits with
      | cons fit fits =>
          have isZero := zero _ (List.mem_cons_self ..)
          have isFirst : index = 0 := by
            have isProduct := (Nat.add_eq_zero_iff.mp isZero).2
            exact (Nat.mul_eq_zero.mp isProduct).resolve_left fit.positive.ne'
          rw [List.map_cons, position, isFirst, Nat.zero_mul, Nat.zero_add]
          exact inductionHypothesis fits fun index mem => zero index (List.mem_cons_of_mem _ mem)

end Places

section Operands

end Operands

section Geps

variable {gep changed : GetElementPtr} {pointer : Pointer}

/-- The address computation names an array with a zero and a subscript for each dimension. -/
def GetElementPtr.IsWhole (gep : GetElementPtr) (dims : List Nat) : Prop :=
  gep.sourceElementType = dims ∧
    ∃ operands, gep.indices = .constant 0#64 :: operands ∧ operands.length = dims.length

end Geps

section Contents

variable {initializer : Constant} {indices : Subscript}

/-- A constant array that spells out all its elements. -/
def Constant.Spelled : List Nat → Constant → Prop
  | [dim], constantDataArray elements => elements.length = dim
  | dim :: next :: dims, constantArray operands =>
      operands.length = dim ∧ ∀ operand ∈ operands, operand.Spelled (next :: dims)
  | _, _ => False

private theorem exists_mapM {α β : Type} {items : List α} {make : α → Option β}
    {good : α → β → Prop} (all : ∀ item ∈ items, ∃ made, make item = some made ∧ good item made) :
    ∃ made, items.mapM make = some made ∧ List.Forall₂ good items made := by
  induction items with
  | nil => exact ⟨[], rfl, .nil⟩
  | cons item items inductionHypothesis =>
      obtain ⟨first, isFirst, isGood⟩ := all item (List.mem_cons_self ..)
      obtain ⟨made, isMade, areGood⟩ :=
        inductionHypothesis fun other mem => all other (List.mem_cons_of_mem _ mem)
      exact ⟨first :: made, by rw [List.mapM_cons, isFirst, isMade]; rfl, .cons isGood areGood⟩

end Contents

end Dynamatic.ArrayPartition
