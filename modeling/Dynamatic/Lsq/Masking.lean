import Dynamatic.Lsq.Operators

/-!
# The layouts of the cyclic priority mask

`CyclicPriorityMasking` takes an array of vectors, which it masks column by column, an array of
bits or a vector, and goes upward from the base or, for bits and vectors, downward. Whatever the
layout and the direction, the mask keeps the first bit that is set on the way around from the base.
-/

namespace Dynamatic.Lsq

open Dynamatic.Clocked

variable {slots : Nat}

/-- The layouts of `din` and `dout`; a `LogicVecArray` has a vector in each slot. -/
inductive Signal (slots : Nat) where
  | logicVecArray (size : Nat) (vectors : Fin slots → BitVec size)
  | logicArray (bits : Fin slots → Bool)
  | logicVec (vector : BitVec slots)

namespace Signal

/-- The columns that are masked separately. -/
def columns : Signal slots → Nat
  | logicVecArray size _ => size
  | logicArray _ => 1
  | logicVec _ => 1

/-- The bit of a column in a slot. -/
def bit (signal : Signal slots) (column slot : Nat) : Bool :=
  match signal with
  | logicVecArray _ vectors =>
      if inside : slot < slots then (vectors ⟨slot, inside⟩).getLsbD column else false
  | logicArray bits => if inside : slot < slots then bits ⟨slot, inside⟩ else false
  | logicVec vector => vector.getLsbD slot

end Signal

/-- `double_in and not (double_in - ((0, size) & base))`. -/
def doubleOut (doubleIn : BitVec (2 * slots)) (base : BitVec slots) : BitVec (2 * slots) :=
  doubleIn &&& ~~~ (doubleIn - (BitVec.ofNat slots 0 ++ base).cast (Nat.two_mul slots).symm)

/-- What is assigned to `dout`, a vector or an array of bits; there is no reverse mask of an
array of vectors. -/
def maskSignal (din : Signal slots) (base : BitVec slots) (reverse toVec : Bool) :
    Option (Signal slots) :=
  let assign (bits : Nat → Bool) : Signal slots :=
    if toVec then .logicVec (pack fun slot => bits slot) else .logicArray fun slot => bits slot
  match din, reverse with
  | .logicVecArray _ _, true => none
  | .logicVecArray size vectors, false =>
      some (.logicVecArray size fun slot => pack fun column : Fin size =>
        cyclicPriorityMasking slots (Signal.bit (.logicVecArray size vectors) column)
          base.getLsbD slot)
  | .logicArray bits, true =>
      some (assign (cyclicPriorityMaskingReverse slots (Signal.bit (.logicArray bits) 0)
        base.getLsbD))
  | .logicVec vector, true =>
      some (assign (cyclicPriorityMaskingReverse slots vector.getLsbD base.getLsbD))
  | .logicArray bits, false =>
      some (assign (cyclicPriorityMasking slots (Signal.bit (.logicArray bits) 0) base.getLsbD))
  | .logicVec vector, false =>
      let doubleIn := (vector ++ vector).cast (Nat.two_mul slots).symm
      let doubleOut := doubleOut doubleIn base
      let lower := doubleOut.extractLsb' 0 slots
      let upper := doubleOut.extractLsb' slots slots
      some (if toVec then .logicVec (lower ||| upper)
        else .logicArray fun slot => lower.getLsbD slot || upper.getLsbD slot)

/-- The slot that many steps from the base, upward or downward around the end. -/
def slotFrom (slots base : Nat) (reverse : Bool) (steps : Nat) : Nat :=
  if reverse then (base + slots - steps) % slots else (base + steps) % slots

/-- The first set bit on the way from the base. -/
def FirstFrom (slots base : Nat) (reverse : Bool) (bits : Nat → Bool) (slot : Nat) : Prop :=
  ∃ steps < slots, slotFrom slots base reverse steps = slot ∧ bits slot = true ∧
    ∀ earlier < steps, bits (slotFrom slots base reverse earlier) = false

section FirstFrom

variable {base : Nat} {reverse : Bool} {bits : Nat → Bool}

/-- Every slot is on the way around. -/
theorem exists_slotFrom (reverse : Bool) (baseBounded : base < slots) {slot : Nat} (bounded : slot < slots) :
    ∃ steps < slots, slotFrom slots base reverse steps = slot := by
  cases reverse with
  | false =>
      obtain ⟨entry, after, before, rfl⟩ := exists_slot base bounded
      refine ⟨entry - base, by omega, ?_⟩
      rw [slotFrom, if_neg Bool.false_ne_true, Nat.add_sub_cancel' after]
  | true =>
      by_cases below : slot ≤ base
      · refine ⟨base - slot, by omega, ?_⟩
        rw [slotFrom, if_pos rfl, show base + slots - (base - slot) = slot + slots by omega,
          Nat.add_mod_right, Nat.mod_eq_of_lt bounded]
      · refine ⟨base + slots - slot, by omega, ?_⟩
        rw [slotFrom, if_pos rfl, Nat.mod_eq_of_lt (by omega)]
        omega

theorem FirstFrom.unique {first second : Nat}
    (isFirst : FirstFrom slots base reverse bits first)
    (isSecond : FirstFrom slots base reverse bits second) : first = second := by
  obtain ⟨steps, -, rfl, set, clear⟩ := isFirst
  obtain ⟨others, -, rfl, setOther, clearOther⟩ := isSecond
  rcases Nat.lt_trichotomy steps others with less | rfl | more
  · rw [clearOther steps less] at set
    cases set
  · rfl
  · rw [clear others more] at setOther
    cases setOther

/-- If a bit is set then one is the first. -/
theorem exists_firstFrom (reverse : Bool) (baseBounded : base < slots)
    (some : ∃ slot < slots, bits slot = true) :
    ∃ slot < slots, FirstFrom slots base reverse bits slot := by
  obtain ⟨slot, bounded, set⟩ := some
  obtain ⟨steps, stepsBounded, same⟩ := exists_slotFrom reverse baseBounded bounded
  have found : ∃ steps, bits (slotFrom slots base reverse steps) = true :=
    ⟨steps, by rw [same]; exact set⟩
  have least : Nat.find found ≤ steps := Nat.find_min' found (by rw [same]; exact set)
  refine ⟨slotFrom slots base reverse (Nat.find found), ?_, Nat.find found, by omega, rfl,
    Nat.find_spec found, fun earlier less => Bool.eq_false_iff.mpr (Nat.find_min found less)⟩
  rw [slotFrom]
  split <;> exact Nat.mod_lt _ (by omega)

end FirstFrom

/-! ### The mask of a column -/

section Columns

variable {base : Nat} {bits : Nat → Bool}

/-- The bits of a one-hot base. -/
theorem getLsbD_twoPow_eq (base index : Nat) (bounded : index < slots) :
    (BitVec.twoPow slots base).getLsbD index = bitsToOH base index := by
  rw [BitVec.getLsbD_twoPow, bitsToOH]
  by_cases here : base = index
  · simp [here, bounded]
  · simp [here]

theorem cyclicPriorityMasking_iff (baseBounded : base < slots) {slot : Nat}
    (bounded : slot < slots) :
    cyclicPriorityMasking slots bits (BitVec.twoPow slots base).getLsbD slot = true ↔
      FirstFrom slots base false bits slot := by
  rw [cyclicPriorityMasking_congr (getLsbD_twoPow_eq base)]
  constructor
  · intro masked
    obtain ⟨steps, stepsBounded, same⟩ := exists_slotFrom false baseBounded bounded
    rw [← same] at masked ⊢
    obtain ⟨set, clear⟩ :=
      (cyclicPriorityMasking_slot bits base steps baseBounded stepsBounded).mp masked
    exact ⟨steps, stepsBounded, rfl, set, clear⟩
  · rintro ⟨steps, stepsBounded, rfl, set, clear⟩
    exact (cyclicPriorityMasking_slot bits base steps baseBounded stepsBounded).mpr ⟨set, clear⟩

theorem cyclicPriorityMaskingReverse_iff (baseBounded : base < slots) {slot : Nat}
    (bounded : slot < slots) :
    cyclicPriorityMaskingReverse slots bits (BitVec.twoPow slots base).getLsbD slot = true ↔
      FirstFrom slots base true bits slot := by
  rw [cyclicPriorityMaskingReverse_congr (getLsbD_twoPow_eq base)]
  constructor
  · intro masked
    obtain ⟨steps, stepsBounded, same⟩ := exists_slotFrom true baseBounded bounded
    rw [← same] at masked ⊢
    obtain ⟨set, clear⟩ :=
      (cyclicPriorityMaskingReverse_slot bits base steps baseBounded stepsBounded).mp masked
    exact ⟨steps, stepsBounded, rfl, set, clear⟩
  · rintro ⟨steps, stepsBounded, rfl, set, clear⟩
    exact (cyclicPriorityMaskingReverse_slot bits base steps baseBounded stepsBounded).mpr
      ⟨set, clear⟩

end Columns

/-! ### The layouts -/

section Layouts

theorem doubleIn_eq (vector : BitVec slots) :
    (vector ++ vector).cast (Nat.two_mul slots).symm =
      pack fun index : Fin (2 * slots) => vector.getLsbD (index % slots) := by
  refine BitVec.eq_of_getLsbD_eq fun index inside => ?_
  have word := getLsbD_pack (fun index : Fin (2 * slots) => vector.getLsbD (index % slots))
    ⟨index, inside⟩
  rw [word, BitVec.getLsbD_cast, BitVec.getLsbD_append]
  by_cases low : index < slots
  · simp [low, Nat.mod_eq_of_lt low]
  · have wraps : index % slots = index - slots := by
      rw [Nat.mod_eq_sub_mod (by omega), Nat.mod_eq_of_lt (by omega)]
    simp [low, wraps]

theorem doubleBase_eq (base : BitVec slots) :
    (BitVec.ofNat slots 0 ++ base).cast (Nat.two_mul slots).symm =
      pack fun index : Fin (2 * slots) => decide (index < slots) && base.getLsbD index := by
  refine BitVec.eq_of_getLsbD_eq fun index inside => ?_
  have word := getLsbD_pack
    (fun index : Fin (2 * slots) => decide (index < slots) && base.getLsbD index) ⟨index, inside⟩
  rw [word, BitVec.getLsbD_cast, BitVec.getLsbD_append]
  by_cases low : index < slots <;> simp [low]

/-- The halves of the double vector, taken as a whole, are those that are taken bit by bit. -/
theorem halves_eq (vector base : BitVec slots) {slot : Nat} (bounded : slot < slots) :
    let double := doubleOut ((vector ++ vector).cast (Nat.two_mul slots).symm) base
    ((double.extractLsb' 0 slots).getLsbD slot || (double.extractLsb' slots slots).getLsbD slot) =
      cyclicPriorityMasking slots vector.getLsbD base.getLsbD slot := by
  dsimp only
  rw [doubleOut, doubleIn_eq, doubleBase_eq, cyclicPriorityMasking]
  simp [bounded, Nat.add_comm]

variable {din dout : Signal slots} {base : BitVec slots} {reverse toVec : Bool} {column slot : Nat}

/-- Every layout is masked column by column. -/
theorem bit_maskSignal (masks : maskSignal din base reverse toVec = some dout)
    (columnBounded : column < din.columns) (bounded : slot < slots) :
    dout.bit column slot =
      if reverse then cyclicPriorityMaskingReverse slots (din.bit column) base.getLsbD slot
      else cyclicPriorityMasking slots (din.bit column) base.getLsbD slot := by
  have assigned : ∀ bits : Nat → Bool, (if toVec then
      (.logicVec (pack fun slot => bits slot) : Signal slots)
      else .logicArray fun slot => bits slot).bit column slot = bits slot := by
    intro bits
    cases toVec with
    | true => exact getLsbD_pack (fun slot : Fin slots => bits slot) ⟨slot, bounded⟩
    | false => exact dif_pos bounded
  cases din with
  | logicVecArray size vectors =>
      cases reverse with
      | true => cases masks
      | false =>
          obtain rfl := Option.some.inj masks
          rw [Signal.bit, dif_pos bounded]
          exact getLsbD_pack (fun column : Fin size => cyclicPriorityMasking slots
            (Signal.bit (.logicVecArray size vectors) column) base.getLsbD slot)
              ⟨column, columnBounded⟩
  | logicArray bits =>
      cases reverse with
      | true =>
          obtain rfl := Option.some.inj masks
          exact assigned _
      | false =>
          obtain rfl := Option.some.inj masks
          exact assigned _
  | logicVec vector =>
      cases reverse with
      | true =>
          obtain rfl := Option.some.inj masks
          exact assigned _
      | false =>
          obtain rfl := Option.some.inj masks
          refine Eq.trans ?_ (halves_eq vector base bounded)
          cases toVec with
          | true => exact BitVec.getLsbD_or
          | false => exact dif_pos bounded

/-- There is a mask but for the reverse one of an array of vectors. -/
theorem maskSignal_eq_none (masks : maskSignal din base reverse toVec = none) :
    reverse = true ∧ ∃ size vectors, din = .logicVecArray size vectors := by
  cases din with
  | logicVecArray size vectors =>
      cases reverse with
      | true => exact ⟨rfl, size, vectors, rfl⟩
      | false => cases masks
  | logicArray bits => cases reverse <;> cases masks
  | logicVec vector => cases reverse <;> cases masks

theorem bit_maskSignal_iff {first : Nat}
    (masks : maskSignal din (BitVec.twoPow slots first) reverse toVec = some dout)
    (firstBounded : first < slots) (columnBounded : column < din.columns) (bounded : slot < slots) :
    dout.bit column slot = true ↔ FirstFrom slots first reverse (din.bit column) slot := by
  rw [bit_maskSignal masks columnBounded bounded]
  cases reverse with
  | true => exact cyclicPriorityMaskingReverse_iff firstBounded bounded
  | false => exact cyclicPriorityMasking_iff firstBounded bounded

/-- For every one-hot base the mask keeps, in each column, the first bit that is set on the way
around from the base: one bit if there is one that is set, and none otherwise. -/
theorem maskSignal_correct (din : Signal slots) (first : Fin slots) (reverse toVec : Bool) :
    match maskSignal din (BitVec.twoPow slots first) reverse toVec with
    | none => reverse = true ∧ ∃ size vectors, din = .logicVecArray size vectors
    | some dout => ∀ column < din.columns,
        (∀ slot < slots, dout.bit column slot = true ↔
          FirstFrom slots first reverse (din.bit column) slot) ∧
        ((∃ slot < slots, din.bit column slot = true) →
          ∃! slot, slot < slots ∧ dout.bit column slot = true) ∧
        ((∀ slot < slots, din.bit column slot = false) →
          ∀ slot < slots, dout.bit column slot = false) := by
  split
  · exact maskSignal_eq_none ‹_›
  · rename_i dout masks
    intro column columnBounded
    have kept : ∀ slot < slots, dout.bit column slot = true ↔
        FirstFrom slots first reverse (din.bit column) slot :=
      fun slot bounded => bit_maskSignal_iff masks first.isLt columnBounded bounded
    refine ⟨kept, fun some => ?_, fun none slot bounded => ?_⟩
    · obtain ⟨slot, bounded, isFirst⟩ := exists_firstFrom reverse first.isLt some
      refine ⟨slot, ⟨bounded, (kept slot bounded).mpr isFirst⟩, ?_⟩
      rintro other ⟨otherBounded, set⟩
      exact ((kept other otherBounded).mp set).unique isFirst
    · refine Bool.eq_false_iff.mpr fun set => ?_
      obtain ⟨steps, -, -, here, -⟩ := (kept slot bounded).mp set
      rw [none slot bounded] at here
      cases here

/-- The reverse mask of an array, from the fourth slot down. -/
example : (maskSignal (.logicArray fun slot : Fin 6 => slot = 2 ∨ slot = 5)
    (BitVec.twoPow 6 3) true true).map (fun dout => (List.range 6).map (dout.bit 0)) =
      some [false, false, true, false, false, false] := by decide

end Layouts

end Dynamatic.Lsq
