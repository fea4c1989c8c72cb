import Mathlib.Data.Nat.Size
import Mathlib.Tactic.Ring
import Mathlib.Tactic.Positivity
import Mathlib.Tactic.Zify

/-!
# Minimal values

`HandshakeOptimizeBitwidths` narrows an operation to the bits that its operands are
known to need. The minimal value of a channel value is what an extension was made
from, or the low bits of a constant, with the kind of the extension that gives back
the value. The definitions follow `HandshakeOptimizeBitwidths.cpp`.

A minimal value stands for an integer, its `number`; whatever its width is modified
to, the result holds that integer modulo the width. `Fits` tells when an extension
kind and a width can represent an integer.
-/

namespace Dynamatic.Bitwidth

/-- The kind of extension that leads from a minimal value to the value. -/
inductive ExtType where
  | none
  | zext
  | sext
  deriving DecidableEq, Repr

namespace ExtType

/-- The order of the enumerators. -/
def rank : ExtType → Nat
  | none => 0
  | zext => 1
  | sext => 2

end ExtType

/-- An extension kind and a width. -/
structure ExtWidth where
  extType : ExtType
  bitWidth : Nat
  deriving DecidableEq, Repr

/-- A value with possibly fewer bits and the extension to the original. -/
structure MinimalValue where
  extType : ExtType
  bitWidth : Nat
  bits : BitVec bitWidth

section Constants

variable {width : Nat}

/-- `APInt::getActiveBits`. -/
def activeBits (value : BitVec width) : Nat := Nat.size value.toNat

/-- `APInt::getSignificantBits`. -/
def significantBits (value : BitVec width) : Nat :=
  (if value.msb then Nat.size (~~~value).toNat else Nat.size value.toNat) + 1

def computeRequiredBitwidth (value : BitVec width) : Nat :=
  max (if value.msb then significantBits value else activeBits value) 1

/-- The minimal value of a constant. -/
def MinimalValue.ofConstant (value : BitVec width) : MinimalValue :=
  if computeRequiredBitwidth value ≥ width then ⟨.none, width, value⟩
  else
    { extType := if value.msb then .sext else .zext
      bitWidth := computeRequiredBitwidth value
      bits := value.setWidth _ }

end Constants

/-- What defines a channel value, with the value that it carries: an extension of a
narrower one, a constant, or something else. -/
inductive Source (width : Nat) where
  | extSI {narrow : Nat} (bits : BitVec narrow) (less : narrow < width)
  | extUI {narrow : Nat} (bits : BitVec narrow) (less : narrow < width)
  | constant (bits : BitVec width)
  | other (bits : BitVec width)

namespace Source

variable {width : Nat}

/-- The value that the channel carries. -/
def value : Source width → BitVec width
  | extSI bits _ => bits.signExtend width
  | extUI bits _ => bits.setWidth width
  | constant bits => bits
  | other bits => bits

end Source

def getMinimalValue {width : Nat} : Source width → MinimalValue
  | .extSI bits _ => ⟨.sext, _, bits⟩
  | .extUI bits _ => ⟨.zext, _, bits⟩
  | .constant bits => .ofConstant bits
  | .other bits => ⟨.none, _, bits⟩

/-- The value with its width modified: extended as its kind says, where an unknown kind
counts as signed, or truncated. -/
def modBitWidth (extVal : MinimalValue) (targetWidth : Nat) : BitVec targetWidth :=
  if extVal.bitWidth < targetWidth then
    match extVal.extType with
    | .zext => extVal.bits.setWidth targetWidth
    | _ => extVal.bits.signExtend targetWidth
  else extVal.bits.setWidth targetWidth

namespace MinimalValue

/-- The integer that a minimal value stands for. -/
def number (extVal : MinimalValue) : Int :=
  match extVal.extType with
  | .zext => extVal.bits.toNat
  | _ => extVal.bits.toInt

end MinimalValue

/-- A width and a kind of extension represent an integer. -/
def Fits (extType : ExtType) (bitWidth : Nat) (number : Int) : Prop :=
  match extType with
  | .zext => 0 ≤ number ∧ number < 2 ^ bitWidth
  | _ => -2 ^ bitWidth ≤ 2 * number ∧ 2 * number < 2 ^ bitWidth

section Numbers

theorem MinimalValue.fits (extVal : MinimalValue) :
    Fits extVal.extType extVal.bitWidth extVal.number := by
  obtain ⟨kind, width, bits⟩ := extVal
  cases kind with
  | zext =>
      refine ⟨Int.natCast_nonneg _, ?_⟩
      change (bits.toNat : Int) < 2 ^ width
      have bound := bits.isLt
      exact_mod_cast bound
  | none => exact ⟨bits.le_two_mul_toInt, bits.two_mul_toInt_lt⟩
  | sext => exact ⟨bits.le_two_mul_toInt, bits.two_mul_toInt_lt⟩

/-- Whatever the new width is, it holds the integer modulo that width. -/
theorem modBitWidth_eq (extVal : MinimalValue) (target : Nat) :
    modBitWidth extVal target = BitVec.ofInt target extVal.number := by
  obtain ⟨kind, width, bits⟩ := extVal
  have unsigned : bits.setWidth target = BitVec.ofInt target (bits.toNat : Int) := by
    rw [BitVec.ofInt_natCast, BitVec.ofNat_toNat]
  have truncated : ¬ width < target → bits.setWidth target = BitVec.ofInt target bits.toInt :=
    fun narrow => (BitVec.signExtend_eq_setWidth_of_le bits (Nat.le_of_not_lt narrow)).symm
  rw [modBitWidth]
  split
  · cases kind with
    | zext => exact unsigned
    | none => rfl
    | sext => rfl
  · rename_i narrow
    cases kind with
    | zext => exact unsigned
    | none => exact truncated narrow
    | sext => exact truncated narrow

/-- A representation that fits stands for its integer. -/
theorem number_ofInt {extType : ExtType} {bitWidth : Nat} {number : Int}
    (fits : Fits extType bitWidth number) :
    (MinimalValue.mk extType bitWidth (BitVec.ofInt bitWidth number)).number = number := by
  have signed : -2 ^ bitWidth ≤ 2 * number → 2 * number < 2 ^ bitWidth →
      (BitVec.ofInt bitWidth number).toInt = number := by
    intro least most
    rw [BitVec.toInt_ofInt, Int.bmod_eq_of_le_mul_two]
    · push_cast
      omega
    · push_cast
      omega
  cases extType with
  | zext =>
      obtain ⟨least, most⟩ := fits
      change ((BitVec.ofInt bitWidth number).toNat : Int) = number
      rw [BitVec.toNat_ofInt, Int.toNat_of_nonneg (Int.emod_nonneg _ (by positivity))]
      exact Int.emod_eq_of_lt least (by exact_mod_cast most)
  | none => exact signed fits.1 fits.2
  | sext => exact signed fits.1 fits.2

/-- The low bits hold the integer modulo their width. -/
theorem setWidth_ofInt {dataWidth width : Nat} {number : Int} (le : width ≤ dataWidth) :
    (BitVec.ofInt dataWidth number).setWidth width = BitVec.ofInt width number := by
  rw [← BitVec.signExtend_eq_setWidth_of_le _ le, BitVec.signExtend]
  refine BitVec.eq_of_toInt_eq ?_
  rw [BitVec.toInt_ofInt, BitVec.toInt_ofInt, BitVec.toInt_ofInt,
    Int.bmod_bmod_of_dvd (Nat.pow_dvd_pow 2 le)]

theorem modBitWidth_ofInt {extType : ExtType} {bitWidth : Nat} {number : Int}
    (fits : Fits extType bitWidth number) (target : Nat) :
    modBitWidth ⟨extType, bitWidth, BitVec.ofInt bitWidth number⟩ target =
      BitVec.ofInt target number := by
  rw [modBitWidth_eq, number_ofInt fits]

/-- The required width of a constant holds it, with the extension its sign asks for. -/
theorem fits_computeRequiredBitwidth {width : Nat} (value : BitVec width) :
    if value.msb then Fits .sext (computeRequiredBitwidth value) value.toInt
    else Fits .zext (computeRequiredBitwidth value) value.toNat := by
  rw [computeRequiredBitwidth]
  cases negative : value.msb with
  | false =>
      rw [if_neg Bool.false_ne_true, if_neg Bool.false_ne_true]
      refine ⟨Int.natCast_nonneg _, ?_⟩
      have bound : value.toNat < 2 ^ max (activeBits value) 1 :=
        Nat.size_le.mp (Nat.le_max_left _ _)
      exact_mod_cast bound
  | true =>
      rw [if_pos rfl, if_pos rfl]
      have value_neg : value.toInt = -((~~~value).toNat : Int) - 1 := by
        rw [BitVec.toNat_not, BitVec.toInt_eq_msb_cond, negative, if_pos rfl]
        have bound := value.isLt
        push_cast [Nat.cast_sub (by omega : value.toNat ≤ 2 ^ width - 1),
          Nat.cast_sub (Nat.one_le_two_pow : 1 ≤ 2 ^ width)]
        ring
      have bound : (~~~value).toNat < 2 ^ (significantBits value - 1) := by
        rw [significantBits, negative, if_pos rfl, Nat.add_sub_cancel]
        exact Nat.lt_size_self _
      have grows : 2 ^ (significantBits value - 1 + 1) ≤ 2 ^ max (significantBits value) 1 :=
        Nat.pow_le_pow_right (by omega) (by omega)
      rw [Nat.pow_succ] at grows
      zify at bound grows
      refine ⟨?_, ?_⟩
      · omega
      · omega

variable {width : Nat}

/-- The minimal value extends to the value. -/
theorem ofInt_number_getMinimalValue (source : Source width) :
    BitVec.ofInt width (getMinimalValue source).number = source.value := by
  cases source with
  | extSI bits less => rfl
  | extUI bits less =>
      change BitVec.ofInt width (bits.toNat : Int) = bits.setWidth width
      rw [BitVec.ofInt_natCast, BitVec.ofNat_toNat]
  | other bits => exact BitVec.ofInt_toInt
  | constant bits =>
      have fits := fits_computeRequiredBitwidth bits
      change BitVec.ofInt width (MinimalValue.ofConstant bits).number = bits
      rw [MinimalValue.ofConstant]
      split
      · exact BitVec.ofInt_toInt
      · cases negative : bits.msb with
        | true =>
            rw [negative, if_pos rfl] at fits
            have same : bits.setWidth (computeRequiredBitwidth bits) =
                BitVec.ofInt (computeRequiredBitwidth bits) bits.toInt :=
              (BitVec.signExtend_eq_setWidth_of_le bits (by omega)).symm
            rw [if_pos rfl, same, number_ofInt fits, BitVec.ofInt_toInt]
        | false =>
            rw [negative, if_neg Bool.false_ne_true] at fits
            have same : bits.setWidth (computeRequiredBitwidth bits) =
                BitVec.ofInt (computeRequiredBitwidth bits) (bits.toNat : Int) := by
              rw [BitVec.ofInt_natCast, BitVec.ofNat_toNat]
            rw [if_neg Bool.false_ne_true, same, number_ofInt fits, BitVec.ofInt_natCast,
              BitVec.ofNat_toNat, BitVec.setWidth_eq]

/-- A minimal value with an extension is narrower than the value, one without is as
wide. -/
theorem bitWidth_getMinimalValue (source : Source width) :
    (getMinimalValue source).bitWidth ≤ width ∧
      ((getMinimalValue source).extType = .none ↔ (getMinimalValue source).bitWidth = width) := by
  cases source with
  | extSI bits less => exact ⟨Nat.le_of_lt less, by simp [getMinimalValue, Nat.ne_of_lt less]⟩
  | extUI bits less => exact ⟨Nat.le_of_lt less, by simp [getMinimalValue, Nat.ne_of_lt less]⟩
  | other bits => simp [getMinimalValue]
  | constant bits =>
      simp only [getMinimalValue, MinimalValue.ofConstant]
      split
      · simp
      · rename_i narrow
        refine ⟨by simp only; omega, ?_⟩
        cases bits.msb <;> simp <;> omega

end Numbers

end Dynamatic.Bitwidth
