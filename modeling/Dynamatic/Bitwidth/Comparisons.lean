import Dynamatic.Bitwidth.ArithSingleType
import Dynamatic.Bitwidth.Bounds

/-!
# Narrowing of comparisons

`ArithCmpFW` compares the minimal values of the operands at the larger of their widths,
and at one more bit where a zero-extended operand could be taken for a negative one, or
a sign-extended one for a small one. Where both numbers fit the signed range of a width,
their signed and their unsigned order do not depend on the width.
-/

namespace Dynamatic.Bitwidth

namespace CmpIPredicate

/-- `CmpIOp::isSignedComparison`. -/
def isSignedComparison : CmpIPredicate → Bool
  | slt | sle | sgt | sge => true
  | _ => false

end CmpIPredicate

section Rewrite

variable {actualWidth : Nat} (predicate : CmpIPredicate)

/-- The width at which two minimal values are compared. -/
def cmpOptWidth (lhsExtValue rhsExtValue : MinimalValue) : Nat :=
  let optWidth := max lhsExtValue.bitWidth rhsExtValue.bitWidth
  if predicate.isSignedComparison then
    if lhsExtValue.extType = .zext ∧ lhsExtValue.bitWidth ≥ rhsExtValue.bitWidth ∨
        rhsExtValue.extType = .zext ∧ rhsExtValue.bitWidth ≥ lhsExtValue.bitWidth then
      optWidth + 1
    else optWidth
  else if lhsExtValue.extType = .zext ∧ rhsExtValue.extType = .sext ∧
        lhsExtValue.bitWidth ≥ rhsExtValue.bitWidth ∨
      rhsExtValue.extType = .zext ∧ lhsExtValue.extType = .sext ∧
        rhsExtValue.bitWidth ≥ lhsExtValue.bitWidth then
    optWidth + 1
  else optWidth

/-- The outcome of a comparison after the forward pattern was tried on it. -/
def arithCmpFW (lhs rhs : Source actualWidth) : Bool :=
  let lhsExtValue := getMinimalValue lhs
  let rhsExtValue := getMinimalValue rhs
  let optWidth := cmpOptWidth predicate lhsExtValue rhsExtValue
  if optWidth ≥ actualWidth then predicate.apply lhs.value rhs.value
  else predicate.apply (modBitWidth lhsExtValue optWidth) (modBitWidth rhsExtValue optWidth)

end Rewrite

section Numbers

variable {width : Nat} {left right : Int}

/-- The unsigned order of signed numbers: the negative ones come last. -/
def unsignedLess (left right : Int) : Prop :=
  0 ≤ left ∧ right < 0 ∨ (0 ≤ left ↔ 0 ≤ right) ∧ left < right

instance (left right : Int) : Decidable (unsignedLess left right) :=
  inferInstanceAs (Decidable (_ ∨ _))

theorem toInt_ofInt_of_fits (fits : Fits .sext width left) : (BitVec.ofInt width left).toInt = left :=
  number_ofInt fits

theorem toNat_ofInt_of_fits (fits : Fits .zext width left) :
    ((BitVec.ofInt width left).toNat : Int) = left :=
  number_ofInt fits

theorem toNat_ofInt_of_signed (fits : Fits .sext width left) :
    ((BitVec.ofInt width left).toNat : Int) = if 0 ≤ left then left else left + 2 ^ width := by
  have signed := toInt_ofInt_of_fits fits
  have bound := (BitVec.ofInt width left).isLt
  rw [BitVec.toInt_eq_toNat_cond] at signed
  push_cast at signed
  zify at bound
  split_ifs at signed ⊢ <;> omega

theorem eq_ofInt_iff {extType : ExtType} (leftFits : Fits extType width left)
    (rightFits : Fits extType width right) :
    BitVec.ofInt width left = BitVec.ofInt width right ↔ left = right := by
  constructor
  · intro same
    have leftNumber := number_ofInt leftFits
    have rightNumber := number_ofInt rightFits
    rw [same] at leftNumber
    exact leftNumber.symm.trans rightNumber
  · rintro rfl
    rfl

theorem slt_ofInt (leftFits : Fits .sext width left) (rightFits : Fits .sext width right) :
    (BitVec.ofInt width left).slt (BitVec.ofInt width right) = decide (left < right) := by
  rw [BitVec.slt, toInt_ofInt_of_fits leftFits, toInt_ofInt_of_fits rightFits]

theorem sle_ofInt (leftFits : Fits .sext width left) (rightFits : Fits .sext width right) :
    (BitVec.ofInt width left).sle (BitVec.ofInt width right) = decide (left ≤ right) := by
  rw [BitVec.sle, toInt_ofInt_of_fits leftFits, toInt_ofInt_of_fits rightFits]

theorem ult_ofInt (leftFits : Fits .sext width left) (rightFits : Fits .sext width right) :
    (BitVec.ofInt width left).ult (BitVec.ofInt width right) =
      decide (unsignedLess left right) := by
  have leftNat := toNat_ofInt_of_signed leftFits
  have rightNat := toNat_ofInt_of_signed rightFits
  obtain ⟨leftLeast, leftMost⟩ := leftFits
  obtain ⟨rightLeast, rightMost⟩ := rightFits
  rw [BitVec.ult, decide_eq_decide, ← Int.ofNat_lt, leftNat, rightNat, unsignedLess]
  split_ifs <;> omega

theorem ule_ofInt (leftFits : Fits .sext width left) (rightFits : Fits .sext width right) :
    (BitVec.ofInt width left).ule (BitVec.ofInt width right) =
      !decide (unsignedLess right left) := by
  rw [← ult_ofInt rightFits leftFits, BitVec.ule, BitVec.ult, ← decide_not, decide_eq_decide]
  omega

/-- The outcome of a comparison of two signed numbers. -/
def CmpIPredicate.onSigned (predicate : CmpIPredicate) (left right : Int) : Bool :=
  match predicate with
  | .eq => decide (left = right)
  | .ne => !decide (left = right)
  | .slt => decide (left < right)
  | .sle => decide (left ≤ right)
  | .sgt => decide (right < left)
  | .sge => decide (right ≤ left)
  | .ult => decide (unsignedLess left right)
  | .ule => !decide (unsignedLess right left)
  | .ugt => decide (unsignedLess right left)
  | .uge => !decide (unsignedLess left right)

/-- It does not depend on the width. -/
theorem apply_of_signed (predicate : CmpIPredicate) (leftFits : Fits .sext width left)
    (rightFits : Fits .sext width right) :
    predicate.apply (BitVec.ofInt width left) (BitVec.ofInt width right) =
      predicate.onSigned left right := by
  cases predicate with
  | eq =>
      change decide _ = _
      exact decide_eq_decide.mpr (eq_ofInt_iff leftFits rightFits)
  | ne =>
      change (!decide _) = _
      exact congrArg Bool.not (decide_eq_decide.mpr (eq_ofInt_iff leftFits rightFits))
  | slt => exact slt_ofInt leftFits rightFits
  | sle => exact sle_ofInt leftFits rightFits
  | sgt => exact slt_ofInt rightFits leftFits
  | sge => exact sle_ofInt rightFits leftFits
  | ult => exact ult_ofInt leftFits rightFits
  | ule => exact ule_ofInt leftFits rightFits
  | ugt => exact ult_ofInt rightFits leftFits
  | uge => exact ule_ofInt rightFits leftFits

/-- The outcome of a comparison of two numbers that are not negative. -/
def CmpIPredicate.onUnsigned (predicate : CmpIPredicate) (left right : Int) : Bool :=
  match predicate with
  | .eq => decide (left = right)
  | .ne => !decide (left = right)
  | .ult | .slt => decide (left < right)
  | .ule | .sle => decide (left ≤ right)
  | .ugt | .sgt => decide (right < left)
  | .uge | .sge => decide (right ≤ left)

theorem ult_ofInt_of_zext (leftFits : Fits .zext width left) (rightFits : Fits .zext width right) :
    (BitVec.ofInt width left).ult (BitVec.ofInt width right) = decide (left < right) := by
  rw [BitVec.ult, decide_eq_decide, ← Int.ofNat_lt, toNat_ofInt_of_fits leftFits,
    toNat_ofInt_of_fits rightFits]

theorem ule_ofInt_of_zext (leftFits : Fits .zext width left) (rightFits : Fits .zext width right) :
    (BitVec.ofInt width left).ule (BitVec.ofInt width right) = decide (left ≤ right) := by
  rw [BitVec.ule, decide_eq_decide, ← Int.ofNat_le, toNat_ofInt_of_fits leftFits,
    toNat_ofInt_of_fits rightFits]

/-- At widths that represent both numbers without a sign, only a signed comparison depends on the
width. -/
theorem apply_of_unsigned {predicate : CmpIPredicate} (unsigned : predicate.isSignedComparison = false)
    (leftFits : Fits .zext width left) (rightFits : Fits .zext width right) :
    predicate.apply (BitVec.ofInt width left) (BitVec.ofInt width right) =
      predicate.onUnsigned left right := by
  cases predicate with
  | eq =>
      change decide _ = _
      exact decide_eq_decide.mpr (eq_ofInt_iff leftFits rightFits)
  | ne =>
      change (!decide _) = _
      exact congrArg Bool.not (decide_eq_decide.mpr (eq_ofInt_iff leftFits rightFits))
  | ult => exact ult_ofInt_of_zext leftFits rightFits
  | ule => exact ule_ofInt_of_zext leftFits rightFits
  | ugt => exact ult_ofInt_of_zext rightFits leftFits
  | uge => exact ule_ofInt_of_zext rightFits leftFits
  | slt | sle | sgt | sge => cases unsigned

end Numbers

section Exact

variable {actualWidth : Nat} {predicate : CmpIPredicate} {lhs rhs : MinimalValue}

theorem le_cmpOptWidth : max lhs.bitWidth rhs.bitWidth ≤ cmpOptWidth predicate lhs rhs := by
  simp only [cmpOptWidth]
  split_ifs <;> omega

/-- Unless both operands of an unsigned comparison are zero-extended, the width has a bit for the
sign of a zero-extended one. -/
theorem bitWidth_lt_cmpOptWidth (predicate : CmpIPredicate) (kind : lhs.extType = .zext)
    (otherKind : rhs.extType ≠ .none)
    (notBoth : ¬ (predicate.isSignedComparison = false ∧ rhs.extType = .zext)) :
    lhs.bitWidth < cmpOptWidth predicate lhs rhs ∧ lhs.bitWidth < cmpOptWidth predicate rhs lhs := by
  cases signed : predicate.isSignedComparison with
  | true =>
      simp only [cmpOptWidth, signed, kind, if_true, true_and]
      constructor <;> split_ifs <;> omega
  | false =>
      have sext : rhs.extType = .sext := by
        cases other : rhs.extType with
        | none => exact absurd other otherKind
        | zext => exact absurd ⟨signed, other⟩ notBoth
        | sext => rfl
      simp only [cmpOptWidth, signed, kind, sext, true_and, Bool.false_eq_true, if_false, reduceCtorEq,
        false_and, or_false, false_or]
      constructor <;> split_ifs <;> omega

/-- At the chosen width both numbers fit, signed, or unsigned for an unsigned comparison. -/
theorem fits_cmpOptWidth (predicate : CmpIPredicate) (lhsKind : lhs.extType ≠ .none)
    (rhsKind : rhs.extType ≠ .none) :
    (Fits .sext (cmpOptWidth predicate lhs rhs) lhs.number ∧
        Fits .sext (cmpOptWidth predicate lhs rhs) rhs.number) ∨
      (predicate.isSignedComparison = false ∧
        Fits .zext (cmpOptWidth predicate lhs rhs) lhs.number ∧
        Fits .zext (cmpOptWidth predicate lhs rhs) rhs.number) := by
  have leftFits := lhs.fits
  have rightFits := rhs.fits
  have signed : ∀ {extVal : MinimalValue}, extVal.extType ≠ .none →
      ∀ {optWidth : Nat}, Fits extVal.extType extVal.bitWidth extVal.number →
      extVal.bitWidth ≤ optWidth → (extVal.extType = .zext → extVal.bitWidth < optWidth) →
      Fits .sext optWidth extVal.number := by
    intro extVal kind optWidth fits le less
    cases extType : extVal.extType with
    | none => exact absurd extType kind
    | zext => exact (extType ▸ fits).sext_of_zext (less extType)
    | sext => exact (extType ▸ fits).sext_mono le
  by_cases bothZext : predicate.isSignedComparison = false ∧ lhs.extType = .zext ∧ rhs.extType = .zext
  · obtain ⟨unsigned, lhsZext, rhsZext⟩ := bothZext
    have width : cmpOptWidth predicate lhs rhs = max lhs.bitWidth rhs.bitWidth := by
      simp [cmpOptWidth, unsigned, lhsZext, rhsZext]
    rw [width]
    rw [lhsZext] at leftFits
    rw [rhsZext] at rightFits
    exact .inr ⟨unsigned, leftFits.zext_mono (Nat.le_max_left _ _),
      rightFits.zext_mono (Nat.le_max_right _ _)⟩
  · have wide : max lhs.bitWidth rhs.bitWidth ≤ cmpOptWidth predicate lhs rhs := le_cmpOptWidth
    refine .inl ⟨signed lhsKind leftFits (le_trans (Nat.le_max_left _ _) wide) fun lhsZext => ?_,
      signed rhsKind rightFits (le_trans (Nat.le_max_right _ _) wide) fun rhsZext => ?_⟩
    · have less := bitWidth_lt_cmpOptWidth predicate lhsZext rhsKind fun both =>
        bothZext ⟨both.1, lhsZext, both.2⟩
      exact less.1
    · have less := bitWidth_lt_cmpOptWidth predicate rhsZext lhsKind fun both =>
        bothZext ⟨both.1, both.2, rhsZext⟩
      exact less.2

/-- A comparison keeps its outcome. -/
theorem arithCmpFW_preserves (predicate : CmpIPredicate) (lhs rhs : Source actualWidth) :
    arithCmpFW predicate lhs rhs = predicate.apply lhs.value rhs.value := by
  rw [arithCmpFW]
  split
  · rfl
  · rename_i wide
    have narrows := Nat.lt_of_not_le wide
    have le : max (getMinimalValue lhs).bitWidth (getMinimalValue rhs).bitWidth ≤
        cmpOptWidth predicate (getMinimalValue lhs) (getMinimalValue rhs) := le_cmpOptWidth
    have lhsKind : (getMinimalValue lhs).extType ≠ .none := fun kind => by
      have same := (bitWidth_getMinimalValue lhs).2.mp kind
      omega
    have rhsKind : (getMinimalValue rhs).extType ≠ .none := fun kind => by
      have same := (bitWidth_getMinimalValue rhs).2.mp kind
      omega
    rw [modBitWidth_eq, modBitWidth_eq, ← ofInt_number_getMinimalValue lhs,
      ← ofInt_number_getMinimalValue rhs]
    rcases fits_cmpOptWidth predicate lhsKind rhsKind with
      ⟨leftFits, rightFits⟩ | ⟨unsigned, leftFits, rightFits⟩
    · rw [apply_of_signed predicate leftFits rightFits,
        apply_of_signed predicate (leftFits.sext_mono (Nat.le_of_lt narrows))
          (rightFits.sext_mono (Nat.le_of_lt narrows))]
    · rw [apply_of_unsigned unsigned leftFits rightFits,
        apply_of_unsigned unsigned (leftFits.zext_mono (Nat.le_of_lt narrows))
          (rightFits.zext_mono (Nat.le_of_lt narrows))]

end Exact

end Dynamatic.Bitwidth
