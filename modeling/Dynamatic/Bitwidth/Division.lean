import Dynamatic.Bitwidth.ArithSingleType

/-!
# Narrowing of division and remainder

Divisions and remainders are registered with `divWidth`, which takes one bit more than
the dividend needs, whatever the divisor, and extends the result with zeros. So the
divisor may lose bits, a sign-extended dividend loses them in an unsigned operation,
and a negative quotient its sign. The conditions below say for which operands the
narrow operation is right all the same.
-/

namespace Dynamatic.Bitwidth

section Arithmetic

variable (power low high highDivisor : Nat) {lowDivisor : Nat}

/-- The quotient of the low parts is that of the numbers when the high parts allow it. -/
theorem div_low_iff (lowLess : low < power) (divisorLess : lowDivisor < power)
    (nonzero : 0 < lowDivisor) :
    low / lowDivisor = (power * high + low) / (power * highDivisor + lowDivisor) ↔
      highDivisor * (low / lowDivisor) ≤ high ∧ high ≤ highDivisor * (low / lowDivisor + 1) := by
  obtain ⟨quotient, isQuotient⟩ : ∃ quotient, quotient = low / lowDivisor := ⟨_, rfl⟩
  have parts : lowDivisor * quotient + low % lowDivisor = low := by
    rw [isQuotient, Nat.div_add_mod]
  have rest := Nat.mod_lt low nonzero
  have product : quotient * (power * highDivisor + lowDivisor) =
      power * (highDivisor * quotient) + lowDivisor * quotient := by ring
  have next : highDivisor * (quotient + 1) = highDivisor * quotient + highDivisor := by ring
  rw [← isQuotient, eq_comm, Nat.div_eq_iff (by omega), product, next]
  constructor
  · rintro ⟨least, most⟩
    refine ⟨?_, ?_⟩
    · by_contra more
      have step : power * (high + 1) ≤ power * (highDivisor * quotient) :=
        Nat.mul_le_mul_left _ (by omega)
      rw [Nat.mul_succ] at step
      omega
    · by_contra more
      have step : power * (highDivisor * quotient + highDivisor + 1) ≤ power * high :=
        Nat.mul_le_mul_left _ (by omega)
      rw [Nat.mul_succ, Nat.mul_add] at step
      omega
  · rintro ⟨least, most⟩
    have below := Nat.mul_le_mul_left power least
    have above := Nat.mul_le_mul_left power most
    rw [Nat.mul_add] at above
    refine ⟨by omega, by omega⟩

/-- The remainder of the low parts is that of the numbers when the rest is a multiple. -/
theorem mod_low_iff (nonzero : 0 < lowDivisor) :
    low % lowDivisor = (power * high + low) % (power * highDivisor + lowDivisor) ↔
      power * highDivisor + lowDivisor ∣ power * high + lowDivisor * (low / lowDivisor) := by
  have rest := Nat.mod_lt low nonzero
  have parts := Nat.div_add_mod low lowDivisor
  have less : low % lowDivisor < power * highDivisor + lowDivisor := by omega
  have number : power * high + low =
      power * high + lowDivisor * (low / lowDivisor) + low % lowDivisor := by omega
  constructor
  · intro same
    have whole := Nat.dvd_sub_mod (n := power * highDivisor + lowDivisor) (power * high + low)
    rwa [← same, number, Nat.add_sub_cancel] at whole
  · intro divides
    rw [number, Nat.add_mod, Nat.mod_eq_zero_of_dvd divides, Nat.zero_add, Nat.mod_mod,
      Nat.mod_eq_of_lt less]

end Arithmetic

section Exact

variable (dividend divisor width : Nat)

/-- When an unsigned division over a width is that of the numbers: both fit the width,
or the quotient of the low parts is in the range that the high parts leave. -/
def DivUIExact : Prop :=
  (divisor / 2 ^ width = 0 ∧ dividend / 2 ^ width = 0) ∨
    (0 < divisor % 2 ^ width ∧ 0 < divisor / 2 ^ width ∧
      ((dividend / 2 ^ width + divisor / 2 ^ width - 1) / (divisor / 2 ^ width) - 1) *
          (divisor % 2 ^ width) ≤ dividend % 2 ^ width ∧
      dividend % 2 ^ width <
        (dividend / 2 ^ width / (divisor / 2 ^ width) + 1) * (divisor % 2 ^ width))

/-- When an unsigned remainder over a width is that of the numbers: the dividend fits the
width, and the divisor too or its low part is larger; or what the low parts leave of the
dividend is a multiple of the divisor. -/
def RemUIExact : Prop :=
  0 < divisor % 2 ^ width ∧
    if dividend / 2 ^ width = 0 then
      divisor / 2 ^ width = 0 ∨ dividend < divisor % 2 ^ width
    else
      divisor ∣ 2 ^ width * (dividend / 2 ^ width) +
        divisor % 2 ^ width * (dividend % 2 ^ width / (divisor % 2 ^ width))

/-- When a signed division over a width, read as a natural number, is that of the numbers:
the quotient is zero already by the divisor's low part, or the divisor fits the width and
the quotient has no sign. -/
def DivSIExact (dividend divisor : Int) : Prop :=
  dividend.natAbs < (divisor.bmod (2 ^ width)).natAbs ∨
    (divisor.bmod (2 ^ width) = divisor ∧ 0 ≤ dividend * divisor)

variable {dividend divisor width}

theorem divUIExact_iff (nonzero : 0 < divisor) :
    (dividend % 2 ^ width / (divisor % 2 ^ width) = dividend / divisor ∧
      divisor % 2 ^ width ≠ 0) ↔ DivUIExact dividend divisor width := by
  have lowLess := Nat.mod_lt dividend (Nat.two_pow_pos width)
  have divisorLess := Nat.mod_lt divisor (Nat.two_pow_pos width)
  have parts := Nat.div_add_mod dividend (2 ^ width)
  have divisorParts := Nat.div_add_mod divisor (2 ^ width)
  rw [DivUIExact]
  generalize 2 ^ width = power at *
  rcases Nat.eq_zero_or_pos (divisor % power) with zero | positive
  · have high : divisor / power ≠ 0 := fun none => by
      rw [none, zero] at divisorParts
      omega
    simp [zero, high]
  · have iff := div_low_iff power (dividend % power) (dividend / power) (divisor / power) lowLess
      divisorLess positive
    rw [parts, divisorParts] at iff
    rw [iff]
    rcases Nat.eq_zero_or_pos (divisor / power) with none | some
    · simp [none, Nat.ne_of_gt positive]
    · have least : ((dividend / power + divisor / power - 1) / (divisor / power) - 1) *
          (divisor % power) ≤ dividend % power ↔
            dividend / power ≤ divisor / power * (dividend % power / (divisor % power) + 1) := by
        rw [← Nat.le_div_iff_mul_le positive, Nat.sub_le_iff_le_add, Nat.div_le_iff_le_mul some,
          Nat.mul_comm]
        omega
      have most : dividend % power < (dividend / power / (divisor / power) + 1) *
          (divisor % power) ↔
            divisor / power * (dividend % power / (divisor % power)) ≤ dividend / power := by
        rw [← Nat.div_lt_iff_lt_mul positive, Nat.lt_succ_iff, Nat.le_div_iff_mul_le some,
          Nat.mul_comm]
      rw [least, most]
      simp [Nat.ne_of_gt positive, Nat.ne_of_gt some, positive, some, and_comm]

theorem remUIExact_iff :
    (dividend % 2 ^ width % (divisor % 2 ^ width) = dividend % divisor ∧
      divisor % 2 ^ width ≠ 0) ↔ RemUIExact dividend divisor width := by
  have lowLess := Nat.mod_lt dividend (Nat.two_pow_pos width)
  have parts := Nat.div_add_mod dividend (2 ^ width)
  have divisorParts := Nat.div_add_mod divisor (2 ^ width)
  rw [RemUIExact]
  generalize 2 ^ width = power at *
  rcases Nat.eq_zero_or_pos (divisor % power) with zero | positive
  · simp [zero]
  · have iff := mod_low_iff power (dividend % power) (dividend / power) (divisor / power) positive
    rw [parts, divisorParts] at iff
    rw [iff, and_iff_left (Nat.ne_of_gt positive), and_iff_right positive]
    split
    · rename_i fits
      rw [fits, Nat.mul_zero, Nat.zero_add] at parts
      rw [fits, Nat.mul_zero, Nat.zero_add, parts]
      constructor
      · intro divides
        by_contra neither
        obtain ⟨high, large⟩ := not_or.mp neither
        have some := Nat.div_pos (Nat.le_of_not_lt large) positive
        have small := Nat.mul_div_le dividend (divisor % power)
        have step : power * 1 ≤ power * (divisor / power) :=
          Nat.mul_le_mul_left _ (Nat.pos_of_ne_zero high)
        have le := Nat.le_of_dvd (Nat.mul_pos positive some) divides
        omega
      · rintro (none | small)
        · rw [none, Nat.mul_zero, Nat.zero_add] at divisorParts
          rw [divisorParts]
          exact Nat.dvd_mul_right _ _
        · rw [Nat.div_eq_of_lt small, Nat.mul_zero]
          exact Nat.dvd_zero _
    · rfl

theorem tdiv_eq_zero_of_natAbs_lt {dividend divisor : Int}
    (less : dividend.natAbs < divisor.natAbs) : dividend.tdiv divisor = 0 := by
  rw [← Int.natAbs_eq_zero, Int.natAbs_tdiv]
  exact Nat.div_eq_of_lt less

/-- A number that a signed width changes is beyond it. -/
theorem le_natAbs_of_bmod_ne {number : Int} (changed : number.bmod (2 ^ (width + 1)) ≠ number) :
    2 ^ width ≤ number.natAbs := by
  by_contra large
  have small : (number.natAbs : Int) < 2 ^ width := by exact_mod_cast Nat.lt_of_not_le large
  refine changed (Int.bmod_eq_of_le_mul_two ?_ ?_)
  · rw [pow_succ]
    push_cast
    omega
  · rw [pow_succ]
    push_cast
    omega

theorem divSIExact_iff {dividend divisor : Int} (small : dividend.natAbs < 2 ^ width)
    (nonzero : divisor ≠ 0) :
    (0 ≤ dividend.tdiv (divisor.bmod (2 ^ (width + 1))) ∧
        dividend.tdiv (divisor.bmod (2 ^ (width + 1))) = dividend.tdiv divisor ∧
        divisor.bmod (2 ^ (width + 1)) ≠ 0) ↔ DivSIExact (width + 1) dividend divisor := by
  have beyond : divisor.bmod (2 ^ (width + 1)) ≠ divisor → dividend.tdiv divisor = 0 :=
    fun changed => tdiv_eq_zero_of_natAbs_lt (lt_of_lt_of_le small (le_natAbs_of_bmod_ne changed))
  have sign := Int.sign_tdiv dividend (divisor.bmod (2 ^ (width + 1)))
  rw [DivSIExact]
  generalize divisor.bmod (2 ^ (width + 1)) = narrow at *
  by_cases less : dividend.natAbs < narrow.natAbs
  · have zero := tdiv_eq_zero_of_natAbs_lt less
    have same : dividend.tdiv divisor = 0 := by
      by_cases changed : narrow = divisor
      · rwa [← changed]
      · exact beyond changed
    have some : narrow ≠ 0 := by
      rintro rfl
      simp at less
    simp [less, zero, same, some]
  · rw [if_neg less] at sign
    by_cases changed : narrow = divisor
    · rw [changed, ← Int.sign_mul] at sign
      have signs : 0 ≤ dividend.tdiv divisor ↔ 0 ≤ dividend * divisor := by
        rw [← Int.sign_nonneg_iff, sign, Int.sign_nonneg_iff]
      rw [changed] at less ⊢
      simp [less, nonzero, signs]
    · have none : ¬(dividend.tdiv narrow = dividend.tdiv divisor ∧ narrow ≠ 0) := by
        rintro ⟨same, some⟩
        rw [same, beyond changed, Int.sign_zero, ← Int.sign_mul, eq_comm,
          Int.sign_eq_zero_iff_zero] at sign
        rcases Int.mul_eq_zero.mp sign with zero | zero
        · rw [zero] at less
          omega
        · exact some zero
      simp [less, changed]
      tauto

end Exact

section Rewrite

variable {resWidth : Nat} (op : ArithOp) (lhs rhs : Source resWidth)

/-- Narrowed or not, the operation gives its original result, and a divisor that is
narrowed stays nonzero. -/
def Preserves : Prop :=
  arithSingleType op lhs rhs = op.apply lhs.value rhs.value ∧
    ((optWidth op lhs rhs).bitWidth < resWidth →
      modBitWidth (getMinimalValue rhs) (optWidth op lhs rhs).bitWidth ≠ 0)

variable {op lhs rhs}

theorem arithSingleType_of_divWidth (divides : op.fTransfer = divWidth true)
    (narrows : (getMinimalValue lhs).bitWidth + 1 < resWidth) :
    arithSingleType op lhs rhs = (op.apply
      (lhs.value.setWidth ((getMinimalValue lhs).bitWidth + 1))
      (rhs.value.setWidth ((getMinimalValue lhs).bitWidth + 1))).setWidth resWidth := by
  have width : optWidth op lhs rhs = ⟨.zext, (getMinimalValue lhs).bitWidth + 1⟩ := by
    rw [optWidth, divides]
    rfl
  rw [arithSingleType, width, if_neg (Nat.not_le_of_lt narrows), modArithOp,
    modBitWidth_getMinimalValue _ (Nat.le_of_lt narrows),
    modBitWidth_getMinimalValue _ (Nat.le_of_lt narrows), modBitWidth, if_pos narrows]

/-- What is not narrowed is preserved; what is must give the same result from the low
parts. -/
theorem preserves_iff (divides : op.fTransfer = divWidth true) :
    Preserves op lhs rhs ↔ resWidth ≤ (getMinimalValue lhs).bitWidth + 1 ∨
      ((op.apply (lhs.value.setWidth ((getMinimalValue lhs).bitWidth + 1))
        (rhs.value.setWidth ((getMinimalValue lhs).bitWidth + 1))).setWidth resWidth =
          op.apply lhs.value rhs.value ∧
        rhs.value.setWidth ((getMinimalValue lhs).bitWidth + 1) ≠ 0) := by
  have width : (optWidth op lhs rhs).bitWidth = (getMinimalValue lhs).bitWidth + 1 := by
    rw [optWidth, divides]
    rfl
  rw [Preserves, width]
  rcases Nat.lt_or_ge ((getMinimalValue lhs).bitWidth + 1) resWidth with narrows | wide
  · rw [arithSingleType_of_divWidth divides narrows,
      modBitWidth_getMinimalValue _ (Nat.le_of_lt narrows)]
    simp [narrows, Nat.not_le_of_lt narrows]
  · have kept : arithSingleType op lhs rhs = op.apply lhs.value rhs.value := by
      rw [arithSingleType, width, if_pos wide]
    simp [kept, wide, Nat.not_lt_of_le wide]

theorem setWidth_ne_zero_iff {width : Nat} (value : BitVec resWidth) :
    value.setWidth width ≠ 0 ↔ value.toNat % 2 ^ width ≠ 0 := by
  rw [ne_eq, ← BitVec.toNat_inj, BitVec.toNat_setWidth]
  rfl

theorem toNat_setWidth_of_lt {width : Nat} (value : BitVec width) (less : width < resWidth) :
    (value.setWidth resWidth).toNat = value.toNat := by
  rw [BitVec.toNat_setWidth]
  exact Nat.mod_eq_of_lt (Nat.lt_trans value.isLt (Nat.pow_lt_pow_right Nat.one_lt_two less))

theorem preserves_divui_iff (nonzero : rhs.value ≠ 0) :
    Preserves .divui lhs rhs ↔ resWidth ≤ (getMinimalValue lhs).bitWidth + 1 ∨
      DivUIExact lhs.value.toNat rhs.value.toNat ((getMinimalValue lhs).bitWidth + 1) := by
  rw [preserves_iff rfl, ← divUIExact_iff (Nat.pos_of_ne_zero fun zero =>
    nonzero (BitVec.eq_of_toNat_eq zero)), setWidth_ne_zero_iff]
  refine or_congr_right' fun narrows => ?_
  rw [← BitVec.toNat_inj, toNat_setWidth_of_lt _ (Nat.lt_of_not_le narrows)]
  simp only [ArithOp.apply, BitVec.udiv_eq, BitVec.toNat_udiv, BitVec.toNat_setWidth]

theorem preserves_remui_iff :
    Preserves .remui lhs rhs ↔ resWidth ≤ (getMinimalValue lhs).bitWidth + 1 ∨
      RemUIExact lhs.value.toNat rhs.value.toNat ((getMinimalValue lhs).bitWidth + 1) := by
  rw [preserves_iff rfl, ← remUIExact_iff, setWidth_ne_zero_iff]
  refine or_congr_right' fun narrows => ?_
  rw [← BitVec.toNat_inj, toNat_setWidth_of_lt _ (Nat.lt_of_not_le narrows)]
  simp only [ArithOp.apply, BitVec.umod_eq, BitVec.toNat_umod, BitVec.toNat_setWidth]

theorem Fits.natAbs_lt {extType : ExtType} {bitWidth : Nat} {number : Int}
    (fits : Fits extType bitWidth number) : (number.natAbs : Int) < 2 ^ bitWidth := by
  have positive : (0 : Int) < 2 ^ bitWidth := by positivity
  cases extType with
  | zext =>
      obtain ⟨least, most⟩ := fits
      omega
  | none =>
      obtain ⟨least, most⟩ := fits
      omega
  | sext =>
      obtain ⟨least, most⟩ := fits
      omega

/-- A narrowed dividend is smaller in size than half the range of the chosen width. -/
theorem natAbs_toInt_value_lt (source : Source resWidth)
    (narrows : (getMinimalValue source).bitWidth + 1 < resWidth) :
    source.value.toInt.natAbs < 2 ^ (getMinimalValue source).bitWidth := by
  have small := (getMinimalValue source).fits.natAbs_lt
  have grows : (2 : Int) ^ ((getMinimalValue source).bitWidth + 1) ≤ 2 ^ resWidth :=
    pow_le_pow_right₀ (by omega) (Nat.le_of_lt narrows)
  rw [pow_succ] at grows
  rw [← ofInt_number_getMinimalValue, BitVec.toInt_ofInt, Int.bmod_eq_of_le_mul_two]
  · exact_mod_cast small
  · push_cast
    omega
  · push_cast
    omega

/-- A quotient extended with zeros is the signed one if it has no sign. -/
theorem toInt_setWidth_eq_iff {width : Nat} {value : BitVec width} {quotient : Int}
    (less : width < resWidth) (small : 2 * quotient.natAbs < 2 ^ width) :
    (value.setWidth resWidth).toInt = quotient ↔ 0 ≤ value.toInt ∧ value.toInt = quotient := by
  have bound := value.isLt
  have grows : 2 ^ (width + 1) ≤ 2 ^ resWidth := Nat.pow_le_pow_right (by omega) less
  rw [pow_succ] at grows
  have extended : (value.setWidth resWidth).toInt = value.toNat := by
    rw [BitVec.toInt_eq_toNat_of_lt, toNat_setWidth_of_lt _ less]
    rw [toNat_setWidth_of_lt _ less]
    omega
  rw [extended, BitVec.toInt_eq_toNat_cond]
  split
  · omega
  · omega

theorem toInt_setWidth_of_le {width : Nat} (value : BitVec resWidth) (le : width ≤ resWidth) :
    (value.setWidth width).toInt = value.toInt.bmod (2 ^ width) := by
  rw [← BitVec.signExtend_eq_setWidth_of_le _ le, BitVec.signExtend, BitVec.toInt_ofInt]

/-- A dividend that is not the least number divides without overflow. -/
theorem toInt_sdiv_of_natAbs_lt {width : Nat} {dividend divisor : BitVec width}
    (positive : 0 < width) (small : 2 * dividend.toInt.natAbs < 2 ^ width) :
    (dividend.sdiv divisor).toInt = dividend.toInt.tdiv divisor.toInt := by
  refine BitVec.toInt_sdiv_of_ne_or_ne _ _ (.inl fun least => ?_)
  have power : 2 ^ (width - 1) * 2 = 2 ^ width := Nat.two_pow_pred_mul_two positive
  rw [least, BitVec.toInt_intMin_of_pos positive, Int.natAbs_neg, Int.natAbs_pow] at small
  change 2 * 2 ^ (width - 1) < _ at small
  omega

theorem preserves_divsi_iff (nonzero : rhs.value ≠ 0) :
    Preserves .divsi lhs rhs ↔ resWidth ≤ (getMinimalValue lhs).bitWidth + 1 ∨
      DivSIExact ((getMinimalValue lhs).bitWidth + 1) lhs.value.toInt rhs.value.toInt := by
  rw [preserves_iff rfl]
  refine or_congr_right' fun wide => ?_
  have narrows := Nat.lt_of_not_le wide
  have small := natAbs_toInt_value_lt lhs narrows
  generalize (getMinimalValue lhs).bitWidth = width at *
  have divisorNonzero : rhs.value.toInt ≠ 0 := fun zero =>
    nonzero (BitVec.eq_of_toInt_eq (zero.trans BitVec.toInt_zero.symm))
  have dividend : (lhs.value.setWidth (width + 1)).toInt = lhs.value.toInt := by
    rw [toInt_setWidth_of_le _ (Nat.le_of_lt narrows)]
    by_contra changed
    exact absurd small (Nat.not_lt_of_le (le_natAbs_of_bmod_ne changed))
  have divisor := toInt_setWidth_of_le rhs.value (Nat.le_of_lt narrows)
  have half : 2 * lhs.value.toInt.natAbs < 2 ^ (width + 1) := by
    rw [pow_succ]
    omega
  have grows : 2 ^ (width + 1) ≤ 2 ^ resWidth :=
    Nat.pow_le_pow_right (by omega) (Nat.le_of_lt narrows)
  have quotient : (lhs.value.sdiv rhs.value).toInt = lhs.value.toInt.tdiv rhs.value.toInt :=
    toInt_sdiv_of_natAbs_lt (by omega) (lt_of_lt_of_le half grows)
  have low : (BitVec.sdiv (lhs.value.setWidth (width + 1)) (rhs.value.setWidth (width + 1))).toInt =
      lhs.value.toInt.tdiv (rhs.value.toInt.bmod (2 ^ (width + 1))) := by
    rw [toInt_sdiv_of_natAbs_lt (Nat.succ_pos width) (by rw [dividend]; exact half), dividend,
      divisor]
  have kept : rhs.value.setWidth (width + 1) ≠ 0 ↔ rhs.value.toInt.bmod (2 ^ (width + 1)) ≠ 0 := by
    rw [← divisor, ne_eq, ne_eq, ← BitVec.toInt_inj]
    change ¬_ = BitVec.toInt 0#(width + 1) ↔ _
    rw [BitVec.toInt_zero]
  have bounded : 2 * (lhs.value.toInt.tdiv rhs.value.toInt).natAbs < 2 ^ (width + 1) := by
    have le := Int.natAbs_tdiv_le_natAbs lhs.value.toInt rhs.value.toInt
    rw [pow_succ]
    omega
  rw [← divSIExact_iff small divisorNonzero, ← BitVec.toInt_inj, ArithOp.apply, ArithOp.apply,
    quotient, toInt_setWidth_eq_iff narrows bounded, low, kept, and_assoc]

/-- A narrowed division or remainder keeps its value, and its divisor stays nonzero,
exactly for the operands of its condition. -/
theorem division_preserved_iff (lhs rhs : Source resWidth) (nonzero : rhs.value ≠ 0) :
    (Preserves .divui lhs rhs ↔ resWidth ≤ (getMinimalValue lhs).bitWidth + 1 ∨
        DivUIExact lhs.value.toNat rhs.value.toNat ((getMinimalValue lhs).bitWidth + 1)) ∧
      (Preserves .divsi lhs rhs ↔ resWidth ≤ (getMinimalValue lhs).bitWidth + 1 ∨
        DivSIExact ((getMinimalValue lhs).bitWidth + 1) lhs.value.toInt rhs.value.toInt) ∧
      (Preserves .remui lhs rhs ↔ resWidth ≤ (getMinimalValue lhs).bitWidth + 1 ∨
        RemUIExact lhs.value.toNat rhs.value.toNat ((getMinimalValue lhs).bitWidth + 1)) :=
  ⟨preserves_divui_iff nonzero, preserves_divsi_iff nonzero, preserves_remui_iff⟩

theorem division_preserved_small :
    Preserves .divui (.extUI 5#3 (by decide) : Source 8) (.constant 3#8) :=
  (division_preserved_iff (.extUI 5#3 (by decide) : Source 8) (.constant 3#8)
    (by decide)).1.mpr (.inr (.inl (by decide)))

/-- A three-bit five by sixteen divides by zero, by nineteen leaves two, and minus four by
two gives fourteen. -/
theorem division_not_preserved :
    (modBitWidth (getMinimalValue (.other 16#8 : Source 8)) 4 = 0 ∧
        ¬Preserves .divui (.extUI 5#3 (by decide) : Source 8) (.other 16#8)) ∧
      arithSingleType .remui (.extUI 5#3 (by decide) : Source 8) (.other 19#8) = 2 ∧
      ¬Preserves .remui (.extUI 5#3 (by decide) : Source 8) (.other 19#8) ∧
      arithSingleType .divsi (.extSI 4#3 (by decide) : Source 8) (.other 2#8) = 14 ∧
      ¬Preserves .divsi (.extSI 4#3 (by decide) : Source 8) (.other 2#8) := by
  refine ⟨⟨by decide, fun preserves => ?_⟩, by decide, fun preserves => ?_, by decide,
    fun preserves => ?_⟩
  · exact preserves.2 (by decide) (by decide)
  · exact absurd preserves.1 (by decide)
  · exact absurd preserves.1 (by decide)

end Rewrite

end Dynamatic.Bitwidth
