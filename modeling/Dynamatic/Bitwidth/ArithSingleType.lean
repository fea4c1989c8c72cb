import Dynamatic.Bitwidth.MinimalValue
import Mathlib.Tactic.Linarith

/-!
# Narrowing of arithmetic

`ArithSingleType` replaces an operation by one over the width that its transfer
function finds enough for the minimal operands, and extends the result. For the
arithmetic operations the transfer function's width and kind represent the integer
result; for the bitwise ones they repeat every bit beyond the width. So the result is
the original one.
-/

namespace Dynamatic.Bitwidth

/-- The operations that the pattern is registered for. -/
inductive ArithOp where
  | addi
  | subi
  | muli
  | andi
  | ori
  | xori
  | divui
  | divsi
  | remui
  deriving DecidableEq, Repr

def ArithOp.apply {width : Nat} : ArithOp → BitVec width → BitVec width → BitVec width
  | addi, lhs, rhs => lhs + rhs
  | subi, lhs, rhs => lhs - rhs
  | muli, lhs, rhs => lhs * rhs
  | andi, lhs, rhs => lhs &&& rhs
  | ori, lhs, rhs => lhs ||| rhs
  | xori, lhs, rhs => lhs ^^^ rhs
  | divui, lhs, rhs => lhs.udiv rhs
  | divsi, lhs, rhs => lhs.sdiv rhs
  | remui, lhs, rhs => lhs.umod rhs

section Transfer

/-- The operands with the larger extension type on the right. -/
def canonicalizeCommutativeExtensionType (lhs rhs : ExtWidth) : ExtWidth × ExtWidth :=
  if lhs.extType.rank > rhs.extType.rank then (rhs, lhs) else (lhs, rhs)

def addWidth (left right : ExtWidth) : ExtWidth :=
  let (lhs, rhs) := canonicalizeCommutativeExtensionType left right
  if rhs.extType.rank ≤ ExtType.zext.rank then ⟨.zext, max lhs.bitWidth rhs.bitWidth + 1⟩
  else if lhs.extType = .sext ∨ lhs.bitWidth < rhs.bitWidth then
    ⟨.sext, max lhs.bitWidth rhs.bitWidth + 1⟩
  else ⟨.sext, max lhs.bitWidth rhs.bitWidth + 2⟩

def subWidth (lhs rhs : ExtWidth) : ExtWidth :=
  if lhs.extType = rhs.extType then ⟨.sext, max lhs.bitWidth rhs.bitWidth + 1⟩
  else addWidth lhs rhs

def mulWidth (left right : ExtWidth) : ExtWidth :=
  let (lhs, rhs) := canonicalizeCommutativeExtensionType left right
  ⟨rhs.extType, lhs.bitWidth + rhs.bitWidth⟩

def divWidth (zeroExtend : Bool) (lhs _ : ExtWidth) : ExtWidth :=
  ⟨if zeroExtend then .zext else .none, lhs.bitWidth + 1⟩

def andWidth (left right : ExtWidth) : ExtWidth :=
  let (lhs, rhs) := canonicalizeCommutativeExtensionType left right
  if rhs.extType.rank ≤ ExtType.zext.rank then ⟨.zext, min lhs.bitWidth rhs.bitWidth⟩
  else if lhs.extType = .zext then ⟨.zext, lhs.bitWidth⟩
  else ⟨.sext, max lhs.bitWidth rhs.bitWidth⟩

def orWidth (left right : ExtWidth) : ExtWidth :=
  let (lhs, rhs) := canonicalizeCommutativeExtensionType left right
  if rhs.extType.rank ≤ ExtType.zext.rank then ⟨.zext, max lhs.bitWidth rhs.bitWidth⟩
  else if lhs.extType = .zext ∧ lhs.bitWidth ≥ rhs.bitWidth then ⟨.sext, 1 + lhs.bitWidth⟩
  else ⟨.sext, max lhs.bitWidth rhs.bitWidth⟩

/-- The transfer function that each operation is registered with. -/
def ArithOp.fTransfer : ArithOp → ExtWidth → ExtWidth → ExtWidth
  | addi => addWidth
  | subi => subWidth
  | muli => mulWidth
  | andi => andWidth
  | ori => orWidth
  | xori => orWidth
  | divui => divWidth true
  | divsi => divWidth true
  | remui => divWidth true

theorem canonicalizeCommutativeExtensionType_cases (lhs rhs : ExtWidth) :
    canonicalizeCommutativeExtensionType lhs rhs = (lhs, rhs) ∨
      canonicalizeCommutativeExtensionType lhs rhs = (rhs, lhs) := by
  rw [canonicalizeCommutativeExtensionType]
  split
  · exact .inr rfl
  · exact .inl rfl

theorem addWidth_ge (lhs rhs : ExtWidth) : lhs.bitWidth ≤ (addWidth lhs rhs).bitWidth ∧
    rhs.bitWidth ≤ (addWidth lhs rhs).bitWidth := by
  rcases canonicalizeCommutativeExtensionType_cases lhs rhs with pair | pair
  · rw [addWidth, pair]
    simp only
    split_ifs <;> simp only <;> omega
  · rw [addWidth, pair]
    simp only
    split_ifs <;> simp only <;> omega

theorem subWidth_ge (lhs rhs : ExtWidth) : lhs.bitWidth ≤ (subWidth lhs rhs).bitWidth ∧
    rhs.bitWidth ≤ (subWidth lhs rhs).bitWidth := by
  rw [subWidth]
  split
  · simp only
    omega
  · exact addWidth_ge lhs rhs

theorem mulWidth_ge (lhs rhs : ExtWidth) : lhs.bitWidth ≤ (mulWidth lhs rhs).bitWidth ∧
    rhs.bitWidth ≤ (mulWidth lhs rhs).bitWidth := by
  rcases canonicalizeCommutativeExtensionType_cases lhs rhs with pair | pair
  · rw [mulWidth, pair]
    simp only
    omega
  · rw [mulWidth, pair]
    simp only
    omega

theorem orWidth_ge (lhs rhs : ExtWidth) : lhs.bitWidth ≤ (orWidth lhs rhs).bitWidth ∧
    rhs.bitWidth ≤ (orWidth lhs rhs).bitWidth := by
  rcases canonicalizeCommutativeExtensionType_cases lhs rhs with pair | pair
  · rw [orWidth, pair]
    simp only
    split_ifs <;> simp only <;> omega
  · rw [orWidth, pair]
    simp only
    split_ifs <;> simp only <;> omega

end Transfer

section Rewrite

variable {resWidth : Nat} (op : ArithOp)

/-- The value that replaces the operation's result: that of the operation over the
optimized width, extended. -/
def modArithOp (lhs rhs : MinimalValue) (optWidth : Nat) (extRes : ExtType) (resWidth : Nat) :
    BitVec resWidth :=
  modBitWidth
    ⟨extRes, optWidth, op.apply (modBitWidth lhs optWidth) (modBitWidth rhs optWidth)⟩ resWidth

/-- The width and the extension that the forward pattern chooses. -/
def optWidth (lhs rhs : Source resWidth) : ExtWidth :=
  op.fTransfer ⟨(getMinimalValue lhs).extType, (getMinimalValue lhs).bitWidth⟩
    ⟨(getMinimalValue rhs).extType, (getMinimalValue rhs).bitWidth⟩

/-- The operation's result after the forward pattern was tried on it. -/
def arithSingleType (lhs rhs : Source resWidth) : BitVec resWidth :=
  if (optWidth op lhs rhs).bitWidth ≥ resWidth then op.apply lhs.value rhs.value
  else modArithOp op (getMinimalValue lhs) (getMinimalValue rhs) (optWidth op lhs rhs).bitWidth
    (optWidth op lhs rhs).extType resWidth

end Rewrite

section Fits

variable {small bitWidth : Nat} {left right : Int}

theorem Fits.zext_mono (fits : Fits .zext small left) (le : small ≤ bitWidth) :
    Fits .zext bitWidth left := by
  have grows : (2 : Int) ^ small ≤ 2 ^ bitWidth := pow_le_pow_right₀ (by omega) le
  exact ⟨fits.1, lt_of_lt_of_le fits.2 grows⟩

theorem Fits.sext_mono (fits : Fits .sext small left) (le : small ≤ bitWidth) :
    Fits .sext bitWidth left := by
  have grows : (2 : Int) ^ small ≤ 2 ^ bitWidth := pow_le_pow_right₀ (by omega) le
  exact ⟨by linarith [fits.1], by linarith [fits.2]⟩

/-- A zero-extended value needs one more bit to be sign-extended. -/
theorem Fits.sext_of_zext (fits : Fits .zext small left) (less : small < bitWidth) :
    Fits .sext bitWidth left := by
  have grows : (2 : Int) ^ (small + 1) ≤ 2 ^ bitWidth := pow_le_pow_right₀ (by omega) less
  rw [pow_succ] at grows
  have positive : (0 : Int) < 2 ^ bitWidth := by positivity
  exact ⟨by linarith [fits.1], by linarith [fits.2]⟩

theorem Fits.zext_add (leftFits : Fits .zext bitWidth left) (rightFits : Fits .zext bitWidth right) :
    Fits .zext (bitWidth + 1) (left + right) := by
  refine ⟨by linarith [leftFits.1, rightFits.1], ?_⟩
  rw [pow_succ]
  linarith [leftFits.2, rightFits.2]

theorem Fits.sext_add (leftFits : Fits .sext bitWidth left) (rightFits : Fits .sext bitWidth right) :
    Fits .sext (bitWidth + 1) (left + right) := by
  refine ⟨?_, ?_⟩ <;> rw [pow_succ]
  · linarith [leftFits.1, rightFits.1]
  · linarith [leftFits.2, rightFits.2]

theorem Fits.zext_sub (leftFits : Fits .zext bitWidth left) (rightFits : Fits .zext bitWidth right) :
    Fits .sext (bitWidth + 1) (left - right) := by
  refine ⟨?_, ?_⟩ <;> rw [pow_succ]
  · linarith [leftFits.1, rightFits.2]
  · linarith [leftFits.2, rightFits.1]

theorem Fits.sext_sub (leftFits : Fits .sext bitWidth left) (rightFits : Fits .sext bitWidth right) :
    Fits .sext (bitWidth + 1) (left - right) := by
  refine ⟨?_, ?_⟩ <;> rw [pow_succ]
  · linarith [leftFits.1, rightFits.2]
  · linarith [leftFits.2, rightFits.1]

theorem Fits.zext_mul (leftFits : Fits .zext small left) (rightFits : Fits .zext bitWidth right) :
    Fits .zext (small + bitWidth) (left * right) := by
  refine ⟨mul_nonneg leftFits.1 rightFits.1, ?_⟩
  rw [pow_add]
  exact mul_lt_mul'' leftFits.2 rightFits.2 leftFits.1 rightFits.1

/-- The product with a factor of bounded size. -/
theorem Fits.sext_mul_of_abs (leftFits : Fits .sext small left) (least : -2 ^ bitWidth < right)
    (most : right < 2 ^ bitWidth) : Fits .sext (small + bitWidth) (left * right) := by
  have leftBound : |2 * left| ≤ 2 ^ small := abs_le.mpr ⟨leftFits.1, le_of_lt leftFits.2⟩
  have rightBound : |right| ≤ 2 ^ bitWidth - 1 := abs_le.mpr ⟨by linarith, by linarith⟩
  have positive : (0 : Int) < 2 ^ small := by positivity
  have product : |2 * left * right| ≤ 2 ^ small * (2 ^ bitWidth - 1) := by
    rw [abs_mul]
    exact mul_le_mul leftBound rightBound (abs_nonneg _) (le_of_lt positive)
  obtain ⟨below, above⟩ := abs_le.mp product
  rw [mul_sub, mul_one] at below above
  refine ⟨?_, ?_⟩ <;> rw [pow_add, ← mul_assoc]
  · linarith
  · linarith

theorem Fits.sext_mul_of_zext (leftFits : Fits .sext small left)
    (rightFits : Fits .zext bitWidth right) : Fits .sext (small + bitWidth) (left * right) := by
  have positive : (0 : Int) < 2 ^ bitWidth := by positivity
  exact leftFits.sext_mul_of_abs (by linarith [rightFits.1]) rightFits.2

theorem Fits.sext_mul (leftFits : Fits .sext small left) (rightFits : Fits .sext bitWidth right) :
    Fits .sext (small + bitWidth) (left * right) := by
  have positive : (0 : Int) < 2 ^ bitWidth := by positivity
  exact leftFits.sext_mul_of_abs (by linarith [rightFits.1]) (by linarith [rightFits.2])

end Fits

section Numbers

variable {lhs rhs : Nat} {left right : Int}

theorem addWidth_zext_sext : addWidth ⟨.zext, lhs⟩ ⟨.sext, rhs⟩ =
    if lhs < rhs then ⟨.sext, rhs + 1⟩ else ⟨.sext, lhs + 2⟩ := by
  by_cases less : lhs < rhs
  · simp [addWidth, canonicalizeCommutativeExtensionType, ExtType.rank, less, Nat.le_of_lt less]
  · simp [addWidth, canonicalizeCommutativeExtensionType, ExtType.rank, less, Nat.le_of_not_lt less]

theorem addWidth_sext_zext : addWidth ⟨.sext, lhs⟩ ⟨.zext, rhs⟩ =
    addWidth ⟨.zext, rhs⟩ ⟨.sext, lhs⟩ := rfl

/-- For operands of different kinds, both a sum and a difference fit. -/
theorem fits_addWidth_mixed (leftFits : Fits .zext lhs left) (rightFits : Fits .sext rhs right) :
    Fits (addWidth ⟨.zext, lhs⟩ ⟨.sext, rhs⟩).extType (addWidth ⟨.zext, lhs⟩ ⟨.sext, rhs⟩).bitWidth
        (left + right) ∧
      Fits (addWidth ⟨.zext, lhs⟩ ⟨.sext, rhs⟩).extType (addWidth ⟨.zext, lhs⟩ ⟨.sext, rhs⟩).bitWidth
        (left - right) ∧
      Fits (addWidth ⟨.zext, lhs⟩ ⟨.sext, rhs⟩).extType (addWidth ⟨.zext, lhs⟩ ⟨.sext, rhs⟩).bitWidth
        (right - left) := by
  rw [addWidth_zext_sext]
  split
  · rename_i less
    have leftWide := leftFits.sext_of_zext less
    exact ⟨leftWide.sext_add rightFits, leftWide.sext_sub rightFits, rightFits.sext_sub leftWide⟩
  · rename_i notLess
    have leftWide := leftFits.sext_of_zext (Nat.lt_succ_self lhs)
    have rightWide := rightFits.sext_mono (by omega : rhs ≤ lhs + 1)
    exact ⟨leftWide.sext_add rightWide, leftWide.sext_sub rightWide, rightWide.sext_sub leftWide⟩

theorem fits_addWidth {lhsType rhsType : ExtType} (lhsKind : lhsType ≠ .none)
    (rhsKind : rhsType ≠ .none) (leftFits : Fits lhsType lhs left)
    (rightFits : Fits rhsType rhs right) :
    Fits (addWidth ⟨lhsType, lhs⟩ ⟨rhsType, rhs⟩).extType
      (addWidth ⟨lhsType, lhs⟩ ⟨rhsType, rhs⟩).bitWidth (left + right) := by
  cases lhsType with
  | none => exact absurd rfl lhsKind
  | zext =>
      cases rhsType with
      | none => exact absurd rfl rhsKind
      | zext =>
          exact (leftFits.zext_mono (Nat.le_max_left _ _)).zext_add
            (rightFits.zext_mono (Nat.le_max_right _ _))
      | sext => exact (fits_addWidth_mixed leftFits rightFits).1
  | sext =>
      cases rhsType with
      | none => exact absurd rfl rhsKind
      | zext =>
          rw [addWidth_sext_zext, add_comm]
          exact (fits_addWidth_mixed rightFits leftFits).1
      | sext =>
          exact (leftFits.sext_mono (Nat.le_max_left _ _)).sext_add
            (rightFits.sext_mono (Nat.le_max_right _ _))

theorem fits_subWidth {lhsType rhsType : ExtType} (lhsKind : lhsType ≠ .none)
    (rhsKind : rhsType ≠ .none) (leftFits : Fits lhsType lhs left)
    (rightFits : Fits rhsType rhs right) :
    Fits (subWidth ⟨lhsType, lhs⟩ ⟨rhsType, rhs⟩).extType
      (subWidth ⟨lhsType, lhs⟩ ⟨rhsType, rhs⟩).bitWidth (left - right) := by
  cases lhsType with
  | none => exact absurd rfl lhsKind
  | zext =>
      cases rhsType with
      | none => exact absurd rfl rhsKind
      | zext =>
          exact (leftFits.zext_mono (Nat.le_max_left _ _)).zext_sub
            (rightFits.zext_mono (Nat.le_max_right _ _))
      | sext => exact (fits_addWidth_mixed leftFits rightFits).2.1
  | sext =>
      cases rhsType with
      | none => exact absurd rfl rhsKind
      | zext =>
          have mixed := (fits_addWidth_mixed rightFits leftFits).2.2
          rwa [← addWidth_sext_zext] at mixed
      | sext =>
          exact (leftFits.sext_mono (Nat.le_max_left _ _)).sext_sub
            (rightFits.sext_mono (Nat.le_max_right _ _))

theorem fits_mulWidth {lhsType rhsType : ExtType} (lhsKind : lhsType ≠ .none)
    (rhsKind : rhsType ≠ .none) (leftFits : Fits lhsType lhs left)
    (rightFits : Fits rhsType rhs right) :
    Fits (mulWidth ⟨lhsType, lhs⟩ ⟨rhsType, rhs⟩).extType
      (mulWidth ⟨lhsType, lhs⟩ ⟨rhsType, rhs⟩).bitWidth (left * right) := by
  cases lhsType with
  | none => exact absurd rfl lhsKind
  | zext =>
      cases rhsType with
      | none => exact absurd rfl rhsKind
      | zext => exact leftFits.zext_mul rightFits
      | sext =>
          rw [mul_comm]
          have product := rightFits.sext_mul_of_zext leftFits
          rwa [Nat.add_comm] at product
  | sext =>
      cases rhsType with
      | none => exact absurd rfl rhsKind
      | zext =>
          have product := leftFits.sext_mul_of_zext rightFits
          rwa [Nat.add_comm] at product
      | sext => exact leftFits.sext_mul rightFits

end Numbers

section Bits

/-- The bits of a value extended without end. -/
def MinimalValue.bit (extVal : MinimalValue) (index : Nat) : Bool :=
  if index < extVal.bitWidth then extVal.bits.getLsbD index
  else extVal.extType ≠ .zext && extVal.bits.msb

variable {extVal : MinimalValue} {index : Nat}

theorem getLsbD_modBitWidth (extVal : MinimalValue) (target index : Nat) :
    (modBitWidth extVal target).getLsbD index = (decide (index < target) && extVal.bit index) := by
  obtain ⟨kind, width, bits⟩ := extVal
  rw [modBitWidth, MinimalValue.bit]
  by_cases inside : index < width
  · split
    · cases kind <;> simp [inside, BitVec.getLsbD_signExtend]
    · simp [inside]
  · have outside : bits.getLsbD index = false := BitVec.getLsbD_of_ge _ _ (Nat.le_of_not_lt inside)
    split
    · cases kind <;> simp [inside, outside, BitVec.getLsbD_signExtend]
    · rename_i narrow
      have beyond : ¬ index < target := by
        simp only at narrow
        omega
      simp [outside, beyond]

theorem bit_of_zext (kind : extVal.extType = .zext) (outside : extVal.bitWidth ≤ index) :
    extVal.bit index = false := by
  simp [MinimalValue.bit, kind, Nat.not_lt_of_le outside]

/-- The sign repeats from the top bit on. -/
theorem bit_of_sext (kind : extVal.extType = .sext) (outside : extVal.bitWidth ≤ index + 1) :
    extVal.bit index = extVal.bits.msb := by
  rw [MinimalValue.bit]
  split
  · have last : index = extVal.bitWidth - 1 := by omega
    rw [BitVec.msb_eq_getLsbD_last, last]
  · simp [kind]

variable {resWidth : Nat}

theorem getLsbD_value (source : Source resWidth) (index : Nat) :
    source.value.getLsbD index = (decide (index < resWidth) && (getMinimalValue source).bit index) := by
  rw [← ofInt_number_getMinimalValue, ← modBitWidth_eq, getLsbD_modBitWidth]

/-- Up to the width of the value, the modified minimal value is the value's low part. -/
theorem modBitWidth_getMinimalValue (source : Source resWidth) {target : Nat}
    (le : target ≤ resWidth) :
    modBitWidth (getMinimalValue source) target = source.value.setWidth target := by
  refine BitVec.eq_of_getLsbD_eq fun index inside => ?_
  rw [getLsbD_modBitWidth, BitVec.getLsbD_setWidth, getLsbD_value]
  simp [inside, Nat.lt_of_lt_of_le inside le]

/-- Operations that work bit by bit. -/
structure ArithOp.Bitwise (op : ArithOp) (apply : Bool → Bool → Bool) : Prop where
  getLsbD : ∀ (width : Nat) (lhs rhs : BitVec width) (index : Nat),
    (op.apply lhs rhs).getLsbD index = apply (lhs.getLsbD index) (rhs.getLsbD index)
  clear : apply false false = false

theorem bitwise_andi : ArithOp.Bitwise .andi and := ⟨fun _ _ _ _ => BitVec.getLsbD_and, rfl⟩

theorem bitwise_ori : ArithOp.Bitwise .ori or := ⟨fun _ _ _ _ => BitVec.getLsbD_or, rfl⟩

theorem bitwise_xori : ArithOp.Bitwise .xori xor := ⟨fun _ _ _ _ => BitVec.getLsbD_xor, rfl⟩

variable {op : ArithOp} {apply : Bool → Bool → Bool}

/-- The bits beyond a width are those that an extension of the given kind repeats. -/
def Repeats (extWidth : ExtWidth) (bit : Nat → Bool) : Prop :=
  ∀ index, extWidth.bitWidth ≤ index →
    bit index = (decide (extWidth.extType ≠ .zext) && decide (0 < extWidth.bitWidth) &&
      bit (extWidth.bitWidth - 1))

/-- A bitwise operation is narrowed exactly when its result's bits repeat. -/
theorem modArithOp_of_repeats (bitwise : op.Bitwise apply) (lhs rhs : Source resWidth)
    {optWidth : ExtWidth} (repeats : Repeats optWidth fun index =>
      apply ((getMinimalValue lhs).bit index) ((getMinimalValue rhs).bit index)) :
    modArithOp op (getMinimalValue lhs) (getMinimalValue rhs) optWidth.bitWidth optWidth.extType
      resWidth = op.apply lhs.value rhs.value := by
  have narrow : ∀ index, (op.apply (modBitWidth (getMinimalValue lhs) optWidth.bitWidth)
      (modBitWidth (getMinimalValue rhs) optWidth.bitWidth)).getLsbD index =
      (decide (index < optWidth.bitWidth) &&
        apply ((getMinimalValue lhs).bit index) ((getMinimalValue rhs).bit index)) := by
    intro index
    rw [bitwise.getLsbD, getLsbD_modBitWidth, getLsbD_modBitWidth]
    by_cases inside : index < optWidth.bitWidth
    · simp [inside]
    · simp [inside, bitwise.clear]
  refine BitVec.eq_of_getLsbD_eq fun index inside => ?_
  rw [modArithOp, getLsbD_modBitWidth, bitwise.getLsbD, getLsbD_value, getLsbD_value]
  simp only [inside, decide_true, Bool.true_and, MinimalValue.bit]
  by_cases low : index < optWidth.bitWidth
  · rw [if_pos low, narrow]
    simp [low, MinimalValue.bit]
  · have same := repeats index (Nat.le_of_not_lt low)
    rw [if_neg low, BitVec.msb_eq_getLsbD_last, narrow]
    simp only [MinimalValue.bit] at same ⊢
    rw [same]
    by_cases some : 0 < optWidth.bitWidth
    · simp [some, Nat.sub_lt some Nat.one_pos]
    · simp [some]

variable {lhs rhs : MinimalValue}

/-- Bits that are clear from a width on are repeated by a zero extension. -/
theorem repeats_zext (width : Nat) {bit : Nat → Bool}
    (clear : ∀ index, width ≤ index → bit index = false) : Repeats ⟨.zext, width⟩ bit := by
  intro index outside
  simp [clear index outside]

/-- Bits that repeat from the last one of a width on are repeated by a sign extension. -/
theorem repeats_sext (width : Nat) {bit : Nat → Bool} (top : Bool)
    (same : ∀ index, width ≤ index + 1 → bit index = top) (none : width = 0 → top = false) :
    Repeats ⟨.sext, width⟩ bit := by
  intro index outside
  rw [same index (by simp only at outside; omega)]
  rcases Nat.eq_zero_or_pos width with zero | some
  · simp [zero, none zero]
  · simp [some, same (width - 1) (by omega)]

theorem msb_of_noBits (noBits : lhs.bitWidth = 0) : lhs.bits.msb = false := by
  rw [BitVec.msb_eq_getLsbD_last]
  simp [noBits]

theorem repeats_andWidth {width : Nat} (lhsNone : lhs.extType = .none → lhs.bitWidth = width)
    (rhsNone : rhs.extType = .none → rhs.bitWidth = width)
    (narrows : (andWidth ⟨lhs.extType, lhs.bitWidth⟩ ⟨rhs.extType, rhs.bitWidth⟩).bitWidth < width) :
    Repeats (andWidth ⟨lhs.extType, lhs.bitWidth⟩ ⟨rhs.extType, rhs.bitWidth⟩)
      fun index => lhs.bit index && rhs.bit index := by
  cases left : lhs.extType with
  | none =>
      have lhsWide := lhsNone left
      cases right : rhs.extType with
      | none =>
          have rhsWide := rhsNone right
          have least : min lhs.bitWidth rhs.bitWidth < width := by
            rw [left, right] at narrows
            exact narrows
          omega
      | zext =>
          have least : min lhs.bitWidth rhs.bitWidth < width := by
            rw [left, right] at narrows
            exact narrows
          refine repeats_zext (min lhs.bitWidth rhs.bitWidth) fun index outside => ?_
          rw [bit_of_zext right (by omega), Bool.and_false]
      | sext =>
          have most : max lhs.bitWidth rhs.bitWidth < width := by
            rw [left, right] at narrows
            exact narrows
          omega
  | zext =>
      cases right : rhs.extType with
      | none =>
          have rhsWide := rhsNone right
          have least : min rhs.bitWidth lhs.bitWidth < width := by
            rw [left, right] at narrows
            exact narrows
          refine repeats_zext (min rhs.bitWidth lhs.bitWidth) fun index outside => ?_
          rw [bit_of_zext left (by omega), Bool.false_and]
      | zext =>
          refine repeats_zext (min lhs.bitWidth rhs.bitWidth) fun index outside => ?_
          rcases Nat.le_total lhs.bitWidth rhs.bitWidth with le | ge
          · rw [bit_of_zext left (by omega), Bool.false_and]
          · rw [bit_of_zext right (by omega), Bool.and_false]
      | sext =>
          refine repeats_zext lhs.bitWidth fun index outside => ?_
          rw [bit_of_zext left outside, Bool.false_and]
  | sext =>
      cases right : rhs.extType with
      | none =>
          have rhsWide := rhsNone right
          have most : max rhs.bitWidth lhs.bitWidth < width := by
            rw [left, right] at narrows
            exact narrows
          omega
      | zext =>
          refine repeats_zext rhs.bitWidth fun index outside => ?_
          rw [bit_of_zext right outside, Bool.and_false]
      | sext =>
          refine repeats_sext (max lhs.bitWidth rhs.bitWidth)
            (lhs.bits.msb && rhs.bits.msb) (fun index outside => ?_) fun none => ?_
          · rw [bit_of_sext left (by omega), bit_of_sext right (by omega)]
          · rw [msb_of_noBits (by omega : lhs.bitWidth = 0), Bool.false_and]

/-- Above a zero-extended operand the result is the sign-extended one; the width leaves
room for its sign. -/
theorem repeats_orWidth_mixed {zextWidth : Nat} {bit : Nat → Bool} (kind : extVal.extType = .sext)
    (above : ∀ index, zextWidth ≤ index → bit index = extVal.bit index) :
    Repeats (orWidth ⟨.zext, zextWidth⟩ ⟨.sext, extVal.bitWidth⟩) bit := by
  by_cases wide : zextWidth ≥ extVal.bitWidth
  · have width : orWidth ⟨.zext, zextWidth⟩ ⟨.sext, extVal.bitWidth⟩ = ⟨.sext, 1 + zextWidth⟩ := by
      simp [orWidth, canonicalizeCommutativeExtensionType, ExtType.rank, wide]
    rw [width]
    refine repeats_sext _ extVal.bits.msb (fun index outside => ?_) (by omega)
    rw [above index (by omega), bit_of_sext kind (by omega)]
  · have width : orWidth ⟨.zext, zextWidth⟩ ⟨.sext, extVal.bitWidth⟩ = ⟨.sext, extVal.bitWidth⟩ := by
      simp only [orWidth, canonicalizeCommutativeExtensionType, ExtType.rank]
      simp [wide]
      omega
    rw [width]
    refine repeats_sext _ extVal.bits.msb (fun index outside => ?_) (by omega)
    rw [above index (by omega), bit_of_sext kind outside]

/-- Or and exclusive or, where a clear bit changes nothing. -/
theorem repeats_orWidth {width : Nat} (unit : ∀ bit, apply false bit = bit ∧ apply bit false = bit)
    (lhsNone : lhs.extType = .none → lhs.bitWidth = width)
    (rhsNone : rhs.extType = .none → rhs.bitWidth = width)
    (narrows : (orWidth ⟨lhs.extType, lhs.bitWidth⟩ ⟨rhs.extType, rhs.bitWidth⟩).bitWidth < width) :
    Repeats (orWidth ⟨lhs.extType, lhs.bitWidth⟩ ⟨rhs.extType, rhs.bitWidth⟩)
      fun index => apply (lhs.bit index) (rhs.bit index) := by
  have wide := orWidth_ge ⟨lhs.extType, lhs.bitWidth⟩ ⟨rhs.extType, rhs.bitWidth⟩
  cases left : lhs.extType with
  | none =>
      have lhsWide := lhsNone left
      simp only at wide
      omega
  | zext =>
      cases right : rhs.extType with
      | none =>
          have rhsWide := rhsNone right
          simp only at wide
          omega
      | zext =>
          refine repeats_zext (max lhs.bitWidth rhs.bitWidth) fun index outside => ?_
          rw [bit_of_zext left (by omega), bit_of_zext right (by omega)]
          exact (unit false).1
      | sext =>
          refine repeats_orWidth_mixed right fun index outside => ?_
          rw [bit_of_zext left outside]
          exact (unit _).1
  | sext =>
      cases right : rhs.extType with
      | none =>
          have rhsWide := rhsNone right
          simp only at wide
          omega
      | zext =>
          have mixed : Repeats (orWidth ⟨.zext, rhs.bitWidth⟩ ⟨.sext, lhs.bitWidth⟩)
              fun index => apply (lhs.bit index) (rhs.bit index) :=
            repeats_orWidth_mixed left fun index outside => by
              rw [bit_of_zext right outside]
              exact (unit _).2
          exact mixed
      | sext =>
          refine repeats_sext (max lhs.bitWidth rhs.bitWidth)
            (apply lhs.bits.msb rhs.bits.msb) (fun index outside => ?_) fun none => ?_
          · rw [bit_of_sext left (by omega), bit_of_sext right (by omega)]
          · rw [msb_of_noBits (by omega : lhs.bitWidth = 0), msb_of_noBits (by omega : rhs.bitWidth = 0)]
            exact (unit false).1

end Bits

section Exact

variable {resWidth : Nat}

/-- Operations that work on integers modulo the width. -/
def ArithOp.OnNumbers (op : ArithOp) (apply : Int → Int → Int) : Prop :=
  ∀ (width : Nat) (lhs rhs : Int),
    op.apply (BitVec.ofInt width lhs) (BitVec.ofInt width rhs) = BitVec.ofInt width (apply lhs rhs)

theorem onNumbers_addi : ArithOp.OnNumbers .addi (· + ·) := fun _ lhs rhs =>
  (BitVec.ofInt_add lhs rhs).symm

theorem onNumbers_muli : ArithOp.OnNumbers .muli (· * ·) := fun _ lhs rhs =>
  (BitVec.ofInt_mul lhs rhs).symm

theorem onNumbers_subi : ArithOp.OnNumbers .subi (· - ·) := by
  intro width lhs rhs
  change BitVec.ofInt width lhs - BitVec.ofInt width rhs = BitVec.ofInt width (lhs - rhs)
  rw [Int.sub_eq_add_neg, BitVec.ofInt_add, BitVec.ofInt_neg, BitVec.sub_eq_add_neg]

/-- An operation on integers is narrowed exactly when its result fits. -/
theorem modArithOp_of_fits {op : ArithOp} {apply : Int → Int → Int} (onNumbers : op.OnNumbers apply)
    (lhs rhs : Source resWidth) {optWidth : ExtWidth}
    (fits : Fits optWidth.extType optWidth.bitWidth
      (apply (getMinimalValue lhs).number (getMinimalValue rhs).number)) :
    modArithOp op (getMinimalValue lhs) (getMinimalValue rhs) optWidth.bitWidth optWidth.extType
      resWidth = op.apply lhs.value rhs.value := by
  rw [modArithOp, modBitWidth_eq _ optWidth.bitWidth, modBitWidth_eq _ optWidth.bitWidth, onNumbers,
    modBitWidth_ofInt fits, ← onNumbers, ofInt_number_getMinimalValue, ofInt_number_getMinimalValue]

/-- No arithmetic operation is narrowed with an operand that is not extended. -/
theorem extended_of_narrows {fTransfer : ExtWidth → ExtWidth → ExtWidth}
    (wide : ∀ lhs rhs, lhs.bitWidth ≤ (fTransfer lhs rhs).bitWidth ∧
      rhs.bitWidth ≤ (fTransfer lhs rhs).bitWidth)
    (lhs rhs : Source resWidth)
    (narrows : (fTransfer ⟨(getMinimalValue lhs).extType, (getMinimalValue lhs).bitWidth⟩
      ⟨(getMinimalValue rhs).extType, (getMinimalValue rhs).bitWidth⟩).bitWidth < resWidth) :
    (getMinimalValue lhs).extType ≠ .none ∧ (getMinimalValue rhs).extType ≠ .none := by
  obtain ⟨lhsBound, rhsBound⟩ := wide ⟨(getMinimalValue lhs).extType, (getMinimalValue lhs).bitWidth⟩
    ⟨(getMinimalValue rhs).extType, (getMinimalValue rhs).bitWidth⟩
  simp only at lhsBound rhsBound
  refine ⟨fun unknown => ?_, fun unknown => ?_⟩
  · have same := (bitWidth_getMinimalValue lhs).2.mp unknown
    omega
  · have same := (bitWidth_getMinimalValue rhs).2.mp unknown
    omega

variable (lhs rhs : Source resWidth)

/-- The pattern keeps an operation on integers whose transfer function is wide enough. -/
theorem arithSingleType_of_fits {op : ArithOp} {apply : Int → Int → Int}
    (onNumbers : op.OnNumbers apply)
    (wide : ∀ lhs rhs, lhs.bitWidth ≤ (op.fTransfer lhs rhs).bitWidth ∧
      rhs.bitWidth ≤ (op.fTransfer lhs rhs).bitWidth)
    (fits : (getMinimalValue lhs).extType ≠ .none → (getMinimalValue rhs).extType ≠ .none →
      Fits (optWidth op lhs rhs).extType (optWidth op lhs rhs).bitWidth
        (apply (getMinimalValue lhs).number (getMinimalValue rhs).number)) :
    arithSingleType op lhs rhs = op.apply lhs.value rhs.value := by
  rw [arithSingleType]
  split
  · rfl
  · rename_i narrows
    obtain ⟨left, right⟩ := extended_of_narrows wide lhs rhs (Nat.lt_of_not_le narrows)
    exact modArithOp_of_fits onNumbers lhs rhs (fits left right)

/-- The pattern keeps a bitwise operation whose transfer function repeats its bits. -/
theorem arithSingleType_of_repeats {op : ArithOp} {apply : Bool → Bool → Bool}
    (bitwise : op.Bitwise apply)
    (repeats : (optWidth op lhs rhs).bitWidth < resWidth → Repeats (optWidth op lhs rhs)
      fun index => apply ((getMinimalValue lhs).bit index) ((getMinimalValue rhs).bit index)) :
    arithSingleType op lhs rhs = op.apply lhs.value rhs.value := by
  rw [arithSingleType]
  split
  · rfl
  · rename_i narrows
    exact modArithOp_of_repeats bitwise lhs rhs (repeats (Nat.lt_of_not_le narrows))

/-- The forward pattern leaves every addition, subtraction, multiplication and bitwise
operation with the value it had. -/
theorem arithSingleType_preserves :
    arithSingleType .addi lhs rhs = lhs.value + rhs.value ∧
      arithSingleType .subi lhs rhs = lhs.value - rhs.value ∧
      arithSingleType .muli lhs rhs = lhs.value * rhs.value ∧
      arithSingleType .andi lhs rhs = lhs.value &&& rhs.value ∧
      arithSingleType .ori lhs rhs = lhs.value ||| rhs.value ∧
      arithSingleType .xori lhs rhs = lhs.value ^^^ rhs.value := by
  have lhsNone := (bitWidth_getMinimalValue lhs).2.mp
  have rhsNone := (bitWidth_getMinimalValue rhs).2.mp
  have leftFits := (getMinimalValue lhs).fits
  have rightFits := (getMinimalValue rhs).fits
  refine ⟨?_, ?_, ?_, ?_, ?_, ?_⟩
  · exact arithSingleType_of_fits lhs rhs onNumbers_addi addWidth_ge fun left right =>
      fits_addWidth left right leftFits rightFits
  · exact arithSingleType_of_fits lhs rhs onNumbers_subi subWidth_ge fun left right =>
      fits_subWidth left right leftFits rightFits
  · exact arithSingleType_of_fits lhs rhs onNumbers_muli mulWidth_ge fun left right =>
      fits_mulWidth left right leftFits rightFits
  · exact arithSingleType_of_repeats lhs rhs bitwise_andi (repeats_andWidth lhsNone rhsNone)
  · exact arithSingleType_of_repeats lhs rhs bitwise_ori
      (repeats_orWidth (fun bit => ⟨Bool.false_or bit, Bool.or_false bit⟩) lhsNone rhsNone)
  · exact arithSingleType_of_repeats lhs rhs bitwise_xori
      (repeats_orWidth (fun bit => ⟨Bool.false_xor bit, Bool.xor_false bit⟩) lhsNone rhsNone)

end Exact

end Dynamatic.Bitwidth
