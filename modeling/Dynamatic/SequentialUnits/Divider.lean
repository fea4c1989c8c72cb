import Dynamatic.SequentialUnits.Multiplier
import Mathlib.Data.Nat.Size

/-!
# Sequential dividers

The restoring long division of `sequential_divider.py` and `divui_sequential.v`: one quotient bit
in each cycle, on one register set. The remainder register has no room for the bit that the shift
brings in, but after some steps it is bounded by the bits of the dividend seen so far.
-/

namespace Dynamatic.SequentialUnits

variable {width : Nat}

/-- The operand and result registers; `negate` belongs to the signed units. -/
structure DividerData (width : Nat) where
  dividend : BitVec width
  divisor : BitVec width
  remd : BitVec width
  negate : Bool

namespace DividerData

variable (data : DividerData width)

/-- The remainder shifted left, with the top bit of the dividend shifted in. -/
def comb : BitVec width := data.remd.shiftConcat data.dividend.msb

/-- The difference, its borrow on top. -/
def cal : BitVec (width + 1) := data.comb.setWidth (width + 1) - data.divisor.setWidth (width + 1)

/-- One restoring step. -/
def step : DividerData width where
  dividend := data.dividend.shiftConcat (!data.cal.msb)
  divisor := data.divisor
  remd := if data.cal.msb then data.comb else data.cal.setWidth width
  negate := data.negate

end DividerData

/-- The operand that goes into the iteration: its magnitude in a signed unit. -/
def taken (signed : Bool) (operand : BitVec width) : BitVec width :=
  if signed then if operand.msb then ~~~operand + 1 else operand else operand

/-- `negate` when operands are accepted. -/
def negateAtAccept (signed remainder : Bool) (lhs rhs : BitVec width) : Bool :=
  if signed then if remainder then lhs.msb else lhs.msb ^^ rhs.msb else false

def outReg (remainder : Bool) (data : DividerData width) : BitVec width :=
  if remainder then data.remd else data.dividend

def dividerResult (signed remainder : Bool) (data : DividerData width) : BitVec width :=
  if signed then
    if data.negate then ~~~outReg remainder data + 1 else outReg remainder data
  else outReg remainder data

open Dynamatic.Clocked

/-- The unit that `generate_sequential_divider` writes, between its ports. -/
def sequentialDivider (width : Nat) (signed remainder : Bool) :
    Iterative (BitVec width × BitVec width) (DividerData width) (BitVec width) where
  iterations := width
  countWidth := width.size
  load := fun (lhs, rhs) =>
    { dividend := taken signed lhs
      divisor := taken signed rhs
      remd := 0
      negate := negateAtAccept signed remainder lhs rhs }
  step := DividerData.step
  result := dividerResult signed remainder

def divui (width : Nat) := sequentialDivider width false false

def divsi (width : Nat) := sequentialDivider width true false

def remui (width : Nat) := sequentialDivider width false true

def remsi (width : Nat) := sequentialDivider width true true

/-- The unit of `divui_sequential.v`, between its ports. -/
def divuiSequential (width : Nat) :
    Iterative (BitVec width × BitVec width) (DividerData width) (BitVec width) where
  iterations := width
  countWidth := Nat.clog 2 (width + 1)
  load := fun (lhs, rhs) => { dividend := lhs, divisor := rhs, remd := 0, negate := false }
  step := DividerData.step
  result := DividerData.dividend

/-! ### The restoring step -/

section Restoring

/-- The quotient of the leading bits, all ones for divisor zero. -/
def leadingQuotient (leading divisor steps : Nat) : Nat :=
  if divisor = 0 then 2 ^ steps - 1 else leading / divisor

/-- The remainder after another bit: what does not fit the divisor once more. -/
theorem mod_two_mul_add (leading divisor bit : Nat) (isBit : bit ≤ 1) :
    (2 * leading + bit) % divisor =
      if 2 * (leading % divisor) + bit < divisor then 2 * (leading % divisor) + bit
      else 2 * (leading % divisor) + bit - divisor := by
  rcases Nat.eq_zero_or_pos divisor with rfl | positive
  · simp
  have bounded := Nat.mod_lt leading positive
  have same : (2 * leading + bit) % divisor = (2 * (leading % divisor) + bit) % divisor := by
    conv_lhs => rw [← Nat.div_add_mod leading divisor]
    rw [Nat.mul_add, Nat.mul_left_comm, Nat.add_assoc, Nat.mul_add_mod]
  rw [same]
  split
  · rename_i below
    exact Nat.mod_eq_of_lt below
  · rename_i above
    rw [Nat.mod_eq_sub_mod (by omega), Nat.mod_eq_of_lt (by omega)]

/-- The quotient after another bit. -/
theorem leadingQuotient_two_mul_add (leading divisor bit steps : Nat) (isBit : bit ≤ 1) :
    leadingQuotient (2 * leading + bit) divisor (steps + 1) =
      2 * leadingQuotient leading divisor steps +
        if 2 * (leading % divisor) + bit < divisor then 0 else 1 := by
  rw [leadingQuotient, leadingQuotient]
  split
  · rename_i zero
    have positive := Nat.two_pow_pos steps
    rw [zero, if_neg (Nat.not_lt_zero _), Nat.pow_succ]
    omega
  · rename_i nonzero
    have positive : 0 < divisor := Nat.pos_of_ne_zero nonzero
    have bounded := Nat.mod_lt leading positive
    have same : (2 * leading + bit) / divisor =
        2 * (leading / divisor) + (2 * (leading % divisor) + bit) / divisor := by
      conv_lhs => rw [← Nat.div_add_mod leading divisor]
      rw [Nat.mul_add, Nat.mul_left_comm, Nat.add_assoc, Nat.mul_add_div positive]
    rw [same]
    split
    · rename_i below
      rw [Nat.div_eq_of_lt below]
    · rename_i above
      have once : (2 * (leading % divisor) + bit) / divisor = 1 :=
        Nat.div_eq_of_lt_le (by omega) (by omega)
      rw [once]

theorem leadingQuotient_lt {leading divisor steps : Nat} (bounded : leading < 2 ^ steps) :
    leadingQuotient leading divisor steps < 2 ^ steps := by
  rw [leadingQuotient]
  split
  · omega
  · exact Nat.lt_of_le_of_lt (Nat.div_le_self _ _) bounded

end Restoring

namespace DividerData

/-- After some steps the dividend register holds the bits still to come over the quotient of
those seen, and the remainder register the remainder of those seen. -/
structure Divided (data : DividerData width) (dividend divisor steps rest : Nat) : Prop where
  width_eq : width = steps + rest
  divisor_eq : data.divisor.toNat = divisor
  remd_eq : data.remd.toNat = dividend / 2 ^ rest % divisor
  dividend_eq : data.dividend.toNat =
    dividend % 2 ^ rest * 2 ^ steps + leadingQuotient (dividend / 2 ^ rest) divisor steps

variable {data : DividerData width} {dividend divisor steps rest : Nat}

/-- The bits seen so far bound the remainder. -/
theorem leading_lt (bounded : dividend < 2 ^ width) (width_eq : width = steps + rest) :
    dividend / 2 ^ rest < 2 ^ steps := by
  refine Nat.div_lt_of_lt_mul ?_
  rwa [← Nat.pow_add, Nat.add_comm, ← width_eq]

/-- The difference in full: the borrow adds the top bit. -/
theorem toNat_cal : data.cal.toNat =
    if data.comb.toNat < data.divisor.toNat then
      2 ^ (width + 1) - (data.divisor.toNat - data.comb.toNat)
    else data.comb.toNat - data.divisor.toNat := by
  have comb := data.comb.isLt
  have divisor := data.divisor.isLt
  have double : 2 ^ (width + 1) = 2 * 2 ^ width := by rw [Nat.pow_succ, Nat.mul_comm]
  rw [cal, BitVec.toNat_sub, BitVec.toNat_setWidth, BitVec.toNat_setWidth,
    Nat.mod_eq_of_lt (by omega : data.comb.toNat < 2 ^ (width + 1)),
    Nat.mod_eq_of_lt (by omega : data.divisor.toNat < 2 ^ (width + 1))]
  split
  · rw [Nat.mod_eq_of_lt (by omega)]
    omega
  · rw [Nat.mod_eq_sub_mod (by omega), Nat.mod_eq_of_lt (by omega)]
    omega

theorem msb_cal : data.cal.msb = decide (data.comb.toNat < data.divisor.toNat) := by
  have comb := data.comb.isLt
  have divisor := data.divisor.isLt
  have double : 2 ^ (width + 1) = 2 * 2 ^ width := by rw [Nat.pow_succ, Nat.mul_comm]
  rw [BitVec.msb_eq_decide, decide_eq_decide, toNat_cal, Nat.add_sub_cancel]
  split <;> omega

/-- A step takes the divisor off the shifted remainder where it fits. -/
theorem toNat_remd_step : data.step.remd.toNat =
    if data.comb.toNat < data.divisor.toNat then data.comb.toNat
    else data.comb.toNat - data.divisor.toNat := by
  have comb := data.comb.isLt
  rw [step, msb_cal]
  split
  · rename_i below
    rw [if_pos (of_decide_eq_true below)]
  · rename_i above
    have fits : ¬ data.comb.toNat < data.divisor.toNat := fun below => above (decide_eq_true below)
    rw [if_neg fits, BitVec.toNat_setWidth, toNat_cal, if_neg fits, Nat.mod_eq_of_lt (by omega)]

/-- The next bit of the dividend is on top of its register. -/
theorem Divided.msb (divided : data.Divided dividend divisor steps (rest + 1))
    (bounded : dividend < 2 ^ width) :
    data.dividend.msb.toNat = dividend / 2 ^ rest % 2 := by
  have quotient := @leadingQuotient_lt _ divisor _ (leading_lt bounded divided.width_eq)
  have bit : dividend / 2 ^ rest % 2 < 2 := Nat.mod_lt _ Nat.two_pos
  have low : dividend % 2 ^ rest < 2 ^ rest := Nat.mod_lt _ (Nat.two_pow_pos rest)
  have top : 2 ^ (width - 1) = 2 ^ rest * 2 ^ steps := by
    rw [divided.width_eq, ← Nat.pow_add]
    congr 1
    omega
  have room : dividend % 2 ^ rest * 2 ^ steps + 2 ^ steps ≤ 2 ^ rest * 2 ^ steps := by
    rw [← Nat.succ_mul]
    exact Nat.mul_le_mul_right _ low
  rw [BitVec.msb_eq_decide, divided.dividend_eq, Nat.mod_pow_succ, top, Nat.add_mul]
  rcases (by omega : dividend / 2 ^ rest % 2 = 0 ∨ dividend / 2 ^ rest % 2 = 1) with zero | one
  · rw [zero, decide_eq_false (by omega)]
    rfl
  · rw [one, Nat.mul_one, decide_eq_true (by omega)]
    rfl

/-- The bits seen so far, and the next one. -/
theorem leading_succ (dividend rest : Nat) :
    dividend / 2 ^ rest = 2 * (dividend / 2 ^ (rest + 1)) + dividend / 2 ^ rest % 2 := by
  have same : dividend / 2 ^ (rest + 1) = dividend / 2 ^ rest / 2 := by
    rw [Nat.pow_succ, Nat.div_div_eq_div_mul]
  rw [same, Nat.div_add_mod]

theorem Divided.toNat_comb (divided : data.Divided dividend divisor steps (rest + 1))
    (bounded : dividend < 2 ^ width) :
    data.comb.toNat = 2 * (dividend / 2 ^ (rest + 1) % divisor) + dividend / 2 ^ rest % 2 := by
  have width_eq := divided.width_eq
  have small : data.remd.toNat < 2 ^ steps := by
    rw [divided.remd_eq]
    exact Nat.lt_of_le_of_lt (Nat.mod_le _ _) (leading_lt bounded width_eq)
  rw [comb, BitVec.toNat_shiftConcat_eq_of_lt (by omega) small, divided.msb bounded,
    divided.remd_eq, Nat.mul_comm]

/-- One step sees another bit of the dividend. -/
theorem Divided.step (divided : data.Divided dividend divisor steps (rest + 1))
    (bounded : dividend < 2 ^ width) : data.step.Divided dividend divisor (steps + 1) rest := by
  have width_eq : width = steps + 1 + rest := by
    have old := divided.width_eq
    omega
  have isBit : dividend / 2 ^ rest % 2 ≤ 1 := by omega
  have comb := divided.toNat_comb bounded
  have seen := leading_succ dividend rest
  have toCome : dividend % 2 ^ (rest + 1) =
      dividend % 2 ^ rest + 2 ^ rest * (dividend / 2 ^ rest % 2) := Nat.mod_pow_succ
  have quotient := @leadingQuotient_lt _ divisor _ (leading_lt bounded width_eq)
  have low : dividend % 2 ^ rest < 2 ^ rest := Nat.mod_lt _ (Nat.two_pow_pos rest)
  generalize dividend / 2 ^ rest % 2 = bit at isBit comb seen toCome
  refine ⟨width_eq, divided.divisor_eq, ?_, ?_⟩
  · rw [toNat_remd_step, comb, divided.divisor_eq, seen, mod_two_mul_add _ _ _ isBit]
  · have borrow : (!data.cal.msb).toNat =
        if 2 * (dividend / 2 ^ (rest + 1) % divisor) + bit < divisor then 0 else 1 := by
      rw [msb_cal, comb, divided.divisor_eq]
      split
      · rename_i below
        rw [decide_eq_true below]
        rfl
      · rename_i above
        rw [decide_eq_false above]
        rfl
    have room : dividend % 2 ^ rest * 2 ^ (steps + 1) + 2 ^ (steps + 1) ≤ 2 ^ width := by
      rw [width_eq, Nat.add_comm (steps + 1) rest, Nat.pow_add 2 rest (steps + 1), ← Nat.succ_mul]
      exact Nat.mul_le_mul_right _ low
    have shifted : data.dividend.toNat * 2 + (!data.cal.msb).toNat =
        dividend % 2 ^ rest * 2 ^ (steps + 1) +
          leadingQuotient (dividend / 2 ^ rest) divisor (steps + 1) + bit * 2 ^ width := by
      rw [borrow, divided.dividend_eq, toCome, seen, leadingQuotient_two_mul_add _ _ _ _ isBit,
        width_eq]
      ring
    rw [DividerData.step, BitVec.toNat_shiftConcat, Nat.shiftLeft_eq, Nat.pow_one, shifted,
      Nat.add_mul_mod_self_right, Nat.mod_eq_of_lt (by omega)]

/-- As many steps as there are bits. -/
theorem Divided.iterate (divided : data.Divided dividend divisor steps rest)
    (bounded : dividend < 2 ^ width) (more : Nat) (fits : more ≤ rest) :
    (DividerData.step^[more] data).Divided dividend divisor (steps + more) (rest - more) := by
  induction more with
  | zero => exact divided
  | succ more inductionHypothesis =>
      have before := inductionHypothesis (by omega)
      rw [(by omega : rest - more = rest - (more + 1) + 1)] at before
      rw [Function.iterate_succ_apply']
      exact before.step bounded

/-- The registers that the operands are loaded into. -/
theorem divided_load (dividend divisor : BitVec width) (negate : Bool) :
    Divided ⟨dividend, divisor, 0, negate⟩ dividend.toNat divisor.toNat 0 width := by
  have empty : dividend.toNat / 2 ^ width = 0 := Nat.div_eq_of_lt dividend.isLt
  refine ⟨(Nat.zero_add _).symm, rfl, ?_, ?_⟩
  · rw [empty, Nat.zero_mod]
    rfl
  · rw [empty, Nat.mod_eq_of_lt dividend.isLt, leadingQuotient]
    simp

theorem iterate_negate (data : DividerData width) (steps : Nat) :
    (DividerData.step^[steps] data).negate = data.negate := by
  induction steps with
  | zero => rfl
  | succ steps inductionHypothesis => rwa [Function.iterate_succ_apply']

/-- After all steps the dividend register holds the quotient and the remainder register the
remainder. -/
theorem divided_all (dividend divisor : BitVec width) (negate : Bool) :
    let data := DividerData.step^[width] ⟨dividend, divisor, 0, negate⟩
    data.dividend = BitVec.smtUDiv dividend divisor ∧ data.remd = dividend % divisor ∧
      data.negate = negate := by
  have divided := (divided_load dividend divisor negate).iterate dividend.isLt width le_rfl
  rw [Nat.sub_self, Nat.zero_add] at divided
  refine ⟨BitVec.eq_of_toNat_eq ?_, BitVec.eq_of_toNat_eq ?_, iterate_negate _ _⟩
  · rw [divided.dividend_eq, Nat.pow_zero, Nat.mod_one, Nat.zero_mul, Nat.zero_add, Nat.div_one,
      leadingQuotient, BitVec.smtUDiv_eq]
    by_cases zero : divisor = 0
    · subst zero
      simp
    · have nonzero : divisor.toNat ≠ 0 := fun same => zero (BitVec.eq_of_toNat_eq same)
      have quotient : (if divisor = BitVec.ofNat width 0 then BitVec.allOnes width else dividend / divisor) =
          dividend / divisor := if_neg zero
      rw [if_neg nonzero, quotient, BitVec.toNat_udiv]
  · rw [divided.remd_eq, Nat.pow_zero, Nat.div_one, BitVec.toNat_umod]

end DividerData

/-! ### The units -/

section Answers

/-- The unsigned quotient, all ones for divisor zero. -/
def unsignedQuotient (lhs rhs : BitVec width) : BitVec width :=
  if rhs = 0 then BitVec.allOnes width else BitVec.ofNat width (lhs.toNat / rhs.toNat)

/-- The unsigned remainder, the dividend for divisor zero. -/
def unsignedRemainder (lhs rhs : BitVec width) : BitVec width :=
  if rhs = 0 then lhs else BitVec.ofNat width (lhs.toNat % rhs.toNat)

/-- The quotient truncated toward zero; divisor zero gives minus one, or one for a negative
dividend. -/
def signedQuotient (lhs rhs : BitVec width) : BitVec width :=
  if rhs = 0 then if lhs.msb then 1 else BitVec.allOnes width
  else BitVec.ofInt width (lhs.toInt.tdiv rhs.toInt)

/-- The remainder with the sign of the dividend, which divisor zero gives back. -/
def signedRemainder (lhs rhs : BitVec width) : BitVec width :=
  if rhs = 0 then lhs else BitVec.ofInt width (lhs.toInt.tmod rhs.toInt)

variable (lhs rhs : BitVec width)

theorem smtUDiv_eq_unsignedQuotient : lhs.smtUDiv rhs = unsignedQuotient lhs rhs := by
  rw [BitVec.smtUDiv_eq, unsignedQuotient]
  refine if_congr Iff.rfl rfl (BitVec.eq_of_toNat_eq ?_)
  rw [BitVec.toNat_udiv, BitVec.toNat_ofNat,
    Nat.mod_eq_of_lt (Nat.lt_of_le_of_lt (Nat.div_le_self _ _) lhs.isLt)]

theorem umod_eq_unsignedRemainder : lhs % rhs = unsignedRemainder lhs rhs := by
  rw [unsignedRemainder]
  split
  · rename_i zero
    rw [zero]
    exact BitVec.umod_zero
  · refine BitVec.eq_of_toNat_eq ?_
    rw [BitVec.toNat_umod, BitVec.toNat_ofNat,
      Nat.mod_eq_of_lt (Nat.lt_of_le_of_lt (Nat.mod_le _ _) lhs.isLt)]

theorem smtSDiv_eq_signedQuotient : lhs.smtSDiv rhs = signedQuotient lhs rhs := by
  rw [signedQuotient]
  split
  · rename_i zero
    subst zero
    cases negative : lhs.msb <;> simp [BitVec.smtSDiv, negative, ← BitVec.neg_one_eq_allOnes]
  · rename_i nonzero
    have given : ¬ rhs = BitVec.ofNat width 0 := nonzero
    have same : lhs.smtSDiv rhs = lhs.sdiv rhs := by
      rw [BitVec.sdiv_eq, BitVec.smtSDiv]
      cases lhs.msb <;> cases rhs.msb <;> simp [BitVec.smtUDiv_eq, given]
    refine BitVec.eq_of_toInt_eq ?_
    rw [same, BitVec.toInt_sdiv, BitVec.toInt_ofInt]

theorem srem_eq_signedRemainder : lhs.srem rhs = signedRemainder lhs rhs := by
  rw [signedRemainder]
  split
  · rename_i zero
    rw [zero]
    exact BitVec.srem_zero
  · rw [← BitVec.toInt_srem, BitVec.ofInt_toInt]

theorem taken_signed (operand : BitVec width) :
    taken true operand = if operand.msb then -operand else operand := by
  simp only [taken, if_true]
  rw [BitVec.neg_eq_not_add]
  rfl

theorem divui_answer : (divui width).answer (lhs, rhs) = unsignedQuotient lhs rhs := by
  have quotient := (DividerData.divided_all lhs rhs false).1
  rw [← smtUDiv_eq_unsignedQuotient, ← quotient]
  rfl

theorem divuiSequential_answer :
    (divuiSequential width).answer (lhs, rhs) = unsignedQuotient lhs rhs := by
  have quotient := (DividerData.divided_all lhs rhs false).1
  rw [← smtUDiv_eq_unsignedQuotient, ← quotient]
  rfl

theorem remui_answer : (remui width).answer (lhs, rhs) = unsignedRemainder lhs rhs := by
  have remainder := (DividerData.divided_all lhs rhs false).2.1
  rw [← umod_eq_unsignedRemainder, ← remainder]
  rfl

/-- The sign of a signed unit's result is applied to the result of the magnitudes. -/
theorem signed_answer (remainder : Bool) :
    (sequentialDivider width true remainder).answer (lhs, rhs) =
      let magnitude := if remainder then taken true lhs % taken true rhs
        else BitVec.smtUDiv (taken true lhs) (taken true rhs)
      if negateAtAccept true remainder lhs rhs then -magnitude else magnitude := by
  obtain ⟨quotient, remd, negate⟩ := DividerData.divided_all (taken true lhs) (taken true rhs)
    (negateAtAccept true remainder lhs rhs)
  simp only [Iterative.answer, sequentialDivider, dividerResult, if_true, outReg, quotient, remd,
    negate, BitVec.neg_eq_not_add]
  rfl

theorem divsi_answer : (divsi width).answer (lhs, rhs) = signedQuotient lhs rhs := by
  rw [← smtSDiv_eq_signedQuotient, divsi, signed_answer, BitVec.smtSDiv, taken_signed, taken_signed]
  cases lhsNegative : lhs.msb <;> cases rhsNegative : rhs.msb <;>
    simp [negateAtAccept, lhsNegative, rhsNegative]

theorem remsi_answer : (remsi width).answer (lhs, rhs) = signedRemainder lhs rhs := by
  rw [← srem_eq_signedRemainder, remsi, signed_answer, BitVec.srem_eq, taken_signed, taken_signed]
  cases lhsNegative : lhs.msb <;> cases rhsNegative : rhs.msb <;>
    simp [negateAtAccept, lhsNegative]

end Answers

theorem le_two_pow_size (width : Nat) : width ≤ 2 ^ width.size := (Nat.lt_size_self width).le

theorem le_two_pow_clog (width : Nat) : width ≤ 2 ^ Nat.clog 2 (width + 1) :=
  (Nat.le_succ width).trans (Nat.le_pow_clog Nat.one_lt_two _)

/-- The sequential dividers answer each operand pair with its quotient or remainder. -/
theorem sequentialDividers_answer (positive : 0 < width) (data : DividerData width)
    (inputs : Nat → Input width) (cycle : Nat) :
    Answers (shell (divui width)) (fun (lhs, rhs) => unsignedQuotient lhs rhs)
      (Iterative.reset data) inputs (width + 1) cycle ∧
    Answers (shell (divsi width)) (fun (lhs, rhs) => signedQuotient lhs rhs)
      (Iterative.reset data) inputs (width + 1) cycle ∧
    Answers (shell (remui width)) (fun (lhs, rhs) => unsignedRemainder lhs rhs)
      (Iterative.reset data) inputs (width + 1) cycle ∧
    Answers (shell (remsi width)) (fun (lhs, rhs) => signedRemainder lhs rhs)
      (Iterative.reset data) inputs (width + 1) cycle ∧
    Answers (shell (divuiSequential width)) (fun (lhs, rhs) => unsignedQuotient lhs rhs)
      (Iterative.reset data) inputs (width + 1) cycle := by
  have counts := le_two_pow_size width
  refine ⟨?_, ?_, ?_, ?_, ?_⟩
  · rw [← funext fun pair : BitVec width × BitVec width => divui_answer pair.1 pair.2]
    exact shell_answers positive counts data inputs cycle
  · rw [← funext fun pair : BitVec width × BitVec width => divsi_answer pair.1 pair.2]
    exact shell_answers positive counts data inputs cycle
  · rw [← funext fun pair : BitVec width × BitVec width => remui_answer pair.1 pair.2]
    exact shell_answers positive counts data inputs cycle
  · rw [← funext fun pair : BitVec width × BitVec width => remsi_answer pair.1 pair.2]
    exact shell_answers positive counts data inputs cycle
  · rw [← funext fun pair : BitVec width × BitVec width => divuiSequential_answer pair.1 pair.2]
    exact shell_answers positive (le_two_pow_clog width) data inputs cycle

/-- The most negative byte divided by minus one, a zero divisor, and others in between. -/
def bytes (cycle : Nat) : Input 8 where
  lhs := BitVec.ofNat 8 (128 + cycle)
  lhsValid := true
  rhs := BitVec.ofNat 8 (255 + cycle)
  rhsValid := true
  resultReady := cycle % 4 = 3

theorem sequentialDividers_answer_bytes :
    Answers (shell (divui 8)) (fun (lhs, rhs) => unsignedQuotient lhs rhs)
      (Iterative.reset ⟨0, 0, 0, false⟩) bytes 9 20 ∧
    Answers (shell (divsi 8)) (fun (lhs, rhs) => signedQuotient lhs rhs)
      (Iterative.reset ⟨0, 0, 0, false⟩) bytes 9 20 ∧
    Answers (shell (remui 8)) (fun (lhs, rhs) => unsignedRemainder lhs rhs)
      (Iterative.reset ⟨0, 0, 0, false⟩) bytes 9 20 ∧
    Answers (shell (remsi 8)) (fun (lhs, rhs) => signedRemainder lhs rhs)
      (Iterative.reset ⟨0, 0, 0, false⟩) bytes 9 20 ∧
    Answers (shell (divuiSequential 8)) (fun (lhs, rhs) => unsignedQuotient lhs rhs)
      (Iterative.reset ⟨0, 0, 0, false⟩) bytes 9 20 :=
  sequentialDividers_answer (by decide) ⟨0, 0, 0, false⟩ bytes 20

end Dynamatic.SequentialUnits
