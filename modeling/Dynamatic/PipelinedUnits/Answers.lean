import Dynamatic.PipelinedUnits.Divider
import Mathlib.Data.Int.Order.Lemmas

/-!
# What the pipelined dividers compute

`divsi` gives the signed quotient. `remsi` gives the unsigned remainder, which is the signed one
for some operands only.
-/

namespace Dynamatic.PipelinedUnits

open Dynamatic.Clocked Dynamatic.SequentialUnits

variable {width : Nat} {Sign : Type}

/-! ## The stages -/

theorem data_iterate (stage : Stage width Sign) (steps : Nat) :
    (Stage.step^[steps] stage).data = DividerData.step^[steps] stage.data := by
  induction steps with
  | zero => rfl
  | succ steps ih =>
    rw [Function.iterate_succ_apply', Function.iterate_succ_apply', ← ih]
    rfl

theorem sign_iterate (stage : Stage width Sign) (steps : Nat) :
    (Stage.step^[steps] stage).sign = stage.sign := by
  induction steps with
  | zero => rfl
  | succ steps ih => rwa [Function.iterate_succ_apply']

/-- The last stage holds quotient and remainder of what the first loaded, and its sign. -/
theorem last_stage (core : Core width Sign) (pair : BitVec width × BitVec width) :
    let last := core.stageOf pair width
    last.dividend = (core.dividendU pair.1).smtUDiv (core.divisorU pair.2) ∧
      last.remd = core.dividendU pair.1 % core.divisorU pair.2 ∧
      last.sign = core.signI pair.1 pair.2 := by
  obtain ⟨quotient, remainder, -⟩ :=
    DividerData.divided_all (core.dividendU pair.1) (core.divisorU pair.2) false
  have data := data_iterate (core.load pair.1 pair.2) width
  refine ⟨?_, ?_, sign_iterate _ width⟩
  · exact (congrArg DividerData.dividend data).trans quotient
  · exact (congrArg DividerData.remd data).trans remainder

theorem divsi_answer (pair : BitVec width × BitVec width) :
    (divsi width).answer pair = signedQuotient pair.1 pair.2 := by
  obtain ⟨quotient, -, sign⟩ := last_stage (divsi width) pair
  rw [← smtSDiv_eq_signedQuotient, BitVec.smtSDiv, Core.answer, quotient, sign]
  simp only [divsi]
  cases pair.1.msb <;> cases pair.2.msb <;> simp [BitVec.neg_eq_not_add]

theorem remsi_answer (pair : BitVec width × BitVec width) :
    (remsi width).answer pair = unsignedRemainder pair.1 pair.2 := by
  rw [← umod_eq_unsignedRemainder]
  exact (last_stage (remsi width) pair).2.1

/-! ## Signed and unsigned remainders -/

section Remainders

variable {modulus lhs rhs : Int}

/-- Nonnegative by negative: the unsigned remainder is the dividend. -/
theorem remainder_nonneg_neg (nonneg : 0 ≤ lhs) (negative : rhs < 0)
    (high : 2 * lhs < modulus) (low : -modulus ≤ 2 * rhs) :
    lhs % (rhs + modulus) = lhs.tmod rhs % modulus ↔ lhs < -rhs := by
  have signed : lhs.tmod rhs = lhs % -rhs := by
    rw [Int.tmod_eq_emod_of_nonneg nonneg, Int.emod_neg]
  have small := Int.emod_nonneg lhs (by omega : -rhs ≠ 0)
  have below := Int.emod_lt_of_pos lhs (by omega : 0 < -rhs)
  rw [Int.emod_eq_of_lt nonneg (by omega), signed, Int.emod_eq_of_lt small (by omega)]
  refine ⟨fun same => same ▸ below, fun fits => (Int.emod_eq_of_lt nonneg fits).symm⟩

/-- Negative by positive: the signed remainder is not positive, the unsigned one not negative. -/
theorem remainder_neg_pos (negative : lhs < 0) (positive : 0 < rhs) (high : 2 * rhs < modulus) :
    (lhs + modulus) % rhs = lhs.tmod rhs % modulus ↔ rhs ∣ lhs ∧ rhs ∣ modulus := by
  have signed : lhs.tmod rhs = -(-lhs % rhs) := by
    rw [← Int.tmod_eq_emod_of_nonneg (by omega), Int.neg_tmod, Int.neg_neg]
  have small := Int.emod_nonneg (-lhs) positive.ne'
  have below := Int.emod_lt_of_pos (-lhs) positive
  have unsignedSmall := Int.emod_nonneg (lhs + modulus) positive.ne'
  have unsignedBelow := Int.emod_lt_of_pos (lhs + modulus) positive
  rw [signed]
  constructor
  · intro same
    have zero : -lhs % rhs = 0 := by
      by_contra nonzero
      have wrapped : -(-lhs % rhs) % modulus = modulus - -lhs % rhs := by
        rw [← Int.add_emod_right, Int.emod_eq_of_lt (by omega) (by omega)]
        omega
      omega
    rw [zero, Int.neg_zero, Int.zero_emod] at same
    have divides : rhs ∣ lhs := (Int.dvd_neg).mp (Int.dvd_of_emod_eq_zero zero)
    exact ⟨divides, (Int.dvd_add_right divides).mp (Int.dvd_of_emod_eq_zero same)⟩
  · rintro ⟨divides, also⟩
    rw [Int.emod_eq_zero_of_dvd (Int.dvd_add divides also),
      Int.emod_eq_zero_of_dvd ((Int.dvd_neg).mpr divides), Int.neg_zero, Int.zero_emod]

/-- Negative by negative: the larger magnitude comes out as the smaller unsigned number. -/
theorem remainder_neg_neg (lhsNegative : lhs < 0) (rhsNegative : rhs < 0)
    (lhsLow : -modulus ≤ 2 * lhs) (rhsLow : -modulus ≤ 2 * rhs) :
    (lhs + modulus) % (rhs + modulus) = lhs.tmod rhs % modulus ↔ lhs = rhs := by
  have signed : lhs.tmod rhs = -(-lhs % -rhs) := by
    rw [← Int.tmod_eq_emod_of_nonneg (by omega), Int.tmod_neg, Int.neg_tmod, Int.neg_neg]
  have small := Int.emod_nonneg (-lhs) (by omega : -rhs ≠ 0)
  have below := Int.emod_lt_of_pos (-lhs) (by omega : 0 < -rhs)
  constructor
  · intro same
    by_contra differ
    have wrapped : lhs.tmod rhs % modulus = if -lhs % -rhs = 0 then 0 else modulus - -lhs % -rhs := by
      split
      next zero => rw [signed, zero, Int.neg_zero, Int.zero_emod]
      next nonzero =>
        rw [signed, ← Int.add_emod_right, Int.emod_eq_of_lt (by omega) (by omega)]
        omega
    rcases Int.lt_or_gt_of_ne differ with larger | smaller
    · rw [Int.emod_eq_of_lt (by omega) (by omega), wrapped] at same
      split at same <;> omega
    · have once : (lhs + modulus) % (rhs + modulus) = lhs - rhs := by
        rw [← Int.sub_emod_right, Int.emod_eq_of_lt (by omega) (by omega)]
        omega
      have magnitude : -lhs % -rhs = -lhs := Int.emod_eq_of_lt (by omega) (by omega)
      rw [once, wrapped, magnitude] at same
      split at same <;> omega
  · rintro rfl
    rw [Int.emod_self, Int.tmod_self, Int.zero_emod]

end Remainders

/-- When the unsigned remainder is the signed one: the operands are not negative; or the divisor
only is, and exceeds the dividend in magnitude; or the dividend only is, and is a multiple of a
divisor that is a power of two; or they are the same negative number. Divisor zero gives the
dividend back either way. -/
def RemainderAgrees (lhs rhs : BitVec width) : Prop :=
  rhs = 0 ∨ (0 ≤ lhs.toInt ∧ (0 < rhs.toInt ∨ lhs.toInt < -rhs.toInt)) ∨
    (lhs.toInt < 0 ∧ 0 < rhs.toInt ∧ rhs.toInt ∣ lhs.toInt ∧ rhs.toInt ∣ 2 ^ width) ∨
    (lhs.toInt < 0 ∧ lhs = rhs)

instance (lhs rhs : BitVec width) : Decidable (RemainderAgrees lhs rhs) :=
  inferInstanceAs (Decidable (_ ∨ _))

theorem toNat_eq_toInt (operand : BitVec width) : (operand.toNat : Int) =
    if operand.toInt < 0 then operand.toInt + 2 ^ width else operand.toInt := by
  rw [BitVec.toInt_eq_toNat_cond]
  have bound := operand.isLt
  have cast : ((2 ^ width : Nat) : Int) = 2 ^ width := by push_cast; rfl
  split <;> split <;> omega

theorem unsignedRemainder_eq_iff (lhs rhs : BitVec width) :
    unsignedRemainder lhs rhs = signedRemainder lhs rhs ↔ RemainderAgrees lhs rhs := by
  by_cases zero : rhs = 0
  · simp [unsignedRemainder, signedRemainder, RemainderAgrees, zero]
  have nonzero : rhs.toInt ≠ 0 := fun same => zero (BitVec.eq_of_toInt_eq (by simp [same]))
  have lhsHigh := @BitVec.two_mul_toInt_lt _ lhs
  have lhsLow := @BitVec.le_two_mul_toInt _ lhs
  have rhsHigh := @BitVec.two_mul_toInt_lt _ rhs
  have rhsLow := @BitVec.le_two_mul_toInt _ rhs
  have modulus : (0 : Int) < 2 ^ width := Int.pow_pos (by decide)
  have values : unsignedRemainder lhs rhs = signedRemainder lhs rhs ↔
      (lhs.toNat : Int) % rhs.toNat = lhs.toInt.tmod rhs.toInt % 2 ^ width := by
    rw [← umod_eq_unsignedRemainder, signedRemainder, if_neg zero, ← BitVec.toNat_inj,
      BitVec.toNat_umod, BitVec.toNat_ofInt, ← Int.ofNat_inj]
    rw [Int.toNat_of_nonneg (Int.emod_nonneg _ (by simp)), Int.natCast_emod]
    push_cast
    rfl
  rw [values, toNat_eq_toInt, toNat_eq_toInt, RemainderAgrees]
  simp only [zero, false_or]
  rcases lt_or_ge lhs.toInt 0 with lhsNegative | lhsNonneg <;>
    rcases Int.lt_or_gt_of_ne nonzero with rhsNegative | rhsPositive
  · rw [if_pos lhsNegative, if_pos rhsNegative,
      remainder_neg_neg lhsNegative rhsNegative lhsLow rhsLow, BitVec.toInt_inj]
    simp [lhsNegative, Int.not_le.mpr lhsNegative, Int.not_lt.mpr rhsNegative.le]
  · rw [if_pos lhsNegative, if_neg (by omega), remainder_neg_pos lhsNegative rhsPositive rhsHigh]
    have differ : lhs ≠ rhs := by
      rintro rfl
      omega
    simp [differ, lhsNegative, rhsPositive, Int.not_le.mpr lhsNegative]
  · rw [if_neg (by omega), if_pos rhsNegative,
      remainder_nonneg_neg lhsNonneg rhsNegative lhsHigh rhsLow]
    omega
  · rw [if_neg (by omega), if_neg (by omega), Int.tmod_eq_emod_of_nonneg lhsNonneg]
    have small := Int.emod_nonneg lhs.toInt nonzero
    have below := Int.emod_lt_of_pos lhs.toInt rhsPositive
    refine iff_of_true ?_ (.inl ⟨lhsNonneg, .inl rhsPositive⟩)
    rw [Int.emod_eq_of_lt small (by omega)]

/-! ## The units -/

section Units

variable {inputs : Nat → Input width}

/-- The result stream of `divsi` is that of the signed quotients, whatever stalls it. -/
theorem divsi_divides {start : State width (Bool × Bool)} (reset : Core.Reset start)
    (inputs : Nat → Input width) (cycle : Nat) :
    Pipelined (divsi width).machine (fun (lhs, rhs) => signedQuotient lhs rhs) start inputs
      (width + 3) cycle := by
  rw [← funext fun pair : BitVec width × BitVec width => divsi_answer pair]
  exact (divsi width).pipelined reset inputs cycle

/-- Registers that hold no operands. -/
def blank (width : Nat) (sign : Sign) : State width Sign where
  dividend0 := 0
  divisor0 := 0
  stages := fun _ => ⟨0, 0, 0, sign⟩
  quot := 0
  remd := 0
  regs := fun _ => false
  outputValid := false

theorem blank_reset (width : Nat) (sign : Sign) : Core.Reset (blank width sign) :=
  ⟨fun _ => rfl, rfl⟩

theorem divsi_divides_bytes :
    Pipelined (divsi 8).machine (fun (lhs, rhs) => signedQuotient lhs rhs)
      (blank 8 (false, false)) bytes 11 30 :=
  divsi_divides (blank_reset 8 (false, false)) bytes 30

/-- The result stream of `remsi` is that of the unsigned remainders. -/
theorem remsi_pipelined {start : State width Unit} (reset : Core.Reset start)
    (inputs : Nat → Input width) (cycle : Nat) :
    Pipelined (remsi width).machine (fun (lhs, rhs) => unsignedRemainder lhs rhs) start inputs
      (width + 3) cycle := by
  rw [← funext fun pair : BitVec width × BitVec width => remsi_answer pair]
  exact (remsi width).pipelined reset inputs cycle

/-- The operand pairs accepted before each cycle. -/
def acceptedPairs {Registers : Type} (machine : Machine Registers (Input width) (Output width))
    (start : Registers) (inputs : Nat → Input width) :
    Nat → List (BitVec width × BitVec width) :=
  machine.collect (accepts machine) start inputs

/-- The result stream of `remsi` is that of the signed remainders when those of all the operands
are the unsigned ones; and each of its results is the signed remainder of its operands only if
theirs is. -/
theorem remsi_signed_iff {start : State width Unit} (reset : Core.Reset start)
    (inputs : Nat → Input width) (cycle : Nat) :
    ((∀ pair ∈ acceptedPairs (remsi width).machine start inputs cycle,
        RemainderAgrees pair.1 pair.2) →
      results (remsi width).machine start inputs cycle <+:
        answers (remsi width).machine (fun (lhs, rhs) => signedRemainder lhs rhs) start inputs
          cycle) ∧
      ∀ (index : Nat) result, (results (remsi width).machine start inputs cycle)[index]? = some result →
        ∃ pair, (acceptedPairs (remsi width).machine start inputs cycle)[index]? = some pair ∧
          (result = signedRemainder pair.1 pair.2 ↔ RemainderAgrees pair.1 pair.2) := by
  have inOrder := (remsi_pipelined reset inputs cycle).inOrder
  constructor
  · intro agree
    have same : answers (remsi width).machine (fun (lhs, rhs) => signedRemainder lhs rhs) start
        inputs cycle = answers (remsi width).machine (fun (lhs, rhs) => unsignedRemainder lhs rhs)
        start inputs cycle :=
      List.map_congr_left fun pair member =>
        ((unsignedRemainder_eq_iff pair.1 pair.2).mpr (agree pair member)).symm
    rwa [same]
  · intro index result given
    have answered := List.prefix_iff_getElem?.mp inOrder index
      (List.getElem?_eq_some_iff.mp given).1
    rw [answers, List.getElem?_map, Option.map_eq_some_iff] at answered
    obtain ⟨pair, here, same⟩ := answered
    rw [← (List.getElem?_eq_some_iff.mp given).2, ← same]
    exact ⟨pair, here, unsignedRemainder_eq_iff pair.1 pair.2⟩

theorem remsi_signed_iff_bytes :
    ((∀ pair ∈ acceptedPairs (remsi 8).machine (blank 8 ()) bytes 30,
        RemainderAgrees pair.1 pair.2) →
      results (remsi 8).machine (blank 8 ()) bytes 30 <+:
        answers (remsi 8).machine (fun (lhs, rhs) => signedRemainder lhs rhs) (blank 8 ()) bytes
          30) ∧
      ∀ (index : Nat) result, (results (remsi 8).machine (blank 8 ()) bytes 30)[index]? = some result →
        ∃ pair, (acceptedPairs (remsi 8).machine (blank 8 ()) bytes 30)[index]? = some pair ∧
          (result = signedRemainder pair.1 pair.2 ↔ RemainderAgrees pair.1 pair.2) :=
  remsi_signed_iff (blank_reset 8 ()) bytes 30

/-- Minus seven and three in every cycle. -/
def minusSeven (_cycle : Nat) : Input 32 where
  lhs := -7
  lhsValid := true
  rhs := 3
  rhsValid := true
  resultReady := true

/-- Only minus seven and three are accepted. -/
theorem minusSeven_accepted {start : State 32 Unit} (cycle : Nat) :
    ∀ pair ∈ acceptedPairs (remsi 32).machine start minusSeven cycle, pair = (-7, 3) := by
  induction cycle with
  | zero => simp [acceptedPairs]
  | succ cycle ih =>
    intro pair member
    rw [acceptedPairs, Machine.collect_succ, List.mem_append] at member
    rcases member with before | now
    · exact ih pair before
    · rw [accepts] at now
      split at now
      next => exact List.mem_singleton.mp now
      next => cases now

/-- Thirty-five cycles later the first result is taken. -/
theorem minusSeven_result : (0 : BitVec 32) ∈
    results (remsi 32).machine (blank 32 ()) minusSeven 36 := by
  have accepted : accepts (remsi 32).machine (blank 32 ()) (minusSeven 0) = [(-7, 3)] := by
    rw [accepts, Core.lhsTransfers_eq]
    rfl
  have flowing : ∀ cycle, flows (remsi 32).machine (blank 32 ()) minusSeven cycle = true :=
    fun cycle => Bool.or_true _
  have offered := (remsi_pipelined (blank_reset 32 ()) minusSeven 0).due (-7, 3) accepted 34
    (by simp [flowing])
  have sent : sends (remsi 32).machine ((remsi 32).machine.stateAt (blank 32 ()) minusSeven 35)
      (minusSeven 35) = [0] := congrArg Option.toList offered
  rw [results, Machine.collect_succ, sent]
  exact List.mem_append_right _ (List.mem_singleton_self _)

/-- The remainder of minus seven by three comes out as zero instead of minus one. -/
theorem remsi_not_signed :
    ¬ ∀ (width : Nat) (start : State width Unit) (inputs : Nat → Input width) (cycle : Nat),
      Core.Reset start →
      (∀ pair ∈ acceptedPairs (remsi width).machine start inputs cycle, pair.2 ≠ 0) →
      results (remsi width).machine start inputs cycle <+:
        answers (remsi width).machine (fun (lhs, rhs) => signedRemainder lhs rhs) start inputs
          cycle := by
  intro claim
  have nonzero : ∀ pair ∈ acceptedPairs (remsi 32).machine (blank 32 ()) minusSeven 36,
      pair.2 ≠ 0 := by
    intro pair member
    rw [minusSeven_accepted 36 pair member]
    decide
  have inOrder := claim 32 (blank 32 ()) minusSeven 36 (blank_reset 32 ()) nonzero
  obtain ⟨pair, member, same⟩ := List.mem_map.mp (inOrder.subset minusSeven_result)
  rw [minusSeven_accepted 36 pair member] at same
  exact absurd same (by decide)

end Units

end Dynamatic.PipelinedUnits
