import Dynamatic.Bitwidth.MinimalValue

/-!
# Bounds at conditional branches

`ArithBoundOpt` looks for comparisons of the branched data with a bound: where one of
them steers the data to an output, it truncates that output to the bound's width, one
bit less if the bound is tight, and extends it back.

The data and the compared operand may be different extensions of one minimal value, so
they are one signed number at two widths.
-/

namespace Dynamatic.Bitwidth

inductive CmpIPredicate where
  | eq
  | ne
  | slt
  | sle
  | sgt
  | sge
  | ult
  | ule
  | ugt
  | uge
  deriving DecidableEq, Repr

namespace CmpIPredicate

def apply {width : Nat} : CmpIPredicate → BitVec width → BitVec width → Bool
  | eq, lhs, rhs => lhs == rhs
  | ne, lhs, rhs => lhs != rhs
  | slt, lhs, rhs => lhs.slt rhs
  | sle, lhs, rhs => lhs.sle rhs
  | sgt, lhs, rhs => rhs.slt lhs
  | sge, lhs, rhs => rhs.sle lhs
  | ult, lhs, rhs => lhs.ult rhs
  | ule, lhs, rhs => lhs.ule rhs
  | ugt, lhs, rhs => rhs.ult lhs
  | uge, lhs, rhs => rhs.ule lhs

end CmpIPredicate

/-- A comparison of the branched data with a bound. The minimal value of the operand that
is not the bound is the data's. -/
structure Comparison {dataWidth : Nat} (data : Source dataWidth) where
  predicate : CmpIPredicate
  width : Nat
  operand : Source width
  bound : Source width
  isDataLhs : Bool
  isData : getMinimalValue data = getMinimalValue operand

/-- What computes the condition: a comparison with the data, a conjunction, or something
else with its value, which may be a comparison too. -/
inductive Condition {dataWidth : Nat} (data : Source dataWidth) where
  | cmp (comparison : Comparison data)
  | otherCmp (value : Bool)
  | and (lhs rhs : Condition data)
  | other (value : Bool)

variable {dataWidth : Nat} {data : Source dataWidth}

namespace Comparison

def value (comparison : Comparison data) : Bool :=
  if comparison.isDataLhs then
    comparison.predicate.apply comparison.operand.value comparison.bound.value
  else comparison.predicate.apply comparison.bound.value comparison.operand.value

/-- The output that may be optimized, `true` for the true result. -/
def getBranchToOptimize (comparison : Comparison data) : Option Bool :=
  match comparison.predicate with
  | .eq => some true
  | .ne => some false
  | .ult | .ule => some comparison.isDataLhs
  | .ugt | .uge => some !comparison.isDataLhs
  | _ => none

/-- The optimized width under a tight bound. -/
def getRealOptWidth (comparison : Comparison data) (optWidth : Nat) : Nat :=
  match comparison.predicate with
  | .ult | .uge => if comparison.isDataLhs then optWidth - 1 else optWidth
  | .ule | .ugt => if comparison.isDataLhs then optWidth else optWidth - 1
  | _ => optWidth

/-- How the result is extended, if the predicate and the bound's extension allow it. -/
def branchExt (comparison : Comparison data) : Option ExtType :=
  match comparison.predicate with
  | .eq | .ne => some (getMinimalValue comparison.bound).extType
  | .ult | .ule | .ugt | .uge =>
      if (getMinimalValue comparison.bound).extType = .sext then none else some .zext
  | _ => none

end Comparison

/-- Whether a constant needs a bit more than its neighbour toward zero, which is computed
over 64 bits; the outer `none` is the assertion that the constant fits them. -/
def isBoundTight {width : Nat} : Source width → Option Bool
  | .constant bits =>
      if bits.msb then
        if significantBits bits ≤ 64 then
          some (computeRequiredBitwidth bits =
            computeRequiredBitwidth (BitVec.ofInt 64 (bits.toInt + 1)) + 1)
        else none
      else if activeBits bits ≤ 64 then
        some (computeRequiredBitwidth bits =
          computeRequiredBitwidth (BitVec.ofInt 64 (bits.toNat - 1)) + 1)
      else none
  | _ => some false

/-- A width for one of the outputs, with the comparison that it comes from. -/
structure BoundedBranch {dataWidth : Nat} (data : Source dataWidth) where
  comparison : Comparison data
  branch : Bool
  width : Nat
  ext : ExtType

/-- What one comparison offers; the outer `none` is a failed assertion. -/
def Comparison.boundedBranch (comparison : Comparison data) :
    Option (Option (BoundedBranch data)) :=
  match comparison.getBranchToOptimize with
  | none => some none
  | some branch =>
      match isBoundTight comparison.bound with
      | none => none
      | some tight =>
          let width := (getMinimalValue comparison.bound).bitWidth
          some (comparison.branchExt.map fun ext =>
            { comparison := comparison
              branch := branch
              width := if tight then comparison.getRealOptWidth width else width
              ext := ext })

namespace Condition

def value : Condition data → Bool
  | cmp comparison => comparison.value
  | otherCmp value => value
  | and lhs rhs => lhs.value && rhs.value
  | other value => value

/-- The comparisons with the data among the conjuncts. -/
def getCmpOps : Condition data → List (Comparison data)
  | cmp comparison => [comparison]
  | and lhs rhs => lhs.getCmpOps ++ rhs.getCmpOps
  | otherCmp _ | other _ => []

/-- Whether there is exactly one comparison and no conjunction. -/
def single : Condition data → Bool
  | cmp _ | otherCmp _ => true
  | and _ _ | other _ => false

/-- The best width for an output so far, after one more offer; the false result is only
optimized for a single comparison. -/
def better (condition : Condition data) (branch : Bool) (best : Option (BoundedBranch data)) :
    Option (BoundedBranch data) → Option (BoundedBranch data)
  | none => best
  | some offer =>
      if offer.branch = branch ∧ (branch = true ∨ condition.single = true) then
        match best with
        | none => some offer
        | some least => if offer.width < least.width then some offer else best
      else best

/-- The first of the least widths for an output. -/
def bestBranch (condition : Condition data) (branch : Bool) :
    Option (Option (BoundedBranch data)) :=
  (condition.getCmpOps.mapM Comparison.boundedBranch).map fun offers =>
    offers.foldl (condition.better branch) none

end Condition

/-- The output after truncation to a width and extension back to the bits that are used. -/
def optBranch (ext : ExtType) (width usefulWidth : Nat) (value : BitVec dataWidth) :
    BitVec usefulWidth :=
  modBitWidth ⟨ext, width, modBitWidth ⟨ext, dataWidth, value⟩ width⟩ usefulWidth

section Steering

/-- The value is the minimal value's number, read with a sign. -/
theorem toInt_value {width : Nat} (source : Source width) :
    source.value.toInt = (getMinimalValue source).number := by
  have fits := (getMinimalValue source).fits
  obtain ⟨le, none⟩ := bitWidth_getMinimalValue source
  rw [← ofInt_number_getMinimalValue, BitVec.toInt_ofInt]
  have grows : (2 : Int) ^ (getMinimalValue source).bitWidth ≤ 2 ^ width :=
    pow_le_pow_right₀ (by omega) le
  cases kind : (getMinimalValue source).extType with
  | zext =>
      rw [kind] at fits none
      have less : (getMinimalValue source).bitWidth < width := by
        refine Nat.lt_of_le_of_ne le fun same => ?_
        exact absurd (none.mpr same) (by decide)
      have twice : (2 : Int) ^ ((getMinimalValue source).bitWidth + 1) ≤ 2 ^ width :=
        pow_le_pow_right₀ (by omega) less
      rw [pow_succ] at twice
      obtain ⟨least, most⟩ := fits
      refine Int.bmod_eq_of_le_mul_two ?_ ?_ <;> push_cast <;> omega
  | none =>
      rw [kind] at fits
      obtain ⟨least, most⟩ := fits
      refine Int.bmod_eq_of_le_mul_two ?_ ?_ <;> push_cast <;> omega
  | sext =>
      rw [kind] at fits
      obtain ⟨least, most⟩ := fits
      refine Int.bmod_eq_of_le_mul_two ?_ ?_ <;> push_cast <;> omega

namespace Comparison

variable (comparison : Comparison data)

theorem toInt_operand : comparison.operand.value.toInt = data.value.toInt := by
  rw [toInt_value, toInt_value, comparison.isData]

/-- Whether the data is below the bound on the optimized branch, not only at most it. -/
def strict : Bool :=
  match comparison.predicate with
  | .ult | .uge => comparison.isDataLhs
  | .ule | .ugt => !comparison.isDataLhs
  | _ => false

theorem getRealOptWidth_eq (optWidth : Nat) :
    comparison.getRealOptWidth optWidth = if comparison.strict then optWidth - 1 else optWidth := by
  cases predicate : comparison.predicate <;> cases left : comparison.isDataLhs <;>
    simp [getRealOptWidth, strict, predicate, left]

/-- Whether the comparison is for equality. -/
def equality : Bool := comparison.predicate = .eq ∨ comparison.predicate = .ne

/-- When the narrowed output loses bits of the data. An unsigned bound of full width may
have its highest bit set, and so may the data; and the neighbour of a bound of 64 bits
may seem to need fewer bits because it is read with a sign. -/
def Loses : Prop :=
  comparison.equality = false ∧
    (((getMinimalValue comparison.bound).extType = .none ∧ data.value.msb = true) ∨
      (comparison.strict = true ∧ isBoundTight comparison.bound = some true ∧
        (getMinimalValue comparison.bound).extType = .zext ∧
        2 ^ ((getMinimalValue comparison.bound).bitWidth - 1) ≤ data.value.toNat))

variable {comparison} {branch : Bool}

/-- On its branch, an equality comparison found the bound. -/
theorem operand_of_equality (optimizes : comparison.getBranchToOptimize = some branch)
    (steers : comparison.value = branch) (equality : comparison.equality = true) :
    comparison.operand.value = comparison.bound.value := by
  simp only [Comparison.equality, decide_eq_true_eq] at equality
  rcases equality with predicate | predicate
  · simp only [getBranchToOptimize, predicate, Option.some.injEq] at optimizes
    simp only [value, predicate, CmpIPredicate.apply, ← optimizes] at steers
    split at steers
    · exact eq_of_beq steers
    · exact (eq_of_beq steers).symm
  · simp only [getBranchToOptimize, predicate, Option.some.injEq] at optimizes
    simp only [value, predicate, CmpIPredicate.apply, ← optimizes] at steers
    split at steers
    · exact of_not_not fun differs => by simp [differs] at steers
    · exact of_not_not fun differs => by simp [Ne.symm differs] at steers

/-- On its branch, an unsigned comparison bounded the operand. -/
theorem operand_le (optimizes : comparison.getBranchToOptimize = some branch)
    (steers : comparison.value = branch) (unsigned : comparison.equality = false) :
    comparison.operand.value.toNat + comparison.strict.toNat ≤ comparison.bound.value.toNat := by
  cases predicate : comparison.predicate <;> cases left : comparison.isDataLhs <;>
    simp only [getBranchToOptimize, predicate, left, Option.some.injEq, reduceCtorEq, equality,
      decide_eq_false_iff_not, not_or, not_true_eq_false, false_and, and_false] at optimizes unsigned
  all_goals
    subst optimizes
    simp [value, predicate, left, CmpIPredicate.apply, BitVec.ult, BitVec.ule] at steers
    simp only [strict, predicate, left, Bool.toNat_true, Bool.toNat_false, Bool.not_true,
      Bool.not_false]
    omega

end Comparison

section Restore

variable {width usefulWidth : Nat} {value : BitVec dataWidth}

/-- Extending restores a number that the width represents. -/
theorem optBranch_of_fits {ext : ExtType} {number : Int} (narrows : width < usefulWidth)
    (le : usefulWidth ≤ dataWidth) (fits : Fits ext width number) :
    optBranch ext width usefulWidth (BitVec.ofInt dataWidth number) =
      (BitVec.ofInt dataWidth number).setWidth usefulWidth := by
  have truncated : modBitWidth ⟨ext, dataWidth, BitVec.ofInt dataWidth number⟩ width =
      BitVec.ofInt width number := by
    rw [modBitWidth, if_neg (by simp only; omega)]
    exact setWidth_ofInt (Nat.le_trans (Nat.le_of_lt narrows) le)
  rw [optBranch, truncated, modBitWidth_ofInt fits, setWidth_ofInt le]

/-- Extending with zeros restores the used bits when none of those beyond is set. -/
theorem optBranch_zext_iff (narrows : width < usefulWidth) (le : usefulWidth ≤ dataWidth) :
    optBranch .zext width usefulWidth value = value.setWidth usefulWidth ↔
      value.toNat % 2 ^ usefulWidth < 2 ^ width := by
  have truncated : value.toNat % 2 ^ usefulWidth % 2 ^ width = value.toNat % 2 ^ width :=
    Nat.mod_mod_of_dvd _ (Nat.pow_dvd_pow 2 (Nat.le_of_lt narrows))
  have small : value.toNat % 2 ^ width < 2 ^ usefulWidth :=
    Nat.lt_trans (Nat.mod_lt _ (Nat.two_pow_pos width)) (Nat.pow_lt_pow_right (by omega) narrows)
  rw [optBranch, modBitWidth, if_pos narrows, modBitWidth, if_neg (by simp only; omega),
    ← BitVec.toNat_inj]
  simp only [BitVec.toNat_setWidth]
  rw [Nat.mod_eq_of_lt small, ← truncated]
  exact ⟨fun same => same ▸ Nat.mod_lt _ (Nat.two_pow_pos width), Nat.mod_eq_of_lt⟩

end Restore

section Output

variable {comparison : Comparison data} {branch : Bool} {usefulWidth : Nat}

/-- The data of an equality comparison is represented as its bound is. -/
theorem optBranch_of_equality (optimizes : comparison.getBranchToOptimize = some branch)
    (steers : comparison.value = branch) (equality : comparison.equality = true)
    (narrows : (getMinimalValue comparison.bound).bitWidth < usefulWidth)
    (le : usefulWidth ≤ dataWidth) :
    optBranch (getMinimalValue comparison.bound).extType
      (getMinimalValue comparison.bound).bitWidth usefulWidth data.value =
        data.value.setWidth usefulWidth := by
  have number : data.value.toInt = (getMinimalValue comparison.bound).number := by
    rw [← comparison.toInt_operand, comparison.operand_of_equality optimizes steers equality,
      toInt_value]
  have is : data.value = BitVec.ofInt dataWidth (getMinimalValue comparison.bound).number := by
    rw [← number, BitVec.ofInt_toInt]
  rw [is]
  exact optBranch_of_fits narrows le (getMinimalValue comparison.bound).fits

theorem toNat_of_toInt_nonneg {width : Nat} {value : BitVec width} (nonneg : 0 ≤ value.toInt) :
    (value.toNat : Int) = value.toInt := by
  rw [BitVec.toInt_eq_toNat_cond] at nonneg ⊢
  have bound := value.isLt
  split
  · rfl
  · rename_i large
    rw [if_neg large] at nonneg
    omega

/-- Under a zero-extended bound the data has no sign and is what was compared. -/
theorem toNat_of_zext (optimizes : comparison.getBranchToOptimize = some branch)
    (steers : comparison.value = branch) (unsigned : comparison.equality = false)
    (kind : (getMinimalValue comparison.bound).extType = .zext) :
    data.value.toNat = comparison.operand.value.toNat ∧
      comparison.bound.value.toNat < 2 ^ (getMinimalValue comparison.bound).bitWidth := by
  have bounded := comparison.operand_le optimizes steers unsigned
  obtain ⟨le, none⟩ := bitWidth_getMinimalValue comparison.bound
  have less : (getMinimalValue comparison.bound).bitWidth < comparison.width := by
    refine Nat.lt_of_le_of_ne le fun same => ?_
    exact absurd (kind.symm.trans (none.mpr same)) (by decide)
  have grows : 2 ^ ((getMinimalValue comparison.bound).bitWidth + 1) ≤ 2 ^ comparison.width :=
    Nat.pow_le_pow_right (by omega) less
  rw [pow_succ] at grows
  have fits := (getMinimalValue comparison.bound).fits
  rw [kind, ← toInt_value] at fits
  have boundSmall : comparison.bound.value.toNat <
      2 ^ (getMinimalValue comparison.bound).bitWidth := by
    have same := toNat_of_toInt_nonneg fits.1
    have most := fits.2
    rw [← same] at most
    exact_mod_cast most
  have operand := BitVec.toInt_eq_toNat_of_lt
    (by omega : 2 * comparison.operand.value.toNat < 2 ^ comparison.width)
  have number := comparison.toInt_operand
  rw [operand] at number
  have same := toNat_of_toInt_nonneg (by omega : 0 ≤ data.value.toInt)
  exact ⟨by omega, boundSmall⟩

/-- At the width of the comparison or one bit less, the data keeps its bits exactly if it
has no sign. -/
theorem low_iff_msb {width : Nat} (least : comparison.width ≤ width + 1)
    (narrows : width < usefulWidth) (le : usefulWidth ≤ dataWidth) :
    data.value.toNat % 2 ^ usefulWidth < 2 ^ width ↔ data.value.msb = false := by
  have operandGrows : (2 : Int) ^ comparison.width ≤ 2 ^ (width + 1) :=
    pow_le_pow_right₀ (by omega) least
  have usefulGrows : (2 : Int) ^ (width + 1) ≤ 2 ^ usefulWidth :=
    pow_le_pow_right₀ (by omega) narrows
  have below := comparison.operand.value.le_two_mul_toInt
  have above := comparison.operand.value.two_mul_toInt_lt
  rw [comparison.toInt_operand] at below above
  rw [pow_succ] at operandGrows usefulGrows
  have dataMod : ((data.value.toNat % 2 ^ usefulWidth : Nat) : Int) =
      data.value.toInt % 2 ^ usefulWidth := by
    have divides : (2 : Int) ^ usefulWidth ∣ 2 ^ dataWidth := pow_dvd_pow 2 le
    rw [BitVec.toInt_eq_toNat_cond]
    push_cast
    split
    · rfl
    · rw [Int.sub_emod, Int.emod_eq_zero_of_dvd divides, sub_zero, Int.emod_emod]
  have compared : data.value.toNat % 2 ^ usefulWidth < 2 ^ width ↔
      data.value.toInt % 2 ^ usefulWidth < 2 ^ width := by
    rw [← dataMod]
    norm_cast
  rw [compared]
  cases sign : data.value.msb with
  | false =>
      have nonneg : 0 ≤ data.value.toInt := by
        rw [BitVec.toInt_eq_msb_cond, sign]
        exact Int.natCast_nonneg _
      rw [Int.emod_eq_of_lt nonneg (by omega)]
      simp only [iff_true]
      omega
  | true =>
      have negative := BitVec.toInt_neg_of_msb_true sign
      rw [← Int.add_emod_right, Int.emod_eq_of_lt (by omega) (by omega)]
      simp only [Bool.true_eq_false, iff_false]
      omega

/-- What a comparison offers follows its predicate and bound. -/
theorem boundedBranch_eq {offer : BoundedBranch data}
    (offers : comparison.boundedBranch = some (some offer)) :
    offer.comparison = comparison ∧ comparison.getBranchToOptimize = some offer.branch ∧
      comparison.branchExt = some offer.ext ∧
      ∃ tight, isBoundTight comparison.bound = some tight ∧
        offer.width = if tight ∧ comparison.strict then
          (getMinimalValue comparison.bound).bitWidth - 1
        else (getMinimalValue comparison.bound).bitWidth := by
  rw [Comparison.boundedBranch] at offers
  cases optimizes : comparison.getBranchToOptimize with
  | none => simp [optimizes] at offers
  | some branch =>
      cases tight : isBoundTight comparison.bound with
      | none => simp [optimizes, tight] at offers
      | some isTight =>
          simp only [optimizes, tight, Option.some.injEq, Option.map_eq_some_iff] at offers
          obtain ⟨ext, isExt, rfl⟩ := offers
          refine ⟨rfl, rfl, isExt, isTight, rfl, ?_⟩
          rw [comparison.getRealOptWidth_eq]
          cases isTight <;> simp

/-- The kinds of comparisons that offer a width. -/
theorem branchExt_cases {ext : ExtType} (extended : comparison.branchExt = some ext) :
    (comparison.equality = true ∧ comparison.strict = false ∧
        ext = (getMinimalValue comparison.bound).extType) ∨
      (comparison.equality = false ∧ ext = .zext ∧
        (getMinimalValue comparison.bound).extType ≠ .sext) := by
  cases predicate : comparison.predicate <;>
    simp only [Comparison.branchExt, predicate, Option.some.injEq, reduceCtorEq,
      Option.ite_none_left_eq_some] at extended <;>
    simp only [Comparison.equality, Comparison.strict, predicate]
  case eq | ne => exact .inl ⟨by trivial, by trivial, extended.symm⟩
  all_goals exact .inr ⟨rfl, extended.2.symm, extended.1⟩

/-- The optimized output of a comparison carries the data exactly if it does not lose
bits. -/
theorem optBranch_iff {offer : BoundedBranch data}
    (offers : comparison.boundedBranch = some (some offer))
    (steers : comparison.value = offer.branch) (narrows : offer.width < usefulWidth)
    (le : usefulWidth ≤ dataWidth) :
    optBranch offer.ext offer.width usefulWidth data.value = data.value.setWidth usefulWidth ↔
      ¬comparison.Loses := by
  obtain ⟨-, optimizes, extended, tight, isTight, width⟩ := boundedBranch_eq offers
  rcases branchExt_cases extended with ⟨equality, notStrict, ext⟩ | ⟨unsigned, ext, kind⟩
  · rw [notStrict, if_neg (by simp)] at width
    rw [width] at narrows
    rw [ext, width, optBranch_of_equality optimizes steers equality narrows le]
    simp [Comparison.Loses, equality]
  · rw [ext, optBranch_zext_iff narrows le, Comparison.Loses, and_iff_right unsigned, isTight]
    cases bound : (getMinimalValue comparison.bound).extType with
    | sext => exact absurd bound kind
    | none =>
        have same := (bitWidth_getMinimalValue comparison.bound).2.mp bound
        have least : comparison.width ≤ offer.width + 1 := by
          rw [width, same]
          split <;> omega
        rw [low_iff_msb least narrows le]
        simp
    | zext =>
        obtain ⟨same, small⟩ := toNat_of_zext optimizes steers unsigned bound
        have bounded := comparison.operand_le optimizes steers unsigned
        by_cases tighter : tight ∧ comparison.strict
        · rw [if_pos tighter] at width
          have useful : data.value.toNat < 2 ^ usefulWidth := by
            have grows : 2 ^ (getMinimalValue comparison.bound).bitWidth ≤ 2 ^ usefulWidth :=
              Nat.pow_le_pow_right (by omega) (by omega)
            omega
          rw [Nat.mod_eq_of_lt useful, width]
          simp [tighter.1, tighter.2]
        · rw [if_neg tighter] at width
          have low := Nat.mod_le data.value.toNat (2 ^ usefulWidth)
          rw [width]
          have neither : ¬(comparison.strict = true ∧ some tight = some true) := by
            simpa [and_comm] using tighter
          simp only [reduceCtorEq, false_and, false_or, true_and]
          refine iff_of_true (by omega) fun both => neither ⟨both.1, both.2.1⟩

end Output

section Conjunction

variable {condition : Condition data} {branch : Bool}

/-- All comparisons of a conjunction hold where it does. -/
theorem Condition.value_of_mem {comparison : Comparison data}
    (mem : comparison ∈ condition.getCmpOps) (holds : condition.value = true) :
    comparison.value = true := by
  induction condition with
  | cmp single =>
      rw [List.mem_singleton.mp mem]
      exact holds
  | otherCmp value => exact absurd mem List.not_mem_nil
  | other value => exact absurd mem List.not_mem_nil
  | and lhs rhs lhsHypothesis rhsHypothesis =>
      obtain ⟨lhsHolds, rhsHolds⟩ := Bool.and_eq_true_iff.mp holds
      rcases List.mem_append.mp mem with left | right
      · exact lhsHypothesis left lhsHolds
      · exact rhsHypothesis right rhsHolds

theorem Condition.value_of_single {comparison : Comparison data}
    (mem : comparison ∈ condition.getCmpOps) (single : condition.single = true) :
    comparison.value = condition.value := by
  cases condition with
  | cmp only => rw [List.mem_singleton.mp mem, Condition.value]
  | otherCmp value => exact absurd mem List.not_mem_nil
  | other value => exact absurd mem List.not_mem_nil
  | and lhs rhs => exact absurd single Bool.false_ne_true

theorem exists_of_mem_mapM {α β : Type} {f : α → Option β} {items : List α} {results : List β}
    (all : items.mapM f = some results) {result : β} (mem : result ∈ results) :
    ∃ item ∈ items, f item = some result := by
  induction items generalizing results with
  | nil =>
      cases (Option.some.inj all : [] = results)
      exact absurd mem List.not_mem_nil
  | cons item rest inductionHypothesis =>
      simp only [List.mapM_cons, Option.bind_eq_bind, Option.bind_eq_some_iff] at all
      obtain ⟨first, isFirst, others, isOthers, isResults⟩ := all
      cases (Option.some.inj isResults : first :: others = results)
      rcases List.mem_cons.mp mem with rfl | later
      · exact ⟨item, List.mem_cons_self, isFirst⟩
      · obtain ⟨other, otherMem, isOther⟩ := inductionHypothesis isOthers later
        exact ⟨other, List.mem_cons_of_mem _ otherMem, isOther⟩

/-- The best width was the best before, or it is the one offered. -/
theorem Condition.better_cases {best next : Option (BoundedBranch data)}
    {offer : BoundedBranch data} (chosen : condition.better branch best next = some offer) :
    best = some offer ∨ (next = some offer ∧ offer.branch = branch ∧
      (branch = true ∨ condition.single = true)) := by
  cases next with
  | none => exact .inl chosen
  | some offered =>
      simp only [Condition.better] at chosen
      split at chosen
      · rename_i allowed
        cases best with
        | none =>
            cases Option.some.inj chosen
            exact .inr ⟨rfl, allowed⟩
        | some least =>
            simp only at chosen
            split at chosen
            · cases Option.some.inj chosen
              exact .inr ⟨rfl, allowed⟩
            · exact .inl chosen
      · exact .inl chosen

theorem Condition.foldl_better {offers : List (Option (BoundedBranch data))}
    {best : Option (BoundedBranch data)} {offer : BoundedBranch data}
    (chosen : offers.foldl (condition.better branch) best = some offer) :
    best = some offer ∨ (some offer ∈ offers ∧ offer.branch = branch ∧
      (branch = true ∨ condition.single = true)) := by
  induction offers generalizing best with
  | nil => exact .inl chosen
  | cons next rest inductionHypothesis =>
      rcases inductionHypothesis chosen with first | ⟨mem, allowed⟩
      · rcases Condition.better_cases first with before | ⟨offered, allowed⟩
        · exact .inl before
        · exact .inr ⟨offered ▸ List.mem_cons_self, allowed⟩
      · exact .inr ⟨List.mem_cons_of_mem _ mem, allowed⟩

/-- The chosen width was offered for the output, which has it from a comparison that
steers to it. -/
theorem Condition.bestBranch_offered {offer : BoundedBranch data}
    (best : condition.bestBranch branch = some (some offer)) :
    ∃ comparison ∈ condition.getCmpOps, comparison.boundedBranch = some (some offer) ∧
      offer.branch = branch ∧ (branch = true ∨ condition.single = true) := by
  obtain ⟨offers, all, chosen⟩ := Option.map_eq_some_iff.mp best
  rcases Condition.foldl_better chosen with first | ⟨mem, allowed⟩
  · cases first
  · obtain ⟨comparison, isOp, offered⟩ := exists_of_mem_mapM all mem
    exact ⟨comparison, isOp, offered, allowed⟩

/-- Whatever conditions a branch, the output that the pass narrows carries the steered
data exactly if the comparison that the width is from does not lose bits. -/
theorem Condition.bestBranch_iff {usefulWidth : Nat} {offer : BoundedBranch data}
    (best : condition.bestBranch branch = some (some offer))
    (steers : condition.value = branch) (narrows : offer.width < usefulWidth)
    (le : usefulWidth ≤ dataWidth) :
    optBranch offer.ext offer.width usefulWidth data.value = data.value.setWidth usefulWidth ↔
      ¬offer.comparison.Loses := by
  obtain ⟨comparison, mem, offers, same, chosen⟩ := Condition.bestBranch_offered best
  have value : comparison.value = offer.branch := by
    rcases chosen with isTrue | single
    · rw [same, isTrue]
      exact condition.value_of_mem mem (steers.trans isTrue)
    · rw [same, ← steers]
      exact condition.value_of_single mem single
  rw [(boundedBranch_eq offers).1]
  exact optBranch_iff offers value narrows le

/-- Eight bits compared to be below a bound. -/
def belowBound (value bound : BitVec 8) : Comparison (.other value : Source 8) where
  predicate := .ult
  width := 8
  operand := .other value
  bound := .constant bound
  isDataLhs := true
  isData := rfl

theorem bestBranch_iff_belowBound :
    optBranch .zext 4 8 (11 : BitVec 8) = BitVec.setWidth 8 (11 : BitVec 8) ↔
      ¬(belowBound 11 16).Loses :=
  @Condition.bestBranch_iff 8 (.other 11) (.cmp (belowBound 11 16)) true 8
    ⟨belowBound 11 16, true, 4, .zext⟩ rfl (by decide) (by decide) (Nat.le_refl 8)

/-- The bound 191 is minus 65, which needs a bit more than minus 64, so 150 is narrowed
to seven bits. -/
theorem belowBound_loses :
    ∃ offer, (Condition.cmp (belowBound 150 191)).bestBranch true = some (some offer) ∧
      (Condition.cmp (belowBound 150 191)).value = true ∧ offer.width < 8 ∧
      optBranch offer.ext offer.width 8 (150 : BitVec 8) = 22 :=
  ⟨⟨belowBound 150 191, true, 7, .zext⟩, rfl, by decide, by decide, by decide⟩

end Conjunction

end Steering

end Dynamatic.Bitwidth
