import Mathlib.Data.Nat.Bitwise

/-!
# Priority by subtraction

`word & ~(word - base)` with a one-hot `base` keeps exactly the first bit of
`word` that is set at or above the bit of `base`: the borrow of the subtraction
runs up from there and stops at that bit.
-/

namespace Dynamatic.Clocked

/-- A vector of bits as a word, bit 0 first. -/
def pack {size : Nat} (bits : Fin size → Bool) : BitVec size := BitVec.ofNat size (Nat.ofBits bits)

@[simp] theorem getLsbD_pack {size : Nat} (bits : Fin size → Bool) (index : Fin size) :
    (pack bits).getLsbD index = bits index := by
  rw [pack, BitVec.getLsbD_ofNat, Nat.testBit_ofBits_lt bits index index.isLt]
  simp

variable {width : Nat} (word : BitVec width) (base : Nat) {bit : Nat}

private theorem getLsbD_not_twoPow (bounded : bit < width) :
    (~~~ BitVec.twoPow width base).getLsbD bit = decide (bit ≠ base) := by
  rw [BitVec.getLsbD_not, BitVec.getLsbD_twoPow]
  by_cases here : bit = base
  · simp [here]
  · simp [bounded, here, Ne.symm here]

/-- The carry into a bit of `word - 2 ^ base` tells that no borrow is pending. -/
private theorem carry_sub_twoPow (bounded : bit ≤ width) :
    BitVec.carry bit word (~~~ BitVec.twoPow width base) true = true ↔
      bit ≤ base ∨ ∃ lower, base ≤ lower ∧ lower < bit ∧ word.getLsbD lower = true := by
  induction bit with
  | zero => simp
  | succ bit inductionHypothesis =>
      have before := inductionHypothesis (by omega)
      rw [BitVec.carry_succ, getLsbD_not_twoPow base (by omega)]
      by_cases here : bit = base
      · -- The subtracted bit: the borrow passes unless the bit of the word is set.
        subst here
        have noBorrow := before.mpr (.inl (Nat.le_refl _))
        simp only [Bool.atLeastTwo, ne_eq, not_true_eq_false, decide_false, Bool.and_false,
          Bool.or_false, Bool.false_or, noBorrow, Bool.and_true]
        constructor
        · intro set
          exact .inr ⟨bit, Nat.le_refl _, Nat.lt_succ_self _, set⟩
        · rintro (beyond | ⟨lower, least, bounded, set⟩)
          · omega
          · rwa [show lower = bit by omega] at set
      · have passes : Bool.atLeastTwo (word.getLsbD bit) (decide (bit ≠ base))
              (BitVec.carry bit word (~~~ BitVec.twoPow width base) true) = true ↔
            word.getLsbD bit = true ∨
              BitVec.carry bit word (~~~ BitVec.twoPow width base) true = true := by
          cases word.getLsbD bit <;>
            cases BitVec.carry bit word (~~~ BitVec.twoPow width base) true <;>
            simp [Bool.atLeastTwo, here]
        rw [passes, before]
        constructor
        · rintro (set | below | ⟨lower, least, bounded, set⟩)
          · by_cases low : bit < base
            · exact .inl low
            · exact .inr ⟨bit, by omega, Nat.lt_succ_self _, set⟩
          · exact .inl (by omega)
          · exact .inr ⟨lower, least, Nat.lt_succ_of_lt bounded, set⟩
        · rintro (below | ⟨lower, least, bounded, set⟩)
          · exact .inr (.inl (by omega))
          · rcases Nat.lt_succ_iff_lt_or_eq.mp bounded with bounded | rfl
            · exact .inr (.inr ⟨lower, least, bounded, set⟩)
            · exact .inl set

private theorem getLsbD_sub_twoPow (bounded : bit < width) :
    (word - BitVec.twoPow width base).getLsbD bit =
      (word.getLsbD bit ^^ (decide (bit ≠ base) ^^
        BitVec.carry bit word (~~~ BitVec.twoPow width base) true)) := by
  have one : BitVec.ofNat width 1 = BitVec.setWidth width (BitVec.ofBool true) := by
    have wide : 1 ≤ width := by omega
    simp [BitVec.ofBool, wide]
  rw [BitVec.sub_eq_add_neg, BitVec.neg_eq_not_add, ← BitVec.add_assoc, one,
    BitVec.getLsbD_add_add_bool bounded, getLsbD_not_twoPow base bounded]

/-- The bit kept is the first one set from `base` on. -/
theorem getLsbD_isolate (bounded : bit < width) :
    (word &&& ~~~ (word - BitVec.twoPow width base)).getLsbD bit = true ↔
      word.getLsbD bit = true ∧ base ≤ bit ∧
        ∀ lower, base ≤ lower → lower < bit → word.getLsbD lower = false := by
  rw [BitVec.getLsbD_and, BitVec.getLsbD_not, getLsbD_sub_twoPow word base bounded]
  simp only [Bool.and_eq_true, bounded, decide_true, Bool.true_and, Bool.not_eq_true']
  refine and_congr_right fun set => ?_
  have carry := carry_sub_twoPow word base (Nat.le_of_lt bounded)
  have flips : (word.getLsbD bit ^^ (decide (bit ≠ base) ^^
        BitVec.carry bit word (~~~ BitVec.twoPow width base) true)) = false ↔
      (BitVec.carry bit word (~~~ BitVec.twoPow width base) true = true ↔ bit = base) := by
    rw [set]
    by_cases here : bit = base <;>
      cases BitVec.carry bit word (~~~ BitVec.twoPow width base) true <;> simp [here]
  rw [flips, carry]
  constructor
  · intro same
    have above : base ≤ bit := by
      by_contra below
      have here := same.mp (.inl (by omega))
      omega
    refine ⟨above, fun lower least below => Bool.eq_false_iff.mpr fun lowerSet => ?_⟩
    have here := same.mp (.inr ⟨lower, least, below, lowerSet⟩)
    omega
  · rintro ⟨above, clear⟩
    constructor
    · rintro (below | ⟨lower, least, bounded, lowerSet⟩)
      · omega
      · simp [clear lower least bounded] at lowerSet
    · rintro rfl
      exact .inl (Nat.le_refl _)

end Dynamatic.Clocked
