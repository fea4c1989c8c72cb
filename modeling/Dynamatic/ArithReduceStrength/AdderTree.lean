import Mathlib.Algebra.Order.BigOperators.Group.List
import Mathlib.Data.BitVec
import Mathlib.Data.Nat.Log
import Mathlib.Tactic.Ring

/-!
# Multiplications as trees of adders

`MulReduceStrength` replaces a multiplication by a positive constant with the sum of
shifted copies of the other operand, one for each bit that is set in the constant. The
copies are added up in a binary tree of minimal height, which must not be deeper than
the adders that may be chained.
-/

namespace Dynamatic.ArithReduceStrength

inductive OpType where
  | add
  | sub
  | shiftLeft
  deriving DecidableEq, Repr

/-- A tree of operations on the operand of a multiplication, and on constants. -/
inductive OpTree where
  | mulOperand
  | constant (value : Nat)
  | op (opType : OpType) (left right : OpTree)
  deriving DecidableEq, Repr

namespace OpTree

variable {width : Nat}

/-- What the operations that are built for a tree give. -/
def evaluate (operand : BitVec width) : OpTree → BitVec width
  | mulOperand => operand
  | constant value => BitVec.ofNat width value
  | op .add left right => left.evaluate operand + right.evaluate operand
  | op .sub left right => left.evaluate operand - right.evaluate operand
  | op .shiftLeft left right => left.evaluate operand <<< (right.evaluate operand).toNat

/-- The most adders that a path through the tree crosses. -/
def chainedAdders : OpTree → Nat
  | mulOperand => 0
  | constant _ => 0
  | op .shiftLeft left right => max left.chainedAdders right.chainedAdders
  | op _ left right => max left.chainedAdders right.chainedAdders + 1

end OpTree

/-! ### The pattern -/

/-- The positions of the bits that are set, from a position on. -/
def getOneBitPositions (value pos : Nat) : List Nat :=
  if value = 0 then []
  else if value % 2 = 1 then pos :: getOneBitPositions (value / 2) (pos + 1)
  else getOneBitPositions (value / 2) (pos + 1)
  termination_by value

/-- The shift for a bit; the lowest one needs none. -/
def shiftLeaf (pos : Nat) : OpTree :=
  if pos ≠ 0 then .op .shiftLeft .mulOperand (.constant pos) else .mulOperand

/-- A tree of adders with minimal height. -/
def buildTree (vals : List OpTree) : OpTree :=
  if vals.length ≤ 1 then vals.headD (.constant 0)
  else
    .op .add (buildTree (vals.take (vals.length / 2))) (buildTree (vals.drop (vals.length / 2)))
  termination_by vals.length
  decreasing_by
    · rw [List.length_take]
      omega
    · rw [List.length_drop]
      omega

/-- The height of a tree of adders for a number of bits, which is an integer of eight bits. -/
def getTreeDepth (numBits : Nat) : Nat :=
  let numBitsAP := numBits % 2 ^ 8
  if numBitsAP.isPowerOfTwo then Nat.log2 numBitsAP else Nat.log2 numBitsAP + 1

def getBitwiseAdderTree (maxAdderDepth cst : Nat) : Option OpTree :=
  let onePositions := getOneBitPositions cst 0
  let treeDepth := getTreeDepth onePositions.length
  if treeDepth > maxAdderDepth then none
  else if treeDepth = 0 then
    some (.op .shiftLeft .mulOperand (.constant (onePositions.headD 0)))
  else some (buildTree (onePositions.map shiftLeaf))

/-- An operand of a multiplication: a constant or another value. -/
inductive MulOperand (width : Nat) where
  | constant (bits : BitVec width)
  | value (bits : BitVec width)

namespace MulOperand

variable {width : Nat}

def bits : MulOperand width → BitVec width
  | constant bits => bits
  | value bits => bits

end MulOperand

def getPosConstantOperand {width : Nat} : MulOperand width → Option (BitVec width)
  | .constant bits => if 0 < bits.toInt then some bits else none
  | .value _ => none

/-- The tree that a multiplication is replaced with, and the operand that it is built on. -/
def mulReduceStrength {width : Nat} (maxAdderDepth : Nat) (lhs rhs : MulOperand width) :
    Option (OpTree × BitVec width) :=
  match getPosConstantOperand lhs with
  | some cst => (getBitwiseAdderTree maxAdderDepth cst.toNat).map fun tree => (tree, rhs.bits)
  | none =>
      match getPosConstantOperand rhs with
      | some cst => (getBitwiseAdderTree maxAdderDepth cst.toNat).map fun tree => (tree, lhs.bits)
      | none => none

/-! ### Bits -/

section Positions

/-- The bits add up to the value. -/
theorem sum_getOneBitPositions (value pos : Nat) :
    ((getOneBitPositions value pos).map (2 ^ ·)).sum = value * 2 ^ pos := by
  induction value, pos using getOneBitPositions.induct with
  | case1 pos => simp [getOneBitPositions]
  | case2 value pos nonzero odd inductionHypothesis =>
      rw [getOneBitPositions, if_neg nonzero, if_pos odd, List.map_cons, List.sum_cons,
        inductionHypothesis]
      have whole := Nat.div_add_mod value 2
      rw [odd] at whole
      calc 2 ^ pos + value / 2 * 2 ^ (pos + 1) = (2 * (value / 2) + 1) * 2 ^ pos := by ring
        _ = value * 2 ^ pos := by rw [whole]
  | case3 value pos nonzero even inductionHypothesis =>
      rw [getOneBitPositions, if_neg nonzero, if_neg even, inductionHypothesis]
      have whole := Nat.div_add_mod value 2
      have noRest : value % 2 = 0 := by omega
      rw [noRest, Nat.add_zero] at whole
      calc value / 2 * 2 ^ (pos + 1) = 2 * (value / 2) * 2 ^ pos := by ring
        _ = value * 2 ^ pos := by rw [whole]

theorem two_pow_le_of_mem {value pos bit : Nat} (mem : bit ∈ getOneBitPositions value pos) :
    2 ^ bit ≤ value * 2 ^ pos := by
  rw [← sum_getOneBitPositions]
  exact List.single_le_sum (fun _ _ => Nat.zero_le _) _ (List.mem_map_of_mem mem)

theorem lt_of_mem {value bit width : Nat} (less : value < 2 ^ width)
    (mem : bit ∈ getOneBitPositions value 0) : bit < width := by
  have le := two_pow_le_of_mem mem
  rw [Nat.pow_zero, Nat.mul_one] at le
  exact (Nat.pow_lt_pow_iff_right (by omega)).mp (le.trans_lt less)

/-- A value has no more bits than its width. -/
theorem length_getOneBitPositions {value width : Nat} (less : value < 2 ^ width) (pos : Nat) :
    (getOneBitPositions value pos).length ≤ width := by
  induction width generalizing value pos with
  | zero =>
      have zero : value = 0 := by simpa using less
      rw [getOneBitPositions, if_pos zero]
      exact Nat.le_refl 0
  | succ width inductionHypothesis =>
      have half : value / 2 < 2 ^ width := by
        rw [Nat.pow_succ] at less
        omega
      have shorter := inductionHypothesis half (pos + 1)
      rw [getOneBitPositions]
      split_ifs
      · exact Nat.zero_le _
      · rw [List.length_cons]
        omega
      · omega

end Positions

/-! ### Trees -/

section Trees

variable {width : Nat} (operand : BitVec width)

/-- A tree of adders gives the sum of its leaves. -/
theorem evaluate_buildTree (vals : List OpTree) :
    (buildTree vals).evaluate operand = (vals.map (OpTree.evaluate operand)).sum := by
  induction vals using buildTree.induct with
  | case1 vals few =>
      rw [buildTree, if_pos few]
      match vals, few with
      | [], _ => simp [OpTree.evaluate]
      | [val], _ => simp
  | case2 vals many left right =>
      rw [buildTree, if_neg many, OpTree.evaluate, left, right, ← List.sum_append,
        ← List.map_append, List.take_append_drop]

/-- Twice the leaves need one more adder. -/
theorem chainedAdders_buildTree {depth : Nat} (vals : List OpTree)
    (leaves : ∀ val ∈ vals, val.chainedAdders = 0) (few : vals.length ≤ 2 ^ depth) :
    (buildTree vals).chainedAdders ≤ depth := by
  induction vals using buildTree.induct generalizing depth with
  | case1 vals single =>
      rw [buildTree, if_pos single]
      match vals, single with
      | [], _ => exact Nat.zero_le _
      | [val], _ => exact (Nat.le_of_eq (leaves val List.mem_cons_self)).trans (Nat.zero_le _)
  | case2 vals many left right =>
      cases depth with
      | zero => exact absurd few many
      | succ depth =>
          rw [Nat.pow_succ] at few
          have leftHeight := left (fun val mem => leaves val (List.mem_of_mem_take mem))
            (show _ ≤ 2 ^ depth by rw [List.length_take]; omega)
          have rightHeight := right (fun val mem => leaves val (List.mem_of_mem_drop mem))
            (show _ ≤ 2 ^ depth by rw [List.length_drop]; omega)
          rw [buildTree, if_neg many]
          exact Nat.succ_le_succ (Nat.max_le.mpr ⟨leftHeight, rightHeight⟩)

theorem evaluate_shift {pos : Nat} (less : pos < width) :
    (OpTree.op .shiftLeft .mulOperand (.constant pos)).evaluate operand =
      operand * BitVec.ofNat width (2 ^ pos) := by
  have amount : (BitVec.ofNat width pos).toNat = pos :=
    (BitVec.toNat_ofNat _ _).trans (Nat.mod_eq_of_lt (less.trans Nat.lt_two_pow_self))
  have power : BitVec.twoPow width pos = BitVec.ofNat width (2 ^ pos) :=
    BitVec.eq_of_toNat_eq ((BitVec.toNat_twoPow _ _).trans (BitVec.toNat_ofNat _ _).symm)
  simp only [OpTree.evaluate, amount]
  rw [BitVec.shiftLeft_eq_mul_twoPow, power]

theorem evaluate_shiftLeaf {pos : Nat} (less : pos < width) :
    (shiftLeaf pos).evaluate operand = operand * BitVec.ofNat width (2 ^ pos) := by
  rw [shiftLeaf]
  split
  · exact evaluate_shift operand less
  · rename_i lowest
    obtain rfl : pos = 0 := by omega
    simp [OpTree.evaluate]

theorem chainedAdders_shiftLeaf (pos : Nat) : (shiftLeaf pos).chainedAdders = 0 := by
  rw [shiftLeaf]
  split <;> rfl

/-- The shifted copies add up to the product. -/
theorem sum_shiftLeaf {positions : List Nat} (less : ∀ pos ∈ positions, pos < width) :
    ((positions.map shiftLeaf).map (OpTree.evaluate operand)).sum =
      operand * BitVec.ofNat width ((positions.map (2 ^ ·)).sum) := by
  induction positions with
  | nil => simp
  | cons pos positions inductionHypothesis =>
      have rest := inductionHypothesis fun other mem => less other (List.mem_cons_of_mem _ mem)
      rw [List.map_cons, List.map_cons, List.sum_cons, rest,
        evaluate_shiftLeaf operand (less pos List.mem_cons_self), List.map_cons, List.sum_cons,
        ← BitVec.ofNat_add_ofNat, BitVec.mul_add]

/-- The height holds as many leaves as there are bits. -/
theorem le_two_pow_getTreeDepth {numBits : Nat} (few : numBits < 2 ^ 8) :
    numBits ≤ 2 ^ getTreeDepth numBits := by
  simp only [getTreeDepth, Nat.mod_eq_of_lt few]
  split
  · rename_i power
    obtain ⟨exponent, rfl⟩ := power
    rw [Nat.log2_two_pow]
  · exact Nat.le_of_lt Nat.lt_log2_self

end Trees

/-! ### The product -/

section Product

variable {width maxAdderDepth : Nat} {tree : OpTree}

/-- Only a single bit needs no adder. -/
theorem eq_one_of_getTreeDepth {numBits : Nat} (few : numBits < 2 ^ 8)
    (flat : getTreeDepth numBits = 0) : numBits = 1 := by
  simp only [getTreeDepth, Nat.mod_eq_of_lt few] at flat
  split at flat
  · rename_i power
    obtain ⟨exponent, rfl⟩ := power
    rw [Nat.log2_two_pow] at flat
    rw [flat, Nat.pow_zero]
  · cases flat

theorem getBitwiseAdderTree_correct {cst : BitVec width} (le : width ≤ 64)
    (accepted : getBitwiseAdderTree maxAdderDepth cst.toNat = some tree) (operand : BitVec width) :
    tree.evaluate operand = operand * cst ∧ tree.chainedAdders ≤ maxAdderDepth := by
  have less : ∀ pos ∈ getOneBitPositions cst.toNat 0, pos < width := fun pos mem =>
    lt_of_mem cst.isLt mem
  have few : (getOneBitPositions cst.toNat 0).length < 2 ^ 8 :=
    (length_getOneBitPositions cst.isLt 0).trans_lt (le.trans_lt (by decide))
  have sum : BitVec.ofNat width (((getOneBitPositions cst.toNat 0).map (2 ^ ·)).sum) = cst := by
    rw [sum_getOneBitPositions, Nat.pow_zero, Nat.mul_one, BitVec.ofNat_toNat, BitVec.setWidth_eq]
  rw [getBitwiseAdderTree, Option.ite_none_left_eq_some] at accepted
  obtain ⟨shallow, built⟩ := accepted
  split at built
  · rename_i flat
    cases built
    obtain ⟨pos, single⟩ := List.length_eq_one_iff.mp (eq_one_of_getTreeDepth few flat)
    rw [single] at less sum ⊢
    refine ⟨?_, Nat.zero_le _⟩
    rw [List.headD_cons, evaluate_shift operand (less pos List.mem_cons_self)]
    rw [List.map_singleton, List.sum_singleton] at sum
    rw [sum]
  · cases built
    constructor
    · rw [evaluate_buildTree, sum_shiftLeaf operand less, sum]
    · have leaves : ∀ val ∈ (getOneBitPositions cst.toNat 0).map shiftLeaf,
          val.chainedAdders = 0 :=
        List.forall_mem_map.mpr fun pos _ => chainedAdders_shiftLeaf pos
      refine (chainedAdders_buildTree _ leaves ?_).trans (Nat.le_of_not_lt shallow)
      rw [List.length_map]
      exact le_two_pow_getTreeDepth few

theorem bits_of_getPosConstantOperand {mulOperand : MulOperand width} {cst : BitVec width}
    (isConstant : getPosConstantOperand mulOperand = some cst) : mulOperand.bits = cst := by
  cases mulOperand with
  | value bits => cases isConstant
  | constant bits => exact Option.some.inj (Option.ite_none_right_eq_some.mp isConstant).2

/-- Where the pattern accepts a multiplication, the tree gives its product and chains no more adders
than it may. -/
theorem mulReduceStrength_correct (le : width ≤ 64) (lhs rhs : MulOperand width)
    (operand : BitVec width)
    (accepted : mulReduceStrength maxAdderDepth lhs rhs = some (tree, operand)) :
    tree.evaluate operand = lhs.bits * rhs.bits ∧ tree.chainedAdders ≤ maxAdderDepth := by
  rw [mulReduceStrength] at accepted
  split at accepted
  · rename_i cst isConstant
    obtain ⟨_, built, same⟩ := Option.map_eq_some_iff.mp accepted
    cases same
    rw [bits_of_getPosConstantOperand isConstant, BitVec.mul_comm]
    exact getBitwiseAdderTree_correct le built rhs.bits
  · split at accepted
    · rename_i cst isConstant
      obtain ⟨_, built, same⟩ := Option.map_eq_some_iff.mp accepted
      cases same
      rw [bits_of_getPosConstantOperand isConstant]
      exact getBitwiseAdderTree_correct le built lhs.bits
    · cases accepted

/-- Three times a value is the value and the value shifted by one. -/
theorem mulReduceStrength_correct_three :
    (OpTree.op .add .mulOperand (.op .shiftLeft .mulOperand (.constant 1))).evaluate 5#8 =
        5#8 * 3#8 ∧
      (OpTree.op .add .mulOperand (.op .shiftLeft .mulOperand (.constant 1))).chainedAdders ≤ 1 := by
  have two : Nat.isPowerOfTwo 2 := ⟨1, rfl⟩
  exact mulReduceStrength_correct (by decide) (.value 5#8) (.constant 3#8) 5#8
    (by simp [mulReduceStrength, getPosConstantOperand, getBitwiseAdderTree, getOneBitPositions,
      getTreeDepth, buildTree, shiftLeaf, MulOperand.bits, two])

end Product

end Dynamatic.ArithReduceStrength
