import Mathlib.Tactic.Positivity
import Dynamatic.Numeric.Analysis

/-!
# What a comparison says of the compared value

`fromCmp` builds its range from the bounds of the other operand, and the false side of
a branch inverts it. `Respects` is when that is right: the inverted range is right for
an operand whose range is one value, and unsigned comparisons are read as signed ones.
-/

namespace Dynamatic.Numeric

/-- The predicate with its operands exchanged. -/
def CmpIPredicate.swap : CmpIPredicate → CmpIPredicate
  | eq => eq
  | ne => ne
  | slt => sgt
  | sle => sge
  | sgt => slt
  | sge => sle
  | ult => ugt
  | ule => uge
  | ugt => ult
  | uge => ule

namespace Body

variable (body : Body)

/-- The value is a constant, or a sum of such values. -/
inductive Pinned : Value → Prop where
  | constant {value : Value} {exact : Int} (op : body.definingOp value = some (.constant exact)) :
      Pinned value
  | addi {value lhs rhs : Value} (op : body.definingOp value = some (.addi lhs rhs))
      (left : Pinned lhs) (right : Pinned rhs) : Pinned value

/-- The analysis does not look behind the value. -/
def unknown (value : Value) : Bool :=
  match value.owner with
  | .results op =>
      match body.opAt op with
      | some (.constant _) | some (.addi _ _) => false
      | _ => true
  | .arguments block =>
      match body.parentOp block with
      | some (.whileOp ..) | some (.forOp ..) => false
      | _ => (body.predecessors block).isEmpty

/-- When the comparison of `value` with `word`, which the other operand holds, came out
as `holds`, the range that the analysis makes of it is right. -/
def Respects (predicate : CmpIPredicate) (holds : Bool) (other : Value) (value word : Int) :
    Prop :=
  match predicate, holds with
  | .eq, true | .ne, false => True
  | .eq, false | .ne, true => body.unknown other = true ∨ body.Pinned other ∧ value ≤ word
  | .slt, true | .sle, true | .sgt, true | .sge, true => True
  | .slt, false | .sle, false | .sgt, false | .sge, false => body.Pinned other
  | .ult, true | .ule, true => 0 ≤ word
  | .ugt, true | .uge, true => word ≤ value
  | .ult, false | .ule, false => value ≤ 0
  | .ugt, false => body.Pinned other ∧ value ≤ word + 1
  | .uge, false => body.Pinned other ∧ value ≤ word

end Body

section Unsigned

variable {type : ValueType} {value word : Int}

/-- Half of the words have a negative signed reading. -/
theorem ValueType.Fits.bounds {width : Nat} (fits : (ValueType.integer width).Fits value) :
    -2 ^ width ≤ 2 * value ∧ 2 * value < 2 ^ width := by
  have lower := Int.le_bmod (x := value) (Nat.two_pow_pos width)
  have upper := Int.bmod_lt (x := value) (Nat.two_pow_pos width)
  rw [show Int.bmod value (2 ^ width) = value from fits] at lower upper
  push_cast at lower upper
  cases width with
  | zero => omega
  | succ half =>
      rw [Int.pow_succ] at lower upper ⊢
      omega

end Unsigned

section Ranges

variable {predicate : CmpIPredicate} {lowest : Option Int} {strict : Bool}
  {other range : NumericRange} {value word : Int}

end Ranges

end Dynamatic.Numeric
