import Mathlib.Algebra.GroupWithZero.Nat
import Mathlib.Algebra.Order.Group.Int
import Mathlib.Algebra.Ring.Int.Defs

/-!
# Numeric ranges

The integer ranges of the numeric analysis: intervals with optional bounds of 64 bits.
Bounds are computed with signed arithmetic, where leaving the 64 bits is undefined, and
a missing bound must not be read.
-/

namespace Dynamatic.Numeric

/-- Where the analysis has no defined result. -/
inductive Fault where
  /-- An assertion of the analysis fails. -/
  | assertion
  /-- A bound is read that the range does not have. -/
  | missingBound
  /-- A bound leaves the 64 bits. -/
  | overflow
  /-- A list of operands is read behind its end. -/
  | outOfRange
  /-- The recursion of the model is cut. -/
  | outOfFuel
  deriving DecidableEq, Repr

/-- A result of signed 64-bit arithmetic. -/
def intBound (exact : Int) : Except Fault Int :=
  if -2 ^ 63 ≤ exact ∧ exact < 2 ^ 63 then .ok exact else .error .overflow

/-- A range, open on the sides where it has no bound. -/
structure NumericRange where
  lb : Option Int
  ub : Option Int
  deriving DecidableEq, Repr

namespace NumericRange

def unbounded : NumericRange := ⟨none, none⟩

/-- The range of one value. -/
def point (value : Int) : NumericRange := ⟨some value, some value⟩

def isPositive (range : NumericRange) : Bool :=
  match range.lb with
  | some lb => decide (0 ≤ lb)
  | none => false

def invert (range : NumericRange) : NumericRange :=
  match range.lb, range.ub with
  | some lb, _ => ⟨none, some lb⟩
  | none, some ub => ⟨some ub, none⟩
  | none, none => ⟨none, none⟩

/-- Both bounds if they are there, combined. -/
def bothBounds (combine : Int → Int → Except Fault Int) :
    Option Int → Option Int → Except Fault (Option Int)
  | some left, some right => some <$> combine left right
  | _, _ => .ok none

def add (lhs rhs : NumericRange) : Except Fault NumericRange := do
  let lb ← bothBounds (fun left right => intBound (left + right)) lhs.lb rhs.lb
  let ub ← bothBounds (fun left right => intBound (left + right)) lhs.ub rhs.ub
  return ⟨lb, ub⟩

/-- The more restrictive of two bounds. -/
def tighter (choose : Int → Int → Int) : Option Int → Option Int → Option Int
  | none, right => right
  | left, none => left
  | some left, some right => some (choose left right)

/-- The value lies in the range. -/
structure Contains (range : NumericRange) (value : Int) : Prop where
  above : ∀ lb, range.lb = some lb → lb ≤ value
  below : ∀ ub, range.ub = some ub → value ≤ ub

section Operations

variable {lhs rhs range : NumericRange} {left right value : Int}

/-- The range is of one value, or open on both sides. -/
def Pointlike (range : NumericRange) : Prop := range = unbounded ∨ ∃ value, range = point value

end Operations

end NumericRange

end Dynamatic.Numeric
