import Dynamatic.Hoare.Keeps
import Dynamatic.Numeric.Body
import Dynamatic.Numeric.Range

/-!
# The numeric analysis

`getRange` follows a value backwards to where it comes from, and keeps the ranges that
it found. A set of visited values cuts cycles; it is passed on by reference, and copied
where the source copies it.
-/

namespace Dynamatic.Numeric

abbrev VisitSet := List Value

/-- The ranges found so far. -/
abbrev RangeMap := Value → Option NumericRange

/-- A computation of the analysis, which keeps ranges and may have no defined result. -/
abbrev Query := StateT RangeMap (Except Fault)

/-- A query of a value's range, with the visited values before and after. -/
abbrev RangeQuery := Value → VisitSet → Query (NumericRange × VisitSet)

/-- One below a bound that may be missing. -/
def belowBound (bound : Option Int) : Except Fault (Option Int) :=
  match bound with
  | some exact => some <$> intBound (exact - 1)
  | none => .ok none

/-- A comparison of the program. -/
structure CmpIOp where
  predicate : CmpIPredicate
  lhs : Value
  rhs : Value
  deriving DecidableEq, Repr

namespace Body

variable (body : Body)

/-- The comparison that computes a condition. -/
def cmpOp (condition : Value) : Option CmpIOp :=
  match body.definingOp condition with
  | some (.cmpi predicate lhs rhs) => some ⟨predicate, lhs, rhs⟩
  | _ => none

variable (query : RangeQuery)

end Body

end Dynamatic.Numeric
