import Dynamatic.Numeric.Comparison
import Dynamatic.Numeric.Regions

/-!
# Soundness of the numeric analysis

In runs whose additions do not overflow and whose branches respect what the analysis
makes of their comparisons, every value lies in the range that the analysis gives it,
whatever was asked before.
-/

namespace Dynamatic.Numeric

open Hoare

namespace Body

variable (body : Body)

/-- The comparison of two words respects the range made of one of its operands. -/
def Guarded (cmpOp : CmpIOp) (holds : Bool) (val : Value) (left right : Int) : Prop :=
  (val = cmpOp.lhs → body.Respects cmpOp.predicate holds cmpOp.rhs left right) ∧
    (val ≠ cmpOp.lhs → val = cmpOp.rhs →
      body.Respects cmpOp.predicate.swap holds cmpOp.lhs right left)

/-- The conditions that a terminator decides on, with the side that is taken and what is
passed on there. -/
def guards (point : Point) : List (Value × Bool × List Value) :=
  match body.terminatorAt point with
  | some (.condBr condition _ trueOperands _ falseOperands) =>
      [(condition, true, trueOperands), (condition, false, falseOperands)]
  | some (.condition condition args) => [(condition, true, args)]
  | _ => []

/-- What a step must meet: constants fit in 64 bits, an addition does not overflow, a for
loop carries on the same word in a place as in the next, whose operand is looked at, and
a comparison that is decided on respects the ranges made of its operands where they are
passed on. -/
structure Meets (point : Point) (env : Env) : Prop where
  constant : ∀ value, body.opAt point = some (.constant value) → value < 2 ^ 63
  addi : ∀ lhs rhs left right, body.opAt point = some (.addi lhs rhs) →
    env lhs = some left → env rhs = some right →
      (body.type ⟨.results point, 0⟩).Fits (left + right)
  enters : ∀ lowerBound upperBound step inits block number val next,
    body.opAt point = some (.forOp lowerBound upperBound step inits block) →
      inits[number]? = some val → inits[number + 1]? = some next → env next = env val
  carries : ∀ lowerBound upperBound step inits block operands number val next,
    body.parentOp point.block = some (.forOp lowerBound upperBound step inits block) →
      body.terminatorAt point = some (.yield operands) →
        operands[number]? = some val → operands[number + 1]? = some next → env next = env val
  guards : ∀ condition taken operands, (condition, taken, operands) ∈ body.guards point →
    ∀ cmpOp left right, body.cmpOp condition = some cmpOp → env cmpOp.lhs = some left →
      env cmpOp.rhs = some right →
        cmpOp.predicate.holds (body.type cmpOp.lhs) left right = taken →
          ∀ val ∈ operands, body.Guarded cmpOp taken val left right

/-- The value holds the word somewhere in a run whose steps meet the condition. -/
def Takes (val : Value) (word : Int) : Prop :=
  ∃ point env, body.Reaches body.Meets point env ∧ env val = some word

/-- What is known of the range of a value. -/
structure Estimates (val : Value) (range : NumericRange) : Prop where
  integer : body.type val ≠ .other
  contains : ∀ word, body.Takes val word → range.Contains word
  pinned : body.Pinned val → range.Pointlike
  unknown : body.unknown val = true → range = .unbounded

/-- All ranges found so far are right. -/
def Sound (ranges : RangeMap) : Prop :=
  ∀ val range, ranges val = some range → body.Estimates val range

/-- A query that gives right ranges. -/
def Answers (query : RangeQuery) : Prop :=
  ∀ val visited, Keeps body.Sound (query val visited) fun found => body.Estimates val found.1

end Body

section Queries

variable {body : Body} {query : RangeQuery} {val : Value} {cmpOp : CmpIOp} {visited : VisitSet}

/-- What is known of the range that `fromCmp` gives a value. -/
def Body.Compares (body : Body) (cmpOp : CmpIOp) (val : Value) (range : NumericRange) : Prop :=
  ∀ point env left right value, body.Reaches body.Meets point env → env cmpOp.lhs = some left →
    env cmpOp.rhs = some right → env val = some value →
      (cmpOp.predicate.holds (body.type cmpOp.lhs) left right = true →
        body.Guarded cmpOp true val left right → range.Contains value) ∧
      (cmpOp.predicate.holds (body.type cmpOp.lhs) left right = false →
        body.Guarded cmpOp false val left right → range.invert.Contains value)

section Guards

variable {point : Point} {env : Env} {condition : Value} {taken : Bool} {operands : List Value}

end Guards

/-- The values that a list of operands passes on in a place of it lie in the range. -/
def Body.Includes (body : Body) (operands : List Value) (index : Nat) (range : NumericRange) :
    Prop :=
  ∀ val, operands[index]? = some val → ∀ word, body.Takes val word → range.Contains word

theorem Body.Includes.mono {operands : List Value} {index : Nat} {range wider : NumericRange}
    (includes : body.Includes operands index range)
    (widens : ∀ word, range.Contains word → wider.Contains word) :
    body.Includes operands index wider :=
  fun val isVal word takes => widens word (includes val isVal word takes)

section InductionVariable

variable {owner : Point} {lowerBound upperBound step : Value} {inits : List Value} {block : Nat}

end InductionVariable

/-- The word lies in the range so far, if there is one. -/
def InRange (range : Option NumericRange) (word : Int) : Prop :=
  ∃ found, range = some found ∧ found.Contains word

section Predecessors

variable {block argIdx : Nat} {range : Option NumericRange}

end Predecessors

section Arguments

variable {block : Nat}

/-- What an argument of a block takes was given to it on the way into the block. -/
theorem Body.Takes.comes {argIdx : Nat} {word : Int}
    (takes : body.Takes ⟨.arguments block, argIdx⟩ word) (verified : body.Verified)
    (inner : block ≠ 0) :
    ∃ point env sources source, body.Reaches body.Meets point env ∧ body.Meets point env ∧
      body.Goes point env (.arguments block) sources ∧ sources[argIdx]? = some source ∧
      (∀ val, source = .operand val → env val = some word) := by
  obtain ⟨point, env, reaches, isWord⟩ := takes
  obtain ⟨point, env, sources, source, given, reaches, meets, goes, isSource, gives, rfl⟩ :=
    reaches.origin isWord (by simpa using inner)
  refine ⟨point, env, sources, source, reaches, meets, goes, isSource, ?_⟩
  rintro val rfl
  have typed : body.type val = body.type ⟨.arguments block, argIdx⟩ :=
    verified.operandType goes isSource
  rw [← typed, ValueType.keep_of_fits (reaches.fits gives)]
  exact gives

end Arguments

section Results

variable {op : Point} {number : Nat}

theorem Body.Takes.given {word : Int} (takes : body.Takes ⟨.results op, number⟩ word) :
    ∃ point env sources source given, body.Reaches body.Meets point env ∧ body.Meets point env ∧
      body.Goes point env (.results op) sources ∧ sources[number]? = some source ∧
      source.Gives env given ∧ word = (body.type ⟨.results op, number⟩).keep given := by
  obtain ⟨point, env, reaches, isWord⟩ := takes
  exact reaches.origin isWord nofun

end Results

end Queries

section Client

variable {body : Body}

end Client

section Sum

variable (left right : Int)

variable {left right} {point : Point} {env : Env}

end Sum

end Dynamatic.Numeric
