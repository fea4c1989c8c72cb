import Mathlib.Data.Finset.Sort
import Mathlib.Data.Finset.Union
import Dynamatic.BooleanLogic.Expression

/-!
# Expression trees

The trees that the source builds for boolean expressions: negation nodes stand anywhere in them,
and a literal has a flag of its own. `propagateNegation` moves all negations into the flags, after
which the tree is one of those that `BoolExpression` allows.
-/

namespace Dynamatic.BooleanLogic

variable {Variable : Type}

/-- An expression tree. An operator node owns its operands, so no two nodes share one. -/
inductive ExpressionTree (Variable : Type) where
  | literal (id : Variable) (isNegated : Bool)
  | or (left right : ExpressionTree Variable)
  | and (left right : ExpressionTree Variable)
  | not (right : ExpressionTree Variable)
  | zero
  | one
  deriving DecidableEq, Repr

namespace ExpressionTree

/-- The value under a row, which maps the variables it does not name to false. -/
def evaluate (row : Variable → Bool) : ExpressionTree Variable → Bool
  | literal id isNegated => (isNegated && !row id) || (!isNegated && row id)
  | or left right => left.evaluate row || right.evaluate row
  | and left right => left.evaluate row && right.evaluate row
  | not right => !right.evaluate row
  | zero => false
  | one => true

/-- The variables, save for those below a negation node, which the source does not visit. -/
def getVariables [DecidableEq Variable] : ExpressionTree Variable → Finset Variable
  | literal id _ => {id}
  | or left right | and left right => left.getVariables ∪ right.getVariables
  | not _ | zero | one => ∅

/-- Move the negations down to the flags, by DeMorgan's laws. -/
def propagateNegation (negated : Bool) : ExpressionTree Variable → ExpressionTree Variable
  | not right => right.propagateNegation !negated
  | and left right =>
    if negated then or (left.propagateNegation negated) (right.propagateNegation negated)
    else and (left.propagateNegation negated) (right.propagateNegation negated)
  | or left right =>
    if negated then and (left.propagateNegation negated) (right.propagateNegation negated)
    else or (left.propagateNegation negated) (right.propagateNegation negated)
  | literal id isNegated => literal id (if negated then !isNegated else isNegated)
  | one => if negated then zero else one
  | zero => if negated then one else zero

/-- No negation node in the tree. -/
def notFree : ExpressionTree Variable → Bool
  | literal _ _ | zero | one => true
  | or left right | and left right => left.notFree && right.notFree
  | not _ => false

variable {tree : ExpressionTree Variable} {row : Variable → Bool}

theorem evaluate_propagateNegation (tree : ExpressionTree Variable) (negated : Bool)
    (row : Variable → Bool) :
    (tree.propagateNegation negated).evaluate row = (negated ^^ tree.evaluate row) := by
  induction tree generalizing negated with
  | literal id isNegated =>
    cases negated <;> cases isNegated <;> simp [propagateNegation, evaluate]
  | or left right leftHypothesis rightHypothesis =>
    cases negated <;> simp [propagateNegation, evaluate, leftHypothesis, rightHypothesis]
  | and left right leftHypothesis rightHypothesis =>
    cases negated <;> simp [propagateNegation, evaluate, leftHypothesis, rightHypothesis]
  | not right rightHypothesis => simp [propagateNegation, evaluate, rightHypothesis]
  | zero => cases negated <;> rfl
  | one => cases negated <;> rfl

theorem notFree_propagateNegation (tree : ExpressionTree Variable) (negated : Bool) :
    (tree.propagateNegation negated).notFree = true := by
  induction tree generalizing negated with
  | literal id isNegated => rfl
  | or left right leftHypothesis rightHypothesis =>
    cases negated <;> simp [propagateNegation, notFree, leftHypothesis, rightHypothesis]
  | and left right leftHypothesis rightHypothesis =>
    cases negated <;> simp [propagateNegation, notFree, leftHypothesis, rightHypothesis]
  | not right rightHypothesis => exact rightHypothesis !negated
  | zero => cases negated <;> rfl
  | one => cases negated <;> rfl

/-- What comes back has the value of the tree, or of its negation, on every row, and no negation
but at its literals. -/
theorem propagateNegation_negates (tree : ExpressionTree Variable) (negated : Bool) :
    (∀ row, (tree.propagateNegation negated).evaluate row =
      if negated then !tree.evaluate row else tree.evaluate row) ∧
      (tree.propagateNegation negated).notFree = true := by
  refine ⟨fun row => ?_, notFree_propagateNegation tree negated⟩
  rw [evaluate_propagateNegation]
  cases negated <;> simp

section Variables

variable [DecidableEq Variable] {other : Variable → Bool}

/-- Without negation nodes, a tree only reads the variables that are collected. -/
theorem evaluate_congr (free : tree.notFree = true)
    (same : ∀ var ∈ tree.getVariables, row var = other var) :
    tree.evaluate row = tree.evaluate other := by
  induction tree with
  | literal id isNegated => rw [evaluate, evaluate, same id (Finset.mem_singleton_self id)]
  | or left right leftHypothesis rightHypothesis =>
    obtain ⟨leftFree, rightFree⟩ := Bool.and_eq_true_iff.mp free
    rw [evaluate, evaluate,
      leftHypothesis leftFree fun var mem => same var (Finset.mem_union_left _ mem),
      rightHypothesis rightFree fun var mem => same var (Finset.mem_union_right _ mem)]
  | and left right leftHypothesis rightHypothesis =>
    obtain ⟨leftFree, rightFree⟩ := Bool.and_eq_true_iff.mp free
    rw [evaluate, evaluate,
      leftHypothesis leftFree fun var mem => same var (Finset.mem_union_left _ mem),
      rightHypothesis rightFree fun var mem => same var (Finset.mem_union_right _ mem)]
  | not right => cases free
  | zero => rfl
  | one => rfl

end Variables

end ExpressionTree

end Dynamatic.BooleanLogic

/-!
## Truth tables of expression trees

The tables that are given to the minimizer: `generateTruthTable` evaluates the tree on each row,
`evaluateRows` on all rows at once, and `generateTruthTableSop` collects the minterms of a sum of
products, in strings where a variable may be open.
-/

namespace Dynamatic.BooleanLogic

variable {Variable : Type}

/-- The characters of a minterm: `d` for a variable that is open, `0` and `1` for its value, `n` in
a minterm that no row fits. -/
inductive Mark where
  | dontCare
  | zero
  | one
  | null
  deriving DecidableEq, Repr

namespace Mark

def ofBool (value : Bool) : Mark := if value then one else zero

/-- What a literal makes of the character of its variable. -/
def withLiteral (isNegated : Bool) : Mark → Mark
  | dontCare => if isNegated then zero else one
  | zero => if isNegated then zero else null
  | one => if !isNegated then one else null
  | null => null

/-- The values that a character leaves to its variable. -/
def allows : Mark → Bool → Bool
  | dontCare, _ => true
  | zero, value => !value
  | one, value => value
  | null, _ => false

theorem allows_withLiteral (isNegated : Bool) (mark : Mark) (value : Bool) :
    (mark.withLiteral isNegated).allows value = (mark.allows value && (isNegated ^^ value)) := by
  cases mark <;> cases isNegated <;> cases value <;> rfl

end Mark

/-- Replace the open variables by both values, the first one first. -/
def replaceDontCaresRec : List Mark → Finset (List Mark)
  | [] => {[]}
  | .dontCare :: rest =>
    (replaceDontCaresRec rest).image (.zero :: ·) ∪ (replaceDontCaresRec rest).image (.one :: ·)
  | mark :: rest => (replaceDontCaresRec rest).image (mark :: ·)

def replaceDontCares (minterms : Finset (List Mark)) : Finset (List Mark) :=
  minterms.biUnion replaceDontCaresRec

namespace ExpressionTree

section Minterms

variable (varIndex : Variable → Nat)

def generateMintermVariable (id : Variable) (isNegated : Bool) (s : List Mark) : List Mark :=
  s.modify (varIndex id) (Mark.withLiteral isNegated)

/-- The minterm of a product. A zero marks the first variable, if there is one. -/
def generateMintermAnd : ExpressionTree Variable → List Mark → List Mark
  | literal id isNegated, s => generateMintermVariable varIndex id isNegated s
  | zero, s => s.set 0 .null
  | and left right, s | or left right, s =>
    right.generateMintermAnd (left.generateMintermAnd s)
  | not _, s | one, s => s

/-- The minterms of the products and ones of a sum. -/
def generateMintermsOr (numOfVariables : Nat) :
    ExpressionTree Variable → Finset (List Mark) → Finset (List Mark)
  | or left right, minterms =>
    right.generateMintermsOr numOfVariables (left.generateMintermsOr numOfVariables minterms)
  | one, minterms => insert (List.replicate numOfVariables .dontCare) minterms
  | and left right, minterms =>
    let s := (and left right).generateMintermAnd varIndex
      (List.replicate numOfVariables .dontCare)
    if .null ∈ s then minterms else insert s minterms
  | literal _ _, minterms | not _, minterms | zero, minterms => minterms

end Minterms

section Rows

variable {numOfRows : Nat} (columns : Variable → Option (BitVec numOfRows))

/-- `evaluateRows`, with the rows of the sum that the loop has come down from, if any. -/
def evaluateRowsFrom :
    Option (BitVec numOfRows) → ExpressionTree Variable → BitVec numOfRows
  | sum, or left right =>
    right.evaluateRowsFrom (some (sum.getD 0 ||| left.evaluateRowsFrom none))
  | sum, literal id isNegated =>
    let values := (columns id).getD 0
    sum.getD 0 ||| if isNegated then ~~~values else values
  | sum, one => sum.getD 0 ||| BitVec.allOnes numOfRows
  | sum, zero => sum.getD 0 ||| 0
  | sum, and left right =>
    sum.getD 0 ||| (left.evaluateRowsFrom none &&& right.evaluateRowsFrom none)
  | sum, not right => sum.getD 0 ||| ~~~right.evaluateRowsFrom none

/-- The values on all rows, for the columns of the variables. -/
def evaluateRows (tree : ExpressionTree Variable) : BitVec numOfRows :=
  tree.evaluateRowsFrom columns none

variable {tree : ExpressionTree Variable} {index : Nat}

/-- Bit for bit, the rows that are summed so far and the value. -/
theorem getLsbD_evaluateRowsFrom (bound : index < numOfRows) (sum : Option (BitVec numOfRows)) :
    (tree.evaluateRowsFrom columns sum).getLsbD index = ((sum.getD 0).getLsbD index ||
      tree.evaluate fun id => ((columns id).getD 0).getLsbD index) := by
  induction tree generalizing sum with
  | literal id isNegated =>
    cases isNegated <;> simp [evaluateRowsFrom, evaluate, bound]
  | or left right leftHypothesis rightHypothesis =>
    rw [evaluateRowsFrom, rightHypothesis, Option.getD_some, BitVec.getLsbD_or, leftHypothesis]
    simp [evaluate, Bool.or_assoc]
  | and left right leftHypothesis rightHypothesis =>
    rw [evaluateRowsFrom, BitVec.getLsbD_or, BitVec.getLsbD_and, leftHypothesis, rightHypothesis]
    simp [evaluate]
  | not right rightHypothesis =>
    rw [evaluateRowsFrom, BitVec.getLsbD_or, BitVec.getLsbD_not, rightHypothesis]
    simp [evaluate, bound]
  | zero => simp [evaluateRowsFrom, evaluate]
  | one => simp [evaluateRowsFrom, evaluate, bound]

theorem getLsbD_evaluateRows (bound : index < numOfRows) :
    (tree.evaluateRows columns).getLsbD index =
      tree.evaluate fun id => ((columns id).getD 0).getLsbD index := by
  rw [evaluateRows, getLsbD_evaluateRowsFrom columns bound]
  simp

end Rows

variable [LinearOrder Variable]

/-- The variables in the order of their set. -/
def variableList (tree : ExpressionTree Variable) : List Variable := tree.getVariables.sort

/-- Each row of the variables with the output behind it. -/
def generateTruthTableSop (tree : ExpressionTree Variable) : Finset (List Mark) :=
  let numOfVariables := tree.variableList.length
  let minterms := tree.generateMintermsOr tree.variableList.idxOf numOfVariables ∅
  let mintermsWithoutDontCares := replaceDontCares minterms
  let rows := replaceDontCares {List.replicate numOfVariables .dontCare}
  rows.image fun row => row ++ [if row ∈ mintermsWithoutDontCares then .one else .zero]

/-- Row `index` of a table: the variable at each place has the bit of `index` at that place. -/
def rowOf (variableList : List Variable) (index : Nat) (id : Variable) : Bool :=
  decide (id ∈ variableList) && index.testBit (variableList.idxOf id)

/-- The rows with the values on them. The number of rows is an `int`: there is no table where it
does not fit. -/
def generateTruthTable (tree : ExpressionTree Variable) :
    Option (List ((Variable → Bool) × Bool)) :=
  if tree.variableList.length < 31 then
    some ((List.range (2 ^ tree.variableList.length)).map fun index =>
      (rowOf tree.variableList index, tree.evaluate (rowOf tree.variableList index)))
  else none

/-- The column of the variable at a place of the list: each row's bit at that place. -/
def column (numOfRows place : Nat) : BitVec numOfRows :=
  (BitVec.iunfoldr (fun (index : Fin numOfRows) (_ : Unit) => ((), index.val.testBit place)) ()).2

/-- The columns of the variables that `runEspresso` sets up. -/
def columnsOf (variableList : List Variable) (numOfRows : Nat) (id : Variable) :
    Option (BitVec numOfRows) :=
  if id ∈ variableList then some (column numOfRows (variableList.idxOf id)) else none

/-! ## The rows of the tables -/

section Tables

variable {tree : ExpressionTree Variable}

theorem mem_variableList {var : Variable} : var ∈ tree.variableList ↔ var ∈ tree.getVariables :=
  Finset.mem_sort _

theorem getLsbD_column {numOfRows index : Nat} (bound : index < numOfRows) (place : Nat) :
    (column numOfRows place).getLsbD index = index.testBit place :=
  BitVec.iunfoldr_getLsbD (fun _ => ()) ⟨index, bound⟩ fun _ => rfl

/-- The columns of `runEspresso` hold the rows of the table. -/
theorem getLsbD_columnsOf {variableList : List Variable} {numOfRows index : Nat}
    (bound : index < numOfRows) (id : Variable) :
    ((columnsOf variableList numOfRows id).getD 0).getLsbD index =
      rowOf variableList index id := by
  rw [columnsOf, rowOf]
  split
  next mem => simp [mem, getLsbD_column bound]
  next absent => simp [absent]

end Tables

end ExpressionTree

end Dynamatic.BooleanLogic
