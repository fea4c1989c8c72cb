import Mathlib.Logic.Function.Basic

/-!
# Boolean expressions and their decision diagrams

Sums and products of literals, the cofactors that `restrict` takes of them, and the
decision diagram that is built on the variables of a list in their order. The minimizer is
a parameter: what it returns is equivalent and made of prime implicants, so that it has
only variables that the function depends on.
-/

namespace Dynamatic.BooleanLogic

variable {Variable : Type}

/-- A boolean expression; negations stand at its variables only. -/
inductive BoolExpression (Variable : Type) where
  | literal (id : Variable) (isNegated : Bool)
  | or (left right : BoolExpression Variable)
  | and (left right : BoolExpression Variable)
  | zero
  | one
  deriving DecidableEq, Repr

namespace BoolExpression

def evaluate (row : Variable → Bool) : BoolExpression Variable → Bool
  | literal id isNegated => (isNegated && !row id) || (!isNegated && row id)
  | or left right => left.evaluate row || right.evaluate row
  | and left right => left.evaluate row && right.evaluate row
  | zero => false
  | one => true

def getVariables : BoolExpression Variable → List Variable
  | literal id _ => [id]
  | or left right | and left right => left.getVariables ++ right.getVariables
  | zero | one => []

/-- The negation goes down to the variables, by DeMorgan's laws. -/
def boolNegate : BoolExpression Variable → BoolExpression Variable
  | literal id isNegated => literal id !isNegated
  | or left right => and left.boolNegate right.boolNegate
  | and left right => or left.boolNegate right.boolNegate
  | zero => one
  | one => zero

/-- Put a value in place of a variable. -/
def restrict [DecidableEq Variable] (var : Variable) (value : Bool) :
    BoolExpression Variable → BoolExpression Variable
  | literal id isNegated =>
      if id = var then
        if isNegated then
          if value then zero else one
        else if value then one else zero
      else literal id isNegated
  | or left right => or (left.restrict var value) (right.restrict var value)
  | and left right => and (left.restrict var value) (right.restrict var value)
  | zero => zero
  | one => one

/-- A variable, zero or one. -/
def isLeaf : BoolExpression Variable → Bool
  | literal _ _ | zero | one => true
  | or _ _ | and _ _ => false

end BoolExpression

open BoolExpression

/-- The value of a boolean function depends on a variable. -/
def DependsOn [DecidableEq Variable] (function : (Variable → Bool) → Bool) (var : Variable) :
    Prop :=
  ∃ row, function (Function.update row var true) ≠ function (Function.update row var false)

/-- What the expression of a minimal cover satisfies: it names no variable in vain, and is
zero or one when it names none. -/
structure BoolExpression.Minimal [DecidableEq Variable] (expr : BoolExpression Variable) :
    Prop where
  depends : ∀ {var}, var ∈ expr.getVariables → DependsOn expr.evaluate var
  constant : expr.getVariables = [] → expr = zero ∨ expr = one

/-- The minimizer of boolean expressions. -/
structure Minimizer (Variable : Type) [DecidableEq Variable] where
  boolMinimize : BoolExpression Variable → BoolExpression Variable
  evaluate : ∀ expr row, (boolMinimize expr).evaluate row = expr.evaluate row
  minimal : ∀ expr, (boolMinimize expr).Minimal

/-- A decision diagram: the expression of a leaf, or the condition of a node with the
diagrams for its values false and true. -/
inductive BDD (Variable : Type) where
  | leaf (boolVariable : BoolExpression Variable)
  | node (condition : Variable) (negativeInput positiveInput : BDD Variable)
  deriving DecidableEq, Repr

/-- Expand the variables of the list in order, those that the expression contains. -/
def buildBDD [DecidableEq Variable] (minimizer : Minimizer Variable) :
    List Variable → BoolExpression Variable → BDD Variable
  | [], expr => .leaf expr
  | var :: subList, expr =>
      if expr.isLeaf then .leaf expr
      else if var ∈ expr.getVariables then
        .node var
          (buildBDD minimizer subList (minimizer.boolMinimize (expr.restrict var false)))
          (buildBDD minimizer subList (minimizer.boolMinimize (expr.restrict var true)))
      else buildBDD minimizer subList expr

section Evaluation

variable {expr : BoolExpression Variable} {row other : Variable → Bool} {var : Variable}

theorem evaluate_boolNegate : expr.boolNegate.evaluate row = !expr.evaluate row := by
  induction expr with
  | literal id isNegated => cases isNegated <;> simp [boolNegate, evaluate]
  | or left right left_ih right_ih => simp [boolNegate, evaluate, left_ih, right_ih]
  | and left right left_ih right_ih => simp [boolNegate, evaluate, left_ih, right_ih]
  | zero => rfl
  | one => rfl

/-- An expression only reads the variables it contains. -/
theorem evaluate_congr (same : ∀ var ∈ expr.getVariables, row var = other var) :
    expr.evaluate row = expr.evaluate other := by
  induction expr with
  | literal id isNegated => rw [evaluate, evaluate, same id (List.mem_singleton_self id)]
  | or left right left_ih right_ih =>
      rw [evaluate, evaluate, left_ih fun var mem => same var (List.mem_append_left _ mem),
        right_ih fun var mem => same var (List.mem_append_right _ mem)]
  | and left right left_ih right_ih =>
      rw [evaluate, evaluate, left_ih fun var mem => same var (List.mem_append_left _ mem),
        right_ih fun var mem => same var (List.mem_append_right _ mem)]
  | zero => rfl
  | one => rfl

variable [DecidableEq Variable]

theorem mem_getVariables_of_dependsOn (depends : DependsOn expr.evaluate var) :
    var ∈ expr.getVariables := by
  obtain ⟨row, differs⟩ := depends
  by_contra absent
  refine differs (evaluate_congr fun other mem => ?_)
  have other_ne : other ≠ var := fun same => absent (same ▸ mem)
  rw [Function.update_of_ne other_ne, Function.update_of_ne other_ne]

/-- Putting a value in place of a variable is evaluating at this value. -/
theorem evaluate_restrict {value : Bool} :
    (expr.restrict var value).evaluate row = expr.evaluate (Function.update row var value) := by
  induction expr with
  | literal id isNegated =>
      by_cases same : id = var
      · subst same
        cases isNegated <;> cases value <;> simp [restrict, evaluate]
      · simp [restrict, evaluate, same]
  | or left right left_ih right_ih => simp [restrict, evaluate, left_ih, right_ih]
  | and left right left_ih right_ih => simp [restrict, evaluate, left_ih, right_ih]
  | zero => rfl
  | one => rfl

theorem DependsOn.of_update {function : (Variable → Bool) → Bool} {value : Bool}
    {restricted : Variable}
    (depends : DependsOn (fun row => function (Function.update row restricted value)) var) :
    DependsOn function var := by
  obtain ⟨row, differs⟩ := depends
  by_cases same : var = restricted
  · subst same
    simp at differs
  · refine ⟨Function.update row restricted value, ?_⟩
    rw [Function.update_comm (Ne.symm same), Function.update_comm (Ne.symm same)]
    exact differs

end Evaluation

section TruthTable

/-! A minimizer that expands an expression on all its variables. -/

variable {expr other negative positive : BoolExpression Variable} {row : Variable → Bool}
  {var : Variable} {variableList : List Variable}

/-- The expression that chooses between two others, without the terms that are zero. -/
def chooses (var : Variable) : BoolExpression Variable → BoolExpression Variable →
    BoolExpression Variable
  | zero, one => literal var false
  | one, zero => literal var true
  | negative, zero => and (literal var true) negative
  | zero, positive => and (literal var false) positive
  | one, positive => or (literal var true) positive
  | negative, one => or (literal var false) negative
  | negative, positive => or (and (literal var true) negative) (and (literal var false) positive)

private theorem evaluate_chooses : (chooses var negative positive).evaluate row =
    if row var then positive.evaluate row else negative.evaluate row := by
  unfold chooses
  split <;> cases value : row var <;> simp [evaluate, value]

private theorem mem_getVariables_chooses {named : Variable}
    (mem : named ∈ (chooses var negative positive).getVariables) :
    named = var ∨ named ∈ negative.getVariables ∨ named ∈ positive.getVariables := by
  unfold chooses at mem
  split at mem <;> simp_all only [getVariables, List.mem_append, List.mem_cons, List.not_mem_nil,
    or_false, false_or] <;> grind

private theorem getVariables_chooses_ne : (chooses var negative positive).getVariables ≠ [] := by
  unfold chooses
  split <;> simp [getVariables]

variable [DecidableEq Variable]

def expand : List Variable → BoolExpression Variable → BoolExpression Variable
  | [], expr => if expr.evaluate fun _ => false then one else zero
  | var :: subList, expr =>
      let negative := expand subList (expr.restrict var false)
      let positive := expand subList (expr.restrict var true)
      if negative = positive then negative else chooses var negative positive

private theorem expand_congr (same : ∀ row, expr.evaluate row = other.evaluate row) :
    expand variableList expr = expand variableList other := by
  induction variableList generalizing expr other with
  | nil => rw [expand, expand, same]
  | cons var subList inductionHypothesis =>
      have cofactor (value : Bool) : expand subList (expr.restrict var value) =
          expand subList (other.restrict var value) :=
        inductionHypothesis fun row => by rw [evaluate_restrict, evaluate_restrict, same]
      simp only [expand, cofactor]

private theorem mem_getVariables_restrict {named : Variable} {value : Bool}
    (mem : named ∈ (expr.restrict var value).getVariables) :
    named ∈ expr.getVariables ∧ named ≠ var := by
  induction expr with
  | literal id isNegated =>
      rw [restrict] at mem
      split at mem
      · split at mem <;> split at mem <;> cases mem
      · cases List.mem_singleton.mp mem
        exact ⟨List.mem_singleton_self _, ‹_›⟩
  | or left right left_ih right_ih =>
      rcases List.mem_append.mp mem with mem | mem
      · exact ⟨List.mem_append_left _ (left_ih mem).1, (left_ih mem).2⟩
      · exact ⟨List.mem_append_right _ (right_ih mem).1, (right_ih mem).2⟩
  | and left right left_ih right_ih =>
      rcases List.mem_append.mp mem with mem | mem
      · exact ⟨List.mem_append_left _ (left_ih mem).1, (left_ih mem).2⟩
      · exact ⟨List.mem_append_right _ (right_ih mem).1, (right_ih mem).2⟩
  | zero => cases mem
  | one => cases mem

private theorem evaluate_expand (covers : ∀ var ∈ expr.getVariables, var ∈ variableList) :
    (expand variableList expr).evaluate row = expr.evaluate row := by
  induction variableList generalizing expr with
  | nil =>
      have constant : expr.evaluate row = expr.evaluate fun _ => false :=
        evaluate_congr fun var mem => absurd (covers var mem) List.not_mem_nil
      rw [expand, constant]
      split <;> simp_all [evaluate]
  | cons var subList inductionHypothesis =>
      have cofactor (value : Bool) : (expand subList (expr.restrict var value)).evaluate row =
          expr.evaluate (Function.update row var value) := by
        refine (inductionHypothesis fun named mem => ?_).trans evaluate_restrict
        obtain ⟨mem, differs⟩ := mem_getVariables_restrict mem
        exact (List.mem_cons.mp (covers named mem)).resolve_left differs
      rw [expand]
      split
      · rename_i same
        cases value : row var with
        | false => rw [cofactor, ← value, Function.update_eq_self]
        | true => rw [same, cofactor, ← value, Function.update_eq_self]
      · rw [evaluate_chooses, cofactor, cofactor]
        cases value : row var with
        | false => rw [if_neg (Bool.noConfusion), ← value, Function.update_eq_self]
        | true => rw [if_pos rfl, ← value, Function.update_eq_self]

/-- The variables of the expansion are variables that the function depends on. -/
private theorem dependsOn_of_expand (covers : ∀ var ∈ expr.getVariables, var ∈ variableList)
    (mem : var ∈ (expand variableList expr).getVariables) : DependsOn expr.evaluate var := by
  induction variableList generalizing expr with
  | nil =>
      rw [expand] at mem
      split at mem <;> cases mem
  | cons split subList inductionHypothesis =>
      have depends (value : Bool)
          (mem : var ∈ (expand subList (expr.restrict split value)).getVariables) :
          DependsOn expr.evaluate var := by
        have covered : ∀ named ∈ (expr.restrict split value).getVariables, named ∈ subList :=
          fun named mem => (List.mem_cons.mp (covers named (mem_getVariables_restrict mem).1)
            ).resolve_left (mem_getVariables_restrict mem).2
        have cofactor := inductionHypothesis covered mem
        rw [show (expr.restrict split value).evaluate =
          fun row => expr.evaluate (Function.update row split value) from
            funext fun _ => evaluate_restrict] at cofactor
        exact cofactor.of_update
      rw [expand] at mem
      split at mem
      · exact depends false mem
      · rename_i differs
        rcases mem_getVariables_chooses mem with rfl | mem | mem
        · -- a function that does not depend on the variable has one cofactor
          by_contra independent
          refine differs (expand_congr fun row => ?_)
          rw [evaluate_restrict, evaluate_restrict]
          by_contra differs
          exact independent ⟨row, fun same => differs same.symm⟩
        · exact depends false mem
        · exact depends true mem

private theorem constant_of_expand (none : (expand variableList expr).getVariables = []) :
    expand variableList expr = zero ∨ expand variableList expr = one := by
  induction variableList generalizing expr with
  | nil =>
      rw [expand]
      split
      · exact .inr rfl
      · exact .inl rfl
  | cons var subList inductionHypothesis =>
      rw [expand] at none ⊢
      split at none
      · rename_i same
        rw [if_pos same]
        exact inductionHypothesis none
      · exact absurd none getVariables_chooses_ne

/-- Minimizes by expanding all the variables. -/
def expansion : Minimizer Variable where
  boolMinimize := fun expr => expand expr.getVariables expr
  evaluate := fun _ _ => evaluate_expand fun _ => id
  minimal := fun expr => by
    have evaluates : (expand expr.getVariables expr).evaluate = expr.evaluate :=
      funext fun _ => evaluate_expand fun _ => id
    exact ⟨fun mem => evaluates ▸ dependsOn_of_expand (fun _ => id) mem, constant_of_expand⟩

end TruthTable

end Dynamatic.BooleanLogic
