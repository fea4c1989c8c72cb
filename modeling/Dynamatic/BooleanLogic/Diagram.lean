import Dynamatic.BooleanLogic.Expression
import Mathlib.Data.List.Sublists

/-!
# Decision diagrams of boolean expressions

`buildBDD` for a minimizer that is only known to keep the value of an expression, whatever
variables it leaves in it. The diagram still has the value of the expression, and every path
decides on variables in the order of the list.
-/

namespace Dynamatic.BooleanLogic

variable {Variable : Type}

namespace BDD

/-- The value of a diagram: the branch of the condition's value, down to a leaf. -/
def evaluate (row : Variable → Bool) : BDD Variable → Bool
  | leaf boolVariable => boolVariable.evaluate row
  | node condition negativeInput positiveInput =>
    if row condition then positiveInput.evaluate row else negativeInput.evaluate row

/-- The variable that a leaf still decides on. -/
def leafVariables : BoolExpression Variable → List Variable
  | .literal id _ => [id]
  | _ => []

/-- The variables met on each path from the root, that of the leaf last. -/
def paths : BDD Variable → List (List Variable)
  | leaf boolVariable => [leafVariables boolVariable]
  | node condition negativeInput positiveInput =>
    (negativeInput.paths ++ positiveInput.paths).map (condition :: ·)

end BDD

namespace Diagram

variable [DecidableEq Variable] (boolMinimize : BoolExpression Variable → BoolExpression Variable)

/-- Expand the variables of the list in order, those that the expression contains. -/
def buildBDD : List Variable → BoolExpression Variable → BDD Variable
  | [], expr => .leaf expr
  | var :: subList, expr =>
    if expr.isLeaf then .leaf expr
    else if var ∈ expr.getVariables then
      .node var
        (buildBDD subList (boolMinimize (expr.restrict var false)))
        (buildBDD subList (boolMinimize (expr.restrict var true)))
    else buildBDD subList expr

/-- With a minimizer that leaves no variable in vain, it is the construction used elsewhere. -/
theorem buildBDD_minimizer (minimizer : Minimizer Variable) (variableList : List Variable)
    (expr : BoolExpression Variable) :
    BooleanLogic.buildBDD minimizer variableList expr =
      buildBDD minimizer.boolMinimize variableList expr := by
  induction variableList generalizing expr with
  | nil => rfl
  | cons var subList ih =>
    rw [BooleanLogic.buildBDD, buildBDD, ih, ih, ih]

variable {boolMinimize} {expr : BoolExpression Variable} {variableList : List Variable}

/-- Both cofactors together have the value of the expression. -/
theorem evaluate_cofactors
    (equivalent : ∀ expr row, (boolMinimize expr).evaluate row = expr.evaluate row)
    (var : Variable) (row : Variable → Bool) :
    (boolMinimize (expr.restrict var (row var))).evaluate row = expr.evaluate row := by
  rw [equivalent, evaluate_restrict, Function.update_eq_self]

theorem evaluate_buildBDD
    (equivalent : ∀ expr row, (boolMinimize expr).evaluate row = expr.evaluate row)
    (variableList : List Variable) (expr : BoolExpression Variable) (row : Variable → Bool) :
    (buildBDD boolMinimize variableList expr).evaluate row = expr.evaluate row := by
  induction variableList generalizing expr with
  | nil => rfl
  | cons var subList ih =>
    rw [buildBDD]
    split
    · rfl
    · split
      · rw [BDD.evaluate, ih, ih]
        have cofactor := @evaluate_cofactors _ _ boolMinimize expr equivalent var row
        cases value : row var <;> simpa [value] using cofactor
      · exact ih expr

/-- A minimized cofactor depends on nothing but what the expression depends on besides. -/
theorem dependsOn_cofactor
    (equivalent : ∀ expr row, (boolMinimize expr).evaluate row = expr.evaluate row)
    {var other : Variable} {value : Bool}
    (depends : DependsOn (boolMinimize (expr.restrict var value)).evaluate other) :
    DependsOn expr.evaluate other ∧ other ≠ var := by
  have cofactor : (boolMinimize (expr.restrict var value)).evaluate =
      fun row => expr.evaluate (Function.update row var value) :=
    funext fun row => (equivalent _ row).trans evaluate_restrict
  rw [cofactor] at depends
  refine ⟨depends.of_update, ?_⟩
  rintro rfl
  obtain ⟨row, differs⟩ := depends
  simp at differs

theorem dependsOn_literal (id : Variable) (isNegated : Bool) :
    DependsOn (BoolExpression.literal id isNegated).evaluate id := by
  refine ⟨fun _ => false, ?_⟩
  cases isNegated <;> simp [BoolExpression.evaluate]

/-- A leaf decides on a variable of the list at most. -/
theorem leafVariables_sublist
    (listed : ∀ var, DependsOn expr.evaluate var → var ∈ variableList) :
    (BDD.leafVariables expr).Sublist variableList := by
  cases expr with
  | literal id isNegated =>
    exact List.singleton_sublist.mpr (listed id (dependsOn_literal id isNegated))
  | or left right => exact List.nil_sublist _
  | and left right => exact List.nil_sublist _
  | zero => exact List.nil_sublist _
  | one => exact List.nil_sublist _

/-- The variables of a path are in the order of the list. -/
theorem paths_buildBDD
    (equivalent : ∀ expr row, (boolMinimize expr).evaluate row = expr.evaluate row)
    (listed : ∀ var, DependsOn expr.evaluate var → var ∈ variableList) :
    ∀ path ∈ (buildBDD boolMinimize variableList expr).paths, path.Sublist variableList := by
  induction variableList generalizing expr with
  | nil =>
    intro path member
    rw [buildBDD, BDD.paths, List.mem_singleton] at member
    exact member ▸ leafVariables_sublist listed
  | cons var subList ih =>
    intro path member
    rw [buildBDD] at member
    split at member
    · rw [BDD.paths, List.mem_singleton] at member
      exact member ▸ leafVariables_sublist listed
    · have cofactor : ∀ value other,
          DependsOn (boolMinimize (expr.restrict var value)).evaluate other → other ∈ subList := by
        intro value other depends
        obtain ⟨depends, differs⟩ := dependsOn_cofactor equivalent depends
        exact (List.mem_cons.mp (listed other depends)).resolve_left differs
      split at member
      · rw [BDD.paths, List.mem_map] at member
        obtain ⟨rest, member, rfl⟩ := member
        rcases List.mem_append.mp member with negative | positive
        · exact (ih (cofactor false) rest negative).cons_cons var
        · exact (ih (cofactor true) rest positive).cons_cons var
      · rename_i absent
        have later : ∀ other, DependsOn expr.evaluate other → other ∈ subList := by
          intro other depends
          refine (List.mem_cons.mp (listed other depends)).resolve_left ?_
          rintro rfl
          exact absent (mem_getVariables_of_dependsOn depends)
        exact (ih later path member).cons var

/-- The diagram has the value of the expression under every assignment, the variables of each of
its paths are in the order of the list, each once, and restricting a variable is evaluating at its
value. -/
theorem buildBDD_decides
    (equivalent : ∀ expr row, (boolMinimize expr).evaluate row = expr.evaluate row)
    (once : variableList.Nodup) (covers : ∀ var ∈ expr.getVariables, var ∈ variableList) :
    (∀ row, (buildBDD boolMinimize variableList expr).evaluate row = expr.evaluate row) ∧
      (∀ path ∈ (buildBDD boolMinimize variableList expr).paths,
        path.Sublist variableList ∧ path.Nodup) ∧
      ∀ (var : Variable) (value : Bool) (row : Variable → Bool),
        (expr.restrict var value).evaluate row = expr.evaluate (Function.update row var value) := by
  refine ⟨evaluate_buildBDD equivalent variableList expr, fun path member => ?_,
    fun _ _ _ => evaluate_restrict⟩
  have ordered := paths_buildBDD equivalent
    (fun var depends => covers var (mem_getVariables_of_dependsOn depends)) path member
  exact ⟨ordered, ordered.nodup once⟩

/-- Either of two conditions but not the third, in an order of their own. -/
def threeConditions : BoolExpression Nat :=
  .and (.or (.literal 0 false) (.literal 1 true)) (.literal 2 true)

theorem buildBDD_decides_threeConditions :
    (∀ row, (buildBDD expansion.boolMinimize [2, 0, 1] threeConditions).evaluate row =
        threeConditions.evaluate row) ∧
      (∀ path ∈ (buildBDD expansion.boolMinimize [2, 0, 1] threeConditions).paths,
        path.Sublist [2, 0, 1] ∧ path.Nodup) ∧
      ∀ (var : Nat) (value : Bool) (row : Nat → Bool),
        (threeConditions.restrict var value).evaluate row =
          threeConditions.evaluate (Function.update row var value) :=
  buildBDD_decides expansion.evaluate (by decide) (by decide)

end Diagram

end Dynamatic.BooleanLogic
