import Mathlib.Algebra.GroupWithZero.Nat
import Mathlib.Data.Nat.Log

/-!
# Binary trees of values

A tree stands for a value and the values below it. Its leaves are at most two to the power of its
height, and a tree that is built by halving a list has the least height that this allows.
-/

namespace Dynamatic.Trees

universe u

inductive LabelledTree (Value : Type u) where
  | leaf (value : Value)
  | node (value : Value) (left right : LabelledTree Value)

namespace LabelledTree

variable {Value : Type u}

/-- The value that the tree stands for. -/
def root : LabelledTree Value → Value
  | leaf value => value
  | node value _ _ => value

def leaves : LabelledTree Value → List Value
  | leaf value => [value]
  | node _ left right => left.leaves ++ right.leaves

/-- The values of the inner nodes, each behind those below it. -/
def inner : LabelledTree Value → List Value
  | leaf _ => []
  | node value left right => left.inner ++ right.inner ++ [value]

def height : LabelledTree Value → Nat
  | leaf _ => 0
  | node _ left right => 1 + max left.height right.height

theorem length_leaves_pos (tree : LabelledTree Value) : 0 < tree.leaves.length := by
  induction tree with
  | leaf value => exact Nat.one_pos
  | node value left right leftPos _ =>
      rw [leaves, List.length_append]
      omega

theorem length_leaves_le (tree : LabelledTree Value) : tree.leaves.length ≤ 2 ^ tree.height := by
  induction tree with
  | leaf value => exact Nat.le_refl 1
  | node value left right leftLe rightLe =>
      have leftPow := Nat.pow_le_pow_right (Nat.two_pos) (Nat.le_max_left left.height right.height)
      have rightPow :=
        Nat.pow_le_pow_right (Nat.two_pos) (Nat.le_max_right left.height right.height)
      rw [leaves, height, List.length_append, Nat.add_comm 1, Nat.pow_succ]
      omega

/-- No tree is less high than its leaves require. -/
theorem clog_le_height (tree : LabelledTree Value) :
    Nat.clog 2 tree.leaves.length ≤ tree.height :=
  Nat.clog_le_of_le_pow tree.length_leaves_le

/-- The least height for a list is one more than that for the longer of its halves. -/
theorem clog_halves {count : Nat} (several : 2 ≤ count) :
    1 + max (Nat.clog 2 (count / 2)) (Nat.clog 2 (count - count / 2)) = Nat.clog 2 count := by
  have longer : count - count / 2 = (count + 2 - 1) / 2 := by omega
  have less : Nat.clog 2 (count / 2) ≤ Nat.clog 2 (count - count / 2) :=
    Nat.clog_mono_right 2 (by omega)
  rw [Nat.max_eq_right less, Nat.clog_of_two_le Nat.one_lt_two several, longer, Nat.add_comm]

end LabelledTree

end Dynamatic.Trees
