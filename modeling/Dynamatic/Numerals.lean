import Mathlib.Data.Nat.Init
import Mathlib.Algebra.GroupWithZero.Nat

/-!
# Instances for small finite types

The numerals of a finite type ask for a proof that it is not empty, and membership in a list asks
for one that equality is decided lawfully. Here they are named, so that definitions about such
types refer to the same proofs.
-/

namespace Dynamatic.Numerals

theorem two : NeZero 2 := ⟨Nat.succ_ne_zero 1⟩

theorem three : NeZero 3 := ⟨Nat.succ_ne_zero 2⟩

theorem four : NeZero 4 := ⟨Nat.succ_ne_zero 3⟩

theorem five : NeZero 5 := ⟨Nat.succ_ne_zero 4⟩

theorem lawfulBEqFin (size : Nat) : LawfulBEq (Fin size) := inferInstance

theorem lawfulBEqChars : LawfulBEq (List Char) := inferInstance

attribute [scoped instance] two three four five lawfulBEqFin lawfulBEqChars

end Dynamatic.Numerals
