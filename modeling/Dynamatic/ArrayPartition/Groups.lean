import Dynamatic.ArrayPartition.Partition

/-!
# The groups of accesses

The groups are the classes of the accesses that a chain of dependences joins: each access is
in one group, with everything that it is linked to.
-/

namespace Dynamatic.ArrayPartition

variable {program : Program} {inst other : Nat}

/-- Some chain of dependences joins two accesses. -/
def Linked (program : Program) : Nat → Nat → Prop :=
  Relation.EqvGen fun inst1 inst2 => isDependent program inst1 inst2 = true

section Components

variable {component : Nat → Nat} {edges : List (Nat × Nat)} {v1 v2 vertex : Nat}

end Components

section Groups

variable {group : List Nat} {groups : List (List Nat)}

end Groups

end Dynamatic.ArrayPartition
