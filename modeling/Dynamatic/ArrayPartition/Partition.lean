import Mathlib.Data.List.Dedup
import Mathlib.Data.List.Sort
import Mathlib.Tactic.Ring

/-!
# Arrays and address computations

Arrays of any rank, the address computations into them and their constant contents. An
address computation multiplies out its indices by the array type it names; a subscript that
is in bounds in each dimension gives a position of its own.
-/

namespace Dynamatic.ArrayPartition

/-- The subscripts of an element, from the outermost dimension to the innermost. -/
abbrev Subscript := List Nat

/-- A subscript has one index for each dimension, each within it. -/
def InBounds (dims : List Nat) (subscript : Subscript) : Prop :=
  List.Forall₂ (fun index dim => index < dim) subscript dims

/-- The number of elements before the place that some indices lead to. -/
def linear : List Nat → List Int → Int
  | _ :: dims, index :: indices => index * (dims.prod : Int) + linear dims indices
  | _, _ => 0

/-- The number of elements before that of a subscript. -/
def position : List Nat → Subscript → Nat
  | _ :: dims, index :: indices => index * dims.prod + position dims indices
  | _, _ => 0

/-- The values of the variables of a program when an access executes. -/
abbrev Valuation := Nat → BitVec 64

/-- An index operand: a constant, a value, or what this pass computes from an operand. -/
inductive Operand where
  | constant (bits : BitVec 64)
  | value (id : Nat)
  | quotient (operand : Operand) (firstIndex step : Nat)
  deriving DecidableEq, Repr

def Operand.eval (valuation : Valuation) : Operand → BitVec 64
  | constant bits => bits
  | value id => valuation id
  | quotient operand firstIndex step =>
      (operand.eval valuation - BitVec.ofNat 64 firstIndex) / BitVec.ofNat 64 step

/-- The memories that an address points into. -/
inductive Pointer where
  | original
  | bank (number : Nat)
  deriving DecidableEq, Repr

/-- An address computation; the array type that it names is given by its dimensions. -/
structure GetElementPtr where
  pointerOperand : Pointer
  sourceElementType : List Nat
  indices : List Operand
  deriving DecidableEq, Repr

/-- The element that an address computation leads to: its first index counts whole arrays. -/
def GetElementPtr.offset (gep : GetElementPtr) (valuation : Valuation) : Int :=
  match gep.indices.map fun operand => (operand.eval valuation).toInt with
  | [] => 0
  | index :: indices =>
      index * (gep.sourceElementType.prod : Int) + linear gep.sourceElementType indices

/-- A constant: a scalar, an array of constants, an array of scalars, or all zeros. -/
inductive Constant where
  | scalar (value : Int)
  | constantArray (operands : List Constant)
  | constantDataArray (elements : List Int)
  | aggregateZero

/-- The element of a constant array at a subscript. -/
def Constant.element : Constant → Subscript → Option Int
  | scalar value, [] => some value
  | constantArray operands, index :: subscript =>
      match operands[index]? with
      | some operand => operand.element subscript
      | none => none
  | constantDataArray elements, [index] => elements[index]?
  | aggregateZero, _ => some 0
  | _, _ => none

section Positions

variable {dims : List Nat} {subscript other : Subscript}

theorem position_lt (inBounds : InBounds dims subscript) : position dims subscript < dims.prod := by
  induction inBounds with
  | nil => exact Nat.one_pos
  | @cons index dim subscript dims isLess _ inductionHypothesis =>
      rw [position, List.prod_cons]
      calc index * dims.prod + position dims subscript
          < index * dims.prod + dims.prod := Nat.add_lt_add_left inductionHypothesis _
        _ = (index + 1) * dims.prod := by ring
        _ ≤ dim * dims.prod := Nat.mul_le_mul_right _ isLess

/-- Each subscript has a position of its own. -/
theorem position_injective (inBounds : InBounds dims subscript) (inBoundsOther : InBounds dims other)
    (same : position dims subscript = position dims other) : subscript = other := by
  induction inBounds generalizing other with
  | nil =>
      cases inBoundsOther
      rfl
  | @cons index dim subscript dims _ inBounds inductionHypothesis =>
      cases inBoundsOther with
      | @cons otherIndex _ otherSubscript _ _ inBoundsOther =>
          rw [position, position] at same
          have isLess := position_lt inBounds
          have isLessOther := position_lt inBoundsOther
          have positive : 0 < dims.prod := Nat.zero_lt_of_lt isLess
          have quotient := congrArg (· / dims.prod) same
          have remainder := congrArg (· % dims.prod) same
          simp only [Nat.mul_add_mod', Nat.mod_eq_of_lt isLess, Nat.mod_eq_of_lt isLessOther]
            at remainder
          simp only [Nat.add_comm (_ * dims.prod), Nat.add_mul_div_right _ _ positive,
            Nat.div_eq_of_lt isLess, Nat.div_eq_of_lt isLessOther, Nat.zero_add] at quotient
          rw [quotient, inductionHypothesis inBoundsOther remainder]

end Positions

end Dynamatic.ArrayPartition

/-!
## Partitioning an array

The accesses to an array are grouped so that accesses of different groups do not depend on
each other. Each group gets a bank of its own, shrunk to the indices that the group reaches
in each dimension where these are evenly spaced, and its address computations are rewritten.
`none` stands for a failed assertion.
-/

namespace Dynamatic.ArrayPartition

/-- What is reached in a dimension. -/
structure DimInfo where
  firstIndex : Nat
  step : Nat
  elems : Nat
  deriving DecidableEq, Repr

abbrev DimInfoOfAllDimensions := List DimInfo

/-- What an access takes for its address. -/
inductive Address where
  | base (pointer : Pointer)
  | gep (number : Nat)
  deriving DecidableEq, Repr

/-- A load or a store; the number of its scop with the indices it may access there. -/
structure Access where
  isStore : Bool
  address : Address
  scop : Option (Nat × List Subscript)
  deriving DecidableEq, Repr

namespace Access

def accessMap (access : Access) : Option (List Subscript) := access.scop.map Prod.snd

/-- How often the access is in the map from instructions to scops. -/
def scopCount (access : Access) : Nat := if access.scop.isSome then 1 else 0

/-- The counts are compared here, not the scops. -/
def sameScop (access other : Access) : Bool :=
  if access.scopCount = 0 then false
  else if other.scopCount = 0 then false
  else access.scopCount == other.scopCount

end Access

/-- An array on the stack, or a global with its initial value. -/
inductive Storage where
  | alloca
  | global (initializer : Option Constant)

/-- An array with the accesses to it, the address computations that these use, and what alias
analysis says about them. -/
structure Program where
  dims : List Nat
  geps : List GetElementPtr
  accesses : List Access
  mayAlias : Nat → Nat → Bool
  storage : Storage

section Groups

variable (program : Program)

/-- Two accesses, not both loads, that may access the same element. -/
def isDependent (inst1 inst2 : Nat) : Bool :=
  match program.accesses[inst1]?, program.accesses[inst2]? with
  | some access, some other =>
      if inst1 = inst2 then false
      else if !access.isStore && !other.isStore then false
      else if access.sameScop other then
        ((access.accessMap.getD []).any fun subscript => subscript ∈ other.accessMap.getD [])
      else program.mayAlias inst1 inst2
  | _, _ => false

/-- Join the components of two vertices. -/
def addEdge (component : Nat → Nat) (v1 v2 : Nat) : Nat → Nat := fun vertex =>
  if component vertex = max (component v1) (component v2) then min (component v1) (component v2)
  else component vertex

end Groups

section Dimensions

/-- A number in an `unsigned` variable. -/
def unsigned (number : Int) : Nat := (number % 2 ^ 32).toNat

/-- A number in an `int` variable. -/
def int (number : Int) : Int := (BitVec.ofInt 32 number).toInt

/-- Quantify a dimension of a set of points away. -/
def projectOut (range : List Subscript) (dim : Nat) : List Subscript :=
  (range.map (·.eraseIdx dim)).dedup

/-- What remains for a dimension: each other one is projected out of the whole range. -/
def reachableSet (range : List Subscript) (numDims dim : Nat) : List Subscript :=
  (List.range numDims).foldl
    (fun set other => if dim ≠ other then projectOut range other else set) range.dedup

/-- The first coordinates of the points, in order. -/
def reachableIndices (range : List Subscript) (numDims dim : Nat) : List Int :=
  ((reachableSet range numDims dim).map fun point => int (point.headD 0)).insertionSort (· ≤ ·)

/-- The differences between neighbours. -/
def diffs (indices : List Int) : List Int :=
  ((indices.zip indices.tail).map fun pair => pair.1 - pair.2).dedup

/-- The indices from which an array of a dimension is shrunk. -/
def squash (indices : List Int) (originalDimSize : Nat) : Option DimInfo :=
  if originalDimSize < indices.length then none
  else
    match diffs indices with
    | [] =>
        match indices with
        | [index] => some ⟨unsigned index, 1, 1⟩
        | _ => none
    | [diff] => some ⟨unsigned (indices.headD 0), unsigned diff.natAbs, unsigned indices.length⟩
    | _ => some ⟨0, 1, unsigned originalDimSize⟩

/-- An unknown range is taken as the whole array. -/
def extractDimInfo (range : Option (List Subscript)) (dims : List Nat) :
    Option DimInfoOfAllDimensions :=
  match range with
  | none => some (dims.map fun dim : Nat => ⟨0, 1, unsigned dim⟩)
  | some range => dims.zipIdx.mapM fun (originalDimSize, dim) =>
      squash (reachableIndices range dims.length dim) originalDimSize

end Dimensions

section Addresses

/-- The index in the bank: constants are computed, other operands get a subtraction and a
division. -/
def Operand.rewrite (operand : Operand) (info : DimInfo) : Operand :=
  match operand with
  | constant oldIdx =>
      constant (BitVec.ofInt 64 ((oldIdx.toInt - info.firstIndex).tdiv info.step))
  | operand => quotient operand info.firstIndex info.step

end Addresses

section Initializers

end Initializers

/-- A memory: how its dimensions were shrunk, and its initial value. -/
structure Bank where
  info : DimInfoOfAllDimensions
  contents : Option Constant

def Bank.dims (bank : Bank) : List Nat := bank.info.map DimInfo.elems

/-- The original element for which an element of a bank stands. -/
def Bank.original (bank : Bank) (subscript : Subscript) : Subscript :=
  (bank.info.zip subscript).map fun (info, index) => info.firstIndex + info.step * index

/-- The accesses with their address computations and the new memories. -/
structure Partitioned where
  geps : List GetElementPtr
  accesses : List Access
  banks : List Bank

section Partitioning

end Partitioning

end Dynamatic.ArrayPartition
