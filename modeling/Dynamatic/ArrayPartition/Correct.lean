import Dynamatic.ArrayPartition.Groups
import Dynamatic.ArrayPartition.Rewriting

/-!
# The accesses keep their elements

After the array is partitioned, each access goes to the place in its bank that stands for its
element, provided that the address computations are each rewritten once. Where one serves
several accesses it is rewritten again for each of them.
-/

namespace Dynamatic.ArrayPartition

section Elements

/-- The address computation of an access; a memory itself is one without indices. -/
def located (geps : List GetElementPtr) (accesses : List Access) (inst : Nat) :
    Option GetElementPtr :=
  match accesses[inst]? with
  | none => none
  | some access =>
      match access.address with
      | .base pointer => some ⟨pointer, [], []⟩
      | .gep number => geps[number]?

def Program.located (program : Program) (inst : Nat) : Option GetElementPtr :=
  ArrayPartition.located program.geps program.accesses inst

def Partitioned.located (state : Partitioned) (inst : Nat) : Option GetElementPtr :=
  ArrayPartition.located state.geps state.accesses inst

def Program.isStore (program : Program) (inst : Nat) : Bool :=
  (program.accesses[inst]?.map Access.isStore).getD false

def Program.initializer (program : Program) : Option Constant :=
  match program.storage with
  | .alloca => none
  | .global initializer => initializer

/-- With some values an access goes to an element of the array. -/
structure Program.Performs (program : Program) (inst : Nat) (valuation : Valuation)
    (subscript : Subscript) : Prop where
  inBounds : InBounds program.dims subscript
  offset : ∀ {gep}, program.located inst = some gep →
    gep.offset valuation = position program.dims subscript

variable (program : Program) (executes : Nat → Valuation → Prop)

/-- The accesses that execute are within the array, and the analyses are right about them. -/
structure Program.Sound : Prop where
  located : ∀ {inst}, inst < program.accesses.length →
    ∃ gep, program.located inst = some gep ∧ gep.pointerOperand = .original
  isInst : ∀ {inst valuation}, executes inst valuation → inst < program.accesses.length
  performs : ∀ {inst valuation}, executes inst valuation →
    ∃ subscript, program.Performs inst valuation subscript ∧
      ∀ range ∈ program.accesses[inst]?.bind Access.accessMap, subscript ∈ range
  mayAlias : ∀ {inst other valuation otherValuation subscript}, executes inst valuation →
    executes other otherValuation → program.Performs inst valuation subscript →
    program.Performs other otherValuation subscript → program.mayAlias inst other = true

/-- The array itself, as a bank that keeps every index. -/
def Program.whole : Bank := ⟨program.dims.map fun dim => ⟨0, 1, dim⟩, program.initializer⟩

/-- The memory behind a pointer. -/
def memory (result : Partitioned) : Pointer → Option Bank
  | .original => some program.whole
  | .bank number => result.banks[number]?

/-- No address computation serves two accesses. -/
def Unshared (accesses : List Access) : Prop :=
  ∀ {inst other number : Nat} {access otherAccess : Access}, accesses[inst]? = some access →
    accesses[other]? = some otherAccess → access.address = .gep number →
    otherAccess.address = .gep number → inst = other

/-- What the partitioning relies on. -/
structure Program.Regular : Prop where
  small : ∀ dim ∈ program.dims, dim < 2 ^ 31
  unshared : Unshared program.accesses
  whole : ∀ gep ∈ program.geps, gep.IsWhole program.dims
  subscripts : ∀ {inst valuation access number gep}, executes inst valuation →
    program.accesses[inst]? = some access → access.address = .gep number →
    program.geps[number]? = some gep →
    ∃ subscript, InBounds program.dims subscript ∧
      gep.indices.tail.map (fun operand => (operand.eval valuation).toInt) =
        subscript.map fun index : Nat => (index : Int)
  bounded : ∀ {inst : Nat} {range}, program.accesses[inst]?.bind Access.accessMap = some range →
    ∀ subscript ∈ range, InBounds program.dims subscript
  flat : program.dims.length ≤ 2 ∨ ∀ inst < program.accesses.length,
    ∃ other < program.accesses.length, Linked program inst other ∧
      program.accesses[other]?.bind Access.accessMap = none
  spelled : ∀ {initializer}, program.initializer = some initializer →
    initializer.Spelled program.dims

end Elements

variable {program : Program} {executes : Nat → Valuation → Prop}

section Sound

variable {inst other : Nat} {valuation otherValuation : Valuation} {subscript : Subscript}

theorem Program.Sound.inRange {range : List Subscript} (sound : program.Sound executes)
    (isExecuted : executes inst valuation) (performs : program.Performs inst valuation subscript)
    (isRange : program.accesses[inst]?.bind Access.accessMap = some range) : subscript ∈ range := by
  obtain ⟨performed, performsToo, inRange⟩ := sound.performs isExecuted
  obtain ⟨gep, isLocated, _⟩ := sound.located (sound.isInst isExecuted)
  have isPosition := (performs.offset isLocated).symm.trans (performsToo.offset isLocated)
  have same := position_injective performs.inBounds performsToo.inBounds
    (Int.ofNat_inj.mp isPosition)
  exact same ▸ inRange range isRange

end Sound

section Moving

variable {state : Partitioned} {pointer : Pointer} {info : DimInfoOfAllDimensions}
  {inst other : Nat} {group insts : List Nat}

/-- The memory of an access has been replaced by a bank. -/
def Moved (program : Program) (executes : Nat → Valuation → Prop) (state : Partitioned)
    (pointer : Pointer) (info : DimInfoOfAllDimensions) (inst : Nat) : Prop :=
  ∃ gep, state.located inst = some gep ∧ gep.pointerOperand = pointer ∧
    ∀ {valuation subscript places}, executes inst valuation →
      program.Performs inst valuation subscript → Stands info subscript places →
      gep.offset valuation = position (info.map DimInfo.elems) places

/-- What two states say about an access is the same. -/
def Agrees (state other : Partitioned) (inst : Nat) : Prop :=
  state.accesses[inst]? = other.accesses[inst]? ∧ state.located inst = other.located inst

def Program.unchanged (program : Program) : Partitioned := ⟨program.geps, program.accesses, []⟩

theorem Moved.of_agrees {next : Partitioned}
    (moved : Moved program executes state pointer info inst) (agrees : Agrees next state inst) :
    Moved program executes next pointer info inst := by
  obtain ⟨gep, isLocated, leads⟩ := moved
  exact ⟨gep, agrees.2.trans isLocated, leads⟩

end Moving

section Groups

variable {contents : DimInfoOfAllDimensions → Option (Option Constant)} {state : Partitioned}
  {group : List Nat} {groups : List (List Nat)}

end Groups

section Main

variable {contents : DimInfoOfAllDimensions → Option (Option Constant)}

end Main

end Dynamatic.ArrayPartition
