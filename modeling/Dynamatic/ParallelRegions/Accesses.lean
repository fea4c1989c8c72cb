import Mathlib.Data.List.TakeWhile
import Dynamatic.Concurrency.Interleaving
import Dynamatic.ParallelRegions.Function

/-!
# Memory independence of segments

`collectAccesses` summarizes what the operations of a segment touch, and
`memoryIndependent` compares two summaries. A segment carries the proof that its
summary covers its operations; what its operations perform on memory is then covered
too, so two segments that are accepted without trust in memory controllers never write
a memory that the other one touches.
-/

namespace Dynamatic.ParallelRegions

open Concurrency

/-- An access of a segment: a load or a store, or another effect on a value. -/
structure Access where
  op : Operation
  memref : Value
  isStore : Bool
  resource : Resource
  deriving DecidableEq, Repr

/-- What `collectAccesses` adds to a segment for an operation: its accesses, and whether
it makes the segment opaque. The effects are read up to the first that is on nothing in
particular. -/
def collectAccesses (op : Operation) : List Access × Bool :=
  match op.kind with
  | .load memref => ([⟨op, memref, false, .default⟩], false)
  | .store memref => ([⟨op, memref, true, .default⟩], false)
  | .constant | .alloc | .effectFree => ([], false)
  | .undeclared => ([], true)
  | .declares effects =>
      ((effects.takeWhile fun effect => effect.value.isSome).filterMap fun effect =>
        effect.value.map fun value => ⟨op, value, effect.kind = .write, effect.resource⟩,
      effects.any fun effect => effect.value.isNone)

/-- A loop of the loop analysis. -/
structure CFGLoop where
  header : Nat
  blocks : List Nat
  hasParent : Bool
  deriving DecidableEq, Repr

/-- One element of a chain, with a summary that covers all its operations. -/
structure Segment (function : Function) where
  loop : Option CFGLoop
  blocks : List Nat
  next : Nat
  accesses : List Access
  isOpaque : Bool
  covers : ∀ block ∈ blocks, ∀ op ∈ function.operations block,
    (collectAccesses op).1 ⊆ accesses ∧ ((collectAccesses op).2 = true → isOpaque = true)

namespace Segment

variable {function : Function}

/-- A segment of some blocks, with the accesses of their operations. -/
def ofBlocks (function : Function) (loop : Option CFGLoop) (blocks : List Nat) (next : Nat) :
    Segment function where
  loop := loop
  blocks := blocks
  next := next
  accesses := blocks.flatMap fun block =>
    (function.operations block).flatMap fun op => (collectAccesses op).1
  isOpaque := blocks.any fun block =>
    (function.operations block).any fun op => (collectAccesses op).2
  covers := by
    intro block mem op isOp
    refine ⟨fun access isAccess => ?_, fun unknown => ?_⟩
    · exact List.mem_flatMap.mpr ⟨block, mem, List.mem_flatMap.mpr ⟨op, isOp, isAccess⟩⟩
    · exact List.any_eq_true.mpr ⟨block, mem, List.any_eq_true.mpr ⟨op, isOp, unknown⟩⟩

/-- Another segment's blocks and summary are added, before the own blocks or behind. -/
def absorb (into block : Segment function) (before : Bool) : Segment function where
  loop := into.loop
  blocks := if before then block.blocks ++ into.blocks else into.blocks ++ block.blocks
  next := into.next
  accesses := into.accesses ++ block.accesses
  isOpaque := into.isOpaque || block.isOpaque
  covers := by
    intro owner mem op isOp
    have either : owner ∈ into.blocks ∨ owner ∈ block.blocks := by
      cases before with
      | false => simpa using mem
      | true => simpa [or_comm] using mem
    rcases either with own | other
    · obtain ⟨listed, unknown⟩ := into.covers owner own op isOp
      exact ⟨List.Subset.trans listed (List.subset_append_left _ _), fun set => by simp [unknown set]⟩
    · obtain ⟨listed, unknown⟩ := block.covers owner other op isOp
      exact ⟨List.Subset.trans listed (List.subset_append_right _ _), fun set => by simp [unknown set]⟩

end Segment

section Independence

variable (function : Function)

/-- The memory a value stands for, when that can be told: an argument of the function or
an allocation. -/
def rootOf (memref : Value) : Option Value :=
  match memref with
  | .blockArgument owner _ => if owner = 0 then some memref else none
  | .opResult _ _ _ =>
      match (function.definingOp memref).map Operation.kind with
      | some .alloc => some memref
      | _ => none

/-- A recorded dependence of one operation names the other. -/
def dependsOn (src dst : Operation) : Bool := dst.name ∈ src.dependences

/-- Two accesses, one of each segment, that may interleave. -/
def accessIndependent (trustMC : Bool) (x y : Access) : Bool :=
  if x.resource ≠ y.resource then true
  else if dependsOn x.op y.op || dependsOn y.op x.op then false
  else if !x.isStore && !y.isStore then true
  else if x.resource ≠ .default then x.memref ≠ y.memref
  else
    match rootOf function x.memref, rootOf function y.memref with
    | some rx, some ry =>
        rx ≠ ry || (trustMC && x.op.connectsToMC && y.op.connectsToMC)
    | _, _ => false

def memoryIndependent (trustMC : Bool) (a b : Segment function) : Bool :=
  !a.isOpaque && !b.isOpaque &&
    a.accesses.all fun x => b.accesses.all fun y => accessIndependent function trustMC x y

end Independence

section Performing

variable {Memory Index Word : Type}

/-- What an operation does to memory: a load or a store of one place. -/
inductive MemEvent (Memory Index Word : Type) where
  | load (memory : Memory) (index : Index)
  | store (memory : Memory) (index : Index) (value : Word)

namespace MemEvent

def memory : MemEvent Memory Index Word → Memory
  | load memory _ => memory
  | store memory _ _ => memory

def isStore : MemEvent Memory Index Word → Bool
  | load _ _ => false
  | store _ _ _ => true

end MemEvent

/-- The operation can perform an event, where `names` tells the memories that a value
may stand for. An operation that declares effects writes only what it declares to
write, allocating and freeing leave what memories hold, and an operation that does not
say what it touches may do anything. -/
def Operation.Performs (names : Value → Memory → Prop) (op : Operation)
    (event : MemEvent Memory Index Word) : Prop :=
  match op.kind with
  | .load memref => names memref event.memory ∧ event.isStore = false
  | .store memref => names memref event.memory ∧ event.isStore = true
  | .constant | .alloc | .effectFree => False
  | .undeclared => True
  | .declares effects =>
      (∃ effect ∈ effects, effect.value = none) ∨
        ∃ effect ∈ effects, ∃ value, effect.value = some value ∧
          effect.resource = .default ∧ names value event.memory ∧
          (event.isStore = true → effect.kind = .write)

def Segment.Performs {function : Function} (segment : Segment function)
    (names : Value → Memory → Prop) (event : MemEvent Memory Index Word) : Prop :=
  ∃ block ∈ segment.blocks, ∃ op ∈ function.operations block, op.Performs names event

/-- Distinct roots are distinct memories. -/
def DistinctRoots (function : Function) (names : Value → Memory → Prop) : Prop :=
  ∀ left right leftRoot rightRoot memory, rootOf function left = some leftRoot →
    rootOf function right = some rightRoot → names left memory → names right memory →
      leftRoot = rightRoot

variable {names : Value → Memory → Prop}

/-- What an operation performs is one of its accesses, unless it makes the segment
opaque. -/
theorem performs_collected {op : Operation} {event : MemEvent Memory Index Word}
    (performs : op.Performs names event) (known : (collectAccesses op).2 = false) :
    ∃ access ∈ (collectAccesses op).1, access.resource = .default ∧
      names access.memref event.memory ∧ (event.isStore = true → access.isStore = true) := by
  cases kind : op.kind with
  | load memref =>
      rw [Operation.Performs, kind] at performs
      refine ⟨⟨op, memref, false, .default⟩, by simp [collectAccesses, kind], rfl,
        performs.1, ?_⟩
      intro store
      exact absurd (performs.2.symm.trans store) Bool.false_ne_true
  | store memref =>
      rw [Operation.Performs, kind] at performs
      exact ⟨⟨op, memref, true, .default⟩, by simp [collectAccesses, kind], rfl, performs.1,
        fun _ => rfl⟩
  | constant => simp [Operation.Performs, kind] at performs
  | alloc => simp [Operation.Performs, kind] at performs
  | effectFree => simp [Operation.Performs, kind] at performs
  | undeclared => simp [collectAccesses, kind] at known
  | declares effects =>
      have valued : ∀ effect ∈ effects, effect.value.isSome = true := by
        simpa [collectAccesses, kind, Option.isSome_iff_ne_none] using known
      have whole : (effects.takeWhile fun effect => effect.value.isSome) = effects :=
        List.takeWhile_eq_self_iff.mpr valued
      rw [Operation.Performs, kind] at performs
      rcases performs with
        ⟨effect, mem, unvalued⟩ | ⟨effect, mem, value, isValue, memory, stands, writes⟩
      · have some := valued effect mem
        simp [unvalued] at some
      · refine ⟨⟨op, value, effect.kind = .write, effect.resource⟩, ?_, memory, stands, ?_⟩
        · simp only [collectAccesses, kind, whole, List.mem_filterMap]
          exact ⟨effect, mem, by simp [isValue]⟩
        · intro store
          simpa using writes store

theorem Segment.performs_covered {function : Function} {segment : Segment function}
    {event : MemEvent Memory Index Word} (performs : segment.Performs names event)
    (known : segment.isOpaque = false) :
    ∃ access ∈ segment.accesses, access.resource = .default ∧
      names access.memref event.memory ∧ (event.isStore = true → access.isStore = true) := by
  obtain ⟨block, mem, op, isOp, performs⟩ := performs
  obtain ⟨listed, unknown⟩ := segment.covers block mem op isOp
  have own : (collectAccesses op).2 = false := by
    cases set : (collectAccesses op).2 with
    | false => rfl
    | true => exact absurd (unknown set) (by simp [known])
  obtain ⟨access, isAccess, facts⟩ := performs_collected performs own
  exact ⟨access, listed isAccess, facts⟩

variable {function : Function}

/-- Two accesses to memory that may interleave without trust are no conflict: they both
read, or their memories have different roots. -/
theorem accessIndependent_memory {x y : Access}
    (accepted : accessIndependent function false x y = true)
    (left : x.resource = .default) (right : y.resource = .default) :
    (x.isStore = false ∧ y.isStore = false) ∨
      ∃ leftRoot rightRoot, rootOf function x.memref = some leftRoot ∧
        rootOf function y.memref = some rightRoot ∧ leftRoot ≠ rightRoot := by
  rw [accessIndependent, left, right] at accepted
  simp only [ne_eq, not_true_eq_false, if_false] at accepted
  split at accepted
  · exact absurd accepted Bool.false_ne_true
  · split at accepted
    · rename_i reads
      exact .inl (by simpa using reads)
    · split at accepted
      · rename_i leftRoot rightRoot isLeft isRight
        exact .inr ⟨leftRoot, rightRoot, isLeft, isRight, by simpa using accepted⟩
      · exact absurd accepted Bool.false_ne_true

variable {first second : Segment function}

/-- Accepted segments have no conflict in memory. -/
theorem no_conflict (accepted : memoryIndependent function false first second = true)
    (distinct : DistinctRoots function names) {left right : MemEvent Memory Index Word}
    (firstPerforms : first.Performs names left) (secondPerforms : second.Performs names right) :
    (left.isStore = false ∧ right.isStore = false) ∨ left.memory ≠ right.memory := by
  simp only [memoryIndependent, Bool.and_eq_true, Bool.not_eq_true', List.all_eq_true] at accepted
  obtain ⟨⟨firstKnown, secondKnown⟩, independent⟩ := accepted
  obtain ⟨x, isX, xMemory, xNames, xStores⟩ := first.performs_covered firstPerforms firstKnown
  obtain ⟨y, isY, yMemory, yNames, yStores⟩ :=
    second.performs_covered secondPerforms secondKnown
  rcases accessIndependent_memory (independent x isX y isY) xMemory yMemory with
    ⟨xReads, yReads⟩ | ⟨leftRoot, rightRoot, isLeft, isRight, differ⟩
  · refine .inl ⟨Bool.eq_false_iff.mpr fun store => ?_, Bool.eq_false_iff.mpr fun store => ?_⟩
    · exact absurd (xStores store) (by simp [xReads])
    · exact absurd (yStores store) (by simp [yReads])
  · refine .inr fun same => differ ?_
    exact distinct x.memref y.memref leftRoot rightRoot left.memory isLeft isRight xNames
      (same ▸ yNames)

end Performing

section Interleaving

variable {Memory Index Word : Type} [DecidableEq Memory] [DecidableEq Index]

/-- The memories: a load answers with the word in its place. -/
def memories (Memory Index Word : Type) [DecidableEq Memory] [DecidableEq Index] :
    System (Memory × Index → Word) (MemEvent Memory Index Word) (Option Word) where
  next contents event :=
    match event with
    | .load _ _ => contents
    | .store memory index value => Function.update contents (memory, index) value
  answer contents event :=
    match event with
    | .load memory index => some (contents (memory, index))
    | .store _ _ _ => none

theorem memories_independent {left right : MemEvent Memory Index Word}
    (apart : (left.isStore = false ∧ right.isStore = false) ∨ left.memory ≠ right.memory) :
    (memories Memory Index Word).Independent left right := by
  cases left with
  | load leftMemory leftIndex =>
      cases right with
      | load rightMemory rightIndex => exact ⟨fun _ => rfl, fun _ => rfl, fun _ => rfl⟩
      | store rightMemory rightIndex value =>
          have differ : leftMemory ≠ rightMemory := by
            simpa [MemEvent.isStore, MemEvent.memory] using apart
          refine ⟨fun _ => rfl, fun contents => ?_, fun _ => rfl⟩
          simp [memories, Function.update_of_ne, differ]
  | store leftMemory leftIndex leftValue =>
      have differ : leftMemory ≠ right.memory := by
        simpa [MemEvent.isStore, MemEvent.memory] using apart
      cases right with
      | load rightMemory rightIndex =>
          have differ' : rightMemory ≠ leftMemory := Ne.symm differ
          refine ⟨fun _ => rfl, fun _ => rfl, fun contents => ?_⟩
          simp [memories, Function.update_of_ne, differ']
      | store rightMemory rightIndex rightValue =>
          refine ⟨fun contents => ?_, fun _ => rfl, fun _ => rfl⟩
          refine Function.update_comm (fun same => differ ?_) _ _ _
          exact (Prod.mk.inj same).1

/-- Segments that are accepted without trust in memory controllers may interleave in any
way: the memories end, and every load reads, as when the first segment runs and then the
second. -/
theorem memoryIndependent_sequential {function : Function} {first second : Segment function}
    (accepted : memoryIndependent function false first second = true)
    {names : Value → Memory → Prop} (distinct : DistinctRoots function names)
    (trace : List (Party × MemEvent Memory Index Word))
    (firstPerforms : ∀ event ∈ eventsOf .first trace, first.Performs names event)
    (secondPerforms : ∀ event ∈ eventsOf .second trace, second.Performs names event)
    (contents : Memory × Index → Word) :
    (memories Memory Index Word).run contents (trace.map Prod.snd) =
        (memories Memory Index Word).run
          ((memories Memory Index Word).run contents (eventsOf .first trace))
          (eventsOf .second trace) ∧
      (memories Memory Index Word).answersOf .first contents trace =
        (memories Memory Index Word).answers contents (eventsOf .first trace) ∧
      (memories Memory Index Word).answersOf .second contents trace =
        (memories Memory Index Word).answers
          ((memories Memory Index Word).run contents (eventsOf .first trace))
          (eventsOf .second trace) :=
  System.interleaving_sequential (fun left mem right also => memories_independent
    (no_conflict accepted distinct (firstPerforms left mem) (secondPerforms right also))) contents

end Interleaving

theorem eq_of_rootOf {function : Function} {memref root : Value}
    (isRoot : rootOf function memref = some root) : root = memref := by
  unfold rootOf at isRoot
  repeat' split at isRoot
  all_goals simp_all

/-- Values that stand for themselves keep distinct roots apart. -/
theorem distinctRoots_eq (function : Function) :
    DistinctRoots function fun value memory : Value => value = memory := by
  intro left right leftRoot rightRoot memory isLeft isRight leftNames rightNames
  rw [eq_of_rootOf isLeft, eq_of_rootOf isRight, leftNames, rightNames]

namespace TwoMemories

/-- Two loops of one block: the first stores to argument 0, the second loads from
argument 1 and stores to it. -/
def function : Function where
  blocks := [
    ⟨2, [], ⟨true, [], [⟨1, []⟩]⟩⟩,
    ⟨0, [⟨0, .store (.blockArgument 0 0), [.blockArgument 0 0], [], false⟩],
      ⟨true, [], [⟨1, []⟩, ⟨2, []⟩]⟩⟩,
    ⟨0, [⟨1, .load (.blockArgument 0 1), [.blockArgument 0 1], [], false⟩,
      ⟨2, .store (.blockArgument 0 1), [.blockArgument 0 1], [], false⟩],
      ⟨true, [], [⟨2, []⟩, ⟨3, []⟩]⟩⟩,
    ⟨0, [], ⟨false, [], []⟩⟩]
  memInterfacesFromDeps := false

def first : Segment function := Segment.ofBlocks function (some ⟨1, [1], false⟩) [1] 2

def second : Segment function := Segment.ofBlocks function (some ⟨2, [2], false⟩) [2] 3

def trace : List (Party × MemEvent Value Nat Nat) := [
  (.second, .load (.blockArgument 0 1) 0), (.first, .store (.blockArgument 0 0) 0 7),
  (.second, .store (.blockArgument 0 1) 1 8), (.first, .store (.blockArgument 0 0) 1 9)]

end TwoMemories

theorem memoryIndependent_sequential_twoMemories :
    (memories Value Nat Nat).answersOf .second (fun _ => 0) TwoMemories.trace =
      (memories Value Nat Nat).answers
        ((memories Value Nat Nat).run (fun _ => 0) (eventsOf .first TwoMemories.trace))
        (eventsOf .second TwoMemories.trace) := by
  have accepted : memoryIndependent TwoMemories.function false TwoMemories.first
      TwoMemories.second = true := by decide
  have firstPerforms : ∀ event ∈ eventsOf .first TwoMemories.trace,
      TwoMemories.first.Performs (fun value memory => value = memory) event := by
    intro event mem
    have cases : event = .store (.blockArgument 0 0) 0 7 ∨
        event = .store (.blockArgument 0 0) 1 9 := by
      simpa [TwoMemories.trace, eventsOf] using mem
    refine ⟨1, by decide, ⟨0, .store (.blockArgument 0 0), [.blockArgument 0 0], [], false⟩,
      by decide, ?_⟩
    rcases cases with rfl | rfl <;> exact ⟨rfl, rfl⟩
  have secondPerforms : ∀ event ∈ eventsOf .second TwoMemories.trace,
      TwoMemories.second.Performs (fun value memory => value = memory) event := by
    intro event mem
    have cases : event = .load (.blockArgument 0 1) 0 ∨
        event = .store (.blockArgument 0 1) 1 8 := by
      simpa [TwoMemories.trace, eventsOf] using mem
    rcases cases with rfl | rfl
    · exact ⟨2, by decide, ⟨1, .load (.blockArgument 0 1), [.blockArgument 0 1], [], false⟩,
        by decide, rfl, rfl⟩
    · exact ⟨2, by decide, ⟨2, .store (.blockArgument 0 1), [.blockArgument 0 1], [], false⟩,
        by decide, rfl, rfl⟩
  exact (memoryIndependent_sequential accepted (distinctRoots_eq TwoMemories.function)
    TwoMemories.trace firstPerforms secondPerforms fun _ => 0).2.2

end Dynamatic.ParallelRegions
