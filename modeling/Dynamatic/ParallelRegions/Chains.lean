import Mathlib.Data.List.Sort
import Dynamatic.ParallelRegions.LiveOuts
import Dynamatic.Spans.Merging

/-!
# Groups of parallel regions

`analyzeFunction` walks the chains of loops and straight-line blocks at a function's top
level, and `groupChain` makes groups of independent regions from ranges of a chain. Two
units in different regions of a group have no live-out between them, so a value gets from
one region to another only on a detour that `hasLiveOut` does not ask for.
-/

namespace Dynamatic.ParallelRegions

namespace CFGLoop

variable (function : Function) (loop : CFGLoop)

/-- The only block outside the loop with edges to the header. -/
def getLoopPredecessor : Option Nat :=
  match (function.predecessors loop.header).filter fun pred => pred ∉ loop.blocks with
  | [pred] => some pred
  | _ => none

/-- The only block with edges that leave the loop. -/
def getExitingBlock : Option Nat :=
  match loop.blocks.filter fun block =>
    (function.successors block).any fun succ => succ ∉ loop.blocks with
  | [block] => some block
  | _ => none

/-- Where the only edge that leaves the loop goes. -/
def getExitBlock : Option Nat :=
  match loop.blocks.flatMap fun block =>
    (function.successors block).filter fun succ => succ ∉ loop.blocks with
  | [block] => some block
  | _ => none

def wellFormed : Bool :=
  (loop.getLoopPredecessor function).isSome && (loop.getExitingBlock function).isSome &&
    (loop.getExitBlock function).isSome

end CFGLoop

/-- What the loop analysis says about a function. -/
structure LoopInfo where
  topLevel : List CFGLoop
  getLoopFor : Nat → Option CFGLoop

/-- A group of parallel regions, as written on the function. -/
structure Group where
  entry : Nat
  regions : List (List Nat)
  successor : Nat
  deriving DecidableEq, Repr

section Ranges

variable (dep : Nat → Nat → Bool)

/-- The dependent pairs of a range, in the order in which their spans are merged. -/
def dependentPairs (first last : Nat) : List (Nat × Nat) :=
  (List.range' first (last + 1 - first)).flatMap fun i =>
    ((List.range' (i + 1) (last - i)).filter (dep i)).map (Prod.mk i)

/-- The regions of a range: every dependent pair's span merges. -/
def regionOf (first last : Nat) : Nat → Nat := Spans.mergeAll (dependentPairs dep first last)

/-- How many regions the range has. -/
def computeRegions (first last : Nat) : Nat :=
  ((List.range' first (last + 1 - first)).filter fun k =>
    k = first || regionOf dep first last k ≠ regionOf dep first last (k - 1)).length

/-- The units of each region. -/
def regionUnits (first last : Nat) : List (List Nat) :=
  Spans.runs (regionOf dep first last) (List.range' first (last + 1 - first))

/-- The first unit of the last region, looked for from a unit backwards. -/
def lastRegion (first last : Nat) : Nat → Nat
  | 0 => 0
  | k + 1 =>
      if first < k + 1 ∧ regionOf dep first last k = regionOf dep first last last then
        lastRegion first last k
      else k + 1

/-- The newcomer joins the range, or the range is closed or starts later. -/
def rangeStep (state : Nat × List (Nat × Nat)) (j : Nat) : Nat × List (Nat × Nat) :=
  let (rangeStart, closed) := state
  let deps := (List.range' rangeStart (j - rangeStart)).filter fun i => dep i j
  match deps.head?, deps.getLast? with
  | some firstDep, some lastDep =>
      if 2 ≤ computeRegions dep rangeStart (j - 1) then
        if lastRegion dep rangeStart (j - 1) (j - 1) ≤ firstDep then (rangeStart, closed)
        else (j, closed ++ [(rangeStart, j - 1)])
      else if lastDep + 1 < j then (lastDep + 1, closed)
      else (rangeStart, closed)
  | _, _ => (rangeStart, closed)

/-- The ranges that are closed. -/
def ranges (n : Nat) : List (Nat × Nat) :=
  let (rangeStart, closed) := (List.range' 1 (n - 1)).foldl (rangeStep dep) (0, [])
  closed ++ [(rangeStart, n - 1)]

end Ranges

/-- A chain of segments, the block that enters it, and the block where it ends. -/
structure Chain (function : Function) where
  entry : Nat
  segments : List (Segment function)
  successor : Nat

namespace Segment

variable {function : Function}

/-- The block that the segment leaves from. -/
def last (seg : Segment function) : Nat :=
  match seg.loop with
  | some loop => (loop.getExitingBlock function).getD 0
  | none => seg.blocks.getLast?.getD 0

/-- A loop takes in the straight-line blocks before it. -/
def joinPending (state : List (Segment function) × List (Segment function))
    (seg : Segment function) : List (Segment function) × List (Segment function) :=
  let (units, pending) := state
  if seg.loop = none then (units, pending ++ [seg])
  else (units ++ [pending.reverse.foldl (fun into block => into.absorb block true) seg], [])

end Segment

namespace Chain

variable {function : Function} (chain : Chain function)

/-- The loops of a chain with the straight-line blocks around them. -/
def units : List (Segment function) :=
  let (units, pending) := chain.segments.foldl Segment.joinPending ([], [])
  match units.getLast? with
  | none => []
  | some last => units.dropLast ++ [pending.foldl (fun into block => into.absorb block false) last]

/-- The later unit depends on the earlier one. -/
def dep (i j : Nat) : Bool :=
  match chain.units[i]?, chain.units[j]? with
  | some earlier, some later =>
      hasLiveOut earlier later ||
        !memoryIndependent function function.memInterfacesFromDeps earlier later
  | _, _ => false

end Chain

section Analysis

variable (function : Function) (loopInfo : LoopInfo)

/-- The segments from a block on, the block where they end, and the blocks seen. -/
def walkChain : Nat → List Nat → Nat → List (Segment function) × Nat × List Nat
  | 0, seen, cur => ([], cur, seen)
  | depth + 1, seen, cur =>
      if cur ∈ seen then ([], cur, seen)
      else
        match loopInfo.getLoopFor cur with
        | some loop =>
            if loop.hasParent ∨ loop.header ≠ cur ∨ loop.wellFormed function = false then
              ([], cur, cur :: seen)
            else
              let blocks := loop.blocks.insertionSort (· ≤ ·)
              let next := (loop.getExitBlock function).getD 0
              let (segments, stop, seen) := walkChain depth (blocks ++ cur :: seen) next
              (.ofBlocks function (some loop) blocks next :: segments, stop, seen)
        | none =>
            match function.successors cur with
            | [next] =>
                let (segments, stop, seen) := walkChain depth (cur :: seen) next
                (.ofBlocks function none [cur] next :: segments, stop, seen)
            | _ => ([], cur, cur :: seen)

/-- The chain that starts at a loop, unless the loop was seen. -/
def chainStep (state : List (Chain function) × List Nat) (first : CFGLoop) :
    List (Chain function) × List Nat :=
  let (chains, seen) := state
  if first.header ∈ seen ∨ first.wellFormed function = false then (chains, seen)
  else
    let (segments, successor, seen) :=
      walkChain function loopInfo (function.blocks.length + 1) seen first.header
    if segments.length < 2 ∨ segments.any (fun seg => successor ∈ seg.blocks) then (chains, seen)
    else
      (chains ++ [⟨(first.getLoopPredecessor function).getD 0, segments, successor⟩], seen)

/-- The chains of a function, from its loops in the order of their headers; a function of one
block has none. -/
def chains : List (Chain function) :=
  if function.blocks.length = 1 then []
  else
    ((loopInfo.topLevel.insertionSort fun a b => a.header ≤ b.header).foldl
      (chainStep function loopInfo) ([], [])).1

end Analysis

section Merging

variable {dep : Nat → Nat → Bool} {first last i j : Nat}

theorem mem_dependentPairs :
    (i, j) ∈ dependentPairs dep first last ↔
      first ≤ i ∧ i < j ∧ j ≤ last ∧ dep i j = true := by
  simp only [dependentPairs, List.mem_flatMap, List.mem_map, List.mem_filter, List.mem_range'_1,
    Prod.mk.injEq]
  constructor
  · rintro ⟨_, ⟨least, most⟩, _, ⟨⟨above, below⟩, dependent⟩, rfl, rfl⟩
    exact ⟨least, above, by omega, dependent⟩
  · rintro ⟨least, less, most, dependent⟩
    exact ⟨i, ⟨least, by omega⟩, j, ⟨⟨less, by omega⟩, dependent⟩, rfl, rfl⟩

theorem pairwise_dependentPairs :
    (dependentPairs dep first last).Pairwise fun span other => span.1 ≤ other.1 := by
  rw [dependentPairs, List.pairwise_flatMap]
  refine ⟨fun k _ => ?_, ?_⟩
  · rw [List.pairwise_map]
    exact List.pairwise_of_forall fun _ _ => Nat.le_refl k
  · refine (List.pairwise_lt_range' 1 Nat.one_pos).imp fun {k l} less span isSpan other isOther => ?_
    obtain ⟨_, _, rfl⟩ := List.mem_map.mp isSpan
    obtain ⟨_, _, rfl⟩ := List.mem_map.mp isOther
    exact Nat.le_of_lt less

theorem mem_of_mem_regionUnits {run : List Nat} (isRun : run ∈ regionUnits dep first last)
    (mem : i ∈ run) : first ≤ i ∧ i ≤ last := by
  have inRange : i ∈ List.range' first (last + 1 - first) := by
    rw [← Spans.flatten_runs (regionOf dep first last) (List.range' first _)]
    exact List.mem_flatten.mpr ⟨run, isRun, mem⟩
  rw [List.mem_range'_1] at inRange
  omega

/-- Dependent units are in the same region. -/
theorem not_dep_of_regionUnits {m n : Nat} {run other : List Nat}
    (isRun : (regionUnits dep first last)[m]? = some run)
    (isOther : (regionUnits dep first last)[n]? = some other) (differs : m ≠ n) (mem : i ∈ run)
    (otherMem : j ∈ other) (less : i < j) : dep i j = false := by
  refine Bool.eq_false_iff.mpr fun dependent => ?_
  have least := (mem_of_mem_regionUnits (List.mem_of_getElem? isRun) mem).1
  have most := (mem_of_mem_regionUnits (List.mem_of_getElem? isOther) otherMem).2
  have pair := mem_dependentPairs.mpr ⟨least, less, most, dependent⟩
  have merged := Spans.constantOn_mergeAll pairwise_dependentPairs pair (Nat.le_of_lt less)
  have separated := List.pairwise_iff_getElem.mp
    (Spans.separated_runs (regionOf dep first last) first (last + 1 - first))
  obtain ⟨bound, rfl⟩ := List.getElem?_eq_some_iff.mp isRun
  obtain ⟨otherBound, rfl⟩ := List.getElem?_eq_some_iff.mp isOther
  obtain before | after := Nat.lt_or_gt_of_ne differs
  · exact (separated m n bound otherBound before i mem j otherMem).not_constantOn
      merged
  · obtain ⟨_, least, most, _⟩ := separated n m otherBound bound after j otherMem i mem
    omega

end Merging

/-- No operation of one region consumes a value that was computed in another region. -/
def Group.Sound (function : Function) (group : Group) : Prop :=
  ∀ {m n : Nat} {region other : List Nat}, group.regions[m]? = some region →
    group.regions[n]? = some other → m ≠ n → ∀ {val consumed block}, function.Computed val →
      val.block ∈ region → function.Flows val consumed → block ∈ other →
      ¬ function.Consumes block consumed

section Soundness

variable {function : Function} {chain : Chain function}

end Soundness

end Dynamatic.ParallelRegions
