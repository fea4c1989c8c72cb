import Dynamatic.LoopNest.Forest
import Mathlib.Order.Basic

/-!
# The depth of the innermost common loop

The loops of a function and the blocks in them, and the index analysis of a SCoP on top: for two
instructions of the SCoP that depend on each other, `computeIntersections` keeps the loop
dimensions of the SCoP that surround both, and drops the inner ones.
-/

namespace Dynamatic.MemoryDependence

open Dynamatic.LoopNest

universe u v w

/-- The loops of a function, each with the loop it is nested in, and the innermost loop of each
block. -/
structure LoopInfo (Block : Type u) (Loop : Type v) where
  loops : ParentForest Loop
  loopFor : Block → Option Loop

namespace LoopInfo

variable {Block : Type u} {Loop : Type v} (loopInfo : LoopInfo Block Loop)

def getLoopFor (block : Block) : Option Loop :=
  loopInfo.loopFor block

def getParentLoop (loop : Loop) : Option Loop :=
  loopInfo.loops.parent loop

/-- `Loop::getLoopDepth`: one for an outermost loop. -/
def depthOf (loop : Loop) : Nat :=
  loopInfo.loops.depth (some loop)

/-- Zero for a block outside of all loops. -/
def getLoopDepth (block : Block) : Nat :=
  loopInfo.loops.depth (loopInfo.getLoopFor block)

/-- The block is in the loop or in a loop nested in it. -/
def Contains (loop : Loop) (block : Block) : Prop :=
  loop ∈ loopInfo.loops.chain (loopInfo.getLoopFor block)

/-- The loop contains both blocks, and every loop that does is around it. -/
def InnermostCommon (loop : Loop) (first second : Block) : Prop :=
  (loopInfo.Contains loop first ∧ loopInfo.Contains loop second) ∧
    ∀ outer, loopInfo.Contains outer first → loopInfo.Contains outer second →
      outer ∈ loopInfo.loops.chain (some loop)

end LoopInfo

/-- `while (depth0 > depth1) { l0 = l0->getParentLoop(); depth0--; }`, which fails where it
would follow a null pointer. -/
def climbTo {Loop : Type v} (loops : ParentForest Loop) (target : Nat) :
    Nat → Option Loop → Option (Nat × Option Loop)
  | 0, place => some (0, place)
  | depth + 1, place =>
      if depth + 1 > target then
        match place with
        | none => none
        | some loop => climbTo loops target depth (loops.parent loop)
      else some (depth + 1, place)

/-- `while (l1 != l0 && depth0-- > 0)`: the counter goes down in the condition, also when that
ends the loop. -/
def climbTogether {Loop : Type v} [DecidableEq Loop] (loops : ParentForest Loop) :
    Nat → Option Loop → Option Loop → Option Int
  | 0, first, second => if second ≠ first then some (-1) else some 0
  | depth + 1, first, second =>
      if second ≠ first then
        match first, second with
        | some loop0, some loop1 =>
            climbTogether loops depth (loops.parent loop0) (loops.parent loop1)
        | _, _ => none
      else some (depth + 1 : Nat)

/-- The blocks stand for the instructions in them. -/
def getOutMostCommonLoopDepth {Block : Type u} {Loop : Type v} [DecidableEq Loop]
    (loopInfo : LoopInfo Block Loop) (bb0 bb1 : Block) : Option Int :=
  let depth0 := loopInfo.getLoopDepth bb0
  let depth1 := loopInfo.getLoopDepth bb1
  match climbTo loopInfo.loops depth1 depth0 (loopInfo.getLoopFor bb0) with
  | none => none
  | some (depth0, l0) =>
      match climbTo loopInfo.loops depth0 depth1 (loopInfo.getLoopFor bb1) with
      | none => none
      | some (_, l1) => climbTogether loopInfo.loops depth0 l0 l1

section Climbing

variable {Loop : Type v} {loops : ParentForest Loop}

/-- The climb ends at a place no deeper than the target, and leaves no loop around the other
place behind. -/
theorem climbTo_spec {target depth : Nat} {place other : Option Loop}
    (measure : loops.depth place = depth) (level : loops.depth other ≤ target) :
    ∃ reached, climbTo loops target depth place = some (min depth target, reached) ∧
      loops.depth reached = min depth target ∧
      ∀ meet, loops.IsMeet meet reached other → loops.IsMeet meet place other := by
  induction depth generalizing place with
  | zero => exact ⟨place, by simp [climbTo], by simp [measure], fun _ isMeet => isMeet⟩
  | succ depth ih =>
    by_cases deeper : depth + 1 > target
    · cases place with
      | none => exact absurd measure (Nat.succ_ne_zero depth).symm
      | some loop =>
        have parentMeasure : loops.depth (loops.parent loop) = depth := by
          rw [loops.depth_some] at measure
          exact Nat.succ.inj measure
        obtain ⟨reached, climbed, reachedDepth, meets⟩ := ih parentMeasure
        have same : min (depth + 1) target = min depth target := by omega
        refine ⟨reached, ?_, by rw [same, reachedDepth], fun meet isMeet => ?_⟩
        · rw [climbTo, if_pos deeper, same]
          exact climbed
        · refine (meets meet isMeet).of_parent (loops.not_mem_of_depth_lt ?_)
          omega
    · have same : min (depth + 1) target = depth + 1 := by omega
      refine ⟨place, ?_, by rw [same, measure], fun _ isMeet => isMeet⟩
      cases place <;> rw [climbTo, if_neg deeper, same]

/-- From two places equally deep the climb ends at their meet. -/
theorem climbTogether_spec [DecidableEq Loop] {depth : Nat} {first second : Option Loop}
    (firstDepth : loops.depth first = depth) (secondDepth : loops.depth second = depth) :
    ∃ meet, climbTogether loops depth first second = some (loops.depth meet : Int) ∧
      loops.IsMeet meet first second := by
  induction depth generalizing first second with
  | zero =>
    cases first with
    | some loop => exact absurd firstDepth (by simp)
    | none =>
      cases second with
      | some loop => exact absurd secondDepth (by simp)
      | none => exact ⟨none, rfl, .refl none⟩
  | succ depth ih =>
    by_cases same : second = first
    · subst same
      refine ⟨second, ?_, .refl second⟩
      cases second <;> simp only [climbTogether, ne_eq, not_true, if_false, secondDepth]
    · cases first with
      | none => exact absurd firstDepth (Nat.succ_ne_zero depth).symm
      | some loop0 =>
        cases second with
        | none => exact absurd secondDepth (Nat.succ_ne_zero depth).symm
        | some loop1 =>
          have level := firstDepth.trans secondDepth.symm
          rw [loops.depth_some] at firstDepth secondDepth
          obtain ⟨meet, climbed, isMeet⟩ :=
            ih (Nat.succ.inj firstDepth) (Nat.succ.inj secondDepth)
          refine ⟨meet, ?_, isMeet.of_parents level fun equal => same (by rw [equal])⟩
          rw [climbTogether, if_pos same]
          exact climbed

end Climbing

section CommonLoops

variable {Block : Type u} {Loop : Type v} [DecidableEq Loop] (loopInfo : LoopInfo Block Loop)

/-- The result is the depth of the meet of the places of both blocks. -/
theorem getOutMostCommonLoopDepth_eq (bb0 bb1 : Block) :
    ∃ meet, getOutMostCommonLoopDepth loopInfo bb0 bb1 =
        some (loopInfo.loops.depth meet : Int) ∧
      loopInfo.loops.IsMeet meet (loopInfo.getLoopFor bb0) (loopInfo.getLoopFor bb1) := by
  obtain ⟨l0, climbed0, depth0, meets0⟩ :=
    @climbTo_spec _ loopInfo.loops _ _ (loopInfo.getLoopFor bb0) (loopInfo.getLoopFor bb1) rfl
      (Nat.le_refl _)
  obtain ⟨l1, climbed1, depth1, meets1⟩ :=
    @climbTo_spec _ loopInfo.loops _ _ (loopInfo.getLoopFor bb1) l0 rfl (Nat.le_refl _)
  have level : loopInfo.loops.depth l1 = loopInfo.loops.depth l0 := by omega
  obtain ⟨meet, climbed, isMeet⟩ := climbTogether_spec rfl level
  refine ⟨meet, ?_, meets0 meet (meets1 meet isMeet.symm).symm⟩
  simp only [getOutMostCommonLoopDepth, LoopInfo.getLoopDepth]
  rw [climbed0]
  simp only [← depth0]
  rw [climbed1]
  exact climbed

/-- What the result is in terms of the loops of the function. -/
theorem getOutMostCommonLoopDepth_innermost (bb0 bb1 : Block) :
    (∃ loop, loopInfo.InnermostCommon loop bb0 bb1 ∧
        getOutMostCommonLoopDepth loopInfo bb0 bb1 = some (loopInfo.depthOf loop : Int)) ∨
      (∀ loop, ¬ (loopInfo.Contains loop bb0 ∧ loopInfo.Contains loop bb1)) ∧
        getOutMostCommonLoopDepth loopInfo bb0 bb1 = some 0 := by
  obtain ⟨meet, result, isMeet⟩ := getOutMostCommonLoopDepth_eq loopInfo bb0 bb1
  cases meet with
  | some loop => exact .inl ⟨loop, isMeet.innermost, result⟩
  | none => exact .inr ⟨fun loop both => List.not_mem_nil ((isMeet loop).mpr both), result⟩

/-- A loop around both blocks is no deeper than the result. -/
theorem depthOf_le_common {bb0 bb1 : Block} {loop : Loop} {depth : Int}
    (in0 : loopInfo.Contains loop bb0) (in1 : loopInfo.Contains loop bb1)
    (result : getOutMostCommonLoopDepth loopInfo bb0 bb1 = some depth) :
    (loopInfo.depthOf loop : Int) ≤ depth := by
  obtain ⟨meet, found, isMeet⟩ := getOutMostCommonLoopDepth_eq loopInfo bb0 bb1
  obtain rfl : (loopInfo.loops.depth meet : Int) = depth :=
    Option.some.inj (found.symm.trans result)
  exact Int.ofNat_le.mpr (isMeet.depth_le in0 in1)

end CommonLoops

end Dynamatic.MemoryDependence
