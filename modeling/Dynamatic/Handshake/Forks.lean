import Mathlib.Data.Fintype.Basic
import Mathlib.Data.Fin.VecNotation

/-!
# Forks

A lazy fork offers its token to a sink only when every other sink is ready, so
its outputs all transfer in one cycle. An eager fork serves each sink when it is
ready and remembers, in one register block per output, which of them still need
the token. The signals are those of `lazy_fork.py`, `fork.py` and
`eager_fork_register_block.vhd`.
-/

namespace Dynamatic.Handshake

variable {size : Nat}

/-- `outs_valid` of a lazy fork. -/
def lazyForkValid (insValid : Bool) (outsReady : Fin size → Bool) (index : Fin size) : Bool :=
  insValid && decide (∀ other, other ≠ index → outsReady other = true)

/-- `ins_ready` of a lazy fork. -/
def lazyForkReady (outsReady : Fin size → Bool) : Bool := decide (∀ index, outsReady index = true)

@[simp] theorem lazyForkValid_false (outsReady : Fin size → Bool) (index : Fin size) :
    lazyForkValid false outsReady index = false := rfl

/-- Each output of a lazy fork transfers exactly when its input does. -/
theorem lazyForkValid_and_ready (insValid : Bool) (outsReady : Fin size → Bool)
    (index : Fin size) :
    (lazyForkValid insValid outsReady index && outsReady index) =
      (insValid && lazyForkReady outsReady) := by
  refine Bool.eq_iff_iff.mpr ?_
  simp only [lazyForkValid, lazyForkReady, Bool.and_eq_true, decide_eq_true_eq, and_assoc]
  refine and_congr_right fun _ => ⟨fun ⟨others, here⟩ other => ?_, fun all => ?_⟩
  · by_cases same : other = index
    · exact same ▸ here
    · exact others other same
  · exact ⟨fun other _ => all other, all index⟩

/-- `keepValue` of an eager fork's register block, which is also its `blockStop`. -/
def keepValue (transmitValue outsReady : Bool) : Bool := !outsReady && transmitValue

/-- `ins_ready` of an eager fork. -/
def eagerForkReady (transmitValue outsReady : Fin size → Bool) : Bool :=
  decide (∀ index, keepValue (transmitValue index) (outsReady index) = false)

/-- `transmitValue` after the cycle. -/
def transmitNext (insValid : Bool) (transmitValue outsReady : Fin size → Bool)
    (index : Fin size) : Bool :=
  keepValue (transmitValue index) (outsReady index) ||
    !(insValid && !eagerForkReady transmitValue outsReady)

section Eager

variable {α : Type} {insValid : Bool} {transmitValue outsReady : Fin size → Bool}

/-- An output that still has to transmit does so now or later. -/
theorem transmit_append (value : α) (index : Fin size) :
    (if insValid && transmitValue index then [value] else []) =
      (if transmitValue index && insValid && outsReady index then [value] else []) ++
        if (insValid && !eagerForkReady transmitValue outsReady) &&
          transmitNext insValid transmitValue outsReady index then [value] else [] := by
  have kept : eagerForkReady transmitValue outsReady = true →
      keepValue (transmitValue index) (outsReady index) = false := by
    intro ready
    exact of_decide_eq_true ready index
  cases stops : eagerForkReady transmitValue outsReady with
  | true =>
      have moved := kept stops
      rw [keepValue] at moved
      revert moved
      cases insValid <;> cases transmitValue index <;> cases outsReady index <;> simp
  | false =>
      cases insValid <;> cases sent : transmitValue index <;> cases ready : outsReady index <;>
        simp [transmitNext, stops, keepValue, sent, ready]

/-- Once a token is through, every output waits for the next one. -/
theorem transmitNext_of_done (done : (insValid && !eagerForkReady transmitValue outsReady) = false)
    (index : Fin size) : transmitNext insValid transmitValue outsReady index = true := by
  rw [transmitNext, done]
  simp

end Eager

end Dynamatic.Handshake
