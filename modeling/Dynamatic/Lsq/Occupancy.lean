import Dynamatic.Lsq.Allocation

/-!
# Queues with an out-of-order head

The load queue, and the store queue with store responses, free their entries in
any order and point their head at the oldest entry left, or with `headLag` at the
oldest entry of the cycle before. `Queue` is what such a queue's registers stand
for; a cycle keeps it whatever entries are freed, because a group is accepted only
up to the head.
-/

namespace Dynamatic.Lsq

open Dynamatic.Clocked

variable {size start stop head tail : Nat} {alloc : Nat → Bool} {live : Nat → Prop}

/-- The registers of a queue stand for the entries that are `live`. -/
structure Queue (size : Nat) (alloc : Nat → Bool) (head tail : Nat) (live : Nat → Prop)
    (start stop : Nat) : Prop where
  ring : Ring size alloc live start stop
  head : head = start % size
  tail : tail = stop % size

/-- The free entries from the tail up to the head. -/
theorem wrapSub_ring (ordered : start < stop) (fits : stop ≤ start + size) :
    wrapSub size (start % size) (stop % size) = start + size - stop := by
  have someSlot : 0 < size := by omega
  have startBounded := Nat.mod_lt start someSlot
  have stopBounded := Nat.mod_lt stop someSlot
  rw [wrapSub_eq startBounded stopBounded]
  have congruent : start % size + size - stop % size ≡ start + size - stop [MOD size] := by
    refine Nat.ModEq.add_right_cancel' (stop % size) ?_
    rw [Nat.sub_add_cancel (by omega)]
    have sum : start + size - stop + stop % size ≡ start + size - stop + stop [MOD size] :=
      (Nat.mod_modEq stop size).add_left _
    rw [Nat.sub_add_cancel fits] at sum
    exact ((Nat.mod_modEq start size).add_right size).trans sum.symm
  have equal : (start % size + size - stop % size) % size = (start + size - stop) % size := congruent
  rw [equal, Nat.mod_eq_of_lt (by omega)]

/-- A group that fits the count of free entries fits the ring, seen from an entry that no
live one precedes. -/
theorem Queue.room (queue : Queue size alloc head tail live start stop) {number : Nat} {empty : Bool}
    (isEmpty : empty = true → ∀ entry, ¬ live entry) (less : number < size)
    (free : number ≤ if empty then size else wrapSub size head tail) :
    ∃ first, start ≤ first ∧ first ≤ stop ∧ (∀ entry, live entry → first ≤ entry) ∧
      stop + number ≤ first + size := by
  have ordered := queue.ring.ordered
  cases empty with
  | true =>
      refine ⟨stop, ordered, Nat.le_refl _, fun entry isLive => ?_, by omega⟩
      exact absurd isLive (isEmpty rfl entry)
  | false =>
      rw [if_neg (by simp), queue.head, queue.tail] at free
      have rest : ∀ entry, live entry → start ≤ entry := fun entry isLive =>
        (queue.ring.inside entry isLive).1
      rcases Nat.eq_or_lt_of_le ordered with same | before
      · exact ⟨start, Nat.le_refl _, ordered, rest, by omega⟩
      · rw [wrapSub_ring before queue.ring.fits] at free
        have fits := queue.ring.fits
        exact ⟨start, Nat.le_refl _, ordered, rest, by omega⟩

/-- No entry is allocated when none is live. -/
theorem Queue.free_iff (queue : Queue size alloc head tail live start stop) (someSlot : 0 < size) :
    (∀ entry, ¬ live entry) ↔ ∀ index < size, alloc index = false := by
  constructor
  · intro none index bounded
    refine Bool.eq_false_iff.mpr fun set => ?_
    obtain ⟨entry, isLive, -⟩ := queue.ring.occupied index bounded set
    exact none entry isLive
  · intro free entry isLive
    have set := queue.ring.allocated entry isLive
    rw [free _ (Nat.mod_lt _ someSlot)] at set
    cases set

/-- The head points at the oldest entry, or at the tail. -/
theorem oldestHead_of_ring (ring : Ring size alloc live start stop) (someSlot : 0 < size) :
    ∃ first, Cycle.oldestHead size (log2Ceil size) alloc (stop % size) = first % size ∧
      start ≤ first ∧ first ≤ stop ∧ (∀ entry, live entry → first ≤ entry) ∧
      ((∃ entry, live entry) → live first) ∧ ((¬ ∃ entry, live entry) → first = stop) := by
  classical
  rw [Cycle.oldestHead]
  by_cases some : ∃ entry, live entry
  · have anyAlloc : reduceOr size alloc = true := by
      obtain ⟨entry, isLive⟩ := some
      rw [reduceOr_eq_true]
      exact ⟨_, Nat.mod_lt _ someSlot, ring.allocated entry isLive⟩
    have firstLive := Nat.find_spec some
    have least : ∀ entry, live entry → Nat.find some ≤ entry := fun entry => Nat.find_min' some
    have inside := ring.inside _ firstLive
    have fits := ring.fits
    refine ⟨Nat.find some, ?_, inside.1, Nat.le_of_lt inside.2, least, fun _ => firstLive,
      fun none => absurd some none⟩
    rw [if_pos anyAlloc]
    -- Searching from the tail, an entry of the ring comes up one turn later.
    have oldest : ∀ entry, live entry →
        (cyclicPriorityMasking size alloc (bitsToOH (stop % size)) (entry % size) = true ↔
          entry = Nat.find some) := by
      intro entry isLive
      have entryInside := ring.inside entry isLive
      rw [← Nat.add_mod_right entry size, cyclicPriorityMasking_oldest (by omega) (by omega),
        Nat.add_mod_right]
      constructor
      · rintro ⟨-, clear⟩
        by_contra other
        have before := least entry isLive
        have zero := clear (Nat.find some + size) (by omega) (by omega)
        rw [Nat.add_mod_right, ring.allocated _ firstLive] at zero
        cases zero
      · rintro rfl
        refine ⟨ring.allocated _ isLive, fun earlier after before => ?_⟩
        cases set : alloc (earlier % size) with
        | false => rfl
        | true =>
            obtain ⟨other, otherLive, same⟩ := ring.occupied _ (Nat.mod_lt _ someSlot) set
            have otherInside := ring.inside other otherLive
            rw [← Nat.add_mod_right other size] at same
            have equal := eq_of_slot _ stop (by omega) (by omega) after (by omega) same
            have := least other otherLive
            omega
    refine ohToBits_of_unique (Nat.mod_lt _ someSlot) (le_two_pow_log2Ceil size)
      ((oldest _ firstLive).mpr rfl) fun index bounded set => ?_
    obtain ⟨entry, isLive, rfl⟩ := ring.occupied index bounded (cyclicPriorityMasking_le set).2
    rw [(oldest entry isLive).mp set]
  · have noAlloc : reduceOr size alloc = false := by
      rw [reduceOr_eq_false]
      intro index bounded
      refine Bool.eq_false_iff.mpr fun set => some ?_
      obtain ⟨entry, isLive, -⟩ := ring.occupied index bounded set
      exact ⟨entry, isLive⟩
    refine ⟨stop, ?_, ring.ordered, Nat.le_refl _, fun entry isLive => absurd ⟨entry, isLive⟩ some,
      fun any => absurd any some, fun _ => rfl⟩
    rw [noAlloc]
    rfl

/-- One clock edge of a queue that looks for its head, in the allocation bits before the
edge with `lag` and in those that stay without. -/
theorem Queue.step (queue : Queue size alloc head tail live start stop) (someSlot : 0 < size)
    {number : Nat} {reset wen : Nat → Bool} {empty : Bool} (lag : Bool)
    (isEmpty : empty = true → ∀ entry, ¬ live entry) (less : number < size)
    (free : number ≤ if empty then size else wrapSub size head tail)
    (written : wen = cyclicLeftShift size (log2Ceil size) tail fun offset => decide (offset < number)) :
    ∃ first, Queue size (fun index => wen index || (!reset index && alloc index))
      (Cycle.oldestHead size (log2Ceil size)
        (if lag then alloc else fun index => !reset index && alloc index) tail)
      (wrapAdd size tail number)
      (fun entry => stop ≤ entry ∧ entry < stop + number ∨
        live entry ∧ reset (entry % size) = false) first (stop + number) ∧
      (lag = false → (∃ entry, live entry ∧ reset (entry % size) = false) →
        live first ∧ reset (first % size) = false) ∧
      (lag = true → (∃ entry, live entry) → live first) ∧
      (lag = false → (¬ ∃ entry, live entry ∧ reset (entry % size) = false) → first = stop) ∧
      (lag = true → (¬ ∃ entry, live entry) → first = stop) := by
  obtain ⟨bound, after, before, rest, room⟩ := queue.room isEmpty less free
  have ring := queue.ring.advance after before rest
  rw [queue.tail] at written ⊢
  have tailEq : wrapAdd size (stop % size) number = (stop + number) % size := by
    rw [wrapAdd_eq (Nat.mod_lt _ someSlot) (Nat.le_of_lt less), Nat.mod_add_mod]
  have wenIff : ∀ index < size, wen index = true ↔
      ∃ entry, stop ≤ entry ∧ entry < stop + number ∧ entry % size = index := fun index inside => by
    rw [written]
    exact wen_iff inside (Nat.le_of_lt less)
  have stepped := ring.step number reset wen room wenIff
  cases lag with
  | true =>
      obtain ⟨first, headEq, least, most, oldest, someLive, noneLive⟩ :=
        oldestHead_of_ring ring someSlot
      refine ⟨first, ⟨stepped.advance least (by omega) ?_, headEq, tailEq⟩, by simp, fun _ => someLive,
        by simp, fun _ => noneLive⟩
      rintro entry (⟨new, -⟩ | ⟨isLive, -⟩)
      · omega
      · exact oldest entry isLive
  | false =>
      have kept := (ring.step 0 reset (fun _ => false) (by omega)
        (fun index _ => by simp; omega)).congr
        (fun entry => live entry ∧ reset (entry % size) = false) (fun entry => by
          simp only [Nat.add_zero, or_iff_right_iff_imp]
          omega)
      simp only [Bool.false_or, Nat.add_zero] at kept
      obtain ⟨first, headEq, least, most, oldest, someLive, noneLive⟩ :=
        oldestHead_of_ring kept someSlot
      refine ⟨first, ⟨stepped.advance least (by omega) ?_, headEq, tailEq⟩, fun _ => someLive, by simp,
        fun _ => noneLive, by simp⟩
      rintro entry (⟨new, -⟩ | isLive)
      · omega
      · exact oldest entry isLive

end Dynamatic.Lsq
