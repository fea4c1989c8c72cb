import Mathlib.Data.List.Basic
import Mathlib.Data.Nat.ModEq

/-!
# Windows of a ring memory

A FIFO kept in a memory of `depth` words occupies a run of consecutive slots
that wraps around at the end. `window` lists what such a run holds. Writing the
slot behind it appends, advancing its first slot drops, and a write outside it
changes nothing; full and empty flags are decided by comparing slots.
-/

namespace Dynamatic.Clocked

variable {α : Type} {depth : Nat}

/-- The words in the `count` slots from slot `head` on, around the end of the
memory. -/
def window (depth : Nat) (memory : Nat → α) (head count : Nat) : List α :=
  (List.range count).map fun offset => memory ((head + offset) % depth)

/-- Offsets shorter than the ring reach different slots. -/
theorem slot_inj (head : Nat) {left right : Nat} (leftBounded : left < depth)
    (rightBounded : right < depth) :
    (head + left) % depth = (head + right) % depth ↔ left = right := by
  constructor
  · intro same
    have congruent : left ≡ right [MOD depth] := Nat.ModEq.add_left_cancel' head same
    exact congruent.eq_of_lt_of_lt leftBounded rightBounded
  · rintro rfl
    rfl

/-- Advancing past `passed` slots and then by an offset is advancing by both. -/
theorem slot_add (head passed offset : Nat) :
    ((head + passed) % depth + offset) % depth = (head + (passed + offset)) % depth := by
  rw [Nat.mod_add_mod, Nat.add_assoc]

section Window

variable {memory : Nat → α} {head count : Nat}

@[simp] theorem length_window : (window depth memory head count).length = count := by
  simp [window]

@[simp] theorem window_zero : window depth memory head 0 = [] := rfl

theorem getElem?_window {offset : Nat} (bounded : offset < count) :
    (window depth memory head count)[offset]? = some (memory ((head + offset) % depth)) := by
  simp [window, bounded]

/-- A run seen from its slots only. -/
theorem window_congr {other : Nat → α}
    (same : ∀ offset < count, memory ((head + offset) % depth) = other ((head + offset) % depth)) :
    window depth memory head count = window depth other head count := by
  refine List.map_congr_left fun offset mem => same offset ?_
  simpa using mem

/-- The first word, and the run one slot further. -/
theorem window_succ :
    window depth memory head (count + 1) =
      memory (head % depth) :: window depth memory ((head + 1) % depth) count := by
  rw [window, List.range_succ_eq_map, List.map_cons, List.map_map]
  refine congrArg₂ List.cons (by simp) ?_
  refine List.map_congr_left fun offset _ => ?_
  rw [Function.comp_apply, slot_add, Nat.add_comm 1 offset]

theorem window_succ_last :
    window depth memory head (count + 1) =
      window depth memory head count ++ [memory ((head + count) % depth)] := by
  rw [window, List.range_succ, List.map_append]
  rfl

/-- A write behind a run leaves it alone. -/
theorem window_update {written offset : Nat} (value : α) (slot : written = (head + offset) % depth)
    (behind : count ≤ offset) (fits : offset < depth) :
    window depth (Function.update memory written value) head count =
      window depth memory head count := by
  refine window_congr fun inside bounded => Function.update_of_ne ?_ _ _
  rw [slot]
  intro same
  have equal := (slot_inj head (by omega) fits).mp same
  omega

/-- A write to the slot behind a run appends to it. -/
theorem window_push {written : Nat} (value : α) (slot : written = (head + count) % depth)
    (fits : count < depth) :
    window depth (Function.update memory written value) head (count + 1) =
      window depth memory head count ++ [value] := by
  rw [window_succ_last, window_update value slot (Nat.le_refl _) fits, ← slot,
    Function.update_self]

end Window

end Dynamatic.Clocked

/-!
## FIFOs kept in a ring memory

A FIFO with a head and a tail pointer cannot tell a full ring from an empty one
by comparing them, so its full and empty flags are registers of their own, set
when a lone write or a lone read makes the pointers meet. `ahead` is how far in
front of the tail the full flag looks: with 1 every slot is used, with 2 one slot
stays free. `Fifo.Holds` gives the queue such registers stand for.
-/

namespace Dynamatic.Clocked

/-- The registers of a FIFO. -/
structure Fifo (α : Type) where
  head : Nat
  tail : Nat
  full : Bool
  empty : Bool
  memory : Nat → α

namespace Fifo

variable {α : Type}

/-- An empty FIFO over any memory contents. -/
def reset (memory : Nat → α) : Fifo α where
  head := 0
  tail := 0
  full := false
  empty := true
  memory := memory

/-- One clock edge, with the write and read enables of the cycle. -/
def step (slots ahead : Nat) (fifo : Fifo α) (writeEn readEn : Bool) (value : α) : Fifo α where
  head := if readEn then (fifo.head + 1) % slots else fifo.head
  tail := if writeEn then (fifo.tail + 1) % slots else fifo.tail
  full :=
    if writeEn && !readEn then
      if (fifo.tail + ahead) % slots = fifo.head then true else fifo.full
    else if !writeEn && readEn then false else fifo.full
  empty :=
    if !writeEn && readEn then
      if (fifo.head + 1) % slots = fifo.tail then true else fifo.empty
    else if writeEn && !readEn then false else fifo.empty
  memory := if writeEn then Function.update fifo.memory fifo.tail value else fifo.memory

/-- The registers stand for the queue `contents` of at most `capacity` words. -/
structure Holds (slots capacity : Nat) (fifo : Fifo α) (contents : List α) : Prop where
  headBounded : fifo.head < slots
  tailEq : fifo.tail = (fifo.head + contents.length) % slots
  contentsEq : contents = window slots fifo.memory fifo.head contents.length
  fits : contents.length ≤ capacity
  fullEq : fifo.full = decide (contents.length = capacity)
  emptyEq : fifo.empty = decide (contents.length = 0)

variable {slots ahead capacity : Nat} {fifo : Fifo α} {contents : List α} {value : α}

theorem holds_reset (memory : Nat → α) (someSlot : 0 < slots) (someRoom : 0 < capacity) :
    (reset memory).Holds slots capacity [] where
  headBounded := someSlot
  tailEq := by simp [reset]
  contentsEq := rfl
  fits := Nat.zero_le _
  fullEq := by simp [reset, Nat.ne_of_lt someRoom]
  emptyEq := rfl

section Step

variable (holds : fifo.Holds slots capacity contents)
include holds

/-- The word at the head is the oldest of the queue. -/
theorem Holds.head_eq (nonempty : contents ≠ []) :
    contents = fifo.memory fifo.head :: contents.tail := by
  obtain ⟨count, length⟩ : ∃ count, contents.length = count + 1 :=
    Nat.exists_eq_succ_of_ne_zero (by simpa using nonempty)
  have listed := holds.contentsEq
  rw [length, window_succ, Nat.mod_eq_of_lt holds.headBounded] at listed
  rw [listed, List.tail_cons]

theorem Holds.tail_eq (nonempty : contents ≠ []) :
    contents.tail = window slots fifo.memory ((fifo.head + 1) % slots) (contents.length - 1) := by
  obtain ⟨count, length⟩ : ∃ count, contents.length = count + 1 :=
    Nat.exists_eq_succ_of_ne_zero (by simpa using nonempty)
  have listed := holds.contentsEq
  rw [length, window_succ] at listed
  rw [listed, List.tail_cons]
  simp

/-- A lone write that finds room appends. -/
theorem holds_write (depth : capacity + ahead = slots + 1) (looksAhead : 0 < ahead)
    (room : contents.length < capacity) :
    (fifo.step slots ahead true false value).Holds slots capacity (contents ++ [value]) := by
  have notFull : fifo.full = false := by simp [holds.fullEq, Nat.ne_of_lt room]
  refine ⟨holds.headBounded, ?_, ?_, ?_, ?_, ?_⟩
  · simp only [step, if_true, Bool.false_eq_true, if_false, holds.tailEq, slot_add,
      List.length_append, List.length_singleton]
  · simp only [step, if_true, Bool.false_eq_true, if_false, List.length_append,
      List.length_singleton]
    rw [window_push value holds.tailEq (by omega), ← holds.contentsEq]
  · simp only [List.length_append, List.length_singleton]
    omega
  · -- The pointers meet `ahead` slots in front of the tail exactly at capacity.
    have meets : (fifo.tail + ahead) % slots = fifo.head ↔ contents.length + 1 = capacity := by
      rw [holds.tailEq, slot_add]
      constructor
      · intro same
        by_contra short
        have bounded : contents.length + ahead < slots := by omega
        have offset := (slot_inj fifo.head bounded (by omega : 0 < slots)).mp
          (by rw [same, Nat.add_zero, Nat.mod_eq_of_lt holds.headBounded])
        omega
      · intro last
        rw [show contents.length + ahead = slots by omega, Nat.add_mod_right,
          Nat.mod_eq_of_lt holds.headBounded]
    simp [step, meets, notFull]
  · simp [step]

/-- A lone read drops the oldest word. -/
theorem holds_read (depth : capacity + ahead = slots + 1) (looksAhead : 0 < ahead)
    (nonempty : contents ≠ []) :
    (fifo.step slots ahead false true value).Holds slots capacity contents.tail := by
  have fits := holds.fits
  have positive : 0 < contents.length := List.length_pos_iff.mpr nonempty
  have notEmpty : fifo.empty = false := by simp [holds.emptyEq, nonempty]
  refine ⟨Nat.mod_lt _ (by omega), ?_, ?_, ?_, ?_, ?_⟩
  · simp only [step, if_true, Bool.false_eq_true, if_false, holds.tailEq, slot_add, List.length_tail]
    rw [show 1 + (contents.length - 1) = contents.length by omega]
  · simp only [step, if_true, Bool.false_eq_true, if_false, List.length_tail]
    exact holds.tail_eq nonempty
  · rw [List.length_tail]
    omega
  · have short : contents.length - 1 ≠ capacity := by omega
    simp [step, short]
  · have meets : (fifo.head + 1) % slots = fifo.tail ↔ contents.length - 1 = 0 := by
      have tail : fifo.tail = (fifo.head + 1 + (contents.length - 1)) % slots := by
        rw [holds.tailEq, Nat.add_assoc, show 1 + (contents.length - 1) = contents.length by omega]
      rw [tail]
      exact (slot_inj (fifo.head + 1) (by omega : 0 < slots) (by omega)).trans eq_comm
    simp [step, meets, notEmpty]

/-- A write together with a read appends to what the read leaves, also in a full
queue. -/
theorem holds_write_read (depth : capacity + ahead = slots + 1) (looksAhead : 0 < ahead)
    (nonempty : contents ≠ []) :
    (fifo.step slots ahead true true value).Holds slots capacity (contents.tail ++ [value]) := by
  have fits := holds.fits
  have positive : 0 < contents.length := List.length_pos_iff.mpr nonempty
  have length : (contents.tail ++ [value]).length = contents.length := by
    rw [List.length_append, List.length_tail, List.length_singleton]
    omega
  refine ⟨Nat.mod_lt _ (by omega), ?_, ?_, by omega, ?_, ?_⟩
  · simp only [step, if_true, holds.tailEq, slot_add, length]
    rw [Nat.add_comm 1]
  · simp only [step, if_true, length]
    have written : window slots (Function.update fifo.memory fifo.tail value)
          ((fifo.head + 1) % slots) (contents.length - 1 + 1) =
        window slots fifo.memory ((fifo.head + 1) % slots) (contents.length - 1) ++ [value] :=
      window_push value
        (by rw [slot_add, holds.tailEq, show 1 + (contents.length - 1) = contents.length by omega])
        (by omega)
    rw [show contents.length - 1 + 1 = contents.length by omega] at written
    rw [written, ← holds.tail_eq nonempty]
  · simp [step, length, holds.fullEq]
  · simp [step, length, holds.emptyEq]

/-- One clock edge on the queue: the read takes the oldest word, the write
appends. -/
theorem holds_step {writeEn readEn : Bool} (depth : capacity + ahead = slots + 1)
    (looksAhead : 0 < ahead)
    (writable : writeEn = true → readEn = false → contents.length < capacity)
    (readable : readEn = true → contents ≠ []) :
    (fifo.step slots ahead writeEn readEn value).Holds slots capacity
      ((if readEn then contents.tail else contents) ++ if writeEn then [value] else []) := by
  cases writeEn with
  | true =>
      cases readEn with
      | true => exact holds_write_read holds depth looksAhead (readable rfl)
      | false => exact holds_write holds depth looksAhead (writable rfl rfl)
  | false =>
      cases readEn with
      | true => simpa using holds_read holds depth looksAhead (readable rfl)
      | false => simpa [step] using holds

end Step

end Fifo

end Dynamatic.Clocked
