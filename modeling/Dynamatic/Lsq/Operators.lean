import Dynamatic.Clocked.Numbered
import Dynamatic.Clocked.Priority
import Dynamatic.Clocked.Scan

/-!
# The operators of the load-store queue generator

The generator writes its circuits with a few operators on vectors and arrays:
additions that wrap at a queue's size, rotations, one-hot codes, multiplexers and
the cyclic priority mask. They are defined here as `core_gen/operators` emits
them, for arrays indexed from 0, with a lemma each that says what the operator
does to the slots of a ring.
-/

namespace Dynamatic.Lsq

open Dynamatic.Clocked

variable {α : Type} {size max : Nat}

/-- `math.ceil(math.log2(value))`. -/
def log2Ceil (value : Nat) : Nat := if value ≤ 1 then 0 else (value - 1).log2 + 1

theorem le_two_pow_log2Ceil (value : Nat) : value ≤ 2 ^ log2Ceil value := by
  rw [log2Ceil]
  split
  · simpa using ‹value ≤ 1›
  · have bound := Nat.lt_log2_self (n := value - 1)
    omega

theorem two_pow_log2Ceil_of_isPowerOfTwo (power : max.isPowerOfTwo) :
    2 ^ log2Ceil max = max := by
  obtain ⟨exponent, rfl⟩ := power
  cases exponent with
  | zero => rfl
  | succ exponent =>
      have positive := Nat.two_pow_pos exponent
      have above : ¬ 2 ^ (exponent + 1) ≤ 1 := by
        rw [Nat.pow_succ]
        omega
      have log : (2 ^ (exponent + 1) - 1).log2 = exponent := by
        rw [Nat.log2_eq_iff (by omega)]
        rw [Nat.pow_succ]
        omega
      rw [log2Ceil, if_neg above, log]

section Wrap

/-- `WrapAdd`, into a vector of `log2Ceil max` bits. -/
def wrapAdd (max left right : Nat) : Nat :=
  if max.isPowerOfTwo then (left + right) % 2 ^ log2Ceil max
  else
    let sum := (left + right) % 2 ^ (log2Ceil max + 1)
    (if max ≤ sum then sum - max else sum) % 2 ^ log2Ceil max

/-- `WrapAddConst`. -/
def wrapAddConst (max left const : Nat) : Nat :=
  if max.isPowerOfTwo then (left + const) % 2 ^ log2Ceil max
  else if max - const ≤ left then left - (max - const)
  else (left + const) % 2 ^ log2Ceil max

/-- `WrapSub`. -/
def wrapSub (max left right : Nat) : Nat :=
  if max.isPowerOfTwo then (left + 2 ^ log2Ceil max - right) % 2 ^ log2Ceil max
  else if right ≤ left then left - right
  else (max - right + left) % 2 ^ log2Ceil max

private theorem mod_of_lt_double (max value : Nat) (bounded : value < 2 * max) :
    value % max = if max ≤ value then value - max else value := by
  split
  · rw [Nat.mod_eq_sub_mod ‹_›, Nat.mod_eq_of_lt (by omega)]
  · exact Nat.mod_eq_of_lt (by omega)

theorem wrapAdd_eq {left right : Nat} (leftBounded : left < max) (rightBounded : right ≤ max) :
    wrapAdd max left right = (left + right) % max := by
  rw [wrapAdd]
  split
  · rw [two_pow_log2Ceil_of_isPowerOfTwo ‹_›]
  · have wide := le_two_pow_log2Ceil max
    have sum : (left + right) % 2 ^ (log2Ceil max + 1) = left + right :=
      Nat.mod_eq_of_lt (by rw [Nat.pow_succ]; omega)
    simp only [sum]
    rw [← mod_of_lt_double _ _ (by omega)]
    exact Nat.mod_eq_of_lt ((Nat.mod_lt _ (by omega)).trans_le wide)

theorem wrapAddConst_eq {left const : Nat} (leftBounded : left < max) (constBounded : const ≤ max) :
    wrapAddConst max left const = (left + const) % max := by
  rw [wrapAddConst]
  split
  · rw [two_pow_log2Ceil_of_isPowerOfTwo ‹_›]
  · have wide := le_two_pow_log2Ceil max
    have double := mod_of_lt_double max (left + const) (by omega)
    split
    · rw [double, if_pos (by omega)]
      omega
    · rw [double, if_neg (by omega)]
      exact Nat.mod_eq_of_lt (by omega)

theorem wrapSub_eq {left right : Nat} (leftBounded : left < max) (rightBounded : right < max) :
    wrapSub max left right = (left + max - right) % max := by
  rw [wrapSub]
  split
  · rw [two_pow_log2Ceil_of_isPowerOfTwo ‹_›]
  · have wide := le_two_pow_log2Ceil max
    have double := mod_of_lt_double max (left + max - right) (by omega)
    split
    · rw [double, if_pos (by omega)]
      omega
    · rw [double, if_neg (by omega), Nat.mod_eq_of_lt (by omega)]
      omega

end Wrap

section Shift

/-- The layers of `CyclicLeftShift`, from the most significant bit of the distance
down: each rotates by one power of two. -/
def rotate (size distance : Nat) : Nat → (Nat → α) → Nat → α
  | 0, din => din
  | layer + 1, din =>
      rotate size distance layer fun index =>
        if distance.testBit layer then din ((index + size * 2 ^ layer - 2 ^ layer) % size)
        else din index

/-- `CyclicLeftShift` by a distance of `width` bits. -/
def cyclicLeftShift (size width distance : Nat) (din : Nat → α) : Nat → α :=
  rotate size distance width din

/-- Rotating forward and then back by one layer's distance. -/
private theorem unrotate {index distance : Nat} (bounded : index < size) :
    ((distance + index) % size + size * distance - distance) % size = index := by
  have whole := Nat.div_add_mod (distance + index) size
  have turns : (distance + index) / size ≤ distance := by
    rw [← Nat.lt_succ_iff, Nat.div_lt_iff_lt_mul (by omega), Nat.succ_mul]
    have : distance ≤ distance * size := Nat.le_mul_of_pos_right _ (by omega)
    omega
  obtain ⟨rest, total⟩ := Nat.le.dest turns
  have equal : (distance + index) % size + size * distance - distance = index + size * rest := by
    have : size * distance = size * ((distance + index) / size) + size * rest := by
      rw [← Nat.mul_add, total]
    omega
  rw [equal, Nat.add_mul_mod_self_left, Nat.mod_eq_of_lt bounded]

private theorem rotate_slot (distance layers : Nat) (din : Nat → α) {index : Nat}
    (bounded : index < size) :
    rotate size distance layers din ((distance % 2 ^ layers + index) % size) = din index := by
  induction layers generalizing din index with
  | zero => simp [rotate, Nat.mod_one, Nat.mod_eq_of_lt bounded]
  | succ layer inductionHypothesis =>
      rw [Nat.mod_pow_succ, ← Nat.toNat_testBit, rotate]
      cases set : distance.testBit layer with
      | false => simpa using inductionHypothesis din bounded
      | true =>
          have step := inductionHypothesis
            (fun index => din ((index + size * 2 ^ layer - 2 ^ layer) % size))
            (Nat.mod_lt (2 ^ layer + index) (by omega))
          rw [unrotate bounded, Nat.add_mod_mod, ← Nat.add_assoc] at step
          simpa using step

theorem cyclicLeftShift_slot {width distance : Nat} (din : Nat → α) {offset : Nat}
    (fits : distance < 2 ^ width) (bounded : offset < size) :
    cyclicLeftShift size width distance din ((distance + offset) % size) = din offset := by
  have shifted := rotate_slot distance width din bounded
  rwa [Nat.mod_eq_of_lt fits] at shifted

theorem cyclicLeftShift_const (size width distance : Nat) (value : α) :
    cyclicLeftShift size width distance (fun _ => value) = fun _ => value := by
  rw [cyclicLeftShift]
  induction width with
  | zero => rfl
  | succ layer inductionHypothesis => simpa [rotate] using inductionHypothesis

end Shift

section OneHot

variable {width : Nat} {select : Nat → Bool}

/-- `Reduce` with `or`. -/
def reduceOr (size : Nat) (din : Nat → Bool) : Bool := (List.range size).any din

@[simp] theorem reduceOr_eq_true {din : Nat → Bool} :
    reduceOr size din = true ↔ ∃ index < size, din index = true := by
  simp [reduceOr]

@[simp] theorem reduceOr_eq_false {din : Nat → Bool} :
    reduceOr size din = false ↔ ∀ index < size, din index = false := by
  simp [reduceOr]

/-- `BitsToOH`. -/
def bitsToOH (code index : Nat) : Bool := decide (code = index)

/-- `BitsToOHSub1`: the code of the slot before. -/
def bitsToOHSub1 (size code index : Nat) : Bool := decide (code = (index + 1) % size)

/-- `Mux1H`. -/
def mux1H (size : Nat) (select : Nat → Bool) (word : Nat → BitVec width) : BitVec width :=
  muxOneHot (fun index : Fin size => select index) fun index => word index

theorem mux1H_of_unique {word : Nat → BitVec width} {found : Nat} (bounded : found < size)
    (hit : select found = true) (only : ∀ index < size, select index = true → index = found) :
    mux1H size select word = word found :=
  muxOneHot_of_unique ⟨found, bounded⟩ hit fun index set =>
    Fin.ext (only index index.isLt set)

theorem mux1H_of_none {word : Nat → BitVec width} (none : ∀ index < size, select index = false) :
    mux1H size select word = 0 :=
  muxOneHot_of_none fun index => none index index.isLt

/-- `Mux1HROM`: the constants of the selected groups, joined. -/
def mux1HROM (size : Nat) (select : Nat → Bool) (value : Nat → Nat) : Nat :=
  (List.range size).foldl (fun joined index => joined ||| if select index then value index else 0) 0

private theorem foldl_join {value : Nat → Nat} {found joined : Nat} {indices : List Nat}
    (only : ∀ index ∈ indices, select index = true → index = found)
    (isIn : joined = value found ∨ joined = 0 ∧ found ∈ indices ∧ select found = true) :
    indices.foldl (fun joined index => joined ||| if select index then value index else 0) joined =
      value found := by
  induction indices generalizing joined with
  | nil =>
      rcases isIn with rfl | ⟨-, mem, -⟩
      · rfl
      · cases mem
  | cons index rest inductionHypothesis =>
      refine inductionHypothesis (fun other mem => only other (List.mem_cons_of_mem _ mem)) ?_
      cases chosen : select index with
      | true =>
          have here : index = found := only index List.mem_cons_self chosen
          rw [← here] at isIn ⊢
          rcases isIn with rfl | ⟨rfl, -, -⟩ <;> simp [chosen]
      | false =>
          rcases isIn with rfl | ⟨rfl, mem, hit⟩
          · simp [chosen]
          · refine .inr ⟨by simp [chosen], ?_, hit⟩
            rcases List.mem_cons.mp mem with rfl | mem
            · simp [chosen] at hit
            · exact mem

theorem mux1HROM_of_unique {value : Nat → Nat} {found : Nat} (bounded : found < size)
    (hit : select found = true) (only : ∀ index < size, select index = true → index = found) :
    mux1HROM size select value = value found :=
  foldl_join (fun index mem => only index (List.mem_range.mp mem))
    (.inr ⟨rfl, List.mem_range.mpr bounded, hit⟩)

theorem mux1HROM_of_none {value : Nat → Nat} (none : ∀ index < size, select index = false) :
    mux1HROM size select value = 0 := by
  rw [mux1HROM, List.foldl_ext _ (fun joined _ => joined) 0]
  · exact List.foldl_fixed _
  · intro joined index mem
    simp [none index (List.mem_range.mp mem)]

/-- `OHToBits`, into `width` bits. -/
def ohToBits (width size : Nat) (din : Nat → Bool) : Nat := mux1HROM size din id % 2 ^ width

theorem ohToBits_of_unique {din : Nat → Bool} {found : Nat} (bounded : found < size)
    (fits : size ≤ 2 ^ width) (hit : din found = true)
    (only : ∀ index < size, din index = true → index = found) :
    ohToBits width size din = found := by
  rw [ohToBits, mux1HROM_of_unique bounded hit only]
  exact Nat.mod_eq_of_lt (bounded.trans_le fits)

/-- `MuxLookUp`. -/
def muxLookUp (size : Nat) (din : Nat → α) (select : Nat) (zero : α) : α :=
  if select < size then din select else zero

@[simp] theorem muxLookUp_of_lt {din : Nat → α} {select : Nat} {zero : α} (bounded : select < size) :
    muxLookUp size din select zero = din select := if_pos bounded

end OneHot

section Priority

/-- `CyclicPriorityMasking`: the array twice in a row, less the base. -/
def cyclicPriorityMasking (size : Nat) (din base : Nat → Bool) (index : Nat) : Bool :=
  let doubleIn : BitVec (2 * size) := pack fun index => din (index % size)
  let doubleBase : BitVec (2 * size) := pack fun index => decide (index < size) && base index
  let doubleOut := doubleIn &&& ~~~ (doubleIn - doubleBase)
  decide (index < size) && (doubleOut.getLsbD index || doubleOut.getLsbD (index + size))

/-- `CyclicPriorityMasking` in the reverse direction. -/
def cyclicPriorityMaskingReverse (size : Nat) (din base : Nat → Bool) (index : Nat) : Bool :=
  decide (index < size) &&
    cyclicPriorityMasking size (fun index => din (size - 1 - index))
      (fun index => base (size - 1 - index)) (size - 1 - index)

variable {din base : Nat → Bool} {first offset index : Nat}

/-- The mask selects among the array's own bits. -/
theorem cyclicPriorityMasking_le (masked : cyclicPriorityMasking size din base index = true) :
    index < size ∧ din index = true := by
  simp only [cyclicPriorityMasking, Bool.and_eq_true, decide_eq_true_eq, Bool.or_eq_true,
    BitVec.getLsbD_and] at masked
  obtain ⟨bounded, ⟨set, -⟩ | ⟨set, -⟩⟩ := masked
  · have word := getLsbD_pack (fun index : Fin (2 * size) => din (index % size))
      ⟨index, by omega⟩
    rw [set] at word
    exact ⟨bounded, by simpa [Nat.mod_eq_of_lt bounded] using word.symm⟩
  · have word := getLsbD_pack (fun index : Fin (2 * size) => din (index % size))
      ⟨index + size, by omega⟩
    rw [set] at word
    exact ⟨bounded, by simpa [Nat.mod_eq_of_lt bounded] using word.symm⟩

private theorem pack_bitsToOH (bounded : first < size) :
    pack (fun index : Fin (2 * size) => decide (index.1 < size) && bitsToOH first index) =
      BitVec.twoPow (2 * size) first := by
  refine BitVec.eq_of_getLsbD_eq fun index inside => ?_
  have word := getLsbD_pack
    (fun index : Fin (2 * size) => decide (index.1 < size) && bitsToOH first index) ⟨index, inside⟩
  rw [word, BitVec.getLsbD_twoPow]
  by_cases here : first = index
  · subst here
    simp [bitsToOH, bounded, inside]
  · simp [bitsToOH, here]

/-- From a slot on, around the end of the array, the mask keeps the first bit that is
set. -/
theorem cyclicPriorityMasking_slot (din : Nat → Bool) (first offset : Nat)
    (firstBounded : first < size) (bounded : offset < size) :
    cyclicPriorityMasking size din (bitsToOH first) ((first + offset) % size) = true ↔
      din ((first + offset) % size) = true ∧
        ∀ earlier < offset, din ((first + earlier) % size) = false := by
  have word : ∀ index, index < 2 * size →
      (pack fun index : Fin (2 * size) => din (index % size)).getLsbD index = din (index % size) :=
    fun index inside => getLsbD_pack (fun index : Fin (2 * size) => din (index % size)) ⟨index, inside⟩
  have inside : (first + offset) % size < size := Nat.mod_lt _ (by omega)
  simp only [cyclicPriorityMasking, pack_bitsToOH firstBounded, inside, decide_true, Bool.true_and,
    Bool.or_eq_true]
  rw [getLsbD_isolate _ _ (by omega), getLsbD_isolate _ _ (by omega), word _ (by omega),
    word _ (by omega), Nat.mod_mod, Nat.add_mod_right, Nat.mod_mod]
  rcases Nat.lt_or_ge (first + offset) size with low | high
  · rw [Nat.mod_eq_of_lt low]
    constructor
    · rintro (⟨set, -, clear⟩ | ⟨set, -, clear⟩)
      · refine ⟨set, fun earlier before => ?_⟩
        have zero := clear (first + earlier) (by omega) (by omega)
        rwa [word _ (by omega)] at zero
      · have zero := clear (first + offset) (by omega) (by omega)
        rw [word _ (by omega), Nat.mod_eq_of_lt low, set] at zero
        cases zero
    · rintro ⟨set, clear⟩
      refine .inl ⟨set, by omega, fun lower least below => ?_⟩
      have zero := clear (lower - first) (by omega)
      rw [word _ (by omega)]
      rwa [show first + (lower - first) = lower by omega] at zero
  · have wraps : (first + offset) % size = first + offset - size := by
      rw [Nat.mod_eq_sub_mod high, Nat.mod_eq_of_lt (by omega)]
    constructor
    · rintro (⟨-, above, -⟩ | ⟨set, -, clear⟩)
      · omega
      · refine ⟨set, fun earlier before => ?_⟩
        have zero := clear (first + earlier) (by omega) (by omega)
        rwa [word _ (by omega)] at zero
    · rintro ⟨set, clear⟩
      refine .inr ⟨set, by omega, fun lower least below => ?_⟩
      have zero := clear (lower - first) (by omega)
      rw [word _ (by omega)]
      rwa [show first + (lower - first) = lower by omega] at zero

/-- A base without a bit masks everything. -/
theorem cyclicPriorityMasking_of_noBase (none : ∀ index < size, base index = false) :
    cyclicPriorityMasking size din base index = false := by
  have zero : (pack fun index : Fin (2 * size) => decide (index.1 < size) && base index) =
      0#(2 * size) := by
    refine BitVec.eq_of_getLsbD_eq fun index inside => ?_
    have word := getLsbD_pack
      (fun index : Fin (2 * size) => decide (index.1 < size) && base index) ⟨index, inside⟩
    rw [word, BitVec.getLsbD_zero]
    by_cases low : index < size
    · simp [none index low]
    · simp [low]
  simp [cyclicPriorityMasking, zero]

theorem cyclicPriorityMasking_congr {other : Nat → Bool}
    (same : ∀ index < size, base index = other index) :
    cyclicPriorityMasking size din base = cyclicPriorityMasking size din other := by
  have words : (fun index : Fin (2 * size) => decide (index.1 < size) && base index) =
      fun index : Fin (2 * size) => decide (index.1 < size) && other index := by
    funext index
    by_cases low : index.1 < size
    · simp [same _ low]
    · simp [low]
  funext index
  simp only [cyclicPriorityMasking, words]

variable {start stop entry : Nat}

/-- In a ring that starts at `start`, the mask keeps the oldest entry. -/
theorem cyclicPriorityMasking_oldest (after : start ≤ entry) (inRing : entry < start + size) :
    cyclicPriorityMasking size din (bitsToOH (start % size)) (entry % size) = true ↔
      din (entry % size) = true ∧
        ∀ earlier, start ≤ earlier → earlier < entry → din (earlier % size) = false := by
  have slot : ∀ other, start ≤ other → (start % size + (other - start)) % size = other % size :=
    fun other _ => by rw [Nat.mod_add_mod, Nat.add_sub_cancel' ‹_›]
  have mask := cyclicPriorityMasking_slot din (start % size) (entry - start)
    (Nat.mod_lt start (by omega)) (by omega)
  rw [slot entry after] at mask
  rw [mask]
  refine and_congr_right fun _ => ⟨fun clear earlier least before => ?_, fun clear earlier before => ?_⟩
  · rw [← slot earlier least]
    exact clear (earlier - start) (by omega)
  · have zero := clear (start + earlier) (by omega) (by omega)
    rwa [← slot _ (by omega), Nat.add_sub_cancel_left] at zero

/-- The mask keeps one bit at most. -/
theorem cyclicPriorityMasking_unique {other : Nat}
    (left : cyclicPriorityMasking size din (bitsToOH (start % size)) index = true)
    (right : cyclicPriorityMasking size din (bitsToOH (start % size)) other = true) :
    index = other := by
  obtain ⟨entry, after, before, rfl⟩ := exists_slot start (cyclicPriorityMasking_le left).1
  obtain ⟨later, afterOther, beforeOther, rfl⟩ := exists_slot start (cyclicPriorityMasking_le right).1
  rw [cyclicPriorityMasking_oldest after before] at left
  rw [cyclicPriorityMasking_oldest afterOther beforeOther] at right
  rcases Nat.lt_trichotomy entry later with less | rfl | more
  · rw [right.2 entry after less] at left
    cases left.1
  · rfl
  · rw [left.2 later afterOther more] at right
    cases right.1

/-- The mask keeps a bit if one is set. -/
theorem exists_cyclicPriorityMasking (start : Nat) (bounded : index < size)
    (set : din index = true) :
    ∃ kept < size, cyclicPriorityMasking size din (bitsToOH (start % size)) kept = true := by
  classical
  obtain ⟨entry, after, before, rfl⟩ := exists_slot start bounded
  have some : ∃ entry, start ≤ entry ∧ din (entry % size) = true := ⟨entry, after, set⟩
  obtain ⟨firstAfter, firstSet⟩ := Nat.find_spec some
  have least : Nat.find some ≤ entry := Nat.find_min' some ⟨after, set⟩
  refine ⟨Nat.find some % size, Nat.mod_lt _ (by omega), ?_⟩
  rw [cyclicPriorityMasking_oldest firstAfter (by omega)]
  refine ⟨firstSet, fun earlier earlierAfter less => ?_⟩
  exact Bool.eq_false_iff.mpr fun earlierSet => Nat.find_min some less ⟨earlierAfter, earlierSet⟩

private theorem reversed_slot {last back : Nat} (lastBounded : last < size) (bounded : back < size) :
    size - 1 - (last + size - back) % size = (size - 1 - last + back) % size := by
  rcases Nat.lt_or_ge last back with wraps | inside
  · rw [Nat.mod_eq_of_lt (a := last + size - back) (by omega),
      Nat.mod_eq_sub_mod (a := size - 1 - last + back) (by omega),
      Nat.mod_eq_of_lt (a := size - 1 - last + back - size) (by omega)]
    omega
  · rw [Nat.mod_eq_sub_mod (a := last + size - back) (by omega),
      Nat.mod_eq_of_lt (a := last + size - back - size) (by omega),
      Nat.mod_eq_of_lt (a := size - 1 - last + back) (by omega)]
    omega

theorem cyclicPriorityMaskingReverse_congr {other : Nat → Bool}
    (same : ∀ index < size, base index = other index) :
    cyclicPriorityMaskingReverse size din base = cyclicPriorityMaskingReverse size din other := by
  funext index
  rw [cyclicPriorityMaskingReverse, cyclicPriorityMaskingReverse]
  cases inside : decide (index < size) with
  | false => rfl
  | true =>
      have bounded := of_decide_eq_true inside
      rw [cyclicPriorityMasking_congr fun other _ => same (size - 1 - other) (by omega)]

/-- From a slot down, around the end of the array, the reverse mask keeps the first bit that is
set. -/
theorem cyclicPriorityMaskingReverse_slot (din : Nat → Bool) (last offset : Nat)
    (lastBounded : last < size) (bounded : offset < size) :
    cyclicPriorityMaskingReverse size din (bitsToOH last) ((last + size - offset) % size) = true ↔
      din ((last + size - offset) % size) = true ∧
        ∀ earlier < offset, din ((last + size - earlier) % size) = false := by
  have base : ∀ index < size, bitsToOH last (size - 1 - index) = bitsToOH (size - 1 - last) index := by
    intro index inside
    rw [bitsToOH, bitsToOH, decide_eq_decide]
    omega
  have inside : ∀ back, (last + size - back) % size < size := fun back => Nat.mod_lt _ (by omega)
  have slot : ∀ back < size, (size - 1 - last + back) % size =
      size - 1 - (last + size - back) % size :=
    fun back backBounded => (reversed_slot lastBounded backBounded).symm
  have back : ∀ steps < size, din (size - 1 - (size - 1 - last + steps) % size) =
      din ((last + size - steps) % size) := by
    intro steps stepsBounded
    have := inside steps
    rw [slot steps stepsBounded]
    congr 1
    omega
  rw [cyclicPriorityMaskingReverse, cyclicPriorityMasking_congr base, ← slot offset bounded,
    decide_eq_true (inside offset), Bool.true_and,
    cyclicPriorityMasking_slot _ _ _ (by omega) bounded, back offset bounded]
  refine and_congr_right fun _ => forall_congr' fun earlier => forall_congr' fun less => ?_
  rw [back earlier (by omega)]

/-- In a ring that stops before `stop`, the reverse mask keeps the youngest entry. -/
theorem cyclicPriorityMaskingReverse_youngest (before : entry < stop)
    (inRing : stop ≤ entry + size) :
    cyclicPriorityMaskingReverse size din (bitsToOHSub1 size (stop % size)) (entry % size) = true ↔
      din (entry % size) = true ∧
        ∀ later, entry < later → later < stop → din (later % size) = false := by
  have someSlot : 0 < size := by omega
  have lastBounded : (stop - 1) % size < size := Nat.mod_lt _ someSlot
  have base : ∀ index < size,
      bitsToOHSub1 size (stop % size) index = bitsToOH ((stop - 1) % size) index := by
    intro index bounded
    have next : stop % size = ((stop - 1) % size + 1) % size := by
      rw [Nat.mod_add_mod, show stop - 1 + 1 = stop by omega]
    rw [bitsToOHSub1, bitsToOH, next, decide_eq_decide, Nat.add_comm _ 1, Nat.add_comm _ 1]
    refine ⟨fun same => ?_, fun same => by rw [same]⟩
    have congruent : (stop - 1) % size ≡ index [MOD size] := Nat.ModEq.add_left_cancel' 1 same
    exact congruent.eq_of_lt_of_lt lastBounded bounded
  have slot : ∀ other, other < stop → stop ≤ other + size →
      ((stop - 1) % size + size - (stop - 1 - other)) % size = other % size := by
    intro other below inside
    have split := Nat.div_add_mod (stop - 1) size
    have whole : other + size = (stop - 1) % size + size - (stop - 1 - other) +
        size * ((stop - 1) / size) := by omega
    rw [← Nat.add_mod_right other size, whole, Nat.add_mul_mod_self_left]
  have mask := cyclicPriorityMaskingReverse_slot din ((stop - 1) % size) (stop - 1 - entry)
    lastBounded (by omega)
  rw [slot entry before inRing] at mask
  rw [cyclicPriorityMaskingReverse_congr base, mask]
  refine and_congr_right fun _ => ⟨fun clear later above below => ?_, fun clear earlier within => ?_⟩
  · have zero := clear (stop - 1 - later) (by omega)
    rwa [slot later below (by omega)] at zero
  · have zero := clear (stop - 1 - earlier) (by omega) (by omega)
    rw [← slot (stop - 1 - earlier) (by omega) (by omega)] at zero
    rwa [show stop - 1 - (stop - 1 - earlier) = earlier by omega] at zero

end Priority

end Dynamatic.Lsq
