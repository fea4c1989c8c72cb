import Dynamatic.Clocked.Fifo
import Mathlib.Data.Nat.Count

/-!
# Numbered entries in a ring

A queue that reserves its slots in order and frees them in any order is a ring of
`size` slots whose entries, numbered as they are reserved, sit in the slots of
their numbers. `Ring` says that the allocation bits of the slots are those of the
entries still there. `rank` counts the entries that came before over the same
port, so that "the k-th entry of a port" is the one of rank k.
-/

namespace Dynamatic.Clocked

variable {size : Nat}

/-- Within one turn of the ring an entry is known by its slot. -/
theorem eq_of_slot (size start : Nat) {left right : Nat} (leftAfter : start ≤ left)
    (leftBefore : left < start + size) (rightAfter : start ≤ right)
    (rightBefore : right < start + size) (same : left % size = right % size) : left = right := by
  have offsets : left - start = right - start :=
    (slot_inj start (by omega : left - start < size) (by omega)).mp (by
      rwa [Nat.add_sub_cancel' leftAfter, Nat.add_sub_cancel' rightAfter])
  omega

/-- Every slot is that of one entry of a turn. -/
theorem exists_slot (start : Nat) {index : Nat} (bounded : index < size) :
    ∃ entry, start ≤ entry ∧ entry < start + size ∧ entry % size = index := by
  refine ⟨start + (index + size - start % size) % size, Nat.le_add_right _ _,
    Nat.add_lt_add_left (Nat.mod_lt _ (by omega)) _, ?_⟩
  have inside := Nat.mod_lt start (by omega : 0 < size)
  rw [Nat.add_mod_mod, ← Nat.mod_add_mod, show start % size + (index + size - start % size) =
    index + size by omega, Nat.add_mod_right, Nat.mod_eq_of_lt bounded]

/-- The entries that are `live`, all of them from `start` on and before `stop`, hold
exactly the slots that are allocated. -/
structure Ring (size : Nat) (alloc : Nat → Bool) (live : Nat → Prop) (start stop : Nat) :
    Prop where
  ordered : start ≤ stop
  fits : stop ≤ start + size
  inside : ∀ entry, live entry → start ≤ entry ∧ entry < stop
  allocated : ∀ entry, live entry → alloc (entry % size) = true
  occupied : ∀ index < size, alloc index = true → ∃ entry, live entry ∧ entry % size = index

namespace Ring

variable {alloc : Nat → Bool} {live : Nat → Prop} {start stop : Nat}

/-- An empty ring. -/
theorem empty (size start : Nat) (free : ∀ index, alloc index = false) :
    Ring size alloc (fun _ => False) start start where
  ordered := Nat.le_refl _
  fits := Nat.le_add_right _ _
  inside _ := False.elim
  allocated _ := False.elim
  occupied index _ set := by simp [free] at set

/-- Within the turn from `start` on, a slot is allocated when its entry is live. -/
theorem alloc_iff (ring : Ring size alloc live start stop) {entry : Nat} (after : start ≤ entry)
    (before : entry < start + size) : alloc (entry % size) = true ↔ live entry := by
  refine ⟨fun set => ?_, ring.allocated entry⟩
  obtain ⟨other, isLive, same⟩ := ring.occupied _ (Nat.mod_lt _ (by omega)) set
  obtain ⟨otherAfter, otherBefore⟩ := ring.inside other isLive
  have fits := ring.fits
  rwa [← eq_of_slot _ _ otherAfter (by omega) after before same]

/-- The ring with its entries named otherwise. -/
theorem congr (ring : Ring size alloc live start stop) (other : Nat → Prop)
    (same : ∀ entry, live entry ↔ other entry) : Ring size alloc other start stop := by
  have equal : live = other := funext fun entry => propext (same entry)
  rwa [← equal]

/-- The ring seen from a later first entry, if none is lost. -/
theorem advance (ring : Ring size alloc live start stop) {first : Nat} (ordered : start ≤ first)
    (before : first ≤ stop) (rest : ∀ entry, live entry → first ≤ entry) :
    Ring size alloc live first stop where
  ordered := before
  fits := by
    have fits := ring.fits
    omega
  inside entry isLive := ⟨rest entry isLive, (ring.inside entry isLive).2⟩
  allocated := ring.allocated
  occupied := ring.occupied

/-- One clock edge: some entries are freed, and `number` new ones are reserved behind
the last. -/
theorem step (ring : Ring size alloc live start stop) (number : Nat) (reset wen : Nat → Bool)
    (room : stop + number ≤ start + size)
    (written : ∀ index < size, wen index = true ↔
      ∃ entry, stop ≤ entry ∧ entry < stop + number ∧ entry % size = index) :
    Ring size (fun index => wen index || (!reset index && alloc index))
      (fun entry => stop ≤ entry ∧ entry < stop + number ∨
        live entry ∧ reset (entry % size) = false) start (stop + number) where
  ordered := Nat.le_add_right_of_le ring.ordered
  fits := room
  inside entry isLive := by
    have ordered := ring.ordered
    rcases isLive with ⟨after, before⟩ | ⟨isLive, -⟩
    · omega
    · have inside := ring.inside entry isLive
      omega
  allocated entry isLive := by
    rcases isLive with ⟨after, before⟩ | ⟨isLive, kept⟩
    · have bounded : entry % size < size := Nat.mod_lt _ (by
        have ordered := ring.ordered
        omega)
      simp [(written _ bounded).mpr ⟨entry, after, before, rfl⟩]
    · simp [kept, ring.allocated entry isLive]
  occupied index bounded set := by
    simp only [Bool.or_eq_true, Bool.and_eq_true, Bool.not_eq_true'] at set
    rcases set with new | ⟨kept, old⟩
    · obtain ⟨entry, after, before, slot⟩ := (written index bounded).mp new
      exact ⟨entry, .inl ⟨after, before⟩, slot⟩
    · obtain ⟨entry, isLive, slot⟩ := ring.occupied index bounded old
      exact ⟨entry, .inr ⟨isLive, by rwa [slot]⟩, slot⟩

end Ring

section Rank

/-- How many entries before this one have its port. -/
def rank (port : Nat → Nat) (entry : Nat) : Nat := Nat.count (fun other => port other = port entry) entry

variable {port : Nat → Nat}

/-- Later entries of a port have higher ranks. -/
theorem rank_lt_rank {left right : Nat} (before : left < right) (same : port left = port right) :
    rank port left < rank port right := by
  rw [rank, rank, same]
  exact Nat.count_strict_mono (p := fun other => port other = port right) same before

theorem rank_inj {left right : Nat} (same : port left = port right)
    (equal : rank port left = rank port right) : left = right := by
  rcases Nat.lt_trichotomy left right with before | here | after
  · have := rank_lt_rank before same
    omega
  · exact here
  · have := rank_lt_rank after same.symm
    omega

/-- The entries of a port have all ranks below their number. -/
theorem exists_rank {stop number p : Nat}
    (below : number < Nat.count (fun entry => port entry = p) stop) :
    ∃ entry < stop, port entry = p ∧ rank port entry = number := by
  induction stop with
  | zero => simp at below
  | succ stop inductionHypothesis =>
      rw [Nat.count_succ] at below
      rcases Nat.lt_or_ge number (Nat.count (fun entry => port entry = p) stop) with earlier | last
      · obtain ⟨entry, before, here, counted⟩ := inductionHypothesis earlier
        exact ⟨entry, Nat.lt_succ_of_lt before, here, counted⟩
      · split at below
        · refine ⟨stop, Nat.lt_succ_self _, ‹_›, ?_⟩
          rw [rank, ‹port stop = p›]
          omega
        · omega

/-- An entry of a port precedes the count of that port. -/
theorem rank_lt_count {entry stop : Nat} (before : entry < stop) :
    rank port entry < Nat.count (fun other => port other = port entry) stop :=
  Nat.count_strict_mono (p := fun other => port other = port entry) rfl before

/-- Counting in the first items of a list. -/
theorem countP_take {α : Type} {list : List α} {value : Nat → α} {holds : α → Bool} {number : Nat}
    (each : ∀ index < number, list[index]? = some (value index)) :
    (list.take number).countP holds = Nat.count (fun index => holds (value index) = true) number := by
  induction number with
  | zero => simp
  | succ number inductionHypothesis =>
      rw [List.take_add_one, each number (Nat.lt_succ_self _), Option.toList_some,
        List.countP_append, Nat.count_succ,
        inductionHypothesis fun index before => each index (Nat.lt_succ_of_lt before),
        List.countP_singleton]

/-- An item that is kept comes after those kept before it. -/
theorem getElem?_filter_countP {α : Type} {list : List α} {holds : α → Bool} {index : Nat} {item : α}
    (there : list[index]? = some item) (kept : holds item = true) :
    (list.filter holds)[(list.take index).countP holds]? = some item := by
  induction list generalizing index with
  | nil => simp at there
  | cons first rest inductionHypothesis =>
      cases index with
      | zero =>
          obtain rfl : first = item := by simpa using there
          simp [kept]
      | succ index =>
          have later := inductionHypothesis (by simpa using there)
          cases firstKept : holds first with
          | false => simpa [List.filter_cons, firstKept] using later
          | true => simpa [List.filter_cons, firstKept] using later

end Rank

end Dynamatic.Clocked
