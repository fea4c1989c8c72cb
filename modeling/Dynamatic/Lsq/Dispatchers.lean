import Dynamatic.Lsq.Operators

/-!
# The port dispatchers

Addresses and data come over ports, each of which serves the queue entries
allocated for it in order. The port-to-queue dispatcher hands the token on a port
to the oldest entry that waits for it; the queue-to-port dispatcher offers what
the oldest entry of a port holds and releases the entry once it is taken. The
definitions follow `dispatchers.py`.

`Serves` states what a queue's registers stand for, in terms of the entries ever
allocated, numbered in order. Over it both dispatchers serve the k-th entry of a
port with its k-th token.
-/

namespace Dynamatic.Lsq

open Dynamatic.Clocked

/-- The inputs a dispatcher has from its queue. -/
structure Entries where
  numPorts : Nat
  numEntries : Nat
  alloc : Nat → Bool
  payloadValid : Nat → Bool
  portIdx : Nat → Nat
  headOh : Nat → Bool

namespace Entries

variable (entries : Entries)

def entryPortIdxOh (entry port : Nat) : Bool :=
  if entries.numPorts = 1 then decide (port = 0) else bitsToOH (entries.portIdx entry) port

section PortToQueue

def entryPtqReady (entry : Nat) : Bool := entries.alloc entry && !entries.payloadValid entry

def entryWaitingForPort (entry port : Nat) : Bool :=
  entries.entryPtqReady entry && entries.entryPortIdxOh entry port

def portReady (port : Nat) : Bool :=
  reduceOr entries.numEntries fun entry => entries.entryWaitingForPort entry port

variable (portValid : Nat → Bool)

def entryPortOptions (entry port : Nat) : Bool :=
  entries.entryWaitingForPort entry port && portValid port

def entryPortTransfer (entry port : Nat) : Bool :=
  cyclicPriorityMasking entries.numEntries
    (fun entry => entries.entryPortOptions portValid entry port) entries.headOh entry

def entryWen (entry : Nat) : Bool :=
  reduceOr entries.numPorts (entries.entryPortTransfer portValid entry)

def entryPayload {width : Nat} (portPayload : Nat → BitVec width) (entry : Nat) : BitVec width :=
  mux1H entries.numPorts (entries.entryPortIdxOh entry) portPayload

end PortToQueue

section QueueToPort

def entryAllocatedForPort (entry port : Nat) : Bool :=
  entries.alloc entry && entries.entryPortIdxOh entry port

def oldestEntryAllocatedPerPort (entry port : Nat) : Bool :=
  cyclicPriorityMasking entries.numEntries
    (fun entry => entries.entryAllocatedForPort entry port) entries.headOh entry

def portPayload {width : Nat} (payload : Nat → BitVec width) (port : Nat) : BitVec width :=
  mux1H entries.numEntries (fun entry => entries.oldestEntryAllocatedPerPort entry port) payload

def entryWaitingForPortValid (entry port : Nat) : Bool :=
  entries.oldestEntryAllocatedPerPort entry port && entries.payloadValid entry

def portValid (port : Nat) : Bool :=
  reduceOr entries.numEntries fun entry => entries.entryWaitingForPortValid entry port

def entryReset (portReady : Nat → Bool) (entry : Nat) : Bool :=
  reduceOr entries.numPorts fun port => entries.entryWaitingForPortValid entry port && portReady port

end QueueToPort

/-- The entries of a queue, each allocated for a port. -/
structure Serves (entries : Entries) (port : Nat → Nat) (live : Nat → Prop) (start stop : Nat) :
    Prop where
  ring : Ring entries.numEntries entries.alloc live start stop
  headOh : entries.headOh = bitsToOH (start % entries.numEntries)
  ports : ∀ entry, live entry → port entry < entries.numPorts ∧
    entries.portIdx (entry % entries.numEntries) = port entry

section Specification

variable {entries} {port : Nat → Nat} {live : Nat → Prop} {start stop entry p : Nat}

theorem Serves.slot_lt (serves : entries.Serves port live start stop) (isLive : live entry) :
    entry % entries.numEntries < entries.numEntries := by
  obtain ⟨after, before⟩ := serves.ring.inside entry isLive
  have fits := serves.ring.fits
  exact Nat.mod_lt _ (by omega)

theorem Serves.entryPortIdxOh (serves : entries.Serves port live start stop) (isLive : live entry)
    (bounded : p < entries.numPorts) :
    entries.entryPortIdxOh (entry % entries.numEntries) p = decide (port entry = p) := by
  obtain ⟨portBounded, portIdx⟩ := serves.ports entry isLive
  rw [Entries.entryPortIdxOh, bitsToOH, portIdx]
  split
  · rw [decide_eq_decide]
    omega
  · rfl

/-- Among the entries that want something, the mask keeps the oldest live one. -/
theorem Serves.oldest (serves : entries.Serves port live start stop) {want : Nat → Bool}
    (wanted : ∀ index < entries.numEntries, want index = true → entries.alloc index = true)
    (isLive : live entry) :
    cyclicPriorityMasking entries.numEntries want entries.headOh (entry % entries.numEntries) =
        true ↔
      want (entry % entries.numEntries) = true ∧
        ∀ earlier, live earlier → earlier < entry → want (earlier % entries.numEntries) = false := by
  obtain ⟨after, before⟩ := serves.ring.inside entry isLive
  have fits := serves.ring.fits
  rw [serves.headOh, cyclicPriorityMasking_oldest after (by omega)]
  refine and_congr_right fun _ => ⟨fun clear earlier earlierLive less => ?_, fun clear earlier least less => ?_⟩
  · exact clear earlier (serves.ring.inside earlier earlierLive).1 less
  · cases asks : want (earlier % entries.numEntries) with
    | false => rfl
    | true =>
        have allocated := wanted _ (Nat.mod_lt _ (by omega)) asks
        have earlierLive := (serves.ring.alloc_iff least (by omega)).mp allocated
        rw [clear earlier earlierLive less] at asks
        cases asks

section PortToQueue

variable {portValid : Nat → Bool} {count : Nat → Nat}

/-- The tokens taken from each port so far went to its first entries, and the entries
without one are still there. -/
structure Delivered (entries : Entries) (port : Nat → Nat) (live : Nat → Prop) (stop : Nat)
    (count : Nat → Nat) : Prop where
  valid : ∀ entry, live entry →
    entries.payloadValid (entry % entries.numEntries) = decide (rank port entry < count (port entry))
  waits : ∀ entry < stop, count (port entry) ≤ rank port entry → live entry

variable (serves : entries.Serves port live start stop)
  (delivered : entries.Delivered port live stop count)

include serves delivered

theorem entryWaitingForPort_eq (isLive : live entry) (bounded : p < entries.numPorts) :
    entries.entryWaitingForPort (entry % entries.numEntries) p =
      (decide (count (port entry) ≤ rank port entry) && decide (port entry = p)) := by
  rw [entryWaitingForPort, entryPtqReady, serves.ring.allocated entry isLive,
    delivered.valid entry isLive, serves.entryPortIdxOh isLive bounded]
  simp [← decide_not]

/-- A token goes to the entry whose turn it is. -/
theorem entryPortTransfer_eq (isLive : live entry) (bounded : p < entries.numPorts) :
    entries.entryPortTransfer portValid (entry % entries.numEntries) p =
      (decide (port entry = p) && portValid p && decide (rank port entry = count p)) := by
  rw [Bool.eq_iff_iff, entryPortTransfer, serves.oldest ?_ isLive]
  · simp only [entryPortOptions, Bool.and_eq_true, Bool.and_eq_false_imp, decide_eq_true_eq,
      entryWaitingForPort_eq serves delivered isLive bounded]
    constructor
    · rintro ⟨⟨⟨waiting, rfl⟩, valid⟩, clear⟩
      refine ⟨⟨rfl, valid⟩, ?_⟩
      by_contra notTurn
      obtain ⟨first, before, same, turn⟩ : ∃ first < entry, port first = port entry ∧
          rank port first = count (port entry) :=
        exists_rank (by rw [rank] at waiting notTurn; omega)
      have inside := serves.ring.inside entry isLive
      have firstLive : live first := delivered.waits first (by omega) (by rw [same, turn])
      have idle := clear first firstLive before
      rw [entryWaitingForPort_eq serves delivered firstLive bounded] at idle
      simp [same, turn, valid] at idle
    · rintro ⟨⟨rfl, valid⟩, turn⟩
      refine ⟨⟨⟨by omega, rfl⟩, valid⟩, fun earlier earlierLive before waiting => ?_⟩
      rw [entryWaitingForPort_eq serves delivered earlierLive bounded] at waiting
      simp only [Bool.and_eq_true, decide_eq_true_eq] at waiting
      obtain ⟨least, same⟩ := waiting
      have less := rank_lt_rank before same
      rw [same] at least
      omega
  · intro index _ asks
    simp only [entryPortOptions, entryWaitingForPort, entryPtqReady, Bool.and_eq_true] at asks
    exact asks.1.1.1

theorem entryWen_eq (isLive : live entry) :
    entries.entryWen portValid (entry % entries.numEntries) =
      (portValid (port entry) && decide (rank port entry = count (port entry))) := by
  have bounded := (serves.ports entry isLive).1
  rw [Bool.eq_iff_iff, entryWen, reduceOr_eq_true]
  constructor
  · rintro ⟨p, portBounded, transfers⟩
    rw [entryPortTransfer_eq serves delivered isLive portBounded] at transfers
    simp only [Bool.and_eq_true, decide_eq_true_eq] at transfers ⊢
    obtain ⟨⟨rfl, valid⟩, turn⟩ := transfers
    exact ⟨valid, turn⟩
  · intro turn
    refine ⟨port entry, bounded, ?_⟩
    rw [entryPortTransfer_eq serves delivered isLive bounded]
    simpa using turn

/-- A port is ready while entries allocated for it wait. -/
theorem portReady_eq (bounded : p < entries.numPorts) :
    entries.portReady p = decide (count p < Nat.count (fun entry => port entry = p) stop) := by
  rw [Bool.eq_iff_iff, portReady, reduceOr_eq_true, decide_eq_true_eq]
  constructor
  · rintro ⟨index, inside, waiting⟩
    have allocated : entries.alloc index = true := by
      simp only [entryWaitingForPort, entryPtqReady, Bool.and_eq_true] at waiting
      exact waiting.1.1
    obtain ⟨entry, isLive, rfl⟩ := serves.ring.occupied index inside allocated
    rw [entryWaitingForPort_eq serves delivered isLive bounded] at waiting
    simp only [Bool.and_eq_true, decide_eq_true_eq] at waiting
    obtain ⟨waits, rfl⟩ := waiting
    exact Nat.lt_of_le_of_lt waits (rank_lt_count (serves.ring.inside entry isLive).2)
  · intro more
    obtain ⟨entry, before, rfl, turn⟩ := exists_rank more
    have isLive := delivered.waits entry before (by omega)
    refine ⟨_, serves.slot_lt isLive, ?_⟩
    rw [entryWaitingForPort_eq serves delivered isLive bounded]
    simp [turn]

/-- After a cycle, the tokens taken have still gone to the first entries of each
port. -/
theorem valid_step {count' : Nat → Nat} (isLive : live entry)
    (counted : ∀ p < entries.numPorts,
      count' p = count p + (portValid p && entries.portReady p).toNat) :
    (entries.entryWen portValid (entry % entries.numEntries) ||
        entries.payloadValid (entry % entries.numEntries)) =
      decide (rank port entry < count' (port entry)) := by
  have bounded := (serves.ports entry isLive).1
  rw [entryWen_eq serves delivered isLive, delivered.valid entry isLive, counted _ bounded,
    portReady_eq serves delivered bounded, Bool.eq_iff_iff]
  have total : rank port entry < Nat.count (fun other => port other = port entry) stop :=
    rank_lt_count (serves.ring.inside entry isLive).2
  cases valid : portValid (port entry) with
  | false => simp
  | true =>
      by_cases more : count (port entry) < Nat.count (fun other => port other = port entry) stop
      · simp only [Bool.true_and, Bool.or_eq_true, decide_eq_true_eq, more, decide_true,
          Bool.toNat_true]
        omega
      · simp only [Bool.true_and, Bool.or_eq_true, decide_eq_true_eq, more, decide_false,
          Bool.toNat_false]
        omega

/-- No more tokens are taken from a port than entries are allocated for it. -/
theorem count_step {count' : Nat → Nat} (bounded : p < entries.numPorts)
    (counted : ∀ p < entries.numPorts,
      count' p = count p + (portValid p && entries.portReady p).toNat)
    (total : count p ≤ Nat.count (fun entry => port entry = p) stop) :
    count' p ≤ Nat.count (fun entry => port entry = p) stop := by
  rw [counted p bounded, portReady_eq serves delivered bounded]
  cases portValid p with
  | false => simpa using total
  | true =>
      by_cases more : count p < Nat.count (fun entry => port entry = p) stop
      · simp only [more, decide_true, Bool.and_self, Bool.toNat_true]
        omega
      · simpa [more] using total

omit delivered in
theorem entryPayload_eq {width : Nat} {payload : Nat → BitVec width} (isLive : live entry) :
    entries.entryPayload payload (entry % entries.numEntries) = payload (port entry) := by
  have bounded := (serves.ports entry isLive).1
  refine mux1H_of_unique bounded ?_ fun p portBounded selects => ?_
  · rw [serves.entryPortIdxOh isLive bounded]
    simp
  · rw [serves.entryPortIdxOh isLive portBounded, decide_eq_true_eq] at selects
    exact selects.symm

omit serves delivered in
/-- Only allocated entries are written. -/
theorem entryWen_of_free {portValid : Nat → Bool} {index : Nat}
    (free : entries.alloc index = false) : entries.entryWen portValid index = false := by
  rw [entryWen, reduceOr_eq_false]
  intro p _
  refine Bool.eq_false_iff.mpr fun masked => ?_
  have set := (cyclicPriorityMasking_le masked).2
  simp [entryPortOptions, entryWaitingForPort, entryPtqReady, free] at set

/-- A slot keeps the payload of the last entry that got one. -/
theorem payload_step {width : Nat} {count' : Nat → Nat} {payload : Nat → BitVec width}
    {register : Nat → BitVec width} {value : Nat → BitVec width}
    (counted : ∀ p < entries.numPorts,
      count' p = count p + (portValid p && entries.portReady p).toNat)
    (someSlot : 0 < entries.numEntries) (ports : ∀ entry < stop, port entry < entries.numPorts)
    (stream : ∀ entry, live entry → portValid (port entry) = true →
      rank port entry = count (port entry) → payload (port entry) = value entry)
    (held : ∀ entry < stop, rank port entry < count (port entry) →
      (entry + entries.numEntries < stop →
        count (port (entry + entries.numEntries)) ≤ rank port (entry + entries.numEntries)) →
      register (entry % entries.numEntries) = value entry)
    (before : entry < stop) (known : rank port entry < count' (port entry))
    (last : entry + entries.numEntries < stop →
      count' (port (entry + entries.numEntries)) ≤ rank port (entry + entries.numEntries)) :
    (if entries.entryWen portValid (entry % entries.numEntries) then
        entries.entryPayload payload (entry % entries.numEntries)
      else register (entry % entries.numEntries)) = value entry := by
  have fits := serves.ring.fits
  have grows : ∀ other < stop, count (port other) ≤ count' (port other) := fun other inside => by
    rw [counted _ (ports other inside)]
    exact Nat.le_add_right _ _
  -- The entry that is written, if any, is this one: an earlier one has left the ring, and
  -- a later one would have its payload now.
  have only : ∀ other, live other → other % entries.numEntries = entry % entries.numEntries →
      rank port other < count' (port other) → other = entry := by
    intro other otherLive same otherKnown
    obtain ⟨after, otherBefore⟩ := serves.ring.inside other otherLive
    rcases Nat.lt_or_ge entry start with gone | inside
    · rcases Nat.lt_or_ge (entry + entries.numEntries) start with wayGone | nextTurn
      · have notLive : ¬ live (entry + entries.numEntries) := fun isLive => by
          have := (serves.ring.inside _ isLive).1
          omega
        have counts := last (by omega)
        have grown := grows (entry + entries.numEntries) (by omega)
        exact absurd (delivered.waits _ (by omega) (by omega)) notLive
      · have equal : other = entry + entries.numEntries :=
          eq_of_slot entries.numEntries _ after (by omega) nextTurn (by omega)
            (by rw [same, Nat.add_mod_right])
        subst equal
        have := last otherBefore
        omega
    · exact eq_of_slot _ _ after (by omega) inside (by omega) same
  cases written : entries.entryWen portValid (entry % entries.numEntries) with
  | true =>
      have allocated : entries.alloc (entry % entries.numEntries) = true := by
        cases free : entries.alloc (entry % entries.numEntries) with
        | true => rfl
        | false =>
            rw [entryWen_of_free free] at written
            cases written
      obtain ⟨other, otherLive, same⟩ :=
        serves.ring.occupied _ (Nat.mod_lt _ someSlot) allocated
      have otherValid := valid_step serves delivered otherLive counted
      rw [same, written, Bool.true_or] at otherValid
      obtain rfl := only other otherLive same (of_decide_eq_true otherValid.symm)
      have turn : entries.entryWen portValid (other % entries.numEntries) = _ :=
        entryWen_eq serves delivered otherLive
      rw [written, eq_comm, Bool.and_eq_true, decide_eq_true_eq] at turn
      rw [if_pos rfl, entryPayload_eq serves otherLive]
      exact stream other otherLive turn.1 turn.2
  | false =>
      rw [if_neg (by simp)]
      refine held entry before ?_ fun inside => (grows _ inside).trans (last inside)
      by_contra unknown
      have isLive := delivered.waits entry before (by omega)
      have valid := valid_step serves delivered isLive counted
      rw [written, Bool.false_or, delivered.valid entry isLive, decide_eq_decide] at valid
      omega

end PortToQueue

section QueueToPort

variable {portReady : Nat → Bool} {given : Nat → Nat}

variable (serves : entries.Serves port live start stop)
  (remaining : ∀ entry, live entry ↔ entry < stop ∧ given (port entry) ≤ rank port entry)

include serves remaining

/-- The oldest entry of a port is the one whose turn it is. -/
theorem oldestEntryAllocatedPerPort_eq (isLive : live entry) (bounded : p < entries.numPorts) :
    entries.oldestEntryAllocatedPerPort (entry % entries.numEntries) p =
      (decide (port entry = p) && decide (rank port entry = given p)) := by
  have allocatedFor : ∀ other, live other →
      entries.entryAllocatedForPort (other % entries.numEntries) p = decide (port other = p) :=
    fun other otherLive => by
      rw [entryAllocatedForPort, serves.ring.allocated other otherLive,
        serves.entryPortIdxOh otherLive bounded, Bool.true_and]
  have inside := serves.ring.inside entry isLive
  have left := ((remaining entry).mp isLive).2
  rw [Bool.eq_iff_iff, oldestEntryAllocatedPerPort, serves.oldest ?_ isLive, allocatedFor _ isLive]
  · simp only [Bool.and_eq_true, decide_eq_true_eq]
    refine and_congr_right fun here => ?_
    subst here
    constructor
    · intro clear
      by_contra notTurn
      obtain ⟨first, before, same, turn⟩ : ∃ first < entry, port first = port entry ∧
          rank port first = given (port entry) :=
        exists_rank (by rw [rank] at left notTurn; omega)
      have firstLive : live first := (remaining first).mpr ⟨by omega, by rw [same, turn]⟩
      have idle := clear first firstLive before
      simp [allocatedFor first firstLive, same] at idle
    · intro turn earlier earlierLive before
      rw [allocatedFor earlier earlierLive, decide_eq_false_iff_not]
      intro same
      have less := rank_lt_rank before same
      have least := ((remaining earlier).mp earlierLive).2
      rw [same] at least
      omega
  · intro index _ asks
    simp only [entryAllocatedForPort, Bool.and_eq_true] at asks
    exact asks.1

theorem entryReset_eq (isLive : live entry) :
    entries.entryReset portReady (entry % entries.numEntries) =
      (entries.payloadValid (entry % entries.numEntries) && portReady (port entry) &&
        decide (rank port entry = given (port entry))) := by
  have bounded := (serves.ports entry isLive).1
  rw [Bool.eq_iff_iff, entryReset, reduceOr_eq_true]
  simp only [entryWaitingForPortValid, Bool.and_eq_true]
  constructor
  · rintro ⟨p, portBounded, ⟨oldest, valid⟩, ready⟩
    rw [oldestEntryAllocatedPerPort_eq serves remaining isLive portBounded] at oldest
    simp only [Bool.and_eq_true, decide_eq_true_eq] at oldest
    obtain ⟨rfl, turn⟩ := oldest
    exact ⟨⟨valid, ready⟩, decide_eq_true turn⟩
  · rintro ⟨⟨valid, ready⟩, turn⟩
    refine ⟨port entry, bounded, ⟨?_, valid⟩, ready⟩
    rw [oldestEntryAllocatedPerPort_eq serves remaining isLive bounded]
    simpa using turn

theorem portValid_iff (bounded : p < entries.numPorts) :
    entries.portValid p = true ↔ ∃ entry, live entry ∧ port entry = p ∧
      rank port entry = given p ∧ entries.payloadValid (entry % entries.numEntries) = true := by
  rw [portValid, reduceOr_eq_true]
  simp only [entryWaitingForPortValid, Bool.and_eq_true]
  constructor
  · rintro ⟨index, inside, oldest, valid⟩
    have allocated : entries.alloc index = true := by
      have set := (cyclicPriorityMasking_le oldest).2
      simp only [entryAllocatedForPort, Bool.and_eq_true] at set
      exact set.1
    obtain ⟨entry, isLive, rfl⟩ := serves.ring.occupied index inside allocated
    rw [oldestEntryAllocatedPerPort_eq serves remaining isLive bounded] at oldest
    simp only [Bool.and_eq_true, decide_eq_true_eq] at oldest
    exact ⟨entry, isLive, oldest.1, oldest.2, valid⟩
  · rintro ⟨entry, isLive, here, turn, valid⟩
    refine ⟨_, serves.slot_lt isLive, ?_, valid⟩
    rw [oldestEntryAllocatedPerPort_eq serves remaining isLive bounded]
    simp [here, turn]

/-- A port shows what the entry whose turn it is holds. -/
theorem portPayload_eq {width : Nat} {payload : Nat → BitVec width} (isLive : live entry)
    (turn : rank port entry = given (port entry)) :
    entries.portPayload payload (port entry) = payload (entry % entries.numEntries) := by
  have bounded := (serves.ports entry isLive).1
  refine mux1H_of_unique (serves.slot_lt isLive) ?_ fun index inside oldest => ?_
  · rw [oldestEntryAllocatedPerPort_eq serves remaining isLive bounded]
    simp [turn]
  · have allocated : entries.alloc index = true := by
      have set := (cyclicPriorityMasking_le oldest).2
      simp only [entryAllocatedForPort, Bool.and_eq_true] at set
      exact set.1
    obtain ⟨other, otherLive, rfl⟩ := serves.ring.occupied index inside allocated
    rw [oldestEntryAllocatedPerPort_eq serves remaining otherLive bounded] at oldest
    simp only [Bool.and_eq_true, decide_eq_true_eq] at oldest
    rw [rank_inj oldest.1 (by rw [oldest.2, turn])]

/-- After a cycle, the entries left are those whose turn is still to come. -/
theorem remaining_step {given' : Nat → Nat} (isLive : live entry)
    (counted : ∀ p < entries.numPorts,
      given' p = given p + (entries.portValid p && portReady p).toNat) :
    entries.entryReset portReady (entry % entries.numEntries) = false ↔
      given' (port entry) ≤ rank port entry := by
  have bounded := (serves.ports entry isLive).1
  have left := ((remaining entry).mp isLive).2
  rw [entryReset_eq serves remaining isLive, counted _ bounded]
  cases ready : portReady (port entry) with
  | false => simpa using left
  | true =>
      by_cases turn : rank port entry = given (port entry)
      · have shown : entries.portValid (port entry) = true ↔
            entries.payloadValid (entry % entries.numEntries) = true := by
          rw [portValid_iff serves remaining bounded]
          refine ⟨?_, fun valid => ⟨entry, isLive, rfl, turn, valid⟩⟩
          rintro ⟨other, -, here, otherTurn, valid⟩
          rwa [rank_inj here (by rw [otherTurn, turn])] at valid
        cases valid : entries.payloadValid (entry % entries.numEntries) with
        | false =>
            have quiet : entries.portValid (port entry) = false := by
              rw [← Bool.not_eq_true, shown, valid]
              simp
            simpa [quiet] using left
        | true =>
            have taken : entries.portValid (port entry) = true := shown.mpr valid
            simp [taken, turn]
      · simp only [turn, decide_false, Bool.and_false, true_iff, Bool.and_true]
        have := Bool.toNat_le (entries.portValid (port entry))
        omega

end QueueToPort

/-- What a port-to-queue dispatcher has delivered: tokens to the first entries of each
port, none of them to an entry younger than `seen`, and their payloads in the slots. -/
structure Delivery {width : Nat} (entries : Entries) (register : Nat → BitVec width)
    (port : Nat → Nat) (live : Nat → Prop) (stop seen : Nat) (count : Nat → Nat)
    (value : Nat → BitVec width) : Prop where
  delivered : entries.Delivered port live stop count
  total : ∀ p < entries.numPorts, count p ≤ Nat.count (fun entry => port entry = p) seen
  held : ∀ entry < stop, rank port entry < count (port entry) →
    (entry + entries.numEntries < stop →
      count (port (entry + entries.numEntries)) ≤ rank port (entry + entries.numEntries)) →
    register (entry % entries.numEntries) = value entry

section Delivery

variable {width seen : Nat} {register : Nat → BitVec width} {count : Nat → Nat}
  {value : Nat → BitVec width}

/-- Only entries that were there a cycle before have their token. -/
theorem Delivery.lt_seen (delivery : entries.Delivery register port live stop seen count value)
    (bounded : port entry < entries.numPorts) (known : rank port entry < count (port entry)) :
    entry < seen := by
  by_contra young
  have total := delivery.total _ bounded
  have counts := Nat.count_monotone (fun other => port other = port entry) (Nat.le_of_not_lt young)
  rw [rank] at known
  omega

/-- The payload of an entry that is still there. -/
theorem Delivery.payload (delivery : entries.Delivery register port live stop seen count value)
    (serves : entries.Serves port live start stop) (isLive : live entry)
    (known : rank port entry < count (port entry)) :
    register (entry % entries.numEntries) = value entry := by
  obtain ⟨after, before⟩ := serves.ring.inside entry isLive
  have fits := serves.ring.fits
  exact delivery.held entry before known fun again => by omega

/-- One clock edge: the tokens on the ports are handed out, some of the entries that have
theirs leave, and `number` new ones are allocated. -/
theorem Delivery.step (delivery : entries.Delivery register port live stop seen count value)
    (serves : entries.Serves port live start stop) (seenLe : seen ≤ stop)
    (someSlot : 0 < entries.numEntries) {number first : Nat} {count' : Nat → Nat}
    {portValid wen : Nat → Bool} {live' : Nat → Prop} {payload : Nat → BitVec width}
    {entries' : Entries} (sameEntries : entries'.numEntries = entries.numEntries)
    (samePorts : entries'.numPorts = entries.numPorts)
    (valid' : ∀ index, entries'.payloadValid index =
      (!wen index && (entries.entryWen portValid index || entries.payloadValid index)))
    (written : ∀ index < entries.numEntries, wen index = true ↔
      ∃ entry, stop ≤ entry ∧ entry < stop + number ∧ entry % entries.numEntries = index)
    (room : stop + number ≤ first + entries.numEntries) (oldest : ∀ entry, live' entry → first ≤ entry)
    (stays : ∀ entry, live' entry → stop ≤ entry ∧ entry < stop + number ∨ live entry)
    (waits : ∀ entry, live entry → count' (port entry) ≤ rank port entry → live' entry)
    (enters : ∀ entry, stop ≤ entry → entry < stop + number → live' entry)
    (ports : ∀ entry < stop + number, port entry < entries.numPorts)
    (counted : ∀ p < entries.numPorts,
      count' p = count p + (portValid p && entries.portReady p).toNat)
    (stream : ∀ entry, live entry → portValid (port entry) = true →
      rank port entry = count (port entry) → entries.portReady (port entry) = true →
      payload (port entry) = value entry) :
    entries'.Delivery
      (fun index => if entries.entryWen portValid index then entries.entryPayload payload index
        else register index)
      port live' (stop + number) stop count' value := by
  have total : ∀ p < entries.numPorts, count' p ≤ Nat.count (fun entry => port entry = p) stop :=
    fun p bounded => count_step serves delivery.delivered bounded counted
      ((delivery.total p bounded).trans (Nat.count_monotone _ seenLe))
  have fresh : ∀ entry, stop ≤ entry → entry < stop + number →
      count' (port entry) ≤ rank port entry := fun entry after before =>
    (total _ (ports entry before)).trans (Nat.count_monotone _ after)
  refine ⟨⟨fun entry isLive => ?_, fun entry before uncounted => ?_⟩, fun p bounded => ?_,
    fun entry before known last => ?_⟩
  · rw [sameEntries, valid']
    rcases stays entry isLive with ⟨after, before⟩ | wasLive
    · have new : wen (entry % entries.numEntries) = true :=
        (written _ (Nat.mod_lt _ someSlot)).mpr ⟨entry, after, before, rfl⟩
      have unknown := fresh entry after before
      simp [new, Nat.not_lt.mpr unknown]
    · have old : wen (entry % entries.numEntries) = false := by
        refine Bool.eq_false_iff.mpr fun new => ?_
        obtain ⟨other, after, before, same⟩ := (written _ (Nat.mod_lt _ someSlot)).mp new
        have least := oldest entry isLive
        have inside := serves.ring.inside entry wasLive
        have equal := eq_of_slot entries.numEntries first (by omega) (by omega)
          least (by omega) same
        omega
      rw [old, Bool.not_false, Bool.true_and]
      exact valid_step serves delivery.delivered wasLive counted
  · rcases Nat.lt_or_ge entry stop with old | new
    · refine waits entry (delivery.delivered.waits entry old ?_) uncounted
      rw [counted _ (ports entry before)] at uncounted
      omega
    · exact enters entry new before
  · rw [samePorts] at bounded
    exact total p bounded
  · rw [sameEntries] at last ⊢
    have old : entry < stop := by
      by_contra new
      have := fresh entry (by omega) before
      omega
    refine payload_step serves delivery.delivered counted someSlot (fun other inside => ports other (by omega))
      (fun other otherLive valid turn => ?_) delivery.held old known fun inside => last (by omega)
    have inside := (serves.ring.inside other otherLive).2
    refine stream other otherLive valid turn ?_
    rw [portReady_eq serves delivery.delivered (ports other (by omega)), decide_eq_true_eq, ← turn]
    exact rank_lt_count inside

end Delivery

end Specification

end Entries

end Dynamatic.Lsq
