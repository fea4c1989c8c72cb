import Mathlib.Data.List.Chain
import Mathlib.Data.List.Perm.Basic
import Mathlib.Tactic.Ring

/-!
# Sorting by swaps of neighbours

Neighbours that are out of order change places until none are left. The relation that tells which
are out of order need not compare all elements: where only some elements have a key, neighbours are
compared when both have one, and an element without a key parts those before it from those after
it for good.
-/

namespace Dynamatic.Sorting

variable {α : Type} {outOfOrder : α → α → Bool} {list next : List α}

/-- Two neighbours that are out of order change places. -/
inductive NeighbourSwap (outOfOrder : α → α → Bool) : List α → List α → Prop
  | swap (before : List α) {a b : α} (after : List α) (disordered : outOfOrder a b = true) :
      NeighbourSwap outOfOrder (before ++ a :: b :: after) (before ++ b :: a :: after)

theorem NeighbourSwap.perm (swap : NeighbourSwap outOfOrder list next) : next.Perm list := by
  cases swap with
  | swap before after _ => exact (List.Perm.swap _ _ _).append_left before

theorem NeighbourSwap.cons (head : α) (swap : NeighbourSwap outOfOrder list next) :
    NeighbourSwap outOfOrder (head :: list) (head :: next) := by
  cases swap with
  | swap before after disordered => exact .swap (head :: before) after disordered

/-- The pairs that are out of order. -/
def inversions (outOfOrder : α → α → Bool) : List α → Nat
  | [] => 0
  | head :: rest => rest.countP (outOfOrder head) + inversions outOfOrder rest

/-- A swap puts one pair in order and leaves the others as they are. -/
theorem NeighbourSwap.inversions_lt
    (asymmetric : ∀ a b, outOfOrder a b = true → outOfOrder b a = false)
    (swap : NeighbourSwap outOfOrder list next) :
    inversions outOfOrder next < inversions outOfOrder list := by
  cases swap with
  | @swap before a b after disordered =>
    induction before with
    | nil =>
      have other := asymmetric a b disordered
      simp only [List.nil_append, inversions, List.countP_cons, disordered, other]
      simp only [if_true, if_false, Bool.false_eq_true]
      omega
    | cons head before ih =>
      have same : (before ++ b :: a :: after).countP (outOfOrder head) =
          (before ++ a :: b :: after).countP (outOfOrder head) :=
        ((List.Perm.swap a b after).append_left before).countP_eq _
      simp only [List.cons_append, inversions, same]
      omega

theorem inversions_le (list : List α) : inversions outOfOrder list ≤ list.length ^ 2 := by
  induction list with
  | nil => exact Nat.zero_le _
  | cons head rest ih =>
    have count := List.countP_le_length (p := outOfOrder head) (l := rest)
    have square : (rest.length + 1) ^ 2 = rest.length ^ 2 + 2 * rest.length + 1 := by ring
    simp only [inversions, List.length_cons, square]
    omega

/-! ## Keys -/

variable {key : α → Option Nat}

/-- Two elements with keys are in order. -/
def InOrder (key : α → Option Nat) (a b : α) : Prop :=
  ∀ keyA keyB, key a = some keyA → key b = some keyB → keyA ≤ keyB

/-- All elements with keys are in order. -/
def Ordered (key : α → Option Nat) (list : List α) : Prop :=
  list.Pairwise (InOrder key)

/-- Elements with an element that has no key between them are in order. -/
def OrderedApart (key : α → Option Nat) (list : List α) : Prop :=
  ∀ a other b, [a, other, b].Sublist list → key other = none → InOrder key a b

theorem InOrder.of_left {a b : α} (keyless : key a = none) : InOrder key a b :=
  fun _ _ isA => absurd (isA.symm.trans keyless) nofun

theorem InOrder.of_right {a b : α} (keyless : key b = none) : InOrder key a b :=
  fun _ _ _ isB => absurd (isB.symm.trans keyless) nofun

/-- An element that has one without a key somewhere before it. -/
private def Beyond (key : α → Option Nat) (list : List α) (b : α) : Prop :=
  ∃ other, key other = none ∧ [other, b].Sublist list

private theorem beyond_cons {head b : α} :
    Beyond key (head :: list) b ↔ key head = none ∧ b ∈ list ∨ Beyond key list b := by
  constructor
  · rintro ⟨other, keyless, sublist⟩
    cases sublist with
    | cons _ sublist => exact .inr ⟨other, keyless, sublist⟩
    | cons_cons _ sublist => exact .inl ⟨keyless, List.singleton_sublist.mp sublist⟩
  · rintro (⟨keyless, mem⟩ | ⟨other, keyless, sublist⟩)
    · exact ⟨head, keyless, (List.singleton_sublist.mpr mem).cons_cons head⟩
    · exact ⟨other, keyless, sublist.cons head⟩

private theorem orderedApart_cons {head : α} :
    OrderedApart key (head :: list) ↔
      (∀ b, Beyond key list b → InOrder key head b) ∧ OrderedApart key list := by
  constructor
  · intro ordered
    refine ⟨fun b ⟨other, keyless, sublist⟩ => ordered head other b (sublist.cons_cons head) keyless,
      fun a other b sublist => ordered a other b (sublist.cons head)⟩
  · rintro ⟨first, ordered⟩ a other b sublist keyless
    cases sublist with
    | cons _ sublist => exact ordered a other b sublist keyless
    | cons_cons _ sublist => exact first b ⟨other, keyless, sublist⟩

private theorem beyond_swap {a b later : α} (before after : List α)
    (alike : key a = none ↔ key b = none) (keyed : key later ≠ none) :
    Beyond key (before ++ a :: b :: after) later ↔ Beyond key (before ++ b :: a :: after) later := by
  induction before with
  | nil =>
    have neither : ∀ other, key other = none → later ≠ other := by
      rintro other keyless rfl
      exact keyed keyless
    simp only [List.nil_append, beyond_cons, List.mem_cons]
    by_cases keyless : key a = none
    · simp [keyless, alike.mp keyless, neither a keyless, neither b (alike.mp keyless)]
    · simp [keyless, mt alike.mpr keyless]
  | cons head before ih =>
    have same : later ∈ before ++ a :: b :: after ↔ later ∈ before ++ b :: a :: after :=
      ((List.Perm.swap b a after).append_left before).mem_iff
    simp only [List.cons_append, beyond_cons, same, ih]

/-- Neighbours that change places, both with a key or both without, change nothing for elements
that are apart. -/
theorem NeighbourSwap.orderedApart_iff
    (alike : ∀ a b, outOfOrder a b = true → (key a = none ↔ key b = none))
    (swap : NeighbourSwap outOfOrder list next) :
    OrderedApart key next ↔ OrderedApart key list := by
  cases swap with
  | @swap before a b after disordered =>
    have alike := alike a b disordered
    induction before with
    | nil =>
      simp only [List.nil_append, orderedApart_cons, beyond_cons]
      by_cases keyless : key a = none
      · have first : ∀ other, InOrder key a other := fun _ => .of_left keyless
        have second : ∀ other, InOrder key b other := fun _ => .of_left (alike.mp keyless)
        simp [first, second]
      · simp [keyless, mt alike.mpr keyless, and_left_comm]
    | cons head before ih =>
      simp only [List.cons_append, orderedApart_cons, ih]
      refine and_congr_left fun _ => forall_congr' fun later => ?_
      by_cases keyless : key later = none
      · exact iff_of_true (fun _ => .of_right keyless) fun _ => .of_right keyless
      · rw [beyond_swap before after alike keyless]

theorem Ordered.orderedApart (ordered : Ordered key list) : OrderedApart key list := by
  intro a other b sublist _
  refine List.pairwise_iff_forall_sublist.mp ordered ?_
  exact ((List.Sublist.refl [b]).cons other).cons_cons a |>.trans sublist

/-- Where neighbours are in order, elements with keys are when those apart are. -/
theorem ordered_iff_orderedApart (chain : list.IsChain (InOrder key)) :
    Ordered key list ↔ OrderedApart key list := by
  refine ⟨Ordered.orderedApart, fun apart => ?_⟩
  induction list with
  | nil => exact .nil
  | cons head rest ih =>
    obtain ⟨fromHead, apart⟩ := orderedApart_cons.mp apart
    have ordered : Ordered key rest := ih chain.tail apart
    refine .cons (fun b mem => ?_) ordered
    cases rest with
    | nil => cases mem
    | cons second rest =>
      have toSecond : InOrder key head second := (List.isChain_cons_cons.mp chain).1
      rcases List.mem_cons.mp mem with rfl | mem
      · exact toSecond
      · cases keySecond : key second with
        | none =>
          exact fromHead b (beyond_cons.mpr (.inl ⟨keySecond, mem⟩))
        | some middle =>
          intro keyHead keyB isHead isB
          have lower := toSecond keyHead middle isHead keySecond
          have upper := (List.pairwise_cons.mp ordered).1 b mem middle keyB keySecond isB
          exact lower.trans upper

end Dynamatic.Sorting
