import Dynamatic.Sorting.Neighbours

/-!
# The access priority of a sharing group

`sortGroups` orders the operations of each sharing group by bubble sort: neighbours of one critical
CFC change places when their components in it are the wrong way around, until a pass over the group
changes nothing. Neighbours that share no CFC are never compared.
-/

namespace Dynamatic.Sharing

open Sorting

variable {Operation : Type}

/-- What the sorting reads of a function: its critical CFCs, and for each CFC the component of each
of its units. -/
structure FuncPerfInfo (Operation : Type) where
  critCfcs : List Nat
  cfSccs : Nat → Operation → Option Nat

abbrev Group (Operation : Type) := List Operation

section Sorting

variable (info : FuncPerfInfo Operation)

/-- Whether a CFC has both operations, the first in the later component. -/
def outOfOrderIn (cf : Nat) (op1 op2 : Operation) : Bool :=
  match info.cfSccs cf op1, info.cfSccs cf op2 with
  | some scc1, some scc2 => scc1 > scc2
  | _, _ => false

/-- The innermost loop: two neighbours are compared in each critical CFC. -/
def compareNeighbours (op1 op2 : Operation) (modified : Bool) : Operation × Operation × Bool :=
  info.critCfcs.foldl
    (fun (first, second, modified) cf =>
      if outOfOrderIn info cf first second then (second, first, true) else (first, second, modified))
    (op1, op2, modified)

/-- One pass of the sort, from the operation it has come to, with the flag that tells whether
something changed. -/
def sortPass : Operation → Group Operation → Bool → Group Operation × Bool
  | op, [], modified => ([op], modified)
  | op, next :: rest, modified =>
    let (first, second, modified) := compareNeighbours info op next modified
    let (sorted, modified) := sortPass second rest modified
    (first :: sorted, modified)

/-- The passes over a group, until one changes nothing. -/
def sortPasses : Nat → Group Operation → Option (Group Operation)
  | 0, _ => none
  | _ + 1, [] => some []
  | fuel + 1, op :: rest =>
    let (sorted, modified) := sortPass info op rest false
    if modified then sortPasses fuel sorted else some sorted

/-- Each swap puts a pair of the group in order, so no group takes more passes than it has pairs. -/
def sortGroup (group : Group Operation) : Option (Group Operation) :=
  if group.length ≤ 1 then some group else sortPasses info (group.length ^ 2 + 1) group

/-- All groups are sorted in place. -/
def sortGroups (sharingGroups : List (Group Operation)) : Option (List (Group Operation)) :=
  sharingGroups.mapM (sortGroup info)

/-- No operation is a unit of two critical CFCs. -/
def DisjointCfcs : Prop :=
  ∀ cf ∈ info.critCfcs, ∀ other ∈ info.critCfcs, ∀ op, (info.cfSccs cf op).isSome →
    (info.cfSccs other op).isSome → cf = other

/-- The operations of each critical CFC stand in the order of their components. -/
def ByComponent (group : Group Operation) : Prop :=
  ∀ cf ∈ info.critCfcs, Ordered (info.cfSccs cf) group

/-- The operations of each critical CFC that have one of no or another CFC between them stand in
the order of their components. -/
def ApartByComponent (group : Group Operation) : Prop :=
  ∀ cf ∈ info.critCfcs, OrderedApart (info.cfSccs cf) group

end Sorting

variable {info : FuncPerfInfo Operation}

/-- Some critical CFC has both operations, the first in the later component. -/
def outOfOrder (info : FuncPerfInfo Operation) (op1 op2 : Operation) : Bool :=
  info.critCfcs.any fun cf => outOfOrderIn info cf op1 op2

theorem outOfOrderIn_iff {cf : Nat} {op1 op2 : Operation} :
    outOfOrderIn info cf op1 op2 = true ↔ ∃ scc1 scc2, info.cfSccs cf op1 = some scc1 ∧
      info.cfSccs cf op2 = some scc2 ∧ scc2 < scc1 := by
  unfold outOfOrderIn
  split
  next scc1 scc2 found1 found2 => simp [found1, found2]
  next missing =>
    refine iff_of_false (by simp) ?_
    rintro ⟨scc1, scc2, found1, found2, -⟩
    exact missing scc1 scc2 found1 found2

theorem outOfOrder_iff {op1 op2 : Operation} :
    outOfOrder info op1 op2 = true ↔ ∃ cf ∈ info.critCfcs, outOfOrderIn info cf op1 op2 = true :=
  List.any_eq_true

/-- Operations that are out of order in one critical CFC are not the other way around in any. -/
theorem outOfOrderIn_swapped (disjoint : DisjointCfcs info) {cf other : Nat} {op1 op2 : Operation}
    (critical : cf ∈ info.critCfcs) (otherCritical : other ∈ info.critCfcs)
    (disordered : outOfOrderIn info cf op1 op2 = true) :
    outOfOrderIn info other op2 op1 = false := by
  by_contra swapped
  obtain ⟨scc1, scc2, found1, found2, below⟩ := outOfOrderIn_iff.mp disordered
  obtain ⟨scc2', scc1', found2', found1', below'⟩ :=
    outOfOrderIn_iff.mp (Bool.of_not_eq_false swapped)
  obtain rfl : cf = other := disjoint cf critical other otherCritical op1 (by simp [found1])
    (by simp [found1'])
  rw [found1] at found1'
  rw [found2] at found2'
  cases found1'
  cases found2'
  omega

theorem outOfOrder_asymmetric (disjoint : DisjointCfcs info) (op1 op2 : Operation)
    (disordered : outOfOrder info op1 op2 = true) : outOfOrder info op2 op1 = false := by
  obtain ⟨cf, critical, disordered⟩ := outOfOrder_iff.mp disordered
  exact List.any_eq_false.mpr fun other otherCritical =>
    Bool.eq_false_iff.mp (outOfOrderIn_swapped disjoint critical otherCritical disordered)

/-- Operations that change places are both units of a critical CFC, or neither. -/
theorem outOfOrder_alike (disjoint : DisjointCfcs info) {cf : Nat} (critical : cf ∈ info.critCfcs)
    (op1 op2 : Operation) (disordered : outOfOrder info op1 op2 = true) :
    info.cfSccs cf op1 = none ↔ info.cfSccs cf op2 = none := by
  obtain ⟨other, otherCritical, disordered⟩ := outOfOrder_iff.mp disordered
  obtain ⟨scc1, scc2, found1, found2, -⟩ := outOfOrderIn_iff.mp disordered
  by_cases same : cf = other
  · subst same
    simp [found1, found2]
  · have apart : ∀ op, (info.cfSccs other op).isSome → info.cfSccs cf op = none := by
      intro op isUnit
      by_contra also
      exact same (disjoint cf critical other otherCritical op
        (Option.isSome_iff_ne_none.mpr also) isUnit)
    simp [apart op1 (by simp [found1]), apart op2 (by simp [found2])]

/-- Neighbours that no CFC has out of order stay. -/
theorem foldl_compare_inOrder {first second : Operation} {modified : Bool} {cfs : List Nat}
    (inOrder : ∀ cf ∈ cfs, outOfOrderIn info cf first second = false) :
    cfs.foldl (fun (first, second, modified) cf =>
      if outOfOrderIn info cf first second then (second, first, true)
      else (first, second, modified)) (first, second, modified) = (first, second, modified) := by
  induction cfs with
  | nil => rfl
  | cons cf cfs inductionHypothesis =>
      rw [List.foldl_cons]
      simp only [inOrder cf List.mem_cons_self, Bool.false_eq_true, if_false]
      exact inductionHypothesis fun other mem => inOrder other (List.mem_cons_of_mem _ mem)

/-- Once neighbours have changed places, no other CFC has them out of order. -/
theorem foldl_compare (disjoint : DisjointCfcs info) {op1 op2 : Operation} {modified : Bool}
    {cfs : List Nat} (critical : ∀ cf ∈ cfs, cf ∈ info.critCfcs) :
    cfs.foldl (fun (first, second, modified) cf =>
      if outOfOrderIn info cf first second then (second, first, true)
      else (first, second, modified)) (op1, op2, modified) =
    if cfs.any fun cf => outOfOrderIn info cf op1 op2 then (op2, op1, true)
    else (op1, op2, modified) := by
  induction cfs with
  | nil => rfl
  | cons cf cfs inductionHypothesis =>
      obtain ⟨here, later⟩ := List.forall_mem_cons.mp critical
      rw [List.foldl_cons, List.any_cons]
      cases disordered : outOfOrderIn info cf op1 op2 with
      | false =>
          simp only [disordered, Bool.false_eq_true, if_false, Bool.false_or]
          exact inductionHypothesis later
      | true =>
          simp only [disordered, if_true, Bool.true_or]
          exact foldl_compare_inOrder fun other mem =>
            outOfOrderIn_swapped disjoint here (later other mem) disordered

/-- The neighbours change places when some critical CFC has them out of order, and once at most. -/
theorem compareNeighbours_eq (disjoint : DisjointCfcs info) (op1 op2 : Operation)
    (modified : Bool) :
    compareNeighbours info op1 op2 modified =
      if outOfOrder info op1 op2 then (op2, op1, true) else (op1, op2, modified) :=
  foldl_compare disjoint fun _ mem => mem

/-! ## The passes -/

/-- Swaps of neighbours one after the other. -/
abbrev Swaps (info : FuncPerfInfo Operation) : Group Operation → Group Operation → Prop :=
  Relation.ReflTransGen (NeighbourSwap (outOfOrder info))

theorem Swaps.cons {group sorted : Group Operation} (op : Operation)
    (swaps : Swaps info group sorted) : Swaps info (op :: group) (op :: sorted) := by
  induction swaps with
  | refl => exact .refl
  | tail _ swap ih => exact ih.tail (swap.cons op)

theorem Swaps.perm {group sorted : Group Operation} (swaps : Swaps info group sorted) :
    sorted.Perm group := by
  induction swaps with
  | refl => exact .refl _
  | tail _ swap ih => exact swap.perm.trans ih

/-- Swaps change nothing for operations of a CFC that are apart. -/
theorem Swaps.apartByComponent_iff (disjoint : DisjointCfcs info) {group sorted : Group Operation}
    (swaps : Swaps info group sorted) :
    ApartByComponent info sorted ↔ ApartByComponent info group := by
  refine forall₂_congr fun cf critical => ?_
  induction swaps with
  | refl => rfl
  | tail _ swap ih => exact (swap.orderedApart_iff (outOfOrder_alike disjoint critical)).trans ih

/-- What a pass does: it swaps neighbours, and its flag stays down only when it swaps none and none
are out of order. -/
structure Passes (info : FuncPerfInfo Operation) (group : Group Operation) (modified : Bool)
    (result : Group Operation × Bool) : Prop where
  swaps : Swaps info group result.1
  counted : inversions (outOfOrder info) result.1 + result.2.toNat ≤
    inversions (outOfOrder info) group + modified.toNat
  unchanged : result.2 = false → result.1 = group ∧
    group.IsChain fun op1 op2 => outOfOrder info op1 op2 = false
  raised : modified = true → result.2 = true

/-- Inversions in front of a rearranged rest. -/
private theorem inversions_cons_le {op : Operation} {group sorted : Group Operation} {more less : Nat}
    (perm : sorted.Perm group) (counted : inversions (outOfOrder info) sorted + more ≤
      inversions (outOfOrder info) group + less) :
    inversions (outOfOrder info) (op :: sorted) + more ≤
      inversions (outOfOrder info) (op :: group) + less := by
  simp only [inversions, perm.countP_eq]
  omega

theorem sortPass_passes (disjoint : DisjointCfcs info) (op : Operation) (rest : Group Operation)
    (modified : Bool) : Passes info (op :: rest) modified (sortPass info op rest modified) := by
  induction rest generalizing op modified with
  | nil => exact ⟨.refl, le_rfl, fun _ => ⟨rfl, .singleton op⟩, id⟩
  | cons next rest ih =>
    simp only [sortPass]
    rw [compareNeighbours_eq disjoint]
    cases disordered : outOfOrder info op next with
    | false =>
      simp only [Bool.false_eq_true, if_false]
      have later := ih next modified
      refine ⟨later.swaps.cons op, inversions_cons_le later.swaps.perm later.counted,
        fun down => ?_, later.raised⟩
      obtain ⟨same, chain⟩ := later.unchanged down
      exact ⟨by rw [same], .cons_cons disordered chain⟩
    | true =>
      simp only [if_true]
      have later := ih op true
      have up := later.raised rfl
      have swap : NeighbourSwap (outOfOrder info) (op :: next :: rest) (next :: op :: rest) :=
        .swap [] rest disordered
      have fewer := swap.inversions_lt (outOfOrder_asymmetric disjoint)
      have counted := @inversions_cons_le _ _ next _ _ _ _ later.swaps.perm later.counted
      refine ⟨.head swap (later.swaps.cons next), ?_, fun down => ?_, fun _ => up⟩
      · rw [up] at counted ⊢
        simp only [Bool.toNat_true] at counted ⊢
        omega
      · rw [up] at down
        cases down

/-- Neighbours that are not out of order are in order in each critical CFC. -/
private theorem inOrder_of_chain {cf : Nat} (critical : cf ∈ info.critCfcs)
    {group : Group Operation}
    (chain : group.IsChain fun op1 op2 => outOfOrder info op1 op2 = false) :
    group.IsChain (InOrder (info.cfSccs cf)) := by
  refine chain.imp fun op1 op2 ordered scc1 scc2 found1 found2 => ?_
  by_contra above
  have disordered : outOfOrder info op1 op2 = true :=
    outOfOrder_iff.mpr ⟨cf, critical, outOfOrderIn_iff.mpr ⟨scc1, scc2, found1, found2, by omega⟩⟩
  rw [ordered] at disordered
  cases disordered

/-- The passes end, with swaps of neighbours that leave none out of order. -/
theorem sortPasses_ends (disjoint : DisjointCfcs info) {fuel : Nat} {group : Group Operation}
    (enough : inversions (outOfOrder info) group < fuel) :
    ∃ sorted, sortPasses info fuel group = some sorted ∧ Swaps info group sorted ∧
      sorted.IsChain fun op1 op2 => outOfOrder info op1 op2 = false := by
  induction fuel generalizing group with
  | zero => exact absurd enough (Nat.not_lt_zero _)
  | succ fuel ih =>
    cases group with
    | nil => exact ⟨[], rfl, .refl, .nil⟩
    | cons op rest =>
      have passes := sortPass_passes disjoint op rest false
      simp only [sortPasses]
      split
      next changed =>
        have counted := passes.counted
        rw [changed] at counted
        simp only [Bool.toNat_true, Bool.toNat_false] at counted
        obtain ⟨sorted, computes, swaps, chain⟩ :=
          @ih (sortPass info op rest false).1 (by omega)
        exact ⟨sorted, computes, passes.swaps.trans swaps, chain⟩
      next unchanged =>
        obtain ⟨same, chain⟩ := passes.unchanged (Bool.eq_false_iff.mpr unchanged)
        exact ⟨_, rfl, passes.swaps, same ▸ chain⟩

/-- A group is rearranged; its CFCs end in order when the operations that are apart were. -/
theorem sortGroup_sorts (disjoint : DisjointCfcs info) (group : Group Operation) :
    ∃ sorted, sortGroup info group = some sorted ∧ sorted.Perm group ∧
      (ByComponent info sorted ↔ ApartByComponent info group) := by
  unfold sortGroup
  split
  next small =>
    refine ⟨group, rfl, .refl _, forall₂_congr fun cf _ => ordered_iff_orderedApart ?_⟩
    match group, small with
    | [], _ => exact .nil
    | [op], _ => exact .singleton op
  next =>
    have bound := @inversions_le _ (outOfOrder info) group
    obtain ⟨sorted, computes, swaps, chain⟩ :=
      sortPasses_ends disjoint (Nat.lt_succ_of_le bound)
    refine ⟨sorted, computes, swaps.perm, ?_⟩
    rw [← swaps.apartByComponent_iff disjoint]
    exact forall₂_congr fun cf critical => ordered_iff_orderedApart (inOrder_of_chain critical chain)

/-- Sorting ends with a rearrangement of each group. The operations of each critical CFC then stand
in the order of their components exactly when those that had an operation of no or another CFC
between them did from the start. -/
theorem sortGroups_sorts (disjoint : DisjointCfcs info) (sharingGroups : List (Group Operation)) :
    ∃ sorted, sortGroups info sharingGroups = some sorted ∧
      List.Forall₂ (fun group result => result.Perm group ∧
        (ByComponent info result ↔ ApartByComponent info group)) sharingGroups sorted := by
  induction sharingGroups with
  | nil => exact ⟨[], rfl, .nil⟩
  | cons group rest ih =>
    obtain ⟨sorted, computes, sorts⟩ := sortGroup_sorts disjoint group
    obtain ⟨sortedRest, computesRest, all⟩ := ih
    refine ⟨sorted :: sortedRest, ?_, .cons sorts all⟩
    rw [sortGroups] at computesRest ⊢
    rw [List.mapM_cons, computes, computesRest]
    rfl

/-- Four additions: the first and the third of one critical CFC, the others of another. -/
def twoLoops : FuncPerfInfo Nat where
  critCfcs := [0, 1]
  cfSccs
    | 0, 0 => some 2
    | 0, 2 => some 1
    | 1, 1 => some 1
    | 1, 3 => some 2
    | _, _ => none

theorem twoLoops_disjoint : DisjointCfcs twoLoops := by
  intro cf critical other otherCritical op isUnit isOther
  simp only [twoLoops, List.mem_cons, List.not_mem_nil, or_false] at critical otherCritical
  rcases critical with rfl | rfl <;> rcases otherCritical with rfl | rfl <;>
    match op with
    | 0 | 1 | 2 | 3 => simp_all [twoLoops]
    | _ + 4 => simp [twoLoops] at isUnit

theorem sortGroups_sorts_twoLoops :
    ∃ sorted, sortGroups twoLoops [[0, 2, 3, 1]] = some sorted ∧
      List.Forall₂ (fun group result => result.Perm group ∧
        (ByComponent twoLoops result ↔ ApartByComponent twoLoops group)) [[0, 2, 3, 1]] sorted :=
  sortGroups_sorts twoLoops_disjoint [[0, 2, 3, 1]]

/-- The first and the third operation, in the later and the earlier component of one CFC, keep
their places: the second is between them, so they are never compared. -/
theorem sortGroups_not_byComponent :
    ¬ ∀ (info : FuncPerfInfo Nat) (sharingGroups : List (Group Nat)), DisjointCfcs info →
      ∃ sorted, sortGroups info sharingGroups = some sorted ∧
        List.Forall₂ (fun group result => result.Perm group ∧ ByComponent info result)
          sharingGroups sorted := by
  intro claim
  obtain ⟨sorted, computes, all⟩ := claim twoLoops [[0, 1, 2, 3]] twoLoops_disjoint
  have unsorted : sortGroups twoLoops [[0, 1, 2, 3]] = some [[0, 1, 2, 3]] := by decide
  cases unsorted.symm.trans computes
  cases all with
  | cons sorts _ =>
    have ordered := sorts.2 0 (by decide)
    have inOrder := List.pairwise_iff_forall_sublist.mp ordered
      (show [0, 2].Sublist [0, 1, 2, 3] by decide)
    exact absurd (inOrder 2 1 rfl rfl) (by decide)

end Dynamatic.Sharing
