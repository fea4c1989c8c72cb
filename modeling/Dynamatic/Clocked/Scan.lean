import Mathlib.Data.List.FinRange

/-!
# Index-order scans and one-hot multiplexers

Hardware descriptions pick "the first entry that qualifies" with a loop that
carries a found flag and the entry found. `scan` is that loop; the lemmas below
replace it by a statement about the lowest qualifying index. `muxOneHot` is the
AND-OR multiplexer that reads a value through a one-hot selection.
-/

namespace Dynamatic.Clocked

variable {α : Type} {size : Nat}

/-- One turn of the loop: the first hit is kept, later ones are ignored. -/
def scanStep {ι : Type} (hits : ι → Bool) (value : ι → α) (found : Bool × α) (index : ι) :
    Bool × α :=
  if !found.1 && hits index then (true, value index) else found

/-- Scan the indices in increasing order for the first that `hits`, starting
from `default` when there is none. -/
def scan (default : α) (hits : Fin size → Bool) (value : Fin size → α) : Bool × α :=
  (List.finRange size).foldl (scanStep hits value) (false, default)

private theorem foldl_scanStep_found {ι : Type} (hits : ι → Bool) (value : ι → α) (kept : α)
    (indices : List ι) :
    indices.foldl (scanStep hits value) (true, kept) = (true, kept) := by
  induction indices with
  | nil => rfl
  | cons index rest inductionHypothesis =>
      rw [List.foldl_cons]
      exact inductionHypothesis

private theorem foldl_scanStep {ι : Type} (default : α) (hits : ι → Bool) (value : ι → α)
    (indices : List ι) :
    indices.foldl (scanStep hits value) (false, default) =
      match indices.find? hits with
      | some index => (true, value index)
      | none => (false, default) := by
  induction indices with
  | nil => rfl
  | cons index rest inductionHypothesis =>
      rw [List.foldl_cons, List.find?_cons]
      cases hit : hits index with
      | true => simpa [scanStep, hit] using foldl_scanStep_found hits value _ rest
      | false => simpa [scanStep, hit] using inductionHypothesis

/-- The scan keeps the lowest index that hits. -/
theorem scan_of_first {default : α} {hits : Fin size → Bool} {value : Fin size → α}
    {index : Fin size} (hit : hits index = true) (first : ∀ lower < index, hits lower = false) :
    scan default hits value = (true, value index) := by
  have found : (List.finRange size).find? hits = some index := by
    rw [List.find?_eq_some_iff_getElem]
    refine ⟨hit, index.1, by simp, by simp, fun lower bounded => ?_⟩
    simpa using first ⟨lower, by omega⟩ bounded
  simp [scan, foldl_scanStep, found]

/-- A scan without a hit keeps its default. -/
theorem scan_of_none {default : α} {hits : Fin size → Bool} {value : Fin size → α}
    (none : ∀ index, hits index = false) : scan default hits value = (false, default) := by
  have notFound : (List.finRange size).find? hits = .none := by
    rw [List.find?_eq_none]
    simp [none]
  simp [scan, foldl_scanStep, notFound]

/-- Either nothing hits, or some index is the first to. -/
theorem first_hit_or_none (hits : Fin size → Bool) :
    (∀ index, hits index = false) ∨
      ∃ index, hits index = true ∧ ∀ lower < index, hits lower = false := by
  cases found : (List.finRange size).find? hits with
  | none =>
      left
      intro index
      simpa using List.find?_eq_none.mp found index (List.mem_finRange index)
  | some index =>
      right
      obtain ⟨hit, position, bounded, equal, first⟩ := List.find?_eq_some_iff_getElem.mp found
      refine ⟨index, hit, fun lower below => ?_⟩
      have here : position = index.1 := by simpa using congrArg Fin.val equal
      simpa using first lower.1 (by omega)

variable {width : Nat} {select : Fin size → Bool} {word : Fin size → BitVec width}

/-- The AND-OR multiplexer: every word masked by its select bit, all of them
joined. -/
def muxOneHot (select : Fin size → Bool) (word : Fin size → BitVec width) : BitVec width :=
  (List.finRange size).foldl (fun joined index => joined ||| if select index then word index else 0)
    0

private theorem foldl_masked {indices : List (Fin size)} {found : Fin size} {joined : BitVec width}
    (only : ∀ index ∈ indices, select index = true → index = found)
    (isIn : joined = word found ∨ joined = 0 ∧ found ∈ indices ∧ select found = true) :
    indices.foldl (fun joined index => joined ||| if select index then word index else 0) joined =
      word found := by
  induction indices generalizing joined with
  | nil =>
      rcases isIn with rfl | ⟨_, mem, _⟩
      · rfl
      · cases mem
  | cons index rest inductionHypothesis =>
      have onlyRest : ∀ index ∈ rest, select index = true → index = found :=
        fun other mem => only other (List.mem_cons_of_mem _ mem)
      rw [List.foldl_cons]
      refine inductionHypothesis onlyRest ?_
      cases chosen : select index with
      | true =>
          have here : index = found := only index List.mem_cons_self chosen
          rcases isIn with rfl | ⟨rfl, -, -⟩ <;> simp [here]
      | false =>
          rcases isIn with rfl | ⟨rfl, mem, hit⟩
          · simp
          · refine .inr ⟨by simp, ?_, hit⟩
            rcases List.mem_cons.mp mem with rfl | mem
            · simp [chosen] at hit
            · exact mem

/-- A one-hot selection reads the selected word. -/
theorem muxOneHot_of_unique (found : Fin size) (hit : select found = true)
    (only : ∀ index, select index = true → index = found) :
    muxOneHot select word = word found :=
  foldl_masked (fun index _ => only index) (.inr ⟨rfl, List.mem_finRange found, hit⟩)

/-- An empty selection reads zero. -/
theorem muxOneHot_of_none (none : ∀ index, select index = false) : muxOneHot select word = 0 := by
  have unselected : ∀ (indices : List (Fin size)),
      indices.foldl (fun joined index => joined ||| if select index then word index else 0) 0 =
        (0 : BitVec width) := by
    intro indices
    induction indices with
    | nil => rfl
    | cons index rest inductionHypothesis => simp [none]
  exact unselected _

/-! ### Granting one of several ports

Two loops over the ports of an arbiter: `grantFirst` gives a one-hot grant to the
lowest port that asks, carrying a flag that tells whether a lower one did, and
`selectLast` reads a word through a selection, the last selected port winning.
Under a one-hot selection the latter reads the selected port's word. -/

section Grants

/-- One turn of the grant loop: the port is granted if it asks and no lower port did. -/
def grantStep (asks : Fin size → Bool) (state : Bool × (Fin size → Bool)) (port : Fin size) :
    Bool × (Fin size → Bool) :=
  (state.1 || asks port, Function.update state.2 port (!state.1 && asks port))

/-- Grant the lowest port that asks. -/
def grantFirst (asks : Fin size → Bool) : Fin size → Bool :=
  ((List.finRange size).foldl (grantStep asks) (false, fun _ => false)).2

private theorem foldl_grantStep (asks : Fin size → Bool) {ports : List (Fin size)}
    (sorted : ports.Pairwise (· < ·)) (flag : Bool) (grants : Fin size → Bool) (port : Fin size) :
    (ports.foldl (grantStep asks) (flag, grants)).2 port =
      if port ∈ ports then
        !flag && asks port && ports.all (fun lower => !(decide (lower < port) && asks lower))
      else grants port := by
  induction ports generalizing flag grants with
  | nil => rfl
  | cons first rest inductionHypothesis =>
      obtain ⟨least, sortedRest⟩ := List.pairwise_cons.mp sorted
      rw [List.foldl_cons, grantStep, inductionHypothesis sortedRest]
      by_cases here : port = first
      · subst here
        have absent : port ∉ rest := fun mem => absurd (least port mem) (lt_irrefl _)
        have clear : rest.all (fun lower => !(decide (lower < port) && asks lower)) = true := by
          rw [List.all_eq_true]
          intro other mem
          simp [not_lt.mpr (least other mem).le]
        simp only [absent, if_false, List.mem_cons, true_or, if_true, List.all_cons, clear]
        simp
      · by_cases mem : port ∈ rest
        · have below : first < port := least port mem
          simp only [mem, if_true, List.mem_cons, or_true, List.all_cons, below, decide_true,
            Bool.true_and, Bool.not_or]
          cases flag <;> cases asks first <;> simp
        · simp [mem, here]

/-- The granted port is the lowest that asks. -/
theorem grantFirst_eq_true {asks : Fin size → Bool} {port : Fin size} :
    grantFirst asks port = true ↔
      asks port = true ∧ ∀ lower, lower < port → asks lower = false := by
  rw [grantFirst, foldl_grantStep asks (List.pairwise_lt_finRange size)]
  simp only [List.mem_finRange, if_true, Bool.not_false, Bool.true_and, Bool.and_eq_true,
    List.all_eq_true, forall_const, Bool.not_eq_true', Bool.and_eq_false_imp, decide_eq_true_eq]

theorem asks_of_grantFirst {asks : Fin size → Bool} {port : Fin size}
    (granted : grantFirst asks port = true) : asks port = true :=
  (grantFirst_eq_true.mp granted).1

/-- At most one port is granted. -/
theorem grantFirst_unique {asks : Fin size → Bool} {port other : Fin size}
    (granted : grantFirst asks port = true) (grantedOther : grantFirst asks other = true) :
    port = other := by
  obtain ⟨asked, first⟩ := grantFirst_eq_true.mp granted
  obtain ⟨askedOther, firstOther⟩ := grantFirst_eq_true.mp grantedOther
  by_contra different
  rcases lt_or_gt_of_ne different with below | above
  · simp [firstOther port below] at asked
  · simp [first other above] at askedOther

/-- Read a word through a selection, starting from `default`. -/
def selectLast (default : α) (sel : Fin size → Bool) (word : Fin size → α) : α :=
  (List.finRange size).foldl (fun chosen port => if sel port then word port else chosen) default

private theorem foldl_select {sel : Fin size → Bool} {word : Fin size → α} {chosen : α}
    {port : Fin size} {ports : List (Fin size)} (selected : sel port = true)
    (only : ∀ other, sel other = true → other = port)
    (isIn : port ∈ ports ∨ chosen = word port) :
    ports.foldl (fun chosen port => if sel port then word port else chosen) chosen = word port := by
  induction ports generalizing chosen with
  | nil => simpa using isIn
  | cons first rest inductionHypothesis =>
      rw [List.foldl_cons]
      apply inductionHypothesis
      cases hit : sel first with
      | true => simp [only first hit]
      | false =>
          rcases isIn with mem | same
          · rcases List.mem_cons.mp mem with rfl | mem
            · simp [selected] at hit
            · exact .inl mem
          · simp [same]

theorem selectLast_eq {default : α} {sel : Fin size → Bool} {word : Fin size → α}
    {port : Fin size} (selected : sel port = true)
    (only : ∀ other, sel other = true → other = port) : selectLast default sel word = word port :=
  foldl_select selected only (.inl (List.mem_finRange port))

end Grants

end Dynamatic.Clocked
