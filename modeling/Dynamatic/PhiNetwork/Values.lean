import Dynamatic.PhiNetwork.Placement

/-!
# What a phi network carries

Along an execution, a value stands for what its operation computed in the last visit of its block,
and a merge for what the operand that belongs to the predecessor stood for when control came from
there. The value that comes into a block is then the last one that was defined before.
-/

namespace Dynamatic.PhiNetwork

open ControlFlow StraightToQueue

variable {Block : Type} [DecidableEq Block]

/-- The place of a value in its block: arguments come first. -/
def Val.place (val : Val Block) : Nat := val.definingOp.elim 0 (· + 1)

section Sorting

variable {vals : List (Val Block)} {bb : Block}

omit [DecidableEq Block] in
theorem sorts_iff (a b : Val Block) :
    (sortsBefore a b || !sortsBefore b a) = decide (b.place ≤ a.place) := by
  cases isFirst : a.definingOp <;> cases isSecond : b.definingOp <;>
    simp [sortsBefore, Val.place, isFirst, isSecond]
  omega

/-- The value of a block is one of its last. -/
theorem inputBlocks_eq_some {val : Val Block} (isInput : inputBlocks vals bb = some val) :
    val ∈ vals ∧ val.parentBlock = bb ∧
      ∀ other ∈ vals, other.parentBlock = bb → other.place ≤ val.place := by
  have sorted : (valuesPerBlock vals bb).Pairwise fun a b => b.place ≤ a.place := by
    have isSorted : (valuesPerBlock vals bb).Pairwise fun a b : Val Block =>
        (sortsBefore a b || !sortsBefore b a) = true := by
      refine List.pairwise_mergeSort (fun a b c => ?_) (fun a b => ?_) _
      · simp only [sorts_iff, decide_eq_true_eq]
        omega
      · simp only [sorts_iff, Bool.or_eq_true, decide_eq_true_eq]
        omega
    exact isSorted.imp fun {a b} le => of_decide_eq_true ((sorts_iff a b).symm.trans le)
  have members (other : Val Block) : other ∈ valuesPerBlock vals bb ↔
      other ∈ vals ∧ other.parentBlock = bb := by
    rw [valuesPerBlock, List.mem_mergeSort, List.mem_filter, decide_eq_true_eq]
  rw [inputBlocks] at isInput
  obtain ⟨rest, isSplit⟩ := List.head?_eq_some_iff.mp isInput
  rw [isSplit] at sorted members
  obtain ⟨isVal, here⟩ := (members val).mp (List.mem_cons_self ..)
  refine ⟨isVal, here, fun other isOther inBlock => ?_⟩
  rcases List.mem_cons.mp ((members other).mpr ⟨isOther, inBlock⟩) with rfl | later
  · exact le_rfl
  · exact (List.pairwise_cons.mp sorted).1 other later

theorem inputBlocks_ne_none_iff :
    inputBlocks vals bb ≠ none ↔ bb ∈ (vals.map Val.parentBlock).dedup := by
  rw [List.mem_dedup, List.mem_map, inputBlocks, ne_eq, List.head?_eq_none_iff, valuesPerBlock]
  constructor
  · intro some
    obtain ⟨val, mem⟩ := List.exists_mem_of_ne_nil _ some
    rw [List.mem_mergeSort, List.mem_filter, decide_eq_true_eq] at mem
    exact ⟨val, mem⟩
  · rintro ⟨val, isVal, here⟩
    refine List.ne_nil_of_mem (a := val) ?_
    rw [List.mem_mergeSort, List.mem_filter, decide_eq_true_eq]
    exact ⟨isVal, here⟩

end Sorting

/-! ### Along an execution -/

/-- The block that an operand is in. -/
def Operand.block : Operand Block → Block
  | value val => val.parentBlock
  | merge block => block

/-- The operand of a merge that belongs to a predecessor. -/
def operandFrom (region : Region Block) (network : Network Block) (block pred : Block) :
    Option (Operand Block) :=
  (network.operandsPerPhi.lookup block).bind fun operands =>
    operands[(coveredPreds region block).idxOf pred]?

/-- What an operand stands for at a time: a value, and the time of the visit that computed it. -/
def carried (region : Region Block) (network : Network Block) (execution : List Block) :
    Nat → Operand Block → Option (Val Block × Nat)
  | 0, .value val => if execution[0]? = some val.parentBlock then some (val, 0) else none
  | 0, .merge _ => none
  | before + 1, operand =>
      if execution[before + 1]? = some operand.block then
        match operand with
        | .value val => some (val, before + 1)
        | .merge block => execution[before]?.bind fun pred =>
            (operandFrom region network block pred).bind (carried region network execution before)
      else carried region network execution before operand

/-- Of the values, one was defined last before the visit of a block at a time. -/
structure LastDefined (vals : List (Val Block)) (execution : List Block) (time : Nat)
    (val : Val Block) (visit : Nat) : Prop where
  isVal : val ∈ vals
  before : visit < time
  visited : execution[visit]? = some val.parentBlock
  last : ∀ other ∈ vals, other.parentBlock = val.parentBlock → other.place ≤ val.place
  notAfter : ∀ moment, visit < moment → moment < time → ∀ other ∈ vals,
    execution[moment]? ≠ some other.parentBlock

/-- The value that was defined last, and the visit of its block. -/
def lastInput (vals : List (Val Block)) (execution : List Block) : Nat → Option (Val Block × Nat)
  | 0 => (execution[0]?.bind (inputBlocks vals)).map (·, 0)
  | time + 1 =>
      match execution[time + 1]?.bind (inputBlocks vals) with
      | some val => some (val, time + 1)
      | none => lastInput vals execution time

section Last

variable {vals : List (Val Block)} {execution : List Block} {time earlier : Nat}

theorem lastInput_of_input {bb : Block} {val : Val Block} (here : execution[time]? = some bb)
    (isInput : inputBlocks vals bb = some val) :
    lastInput vals execution time = some (val, time) := by
  cases time with
  | zero => rw [lastInput, here, Option.bind_some, isInput]; rfl
  | succ time =>
      have isSome : execution[time + 1]?.bind (inputBlocks vals) = some val := by
        rw [here]
        exact isInput
      rw [lastInput, isSome]

/-- What was defined last stays so while no block of a value is visited. -/
theorem lastInput_eq (le : earlier ≤ time)
    (none : ∀ moment, earlier < moment → moment ≤ time → ∀ {bb}, execution[moment]? = some bb →
      inputBlocks vals bb = none) :
    lastInput vals execution time = lastInput vals execution earlier := by
  induction le with
  | refl => rfl
  | @step time le inductionHypothesis =>
      have notHere : execution[time + 1]?.bind (inputBlocks vals) = Option.none := by
        cases here : execution[time + 1]? with
        | none => rfl
        | some bb => exact none (time + 1) (Nat.lt_succ_of_le le) le_rfl here
      rw [lastInput, notHere]
      exact inductionHypothesis fun moment after atMost => none moment after (by omega)

theorem lastDefined_of_lastInput {val : Val Block} {visit : Nat}
    (isLast : lastInput vals execution time = some (val, visit)) :
    LastDefined vals execution (time + 1) val visit := by
  have atVisit {time : Nat} (input : execution[time]?.bind (inputBlocks vals) = some val) :
      LastDefined vals execution (time + 1) val time := by
    obtain ⟨bb, here, isInput⟩ := Option.bind_eq_some_iff.mp input
    obtain ⟨isVal, rfl, last⟩ := inputBlocks_eq_some isInput
    exact ⟨isVal, Nat.lt_succ_self _, here, last, fun moment after before => by omega⟩
  induction time with
  | zero =>
      obtain ⟨val', input, same⟩ := Option.map_eq_some_iff.mp isLast
      cases same
      exact atVisit input
  | succ time inductionHypothesis =>
      rw [lastInput] at isLast
      split at isLast
      · rename_i input
        cases isLast
        exact atVisit input
      · rename_i none
        have defined := inductionHypothesis isLast
        refine ⟨defined.isVal, Nat.lt_succ_of_lt defined.before, defined.visited, defined.last,
          fun moment after before other isOther here => ?_⟩
        rcases Nat.lt_or_eq_of_le (Nat.le_of_lt_succ before) with earlier | rfl
        · exact defined.notAfter moment after earlier other isOther here
        · rw [here] at none
          refine inputBlocks_ne_none_iff.mpr ?_ none
          exact List.mem_dedup.mpr (List.mem_map_of_mem isOther)

variable {region : Region Block} {network : Network Block} {operand : Operand Block}

theorem carried_succ_of_ne {before : Nat} (notHere : execution[before + 1]? ≠ some operand.block) :
    carried region network execution (before + 1) operand =
      carried region network execution before operand := by
  cases operand with
  | value val => exact if_neg notHere
  | merge block => exact if_neg notHere

/-- What an operand stands for stays while its block is not visited. -/
theorem carried_eq (le : earlier ≤ time)
    (notVisited : ∀ moment, earlier < moment → moment ≤ time →
      execution[moment]? ≠ some operand.block) :
    carried region network execution time operand =
      carried region network execution earlier operand := by
  induction le with
  | refl => rfl
  | @step time le inductionHypothesis =>
      rw [carried_succ_of_ne (notVisited (time + 1) (Nat.lt_succ_of_le le) le_rfl)]
      exact inductionHypothesis fun moment after atMost => notVisited moment after (by omega)

theorem carried_value {val : Val Block} (here : execution[time]? = some val.parentBlock) :
    carried region network execution time (.value val) = some (val, time) := by
  cases time with
  | zero => exact if_pos here
  | succ time => exact if_pos here

/-- A merge stands for what the operand of the predecessor stood for there. -/
theorem carried_merge {block pred : Block} (here : execution[time + 1]? = some block)
    (before : execution[time]? = some pred) :
    carried region network execution (time + 1) (.merge block) =
      (operandFrom region network block pred).bind (carried region network execution time) := by
  refine (if_pos here).trans ?_
  rw [before]
  rfl

end Last

end Dynamatic.PhiNetwork
