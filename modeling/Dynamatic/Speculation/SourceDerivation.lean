import Dynamatic.Numerals
import Dynamatic.Speculation.PlacedSaves

/-!
# Values that only sources feed

`isGeneratedBySourceOp` goes backwards through the operands of an operation, in their order, until
one does not come from a source. Nothing keeps it from going around a cycle: it ends on a value
unless it is led around one by operands whose earlier siblings all come from sources.
-/

namespace Dynamatic.Speculation.Placement

open Relation

variable {Operation Value OpOperand : Type} (funcOp : FuncOp Operation Value OpOperand)

/-- One step back along a chain of operands; a chain ends in a source. -/
def Feeds (value earlier : Value) : Prop :=
  ∃ op, funcOp.definingOp value = some op ∧ funcOp.kind op ≠ .source ∧
    ∃ operand ∈ funcOp.operands op, funcOp.get operand = earlier

/-- Every chain of operands backwards from the value comes to an end, and ends in a source. -/
structure EndsInSources (value : Value) : Prop where
  ends : ¬ ∃ chain : Nat → Value, chain 0 = value ∧
    ∀ place, Feeds funcOp (chain place) (chain (place + 1))
  inSource : ∀ last, ReflTransGen (Feeds funcOp) value last →
    (∀ earlier, ¬ Feeds funcOp last earlier) →
      ∃ op, funcOp.definingOp last = some op ∧ funcOp.kind op = .source

/-- The operand of a value is looked at if all the operands before it only come from sources. -/
def Consults (value earlier : Value) : Prop :=
  ∃ op, funcOp.definingOp value = some op ∧ funcOp.kind op ≠ .source ∧
    ∃ before operand after, funcOp.operands op = before ++ operand :: after ∧
      (∀ other ∈ before, FromSources funcOp (funcOp.get other)) ∧ funcOp.get operand = earlier

/-- No endless chain, so no cycle in a finite circuit, is looked at from the value. -/
def NoCycleConsulted (value : Value) : Prop :=
  ¬ ∃ chain : Nat → Value, chain 0 = value ∧
    ∀ place, Consults funcOp (chain place) (chain (place + 1))

/-- What feeds the value is a source or has operands. -/
def OperandsFeed (value : Value) : Prop :=
  ∀ fed op, ReflTransGen (Feeds funcOp) value fed → funcOp.definingOp fed = some op →
    funcOp.kind op ≠ .source → funcOp.operands op ≠ []

variable {funcOp} {value : Value} {answer : Bool}

/-! ### The recursion over the operands -/

section Operands

variable {Item : Type} {asks moreAsks : Item → Option Bool} {items before after : List Item}
  {item : Item} {start : Bool}

/-- More answers do not change one that was given. -/
theorem foldlM_mono (more : ∀ item answer, asks item = some answer → moreAsks item = some answer)
    (all : items.foldlM (fun all item => if all then asks item else some false) start =
      some answer) :
    items.foldlM (fun all item => if all then moreAsks item else some false) start =
      some answer := by
  induction items generalizing start with
  | nil => exact all
  | cons item items inductionHypothesis =>
      rw [List.foldlM_cons] at all ⊢
      obtain ⟨next, isNext, rest⟩ := Option.bind_eq_some_iff.mp all
      refine Option.bind_eq_some_iff.mpr ⟨next, ?_, inductionHypothesis rest⟩
      cases start with
      | false => exact isNext
      | true => exact more item next isNext

theorem foldlM_false :
    items.foldlM (fun all item => if all then asks item else some false) false = some false := by
  induction items with
  | nil => rfl
  | cons item items inductionHypothesis => exact inductionHypothesis

/-- An answer for all of the items asks each one behind those that say yes. -/
theorem asks_of_foldlM (split : items = before ++ item :: after)
    (yes : ∀ other ∈ before, ∀ answer, asks other = some answer → answer = true)
    (all : items.foldlM (fun all item => if all then asks item else some false) true =
      some answer) :
    ∃ answer, asks item = some answer := by
  subst split
  induction before with
  | nil =>
      rw [List.nil_append, List.foldlM_cons] at all
      obtain ⟨next, isNext, -⟩ := Option.bind_eq_some_iff.mp all
      exact ⟨next, isNext⟩
  | cons first before inductionHypothesis =>
      rw [List.cons_append, List.foldlM_cons] at all
      obtain ⟨next, isNext, rest⟩ := Option.bind_eq_some_iff.mp all
      rw [yes first List.mem_cons_self next isNext] at rest
      exact inductionHypothesis (fun other mem => yes other (List.mem_cons_of_mem _ mem)) rest

end Operands

/-- More fuel does not change an answer. -/
theorem isGeneratedBySourceOp_mono {fuel more : Nat} (le : fuel ≤ more)
    (isAnswer : isGeneratedBySourceOp funcOp fuel value = some answer) :
    isGeneratedBySourceOp funcOp more value = some answer := by
  induction fuel generalizing more value answer with
  | zero => cases isAnswer
  | succ fuel inductionHypothesis =>
      obtain ⟨rest, rfl⟩ := Nat.exists_eq_add_of_le le
      rw [Nat.add_right_comm]
      rw [isGeneratedBySourceOp] at isAnswer ⊢
      split at isAnswer
      · exact isAnswer
      · split at isAnswer
        · rename_i isSource
          rw [if_pos isSource]
          exact isAnswer
        · rename_i notSource
          rw [if_neg notSource]
          exact foldlM_mono (fun operand _ => inductionHypothesis (Nat.le_add_right _ _)) isAnswer

/-! ### Where the recursion ends -/

/-- A value from which no endless chain goes back is accessible in the steps back. -/
theorem no_chain_iff_acc {step : Value → Value → Prop} :
    (¬ ∃ chain : Nat → Value, chain 0 = value ∧
      ∀ place, step (chain place) (chain (place + 1))) ↔
        Acc (fun earlier value => step value earlier) value :=
  not_iff_comm.mp not_acc_iff_exists_descending_chain

/-- With an answer for a value there is one for each value that is looked at from it. -/
theorem acc_of_answer {fuel : Nat}
    (isAnswer : isGeneratedBySourceOp funcOp fuel value = some answer) :
    Acc (fun earlier value => Consults funcOp value earlier) value := by
  induction fuel generalizing value answer with
  | zero => cases isAnswer
  | succ fuel inductionHypothesis =>
      refine .intro value fun earlier ⟨op, isDefined, notSource, before, operand, after, split,
        fromSources, same⟩ => ?_
      rw [isGeneratedBySourceOp, isDefined] at isAnswer
      dsimp only at isAnswer
      rw [if_neg notSource] at isAnswer
      obtain ⟨_, asked⟩ := asks_of_foldlM split
        (fun other mem _ isYes => (isGeneratedBySourceOp_iff isYes).mpr (fromSources other mem))
        isAnswer
      rw [same] at asked
      exact inductionHypothesis asked

/-- If what is looked at has an answer then so have all operands of an operation together. -/
theorem exists_answer_operands {op : Operation} {before rest : List OpOperand}
    (isDefined : funcOp.definingOp value = some op) (notSource : funcOp.kind op ≠ .source)
    (answers : ∀ earlier, Consults funcOp value earlier →
      ∃ fuel answer, isGeneratedBySourceOp funcOp fuel earlier = some answer)
    (split : funcOp.operands op = before ++ rest)
    (fromSources : ∀ other ∈ before, FromSources funcOp (funcOp.get other)) :
    ∃ fuel answer, rest.foldlM (fun all operand =>
      if all then isGeneratedBySourceOp funcOp fuel (funcOp.get operand) else some false) true =
        some answer := by
  induction rest generalizing before with
  | nil => exact ⟨0, true, rfl⟩
  | cons operand rest inductionHypothesis =>
      obtain ⟨fuel, answer, isAnswer⟩ := answers (funcOp.get operand)
        ⟨op, isDefined, notSource, before, operand, rest, split, fromSources, rfl⟩
      cases answer with
      | false =>
          refine ⟨fuel, false, ?_⟩
          rw [List.foldlM_cons, if_pos rfl, isAnswer]
          exact foldlM_false
      | true =>
          have split' : funcOp.operands op = (before ++ [operand]) ++ rest := by
            rw [split, List.append_assoc, List.singleton_append]
          have fromSources' : ∀ other ∈ before ++ [operand],
              FromSources funcOp (funcOp.get other) := by
            intro other mem
            cases List.mem_append.mp mem with
            | inl earlier => exact fromSources other earlier
            | inr last =>
                rw [List.mem_singleton.mp last]
                exact (isGeneratedBySourceOp_iff isAnswer).mp rfl
          obtain ⟨more, all, isAll⟩ := inductionHypothesis split' fromSources'
          refine ⟨max fuel more, all, ?_⟩
          rw [List.foldlM_cons, if_pos rfl,
            isGeneratedBySourceOp_mono (Nat.le_max_left _ _) isAnswer]
          exact foldlM_mono
            (fun _ _ => isGeneratedBySourceOp_mono (Nat.le_max_right _ _)) isAll

theorem exists_answer_of_acc
    (acc : Acc (fun earlier value => Consults funcOp value earlier) value) :
    ∃ fuel answer, isGeneratedBySourceOp funcOp fuel value = some answer := by
  induction acc with
  | intro value _ inductionHypothesis =>
      cases isDefined : funcOp.definingOp value with
      | none => exact ⟨1, false, by rw [isGeneratedBySourceOp, isDefined]⟩
      | some op =>
          by_cases isSource : funcOp.kind op = .source
          · refine ⟨1, true, ?_⟩
            rw [isGeneratedBySourceOp, isDefined]
            exact if_pos isSource
          · obtain ⟨fuel, answer, isAnswer⟩ := exists_answer_operands isDefined isSource
              inductionHypothesis (List.nil_append _).symm
              (fun _ mem => absurd mem List.not_mem_nil)
            refine ⟨fuel + 1, answer, ?_⟩
            rw [isGeneratedBySourceOp, isDefined]
            exact (if_neg isSource).trans isAnswer

/-- The recursion ends on a value exactly if it is led around no cycle. -/
theorem exists_answer_iff :
    (∃ fuel answer, isGeneratedBySourceOp funcOp fuel value = some answer) ↔
      NoCycleConsulted funcOp value := by
  rw [NoCycleConsulted, no_chain_iff_acc]
  exact ⟨fun ⟨_, _, isAnswer⟩ => acc_of_answer isAnswer, exists_answer_of_acc⟩

/-! ### What the answer says -/

theorem EndsInSources.of_feeds {earlier : Value} (ends : EndsInSources funcOp value)
    (feeds : Feeds funcOp value earlier) : EndsInSources funcOp earlier where
  ends := by
    rintro ⟨chain, rfl, steps⟩
    refine ends.ends ⟨fun place => Nat.casesOn place value chain, rfl, fun place => ?_⟩
    cases place with
    | zero => exact feeds
    | succ place => exact steps place
  inSource := fun last back => ends.inSource last (.head feeds back)

theorem EndsInSources.fromSources (ends : EndsInSources funcOp value) :
    FromSources funcOp value := by
  have acc := no_chain_iff_acc.mp ends.ends
  induction acc with
  | intro value _ inductionHypothesis =>
      cases isDefined : funcOp.definingOp value with
      | none =>
          obtain ⟨op, isDefined', -⟩ := ends.inSource value .refl fun earlier ⟨op, isDefined', _⟩ =>
            nomatch isDefined.symm.trans isDefined'
          exact nomatch isDefined.symm.trans isDefined'
      | some op =>
          by_cases isSource : funcOp.kind op = .source
          · exact .source isDefined isSource
          · refine .step isDefined fun operand mem => ?_
            have feeds : Feeds funcOp value (funcOp.get operand) :=
              ⟨op, isDefined, isSource, operand, mem, rfl⟩
            exact inductionHypothesis _ feeds (ends.of_feeds feeds)

/-- A value that only comes from sources is not fed by an endless chain. -/
theorem FromSources.not_endless (comes : FromSources funcOp value) :
    ¬ ∃ chain : Nat → Value, chain 0 = value ∧
      ∀ place, Feeds funcOp (chain place) (chain (place + 1)) := by
  induction comes with
  | source isDefined isSource =>
      rintro ⟨chain, rfl, feeds⟩
      obtain ⟨op, isDefined', notSource, -⟩ := feeds 0
      cases isDefined.symm.trans isDefined'
      exact notSource isSource
  | step isDefined _ inductionHypothesis =>
      rintro ⟨chain, rfl, feeds⟩
      obtain ⟨op, isDefined', notSource, operand, mem, same⟩ := feeds 0
      cases isDefined.symm.trans isDefined'
      exact inductionHypothesis operand mem
        ⟨fun place => chain (place + 1), same.symm, fun place => feeds (place + 1)⟩

theorem FromSources.of_feeds {earlier : Value} (comes : FromSources funcOp value)
    (feeds : Feeds funcOp value earlier) : FromSources funcOp earlier := by
  obtain ⟨op, isDefined, notSource, operand, mem, rfl⟩ := feeds
  cases comes with
  | source isDefined' isSource =>
      cases isDefined.symm.trans isDefined'
      exact absurd isSource notSource
  | step isDefined' all =>
      cases isDefined.symm.trans isDefined'
      exact all operand mem

/-- A value that only comes from sources ends in them unless an operation without operands
feeds it. -/
theorem FromSources.endsInSources (comes : FromSources funcOp value)
    (operandsFeed : OperandsFeed funcOp value) : EndsInSources funcOp value where
  ends := comes.not_endless
  inSource := by
    intro last back isLast
    have lastComes : FromSources funcOp last := by
      clear isLast
      induction back with
      | refl => exact comes
      | tail _ feeds inductionHypothesis => exact inductionHypothesis.of_feeds feeds
    cases lastComes with
    | @source _ op isDefined isSource => exact ⟨op, isDefined, isSource⟩
    | @step _ op isDefined _ =>
        by_cases isSource : funcOp.kind op = .source
        · exact ⟨op, isDefined, isSource⟩
        · obtain ⟨operand, mem⟩ :=
            List.exists_mem_of_ne_nil _ (operandsFeed last op back isDefined isSource)
          exact absurd ⟨op, isDefined, isSource, operand, mem, rfl⟩ (isLast _)

theorem EndsInSources.operandsFeed (ends : EndsInSources funcOp value) :
    OperandsFeed funcOp value := by
  intro fed op back isDefined notSource isNil
  obtain ⟨source, isDefined', isSource⟩ := ends.inSource fed back
    fun earlier ⟨other, isDefined', _, operand, mem, _⟩ => by
      cases isDefined.symm.trans isDefined'
      rw [isNil] at mem
      exact List.not_mem_nil mem
  cases isDefined.symm.trans isDefined'
  exact notSource isSource

/-- The recursion ends on a value, and says that the value ends in sources exactly if it does, if
and only if it is led around no cycle and nothing without operands feeds a value that only comes
from sources. -/
theorem isGeneratedBySourceOp_correct_iff :
    (∃ fuel answer, isGeneratedBySourceOp funcOp fuel value = some answer ∧
      (answer = true ↔ EndsInSources funcOp value)) ↔
    NoCycleConsulted funcOp value ∧ (FromSources funcOp value → OperandsFeed funcOp value) := by
  rw [← exists_answer_iff]
  constructor
  · rintro ⟨fuel, answer, isAnswer, exact_⟩
    refine ⟨⟨fuel, answer, isAnswer⟩, fun comes => ?_⟩
    exact (exact_.mp ((isGeneratedBySourceOp_iff isAnswer).mpr comes)).operandsFeed
  · rintro ⟨⟨fuel, answer, isAnswer⟩, operandsFeed⟩
    refine ⟨fuel, answer, isAnswer, (isGeneratedBySourceOp_iff isAnswer).trans ?_⟩
    exact ⟨fun comes => comes.endsInSources (operandsFeed comes), EndsInSources.fromSources⟩

open Numerals in
/-- A counter in a loop: a merge of a constant from a source and of the sum of its own result
and the constant. -/
def counterCircuit : FuncOp (Fin 4) (Fin 4) (Fin 5) where
  operations := List.finRange 4
  kind
    | 0 => .source | 2 => .merge | _ => .other
  logicBB _ := some 0
  operands
    | 0 => [] | 1 => [0] | 2 => [1, 2] | 3 => [3, 4]
  results op := [op]
  owner
    | 0 => 1 | 1 => 2 | 2 => 2 | 3 => 3 | 4 => 3
  get
    | 0 => 0 | 1 => 1 | 2 => 3 | 3 => 2 | 4 => 1
  definingOp := some
  uses
    | 0 => [0] | 1 => [1, 4] | 2 => [3] | 3 => [2]
  mem_operations := by decide
  mem_operands := by decide
  mem_results := by decide
  mem_uses := by decide

/-- The recursion goes from the merge to the sum and back. -/
theorem isGeneratedBySourceOp_counterCircuit :
    ¬ ∀ value, ∃ fuel answer, isGeneratedBySourceOp counterCircuit fuel value = some answer ∧
      (answer = true ↔ EndsInSources counterCircuit value) := by
  intro correct
  obtain ⟨fuel, answer, isAnswer, -⟩ := correct 2
  have constant : FromSources counterCircuit 1 := by
    refine @FromSources.step _ _ _ counterCircuit 1 1 rfl fun operand mem => ?_
    cases List.mem_singleton.mp mem
    exact @FromSources.source _ _ _ counterCircuit 0 0 rfl rfl
  have endless : ∀ fuel, isGeneratedBySourceOp counterCircuit fuel 2 = none ∧
      isGeneratedBySourceOp counterCircuit fuel 3 = none := by
    intro fuel
    induction fuel with
    | zero => exact ⟨rfl, rfl⟩
    | succ fuel inductionHypothesis =>
        obtain ⟨merge, sum⟩ := inductionHypothesis
        constructor
        · change ((isGeneratedBySourceOp counterCircuit fuel 1).bind fun all =>
            (if all then isGeneratedBySourceOp counterCircuit fuel 3 else some false).bind some) =
              none
          cases asked : isGeneratedBySourceOp counterCircuit fuel 1 with
          | none => rfl
          | some answer =>
              obtain rfl := (isGeneratedBySourceOp_iff asked).mpr constant
              rw [sum]
              rfl
        · change (isGeneratedBySourceOp counterCircuit fuel 2).bind _ = none
          rw [merge]
          rfl
  rw [(endless fuel).1] at isAnswer
  cases isAnswer

end Dynamatic.Speculation.Placement
