import Dynamatic.Bitwidth.Provenance

/-!
# Tokens in narrowed cycles

A search that leads back to the result leaves a set of channels that is closed: what is
forwarded to one of them is on another one or was merged from outside. A token that a
firing puts on the cycle then survives the narrowing when the tokens before it do. The
indices of control merges are the exception: the search passes from an index to the
data, although the index is none of the data tokens.
-/

namespace Dynamatic.Bitwidth

namespace Graph

variable (graph : Graph) (op : Nat)

/-- The values that an operation's result comes from through forwarding operations. An
index comes from nowhere. -/
inductive Reached : Wire → Prop where
  | result : Reached (.channel ⟨op, 0⟩)
  | forward {source : Channel} {operation : Operation} {wire : Wire}
      (reached : Reached (.channel source)) (defines : graph.ops[source.op]? = some operation)
      (data : graph.isIndex source = false) (mem : wire ∈ forwarded operation) : Reached wire

/-- Channels that forward only what is on other ones or merged from outside, up to the
leaves. -/
structure Closed (leaf : Channel → Prop) (merged : List Wire) (values : Channel → Prop) :
    Prop where
  reached : ∀ {source}, values source → graph.Reached op (.channel source)
  forwards : ∀ {source}, values source → leaf source ∨ graph.isIndex source = true ∨
    ∃ operation, graph.ops[source.op]? = some operation ∧ operation.kind.forwards = true ∧
      ∀ operand ∈ forwarded operation, operand ∈ merged ∨
        ∃ inner, operand = .channel inner ∧ values inner

/-- The wire is in a closed set. -/
def InCycle (leaf : Channel → Prop) (merged : List Wire) (wire : Wire) : Prop :=
  ∃ source values, wire = .channel source ∧ values source ∧ graph.Closed op leaf merged values

end Graph

section Search

variable {graph : Graph} {op : Nat} {leaf : Channel → Prop} {merged : List Wire}

namespace Graph

theorem isIndex_zero (graph : Graph) (op : Nat) : graph.isIndex ⟨op, 0⟩ = false := by
  unfold isIndex
  split
  · exact Bool.and_false _
  · rfl

/-- A leaf or an index is closed on its own. -/
theorem InCycle.stop {source : Channel} (reached : graph.Reached op (.channel source))
    (stops : leaf source ∨ graph.isIndex source = true) :
    graph.InCycle op leaf merged (.channel source) := by
  refine ⟨source, (· = source), rfl, rfl, ?_, ?_⟩
  · rintro _ rfl
    exact reached
  · rintro _ rfl
    exact stops.imp_right .inl

theorem InCycle.mono {larger : Channel → Prop} {more : List Wire} {wire : Wire}
    (inCycle : graph.InCycle op leaf merged wire) (leaves : ∀ source, leaf source → larger source)
    (subset : merged ⊆ more) : graph.InCycle op larger more wire := by
  obtain ⟨source, values, rfl, mem, closed⟩ := inCycle
  refine ⟨source, values, rfl, mem, closed.reached, fun inner => ?_⟩
  refine (closed.forwards inner).imp (leaves _) (Or.imp_right ?_)
  rintro ⟨operation, defines, forwards, operands⟩
  exact ⟨operation, defines, forwards, fun operand isOperand =>
    (operands operand isOperand).imp_left fun inMerged => subset inMerged⟩

/-- An operation closes the cycle when its operands are closed up to its own results. -/
theorem InCycle.forward {source : Channel} {operation : Operation}
    (reached : graph.Reached op (.channel source))
    (defines : graph.ops[source.op]? = some operation) (forwards : operation.kind.forwards = true)
    (operands : ∀ operand ∈ forwarded operation, operand ∈ merged ∨
      graph.InCycle op (fun inner => leaf inner ∨ inner.op = source.op) merged operand) :
    graph.InCycle op leaf merged (.channel source) := by
  let values : Channel → Prop := fun inner => inner = source ∨
    ∃ found, found inner ∧
      graph.Closed op (fun inner => leaf inner ∨ inner.op = source.op) merged found
  have closes : ∀ operand ∈ forwarded operation, operand ∈ merged ∨
      ∃ inner, operand = .channel inner ∧ values inner := by
    intro operand isOperand
    refine (operands operand isOperand).imp_right ?_
    rintro ⟨inner, found, rfl, mem, closed⟩
    exact ⟨inner, rfl, .inr ⟨found, mem, closed⟩⟩
  refine ⟨source, values, rfl, .inl rfl, ?_, ?_⟩
  · rintro inner (rfl | ⟨found, mem, closed⟩)
    · exact reached
    · exact closed.reached mem
  · rintro inner (rfl | ⟨found, mem, closed⟩)
    · exact .inr (.inr ⟨operation, defines, forwards, closes⟩)
    · obtain (stops | own) | index | ⟨other, otherDefines, otherForwards, others⟩ :=
        closed.forwards mem
      · exact .inl stops
      · exact .inr (.inr ⟨operation, own ▸ defines, forwards, closes⟩)
      · exact .inr (.inl index)
      · refine .inr (.inr ⟨other, otherDefines, otherForwards, fun operand isOperand => ?_⟩)
        refine (others operand isOperand).imp_right ?_
        rintro ⟨deeper, rfl, deeperMem⟩
        exact ⟨deeper, rfl, .inr ⟨found, deeperMem, closed⟩⟩

/-- What the search finds is a closed set. -/
theorem inCycle_of_isOperandInCycle {res : Channel} {depth : Nat} {visited : VisitedOps}
    {wire : Wire} (found : graph.isOperandInCycle res depth visited wire = (true, merged))
    (reached : graph.Reached op wire) :
    graph.InCycle op (fun source => source = res ∨ source.op ∈ visited) merged wire := by
  induction depth generalizing visited wire merged with
  | zero => cases found
  | succ depth inductionHypothesis =>
      cases wire with
      | extSI width operand => cases found
      | extUI width operand => cases found
      | truncI width operand => cases found
      | constant value ctrl => cases found
      | channel source =>
          rw [isOperandInCycle] at found
          split at found
          · rename_i isResult
            exact .stop reached (.inl (.inl isResult))
          split at found
          · cases found
          rename_i operation defines
          split at found
          · cases found
          split at found
          · rename_i seen
            exact .stop reached (.inl (.inr seen))
          cases index : graph.isIndex source with
          | true => exact .stop reached (.inr index)
          | false =>
              have deeper : ∀ {operand found}, operand ∈ forwarded operation →
                  graph.isOperandInCycle res depth (source.op :: visited) operand = (true, found) →
                    found ⊆ merged → graph.InCycle op
                      (fun inner => (inner = res ∨ inner.op ∈ visited) ∨ inner.op = source.op)
                      merged operand := by
                intro operand found mem finds subset
                refine (inductionHypothesis finds (reached.forward defines index mem)).mono ?_ subset
                rintro inner (isResult | seen)
                · exact .inl (.inl isResult)
                · exact (List.mem_cons.mp seen).elim .inr fun old => .inl (.inr old)
              have merges : (if (forwarded operation).any fun operand =>
                      (graph.isOperandInCycle res depth (source.op :: visited) operand).1 then
                    (true, (forwarded operation).flatMap fun operand =>
                      if (graph.isOperandInCycle res depth (source.op :: visited) operand).1 then
                        (graph.isOperandInCycle res depth (source.op :: visited) operand).2
                      else [operand])
                    else (false, [])) = (true, merged) →
                  ∀ operand ∈ forwarded operation, operand ∈ merged ∨ graph.InCycle op
                    (fun inner => (inner = res ∨ inner.op ∈ visited) ∨ inner.op = source.op)
                    merged operand := by
                intro found operand mem
                split at found
                · obtain ⟨_, rfl⟩ := Prod.mk.inj found
                  cases finds : graph.isOperandInCycle res depth (source.op :: visited) operand with
                  | mk inCycle inner =>
                      cases inCycle with
                      | true =>
                          refine .inr (deeper mem finds fun value isInner => ?_)
                          exact List.mem_flatMap.mpr ⟨operand, mem, by rwa [finds]⟩
                      | false =>
                          exact .inl (List.mem_flatMap.mpr
                            ⟨operand, mem, by rw [finds]; exact .head _⟩)
                · cases found
              simp only at found
              split at found
              all_goals rename_i kind
              iterate 5
                refine .forward reached defines (by rw [kind]; rfl) fun operand mem => ?_
                split at found
                · rename_i only forwardsOne
                  rw [forwardsOne, List.mem_singleton] at mem
                  exact .inr (deeper (mem ▸ forwardsOne ▸ .head _) (mem ▸ found) (List.Subset.refl _))
                · cases found
              iterate 5 exact .forward reached defines (by rw [kind]; rfl) (merges found)
              all_goals cases found

theorem Reached.width_eq (verified : graph.Verified) {wire : Wire}
    (reached : graph.Reached op wire) : graph.width wire = (graph.type ⟨op, 0⟩).width := by
  induction reached with
  | result => rfl
  | forward _ defines data mem inductionHypothesis =>
      exact (verified.forwardedWidth defines mem data).trans inductionHypothesis

theorem forwardCycleOpt_eq_some {optWidth : ExtWidth}
    (narrows : graph.forwardCycleOpt op = some optWidth) :
    ∃ operation dataWidth, graph.ops[op]? = some operation ∧
      (operation.kind = .merge ∨ operation.kind = .mux ∨ operation.kind = .controlMerge) ∧
      graph.type ⟨op, 0⟩ = .integer dataWidth ∧
      computeDataForwardResult ((graph.allMergedValues op operation).map fun wire =>
        ⟨(graph.backtrackToMinimalWire wire).extType,
          graph.width (graph.backtrackToMinimalWire wire).wire⟩) = optWidth ∧
      optWidth.bitWidth < dataWidth := by
  obtain ⟨operation, defines, narrows⟩ := Option.bind_eq_some_iff.mp narrows
  split at narrows
  all_goals first
    | cases narrows
    | rename_i dataWidth kind type
      simp only at narrows
      split at narrows
      · cases narrows
      · split at narrows
        · rename_i less
          cases narrows
          exact ⟨operation, dataWidth, defines, by simp [kind], type, rfl, less⟩
        · cases narrows

/-- The cycles through the operation's result are closed. -/
theorem inCycle_result {operation : Operation} (defines : graph.ops[op]? = some operation)
    (forwards : operation.kind.forwards = true) :
    graph.InCycle op (fun _ => False) (graph.allMergedValues op operation)
      (.channel ⟨op, 0⟩) := by
  refine .forward .result defines forwards fun operand mem => ?_
  have reached := Reached.result.forward defines (graph.isIndex_zero op) mem
  cases found : graph.isOperandInCycle ⟨op, 0⟩ graph.depth [] operand with
  | mk inCycle inner =>
      cases inCycle with
      | true =>
          refine .inr ((inCycle_of_isOperandInCycle found reached).mono ?_ fun value isInner => ?_)
          · rintro source (rfl | seen)
            · exact .inr rfl
            · cases seen
          · exact List.mem_flatMap.mpr ⟨operand, mem, by rwa [found]⟩
      | false => exact .inl (List.mem_flatMap.mpr ⟨operand, mem, by rw [found]; exact .head _⟩)

/-- The index that a firing emits is not one that the narrowed operation's result comes
from, or it survives the narrowing. -/
def IndexSurvives (graph : Graph) (op : Nat) (optWidth : ExtWidth) (label : Label) : Prop :=
  graph.isIndex ⟨label.op, 1⟩ = true → graph.Reached op (.channel ⟨label.op, 1⟩) →
    (Word.ofNat (graph.type ⟨label.op, 1⟩).width label.choice).Survives optWidth

end Graph

end Search

section Survival

variable {graph : Graph} {op : Nat} {operation : Operation} {optWidth : ExtWidth}
  {values : Channel → Prop} {state next : State} {label : Label}

/-- Whatever a firing puts on the cycle survives. -/
theorem Graph.Closed.survives_of_emitted (verified : graph.Verified)
    (closed : graph.Closed op (fun _ => False) (graph.allMergedValues op operation) values)
    (result : computeDataForwardResult ((graph.allMergedValues op operation).map fun wire =>
      ⟨(graph.backtrackToMinimalWire wire).extType,
        graph.width (graph.backtrackToMinimalWire wire).wire⟩) = optWidth)
    (le : optWidth.bitWidth ≤ (graph.type ⟨op, 0⟩).width)
    (sourced : state.Sourced graph)
    (survive : ∀ source, values source → ∀ word ∈ state.history source, word.Survives optWidth)
    (index : graph.IndexSurvives op optWidth label) {source : Channel} (mem : values source)
    {word : Word} (emitted : Emitted graph state label source word) : word.Survives optWidth := by
  cases emitted with
  | @forwarded operation' wire defines data isForwarded carries =>
      obtain leaf | isIndex | ⟨other, otherDefines, _, operands⟩ := closed.forwards mem
      · exact leaf.elim
      · exact absurd isIndex (Bool.eq_false_iff.mp data)
      · cases Option.some.inj (defines.symm.trans otherDefines)
        cases operands wire isForwarded with
        | inl merged =>
            have reached := (closed.reached mem).forward defines data isForwarded
            refine Word.Represented.survives ?_ ?_
            · rw [← result]
              exact (sourced.represented carries).computeDataForwardResult
                (List.mem_map.mpr ⟨wire, merged, rfl⟩)
            · rw [sourced.typed.width_eq carries, reached.width_eq verified]
              exact le
        | inr inner =>
            obtain ⟨channel, rfl, inValues⟩ := inner
            exact survive channel inValues word (State.carries_channel.mp carries)
  | index defines isIndex fires choice wordEq =>
      subst fires
      rw [wordEq]
      exact index isIndex (closed.reached mem)
  | made defines makes width =>
      obtain leaf | isIndex | ⟨other, otherDefines, forwards, _⟩ := closed.forwards mem
      · exact leaf.elim
      · rw [State.Sourced.forwards_of_isIndex defines isIndex] at makes
        cases makes
      · cases Option.some.inj (defines.symm.trans otherDefines)
        exact absurd forwards (Bool.eq_false_iff.mp makes)

end Survival

end Dynamatic.Bitwidth
