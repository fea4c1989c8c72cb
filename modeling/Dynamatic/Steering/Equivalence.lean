import Dynamatic.Steering.Circuit

/-!
# Merging equivalent steering units

`areEquivalentValues` compares values by the operations that define them, and four patterns
replace the results of a unit by those of another one when their operands are equivalent.
Equal constants count as equivalent whatever triggers them. The definitions follow
`HandshakeCombineSteeringLogic.cpp`; where the triggers of the compared constants unfold to
the same units, a replaced unit has the token streams of the other one.
-/

namespace Dynamatic.Steering

open Bitwidth Kahn

namespace Circuit

variable (circuit : Circuit)

/-- Whether two values are functionally equivalent. -/
def areEquivalentValues : Nat → Value → Value → Bool
  | 0, _, _ => false
  | depth + 1, a, b =>
      if a = b then true
      else if circuit.type a ≠ circuit.type b then false
      else
        match circuit.getDefiningOp a, circuit.getDefiningOp b with
        | some ⟨.constant valueA, _, _⟩, some ⟨.constant valueB, _, _⟩ => valueA = valueB
        | some ⟨.notI, [operandA], _⟩, some ⟨.notI, [operandB], _⟩ =>
            areEquivalentValues depth operandA operandB
        | _, _ => false

/-- Enough to tell values by walks that do not run in circles. -/
def depth : Nat := circuit.ops.length + 1

def equivalent (a b : Value) : Bool := circuit.areEquivalentValues circuit.depth a b

def isConstant (val : Value) : Bool :=
  match circuit.getDefiningOp val with
  | some ⟨.constant _, _, _⟩ => true
  | _ => false

/-- The constant among two operands, if there is exactly one. -/
def getSingleConstantOperandIndex (first second : Value) : Option Nat :=
  match circuit.isConstant first, circuit.isConstant second with
  | true, false => some 0
  | false, true => some 1
  | _, _ => none

/-- What the patterns ask of two operations: the kinds, the numbers of operands, and which
operands must be equivalent. -/
def redundantTo (kept other : Operation) : Bool :=
  match kept, other with
  | ⟨.merge, [first, second], _⟩, ⟨.merge, [first', second'], _⟩ =>
      (circuit.getSingleConstantOperandIndex first second).isSome &&
        circuit.getSingleConstantOperandIndex first' second' =
          circuit.getSingleConstantOperandIndex first second &&
        circuit.equivalent first' first && circuit.equivalent second' second
  | ⟨.notI, [operand], _⟩, ⟨.notI, [operand'], _⟩ => circuit.equivalent operand' operand
  | ⟨.mux, [select, first, second], _⟩, ⟨.mux, [select', first', second'], _⟩ =>
      circuit.equivalent select' select && circuit.equivalent first' first &&
        circuit.equivalent second' second
  | ⟨.condBranch, [condition, data], _⟩, ⟨.condBranch, [condition', data'], _⟩ =>
      circuit.equivalent condition' condition && circuit.equivalent data' data
  | _, _ => false

/-- The operations that a pattern matched on an operation replaces by it: `CombineInits`,
`CombineEquivalentNotIOps`, `CombineEquivalentMuxes` or `CombineEquivalentBranches`, by the
kind of the operation. -/
def redundant (kept : Nat) : List Nat :=
  (List.range circuit.ops.length).filter fun other =>
    other ≠ kept &&
      match circuit.operation kept, circuit.operation other with
      | some keptOp, some otherOp => circuit.redundantTo keptOp otherOp
      | _, _ => false

/-- A result of an operation that is replaced becomes that of the kept one. -/
def image (kept : Nat) (replaced : List Nat) (val : Value) : Value :=
  if val.op ∈ replaced then ⟨kept, val.result⟩ else val

/-- All uses of some operations' results are replaced, and the operations erased. -/
def replaceAll (kept : Nat) (replaced : List Nat) : Circuit where
  ops := circuit.ops.mapIdx fun op operation =>
    if op ∈ replaced then none
    else operation.map fun operation =>
      { operation with operands := operation.operands.map (image kept replaced) }
  type := circuit.type

/-- A pattern matched on an operation fires. -/
def combine (kept : Nat) : Circuit := circuit.replaceAll kept (circuit.redundant kept)

/-- The constants that are compared are triggered alike: their triggers are the same value, or
unfold to the same units. -/
def TriggersAgree : Nat → Value → Value → Prop
  | 0, _, _ => True
  | depth + 1, a, b =>
      a = b ∨
        match circuit.getDefiningOp a, circuit.getDefiningOp b with
        | some ⟨.constant _, triggersA, _⟩, some ⟨.constant _, triggersB, _⟩ =>
            List.Forall₂ circuit.network.Bisimilar triggersA triggersB
        | some ⟨.notI, [operandA], _⟩, some ⟨.notI, [operandB], _⟩ =>
            TriggersAgree depth operandA operandB
        | _, _ => True

end Circuit

section Streams

variable {circuit : Circuit} {a b : Value} {op kept : Nat}

theorem Circuit.network_kind {operation : Operation} (result : Nat)
    (defines : circuit.operation op = some operation) :
    circuit.network.kind ⟨op, result⟩ = ⟨operation.kind, result⟩ := by
  simp only [network, defines, Option.map_some, Option.getD_some]

theorem Circuit.network_operands {operation : Operation} (result : Nat)
    (defines : circuit.operation op = some operation) :
    circuit.network.operands ⟨op, result⟩ = operation.operands := by
  simp only [network, operands, defines, Option.map_some, Option.getD_some]

theorem Circuit.getDefiningOp_eq_some {operation : Operation}
    (defines : circuit.getDefiningOp a = some operation) :
    circuit.operation a.op = some operation ∧ a.result < operation.kind.numResults := by
  simpa [getDefiningOp, Option.filter_eq_some_iff] using defines

/-- Single results of one kind of operation with bisimilar operands are bisimilar. -/
theorem Circuit.bisimilar_of_definingOps {first second : Operation}
    (definesA : circuit.getDefiningOp a = some first)
    (definesB : circuit.getDefiningOp b = some second) (kind : first.kind = second.kind)
    (single : first.kind.numResults ≤ 1)
    (operands : List.Forall₂ circuit.network.Bisimilar first.operands second.operands) :
    circuit.network.Bisimilar a b := by
  obtain ⟨operationA, boundA⟩ := getDefiningOp_eq_some definesA
  obtain ⟨operationB, boundB⟩ := getDefiningOp_eq_some definesB
  refine Network.Bisimilar.of_operands ?_ ?_
  · rw [network_kind a.result operationA, network_kind b.result operationB, kind]
    rw [← kind] at boundB
    exact congrArg _ (by omega)
  · rw [network_operands a.result operationA, network_operands b.result operationB]
    exact operands

/-- Equivalent values are bisimilar when the constants are triggered alike. -/
theorem Circuit.bisimilar_of_areEquivalentValues {depth : Nat}
    (equivalent : circuit.areEquivalentValues depth a b = true)
    (agree : circuit.TriggersAgree depth a b) : circuit.network.Bisimilar a b := by
  induction depth generalizing a b with
  | zero => cases equivalent
  | succ depth inductionHypothesis =>
      rw [areEquivalentValues] at equivalent
      split at equivalent
      · rename_i same
        exact same ▸ Network.Bisimilar.refl a
      · rename_i differs
        rw [TriggersAgree] at agree
        replace agree := agree.resolve_left differs
        split at equivalent
        · cases equivalent
        · split at equivalent
          · rename_i definesA definesB
            rw [definesA, definesB] at agree
            refine bisimilar_of_definingOps definesA definesB ?_ (Nat.le_refl 1) agree
            rw [of_decide_eq_true equivalent]
          · rename_i definesA definesB
            rw [definesA, definesB] at agree
            exact bisimilar_of_definingOps definesA definesB rfl (Nat.le_refl 1)
              (.cons (inductionHypothesis equivalent agree) .nil)
          · cases equivalent

/-- The operands of a replaced operation, against those of the kept one, are constants triggered
alike or lead to such. -/
def Circuit.OperandsAgree (circuit : Circuit) (kept other : Nat) : Prop :=
  List.Forall₂ (circuit.TriggersAgree circuit.depth) (circuit.operands other)
    (circuit.operands kept)

theorem Circuit.mem_redundant {other : Nat} (mem : other ∈ circuit.redundant kept) :
    other ≠ kept ∧ ∃ keptOp otherOp, circuit.operation kept = some keptOp ∧
      circuit.operation other = some otherOp ∧ circuit.redundantTo keptOp otherOp = true := by
  rw [redundant, List.mem_filter, Bool.and_eq_true, decide_eq_true_eq] at mem
  obtain ⟨_, differs, redundant⟩ := mem
  split at redundant
  · rename_i keptOp otherOp isKept isOther
    exact ⟨differs, keptOp, otherOp, isKept, isOther, redundant⟩
  · cases redundant

/-- The patterns ask for one kind of operation and equivalent operands. -/
theorem Circuit.of_redundantTo {keptOp otherOp : Operation}
    (redundant : circuit.redundantTo keptOp otherOp = true) :
    otherOp.kind = keptOp.kind ∧
      List.Forall₂ (fun a b => circuit.equivalent a b = true) otherOp.operands
        keptOp.operands := by
  unfold redundantTo at redundant
  split at redundant
  · simp only [Bool.and_eq_true] at redundant
    exact ⟨rfl, .cons redundant.1.2 (.cons redundant.2 .nil)⟩
  · exact ⟨rfl, .cons redundant .nil⟩
  · simp only [Bool.and_eq_true] at redundant
    exact ⟨rfl, .cons redundant.1.1 (.cons redundant.1.2 (.cons redundant.2 .nil))⟩
  · simp only [Bool.and_eq_true] at redundant
    exact ⟨rfl, .cons redundant.1 (.cons redundant.2 .nil)⟩
  · cases redundant

private theorem forall₂_and {α β : Type} {first second : α → β → Prop} {xs : List α} {ys : List β}
    (before : List.Forall₂ first xs ys) (after : List.Forall₂ second xs ys) :
    List.Forall₂ (fun x y => first x y ∧ second x y) xs ys := by
  induction before with
  | nil => exact .nil
  | cons head _ inductionHypothesis =>
      cases after with
      | cons next rest => exact .cons ⟨head, next⟩ (inductionHypothesis rest)

/-- The results of a replaced operation and of the kept one are bisimilar. -/
theorem Circuit.bisimilar_of_redundant {other : Nat} (mem : other ∈ circuit.redundant kept)
    (agree : circuit.OperandsAgree kept other) (result : Nat) :
    circuit.network.Bisimilar ⟨other, result⟩ ⟨kept, result⟩ := by
  obtain ⟨_, keptOp, otherOp, isKept, isOther, redundant⟩ := mem_redundant mem
  obtain ⟨kind, equivalent⟩ := of_redundantTo redundant
  refine Network.Bisimilar.of_operands ?_ ?_
  · rw [network_kind result isKept, network_kind result isOther, kind]
  · simp only [OperandsAgree, operands, isKept, isOther, Option.map_some, Option.getD_some] at agree
    rw [network_operands result isKept, network_operands result isOther]
    exact (forall₂_and equivalent agree).imp fun _ _ ⟨equivalent, agree⟩ =>
      bisimilar_of_areEquivalentValues equivalent agree

theorem Circuit.operation_replaceAll {replaced : List Nat} :
    (circuit.replaceAll kept replaced).operation op =
      if op ∈ replaced then none
      else (circuit.operation op).map fun operation =>
        { operation with operands := operation.operands.map (image kept replaced) } := by
  simp only [operation, replaceAll, List.getElem?_mapIdx]
  cases circuit.ops[op]? with
  | none => split <;> rfl
  | some operation => split <;> rfl

/-- Replacing bisimilar results leaves the histories of the others as they are. -/
theorem Circuit.history_replaceAll (environment : Environment) {replaced : List Nat}
    (bisimilar : ∀ other ∈ replaced, ∀ result,
      circuit.network.Bisimilar ⟨other, result⟩ ⟨kept, result⟩)
    (survives : kept ∉ replaced) {val : Value} (remains : val.op ∉ replaced) (time : Nat) :
    (circuit.replaceAll kept replaced).network.history environment.units time val =
      circuit.network.history environment.units time val := by
  have imageBisimilar : ∀ val, circuit.network.Bisimilar val (image kept replaced val) := by
    intro val
    rw [image]
    split
    · rename_i isReplaced
      exact bisimilar val.op isReplaced val.result
    · exact .refl val
  have lands : ∀ val, (image kept replaced val).op ∉ replaced := by
    intro val
    rw [image]
    split
    · exact survives
    · assumption
  have same : ∀ val : Value, val.op ∉ replaced →
      (circuit.replaceAll kept replaced).operation val.op =
        (circuit.operation val.op).map fun operation =>
          { operation with operands := operation.operands.map (image kept replaced) } :=
    fun val remains => by rw [operation_replaceAll, if_neg remains]
  have kinds : ∀ val : Value, val.op ∉ replaced →
      (circuit.replaceAll kept replaced).network.kind val = circuit.network.kind val := by
    intro val remains
    simp only [network, same val remains, Option.map_map]
    rfl
  have operandsMapped : ∀ val : Value, val.op ∉ replaced →
      (circuit.replaceAll kept replaced).network.operands val =
        (circuit.network.operands val).map (image kept replaced) := by
    intro val remains
    simp only [network, operands, same val remains]
    cases circuit.operation val.op <;> rfl
  exact @Network.history_of_replaced _ _ _ _ _ _ _ (fun val => val.op ∉ replaced) _ imageBisimilar
    lands kinds operandsMapped time remains

theorem Circuit.not_mem_redundant : kept ∉ circuit.redundant kept :=
  fun mem => (mem_redundant mem).1 rfl

/-- What remains after a firing keeps its histories. -/
theorem Circuit.history_combine (environment : Environment)
    (agree : ∀ other ∈ circuit.redundant kept, circuit.OperandsAgree kept other) {val : Value}
    (remains : val.op ∉ circuit.redundant kept) (time : Nat) :
    (circuit.combine kept).network.history environment.units time val =
      circuit.network.history environment.units time val :=
  circuit.history_replaceAll environment
    (fun other mem => bisimilar_of_redundant mem (agree other mem)) not_mem_redundant remains time

/-- A pattern fires where the compared constants are triggered alike: the results that it
replaces have the streams of the ones it keeps, and all that remain keep their streams. -/
theorem combine_streams (environment : Environment) (circuit : Circuit) (kept : Nat)
    (agree : ∀ other ∈ circuit.redundant kept, circuit.OperandsAgree kept other) :
    (∀ other ∈ circuit.redundant kept, ∀ result,
      circuit.network.SameStream environment.units circuit.network ⟨other, result⟩
        ⟨kept, result⟩) ∧
    ∀ val : Value, val.op ∉ circuit.redundant kept →
      (circuit.combine kept).network.SameStream environment.units circuit.network val val := by
  refine ⟨fun other mem result => ?_, fun val remains => ?_⟩
  · exact Network.sameStream_of_history_eq fun time =>
      (Circuit.bisimilar_of_redundant mem (agree other mem) result).history_eq time
  · exact Network.sameStream_of_history_eq fun time =>
      circuit.history_combine environment agree remains time

end Streams

/-- An environment that sends a token for each of some arguments, again and again. -/
def Environment.sending (arguments : List Nat) : Environment where
  arguments := fun index _ => if index ∈ arguments then some (.ofNat 1 0) else none
  merge := fun _ => []
  other := fun _ _ _ => []
  mergeMonotone := @nil_mergeMonotone
  otherMonotone := @nil_otherMonotone

/-- Two muxes of equal constants, with a trigger each. -/
def constantMuxes (first second : OpKind) : Circuit where
  ops :=
    [ some ⟨.argument 0, [], none⟩
    , some ⟨first, [], none⟩
    , some ⟨second, [], none⟩
    , some ⟨.constant (.ofNat 8 5), [⟨1, 0⟩], none⟩
    , some ⟨.constant (.ofNat 8 5), [⟨2, 0⟩], none⟩
    , some ⟨.mux, [⟨0, 0⟩, ⟨3, 0⟩, ⟨3, 0⟩], none⟩
    , some ⟨.mux, [⟨0, 0⟩, ⟨4, 0⟩, ⟨4, 0⟩], none⟩ ]
  type := fun _ => 0

/-- Constants triggered by sources make the second mux redundant. -/
theorem combine_streams_sources :
    let circuit := constantMuxes .source .source
    let units := (Environment.sending [0]).units
    (∀ other ∈ circuit.redundant 5, ∀ result,
      circuit.network.SameStream units circuit.network ⟨other, result⟩ ⟨5, result⟩) ∧
    ∀ val : Value, val.op ∉ circuit.redundant 5 →
      (circuit.combine 5).network.SameStream units circuit.network val val := by
  intro circuit units
  refine combine_streams (.sending [0]) circuit 5 fun other mem => ?_
  have redundant : circuit.redundant 5 = [6] := by decide
  rw [redundant, List.mem_singleton] at mem
  subst mem
  have sources : circuit.network.Bisimilar ⟨2, 0⟩ ⟨1, 0⟩ := .of_operands rfl .nil
  have constants : circuit.TriggersAgree circuit.depth ⟨4, 0⟩ ⟨3, 0⟩ :=
    .inr (.cons sources .nil)
  exact .cons (.inl rfl) (.cons constants (.cons constants .nil))

/-- A constant that is never triggered is taken for one that is. -/
theorem starved_not_sameStream : ¬ ∀ (environment : Environment) (circuit : Circuit) (kept : Nat),
    ∀ other ∈ circuit.redundant kept, ∀ result,
      circuit.network.SameStream environment.units circuit.network ⟨other, result⟩
        ⟨kept, result⟩ := by
  intro same
  let circuit := constantMuxes (.argument 1) (.argument 2)
  let environment := Environment.sending [0, 1]
  have redundant : 6 ∈ circuit.redundant 5 := by decide
  have carries : circuit.network.Carries environment.units ⟨5, 0⟩ 0 (.ofNat 8 5) :=
    ⟨4, by decide +kernel⟩
  obtain ⟨time, held⟩ := (same environment circuit 5 6 redundant 0 0 (.ofNat 8 5)).mpr carries
  have triggers : ∀ time, circuit.network.history environment.units time ⟨2, 0⟩ = [] := by
    rintro (_ | time)
    · rfl
    · exact List.filterMap_eq_nil_iff.mpr fun _ _ => rfl
  have constants : ∀ time, circuit.network.history environment.units time ⟨4, 0⟩ = [] := by
    rintro (_ | time)
    · rfl
    · exact List.map_eq_nil_iff.mpr (triggers time)
  cases time with
  | zero => cases held
  | succ time =>
      have starved : circuit.network.history environment.units (time + 1) ⟨6, 0⟩ =
          muxTokens (circuit.network.history environment.units time ⟨0, 0⟩) [[], []] := by
        rw [← constants time]
        rfl
      have stuck : ∀ selects, muxTokens selects [[], []] = [] := by
        rintro (_ | ⟨select, selects⟩)
        · rfl
        · rw [muxTokens]
          rcases select.bits.toNat with _ | _ | index <;> rfl
      rw [starved, stuck] at held
      cases held

section Run

variable {circuit : Circuit} {op : Nat}

end Run

end Dynamatic.Steering
