import Dynamatic.Steering.Conditions

/-!
# Streams under rewritten conditions

A pattern that rewrites the condition of a branch keeps what its results carry, up to tokens that
a constant was too short for: the new streams begin with the old ones, and are the same when the
constants keep up. Units and their replacements are compared on operands that cover each other.
-/

namespace Dynamatic.Steering

open Bitwidth Kahn

/-! ### Tokens of a branch -/

section Tokens

/-- The tokens that a branch sends to one of its results, by its number. -/
def resultTokens : Nat → List Word → List Word → List Word
  | 0 => branchTokens true
  | 1 => branchTokens false
  | _ => fun _ _ => []

variable {conditions more data others : List Word}

theorem resultTokens_grows {result : Nat} (first : conditions <+: more) (second : data <+: others) :
    resultTokens result conditions data <+: resultTokens result more others := by
  match result with
  | 0 => exact branchTokens_grows first second
  | 1 => exact branchTokens_grows first second
  | _ + 2 => exact List.nil_prefix

theorem swap_swap (result : Nat) : swap (swap result) = result := by
  match result with
  | 0 | 1 | _ + 2 => rfl

theorem isZero_invert {word : Word} (isBit : word.width = 1) :
    (invert word).isZero = !word.isZero := by
  obtain ⟨width, bits⟩ := word
  subst isBit
  revert bits
  decide

@[simp] theorem branchTokens_nil (side : Bool) (data : List Word) :
    branchTokens side [] data = [] := rfl

@[simp] theorem branchTokens_nil_data (side : Bool) (conditions : List Word) :
    branchTokens side conditions [] = [] := by
  cases conditions <;> rfl

@[simp] theorem branchTokens_cons (side : Bool) (condition token : Word)
    (conditions data : List Word) :
    branchTokens side (condition :: conditions) (token :: data) =
      if (!condition.isZero) = side then token :: branchTokens side conditions data
      else branchTokens side conditions data := by
  simp only [branchTokens, List.zip_cons_cons, List.filter_cons, decide_eq_true_eq]
  split <;> rfl

/-- A branch on negated bits has its results swapped. -/
theorem branchTokens_invert {side : Bool} (areBits : ∀ word ∈ conditions, word.width = 1) :
    branchTokens side (conditions.map invert) data = branchTokens (!side) conditions data := by
  induction conditions generalizing data with
  | nil => rfl
  | cons condition conditions inductionHypothesis =>
      obtain ⟨isBit, areBits⟩ := List.forall_mem_cons.mp areBits
      cases data with
      | nil => simp
      | cons token data =>
          rw [List.map_cons, branchTokens_cons, branchTokens_cons, isZero_invert isBit,
            inductionHypothesis areBits]
          cases condition.isZero <;> cases side <;> rfl

theorem resultTokens_swap {result : Nat} (areBits : ∀ word ∈ conditions, word.width = 1) :
    resultTokens (swap result) (conditions.map invert) data =
      resultTokens result conditions data := by
  match result with
  | 0 => exact branchTokens_invert areBits
  | 1 => exact branchTokens_invert areBits
  | _ + 2 => rfl

/-- On known conditions a branch sends all data to one side, as long as there are conditions. -/
theorem branchTokens_known {side known : Bool}
    (isKnown : ∀ word ∈ conditions, (!word.isZero) = known) :
    branchTokens side conditions data = if side = known then data.take conditions.length else [] := by
  induction conditions generalizing data with
  | nil => simp
  | cons condition conditions inductionHypothesis =>
      obtain ⟨here, rest⟩ := List.forall_mem_cons.mp isKnown
      cases data with
      | nil => simp
      | cons token data =>
          rw [branchTokens_cons, here, inductionHypothesis rest]
          cases known <;> cases side <;> rfl

/-- Known conditions differ by their number only. -/
theorem resultTokens_known {result : Nat} {known : Bool}
    (isKnown : ∀ word ∈ conditions, (!word.isZero) = known)
    (alsoKnown : ∀ word ∈ more, (!word.isZero) = known) (grows : data <+: others)
    (suffices_ : min conditions.length data.length ≤ more.length) :
    resultTokens result conditions data <+: resultTokens result more others := by
  have sides (side : Bool) : branchTokens side conditions data <+: branchTokens side more others := by
    rw [branchTokens_known isKnown, branchTokens_known alsoKnown]
    split
    · refine List.prefix_take_iff.mpr ⟨(List.take_prefix _ _).trans grows, ?_⟩
      rwa [List.length_take]
    · exact List.prefix_refl _
  match result with
  | 0 => exact sides true
  | 1 => exact sides false
  | _ + 2 => exact List.prefix_refl _

/-- Tokens that come in pairs, one list beginning with what a function makes of the other. -/
theorem eq_of_mem_zip_begins {change : Word → Word} (begins : conditions <+: data.map change)
    {pair : Word × Word} (mem : pair ∈ conditions.zip data) : pair.1 = change pair.2 := by
  induction conditions generalizing data with
  | nil => cases mem
  | cons condition conditions inductionHypothesis =>
      cases data with
      | nil => cases mem
      | cons token data =>
          obtain ⟨same, begins⟩ := List.cons_prefix_cons.mp begins
          rcases List.mem_cons.mp mem with rfl | mem
          · exact same
          · exact inductionHypothesis begins mem

theorem eq_of_mem_zip_begins_right {change : Word → Word}
    (begins : data <+: conditions.map change) {pair : Word × Word}
    (mem : pair ∈ conditions.zip data) : pair.2 = change pair.1 := by
  rw [← List.zip_swap, List.mem_map] at mem
  obtain ⟨swapped, mem, rfl⟩ := mem
  exact eq_of_mem_zip_begins begins mem

/-- When conditions tell what the data is, a branch sends known data. -/
theorem mem_branchTokens_known {side inverted : Bool}
    (tells : ∀ pair ∈ conditions.zip data, (!pair.2.isZero) = ((!pair.1.isZero) != inverted)) :
    ∀ word ∈ branchTokens side conditions data, (!word.isZero) = (side != inverted) := by
  intro word mem
  obtain ⟨pair, isSent, rfl⟩ := List.mem_map.mp mem
  obtain ⟨isPair, sent⟩ := List.mem_filter.mp isSent
  rw [tells pair isPair, of_decide_eq_true sent]

theorem toNat_bits_le {word : Word} (isBit : word.width = 1) :
    word.bits.toNat = if word.isZero then 0 else 1 := by
  obtain ⟨width, bits⟩ := word
  subst isBit
  revert bits
  decide

/-- The data operands of a mux of a constant and a condition. -/
def splitData (constIdx : Nat) (constants nested : List Word) : List (List Word) :=
  if constIdx = 0 then [constants, nested] else [nested, constants]

theorem splitData_grows {constIdx : Nat} {constants nested : List Word} (first : constants <+: more)
    (second : nested <+: others) : List.Forall₂ (fun operand grown => operand <+: grown)
      (splitData constIdx constants nested) (splitData constIdx more others) := by
  unfold splitData
  split
  · exact .cons first (.cons second .nil)
  · exact .cons second (.cons first .nil)

/-- A branch on a mux of a condition and a constant: the data that passes goes through a branch on
the select and one on the condition, as long as there are constants. -/
theorem branchTokens_split {selects nested constants : List Word} {constIdx : Nat} {side : Bool}
    (isIdx : constIdx ≤ 1) (areBits : ∀ word ∈ selects, word.width = 1)
    (isKnown : ∀ word ∈ constants, (!word.isZero) = !side) :
    branchTokens side (muxTokens selects (splitData constIdx constants nested)) data <+:
        branchTokens side nested (branchTokens (constIdx = 0) selects data) ∧
      ((branchTokens (constIdx = 1) selects data).length ≤ constants.length →
        branchTokens side (muxTokens selects (splitData constIdx constants nested)) data =
          branchTokens side nested (branchTokens (constIdx = 0) selects data)) := by
  induction selects generalizing nested constants data with
  | nil => simp [muxTokens]
  | cons select selects inductionHypothesis =>
      obtain ⟨isBit, areBits⟩ := List.forall_mem_cons.mp areBits
      have bit := toNat_bits_le isBit
      cases data with
      | nil => simp
      | cons token data =>
          by_cases isConst : (!select.isZero) = decide (constIdx = 1)
          · have skipped : ¬ (!select.isZero) = decide (constIdx = 0) := by
              rcases (by omega : constIdx = 0 ∨ constIdx = 1) with rfl | rfl <;> simp_all
            have chosen : (splitData constIdx constants nested)[select.bits.toNat]? =
                some constants := by
              rcases (by omega : constIdx = 0 ∨ constIdx = 1) with rfl | rfl <;>
                simp_all [splitData]
            rw [branchTokens_cons, branchTokens_cons, if_neg skipped, if_pos isConst, muxTokens,
              chosen]
            cases constants with
            | nil => simp
            | cons constant constants =>
                obtain ⟨here, rest⟩ := List.forall_mem_cons.mp isKnown
                have remaining : (splitData constIdx (constant :: constants) nested).set
                    select.bits.toNat constants = splitData constIdx constants nested := by
                  rcases (by omega : constIdx = 0 ∨ constIdx = 1) with rfl | rfl <;>
                    simp_all [splitData]
                have dropped : ¬ (!constant.isZero) = side := by
                  rw [here]
                  cases side <;> decide
                obtain ⟨begins, same⟩ := @inductionHypothesis data nested constants areBits rest
                simp only [remaining, branchTokens_cons, if_neg dropped, List.length_cons,
                  Nat.add_le_add_iff_right]
                exact ⟨begins, same⟩
          · have passes : (!select.isZero) = decide (constIdx = 0) := by
              rcases (by omega : constIdx = 0 ∨ constIdx = 1) with rfl | rfl <;> simp_all
            have chosen : (splitData constIdx constants nested)[select.bits.toNat]? =
                some nested := by
              rcases (by omega : constIdx = 0 ∨ constIdx = 1) with rfl | rfl <;>
                simp_all [splitData]
            rw [branchTokens_cons, branchTokens_cons, if_pos passes, if_neg isConst, muxTokens,
              chosen]
            cases nested with
            | nil => simp
            | cons condition nested =>
                have remaining : (splitData constIdx constants (condition :: nested)).set
                    select.bits.toNat nested = splitData constIdx constants nested := by
                  rcases (by omega : constIdx = 0 ∨ constIdx = 1) with rfl | rfl <;>
                    simp_all [splitData]
                obtain ⟨begins, same⟩ := @inductionHypothesis data nested constants areBits isKnown
                simp only [remaining, branchTokens_cons]
                split
                · exact ⟨List.cons_prefix_cons.mpr ⟨rfl, begins⟩,
                    fun enough => congrArg _ (same enough)⟩
                · exact ⟨begins, same⟩

end Tokens

/-! ### Circuits -/

namespace Circuit

/-- Operands are results of operations that are there; branches have two of them, sources none. -/
structure Closed (circuit : Circuit) : Prop where
  branches : ∀ {op operation}, circuit.operation op = some operation →
    operation.kind = .condBranch → ∃ condition data, operation.operands = [condition, data]
  sources : ∀ {op operation}, circuit.operation op = some operation →
    operation.kind = .source → operation.operands = []
  present : ∀ {op val}, val ∈ circuit.operands op → circuit.operation val.op ≠ none
  results : ∀ {op val operation}, val ∈ circuit.operands op →
    circuit.operation val.op = some operation →
      operation.kind = .condBranch ∨ operation.kind = .source →
        val.result < operation.kind.numResults

/-- A value is the condition of a branch. -/
def IsCondition (circuit : Circuit) (val : Value) : Prop :=
  ∃ op data bb, circuit.operation op = some ⟨.condBranch, [val, data], bb⟩

/-- The tokens of a value have the width of its type. -/
def Typed (circuit : Circuit) (environment : Environment) : Prop :=
  ∀ val time, ∀ word ∈ circuit.network.history environment.units time val,
    word.width = circuit.type val

/-- A result of a branch that is used, or a value whose operation stays. -/
def Lives (circuit after : Circuit) (val : Value) : Prop :=
  circuit.isCondBranch val.op = true ∧ circuit.users val ≠ [] ∨
    circuit.operation val.op ≠ none ∧ after.operation val.op ≠ none

section Histories

variable {circuit : Circuit} {environment : Environment} {op time : Nat} {val : Value}

theorem isCondBranch_of_operation {operands : List Value} {bb : Option Nat}
    (isOperation : circuit.operation op = some ⟨.condBranch, operands, bb⟩) :
    circuit.isCondBranch op = true := by
  simp [isCondBranch, isOperation]

theorem history_condBranch {condition data : Value} {bb : Option Nat}
    (isOperation : circuit.operation op = some ⟨.condBranch, [condition, data], bb⟩)
    (result time : Nat) :
    circuit.network.history environment.units (time + 1) ⟨op, result⟩ =
      resultTokens result (circuit.network.history environment.units time condition)
        (circuit.network.history environment.units time data) := by
  rw [Network.history_succ, network_kind result isOperation, network_operands result isOperation]
  match result with
  | 0 | 1 | _ + 2 => rfl

theorem history_of_definingOp {operation : Operation}
    (defines : circuit.getDefiningOp val = some operation)
    (single : operation.kind.numResults ≤ 1) (time : Nat) :
    circuit.network.history environment.units (time + 1) val =
      environment.output ⟨operation.kind, 0⟩ time
        (operation.operands.map (circuit.network.history environment.units time)) := by
  obtain ⟨isOperation, bound⟩ := getDefiningOp_eq_some defines
  have first : val.result = 0 := by omega
  rw [Network.history_succ, network_kind val.result isOperation,
    network_operands val.result isOperation, first]
  rfl

theorem definingOp_of_notOperand {operand : Value} (negates : circuit.notOperand val = some operand) :
    ∃ bb, circuit.getDefiningOp val = some ⟨.notI, [operand], bb⟩ := by
  unfold notOperand at negates
  split at negates
  · rename_i bb defines
    cases negates
    exact ⟨bb, defines⟩
  · cases negates

theorem history_notOperand {operand : Value} (negates : circuit.notOperand val = some operand)
    (time : Nat) : circuit.network.history environment.units (time + 1) val =
      (circuit.network.history environment.units time operand).map invert := by
  obtain ⟨bb, defines⟩ := definingOp_of_notOperand negates
  exact history_of_definingOp defines le_rfl time

/-- What negates bits carries bits. -/
theorem width_of_notOperand {operand : Value} (negates : circuit.notOperand val = some operand)
    (areBits : ∀ time, ∀ word ∈ circuit.network.history environment.units time val,
      word.width = 1) :
    ∀ time, ∀ word ∈ circuit.network.history environment.units time operand, word.width = 1 := by
  intro time word mem
  have inverted : invert word ∈ circuit.network.history environment.units (time + 1) val := by
    rw [history_notOperand negates]
    exact List.mem_map_of_mem mem
  exact areBits (time + 1) (invert word) inverted

theorem mem_users {user : Nat} (mem : val ∈ circuit.operands user) : user ∈ circuit.users val := by
  rw [users, List.mem_filter, List.mem_range, decide_eq_true_eq]
  refine ⟨?_, mem⟩
  by_contra outside
  have none : circuit.operation user = none := by
    rw [operation, List.getElem?_eq_none_iff.mpr (not_lt.mp outside)]
    rfl
  simp [operands, none] at mem

theorem lt_of_operation (present : circuit.operation op ≠ none) : op < circuit.ops.length := by
  by_contra outside
  exact present (by rw [operation, List.getElem?_eq_none_iff.mpr (not_lt.mp outside)]; rfl)

end Histories

section Rewrites

variable {circuit : Circuit} {created : List (Operation × Nat)} {image : Value → Value}
  {erased : List Nat} {op : Nat}

theorem operation_rewrite (present : op < circuit.ops.length) (kept : op ∉ erased) :
    (circuit.rewrite created image erased).circuit.operation op =
      (circuit.operation op).map fun operation =>
        { operation with operands := operation.operands.map image } := by
  simp only [operation, rewrite, List.getElem?_mapIdx, List.getElem?_append_left present, if_neg kept]
  cases circuit.ops[op]? <;> rfl

theorem operation_rewrite_created {index : Nat} {new : Operation × Nat}
    (isNew : created[index]? = some new) (kept : circuit.ops.length + index ∉ erased) :
    (circuit.rewrite created image erased).circuit.operation (circuit.ops.length + index) =
      some { new.1 with operands := new.1.operands.map image } := by
  have place : (circuit.ops ++ created.map fun new => some new.1)[circuit.ops.length + index]? =
      some (some new.1) := by
    rw [List.getElem?_append_right (Nat.le_add_right _ _), Nat.add_sub_cancel_left,
      List.getElem?_map, isNew]
    rfl
  simp only [operation, rewrite, List.getElem?_mapIdx, place, if_neg kept]
  rfl

theorem operation_rewrite_erased (isErased : op ∈ erased) :
    (circuit.rewrite created image erased).circuit.operation op = none := by
  simp only [operation, rewrite, List.getElem?_mapIdx, if_pos isErased]
  cases (circuit.ops ++ created.map fun new => some new.1)[op]? <;> rfl

/-- Operands live on: only branches are erased, and one that has an operation to take its results
has users. -/
theorem Closed.lives_rewrite (closed : circuit.Closed)
    (branches : ∀ op ∈ erased, circuit.isCondBranch op = true) {val : Value}
    (mem : val ∈ circuit.operands op) :
    circuit.Lives (circuit.rewrite created image erased).circuit val := by
  by_cases isErased : val.op ∈ erased
  · exact .inl ⟨branches _ isErased, List.ne_nil_of_mem (mem_users mem)⟩
  · refine .inr ⟨closed.present mem, ?_⟩
    rw [operation_rewrite (lt_of_operation (closed.present mem)) isErased]
    exact fun gone => closed.present mem (Option.map_eq_none_iff.mp gone)

theorem notOperand_rewrite {val operand : Value} (negates : circuit.notOperand val = some operand)
    (kept : val.op ∉ erased) :
    (circuit.rewrite created image erased).circuit.notOperand val = some (image operand) := by
  obtain ⟨bb, defines⟩ := definingOp_of_notOperand negates
  obtain ⟨isOperation, bound⟩ := getDefiningOp_eq_some defines
  have present : circuit.operation val.op ≠ none := by simp [isOperation]
  have after : (circuit.rewrite created image erased).circuit.getDefiningOp val =
      some ⟨.notI, [image operand], bb⟩ := by
    rw [getDefiningOp, operation_rewrite (lt_of_operation present) kept, isOperation]
    exact Option.filter_eq_some_iff.mpr ⟨rfl, decide_eq_true bound⟩
  simp only [notOperand, after]

/-- A rewrite that erases branches only leaves the other units as they are. -/
theorem regular_rewrite (closed : circuit.Closed)
    (branches : ∀ op ∈ erased, circuit.isCondBranch op = true)
    (fixes : ∀ val : Value, val.op ∉ erased → image val = val) :
    circuit.network.Regular (circuit.rewrite created image erased).circuit.network
      (circuit.Lives (circuit.rewrite created image erased).circuit) (fun val => val.op ∈ erased)
      image := by
  have present {val : Value} (lives : circuit.Lives (circuit.rewrite created image erased).circuit val) :
      circuit.operation val.op ≠ none := by
    rcases lives with ⟨isBranch, _⟩ | ⟨isPresent, _⟩
    · intro none
      simp [isCondBranch, none] at isBranch
    · exact isPresent
  have same {val : Value} (lives : circuit.Lives (circuit.rewrite created image erased).circuit val)
      (kept : val.op ∉ erased) :=
    @operation_rewrite _ created image _ _ (lt_of_operation (present lives)) kept
  refine ⟨fun {val} lives kept => ?_, fun {val} lives kept => ?_, fun {val operand} lives kept mem => ?_⟩
  · rw [fixes val kept]
    simp only [network, same lives kept, Option.map_map]
    rfl
  · rw [fixes val kept]
    simp only [network, operands, same lives kept]
    cases circuit.operation val.op <;> rfl
  · exact closed.lives_rewrite branches mem

end Rewrites

end Circuit

end Dynamatic.Steering
