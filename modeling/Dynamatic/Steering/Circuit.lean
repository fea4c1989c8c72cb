import Dynamatic.Bitwidth.Dataflow
import Dynamatic.Kahn.Network

/-!
# Circuits of steering units

Circuits of the fast token delivery: muxes, conditional branches, merges, negations,
constants and sources among other units. Each unit is a function from the token streams
of its operands to those of its results; a constant emits one token for each trigger
token. In which order a merge takes its operands, and what the other units do, is left to
the environment.
-/

namespace Dynamatic.Steering

open Bitwidth Kahn

/-- A result of an operation. -/
structure Value where
  op : Nat
  result : Nat
  deriving DecidableEq, Repr

/-- The operations that the pass tells apart. -/
inductive OpKind where
  /-- An argument of the function. -/
  | argument (index : Nat)
  | source
  /-- Operand: the trigger. -/
  | constant (value : Word)
  | notI
  | merge
  /-- Operands: select, then the data. -/
  | mux
  /-- Operands: condition, data. Results: true, false. -/
  | condBranch
  | other (unit : Nat)
  deriving DecidableEq, Repr

/-- The results that an operation defines. -/
def OpKind.numResults : OpKind → Nat
  | argument _ => 0
  | condBranch => 2
  | _ => 1

/-- An operation, its operands and the basic block that it is assigned to. -/
structure Operation where
  kind : OpKind
  operands : List Value
  bb : Option Nat
  deriving DecidableEq, Repr

/-- The operations by their numbers; an erased one leaves its place empty. -/
structure Circuit where
  ops : List (Option Operation)
  type : Value → Nat

/-- A unit and one of its results. -/
structure Driver where
  kind : OpKind
  result : Nat
  deriving DecidableEq, Repr

namespace Circuit

variable (circuit : Circuit)

def operation (op : Nat) : Option Operation := circuit.ops[op]?.join

def operands (op : Nat) : List Value := ((circuit.operation op).map Operation.operands).getD []

/-- The operation that defines a value; arguments have none. -/
def getDefiningOp (val : Value) : Option Operation :=
  (circuit.operation val.op).filter fun operation => val.result < operation.kind.numResults

/-- The units that drive the values. -/
def network : Network Value Driver where
  kind := fun val => ⟨((circuit.operation val.op).map Operation.kind).getD (.other 0), val.result⟩
  operands := fun val => circuit.operands val.op

/-- The operations that have a value among their operands. -/
def users (val : Value) : List Nat :=
  (List.range circuit.ops.length).filter fun op => val ∈ circuit.operands op

end Circuit

section Units

def invert (word : Word) : Word := ⟨word.width, ~~~word.bits⟩

/-- A mux takes a token of the data operand that the select token names. -/
def muxTokens : List Word → List (List Word) → List Word
  | [], _ => []
  | select :: selects, data =>
      match data[select.bits.toNat]? with
      | some (token :: rest) => token :: muxTokens selects (data.set select.bits.toNat rest)
      | _ => []

/-- The data tokens that a branch sends to one of its results. -/
def branchTokens (side : Bool) (conditions data : List Word) : List Word :=
  ((conditions.zip data).filter fun pair => (!pair.1.isZero) = side).map Prod.snd

/-- Token streams that come from outside, and the units that the circuit leaves open. -/
structure Environment where
  arguments : Nat → Nat → Option Word
  merge : List (List Word) → List Word
  other : Nat → Nat → List (List Word) → List Word
  mergeMonotone : ∀ {operands more}, List.Forall₂ (fun operand grown => operand <+: grown)
    operands more → merge operands <+: merge more
  otherMonotone : ∀ {unit result operands more},
    List.Forall₂ (fun operand grown => operand <+: grown) operands more →
      other unit result operands <+: other unit result more

/-- Nothing on a result is monotone. -/
theorem nil_mergeMonotone {operands more : List (List Word)}
    (_ : List.Forall₂ (fun operand grown => operand <+: grown) operands more) :
    ([] : List Word) <+: [] :=
  List.prefix_refl _

theorem nil_otherMonotone {_ _ : Nat} {operands more : List (List Word)}
    (_ : List.Forall₂ (fun operand grown => operand <+: grown) operands more) :
    ([] : List Word) <+: [] :=
  List.prefix_refl _

/-- What a unit has put on a result by a time. -/
def Environment.output (environment : Environment) (driver : Driver) (time : Nat)
    (operands : List (List Word)) : List Word :=
  match driver.kind, driver.result, operands with
  | .argument index, 0, _ => (List.range time).filterMap (environment.arguments index)
  | .source, 0, _ => List.replicate time (.ofNat 0 0)
  | .constant value, 0, [ctrl] => ctrl.map fun _ => value
  | .notI, 0, [operand] => operand.map invert
  | .merge, 0, operands => environment.merge operands
  | .mux, 0, select :: data => muxTokens select data
  | .condBranch, 0, [condition, data] => branchTokens true condition data
  | .condBranch, 1, [condition, data] => branchTokens false condition data
  | .other unit, result, operands => environment.other unit result operands
  | _, _, _ => []

end Units

section Monotone

variable {environment : Environment}

private theorem zip_grows {α β : Type} {xs more : List α} {ys others : List β} (first : xs <+: more)
    (second : ys <+: others) : xs.zip ys <+: more.zip others := by
  obtain ⟨restX, rfl⟩ := first
  obtain ⟨restY, rfl⟩ := second
  induction xs generalizing ys with
  | nil => exact List.nil_prefix
  | cons x xs inductionHypothesis =>
      cases ys with
      | nil => exact List.nil_prefix
      | cons y ys => exact List.cons_prefix_cons.mpr ⟨rfl, inductionHypothesis⟩

theorem branchTokens_grows {side : Bool} {conditions more data others : List Word}
    (first : conditions <+: more) (second : data <+: others) :
    branchTokens side conditions data <+: branchTokens side more others :=
  ((zip_grows first second).filter _).map _

private theorem forall₂_set {data more : List (List Word)} {index : Nat} {rest grown : List Word}
    (grows : List.Forall₂ (fun operand grown => operand <+: grown) data more)
    (extended : rest <+: grown) :
    List.Forall₂ (fun operand grown => operand <+: grown) (data.set index rest)
      (more.set index grown) := by
  induction grows generalizing index with
  | nil => exact .nil
  | cons head tail inductionHypothesis =>
      cases index with
      | zero => exact .cons extended tail
      | succ index => exact .cons head inductionHypothesis

private theorem forall₂_getElem? {data more : List (List Word)} {index : Nat} {tokens : List Word}
    (grows : List.Forall₂ (fun operand grown => operand <+: grown) data more)
    (held : data[index]? = some tokens) : ∃ grown, more[index]? = some grown ∧ tokens <+: grown := by
  induction grows generalizing index with
  | nil => cases held
  | cons head tail inductionHypothesis =>
      cases index with
      | zero =>
          cases held
          exact ⟨_, rfl, head⟩
      | succ index => exact inductionHypothesis held

theorem muxTokens_grows {selects moreSelects : List Word} {data more : List (List Word)}
    (first : selects <+: moreSelects)
    (second : List.Forall₂ (fun operand grown => operand <+: grown) data more) :
    muxTokens selects data <+: muxTokens moreSelects more := by
  obtain ⟨rest, rfl⟩ := first
  induction selects generalizing data more with
  | nil => exact List.nil_prefix
  | cons select selects inductionHypothesis =>
      rw [List.cons_append, muxTokens, muxTokens]
      cases held : data[select.bits.toNat]? with
      | none => exact List.nil_prefix
      | some tokens =>
          cases tokens with
          | nil => exact List.nil_prefix
          | cons token tokens =>
              obtain ⟨grown, heldGrown, extended⟩ := forall₂_getElem? second held
              cases grown with
              | nil => exact absurd extended (by simp)
              | cons other others =>
                  obtain ⟨rfl, restExtended⟩ := List.cons_prefix_cons.mp extended
                  rw [heldGrown]
                  exact List.cons_prefix_cons.mpr
                    ⟨rfl, inductionHypothesis (forall₂_set second restExtended)⟩

theorem Environment.output_grows {driver : Driver} {time later : Nat}
    {operands more : List (List Word)} (le : time ≤ later)
    (grows : List.Forall₂ (fun operand grown => operand <+: grown) operands more) :
    environment.output driver time operands <+: environment.output driver later more := by
  obtain ⟨kind, result⟩ := driver
  have range : List.range time <+: List.range later := by
    obtain ⟨more, rfl⟩ := Nat.exists_eq_add_of_le le
    rw [List.range_add]
    exact List.prefix_append _ _
  cases kind with
  | argument index =>
      cases result with
      | zero => exact range.filterMap _
      | succ result => exact List.nil_prefix
  | source =>
      cases result with
      | zero =>
          obtain ⟨more, rfl⟩ := Nat.exists_eq_add_of_le le
          exact ⟨List.replicate more (.ofNat 0 0), List.replicate_append_replicate⟩
      | succ result => exact List.nil_prefix
  | constant value =>
      obtain _ | ⟨head, _ | _⟩ := grows
      · cases result <;> exact List.nil_prefix
      · cases result with
        | zero => exact head.map _
        | succ result => exact List.nil_prefix
      · cases result <;> exact List.nil_prefix
  | notI =>
      obtain _ | ⟨head, _ | _⟩ := grows
      · cases result <;> exact List.nil_prefix
      · cases result with
        | zero => exact head.map _
        | succ result => exact List.nil_prefix
      · cases result <;> exact List.nil_prefix
  | merge =>
      cases result with
      | zero => exact environment.mergeMonotone grows
      | succ result => exact List.nil_prefix
  | mux =>
      cases grows with
      | nil => cases result <;> exact List.nil_prefix
      | cons head tail =>
          cases result with
          | zero => exact muxTokens_grows head tail
          | succ result => exact List.nil_prefix
  | condBranch =>
      obtain _ | ⟨head, _ | ⟨next, _ | _⟩⟩ := grows
      · rcases result with _ | _ | result <;> exact List.nil_prefix
      · rcases result with _ | _ | result <;> exact List.nil_prefix
      · rcases result with _ | _ | result
        · exact branchTokens_grows head next
        · exact branchTokens_grows head next
        · exact List.nil_prefix
      · rcases result with _ | _ | result <;> exact List.nil_prefix
  | other unit => exact environment.otherMonotone grows

end Monotone

/-- What the units put on the values of a circuit. -/
def Environment.units (environment : Environment) : Interpretation Driver Word where
  output := environment.output
  monotone := environment.output_grows

end Dynamatic.Steering
