import Dynamatic.Kahn.Forwarding
import Mathlib.Data.List.Nodup
import Mathlib.Data.List.Perm.Subperm

/-!
# Materialization of circuits

Every control or channel value of a circuit gets exactly one use: a sink where it has none,
an eager fork where it has several. The definitions follow the first of the three steps of
`HandshakeMaterialize.cpp`.
-/

namespace Dynamatic.Materialize

open Kahn

inductive ValueType where
  | control
  | channel (width : Nat)
  | other

/-- An argument of the function, or a result of an operation. -/
inductive Value where
  | argument (number : Nat)
  | result (op number : Nat)
  deriving DecidableEq

inductive Kind where
  | fork
  | sink
  | other (unit : Nat)

structure Operation where
  kind : Kind
  operands : List Value
  resultTypes : List ValueType

structure Circuit where
  arguments : List ValueType
  ops : List Operation

namespace Circuit

variable (circuit : Circuit)

def operands (op : Nat) : List Value := (circuit.ops[op]?.map Operation.operands).getD []

def type : Value → Option ValueType
  | .argument number => circuit.arguments[number]?
  | .result op number => circuit.ops[op]?.bind fun operation => operation.resultTypes[number]?

/-- The values in the order in which the pass comes to them. -/
def values : List Value :=
  (List.range circuit.arguments.length).map .argument ++
    (List.range circuit.ops.length).flatMap fun op =>
      (List.range ((circuit.ops[op]?.map Operation.resultTypes).getD []).length).map (.result op)

/-- The owners of the uses of a value. -/
def owners (val : Value) : List Nat :=
  (List.range circuit.ops.length).flatMap fun op =>
    List.replicate ((circuit.operands op).count val) op

def numUses (val : Value) : Nat := (circuit.owners val).length

def eligibleForMaterialization (val : Value) : Bool :=
  match circuit.type val with
  | some .control | some (.channel _) => true
  | _ => false

/-- What the errors call a value. -/
def description : Value → String
  | .argument number => s!"function argument {number}"
  | .result _ number => s!"result {number}"

def checkUses (val : Value) : Except String Unit :=
  if ¬ circuit.eligibleForMaterialization val then .ok ()
  else if circuit.numUses val = 0 then .error (description val ++ " has no uses.")
  else if 1 < circuit.numUses val then .error (description val ++ " has multiple uses.")
  else .ok ()

def verifyIRMaterialized : Except String Unit := circuit.values.forM circuit.checkUses

/-- The first operand of an operation that is the old value becomes the new one. -/
def replaceFirstUse (user : Nat) (oldVal newVal : Value) : Circuit :=
  { circuit with ops := circuit.ops.modify user fun op =>
      { op with operands := op.operands.replace oldVal newVal } }

/-- First uses of a value are replaced, one after the other. -/
def replaceUses (val : Value) (replacements : List (Nat × Value)) : Circuit :=
  replacements.foldl (fun circuit replacement =>
    circuit.replaceFirstUse replacement.1 val replacement.2) circuit

def insert (op : Operation) : Circuit := { circuit with ops := circuit.ops ++ [op] }

/-- A new operation, and results of it in the place of uses of a value. -/
def attach (op : Operation) (val : Value) (replacements : List (Nat × Value)) : Circuit :=
  (circuit.insert op).replaceUses val replacements

def results (op count : Nat) : List Value := (List.range count).map (.result op)

end Circuit

/-- In which order a value lists its uses, which depends on how the circuit came about. -/
structure UseOrder where
  users : Circuit → Value → List Nat
  perm : ∀ circuit val, (users circuit val).Perm (circuit.owners val)

variable (order : UseOrder)

def materializeValue (circuit : Circuit) (val : Value) : Circuit :=
  if ¬ circuit.eligibleForMaterialization val then circuit
  else if circuit.numUses val = 0 then circuit.insert ⟨.sink, [val], []⟩
  else if circuit.numUses val = 1 then circuit
  else
    let numUses := circuit.numUses val
    let valUsers := order.users circuit val
    let forkType := (circuit.type val).getD .other
    let forkOp := circuit.ops.length
    circuit.attach ⟨.fork, [val], List.replicate numUses forkType⟩ val
      (valUsers.zip (Circuit.results forkOp numUses))

/-- The first step of the pass, for one function. -/
def materialize (circuit : Circuit) : Circuit :=
  circuit.values.foldl (materializeValue order) circuit

/-- What drives a value. -/
inductive Driver where
  | argument (number : Nat)
  | unit (kind : Option Kind) (result : Nat)

def Circuit.network (circuit : Circuit) : Network Value Driver where
  kind
    | .argument number => .argument number
    | .result op number => .unit (circuit.ops[op]?.map Operation.kind) number
  operands
    | .argument _ => []
    | .result op _ => circuit.operands op

/-- Units among which an eager fork puts on each result what it takes. -/
structure Units (Token : Type) extends Interpretation Driver Token where
  fork : ∀ result time tokens, output (.unit (some .fork) result) time [tokens] = tokens

/-- Operands are arguments of the function or results of its operations. -/
def Circuit.Valid (circuit : Circuit) : Prop :=
  ∀ op, ∀ operand ∈ circuit.operands op, (circuit.type operand).isSome

end Dynamatic.Materialize
