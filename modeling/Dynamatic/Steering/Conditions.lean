import Dynamatic.Steering.Regeneration

/-!
# Rewriting the conditions of branches

Five patterns take negations, known values, constants and muxes out of the conditions of
branches. Each is a function from a circuit and an operation to the circuit after the rewrite
and the value that replaces each one, or nothing when the pattern does not match. The
definitions follow `HandshakeCombineSteeringLogic.cpp`.
-/

namespace Dynamatic.Steering

open Bitwidth Kahn

/-- A circuit after a rewrite, and the value that replaces each one. -/
structure Rewritten where
  circuit : Circuit
  image : Value → Value

/-- The other result of a branch. -/
def swap : Nat → Nat
  | 0 => 1
  | 1 => 0
  | result => result

namespace Circuit

variable (circuit : Circuit)

/-- Operations are created with the width of their results, all uses of values are replaced, and
operations erased. -/
def rewrite (created : List (Operation × Nat)) (image : Value → Value) (erased : List Nat) :
    Rewritten where
  circuit :=
    { ops := (circuit.ops ++ created.map fun new => some new.1).mapIdx
        fun op operation =>
          if op ∈ erased then none
          else operation.map fun operation =>
            { operation with operands := operation.operands.map image }
      type := fun val =>
        if val.op < circuit.ops.length then circuit.type val
        else ((created[val.op - circuit.ops.length]?).map Prod.snd).getD 0 }
  image := image

/-- The basic block of a condition, or else of the branch that it is for. -/
def conditionBB (condition : Value) (fallback : Option Nat) : Option Nat :=
  ((circuit.getDefiningOp condition).bind Operation.bb).or fallback

/-- Other branches on a condition and data. -/
def findRedundantBranches (condOperand dataOperand : Value) (originalBranch : Nat) : List Nat :=
  (List.range circuit.ops.length).filter fun br =>
    br ≠ originalBranch && (circuit.operation br).any fun operation =>
      operation.kind = .condBranch && operation.operands = [condOperand, dataOperand]

/-- What a value negates. -/
def notOperand (val : Value) : Option Value :=
  match circuit.getDefiningOp val with
  | some ⟨.notI, [operand], _⟩ => some operand
  | _ => none

/-- Branches on the condition that a branch negates go, their results swapped. -/
def combineBranchesOppositeSign (op : Nat) : Option Rewritten :=
  match circuit.operation op with
  | some ⟨.condBranch, [condition, data], _⟩ =>
      match circuit.notOperand condition with
      | some condOperand =>
          let redundant := circuit.findRedundantBranches condOperand data op
          if redundant = [] then none
          else some (circuit.rewrite [] (fun val =>
            if val.op ∈ redundant then ⟨op, swap val.result⟩ else val) redundant)
      | none => none
  | _ => none

/-- A branch on a negation becomes one on what it negates, its results swapped. -/
def removeNotCondition (op : Nat) : Option Rewritten :=
  match circuit.operation op with
  | some ⟨.condBranch, [condition, data], bb⟩ =>
      match circuit.notOperand condition with
      | some operand =>
          some (circuit.rewrite
            [(⟨.condBranch, [operand, data], circuit.conditionBB operand bb⟩, circuit.type data)]
            (fun val => if val.op = op then ⟨circuit.ops.length, swap val.result⟩ else val) [op])
      | none => none
  | _ => none

/-- Whether the data of a branch is its condition, or one negates the other. -/
def inverted (condition data : Value) : Option Bool :=
  if condition = data then some false
  else if circuit.notOperand condition = some data then some true
  else if circuit.notOperand data = some condition then some true
  else none

/-- The branches on a value; each user is listed once. -/
def downstream (branchOutput : Value) : List Nat :=
  (circuit.users branchOutput).filter fun br => (circuit.operation br).any fun operation =>
    operation.kind = .condBranch && operation.operands.head? = some branchOutput

/-- A branch gets a constant for its condition, triggered by a source. -/
def setCondition (known : Bool) (circuit : Circuit) (br : Nat) : Circuit :=
  let bb := (circuit.operation br).bind Operation.bb
  let sourceOp : Value := ⟨circuit.ops.length, 0⟩
  let constOp : Value := ⟨circuit.ops.length + 1, 0⟩
  { ops := (circuit.ops.mapIdx fun op operation =>
      if op = br then operation.map fun operation =>
        { operation with operands := constOp :: operation.operands.tail }
      else operation) ++
        [some ⟨.source, [], bb⟩, some ⟨.constant (.ofNat 1 known.toNat), [sourceOp], bb⟩]
    type := fun val =>
      if val.op = circuit.ops.length + 1 then 1
      else if val.op = circuit.ops.length then 0 else circuit.type val }

def replaceDownstreamCond (circuit : Circuit) (branchOutput : Value) (known : Bool) : Circuit :=
  (circuit.downstream branchOutput).foldl (setCondition known) circuit

/-- The results of a branch that takes its condition, or the negation of it, for data are known
bits, and are replaced by constants where they are conditions. -/
def simplifyKnownConditionBranch (op : Nat) : Option Rewritten :=
  match circuit.operation op with
  | some ⟨.condBranch, [condition, data], _⟩ =>
      match circuit.inverted condition data with
      | some inverted =>
          let first := circuit.replaceDownstreamCond ⟨op, 0⟩ (!inverted)
          if circuit.downstream ⟨op, 0⟩ = [] ∧ first.downstream ⟨op, 1⟩ = [] then none
          else some ⟨first.replaceDownstreamCond ⟨op, 1⟩ inverted, id⟩
      | none => none
  | _ => none

/-- An operation is erased when no result of it is used. -/
def eraseUnused (op : Nat) : Circuit :=
  if (List.range circuit.ops.length).any fun user =>
    (circuit.operands user).any fun operand => operand.op = op
  then circuit
  else { circuit with ops := circuit.ops.set op none }

/-- A constant is erased when it is not used, and then its source. -/
def eraseUnusedConstant (constOp : Nat) (trigger : Value) : Circuit :=
  let after := circuit.eraseUnused constOp
  match after.operation constOp, after.operation trigger.op with
  | none, some ⟨.source, _, _⟩ => after.eraseUnused trigger.op
  | _, _ => after

/-- The data of a branch on a constant goes on where the constant sends it, if nothing is on the
other side. A value cannot be replaced by itself. -/
def eliminateConstantCondBranch (op : Nat) : Option Rewritten :=
  match circuit.operation op with
  | some ⟨.condBranch, [condition, data], _⟩ =>
      match circuit.getDefiningOp condition with
      | some ⟨.constant value, [trigger], _⟩ =>
          let takenResult : Value := ⟨op, if value.isZero then 1 else 0⟩
          let notTakenResult : Value := ⟨op, if value.isZero then 0 else 1⟩
          if circuit.users notTakenResult ≠ [] ∨ data = takenResult then none
          else
            let short := circuit.rewrite [] (fun val => if val = takenResult then data else val) [op]
            some ⟨short.circuit.eraseUnusedConstant condition.op (short.image trigger), short.image⟩
      | _ => none
  | _ => none

/-- Whether an edge of the control flow graph leaves a loop at the block of an operation. The
edges are those that the function is annotated with: source, true and false successor. -/
def isInLoopExitBB (edges : List (Nat × Nat × Nat)) (op : Nat) : Bool :=
  match (circuit.operation op).bind Operation.bb with
  | some bb =>
      match edges.find? fun edge => edge.1 = bb with
      | some (source, trueSucc, falseSucc) => decide (trueSucc ≤ source) != decide (falseSucc ≤ source)
      | none => false
  | none => false

/-- The value of a constant as a condition. -/
def constValue (val : Value) : Option Bool :=
  match circuit.getDefiningOp val with
  | some ⟨.constant value, _, _⟩ => some !value.isZero
  | _ => none

/-- A branch on a mux of a condition and a constant becomes a branch on the select of the mux,
whose result on the side of the condition goes to a branch on the condition. Nothing is on the
side where the constant sends data. -/
def splitBranchWithMuxCondition (edges : List (Nat × Nat × Nat)) (op : Nat) : Option Rewritten :=
  match circuit.operation op with
  | some ⟨.condBranch, [condition, data], bb⟩ =>
      match circuit.getDefiningOp condition with
      | some ⟨.mux, [baseCond, first, second], _⟩ =>
          match circuit.getSingleConstantOperandIndex first second with
          | some constIdx =>
              let constOperand := if constIdx = 0 then first else second
              let nestedCond := if constIdx = 0 then second else first
              let trueEmpty : Bool := circuit.users ⟨op, 0⟩ = []
              let falseEmpty : Bool := circuit.users ⟨op, 1⟩ = []
              if !circuit.isInLoopExitBB edges op &&
                  circuit.findRedundantBranches baseCond data op = [] then none
              else if trueEmpty = falseEmpty then none
              else if circuit.constValue constOperand ≠ some trueEmpty then none
              else
                let outerBranch := circuit.ops.length
                let outerToInner : Value := ⟨outerBranch, if constIdx = 1 then 1 else 0⟩
                some (circuit.rewrite
                  [(⟨.condBranch, [baseCond, data], circuit.conditionBB baseCond bb⟩,
                      circuit.type data),
                    (⟨.condBranch, [nestedCond, outerToInner], circuit.conditionBB nestedCond bb⟩,
                      circuit.type data)]
                  (fun val => if val.op = op then ⟨outerBranch + 1, val.result⟩ else val) [op])
          | none => none
      | _ => none
  | _ => none

end Circuit

/-- The patterns. -/
inductive ConditionPattern where
  | combineBranchesOppositeSign
  | removeNotCondition
  | simplifyKnownConditionBranch
  | eliminateConstantCondBranch
  | splitBranchWithMuxCondition
  deriving DecidableEq, Repr

/-- A pattern is tried on an operation. -/
def ConditionPattern.matchAndRewrite (edges : List (Nat × Nat × Nat)) (circuit : Circuit)
    (op : Nat) : ConditionPattern → Option Rewritten
  | combineBranchesOppositeSign => circuit.combineBranchesOppositeSign op
  | removeNotCondition => circuit.removeNotCondition op
  | simplifyKnownConditionBranch => circuit.simplifyKnownConditionBranch op
  | eliminateConstantCondBranch => circuit.eliminateConstantCondBranch op
  | splitBranchWithMuxCondition => circuit.splitBranchWithMuxCondition edges op

end Dynamatic.Steering
