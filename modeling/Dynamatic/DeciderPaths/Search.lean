import Mathlib.Algebra.GroupWithZero.Nat
import Mathlib.Data.List.Nodup

/-!
# The paths from a decider to its branches

`findDeciderBranchPaths` follows the token that an arithmetic operation emits through forks and
buffers to conditional branches. It names the buffer slots on the way, each with the sent bits of
the forks behind it.
-/

namespace Dynamatic.DeciderPaths

/-- The bit in which a fork remembers that it has sent its token on an output. -/
structure EagerForkSentNamer where
  opName : String
  channelName : String
  channelSize : Nat
  deriving DecidableEq, Repr

structure BufferSlotFullNamer where
  opName : String
  slotName : String
  dataName : String
  slotSize : Nat
  deriving DecidableEq, Repr

/-- A slot and the sent bits of the forks that may have copied its token. -/
structure EffectiveSlotNamer where
  slot : BufferSlotFullNamer
  copiedSents : List EagerForkSentNamer
  deriving DecidableEq, Repr

inductive BufferType where
  | oneSlotBreakDV | oneSlotBreakR | fifoBreakNone | fifoBreakDV | oneSlotBreakDVR
  | shiftRegBreakDV | counterBuffer
  deriving DecidableEq, Repr

inductive Kind (Value : Type) where
  | arith (result : Value)
  | load
  | fork (operand : Value) (results : List Value)
  | buffer (operand : Value) (numSlots : Nat) (bufferType : BufferType) (result : Value)
  | conditionalBranch
  | other
  deriving DecidableEq, Repr

namespace Kind

variable {Value : Type}

/-- The operand of operations that have a single one. -/
def operand? : Kind Value → Option Value
  | fork operand _ | buffer operand _ _ _ => some operand
  | _ => none

/-- The results that a search can follow. -/
def results : Kind Value → List Value
  | arith result | buffer _ _ _ result => [result]
  | fork _ results => results
  | _ => []

end Kind

/-- A circuit in which every channel has one producer and one user. -/
structure Circuit (Op Value : Type) where
  name : Op → String
  kind : Op → Kind Value
  user : Value → Op
  dataBitWidth : Value → Nat
  name_injective : Function.Injective name
  results_nodup : ∀ op, (kind op).results.Nodup
  definer_unique : ∀ {op other value}, value ∈ (kind op).results → value ∈ (kind other).results →
    op = other
  operand_eq : ∀ {value operand}, (kind (user value)).operand? = some operand → operand = value

namespace Circuit

variable {Op Value : Type} (circuit : Circuit Op Value)

def simpleResultName (idx count : Nat) : String :=
  if count = 1 then "outs" else "outs_" ++ toString idx

/-- `ForkOp::getInternalSentStateNamers`. -/
def getInternalSentStateNamers (op : Op) : List EagerForkSentNamer :=
  match circuit.kind op with
  | .fork _ results => results.zipIdx.map fun (res, i) =>
      ⟨circuit.name op, simpleResultName i results.length, circuit.dataBitWidth res⟩
  | _ => []

/-- `BufferOp::getInternalSlotStateNamers`, which fails for types whose slots have no names. -/
def getInternalSlotStateNamers (op : Op) : Option (List BufferSlotFullNamer) :=
  match circuit.kind op with
  | .buffer operand numSlots bufferType _ =>
      let name := circuit.name op
      let width := circuit.dataBitWidth operand
      match bufferType with
      | .oneSlotBreakDV =>
          if numSlots = 1 then some [⟨name, "outs_valid_i", "data", width⟩] else none
      | .oneSlotBreakR => if numSlots = 1 then some [⟨name, "full", "data", width⟩] else none
      | .fifoBreakNone =>
          if numSlots = 1 then some [⟨name, "full", "reg", width⟩]
          else some ((List.range numSlots).map fun i =>
            ⟨name, "b" ++ toString i ++ ".full", "b" ++ toString i ++ ".reg", width⟩)
      | .fifoBreakDV | .oneSlotBreakDVR | .shiftRegBreakDV | .counterBuffer => none
  | _ => none

end Circuit

structure UnstartedPath (Op : Type) where
  started : List EffectiveSlotNamer
  startSents : List EagerForkSentNamer
  branch : Op
  deriving DecidableEq, Repr

structure PartialPath (Value : Type) where
  slots : List EffectiveSlotNamer
  startSents : List EagerForkSentNamer
  cur : Value
  deriving DecidableEq, Repr

/-- `slots.back().copiedSents.push_back(sent)`. -/
def copySent (sent : EagerForkSentNamer) : List EffectiveSlotNamer → List EffectiveSlotNamer
  | [] => []
  | [back] => [{ back with copiedSents := back.copiedSents ++ [sent] }]
  | slot :: next :: rest => slot :: copySent sent (next :: rest)

/-- The paths that go on from the outputs of a fork. As long as there is no slot, the sent bit of
an output is put on the path that the next outputs copy, not on the one of the output. -/
def forkPaths {Value : Type} (path : PartialPath Value) :
    List (EagerForkSentNamer × Value) → List (PartialPath Value)
  | [] => []
  | (sent, channel) :: rest =>
      if path.slots = [] then
        { path with cur := channel } ::
          forkPaths { path with startSents := path.startSents ++ [sent] } rest
      else
        { path with slots := copySent sent path.slots, cur := channel } :: forkPaths path rest

namespace Circuit

variable {Op Value : Type} (circuit : Circuit Op Value)

/-- The loop over the stack, whose top comes first here. -/
def search : Nat → List (PartialPath Value) → List (UnstartedPath Op) →
    Option (List (UnstartedPath Op))
  | 0, _, _ => none
  | _ + 1, [], ret => some ret
  | fuel + 1, path :: stack, ret =>
      let next := circuit.user path.cur
      match circuit.kind next with
      | .fork _ results =>
          let sents := circuit.getInternalSentStateNamers next
          search fuel ((forkPaths path (sents.zip results)).reverse ++ stack) ret
      | .buffer _ _ _ result =>
          match circuit.getInternalSlotStateNamers next with
          | none => none
          | some slots =>
              let path := { path with slots := path.slots ++ slots.map (⟨·, []⟩), cur := result }
              search fuel (path :: stack) ret
      | .conditionalBranch => search fuel stack (ret ++ [⟨path.slots, path.startSents, next⟩])
      | _ => none

/-- The search starts behind arithmetic operations only. -/
def findDeciderBranchPaths (fuel : Nat) (dec : Op) : Option (List (UnstartedPath Op)) :=
  match circuit.kind dec with
  | .arith startChannel => circuit.search fuel [⟨[], [], startChannel⟩] []
  | _ => none

end Circuit

end Dynamatic.DeciderPaths
