import Dynamatic.Bitwidth.Dataflow

/-!
# Narrowing of forwarding cycles

`ForwardCycleOpt` follows the data operands of a merge-like operation backwards through
operations that forward one of their operands. Operands that lead back to the result are
in a cycle; what else is merged into the cycle decides the width that the operation is
narrowed to. The definitions follow `HandshakeOptimizeBitwidths.cpp`.
-/

namespace Dynamatic.Bitwidth

/-- The operations visited on the way. -/
abbrev VisitedOps := List Nat

/-- A minimal value: a wire and the extension that leads to the value. -/
structure MinimalWire where
  extType : ExtType
  wire : Wire
  deriving DecidableEq, Repr

/-- The minimal value of a constant. -/
def MinimalWire.ofConstant (value : Word) (ctrl : Wire) : MinimalWire :=
  if computeRequiredBitwidth value.bits ≥ value.width then ⟨.none, .constant value ctrl⟩
  else
    { extType := if value.bits.msb then .sext else .zext
      wire := .constant (value.truncI (computeRequiredBitwidth value.bits)) ctrl }

def getMinimalWire : Wire → MinimalWire
  | .extSI _ operand => ⟨.sext, operand⟩
  | .extUI _ operand => ⟨.zext, operand⟩
  | .constant value ctrl => .ofConstant value ctrl
  | wire => ⟨.none, wire⟩

/-- Forwarded with some of several kinds of extension and widths, the values need a kind
and a width of their own. -/
def computeDataForwardResult (operands : List ExtWidth) : ExtWidth :=
  let optWidth := (operands.map ExtWidth.bitWidth).foldr max 0
  match operands with
  | [] => ⟨.none, 0⟩
  | first :: rest =>
      if rest.all fun operand => operand.extType = first.extType then ⟨first.extType, optWidth⟩
      else
        ⟨.sext, if operands.any fun operand =>
            operand.extType = .zext && operand.bitWidth = optWidth then optWidth + 1
          else optWidth⟩

namespace Graph

variable (graph : Graph)

/-- The wire with its width modified. -/
def modBitWidth (minimal : MinimalWire) (targetWidth : Nat) : Wire :=
  if graph.width minimal.wire = targetWidth then minimal.wire
  else if graph.width minimal.wire < targetWidth then
    if minimal.extType = .zext then .extUI targetWidth minimal.wire
    else .extSI targetWidth minimal.wire
  else .truncI targetWidth minimal.wire

/-- Whether a value leads back to a result through forwarding operations, and the other
values that are merged on the way. -/
def isOperandInCycle (res : Channel) : Nat → VisitedOps → Wire → Bool × List Wire
  | 0, _, _ => (false, [])
  | depth + 1, visited, .channel source =>
      if source = res then (true, [])
      else
        match graph.ops[source.op]? with
        | none => (false, [])
        | some operation =>
            if operation.kind = .argument then (false, [])
            else if source.op ∈ visited then (true, [])
            else
              let recurse := isOperandInCycle res depth (source.op :: visited)
              match operation.kind with
              | .buffer | .fork _ | .lazyFork _ | .branch | .condBranch =>
                  match forwarded operation with
                  | [operand] => recurse operand
                  | _ => (false, [])
              | .merge | .mux | .controlMerge | .first | .select =>
                  let oneOprInCycle := (forwarded operation).any fun operand => (recurse operand).1
                  if oneOprInCycle then
                    (true, (forwarded operation).flatMap fun operand =>
                      if (recurse operand).1 then (recurse operand).2 else [operand])
                  else (false, [])
              | .argument | .other => (false, [])
  | _, _, _ => (false, [])

/-- Follows a value back through operations with a single data operand. A buffer, fork or
branch ends the walk at its operand. -/
def backtrack : Nat → VisitedOps → Wire → Wire
  | 0, _, wire => wire
  | depth + 1, visited, .channel source =>
      match graph.ops[source.op]? with
      | none => .channel source
      | some operation =>
          if operation.kind = .argument ∨ source.op ∈ visited then .channel source
          else
            match operation.kind, forwarded operation with
            | .buffer, [operand] | .fork _, [operand] | .lazyFork _, [operand]
            | .branch, [operand] => operand
            | .condBranch, [operand] | .merge, [operand] | .mux, [operand]
            | .controlMerge, [operand] | .first, [operand] =>
                backtrack depth (source.op :: visited) operand
            | _, _ => .channel source
  | _, _, wire => wire

/-- Enough for a walk that visits no operation twice. -/
def depth : Nat := graph.ops.length + 2

def backtrackToMinimalWire (wire : Wire) : MinimalWire :=
  getMinimalWire (graph.backtrack graph.depth [] wire)

/-- The values that are merged into the cycles through an operation's result. -/
def allMergedValues (op : Nat) (operation : Operation) : List Wire :=
  (forwarded operation).flatMap fun operand =>
    let found := graph.isOperandInCycle ⟨op, 0⟩ graph.depth [] operand
    if found.1 then found.2 else [operand]

/-- The value is on a channel that carries data. -/
def isChannelVal (wire : Wire) : Bool :=
  match wire with
  | .channel source => graph.type source ≠ .control
  | _ => true

/-- The width that the pattern narrows an operation to, and how its result is extended;
none if it does not rewrite it. -/
def forwardCycleOpt (op : Nat) : Option ExtWidth := do
  let operation ← graph.ops[op]?
  match operation.kind, graph.type ⟨op, 0⟩ with
  | .merge, .integer dataWidth | .mux, .integer dataWidth | .controlMerge, .integer dataWidth =>
      let merged := graph.allMergedValues op operation
      -- A cast of a control value, and a cycle that nothing enters, fail assertions.
      if merged = [] ∨ ¬ merged.all graph.isChannelVal then none
      else
        let optWidth := computeDataForwardResult (merged.map fun wire =>
          let minimal := graph.backtrackToMinimalWire wire
          ⟨minimal.extType, graph.width minimal.wire⟩)
        if optWidth.bitWidth < dataWidth then some optWidth else none
  | _, _ => none

end Graph

/-- A wire with the uses of a channel replaced. -/
def Wire.replace (old : Channel) (new : Wire) : Wire → Wire
  | channel source => if source = old then new else channel source
  | extSI width operand => extSI width (replace old new operand)
  | extUI width operand => extUI width (replace old new operand)
  | truncI width operand => truncI width (replace old new operand)
  | constant value ctrl => constant value (replace old new ctrl)

namespace Graph

variable (graph : Graph)

/-- The operands of the narrowed operation. -/
def newOperands (operation : Operation) (optWidth : Nat) : List Wire :=
  operation.operands.mapIdx fun index operand =>
    if index ∈ forwardedIndices operation then
      graph.modBitWidth (getMinimalWire operand) optWidth
    else operand

/-- The rewritten graph: the operation works on the optimized width, and its result is
extended for all uses. -/
def narrowed (op : Nat) (optWidth : ExtWidth) : Graph where
  ops := graph.ops.mapIdx fun index operation =>
    let result : Wire := .channel ⟨op, 0⟩
    let dataWidth := graph.width result
    let extended : Wire :=
      if optWidth.extType = .zext then .extUI dataWidth result else .extSI dataWidth result
    let operands :=
      if index = op then graph.newOperands operation optWidth.bitWidth else operation.operands
    { operation with operands := operands.map (Wire.replace ⟨op, 0⟩ extended) }
  type := Function.update graph.type ⟨op, 0⟩ (.integer optWidth.bitWidth)
  behavior := graph.behavior

end Graph

end Dynamatic.Bitwidth
