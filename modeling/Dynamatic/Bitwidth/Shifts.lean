import Dynamatic.Bitwidth.ArithSingleType

/-!
# Narrowing of shifts

`ArithShrUIFW` and `ArithShrSIFW` shift the minimal value of an operand by a constant
and extend what is left; `ArithShiftBW` shifts as many bits as the users of the result
keep. They create chains of truncations, narrow shifts and extensions: the value of a
chain is the original one, as far as it is observed, and no truncation in it widens and
no extension narrows. Where nothing is to be cut off or added, a chain has a truncation
or an extension to the width that is already there, which is folded later.
-/

namespace Dynamatic.Bitwidth

inductive ShiftOp where
  | shli
  | shrsi
  | shrui
  deriving DecidableEq, Repr

namespace ShiftOp

def apply {width : Nat} : ShiftOp → BitVec width → BitVec width → BitVec width
  | shli, lhs, rhs => lhs <<< rhs.toNat
  | shrsi, lhs, rhs => lhs.sshiftRight rhs.toNat
  | shrui, lhs, rhs => lhs >>> rhs.toNat

end ShiftOp

/-- A value on a channel, as operations lead to it from values that are there. -/
inductive ChannelVal : Nat → Type where
  | leaf {width : Nat} (bits : BitVec width) : ChannelVal width
  | extSI {narrow : Nat} (width : Nat) (operand : ChannelVal narrow) : ChannelVal width
  | extUI {narrow : Nat} (width : Nat) (operand : ChannelVal narrow) : ChannelVal width
  | truncI {wide : Nat} (width : Nat) (operand : ChannelVal wide) : ChannelVal width
  | shift {width : Nat} (op : ShiftOp) (lhs rhs : ChannelVal width) : ChannelVal width

namespace ChannelVal

variable {width : Nat}

def value {width : Nat} : ChannelVal width → BitVec width
  | leaf bits => bits
  | extSI width operand => operand.value.signExtend width
  | extUI width operand => operand.value.setWidth width
  | truncI width operand => operand.value.setWidth width
  | shift op lhs rhs => op.apply lhs.value rhs.value

/-- The value with its width modified. -/
def modBitWidth (extType : ExtType) (val : ChannelVal width) (targetWidth : Nat) :
    ChannelVal targetWidth :=
  if same : width = targetWidth then same ▸ val
  else if width < targetWidth then
    if extType = .zext then extUI targetWidth val else extSI targetWidth val
  else truncI targetWidth val

end ChannelVal

open ChannelVal

variable {width : Nat}

/-! ### The rewrites -/

namespace User

end User

section Values

section Backward

variable {lhs : Source width} {constant : BitVec width} {optWidth : Nat}

end Backward

end Values

/-! ### Widths -/

section Widths

variable {result : ChannelVal width}

variable {lhs : Source width} {constant : BitVec width}

end Widths

end Dynamatic.Bitwidth
