import Dynamatic.Bitwidth.Provenance

/-!
# Narrowing of forwarding operations

`HandshakeOptData` forwards the minimal values of an operation's data operands, all
modified to one width, and extends what is forwarded with one kind of extension.
`ArithSelect` does the same for the two operands of a select, unless one is extended
logically and the other arithmetically. Whichever operand is forwarded, the width and
the kind represent its number, so its value comes out.
-/

namespace Dynamatic.Bitwidth

variable {dataWidth : Nat}

/-- The kind of extension and the width of a minimal value. -/
def MinimalValue.extWidth (extVal : MinimalValue) : ExtWidth := ⟨extVal.extType, extVal.bitWidth⟩

/-- The minimal value of an operand with its width modified, and extended back. -/
def resized (resultWidth : ExtWidth) (selected : Source dataWidth) : BitVec dataWidth :=
  modBitWidth
    ⟨resultWidth.extType, resultWidth.bitWidth,
      modBitWidth (getMinimalValue selected) resultWidth.bitWidth⟩ dataWidth

/-- What the forward pattern narrows the operation of some data operands to. -/
def resultWidth (dataOperands : List (Source dataWidth)) : ExtWidth :=
  computeDataForwardResult (dataOperands.map fun operand => (getMinimalValue operand).extWidth)

/-- What an operation forwards after the forward pattern was tried on it. -/
def handshakeOptData (dataOperands : List (Source dataWidth)) (selected : Source dataWidth) :
    BitVec dataWidth :=
  if (resultWidth dataOperands).bitWidth ≥ dataWidth then selected.value
  else resized (resultWidth dataOperands) selected

/-- What a select gives after the forward pattern was tried on it. -/
def arithSelect (trueValue falseValue : Source dataWidth) (condition : Bool) : BitVec dataWidth :=
  let selected := if condition then trueValue else falseValue
  let lhsExtValue := getMinimalValue trueValue
  let rhsExtValue := getMinimalValue falseValue
  let optWidth := max lhsExtValue.bitWidth rhsExtValue.bitWidth
  if optWidth ≥ dataWidth then selected.value
  else if lhsExtValue.extType = .zext ∧ rhsExtValue.extType = .sext ∨
      lhsExtValue.extType = .sext ∧ rhsExtValue.extType = .zext then
    selected.value
  else resized ⟨lhsExtValue.extType, optWidth⟩ selected

/-- A width that represents the number of an operand gives its value back. -/
theorem resized_of_fits {resultWidth : ExtWidth} {selected : Source dataWidth}
    (fits : Fits resultWidth.extType resultWidth.bitWidth (getMinimalValue selected).number) :
    resized resultWidth selected = selected.value := by
  rw [resized, modBitWidth_eq (getMinimalValue selected), modBitWidth_ofInt fits,
    ofInt_number_getMinimalValue]

theorem resized_resultWidth {dataOperands : List (Source dataWidth)} {selected : Source dataWidth}
    (mem : selected ∈ dataOperands) :
    resized (resultWidth dataOperands) selected = selected.value := by
  have isOperand : (getMinimalValue selected).extWidth ∈
      dataOperands.map fun operand => (getMinimalValue operand).extWidth :=
    List.mem_map_of_mem mem
  exact resized_of_fits (fits_computeDataForwardResult isOperand (getMinimalValue selected).fits)

/-- An operand that is narrower than the data has an extension. -/
theorem extType_ne_none {selected : Source dataWidth} {optWidth : Nat}
    (le : (getMinimalValue selected).bitWidth ≤ optWidth) (narrows : optWidth < dataWidth) :
    (getMinimalValue selected).extType ≠ .none := by
  intro kind
  have same := (bitWidth_getMinimalValue selected).2.mp kind
  omega

theorem arithSelect_eq (trueValue falseValue : Source dataWidth) (condition : Bool) :
    arithSelect trueValue falseValue condition =
      (if condition then trueValue else falseValue).value := by
  rw [arithSelect]
  split
  · rfl
  · rename_i narrows
    have lhsKind := extType_ne_none (Nat.le_max_left _ _) (Nat.lt_of_not_le narrows)
    have rhsKind := extType_ne_none (Nat.le_max_right _ _) (Nat.lt_of_not_le narrows)
    split
    · rfl
    · rename_i sameKind
      have same : (getMinimalValue falseValue).extType = (getMinimalValue trueValue).extType := by
        cases lhs : (getMinimalValue trueValue).extType <;>
          cases rhs : (getMinimalValue falseValue).extType <;> simp_all
      refine resized_of_fits ?_
      cases condition with
      | true => exact (getMinimalValue trueValue).fits.mono (Nat.le_max_left _ _)
      | false =>
          have fits := (getMinimalValue falseValue).fits
          rw [same] at fits
          exact fits.mono (Nat.le_max_right _ _)

/-- The forwarded operand keeps its value: resized to the chosen width and extended back, and
through the operations that the patterns leave. -/
theorem forwarding_preserves (dataOperands : List (Source dataWidth))
    (selected : Fin dataOperands.length) (trueValue falseValue : Source dataWidth)
    (condition : Bool) :
    resized (resultWidth dataOperands) (dataOperands.get selected) =
        (dataOperands.get selected).value ∧
      handshakeOptData dataOperands (dataOperands.get selected) =
        (dataOperands.get selected).value ∧
      arithSelect trueValue falseValue condition =
        (if condition then trueValue else falseValue).value := by
  have preserved := resized_resultWidth (List.get_mem dataOperands selected)
  refine ⟨preserved, ?_, arithSelect_eq trueValue falseValue condition⟩
  rw [handshakeOptData]
  split
  · rfl
  · exact preserved

end Dynamatic.Bitwidth
