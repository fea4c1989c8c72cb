import Mathlib.Logic.Equiv.List
import Dynamatic.Blif.Reading

/-!
# Reading, writing and reading again

The reader keeps no output value, has one fanin for an input that a gate names
twice, and lists fanins by their addresses, while the row stays as it was read. So
a gate comes back as the text has it just if it is a constant, or if its row is
where the output is one, its inputs are apart, and their order is that of the
addresses or does not matter. A comment before a cover is taken for the cover.
-/

namespace Dynamatic.Blif

/-- A network has the ports and latches of a circuit, its gates on the way to an output or to the
input of a latch, and computes the same there. -/
structure Circuit.KeptBy (circuit : Circuit) (address : Name → Nat) (network : LogicNetwork) :
    Prop where
  inputs : ∀ name, name ∈ network.getInputs address ↔ name ∈ circuit.inputs
  outputs : ∀ name, name ∈ network.getOutputs address ↔ name ∈ circuit.outputs
  latches : network.latches = circuit.latches
  gates : ∀ gate ∈ circuit.gates, circuit.OnWay gate.output →
    ∃ other, network.gate? gate.output = some other ∧ gate.Corresponds other
  computes : ∀ environment name,
    name ∈ circuit.outputs ∨ (∃ latch ∈ circuit.latches, name = latch.1) →
      ∀ value, network.Computes environment name value ↔ circuit.Computes environment name value

/-- A text that is read, written and read again keeps its circuit. The nodes have other addresses
when they are read again. -/
def Circuit.RoundTrips (circuit : Circuit) (address readAddress : Name → Nat) (text : List Char) :
    Prop :=
  ∃ network, parseBlifFile address text = some network ∧
    ∃ again, parseBlifFile readAddress (network.writeToFile address) = some again ∧
      circuit.KeptBy readAddress again

/-- A gate that comes back as it is. -/
def Gate.Survives (readAddress : Name → Nat) (gate : Gate) : Prop :=
  gate.inputs = [] ∨
    gate.value = true ∧ gate.inputs.Nodup ∧
      (gate.inputs.Pairwise (fun first second => readAddress first < readAddress second) ∨
        gate.row.Pairwise fun first second => first = second)

namespace Circuit

variable {circuit : Circuit} {address readAddress : Name → Nat} {network again : LogicNetwork}

/-! ### The network that is read -/

theorem part_unique {part other : List Line × Gate} (isPart : part ∈ circuit.parts)
    (isOther : other ∈ circuit.parts) (same : part.2.output = other.2.output) : part = other :=
  List.inj_on_of_nodup_map circuit.once isPart isOther same

theorem mem_fanins_of_part (holds : Holds address circuit.statements network)
    {part : List Line × Gate} (isPart : part ∈ circuit.parts) {fanin : Name} :
    fanin ∈ network.fanins part.2.output ↔ fanin ∈ part.2.inputs := by
  rw [holds.fanins, feeds_iff]
  constructor
  · rintro ⟨other, isOther, same, mem⟩
    rw [part_unique isPart isOther same]
    exact mem
  · exact fun mem => ⟨part, isPart, rfl, mem⟩

theorem function_of_part (holds : Holds address circuit.statements network)
    {part : List Line × Gate} (isPart : part ∈ circuit.parts) :
    (network.node part.2.output).function = coverOf part.1 part.2 := by
  rcases holds.function part.2.output with given | ⟨none, -⟩
  · obtain ⟨other, isOther, same, given⟩ := gives_iff.mp given
    rw [part_unique isPart isOther same]
    rw [part_unique isPart isOther same] at given
    exact given
  · obtain ⟨statement, mem, given⟩ := gives_iff.mpr ⟨part, isPart, rfl, rfl⟩
    exact absurd given (none _ statement mem)

theorem isConstant_of_part {part : List Line × Gate} (isPart : part ∈ circuit.parts)
    {value : List Char} :
    (∃ statement ∈ circuit.statements, statement.isConstant part.2.output value) ↔
      part.2.inputs = [] ∧ coverOf part.1 part.2 = value := by
  rw [isConstant_iff]
  constructor
  · rintro ⟨other, isOther, noInputs, same, covers⟩
    rw [part_unique isPart isOther same]
    exact ⟨noInputs, covers⟩
  · rintro ⟨noInputs, covers⟩
    exact ⟨part, isPart, noInputs, rfl, covers⟩

/-- The network has the nodes that its nodes need. -/
theorem closed_of_holds (holds : Holds address circuit.statements network) :
    ∀ name ∈ network.names, network.fanins name ⊆ network.names := by
  intro name _ fanin feeds
  obtain ⟨statement, mem, feeds⟩ := (holds.fanins name fanin).mp feeds
  refine (holds.names fanin).mpr ⟨statement, mem, ?_⟩
  cases statement with
  | names inputs output function => exact .inr feeds.2
  | _ => cases feeds

theorem isPrimaryInput_of_part (holds : Holds address circuit.statements network)
    {part : List Line × Gate} (isPart : part ∈ circuit.parts) (hasInputs : part.2.inputs ≠ []) :
    (network.node part.2.output).isPrimaryInput = false := by
  have notConstant : ∀ value, ¬ ∃ statement ∈ circuit.statements,
      statement.isConstant part.2.output value :=
    fun value constant => hasInputs ((isConstant_of_part isPart).mp constant).1
  have isInner := circuit.inner part isPart
  have zero := mt (holds.isConstZero part.2.output).mp (notConstant _)
  have one := mt (holds.isConstOne part.2.output).mp (notConstant _)
  have input : ¬ (network.node part.2.output).isInput = true := by
    rw [holds.isInput, declaresInput_iff]
    exact isInner.1
  have latchOutput : ¬ (network.node part.2.output).isLatchOutput = true := by
    rw [holds.isLatchOutput, leavesLatch_iff]
    rintro ⟨latch, isLatch, same⟩
    exact isInner.2 latch isLatch same
  rw [Node.isPrimaryInput, holds.isBlackboxOutput]
  simp [zero, one, input, latchOutput]

/-- What an output or the input of a latch needs is written. -/
theorem OnWay.listed (holds : Holds address circuit.statements network) {name : Name}
    (onWay : circuit.OnWay name) :
    name ∈ (network.generateTopologicalOrder address).nodesTopologicalOrder := by
  have closed := closed_of_holds holds
  induction onWay with
  | @output name isOutput =>
      have declared := declaresOutput_iff.mpr isOutput
      have primary : (network.node name).isPrimaryOutput = true := by
        rw [Node.isPrimaryOutput, (holds.isOutput name).mpr declared, Bool.true_or]
      refine LogicNetwork.primaryOutput_listed closed ((holds.names name).mpr ?_) primary
      obtain ⟨statement, mem, declares⟩ := declared
      refine ⟨statement, mem, ?_⟩
      cases statement with
      | outputs nodeNames => exact declares
      | _ => cases declares
  | @latch latch isLatch =>
      have enters := entersLatch_iff.mpr ⟨latch, isLatch, rfl⟩
      have primary : (network.node latch.1).isPrimaryOutput = true := by
        rw [Node.isPrimaryOutput, (holds.isLatchInput latch.1).mpr enters, Bool.or_true]
      refine LogicNetwork.primaryOutput_listed closed ((holds.names latch.1).mpr ?_) primary
      obtain ⟨statement, mem, enters⟩ := enters
      refine ⟨statement, mem, ?_⟩
      cases statement with
      | latch input output more => exact .inl enters
      | _ => cases enters
  | @input gate input isGate _ isInput inductionHypothesis =>
      obtain ⟨part, isPart, rfl⟩ := List.mem_map.mp isGate
      have inner := isPrimaryInput_of_part holds isPart (List.ne_nil_of_mem isInput)
      exact LogicNetwork.fanin_listed closed inner inductionHypothesis
        ((mem_fanins_of_part holds isPart).mpr isInput)

/-! ### The network that is read back -/

section Again

variable (holds : Holds readAddress (network.statements address) again) {name : Name}
include holds

theorem isConstZero_again :
    (again.node name).isConstZero = true ↔
      name ∈ network.nodesTopologicalOrder ∧ (network.node name).isConstZero = true := by
  rw [holds.isConstZero, LogicNetwork.isConstant_statements]
  simp

theorem isConstOne_again :
    (again.node name).isConstOne = true ↔
      name ∈ network.nodesTopologicalOrder ∧
        (network.node name).isConstZero = false ∧ (network.node name).isConstOne = true := by
  rw [holds.isConstOne, LogicNetwork.isConstant_statements]
  simp

theorem mem_fanins_again {fanin : Name} :
    fanin ∈ again.fanins name ↔
      name ∈ network.nodesTopologicalOrder ∧
        ((network.node name).isConstZero = false ∧ (network.node name).isConstOne = false) ∧
        ((network.fanins name).length = 1 ∨ (network.fanins name).length = 2) ∧
        fanin ∈ network.fanins name := by
  rw [holds.fanins, LogicNetwork.feeds_statements]

theorem function_again (listed : name ∈ network.nodesTopologicalOrder)
    (gate : (network.node name).isConstZero = false ∧ (network.node name).isConstOne = false)
    (few : (network.fanins name).length = 1 ∨ (network.fanins name).length = 2) :
    (again.node name).function = (network.node name).function := by
  rcases holds.function name with given | ⟨none, -⟩
  · exact ((LogicNetwork.gives_statements gate).mp given).2.2
  · obtain ⟨statement, mem, given⟩ :=
      (LogicNetwork.gives_statements gate).mpr ⟨listed, few, rfl⟩
    exact absurd given (none _ statement mem)

theorem latches_again : again.latches = network.latches := by
  rw [holds.latches, LogicNetwork.filterMap_latch?_statements]

end Again

/-! ### Gates -/

/-- Nodes that are listed by their addresses, without repetition. -/
theorem perm_dedup_of_sorted {fanins inputs : List Name}
    (sorted : fanins.Pairwise fun first second => address first < address second)
    (same : ∀ fanin, fanin ∈ fanins ↔ fanin ∈ inputs) : fanins.Perm inputs.dedup := by
  have distinct : fanins.Nodup := sorted.imp fun less equal => by
    rw [equal] at less
    exact Nat.lt_irrefl _ less
  refine (List.perm_ext_iff_of_nodup distinct inputs.nodup_dedup).mpr fun fanin => ?_
  rw [same, List.mem_dedup]

theorem length_dedup_eq_iff {inputs : List Name} :
    inputs.dedup.length = inputs.length ↔ inputs.Nodup := by
  constructor
  · intro same
    rw [← List.dedup_eq_self]
    exact (List.dedup_sublist inputs).eq_of_length same
  · exact fun distinct => by rw [distinct.dedup]

theorem eq_or_eq_of_perm_pair {names : List Name} {first second : Name}
    (perm : names.Perm [first, second]) : names = [first, second] ∨ names = [second, first] := by
  obtain ⟨here, there, rfl⟩ := List.length_eq_two.mp perm.length_eq
  obtain ⟨mem, rest⟩ := List.cons_perm_iff_perm_erase.mp perm
  by_cases same : here = first
  · subst same
    rw [List.erase_cons_head] at rest
    rw [List.singleton_perm_singleton.mp rest]
    exact .inl rfl
  · have isSecond : here = second := by simpa [same] using mem
    subst isSecond
    rw [List.erase_cons_tail (by simpa using Ne.symm same), List.erase_cons_head] at rest
    rw [List.singleton_perm_singleton.mp rest]
    exact .inr rfl

/-- Rows stay with their inputs if the order of the inputs stays or does not matter. -/
theorem literals_perm_iff {inputs fanins : List Name} {row : List Char}
    (few : inputs.length ≤ 2) (isRow : IsRow inputs row) (distinct : inputs.Nodup)
    (sorted : fanins.Pairwise fun first second => address first < address second)
    (perm : fanins.Perm inputs) :
    (inputs.zip row).Perm (fanins.zip row) ↔
      inputs.Pairwise (fun first second => address first < address second) ∨
        row.Pairwise fun first second => first = second := by
  match inputs, row with
  | [], [] =>
      rw [List.perm_nil.mp perm]
      simp
  | [input], [literal] =>
      rw [List.perm_singleton.mp perm]
      simp
  | [first, second], [literal, other] =>
      have apart : first ≠ second := by simpa using distinct
      rcases eq_or_eq_of_perm_pair perm with rfl | rfl
      · exact iff_of_true (.refl _) (.inl sorted)
      · have less : address second < address first := by simpa using sorted
        have notSorted : ¬ address first < address second := Nat.lt_asymm less
        simp only [List.zip_cons_cons, List.zip_nil_left, List.pairwise_pair, notSorted, false_or]
        constructor
        · intro same
          have mem := same.mem_iff.mp (List.mem_cons_self : (first, literal) ∈ _)
          simpa [apart] using mem
        · rintro rfl
          exact .swap _ _ _
  | [], _ :: _ => cases isRow.1
  | [_], [] => cases isRow.1
  | [_], _ :: _ :: _ => cases isRow.1
  | [_, _], [] => cases isRow.1
  | [_, _], [_] => cases isRow.1
  | [_, _], _ :: _ :: _ :: _ => cases isRow.1
  | _ :: _ :: _ :: _, _ => simp at few

/-- A comment is no cover. -/
theorem coverOf_comment {comment : Line} (isComment : IsComment comment) (more : List Line)
    (gate : Gate) :
    coverOf (comment :: more) gate = [] ∨ '#' ∈ coverOf (comment :: more) gate := by
  rcases isComment with blank | marked
  · rw [coverOf, words_blanks blank]
    exact .inl rfl
  · obtain ⟨rest, rfl⟩ : ∃ rest, comment = '#' :: rest := by
      cases comment with
      | nil => cases marked
      | cons current rest =>
          cases marked
          exact ⟨rest, rfl⟩
    rw [coverOf, words, if_neg (by decide)]
    exact .inr List.mem_cons_self

theorem coverOf_of_inputs {gate : Gate} (hasInputs : gate.inputs ≠ []) :
    coverOf [] gate = gate.row := by
  rw [coverOf, Gate.coverWords, if_neg hasInputs]
  rfl

section Gates

variable (holds : Holds address circuit.statements network)
  (holdsAgain :
    Holds readAddress ((network.generateTopologicalOrder address).statements address) again)
  {part : List Line × Gate} (isPart : part ∈ circuit.parts)
  (listed : part.2.output ∈ (network.generateTopologicalOrder address).nodesTopologicalOrder)
  (comments : ∀ line ∈ part.1, IsComment line)
include holds holdsAgain isPart listed comments

/-- A constant comes back if no comment stands before its cover. -/
theorem gate?_of_constant (constant : part.2.inputs = []) :
    (∃ other, again.gate? part.2.output = some other ∧ part.2.Corresponds other) ↔ part.1 = [] := by
  have noRow : part.2.row = [] := by
    have isRow := (circuit.small part isPart).2
    rw [constant] at isRow
    exact List.length_eq_zero_iff.mp isRow.1
  have zero : (network.node part.2.output).isConstZero = true ↔ coverOf part.1 part.2 = ['0'] := by
    rw [holds.isConstZero, isConstant_of_part isPart, and_iff_right constant]
  have one : (network.node part.2.output).isConstOne = true ↔ coverOf part.1 part.2 = ['1'] := by
    rw [holds.isConstOne, isConstant_of_part isPart, and_iff_right constant]
  have zeroAgain : (again.node part.2.output).isConstZero = true ↔
      coverOf part.1 part.2 = ['0'] := by
    rw [isConstZero_again holdsAgain, and_iff_right listed]
    exact zero
  have noFanins : again.fanins part.2.output = [] := by
    refine List.eq_nil_iff_forall_not_mem.mpr fun fanin mem => ?_
    have feeds := ((mem_fanins_again holdsAgain).mp mem).2.2.2
    have isInput := (mem_fanins_of_part holds isPart).mp feeds
    rw [constant] at isInput
    cases isInput
  have oneAgain : (again.node part.2.output).isConstOne = true ↔
      coverOf part.1 part.2 = ['1'] := by
    rw [isConstOne_again holdsAgain, and_iff_right listed]
    refine ⟨fun either => one.mp either.2, fun covers => ⟨?_, one.mpr covers⟩⟩
    refine Bool.eq_false_iff.mpr fun isZero => ?_
    rw [zero.mp isZero] at covers
    cases covers
  cases between : part.1 with
  | nil =>
      refine iff_of_true ?_ rfl
      have covers : coverOf part.1 part.2 = if part.2.value then ['1'] else ['0'] := by
        rw [between, coverOf, Gate.coverWords, if_pos constant]
        rfl
      rw [covers] at zeroAgain oneAgain
      cases value : part.2.value with
      | true =>
          rw [value] at zeroAgain oneAgain
          have notZero : (again.node part.2.output).isConstZero = false :=
            Bool.eq_false_iff.mpr fun isZero => by cases zeroAgain.mp isZero
          refine ⟨⟨[], part.2.output, [], true⟩, ?_, rfl, ?_, value⟩
          · rw [LogicNetwork.gate?, notZero, oneAgain.mpr rfl]
            rfl
          · rw [Gate.literals, constant, noRow]
            exact .refl _
      | false =>
          rw [value] at zeroAgain
          refine ⟨⟨[], part.2.output, [], false⟩, ?_, rfl, ?_, value⟩
          · rw [LogicNetwork.gate?, zeroAgain.mpr rfl]
            rfl
          · rw [Gate.literals, constant, noRow]
            exact .refl _
  | cons comment more =>
      refine iff_of_false ?_ (List.cons_ne_nil _ _)
      rintro ⟨other, isGate, -⟩
      have noCover := coverOf_comment (comments comment (by simp [between])) more part.2
      rw [← between] at noCover
      have notZero : (again.node part.2.output).isConstZero = false := by
        refine Bool.eq_false_iff.mpr fun isZero => ?_
        rw [zeroAgain.mp isZero] at noCover
        revert noCover
        decide
      have notOne : (again.node part.2.output).isConstOne = false := by
        refine Bool.eq_false_iff.mpr fun isOne => ?_
        rw [oneAgain.mp isOne] at noCover
        revert noCover
        decide
      rw [LogicNetwork.fanins] at noFanins
      rw [LogicNetwork.gate?, notZero, notOne, noFanins] at isGate
      simp at isGate

/-- A gate that has inputs comes back if its row does, behind the same inputs. -/
theorem gate?_of_inputs (hasInputs : part.2.inputs ≠ []) :
    (∃ other, again.gate? part.2.output = some other ∧ part.2.Corresponds other) ↔
      part.1 = [] ∧ part.2.value = true ∧ part.2.inputs.Nodup ∧
        (part.2.inputs.Pairwise (fun first second => readAddress first < readAddress second) ∨
          part.2.row.Pairwise fun first second => first = second) := by
  obtain ⟨small, isRow⟩ := circuit.small part isPart
  have notConstant : (network.node part.2.output).isConstZero = false ∧
      (network.node part.2.output).isConstOne = false := by
    constructor
    · refine Bool.eq_false_iff.mpr fun zero => hasInputs ?_
      exact ((isConstant_of_part isPart).mp ((holds.isConstZero _).mp zero)).1
    · refine Bool.eq_false_iff.mpr fun one => hasInputs ?_
      exact ((isConstant_of_part isPart).mp ((holds.isConstOne _).mp one)).1
  have feeds : ∀ fanin, fanin ∈ network.fanins part.2.output ↔ fanin ∈ part.2.inputs :=
    fun _ => mem_fanins_of_part holds isPart
  have few : (network.fanins part.2.output).length = 1 ∨
      (network.fanins part.2.output).length = 2 := by
    have perm := perm_dedup_of_sorted (holds.sorted _) feeds
    have shorter := (List.dedup_sublist part.2.inputs).length_le
    obtain ⟨input, isInput⟩ := List.exists_mem_of_ne_nil _ hasInputs
    have some := List.length_pos_of_mem (List.mem_dedup.mpr isInput)
    rw [perm.length_eq]
    omega
  have perm : (again.fanins part.2.output).Perm part.2.inputs.dedup := by
    refine perm_dedup_of_sorted (holdsAgain.sorted _) fun fanin => ?_
    rw [mem_fanins_again holdsAgain, ← feeds]
    exact ⟨fun all => all.2.2.2, fun mem => ⟨listed, notConstant, few, mem⟩⟩
  have function : (again.node part.2.output).function = coverOf part.1 part.2 := by
    rw [function_again holdsAgain listed notConstant few]
    exact function_of_part holds isPart
  have nonempty : again.fanins part.2.output ≠ [] := by
    intro none
    rw [none] at perm
    obtain ⟨input, isInput⟩ := List.exists_mem_of_ne_nil _ hasInputs
    exact List.not_mem_nil (perm.mem_iff.mpr (List.mem_dedup.mpr isInput))
  have gate : again.gate? part.2.output =
      if IsRow (again.fanins part.2.output) (coverOf part.1 part.2) then
        some ⟨again.fanins part.2.output, part.2.output, coverOf part.1 part.2, true⟩
      else none := by
    have notZero : (again.node part.2.output).isConstZero = false := by
      refine Bool.eq_false_iff.mpr fun zero => ?_
      exact absurd ((isConstZero_again holdsAgain).mp zero).2 (Bool.eq_false_iff.mp notConstant.1)
    have notOne : (again.node part.2.output).isConstOne = false := by
      refine Bool.eq_false_iff.mpr fun one => ?_
      exact absurd ((isConstOne_again holdsAgain).mp one).2.2 (Bool.eq_false_iff.mp notConstant.2)
    rw [LogicNetwork.fanins] at nonempty
    simp only [LogicNetwork.gate?, notZero, notOne, function, LogicNetwork.fanins, Bool.or_false,
      Bool.false_eq_true, if_false, ne_eq, nonempty, not_false_eq_true, true_and]
    congr
  rw [gate]
  cases between : part.1 with
  | nil =>
      rw [coverOf_of_inputs hasInputs]
      constructor
      · rintro ⟨other, isGate, corresponds⟩
        split at isGate
        case isFalse => cases isGate
        case isTrue isRowAgain =>
          cases isGate
          have distinct : part.2.inputs.Nodup := by
            rw [← length_dedup_eq_iff, ← perm.length_eq, ← isRowAgain.1, isRow.1]
          rw [distinct.dedup] at perm
          refine ⟨rfl, corresponds.value, distinct, ?_⟩
          exact (literals_perm_iff small isRow distinct (holdsAgain.sorted _) perm).mp
            corresponds.literals
      · rintro ⟨-, value, distinct, order⟩
        rw [distinct.dedup] at perm
        have isRowAgain : IsRow (again.fanins part.2.output) part.2.row :=
          ⟨isRow.1.trans perm.length_eq.symm, isRow.2⟩
        rw [if_pos isRowAgain]
        refine ⟨_, rfl, rfl, ?_, value⟩
        exact (literals_perm_iff small isRow distinct (holdsAgain.sorted _) perm).mpr order
  | cons comment more =>
      have noRow : ¬ IsRow (again.fanins part.2.output) (coverOf (comment :: more) part.2) := by
        intro isRow
        rcases coverOf_comment (comments comment (by simp [between])) more part.2 with none | marked
        · rw [none] at isRow
          exact nonempty (List.length_eq_zero_iff.mp isRow.1.symm)
        · have literal := isRow.2 '#' marked
          revert literal
          decide
      rw [if_neg noRow]
      refine iff_of_false ?_ fun either => by cases either.1
      rintro ⟨other, isGate, -⟩
      cases isGate

theorem gate?_again_iff :
    (∃ other, again.gate? part.2.output = some other ∧ part.2.Corresponds other) ↔
      part.1 = [] ∧ part.2.Survives readAddress := by
  by_cases hasInputs : part.2.inputs = []
  · rw [gate?_of_constant holds holdsAgain isPart listed comments hasInputs]
    exact ⟨fun none => ⟨none, .inl hasInputs⟩, And.left⟩
  · rw [gate?_of_inputs holds holdsAgain isPart listed comments hasInputs, Gate.Survives,
      or_iff_right hasInputs]

end Gates

end Circuit

/-! ### Functions -/

theorem LogicNetwork.output_of_gate? {network : LogicNetwork} {name : Name} {gate : Gate}
    (isGate : network.gate? name = some gate) :
    gate.output = name ∧ IsRow gate.inputs gate.row ∧ ¬ network.IsSource name := by
  rw [gate?] at isGate
  split at isGate
  case isTrue constant =>
    cases isGate
    refine ⟨rfl, ⟨rfl, fun _ mem => by cases mem⟩, fun source => ?_⟩
    simp [source.1, source.2.1] at constant
  case isFalse =>
    split at isGate
    case isTrue row =>
      cases isGate
      exact ⟨rfl, row.2, fun source => row.1 source.2.2⟩
    case isFalse => cases isGate

namespace Circuit

variable {circuit : Circuit} {address : Name → Nat} {network : LogicNetwork}

/-- If the gates on the way correspond, and nothing else drives a node, the functions are the
same. -/
theorem computes_iff
    (gates : ∀ gate ∈ circuit.gates, circuit.OnWay gate.output →
      ∃ other, network.gate? gate.output = some other ∧ gate.Corresponds other)
    (sources : ∀ name, (∀ gate ∈ circuit.gates, gate.output ≠ name) → network.IsSource name)
    (environment : Name → Bool) {name : Name} (onWay : circuit.OnWay name) (value : Bool) :
    network.Computes environment name value ↔ circuit.Computes environment name value := by
  have rows : ∀ gate ∈ circuit.gates, IsRow gate.inputs gate.row := by
    intro gate mem
    obtain ⟨part, isPart, rfl⟩ := List.mem_map.mp mem
    exact (circuit.small part isPart).2
  constructor
  · intro computes
    induction computes with
    | @source name undriven =>
        refine .source fun gate mem same => ?_
        obtain ⟨other, isGate, -⟩ := gates gate mem (same ▸ onWay)
        rw [same] at isGate
        exact (LogicNetwork.output_of_gate? isGate).2.2 undriven
    | @gate gate values drives _ inductionHypothesis =>
        obtain ⟨-, isRow, notSource⟩ := LogicNetwork.output_of_gate? drives
        obtain ⟨own, driven⟩ := not_forall.mp (mt (sources gate.output) notSource)
        obtain ⟨isOwn, apart⟩ := not_forall.mp driven
        have same := not_not.mp apart
        obtain ⟨other, isOther, corresponds⟩ := gates own isOwn (same ▸ onWay)
        rw [same, drives] at isOther
        cases isOther
        rw [← same, ← corresponds.evaluate_eq]
        refine .gate values isOwn fun input isInput => ?_
        refine inductionHypothesis input ?_ (.input isOwn (same ▸ onWay) isInput)
        exact (corresponds.mem_inputs_iff (rows own isOwn) isRow).mp isInput
  · intro computes
    induction computes with
    | @source name undriven => exact .source (sources name undriven)
    | @gate gate values isOwn _ inductionHypothesis =>
        obtain ⟨other, isGate, corresponds⟩ := gates gate isOwn onWay
        obtain ⟨same, isRow, -⟩ := LogicNetwork.output_of_gate? isGate
        rw [← same, corresponds.evaluate_eq]
        rw [← same] at isGate
        refine .gate values isGate fun input isInput => ?_
        have isInput := (corresponds.mem_inputs_iff (rows gate isOwn) isRow).mpr isInput
        exact inductionHypothesis input isInput (.input isOwn onWay isInput)

section Kept

variable {readAddress : Name → Nat} {again : LogicNetwork}
  (holds : Holds address circuit.statements network)
  (holdsAgain :
    Holds readAddress ((network.generateTopologicalOrder address).statements address) again)
include holds holdsAgain

theorem isSource_of_undriven {name : Name} (undriven : ∀ gate ∈ circuit.gates, gate.output ≠ name) :
    again.IsSource name := by
  have noPart : ∀ part ∈ circuit.parts, name ≠ part.2.output := fun part isPart same =>
    undriven part.2 (List.mem_map_of_mem isPart) same.symm
  have notConstant : ∀ value, ¬ ∃ statement ∈ circuit.statements,
      statement.isConstant name value := by
    intro value constant
    obtain ⟨part, isPart, -, same, -⟩ := isConstant_iff.mp constant
    exact noPart part isPart same
  refine ⟨Bool.eq_false_iff.mpr fun zero => ?_, Bool.eq_false_iff.mpr fun one => ?_,
    List.eq_nil_iff_forall_not_mem.mpr fun fanin mem => ?_⟩
  · have isZero := ((isConstZero_again holdsAgain).mp zero).2
    exact notConstant _ ((holds.isConstZero name).mp isZero)
  · have isOne := ((isConstOne_again holdsAgain).mp one).2.2
    exact notConstant _ ((holds.isConstOne name).mp isOne)
  · have feeds := ((mem_fanins_again holdsAgain).mp mem).2.2.2
    obtain ⟨part, isPart, same, -⟩ := feeds_iff.mp ((holds.fanins name fanin).mp feeds)
    exact noPart part isPart same

theorem mem_getInputs_again {name : Name} :
    name ∈ again.getInputs readAddress ↔ name ∈ circuit.inputs := by
  have isPort : name ∈ (network.generateTopologicalOrder address).getInputs address ↔
      name ∈ circuit.inputs := holds.mem_getInputs.trans declaresInput_iff
  rw [holdsAgain.mem_getInputs, LogicNetwork.declaresInput_statements, isPort,
    and_iff_left_iff_imp]
  rintro isInput rfl
  exact circuit.ports.1 isInput

theorem mem_getOutputs_again {name : Name} :
    name ∈ again.getOutputs readAddress ↔ name ∈ circuit.outputs := by
  have isPort : name ∈ (network.generateTopologicalOrder address).getOutputs address ↔
      name ∈ circuit.outputs := holds.mem_getOutputs.trans declaresOutput_iff
  rw [holdsAgain.mem_getOutputs, LogicNetwork.declaresOutput_statements, isPort,
    and_iff_left_iff_imp]
  rintro isOutput rfl
  exact circuit.ports.2 isOutput

/-- Ports and latches are kept, and with the gates on the way the functions are. -/
theorem keptBy_iff :
    circuit.KeptBy readAddress again ↔
      ∀ gate ∈ circuit.gates, circuit.OnWay gate.output →
        ∃ other, again.gate? gate.output = some other ∧ gate.Corresponds other := by
  refine ⟨KeptBy.gates, fun gates => ?_⟩
  have sources : ∀ name, (∀ gate ∈ circuit.gates, gate.output ≠ name) → again.IsSource name :=
    fun _ => isSource_of_undriven holds holdsAgain
  exact {
    inputs := fun _ => mem_getInputs_again holds holdsAgain
    outputs := fun _ => mem_getOutputs_again holds holdsAgain
    latches := by
      rw [latches_again holdsAgain, ← filterMap_latch?]
      exact holds.latches
    gates := gates
    computes := by
      rintro environment name (isOutput | ⟨latch, isLatch, rfl⟩) value
      · exact computes_iff gates sources environment (.output isOutput) value
      · exact computes_iff gates sources environment (.latch isLatch) value }

theorem keptBy_iff_survives
    (comments : ∀ part ∈ circuit.parts, ∀ line ∈ part.1, IsComment line) :
    circuit.KeptBy readAddress again ↔
      ∀ part ∈ circuit.parts, circuit.OnWay part.2.output →
        part.1 = [] ∧ part.2.Survives readAddress := by
  rw [keptBy_iff holds holdsAgain, gates, List.forall_mem_map]
  refine forall₂_congr fun part isPart => forall_congr' fun onWay => ?_
  exact gate?_again_iff holds holdsAgain isPart (onWay.listed holds) (comments part isPart)

end Kept

/-! ### Texts -/

theorem SaidBy.comments {text : List Char} (said : circuit.SaidBy text) :
    ∀ part ∈ circuit.parts, ∀ line ∈ part.1, IsComment line := by
  obtain ⟨lines, rest, -, all, -⟩ := said
  rw [parts]
  generalize circuit.items = items at all
  induction all with
  | nil => exact fun _ mem => by cases mem
  | @cons item lines items others spelled _ inductionHypothesis =>
      intro part mem
      cases item with
      | gate between logicGate =>
          rcases List.mem_cons.mp mem with rfl | mem
          · obtain ⟨_, _, -, -, comments, -⟩ := spelled
            exact comments
          · exact inductionHypothesis part mem
      | _ => exact inductionHypothesis part mem

/-- A text is read, written and read again, and its circuit is kept if its gates survive. -/
theorem exists_again {readAddress : Name → Nat} (injective : Function.Injective address)
    (readInjective : Function.Injective readAddress) {text : List Char}
    (said : circuit.SaidBy text) :
    ∃ network again, parseBlifFile address text = some network ∧
      parseBlifFile readAddress (network.writeToFile address) = some again ∧
      (circuit.KeptBy readAddress again ↔
        ∀ part ∈ circuit.parts, circuit.OnWay part.2.output →
          part.1 = [] ∧ part.2.Survives readAddress) := by
  have spelled := said.spelledBy
  have holds := holds_foldl injective circuit.statements
  have spellable := holds.spellable spelled.wellNamed
  have reads : parseBlifFile address text =
      some ((circuit.statements.foldl (Statement.apply address) .empty).generateTopologicalOrder
        address) := by
    rw [parseBlifFile, spelled.parseLines_eq]
    rfl
  generalize circuit.statements.foldl (Statement.apply address) .empty = network at *
  have written : (network.generateTopologicalOrder address).Spellable :=
    ⟨spellable.moduleName, spellable.names, spellable.latches, spellable.constants,
      spellable.fanins, spellable.functions⟩
  have readsAgain := @parseBlifFile_writeToFile address readAddress _ written
  have holdsAgain := holds_foldl readInjective
    ((network.generateTopologicalOrder address).statements address)
  generalize ((network.generateTopologicalOrder address).statements address).foldl
    (Statement.apply readAddress) .empty = again at readsAgain holdsAgain
  have ordered : circuit.KeptBy readAddress (again.generateTopologicalOrder readAddress) ↔
      circuit.KeptBy readAddress again :=
    ⟨fun kept => ⟨kept.inputs, kept.outputs, kept.latches, kept.gates, kept.computes⟩,
      fun kept => ⟨kept.inputs, kept.outputs, kept.latches, kept.gates, kept.computes⟩⟩
  refine ⟨_, _, reads, readsAgain, ?_⟩
  rw [← keptBy_iff_survives holds holdsAgain said.comments, ← ordered]

theorem survives_of_roundTrips {readAddress : Name → Nat} (injective : Function.Injective address)
    (readInjective : Function.Injective readAddress) {text : List Char}
    (said : circuit.SaidBy text) (roundTrips : circuit.RoundTrips address readAddress text) :
    ∀ part ∈ circuit.parts, circuit.OnWay part.2.output →
      part.1 = [] ∧ part.2.Survives readAddress := by
  obtain ⟨network, again, reads, readsAgain, kept⟩ := exists_again injective readInjective said
  obtain ⟨_, isRead, _, isReadAgain, keeps⟩ := roundTrips
  rw [reads] at isRead
  cases isRead
  rw [readsAgain] at isReadAgain
  cases isReadAgain
  exact kept.mp keeps

/-- A text comes back as its circuit if and only if every gate on the way does. -/
theorem roundTrips_iff_survives {readAddress : Name → Nat} (injective : Function.Injective address)
    (readInjective : Function.Injective readAddress) {text : List Char}
    (said : circuit.SaidBy text) :
    circuit.RoundTrips address readAddress text ↔
      ∀ part ∈ circuit.parts, circuit.OnWay part.2.output →
        part.1 = [] ∧ part.2.Survives readAddress := by
  refine ⟨survives_of_roundTrips injective readInjective said, fun survives => ?_⟩
  obtain ⟨network, again, reads, readsAgain, kept⟩ := exists_again injective readInjective said
  exact ⟨network, reads, again, readsAgain, kept.mpr survives⟩

/-! ### One gate -/

/-- An output that is an input, or its negation if the row is where the output is zero. -/
def oneGate (value : Bool) : Circuit where
  items := [.inputs [['a']], .outputs [['y']], .gate [] ⟨[['a']], ['y'], ['1'], value⟩]
  small := by revert value; decide
  once := by revert value; decide
  inner := by revert value; decide
  ports := by revert value; decide

def oneGateText (value : Bool) : List Char :=
  if value then ".inputs a\n.outputs y\n.names a y\n1 1\n.end\n".toList
  else ".inputs a\n.outputs y\n.names a y\n1 0\n.end\n".toList

theorem saidBy_oneGateText (value : Bool) : (oneGate value).SaidBy (oneGateText value) := by
  have inputs : Statement.SpelledAs ".inputs".toList [['a']] [".inputs a".toList] :=
    spelledAs_listed (by decide) (by decide)
  have outputs : Statement.SpelledAs ".outputs".toList [['y']] [".outputs y".toList] :=
    spelledAs_listed (by decide) (by decide)
  have names : Statement.SpelledAs ".names".toList [['a'], ['y']] [".names a y".toList] :=
    spelledAs_listed (by decide) (by decide)
  have row : ∀ digit ∈ [['0'], ['1']],
      words (['1'] ++ LogicNetwork.listed [digit]) = [['1'], digit] := by
    intro digit mem
    refine words_append_listed (by decide) (List.forall_mem_singleton.mpr ?_)
    revert digit
    decide
  have plain : ∀ digit ∈ [['0'], ['1']], Plain (['1'] ++ LogicNetwork.listed [digit]) := by
    unfold Plain
    decide
  let cover : Line := ['1'] ++ LogicNetwork.listed [if value then ['1'] else ['0']]
  refine ⟨[[".inputs a".toList], [".outputs y".toList], [".names a y".toList, cover]],
    [".end".toList], ?_, .cons inputs (.cons outputs (.cons ?_ .nil)),
    .inr ⟨_, _, rfl, [], by decide, by decide⟩⟩
  · revert value
    decide
  · refine ⟨[".names a y".toList], cover, rfl, names, fun _ mem => (by cases mem), ?_, ?_⟩
    · exact plain _ (by revert value; decide)
    · rw [row _ (by revert value; decide)]
      rfl

/-- Addresses in the order of the codes of the names. -/
def codeAddress (name : Name) : Nat := Encodable.encode (name.map Char.toNat)

theorem codeAddress_injective : Function.Injective codeAddress :=
  Encodable.encode_injective.comp (List.map_injective_iff.mpr fun _ _ => Char.toNat_inj.mp)

theorem onWay_oneGate (value : Bool) : (oneGate value).OnWay ['y'] :=
  .output (by revert value; decide)

theorem roundTrips_oneGate :
    (oneGate true).RoundTrips codeAddress codeAddress (oneGateText true) := by
  refine (roundTrips_iff_survives codeAddress_injective codeAddress_injective
    (saidBy_oneGateText true)).mpr fun part mem _ => ?_
  rw [List.mem_singleton.mp mem]
  exact ⟨rfl, .inr ⟨rfl, by decide, .inr (List.pairwise_singleton _ _)⟩⟩

/-- An inverter whose row is where its output is zero comes back as a wire. -/
theorem not_roundTrips_oneGate :
    ¬ (oneGate false).RoundTrips codeAddress codeAddress (oneGateText false) := by
  intro roundTrips
  have survives := survives_of_roundTrips codeAddress_injective codeAddress_injective
    (saidBy_oneGateText false) roundTrips ([], ⟨[['a']], ['y'], ['1'], false⟩)
    (List.mem_singleton_self _) (onWay_oneGate false)
  rcases survives.2 with none | ⟨positive, -⟩
  · cases none
  · cases positive

end Circuit

end Dynamatic.Blif
