import Dynamatic.Blif.Circuit
import Dynamatic.Blif.Written

/-!
# Reading a circuit

The network read from a text has the ports and the latches of its circuit. The node
of a gate has the inputs of the gate as its fanins, in the order of their addresses,
and the first word behind the line of the gate as its function.
-/

namespace Dynamatic.Blif

open Dynamatic.BooleanLogic

/-! ### Statements of a circuit -/

/-- What the reader takes as the function of a gate. -/
def coverOf (between : List Line) (gate : Gate) : List Char :=
  match between with
  | [] => gate.coverWords.headD []
  | first :: _ => (words first).headD []

namespace Item

/-- The reader takes the first comment before a cover as the cover, and ignores the rest. -/
def statements : Item → List Statement
  | .comment => [.ignored]
  | .model args => [.model args]
  | .inputs nodeNames => [.inputs nodeNames]
  | .outputs nodeNames => [.outputs nodeNames]
  | .latch input output more => [.latch input output more]
  | .gate between logicGate =>
      .names logicGate.inputs logicGate.output (coverOf between logicGate) ::
        between.map fun _ => .ignored

end Item

theorem ignored_of_isComment {line : Line} (isComment : IsComment line) :
    Statement.Ignored line := by
  rcases isComment with blank | comment
  · refine .inr (.inr ⟨fun current mem => ⟨?_, ?_⟩, ?_⟩)
    · rintro rfl
      exact absurd (blank _ mem) (by decide)
    · rintro rfl
      exact absurd (blank _ mem) (by decide)
    · rw [words_blanks blank]
      intro word mem
      cases mem
  · exact .inr (.inl comment)

/-- The first word of a cover is a digit or a row. -/
theorem head_coverWords {gate : Gate} (isRow : IsRow gate.inputs gate.row) :
    ∃ word others, gate.coverWords = word :: others ∧ word.head? ≠ some '.' := by
  rw [Gate.coverWords]
  split
  · exact ⟨_, [], rfl, by split <;> decide⟩
  · refine ⟨gate.row, _, rfl, fun dotted => ?_⟩
    have literal := isRow.2 '.' (List.mem_of_head? dotted)
    revert literal
    decide

theorem Spells.ignored {lines : List Line} (all : ∀ line ∈ lines, Statement.Ignored line) :
    Spells (lines.map fun _ => .ignored) lines := by
  induction lines with
  | nil => exact ⟨[], rfl, .nil⟩
  | cons line lines inductionHypothesis =>
      obtain ⟨here, later⟩ := List.forall_mem_cons.mp all
      have spelled : Statement.ignored.Spelled [line] := ⟨line, rfl, here⟩
      exact (Spells.single spelled).append (inductionHypothesis later)

theorem Item.spells_statements {item : Item} {lines : List Line} (spelled : item.Spelled lines)
    (small : ∀ part ∈ item.gate?, IsRow part.2.inputs part.2.row) :
    Spells item.statements lines := by
  cases item with
  | comment =>
      obtain ⟨line, rfl, isComment⟩ := spelled
      exact .single ⟨line, rfl, ignored_of_isComment isComment⟩
  | model args => exact .single spelled
  | inputs nodeNames => exact .single spelled
  | outputs nodeNames => exact .single spelled
  | latch input output more => exact .single spelled
  | gate between logicGate =>
      obtain ⟨first, row, rfl, spelled, comments, plain, spells⟩ := spelled
      obtain ⟨word, others, covers, undotted⟩ := head_coverWords (small _ rfl)
      have rowIgnored : Statement.Ignored row := by
        refine .inr (.inr ⟨plain, fun other mem => ?_⟩)
        rw [spells, covers] at mem
        cases mem
        exact undotted
      cases between with
      | nil =>
          refine .single ⟨first, row, by simp, spelled, ?_⟩
          rw [spells]
          rfl
      | cons comment more =>
          obtain ⟨-, comments⟩ := List.forall_mem_cons.mp comments
          have gateLines : Spells [.names logicGate.inputs logicGate.output
              (coverOf (comment :: more) logicGate)] (first ++ [comment]) :=
            .single ⟨first, comment, rfl, spelled, rfl⟩
          have rest : ∀ line ∈ more ++ [row], Statement.Ignored line := by
            intro line mem
            rcases List.mem_append.mp mem with mem | mem
            · exact ignored_of_isComment (comments line mem)
            · rw [List.mem_singleton.mp mem]
              exact rowIgnored
          have sameNumber : ((comment :: more).map fun _ => Statement.ignored) =
              (more ++ [row]).map fun _ => .ignored := by
            rw [List.map_const', List.map_const', List.length_append]
            rfl
          have all := gateLines.append (.ignored rest)
          rw [← sameNumber] at all
          simpa [Item.statements] using all

theorem spells_items {items : List Item} {parts : List (List Line)}
    (all : List.Forall₂ (fun (item : Item) part => item.Spelled part) items parts)
    (small : ∀ part ∈ items.filterMap Item.gate?, IsRow part.2.inputs part.2.row) :
    Spells (items.flatMap Item.statements) parts.flatten := by
  induction all with
  | nil => exact ⟨[], rfl, .nil⟩
  | @cons item part items parts spelled _ inductionHypothesis =>
      have here := Item.spells_statements spelled fun part mem =>
        small part (List.mem_filterMap.mpr ⟨item, List.mem_cons_self, mem⟩)
      refine here.append (inductionHypothesis fun part mem => small part ?_)
      obtain ⟨other, isItem, mem⟩ := List.mem_filterMap.mp mem
      exact List.mem_filterMap.mpr ⟨other, List.mem_cons_of_mem _ isItem, mem⟩

namespace Circuit

variable {circuit : Circuit}

def statements (circuit : Circuit) : List Statement := circuit.items.flatMap Item.statements

/-- The text of a circuit spells its statements. -/
theorem SaidBy.spelledBy {text : List Char} (said : circuit.SaidBy text) :
    SpelledBy circuit.statements (getLines text) := by
  obtain ⟨parts, rest, lines, all, ends⟩ := said
  obtain ⟨statementParts, same, spelled⟩ :=
    spells_items all fun part mem => (circuit.small part mem).2
  exact ⟨statementParts, rest, by rw [lines, same], spelled, ends⟩

/-! ### What the statements of a circuit say -/

private theorem exists_mem_statements {adds : Statement → Prop} (said : Item → Prop)
    (one : ∀ item : Item, (∃ statement ∈ item.statements, adds statement) ↔ said item) :
    (∃ statement ∈ circuit.statements, adds statement) ↔ ∃ item ∈ circuit.items, said item := by
  constructor
  · rintro ⟨statement, mem, added⟩
    obtain ⟨item, isItem, mem⟩ := List.mem_flatMap.mp mem
    exact ⟨item, isItem, (one item).mp ⟨statement, mem, added⟩⟩
  · rintro ⟨item, isItem, isSaid⟩
    obtain ⟨statement, mem, added⟩ := (one item).mpr isSaid
    exact ⟨statement, List.mem_flatMap.mpr ⟨item, isItem, mem⟩, added⟩

private theorem exists_mem_filterMap {Part : Type} {items : List Item} {part? : Item → Option Part}
    {holds : Part → Prop} :
    (∃ item ∈ items, ∃ part, part? item = some part ∧ holds part) ↔
      ∃ part ∈ items.filterMap part?, holds part := by
  constructor
  · rintro ⟨item, isItem, part, same, holds⟩
    exact ⟨part, List.mem_filterMap.mpr ⟨item, isItem, same⟩, holds⟩
  · rintro ⟨part, mem, holds⟩
    obtain ⟨item, isItem, same⟩ := List.mem_filterMap.mp mem
    exact ⟨item, isItem, part, same, holds⟩

theorem declaresInput_iff {name : Name} :
    (∃ statement ∈ circuit.statements, statement.declaresInput name) ↔ name ∈ circuit.inputs := by
  rw [exists_mem_statements fun item => name ∈ item.inputNames ∧ name ≠ "rst".toList]
  · rw [inputs, List.mem_flatMap]
    refine ⟨fun ⟨item, isItem, mem, _⟩ => ⟨item, isItem, mem⟩, fun ⟨item, isItem, mem⟩ =>
      ⟨item, isItem, mem, ?_⟩⟩
    rintro rfl
    exact circuit.ports.1 (List.mem_flatMap.mpr ⟨item, isItem, mem⟩)
  · intro item
    cases item <;> simp [Item.statements, Statement.declaresInput, Item.inputNames]

theorem declaresOutput_iff {name : Name} :
    (∃ statement ∈ circuit.statements, statement.declaresOutput name) ↔
      name ∈ circuit.outputs := by
  rw [exists_mem_statements fun item => name ∈ item.outputNames ∧ name ≠ "rst".toList]
  · rw [outputs, List.mem_flatMap]
    refine ⟨fun ⟨item, isItem, mem, _⟩ => ⟨item, isItem, mem⟩, fun ⟨item, isItem, mem⟩ =>
      ⟨item, isItem, mem, ?_⟩⟩
    rintro rfl
    exact circuit.ports.2 (List.mem_flatMap.mpr ⟨item, isItem, mem⟩)
  · intro item
    cases item <;> simp [Item.statements, Statement.declaresOutput, Item.outputNames]

theorem entersLatch_iff {name : Name} :
    (∃ statement ∈ circuit.statements, statement.entersLatch name) ↔
      ∃ latch ∈ circuit.latches, name = latch.1 :=
  (exists_mem_statements _ fun item => by
    cases item <;> simp [Item.statements, Statement.entersLatch, Item.latch?]).trans
      exists_mem_filterMap

theorem leavesLatch_iff {name : Name} :
    (∃ statement ∈ circuit.statements, statement.leavesLatch name) ↔
      ∃ latch ∈ circuit.latches, name = latch.2 :=
  (exists_mem_statements _ fun item => by
    cases item <;> simp [Item.statements, Statement.leavesLatch, Item.latch?]).trans
      exists_mem_filterMap

theorem feeds_iff {fanin name : Name} :
    (∃ statement ∈ circuit.statements, statement.feeds fanin name) ↔
      ∃ part ∈ circuit.parts, name = part.2.output ∧ fanin ∈ part.2.inputs :=
  (exists_mem_statements _ fun item => by
    cases item <;> simp [Item.statements, Statement.feeds, Item.gate?]).trans
      exists_mem_filterMap

theorem gives_iff {name : Name} {function : List Char} :
    (∃ statement ∈ circuit.statements, statement.gives name function) ↔
      ∃ part ∈ circuit.parts, name = part.2.output ∧ function = coverOf part.1 part.2 :=
  (exists_mem_statements _ fun item => by
    cases item <;> simp [Item.statements, Statement.gives, Item.gate?]).trans
      exists_mem_filterMap

theorem isConstant_iff {name : Name} {value : List Char} :
    (∃ statement ∈ circuit.statements, statement.isConstant name value) ↔
      ∃ part ∈ circuit.parts, part.2.inputs = [] ∧ name = part.2.output ∧
        coverOf part.1 part.2 = value := by
  refine (exists_mem_statements _ fun item => ?_).trans exists_mem_filterMap
  cases item with
  | gate between logicGate =>
      cases none : logicGate.inputs <;>
        simp [Item.statements, Statement.isConstant, Item.gate?, none]
  | comment => simp [Item.statements, Statement.isConstant, Item.gate?]
  | model args => simp [Item.statements, Statement.isConstant, Item.gate?]
  | inputs nodeNames => simp [Item.statements, Statement.isConstant, Item.gate?]
  | outputs nodeNames => simp [Item.statements, Statement.isConstant, Item.gate?]
  | latch input output more => simp [Item.statements, Statement.isConstant, Item.gate?]

theorem filterMap_latch? : circuit.statements.filterMap Statement.latch? = circuit.latches := by
  rw [statements, latches]
  induction circuit.items with
  | nil => rfl
  | cons item items inductionHypothesis =>
      have here : item.statements.filterMap Statement.latch? = item.latch?.toList := by
        cases item with
        | gate between logicGate =>
            refine List.filterMap_eq_nil_iff.mpr fun statement mem => ?_
            rcases List.mem_cons.mp mem with rfl | ignored
            · rfl
            · obtain ⟨_, -, rfl⟩ := List.mem_map.mp ignored
              rfl
        | _ => rfl
      rw [List.flatMap_cons, List.filterMap_append, here, inductionHypothesis]
      cases same : item.latch? <;> simp [same]

end Circuit

end Dynamatic.Blif
