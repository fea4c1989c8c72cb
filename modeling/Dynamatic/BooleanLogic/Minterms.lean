import Dynamatic.BooleanLogic.TruthTable

/-!
# The minterms of a sum of products

A row is covered by the minterms of a sum when it makes a product true, or a one: terms that are a
single literal leave no minterm. In an expression without variables a zero leaves no mark either,
so that every product covers the empty row.
-/

namespace Dynamatic.BooleanLogic

variable {Variable : Type}

/-- A row that a minterm leaves open. -/
def Fits (variableList : List Variable) (row : Variable → Bool) (s : List Mark) : Prop :=
  List.Forall₂ (fun mark var => mark.allows (row var) = true) s variableList

/-- The string of a row. -/
def line (variableList : List Variable) (row : Variable → Bool) : List Mark :=
  variableList.map fun var => .ofBool (row var)

variable {variableList : List Variable} {row : Variable → Bool}

theorem line_cons (var : Variable) : line (var :: variableList) row =
    .ofBool (row var) :: line variableList row := rfl

theorem fits_cons {var : Variable} {mark : Mark} {rest : List Mark} :
    Fits (var :: variableList) row (mark :: rest) ↔
      mark.allows (row var) = true ∧ Fits variableList row rest := List.forall₂_cons

theorem not_fits_nil {var : Variable} : ¬ Fits (var :: variableList) row [] := nofun

theorem line_mem_replaceDontCaresRec {s : List Mark} :
    line variableList row ∈ replaceDontCaresRec s ↔ Fits variableList row s := by
  induction s generalizing variableList with
  | nil => cases variableList <;> simp [replaceDontCaresRec, line, Fits]
  | cons mark rest ih =>
    cases variableList with
    | nil => cases mark <;> simp [replaceDontCaresRec, line, Fits]
    | cons var variableList =>
      rw [line_cons, fits_cons, ← ih]
      cases mark <;> cases row var <;> simp [replaceDontCaresRec, Mark.ofBool, Mark.allows]

theorem fits_replicate : Fits variableList row (List.replicate variableList.length .dontCare) := by
  induction variableList with
  | nil => exact .nil
  | cons var variableList ih => exact .cons rfl ih

/-- No row fits a minterm with a null. -/
theorem not_mem_of_fits {s : List Mark} (fits : Fits variableList row s) : .null ∉ s := by
  induction fits with
  | nil => exact List.not_mem_nil
  | cons allowed _ ih =>
    rw [List.mem_cons, not_or]
    refine ⟨?_, ih⟩
    rintro rfl
    cases allowed

namespace ExpressionTree

/-- A product of literals and constants. -/
def isProduct : ExpressionTree Variable → Bool
  | literal _ _ | zero | one => true
  | and left right => left.isProduct && right.isProduct
  | or _ _ | not _ => false

/-- A sum of products. -/
def isSop : ExpressionTree Variable → Bool
  | or left right => left.isSop && right.isSop
  | tree => tree.isProduct

/-- The terms of a sum. -/
def terms : ExpressionTree Variable → List (ExpressionTree Variable)
  | or left right => left.terms ++ right.terms
  | tree => [tree]

/-- A term that is a single literal. -/
def isLiteral : ExpressionTree Variable → Bool
  | literal _ _ => true
  | _ => false

/-- A term that is a product of several. -/
def isAnd : ExpressionTree Variable → Bool
  | and _ _ => true
  | _ => false

/-- A term that is a product of several, or one. -/
def isAndOrOne : ExpressionTree Variable → Bool
  | and _ _ | one => true
  | _ => false

section Minterms

variable {tree : ExpressionTree Variable}

/-- No variables, no marks. -/
theorem generateMintermAnd_nil (varIndex : Variable → Nat) :
    tree.generateMintermAnd varIndex [] = [] := by
  induction tree with
  | literal id isNegated => exact List.modify_nil _ _
  | or left right leftHypothesis rightHypothesis =>
    rw [generateMintermAnd, leftHypothesis, rightHypothesis]
  | and left right leftHypothesis rightHypothesis =>
    rw [generateMintermAnd, leftHypothesis, rightHypothesis]
  | not right => rfl
  | zero => rfl
  | one => rfl

/-- The minterms of a sum. -/
theorem mem_generateMintermsOr {minterms : Finset (List Mark)} {s : List Mark}
    {numOfVariables : Nat} {varIndex : Variable → Nat} :
    s ∈ tree.generateMintermsOr varIndex numOfVariables minterms ↔ s ∈ minterms ∨
      ∃ term ∈ tree.terms, term.isAndOrOne = true ∧ .null ∉ s ∧
        s = term.generateMintermAnd varIndex (List.replicate numOfVariables .dontCare) := by
  induction tree generalizing minterms with
  | literal id isNegated => simp [generateMintermsOr, terms, isAndOrOne]
  | or left right leftHypothesis rightHypothesis =>
    rw [generateMintermsOr, rightHypothesis, leftHypothesis, or_assoc]
    simp only [terms, List.mem_append, or_and_right, exists_or]
  | and left right =>
    rw [generateMintermsOr]
    simp only [terms, List.mem_singleton, exists_eq_left, isAndOrOne, true_and]
    split
    next marked =>
      refine ⟨.inl, fun either => either.resolve_right ?_⟩
      rintro ⟨unmarked, rfl⟩
      exact unmarked marked
    next unmarked =>
      rw [Finset.mem_insert, or_comm]
      refine or_congr_right ⟨fun same => ⟨same ▸ unmarked, same⟩, And.right⟩
  | not right => simp [generateMintermsOr, terms, isAndOrOne]
  | zero => simp [generateMintermsOr, terms, isAndOrOne]
  | one =>
    rw [generateMintermsOr, Finset.mem_insert, or_comm]
    simp only [terms, List.mem_singleton, exists_eq_left, isAndOrOne, true_and, generateMintermAnd]
    refine or_congr_right ⟨fun same => ⟨?_, same⟩, And.right⟩
    rw [same]
    simp

variable [DecidableEq Variable]

/-- A literal keeps the rows that make it true. -/
theorem fits_generateMintermVariable {id : Variable} (listed : id ∈ variableList)
    (isNegated : Bool) (s : List Mark) :
    Fits variableList row (generateMintermVariable variableList.idxOf id isNegated s) ↔
      Fits variableList row s ∧ (literal id isNegated).evaluate row = true := by
  induction variableList generalizing s with
  | nil => cases listed
  | cons var rest ih =>
    cases s with
    | nil =>
      rw [generateMintermVariable, List.modify_nil]
      exact iff_of_false not_fits_nil fun fits => not_fits_nil fits.1
    | cons mark s =>
      by_cases here : var = id
      · subst here
        rw [generateMintermVariable, List.idxOf_cons_self, List.modify_zero_cons, fits_cons,
          fits_cons, Mark.allows_withLiteral, Bool.and_eq_true, and_right_comm]
        cases isNegated <;> simp [evaluate]
      · have behind := ih ((List.mem_cons.mp listed).resolve_left (Ne.symm here)) s
        rw [generateMintermVariable] at behind ⊢
        rw [List.idxOf_cons_ne _ here, List.modify_succ_cons, fits_cons, fits_cons, behind,
          and_assoc]

/-- The minterm of a product keeps the rows that make it true, if a zero can be marked in it. -/
theorem fits_generateMintermAnd (nonempty : variableList ≠ [])
    (product : tree.isProduct = true) (listed : ∀ var ∈ tree.getVariables, var ∈ variableList)
    (s : List Mark) :
    Fits variableList row (tree.generateMintermAnd variableList.idxOf s) ↔
      Fits variableList row s ∧ tree.evaluate row = true := by
  induction tree generalizing s with
  | literal id isNegated =>
    exact fits_generateMintermVariable (listed id (Finset.mem_singleton_self id)) isNegated s
  | or left right => cases product
  | and left right leftHypothesis rightHypothesis =>
    obtain ⟨leftProduct, rightProduct⟩ := Bool.and_eq_true_iff.mp product
    rw [generateMintermAnd,
      rightHypothesis rightProduct fun var mem => listed var (Finset.mem_union_right _ mem),
      leftHypothesis leftProduct fun var mem => listed var (Finset.mem_union_left _ mem),
      and_assoc, evaluate, Bool.and_eq_true]
  | not right => cases product
  | zero =>
    refine iff_of_false (fun fits => ?_) (by simp [evaluate])
    cases s with
    | nil =>
      cases variableList with
      | nil => exact nonempty rfl
      | cons var variableList => cases fits
    | cons mark s => exact not_mem_of_fits fits (List.mem_cons_self)
  | one => simp [generateMintermAnd, evaluate]

end Minterms

section Sums

variable {tree : ExpressionTree Variable}

/-- A sum is true where one of its terms is. -/
theorem evaluate_eq_true_iff :
    tree.evaluate row = true ↔ ∃ term ∈ tree.terms, term.evaluate row = true := by
  induction tree with
  | or left right leftHypothesis rightHypothesis =>
    rw [evaluate, Bool.or_eq_true, leftHypothesis, rightHypothesis]
    simp only [terms, List.mem_append, or_and_right, exists_or]
  | _ => simp [terms]

theorem isProduct_of_mem_terms (sop : tree.isSop = true) :
    ∀ term ∈ tree.terms, term.isProduct = true := by
  induction tree with
  | or left right leftHypothesis rightHypothesis =>
    obtain ⟨leftSop, rightSop⟩ := Bool.and_eq_true_iff.mp sop
    intro term member
    rcases List.mem_append.mp member with member | member
    · exact leftHypothesis leftSop term member
    · exact rightHypothesis rightSop term member
  | _ => simpa [terms, isSop] using sop

theorem evaluate_product_cases {term : ExpressionTree Variable} (product : term.isProduct = true)
    (holds : term.evaluate row = true) : term.isLiteral = true ∨ term.isAndOrOne = true := by
  cases term with
  | literal id isNegated => exact .inl rfl
  | and left right => exact .inr rfl
  | one => exact .inr rfl
  | zero => cases holds
  | or left right => cases product
  | not right => cases product

theorem notFree_of_isProduct {term : ExpressionTree Variable} (product : term.isProduct = true) :
    term.notFree = true := by
  induction term with
  | and left right leftHypothesis rightHypothesis =>
    obtain ⟨leftProduct, rightProduct⟩ := Bool.and_eq_true_iff.mp product
    exact Bool.and_eq_true_iff.mpr ⟨leftHypothesis leftProduct, rightHypothesis rightProduct⟩
  | literal id isNegated => rfl
  | zero => rfl
  | one => rfl
  | or left right => cases product
  | not right => cases product

variable [DecidableEq Variable]

theorem getVariables_of_mem_terms :
    ∀ term ∈ tree.terms, term.getVariables ⊆ tree.getVariables := by
  induction tree with
  | or left right leftHypothesis rightHypothesis =>
    intro term member
    rcases List.mem_append.mp member with member | member
    · exact (leftHypothesis term member).trans Finset.subset_union_left
    · exact (rightHypothesis term member).trans Finset.subset_union_right
  | _ => simp [terms]

end Sums

section Covering

variable [LinearOrder Variable] {tree : ExpressionTree Variable}

/-- The rows that the minterms cover. -/
def covered (tree : ExpressionTree Variable) (row : Variable → Bool) : Prop :=
  ∃ term ∈ tree.terms, term.isAndOrOne = true ∧
    (term.evaluate row = true ∨ tree.variableList = [])

/-- The minterm of a term, against a row. -/
theorem fits_minterm {term : ExpressionTree Variable} (product : term.isProduct = true)
    (listed : ∀ var ∈ term.getVariables, var ∈ variableList) :
    Fits variableList row (term.generateMintermAnd variableList.idxOf
      (List.replicate variableList.length .dontCare)) ↔
      term.evaluate row = true ∨ variableList = [] := by
  by_cases empty : variableList = []
  · subst empty
    rw [List.length_nil, List.replicate_zero, generateMintermAnd_nil]
    exact iff_of_true .nil (.inr rfl)
  · rw [fits_generateMintermAnd empty product listed, or_iff_left empty]
    exact and_iff_right fits_replicate

/-- The expanded minterms of a sum of products are the rows that are covered. -/
theorem line_mem_minterms (sop : tree.isSop = true) :
    line tree.variableList row ∈ replaceDontCares
      (tree.generateMintermsOr tree.variableList.idxOf tree.variableList.length ∅) ↔
      tree.covered row := by
  have fits : ∀ term ∈ tree.terms, (Fits tree.variableList row
      (term.generateMintermAnd tree.variableList.idxOf
        (List.replicate tree.variableList.length .dontCare)) ↔
      term.evaluate row = true ∨ tree.variableList = []) := fun term member =>
    fits_minterm (isProduct_of_mem_terms sop term member) fun var mem =>
      mem_variableList.mpr (getVariables_of_mem_terms term member mem)
  simp only [replaceDontCares, Finset.mem_biUnion, line_mem_replaceDontCaresRec,
    mem_generateMintermsOr, Finset.notMem_empty, false_or]
  constructor
  · rintro ⟨s, ⟨term, member, handled, -, rfl⟩, allowed⟩
    exact ⟨term, member, handled, (fits term member).mp allowed⟩
  · rintro ⟨term, member, handled, holds⟩
    have allowed := (fits term member).mpr holds
    exact ⟨_, ⟨term, member, handled, not_mem_of_fits allowed, rfl⟩, allowed⟩

/-- The table of a sum of products has output one on the rows that are covered. -/
theorem line_mem_table (sop : tree.isSop = true) (output : Mark) :
    line tree.variableList row ++ [output] ∈ tree.generateTruthTableSop ↔
      (tree.covered row ∧ output = .one) ∨ (¬ tree.covered row ∧ output = .zero) := by
  have isRow : line tree.variableList row ∈
      replaceDontCares {List.replicate tree.variableList.length .dontCare} := by
    rw [replaceDontCares, Finset.singleton_biUnion, line_mem_replaceDontCaresRec]
    exact fits_replicate
  rw [generateTruthTableSop, Finset.mem_image, ← line_mem_minterms sop]
  constructor
  · rintro ⟨other, -, same⟩
    obtain ⟨rfl, value⟩ := List.append_inj' same rfl
    rw [← List.singleton_inj.mp value]
    split
    next inside => exact .inl ⟨inside, rfl⟩
    next outside => exact .inr ⟨outside, rfl⟩
  · rintro (⟨inside, rfl⟩ | ⟨outside, rfl⟩)
    · exact ⟨_, isRow, by rw [if_pos inside]⟩
    · exact ⟨_, isRow, by rw [if_neg outside]⟩

/-- The rows of single literals are those of other terms too, and without variables a product is
there only with a true one. -/
structure OthersCover (tree : ExpressionTree Variable) : Prop where
  literals : ∀ row, ∀ term ∈ tree.terms, term.isLiteral = true → term.evaluate row = true →
    ∃ other ∈ tree.terms, other.isAndOrOne = true ∧ other.evaluate row = true
  constants : tree.getVariables = ∅ → ∀ term ∈ tree.terms, term.isAnd = true →
    ∃ other ∈ tree.terms, other.isAndOrOne = true ∧ (other.evaluate fun _ => false) = true

theorem variableList_eq_nil : tree.variableList = [] ↔ tree.getVariables = ∅ := by
  rw [← List.length_eq_zero_iff, variableList, Finset.length_sort, Finset.card_eq_zero]

/-- Without variables there is no literal. -/
theorem isLiteral_of_empty (empty : tree.getVariables = ∅) {term : ExpressionTree Variable}
    (member : term ∈ tree.terms) : ¬ term.isLiteral = true := by
  intro literal
  cases term with
  | literal id isNegated =>
      have inside := getVariables_of_mem_terms _ member (Finset.mem_singleton_self id)
      rw [empty] at inside
      exact Finset.notMem_empty id inside
  | _ => cases literal

/-- Without variables a term has one value. -/
theorem evaluate_of_empty (sop : tree.isSop = true) (empty : tree.getVariables = ∅)
    {term : ExpressionTree Variable} (member : term ∈ tree.terms) (row other : Variable → Bool) :
    term.evaluate row = term.evaluate other := by
  refine evaluate_congr (notFree_of_isProduct (isProduct_of_mem_terms sop term member))
    fun var mem => ?_
  have inside := getVariables_of_mem_terms _ member mem
  rw [empty] at inside
  exact absurd inside (Finset.notMem_empty var)

theorem othersCover_of_covered (sop : tree.isSop = true)
    (agree : ∀ row, tree.covered row ↔ tree.evaluate row = true) : tree.OthersCover where
  literals := fun row term member literal holds => by
    obtain ⟨other, otherMember, handled, either⟩ :=
      (agree row).mpr (evaluate_eq_true_iff.mpr ⟨term, member, holds⟩)
    refine ⟨other, otherMember, handled, either.resolve_right fun none => ?_⟩
    exact isLiteral_of_empty (variableList_eq_nil.mp none) member literal
  constants := fun empty term member isAnd => by
    have handled : term.isAndOrOne = true := by
      cases term <;> first | rfl | cases isAnd
    obtain ⟨other, otherMember, holds⟩ := evaluate_eq_true_iff.mp
      ((agree fun _ => false).mp ⟨term, member, handled, .inr (variableList_eq_nil.mpr empty)⟩)
    refine ⟨other, otherMember, ?_, holds⟩
    exact (evaluate_product_cases (isProduct_of_mem_terms sop other otherMember) holds
      ).resolve_left (isLiteral_of_empty empty otherMember)

theorem covered_of_othersCover (sop : tree.isSop = true) (others : tree.OthersCover)
    (row : Variable → Bool) : tree.covered row ↔ tree.evaluate row = true := by
  rw [evaluate_eq_true_iff]
  constructor
  · rintro ⟨term, member, handled, holds | none⟩
    · exact ⟨term, member, holds⟩
    · have empty := variableList_eq_nil.mp none
      cases term with
      | one => exact ⟨.one, member, rfl⟩
      | and left right =>
          obtain ⟨other, otherMember, -, holds⟩ := others.constants empty _ member rfl
          exact ⟨other, otherMember, (evaluate_of_empty sop empty otherMember _ _).trans holds⟩
      | _ => cases handled
  · rintro ⟨term, member, holds⟩
    rcases evaluate_product_cases (isProduct_of_mem_terms sop term member) holds with
      literal | handled
    · obtain ⟨other, otherMember, handled, holds⟩ :=
        others.literals row term member literal holds
      exact ⟨other, otherMember, handled, .inl holds⟩
    · exact ⟨term, member, handled, .inl holds⟩

/-- The minterms cover the rows that make the sum true exactly when the other terms do. -/
theorem covered_iff (sop : tree.isSop = true) :
    (∀ row, tree.covered row ↔ tree.evaluate row = true) ↔ tree.OthersCover :=
  ⟨othersCover_of_covered sop, covered_of_othersCover sop⟩

/-- The table of a sum of products covers the rows that make it true. -/
def TableCovers (tree : ExpressionTree Variable) : Prop :=
  ∀ row, (line tree.variableList row ++ [.one] ∈ tree.generateTruthTableSop ↔
      tree.evaluate row = true) ∧
    (line tree.variableList row ++ [.zero] ∈ tree.generateTruthTableSop ↔
      tree.evaluate row = false)

theorem tableCovers_iff (sop : tree.isSop = true) : tree.TableCovers ↔ tree.OthersCover := by
  rw [← covered_iff sop]
  refine forall_congr' fun row => ?_
  rw [line_mem_table sop, line_mem_table sop, ← Bool.not_eq_true]
  by_cases inside : tree.covered row <;> simp [inside]

/-- Some row of the table has the values that the variables have. -/
theorem exists_rowOf (variableList : List Variable) (row : Variable → Bool) :
    ∃ index < 2 ^ variableList.length,
      ∀ var ∈ variableList, rowOf variableList index var = row var := by
  let bits : BitVec variableList.length :=
    (BitVec.iunfoldr (fun (place : Fin variableList.length) (_ : Unit) =>
      ((), row variableList[place])) ()).2
  refine ⟨bits.toNat, bits.isLt, fun var mem => ?_⟩
  have place := List.idxOf_lt_length_of_mem mem
  have bit : bits.getLsbD (variableList.idxOf var) = row variableList[variableList.idxOf var] :=
    BitVec.iunfoldr_getLsbD (fun _ => ()) ⟨variableList.idxOf var, place⟩ fun _ => rfl
  rw [List.getElem_idxOf] at bit
  rw [rowOf, decide_eq_true mem, Bool.true_and, ← bit]
  rfl

/-- The three tables of an expression agree with its values. -/
structure TablesAgree (tree : ExpressionTree Variable) : Prop where
  sop : tree.isSop = true → tree.TableCovers
  table : ∃ table, tree.generateTruthTable = some table ∧
    table.length = 2 ^ tree.getVariables.card ∧
    (∀ entry ∈ table, entry.2 = tree.evaluate entry.1) ∧
    ∀ row : Variable → Bool, ∃ entry ∈ table, ∀ var ∈ tree.getVariables, entry.1 var = row var
  rows : ∀ (numOfRows : Nat) (columns : Variable → Option (BitVec numOfRows)), ∀ index < numOfRows,
    (tree.evaluateRows columns).getLsbD index =
      tree.evaluate fun id => ((columns id).getD 0).getLsbD index
  together : ∀ table, tree.generateTruthTable = some table →
    ∀ (index : Nat) entry, table[index]? = some entry →
      (tree.evaluateRows (columnsOf tree.variableList table.length)).getLsbD index = entry.2

theorem length_variableList : tree.variableList.length = tree.getVariables.card :=
  Finset.length_sort _

theorem generateTruthTable_rows (few : tree.getVariables.card ≤ 30) :
    ∃ table, tree.generateTruthTable = some table ∧
      table.length = 2 ^ tree.getVariables.card ∧
      (∀ entry ∈ table, entry.2 = tree.evaluate entry.1) ∧
      ∀ row : Variable → Bool, ∃ entry ∈ table, ∀ var ∈ tree.getVariables, entry.1 var = row var := by
  have fits : tree.variableList.length < 31 := by
    rw [length_variableList]
    omega
  refine ⟨_, if_pos fits, ?_, fun entry member => ?_, fun row => ?_⟩
  · rw [List.length_map, List.length_range, length_variableList]
  · obtain ⟨index, -, rfl⟩ := List.mem_map.mp member
    rfl
  · obtain ⟨index, bound, same⟩ := exists_rowOf tree.variableList row
    exact ⟨_, List.mem_map.mpr ⟨index, List.mem_range.mpr bound, rfl⟩,
      fun var mem => same var (mem_variableList.mpr mem)⟩

theorem evaluateRows_table {table : List ((Variable → Bool) × Bool)}
    (generated : tree.generateTruthTable = some table) (index : Nat)
    (entry : (Variable → Bool) × Bool) (given : table[index]? = some entry) :
    (tree.evaluateRows (columnsOf tree.variableList table.length)).getLsbD index = entry.2 := by
  obtain ⟨bound, -⟩ := List.getElem?_eq_some_iff.mp given
  rw [getLsbD_evaluateRows _ bound]
  simp only [getLsbD_columnsOf bound]
  rw [generateTruthTable] at generated
  split at generated
  · cases generated
    rw [List.getElem?_map, Option.map_eq_some_iff] at given
    obtain ⟨row, here, rfl⟩ := given
    obtain ⟨_, rfl⟩ := List.getElem?_eq_some_iff.mp here
    rw [List.getElem_range]
  · cases generated

/-- The tables of an expression agree with its values exactly when it has at most thirty
variables and, if it is a sum of products, what its single literals cover is covered by other
terms. -/
theorem tablesAgree_iff (tree : ExpressionTree Variable) :
    tree.TablesAgree ↔
      (tree.isSop = true → tree.OthersCover) ∧ tree.getVariables.card ≤ 30 := by
  constructor
  · intro agree
    refine ⟨fun sop => (tableCovers_iff sop).mp (agree.sop sop), ?_⟩
    obtain ⟨table, generated, -⟩ := agree.table
    rw [generateTruthTable, length_variableList] at generated
    split at generated
    · omega
    · cases generated
  · rintro ⟨others, few⟩
    exact ⟨fun sop => (tableCovers_iff sop).mpr (others sop), generateTruthTable_rows few,
      fun _ columns _ bound => getLsbD_evaluateRows columns bound,
      fun _ generated => evaluateRows_table generated⟩

end Covering

/-- A single literal is true on a row that its table has with output zero. -/
theorem not_tablesAgree_literal :
    ¬ ∀ tree : ExpressionTree Nat, tree.TablesAgree := by
  intro claim
  have covers : (literal 0 false).TableCovers := (claim (.literal 0 false)).sop rfl
  have others := ((tableCovers_iff rfl).mp covers).literals (fun _ => true) (.literal 0 false)
    (List.mem_singleton_self _) rfl rfl
  obtain ⟨other, member, handled, -⟩ := others
  rw [List.mem_singleton.mp member] at handled
  cases handled

end ExpressionTree

end Dynamatic.BooleanLogic
