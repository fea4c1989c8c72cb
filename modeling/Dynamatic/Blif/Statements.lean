import Dynamatic.Blif.Parser

/-!
# Statements and the lines that spell them

A statement is spelled by one line, or by several with a backslash at the end of
all but the last, and a `.names` statement has its cover on the line after. The
reader adds to the network what the statements say, one after another.
-/

namespace Dynamatic.Blif

open Dynamatic.BooleanLogic

inductive Statement where
  | ignored
  | model (args : List Name)
  | inputs (nodeNames : List Name)
  | outputs (nodeNames : List Name)
  | latch (input output : Name) (more : List Name)
  | names (inputs : List Name) (output : Name) (function : List Char)

namespace Statement

/-- What the reader adds for a statement. -/
def apply (address : Name → Nat) (network : LogicNetwork) : Statement → LogicNetwork
  | .ignored => network
  | .model args => { network with moduleName := args.headD [] }
  | .inputs nodeNames =>
      (nodeNames.filter fun nodeName => decide (nodeName ≠ "rst".toList)).foldl
        (fun network nodeName => network.addIONode nodeName ".inputs".toList) network
  | .outputs nodeNames =>
      (nodeNames.filter fun nodeName => decide (nodeName ≠ "rst".toList)).foldl
        (fun network nodeName => network.addIONode nodeName ".outputs".toList) network
  | .latch input output _ => network.addLatch input output
  | .names [] output function => network.addConstantNode output function
  | .names (first :: others) output function =>
      network.addLogicGate address (first :: others) output function

section Apply

variable (address : Name → Nat) (network : LogicNetwork)

@[simp] theorem apply_ignored : apply address network .ignored = network := rfl

@[simp] theorem apply_model (args : List Name) :
    apply address network (.model args) = { network with moduleName := args.headD [] } := rfl

theorem apply_inputs (nodeNames : List Name) :
    apply address network (.inputs nodeNames) =
      (nodeNames.filter fun nodeName => decide (nodeName ≠ "rst".toList)).foldl
        (fun network nodeName => network.addIONode nodeName ".inputs".toList) network := rfl

theorem apply_outputs (nodeNames : List Name) :
    apply address network (.outputs nodeNames) =
      (nodeNames.filter fun nodeName => decide (nodeName ≠ "rst".toList)).foldl
        (fun network nodeName => network.addIONode nodeName ".outputs".toList) network := rfl

theorem apply_latch (input output : Name) (more : List Name) :
    apply address network (.latch input output more) = network.addLatch input output := rfl

theorem apply_constant (output : Name) (function : List Char) :
    apply address network (.names [] output function) =
      network.addConstantNode output function := rfl

theorem apply_gate (first : Name) (others : List Name) (output : Name) (function : List Char) :
    apply address network (.names (first :: others) output function) =
      network.addLogicGate address (first :: others) output function := rfl

end Apply

end Statement

/-! ### Lines -/

/-- A line without the characters that begin a comment and continue a line. -/
def Plain (line : Line) : Prop := ∀ current ∈ line, current ≠ '#' ∧ current ≠ '\\'

theorem Plain.append {first second : Line} (firstPlain : Plain first) (secondPlain : Plain second) :
    Plain (first ++ second) := by
  intro current mem
  rcases List.mem_append.mp mem with mem | mem
  · exact firstPlain current mem
  · exact secondPlain current mem

/-- The lines of a file that make one line, continued by backslashes. -/
inductive Continued : Line → List Line → Prop where
  | last {line} (plain : Plain line) : Continued line [line]
  | more {piece rest lines} (plain : Plain piece) (continued : Continued rest lines) :
      Continued (piece ++ rest) ((piece ++ ['\\']) :: lines)

theorem Continued.plain {line : Line} {lines : List Line} (continued : Continued line lines) :
    Plain line := by
  induction continued with
  | last plain => exact plain
  | more plain _ inductionHypothesis => exact plain.append inductionHypothesis

theorem rdropWhile_of_plain {line : Line} (plain : Plain line) :
    line.rdropWhile (fun last => last == '\\') = line := by
  rw [List.rdropWhile_eq_self_iff]
  intro nonempty
  have last := (plain _ (List.getLast_mem nonempty)).2
  simpa using last

theorem plain_nil : Plain [] := fun _ mem => by cases mem

theorem getLast?_ne_of_plain {line : Line} (plain : Plain line) : line.getLast? ≠ some '\\' := by
  intro last
  exact (plain _ (List.mem_of_getLast? last)).2 rfl

/-- The reader puts the continued lines together. -/
theorem Continued.joinLines_eq {line : Line} {first : Line} {lines : List Line}
    (continued : Continued line (first :: lines)) (rest : List Line) {before : Line} (beforePlain : Plain before)
    (nonempty : before ++ line ≠ []) :
    joinLines (before ++ first) (lines ++ rest) = some (before ++ line, rest) := by
  generalize whole : first :: lines = all at continued
  induction continued generalizing before first lines with
  | @last line plain =>
      cases whole
      have wholePlain := beforePlain.append plain
      have isEmpty : (before ++ line).isEmpty = false := by
        cases same : before ++ line with
        | nil => exact absurd same nonempty
        | cons => rfl
      cases rest with
      | nil =>
          rw [List.nil_append, joinLines, rdropWhile_of_plain wholePlain]
          simp [isEmpty]
      | cons next rest =>
          rw [List.nil_append, joinLines, isEmpty, if_neg (by simp),
            if_neg (getLast?_ne_of_plain wholePlain)]
  | @more piece others lines' plain continued inductionHypothesis =>
      cases whole
      cases lines' with
      | nil => cases continued
      | cons next later =>
          have isEmpty : (before ++ (piece ++ ['\\'])).isEmpty = false := by simp
          have last : (before ++ (piece ++ ['\\'])).getLast? = some '\\' := by
            rw [← List.append_assoc, List.getLast?_concat]
          have dropped : (before ++ (piece ++ ['\\'])).dropLast = before ++ piece := by
            rw [← List.append_assoc, List.dropLast_concat]
          rw [List.cons_append, joinLines, isEmpty, if_neg (by simp), if_pos last, dropped,
            ← List.append_assoc before piece others]
          exact inductionHypothesis (beforePlain.append plain)
            (by rwa [List.append_assoc]) rfl

/-! ### Words -/

theorem words_cons_of_isspace {current : Char} {line : Line} (blank : isspace current = true) :
    words (current :: line) = words line := by
  rw [words, if_pos blank]

/-- A word is read up to white space or the end of the line. -/
theorem words_append {word : Name} {line : Line} (nonempty : word ≠ [])
    (solid : ∀ current ∈ word, isspace current = false)
    (stops : ∀ next ∈ line.head?, isspace next = true) :
    words (word ++ line) = word :: words line := by
  cases word with
  | nil => exact absurd rfl nonempty
  | cons current word =>
      have here : isspace current = false := solid current List.mem_cons_self
      have rest : ∀ next ∈ word, (!isspace next) = true := fun next mem => by
        rw [solid next (List.mem_cons_of_mem _ mem)]
        rfl
      have noMore : (line.takeWhile fun next => !isspace next) = [] ∧
          (line.dropWhile fun next => !isspace next) = line := by
        cases line with
        | nil => exact ⟨rfl, rfl⟩
        | cons next line =>
            have blank : isspace next = true := stops next rfl
            simp [blank]
      rw [List.cons_append, words, here, if_neg (by simp), List.takeWhile_append_of_pos rest,
        List.dropWhile_append_of_pos rest, noMore.1, noMore.2, List.append_nil]

/-- A word of a line is not empty, has no white space, and its characters are of the line. -/
theorem mem_words {line : Line} {word : Name} (mem : word ∈ words line) :
    word ≠ [] ∧ ∀ current ∈ word, isspace current = false ∧ current ∈ line := by
  induction line using words.induct with
  | case1 =>
      rw [words] at mem
      cases mem
  | case2 current rest blank inductionHypothesis =>
      rw [words, if_pos blank] at mem
      obtain ⟨nonempty, all⟩ := inductionHypothesis mem
      exact ⟨nonempty, fun next nextMem => (all next nextMem).imp_right (List.mem_cons_of_mem _)⟩
  | case3 current rest solid inductionHypothesis =>
      rw [words, if_neg solid] at mem
      rcases List.mem_cons.mp mem with rfl | later
      · refine ⟨List.cons_ne_nil _ _, fun next nextMem => ?_⟩
        rcases List.mem_cons.mp nextMem with rfl | taken
        · exact ⟨by simpa using solid, List.mem_cons_self⟩
        · exact ⟨by simpa using List.mem_takeWhile_imp taken,
            List.mem_cons_of_mem _ ((List.takeWhile_sublist _).mem taken)⟩
      · obtain ⟨nonempty, all⟩ := inductionHypothesis later
        refine ⟨nonempty, fun next nextMem => (all next nextMem).imp_right fun inRest => ?_⟩
        exact List.mem_cons_of_mem _ ((List.dropWhile_sublist _).mem inRest)

theorem words_self {word : Name} (nonempty : word ≠ [])
    (solid : ∀ current ∈ word, isspace current = false) : words word = [word] := by
  have alone := @words_append word [] nonempty solid (by simp)
  rwa [List.append_nil, words] at alone

/-- A line that begins with a dot has a word that does. -/
theorem head?_words_of_dot (line : Line) :
    ∃ word, (words ('.' :: line)).head? = some ('.' :: word) := by
  rw [words, if_neg (by decide)]
  exact ⟨_, rfl⟩

/-! ### Spelling -/

namespace Statement

/-- A line that says nothing: a comment, or a line whose first word begins with no dot. -/
def Ignored (line : Line) : Prop :=
  line = [] ∨ line.head? = some '#' ∨
    Plain line ∧ ∀ word ∈ (words line).head?, word.head? ≠ some '.'

/-- A line, continued or not, with a keyword and its arguments. -/
def SpelledAs (keyword : Name) (args : List Name) (lines : List Line) : Prop :=
  ∃ line, Continued line lines ∧ words line = keyword :: args

/-- The lines that spell a statement. -/
def Spelled (lines : List Line) : Statement → Prop
  | .ignored => ∃ line, lines = [line] ∧ Ignored line
  | .model args => SpelledAs ".model".toList args lines
  | .inputs nodeNames => SpelledAs ".inputs".toList nodeNames lines
  | .outputs nodeNames => SpelledAs ".outputs".toList nodeNames lines
  | .latch input output more => SpelledAs ".latch".toList (input :: output :: more) lines
  | .names fanins output function =>
      ∃ first cover, lines = first ++ [cover] ∧
        SpelledAs ".names".toList (fanins ++ [output]) first ∧ (words cover).headD [] = function

variable {address : Name → Nat} {terminated : Bool} {network : LogicNetwork}

/-- What the reader does with a line that has been put together. -/
theorem parseLine_of_spelledAs {keyword : Name} {args : List Name} {first : Line}
    {lines : List Line} (spelled : SpelledAs keyword args (first :: lines)) (rest : List Line) :
    ∃ line, words line = keyword :: args ∧
      (first.isEmpty || first.head? == some '#') = false ∧
      joinLines first (lines ++ rest) = some (line, rest) := by
  obtain ⟨line, continued, spells⟩ := spelled
  have nonempty : line ≠ [] := by
    rintro rfl
    rw [words] at spells
    cases spells
  have joins := continued.joinLines_eq rest plain_nil (by simpa using nonempty)
  refine ⟨line, spells, ?_, by simpa using joins⟩
  have notComment : ∀ {start : Line}, Plain start → start.head? ≠ some '#' := by
    intro start plain head
    exact (plain _ (List.mem_of_head? head)).1 rfl
  cases continued with
  | last plain =>
      have head := notComment plain
      cases first with
      | nil => exact absurd rfl nonempty
      | cons current line => simpa using head
  | @more piece others _ plain _ =>
      cases piece with
      | nil => rfl
      | cons current piece =>
          have head := notComment plain
          simpa using head

theorem parseLines_cons (line : Line) (rest : List Line) :
    parseLines address terminated (line :: rest) network =
      match parseLine address terminated network line rest with
      | none => none
      | some (left, network) => parseLines address terminated left network := by
  rw [parseLines]
  split <;> simp_all

/-- A statement is read as its keyword says. -/
theorem parseLines_of_spelledAs {keyword : Name} {args : List Name} {lines rest : List Line}
    (spelled : SpelledAs keyword args lines) {left : List Line} {result : LogicNetwork}
    (reads : ∀ line, words line = keyword :: args →
      parseStatement address terminated network keyword args line rest = some (left, result)) :
    parseLines address terminated (lines ++ rest) network =
      parseLines address terminated left result := by
  cases lines with
  | nil => obtain ⟨_, continued, -⟩ := spelled; cases continued
  | cons first lines =>
      obtain ⟨line, spells, isLine, joins⟩ := parseLine_of_spelledAs spelled rest
      rw [List.cons_append, parseLines_cons, parseLine, isLine, if_neg (by simp), joins]
      simp only [spells, List.headD_cons, List.tail_cons, reads line spells]

/-- A line whose first word begins with no dot is no statement. -/
theorem parseStatement_undotted {type : Name} {args : List Name} {line : Line} {rest : List Line}
    (undotted : type.head? ≠ some '.') (begins : line.head? ≠ some '.') :
    parseStatement address terminated network type args line rest = some (rest, network) := by
  have other : ∀ {keyword : Name}, keyword.head? = some '.' → type ≠ keyword := by
    rintro keyword dotted rfl
    exact undotted dotted
  have noPrefix : ∀ {keyword : Name}, keyword.head? = some '.' → keyword.isPrefixOf line = false := by
    intro keyword dotted
    cases keyword with
    | nil => cases dotted
    | cons current keyword =>
        cases line with
        | nil => rfl
        | cons first line =>
            cases dotted
            have apart : '.' ≠ first := fun same => begins (by rw [same]; rfl)
            rw [List.isPrefixOf, beq_false_of_ne apart, Bool.false_and]
  rw [parseStatement, if_neg (other rfl), if_neg (not_or.mpr ⟨other rfl, other rfl⟩),
    if_neg (other rfl), if_neg (other rfl), noPrefix rfl, noPrefix rfl]
  rfl

theorem parseLine_ignored {line : Line} {rest : List Line} (ignored : Ignored line) :
    parseLine address terminated network line rest = some (rest, network) := by
  rw [parseLine]
  rcases ignored with rfl | comment | ⟨plain, undotted⟩
  · rfl
  · rw [comment]
    simp
  · by_cases skipped : (line.isEmpty || line.head? == some '#') = true
    · rw [if_pos skipped]
    · have nonempty : [] ++ line ≠ [] := by
        rintro same
        rw [List.nil_append] at same
        simp [same] at skipped
      have joins := (Continued.last plain).joinLines_eq rest plain_nil nonempty
      simp only [List.nil_append] at joins
      have begins : line.head? ≠ some '.' := by
        intro dotted
        obtain ⟨line, rfl⟩ : ∃ later, line = '.' :: later := by
          cases line with
          | nil => cases dotted
          | cons current line => cases dotted; exact ⟨line, rfl⟩
        obtain ⟨word, first⟩ := head?_words_of_dot line
        exact undotted _ first rfl
      have type : ((words line).headD []).head? ≠ some '.' := by
        cases spells : words line with
        | nil => simp
        | cons word others => exact undotted word (by rw [spells]; rfl)
      rw [if_neg skipped, joins]
      exact parseStatement_undotted type begins

/-- The reader adds what a statement says and goes on with the lines behind it. -/
theorem parseLines_spelled {statement : Statement} {lines rest : List Line}
    (spelled : statement.Spelled lines) :
    parseLines address terminated (lines ++ rest) network =
      parseLines address terminated rest (statement.apply address network) := by
  cases statement with
  | ignored =>
      obtain ⟨line, rfl, ignored⟩ := spelled
      rw [List.singleton_append, parseLines_cons, parseLine_ignored ignored]
      rfl
  | model args => exact parseLines_of_spelledAs spelled fun _ _ => if_pos rfl
  | inputs nodeNames =>
      refine parseLines_of_spelledAs spelled fun _ _ => ?_
      rw [parseStatement, if_neg (by decide), if_pos (.inl rfl)]
      rfl
  | outputs nodeNames =>
      refine parseLines_of_spelledAs spelled fun _ _ => ?_
      rw [parseStatement, if_neg (by decide), if_pos (.inr rfl)]
      rfl
  | latch input output more =>
      refine parseLines_of_spelledAs spelled fun _ _ => ?_
      rw [parseStatement, if_neg (by decide), if_neg (by decide), if_pos rfl]
      rfl
  | names fanins output function =>
      obtain ⟨first, cover, rfl, spelledAs, rfl⟩ := spelled
      rw [List.append_assoc]
      refine parseLines_of_spelledAs spelledAs fun _ _ => ?_
      rw [parseStatement, if_neg (by decide), if_neg (by decide), if_neg (by decide), if_pos rfl,
        List.getLast?_concat]
      cases fanins with
      | nil => rfl
      | cons fanin fanins =>
          have several : ((fanin :: fanins) ++ [output]).length ≠ 1 := by simp
          dsimp only
          rw [if_neg several, List.dropLast_concat]
          rfl

end Statement

/-! ### Files -/

/-- The line that ends a file. -/
def EndLine (line : Line) : Prop :=
  ∃ blanks, line = ".end".toList ++ blanks ∧ ∀ blank ∈ blanks, isspace blank = true

/-- The lines of a file, in which anything may stand behind the end. -/
structure SpelledBy (statements : List Statement) (lines : List Line) : Prop where
  parts : ∃ parts rest, lines = parts.flatten ++ rest ∧
    List.Forall₂ (fun (statement : Statement) part => statement.Spelled part) statements parts ∧
    (rest = [] ∨ ∃ last more, rest = last :: more ∧ EndLine last)

theorem words_blanks {blanks : Line} (blank : ∀ current ∈ blanks, isspace current = true) :
    words blanks = [] := by
  induction blanks with
  | nil => rw [words]
  | cons current blanks inductionHypothesis =>
      rw [words_cons_of_isspace (blank current List.mem_cons_self)]
      exact inductionHypothesis fun next mem => blank next (List.mem_cons_of_mem _ mem)

variable {address : Name → Nat} {terminated : Bool}

theorem parseLine_endLine {line : Line} (ends : EndLine line) (rest : List Line)
    (network : LogicNetwork) :
    parseLine address terminated network line rest = some ([], network) := by
  obtain ⟨blanks, rfl, blank⟩ := ends
  have plain : Plain (".end".toList ++ blanks) := by
    have keyword : Plain ".end".toList := fun current mem => by revert current; decide
    refine keyword.append fun current mem => ⟨?_, ?_⟩ <;> rintro rfl <;>
      exact absurd (blank _ mem) (by decide)
  have spells : words (".end".toList ++ blanks) = [".end".toList] := by
    rw [words_append (by decide) (by decide) fun next mem => blank next (List.mem_of_head? mem),
      words_blanks blank]
  have joins := (Continued.last plain).joinLines_eq rest plain_nil (by simp)
  simp only [List.nil_append] at joins
  rw [parseLine, if_neg (by simp), joins]
  dsimp only
  have notSubcircuit : ".subckt".toList.isPrefixOf (".end".toList ++ blanks) = false := rfl
  have isEnd : ".end".toList.isPrefixOf (".end".toList ++ blanks) = true :=
    List.isPrefixOf_iff_prefix.mpr (List.prefix_append _ _)
  rw [spells, parseStatement, if_neg (by decide), if_neg (by decide), if_neg (by decide),
    if_neg (by decide), notSubcircuit, isEnd]
  rfl

/-- The reader adds what the statements of the file say. -/
theorem SpelledBy.parseLines_eq {statements : List Statement} {lines : List Line}
    (spelled : SpelledBy statements lines) (network : LogicNetwork) :
    parseLines address terminated lines network =
      some (statements.foldl (Statement.apply address) network) := by
  obtain ⟨parts, rest, rfl, all, ends⟩ := spelled.parts
  clear spelled
  induction all generalizing network with
  | nil =>
      rcases ends with rfl | ⟨last, more, rfl, isEnd⟩
      · rw [List.flatten_nil, List.nil_append, parseLines]
        rfl
      · rw [List.flatten_nil, List.nil_append, Statement.parseLines_cons,
          parseLine_endLine isEnd]
        dsimp only
        rw [parseLines]
        rfl
  | @cons statement part statements parts spelledHere _ inductionHypothesis =>
      rw [List.flatten_cons, List.append_assoc, Statement.parseLines_spelled spelledHere]
      exact inductionHypothesis (statement.apply address network)

end Dynamatic.Blif
