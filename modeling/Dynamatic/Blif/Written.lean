import Dynamatic.Blif.Contents

/-!
# The text that the writer makes

The writer lists, in topological order, every node on the way to an output or to
the input of a latch. Its text spells statements again, one for each of its parts,
so that the reader takes it back: what the network read back holds is what these
statements say.
-/

namespace Dynamatic.Blif

open Dynamatic.ControlFlow Dynamatic.BooleanLogic

/-- A name that a line can hold as a word. -/
structure IsName (name : Name) : Prop where
  nonempty : name ≠ []
  solid : ∀ current ∈ name, isspace current = false
  plain : Plain name

instance (name : Name) : Decidable (IsName name) :=
  decidable_of_iff
    (name ≠ [] ∧ (∀ current ∈ name, isspace current = false) ∧
      ∀ current ∈ name, current ≠ '#' ∧ current ≠ '\\')
    ⟨fun ⟨nonempty, solid, plain⟩ => ⟨nonempty, solid, plain⟩,
      fun isName => ⟨isName.nonempty, isName.solid, isName.plain⟩⟩

/-- What can stand as the cover of a gate. -/
def IsCover (cover : List Char) : Prop := ∀ current ∈ cover, isspace current = false

theorem isName_of_mem_words {line : Line} (plain : Plain line) {word : Name}
    (mem : word ∈ words line) : IsName word := by
  obtain ⟨nonempty, all⟩ := mem_words mem
  exact ⟨nonempty, fun current inWord => (all current inWord).1,
    fun current inWord => plain current (all current inWord).2⟩

theorem isCover_headD_words (line : Line) : IsCover ((words line).headD []) := by
  cases same : words line with
  | nil => exact fun current mem => by cases mem
  | cons word others =>
      have mem : word ∈ words line := by simp [same]
      exact fun current inWord => ((mem_words mem).2 current inWord).1

theorem headD_words_of_isCover {cover : List Char} (isCover : IsCover cover) :
    (words cover).headD [] = cover := by
  by_cases empty : cover = []
  · subst empty
    rw [words]
    rfl
  · rw [words_self empty isCover]
    rfl

/-! ### Names of statements -/

namespace Statement

/-- The words of a statement can be written as such. -/
def WellNamed : Statement → Prop
  | .ignored => True
  | .model args => ∀ arg ∈ args, IsName arg
  | .inputs nodeNames => ∀ name ∈ nodeNames, IsName name
  | .outputs nodeNames => ∀ name ∈ nodeNames, IsName name
  | .latch input output _ => IsName input ∧ IsName output
  | .names fanins output function =>
      (∀ fanin ∈ fanins, IsName fanin) ∧ IsName output ∧ IsCover function

theorem SpelledAs.isName {keyword : Name} {args : List Name} {lines : List Line}
    (spelled : SpelledAs keyword args lines) : ∀ arg ∈ args, IsName arg := by
  obtain ⟨line, continued, spells⟩ := spelled
  intro arg mem
  refine isName_of_mem_words continued.plain ?_
  rw [spells]
  exact List.mem_cons_of_mem _ mem

theorem Spelled.wellNamed {statement : Statement} {lines : List Line}
    (spelled : statement.Spelled lines) : statement.WellNamed := by
  cases statement with
  | ignored => trivial
  | model args => exact SpelledAs.isName spelled
  | inputs nodeNames => exact SpelledAs.isName spelled
  | outputs nodeNames => exact SpelledAs.isName spelled
  | latch input output more =>
      have all := SpelledAs.isName spelled
      exact ⟨all input (by simp), all output (by simp)⟩
  | names fanins output function =>
      obtain ⟨first, cover, -, spelledAs, rfl⟩ := spelled
      have all := spelledAs.isName
      exact ⟨fun fanin mem => all fanin (List.mem_append_left _ mem), all output (by simp),
        isCover_headD_words cover⟩

end Statement

theorem SpelledBy.wellNamed {statements : List Statement} {lines : List Line}
    (spelled : SpelledBy statements lines) : ∀ statement ∈ statements, statement.WellNamed := by
  obtain ⟨parts, rest, -, all, -⟩ := spelled.parts
  clear spelled
  induction all with
  | nil => exact fun _ mem => by cases mem
  | cons spelledHere _ inductionHypothesis =>
      exact List.forall_mem_cons.mpr ⟨spelledHere.wellNamed, inductionHypothesis⟩

/-! ### The order of the nodes -/

namespace LogicNetwork

variable {address : Name → Nat} {network : LogicNetwork}

theorem mem_getNodes {flag : Node → Bool} {name : Name} :
    name ∈ network.getNodes address flag ↔
      name ∈ network.names ∧ flag (network.node name) = true := by
  rw [getNodes, mem_setOf, List.mem_filter]

private theorem visit_outputs (closed : ∀ name ∈ network.names, network.fanins name ⊆ network.names)
    (nodes : List Name) (areNodes : nodes ⊆ network.names) (order : List Name) :
    let result := nodes.foldl (fun state name => network.topologicalOrderUtil name state) ([], order)
    PostOrder.Reached network.fanins [] order result ∧ nodes ⊆ result.2 := by
  induction nodes generalizing order with
  | nil => exact ⟨.refl, List.nil_subset _⟩
  | cons name nodes inductionHypothesis =>
      obtain ⟨isNode, areNodes⟩ := List.cons_subset.mp areNodes
      obtain ⟨reached, listed⟩ := PostOrder.reached_visit closed isNode List.nodup_nil
        (List.nil_subset _) List.not_mem_nil (Nat.lt_succ_self network.names.length) order
      obtain ⟨middle, isMiddle⟩ : ∃ middle,
          network.topologicalOrderUtil name ([], order) = ([], middle) :=
        ⟨_, Prod.ext reached.way_eq rfl⟩
      have later := inductionHypothesis areNodes middle
      rw [topologicalOrderUtil] at isMiddle
      rw [isMiddle] at reached listed
      dsimp only [List.foldl_cons]
      rw [topologicalOrderUtil, isMiddle]
      exact ⟨reached.trans later.1, List.cons_subset.mpr ⟨later.1.kept listed, later.2⟩⟩

/-- The order lists the primary inputs and outputs and, but for the inputs, what feeds them. -/
private theorem order_listed
    (closed : ∀ name ∈ network.names, network.fanins name ⊆ network.names) :
    let order := (network.generateTopologicalOrder address).nodesTopologicalOrder
    PostOrder.Reached network.fanins [] (network.getNodes address Node.isPrimaryInput)
        ([], order) ∧
      network.getNodes address Node.isPrimaryOutput ⊆ order := by
  obtain ⟨reached, outputs⟩ := visit_outputs closed (network.getNodes address Node.isPrimaryOutput)
    (fun other mem => (mem_getNodes.mp mem).1) (network.getNodes address Node.isPrimaryInput)
  exact ⟨⟨rfl, reached.kept, reached.closed⟩, outputs⟩

/-- The order lists what an output or the input of a latch needs. -/
theorem primaryOutput_listed
    (closed : ∀ name ∈ network.names, network.fanins name ⊆ network.names) {name : Name}
    (isNode : name ∈ network.names) (isPrimary : (network.node name).isPrimaryOutput = true) :
    name ∈ (network.generateTopologicalOrder address).nodesTopologicalOrder :=
  (order_listed closed).2 (mem_getNodes.mpr ⟨isNode, isPrimary⟩)

theorem primaryInput_listed
    (closed : ∀ name ∈ network.names, network.fanins name ⊆ network.names) {name : Name}
    (isNode : name ∈ network.names) (isPrimary : (network.node name).isPrimaryInput = true) :
    name ∈ (network.generateTopologicalOrder address).nodesTopologicalOrder :=
  (order_listed closed).1.kept (mem_getNodes.mpr ⟨isNode, isPrimary⟩)

theorem fanin_listed (closed : ∀ name ∈ network.names, network.fanins name ⊆ network.names)
    {name fanin : Name} (isInner : (network.node name).isPrimaryInput = false)
    (listed : name ∈ (network.generateTopologicalOrder address).nodesTopologicalOrder)
    (feeds : fanin ∈ network.fanins name) :
    fanin ∈ (network.generateTopologicalOrder address).nodesTopologicalOrder := by
  rcases (order_listed closed).1.closed name listed with primary | successors
  · rw [(mem_getNodes.mp primary).2] at isInner
    cases isInner
  · exact (successors fanin feeds).resolve_right fun mem => by cases mem

/-! ### The statements of the text -/

variable (address network)

/-- The statement for a gate, if the writer knows the gate. -/
def nodeStatements (name : Name) : List Statement :=
  let node := network.node name
  if node.isConstZero || node.isConstOne then
    [.names [] name (if node.isConstZero then ['0'] else ['1'])]
  else if node.fanins.length = 1 ∨ node.fanins.length = 2 then
    [.names node.fanins name node.function]
  else []

/-- The statements that the text of the writer spells. -/
def statements : List Statement :=
  [.model (if network.moduleName = [] then [] else [network.moduleName]),
    .inputs (network.getInputs address), .outputs (network.getOutputs address)] ++
  network.latches.map (fun latch => .latch latch.1 latch.2 []) ++
  network.nodesTopologicalOrder.flatMap network.nodeStatements

/-- The names and covers of a network can be written. -/
structure Spellable : Prop where
  moduleName : network.moduleName = [] ∨ IsName network.moduleName
  names : ∀ name ∈ network.names, IsName name
  latches : ∀ latch ∈ network.latches, IsName latch.1 ∧ IsName latch.2
  constants : ∀ name,
    (network.node name).isConstZero = true ∨ (network.node name).isConstOne = true → IsName name
  fanins : ∀ name, ∀ fanin ∈ network.fanins name, IsName fanin ∧ IsName name
  functions : ∀ name, IsCover (network.node name).function

end LogicNetwork

/-- What well named statements make can be written. -/
theorem Holds.spellable {address : Name → Nat} {statements : List Statement}
    {network : LogicNetwork} (holds : Holds address statements network)
    (wellNamed : ∀ statement ∈ statements, statement.WellNamed) : network.Spellable where
  moduleName := by
    rcases holds.moduleName with none | ⟨args, mem, named⟩
    · exact .inl none
    · rw [named]
      cases args with
      | nil => exact .inl rfl
      | cons arg args => exact .inr (wellNamed _ mem arg List.mem_cons_self)
  names := by
    intro name isNode
    obtain ⟨statement, mem, mentions⟩ := (holds.names name).mp isNode
    have named := wellNamed statement mem
    cases statement with
    | ignored => cases mentions
    | model args => cases mentions
    | inputs nodeNames => exact named name mentions.1
    | outputs nodeNames => exact named name mentions.1
    | latch input output more =>
        rcases mentions with rfl | rfl
        · exact named.1
        · exact named.2
    | names inputs output function =>
        rcases mentions with rfl | isInput
        · exact named.2.1
        · exact named.1 name isInput
  latches := by
    intro latch mem
    rw [holds.latches] at mem
    obtain ⟨statement, mem, same⟩ := List.mem_filterMap.mp mem
    have named := wellNamed statement mem
    cases statement <;> cases same
    exact named
  constants := by
    have named : ∀ name value,
        (∃ statement ∈ statements, statement.isConstant name value) → IsName name := by
      rintro name value ⟨statement, mem, constant⟩
      have named := wellNamed statement mem
      cases statement with
      | names inputs output function =>
          cases inputs with
          | nil => exact constant.1 ▸ named.2.1
          | cons => cases constant
      | _ => cases constant
    rintro name (zero | one)
    · exact named name _ ((holds.isConstZero name).mp zero)
    · exact named name _ ((holds.isConstOne name).mp one)
  fanins := by
    intro name fanin feeds
    obtain ⟨statement, mem, feeds⟩ := (holds.fanins name fanin).mp feeds
    have named := wellNamed statement mem
    cases statement with
    | names inputs output function =>
        obtain ⟨rfl, isInput⟩ := feeds
        exact ⟨named.1 fanin isInput, named.2.1⟩
    | _ => cases feeds
  functions := by
    intro name
    rcases holds.function name with ⟨statement, mem, given⟩ | ⟨-, none⟩
    · have named := wellNamed statement mem
      cases statement with
      | names inputs output function =>
          rw [given.2]
          exact named.2.2
      | _ => cases given
    · rw [none]
      exact fun _ mem => by cases mem

/-! ### Lines -/

theorem words_listed {names : List Name} (areNames : ∀ name ∈ names, IsName name) :
    words (LogicNetwork.listed names) = names := by
  induction names with
  | nil =>
      rw [LogicNetwork.listed, List.flatMap_nil, words]
  | cons name names inductionHypothesis =>
      have isName := areNames name List.mem_cons_self
      have rest := inductionHypothesis fun other mem => areNames other (List.mem_cons_of_mem _ mem)
      rw [LogicNetwork.listed, List.flatMap_cons, List.cons_append,
        words_cons_of_isspace (by decide), words_append isName.nonempty isName.solid]
      · exact congrArg _ rest
      · intro next mem
        cases names with
        | nil => cases mem
        | cons => cases mem; decide

theorem plain_listed {names : List Name} (areNames : ∀ name ∈ names, IsName name) :
    Plain (LogicNetwork.listed names) := by
  intro current mem
  obtain ⟨name, isListed, mem⟩ := List.mem_flatMap.mp mem
  rcases List.mem_cons.mp mem with rfl | mem
  · decide
  · exact (areNames name isListed).plain current mem

theorem words_append_listed {word : Name} (isName : IsName word) {names : List Name}
    (areNames : ∀ name ∈ names, IsName name) :
    words (word ++ LogicNetwork.listed names) = word :: names := by
  rw [words_append isName.nonempty isName.solid, words_listed areNames]
  intro next mem
  cases names with
  | nil => cases mem
  | cons => cases mem; decide

/-- A keyword and names on one line. -/
theorem spelledAs_listed {keyword : Name} (isName : IsName keyword) {names : List Name}
    (areNames : ∀ name ∈ names, IsName name) :
    Statement.SpelledAs keyword names [keyword ++ LogicNetwork.listed names] :=
  ⟨_, .last (isName.plain.append (plain_listed areNames)), words_append_listed isName areNames⟩

theorem isName_keyword : ∀ keyword ∈ [".model".toList, ".inputs".toList, ".outputs".toList,
    ".latch".toList, ".names".toList], IsName keyword := by
  decide

/-! ### Texts -/

/-- Lines that spell statements, one after another. -/
def Spells (statements : List Statement) (lines : List Line) : Prop :=
  ∃ parts : List (List Line), lines = parts.flatten ∧
    List.Forall₂ (fun (statement : Statement) part => statement.Spelled part) statements parts

theorem Spells.append {first second : List Statement} {firstLines secondLines : List Line}
    (spells : Spells first firstLines) (others : Spells second secondLines) :
    Spells (first ++ second) (firstLines ++ secondLines) := by
  obtain ⟨parts, rfl, all⟩ := spells
  obtain ⟨otherParts, rfl, allOthers⟩ := others
  exact ⟨parts ++ otherParts, List.flatten_append.symm, List.rel_append all allOthers⟩

theorem Spells.single {statement : Statement} {lines : List Line}
    (spelled : statement.Spelled lines) : Spells [statement] lines :=
  ⟨[lines], by simp, .cons spelled .nil⟩

theorem Spells.flatMap {Item : Type} {items : List Item} {statements : Item → List Statement}
    {lines : Item → List Line} (all : ∀ item ∈ items, Spells (statements item) (lines item)) :
    Spells (items.flatMap statements) (items.flatMap lines) := by
  induction items with
  | nil => exact ⟨[], rfl, .nil⟩
  | cons item items inductionHypothesis =>
      have rest := inductionHypothesis fun other mem => all other (List.mem_cons_of_mem _ mem)
      exact (all item List.mem_cons_self).append rest

namespace LogicNetwork

variable {address : Name → Nat} {network : LogicNetwork}

/-- The names on the line of a gate that has fanins. -/
theorem isName_of_gate (spellable : network.Spellable) {name : Name}
    (few : (network.node name).fanins.length = 1 ∨ (network.node name).fanins.length = 2) :
    ∀ other ∈ (network.node name).fanins ++ [name], IsName other := by
  intro other mem
  rcases List.mem_append.mp mem with mem | mem
  · exact (spellable.fanins name other mem).1
  · rw [List.mem_singleton.mp mem]
    have some : network.fanins name ≠ [] := by
      intro none
      rw [fanins] at none
      simp [none] at few
    obtain ⟨fanin, feeds⟩ := List.exists_mem_of_ne_nil _ some
    exact (spellable.fanins name fanin feeds).2

theorem spells_writeNode (spellable : network.Spellable) (name : Name) :
    Spells (network.nodeStatements name) (network.writeNode name) := by
  have keyword := isName_keyword ".names".toList (by decide)
  rw [nodeStatements, writeNode]
  split
  case isTrue constant =>
    refine .single ⟨_, _, List.singleton_append.symm, spelledAs_listed keyword ?_, ?_⟩
    · intro other mem
      rw [List.mem_singleton.mp mem]
      exact spellable.constants name (by simpa using constant)
    · split <;> exact headD_words_of_isCover (by unfold IsCover; decide)
  case isFalse =>
    split
    case isTrue few =>
      exact .single ⟨_, _, List.singleton_append.symm,
        spelledAs_listed keyword (isName_of_gate spellable few),
        headD_words_of_isCover (spellable.functions name)⟩
    case isFalse => exact ⟨[], rfl, .nil⟩

/-- The text of the writer spells the statements of the network. -/
theorem spelledBy_writeLines (spellable : network.Spellable) :
    SpelledBy (network.statements address) (network.writeLines address) := by
  have isKeyword := isName_keyword
  have model : Statement.Spelled [".model ".toList ++ network.moduleName]
      (.model (if network.moduleName = [] then [] else [network.moduleName])) := by
    have keyword := isKeyword ".model".toList (by decide)
    have blank : ".model ".toList = ".model".toList ++ [' '] := by decide
    rcases spellable.moduleName with none | isName
    · rw [none, if_pos rfl, List.append_nil, blank]
      refine ⟨_, .last (keyword.plain.append (by unfold Plain; decide)), ?_⟩
      have stops : ∀ next ∈ [' '].head?, isspace next = true := by
        rintro next ⟨⟩
        rfl
      rw [words_append keyword.nonempty keyword.solid stops, words_blanks (by decide)]
    · rw [if_neg isName.nonempty, blank, List.append_assoc]
      have named := spelledAs_listed keyword (List.forall_mem_singleton.mpr isName)
      rwa [listed, List.flatMap_singleton] at named
  have inputs : Statement.Spelled [".inputs".toList ++ listed (network.getInputs address)]
      (.inputs (network.getInputs address)) :=
    spelledAs_listed (isKeyword _ (by decide)) fun name mem =>
      spellable.names name (mem_getNodes.mp mem).1
  have outputs : Statement.Spelled [".outputs".toList ++ listed (network.getOutputs address)]
      (.outputs (network.getOutputs address)) :=
    spelledAs_listed (isKeyword _ (by decide)) fun name mem =>
      spellable.names name (mem_getNodes.mp mem).1
  have latches : Spells (network.latches.flatMap fun latch => [.latch latch.1 latch.2 []])
      (network.latches.flatMap fun latch => [".latch".toList ++ listed [latch.1, latch.2]]) := by
    refine .flatMap fun latch mem => .single (spelledAs_listed (isKeyword _ (by decide)) ?_)
    obtain ⟨isInput, isOutput⟩ := spellable.latches latch mem
    exact List.forall_mem_cons.mpr ⟨isInput, List.forall_mem_singleton.mpr isOutput⟩
  have nodes := Spells.flatMap fun name (_ : name ∈ network.nodesTopologicalOrder) =>
    spells_writeNode spellable name
  obtain ⟨parts, same, all⟩ := (((Spells.single model).append (.single inputs)).append
    (.single outputs)).append (latches.append nodes)
  refine ⟨parts, [".end".toList], ?_, ?_, .inr ⟨_, _, rfl, [], by decide, by decide⟩⟩
  · rw [← same, writeLines, List.map_eq_flatMap]
    simp
  · rw [statements, List.map_eq_flatMap]
    simpa using all

/-! ### Line breaks -/

theorem break_notMem_of_solid {word : List Char}
    (solid : ∀ current ∈ word, isspace current = false) : '\n' ∉ word := by
  intro mem
  exact absurd (solid _ mem) (by decide)

theorem break_notMem_listed {names : List Name} (areNames : ∀ name ∈ names, IsName name) :
    '\n' ∉ listed names := by
  intro mem
  obtain ⟨name, isListed, mem⟩ := List.mem_flatMap.mp mem
  rcases List.mem_cons.mp mem with blank | mem
  · exact absurd blank (by decide)
  · exact break_notMem_of_solid (areNames name isListed).solid mem

theorem break_notMem_writeNode (spellable : network.Spellable) (name : Name) :
    ∀ line ∈ network.writeNode name, '\n' ∉ line := by
  have keyword : '\n' ∉ ".names".toList := by decide
  intro line mem
  rw [writeNode] at mem
  split at mem
  case isTrue constant =>
    rcases List.mem_cons.mp mem with rfl | mem
    · have isName := spellable.constants name (by simpa using constant)
      exact fun broken => (List.mem_append.mp broken).elim keyword
        (break_notMem_listed (List.forall_mem_singleton.mpr isName))
    · rw [List.mem_singleton.mp mem]
      split <;> decide
  case isFalse =>
    split at mem
    case isTrue few =>
      rcases List.mem_cons.mp mem with rfl | mem
      · exact fun broken => (List.mem_append.mp broken).elim keyword
          (break_notMem_listed (isName_of_gate spellable few))
      · rw [List.mem_singleton.mp mem]
        exact break_notMem_of_solid (spellable.functions name)
    case isFalse => cases mem

theorem break_notMem_writeLines (spellable : network.Spellable) :
    ∀ line ∈ network.writeLines address, '\n' ∉ line := by
  have ports : ∀ flag : Node → Bool, ∀ keyword : Name, '\n' ∉ keyword →
      '\n' ∉ keyword ++ listed (network.getNodes address flag) :=
    fun flag keyword unbroken broken => (List.mem_append.mp broken).elim unbroken
      (break_notMem_listed fun name mem => spellable.names name (mem_getNodes.mp mem).1)
  intro line mem
  rw [writeLines, List.mem_append, List.mem_append, List.mem_append] at mem
  rcases mem with ((header | ofLatch) | node) | last
  · simp only [List.mem_cons, List.not_mem_nil, or_false] at header
    rcases header with rfl | rfl | rfl
    · refine fun broken => (List.mem_append.mp broken).elim (by decide) ?_
      rcases spellable.moduleName with none | isName
      · simp [none]
      · exact break_notMem_of_solid isName.solid
    · exact ports _ _ (by decide)
    · exact ports _ _ (by decide)
  · obtain ⟨latch, mem, rfl⟩ := List.mem_map.mp ofLatch
    obtain ⟨isInput, isOutput⟩ := spellable.latches latch mem
    exact fun broken => (List.mem_append.mp broken).elim (by decide) (break_notMem_listed
      (List.forall_mem_cons.mpr ⟨isInput, List.forall_mem_singleton.mpr isOutput⟩))
  · obtain ⟨name, -, mem⟩ := List.mem_flatMap.mp node
    exact break_notMem_writeNode spellable name line mem
  · rw [List.mem_singleton.mp last]
    decide

end LogicNetwork

theorem getLines_flatMap {lines : List Line} (unbroken : ∀ line ∈ lines, '\n' ∉ line) :
    getLines (lines.flatMap fun line => line ++ ['\n']) = lines := by
  have parts : (lines.flatMap fun line => line ++ ['\n']).splitOn '\n' = lines ++ [[]] := by
    induction lines with
    | nil => rfl
    | cons line lines inductionHypothesis =>
        have rest := inductionHypothesis fun other mem => unbroken other (List.mem_cons_of_mem _ mem)
        rw [List.flatMap_cons, List.append_assoc, List.singleton_append,
          List.splitOn_append_cons_self_of_not_mem (unbroken line List.mem_cons_self), rest]
        rfl
  rw [getLines, parts, List.getLast?_concat, if_pos rfl, List.dropLast_concat]

/-- The reader takes the text of the writer as the statements of the network. -/
theorem parseBlifFile_writeToFile {address readAddress : Name → Nat} {network : LogicNetwork}
    (spellable : network.Spellable) :
    parseBlifFile readAddress (network.writeToFile address) =
      some (((network.statements address).foldl (Statement.apply readAddress)
        .empty).generateTopologicalOrder readAddress) := by
  rw [parseBlifFile, LogicNetwork.writeToFile,
    getLines_flatMap (LogicNetwork.break_notMem_writeLines spellable),
    (LogicNetwork.spelledBy_writeLines spellable).parseLines_eq]
  rfl

/-! ### What the text says -/

namespace LogicNetwork

variable {address : Name → Nat} {network : LogicNetwork}

theorem mem_nodeStatements {name : Name} {statement : Statement} :
    statement ∈ network.nodeStatements name ↔
      (network.node name).isConstZero = true ∧ statement = .names [] name ['0'] ∨
      (network.node name).isConstZero = false ∧ (network.node name).isConstOne = true ∧
        statement = .names [] name ['1'] ∨
      ((network.node name).isConstZero = false ∧ (network.node name).isConstOne = false) ∧
        ((network.fanins name).length = 1 ∨ (network.fanins name).length = 2) ∧
        statement = .names (network.fanins name) name (network.node name).function := by
  rw [nodeStatements, fanins]
  cases isZero : (network.node name).isConstZero <;>
    cases isOne : (network.node name).isConstOne <;> simp

theorem exists_mem_statements {adds : Statement → Prop} :
    (∃ statement ∈ network.statements address, adds statement) ↔
      adds (.model (if network.moduleName = [] then [] else [network.moduleName])) ∨
      adds (.inputs (network.getInputs address)) ∨ adds (.outputs (network.getOutputs address)) ∨
      (∃ latch ∈ network.latches, adds (.latch latch.1 latch.2 [])) ∨
      ∃ name ∈ network.nodesTopologicalOrder, ∃ statement ∈ network.nodeStatements name,
        adds statement := by
  have nodes : (∃ statement, (∃ name ∈ network.nodesTopologicalOrder,
      statement ∈ network.nodeStatements name) ∧ adds statement) ↔
        ∃ name ∈ network.nodesTopologicalOrder,
          ∃ statement ∈ network.nodeStatements name, adds statement := by
    constructor
    · rintro ⟨statement, ⟨name, listed, mem⟩, added⟩
      exact ⟨name, listed, statement, mem, added⟩
    · rintro ⟨name, listed, statement, mem, added⟩
      exact ⟨statement, ⟨name, listed, mem⟩, added⟩
  simp only [statements, List.mem_append, List.mem_cons, List.not_mem_nil, or_false, List.mem_map,
    List.mem_flatMap, or_and_right, exists_or, exists_eq_left, exists_exists_and_eq_and, or_assoc,
    nodes]

/-- What the text says of a node, it says in the statement of that node. -/
private theorem exists_mem_nodeStatements {adds : Statement → Prop} {name : Name}
    (others : ∀ fanins other function, adds (.names fanins other function) → name = other) :
    (∃ other ∈ network.nodesTopologicalOrder, ∃ statement ∈ network.nodeStatements other,
        adds statement) ↔
      name ∈ network.nodesTopologicalOrder ∧ ∃ statement ∈ network.nodeStatements name,
        adds statement := by
  refine ⟨?_, fun ⟨listed, added⟩ => ⟨name, listed, added⟩⟩
  rintro ⟨other, listed, statement, mem, added⟩
  have same : name = other := by
    rcases mem_nodeStatements.mp mem with ⟨-, rfl⟩ | ⟨-, -, rfl⟩ | ⟨-, -, rfl⟩ <;>
      exact others _ _ _ added
  subst same
  exact ⟨listed, statement, mem, added⟩

theorem isConstant_statements {name : Name} {value : List Char} :
    (∃ statement ∈ network.statements address, statement.isConstant name value) ↔
      name ∈ network.nodesTopologicalOrder ∧
        ((network.node name).isConstZero = true ∧ ['0'] = value ∨
          (network.node name).isConstZero = false ∧ (network.node name).isConstOne = true ∧
            ['1'] = value) := by
  rw [exists_mem_statements, exists_mem_nodeStatements]
  · simp only [Statement.isConstant, and_false, exists_const, false_or]
    refine and_congr_right fun _ => ?_
    constructor
    · rintro ⟨statement, mem, constant⟩
      rcases mem_nodeStatements.mp mem with ⟨zero, rfl⟩ | ⟨notZero, one, rfl⟩ | ⟨-, few, rfl⟩
      · exact .inl ⟨zero, constant.2⟩
      · exact .inr ⟨notZero, one, constant.2⟩
      · cases none : network.fanins name with
        | nil => simp [none] at few
        | cons first others => simp [none] at constant
    · rintro (⟨zero, same⟩ | ⟨notZero, one, same⟩)
      · exact ⟨_, mem_nodeStatements.mpr (.inl ⟨zero, rfl⟩), rfl, same⟩
      · exact ⟨_, mem_nodeStatements.mpr (.inr (.inl ⟨notZero, one, rfl⟩)), rfl, same⟩
  · intro fanins other function constant
    cases fanins with
    | nil => exact constant.1
    | cons => cases constant

theorem feeds_statements {name fanin : Name} :
    (∃ statement ∈ network.statements address, statement.feeds fanin name) ↔
      name ∈ network.nodesTopologicalOrder ∧
        ((network.node name).isConstZero = false ∧ (network.node name).isConstOne = false) ∧
        ((network.fanins name).length = 1 ∨ (network.fanins name).length = 2) ∧
        fanin ∈ network.fanins name := by
  rw [exists_mem_statements, exists_mem_nodeStatements]
  · simp only [Statement.feeds, and_false, exists_const, false_or]
    refine and_congr_right fun _ => ?_
    constructor
    · rintro ⟨statement, mem, feeds⟩
      rcases mem_nodeStatements.mp mem with ⟨-, rfl⟩ | ⟨-, -, rfl⟩ | ⟨gate, few, rfl⟩
      · cases feeds.2
      · cases feeds.2
      · exact ⟨gate, few, feeds.2⟩
    · rintro ⟨gate, few, mem⟩
      exact ⟨_, mem_nodeStatements.mpr (.inr (.inr ⟨gate, few, rfl⟩)), rfl, mem⟩
  · exact fun _ _ _ feeds => feeds.1

theorem gives_statements {name : Name} {function : List Char}
    (gate : (network.node name).isConstZero = false ∧ (network.node name).isConstOne = false) :
    (∃ statement ∈ network.statements address, statement.gives name function) ↔
      name ∈ network.nodesTopologicalOrder ∧
        ((network.fanins name).length = 1 ∨ (network.fanins name).length = 2) ∧
        function = (network.node name).function := by
  rw [exists_mem_statements, exists_mem_nodeStatements]
  · simp only [Statement.gives, and_false, exists_const, false_or]
    refine and_congr_right fun _ => ?_
    constructor
    · rintro ⟨statement, mem, given⟩
      rcases mem_nodeStatements.mp mem with ⟨zero, -⟩ | ⟨-, one, -⟩ | ⟨-, few, rfl⟩
      · rw [gate.1] at zero
        cases zero
      · rw [gate.2] at one
        cases one
      · exact ⟨few, given.2⟩
    · rintro ⟨few, same⟩
      exact ⟨_, mem_nodeStatements.mpr (.inr (.inr ⟨gate, few, rfl⟩)), rfl, same⟩
  · exact fun _ _ _ given => given.1

theorem declaresInput_statements {name : Name} :
    (∃ statement ∈ network.statements address, statement.declaresInput name) ↔
      name ∈ network.getInputs address ∧ name ≠ "rst".toList := by
  rw [exists_mem_statements]
  simp only [Statement.declaresInput, and_false, exists_const, false_or, or_iff_left_iff_imp]
  rintro ⟨other, -, statement, mem, declares⟩
  rcases mem_nodeStatements.mp mem with ⟨-, rfl⟩ | ⟨-, -, rfl⟩ | ⟨-, -, rfl⟩ <;> cases declares

theorem declaresOutput_statements {name : Name} :
    (∃ statement ∈ network.statements address, statement.declaresOutput name) ↔
      name ∈ network.getOutputs address ∧ name ≠ "rst".toList := by
  rw [exists_mem_statements]
  simp only [Statement.declaresOutput, and_false, exists_const, false_or, or_iff_left_iff_imp]
  rintro ⟨other, -, statement, mem, declares⟩
  rcases mem_nodeStatements.mp mem with ⟨-, rfl⟩ | ⟨-, -, rfl⟩ | ⟨-, -, rfl⟩ <;> cases declares

theorem filterMap_latch?_statements :
    (network.statements address).filterMap Statement.latch? = network.latches := by
  have nodes : (network.nodesTopologicalOrder.flatMap network.nodeStatements).filterMap
      Statement.latch? = [] := by
    refine List.filterMap_eq_nil_iff.mpr fun statement mem => ?_
    obtain ⟨name, -, mem⟩ := List.mem_flatMap.mp mem
    rcases mem_nodeStatements.mp mem with ⟨-, rfl⟩ | ⟨-, -, rfl⟩ | ⟨-, -, rfl⟩ <;> rfl
  rw [statements, List.filterMap_append, List.filterMap_append, nodes, List.append_nil,
    List.filterMap_map]
  exact List.filterMap_some

end LogicNetwork

/-! ### Ports -/

section Ports

variable {address setAddress : Name → Nat} {statements : List Statement} {network : LogicNetwork}
  {name : Name}

theorem Holds.mem_getInputs (holds : Holds address statements network) :
    name ∈ network.getInputs setAddress ↔
      ∃ statement ∈ statements, statement.declaresInput name := by
  rw [LogicNetwork.getInputs, LogicNetwork.mem_getNodes, holds.isInput, and_iff_right_iff_imp]
  rintro ⟨statement, mem, declares⟩
  refine (holds.names name).mpr ⟨statement, mem, ?_⟩
  cases statement with
  | inputs nodeNames => exact declares
  | _ => cases declares

theorem Holds.mem_getOutputs (holds : Holds address statements network) :
    name ∈ network.getOutputs setAddress ↔
      ∃ statement ∈ statements, statement.declaresOutput name := by
  rw [LogicNetwork.getOutputs, LogicNetwork.mem_getNodes, holds.isOutput, and_iff_right_iff_imp]
  rintro ⟨statement, mem, declares⟩
  refine (holds.names name).mpr ⟨statement, mem, ?_⟩
  cases statement with
  | outputs nodeNames => exact declares
  | _ => cases declares

end Ports

end Dynamatic.Blif
