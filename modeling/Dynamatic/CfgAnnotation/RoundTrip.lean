import Dynamatic.CfgAnnotation.Annotation

/-!
# Reading the annotation back

The reader finds the text of each edge between its brackets and the node in the
text, if the condition is named by letters and digits alone; it never reads a
condition of another name. So a function's edges are read back exactly when the
names of its conditions are such words.
-/

namespace Dynamatic.CfgAnnotation

open CFGAnnotation

/-- A computation that succeeds does so in both its parts. -/
theorem bind_eq_ok {α β ε : Type} {first : Except ε α} {next : α → Except ε β} {result : β} :
    (first >>= next) = .ok result ↔ ∃ middle, first = .ok middle ∧ next middle = .ok result := by
  cases first with
  | error fault => exact ⟨nofun, fun ⟨_, run, _⟩ => nomatch run⟩
  | ok middle =>
      constructor
      · intro run
        exact ⟨middle, rfl, run⟩
      · rintro ⟨_, same, run⟩
        cases same
        exact run

/-! ### Numbers and delimiters -/

theorem decimal_ne_nil (number : Nat) : decimal number ≠ [] := Nat.toDigits_ne_nil

theorem isDigit_of_mem_decimal {number : Nat} {digit : Char} (mem : digit ∈ decimal number) :
    digit.isDigit = true :=
  Nat.isDigit_of_mem_toDigits (by decide) (by decide) mem

theorem stoul_decimal (id : BitVec 32) : stoul (decimal id.toNat) = .ok id := by
  have small : id.toNat < 2 ^ 64 := Nat.lt_trans id.isLt (by decide)
  rw [stoul, decimal, Nat.ofDigitChars_ten_toDigits, if_pos small, BitVec.ofNat_toNat,
    BitVec.setWidth_eq]
  rfl

variable {number : Nat} {rest : List Char}

theorem matchDigits_decimal (stops : ∀ next ∈ rest.head?, next.isDigit = false) :
    matchDigits (decimal number ++ rest) = some (decimal number, rest) := by
  have digits : ∀ digit ∈ decimal number, digit.isDigit = true :=
    fun digit mem => isDigit_of_mem_decimal mem
  have noMore : rest.takeWhile Char.isDigit = [] ∧ rest.dropWhile Char.isDigit = rest := by
    cases rest with
    | nil => exact ⟨rfl, rfl⟩
    | cons next _ =>
        have stopsHere : next.isDigit = false := stops next rfl
        simp [stopsHere]
  rw [matchDigits, List.takeWhile_append_of_pos digits, List.dropWhile_append_of_pos digits,
    noMore.1, noMore.2, List.append_nil, if_neg (by simp [decimal_ne_nil])]

@[simp] theorem matchDigits_decimal_delimiter :
    matchDigits (decimal number ++ delimiter :: rest) =
      some (decimal number, delimiter :: rest) :=
  matchDigits_decimal (by simp [delimiter])

@[simp] theorem matchDigits_decimal_nil : matchDigits (decimal number) = some (decimal number, []) := by
  simpa using @matchDigits_decimal number [] (by simp)

@[simp] theorem matchDelimiter_delimiter : matchDelimiter (delimiter :: rest) = some rest :=
  rfl

/-- The pattern of an unconditional edge does not match a conditional one. -/
theorem matchUnconditional_edgeText (source : BitVec 32) (node : CFGNode) :
    matchUnconditional (edgeText source node) =
      match node with
      | .unconditional successor => some (decimal source.toNat, decimal successor.toNat)
      | .conditional _ _ _ => none := by
  cases node with
  | unconditional successor => simp [matchUnconditional, edgeText]
  | conditional trueSuccessor falseSuccessor name => simp [matchUnconditional, edgeText]

theorem matchConditional_edgeText (source trueSuccessor falseSuccessor : BitVec 32)
    (name : Name) :
    matchConditional (edgeText source (.conditional trueSuccessor falseSuccessor name)) =
      if IsWord name then
        some (decimal source.toNat, decimal trueSuccessor.toNat, decimal falseSuccessor.toNat, name)
      else none := by
  simp [matchConditional, edgeText]

/-- The text of an edge is read as the edge, if its condition is a word. -/
theorem parseEdge_edgeText (source : BitVec 32) (node : CFGNode)
    (words : ∀ name ∈ node.conditionName, IsWord name) :
    parseEdge (edgeText source node) = .ok (source, node) := by
  rw [parseEdge, matchUnconditional_edgeText]
  cases node with
  | unconditional successor =>
      simp only [stoul_decimal]
      rfl
  | conditional trueSuccessor falseSuccessor name =>
      have word : IsWord name := words name rfl
      simp only [matchConditional_edgeText, if_pos word, stoul_decimal]
      rfl

/-- The text of an edge whose condition is not a word is not read. -/
theorem words_of_parseEdge_edgeText {source : BitVec 32} {node : CFGNode}
    {entry : BitVec 32 × CFGNode} (read : parseEdge (edgeText source node) = .ok entry) :
    ∀ name ∈ node.conditionName, IsWord name := by
  intro name named
  cases node with
  | unconditional successor => cases named
  | conditional trueSuccessor falseSuccessor condition =>
      cases named
      by_contra notWord
      rw [parseEdge, matchUnconditional_edgeText] at read
      simp only [matchConditional_edgeText, if_neg notWord] at read
      cases read

theorem word_of_matchConditional {edge source trueSuccessor falseSuccessor name : List Char}
    (found : matchConditional edge = some (source, trueSuccessor, falseSuccessor, name)) :
    IsWord name := by
  simp only [matchConditional, Option.bind_eq_bind, Option.bind_eq_some_iff] at found
  obtain ⟨_, _, _, _, _, _, _, _, _, _, candidate, _, tested⟩ := found
  split at tested
  case isTrue word =>
    cases tested
    exact word
  case isFalse => cases tested

/-- What is read as the name of a condition is a word. -/
theorem word_of_parseEdge {edge : List Char} {source : BitVec 32} {node : CFGNode} {name : Name}
    (read : parseEdge edge = .ok (source, node)) (named : node.conditionName = some name) :
    IsWord name := by
  rw [parseEdge] at read
  split at read
  case h_1 =>
    obtain ⟨_, _, read⟩ := bind_eq_ok.mp read
    obtain ⟨_, _, read⟩ := bind_eq_ok.mp read
    cases read
    cases named
  case h_2 =>
    split at read
    case h_1 conditional =>
      obtain ⟨_, _, read⟩ := bind_eq_ok.mp read
      obtain ⟨_, _, read⟩ := bind_eq_ok.mp read
      obtain ⟨_, _, read⟩ := bind_eq_ok.mp read
      cases read
      cases named
      exact word_of_matchConditional conditional
    case h_2 => cases read

/-! ### Brackets -/

/-- A text that a pair of brackets can hold: the reader does not stop in it. -/
def Holdable (content : List Char) : Prop :=
  ∀ current ∈ content, current ≠ closeEdge ∧ current ≠ '\n' ∧ current ≠ '\r'

theorem matchContent_append {content : List Char} (holdable : Holdable content)
    (suffix : List Char) :
    matchContent (content ++ closeEdge :: suffix) = some (content, suffix) := by
  induction content with
  | nil => rfl
  | cons current content inductionHypothesis =>
      obtain ⟨notClose, notBreak, notReturn⟩ := holdable current List.mem_cons_self
      have restHoldable : Holdable content :=
        fun later mem => holdable later (List.mem_cons_of_mem _ mem)
      rw [List.cons_append, matchContent, if_neg notClose, if_neg (by simp [notBreak, notReturn]),
        inductionHypothesis restHoldable]
      rfl

theorem getBracketsContent_cons {content : List Char} (holdable : Holdable content)
    (suffix : List Char) :
    getBracketsContent (openEdge :: (content ++ closeEdge :: suffix)) =
      content :: getBracketsContent suffix := by
  rw [getBracketsContent, if_pos rfl]
  split
  case h_1 found =>
    rw [matchContent_append holdable] at found
    cases found
    rfl
  case h_2 found =>
    rw [matchContent_append holdable] at found
    cases found

theorem IsWord.holdable {name : Name} (word : IsWord name) : Holdable name := by
  intro current mem
  refine ⟨?_, ?_, ?_⟩ <;> rintro rfl <;> have := word.2 _ mem <;> revert this <;> decide

theorem holdable_decimal (number : Nat) : Holdable (decimal number) :=
  IsWord.holdable ⟨decimal_ne_nil number, fun _ mem => by
    simp [Char.isAlphanum, isDigit_of_mem_decimal mem]⟩

theorem Holdable.delimited {first second : List Char} (firstHoldable : Holdable first)
    (secondHoldable : Holdable second) : Holdable (first ++ delimiter :: second) := by
  intro current mem
  rcases List.mem_append.mp mem with mem | mem
  · exact firstHoldable current mem
  · rcases List.mem_cons.mp mem with rfl | mem
    · decide
    · exact secondHoldable current mem

theorem holdable_edgeText (source : BitVec 32) (node : CFGNode)
    (names : ∀ name ∈ node.conditionName, Holdable name) :
    Holdable (edgeText source node) := by
  cases node with
  | unconditional successor => exact (holdable_decimal _).delimited (holdable_decimal _)
  | conditional trueSuccessor falseSuccessor name =>
      exact (holdable_decimal _).delimited ((holdable_decimal _).delimited
        ((holdable_decimal _).delimited (names name rfl)))

/-! ### The whole map -/

section Reading

variable {edges : CFGAnnotation}

/-- The conditions of the map are named by words. -/
def Words (edges : CFGAnnotation) : Prop :=
  ∀ source node, edges source = some node → ∀ name ∈ node.conditionName, IsWord name

/-- The names of the conditions of the map can stand between brackets. -/
def HoldableNames (edges : CFGAnnotation) : Prop :=
  ∀ source node, edges source = some node → ∀ name ∈ node.conditionName, Holdable name

theorem Words.holdableNames (words : Words edges) : HoldableNames edges :=
  fun source node entry name named => (words source node entry name named).holdable

/-- The texts the reader finds between the brackets are those of the edges. -/
theorem getBracketsContent_annotateCFG (names : HoldableNames edges) (order : List (BitVec 32)) :
    getBracketsContent (annotateCFG edges order) =
      order.filterMap fun source => (edges source).map (edgeText source) := by
  induction order with
  | nil => rw [annotateCFG, List.flatMap_nil, getBracketsContent]; rfl
  | cons source order inductionHypothesis =>
      cases entry : edges source with
      | none => simpa [annotateCFG, entry] using inductionHypothesis
      | some node =>
          have holdable : Holdable (edgeText source node) :=
            holdable_edgeText source node (names source node entry)
          have split : annotateCFG edges (source :: order) =
              openEdge :: (edgeText source node ++ closeEdge :: annotateCFG edges order) := by
            simp [annotateCFG, entry]
          rw [split, getBracketsContent_cons holdable, inductionHypothesis]
          simp [entry]

theorem insertEdge_edgeText (words : Words edges) {source : BitVec 32} {node : CFGNode}
    (entry : edges source = some node) (free : isReserved source = false)
    {before : CFGAnnotation} (fresh : before source = none) :
    insertEdge before (edgeText source node) = .ok (Function.update before source (some node)) := by
  have read : parseEdge (edgeText source node) = .ok (source, node) :=
    parseEdge_edgeText source node (words source node entry)
  have inserted : before.insert source node = .ok (Function.update before source (some node)) := by
    rw [ CFGAnnotation.insert, free, fresh]
    rfl
  rw [insertEdge, read]
  exact inserted

/-- Inserting the listed edges one by one gives them all. -/
theorem foldlM_insertEdge (words : Words edges)
    (free : ∀ source, (edges source).isSome = true → isReserved source = false)
    {order : List (BitVec 32)} (nodup : order.Nodup) {before : CFGAnnotation}
    (fresh : ∀ source ∈ order, before source = none) :
    (order.filterMap fun source => (edges source).map (edgeText source)).foldlM insertEdge
        before =
      .ok fun source => if source ∈ order then edges source else before source := by
  induction order generalizing before with
  | nil => simp; rfl
  | cons source order inductionHypothesis =>
      obtain ⟨notAgain, nodupRest⟩ := List.nodup_cons.mp nodup
      have here : before source = none := fresh source List.mem_cons_self
      have later : ∀ next ∈ order, before next = none :=
        fun next mem => fresh next (List.mem_cons_of_mem _ mem)
      cases entry : edges source with
      | none =>
          rw [List.filterMap_cons_none (by simp [entry]), inductionHypothesis nodupRest later]
          congr 1
          funext id
          by_cases same : id = source <;> simp [same, notAgain, here, entry]
      | some node =>
          have inserted := insertEdge_edgeText words entry (free source (by simp [entry])) here
          have laterInserted : ∀ next ∈ order,
              Function.update before source (some node) next = none := by
            intro next mem
            have other : next ≠ source := fun same => notAgain (same ▸ mem)
            rw [Function.update_of_ne other]
            exact later next mem
          rw [List.filterMap_cons_some (b := edgeText source node) (by simp [entry]),
            List.foldlM_cons, inserted]
          refine (inductionHypothesis nodupRest laterInserted).trans (congrArg _ ?_)
          funext id
          by_cases same : id = source <;> simp [same, notAgain, entry]

/-- A map with words for names is read back, in whatever order it is written. -/
theorem unserializeEdges_annotateCFG (words : Words edges)
    (free : ∀ source, (edges source).isSome = true → isReserved source = false)
    {order : List (BitVec 32)} (enumerates : edges.Enumerates order) :
    unserializeEdges (some (annotateCFG edges order)) = .ok edges := by
  have fresh : ∀ source ∈ order, CFGAnnotation.empty source = none := fun _ _ => rfl
  rw [unserializeEdges, getBracketsContent_annotateCFG words.holdableNames,
    foldlM_insertEdge words free enumerates.nodup fresh]
  congr 1
  funext source
  have listed := enumerates.mem_iff source
  cases entry : edges source <;> simp_all [ CFGAnnotation.empty]

/-- The reader reads every text it has found. -/
theorem exists_parseEdge_of_foldlM {contents : List (List Char)} {before after : CFGAnnotation}
    (read : contents.foldlM insertEdge before = .ok after) {content : List Char}
    (mem : content ∈ contents) : ∃ entry, parseEdge content = .ok entry := by
  induction contents generalizing before with
  | nil => cases mem
  | cons first contents inductionHypothesis =>
      rw [List.foldlM_cons] at read
      obtain ⟨middle, inserted, read⟩ := bind_eq_ok.mp read
      rcases List.mem_cons.mp mem with rfl | later
      · obtain ⟨entry, parsed, -⟩ := bind_eq_ok.mp inserted
        exact ⟨entry, parsed⟩
      · exact inductionHypothesis read later

/-- A map whose names can stand between brackets is not read unless they are words. -/
theorem words_of_read {order : List (BitVec 32)} (enumerates : edges.Enumerates order)
    (names : HoldableNames edges) {result : CFGAnnotation}
    (read : unserializeEdges (some (annotateCFG edges order)) = .ok result) : Words edges := by
  intro source node entry
  rw [unserializeEdges, getBracketsContent_annotateCFG names] at read
  have listed : source ∈ order := (enumerates.mem_iff source).mpr (by rw [entry]; rfl)
  have found : edgeText source node ∈
      order.filterMap fun source => (edges source).map (edgeText source) :=
    List.mem_filterMap.mpr ⟨source, listed, by rw [entry]; rfl⟩
  obtain ⟨_, parsed⟩ := exists_parseEdge_of_foldlM read found
  exact words_of_parseEdge_edgeText parsed

/-- A map that is read has words for names. -/
theorem words_insertEdge {before after : CFGAnnotation} {edge : List Char} (words : Words before)
    (read : insertEdge before edge = .ok after) : Words after := by
  obtain ⟨⟨source, node⟩, parsed, inserted⟩ := bind_eq_ok.mp read
  dsimp only at inserted
  rw [ CFGAnnotation.insert] at inserted
  split at inserted
  case isTrue => cases inserted
  case isFalse =>
    cases inserted
    split
    case isTrue => exact words
    case isFalse =>
      intro id other found name named
      by_cases same : id = source
      · subst same
        rw [Function.update_self] at found
        cases found
        exact word_of_parseEdge parsed named
      · rw [Function.update_of_ne same] at found
        exact words id other found name named

theorem words_of_unserializeEdges {text : List Char}
    (read : unserializeEdges (some text) = .ok edges) : Words edges := by
  have kept : ∀ (contents : List (List Char)) (before : CFGAnnotation), Words before →
      contents.foldlM insertEdge before = .ok edges → Words edges := by
    intro contents
    induction contents with
    | nil =>
        intro before words done
        cases done
        exact words
    | cons content contents inductionHypothesis =>
        intro before words done
        rw [List.foldlM_cons] at done
        obtain ⟨middle, inserted, done⟩ := bind_eq_ok.mp done
        exact inductionHypothesis middle (words_insertEdge words inserted) done
  exact kept _ .empty (fun _ _ found => by cases found) read

end Reading

/-- The keys of a map in ascending order. -/
def ascending (edges : CFGAnnotation) : List (BitVec 32) :=
  ((List.finRange (2 ^ 32)).map BitVec.ofFin).filter fun id => (edges id).isSome

theorem enumerates_ascending (edges : CFGAnnotation) : edges.Enumerates (ascending edges) := by
  have nodup : ((List.finRange (2 ^ 32)).map BitVec.ofFin).Nodup :=
    (List.nodup_finRange _).map fun first second same => BitVec.ofFin.inj same
  refine ⟨nodup.filter _, fun id => ?_⟩
  rw [ascending, List.mem_filter]
  exact and_iff_right (List.mem_map.mpr ⟨id.toFin, List.mem_finRange _, rfl⟩)

/-! ### The edges of a numbered function -/

namespace Region

variable {Op : Type} [DecidableEq Op] {region : Region Op}

/-- A name stands in the map as the name of a condition. -/
def Named (edges : CFGAnnotation) (name : Name) : Prop :=
  ∃ source node, edges source = some node ∧ node.conditionName = some name

theorem named_update {edges : CFGAnnotation} {source : BitVec 32} {node : CFGNode} {name : Name}
    (fresh : edges source = none) :
    Named (Function.update edges source (some node)) name ↔
      node.conditionName = some name ∨ Named edges name := by
  constructor
  · rintro ⟨id, other, found, named⟩
    by_cases same : id = source
    · subst same
      rw [Function.update_self] at found
      cases found
      exact .inl named
    · rw [Function.update_of_ne same] at found
      exact .inr ⟨id, other, found, named⟩
  · rintro (named | ⟨id, other, found, named⟩)
    · exact ⟨source, node, Function.update_self .., named⟩
    · have apart : id ≠ source := by
        rintro rfl
        rw [fresh] at found
        cases found
      exact ⟨id, other, (Function.update_of_ne apart ..).trans found, named⟩

section
omit [DecidableEq Op]

theorem getIDBlock_eq {block : Fin region.size} {id : BitVec 32}
    (tagged : region.logicBB block = some id) : region.getIDBlock block = .ok id := by
  rw [getIDBlock, tagged]
  rfl

end

/-- A block that branches adds one entry, under its own number. -/
theorem visitBlock_eq (numbered : region.Numbered) (namer : NameAnalysis Op)
    {block : Fin region.size} {before : CFGAnnotation} {blockID : BitVec 32}
    (tagged : region.logicBB block = some blockID) (fresh : before blockID = none) :
    ∃ node after,
      region.visitBlock (before, namer) block =
        .ok (match node with
          | some node => Function.update before blockID (some node)
          | none => before, after) ∧
      ∀ rest, region.conditionNames namer (block :: rest) =
        (node.bind CFGNode.conditionName).toList ++ region.conditionNames after rest := by
  obtain ⟨id, taggedAs, free⟩ := numbered.numbered block
  obtain rfl : blockID = id := Option.some.inj (tagged.symm.trans taggedAs)
  have inserts : ∀ node, before.insert blockID node =
      .ok (Function.update before blockID (some node)) := by
    intro node
    rw [ CFGAnnotation.insert, free, fresh]
    rfl
  cases ends : region.terminator block with
  | branch dest =>
      obtain ⟨successor, taggedDest, -⟩ := numbered.numbered dest
      refine ⟨some (.unconditional successor), namer, ?_, fun rest => ?_⟩
      · simp only [visitBlock, getIDBlock_eq tagged, ends, getIDBlock_eq taggedDest]
        change before.insert blockID _ >>= _ = _
        rw [inserts]
        rfl
      · simp [conditionNames, ends, CFGNode.conditionName]
  | condBranch condition trueDest falseDest =>
      obtain ⟨trueSuccessor, taggedTrue, -⟩ := numbered.numbered trueDest
      obtain ⟨falseSuccessor, taggedFalse, -⟩ := numbered.numbered falseDest
      obtain ⟨name, after, named⟩ : ∃ name after, region.conditionName namer condition =
        (name, after) := ⟨_, _, rfl⟩
      refine ⟨some (.conditional trueSuccessor falseSuccessor name), after, ?_, fun rest => ?_⟩
      · simp only [visitBlock, getIDBlock_eq tagged, ends, named, getIDBlock_eq taggedTrue,
          getIDBlock_eq taggedFalse]
        change before.insert blockID _ >>= _ = _
        rw [inserts]
        rfl
      · simp [conditionNames, ends, named, CFGNode.conditionName]
  | «return» | other =>
      refine ⟨none, namer, ?_, fun rest => ?_⟩
      · simp only [visitBlock, getIDBlock_eq tagged, ends]
        rfl
      · simp [conditionNames, ends]

/-- What the map holds after a list of blocks. -/
structure Collected (region : Region Op) (namer : NameAnalysis Op)
    (blocks : List (Fin region.size)) (before edges : CFGAnnotation) : Prop where
  keys : ∀ id, (edges id).isSome = true →
    (before id).isSome = true ∨ ∃ block ∈ blocks, region.logicBB block = some id
  names : ∀ name, Named edges name ↔ Named before name ∨ name ∈ region.conditionNames namer blocks

theorem foldlM_visitBlock (numbered : region.Numbered) {blocks : List (Fin region.size)}
    (nodup : blocks.Nodup) (namer : NameAnalysis Op) {before : CFGAnnotation}
    (fresh : ∀ block ∈ blocks, ∀ id, region.logicBB block = some id → before id = none) :
    ∃ edges after, blocks.foldlM region.visitBlock (before, namer) = .ok (edges, after) ∧
      region.Collected namer blocks before edges := by
  induction blocks generalizing before namer with
  | nil =>
      exact ⟨before, namer, rfl, fun id isKey => .inl isKey, fun name => by simp [conditionNames]⟩
  | cons block blocks inductionHypothesis =>
      obtain ⟨notAgain, nodupRest⟩ := List.nodup_cons.mp nodup
      obtain ⟨blockID, tagged, -⟩ := numbered.numbered block
      have here : before blockID = none := fresh block List.mem_cons_self blockID tagged
      have later : ∀ next ∈ blocks, ∀ id, region.logicBB next = some id → before id = none :=
        fun next mem => fresh next (List.mem_cons_of_mem _ mem)
      obtain ⟨node, middle, visited, names⟩ := visitBlock_eq numbered namer tagged here
      rw [List.foldlM_cons, visited]
      cases node with
      | none =>
          obtain ⟨edges, after, folded, collected⟩ := inductionHypothesis nodupRest middle later
          refine ⟨edges, after, folded, fun id isKey => ?_, fun name => ?_⟩
          · rcases collected.keys id isKey with old | ⟨next, mem, taggedNext⟩
            · exact .inl old
            · exact .inr ⟨next, List.mem_cons_of_mem _ mem, taggedNext⟩
          · rw [collected.names, names]
            simp
      | some node =>
          have laterUpdated : ∀ next ∈ blocks, ∀ id, region.logicBB next = some id →
              Function.update before blockID (some node) id = none := by
            intro next mem id taggedNext
            have apart : id ≠ blockID := by
              rintro rfl
              exact notAgain (numbered.distinct (taggedNext.trans tagged.symm) ▸ mem)
            rw [Function.update_of_ne apart]
            exact later next mem id taggedNext
          obtain ⟨edges, after, folded, collected⟩ :=
            inductionHypothesis nodupRest middle laterUpdated
          refine ⟨edges, after, folded, fun id isKey => ?_, fun name => ?_⟩
          · rcases collected.keys id isKey with old | ⟨next, mem, taggedNext⟩
            · by_cases same : id = blockID
              · exact .inr ⟨block, List.mem_cons_self, same ▸ tagged⟩
              · rw [Function.update_of_ne same] at old
                exact .inl old
            · exact .inr ⟨next, List.mem_cons_of_mem _ mem, taggedNext⟩
          · rw [collected.names, names, named_update here]
            simp only [Option.bind_some, List.mem_append, Option.mem_toList]
            tauto

theorem getCFGEdges_words (numbered : region.Numbered) (namer : NameAnalysis Op) :
    ∃ edges after, region.getCFGEdges namer = .ok (edges, after) ∧
      (∀ id, (edges id).isSome = true → isReserved id = false) ∧
      (Words edges ↔
        ∀ name ∈ region.conditionNames namer (List.finRange region.size), IsWord name) := by
  obtain ⟨edges, after, computed, collected⟩ :=
    foldlM_visitBlock numbered (List.nodup_finRange region.size) namer
      (fun _ _ id _ => show CFGAnnotation.empty id = none from rfl)
  have names : ∀ name, Named edges name ↔
      name ∈ region.conditionNames namer (List.finRange region.size) := by
    intro name
    rw [collected.names]
    exact or_iff_right fun ⟨_, _, found, _⟩ => by cases found
  refine ⟨edges, after, computed, fun id isKey => ?_, fun words name mem => ?_,
    fun words source node found name named => ?_⟩
  · rcases collected.keys id isKey with old | ⟨block, -, tagged⟩
    · cases old
    · obtain ⟨blockID, taggedAs, free⟩ := numbered.numbered block
      rwa [Option.some.inj (tagged.symm.trans taggedAs)]
  · obtain ⟨source, node, found, named⟩ := (names name).mpr mem
    exact words source node found name named
  · exact words name ((names name).mp ⟨source, node, found, named⟩)

/-- The names of a function that is read back are words. -/
theorem RoundTrips.words {namer : NameAnalysis Op} (roundTrips : region.RoundTrips namer)
    {edges : CFGAnnotation} {after : NameAnalysis Op}
    (computed : region.getCFGEdges namer = .ok (edges, after)) : Words edges := by
  obtain ⟨other, afterOther, computedOther, reads⟩ := roundTrips
  obtain rfl : edges = other :=
    (Prod.ext_iff.mp (Except.ok.inj (computed.symm.trans computedOther))).1
  exact words_of_unserializeEdges (reads _ (enumerates_ascending edges))

/-- The annotation of a numbered function is read back as its edges exactly when letters and
digits alone name its conditions. -/
theorem roundTrips_iff (numbered : region.Numbered) (namer : NameAnalysis Op) :
    region.RoundTrips namer ↔
      ∀ name ∈ region.conditionNames namer (List.finRange region.size), IsWord name := by
  obtain ⟨edges, after, computed, free, wordsIff⟩ := getCFGEdges_words numbered namer
  rw [← wordsIff]
  constructor
  · intro roundTrips
    exact roundTrips.words computed
  · intro words
    exact ⟨edges, after, computed, fun order enumerates =>
      unserializeEdges_annotateCFG words free enumerates⟩

/-- A block that branches on the one operation of the function, over one that goes on. -/
def skipRegion (kind : Name) : Region Unit where
  size := 3
  terminator
    | 0 => .condBranch (.result () 0) 1 2
    | 1 => .branch 2
    | 2 => .return
  logicBB block := some (.ofNat 32 block)
  kind := fun _ => kind

theorem skipRegion_numbered (kind : Name) : (skipRegion kind).Numbered where
  numbered := by
    intro block
    refine ⟨_, rfl, ?_⟩
    revert block
    change ∀ block : Fin 3, isReserved (.ofNat 32 block) = false
    decide
  distinct := by
    change ∀ first second : Fin 3, some (BitVec.ofNat 32 first) = some (BitVec.ofNat 32 second) →
      first = second
    decide

def unnamed : NameAnalysis Unit where
  nameAttr := fun _ => none
  namedOperations := []
  counters := fun _ => 0

theorem roundTrips_cmpi : (skipRegion "arith.cmpi".toList).RoundTrips unnamed :=
  (roundTrips_iff (skipRegion_numbered _) unnamed).mpr (by decide)

/-- The name of a cast has an underscore, and the reader has no pattern for it. -/
theorem not_roundTrips_index_cast :
    (skipRegion "arith.index_cast".toList).Numbered ∧
      ¬ (skipRegion "arith.index_cast".toList).RoundTrips unnamed := by
  have numbered := skipRegion_numbered "arith.index_cast".toList
  refine ⟨numbered, fun roundTrips => ?_⟩
  obtain ⟨edges, after, computed, -, wordsIff⟩ := getCFGEdges_words numbered unnamed
  revert wordsIff
  rw [iff_true_left (roundTrips.words computed)]
  decide

end Region

end Dynamatic.CfgAnnotation
