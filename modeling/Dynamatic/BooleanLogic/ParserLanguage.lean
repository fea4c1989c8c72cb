import Dynamatic.BooleanLogic.ParserRuns

/-!
# The language of the parser

What the parser accepts is a sentence in which no negation follows another, and
in which a negation may join two expressions. `Legal` describes the stacks the
parser works on and the tokens they stand for; from it follows what each turn
may lead to, and that the parser ends on every string.
-/

namespace Dynamatic.BooleanLogic

open Dynamatic.Parsing

/-- The terminals over which an expression may stand. -/
def TokenType.opensOperand : TokenType → Bool
  | notToken | andToken | orToken | lparenToken | endToken => true
  | rparenToken | variableToken => false

section Table

variable {first second : TokenType}

theorem opensOperand_of_lessThan (less : precedence first second = .lessThan) :
    first.opensOperand = true ∧ second ≠ .rparenToken ∧ second ≠ .endToken := by
  revert less
  cases first <;> cases second <;> decide

theorem single_of_lessThan (less : precedence first second = .lessThan) :
    ¬ (first = .notToken ∧ second = .notToken) := by
  revert less
  cases first <;> cases second <;> decide

theorem eq_of_equal (equal : precedence first second = .equal) :
    first = .lparenToken ∧ second = .rparenToken := by
  revert equal
  cases first <;> cases second <;> decide

theorem eq_of_accept (accept : precedence first second = .accept) :
    first = .endToken ∧ second = .endToken := by
  revert accept
  cases first <;> cases second <;> decide

theorem ne_of_greaterThan (greater : precedence first second = .greaterThan) :
    first ≠ .lparenToken ∧ first ≠ .endToken ∧ second ≠ .variableToken ∧
      second ≠ .lparenToken := by
  revert greater
  cases first <;> cases second <;> decide

theorem self_ne_lessThan (other : first ≠ .lparenToken) : precedence first first ≠ .lessThan := by
  revert other
  cases first <;> decide

end Table

/-- The stacks of the parser, with the tokens they stand for. -/
inductive Legal : List StackNode → List Token → Prop where
  | start : Legal [.term Token.default] []
  | shift {below token stack read} (under : Legal (.term below :: stack) read)
      (less : precedence below.tokenType token.tokenType = .lessThan) :
      Legal (.term token :: .term below :: stack) (read ++ [token])
  | operator {below token tree stack read} (under : Legal (.expr tree :: .term below :: stack) read)
      (less : precedence below.tokenType token.tokenType = .lessThan)
      (isOperator : token.tokenType.level ≠ none) :
      Legal (.term token :: .expr tree :: .term below :: stack) (read ++ [token])
  | close {left right nodes stack read} (under : Legal (nodes ++ .term left :: stack) read)
      (inner : nodes = [] ∨ ∃ tree, nodes = [.expr tree])
      (opens : left.tokenType = .lparenToken) (closes : right.tokenType = .rparenToken) :
      Legal (.term right :: (nodes ++ .term left :: stack)) (read ++ [right])
  | operand {below tree stack read tokens} (under : Legal (.term below :: stack) read)
      (opens : below.tokenType.opensOperand = true) (sentence : (grammar true).Sentence tokens) :
      Legal (.expr tree :: .term below :: stack) (read ++ tokens)

variable {stack : List StackNode} {read tokens : List Token} {token below : Token}
  {tree : ParseTree}

/-- A sentence ends with an operand or a closing bracket. -/
theorem exists_last {infixNot : Bool} (sentence : (grammar infixNot).Sentence tokens) :
    ∃ before last, tokens = before ++ [last] ∧ last.tokenType ≠ .notToken := by
  induction sentence with
  | @operand token tree reads =>
      have isOperand : token.tokenType = .variableToken := by
        by_contra other
        simp [grammar, other] at reads
      exact ⟨[], token, rfl, by simp [isOperand]⟩
  | @group left right tokens opens closes =>
      have isClose : right.tokenType = .rparenToken := by simpa [grammar] using closes
      exact ⟨left :: tokens, right, rfl, by simp [isClose]⟩
  | @unary token _ _ _ _ inductionHypothesis =>
      obtain ⟨before, last, rfl, other⟩ := inductionHypothesis
      exact ⟨token :: before, last, rfl, other⟩
  | @binary token _ left _ _ _ _ _ secondHypothesis =>
      obtain ⟨before, last, rfl, other⟩ := secondHypothesis
      exact ⟨left ++ token :: before, last, by simp, other⟩

/-- The token under a negation that is pushed is no negation. -/
theorem Legal.single_of_push (legal : Legal stack read) (single : NoDoubleNegation read)
    (top : terminalPeek stack = .ok below)
    (less : precedence below.tokenType token.tokenType = .lessThan) :
    NoDoubleNegation (read ++ [token]) := by
  refine single.append (List.isChain_singleton _) ?_
  intro last lastMem next nextMem
  obtain rfl : token = next := by simpa using nextMem
  cases legal with
  | start => simp at lastMem
  | shift | operator | close =>
      simp only [List.getLast?_concat, Option.mem_def, Option.some.injEq] at lastMem
      obtain rfl := lastMem
      obtain rfl := Except.ok.inj top
      exact single_of_lessThan less
  | operand _ _ sentence =>
      obtain ⟨before, ending, rfl, other⟩ := exists_last sentence
      rw [← List.append_assoc, List.getLast?_concat, Option.mem_def, Option.some.injEq] at lastMem
      exact fun both => other (lastMem ▸ both.1)

/-- What stands under an opening bracket. -/
theorem Legal.under_open (legal : Legal (.term token :: stack) read)
    (opens : token.tokenType = .lparenToken) :
    ∃ below rest before, stack = .term below :: rest ∧ read = before ++ [token] ∧
      Legal (.term below :: rest) before ∧
      precedence below.tokenType token.tokenType = .lessThan := by
  cases legal with
  | start => simp [Token.default] at opens
  | shift under less => exact ⟨_, _, _, rfl, rfl, under, less⟩
  | operator _ _ isOperator => simp [opens, TokenType.level] at isOperator
  | close _ _ _ closes => simp [opens] at closes

/-- What stands under an expression. -/
theorem Legal.under_expr (legal : Legal (.expr tree :: stack) read) :
    ∃ below rest before tokens, stack = .term below :: rest ∧ read = before ++ tokens ∧
      Legal (.term below :: rest) before ∧ below.tokenType.opensOperand = true ∧
      (grammar true).Sentence tokens := by
  cases legal with
  | operand under opens sentence => exact ⟨_, _, _, _, rfl, rfl, under, opens, sentence⟩

def terminals (stack : List StackNode) : Nat :=
  stack.countP fun node => match node with
    | .expr _ => false
    | .term _ => true

@[simp] theorem terminals_expr : terminals (.expr tree :: stack) = terminals stack := by
  simp [terminals]

@[simp] theorem terminals_term : terminals (.term token :: stack) = terminals stack + 1 := by
  simp [terminals]

/-- The handle on top of a legal stack: it is reduced to an expression in its place, or it is
no handle of the grammar. -/
def Reduces (below : Token) (stack : List StackNode) (read : List Token) : Prop :=
  ∃ handle rest, popHandle below stack [] = .ok (handle, rest) ∧
    terminals rest < terminals stack ∧
    (reduce handle = .error .null ∨
      ∃ tree, reduce handle = .ok (.expr tree) ∧ Legal (.expr tree :: rest) read)

theorem Legal.reduces_close {nodes : List StackNode} {left right : Token}
    (under : Legal (nodes ++ .term left :: stack) read)
    (inner : nodes = [] ∨ ∃ tree, nodes = [.expr tree]) (opens : left.tokenType = .lparenToken)
    (closes : right.tokenType = .rparenToken) :
    Reduces right (.term right :: (nodes ++ .term left :: stack)) (read ++ [right]) := by
  have notLower : precedence right.tokenType right.tokenType ≠ .lessThan :=
    self_ne_lessThan (by simp [closes])
  have closed : precedence left.tokenType right.tokenType ≠ .lessThan := by
    rw [opens, closes]
    decide
  rcases inner with rfl | ⟨tree, rfl⟩
  · -- An empty pair of brackets.
    obtain ⟨below, rest, before, rfl, rfl, -, less⟩ := Legal.under_open under opens
    have popped : popHandle right (.term right :: .term left :: .term below :: rest) [] =
        .ok ([.term left, .term right], .term below :: rest) := by
      rw [popHandle_term notLower, popHandle_term closed, popHandle_stop less]
    exact ⟨_, _, popped, by simp, .inl (by simp [reduce, StackNode.isTerm, opens])⟩
  · obtain ⟨_, _, middle, tokens, same, rfl, legalOpen, -, sentence⟩ := Legal.under_expr under
    obtain ⟨rfl, rfl⟩ : _ = _ ∧ _ = _ := by simpa using same
    obtain ⟨below, rest, before, rfl, rfl, legal, less⟩ := legalOpen.under_open opens
    have popped : popHandle right
          (.term right :: .expr tree :: .term left :: .term below :: rest) [] =
        .ok ([.term left, .expr tree, .term right], .term below :: rest) := by
      rw [popHandle_term notLower, popHandle, popHandle_term closed, popHandle_stop less]
    refine ⟨_, _, popped, by simp, .inr ⟨tree, by simp [reduce, StackNode.isTerm, opens, closes], ?_⟩⟩
    simp only [List.append_assoc, List.singleton_append]
    refine legal.operand (opensOperand_of_lessThan less).1 (.group ?_ ?_ sentence)
    · simp [grammar, opens]
    · simp [grammar, closes]

theorem Legal.reduces_operand (under : Legal (.term below :: stack) read)
    (opens : below.tokenType.opensOperand = true) (sentence : (grammar true).Sentence tokens)
    (notOpen : below.tokenType ≠ .lparenToken) (notEnd : below.tokenType ≠ .endToken) :
    Reduces below (.expr tree :: .term below :: stack) (read ++ tokens) := by
  have notLower := self_ne_lessThan notOpen
  cases under with
  | start => exact absurd rfl notEnd
  | close _ _ _ closes => simp [closes, TokenType.opensOperand] at opens
  | shift legal less =>
      refine ⟨_, _, by rw [popHandle, popHandle_term notLower, popHandle_stop less], by simp, ?_⟩
      by_cases isNot : below.tokenType = .notToken
      · refine .inr ⟨.not tree, by simp [reduce, StackNode.isTerm, isNot, constructNodeNegator], ?_⟩
        rw [List.append_assoc, List.singleton_append]
        exact legal.operand (opensOperand_of_lessThan less).1
          (.unary (by simp [grammar, isNot]; rfl) sentence)
      · exact .inl (by simp [reduce, StackNode.isTerm, isNot])
  | @operator lower _ left rest before legal less isOperator =>
      obtain ⟨_, _, first, leftTokens, same, rfl, base, opensLeft, leftSentence⟩ :=
        Legal.under_expr legal
      obtain ⟨rfl, rfl⟩ : _ = _ ∧ _ = _ := by simpa using same
      have popped : popHandle below
            (.expr tree :: .term below :: .expr left :: .term lower :: rest) [] =
          .ok ([.expr left, .term below, .expr tree], .term lower :: rest) := by
        rw [popHandle, popHandle_term notLower, popHandle, popHandle_stop less]
      refine ⟨_, _, popped, by simp,
        .inr ⟨_, by simp [reduce, StackNode.isTerm, constructNodeOperator]; rfl, ?_⟩⟩
      obtain ⟨operator, reads⟩ : ∃ operator, (grammar true).binary below = some operator := by
        cases type : below.tokenType <;> simp [type, TokenType.level] at isOperator <;>
          exact ⟨_, by simp [grammar, type]; rfl⟩
      simp only [List.append_assoc, List.singleton_append]
      exact base.operand opensLeft (.binary reads leftSentence sentence)

/-- On a legal stack a handle is found. -/
theorem Legal.reduces (legal : Legal stack read) (top : terminalPeek stack = .ok below)
    (notOpen : below.tokenType ≠ .lparenToken) (notEnd : below.tokenType ≠ .endToken) :
    Reduces below stack read := by
  have notLower := self_ne_lessThan notOpen
  cases legal with
  | start =>
      obtain rfl := Except.ok.inj top
      exact absurd rfl notEnd
  | @shift lower pushed rest before under less =>
      obtain rfl := Except.ok.inj top
      refine ⟨_, _, by rw [popHandle_term notLower, popHandle_stop less], by simp, ?_⟩
      by_cases isOperand : pushed.tokenType = .variableToken
      · refine .inr ⟨termToExpr pushed, by rw [reduce, if_pos isOperand], ?_⟩
        exact under.operand (opensOperand_of_lessThan less).1
          (.operand (if_pos isOperand))
      · exact .inl (by rw [reduce, if_neg isOperand])
  | operator under less isOperator =>
      obtain rfl := Except.ok.inj top
      refine ⟨_, _, by rw [popHandle_term notLower, popHandle, popHandle_stop less], by simp, ?_⟩
      exact .inl (by simp [reduce, StackNode.isTerm])
  | close under inner opens closes =>
      obtain rfl := Except.ok.inj top
      exact under.reduces_close inner opens closes
  | operand under opens sentence =>
      obtain rfl := Except.ok.inj top
      exact under.reduces_operand opens sentence notOpen notEnd

theorem Legal.exists_top (legal : Legal stack read) : ∃ below, terminalPeek stack = .ok below := by
  cases legal <;> exact ⟨_, rfl⟩

/-- An end token stands at the bottom only. -/
theorem Legal.eq_start (legal : Legal (.term below :: stack) read)
    (isEnd : below.tokenType = .endToken) : below = Token.default ∧ stack = [] ∧ read = [] := by
  cases legal with
  | start => exact ⟨rfl, rfl, rfl⟩
  | shift _ less => exact absurd isEnd (opensOperand_of_lessThan less).2.2
  | operator _ _ isOperator => simp [isEnd, TokenType.level] at isOperator
  | close _ _ _ closes => simp [isEnd] at closes

theorem Legal.terminals_pos (legal : Legal stack read) : 0 < terminals stack := by
  cases legal <;> simp

/-- A state of the parser on the tokens of a string. -/
structure Sound (all : List Token) (state : ParserState) (read rest : List Token) : Prop where
  legal : Legal state.stack read
  tokens : state.tokens = rest ++ [Token.default]
  whole : all = read ++ rest
  single : NoDoubleNegation read
  /-- An expression on top of the stack is followed by no operand. -/
  separated : ∀ tree stack, state.stack = .expr tree :: stack →
    (peek state.tokens).tokenType ≠ .variableToken ∧ (peek state.tokens).tokenType ≠ .lparenToken

/-- The turns that the parser may still take. -/
def ParserState.measure (state : ParserState) : Nat :=
  2 * state.tokens.length + terminals state.stack

section Turn

variable {all rest : List Token} {state : ParserState}
  (noEnd : ∀ token ∈ all, token.tokenType ≠ .endToken) (sound : Sound all state read rest)

include sound in
theorem Sound.three_le_measure : 3 ≤ state.measure := by
  have some : 0 < terminals state.stack := sound.legal.terminals_pos
  rw [ParserState.measure, sound.tokens, List.length_append, List.length_singleton]
  omega

include sound in
/-- A token that is no end token is pushed. -/
theorem Sound.push (top : terminalPeek state.stack = .ok below)
    (single : NoDoubleNegation (read ++ [peek state.tokens]))
    (notEnd : (peek state.tokens).tokenType ≠ .endToken)
    (legal : Legal (.term (peek state.tokens) :: state.stack) (read ++ [peek state.tokens]))
    (shift : precedence below.tokenType (peek state.tokens).tokenType = .lessThan ∨
      precedence below.tokenType (peek state.tokens).tokenType = .equal) :
    ∃ next read rest, turn state = .ok (.next next) ∧ Sound all next read rest ∧
      next.measure < state.measure := by
  obtain ⟨stack, tokens⟩ := state
  obtain rfl : tokens = rest ++ [Token.default] := sound.tokens
  cases rest with
  | nil => exact absurd rfl notEnd
  | cons first rest =>
      refine ⟨_, read ++ [first], rest, turn_of_shift top shift, ⟨legal, rfl, ?_, single, ?_⟩, ?_⟩
      · rw [sound.whole, List.append_assoc, List.singleton_append]
      · intro _ _ same
        cases same
      · simp [ParserState.measure]
        omega

include sound in
theorem Sound.turn_lessThan (top : terminalPeek state.stack = .ok below)
    (less : precedence below.tokenType (peek state.tokens).tokenType = .lessThan) :
    ∃ next read rest, turn state = .ok (.next next) ∧ Sound all next read rest ∧
      next.measure < state.measure := by
  refine sound.push top (sound.legal.single_of_push sound.single top less)
    (opensOperand_of_lessThan less).2.2 ?_ (.inl less)
  have legal := sound.legal
  cases stacked : state.stack with
  | nil => rw [stacked] at legal; cases legal
  | cons node stack =>
      rw [stacked] at legal top
      cases node with
      | term token =>
          obtain rfl := Except.ok.inj top
          exact legal.shift less
      | expr tree =>
          obtain ⟨_, _, _, _, rfl, -, -, -, -⟩ := Legal.under_expr legal
          obtain rfl := Except.ok.inj top
          obtain ⟨notOperand, notOpen⟩ := sound.separated tree _ stacked
          obtain ⟨-, notClose, notEnd⟩ := opensOperand_of_lessThan less
          refine legal.operator less ?_
          cases type : (peek state.tokens).tokenType <;> simp_all [TokenType.level]

include sound in
theorem Sound.turn_equal (top : terminalPeek state.stack = .ok below)
    (equal : precedence below.tokenType (peek state.tokens).tokenType = .equal) :
    ∃ next read rest, turn state = .ok (.next next) ∧ Sound all next read rest ∧
      next.measure < state.measure := by
  obtain ⟨opens, closes⟩ := eq_of_equal equal
  refine sound.push top ?_ (by simp [closes]) ?_ (.inr equal)
  · refine sound.single.append (List.isChain_singleton _) ?_
    intro last _ next nextMem
    obtain rfl : peek state.tokens = next := by simpa using nextMem
    simp [closes]
  · have legal := sound.legal
    cases stacked : state.stack with
    | nil => rw [stacked] at legal; cases legal
    | cons node stack =>
        rw [stacked] at legal top
        cases node with
        | term token =>
            obtain rfl := Except.ok.inj top
            exact @Legal.close _ _ [] _ _ legal (.inl rfl) opens closes
        | expr tree =>
            obtain ⟨_, _, _, _, rfl, -, -, -, -⟩ := Legal.under_expr legal
            obtain rfl := Except.ok.inj top
            exact @Legal.close _ _ [.expr tree] _ _ legal (.inr ⟨tree, rfl⟩) opens closes

include sound in
theorem Sound.turn_greaterThan (top : terminalPeek state.stack = .ok below)
    (greater : precedence below.tokenType (peek state.tokens).tokenType = .greaterThan) :
    (∃ next read rest, turn state = .ok (.next next) ∧ Sound all next read rest ∧
      next.measure < state.measure) ∨ turn state = .error .null := by
  obtain ⟨notOpen, notEnd, notOperand, notOpens⟩ := ne_of_greaterThan greater
  obtain ⟨handle, under, popped, fewer, result⟩ := sound.legal.reduces top notOpen notEnd
  rcases result with failed | ⟨tree, reduced, legal⟩
  · right
    rw [turn, top]
    simp [bind, Except.bind, greater, popped, failed]
  · left
    refine ⟨_, read, rest, turn_of_reduce top greater popped reduced,
      ⟨legal, sound.tokens, sound.whole, sound.single, ?_⟩, ?_⟩
    · intro _ _ _
      exact ⟨notOperand, notOpens⟩
    · simp only [ParserState.measure, terminals_expr]
      omega

include sound noEnd in
/-- The parser accepts at the end token only, with all tokens read. -/
theorem Sound.turn_accept (top : terminalPeek state.stack = .ok below)
    (accept : precedence below.tokenType (peek state.tokens).tokenType = .accept) :
    (∃ tree, turn state = .ok (.done tree) ∧ (grammar true).Sentence all ∧
      NoDoubleNegation all) ∨ turn state = .error .abort ∧ all = [] := by
  obtain ⟨belowEnd, nextEnd⟩ := eq_of_accept accept
  have allRead : all = read := by
    have whole := sound.whole
    have tokens := sound.tokens
    cases rest with
    | nil => simpa using whole
    | cons first rest =>
        rw [tokens] at nextEnd
        exact absurd nextEnd (noEnd first (by simp [whole]))
  have legal := sound.legal
  have single := sound.single
  cases stacked : state.stack with
  | nil => rw [stacked] at legal; cases legal
  | cons node stack =>
      rw [stacked] at legal top
      cases node with
      | term token =>
          obtain rfl := Except.ok.inj top
          obtain ⟨rfl, rfl, rfl⟩ := legal.eq_start belowEnd
          right
          refine ⟨?_, allRead⟩
          rw [turn, stacked]
          simp [bind, Except.bind, terminalPeek, accept, secondNode]
      | expr tree =>
          obtain ⟨_, _, _, tokens, rfl, rfl, under, -, sentence⟩ := legal.under_expr
          obtain rfl := Except.ok.inj top
          obtain ⟨rfl, rfl, rfl⟩ := under.eq_start belowEnd
          left
          rw [List.nil_append] at allRead single
          refine ⟨tree, ?_, allRead ▸ sentence, allRead ▸ single⟩
          rw [turn, stacked]
          simp [bind, Except.bind, terminalPeek, accept, secondNode]
          rfl

end Turn

/-- What the parser may end with: a tree for a sentence without a double negation, a null
pointer, or an abort on a string without tokens. -/
def Ends (all : List Token) (result : Except Failure ParseTree) : Prop :=
  (∃ tree, result = .ok tree ∧ (grammar true).Sentence all ∧ NoDoubleNegation all) ∨
    result = .error .null ∨ result = .error .abort ∧ all = []

/-- The parser ends within as many turns as it is run for. -/
theorem Sound.ends {all rest : List Token} {state : ParserState}
    (noEnd : ∀ token ∈ all, token.tokenType ≠ .endToken) (sound : Sound all state read rest)
    {fuel : Nat} (enough : state.measure ≤ fuel + 2) : Ends all (run fuel state) := by
  induction fuel generalizing state read rest with
  | zero =>
      have many := sound.three_le_measure
      omega
  | succ fuel inductionHypothesis =>
      have goesOn : ∀ {next read rest}, turn state = .ok (.next next) → Sound all next read rest →
          next.measure < state.measure → Ends all (run (fuel + 1) state) := by
        intro next read rest turned soundNext fewer
        rw [run, turned]
        exact inductionHypothesis soundNext (by omega)
      obtain ⟨below, top⟩ := sound.legal.exists_top
      cases compared : precedence below.tokenType (peek state.tokens).tokenType with
      | lessThan =>
          obtain ⟨next, read, rest, turned, soundNext, fewer⟩ := sound.turn_lessThan top compared
          exact goesOn turned soundNext fewer
      | equal =>
          obtain ⟨next, read, rest, turned, soundNext, fewer⟩ := sound.turn_equal top compared
          exact goesOn turned soundNext fewer
      | greaterThan =>
          rcases sound.turn_greaterThan top compared with
            ⟨next, read, rest, turned, soundNext, fewer⟩ | failed
          · exact goesOn turned soundNext fewer
          · rw [run, failed]
            exact .inr (.inl rfl)
      | accept =>
          rcases sound.turn_accept noEnd top compared with ⟨tree, turned, sentence⟩ | ⟨failed, none⟩
          · rw [run, turned]
            exact .inl ⟨tree, rfl, sentence⟩
          · rw [run, failed]
            exact .inr (.inr ⟨rfl, none⟩)
      | error =>
          have failed : turn state = .error .null := by
            rw [turn, top]
            simp [bind, Except.bind, compared]
          rw [run, failed]
          exact .inr (.inl rfl)

theorem Spells.ne_endToken {text : List Char} (spells : Spells text tokens) :
    ∀ token ∈ tokens, token.tokenType ≠ .endToken := by
  induction spells with
  | done => simp
  | space _ _ inductionHypothesis => exact inductionHypothesis
  | identifier _ _ _ _ inductionHypothesis => simpa using inductionHypothesis
  | symbol isSymbol _ inductionHypothesis =>
      refine List.forall_mem_cons.mpr ⟨?_, inductionHypothesis⟩
      rintro rfl
      unfold symbolType at isSymbol
      split at isSymbol <;> cases isSymbol

/-- The parser ends on every string that spells tokens. -/
theorem Spells.ends {text : List Char} (spells : Spells text tokens) :
    Ends tokens (parseSop text) := by
  rw [parseSop, spells.tokenize_eq]
  have sound : Sound tokens
      { stack := [.term Token.default], tokens := tokens ++ [Token.default] } [] tokens :=
    ⟨.start, rfl, rfl, List.isChain_nil, by rintro _ _ ⟨⟩⟩
  refine sound.ends spells.ne_endToken ?_
  simp [ParserState.measure, terminals]

/-- What the source's grammar derives the other one does too. -/
theorem derives_infixNot {level : Nat} (derives : (grammar false).Derives level tokens tree) :
    (grammar true).Derives level tokens tree := by
  induction derives with
  | operand reads => exact @Grammar.Derives.operand _ _ (grammar true) _ _ reads
  | group opens closes _ inductionHypothesis =>
      exact @Grammar.Derives.group _ _ (grammar true) _ _ _ _ opens closes inductionHypothesis
  | unary reads _ inductionHypothesis =>
      exact @Grammar.Derives.unary _ _ (grammar true) _ _ _ _ reads inductionHypothesis
  | tighter below _ inductionHypothesis =>
      exact @Grammar.Derives.tighter _ _ (grammar true) _ _ _ below inductionHypothesis
  | @binary token level build _ _ _ _ reads _ _ firstHypothesis secondHypothesis =>
      refine @Grammar.Derives.binary _ _ (grammar true) token level build _ _ _ _ ?_
        firstHypothesis secondHypothesis
      cases type : token.tokenType <;> simp_all [grammar]

/-- The language of expressions: the strings that spell a sentence. -/
def InLanguage (text : List Char) : Prop :=
  ∃ tokens, Spells text tokens ∧ (grammar false).Sentence tokens

/-- The parser accepts a string exactly if it is in the language, with a tree that evaluates as
precedence prescribes, and returns a null pointer for every other string. -/
structure ParsesAsSpecified (text : List Char) : Prop where
  accepts : InLanguage text → ∃ tree, parseSop text = .ok tree ∧
    ∀ tokens meaning, Spells text tokens → (grammar false).Derives 0 tokens meaning →
      ∀ row, tree.evaluate row = meaning.evaluate row
  rejects : ¬ InLanguage text → parseSop text = .error .null

/-- The strings on which the parser's table agrees with the grammar. -/
structure Regular (text : List Char) : Prop where
  notBlank : ¬ Spells text []
  /-- In a sentence no negation follows another directly. -/
  single : ∀ tokens, Spells text tokens → (grammar false).Sentence tokens → NoDoubleNegation tokens
  /-- No other string would be a sentence if a negation could join two expressions. -/
  prefixOnly : ∀ tokens, Spells text tokens → (grammar true).Sentence tokens →
    NoDoubleNegation tokens → (grammar false).Sentence tokens

theorem Spells.unique {text : List Char} {others : List Token} (spells : Spells text tokens)
    (spellsOthers : Spells text others) : tokens = others := by
  have same := Option.some.inj (spells.tokenize_eq.symm.trans spellsOthers.tokenize_eq)
  exact List.append_cancel_right same

/-- A string without a syntax error is rejected or spells tokens. -/
theorem parseSop_of_not_spells {text : List Char} (none : ∀ tokens, ¬ Spells text tokens) :
    parseSop text = .error .null := by
  rw [parseSop]
  cases lexed : tokenize text with
  | none => rfl
  | some found =>
      obtain ⟨tokens, -, spells⟩ := spells_of_tokenize lexed
      exact absurd spells (none tokens)

/-- The parser does as specified on exactly the regular strings. -/
theorem parsesAsSpecified_iff (text : List Char) : ParsesAsSpecified text ↔ Regular text := by
  constructor
  · intro specified
    refine ⟨fun blank => ?_, fun tokens spells sentence => ?_, fun tokens spells sentence single => ?_⟩
    · have outside : ¬ InLanguage text := by
        rintro ⟨tokens, spells, sentence⟩
        obtain rfl := spells.unique blank
        obtain ⟨before, last, same, -⟩ := exists_last sentence
        simp at same
      have aborts : parseSop text = .error .abort := by
        rw [parseSop, blank.tokenize_eq]
        rfl
      rw [specified.rejects outside] at aborts
      cases aborts
    · obtain ⟨tree, parsed, -⟩ := specified.accepts ⟨tokens, spells, sentence⟩
      rcases spells.ends with ⟨_, _, _, single⟩ | failed | ⟨failed, _⟩
      · exact single
      · rw [parsed] at failed
        cases failed
      · rw [parsed] at failed
        cases failed
    · by_contra outside
      obtain ⟨tree, derives⟩ := sentence.derives
      have notIn : ¬ InLanguage text := by
        rintro ⟨others, spellsOthers, sentenceOthers⟩
        exact outside (spells.unique spellsOthers ▸ sentenceOthers)
      have parsed := parseSop_of_derives spells derives single
      rw [specified.rejects notIn] at parsed
      cases parsed
  · intro regular
    refine ⟨?_, fun outside => ?_⟩
    · rintro ⟨tokens, spells, sentence⟩
      obtain ⟨tree, derives⟩ := sentence.derives
      have single := regular.single tokens spells sentence
      have parsed := parseSop_of_derives spells (derives_infixNot derives) single
      refine ⟨tree, parsed, fun others meaning spellsOthers reading row => ?_⟩
      obtain rfl := spells.unique spellsOthers
      have same := parseSop_of_derives spells (derives_infixNot reading) single
      rw [Except.ok.inj (parsed.symm.trans same)]
    · by_cases spelled : ∃ tokens, Spells text tokens
      · obtain ⟨tokens, spells⟩ := spelled
        rcases spells.ends with ⟨_, _, sentence, single⟩ | failed | ⟨_, rfl⟩
        · exact absurd ⟨tokens, spells, regular.prefixOnly tokens spells sentence single⟩ outside
        · exact failed
        · exact absurd spells regular.notBlank
      · exact parseSop_of_not_spells fun tokens spells => spelled ⟨tokens, spells⟩

/-- A double negation is a sentence that the parser rejects. -/
theorem not_parsesAsSpecified_doubleNegation : ¬ ParsesAsSpecified ['~', '~', 'a'] := by
  intro specified
  have spells : Spells ['~', '~', 'a'] [⟨['~'], .notToken⟩, ⟨['~'], .notToken⟩,
      ⟨['a'], .variableToken⟩] :=
    .symbol rfl (.symbol rfl (@Spells.identifier 'a' [] [] [] rfl (by simp) (by simp) .done))
  have sentence : (grammar false).Sentence [⟨['~'], .notToken⟩, ⟨['~'], .notToken⟩,
      ⟨['a'], .variableToken⟩] :=
    .unary rfl (.unary rfl (.operand rfl))
  obtain ⟨tree, parsed, -⟩ := specified.accepts ⟨_, spells, sentence⟩
  rw [parseSop, spells.tokenize_eq] at parsed
  cases parsed

end Dynamatic.BooleanLogic
