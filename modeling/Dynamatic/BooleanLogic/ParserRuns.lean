import Dynamatic.BooleanLogic.Parser
import Dynamatic.Numerals

/-!
# The parser reads by precedence

`grammar` names the operands and operators of boolean expressions, as a sentence
of the source's grammar or with a third binary operator: a negation that follows
an expression, over which the parser's table puts no other entry than over a
prefix one. The parser builds the tree that precedence prescribes for every
sentence of the latter in which no negation follows another directly.
-/

namespace Dynamatic.BooleanLogic

open Dynamatic.Parsing

open Numerals in
/-- The expressions of variables, `0`, `1`, `~`, `.`, `+` and brackets, and with `infixNot` also
two expressions joined by a `~`. -/
def grammar (infixNot : Bool) : Grammar Token ParseTree where
  height := 3
  operand token := if token.tokenType = .variableToken then some (termToExpr token) else none
  opens token := token.tokenType = .lparenToken
  closes token := token.tokenType = .rparenToken
  unary token := if token.tokenType = .notToken then some .not else none
  binary token :=
    match token.tokenType with
    | .orToken => some (0, .or)
    | .andToken => some (1, .and)
    | .notToken => if infixNot then some (2, .or) else none
    | _ => none

/-- No negation follows another directly. -/
def NoDoubleNegation (tokens : List Token) : Prop :=
  tokens.IsChain fun first second => ¬ (first.tokenType = .notToken ∧ second.tokenType = .notToken)

/-- The level of an operator in the grammar. -/
def TokenType.level : TokenType → Option Nat
  | .orToken => some 0
  | .andToken => some 1
  | .notToken => some 2
  | _ => none

/-- A terminal that an expression of a level may stand over. -/
def Below (tokenType : TokenType) (level : Nat) : Prop :=
  tokenType = .endToken ∨ tokenType = .lparenToken ∨ ∃ lower < level, tokenType.level = some lower

/-- A terminal that may follow an expression of a level. -/
def Follows (level : Nat) (tokenType : TokenType) : Prop :=
  tokenType = .endToken ∨ tokenType = .rparenToken ∨ ∃ lower ≤ level, tokenType.level = some lower

section Table

variable {level : Nat} {first second : TokenType}

theorem Below.mono {higher : Nat} (below : Below first level) (ordered : level ≤ higher) :
    Below first higher := by
  rcases below with isEnd | isOpen | ⟨lower, less, isLevel⟩
  · exact .inl isEnd
  · exact .inr (.inl isOpen)
  · exact .inr (.inr ⟨lower, Nat.lt_of_lt_of_le less ordered, isLevel⟩)

theorem Follows.mono {higher : Nat} (follows : Follows level second) (ordered : level ≤ higher) :
    Follows higher second := by
  rcases follows with isEnd | isClose | ⟨lower, less, isLevel⟩
  · exact .inl isEnd
  · exact .inr (.inl isClose)
  · exact .inr (.inr ⟨lower, Nat.le_trans less ordered, isLevel⟩)

/-- An operator is pushed over a terminal that may stand below its level. -/
theorem Below.precedence_operator (below : Below first level) (isLevel : second.level = some level) :
    precedence first second = .lessThan := by
  unfold Below at below
  cases second <;> simp only [TokenType.level, Option.some.injEq, reduceCtorEq] at isLevel <;>
    subst isLevel <;> cases first <;> simp [TokenType.level] at below <;> rfl

/-- Operands and brackets are pushed over any terminal that may stand below one. -/
theorem Below.precedence_operand (below : Below first level)
    (starts : second = .variableToken ∨ second = .lparenToken) :
    precedence first second = .lessThan := by
  unfold Below at below
  rcases starts with rfl | rfl <;> cases first <;> simp [TokenType.level] at below <;> rfl

/-- A prefix operator is pushed over any terminal that may stand below one but another one. -/
theorem Below.precedence_not (below : Below first level) (single : first ≠ .notToken) :
    precedence first .notToken = .lessThan := by
  unfold Below at below
  cases first <;> simp [TokenType.level] at below single <;> rfl

/-- An operator is reduced before a terminal that may follow its level. -/
theorem Follows.precedence_operator (follows : Follows level second)
    (isLevel : first.level = some level) : precedence first second = .greaterThan := by
  unfold Follows at follows
  cases first <;> simp only [TokenType.level, Option.some.injEq, reduceCtorEq] at isLevel <;>
    subst isLevel <;> cases second <;> simp [TokenType.level] at follows <;> rfl

/-- Operands and closing brackets are reduced before any terminal that may follow one. -/
theorem Follows.precedence_operand (follows : Follows level second)
    (ends : first = .variableToken ∨ first = .rparenToken) :
    precedence first second = .greaterThan := by
  unfold Follows at follows
  rcases ends with rfl | rfl <;> cases second <;> simp [TokenType.level] at follows <;> rfl

/-- A negation is reduced before any terminal that may follow an expression. -/
theorem Follows.precedence_not (follows : Follows level second) :
    precedence .notToken second = .greaterThan := by
  unfold Follows at follows
  cases second <;> simp [TokenType.level] at follows <;> rfl

end Table

/-- The parser gets from one state to another in so many turns. -/
def Reaches (turns : Nat) (first last : ParserState) : Prop :=
  ∀ fuel, run (fuel + turns) first = run fuel last

section Turns

variable {first middle last : ParserState} {turns more : Nat} {stack rest : List StackNode}
  {tokens : List Token} {token below : Token}

theorem Reaches.trans (before : Reaches turns first middle) (after : Reaches more middle last) :
    Reaches (turns + more) first last := by
  intro fuel
  rw [Nat.add_comm turns, ← Nat.add_assoc, before, after]

theorem Reaches.of_turn (turned : turn first = .ok (.next last)) : Reaches 1 first last := by
  intro fuel
  rw [run, turned]

theorem turn_of_shift (top : terminalPeek stack = .ok below)
    (shift : precedence below.tokenType token.tokenType = .lessThan ∨
      precedence below.tokenType token.tokenType = .equal) :
    turn { stack := stack, tokens := token :: tokens } =
      .ok (.next { stack := .term token :: stack, tokens := tokens }) := by
  have peeked : peek (token :: tokens) = token := rfl
  rw [turn, top]
  rcases shift with shift | shift <;> simp [bind, Except.bind, peeked, shift] <;> rfl

theorem turn_of_reduce {handle : List StackNode} {reduced : StackNode}
    (top : terminalPeek stack = .ok below)
    (isHandle : precedence below.tokenType (peek tokens).tokenType = .greaterThan)
    (popped : popHandle below stack [] = .ok (handle, rest)) (result : reduce handle = .ok reduced) :
    turn { stack := stack, tokens := tokens } =
      .ok (.next { stack := reduced :: rest, tokens := tokens }) := by
  rw [turn, top]
  simp [bind, Except.bind, isHandle, popped, result]
  rfl

theorem popHandle_stop {lastPopped : Token} {handle : List StackNode}
    (lower : precedence below.tokenType lastPopped.tokenType = .lessThan) :
    popHandle lastPopped (.term below :: stack) handle = .ok (handle, .term below :: stack) := by
  rw [popHandle, if_pos lower]

theorem popHandle_term {lastPopped : Token} {handle : List StackNode}
    (notLower : precedence token.tokenType lastPopped.tokenType ≠ .lessThan) :
    popHandle lastPopped (.term token :: stack) handle =
      popHandle token stack (.term token :: handle) := by
  rw [popHandle, if_neg notLower]

/-- An operand is pushed and reduced. -/
theorem reaches_operand {level : Nat} (isOperand : token.tokenType = .variableToken)
    (fits : Below below.tokenType level) (follows : Follows level (peek tokens).tokenType) :
    Reaches 2 { stack := .term below :: stack, tokens := token :: tokens }
      { stack := .expr (termToExpr token) :: .term below :: stack, tokens := tokens } := by
  have pushed : precedence below.tokenType token.tokenType = .lessThan :=
    fits.precedence_operand (.inl isOperand)
  have popped : popHandle token (.term token :: .term below :: stack) [] =
      .ok ([.term token], .term below :: stack) := by
    rw [popHandle_term (by rw [isOperand]; decide), popHandle_stop pushed]
  have reduced : reduce [.term token] = .ok (.expr (termToExpr token)) := by
    rw [reduce, if_pos isOperand]
  exact Reaches.trans (.of_turn (turn_of_shift rfl (.inl pushed)))
    (.of_turn (turn_of_reduce rfl (follows.precedence_operand (.inl isOperand)) popped reduced))

/-- A bracketed expression is reduced to the expression. -/
theorem reaches_group {level : Nat} {left right : Token} {tree : ParseTree}
    (opens : left.tokenType = .lparenToken) (closes : right.tokenType = .rparenToken)
    (fits : Below below.tokenType level) (follows : Follows level (peek tokens).tokenType) :
    Reaches 2
      { stack := .expr tree :: .term left :: .term below :: stack, tokens := right :: tokens }
      { stack := .expr tree :: .term below :: stack, tokens := tokens } := by
  have closed : precedence left.tokenType right.tokenType = .equal := by rw [opens, closes]; rfl
  have popped : popHandle right (.term right :: .expr tree :: .term left :: .term below :: stack) [] =
      .ok ([.term left, .expr tree, .term right], .term below :: stack) := by
    rw [popHandle_term (by rw [closes]; decide), popHandle,
      popHandle_term (by rw [closed]; decide),
      popHandle_stop (fits.precedence_operand (.inr opens))]
  have reduced : reduce [.term left, .expr tree, .term right] = .ok (.expr tree) := by
    simp [reduce, StackNode.isTerm, opens, closes]
  exact Reaches.trans (.of_turn (turn_of_shift rfl (.inr closed)))
    (.of_turn (turn_of_reduce rfl (follows.precedence_operand (.inr closes)) popped reduced))

/-- A negation with its expression is reduced. -/
theorem reaches_unary {level : Nat} {tree : ParseTree} (isNot : token.tokenType = .notToken)
    (fits : Below below.tokenType level) (single : below.tokenType ≠ .notToken)
    (follows : Follows level (peek tokens).tokenType) :
    Reaches 1 { stack := .expr tree :: .term token :: .term below :: stack, tokens := tokens }
      { stack := .expr (.not tree) :: .term below :: stack, tokens := tokens } := by
  have isHandle : precedence token.tokenType (peek tokens).tokenType = .greaterThan := by
    rw [isNot]
    exact follows.precedence_not
  have popped : popHandle token (.expr tree :: .term token :: .term below :: stack) [] =
      .ok ([.term token, .expr tree], .term below :: stack) := by
    rw [popHandle, popHandle_term (by rw [isNot]; decide),
      popHandle_stop (by rw [isNot]; exact fits.precedence_not single)]
  have reduced : reduce [.term token, .expr tree] = .ok (.expr (.not tree)) := by
    simp [reduce, StackNode.isTerm, isNot, constructNodeNegator]
  exact .of_turn (turn_of_reduce rfl isHandle popped reduced)

/-- A binary operator with its expressions is reduced. -/
theorem reaches_binary {level : Nat} {left right : ParseTree}
    (isLevel : token.tokenType.level = some level) (fits : Below below.tokenType level)
    (follows : Follows level (peek tokens).tokenType) :
    Reaches 1
      { stack := .expr right :: .term token :: .expr left :: .term below :: stack, tokens := tokens }
      { stack :=
          .expr (if token.tokenType = .andToken then .and left right else .or left right) ::
            .term below :: stack
        tokens := tokens } := by
  have notLower : precedence token.tokenType token.tokenType ≠ .lessThan := by
    cases type : token.tokenType <;> simp [type, TokenType.level] at isLevel <;> decide
  have popped : popHandle token
        (.expr right :: .term token :: .expr left :: .term below :: stack) [] =
      .ok ([.expr left, .term token, .expr right], .term below :: stack) := by
    rw [popHandle, popHandle_term notLower, popHandle,
      popHandle_stop (fits.precedence_operator isLevel)]
  have reduced : reduce [.expr left, .term token, .expr right] =
      .ok (.expr (if token.tokenType = .andToken then .and left right else .or left right)) := by
    simp [reduce, StackNode.isTerm, constructNodeOperator]
  exact .of_turn (turn_of_reduce rfl (follows.precedence_operator isLevel) popped reduced)

end Turns

/-- The parser reads a sentence over a terminal that may stand below it, as far as a terminal
that may follow it, into the tree that precedence prescribes. -/
theorem reaches_of_derives {level : Nat} {tokens : List Token} {tree : ParseTree}
    (derives : (grammar true).Derives level tokens tree) (below : Token) (stack : List StackNode)
    (rest : List Token) (fits : Below below.tokenType level)
    (single : NoDoubleNegation (below :: tokens)) (follows : Follows level (peek rest).tokenType) :
    ∃ turns ≤ 2 * tokens.length,
      Reaches turns { stack := .term below :: stack, tokens := tokens ++ rest }
        { stack := .expr tree :: .term below :: stack, tokens := rest } := by
  induction derives generalizing below stack rest with
  | @operand token tree reads =>
      obtain ⟨isOperand, rfl⟩ : token.tokenType = .variableToken ∧ termToExpr token = tree := by
        simpa [grammar] using reads
      exact ⟨2, by simp, reaches_operand isOperand fits follows⟩
  | @group left right tokens tree opens closes inner inductionHypothesis =>
      have isOpen : left.tokenType = .lparenToken := by simpa [grammar] using opens
      have isClose : right.tokenType = .rparenToken := by simpa [grammar] using closes
      have pushed : precedence below.tokenType left.tokenType = .lessThan :=
        fits.precedence_operand (.inr isOpen)
      obtain ⟨turns, few, reaches⟩ := inductionHypothesis left (.term below :: stack)
        (right :: rest) (.inr (.inl isOpen))
        (@List.IsChain.left_of_append _ _ (left :: tokens) _ single.tail) (.inr (.inl isClose))
      refine ⟨1 + turns + 2, by simp; omega, ?_⟩
      rw [List.cons_append, List.append_assoc]
      exact ((Reaches.of_turn (turn_of_shift rfl (.inl pushed))).trans reaches).trans
        (reaches_group isOpen isClose fits follows)
  | @unary token build tokens tree reads inner inductionHypothesis =>
      obtain ⟨isNot, rfl⟩ : token.tokenType = .notToken ∧ .not = build := by
        simpa [grammar] using reads
      obtain ⟨apart, singleRest⟩ := List.isChain_cons_cons.mp single
      have notTwice : below.tokenType ≠ .notToken := fun same => apart ⟨same, isNot⟩
      have pushed : precedence below.tokenType token.tokenType = .lessThan := by
        rw [isNot]
        exact fits.precedence_not notTwice
      obtain ⟨turns, few, reaches⟩ := inductionHypothesis token (.term below :: stack) rest
        (.inr (.inr ⟨2, by decide, by rw [isNot]; rfl⟩)) singleRest follows
      refine ⟨1 + turns + 1, by simp; omega, ?_⟩
      exact ((Reaches.of_turn (turn_of_shift rfl (.inl pushed))).trans reaches).trans
        (reaches_unary isNot fits notTwice follows)
  | @tighter level tokens tree less inner inductionHypothesis =>
      exact inductionHypothesis below stack rest (fits.mono (Nat.le_succ _)) single
        (follows.mono (Nat.le_succ _))
  | @binary token level build left right leftTree rightTree reads first second firstHypothesis
      secondHypothesis =>
      have isLevel : token.tokenType.level = some level.1 ∧ build leftTree rightTree =
          if token.tokenType = .andToken then .and leftTree rightTree
          else .or leftTree rightTree := by
        cases type : token.tokenType <;> simp [grammar, type] at reads <;>
          obtain ⟨rfl, rfl⟩ := reads <;> exact ⟨rfl, rfl⟩
      obtain ⟨singleLeft, singleRight⟩ := List.isChain_cons_split.mp single
      obtain ⟨turnsLeft, fewLeft, reachesLeft⟩ := firstHypothesis below stack
        (token :: right ++ rest) fits (@List.IsChain.left_of_append _ _ (below :: left) _ singleLeft)
        (.inr (.inr ⟨level, Nat.le_refl _, isLevel.1⟩))
      obtain ⟨turnsRight, fewRight, reachesRight⟩ := secondHypothesis token
        (.expr leftTree :: .term below :: stack) rest
        (.inr (.inr ⟨level, Nat.lt_succ_self _, isLevel.1⟩)) singleRight
        (follows.mono (Nat.le_succ _))
      have pushed : precedence below.tokenType token.tokenType = .lessThan :=
        fits.precedence_operator isLevel.1
      refine ⟨turnsLeft + 1 + turnsRight + 1, by simp; omega, ?_⟩
      rw [isLevel.2, List.append_assoc]
      exact ((reachesLeft.trans (.of_turn (turn_of_shift rfl (.inl pushed)))).trans
        reachesRight).trans (reaches_binary isLevel.1 fits follows)

/-- A string that spells a sentence without a double negation is parsed into its tree. -/
theorem parseSop_of_derives {text : List Char} {tokens : List Token} {tree : ParseTree}
    (spells : Spells text tokens) (derives : (grammar true).Derives 0 tokens tree)
    (single : NoDoubleNegation tokens) : parseSop text = .ok tree := by
  have singleAll : NoDoubleNegation (Token.default :: tokens) :=
    single.cons fun second _ => by simp [Token.default]
  obtain ⟨turns, few, reaches⟩ := reaches_of_derives derives Token.default [] [Token.default]
    (.inl rfl) singleAll (.inl rfl)
  have enough : 2 * (tokens ++ [Token.default]).length =
      (2 * tokens.length - turns + 1) + 1 + turns := by
    simp only [List.length_append, List.length_singleton]
    omega
  have accepts : turn { stack := [.expr tree, .term Token.default], tokens := [Token.default] } =
    .ok (.done tree) := rfl
  rw [parseSop, spells.tokenize_eq]
  change run (2 * (tokens ++ [Token.default]).length) _ = _
  rw [enough, reaches, run, accepts]

end Dynamatic.BooleanLogic
