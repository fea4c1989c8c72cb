import Mathlib.Data.List.Chain
import Dynamatic.BooleanLogic.Expression
import Dynamatic.Parsing.Precedence
import Mathlib.Data.List.TakeWhile

/-!
# The lexer of boolean expressions

`tokenize` reads a string from left to right, as `LexicalAnalyzer` does, and adds
an end token. `Spells` says which strings spell which tokens; the lexer finds the
tokens of a string exactly when there are some.
-/

namespace Dynamatic.BooleanLogic

inductive TokenType where
  | notToken
  | andToken
  | orToken
  | lparenToken
  | rparenToken
  | variableToken
  | endToken
  deriving DecidableEq, Repr

structure Token where
  lexeme : List Char
  tokenType : TokenType
  deriving DecidableEq, Repr

/-- The token a default constructor makes. -/
def Token.default : Token := { lexeme := [], tokenType := .endToken }

def isspace (current : Char) : Bool := [' ', '\t', '\n', '\x0b', '\x0c', '\r'].contains current

/-- The token type of a character that is a token by itself. -/
def symbolType (current : Char) : Option TokenType :=
  match current with
  | '.' | '&' => some .andToken
  | '+' | '|' => some .orToken
  | '~' | '!' => some .notToken
  | '(' => some .lparenToken
  | ')' => some .rparenToken
  | '0' | '1' => some .variableToken
  | _ => none

/-- Read the tokens of a string; a character that starts no token is a syntax error. -/
def tokenize : List Char → Option (List Token)
  | [] => some [Token.default]
  | current :: rest =>
      if isspace current then tokenize rest
      else if current.isAlpha then
        (tokenize (rest.dropWhile Char.isDigit)).map
          ({ lexeme := current :: rest.takeWhile Char.isDigit, tokenType := .variableToken } :: ·)
      else
        match symbolType current with
        | some tokenType => (tokenize rest).map ({ lexeme := [current], tokenType := tokenType } :: ·)
        | none => none
  termination_by text => text.length
  decreasing_by
    · simp
    · have shorter := (List.dropWhile_suffix (l := rest) Char.isDigit).length_le
      simp only [List.length_cons]
      omega
    · simp

/-- The strings that spell a list of tokens: white space stands anywhere between them, and a
variable is a letter with all the digits that follow it. -/
inductive Spells : List Char → List Token → Prop where
  | done : Spells [] []
  | space {current text tokens} (blank : isspace current = true) (rest : Spells text tokens) :
      Spells (current :: text) tokens
  | identifier {letter digits text tokens} (isLetter : letter.isAlpha = true)
      (areDigits : ∀ digit ∈ digits, digit.isDigit = true)
      (allDigits : ∀ next ∈ text.head?, next.isDigit = false) (rest : Spells text tokens) :
      Spells (letter :: (digits ++ text))
        ({ lexeme := letter :: digits, tokenType := .variableToken } :: tokens)
  | symbol {current tokenType text tokens} (isSymbol : symbolType current = some tokenType)
      (rest : Spells text tokens) :
      Spells (current :: text) ({ lexeme := [current], tokenType := tokenType } :: tokens)

variable {text : List Char} {tokens : List Token}

theorem isspace_of_isAlpha {current : Char} (letter : current.isAlpha = true) :
    isspace current = false := by
  by_contra blank
  simp only [Bool.not_eq_false, isspace, List.contains_eq_mem, List.mem_cons, List.not_mem_nil,
    or_false, decide_eq_true_eq] at blank
  rcases blank with rfl | rfl | rfl | rfl | rfl | rfl <;> revert letter <;> decide

/-- A character that is a token by itself is neither white space nor a letter. -/
theorem symbolType_eq_some {current : Char} {tokenType : TokenType}
    (isSymbol : symbolType current = some tokenType) :
    isspace current = false ∧ current.isAlpha = false := by
  unfold symbolType at isSymbol
  split at isSymbol <;> first | exact ⟨by decide, by decide⟩ | cases isSymbol

/-- The lexer finds the tokens of a string. -/
theorem Spells.tokenize_eq (spells : Spells text tokens) :
    tokenize text = some (tokens ++ [Token.default]) := by
  induction spells with
  | done => rw [tokenize]; rfl
  | space blank _ inductionHypothesis => rw [tokenize, if_pos blank, inductionHypothesis]
  | @identifier letter digits text tokens isLetter areDigits allDigits _ inductionHypothesis =>
      have notBlank := isspace_of_isAlpha isLetter
      have noMore : text.takeWhile Char.isDigit = [] ∧ text.dropWhile Char.isDigit = text := by
        cases text with
        | nil => exact ⟨rfl, rfl⟩
        | cons next _ =>
            have stops : next.isDigit = false := allDigits next rfl
            simp [stops]
      rw [tokenize, notBlank, if_neg (by simp), if_pos isLetter,
        List.takeWhile_append_of_pos areDigits, List.dropWhile_append_of_pos areDigits,
        noMore.1, noMore.2, inductionHypothesis, List.append_nil]
      rfl
  | symbol isSymbol _ inductionHypothesis =>
      obtain ⟨notBlank, notLetter⟩ := symbolType_eq_some isSymbol
      rw [tokenize, notBlank, notLetter, if_neg (by simp), if_neg (by simp), isSymbol,
        inductionHypothesis]
      rfl

/-- What the lexer finds is spelled by the string. -/
theorem spells_of_tokenize {lexed : List Token} (found : tokenize text = some lexed) :
    ∃ tokens, lexed = tokens ++ [Token.default] ∧ Spells text tokens := by
  induction text using tokenize.induct generalizing lexed with
  | case1 =>
      rw [tokenize] at found
      exact ⟨[], (Option.some.inj found).symm, .done⟩
  | case2 current rest blank inductionHypothesis =>
      rw [tokenize, if_pos blank] at found
      obtain ⟨tokens, rfl, spells⟩ := inductionHypothesis found
      exact ⟨tokens, rfl, .space blank spells⟩
  | case3 current rest notBlank letter inductionHypothesis =>
      rw [tokenize, if_neg notBlank, if_pos letter, Option.map_eq_some_iff] at found
      obtain ⟨lexedRest, foundRest, rfl⟩ := found
      obtain ⟨tokens, rfl, spells⟩ := inductionHypothesis foundRest
      refine ⟨_ :: tokens, rfl, ?_⟩
      have stops := List.head?_dropWhile_not Char.isDigit rest
      conv => enter [1]; rw [← List.takeWhile_append_dropWhile (p := Char.isDigit) (l := rest)]
      refine .identifier letter (fun digit mem => List.mem_takeWhile_imp mem) (fun next first => ?_)
        spells
      rw [Option.mem_def.mp first] at stops
      simpa using stops
  | case4 current rest notBlank notLetter tokenType isSymbol inductionHypothesis =>
      rw [tokenize, if_neg notBlank, if_neg notLetter, isSymbol] at found
      obtain ⟨lexedRest, foundRest, rfl⟩ := Option.map_eq_some_iff.mp found
      obtain ⟨tokens, rfl, spells⟩ := inductionHypothesis foundRest
      exact ⟨_ :: tokens, rfl, .symbol isSymbol spells⟩
  | case5 current rest notBlank notLetter noSymbol =>
      rw [tokenize, if_neg notBlank, if_neg notLetter, noSymbol] at found
      cases found

end Dynamatic.BooleanLogic

/-!
## The parser of boolean expressions

`Parser::parseSop` is an operator-precedence parser: a table compares the topmost
terminal of a stack with the next token, and tells to push the token, to reduce
the handle on top of the stack, to accept or to fail. The parser is a machine
here, one turn of the source's loop a step; `Reaches` runs it.
-/

namespace Dynamatic.BooleanLogic

open Dynamatic.Parsing

/-- The trees the parser builds, with negations anywhere. -/
inductive ParseTree where
  | singleCond (id : List Char)
  | zero
  | one
  | not (right : ParseTree)
  | and (left right : ParseTree)
  | or (left right : ParseTree)
  deriving DecidableEq, Repr

namespace ParseTree

def evaluate (row : List Char → Bool) : ParseTree → Bool
  | singleCond id => row id
  | zero => false
  | one => true
  | not right => !right.evaluate row
  | and left right => left.evaluate row && right.evaluate row
  | or left right => left.evaluate row || right.evaluate row

end ParseTree

inductive Compare where
  | lessThan
  | greaterThan
  | equal
  | error
  | accept
  deriving DecidableEq, Repr

def TokenType.toNat : TokenType → Nat
  | notToken => 0
  | andToken => 1
  | orToken => 2
  | lparenToken => 3
  | rparenToken => 4
  | variableToken => 5
  | endToken => 6

/-- `PRECEDENCE_TABLE`. -/
def precedenceTable : List (List Compare) :=
  [[.greaterThan, .greaterThan, .greaterThan, .lessThan, .greaterThan, .lessThan, .greaterThan],
    [.lessThan, .greaterThan, .greaterThan, .lessThan, .greaterThan, .lessThan, .greaterThan],
    [.lessThan, .lessThan, .greaterThan, .lessThan, .greaterThan, .lessThan, .greaterThan],
    [.lessThan, .lessThan, .lessThan, .lessThan, .equal, .lessThan, .error],
    [.greaterThan, .greaterThan, .greaterThan, .error, .greaterThan, .error, .greaterThan],
    [.greaterThan, .greaterThan, .greaterThan, .error, .greaterThan, .error, .greaterThan],
    [.lessThan, .lessThan, .lessThan, .lessThan, .error, .lessThan, .accept]]

/-- The entry of the table for the topmost terminal and the next one. -/
def precedence (top next : TokenType) : Compare :=
  ((precedenceTable.getD top.toNat []).getD next.toNat .error)

/-- A stack node holds an expression or a terminal. -/
inductive StackNode where
  | expr (tree : ParseTree)
  | term (token : Token)
  deriving DecidableEq, Repr

/-- Why the parser stops without a tree. -/
inductive Failure where
  /-- `nullptr` is returned, with an error message. -/
  | null
  /-- An exception is thrown, which ends the program. -/
  | abort
  /-- An operator node is built over a terminal. The source goes on with a null operand; the
  parser never comes to that. -/
  | missingOperand
  /-- The runs below are too short. They never are. -/
  | outOfFuel
  deriving DecidableEq, Repr

def termToExpr (token : Token) : ParseTree :=
  if token.lexeme = ['1'] then .one else if token.lexeme = ['0'] then .zero
  else .singleCond token.lexeme

def constructNodeOperator (operate s1 s2 : StackNode) : Except Failure ParseTree :=
  match operate, s1, s2 with
  | .term token, .expr left, .expr right =>
      .ok (if token.tokenType = .andToken then .and left right else .or left right)
  | .term _, _, _ => .error .missingOperand
  | .expr _, _, _ => .error .abort

def constructNodeNegator (s1 : StackNode) : Except Failure ParseTree :=
  match s1 with
  | .expr tree => .ok (.not tree)
  | .term _ => .error .missingOperand

def StackNode.isTerm (node : StackNode) (tokenType : TokenType) : Bool :=
  match node with
  | .expr _ => false
  | .term token => token.tokenType = tokenType

/-- Reduce a handle, its first node first. -/
def reduce : List StackNode → Except Failure StackNode
  | [top, middle, last] =>
      if top.isTerm .lparenToken then
        -- Case 1: expr -> ( expr )
        if last.isTerm .rparenToken then .ok middle else .error .null
      else
        -- Case 2: expr -> expr AND expr | expr OR expr
        .expr <$> constructNodeOperator middle top last
  | [top, last] =>
      -- Case 3: expr -> NOT expr
      if top.isTerm .notToken then .expr <$> constructNodeNegator last else .error .null
  | [.term token] =>
      -- Case 4: expr -> variable
      if token.tokenType = .variableToken then .ok (.expr (termToExpr token)) else .error .null
  | [.expr _] => .error .abort
  | _ => .error .null

/-- The topmost terminal of a stack, the top first. -/
def terminalPeek : List StackNode → Except Failure Token
  | .term token :: _ => .ok token
  | .expr _ :: .term token :: _ => .ok token
  | .expr _ :: .expr _ :: _ => .error .null
  | _ => .error .abort

/-- Pop the handle: every expression on the way, and the terminals up to one of lower
precedence than the last one popped. -/
def popHandle (lastPopped : Token) : List StackNode → List StackNode →
    Except Failure (List StackNode × List StackNode)
  | .expr tree :: stack, rhs => popHandle lastPopped stack (.expr tree :: rhs)
  | .term token :: stack, rhs =>
      if precedence token.tokenType lastPopped.tokenType = .lessThan then
        .ok (rhs, .term token :: stack)
      else popHandle token stack (.term token :: rhs)
  | [], _ => .error .abort

/-- The stack, its top first, and the tokens that have not been read. -/
structure ParserState where
  stack : List StackNode
  tokens : List Token

/-- What one turn of the parser's loop leads to. -/
inductive Turn where
  | next (state : ParserState)
  | done (tree : ParseTree)

def peek (tokens : List Token) : Token := tokens.headD Token.default

/-- The expression of the second node from the bottom, `stack.at(1)->expr`. -/
def secondNode (stack : List StackNode) : Except Failure ParseTree :=
  match stack.reverse with
  | _ :: .expr tree :: _ => .ok tree
  | _ :: .term _ :: _ => .error .null
  | _ => .error .abort

/-- One turn of the loop of `parseSop`. -/
def turn (state : ParserState) : Except Failure Turn := do
  let t1 := peek state.tokens
  let t2 ← terminalPeek state.stack
  match precedence t2.tokenType t1.tokenType with
  | .lessThan | .equal =>
      return .next { stack := .term t1 :: state.stack, tokens := state.tokens.tail }
  | .greaterThan =>
      let (rhs, stack) ← popHandle t2 state.stack []
      let reduced ← reduce rhs
      return .next { state with stack := reduced :: stack }
  | .accept =>
      let tree ← secondNode state.stack
      return .done tree
  | .error => .error .null

def run : Nat → ParserState → Except Failure ParseTree
  | 0, _ => .error .outOfFuel
  | fuel + 1, state =>
      match turn state with
      | .ok (.next state) => run fuel state
      | .ok (.done tree) => .ok tree
      | .error failure => .error failure

/-- `Parser::parseSop` on the string it was made for. -/
def parseSop (text : List Char) : Except Failure ParseTree :=
  match tokenize text with
  | none => .error .null
  | some tokens => run (2 * tokens.length) { stack := [.term Token.default], tokens := tokens }

end Dynamatic.BooleanLogic
