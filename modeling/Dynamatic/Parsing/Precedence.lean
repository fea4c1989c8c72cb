import Mathlib.Data.List.Basic

/-!
# Expressions by operator precedence

A grammar names its operands, its brackets, its prefix operators and its binary
operators, each binary one with a level. `Sentence` is the ambiguous language
"operand, bracketed sentence, prefixed sentence, two sentences joined";
`Derives` reads a sentence by precedence, prefix operators over binary ones of a
higher level over those of a lower one, and binary operators of one level from
left to right. Every sentence has such a reading, and only sentences have one.
-/

namespace Dynamatic.Parsing

variable {Token Tree : Type}

/-- The tokens of an expression language and the trees they build. Binary operators have
levels below `height`. -/
structure Grammar (Token Tree : Type) where
  height : Nat
  operand : Token → Option Tree
  opens : Token → Bool
  closes : Token → Bool
  unary : Token → Option (Tree → Tree)
  binary : Token → Option (Fin height × (Tree → Tree → Tree))

namespace Grammar

variable (grammar : Grammar Token Tree)

/-- The sentences of the language, without regard to precedence. -/
inductive Sentence : List Token → Prop where
  | operand {token tree} (reads : grammar.operand token = some tree) : Sentence [token]
  | group {left right tokens} (opens : grammar.opens left = true)
      (closes : grammar.closes right = true) (inner : Sentence tokens) :
      Sentence (left :: (tokens ++ [right]))
  | unary {token build tokens} (reads : grammar.unary token = some build)
      (inner : Sentence tokens) : Sentence (token :: tokens)
  | binary {token operator left right} (reads : grammar.binary token = some operator)
      (first : Sentence left) (second : Sentence right) : Sentence (left ++ token :: right)

/-- What a sentence of a level means by precedence. -/
inductive Derives : Nat → List Token → Tree → Prop where
  | operand {token tree} (reads : grammar.operand token = some tree) :
      Derives grammar.height [token] tree
  | group {left right tokens tree} (opens : grammar.opens left = true)
      (closes : grammar.closes right = true) (inner : Derives 0 tokens tree) :
      Derives grammar.height (left :: (tokens ++ [right])) tree
  | unary {token build tokens tree} (reads : grammar.unary token = some build)
      (inner : Derives grammar.height tokens tree) :
      Derives grammar.height (token :: tokens) (build tree)
  | tighter {level tokens tree} (below : level < grammar.height)
      (inner : Derives (level + 1) tokens tree) : Derives level tokens tree
  | binary {token} {level : Fin grammar.height} {build left right leftTree rightTree}
      (reads : grammar.binary token = some (level, build))
      (first : Derives level left leftTree) (second : Derives (level + 1) right rightTree) :
      Derives level (left ++ token :: right) (build leftTree rightTree)

variable {grammar} {level : Nat} {tokens left right : List Token} {tree : Tree} {token : Token}

theorem Derives.level_le (derives : grammar.Derives level tokens tree) :
    level ≤ grammar.height := by
  cases derives with
  | operand | group | unary => exact Nat.le_refl _
  | tighter below => exact Nat.le_of_lt below
  | binary => exact Nat.le_of_lt (Fin.isLt _)

/-- A reading of a level is one of every lower level. -/
theorem Derives.lower {lower : Nat} (derives : grammar.Derives level tokens tree)
    (ordered : lower ≤ level) : grammar.Derives lower tokens tree := by
  induction ordered with
  | refl => exact derives
  | step _ inductionHypothesis =>
      exact inductionHypothesis (.tighter derives.level_le derives)

/-- A prefix operator binds to the first operand. -/
theorem Derives.prefixed {build : Tree → Tree} (reads : grammar.unary token = some build)
    (derives : grammar.Derives level tokens tree) :
    ∃ tree, grammar.Derives level (token :: tokens) tree := by
  induction derives with
  | operand operand => exact ⟨_, .unary reads (.operand operand)⟩
  | group opens closes inner => exact ⟨_, .unary reads (.group opens closes inner)⟩
  | unary innerReads inner => exact ⟨_, .unary reads (.unary innerReads inner)⟩
  | tighter below _ inductionHypothesis =>
      obtain ⟨tree, derives⟩ := inductionHypothesis
      exact ⟨tree, .tighter below derives⟩
  | binary operator _ second firstHypothesis =>
      obtain ⟨tree, first⟩ := firstHypothesis
      exact ⟨_, .binary operator first second⟩

/-- A reading of a level below the highest is a chain of operators of that level, over
operands of the next one. -/
theorem Derives.chain (derives : grammar.Derives level tokens tree)
    (Holds : List Token → Prop) (below : level < grammar.height)
    (one : ∀ {tokens tree}, grammar.Derives (level + 1) tokens tree → Holds tokens)
    (more : ∀ {token operator left right leftTree rightTree}, grammar.binary token = some operator →
      operator.1 = level → Holds left → grammar.Derives level left leftTree →
      grammar.Derives (level + 1) right rightTree → Holds (left ++ token :: right)) :
    Holds tokens := by
  induction derives with
  | operand | group | unary => exact absurd below (Nat.lt_irrefl _)
  | tighter _ inner => exact one inner
  | binary reads first second firstHypothesis =>
      exact more reads rfl (firstHypothesis below one more) first second

/-- Two sentences of a level joined by an operator of at least that level. -/
theorem Derives.joined {operator : Fin grammar.height × (Tree → Tree → Tree)}
    (reads : grammar.binary token = some operator) (distance : Nat) {leftTree rightTree : Tree}
    (apart : level + distance = operator.1) (first : grammar.Derives level left leftTree)
    (second : grammar.Derives level right rightTree) :
    ∃ tree, grammar.Derives level (left ++ token :: right) tree := by
  induction distance generalizing level left right leftTree rightTree with
  | zero =>
      obtain rfl : level = operator.1 := apart
      refine second.chain (fun right => ∃ tree, grammar.Derives operator.1 (left ++ token :: right) tree)
        (Fin.isLt _) (fun inner => ⟨_, .binary reads first inner⟩) ?_
      rintro _ other _ _ _ _ otherReads sameLevel ⟨tree, joinedLeft⟩ _ last
      obtain ⟨otherLevel, build⟩ := other
      obtain rfl : otherLevel = operator.1 := Fin.ext sameLevel
      rw [← List.cons_append, ← List.append_assoc]
      exact ⟨_, .binary otherReads joinedLeft last⟩
  | succ distance inductionHypothesis =>
      have below : level < grammar.height := by
        have bounded := operator.1.isLt
        omega
      have next : level + 1 + distance = operator.1 := by omega
      -- First with a right operand of the next level, whatever the left one is.
      have tight : ∀ {right rightTree}, grammar.Derives (level + 1) right rightTree →
          ∃ tree, grammar.Derives level (left ++ token :: right) tree := by
        intro right rightTree inner
        refine first.chain (fun left => ∃ tree, grammar.Derives level (left ++ token :: right) tree)
          below (fun leftInner => ?_) ?_
        · obtain ⟨tree, joined⟩ := inductionHypothesis next leftInner inner
          exact ⟨tree, .tighter below joined⟩
        · rintro _ other _ _ _ _ otherReads sameLevel - outer last
          obtain ⟨tree, joined⟩ := inductionHypothesis next last inner
          obtain ⟨otherLevel, build⟩ := other
          obtain rfl : otherLevel.1 = level := sameLevel
          rw [List.append_assoc, List.cons_append]
          exact ⟨_, .binary otherReads outer joined⟩
      refine second.chain (fun right => ∃ tree, grammar.Derives level (left ++ token :: right) tree)
        below tight ?_
      rintro _ other _ _ _ _ otherReads sameLevel ⟨tree, joinedLeft⟩ _ last
      obtain ⟨otherLevel, build⟩ := other
      obtain rfl : otherLevel.1 = level := sameLevel
      rw [← List.cons_append, ← List.append_assoc]
      exact ⟨_, .binary otherReads joinedLeft last⟩

/-- Every sentence can be read by precedence. -/
theorem Sentence.derives (sentence : grammar.Sentence tokens) :
    ∃ tree, grammar.Derives 0 tokens tree := by
  induction sentence with
  | operand reads => exact ⟨_, Derives.lower (.operand reads) (Nat.zero_le _)⟩
  | group opens closes _ inductionHypothesis =>
      obtain ⟨tree, inner⟩ := inductionHypothesis
      exact ⟨_, Derives.lower (.group opens closes inner) (Nat.zero_le _)⟩
  | unary reads _ inductionHypothesis =>
      obtain ⟨tree, inner⟩ := inductionHypothesis
      exact inner.prefixed reads
  | @binary token operator left right reads _ _ firstHypothesis secondHypothesis =>
      obtain ⟨leftTree, first⟩ := firstHypothesis
      obtain ⟨rightTree, second⟩ := secondHypothesis
      exact first.joined reads operator.1 (Nat.zero_add _) second

end Grammar

end Dynamatic.Parsing
