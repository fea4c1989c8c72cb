import Mathlib.Algebra.GroupWithZero.Nat
import Mathlib.Algebra.Ring.Int.Defs
import Mathlib.Data.List.Forall2

/-!
# Function bodies with structured and unstructured control

The part of the IR that the numeric analysis reads: blocks with arguments, additions,
comparisons, `scf.while` and `scf.for` with their regions, and cf branches. An
execution goes from point to point, each time giving values to the arguments of a block
or to the results of an operation. Every integer is kept by its signed reading.
-/

namespace Dynamatic.Numeric

/-- A place of the program: an operation of a block, or the terminator behind them. -/
structure Point where
  block : Nat
  position : Nat
  deriving DecidableEq, Repr

def Point.next (point : Point) : Point := ⟨point.block, point.position + 1⟩

/-- What gets values together: the arguments of a block or the results of an operation. -/
inductive Owner where
  | arguments (block : Nat)
  | results (op : Point)
  deriving DecidableEq, Repr

/-- Where execution is once the owner has its values. -/
def Owner.point : Owner → Point
  | arguments block => ⟨block, 0⟩
  | results op => op.next

/-- Where execution starts. -/
def start : Point := ⟨0, 0⟩

/-- An SSA value, by the number it has among those of its owner. -/
structure Value where
  owner : Owner
  number : Nat
  deriving DecidableEq, Repr

/-- The type of a value; all but the integers and the index are `other`. -/
inductive ValueType where
  | integer (width : Nat)
  | other
  deriving DecidableEq, Repr

inductive CmpIPredicate where
  | eq | ne | slt | sle | sgt | sge | ult | ule | ugt | uge
  deriving DecidableEq, Repr

/-- The operations before a terminator. The regions of any other operation may run in
any order, with any arguments. -/
inductive Op where
  | constant (value : Int)
  | addi (lhs rhs : Value)
  | cmpi (predicate : CmpIPredicate) (lhs rhs : Value)
  | whileOp (inits : List Value) (before after : Nat)
  | forOp (lowerBound upperBound step : Value) (inits : List Value) (body : Nat)
  | other (regions : List Nat)
  deriving DecidableEq, Repr

def Op.operands : Op → List Value
  | constant _ => []
  | addi lhs rhs => [lhs, rhs]
  | cmpi _ lhs rhs => [lhs, rhs]
  | whileOp inits _ _ => inits
  | forOp lowerBound upperBound step inits _ => lowerBound :: upperBound :: step :: inits
  | other _ => []

/-- The blocks that the operation enters. -/
def Op.regions : Op → List Nat
  | whileOp _ before after => [before, after]
  | forOp _ _ _ _ body => [body]
  | other regions => regions
  | _ => []

inductive Terminator where
  | br (dest : Nat) (operands : List Value)
  | condBr (condition : Value) (trueDest : Nat) (trueOperands : List Value) (falseDest : Nat)
      (falseOperands : List Value)
  /-- The end of the before region of a while loop. -/
  | condition (condition : Value) (args : List Value)
  | yield (operands : List Value)
  | other (successors : List Nat)
  deriving DecidableEq, Repr

def Terminator.operands : Terminator → List Value
  | br _ operands => operands
  | condBr flag _ trueOperands _ falseOperands => flag :: trueOperands ++ falseOperands
  | condition flag args => flag :: args
  | yield operands => operands
  | other _ => []

def Terminator.successors : Terminator → List Nat
  | br dest _ => [dest]
  | condBr _ trueDest _ falseDest _ => [trueDest, falseDest]
  | other successors => successors
  | _ => []

/-- A block, with the operation whose region it is in, if it is not of the function. -/
structure Block where
  parent : Option Point
  numArguments : Nat
  operations : List Op
  terminator : Terminator
  deriving DecidableEq, Repr

/-- A function body with the types of its values; block 0 is the entry. -/
structure Body where
  blocks : List Block
  type : Value → ValueType

/-- What each value was last given, if anything. -/
abbrev Env := Value → Option Int

/-- Where a given value comes from. -/
inductive Source where
  | operand (value : Value)
  | word (word : Int)
  | unknown
  deriving DecidableEq, Repr

section Words

/-- The word fits in the type by its signed reading. -/
def ValueType.Fits (type : ValueType) (word : Int) : Prop :=
  match type with
  | .integer width => Int.bmod word (2 ^ width) = word
  | .other => True

/-- What a value of the type keeps of a word. -/
def ValueType.keep (type : ValueType) (word : Int) : Int :=
  match type with
  | .integer width => Int.bmod word (2 ^ width)
  | .other => word

theorem ValueType.keep_of_fits {type : ValueType} {word : Int} (fits : type.Fits word) :
    type.keep word = word := by
  cases type with
  | integer width => exact fits
  | other => rfl

theorem ValueType.fits_keep (type : ValueType) (word : Int) : type.Fits (type.keep word) := by
  cases type with
  | integer width => exact Int.bmod_bmod
  | other => trivial

/-- The unsigned reading of a word. -/
def ValueType.unsigned (type : ValueType) (word : Int) : Int :=
  match type with
  | .integer width => word % 2 ^ width
  | .other => word

/-- What the comparison says of two words of a type. -/
def CmpIPredicate.holds (predicate : CmpIPredicate) (type : ValueType) (lhs rhs : Int) : Bool :=
  match predicate with
  | eq => lhs = rhs
  | ne => lhs ≠ rhs
  | slt => lhs < rhs
  | sle => lhs ≤ rhs
  | sgt => lhs > rhs
  | sge => lhs ≥ rhs
  | ult => type.unsigned lhs < type.unsigned rhs
  | ule => type.unsigned lhs ≤ type.unsigned rhs
  | ugt => type.unsigned lhs > type.unsigned rhs
  | uge => type.unsigned lhs ≥ type.unsigned rhs

/-- A bit, by the signed reading of an `i1`. -/
def bit (set : Bool) : Int := if set then -1 else 0

end Words

namespace Body

variable (body : Body)

def opAt (point : Point) : Option Op :=
  (body.blocks[point.block]?).bind fun block => block.operations[point.position]?

/-- The terminator of a block. -/
def terminator (block : Nat) : Option Terminator := body.blocks[block]?.map Block.terminator

/-- The terminator, when execution is at it. -/
def terminatorAt (point : Point) : Option Terminator :=
  (body.blocks[point.block]?).bind fun block =>
    if point.position = block.operations.length then some block.terminator else none

def parent (block : Nat) : Option Point := body.blocks[block]?.bind Block.parent

/-- The operation whose region a block is in. -/
def parentOp (block : Nat) : Option Op := (body.parent block).bind body.opAt

/-- The operation that defines the value, if it is not a block argument. -/
def definingOp (value : Value) : Option Op :=
  match value.owner with
  | .arguments _ => none
  | .results op => body.opAt op

def successors (block : Nat) : List Nat :=
  ((body.terminator block).map Terminator.successors).getD []

/-- The predecessors of a block, once for every edge. -/
def predecessors (block : Nat) : List Nat :=
  (List.range body.blocks.length).flatMap fun pred =>
    (body.successors pred).filterMap fun succ => if succ = block then some pred else none

variable {body} in
theorem mem_predecessors {block pred : Nat} :
    pred ∈ body.predecessors block ↔ block ∈ body.successors pred := by
  simp only [predecessors, List.mem_flatMap, List.mem_filterMap, List.mem_range]
  constructor
  · rintro ⟨other, -, succ, isSucc, same⟩
    split at same
    · rename_i isBlock
      exact Option.some.inj same ▸ isBlock ▸ isSucc
    · cases same
  · intro isSucc
    refine ⟨pred, ?_, block, isSucc, if_pos rfl⟩
    by_contra outside
    simp [successors, terminator, List.getElem?_eq_none (Nat.not_lt.mp outside)] at isSucc

/-- From a point and an environment, who gets values next and from where. -/
inductive Goes (point : Point) (env : Env) : Owner → List Source → Prop where
  | constant {value : Int} (op : body.opAt point = some (.constant value)) :
      Goes point env (.results point) [.word value]
  | addi {lhs rhs : Value} {left right : Int} (op : body.opAt point = some (.addi lhs rhs))
      (isLeft : env lhs = some left) (isRight : env rhs = some right) :
      Goes point env (.results point) [.word (left + right)]
  | cmpi {predicate : CmpIPredicate} {lhs rhs : Value} {left right : Int}
      (op : body.opAt point = some (.cmpi predicate lhs rhs))
      (isLeft : env lhs = some left) (isRight : env rhs = some right) :
      Goes point env (.results point) [.word (bit (predicate.holds (body.type lhs) left right))]
  | other {regions : List Nat} (op : body.opAt point = some (.other regions)) (count : Nat) :
      Goes point env (.results point) (List.replicate count .unknown)
  | otherEnter {regions : List Nat} {block : Nat} (op : body.opAt point = some (.other regions))
      (enters : block ∈ regions) (count : Nat) :
      Goes point env (.arguments block) (List.replicate count .unknown)
  | whileEnter {inits : List Value} {before after : Nat}
      (op : body.opAt point = some (.whileOp inits before after)) :
      Goes point env (.arguments before) (inits.map .operand)
  | whileTrue {condition : Value} {args inits : List Value} {before after : Nat} {flag : Int}
      (terminator : body.terminatorAt point = some (.condition condition args))
      (op : body.parentOp point.block = some (.whileOp inits before after))
      (isFlag : env condition = some flag) (set : flag ≠ 0) :
      Goes point env (.arguments after) (args.map .operand)
  | whileFalse {condition : Value} {args inits : List Value} {before after : Nat} {loop : Point}
      (terminator : body.terminatorAt point = some (.condition condition args))
      (parent : body.parent point.block = some loop)
      (op : body.opAt loop = some (.whileOp inits before after))
      (isFlag : env condition = some 0) :
      Goes point env (.results loop) (args.map .operand)
  | whileYield {operands inits : List Value} {before after : Nat}
      (terminator : body.terminatorAt point = some (.yield operands))
      (op : body.parentOp point.block = some (.whileOp inits before after)) :
      Goes point env (.arguments before) (operands.map .operand)
  | forEnter {lowerBound upperBound step : Value} {inits : List Value} {block : Nat}
      {lower upper : Int}
      (op : body.opAt point = some (.forOp lowerBound upperBound step inits block))
      (isLower : env lowerBound = some lower) (isUpper : env upperBound = some upper)
      (runs : lower < upper) :
      Goes point env (.arguments block) (.operand lowerBound :: inits.map .operand)
  | forSkip {lowerBound upperBound step : Value} {inits : List Value} {block : Nat}
      {lower upper : Int}
      (op : body.opAt point = some (.forOp lowerBound upperBound step inits block))
      (isLower : env lowerBound = some lower) (isUpper : env upperBound = some upper)
      (skips : upper ≤ lower) :
      Goes point env (.results point) (inits.map .operand)
  | forYield {operands inits : List Value} {lowerBound upperBound step : Value} {block : Nat}
      {current upper stride : Int}
      (terminator : body.terminatorAt point = some (.yield operands))
      (op : body.parentOp point.block = some (.forOp lowerBound upperBound step inits block))
      (isCurrent : env ⟨.arguments block, 0⟩ = some current)
      (isUpper : env upperBound = some upper) (isStride : env step = some stride)
      (forward : 0 < stride) (more : current + stride < upper) :
      Goes point env (.arguments block) (.word (current + stride) :: operands.map .operand)
  | forDone {operands inits : List Value} {lowerBound upperBound step : Value} {block : Nat}
      {current upper stride : Int} {loop : Point}
      (terminator : body.terminatorAt point = some (.yield operands))
      (parent : body.parent point.block = some loop)
      (op : body.opAt loop = some (.forOp lowerBound upperBound step inits block))
      (isCurrent : env ⟨.arguments block, 0⟩ = some current)
      (isUpper : env upperBound = some upper) (isStride : env step = some stride)
      (done : upper ≤ current + stride) :
      Goes point env (.results loop) (operands.map .operand)
  | otherYield {regions : List Nat} {terminator : Terminator} {loop : Point}
      (terminates : body.terminatorAt point = some terminator)
      (parent : body.parent point.block = some loop)
      (op : body.opAt loop = some (.other regions)) (leaves : terminator.successors = [])
      (count : Nat) :
      Goes point env (.results loop) (List.replicate count .unknown)
  | otherAgain {regions : List Nat} {terminator : Terminator} {block : Nat}
      (terminates : body.terminatorAt point = some terminator)
      (op : body.parentOp point.block = some (.other regions)) (enters : block ∈ regions)
      (leaves : terminator.successors = []) (count : Nat) :
      Goes point env (.arguments block) (List.replicate count .unknown)
  | br {dest : Nat} {operands : List Value}
      (terminator : body.terminatorAt point = some (.br dest operands)) :
      Goes point env (.arguments dest) (operands.map .operand)
  | condTrue {condition : Value} {trueDest falseDest : Nat}
      {trueOperands falseOperands : List Value} {flag : Int}
      (terminator : body.terminatorAt point =
        some (.condBr condition trueDest trueOperands falseDest falseOperands))
      (isFlag : env condition = some flag) (set : flag ≠ 0) :
      Goes point env (.arguments trueDest) (trueOperands.map .operand)
  | condFalse {condition : Value} {trueDest falseDest : Nat}
      {trueOperands falseOperands : List Value}
      (terminator : body.terminatorAt point =
        some (.condBr condition trueDest trueOperands falseDest falseOperands))
      (isFlag : env condition = some 0) :
      Goes point env (.arguments falseDest) (falseOperands.map .operand)
  | jump {dest : Nat} {successors : List Nat}
      (terminator : body.terminatorAt point = some (.other successors)) (goes : dest ∈ successors)
      (count : Nat) :
      Goes point env (.arguments dest) (List.replicate count .unknown)

/-- The values that are read at a point. -/
def uses (point : Point) : List Value :=
  ((body.opAt point).map Op.operands).getD [] ++
    ((body.terminatorAt point).map Terminator.operands).getD []

/-- Some path of the control flow reaches the point before the owner has its values. -/
inductive Avoids (owner : Owner) : Point → Prop where
  | start (given : owner ≠ .arguments 0) : Avoids owner start
  | step {point : Point} {env : Env} {other : Owner} {sources : List Source}
      (avoids : Avoids owner point) (goes : body.Goes point env other sources)
      (differs : owner ≠ other) : Avoids owner other.point

/-- What the IR verifier promises: definitions dominate their uses, types agree, regions
belong to their operations and end as these expect, and no branch enters a region or
the function. -/
structure Verified : Prop where
  dominance : ∀ point value, value ∈ body.uses point → ¬ body.Avoids value.owner point
  operandType : ∀ {point env owner sources number value}, body.Goes point env owner sources →
    sources[number]? = some (.operand value) → body.type value = body.type ⟨owner, number⟩
  constantType : ∀ {point value}, body.opAt point = some (.constant value) →
    (body.type ⟨.results point, 0⟩).Fits value
  cmpType : ∀ {point predicate lhs rhs}, body.opAt point = some (.cmpi predicate lhs rhs) →
    body.type lhs = body.type rhs ∧ body.type ⟨.results point, 0⟩ = .integer 1
  forType : ∀ {point lowerBound upperBound step inits block},
    body.opAt point = some (.forOp lowerBound upperBound step inits block) →
      body.type upperBound = body.type ⟨.arguments block, 0⟩
  regionParent : ∀ {point op block}, body.opAt point = some op → block ∈ op.regions →
    body.parent block = some point
  whileRegions : ∀ {point inits before after},
    body.opAt point = some (.whileOp inits before after) →
      (∃ condition args, body.terminator before = some (.condition condition args)) ∧
      (∃ operands, body.terminator after = some (.yield operands)) ∧
      ∀ block, body.parent block = some point → block = before ∨ block = after
  forRegion : ∀ {point lowerBound upperBound step inits block},
    body.opAt point = some (.forOp lowerBound upperBound step inits block) →
      (∃ operands, body.terminator block = some (.yield operands) ∧
        operands.length = inits.length) ∧
      ∀ other, body.parent other = some point → other = block
  entryParent : body.parent 0 = none
  branches : ∀ {block succ}, succ ∈ body.successors block →
    succ ≠ 0 ∧ ∀ point op, body.opAt point = some op → succ ∉ op.regions

end Body

/-- The words that the sources stand for. -/
def Source.Gives (env : Env) (source : Source) (word : Int) : Prop :=
  match source with
  | .operand value => env value = some word
  | .word exact => word = exact
  | .unknown => True

/-- The owner's values get words, each kept in its type. -/
def Env.receive (type : Value → ValueType) (env : Env) (owner : Owner) (words : List Int) : Env :=
  fun value =>
    if value.owner = owner then
      match words[value.number]? with
      | some word => some ((type value).keep word)
      | none => env value
    else env value

theorem Env.receive_of_ne {type : Value → ValueType} {env : Env} {owner : Owner}
    {words : List Int} {value : Value} (differs : value.owner ≠ owner) :
    env.receive type owner words value = env value := if_neg differs

namespace Body

variable (body : Body)

/-- The points and environments of the runs whose steps all meet a condition. -/
inductive Reaches (Meets : Point → Env → Prop) : Point → Env → Prop where
  | start (arguments : List Int) :
      Reaches Meets Numeric.start (Env.receive body.type (fun _ => none) (.arguments 0) arguments)
  | step {point : Point} {env : Env} {owner : Owner} {sources : List Source} {words : List Int}
      (reaches : Reaches Meets point env) (meets : Meets point env)
      (goes : body.Goes point env owner sources)
      (gives : List.Forall₂ (Source.Gives env) sources words) :
      Reaches Meets owner.point (env.receive body.type owner words)

variable {body} {Meets : Point → Env → Prop} {point : Point} {env : Env}

/-- Whatever a value holds fits in its type. -/
theorem Reaches.fits (reaches : body.Reaches Meets point env) {value : Value} {word : Int}
    (has : env value = some word) : (body.type value).Fits word := by
  induction reaches with
  | start arguments =>
      simp only [Env.receive] at has
      split at has
      · split at has
        · rw [← Option.some.inj has]
          exact ValueType.fits_keep _ _
        · cases has
      · cases has
  | step _ _ _ _ inductionHypothesis =>
      simp only [Env.receive] at has
      split at has
      · split at has
        · rw [← Option.some.inj has]
          exact ValueType.fits_keep _ _
        · exact inductionHypothesis has
      · exact inductionHypothesis has

/-- What a value holds was given to it in a step of the run, or is an argument of the
function. -/
theorem Reaches.origin (reaches : body.Reaches Meets point env) {value : Value} {word : Int}
    (has : env value = some word) (inner : value.owner ≠ .arguments 0) :
    ∃ point env sources source given, body.Reaches Meets point env ∧ Meets point env ∧
      body.Goes point env value.owner sources ∧ sources[value.number]? = some source ∧
      source.Gives env given ∧ word = (body.type value).keep given := by
  induction reaches with
  | start arguments => simp [Env.receive, inner] at has
  | @step point env owner sources words reaches meets goes gives inductionHypothesis =>
      by_cases owns : value.owner = owner
      · subst owns
        simp only [Env.receive, if_true] at has
        split at has
        · rename_i given isGiven
          have long : value.number < sources.length := by
            rw [gives.length_eq]
            exact (List.getElem?_eq_some_iff.mp isGiven).1
          refine ⟨point, env, sources, sources[value.number], given, reaches, meets, goes,
            List.getElem?_eq_getElem long, ?_, (Option.some.inj has).symm⟩
          have holds := gives.get long (gives.length_eq ▸ long)
          obtain ⟨bound, same⟩ := List.getElem?_eq_some_iff.mp isGiven
          simpa [same] using holds
        · exact inductionHypothesis has
      · rw [Env.receive_of_ne owns] at has
        exact inductionHypothesis has

section Dominance

variable {op : Point} {predicate : CmpIPredicate} {lhs rhs : Value} {owner : Owner}
  {sources : List Source}

theorem Goes.of_cmpi (goes : body.Goes point env (.results op) sources)
    (isCmp : body.opAt op = some (.cmpi predicate lhs rhs)) :
    op = point ∧ ∃ left right, env lhs = some left ∧ env rhs = some right ∧
      sources = [.word (bit (predicate.holds (body.type lhs) left right))] := by
  cases goes <;> simp_all

theorem uses_of_cmpi (isCmp : body.opAt op = some (.cmpi predicate lhs rhs)) :
    lhs ∈ body.uses op ∧ rhs ∈ body.uses op := by
  simp [uses, isCmp, Op.operands]

/-- A path that avoids an operand of an operation avoids the operation. -/
theorem Avoids.of_use (verified : body.Verified) {value : Value}
    (isCmp : body.opAt op = some (.cmpi predicate lhs rhs)) (use : value ∈ body.uses op)
    (avoids : body.Avoids value.owner point) : body.Avoids (.results op) point := by
  induction avoids with
  | start given => exact .start nofun
  | @step point env other sources avoids goes differs inductionHypothesis =>
      refine inductionHypothesis.step goes ?_
      rintro rfl
      obtain ⟨rfl, -⟩ := goes.of_cmpi isCmp
      exact verified.dominance op value use avoids

/-- Giving an operand its first value leaves the operation avoided. -/
theorem Avoids.of_given (verified : body.Verified) {value : Value}
    (isCmp : body.opAt op = some (.cmpi predicate lhs rhs)) (use : value ∈ body.uses op)
    (avoids : body.Avoids value.owner point) (goes : body.Goes point env value.owner sources) :
    body.Avoids (.results op) value.owner.point := by
  refine (avoids.of_use verified isCmp use).step goes ?_
  intro owns
  rw [← owns] at goes
  obtain ⟨rfl, -⟩ := goes.of_cmpi isCmp
  exact verified.dominance op value use avoids

/-- Once an operand has been given, the place where it is given can be reached without
the operation. -/
theorem Reaches.avoids_use (verified : body.Verified) (reaches : body.Reaches Meets point env)
    {value : Value} (isCmp : body.opAt op = some (.cmpi predicate lhs rhs))
    (use : value ∈ body.uses op) :
    body.Avoids value.owner point ∨ body.Avoids (.results op) value.owner.point := by
  induction reaches with
  | start arguments =>
      by_cases given : value.owner = .arguments 0
      · rw [given]
        exact .inr (.start nofun)
      · exact .inl (.start given)
  | @step point env owner sources words reaches meets goes gives inductionHypothesis =>
      rcases inductionHypothesis with avoids | before
      · by_cases owns : value.owner = owner
        · subst owns
          exact .inr (avoids.of_given verified isCmp use goes)
        · exact .inl (avoids.step goes owns)
      · exact .inr before

/-- Where a comparison must have been computed, its result is that of the values its
operands hold. -/
theorem Reaches.compared (verified : body.Verified) (reaches : body.Reaches Meets point env)
    (isCmp : body.opAt op = some (.cmpi predicate lhs rhs))
    (computed : ¬ body.Avoids (.results op) point) {flag : Int}
    (isFlag : env ⟨.results op, 0⟩ = some flag) :
    ∃ left right, env lhs = some left ∧ env rhs = some right ∧
      flag = bit (predicate.holds (body.type lhs) left right) := by
  induction reaches with
  | start arguments => exact absurd (.start nofun) computed
  | @step point env owner sources words reaches meets goes gives inductionHypothesis =>
      obtain ⟨useLeft, useRight⟩ := uses_of_cmpi isCmp
      have kept : ∀ value ∈ body.uses op, value.owner ≠ owner := by
        rintro value use rfl
        refine computed ?_
        rcases reaches.avoids_use verified isCmp use with avoids | before
        · exact avoids.of_given verified isCmp use goes
        · exact before
      rw [Env.receive_of_ne (kept lhs useLeft), Env.receive_of_ne (kept rhs useRight)]
      by_cases owns : Owner.results op = owner
      · subst owns
        obtain ⟨rfl, left, right, isLeft, isRight, rfl⟩ := goes.of_cmpi isCmp
        refine ⟨left, right, isLeft, isRight, ?_⟩
        obtain ⟨word, rest, given, none, rfl⟩ := List.forall₂_cons_left_iff.mp gives
        obtain rfl := List.forall₂_nil_left_iff.mp none
        simp only [Env.receive, if_true] at isFlag
        have word : word = bit (predicate.holds (body.type lhs) left right) := given
        rw [(verified.cmpType isCmp).2] at isFlag
        rw [← Option.some.inj isFlag, word]
        cases predicate.holds (body.type lhs) left right <;> rfl
      · rw [Env.receive_of_ne owns] at isFlag
        exact inductionHypothesis (fun avoids => computed (avoids.step goes owns)) isFlag

end Dominance

end Body

end Dynamatic.Numeric
