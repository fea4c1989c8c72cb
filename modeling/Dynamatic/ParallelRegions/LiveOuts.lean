import Dynamatic.ParallelRegions.Accesses
import Mathlib.Algebra.GroupWithZero.Nat

/-!
# Values that leave a segment

`isFreeToLeave` follows a block argument back through the predecessors of its block, and
`hasLiveOut` asks it of each value that one segment hands to another one. A computed
value that a segment only passes on itself, before it hands it over, is never found to
be free. What a third segment passes on is not asked for.
-/

namespace Dynamatic.ParallelRegions

namespace Function

variable (function : Function)

/-- What the predecessors hand to a block argument; `none` when this cannot be told. -/
def incoming (owner argNumber : Nat) : List (Option Value) :=
  (function.predecessors owner).flatMap fun pred =>
    if (function.terminator pred).isBranch then
      ((function.terminator pred).edges.filter fun edge => edge.block = owner).map fun edge =>
        edge.operands[argNumber]?.join
    else [none]

def isConstant (val : Value) : Bool :=
  (function.definingOp val).any fun op => op.kind = .constant

/-- No operation reads the value. -/
def useEmpty (val : Value) : Bool :=
  (List.range function.blocks.length).all fun block =>
    (function.operations block).all (fun op => val ∉ op.operands) &&
      val ∉ (function.terminator block).allOperands

/-- Enough for a walk that visits no block argument twice. -/
def depth : Nat := (function.blocks.map Block.numArguments).sum + 2

end Function

section Definitions

variable {function : Function}

/-- The value is an argument of a block of the segment, or produced in one. -/
def definedIn (val : Value) (seg : Segment function) : Bool := val.block ∈ seg.blocks

/-- One incoming value of a block argument, unless a former one was not free. -/
def visitIncoming (walk : List Value → Value → Bool × List Value) (val : Value) :
    Bool × List Value → Option Value → Bool × List Value
  | (false, visiting), _ => (false, visiting)
  | (true, visiting), none => (false, visiting)
  | (true, visiting), some incoming =>
      if incoming = val then (true, visiting) else walk visiting incoming

/-- Whether a value that leaves the segment costs the next one nothing, and the block
arguments visited. A cycle among block arguments only copies itself. -/
def isFreeToLeave (seg : Segment function) : Nat → List Value → Value → Bool × List Value
  | 0, visiting, _ => (false, visiting)
  | depth + 1, visiting, val =>
      if definedIn val seg = false then (true, visiting)
      else
        match val with
        | .opResult _ _ _ => (function.isConstant val, visiting)
        | .blockArgument owner argNumber =>
            if val ∈ visiting then (true, visiting)
            else
              (function.incoming owner argNumber).foldl
                (visitIncoming (isFreeToLeave seg depth) val) (true, val :: visiting)

/-- The value is computed in the segment and not free to leave it. -/
def crosses (earlier : Segment function) (val : Value) : Bool :=
  definedIn val earlier && !(isFreeToLeave earlier function.depth [] val).1

/-- Whether the later segment uses a value that the earlier one computes. -/
def hasLiveOut (earlier later : Segment function) : Bool :=
  later.blocks.any fun block =>
    (((function.predecessors block).filter fun pred => pred ∈ earlier.blocks).any fun pred =>
      !(function.terminator pred).isBranch ||
        ((function.terminator pred).edges.filter fun edge => edge.block = block).any fun edge =>
          (List.range (function.numArguments block)).any fun argIdx =>
            !function.useEmpty (.blockArgument block argIdx) &&
              edge.operands[argIdx]?.join.any (crosses earlier)) ||
    (function.operations block).any (fun op => op.operands.any (crosses earlier)) ||
    (function.terminator block).allOperands.any (crosses earlier)

end Definitions

section Flows

variable (function : Function)

/-- A block hands a value to an argument of a successor. -/
structure Function.Hands (pred : Nat) (val arg : Value) : Prop where
  edge : ∃ edge ∈ (function.terminator pred).edges, ∃ argNumber,
    arg = .blockArgument edge.block argNumber ∧
      argNumber < function.numArguments edge.block ∧
      edge.operands[argNumber]? = some (some val)

/-- The value arrives at another one through block arguments. -/
inductive Function.Flows (val : Value) : Value → Prop where
  | refl : Flows val val
  | step {via arg : Value} {pred : Nat} (flows : Flows val via)
      (hands : function.Hands pred via arg) : Flows val arg

/-- The result of an operation that is not a constant, which the lowering makes wherever
it is needed. -/
def Function.Computed (val : Value) : Prop :=
  ∃ op, function.definingOp val = some op ∧ op.kind ≠ .constant

/-- An operation of the block reads the value, other than to hand it on. -/
def Function.Consumes (block : Nat) (val : Value) : Prop :=
  (∃ op ∈ function.operations block, val ∈ op.operands) ∨
    val ∈ (function.terminator block).operands

variable {function}

/-- The value arrives through block arguments of one segment. -/
inductive Stays (seg : Segment function) (val : Value) : Value → Prop where
  | refl (inside : definedIn val seg = true) : Stays seg val val
  | step {via arg : Value} {pred : Nat} (stays : Stays seg val via)
      (hands : function.Hands pred via arg) (inside : definedIn arg seg = true) :
      Stays seg val arg

end Flows

section Walk

variable {function : Function} {seg : Segment function} {val : Value}

/-- Nothing that the segment computed is in the value, as far as the visited block arguments
settle it. -/
def Settles (seg : Segment function) (visiting : List Value) (val : Value) : Prop :=
  definedIn val seg = false ∨ function.isConstant val = true ∨ val ∈ visiting

/-- What is handed to a block argument settles. -/
def Settled (seg : Segment function) (visiting : List Value) (val : Value) : Prop :=
  ∃ owner argNumber, val = .blockArgument owner argNumber ∧
    ∀ incoming ∈ function.incoming owner argNumber, ∃ other, incoming = some other ∧
      Settles seg visiting other

theorem Settles.mono {visiting more : List Value} (settles : Settles seg visiting val)
    (subset : visiting ⊆ more) : Settles seg more val :=
  settles.imp_right (Or.imp_right fun mem => subset mem)

theorem Settled.mono {visiting more : List Value} (settled : Settled seg visiting val)
    (subset : visiting ⊆ more) : Settled seg more val := by
  obtain ⟨owner, argNumber, rfl, settles⟩ := settled
  refine ⟨owner, argNumber, rfl, fun incoming mem => ?_⟩
  obtain ⟨other, rfl, settles⟩ := settles incoming mem
  exact ⟨other, rfl, settles.mono subset⟩

/-- A walk that finds a value free settles it and the block arguments that it visited. -/
structure Walked (seg : Segment function) (visiting found : List Value) : Prop where
  subset : visiting ⊆ found
  settled : ∀ val ∈ found, val ∈ visiting ∨ Settled seg found val

theorem Walked.refl (visiting : List Value) : Walked seg visiting visiting :=
  ⟨List.Subset.refl _, fun _ mem => .inl mem⟩

theorem Walked.trans {visiting middle found : List Value} (first : Walked seg visiting middle)
    (second : Walked seg middle found) : Walked seg visiting found := by
  refine ⟨List.Subset.trans first.subset second.subset, fun val mem => ?_⟩
  obtain before | settled := second.settled val mem
  · exact (first.settled val before).imp_right fun settled => settled.mono second.subset
  · exact .inr settled

private theorem foldl_visitIncoming_false {walk : List Value → Value → Bool × List Value}
    (incomings : List (Option Value)) (visiting : List Value) :
    incomings.foldl (visitIncoming walk val) (false, visiting) = (false, visiting) := by
  induction incomings with
  | nil => rfl
  | cons first rest inductionHypothesis => exact inductionHypothesis

private theorem foldl_visitIncoming {walk : List Value → Value → Bool × List Value}
    {incomings : List (Option Value)} {visiting found : List Value}
    (recurse : ∀ {visiting found other}, walk visiting other = (true, found) →
      Walked seg visiting found ∧ Settles seg found other)
    (inside : val ∈ visiting)
    (visits : incomings.foldl (visitIncoming walk val) (true, visiting) = (true, found)) :
    Walked seg visiting found ∧
      ∀ incoming ∈ incomings, ∃ other, incoming = some other ∧ Settles seg found other := by
  induction incomings generalizing visiting with
  | nil =>
      cases visits
      exact ⟨.refl _, nofun⟩
  | cons first rest inductionHypothesis =>
      rw [List.foldl_cons] at visits
      cases first with
      | none =>
          rw [visitIncoming, foldl_visitIncoming_false] at visits
          cases visits
      | some incoming =>
          rw [visitIncoming] at visits
          split at visits
          · rename_i own
            obtain ⟨walked, settles⟩ := inductionHypothesis inside visits
            refine ⟨walked, List.forall_mem_cons.mpr ⟨⟨incoming, rfl, ?_⟩, settles⟩⟩
            exact .inr (.inr (own ▸ walked.subset inside))
          · cases walks : walk visiting incoming with
            | mk free middle =>
                rw [walks] at visits
                cases free with
                | false =>
                    rw [foldl_visitIncoming_false] at visits
                    cases visits
                | true =>
                    obtain ⟨before, first⟩ := recurse walks
                    obtain ⟨walked, settles⟩ := inductionHypothesis (before.subset inside) visits
                    refine ⟨before.trans walked, List.forall_mem_cons.mpr ⟨?_, settles⟩⟩
                    exact ⟨incoming, rfl, first.mono walked.subset⟩

theorem isFreeToLeave_walked {depth : Nat} {visiting found : List Value}
    (free : isFreeToLeave seg depth visiting val = (true, found)) :
    Walked seg visiting found ∧ Settles seg found val := by
  induction depth generalizing visiting found val with
  | zero => cases free
  | succ depth inductionHypothesis =>
      simp only [isFreeToLeave] at free
      split at free
      · rename_i outside
        cases free
        exact ⟨.refl _, .inl outside⟩
      · cases val with
        | opResult owner position resultNumber =>
            obtain ⟨constant, rfl⟩ := Prod.mk.inj free
            exact ⟨.refl _, .inr (.inl constant)⟩
        | blockArgument owner argNumber =>
            simp only at free
            split at free
            · rename_i seen
              cases free
              exact ⟨.refl _, .inr (.inr seen)⟩
            · obtain ⟨walked, settles⟩ :=
                foldl_visitIncoming inductionHypothesis (.head _) free
              have inFound := walked.subset (.head _)
              refine ⟨⟨List.Subset.trans (List.subset_cons_self _ _) walked.subset, fun other mem => ?_⟩,
                .inr (.inr inFound)⟩
              obtain before | settled := walked.settled other mem
              · cases before with
                | head => exact .inr ⟨owner, argNumber, rfl, settles⟩
                | tail _ before => exact .inl before
              · exact .inr settled

theorem Function.mem_predecessors_of_edge (function : Function) {pred : Nat} {edge : Edge}
    (isEdge : edge ∈ (function.terminator pred).edges) :
    pred ∈ function.predecessors edge.block := by
  refine function.mem_predecessors.mpr ⟨?_, List.mem_map.mpr ⟨edge, isEdge, rfl⟩⟩
  by_contra outside
  rw [terminator, List.getElem?_eq_none (Nat.le_of_not_lt outside)] at isEdge
  cases isEdge

theorem Function.Hands.mem_incoming {pred owner argNumber : Nat}
    (hands : function.Hands pred val (.blockArgument owner argNumber)) :
    some val ∈ function.incoming owner argNumber ∨ none ∈ function.incoming owner argNumber := by
  obtain ⟨edge, isEdge, number, same, _, operand⟩ := hands
  obtain ⟨rfl, rfl⟩ := Value.blockArgument.inj same
  have isPred := function.mem_predecessors_of_edge isEdge
  simp only [incoming, List.mem_flatMap]
  cases branch : (function.terminator pred).isBranch with
  | true =>
      refine .inl ⟨pred, isPred, ?_⟩
      rw [if_pos branch]
      refine List.mem_map.mpr ⟨edge, List.mem_filter.mpr ⟨isEdge, decide_eq_true rfl⟩, ?_⟩
      rw [operand, Option.join_some]
  | false =>
      refine .inr ⟨pred, isPred, ?_⟩
      rw [if_neg (by simp [branch])]
      exact .head _

theorem Stays.inside {via : Value} (stays : Stays seg val via) : definedIn via seg = true := by
  cases stays with
  | refl inside => exact inside
  | step _ _ inside => exact inside

theorem Stays.start {via : Value} (stays : Stays seg val via) : definedIn val seg = true := by
  induction stays with
  | refl inside => exact inside
  | step _ _ _ inductionHypothesis => exact inductionHypothesis

/-- A closed set of block arguments does not settle what a computed value becomes. -/
theorem Stays.not_settles {found : List Value} {via : Value} (computed : function.Computed val)
    (closed : ∀ other ∈ found, Settled seg found other) (stays : Stays seg val via) :
    ¬ Settles seg found via := by
  induction stays with
  | refl inside =>
      obtain ⟨op, defines, kind⟩ := computed
      rintro (outside | constant | mem)
      · exact absurd inside (Bool.eq_false_iff.mp outside)
      · simp [Function.isConstant, defines, kind] at constant
      · obtain ⟨_, _, rfl, _⟩ := closed _ mem
        cases defines
  | step stays hands inside inductionHypothesis =>
      obtain ⟨edge, _, argNumber, rfl, _⟩ := hands.edge
      rintro (outside | constant | mem)
      · exact absurd inside (Bool.eq_false_iff.mp outside)
      · cases constant
      · obtain ⟨_, _, same, settles⟩ := closed _ mem
        cases same
        obtain told | unknown := hands.mem_incoming
        · obtain ⟨_, same, settles⟩ := settles _ told
          cases same
          exact inductionHypothesis settles
        · obtain ⟨_, same, _⟩ := settles _ unknown
          cases same

/-- What a computed value becomes inside its segment is not free to leave it. -/
theorem Stays.crosses {via : Value} (computed : function.Computed val)
    (stays : Stays seg val via) : crosses seg via = true := by
  rw [ParallelRegions.crosses, stays.inside, Bool.true_and, Bool.not_eq_true']
  cases walks : isFreeToLeave seg function.depth [] via with
  | mk free found =>
      cases free with
      | false => rfl
      | true =>
          obtain ⟨walked, settles⟩ := isFreeToLeave_walked walks
          have closed : ∀ other ∈ found, Settled seg found other := fun other mem =>
            (walked.settled other mem).resolve_left List.not_mem_nil
          exact absurd settles (stays.not_settles computed closed)

end Walk

section LiveOut

variable {function : Function} {earlier later : Segment function} {val consumed : Value}
  {block : Nat}

end LiveOut

end Dynamatic.ParallelRegions
