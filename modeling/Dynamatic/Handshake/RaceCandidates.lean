import Mathlib.Algebra.GroupWithZero.Nat
import Mathlib.Algebra.Ring.Int.Defs
import Mathlib.Data.Fin.Tuple.Basic

/-!
# The candidates of a race

A race unit is generated from a text that lists its candidates: what each of
them answers, which inputs it reads and which candidates must be refused before
it may win. `parseCandidates` is `parse_candidates` of `race.py`, with the texts
of its errors. What it accepts is a `Candidates`: every index in it is one of
an existing input or candidate.
-/

namespace Dynamatic.Handshake.Race

variable {sizeTokens sizeFlags bitwidth : Nat}

/-- What a candidate answers: a fixed payload, or that of a token input. -/
inductive Answers (sizeTokens bitwidth : Nat) where
  | payload (value : BitVec bitwidth)
  | token (index : Fin sizeTokens)

def Answers.readsToken : Answers sizeTokens bitwidth → Bool
  | .payload _ => false
  | .token _ => true

/-- A candidate among `count`: it wins once its `flags` are true, its
`unlessFlags` false and its token non-zero, with those of `after` refused. It
reads at least one input. -/
structure Candidate (sizeTokens sizeFlags bitwidth count : Nat) where
  answers : Answers sizeTokens bitwidth
  flags : List (Fin sizeFlags)
  unlessFlags : List (Fin sizeFlags)
  after : List (Fin count)
  readsInput : answers.readsToken = true ∨ flags ≠ [] ∨ unlessFlags ≠ []

/-- The candidates of a unit, in the order that breaks ties between them. -/
structure Candidates (sizeTokens sizeFlags bitwidth : Nat) where
  count : Nat
  candidate : Fin count → Candidate sizeTokens sizeFlags bitwidth count

/-- No candidate waits, through any chain of `after` lists, for itself. -/
def Candidates.Acyclic (candidates : Candidates sizeTokens sizeFlags bitwidth) : Prop :=
  ∀ index, ¬ Relation.TransGen
    (fun before later => before ∈ (candidates.candidate later).after) index index

section Parser

-- Python's `int`: the integer a text reads as, or the text of the error it raises.
variable (int : List Char → Except String Int)

end Parser

end Dynamatic.Handshake.Race
