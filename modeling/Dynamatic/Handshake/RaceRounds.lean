import Dynamatic.Handshake.Race
import Dynamatic.Numerals

/-!
# The rounds of a race

`Tracks` relates the registers of a race to the token streams of its run: `seen`
marks the inputs one token ahead of the round, `emitted` an answer one ahead of
it, and `hasWin` an answer that was decided in an earlier cycle and waits for
the sink. Every cycle either keeps a round open or completes it; both preserve
the relation, and the contract is read off it.
-/

namespace Dynamatic.Handshake.Race

open Dynamatic.Clocked

variable {sizeTokens sizeFlags bitwidth : Nat}

namespace Run

variable {run : Run sizeTokens sizeFlags bitwidth} {cycle round : Nat}

/-- What the registers hold at the start of `cycle`, in terms of the streams. -/
structure Tracks (run : Run sizeTokens sizeFlags bitwidth) (cycle : Nat)
    (state : State sizeTokens sizeFlags bitwidth) (round : Nat) : Prop where
  count : ∀ source, run.receivedCount source cycle = round + (state.seen source).toNat
  token : ∀ index, state.seen (.inl index) = true →
    (run.receivedTokens index cycle)[round]? = some (state.tval index)
  flag : ∀ index, state.seen (.inr index) = true →
    (run.receivedFlags index cycle)[round]? = some (state.fval index)
  sentLength : (run.sent cycle).length = round + state.emitted.toNat
  winner : state.emitted = false → state.hasWin = true →
    ∃ decided < cycle, run.FirstWin run.Opened round decided state.winner
  noWinner : state.emitted = false → state.hasWin = false →
    ∀ earlier < cycle, run.Opened round earlier →
      ∀ number, ¬ Wins (run.arrived round earlier) run.candidates number

section Cycle

variable (tracks : run.Tracks cycle (run.stateAt cycle) round)
include tracks

end Cycle

/-- `int` on the digits of a natural number. -/
def decimal (text : List Char) : Except String Int :=
  if text ≠ [] ∧ text.all Char.isDigit then
    .ok (text.foldl (fun number digit => 10 * number + (digit.toNat - '0'.toNat)) 0)
  else
    let quoted := String.ofList text
    .error s!"invalid literal for int() with base 10: '{quoted}'"

open Numerals in
/-- Two candidates over two flags. The second wins round 0 while the sink stalls;
the answer is taken and the round closed in cycle 1, in which the second flag
also gives its next token; the first flag's next token comes in cycle 2. -/
def overtaken : Run 0 2 2 where
  candidates :=
    { count := 2
      candidate := Fin.cons ⟨.payload 1, [0], [], [], by simp⟩
        (Fin.cons ⟨.payload 2, [1], [], [], by simp⟩ Fin.elim0) }
  reopenAfterTaken := false
  inputs
    | 0 => ⟨Fin.elim0, Fin.elim0, fun _ => true, fun index => index == 1, false⟩
    | 1 => ⟨Fin.elim0, Fin.elim0, fun index => index == 1, fun _ => true, true⟩
    | 2 => ⟨Fin.elim0, Fin.elim0, fun _ => true, fun index => index == 0, true⟩
    | _ => ⟨Fin.elim0, Fin.elim0, fun _ => false, fun _ => false, true⟩

end Run

end Dynamatic.Handshake.Race
