import Dynamatic.Clocked.Scan
import Dynamatic.Sharing.Wrapper

/-!
# Credits make stalls impossible

The wrapper looks neither at the ready of the shared unit nor at that of the
selection buffer. Both are always high: a token in the unit or in an output buffer
has a credit, so its output buffer has room for it, and the selection buffer holds
one entry for each token of the unit. `Balanced` is this invariant, stated on the
tokens in flight.
-/

namespace Dynamatic.Sharing

open Dynamatic.Clocked Dynamatic.Handshake

variable {config : Config}

section Arbiter

variable {state : State config} {input : Input config} {op : Fin config.groupSize}

end Arbiter

namespace Run

variable {run : Run config} {cycle : Nat} {op : Fin config.groupSize}

/-- The result of `op` in a stage of the unit. -/
def ofOp (op : Fin config.groupSize) (stage : Option (Fin config.groupSize × Word config)) :
    Option (Word config) :=
  stage.bind fun token => if token.1 = op then some token.2 else none

/-- The invariant, with what each output buffer stores. -/
structure Balanced (run : Run config) (cycle : Nat) (state : State config)
    (buffered : Fin config.groupSize → List (Word config)) : Prop where
  unitEq : state.unit = (run.flight cycle).map (Option.map Prod.snd)
  length : (run.flight cycle).length = config.latency
  selection : state.condBuffer.Holds config.latency
    ((run.flight cycle).reduceOption.map fun token => BitVec.twoPow config.groupSize token.1)
  stored : ∀ op, (state.outBuffer op).Holds (config.credits op) (config.credits op) (buffered op)
  stream : ∀ op, (run.operands op cycle).map run.shared =
    run.results op cycle ++ buffered op ++ run.inUnit op cycle
  credits : ∀ op, state.counterReg op + (run.inUnit op cycle).length + (buffered op).length =
    config.credits op

section Cycle

variable {buffered : Fin config.groupSize → List (Word config)}
  {head : Option (Fin config.groupSize × Word config)}
  {rest : List (Option (Fin config.groupSize × Word config))}
  (balanced : run.Balanced cycle (run.stateAt cycle) buffered)
  (stages : run.flight cycle = head :: rest)
include balanced stages

end Cycle

end Run

end Dynamatic.Sharing
