import Dynamatic.Numeric.Body

/-!
# How blocks are entered

Where the arguments of a block come from: into a region only from the operation that
has it, or from the end of one of its regions; into any other block over a branch.
-/

namespace Dynamatic.Numeric

variable {body : Body} {point : Point} {env : Env} {block : Nat} {sources : List Source}

section Loops

variable {inits : List Value} {before after : Nat} {owner : Point}

end Loops

end Dynamatic.Numeric
