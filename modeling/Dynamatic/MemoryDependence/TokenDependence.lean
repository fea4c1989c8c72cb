import Dynamatic.MemoryDependence.LoopDepth
import Mathlib.Algebra.Order.BigOperators.Group.Finset

/-!
# Token dependences between instructions

`hasTokenDependence` walks from the block of an instruction back to the block of another one, with
the values that the first depends on, and asks if the second is among them on every walk. A value
stays among them behind the block that computes it. If the walk comes through that block again, its
operands are added again, although the value is the one of the last time.
-/

namespace Dynamatic.MemoryDependence

open Relation

inductive Opcode
  | branch
  | dbgInfo
  | phi
  | other
  deriving DecidableEq

/-- The instructions of the blocks, and their operands. A phi node has one for each predecessor. -/
structure IRFunction (Block Value : Type) where
  instructions : Block → List Value
  predecessors : Block → List Block
  parent : Value → Block
  opcode : Value → Opcode
  operands : Value → List Value
  incoming : Value → Block → Option Value
  isArgumentOrConstant : Value → Bool
  nodup : ∀ bb, (instructions bb).Nodup
  parent_eq : ∀ {inst bb}, inst ∈ instructions bb → parent inst = bb
  /-- A value is computed before it is used. -/
  ordered : ∀ bb, (instructions bb).Pairwise fun inst later =>
    opcode inst ≠ .phi → later ∉ operands inst
  notSelf : ∀ {inst}, opcode inst ≠ .phi → inst ∉ operands inst

/-- The loops of a function, each with one latch. -/
structure CanonicalLoops (Block Loop : Type) extends LoopInfo Block Loop where
  header : Loop → Block
  latch : Loop → Block

/-- The values of a block, and those of its phi nodes for each predecessor. -/
structure BlockVals (Block Value : Type) where
  activeVals : Finset Value
  phiDepends : Block → Finset Value

/-- The blocks of a path, the current one first, with their values. A block that the path passes
again has those of the last time. -/
abbrev CFGPath (Block Value : Type) := List (Block × Finset Value)

namespace IRFunction

variable {Block Value Loop : Type} [DecidableEq Block] [DecidableEq Value]
  (function : IRFunction Block Value)

/-- The values that are instructions. -/
abbrev Inst {Block Value : Type} (function : IRFunction Block Value) :=
  { inst : Value // inst ∈ function.instructions (function.parent inst) }

def operandVals (inst : Value) : Finset Value :=
  ((function.operands inst).filter fun value => !function.isArgumentOrConstant value).toFinset

def incomingVals (inst : Value) (predBB : Block) : Finset Value :=
  ((function.incoming inst predBB).toList.filter fun value =>
    !function.isArgumentOrConstant value).toFinset

/-- What an instruction adds. -/
def visit (inst : Value) (vals : BlockVals Block Value) : BlockVals Block Value :=
  if function.opcode inst = .branch ∨ function.opcode inst = .dbgInfo then vals
  else if inst ∉ vals.activeVals then vals
  else if function.opcode inst = .phi then
    { vals with phiDepends := fun predBB =>
        vals.phiDepends predBB ∪ function.incomingVals inst predBB }
  else { vals with activeVals := vals.activeVals ∪ function.operandVals inst }

/-- The values of a block, from its last instruction to its first. -/
def scan (curBB : Block) (vals : Finset Value) : BlockVals Block Value :=
  (function.instructions curBB).foldr function.visit ⟨vals, fun _ => ∅⟩

/-- The values that the walk goes on with. -/
def carried (curBB : Block) (vals : Finset Value) (predBB : Block) : Finset Value :=
  (function.scan curBB vals).activeVals ∪ (function.scan curBB vals).phiDepends predBB

def inLoopLatches (loops : CanonicalLoops Block Loop) (loopSet : List Loop) (bb : Block) : Bool :=
  loopSet.any fun loop => decide (loops.latch loop = bb)

/-- The predecessors that are not latches, and have not been left with the same values. -/
def validPredBBs (loops : CanonicalLoops Block Loop) (loopSet : List Loop)
    (currentPath : CFGPath Block Value) (curBB : Block) (activeVals : Finset Value) : List Block :=
  (function.predecessors curBB).filter fun predBB =>
    !(inLoopLatches loops loopSet predBB || currentPath.lookup predBB == some activeVals)

/-- `depends &= …` for one predecessor after the other, until one does not. -/
def allDepend (depends : Block → Option Bool) : List Block → Option Bool
  | [] => some true
  | predBB :: predBBs =>
      match depends predBB with
      | none => none
      | some false => some false
      | some true => allDepend depends predBBs

def instructionAlwaysDepends (loops : CanonicalLoops Block Loop) (loopSet : List Loop)
    (srcInst : Value) : Nat → CFGPath Block Value → Option Bool
  | 0, _ => none
  | _ + 1, [] => none
  | fuel + 1, (curBB, vals) :: earlier =>
      if function.parent srcInst = curBB then
        some (decide (srcInst ∈ (function.scan curBB vals).activeVals))
      else
        let predBBs := function.validPredBBs loops loopSet ((curBB, vals) :: earlier) curBB
          (function.scan curBB vals).activeVals
        if predBBs = [] then some false
        else
          allDepend (fun predBB => instructionAlwaysDepends loops loopSet srcInst fuel
            ((predBB, function.carried curBB vals predBB) :: (curBB, vals) :: earlier)) predBBs

/-- The loops around a block. -/
def loopSet (loops : CanonicalLoops Block Loop) (bb : Block) : List Loop :=
  loops.loops.chain (loops.getLoopFor bb)

def hasTokenDependence (loops : CanonicalLoops Block Loop) (fuel : Nat) (dstInst srcInst : Value) :
    Option Bool :=
  function.instructionAlwaysDepends loops (loopSet loops (function.parent dstInst)) srcInst fuel
    [(function.parent dstInst, {dstInst})]

/-! ### The walks of the search -/

section Walks

variable (loops : CanonicalLoops Block Loop) (loopSet : List Loop) (srcInst : Value)

/-- The search goes from a path to a longer one. -/
inductive Extends : CFGPath Block Value → CFGPath Block Value → Prop
  | step {curBB predBB : Block} {vals : Finset Value} {earlier : CFGPath Block Value}
      (goesOn : function.parent srcInst ≠ curBB)
      (valid : predBB ∈ function.validPredBBs loops loopSet ((curBB, vals) :: earlier) curBB
        (function.scan curBB vals).activeVals) :
      Extends ((curBB, vals) :: earlier)
        ((predBB, function.carried curBB vals predBB) :: (curBB, vals) :: earlier)

variable {function loops loopSet srcInst}

end Walks

/-! ### Values -/

section Values

variable {function} {curBB predBB : Block} {vals more : Finset Value}

omit [DecidableEq Block] in
theorem subset_activeVals_visit (inst : Value) (vals : BlockVals Block Value) :
    vals.activeVals ⊆ (function.visit inst vals).activeVals := by
  rw [visit]
  split
  · exact Finset.Subset.refl _
  · split
    · exact Finset.Subset.refl _
    · split
      · exact Finset.Subset.refl _
      · exact Finset.subset_union_left

omit [DecidableEq Block] in
theorem subset_scan : vals ⊆ (function.scan curBB vals).activeVals := by
  rw [scan]
  induction function.instructions curBB with
  | nil => exact Finset.Subset.refl vals
  | cons inst insts inductionHypothesis =>
      exact inductionHypothesis.trans (subset_activeVals_visit inst _)

omit [DecidableEq Block] in
theorem subset_carried :
    (function.scan curBB vals).activeVals ⊆ function.carried curBB vals predBB :=
  Finset.subset_union_left

end Values

/-! ### The end of the search -/

section Termination

variable {function} {loops : CanonicalLoops Block Loop} {loopSet : List Loop} {srcInst : Value}
  {path : CFGPath Block Value}

/-- The values of the current block include those of all earlier ones. -/
def Grown : CFGPath Block Value → Prop
  | [] => False
  | (_, vals) :: earlier => ∀ visited ∈ earlier, visited.2 ⊆ vals

omit [DecidableEq Block] in
theorem Grown.step {curBB predBB : Block} {vals : Finset Value} {earlier : CFGPath Block Value}
    (grown : Grown ((curBB, vals) :: earlier)) :
    Grown ((predBB, function.carried curBB vals predBB) :: (curBB, vals) :: earlier) := by
  have grows : vals ⊆ function.carried curBB vals predBB := subset_scan.trans subset_carried
  refine List.forall_mem_cons.mpr ⟨grows, fun visited mem => ?_⟩
  exact (grown visited mem).trans grows

/-- How much more a block can be left with, before it is left with all values. -/
def room [Fintype Value] : Option (Finset Value) → Nat
  | none => Fintype.card Value + 1
  | some vals => Fintype.card Value - vals.card

end Termination

/-! ### What an instruction depends on -/

/-- What is needed before an instruction, if some values are needed behind it. -/
def need (inst : Value) (vals : BlockVals Block Value) : BlockVals Block Value :=
  if inst ∉ vals.activeVals then vals
  else if function.opcode inst = .phi then
    { activeVals := vals.activeVals.erase inst
      phiDepends := fun predBB => vals.phiDepends predBB ∪ function.incomingVals inst predBB }
  else { vals with activeVals := vals.activeVals.erase inst ∪ function.operandVals inst }

/-- What is needed from a predecessor, if some values are needed behind a block. -/
def needed (bb : Block) (vals : Finset Value) (predBB : Block) : Finset Value :=
  let before := (function.instructions bb).foldr function.need ⟨vals, fun _ => ∅⟩
  before.activeVals ∪ before.phiDepends predBB

/-- The instruction is in the block, and is needed by what is behind it. -/
def Computes (srcInst : Value) (bb : Block) (vals : Finset Value) : Prop :=
  function.parent srcInst = bb ∧
    srcInst ∈ ((((function.instructions bb).dropWhile (· ≠ srcInst)).tail).foldr function.need
      ⟨vals, fun _ => ∅⟩).activeVals

instance (srcInst : Value) (bb : Block) (vals : Finset Value) :
    Decidable (function.Computes srcInst bb vals) :=
  inferInstanceAs (Decidable (_ ∧ _))

/-- The values that are needed behind the blocks of a path, the last block first, depend on what
the instruction computes in one of them. -/
def DependsOn (srcInst : Value) : Finset Value → List Block → Prop
  | _, [] => False
  | vals, [bb] => function.Computes srcInst bb vals
  | vals, bb :: predBB :: earlier =>
      function.Computes srcInst bb vals ∨
        DependsOn srcInst (function.needed bb vals predBB) (predBB :: earlier)

section Paths

variable (loops : CanonicalLoops Block Loop) (dstInst srcInst : Value)

/-- The blocks between two instructions, the last first, along no back edge of a loop around it. -/
structure IsPath (path : List Block) : Prop where
  ends : path.head? = some (function.parent dstInst)
  begins : path.getLast? = some (function.parent srcInst)
  edges : path.IsChain fun bb predBB => predBB ∈ function.predecessors bb
  forward : path.IsChain fun bb predBB => ∀ loop ∈ loopSet loops (function.parent dstInst),
    ¬(bb = loops.header loop ∧ predBB = loops.latch loop)

/-- The query ends, and if its answer is positive, the one instruction depends on the other on all
paths. -/
def Right : Prop :=
  (∃ fuel depends, function.hasTokenDependence loops fuel dstInst srcInst = some depends) ∧
    ∀ fuel, function.hasTokenDependence loops fuel dstInst srcInst = some true →
      ∀ path, function.IsPath loops dstInst srcInst path → function.DependsOn srcInst {dstInst} path

end Paths

section Search

variable {function} {loops : CanonicalLoops Block Loop} {loopSet : List Loop} {srcInst : Value}

end Search

/-! ### Paths that pass no block twice -/

section Once

variable {function} {srcInst : Value}

/-- Values to come that are among those of the search are needed. -/
structure Tracks (toCome : Set Value) (vals neededVals : BlockVals Block Value) : Prop where
  active : ∀ value ∈ vals.activeVals, value ∈ toCome → value ∈ neededVals.activeVals
  phis : ∀ predBB, vals.phiDepends predBB ⊆ neededVals.phiDepends predBB

omit [DecidableEq Block] in
theorem Tracks.step (function : IRFunction Block Value) {toCome : Set Value}
    {vals neededVals : BlockVals Block Value} {inst : Value}
    (tracks : Tracks toCome vals neededVals) (comes : inst ∈ toCome) :
    Tracks (toCome \ {inst}) (function.visit inst vals) (function.need inst neededVals) := by
  have keeps : ∀ value ∈ vals.activeVals, value ∈ toCome \ {inst} →
      value ∈ (function.need inst neededVals).activeVals := by
    rintro value mem ⟨later, differs⟩
    have isNeeded := tracks.active value mem later
    have kept := Finset.mem_erase_of_ne_of_mem differs isNeeded
    rw [need]
    split
    · exact isNeeded
    · split
      · exact kept
      · exact Finset.mem_union_left _ kept
  have keepsPhis : ∀ predBB, vals.phiDepends predBB ⊆
      (function.need inst neededVals).phiDepends predBB := by
    intro predBB
    rw [need]
    split
    · exact tracks.phis predBB
    · split
      · exact (tracks.phis predBB).trans Finset.subset_union_left
      · exact tracks.phis predBB
  rw [visit]
  split
  · exact ⟨keeps, keepsPhis⟩
  · split
    · exact ⟨keeps, keepsPhis⟩
    · rename_i _ mem
      have isNeeded := tracks.active inst (not_not.mp mem) comes
      split
      · rename_i isPhi
        refine ⟨keeps, fun predBB => ?_⟩
        rw [need, if_neg (not_not.mpr isNeeded), if_pos isPhi]
        exact Finset.union_subset_union_left (tracks.phis predBB)
      · rename_i notPhi
        refine ⟨fun value isValue later => ?_, keepsPhis⟩
        rcases Finset.mem_union.mp isValue with isValue | isOperand
        · exact keeps value isValue later
        · rw [need, if_neg (not_not.mpr isNeeded), if_neg notPhi]
          exact Finset.mem_union_right _ isOperand

omit [DecidableEq Block] in
theorem Tracks.foldr (function : IRFunction Block Value) {toCome : Set Value}
    {vals neededVals : BlockVals Block Value} {insts : List Value}
    (tracks : Tracks toCome vals neededVals) (nodup : insts.Nodup)
    (come : ∀ inst ∈ insts, inst ∈ toCome) :
    Tracks (toCome \ {value | value ∈ insts}) (insts.foldr function.visit vals)
      (insts.foldr function.need neededVals) := by
  induction insts with
  | nil =>
      refine ⟨fun value mem later => tracks.active value mem later.1, tracks.phis⟩
  | cons inst insts inductionHypothesis =>
      obtain ⟨first, nodup⟩ := List.nodup_cons.mp nodup
      obtain ⟨comes, come⟩ := List.forall_mem_cons.mp come
      have next := (inductionHypothesis nodup come).step function ⟨comes, first⟩
      refine ⟨fun value mem later => next.active value mem ?_, next.phis⟩
      exact ⟨⟨later.1, fun isLater => later.2 (List.mem_cons_of_mem inst isLater)⟩,
        fun same => later.2 (same ▸ List.mem_cons_self)⟩

end Once

section Main

variable {function} {loops : CanonicalLoops Block Loop}

end Main

/-! ### A loop that loads again -/

section Example

end Example

end IRFunction

end Dynamatic.MemoryDependence
