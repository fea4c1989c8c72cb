import Mathlib.Data.List.Dedup
import Mathlib.Data.List.Perm.Subperm
import Dynamatic.MaximalSSA.Function

/-!
# Threading a value through the blocks

`maximizeSSA` on a value walks back from the blocks that use it to the block that defines
it. Each block on the way gets an argument for the value, and each branch to such a block
passes the value; in the end the uses are replaced by the arguments of their blocks. The
definitions follow `FuncMaximizeSSA.cpp`. The function that the worklist leaves behind has
a closed form, which depends on the set of visited blocks only.
-/

namespace Dynamatic.MaximalSSA

/-- The order in which a set of blocks is iterated over. -/
structure IterationOrder where
  arrange : List Nat → List Nat
  perm : ∀ blocks, (arrange blocks).Perm blocks

namespace Func

variable (func : Func)

/-- A block once for each branch of it that leads to a block. -/
def getPredecessors (block : Nat) : List Nat :=
  (List.range func.blocks.length).flatMap fun pred =>
    ((func.blocks[pred]?.map fun body => body.terminator.successors).getD []).filterMap
      fun successor => if successor.block = block then some pred else none

/-- The blocks with a use of a value, other than the one that defines it. -/
def blocksUsing (value : Value) : List Nat :=
  (List.range func.blocks.length).filter fun block =>
    block ≠ value.getDefiningBlock ∧
      value ∈ (func.blocks[block]?.map Block.operands).getD []

def numArguments (block : Nat) : Nat :=
  (func.blocks[block]?.map fun body => body.arguments.length).getD 0

def addArgument (block type : Nat) : Func where
  blocks := func.blocks.modify block fun body => { body with arguments := body.arguments ++ [type] }

end Func

/-- A value is appended to what a block's branches pass to a successor. -/
def Block.supply (succBlock : Nat) (value : Value) (body : Block) : Block :=
  { body with
    terminator.successors := body.terminator.successors.map fun successor =>
      if successor.block = succBlock then
        { successor with operands := successor.operands ++ [value] }
      else successor }

/-- Adds the value to the successor operands of the predecessor's terminator. -/
def Func.addArgToTerminator (value : Value) (succBlock : Nat) (func : Func) (predBlock : Nat) :
    Except String Func :=
  if (func.blocks[predBlock]?).any (fun body => body.terminator.isBranch) then
    .ok ⟨func.blocks.modify predBlock (Block.supply succBlock value)⟩
  else
    .error "Expected terminator operation of block to be a branch-like operation"

/-- The blocks that use the value so far, and those of them that are still to be visited. -/
structure Worklist where
  blocksUsing : List Nat
  blocksToVisit : List Nat

/-- A predecessor now uses the value, and is to be visited unless it was or defines it. -/
def Worklist.enqueue (defBlock : Nat) (list : Worklist) (predBlock : Nat) : Worklist :=
  if predBlock ≠ defBlock ∧ predBlock ∉ list.blocksUsing then
    ⟨predBlock :: list.blocksUsing, predBlock :: list.blocksToVisit⟩
  else list

structure Progress where
  func : Func
  worklist : Worklist
  blockToArg : Nat → Option Value

section Algorithm

variable (order : IterationOrder) (value : Value) (type : Nat)

/-- The terminator of a predecessor passes the value to a block. -/
def visitPredecessor (block : Nat) (progress : Progress) (predBlock : Nat) :
    Except String Progress := do
  let func ← progress.func.addArgToTerminator value block predBlock
  return { progress with
    func := func
    worklist := progress.worklist.enqueue value.getDefiningBlock predBlock }

/-- A block gets an argument for the value, and its unique predecessors pass it. -/
def visit (block : Nat) (progress : Progress) : Except String Progress :=
  (order.arrange (progress.func.getPredecessors block).dedup).foldlM
    (visitPredecessor value block)
    { progress with
      func := progress.func.addArgument block type
      blockToArg := Function.update progress.blockToArg block
        (some (.argument block (progress.func.numArguments block))) }

/-- Visits blocks until none is left. Each block is visited once at most, so that as many rounds
as there are blocks are enough. -/
def visitAll : Nat → Progress → Except String Progress
  | 0, progress => .ok progress
  | rounds + 1, progress =>
      match progress.worklist.blocksToVisit with
      | [] => .ok progress
      | block :: rest => do
          let visited ← visit order value type block
            { progress with worklist.blocksToVisit := rest }
          visitAll rounds visited

end Algorithm

/-- The operands of a block with some values replaced. -/
def Block.replaceOperands (replace : Value → Value) (body : Block) : Block where
  arguments := body.arguments
  ops := body.ops.map fun op => { op with operands := op.operands.map replace }
  terminator :=
    { body.terminator with
      operands := body.terminator.operands.map replace
      successors := body.terminator.successors.map fun successor =>
        { successor with operands := successor.operands.map replace } }

/-- All uses of a value outside its block become uses of the arguments. -/
def Func.replaceUses (func : Func) (value : Value) (blockToArg : Nat → Option Value) : Func where
  blocks := func.blocks.mapIdx fun block body =>
    if block = value.getDefiningBlock then body
    else body.replaceOperands fun operand =>
      if operand = value then (blockToArg block).getD value else operand

/-- Puts a value into maximal SSA form. -/
def maximizeValue (order : IterationOrder) (func : Func) (value : Value) : Except String Func :=
  match func.typeOf value with
  | none => .ok func
  | some type => do
      let blocks := order.arrange (func.blocksUsing value)
      let progress ← visitAll order value type func.blocks.length
        ⟨func, ⟨blocks, blocks⟩, fun _ => none⟩
      return progress.func.replaceUses value progress.blockToArg

section Predecessors

variable {func : Func} {block pred : Nat}

theorem Func.mem_getPredecessors : pred ∈ func.getPredecessors block ↔ func.Edge pred block := by
  simp only [getPredecessors, Edge, List.mem_flatMap, List.mem_range, List.mem_filterMap]
  constructor
  · rintro ⟨source, inRange, successor, mem, leads⟩
    split at leads
    · rename_i same
      obtain rfl := Option.some.inj leads
      rw [List.getElem?_eq_getElem inRange] at mem
      exact ⟨_, List.getElem?_eq_getElem inRange, successor, mem, same⟩
    · cases leads
  · rintro ⟨body, isBody, successor, mem, same⟩
    refine ⟨pred, (List.getElem?_eq_some_iff.mp isBody).choose, successor, ?_, if_pos same⟩
    rw [isBody]
    exact mem

theorem Func.mem_blocksUsing {value : Value} :
    block ∈ func.blocksUsing value ↔
      block ≠ value.getDefiningBlock ∧ func.Uses block value := by
  rw [blocksUsing, List.mem_filter, List.mem_range, decide_eq_true_eq]
  constructor
  · rintro ⟨inRange, differs, mem⟩
    rw [List.getElem?_eq_getElem inRange] at mem
    exact ⟨differs, _, List.getElem?_eq_getElem inRange, mem⟩
  · rintro ⟨differs, body, isBody, mem⟩
    refine ⟨(List.getElem?_eq_some_iff.mp isBody).choose, differs, ?_⟩
    rw [isBody]
    exact mem

end Predecessors

/-- A block after some blocks have been visited. -/
def Block.thread (value : Value) (type : Nat) (visited : List Nat) (block : Nat) (body : Block) :
    Block :=
  { body with
    arguments := body.arguments ++ if block ∈ visited then [type] else []
    terminator.successors := body.terminator.successors.map fun successor =>
      { successor with
        operands := successor.operands ++ if successor.block ∈ visited then [value] else [] } }

/-- A function after some blocks have been visited. -/
def Func.thread (func : Func) (value : Value) (type : Nat) (visited : List Nat) : Func :=
  ⟨func.blocks.mapIdx (Block.thread value type visited)⟩

section Visits

variable {order : IterationOrder} {func : Func} {value : Value} {type block pred : Nat}
  {visited : List Nat}

theorem Func.getElem?_thread :
    (func.thread value type visited).blocks[block]? =
      func.blocks[block]?.map (Block.thread value type visited block) :=
  List.getElem?_mapIdx

theorem Func.thread_nil : func.thread value type [] = func := by
  have same : Block.thread value type [] = fun _ body => body := by
    funext block body
    simp [Block.thread]
  obtain ⟨blocks⟩ := func
  rw [thread, same]
  exact congrArg Func.mk (List.ext_getElem? fun index => by simp)

theorem Func.edge_thread {target : Nat} :
    (func.thread value type visited).Edge block target ↔ func.Edge block target := by
  simp only [Edge, getElem?_thread, Option.map_eq_some_iff]
  constructor
  · rintro ⟨_, ⟨body, isBody, rfl⟩, successor, mem, leads⟩
    obtain ⟨original, isOriginal, rfl⟩ := List.mem_map.mp mem
    exact ⟨body, isBody, original, isOriginal, leads⟩
  · rintro ⟨body, isBody, successor, mem, leads⟩
    exact ⟨_, ⟨body, isBody, rfl⟩, _, List.mem_map.mpr ⟨successor, mem, rfl⟩, leads⟩

theorem Func.numArguments_thread (fresh : block ∉ visited) :
    (func.thread value type visited).numArguments block = func.numArguments block := by
  rw [numArguments, numArguments, getElem?_thread, Option.map_map]
  congr 2
  funext body
  simp [Block.thread, fresh]

private theorem mapIdx_modify {change : Block → Block} {blocks : List Block} {first : Nat}
    {rest : List Nat} (fresh : first ∉ rest) :
    (blocks.modify first change).mapIdx
        (fun index body => if index ∈ rest then change body else body) =
      blocks.mapIdx fun index body => if index ∈ first :: rest then change body else body := by
  refine List.ext_getElem? fun index => ?_
  rw [List.getElem?_mapIdx, List.getElem?_mapIdx, List.getElem?_modify]
  cases blocks[index]? with
  | none => split <;> rfl
  | some body =>
      rcases eq_or_ne first index with rfl | differs
      · simp [fresh]
      · simp [differs, differs.symm]

/-- The unique predecessors pass the value, and are put on the worklist. -/
theorem foldlM_visitPredecessor (preds : List Nat) (unique : preds.Nodup) (progress : Progress)
    (branches : ∀ pred ∈ preds,
      (progress.func.blocks[pred]?).any (fun body => body.terminator.isBranch) = true) :
    preds.foldlM (visitPredecessor value block) progress = .ok
      ⟨⟨progress.func.blocks.mapIdx fun index body =>
          if index ∈ preds then body.supply block value else body⟩,
        preds.foldl (Worklist.enqueue value.getDefiningBlock) progress.worklist,
        progress.blockToArg⟩ := by
  induction preds generalizing progress with
  | nil =>
      obtain ⟨⟨blocks⟩, worklist, blockToArg⟩ := progress
      refine congrArg Except.ok ?_
      congr
      exact List.ext_getElem? fun index => by simp
  | cons first rest inductionHypothesis =>
      obtain ⟨freshFirst, uniqueRest⟩ := List.nodup_cons.mp unique
      have isBranch := branches first List.mem_cons_self
      rw [List.foldlM_cons, visitPredecessor, Func.addArgToTerminator, if_pos isBranch]
      change rest.foldlM (visitPredecessor value block) _ = _
      rw [inductionHypothesis uniqueRest]
      · exact congrArg (fun blocks => Except.ok (Progress.mk ⟨blocks⟩ _ progress.blockToArg))
          (mapIdx_modify freshFirst)
      · intro pred mem
        have isBranch := branches pred (List.mem_cons_of_mem _ mem)
        have differs : first ≠ pred := fun same => freshFirst (same ▸ mem)
        simpa [List.getElem?_modify, differs] using isBranch

/-- One more block is visited: it gets an argument, and its predecessors pass the value. -/
private theorem Func.thread_cons {preds : List Nat} (fresh : block ∉ visited)
    (complete : ∀ pred, func.Edge pred block → pred ∈ preds) :
    ⟨((func.thread value type visited).addArgument block type).blocks.mapIdx fun index body =>
        if index ∈ preds then body.supply block value else body⟩ =
      func.thread value type (block :: visited) := by
  refine congrArg Func.mk (List.ext_getElem? fun index => ?_)
  rw [List.getElem?_mapIdx, addArgument, List.getElem?_modify, getElem?_thread,
    List.getElem?_mapIdx]
  cases isBody : func.blocks[index]? with
  | none => split <;> rfl
  | some body =>
      have passes : ∀ successor ∈ body.terminator.successors, successor.block = block →
          index ∈ preds := fun successor mem leads =>
        complete index ⟨body, isBody, successor, mem, leads⟩
      have operands : ∀ successor ∈ body.terminator.successors,
          (if successor.block ∈ visited then [value] else []) ++
            (if index ∈ preds ∧ successor.block = block then [value] else []) =
              if successor.block ∈ block :: visited then [value] else [] := by
        intro successor mem
        rcases eq_or_ne successor.block block with same | differs
        · simp [same, fresh, passes successor mem same]
        · simp [differs]
      have supplied : ∀ extended : Block,
          (if index ∈ preds then extended.supply block value else extended) =
            { extended with
              terminator.successors := extended.terminator.successors.map fun successor =>
                { successor with
                  operands := successor.operands ++
                    if index ∈ preds ∧ successor.block = block then [value] else [] } } := by
        intro extended
        split
        · rename_i isPred
          simp only [Block.supply, isPred, true_and]
          congr 3
          funext successor
          split <;> simp
        · rename_i notPred
          simp [notPred]
      refine congrArg some ((supplied _).trans ?_)
      have successors : (body.terminator.successors.map fun successor =>
          { successor with
            operands := successor.operands ++ (if successor.block ∈ visited then [value] else []) ++
              if index ∈ preds ∧ successor.block = block then [value] else [] }) =
          (Block.thread value type (block :: visited) index body).terminator.successors :=
        List.map_congr_left fun successor mem => by
          rw [List.append_assoc, operands successor mem]
      rcases eq_or_ne block index with rfl | differs
      · simp only [reduceIte, Block.thread, List.map_map, fresh, List.mem_cons_self,
          List.append_nil]
        exact congrArg (fun successors => Block.mk _ _ (.mk _ _ _ successors)) successors
      · have notNew : (index ∈ block :: visited) = (index ∈ visited) := by
          simp [differs.symm]
        simp only [if_neg differs, Block.thread, List.map_map, notNew]
        exact congrArg (fun successors => Block.mk _ _ (.mk _ _ _ successors)) successors

variable (order) in
/-- A visit of a block that was not visited before. -/
theorem visit_eq (progress : Progress) (isFunc : progress.func = func.thread value type visited)
    (fresh : block ∉ visited)
    (branches : ∀ {block : Nat} {body : Block}, func.blocks[block]? = some body →
      body.terminator.successors ≠ [] → body.terminator.isBranch = true) :
    ∃ preds : List Nat, (∀ pred, pred ∈ preds ↔ func.Edge pred block) ∧
      visit order value type block progress = .ok
        ⟨func.thread value type (block :: visited),
          preds.foldl (Worklist.enqueue value.getDefiningBlock) progress.worklist,
          Function.update progress.blockToArg block
            (some (.argument block (func.numArguments block)))⟩ := by
  obtain ⟨current, worklist, blockToArg⟩ := progress
  obtain rfl : current = func.thread value type visited := isFunc
  let preds := order.arrange ((func.thread value type visited).getPredecessors block).dedup
  have arranged := order.perm ((func.thread value type visited).getPredecessors block).dedup
  have isPred : ∀ pred, pred ∈ preds ↔ func.Edge pred block := fun pred => by
    rw [arranged.mem_iff, List.mem_dedup, Func.mem_getPredecessors, Func.edge_thread]
  refine ⟨preds, isPred, ?_⟩
  rw [visit, foldlM_visitPredecessor _ (arranged.nodup_iff.mpr (List.nodup_dedup _)),
    Func.thread_cons fresh fun pred edge => (isPred pred).mpr edge,
    Func.numArguments_thread fresh]
  intro pred mem
  obtain ⟨body, isBody, successor, leads, _⟩ := (isPred pred).mp mem
  have isBranch := branches isBody (List.ne_nil_of_mem leads)
  rw [Func.addArgument, List.getElem?_modify, Func.getElem?_thread, isBody]
  split <;> exact isBranch

end Visits

/-- What the walk knows of its blocks: each gets to a use of the value past the block that
defines it. -/
structure Worklist.Valid (func : Func) (value : Value) (visited : List Nat) (list : Worklist) :
    Prop where
  unique : (visited ++ list.blocksToVisit).Nodup
  isUsing : ∀ block, block ∈ list.blocksUsing ↔ block ∈ visited ++ list.blocksToVisit
  inRange : ∀ block ∈ list.blocksUsing, block < func.blocks.length
  reaches : ∀ block ∈ list.blocksUsing,
    ∃ user, func.Avoiding value.getDefiningBlock block user ∧ func.Uses user value

/-- The blocks that the walk has visited in the end. -/
structure Visited (func : Func) (value : Value) (visited : List Nat) : Prop where
  uses : ∀ block, func.Uses block value → block ≠ value.getDefiningBlock → block ∈ visited
  closed : ∀ block ∈ visited, ∀ pred, func.Edge pred block →
    pred = value.getDefiningBlock ∨ pred ∈ visited
  reaches : ∀ block ∈ visited,
    ∃ user, func.Avoiding value.getDefiningBlock block user ∧ func.Uses user value

section Walk

variable {order : IterationOrder} {func : Func} {value : Value} {type block pred : Nat}
  {visited preds : List Nat} {list : Worklist}

theorem Func.Edge.lt {target : Nat} (edge : func.Edge block target) : block < func.blocks.length := by
  obtain ⟨body, isBody, _⟩ := edge
  exact (List.getElem?_eq_some_iff.mp isBody).choose

theorem Func.Avoiding.ne {avoided last : Nat} (path : func.Avoiding avoided block last) :
    block ≠ avoided := by
  cases path with
  | refl differs => exact differs
  | step differs _ _ => exact differs

theorem Worklist.Valid.initial : Worklist.Valid func value []
    ⟨order.arrange (func.blocksUsing value), order.arrange (func.blocksUsing value)⟩ := by
  have arranged := order.perm (func.blocksUsing value)
  refine ⟨arranged.nodup_iff.mpr (List.nodup_range.filter _), fun _ => Iff.rfl, ?_, ?_⟩
  · intro block mem
    obtain ⟨_, body, isBody, _⟩ := Func.mem_blocksUsing.mp (arranged.mem_iff.mp mem)
    exact (List.getElem?_eq_some_iff.mp isBody).choose
  · intro block mem
    obtain ⟨differs, uses⟩ := Func.mem_blocksUsing.mp (arranged.mem_iff.mp mem)
    exact ⟨block, .refl differs, uses⟩

/-- The block on top of the stack is visited. -/
theorem Worklist.Valid.pop {rest : List Nat} (valid : Worklist.Valid func value visited list)
    (top : list.blocksToVisit = block :: rest) :
    Worklist.Valid func value (block :: visited) ⟨list.blocksUsing, rest⟩ := by
  have moved : (block :: visited ++ rest).Perm (visited ++ list.blocksToVisit) := by
    rw [top]
    exact List.perm_middle.symm
  exact ⟨moved.nodup_iff.mpr valid.unique,
    fun other => (valid.isUsing other).trans moved.mem_iff.symm, valid.inRange, valid.reaches⟩

theorem Worklist.Valid.enqueue (valid : Worklist.Valid func value visited list)
    (mem : block ∈ visited) (edge : func.Edge pred block) :
    Worklist.Valid func value visited (list.enqueue value.getDefiningBlock pred) := by
  rw [Worklist.enqueue]
  split
  · rename_i new
    obtain ⟨differs, fresh⟩ := new
    obtain ⟨user, path, uses⟩ :=
      valid.reaches block ((valid.isUsing block).mpr (List.mem_append_left _ mem))
    refine ⟨?_, ?_, ?_, ?_⟩
    · refine List.perm_middle.nodup_iff.mpr (List.nodup_cons.mpr ⟨?_, valid.unique⟩)
      exact fun mem => fresh ((valid.isUsing pred).mpr mem)
    · intro other
      rw [List.perm_middle.mem_iff, List.mem_cons, List.mem_cons, valid.isUsing]
    · rw [List.forall_mem_cons]
      exact ⟨edge.lt, valid.inRange⟩
    · rw [List.forall_mem_cons]
      exact ⟨⟨user, .step differs edge path, uses⟩, valid.reaches⟩
  · exact valid

theorem Worklist.subset_enqueue (defBlock : Nat) :
    list.blocksUsing ⊆ (list.enqueue defBlock pred).blocksUsing := by
  rw [enqueue]
  split
  · exact List.subset_cons_self _ _
  · exact List.Subset.refl _

theorem Worklist.enqueue_mem (defBlock : Nat) :
    pred = defBlock ∨ pred ∈ (list.enqueue defBlock pred).blocksUsing := by
  rw [enqueue]
  split
  · exact .inr List.mem_cons_self
  · rename_i kept
    exact or_iff_not_imp_left.mpr fun differs => not_not.mp fun fresh => kept ⟨differs, fresh⟩

theorem Worklist.subset_foldl (defBlock : Nat) :
    list.blocksUsing ⊆ (preds.foldl (Worklist.enqueue defBlock) list).blocksUsing := by
  induction preds generalizing list with
  | nil => exact List.Subset.refl _
  | cons first rest inductionHypothesis =>
      exact List.Subset.trans (subset_enqueue defBlock) inductionHypothesis

/-- All predecessors of a visited block are put on the worklist. -/
theorem Worklist.Valid.foldl (valid : Worklist.Valid func value visited list)
    (mem : block ∈ visited) (edges : ∀ pred ∈ preds, func.Edge pred block) :
    Worklist.Valid func value visited
        (preds.foldl (Worklist.enqueue value.getDefiningBlock) list) ∧
      ∀ pred ∈ preds, pred = value.getDefiningBlock ∨
        pred ∈ (preds.foldl (Worklist.enqueue value.getDefiningBlock) list).blocksUsing := by
  induction preds generalizing list with
  | nil => exact ⟨valid, fun _ mem => absurd mem List.not_mem_nil⟩
  | cons first rest inductionHypothesis =>
      rw [List.forall_mem_cons] at edges
      obtain ⟨validRest, restUsing⟩ := inductionHypothesis (valid.enqueue mem edges.1) edges.2
      have firstUsing : first = value.getDefiningBlock ∨
          first ∈ (list.enqueue value.getDefiningBlock first).blocksUsing :=
        Worklist.enqueue_mem _
      rw [List.foldl_cons, List.forall_mem_cons]
      exact ⟨validRest, firstUsing.imp_right fun mem => Worklist.subset_foldl _ mem, restUsing⟩

/-- No more blocks are visited than there are. -/
theorem Worklist.Valid.length_le (valid : Worklist.Valid func value visited list) :
    visited.length + list.blocksToVisit.length ≤ func.blocks.length := by
  have subset : visited ++ list.blocksToVisit ⊆ List.range func.blocks.length :=
    fun block mem => List.mem_range.mpr (valid.inRange block ((valid.isUsing block).mpr mem))
  have le := (List.subperm_of_subset valid.unique subset).length_le
  rwa [List.length_append, List.length_range] at le

/-- What holds between the visits. -/
structure Progress.Invariant (func : Func) (value : Value) (type : Nat) (visited : List Nat)
    (progress : Progress) : Prop where
  isFunc : progress.func = func.thread value type visited
  isArg : ∀ block, progress.blockToArg block =
    if block ∈ visited then some (.argument block (func.numArguments block)) else none
  valid : progress.worklist.Valid func value visited
  closed : ∀ block ∈ visited, ∀ pred, func.Edge pred block →
    pred = value.getDefiningBlock ∨ pred ∈ progress.worklist.blocksUsing
  uses : ∀ block, func.Uses block value → block ≠ value.getDefiningBlock →
    block ∈ progress.worklist.blocksUsing

/-- When the worklist is empty, all blocks that use the value have been visited. -/
theorem Progress.Invariant.isVisited {progress : Progress}
    (invariant : progress.Invariant func value type visited)
    (empty : progress.worklist.blocksToVisit = []) : Visited func value visited := by
  have isUsing : ∀ block, block ∈ progress.worklist.blocksUsing ↔ block ∈ visited := fun block => by
    rw [invariant.valid.isUsing, empty, List.append_nil]
  refine ⟨fun block uses differs => (isUsing block).mp (invariant.uses block uses differs), ?_, ?_⟩
  · exact fun block mem pred edge =>
      (invariant.closed block mem pred edge).imp_right (isUsing pred).mp
  · exact fun block mem => invariant.valid.reaches block ((isUsing block).mpr mem)

variable (order) in
theorem Progress.Invariant.visit {progress : Progress} {rest : List Nat}
    (invariant : progress.Invariant func value type visited)
    (top : progress.worklist.blocksToVisit = block :: rest)
    (branches : ∀ {block : Nat} {body : Block}, func.blocks[block]? = some body →
      body.terminator.successors ≠ [] → body.terminator.isBranch = true) :
    ∃ next : Progress, MaximalSSA.visit order value type block
        { progress with worklist.blocksToVisit := rest } = .ok next ∧
      next.Invariant func value type (block :: visited) := by
  have popped := invariant.valid.pop top
  have fresh : block ∉ visited := (List.nodup_cons.mp popped.unique).1 ∘ List.mem_append_left _
  obtain ⟨preds, isPred, visits⟩ := visit_eq order
    { progress with worklist.blocksToVisit := rest } invariant.isFunc fresh branches
  obtain ⟨valid, predsUsing⟩ :=
    popped.foldl List.mem_cons_self fun pred mem => (isPred pred).mp mem
  have grows : progress.worklist.blocksUsing ⊆
      (preds.foldl (Worklist.enqueue value.getDefiningBlock)
        ⟨progress.worklist.blocksUsing, rest⟩).blocksUsing :=
    @Worklist.subset_foldl preds ⟨progress.worklist.blocksUsing, rest⟩ _
  refine ⟨_, visits, rfl, ?_, valid, ?_, ?_⟩
  · intro other
    rcases eq_or_ne other block with rfl | differs
    · simp
    · simp [differs, invariant.isArg]
  · rw [List.forall_mem_cons]
    refine ⟨fun pred edge => predsUsing pred ((isPred pred).mpr edge), ?_⟩
    exact fun other mem pred edge =>
      (invariant.closed other mem pred edge).imp_right fun mem => grows mem
  · exact fun other uses differs => grows (invariant.uses other uses differs)

variable (order) in
/-- The walk ends with an empty worklist. -/
theorem Progress.Invariant.visitAll (rounds : Nat) {progress : Progress}
    (invariant : progress.Invariant func value type visited)
    (branches : ∀ {block : Nat} {body : Block}, func.blocks[block]? = some body →
      body.terminator.successors ≠ [] → body.terminator.isBranch = true)
    (enough : func.blocks.length ≤ visited.length + rounds) :
    ∃ (final : Progress) (all : List Nat),
      MaximalSSA.visitAll order value type rounds progress = .ok final ∧
      final.Invariant func value type all ∧ final.worklist.blocksToVisit = [] := by
  induction rounds generalizing progress visited with
  | zero =>
      have bound := invariant.valid.length_le
      exact ⟨progress, visited, rfl, invariant, List.length_eq_zero_iff.mp (by omega)⟩
  | succ rounds inductionHypothesis =>
      rw [MaximalSSA.visitAll]
      split
      · rename_i empty
        exact ⟨progress, visited, rfl, invariant, empty⟩
      · rename_i block rest top
        obtain ⟨next, visits, invariantNext⟩ := invariant.visit order top branches
        rw [visits]
        exact inductionHypothesis invariantNext (by rw [List.length_cons]; omega)

end Walk

/-- A use of the value in a visited block becomes one of the argument. -/
def Func.substitute (func : Func) (value : Value) (visited : List Nat) (block : Nat)
    (operand : Value) : Value :=
  if operand = value ∧ block ∈ visited then .argument block (func.numArguments block) else operand

/-- A function in which a value has been threaded through some blocks. -/
def Func.maximized (func : Func) (value : Value) (type : Nat) (visited : List Nat) : Func where
  blocks := func.blocks.mapIdx fun block body =>
    (Block.thread value type visited block body).replaceOperands
      (func.substitute value visited block)

theorem Block.replaceOperands_id (body : Block) : body.replaceOperands (fun operand => operand) = body := by
  simp [replaceOperands]

/-- Putting a value into maximal SSA form succeeds, and threads it through the blocks between its
block and its uses. -/
theorem maximizeValue_eq (order : IterationOrder) {func : Func} {value : Value} {type : Nat}
    (isType : func.typeOf value = some type)
    (branches : ∀ {block : Nat} {body : Block}, func.blocks[block]? = some body →
      body.terminator.successors ≠ [] → body.terminator.isBranch = true) :
    ∃ visited, Visited func value visited ∧
      maximizeValue order func value = .ok (func.maximized value type visited) := by
  let blocks := order.arrange (func.blocksUsing value)
  have initial : Progress.Invariant func value type [] ⟨func, ⟨blocks, blocks⟩, fun _ => none⟩ := by
    refine ⟨Func.thread_nil.symm, fun _ => rfl, .initial, ?_, fun block uses differs => ?_⟩
    · exact fun _ mem => absurd mem List.not_mem_nil
    · exact (order.perm _).mem_iff.mpr (Func.mem_blocksUsing.mpr ⟨differs, uses⟩)
  obtain ⟨final, visited, visits, invariant, empty⟩ :=
    initial.visitAll order func.blocks.length branches (Nat.le_add_left _ _)
  have isVisited := invariant.isVisited empty
  refine ⟨visited, isVisited, ?_⟩
  rw [maximizeValue, isType]
  change (MaximalSSA.visitAll order value type func.blocks.length _ >>= _) = _
  rw [visits]
  refine congrArg (fun blocks => Except.ok (Func.mk blocks)) (List.ext_getElem? fun block => ?_)
  rw [List.getElem?_mapIdx, List.getElem?_mapIdx, invariant.isFunc, Func.getElem?_thread,
    Option.map_map]
  congr 1
  funext body
  have unvisited : value.getDefiningBlock ∉ visited := fun mem => by
    obtain ⟨_, path, _⟩ := isVisited.reaches _ mem
    exact path.ne rfl
  simp only [Function.comp_apply]
  split
  · rename_i defines
    have same : func.substitute value visited block = fun operand => operand := by
      funext operand
      simp [Func.substitute, defines, unvisited]
    rw [same, Block.replaceOperands_id]
  · congr 1
    funext operand
    rw [Func.substitute, invariant.isArg]
    by_cases isOperand : operand = value <;> by_cases mem : block ∈ visited <;>
      simp [isOperand, mem]

end Dynamatic.MaximalSSA
