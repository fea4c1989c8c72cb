import Dynamatic.CfgAnnotation.Restore

/-!
# Where the operations are placed

Each index of the list gets the block at its position, with the operations tagged
with it in their order; what is tagged with no index stays in the first block.
-/

namespace Dynamatic.CfgAnnotation.HandshakeFunc

variable {Op : Type} [DecidableEq Op] {function : HandshakeFunc Op}

/-- Moving operations one after another takes them out of their blocks and puts them at the
end of the last one. -/
theorem foldl_moveBefore {moved : List Op} (nodup : moved.Nodup) (placing : Placing Op) :
    moved.foldl Placing.moveBefore placing =
      { placing with
        made := placing.made.map fun block => block.filter fun op => decide (op ∉ moved)
        current := (placing.current.filter fun op => decide (op ∉ moved)) ++ moved } := by
  induction moved generalizing placing with
  | nil => simp
  | cons op moved inductionHypothesis =>
      obtain ⟨notAgain, nodupRest⟩ := List.nodup_cons.mp nodup
      have twice : ∀ block : List Op,
          (block.filter fun other => decide (other ≠ op)).filter (fun other => decide (other ∉ moved)) =
            block.filter fun other => decide (other ∉ op :: moved) := by
        intro block
        rw [List.filter_filter]
        refine List.filter_congr fun other _ => ?_
        simp [Bool.and_comm]
      have kept : ([op].filter fun other => decide (other ∉ moved)) = [op] := by simp [notAgain]
      rw [List.foldl_cons, inductionHypothesis nodupRest]
      simp only [Placing.moveBefore, List.map_map, List.filter_append, twice, kept,
        List.append_assoc, List.singleton_append]
      congr 1
      exact List.map_congr_left fun block _ => twice block

/-- The operations tagged with an index, in their order. -/
def taggedWith (function : HandshakeFunc Op) (ops : List Op) (blockIndex : Nat) : List Op :=
  ops.filter fun op => decide (function.opBlock op = blockIndex)

/-- The operations that the indices passed leave in the first block. -/
def leftOver (function : HandshakeFunc Op) (ops : List Op) (passed : List Nat) : List Op :=
  ops.filter fun op => decide (function.opBlock op ∉ passed)

/-- The blocks that the indices passed make. -/
def placed (function : HandshakeFunc Op) (ops : List Op) : List Nat → List (List Op)
  | [] => [ops]
  | first :: later =>
      (function.leftOver ops (first :: later) ++ function.taggedWith ops first) ::
        later.map (function.taggedWith ops)

/-- The map from numbers to positions after a block was opened behind each index passed. -/
def openedFor (passed : List Nat) : Nat → Option Nat :=
  passed.zipIdx.foldl (fun indexToBlock (blockIndex, position) =>
      if (indexToBlock (blockIndex + 1)).isSome then indexToBlock
      else Function.update indexToBlock (blockIndex + 1) (some (position + 1)))
    (Function.update (fun _ => none) 0 (some 0))

theorem openedFor_range (size key : Nat) :
    openedFor (List.range size) key = if key ≤ size then some key else none := by
  induction size generalizing key with
  | zero => by_cases zero : key = 0 <;> simp [openedFor, zero]
  | succ size inductionHypothesis =>
      have fresh : openedFor (List.range size) (size + 1) = none := by
        rw [inductionHypothesis, if_neg (Nat.not_succ_le_self size)]
      have step : openedFor (List.range (size + 1)) =
          Function.update (openedFor (List.range size)) (size + 1) (some (size + 1)) := by
        rw [openedFor, List.range_succ, List.zipIdx_append, List.foldl_append, ← openedFor]
        simp [fresh]
      rw [step]
      by_cases here : key = size + 1
      · simp [here]
      · rw [Function.update_of_ne here, inductionHypothesis]
        have same : key ≤ size + 1 ↔ key ≤ size := by omega
        simp only [same]

variable {ops : List Op}

theorem moveTagged_eq (nodup : ops.Nodup) (blockIndex : Nat) (placing : Placing Op) :
    function.moveTagged ops blockIndex placing =
      { placing with
        made := placing.made.map fun block =>
          block.filter fun op => decide (op ∉ function.taggedWith ops blockIndex)
        current := (placing.current.filter fun op =>
          decide (op ∉ function.taggedWith ops blockIndex)) ++
            function.taggedWith ops blockIndex } := by
  have listed : function.moveTagged ops blockIndex placing =
      (function.taggedWith ops blockIndex).foldl Placing.moveBefore placing := by
    rw [taggedWith, List.foldl_filter, moveTagged]
    simp
  have nodupTagged : (function.taggedWith ops blockIndex).Nodup := nodup.filter _
  rw [listed, foldl_moveBefore nodupTagged]

omit [DecidableEq Op] in
theorem mem_taggedWith {blockIndex : Nat} {op : Op} :
    op ∈ function.taggedWith ops blockIndex ↔ op ∈ ops ∧ function.opBlock op = blockIndex := by
  simp [taggedWith]

/-- The operations of another index stay when those of an index are moved. -/
theorem taggedWith_stays {blockIndex other : Nat} (apart : other ≠ blockIndex) :
    (function.taggedWith ops other).filter
        (fun op => decide (op ∉ function.taggedWith ops blockIndex)) =
      function.taggedWith ops other := by
  refine List.filter_eq_self.mpr fun op mem => ?_
  have tag := (mem_taggedWith.mp mem).2
  simp [mem_taggedWith, tag, apart]

theorem leftOver_leaves (passed : List Nat) (blockIndex : Nat) :
    (function.leftOver ops passed).filter
        (fun op => decide (op ∉ function.taggedWith ops blockIndex)) =
      function.leftOver ops (passed ++ [blockIndex]) := by
  rw [leftOver, leftOver, List.filter_filter]
  refine List.filter_congr fun op mem => ?_
  simp [mem_taggedWith, mem, Bool.and_comm]

/-- The state between the indices passed and the next: the last block is still the one under
analysis. -/
structure Between (function : HandshakeFunc Op) (ops : List Op) (passed : List Nat)
    (placing : Placing Op) : Prop where
  blocks : placing.made ++ [placing.current] = function.placed ops passed
  index : placing.indexToBlock = openedFor passed.dropLast

theorem between_first (nodup : ops.Nodup) (first : Nat) :
    function.Between ops [first] (function.moveTagged ops first
      { made := [], current := ops, indexToBlock := Function.update (fun _ => none) 0 (some 0) }) := by
  rw [moveTagged_eq nodup]
  refine ⟨?_, rfl⟩
  have left : (ops.filter fun op => decide (op ∉ function.taggedWith ops first)) =
      function.leftOver ops [first] :=
    List.filter_congr fun op mem => by simp [mem_taggedWith, mem]
  simp only [placed, List.map_nil, List.nil_append, left]

theorem Between.next (nodup : ops.Nodup) {first last next : Nat} {passed : List Nat}
    {placing : Placing Op} (between : function.Between ops (first :: passed) placing)
    (isLast : (first :: passed).getLast? = some last) (fresh : next ∉ first :: passed) :
    function.Between ops (first :: (passed ++ [next]))
      (function.moveTagged ops next (placing.addBlock last)) := by
  have blocks := between.blocks
  have length : placing.made.length = passed.length := by
    have same := congrArg List.length blocks
    simpa [placed] using same
  rw [moveTagged_eq nodup]
  refine ⟨?_, ?_⟩
  · simp only [Placing.addBlock, blocks, List.filter_nil, List.nil_append, placed, List.map_cons,
      List.filter_append, List.cons_append, List.map_append, List.map_map, List.map_nil]
    have apart : first ≠ next := fun same => fresh (same ▸ List.mem_cons_self)
    have staysFirst : (function.taggedWith ops first).filter
        (fun op => decide (op ∉ function.taggedWith ops next)) = function.taggedWith ops first :=
      taggedWith_stays apart
    rw [leftOver_leaves, staysFirst]
    congr 2
    refine List.map_congr_left fun index mem => taggedWith_stays ?_
    rintro rfl
    exact fresh (List.mem_cons_of_mem _ mem)
  · have whole : (first :: passed).dropLast ++ [last] = first :: passed :=
      List.dropLast_append_getLast? last isLast
    have dropped : (first :: (passed ++ [next])).dropLast = first :: passed := by
      rw [← List.cons_append, List.dropLast_concat]
    rw [dropped, ← whole, openedFor, List.zipIdx_append, List.foldl_append, ← openedFor,
      ← between.index]
    simp [Placing.addBlock, length]

/-- What a list of indices makes, each once and the last of them the final one. -/
theorem between_placeBlocks (nodup : ops.Nodup) {first last back : Nat} {passed rest : List Nat}
    {placing : Placing Op} (between : function.Between ops (first :: passed) placing)
    (isLast : (first :: passed).getLast? = some last)
    (distinct : (first :: (passed ++ rest)).Nodup)
    (isBack : (first :: (passed ++ rest)).getLast? = some back) :
    function.Between ops (first :: (passed ++ rest))
      (function.placeBlocks ops back rest
        (if last ≠ back then placing.addBlock last else placing)) := by
  induction rest generalizing passed last placing with
  | nil =>
      rw [List.append_nil] at isBack ⊢
      obtain rfl : last = back := Option.some.inj (isLast.symm.trans isBack)
      simpa [placeBlocks] using between
  | cons next rest inductionHypothesis =>
      have apart : (first :: passed).Disjoint (next :: rest) :=
        (List.nodup_append'.mp distinct).2.2
      have lastMem : last ∈ first :: passed := List.mem_of_getLast? isLast
      have backMem : back ∈ next :: rest := by
        rw [← List.cons_append, List.getLast?_append_of_ne_nil _ (List.cons_ne_nil _ _)] at isBack
        exact List.mem_of_getLast? isBack
      have notBack : last ≠ back := fun same => apart lastMem (same ▸ backMem)
      have fresh : next ∉ first :: passed := fun mem => apart mem List.mem_cons_self
      have regroup : passed ++ next :: rest = passed ++ [next] ++ rest := by simp
      rw [if_pos notBack, placeBlocks]
      rw [regroup] at distinct isBack ⊢
      exact inductionHypothesis (between.next nodup isLast fresh)
        (by rw [← List.cons_append, List.getLast?_concat]) distinct isBack

theorem placeBlocks_eq (nodup : ops.Nodup) {indices : List Nat} {back : Nat}
    (distinct : indices.Nodup) (isBack : indices.getLast? = some back) :
    function.Between ops indices (function.placeBlocks ops back indices
      { made := [], current := ops,
        indexToBlock := Function.update (fun _ => none) 0 (some 0) }) := by
  cases indices with
  | nil => cases isBack
  | cons first rest =>
      exact between_placeBlocks nodup (between_first nodup first) rfl distinct isBack

end Dynamatic.CfgAnnotation.HandshakeFunc
