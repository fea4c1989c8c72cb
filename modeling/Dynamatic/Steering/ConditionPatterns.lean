import Dynamatic.Steering.ConditionConstants

/-!
# The condition patterns

Every pattern replaces a used result by a value whose stream begins with the old one. The streams
are the same if constants keep up with the data, which those that a source triggers do.
-/

namespace Dynamatic.Steering

open Bitwidth Kahn

variable {edges : List (Nat × Nat × Nat)} {circuit : Circuit} {environment : Environment} {op : Nat}
  {pattern : ConditionPattern} {rewritten : Rewritten}

/-- The constants that a pattern takes away, and the conditions that it sets to constants, have as
many tokens as there is data for them. -/
def ConditionPattern.ConstantsKeepUp (circuit : Circuit) (environment : Environment) (op : Nat) :
    ConditionPattern → Prop
  | combineBranchesOppositeSign | removeNotCondition => True
  | simplifyKnownConditionBranch => circuit.KnownKeepUp environment op
  | eliminateConstantCondBranch => ∀ condition data bb,
      circuit.operation op = some ⟨.condBranch, [condition, data], bb⟩ →
        circuit.network.NoLonger environment.units data condition
  | splitBranchWithMuxCondition => ∀ condition data baseCond first second constIdx,
      circuit.Splits op condition data baseCond first second constIdx →
        Circuit.Splits.KeepsUp circuit environment data baseCond
          (if constIdx = 0 then first else second) constIdx

/-- The conditions of branches are bits, before a rewrite and after. -/
def ConditionsAreBits (circuit : Circuit) (rewritten : Rewritten) : Prop :=
  ∀ val, circuit.operation val.op ≠ none →
    circuit.IsCondition val ∨ rewritten.circuit.IsCondition (rewritten.image val) →
      circuit.type val = 1

/-- What each pattern keeps. -/
theorem ConditionPattern.keeps (closed : circuit.Closed) (typed : circuit.Typed environment)
    (bits : ConditionsAreBits circuit rewritten)
    (matched : pattern.matchAndRewrite edges circuit op = some rewritten) :
    circuit.Keeps environment rewritten (pattern.ConstantsKeepUp circuit environment op) := by
  have areBits : ∀ op condition data bb,
      circuit.operation op = some ⟨.condBranch, [condition, data], bb⟩ →
        ∀ time, ∀ word ∈ circuit.network.history environment.units time condition,
          word.width = 1 := by
    intro op condition data bb isOperation time word mem
    have present := closed.present (Circuit.mem_operands isOperation (List.mem_cons_self ..))
    rw [typed condition time word mem, bits condition present (.inl ⟨op, data, bb, isOperation⟩)]
  cases pattern with
  | combineBranchesOppositeSign =>
      replace matched : circuit.combineBranchesOppositeSign op = some rewritten := matched
      unfold Circuit.combineBranchesOppositeSign at matched
      split at matched
      case h_2 => cases matched
      rename_i condition data bb isOperation
      split at matched
      case h_2 => cases matched
      rename_i condOperand negates
      extract_lets redundant at matched
      split at matched
      case isTrue => cases matched
      obtain rfl := Option.some.inj matched
      exact Circuit.keeps_opposite closed isOperation negates
        (Circuit.width_of_notOperand negates (areBits _ _ _ _ isOperation))
        fun br mem => Circuit.mem_findRedundantBranches mem
  | removeNotCondition =>
      replace matched : circuit.removeNotCondition op = some rewritten := matched
      unfold Circuit.removeNotCondition at matched
      split at matched
      case h_2 => cases matched
      rename_i condition data bb isOperation
      split at matched
      case h_2 => cases matched
      rename_i operand negates
      obtain rfl := Option.some.inj matched
      exact Circuit.keeps_removeNot closed isOperation negates
        (Circuit.width_of_notOperand negates (areBits _ _ _ _ isOperation)) _ _
  | simplifyKnownConditionBranch => exact Circuit.keeps_simplifyKnown closed areBits matched
  | eliminateConstantCondBranch =>
      obtain ⟨condition, data, trigger, value, eliminates, rfl⟩ :=
        Circuit.eliminates_of_matched matched
      obtain ⟨bb, isOperation⟩ := eliminates.branch
      have kept := @Circuit.Eliminates.keeps _ environment _ _ _ _ _ eliminates closed
      exact ⟨kept.covered, fun up => kept.coveredBack (up condition data bb isOperation)⟩
  | splitBranchWithMuxCondition =>
      obtain ⟨condition, data, baseCond, first, second, constIdx, splits, outerBB, innerBB, rfl⟩ :=
        Circuit.splits_of_matched matched
      obtain ⟨bb, isOperation⟩ := splits.branch
      obtain ⟨bb', isMux⟩ := splits.mux
      have isThere : circuit.operation op ≠ none := by simp [isOperation]
      have outer := @Circuit.operation_split_outer circuit op data baseCond
        (if constIdx = 0 then second else first) (Circuit.lt_of_operation isThere) constIdx outerBB
        innerBB
      have present := closed.present (Circuit.mem_operands
        (Circuit.getDefiningOp_eq_some isMux).1 (List.mem_cons_self ..))
      have isBit := bits baseCond present (.inr ⟨_, _, _, outer⟩)
      have kept := @Circuit.Splits.keeps _ environment _ _ _ _ _ _ _ splits closed
        (fun time word mem => (typed baseCond time word mem).trans isBit) outerBB innerBB
      exact ⟨kept.covered, fun up => kept.coveredBack (up _ _ _ _ _ _ splits)⟩

/-- The patterns replace each result of a branch that is used, and each value that stays, by one
whose stream begins with the old stream, and is the same when the constants keep up. -/
theorem ConditionPattern.matchAndRewrite_streams (closed : circuit.Closed)
    (typed : circuit.Typed environment) (bits : ConditionsAreBits circuit rewritten)
    (matched : pattern.matchAndRewrite edges circuit op = some rewritten) :
    ∀ val, circuit.Lives rewritten.circuit val →
      circuit.network.Covered environment.units rewritten.circuit.network val
          (rewritten.image val) ∧
        (pattern.ConstantsKeepUp circuit environment op →
          circuit.network.SameStream environment.units rewritten.circuit.network val
            (rewritten.image val)) := by
  intro val lives
  have keeps := ConditionPattern.keeps closed typed bits matched
  have covered := keeps.covered val lives
  exact ⟨covered, fun up => Network.sameStream_of_covered covered (keeps.coveredBack up val lives)⟩

/-- A branch on a constant that an argument triggers. -/
def triggeredBranch : Circuit where
  ops := [some ⟨.argument 0, [], none⟩, some ⟨.argument 1, [], none⟩,
    some ⟨.constant (.ofNat 1 1), [⟨1, 0⟩], none⟩, some ⟨.condBranch, [⟨2, 0⟩, ⟨0, 0⟩], none⟩,
    some ⟨.other 0, [⟨3, 0⟩], none⟩]
  type := fun _ => 1

/-- Bits at all times on the first argument, and on the second one if there are triggers. -/
def bitArguments (triggers : Bool) : Environment where
  arguments := fun index _ => if index = 0 ∨ triggers then some (.ofNat 1 1) else none
  merge := fun _ => []
  other := fun _ _ _ => []
  mergeMonotone := @nil_mergeMonotone
  otherMonotone := @nil_otherMonotone

private theorem triggeredBranch_tokens (triggers : Bool) (time : Nat) (val : Value) :
    ∀ word ∈ triggeredBranch.network.history (bitArguments triggers).units time val,
      word = .ofNat 1 1 := by
  have argument {index time : Nat} {word : Word}
      (mem : word ∈ (List.range time).filterMap ((bitArguments triggers).arguments index)) :
      word = .ofNat 1 1 := by
    obtain ⟨_, -, isWord⟩ := List.mem_filterMap.mp mem
    exact (Option.some.inj (Option.ite_none_right_eq_some.mp isWord).2).symm
  induction time generalizing val with
  | zero => exact fun _ mem => nomatch mem
  | succ time inductionHypothesis =>
      have sent {side : Bool} {conditions : List Word} {word : Word}
          (mem : word ∈ branchTokens side conditions (triggeredBranch.network.history
            (bitArguments triggers).units time ⟨0, 0⟩)) : word = .ofNat 1 1 := by
        obtain ⟨pair, isSent, rfl⟩ := List.mem_map.mp mem
        exact inductionHypothesis ⟨0, 0⟩ _ (List.of_mem_zip (List.mem_filter.mp isSent).1).2
      intro word mem
      match val, mem with
      | ⟨0, 0⟩, mem => exact @argument 0 time word mem
      | ⟨1, 0⟩, mem => exact @argument 1 time word mem
      | ⟨2, 0⟩, mem =>
          obtain ⟨_, -, isWord⟩ := List.mem_map.mp mem
          exact isWord.symm
      | ⟨3, 0⟩, mem | ⟨3, 1⟩, mem => exact sent mem
      | ⟨0, _ + 1⟩, mem | ⟨1, _ + 1⟩, mem | ⟨2, _ + 1⟩, mem | ⟨3, _ + 2⟩, mem | ⟨4, _⟩, mem
      | ⟨_ + 5, _⟩, mem => nomatch mem

theorem triggeredBranch_typed (triggers : Bool) :
    triggeredBranch.Typed (bitArguments triggers) := by
  intro val time word mem
  rw [triggeredBranch_tokens triggers time val word mem]
  rfl

private theorem triggeredBranch_operand {op : Nat} {val : Value}
    (mem : val ∈ triggeredBranch.operands op) :
    val = ⟨0, 0⟩ ∨ val = ⟨1, 0⟩ ∨ val = ⟨2, 0⟩ ∨ val = ⟨3, 0⟩ := by
  have listed : triggeredBranch.operands op ⊆ [⟨0, 0⟩, ⟨1, 0⟩, ⟨2, 0⟩, ⟨3, 0⟩] := by
    match op with
    | 0 | 1 | 2 | 3 | 4 => decide
    | _ + 5 => exact List.nil_subset _
  simpa using listed mem

theorem triggeredBranch_closed : triggeredBranch.Closed where
  branches {op operation} isOperation isBranch := by
    match op, isOperation with
    | 3, isOperation =>
        cases isOperation
        exact ⟨_, _, rfl⟩
    | 0, isOperation | 1, isOperation | 2, isOperation | 4, isOperation =>
        cases isOperation
        cases isBranch
    | _ + 5, isOperation => cases isOperation
  sources {op operation} isOperation isSource := by
    match op, isOperation with
    | 0, isOperation | 1, isOperation | 2, isOperation | 3, isOperation | 4, isOperation =>
        cases isOperation
        cases isSource
    | _ + 5, isOperation => cases isOperation
  present mem := by
    rcases triggeredBranch_operand mem with rfl | rfl | rfl | rfl <;> exact Option.some_ne_none _
  results mem isOperation kinds := by
    rcases triggeredBranch_operand mem with rfl | rfl | rfl | rfl <;> cases isOperation <;>
      revert kinds <;> decide

theorem triggeredBranch_bits (rewritten : Rewritten) :
    ConditionsAreBits triggeredBranch rewritten := fun _ _ _ => rfl

/-- The branch has gone, and its data goes on. -/
def passedOn : Rewritten :=
  ⟨triggeredBranch.eliminated 3 ⟨2, 0⟩ ⟨0, 0⟩ ⟨1, 0⟩ (.ofNat 1 1),
    Circuit.passOn 3 (.ofNat 1 1) ⟨0, 0⟩⟩

theorem triggeredBranch_matched : ConditionPattern.eliminateConstantCondBranch.matchAndRewrite []
    triggeredBranch 3 = some passedOn := rfl

theorem triggeredBranch_lives : triggeredBranch.Lives passedOn.circuit ⟨3, 0⟩ :=
  .inl ⟨by decide, by decide⟩

/-- Triggers for the constant let the data pass. -/
theorem matchAndRewrite_streams_triggered :
    triggeredBranch.network.SameStream (bitArguments true).units passedOn.circuit.network ⟨3, 0⟩
      ⟨0, 0⟩ := by
  have same := (ConditionPattern.matchAndRewrite_streams triggeredBranch_closed
    (triggeredBranch_typed true) (triggeredBranch_bits passedOn) triggeredBranch_matched ⟨3, 0⟩
    triggeredBranch_lives).2
  refine same fun condition data bb isOperation time => ⟨time + 1, ?_⟩
  cases isOperation
  cases time with
  | zero => exact Nat.zero_le _
  | succ time =>
      rw [Network.history_succ, Network.history_succ]
      exact (List.length_map _).ge

/-- Without triggers the branch sends nothing, but then the data goes on. -/
theorem matchAndRewrite_adds :
    (ConditionPattern.eliminateConstantCondBranch.matchAndRewrite [] triggeredBranch 3 =
        some passedOn ∧ triggeredBranch.Closed ∧ triggeredBranch.Typed (bitArguments false) ∧
        ConditionsAreBits triggeredBranch passedOn ∧ triggeredBranch.users ⟨3, 0⟩ ≠ []) ∧
      ¬ triggeredBranch.network.SameStream (bitArguments false).units passedOn.circuit.network
        ⟨3, 0⟩ (passedOn.image ⟨3, 0⟩) := by
  refine ⟨⟨triggeredBranch_matched, triggeredBranch_closed, triggeredBranch_typed false,
    triggeredBranch_bits passedOn, by decide⟩, fun same => ?_⟩
  obtain ⟨time, held⟩ := (same 0 (.ofNat 1 1)).mpr ⟨2, rfl⟩
  have silent : triggeredBranch.network.history (bitArguments false).units time ⟨3, 0⟩ = [] := by
    match time with
    | 0 | 1 | 2 => rfl
    | time + 3 =>
        have noTriggers : (List.range time).filterMap ((bitArguments false).arguments 1) = [] :=
          List.filterMap_eq_nil_iff.mpr fun _ _ => rfl
        change branchTokens true (((List.range time).filterMap
          ((bitArguments false).arguments 1)).map fun _ => .ofNat 1 1) _ = []
        rw [noTriggers]
        rfl
  rw [silent] at held
  cases held

end Dynamatic.Steering
