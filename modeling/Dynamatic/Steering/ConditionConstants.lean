import Dynamatic.Steering.ConditionRewrites

/-!
# Branches on constants

A branch on a constant passes its data on, and one on a mux of a condition and a constant is
split in two. What replaces the results puts out all that they did, and no more when there are
constants for all data.
-/

namespace Dynamatic.Steering

open Bitwidth Kahn

namespace Circuit

variable {circuit : Circuit} {environment : Environment} {op : Nat}

/-! ### Erasing what is not used -/

section Erasing

variable {trigger : Value} {constOp : Nat}

theorem operation_eraseUnused (op here : Nat) :
    (circuit.eraseUnused op).operation here = circuit.operation here ∨
      (circuit.eraseUnused op).operation here = none ∧ here = op ∧
        ∀ user, ∀ operand ∈ circuit.operands user, operand.op ≠ here := by
  unfold eraseUnused
  split
  · exact .inl rfl
  · rename_i unused
    by_cases same : here = op
    · refine .inr ⟨?_, same, fun user operand mem isOp => unused ?_⟩
      · simp only [operation, same, List.getElem?_set_self']
        cases circuit.ops[op]? <;> rfl
      · have isUser := (List.mem_filter.mp (mem_users mem)).1
        exact List.any_eq_true.mpr
          ⟨user, isUser, List.any_eq_true.mpr ⟨operand, mem, decide_eq_true (isOp.trans same)⟩⟩
    · left
      simp only [operation, List.getElem?_set_ne (Ne.symm same)]

theorem operands_eraseUnused {user : Nat} {operand : Value}
    (mem : operand ∈ (circuit.eraseUnused op).operands user) : operand ∈ circuit.operands user := by
  rcases circuit.operation_eraseUnused op user with same | ⟨gone, -⟩
  · rwa [operands, same] at mem
  · simp [operands, gone] at mem

/-- Erasing a constant and its source takes these alone, and nothing that is used. -/
theorem operation_eraseUnusedConstant (here : Nat) :
    (circuit.eraseUnusedConstant constOp trigger).operation here = circuit.operation here ∨
      (circuit.eraseUnusedConstant constOp trigger).operation here = none ∧
        (∀ user, ∀ operand ∈ (circuit.eraseUnusedConstant constOp trigger).operands user,
          operand.op ≠ here) ∧
        (here = constOp ∧ (∀ user, ∀ operand ∈ circuit.operands user, operand.op ≠ here) ∨
          here = trigger.op ∧
            ∃ operands bb, circuit.operation here = some ⟨.source, operands, bb⟩) := by
  have first := circuit.operation_eraseUnused constOp here
  unfold eraseUnusedConstant
  dsimp only
  split
  · rename_i operands bb _ isSource
    rcases (circuit.eraseUnused constOp).operation_eraseUnused trigger.op here with
      same | ⟨gone, isTrigger, unused⟩
    · rw [same]
      rcases first with same | ⟨gone, isConst, unused⟩
      · exact .inl same
      · exact .inr ⟨gone, fun user operand mem =>
          unused user operand (operands_eraseUnused (operands_eraseUnused mem)),
          .inl ⟨isConst, unused⟩⟩
    · refine .inr ⟨gone, fun user operand mem => unused user operand (operands_eraseUnused mem),
        .inr ⟨isTrigger, operands, bb, ?_⟩⟩
      rw [← isTrigger] at isSource
      rcases first with same | ⟨gone, -⟩
      · rw [← same, isSource]
      · rw [isSource] at gone
        cases gone
  · rcases first with same | ⟨gone, isConst, unused⟩
    · exact .inl same
    · exact .inr ⟨gone, fun user operand mem => unused user operand (operands_eraseUnused mem),
        .inl ⟨isConst, unused⟩⟩

end Erasing

/-! ### Branches on a constant -/

section Eliminating

variable {condition data trigger val : Value} {value : Word}

/-- The result of a branch that gets the data when its condition is a constant. -/
def takenResult (op : Nat) (value : Word) : Value := ⟨op, if value.isZero then 1 else 0⟩

/-- The result is replaced by the data. -/
def passOn (op : Nat) (value : Word) (data val : Value) : Value :=
  if val = takenResult op value then data else val

/-- The circuit without the branch, before the constant goes. -/
def shortCircuit (circuit : Circuit) (op : Nat) (value : Word) (data : Value) : Circuit :=
  (circuit.rewrite [] (passOn op value data) [op]).circuit

/-- A branch on a constant, with nothing on the side where the constant does not send the data. -/
structure Eliminates (circuit : Circuit) (op : Nat) (condition data trigger : Value)
    (value : Word) : Prop where
  branch : ∃ bb, circuit.operation op = some ⟨.condBranch, [condition, data], bb⟩
  constant : ∃ bb, circuit.getDefiningOp condition = some ⟨.constant value, [trigger], bb⟩
  unused : circuit.users ⟨op, if value.isZero then 0 else 1⟩ = []
  differs : data ≠ takenResult op value

/-- The circuit after the branch on a constant, and the constant if it is not used, have gone. -/
def eliminated (circuit : Circuit) (op : Nat) (condition data trigger : Value) (value : Word) :
    Circuit :=
  (circuit.shortCircuit op value data).eraseUnusedConstant condition.op
    (passOn op value data trigger)

theorem eliminates_of_matched {rewritten : Rewritten}
    (matched : circuit.eliminateConstantCondBranch op = some rewritten) :
    ∃ condition data trigger value, circuit.Eliminates op condition data trigger value ∧
      rewritten = ⟨circuit.eliminated op condition data trigger value, passOn op value data⟩ := by
  unfold eliminateConstantCondBranch at matched
  split at matched
  case h_2 => cases matched
  rename_i condition data bb isOperation
  split at matched
  case h_2 => cases matched
  rename_i value trigger bb' defines
  change (if circuit.users ⟨op, if value.isZero then 0 else 1⟩ ≠ [] ∨ data = takenResult op value
    then none
    else some (⟨circuit.eliminated op condition data trigger value, passOn op value data⟩ :
      Rewritten)) = some rewritten at matched
  by_cases guards : circuit.users ⟨op, if value.isZero then 0 else 1⟩ ≠ [] ∨
    data = takenResult op value
  · rw [if_pos guards] at matched
    cases matched
  rw [if_neg guards] at matched
  obtain ⟨unused, differs⟩ := not_or.mp guards
  exact ⟨condition, data, trigger, value, ⟨⟨bb, isOperation⟩, ⟨bb', defines⟩, not_not.mp unused,
    differs⟩, (Option.some.inj matched).symm⟩

theorem operation_shortCircuit {here : Nat} (present : circuit.operation here ≠ none)
    (stays : here ≠ op) : (circuit.shortCircuit op value data).operation here =
      (circuit.operation here).map fun operation =>
        { operation with operands := operation.operands.map (passOn op value data) } :=
  operation_rewrite (lt_of_operation present) (by simpa using stays)

theorem operation_shortCircuit_self : (circuit.shortCircuit op value data).operation op = none :=
  operation_rewrite_erased (List.mem_singleton_self op)

theorem operation_eliminated_self :
    (circuit.eliminated op condition data trigger value).operation op = none := by
  rcases @operation_eraseUnusedConstant (circuit.shortCircuit op value data)
    (passOn op value data trigger) condition.op op with same | ⟨gone, -⟩
  · exact same.trans operation_shortCircuit_self
  · exact gone

namespace Eliminates

variable (eliminates : circuit.Eliminates op condition data trigger value) (closed : circuit.Closed)

include eliminates

theorem isCondBranch : circuit.isCondBranch op = true := by
  obtain ⟨bb, isOperation⟩ := eliminates.branch
  exact isCondBranch_of_operation isOperation

theorem isConstant : ∃ bb, circuit.operation condition.op =
    some ⟨.constant value, [trigger], bb⟩ := by
  obtain ⟨bb, defines⟩ := eliminates.constant
  exact ⟨bb, (getDefiningOp_eq_some defines).1⟩

theorem condition_op_ne : condition.op ≠ op := by
  intro same
  obtain ⟨bb, isConst⟩ := eliminates.isConstant
  have isBranch := eliminates.isCondBranch
  simp [Circuit.isCondBranch, ← same, isConst] at isBranch

theorem mem_operands_data : data ∈ circuit.operands op := by
  obtain ⟨bb, isOperation⟩ := eliminates.branch
  exact mem_operands isOperation (by simp)

/-- Only one result of the branch is used. -/
theorem eq_takenResult (closed : circuit.Closed) {user result : Nat}
    (mem : ⟨op, result⟩ ∈ circuit.operands user) : (⟨op, result⟩ : Value) = takenResult op value := by
  obtain ⟨bb, isOperation⟩ := eliminates.branch
  have bound : result < 2 := closed.results mem isOperation (.inl rfl)
  have unused := eliminates.unused
  have differs : result ≠ if value.isZero then 0 else 1 := by
    rintro rfl
    exact List.ne_nil_of_mem (mem_users mem) unused
  rw [takenResult]
  cases isZero : value.isZero <;> simp [isZero] at differs ⊢ <;> omega

theorem data_op_ne (closed : circuit.Closed) : data.op ≠ op := by
  intro same
  have mem := eliminates.mem_operands_data
  obtain ⟨here, result⟩ := data
  obtain rfl : here = op := same
  exact eliminates.differs (eliminates.eq_takenResult closed mem)

/-- The operations that go with the branch are the constant and its source. -/
theorem operation_eliminated {here : Nat} (present : circuit.operation here ≠ none)
    (stays : here ≠ op) :
    (circuit.eliminated op condition data trigger value).operation here =
        (circuit.operation here).map (fun operation =>
          { operation with operands := operation.operands.map (passOn op value data) }) ∨
      (circuit.eliminated op condition data trigger value).operation here = none ∧
        (∀ user, ∀ operand ∈ (circuit.eliminated op condition data trigger value).operands user,
          operand.op ≠ here) ∧
        (here = condition.op ∧ (passOn op value data trigger).op ≠ here ∨
          here = (passOn op value data trigger).op ∧
            ∃ operands bb, circuit.operation here = some ⟨.source, operands, bb⟩) := by
  have short := @operation_shortCircuit circuit op data value here present stays
  rcases @operation_eraseUnusedConstant (circuit.shortCircuit op value data)
    (passOn op value data trigger) condition.op here with same | ⟨gone, unused, why⟩
  · exact .inl (same.trans short)
  refine .inr ⟨gone, unused, ?_⟩
  rcases why with ⟨isConst, notUsed⟩ | ⟨isTrigger, operands, bb, isSource⟩
  · obtain ⟨bb, isConstant⟩ := eliminates.isConstant
    refine .inl ⟨isConst, notUsed condition.op _ ?_⟩
    rw [← isConst] at isConstant ⊢
    rw [isConstant] at short
    exact mem_operands short (List.mem_singleton_self _)
  · rw [short] at isSource
    obtain ⟨⟨kind, operands, bb⟩, isOperation, same⟩ := Option.map_eq_some_iff.mp isSource
    obtain rfl : kind = .source := congrArg Operation.kind same
    exact .inr ⟨isTrigger, operands, bb, isOperation⟩

/-- Other branches stay, and what lives. -/
theorem operation_of_lives {val : Value} (stays : val.op ≠ op)
    (lives : circuit.Lives (circuit.eliminated op condition data trigger value) val) :
    (circuit.eliminated op condition data trigger value).operation val.op =
      (circuit.operation val.op).map fun operation =>
        { operation with operands := operation.operands.map (passOn op value data) } := by
  have present : circuit.operation val.op ≠ none := by
    rcases lives with ⟨isBranch, -⟩ | ⟨present, -⟩
    · intro none
      simp [Circuit.isCondBranch, none] at isBranch
    · exact present
  rcases eliminates.operation_eliminated present stays with same | ⟨gone, -, why⟩
  · exact same
  rcases lives with ⟨isBranch, -⟩ | ⟨-, after⟩
  · rcases why with ⟨isConst, -⟩ | ⟨-, operands, bb, isSource⟩
    · obtain ⟨bb, isConstant⟩ := eliminates.isConstant
      simp [Circuit.isCondBranch, isConst, isConstant] at isBranch
    · simp [Circuit.isCondBranch, isSource] at isBranch
  · exact absurd gone after

/-- What is an operand of an operation that stays lives. -/
theorem lives_operand (closed : circuit.Closed) {user : Nat} {operand : Value}
    (mem : operand ∈ circuit.operands user)
    (isUser : (circuit.eliminated op condition data trigger value).operation user =
      (circuit.operation user).map fun operation =>
        { operation with operands := operation.operands.map (passOn op value data) }) :
    circuit.Lives (circuit.eliminated op condition data trigger value) operand := by
  by_cases isOp : operand.op = op
  · exact .inl ⟨by rw [isOp]; exact eliminates.isCondBranch, List.ne_nil_of_mem (mem_users mem)⟩
  refine .inr ⟨closed.present mem, ?_⟩
  rcases eliminates.operation_eliminated (closed.present mem) isOp with same | ⟨-, unused, -⟩
  · rw [same]
    exact fun gone => closed.present mem (Option.map_eq_none_iff.mp gone)
  · refine absurd rfl (unused user operand ?_)
    have stays : passOn op value data operand = operand :=
      if_neg fun same => isOp (congrArg Value.op same)
    rw [Circuit.operands, isUser, ← stays]
    simp only [Circuit.operands] at mem
    cases is : circuit.operation user with
    | none => simp [is] at mem
    | some operation => exact List.mem_map_of_mem (by simpa [is] using mem)

/-- The data lives on, unless it is a source that goes because the branch triggers the constant for
its own condition. -/
theorem lives_data (closed : circuit.Closed)
    (lives : circuit.Lives (circuit.eliminated op condition data trigger value)
      (takenResult op value)) :
    circuit.Lives (circuit.eliminated op condition data trigger value) data ∨
      trigger = takenResult op value ∧
        ∃ operands bb, circuit.operation data.op = some ⟨.source, operands, bb⟩ := by
  have dataMem := eliminates.mem_operands_data
  rcases lives with ⟨-, hasUsers⟩ | ⟨-, stays⟩
  case inr => exact absurd operation_eliminated_self stays
  obtain ⟨user, isUser⟩ := List.exists_mem_of_ne_nil _ hasUsers
  have takenMem : takenResult op value ∈ circuit.operands user :=
    of_decide_eq_true (List.mem_filter.mp isUser).2
  have present : circuit.operation user ≠ none := by
    intro none
    simp [operands, none] at takenMem
  have userNe : user ≠ op := by
    rintro rfl
    obtain ⟨bb, isOperation⟩ := eliminates.branch
    simp only [operands, isOperation, Option.map_some, Option.getD_some, List.mem_cons,
      List.not_mem_nil, or_false] at takenMem
    rcases takenMem with same | same
    · exact eliminates.condition_op_ne (congrArg Value.op same).symm
    · exact eliminates.differs same.symm
  have passes : passOn op value data (takenResult op value) = data := if_pos rfl
  have dataPresent := eliminates.operation_eliminated (closed.present dataMem)
    (eliminates.data_op_ne closed)
  by_cases alive : (circuit.eliminated op condition data trigger value).operation data.op = none
  case neg => exact .inl (.inr ⟨closed.present dataMem, alive⟩)
  rcases eliminates.operation_eliminated present userNe with same | ⟨-, -, why⟩
  · -- the user stays and takes the data
    left
    rcases dataPresent with stays | ⟨-, unused, -⟩
    · rw [stays] at alive
      exact absurd (Option.map_eq_none_iff.mp alive) (closed.present dataMem)
    · refine absurd rfl (unused user data ?_)
      rw [operands, same]
      cases is : circuit.operation user with
      | none => exact absurd is present
      | some operation =>
          rw [operands, is] at takenMem
          exact List.mem_map.mpr ⟨_, takenMem, passes⟩
  · rcases why with ⟨rfl, -⟩ | ⟨-, operands, bb, isSource⟩
    · obtain ⟨bb, isConstant⟩ := eliminates.isConstant
      have isTrigger : trigger = takenResult op value := by
        simpa [Circuit.operands, isConstant, eq_comm] using takenMem
      rw [isTrigger, passes] at dataPresent
      rcases dataPresent with stays | ⟨-, -, ⟨-, differs⟩ | ⟨-, isSource⟩⟩
      · rw [isTrigger, stays] at alive
        exact absurd (Option.map_eq_none_iff.mp alive) (closed.present dataMem)
      · exact absurd rfl differs
      · exact .inr ⟨isTrigger, isSource⟩
    · have noOperands : operands = [] := closed.sources isSource rfl
      simp [Circuit.operands, isSource, noOperands] at takenMem

/-- What the branch sends on. -/
theorem history_taken (time : Nat) :
    circuit.network.history environment.units (time + 1) (takenResult op value) =
      (circuit.network.history environment.units time data).take
        (circuit.network.history environment.units time condition).length := by
  obtain ⟨bb, isOperation⟩ := eliminates.branch
  obtain ⟨bb', defines⟩ := eliminates.constant
  have known : ∀ word ∈ circuit.network.history environment.units time condition,
      (!word.isZero) = !value.isZero := by
    cases time with
    | zero => exact fun _ mem => nomatch mem
    | succ time =>
        rw [history_of_definingOp defines le_rfl]
        intro word mem
        obtain ⟨token, -, rfl⟩ := List.mem_map.mp mem
        rfl
  have tokens := @branchTokens_known _ (circuit.network.history environment.units time data)
    (!value.isZero) _ known
  rw [if_pos rfl] at tokens
  rw [takenResult, history_condBranch isOperation, ← tokens]
  cases value.isZero <;> rfl

/-- A branch that triggers the constant for its own condition sends nothing. -/
theorem history_taken_of_triggers (triggers : trigger = takenResult op value) (time : Nat) :
    circuit.network.history environment.units time (takenResult op value) = [] ∧
      circuit.network.history environment.units time condition = [] := by
  obtain ⟨bb, defines⟩ := eliminates.constant
  induction time with
  | zero => exact ⟨rfl, rfl⟩
  | succ time inductionHypothesis =>
      obtain ⟨noneTaken, noCondition⟩ := inductionHypothesis
      refine ⟨?_, ?_⟩
      · rw [eliminates.history_taken, noCondition]
        exact List.take_zero
      · rw [history_of_definingOp defines le_rfl, triggers, List.map_singleton, noneTaken]
        rfl

/-- The branch on the constant covers its data as far as there are constants. -/
theorem keeps (closed : circuit.Closed) :
    circuit.Keeps environment
      ⟨circuit.eliminated op condition data trigger value, passOn op value data⟩
      (circuit.network.NoLonger environment.units data condition) := by
  have regular : circuit.network.Regular
      (circuit.eliminated op condition data trigger value).network
      (circuit.Lives (circuit.eliminated op condition data trigger value))
      (fun val => val.op = op) (passOn op value data) := by
    have fixes {val : Value} (stays : val.op ≠ op) : passOn op value data val = val :=
      if_neg fun same => stays (congrArg Value.op same)
    refine ⟨fun {val} lives stays => ?_, fun {val} lives stays => ?_, fun {val operand} lives stays mem => ?_⟩
    · rw [fixes stays]
      simp only [network, eliminates.operation_of_lives stays lives, Option.map_map]
      rfl
    · rw [fixes stays]
      simp only [network, operands, eliminates.operation_of_lives stays lives]
      cases circuit.operation val.op <;> rfl
    · exact eliminates.lives_operand closed mem (eliminates.operation_of_lives stays lives)
  have isTaken {val : Value} (isOp : val.op = op)
      (lives : circuit.Lives (circuit.eliminated op condition data trigger value) val) :
      val = takenResult op value := by
    obtain ⟨here, result⟩ := val
    obtain rfl : here = op := isOp
    rcases lives with ⟨-, hasUsers⟩ | ⟨-, stays⟩
    · obtain ⟨user, isUser⟩ := List.exists_mem_of_ne_nil _ hasUsers
      exact eliminates.eq_takenResult closed (of_decide_eq_true (List.mem_filter.mp isUser).2)
    · exact absurd operation_eliminated_self stays
  have passes : passOn op value data (takenResult op value) = data := if_pos rfl
  refine ⟨fun val lives => regular.covered ?_ lives, fun keepsUp val lives =>
    regular.coveredBack ?_ lives⟩
  · rintro time inductionHypothesis val lives isOp
    obtain rfl := isTaken isOp lives
    rcases eliminates.lives_data closed lives with dataLives | ⟨triggers, -⟩
    · obtain ⟨later, datas⟩ := inductionHypothesis data dataLives
      have stays : passOn op value data data = data := if_neg eliminates.differs
      rw [stays] at datas
      refine ⟨later, ?_⟩
      rw [passes, eliminates.history_taken]
      exact (List.take_prefix _ _).trans datas
    · refine ⟨0, ?_⟩
      rw [(eliminates.history_taken_of_triggers triggers _).1]
      exact List.nil_prefix
  · rintro time - others val lives isOp
    obtain rfl := isTaken isOp lives
    rcases eliminates.lives_data closed lives with dataLives | ⟨triggers, operands, bb, isSource⟩
    · have stays : passOn op value data data = data := if_neg eliminates.differs
      obtain ⟨later, datas⟩ := others data dataLives (eliminates.data_op_ne closed)
      rw [stays] at datas
      obtain ⟨enough, long⟩ := keepsUp later
      refine ⟨max later enough + 1, ?_⟩
      rw [passes, eliminates.history_taken]
      refine List.prefix_take_iff.mpr
        ⟨datas.trans (Network.history_grows (Nat.le_max_left _ _)), ?_⟩
      calc ((circuit.eliminated op condition data trigger value).network.history
            environment.units (time + 1) data).length
          ≤ (circuit.network.history environment.units later data).length := datas.length_le
        _ ≤ (circuit.network.history environment.units enough condition).length := long
        _ ≤ (circuit.network.history environment.units (max later enough) condition).length :=
          (Network.history_grows (Nat.le_max_right later enough)).length_le
    · -- a source would not run out of tokens
      obtain ⟨later, long⟩ := keepsUp 2
      have first : data.result < 1 :=
        closed.results eliminates.mem_operands_data isSource (.inr rfl)
      obtain ⟨here, result⟩ := data
      obtain rfl : result = 0 := Nat.lt_one_iff.mp first
      rw [(eliminates.history_taken_of_triggers triggers later).2, Network.history_succ,
        network_kind 0 isSource] at long
      exact absurd long (Nat.not_succ_le_zero 0)

end Eliminates

end Eliminating

/-! ### Branches on a mux of a condition and a constant -/

section Splitting

variable {condition data baseCond first second : Value} {constIdx : Nat}

/-- The branch on the select of the mux, and the one on the condition that the mux chose. -/
def split (circuit : Circuit) (op : Nat) (baseCond nestedCond data : Value) (constIdx : Nat)
    (outerBB innerBB : Option Nat) : Rewritten :=
  circuit.rewrite
    [(⟨.condBranch, [baseCond, data], outerBB⟩, circuit.type data),
      (⟨.condBranch, [nestedCond, ⟨circuit.ops.length, if constIdx = 1 then 1 else 0⟩], innerBB⟩,
        circuit.type data)]
    (fun val => if val.op = op then ⟨circuit.ops.length + 1, val.result⟩ else val) [op]

theorem operation_split_outer {nestedCond : Value} (present : op < circuit.ops.length)
    (constIdx : Nat) (outerBB innerBB : Option Nat) :
    (circuit.split op baseCond nestedCond data constIdx outerBB innerBB).circuit.operation
        circuit.ops.length =
      some ⟨.condBranch,
        [(circuit.split op baseCond nestedCond data constIdx outerBB innerBB).image baseCond,
          (circuit.split op baseCond nestedCond data constIdx outerBB innerBB).image data],
        outerBB⟩ :=
  @operation_rewrite_created circuit _ _ [op] 0 (⟨.condBranch, [baseCond, data], outerBB⟩, _) rfl
    (by simp only [List.mem_singleton]; omega)

/-- A branch on a mux of a constant and something else, with nothing on the side where the
constant sends the data. -/
structure Splits (circuit : Circuit) (op : Nat) (condition data baseCond first second : Value)
    (constIdx : Nat) : Prop where
  branch : ∃ bb, circuit.operation op = some ⟨.condBranch, [condition, data], bb⟩
  mux : ∃ bb, circuit.getDefiningOp condition = some ⟨.mux, [baseCond, first, second], bb⟩
  index : circuit.getSingleConstantOperandIndex first second = some constIdx
  empty : ∃ known, circuit.users ⟨op, if known then 0 else 1⟩ = [] ∧
    circuit.constValue (if constIdx = 0 then first else second) = some known

theorem splits_of_matched {edges : List (Nat × Nat × Nat)} {rewritten : Rewritten}
    (matched : circuit.splitBranchWithMuxCondition edges op = some rewritten) :
    ∃ condition data baseCond first second constIdx,
      circuit.Splits op condition data baseCond first second constIdx ∧
        ∃ outerBB innerBB, rewritten = circuit.split op baseCond
          (if constIdx = 0 then second else first) data constIdx outerBB innerBB := by
  unfold splitBranchWithMuxCondition at matched
  split at matched
  case h_2 => cases matched
  rename_i condition data bb isOperation
  split at matched
  case h_2 => cases matched
  rename_i baseCond first second bb' isMux
  split at matched
  case h_2 => cases matched
  rename_i constIdx isIdx
  extract_lets constOperand nestedCond trueEmpty falseEmpty outerBranch outerToInner at matched
  split at matched
  case isTrue => cases matched
  split at matched
  case isTrue => cases matched
  rename_i oneEmpty
  split at matched
  case isTrue => cases matched
  rename_i isValue
  refine ⟨condition, data, baseCond, first, second, constIdx,
    ⟨⟨bb, isOperation⟩, ⟨bb', isMux⟩, isIdx, trueEmpty, ?_, not_not.mp isValue⟩,
    circuit.conditionBB baseCond bb, circuit.conditionBB nestedCond bb,
    (Option.some.inj matched).symm⟩
  by_cases isEmpty : circuit.users ⟨op, 0⟩ = []
  · simp [trueEmpty, isEmpty]
  · have falseIsEmpty : circuit.users ⟨op, 1⟩ = [] := by
      by_contra notEmpty
      simp [trueEmpty, falseEmpty, isEmpty, notEmpty] at oneEmpty
    simpa [trueEmpty, isEmpty] using falseIsEmpty

theorem constIdx_le_one (isIdx : circuit.getSingleConstantOperandIndex first second = some constIdx) :
    constIdx ≤ 1 := by
  unfold getSingleConstantOperandIndex at isIdx
  split at isIdx <;> cases isIdx <;> decide

theorem definingOp_of_constValue {val : Value} {known : Bool}
    (isValue : circuit.constValue val = some known) : ∃ value operands bb,
      circuit.getDefiningOp val = some ⟨.constant value, operands, bb⟩ ∧ (!value.isZero) = known := by
  unfold constValue at isValue
  split at isValue
  case h_2 => cases isValue
  rename_i value operands bb defines
  exact ⟨value, operands, bb, defines, Option.some.inj isValue⟩

/-- The constant has no other tokens than its value. -/
theorem mem_history_constValue {val : Value} {known : Bool}
    (isValue : circuit.constValue val = some known) {time : Nat} :
    ∀ word ∈ circuit.network.history environment.units time val, (!word.isZero) = known := by
  obtain ⟨value, operands, bb, defines, isKnown⟩ := definingOp_of_constValue isValue
  obtain ⟨isConst, bound⟩ := getDefiningOp_eq_some defines
  obtain ⟨here, result⟩ := val
  obtain rfl : result = 0 := Nat.lt_one_iff.mp bound
  intro word mem
  rw [mem_history_constant isConst mem, isKnown]

namespace Splits

variable (splits : circuit.Splits op condition data baseCond first second constIdx)

/-- The constant keeps up with the data that does not pass the branch on the select. -/
def KeepsUp (circuit : Circuit) (environment : Environment) (data baseCond constOperand : Value)
    (constIdx : Nat) : Prop :=
  ∀ time, ∃ later, (branchTokens (constIdx = 1)
    (circuit.network.history environment.units time baseCond)
    (circuit.network.history environment.units time data)).length ≤
      (circuit.network.history environment.units later constOperand).length

include splits

theorem history_condition (time : Nat) :
    circuit.network.history environment.units (time + 1) condition =
      muxTokens (circuit.network.history environment.units time baseCond)
        (splitData constIdx
          (circuit.network.history environment.units time (if constIdx = 0 then first else second))
          (circuit.network.history environment.units time
            (if constIdx = 0 then second else first))) := by
  obtain ⟨bb, isMux⟩ := splits.mux
  rw [history_of_definingOp isMux le_rfl]
  simp only [splitData]
  split <;> rfl

/-- The used result of the branch gets the data on the side where the constant is not. -/
theorem resultTokens_used (closed : circuit.Closed) {known : Bool} {user result : Nat}
    (empty : circuit.users ⟨op, if known then 0 else 1⟩ = [])
    (mem : ⟨op, result⟩ ∈ circuit.operands user) : resultTokens result = branchTokens (!known) := by
  obtain ⟨bb, isOperation⟩ := splits.branch
  have bound : result < 2 := closed.results mem isOperation (.inl rfl)
  have differs : result ≠ if known then 0 else 1 := by
    rintro rfl
    exact List.ne_nil_of_mem (mem_users mem) empty
  match result, known with
  | 0, false => rfl
  | 1, true => rfl
  | 0, true => exact absurd rfl differs
  | 1, false => exact absurd rfl differs
  | _ + 2, _ => omega

/-- The branch on the mux and the branches that it is split into cover each other, as far as there
are constants. -/
theorem keeps (closed : circuit.Closed)
    (areBits : ∀ time, ∀ word ∈ circuit.network.history environment.units time baseCond,
      word.width = 1) (outerBB innerBB : Option Nat) :
    circuit.Keeps environment
      (circuit.split op baseCond (if constIdx = 0 then second else first) data constIdx outerBB
        innerBB)
      (KeepsUp circuit environment data baseCond (if constIdx = 0 then first else second)
        constIdx) := by
  obtain ⟨bb, isOperation⟩ := splits.branch
  obtain ⟨bb', defines⟩ := splits.mux
  obtain ⟨known, empty, isValue⟩ := splits.empty
  have isIdx := constIdx_le_one splits.index
  have conditionTokens := @history_condition _ environment _ _ _ _ _ _ _ splits
  have isMux := (getDefiningOp_eq_some defines).1
  generalize constOp : (if constIdx = 0 then first else second) = constOperand at *
  generalize nested : (if constIdx = 0 then second else first) = nestedCond at *
  have baseMem : baseCond ∈ circuit.operands condition.op := mem_operands isMux (by simp)
  have nestedMem : nestedCond ∈ circuit.operands condition.op := by
    refine mem_operands isMux ?_
    rw [← nested]
    split <;> simp
  have dataMem : data ∈ circuit.operands op := mem_operands isOperation (by simp)
  have branches : ∀ br ∈ [op], circuit.isCondBranch br = true := by
    intro br mem
    rw [List.mem_singleton.mp mem]
    exact isCondBranch_of_operation isOperation
  have isThere : circuit.operation op ≠ none := by simp [isOperation]
  have present := lt_of_operation isThere
  have outer := @operation_split_outer circuit op data baseCond nestedCond present constIdx outerBB
    innerBB
  unfold Circuit.split at outer ⊢
  generalize isImage : (fun val : Value =>
    if val.op = op then (⟨circuit.ops.length + 1, val.result⟩ : Value) else val) = image at outer ⊢
  generalize isCreated : [((⟨.condBranch, [baseCond, data], outerBB⟩ : Operation),
    circuit.type data), (⟨.condBranch, [nestedCond, ⟨circuit.ops.length,
      if constIdx = 1 then 1 else 0⟩], innerBB⟩, circuit.type data)] = created at outer ⊢
  have fixes : ∀ val : Value, val.op ∉ [op] → image val = val := by
    intro val kept
    rw [← isImage]
    exact if_neg (by simpa using kept)
  have regular : circuit.network.Regular (circuit.rewrite created image [op]).circuit.network _ _ _ :=
    regular_rewrite closed branches fixes
  have imageOp (result : Nat) : image ⟨op, result⟩ = ⟨circuit.ops.length + 1, result⟩ := by
    rw [← isImage]
    exact if_pos rfl
  have inner : (circuit.rewrite created image [op]).circuit.operation (circuit.ops.length + 1) =
      some ⟨.condBranch, [image nestedCond, ⟨circuit.ops.length,
        if constIdx = 1 then 1 else 0⟩], innerBB⟩ := by
    have fresh : image ⟨circuit.ops.length, if constIdx = 1 then 1 else 0⟩ =
        ⟨circuit.ops.length, if constIdx = 1 then 1 else 0⟩ := by
      rw [← isImage]
      exact if_neg (by simp only; omega)
    have isNew : created[1]? = some (⟨.condBranch, [nestedCond, ⟨circuit.ops.length,
        if constIdx = 1 then 1 else 0⟩], innerBB⟩, circuit.type data) := by
      rw [← isCreated]
      rfl
    have after := @operation_rewrite_created circuit created image [op] 1 _ isNew
      (by simp only [List.mem_singleton]; omega)
    rw [after, List.map_cons, List.map_singleton, fresh]
  have toInner : resultTokens (if constIdx = 1 then 1 else 0) =
      branchTokens (decide (constIdx = 0)) := by
    rcases (by omega : constIdx = 0 ∨ constIdx = 1) with rfl | rfl <;> rfl
  have constants (time : Nat) : ∀ word ∈
      circuit.network.history environment.units time constOperand,
      (!word.isZero) = !!known := by
    rw [Bool.not_not]
    exact mem_history_constValue isValue
  have used {result : Nat}
      (lives : circuit.Lives (circuit.rewrite created image [op]).circuit ⟨op, result⟩) :
      resultTokens result = branchTokens (!known) := by
    rcases lives with ⟨-, hasUsers⟩ | ⟨-, stays⟩
    · obtain ⟨user, isUser⟩ := List.exists_mem_of_ne_nil _ hasUsers
      exact splits.resultTokens_used closed empty
        (of_decide_eq_true (List.mem_filter.mp isUser).2)
    · exact absurd (operation_rewrite_erased (List.mem_singleton_self op)) stays
  have livesOf {user : Nat} {val : Value} (mem : val ∈ circuit.operands user) :
      circuit.Lives (circuit.rewrite created image [op]).circuit val :=
    closed.lives_rewrite branches mem
  refine ⟨fun val lives => regular.covered ?_ lives, fun keepsUp val lives =>
    regular.coveredBack ?_ lives⟩
  · rintro time inductionHypothesis ⟨here, result⟩ lives isOp
    obtain rfl : op = here := (List.mem_singleton.mp isOp).symm
    obtain ⟨later, grows⟩ := Network.exists_covered
      (.cons (inductionHypothesis baseCond (livesOf baseMem))
        (.cons (inductionHypothesis nestedCond (livesOf nestedMem))
          (.cons (inductionHypothesis data (livesOf dataMem)) .nil)))
    obtain _ | ⟨bases, _ | ⟨nesteds, _ | ⟨datas, _⟩⟩⟩ := grows
    refine ⟨later + 2, ?_⟩
    rw [imageOp, history_condBranch isOperation, history_condBranch inner,
      history_condBranch outer, toInner, used lives]
    have begins := (@branchTokens_split (circuit.network.history environment.units time data)
      (circuit.network.history environment.units time baseCond)
      (circuit.network.history environment.units time nestedCond)
      (circuit.network.history environment.units time constOperand) constIdx (!known) isIdx
      (areBits time) (constants time)).1
    rw [← conditionTokens] at begins
    calc branchTokens (!known) (circuit.network.history environment.units time condition)
            (circuit.network.history environment.units time data)
        <+: branchTokens (!known) (circuit.network.history environment.units (time + 1) condition)
            (circuit.network.history environment.units time data) :=
          branchTokens_grows (history_grows_succ _ _) (List.prefix_refl _)
      _ <+: _ := begins
      _ <+: _ := branchTokens_grows (nesteds.trans (history_grows_succ _ _))
          (branchTokens_grows bases datas)
  · rintro time inductionHypothesis - ⟨here, result⟩ lives isOp
    obtain rfl : op = here := (List.mem_singleton.mp isOp).symm
    obtain ⟨later, grows⟩ := Network.exists_covered
      (.cons (inductionHypothesis baseCond (livesOf baseMem))
        (.cons (inductionHypothesis nestedCond (livesOf nestedMem))
          (.cons (inductionHypothesis data (livesOf dataMem)) .nil)))
    obtain _ | ⟨bases, _ | ⟨nesteds, _ | ⟨datas, _⟩⟩⟩ := grows
    obtain ⟨enough, long⟩ := keepsUp later
    have same := (@branchTokens_split (circuit.network.history environment.units later data)
      (circuit.network.history environment.units later baseCond)
      (circuit.network.history environment.units later nestedCond)
      (circuit.network.history environment.units enough constOperand) constIdx (!known) isIdx
      (areBits later) (constants enough)).2 long
    have grows : List.Forall₂ (fun operand extended => operand <+: extended)
        (splitData constIdx (circuit.network.history environment.units enough constOperand)
          (circuit.network.history environment.units later nestedCond))
        (splitData constIdx
          (circuit.network.history environment.units (max later enough) constOperand)
          (circuit.network.history environment.units (max later enough) nestedCond)) :=
      splitData_grows (Network.history_grows (Nat.le_max_right _ _))
        (Network.history_grows (Nat.le_max_left _ _))
    have outerGrows : (circuit.rewrite created image [op]).circuit.network.history
        environment.units time ⟨circuit.ops.length, if constIdx = 1 then 1 else 0⟩ <+:
          branchTokens (decide (constIdx = 0))
            (circuit.network.history environment.units later baseCond)
            (circuit.network.history environment.units later data) := by
      refine (history_grows_succ _ _).trans ?_
      rw [history_condBranch outer, toInner]
      exact branchTokens_grows bases datas
    refine ⟨max later enough + 2, ?_⟩
    rw [imageOp, history_condBranch inner, history_condBranch isOperation, used lives,
      conditionTokens]
    refine (branchTokens_grows nesteds outerGrows).trans ?_
    rw [← same]
    exact branchTokens_grows
      (muxTokens_grows (Network.history_grows (Nat.le_max_left _ _)) grows)
      (Network.history_grows (Nat.le_succ_of_le (Nat.le_max_left _ _)))

end Splits

end Splitting

end Circuit

end Dynamatic.Steering
