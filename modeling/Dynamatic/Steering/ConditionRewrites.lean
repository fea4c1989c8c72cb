import Dynamatic.Steering.ConditionStreams

/-!
# What the condition patterns keep

Each pattern, compared unit by unit with the circuit before it. The first four sections say for
the results that a pattern replaces that they and their images cover each other, the last one
puts the patterns together.
-/

namespace Dynamatic.Steering

open Bitwidth Kahn

namespace Circuit

variable {circuit : Circuit} {environment : Environment} {op : Nat}

/-- A rewrite keeps what the live values carry: nothing is lost, and if constants keep up nothing
is added. -/
structure Keeps (circuit : Circuit) (environment : Environment) (rewritten : Rewritten)
    (keepsUp : Prop) : Prop where
  covered : ∀ val, circuit.Lives rewritten.circuit val →
    circuit.network.Covered environment.units rewritten.circuit.network val (rewritten.image val)
  coveredBack : keepsUp → ∀ val, circuit.Lives rewritten.circuit val →
    rewritten.circuit.network.Covered environment.units circuit.network (rewritten.image val) val

section Covering

variable {other : Circuit} {time : Nat} {first second first' second' : Value}

/-- Two values that are covered are so at a common time. -/
theorem exists_covered_both
    (covered : circuit.network.CoveredAt environment.units other.network time first first')
    (coveredToo : circuit.network.CoveredAt environment.units other.network time second second') :
    ∃ later, circuit.network.history environment.units time first <+:
        other.network.history environment.units later first' ∧
      circuit.network.history environment.units time second <+:
        other.network.history environment.units later second' := by
  obtain ⟨later, grows⟩ := Network.exists_covered (.cons covered (.cons coveredToo .nil))
  obtain _ | ⟨here, _ | ⟨there, _⟩⟩ := grows
  exact ⟨later, here, there⟩

theorem history_grows_succ (time : Nat) (val : Value) :
    circuit.network.history environment.units time val <+:
      circuit.network.history environment.units (time + 1) val :=
  Network.history_grows_succ time val

end Covering

section Opposite

variable {condition data condOperand : Value} {bb : Option Nat} {redundant : List Nat}

theorem mem_findRedundantBranches {br : Nat}
    (mem : br ∈ circuit.findRedundantBranches condOperand data op) :
    br ≠ op ∧ ∃ bb, circuit.operation br = some ⟨.condBranch, [condOperand, data], bb⟩ := by
  simp only [findRedundantBranches, List.mem_filter, Bool.and_eq_true, decide_eq_true_eq] at mem
  obtain ⟨-, differs, is⟩ := mem
  obtain ⟨⟨kind, operands, bb⟩, isOperation, same⟩ := Option.any_eq_true _ _ |>.mp is
  simp only [Bool.and_eq_true, decide_eq_true_eq] at same
  obtain ⟨rfl, rfl⟩ := same
  exact ⟨differs, bb, isOperation⟩

/-- A negation is no branch. -/
theorem not_isCondBranch_of_notOperand (negates : circuit.notOperand condition = some condOperand) :
    circuit.isCondBranch condition.op = false := by
  obtain ⟨bb, defines⟩ := definingOp_of_notOperand negates
  simp [isCondBranch, (getDefiningOp_eq_some defines).1]

theorem mem_operands {operation : Operation} {val : Value}
    (isOperation : circuit.operation op = some operation) (mem : val ∈ operation.operands) :
    val ∈ circuit.operands op := by
  simpa [operands, isOperation] using mem

theorem mem_operands_of_notOperand (negates : circuit.notOperand condition = some condOperand) :
    condOperand ∈ circuit.operands condition.op := by
  obtain ⟨bb, defines⟩ := definingOp_of_notOperand negates
  exact mem_operands (getDefiningOp_eq_some defines).1 (List.mem_singleton_self _)

/-- Branches on a condition and the results of one on its negation cover each other. -/
theorem keeps_opposite (closed : circuit.Closed)
    (isOperation : circuit.operation op = some ⟨.condBranch, [condition, data], bb⟩)
    (negates : circuit.notOperand condition = some condOperand)
    (areBits : ∀ time, ∀ word ∈ circuit.network.history environment.units time condOperand,
      word.width = 1)
    (areRedundant : ∀ br ∈ redundant, br ≠ op ∧
      ∃ bb, circuit.operation br = some ⟨.condBranch, [condOperand, data], bb⟩) :
    circuit.Keeps environment (circuit.rewrite [] (fun val =>
      if val.op ∈ redundant then ⟨op, swap val.result⟩ else val) redundant) True := by
  have branches : ∀ br ∈ redundant, circuit.isCondBranch br = true := by
    intro br mem
    obtain ⟨-, bb, isBr⟩ := areRedundant br mem
    exact isCondBranch_of_operation isBr
  have regular := @regular_rewrite _ [] (fun val : Value =>
    if val.op ∈ redundant then ⟨op, swap val.result⟩ else val) _ closed branches
    (fun val kept => if_neg kept)
  generalize isImage : (fun val : Value =>
    if val.op ∈ redundant then (⟨op, swap val.result⟩ : Value) else val) = image at regular ⊢
  have opKept : op ∉ redundant := fun mem => (areRedundant op mem).1 rfl
  have notKept : condition.op ∉ redundant := by
    intro mem
    have isBranch := branches _ mem
    rw [not_isCondBranch_of_notOperand negates] at isBranch
    cases isBranch
  have present : circuit.operation op ≠ none := by simp [isOperation]
  have imageCondition : image condition = condition := by
    rw [← isImage]
    exact if_neg notKept
  have after : (circuit.rewrite [] image redundant).circuit.operation op =
      some ⟨.condBranch, [condition, image data], bb⟩ := by
    rw [operation_rewrite (lt_of_operation present) opKept, isOperation, ← imageCondition]
    simp [imageCondition]
  have afterNegates := @notOperand_rewrite _ [] image _ _ _ negates notKept
  refine ⟨fun val lives => regular.covered ?_ lives, fun _ val lives => regular.coveredBack ?_ lives⟩
  · rintro time inductionHypothesis ⟨br, result⟩ - isRedundant
    obtain ⟨-, bb', isBr⟩ := areRedundant br isRedundant
    obtain ⟨later, conditions, datas⟩ := exists_covered_both
      (inductionHypothesis condOperand (closed.lives_rewrite branches (mem_operands isBr (by simp))))
      (inductionHypothesis data (closed.lives_rewrite branches (mem_operands isBr (by simp))))
    have imageBr : image ⟨br, result⟩ = ⟨op, swap result⟩ := by
      rw [← isImage]
      exact if_pos isRedundant
    refine ⟨later + 2, ?_⟩
    rw [imageBr, history_condBranch isBr, history_condBranch after, history_notOperand afterNegates,
      ← resultTokens_swap (areBits time)]
    exact resultTokens_grows (conditions.map _) (datas.trans (history_grows_succ _ _))
  · rintro time inductionHypothesis - ⟨br, result⟩ - isRedundant
    obtain ⟨-, bb', isBr⟩ := areRedundant br isRedundant
    obtain ⟨later, conditions, datas⟩ := exists_covered_both
      (inductionHypothesis condition
        (closed.lives_rewrite branches (mem_operands isOperation (by simp))))
      (inductionHypothesis data (closed.lives_rewrite branches (mem_operands isBr (by simp))))
    have imageBr : image ⟨br, result⟩ = ⟨op, swap result⟩ := by
      rw [← isImage]
      exact if_pos isRedundant
    have negated := conditions.trans (history_grows_succ later condition)
    rw [history_notOperand negates, imageCondition] at negated
    refine ⟨later + 1, ?_⟩
    rw [imageBr, history_condBranch isBr, history_condBranch after, ← resultTokens_swap (areBits later)]
    exact resultTokens_grows negated datas

/-- The results of a branch on a negation and those of one on what it negates cover each other. -/
theorem keeps_removeNot (closed : circuit.Closed)
    (isOperation : circuit.operation op = some ⟨.condBranch, [condition, data], bb⟩)
    (negates : circuit.notOperand condition = some condOperand)
    (areBits : ∀ time, ∀ word ∈ circuit.network.history environment.units time condOperand,
      word.width = 1) (bb' : Option Nat) (width : Nat) :
    circuit.Keeps environment (circuit.rewrite
      [(⟨.condBranch, [condOperand, data], bb'⟩, width)] (fun val =>
        if val.op = op then ⟨circuit.ops.length, swap val.result⟩ else val) [op]) True := by
  have branches : ∀ br ∈ [op], circuit.isCondBranch br = true := by
    intro br mem
    rw [List.mem_singleton.mp mem]
    exact isCondBranch_of_operation isOperation
  have present : circuit.operation op ≠ none := by simp [isOperation]
  have regular := @regular_rewrite _ [(⟨.condBranch, [condOperand, data], bb'⟩, width)]
    (fun val : Value => if val.op = op then ⟨circuit.ops.length, swap val.result⟩ else val) _
    closed branches (fun val kept => if_neg (fun same => kept (List.mem_singleton.mpr same)))
  generalize isImage : (fun val : Value =>
    if val.op = op then (⟨circuit.ops.length, swap val.result⟩ : Value) else val) = image
    at regular ⊢
  have imageOp (result : Nat) : image ⟨op, result⟩ = ⟨circuit.ops.length, swap result⟩ := by
    rw [← isImage]
    exact if_pos rfl
  have newKept : circuit.ops.length + 0 ∉ [op] := fun mem =>
    absurd (lt_of_operation present) (by simp [← List.mem_singleton.mp mem])
  have after : (circuit.rewrite [(⟨.condBranch, [condOperand, data], bb'⟩, width)] image
      [op]).circuit.operation circuit.ops.length =
        some ⟨.condBranch, [image condOperand, image data], bb'⟩ :=
    @operation_rewrite_created _ [(⟨.condBranch, [condOperand, data], bb'⟩, width)] _ _ 0 _ rfl
      newKept
  have operandMem := mem_operands_of_notOperand negates
  have dataMem : data ∈ circuit.operands op := mem_operands isOperation (by simp)
  refine ⟨fun val lives => regular.covered ?_ lives, fun _ val lives => regular.coveredBack ?_ lives⟩
  · rintro time inductionHypothesis ⟨here, result⟩ - isOp
    obtain rfl : op = here := (List.mem_singleton.mp isOp).symm
    obtain ⟨later, conditions, datas⟩ := exists_covered_both
      (inductionHypothesis condOperand (closed.lives_rewrite branches operandMem))
      (inductionHypothesis data (closed.lives_rewrite branches dataMem))
    have negated : circuit.network.history environment.units time condition <+:
        (circuit.network.history environment.units time condOperand).map invert := by
      rw [← history_notOperand negates]
      exact history_grows_succ _ _
    refine ⟨later + 1, ?_⟩
    rw [imageOp, history_condBranch isOperation, history_condBranch after]
    refine (resultTokens_grows negated (List.prefix_refl _)).trans ?_
    have swapped := @resultTokens_swap _ (circuit.network.history environment.units time data)
      (swap result) (areBits time)
    rw [swap_swap] at swapped
    rw [swapped]
    exact resultTokens_grows conditions datas
  · rintro time inductionHypothesis - ⟨here, result⟩ - isOp
    obtain rfl : op = here := (List.mem_singleton.mp isOp).symm
    obtain ⟨later, conditions, datas⟩ := exists_covered_both
      (inductionHypothesis condOperand (closed.lives_rewrite branches operandMem))
      (inductionHypothesis data (closed.lives_rewrite branches dataMem))
    refine ⟨later + 2, ?_⟩
    rw [imageOp, history_condBranch isOperation, history_condBranch after, history_notOperand negates]
    refine (resultTokens_grows conditions (datas.trans (history_grows_succ _ _))).trans ?_
    have swapped := @resultTokens_swap _
      (circuit.network.history environment.units (later + 1) data) (swap result) (areBits later)
    rw [swap_swap] at swapped
    rw [swapped]

end Opposite

section Known

variable {other : Circuit} {pairs : List (Nat × Bool)}

/-- Some branches have got constants for their conditions; what is new is no branch. -/
structure SetsConditions (circuit other : Circuit) (pairs : List (Nat × Bool)) : Prop where
  length_le : circuit.ops.length ≤ other.ops.length
  kept : ∀ op < circuit.ops.length, (∀ pair ∈ pairs, pair.1 ≠ op) →
    other.operation op = circuit.operation op
  set : ∀ op < circuit.ops.length, (∃ pair ∈ pairs, pair.1 = op) →
    ∃ known, (op, known) ∈ pairs ∧ ∃ constOp sourceOp bb,
      other.operation op = ((circuit.operation op).map fun operation =>
        { operation with operands := ⟨constOp, 0⟩ :: operation.operands.tail }) ∧
      other.operation constOp =
        some ⟨.constant (.ofNat 1 known.toNat), [⟨sourceOp, 0⟩], bb⟩ ∧
      other.operation sourceOp = some ⟨.source, [], bb⟩ ∧
      circuit.ops.length ≤ constOp ∧ circuit.ops.length ≤ sourceOp
  fresh : ∀ op, circuit.ops.length ≤ op → other.isCondBranch op = false

theorem operation_setCondition {known : Bool} {br : Nat} (present : op < circuit.ops.length) :
    (setCondition known circuit br).operation op =
      if op = br then (circuit.operation op).map fun operation =>
        { operation with operands := ⟨circuit.ops.length + 1, 0⟩ :: operation.operands.tail }
      else circuit.operation op := by
  have inMap : op < (circuit.ops.mapIdx fun here operation =>
      if here = br then operation.map fun operation : Operation =>
        { operation with operands := ⟨circuit.ops.length + 1, 0⟩ :: operation.operands.tail }
      else operation).length := by simpa using present
  simp only [operation, setCondition, List.getElem?_append_left inMap, List.getElem?_mapIdx]
  cases circuit.ops[op]? with
  | none => split <;> rfl
  | some operation => split <;> rfl

theorem operation_setCondition_new (known : Bool) (br index : Nat) :
    (setCondition known circuit br).operation (circuit.ops.length + index) =
      ([some ⟨.source, [], (circuit.operation br).bind Operation.bb⟩,
        some ⟨.constant (.ofNat 1 known.toNat), [⟨circuit.ops.length, 0⟩],
          (circuit.operation br).bind Operation.bb⟩][index]?).join := by
  simp only [operation, setCondition]
  rw [List.getElem?_append_right (by simp), List.length_mapIdx, Nat.add_sub_cancel_left]

theorem length_setCondition (known : Bool) (br : Nat) :
    (setCondition known circuit br).ops.length = circuit.ops.length + 2 := by
  simp [setCondition]

/-- One branch gets a constant, then others do. -/
theorem SetsConditions.cons {br : Nat} {known : Bool} (inRange : ∀ pair ∈ pairs, pair.1 < circuit.ops.length)
    (rest : SetsConditions (setCondition known circuit br) other pairs) :
    SetsConditions circuit other ((br, known) :: pairs) := by
  have length := @length_setCondition circuit known br
  have keeps : ∀ op, circuit.ops.length ≤ op → op < circuit.ops.length + 2 →
      other.operation op = (setCondition known circuit br).operation op := by
    intro op new inNew
    refine rest.kept op (by omega) fun pair mem same => ?_
    have below := inRange pair mem
    omega
  refine ⟨by have longer := rest.length_le; omega, fun op present untouched => ?_,
    fun op present touched => ?_, fun op new => ?_⟩
  · have differs : op ≠ br := (untouched _ (List.mem_cons_self ..)).symm
    rw [rest.kept op (by omega) fun pair mem => untouched pair (List.mem_cons_of_mem _ mem),
      operation_setCondition present, if_neg differs]
  · by_cases later : ∃ pair ∈ pairs, pair.1 = op
    · obtain ⟨known', mem, constOp, sourceOp, bb, isOp, isConst, isSource, constNew, sourceNew⟩ :=
        rest.set op (by omega) later
      refine ⟨known', List.mem_cons_of_mem _ mem, constOp, sourceOp, bb, ?_, isConst, isSource,
        by omega, by omega⟩
      rw [isOp, operation_setCondition present]
      split
      · cases circuit.operation op <;> rfl
      · rfl
    · have isBr : op = br := by
        obtain ⟨pair, mem, same⟩ := touched
        rcases List.mem_cons.mp mem with rfl | mem
        · exact same.symm
        · exact absurd ⟨pair, mem, same⟩ later
      subst isBr
      refine ⟨known, List.mem_cons_self .., circuit.ops.length + 1, circuit.ops.length,
        (circuit.operation op).bind Operation.bb, ?_, ?_, ?_, by omega, le_rfl⟩
      · rw [rest.kept op (by omega) fun pair mem same => later ⟨pair, mem, same⟩,
          operation_setCondition present, if_pos rfl]
      · rw [keeps _ (by omega) (by omega), operation_setCondition_new]
        rfl
      · rw [keeps _ le_rfl (by omega)]
        exact operation_setCondition_new known op 0
  · by_cases far : circuit.ops.length + 2 ≤ op
    · exact rest.fresh op (by omega)
    · obtain ⟨index, rfl⟩ := Nat.exists_eq_add_of_le new
      rw [isCondBranch, keeps _ new (by omega), operation_setCondition_new]
      rcases index with _ | _ | index
      · rfl
      · rfl
      · omega

theorem setsConditions_foldl (inRange : ∀ pair ∈ pairs, pair.1 < circuit.ops.length) :
    SetsConditions circuit
      (pairs.foldl (fun circuit pair => setCondition pair.2 circuit pair.1) circuit) pairs := by
  induction pairs generalizing circuit with
  | nil =>
      refine ⟨le_rfl, fun _ _ _ => rfl, fun _ _ ⟨_, mem, _⟩ => (nomatch mem), fun op new => ?_⟩
      have none : circuit.operation op = none := by
        rw [operation, List.getElem?_eq_none_iff.mpr new]
        rfl
      simp [isCondBranch, none]
  | cons pair pairs inductionHypothesis =>
      obtain ⟨br, known⟩ := pair
      have rest := fun pair mem => inRange pair (List.mem_cons_of_mem _ mem)
      refine .cons rest (inductionHypothesis fun pair mem => ?_)
      have below := rest pair mem
      have length := @length_setCondition circuit known br
      omega

/-- What a source triggers a constant to put out. -/
theorem history_constant {constOp sourceOp : Nat} {value : Word} {bb bb' : Option Nat}
    (isConst : circuit.operation constOp = some ⟨.constant value, [⟨sourceOp, 0⟩], bb⟩)
    (isSource : circuit.operation sourceOp = some ⟨.source, [], bb'⟩) (time : Nat) :
    circuit.network.history environment.units (time + 2) ⟨constOp, 0⟩ =
      List.replicate time value := by
  rw [Network.history_succ, network_kind 0 isConst, network_operands 0 isConst, List.map_singleton,
    Network.history_succ, network_kind 0 isSource, network_operands 0 isSource]
  exact List.map_replicate

/-- A constant that a source triggers has as many tokens as one wants. -/
theorem exists_constants {constOp sourceOp : Nat} {value : Word} {bb bb' : Option Nat}
    (isConst : circuit.operation constOp = some ⟨.constant value, [⟨sourceOp, 0⟩], bb⟩)
    (isSource : circuit.operation sourceOp = some ⟨.source, [], bb'⟩) (count : Nat) :
    ∃ time, count ≤ (circuit.network.history environment.units time ⟨constOp, 0⟩).length :=
  ⟨count + 2, by rw [history_constant isConst isSource, List.length_replicate]⟩

theorem mem_history_constant {constOp : Nat} {value word : Word} {operands : List Value}
    {bb : Option Nat} (isConst : circuit.operation constOp = some ⟨.constant value, operands, bb⟩)
    {time : Nat}
    (mem : word ∈ circuit.network.history environment.units time ⟨constOp, 0⟩) : word = value := by
  cases time with
  | zero => cases mem
  | succ time =>
      rw [Network.history_succ, network_kind 0 isConst, network_operands 0 isConst] at mem
      match operands, mem with
      | [ctrl], mem =>
          obtain ⟨_, -, same⟩ := List.mem_map.mp mem
          exact same.symm

/-- The branch had a known condition, and what it sends on is no longer than that. -/
structure KnownBranch (circuit : Circuit) (environment : Environment) (keepsUp : Prop) (br : Nat)
    (known : Bool) : Prop where
  known : ∃ condition data bb, circuit.operation br = some ⟨.condBranch, [condition, data], bb⟩ ∧
    (∀ time, ∀ word ∈ circuit.network.history environment.units time condition,
      (!word.isZero) = known) ∧
    (keepsUp → circuit.network.NoLonger environment.units data condition)

/-- Branches on known conditions and the same ones on constants cover each other. -/
theorem SetsConditions.keeps {keepsUp : Prop} (closed : circuit.Closed)
    (sets : SetsConditions circuit other pairs)
    (knowns : ∀ pair ∈ pairs, circuit.KnownBranch environment keepsUp pair.1 pair.2) :
    circuit.Keeps environment ⟨other, id⟩ keepsUp := by
  have stays {val : Value} (present : circuit.operation val.op ≠ none) :
      other.operation val.op ≠ none := by
    by_cases touched : ∃ pair ∈ pairs, pair.1 = val.op
    · obtain ⟨known, -, constOp, sourceOp, bb, isOp, -⟩ :=
        sets.set val.op (lt_of_operation present) touched
      rw [isOp]
      simpa using present
    · rw [sets.kept val.op (lt_of_operation present) fun pair mem same => touched ⟨pair, mem, same⟩]
      exact present
  have lives {user : Nat} {val : Value} (mem : val ∈ circuit.operands user) :
      circuit.Lives other val := .inr ⟨closed.present mem, stays (closed.present mem)⟩
  have regular : circuit.network.Regular other.network (circuit.Lives other)
      (fun val => ∃ pair ∈ pairs, pair.1 = val.op) id := by
    have same {val : Value} (isLive : circuit.Lives other val)
        (untouched : ¬ ∃ pair ∈ pairs, pair.1 = val.op) :
        other.operation val.op = circuit.operation val.op := by
      refine sets.kept val.op (lt_of_operation ?_) fun pair mem same => untouched ⟨pair, mem, same⟩
      rcases isLive with ⟨isBranch, -⟩ | ⟨present, -⟩
      · intro none
        simp [isCondBranch, none] at isBranch
      · exact present
    refine ⟨fun isLive untouched => ?_, fun isLive untouched => ?_, fun _ _ mem => lives mem⟩
    · simp only [network, id, same isLive untouched]
    · simp only [network, operands, id, same isLive untouched, List.map_id]
  have branch {br : Nat} (touched : ∃ pair ∈ pairs, pair.1 = br) :
      ∃ condition data known constOp sourceOp bb bb',
        circuit.operation br = some ⟨.condBranch, [condition, data], bb⟩ ∧
        other.operation br = some ⟨.condBranch, [⟨constOp, 0⟩, data], bb⟩ ∧
        other.operation constOp =
          some ⟨.constant (.ofNat 1 (Bool.toNat known)), [⟨sourceOp, 0⟩], bb'⟩ ∧
        other.operation sourceOp = some ⟨.source, [], bb'⟩ ∧
        (∀ time, ∀ word ∈ circuit.network.history environment.units time condition,
          (!word.isZero) = known) ∧
        (keepsUp → circuit.network.NoLonger environment.units data condition) := by
    have present : br < circuit.ops.length := by
      obtain ⟨pair, mem, rfl⟩ := touched
      obtain ⟨condition, data, bb, isBr, -⟩ := (knowns pair mem).known
      exact lt_of_operation (by simp [isBr])
    obtain ⟨known, mem, constOp, sourceOp, bb', isOp, isConst, isSource, -⟩ :=
      sets.set br present touched
    obtain ⟨condition, data, bb, isBr, areKnown, noLonger⟩ := (knowns _ mem).known
    rw [isBr] at isOp
    exact ⟨condition, data, known, constOp, sourceOp, bb, bb', isBr, isOp, isConst, isSource,
      areKnown, noLonger⟩
  have bit (known : Bool) : (!(Word.ofNat 1 known.toNat).isZero) = known := by
    cases known <;> decide
  refine ⟨fun val isLive => regular.covered ?_ isLive,
    fun up val isLive => regular.coveredBack ?_ isLive⟩
  · rintro time inductionHypothesis ⟨br, result⟩ - touched
    obtain ⟨condition, data, known, constOp, sourceOp, bb, bb', isBr, isOther, isConst, isSource,
      areKnown, -⟩ := branch touched
    obtain ⟨later, datas⟩ := inductionHypothesis data (lives (mem_operands isBr (by simp)))
    obtain ⟨enough, constants⟩ := @exists_constants _ environment _ _ _ _ _ isConst isSource
      (circuit.network.history environment.units time condition).length
    have more : (other.network.history environment.units enough ⟨constOp, 0⟩).length ≤
        (other.network.history environment.units (max later enough) ⟨constOp, 0⟩).length :=
      (Network.history_grows (Nat.le_max_right later enough)).length_le
    refine ⟨max later enough + 1, ?_⟩
    rw [id, history_condBranch isBr, history_condBranch isOther]
    exact resultTokens_known (areKnown time)
      (fun word mem => by rw [mem_history_constant isConst mem, bit])
      (datas.trans (Network.history_grows (Nat.le_max_left _ _)))
      ((Nat.min_le_left _ _).trans (constants.trans more))
  · rintro time inductionHypothesis - ⟨br, result⟩ - touched
    obtain ⟨condition, data, known, constOp, sourceOp, bb, bb', isBr, isOther, isConst, isSource,
      areKnown, noLonger⟩ := branch touched
    obtain ⟨later, datas⟩ := inductionHypothesis data (lives (mem_operands isBr (by simp)))
    obtain ⟨enough, long⟩ := noLonger up later
    refine ⟨max later enough + 1, ?_⟩
    rw [id, history_condBranch isBr, history_condBranch isOther]
    refine resultTokens_known (fun word mem => by rw [mem_history_constant isConst mem, bit])
      (areKnown _) (datas.trans (Network.history_grows (Nat.le_max_left _ _))) ?_
    calc min _ (other.network.history environment.units time data).length
        ≤ (other.network.history environment.units time data).length := Nat.min_le_right _ _
      _ ≤ (circuit.network.history environment.units later data).length := datas.length_le
      _ ≤ (circuit.network.history environment.units enough condition).length := long
      _ ≤ _ := (Network.history_grows (Nat.le_max_right later enough)).length_le

/-- What a branch on its own data, or on the negation of it, sends to a result is known. -/
theorem known_of_inverted {condition data : Value} {bb : Option Nat} {inverted : Bool}
    (isOperation : circuit.operation op = some ⟨.condBranch, [condition, data], bb⟩)
    (isInverted : circuit.inverted condition data = some inverted)
    (areBits : ∀ time, ∀ word ∈ circuit.network.history environment.units time condition,
      word.width = 1) (side : Bool) (time : Nat) :
    ∀ word ∈ circuit.network.history environment.units time ⟨op, if side then 0 else 1⟩,
      (!word.isZero) = (side != inverted) := by
  cases time with
  | zero => exact fun _ mem => nomatch mem
  | succ time =>
      have tokens : circuit.network.history environment.units (time + 1)
          ⟨op, if side then 0 else 1⟩ = branchTokens side
            (circuit.network.history environment.units time condition)
            (circuit.network.history environment.units time data) := by
        rw [history_condBranch isOperation]
        cases side <;> rfl
      rw [tokens]
      refine mem_branchTokens_known ?_
      unfold Circuit.inverted at isInverted
      split at isInverted
      · rename_i same
        cases isInverted
        subst same
        intro pair mem
        have equal : pair.1 = id pair.2 :=
          eq_of_mem_zip_begins (by rw [List.map_id]) mem
        rw [equal, id, Bool.bne_false]
      split at isInverted
      · rename_i negates
        cases isInverted
        have begins : circuit.network.history environment.units time condition <+:
            (circuit.network.history environment.units time data).map invert := by
          rw [← history_notOperand negates]
          exact history_grows_succ _ _
        intro pair mem
        have isBit := width_of_notOperand negates areBits time pair.2 (List.of_mem_zip mem).2
        rw [eq_of_mem_zip_begins begins mem, isZero_invert isBit]
        cases pair.2.isZero <;> rfl
      split at isInverted
      · rename_i negates
        cases isInverted
        have begins : circuit.network.history environment.units time data <+:
            (circuit.network.history environment.units time condition).map invert := by
          rw [← history_notOperand negates]
          exact history_grows_succ _ _
        intro pair mem
        have isBit := areBits time pair.1 (List.of_mem_zip mem).1
        rw [eq_of_mem_zip_begins_right begins mem, isZero_invert isBit]
        cases pair.1.isZero <;> rfl
      · cases isInverted

theorem mem_downstream {br : Nat} {output : Value} (mem : br ∈ circuit.downstream output) :
    ∃ rest bb, circuit.operation br = some ⟨.condBranch, output :: rest, bb⟩ := by
  obtain ⟨⟨kind, operands, bb⟩, isOperation, same⟩ :=
    (Option.any_eq_true _ _).mp (List.mem_filter.mp mem).2
  simp only [Bool.and_eq_true, decide_eq_true_eq] at same
  obtain ⟨rfl, isFirst⟩ := same
  cases operands with
  | nil => cases isFirst
  | cons first rest =>
      cases isFirst
      exact ⟨rest, bb, isOperation⟩

/-- The conditions that come from the results of a branch keep up with the data next to them. -/
def KnownKeepUp (circuit : Circuit) (environment : Environment) (op : Nat) : Prop :=
  ∀ br condition data bb, circuit.operation br = some ⟨.condBranch, [condition, data], bb⟩ →
    condition.op = op → circuit.network.NoLonger environment.units data condition

/-- Branches on the results of a branch with known results cover the ones on constants. -/
theorem keeps_simplifyKnown {rewritten : Rewritten} (closed : circuit.Closed)
    (areBits : ∀ op condition data bb,
      circuit.operation op = some ⟨.condBranch, [condition, data], bb⟩ →
        ∀ time, ∀ word ∈ circuit.network.history environment.units time condition, word.width = 1)
    (matched : circuit.simplifyKnownConditionBranch op = some rewritten) :
    circuit.Keeps environment rewritten (circuit.KnownKeepUp environment op) := by
  unfold simplifyKnownConditionBranch at matched
  split at matched
  case h_2 => cases matched
  rename_i condition data bb isOperation
  split at matched
  case h_2 => cases matched
  rename_i inverted isInverted
  dsimp only at matched
  split at matched
  case isTrue => cases matched
  obtain rfl := Option.some.inj matched.symm
  have branch {br : Nat} {side : Bool} {rest : List Value} {bb : Option Nat}
      (isBr : circuit.operation br =
        some ⟨.condBranch, ⟨op, if side then 0 else 1⟩ :: rest, bb⟩) :
      circuit.KnownBranch environment (circuit.KnownKeepUp environment op) br
        (side != inverted) := by
    obtain ⟨condition', data', same⟩ := closed.branches isBr rfl
    obtain ⟨rfl, rfl⟩ := List.cons.inj same
    exact ⟨_, data', bb, isBr,
      known_of_inverted isOperation isInverted (areBits _ _ _ _ isOperation) side,
      fun up => up br _ data' bb isBr rfl⟩
  have replaced (circuit : Circuit) (output : Value) (known : Bool) :
      circuit.replaceDownstreamCond output known =
        ((circuit.downstream output).map fun br => (br, known)).foldl
          (fun circuit pair => setCondition pair.2 circuit pair.1) circuit := by
    rw [replaceDownstreamCond, List.foldl_map]
  have knowns : ∀ pair ∈ (circuit.downstream ⟨op, 0⟩).map (fun br => (br, !inverted)),
      circuit.KnownBranch environment (circuit.KnownKeepUp environment op) pair.1 pair.2 := by
    intro pair mem
    obtain ⟨br, isDownstream, rfl⟩ := List.mem_map.mp mem
    obtain ⟨rest, bb, isBr⟩ := mem_downstream isDownstream
    exact Bool.true_bne inverted ▸ @branch br true rest bb isBr
  have inRange {br : Nat} {known : Bool} {keepsUp : Prop}
      (is : circuit.KnownBranch environment keepsUp br known) : br < circuit.ops.length := by
    obtain ⟨condition, data, bb, isBr, -⟩ := is.known
    exact lt_of_operation (by simp [isBr])
  have sets := setsConditions_foldl fun pair mem => inRange (knowns pair mem)
  rw [← replaced] at sets
  have others : ∀ pair ∈ ((circuit.replaceDownstreamCond ⟨op, 0⟩ !inverted).downstream
      ⟨op, 1⟩).map (fun br => (br, inverted)),
      circuit.KnownBranch environment (circuit.KnownKeepUp environment op) pair.1 pair.2 := by
    intro pair mem
    obtain ⟨br, isDownstream, rfl⟩ := List.mem_map.mp mem
    obtain ⟨rest, bb, isBr⟩ := mem_downstream isDownstream
    have old : br < circuit.ops.length := by
      by_contra new
      have noBranch := sets.fresh br (not_lt.mp new)
      rw [isCondBranch_of_operation isBr] at noBranch
      cases noBranch
    -- the branches on the other result have constants for their conditions by now
    have untouched : ∀ pair ∈ (circuit.downstream ⟨op, 0⟩).map (fun br => (br, !inverted)),
        pair.1 ≠ br := by
      intro pair mem same
      obtain ⟨known, -, constOp, sourceOp, bb', isOther, -, -, new, -⟩ := sets.set br old ⟨pair, mem, same⟩
      rw [isBr] at isOther
      obtain ⟨operation, -, same⟩ := Option.map_eq_some_iff.mp isOther.symm
      have first : (⟨constOp, 0⟩ : Value) = ⟨op, 1⟩ :=
        (List.cons.inj (congrArg Operation.operands same)).1
      cases first
    rw [sets.kept br old untouched] at isBr
    exact Bool.false_bne inverted ▸ @branch br false rest bb isBr
  have all := List.forall_mem_append.mpr ⟨knowns, others⟩
  have setsAll := setsConditions_foldl fun pair mem => inRange (all pair mem)
  rw [List.foldl_append, ← replaced, ← replaced] at setsAll
  exact setsAll.keeps closed all

end Known

end Circuit

end Dynamatic.Steering
