import Dynamatic.Bitwidth.Cycles

/-!
# The narrowed graph follows the original one

After the rewrite each step is the same step on shorter tokens: the operation takes the
low bits of its operands, and its uses see them extended. As long as the tokens on the
cycle survive the narrowing, a run of the narrowed graph is one of the original graph.
-/

namespace Dynamatic.Bitwidth

namespace State

/-- The state with the tokens on an operation's first result narrowed. -/
def narrow (op width : Nat) (state : State) : State :=
  { state with
    history := Function.update state.history ⟨op, 0⟩
      ((state.history ⟨op, 0⟩).map (Word.truncI width)) }

/-- The state with the tokens on an operation's first result extended back. -/
def restore (op : Nat) (extType : ExtType) (dataWidth : Nat) (state : State) : State :=
  { state with
    history := Function.update state.history ⟨op, 0⟩
      ((state.history ⟨op, 0⟩).map (Word.extend extType dataWidth)) }

variable {graph : Graph} {op : Nat} {optWidth : ExtWidth} {state : State}

@[simp] theorem narrow_history_self (width : Nat) :
    (state.narrow op width).history ⟨op, 0⟩ =
      (state.history ⟨op, 0⟩).map (Word.truncI width) :=
  Function.update_self _ _ _

theorem narrow_history_of_ne {width : Nat} {channel : Channel} (other : channel ≠ ⟨op, 0⟩) :
    (state.narrow op width).history channel = state.history channel :=
  Function.update_of_ne other _ _

/-- The tokens of the narrowed result, once extended back, are those of the wide one. -/
theorem map_extend_truncI (typed : state.Typed graph)
    (survive : ∀ word ∈ state.history ⟨op, 0⟩, word.Survives optWidth) {word : Word}
    (mem : word ∈ state.history ⟨op, 0⟩) :
    (word.truncI optWidth.bitWidth).extend optWidth.extType (graph.type ⟨op, 0⟩).width = word := by
  rw [← typed _ word mem]
  exact survive word mem

theorem restore_narrow (typed : state.Typed graph)
    (survive : ∀ word ∈ state.history ⟨op, 0⟩, word.Survives optWidth) :
    (state.narrow op optWidth.bitWidth).restore op optWidth.extType (graph.type ⟨op, 0⟩).width =
      state := by
  have kept : ((state.history ⟨op, 0⟩).map (Word.truncI optWidth.bitWidth)).map
      (Word.extend optWidth.extType (graph.type ⟨op, 0⟩).width) = state.history ⟨op, 0⟩ := by
    rw [List.map_map]
    exact (List.map_congr_left fun word => map_extend_truncI typed survive).trans (List.map_id _)
  simp only [narrow, restore, Function.update_self, Function.update_idem, kept,
    Function.update_eq_self]

/-- What the uses of the operation's result see after the rewrite. -/
def extended (graph : Graph) (op : Nat) (extType : ExtType) : Wire :=
  if extType = .zext then .extUI (graph.width (.channel ⟨op, 0⟩)) (.channel ⟨op, 0⟩)
  else .extSI (graph.width (.channel ⟨op, 0⟩)) (.channel ⟨op, 0⟩)

theorem tokenAt_extended (typed : state.Typed graph)
    (survive : ∀ word ∈ state.history ⟨op, 0⟩, word.Survives optWidth) (position : Nat) :
    (state.narrow op optWidth.bitWidth).tokenAt position (extended graph op optWidth.extType) =
      (state.history ⟨op, 0⟩)[position]? := by
  have token : (state.narrow op optWidth.bitWidth).tokenAt position
      (extended graph op optWidth.extType) =
        ((state.history ⟨op, 0⟩)[position]?.map (Word.truncI optWidth.bitWidth)).map
          (Word.extend optWidth.extType (graph.type ⟨op, 0⟩).width) := by
    have narrowed : (state.narrow op optWidth.bitWidth).tokenAt position (.channel ⟨op, 0⟩) =
        (state.history ⟨op, 0⟩)[position]?.map (Word.truncI optWidth.bitWidth) := by
      rw [tokenAt, narrow_history_self, List.getElem?_map]
    rw [← narrowed, extended]
    split
    · rename_i kind
      rw [kind]
      rfl
    · rename_i kind
      refine congrArg (Option.map · _) (funext fun word => ?_)
      exact (if_neg kind).symm
  rw [token, Option.map_map]
  cases held : (state.history ⟨op, 0⟩)[position]? with
  | none => rfl
  | some word =>
      exact congrArg some (map_extend_truncI typed survive (List.mem_of_getElem? held))

/-- A wire carries the same tokens after the rewrite. -/
theorem tokenAt_replace (typed : state.Typed graph)
    (survive : ∀ word ∈ state.history ⟨op, 0⟩, word.Survives optWidth) (position : Nat)
    (wire : Wire) :
    (state.narrow op optWidth.bitWidth).tokenAt position
        (Wire.replace ⟨op, 0⟩ (extended graph op optWidth.extType) wire) =
      state.tokenAt position wire := by
  induction wire with
  | channel source =>
      rw [Wire.replace]
      split
      · rename_i isResult
        rw [isResult]
        exact tokenAt_extended typed survive position
      · rename_i other
        rw [tokenAt, tokenAt, narrow_history_of_ne other]
  | extSI width operand inductionHypothesis | extUI width operand inductionHypothesis
  | truncI width operand inductionHypothesis | constant value ctrl inductionHypothesis =>
      exact congrArg (Option.map _) inductionHypothesis

theorem peek_replace (typed : state.Typed graph)
    (survive : ∀ word ∈ state.history ⟨op, 0⟩, word.Survives optWidth) (taker : Nat)
    (operands : List Wire) :
    (state.narrow op optWidth.bitWidth).peek taker
        (operands.map (Wire.replace ⟨op, 0⟩ (extended graph op optWidth.extType))) =
      state.peek taker operands := by
  funext index
  rw [peek, peek, List.getElem?_map, Option.bind_map]
  exact congrArg _ (funext fun wire => tokenAt_replace typed survive _ wire)

theorem past_replace (typed : state.Typed graph)
    (survive : ∀ word ∈ state.history ⟨op, 0⟩, word.Survives optWidth) (taker : Nat)
    (operands : List Wire) :
    (state.narrow op optWidth.bitWidth).past taker
        (operands.map (Wire.replace ⟨op, 0⟩ (extended graph op optWidth.extType))) =
      state.past taker operands := by
  funext index
  rw [past, past, List.getElem?_map]
  cases operands[index]? with
  | none => rfl
  | some wire =>
      exact List.filterMap_congr fun position _ => tokenAt_replace typed survive position wire

/-- The operation that was narrowed sees the low bits of its data operands. -/
theorem peek_newOperands (typed : state.Typed graph)
    (survive : ∀ word ∈ state.history ⟨op, 0⟩, word.Survives optWidth) {operation : Operation}
    (widths : ∀ wire ∈ Graph.forwarded operation, optWidth.bitWidth ≤ graph.width wire)
    (index : Nat) :
    (state.narrow op optWidth.bitWidth).peek op
        ((graph.newOperands operation optWidth.bitWidth).map
          (Wire.replace ⟨op, 0⟩ (extended graph op optWidth.extType))) index =
      if index ∈ Graph.forwardedIndices operation then
        (state.peek op operation.operands index).map (Word.truncI optWidth.bitWidth)
      else state.peek op operation.operands index := by
  rw [peek_replace typed survive, peek, Graph.newOperands, List.getElem?_mapIdx]
  cases operand : operation.operands[index]? with
  | none => simp [peek, operand]
  | some wire =>
      rw [Option.map_some, Option.bind_some]
      split
      · rename_i forwards
        rw [tokenAt_modBitWidth_getMinimalWire typed (widths wire (Graph.mem_forwarded forwards operand)),
          peek, operand, Option.bind_some]
      · rw [peek, operand, Option.bind_some]

/-- A firing of another operation leaves the narrowed tokens alone. -/
theorem narrow_after_of_ne {fired width : Nat} (other : fired ≠ op) (takes : List Nat)
    (emits : List (Nat × Word)) :
    (state.after fired takes emits).narrow op width =
      (state.narrow op width).after fired takes emits := by
  refine congrArg₂ State.mk (funext fun channel => ?_) rfl
  by_cases result : channel = ⟨op, 0⟩
  · subst result
    simp only [after, narrow, Function.update_self, if_neg (Ne.symm other)]
  · simp only [after, narrow, Function.update_of_ne result]

/-- The low bits of what is emitted on the first result. -/
def truncEmits (width : Nat) (emits : List (Nat × Word)) : List (Nat × Word) :=
  emits.map fun emit => (emit.1, if emit.1 = 0 then emit.2.truncI width else emit.2)

private theorem filter_truncEmits (width result : Nat) (emits : List (Nat × Word)) :
    ((truncEmits width emits).filter fun emit => emit.1 = result).map Prod.snd =
      ((emits.filter fun emit => emit.1 = result).map Prod.snd).map fun word =>
        if result = 0 then word.truncI width else word := by
  rw [truncEmits, List.filter_map, List.map_map, List.map_map]
  refine List.map_congr_left fun emit mem => ?_
  rw [Function.comp_apply, Function.comp_apply, of_decide_eq_true (List.mem_filter.mp mem).2]

/-- A firing of the narrowed operation emits the low bits. -/
theorem narrow_after_self (width : Nat) (takes : List Nat) (emits : List (Nat × Word)) :
    (state.after op takes emits).narrow op width =
      (state.narrow op width).after op takes (truncEmits width emits) := by
  refine congrArg₂ State.mk (funext fun channel => ?_) rfl
  obtain ⟨fired, result⟩ := channel
  simp only [filter_truncEmits]
  by_cases own : fired = op
  · subst own
    rw [if_pos rfl]
    cases result with
    | zero =>
        simp only [after, narrow, Function.update_self, if_pos, List.map_append]
    | succ result =>
        have other : Channel.mk fired (result + 1) ≠ ⟨fired, 0⟩ := by simp
        rw [narrow_history_of_ne other, Function.update_of_ne other, List.map_id'' fun word => ?_]
        · exact if_pos rfl
        · exact if_neg (Nat.succ_ne_zero result)
  · have other : Channel.mk fired result ≠ ⟨op, 0⟩ := fun same => own (congrArg Channel.op same)
    rw [if_neg own, narrow_history_of_ne other, Function.update_of_ne other]
    exact if_neg own

end State

namespace Graph

variable {graph : Graph} {op : Nat} {optWidth : ExtWidth} {state : State} {label : Label}

/-- What a firing does depends on the types of its own results only. -/
theorem fires_congr {other : Graph} (kind : OpKind) (numOperands : Nat) (past : Nat → List Word)
    (peek : Nat → Option Word)
    (type : ∀ result, other.type ⟨label.op, result⟩ = graph.type ⟨label.op, result⟩)
    (behavior : other.behavior = graph.behavior) :
    other.fires kind numOperands label past peek = graph.fires kind numOperands label past peek := by
  cases kind <;> simp only [fires, type, behavior]

/-- A merge-like operation on the low bits of its data forwards the low bits. -/
theorem fires_narrow {other : Graph} {operation : Operation} (past : Nat → List Word)
    {past' : Nat → List Word} {peek peek' : Nat → Option Word} {width : Nat}
    (kind : operation.kind = .merge ∨ operation.kind = .mux ∨ operation.kind = .controlMerge)
    (type : other.type ⟨label.op, 1⟩ = graph.type ⟨label.op, 1⟩)
    (peeks : ∀ index, peek' index = if index ∈ forwardedIndices operation then
      (peek index).map (Word.truncI width) else peek index)
    (beyond : ∀ index, operation.operands.length ≤ index → peek index = none) :
    other.fires operation.kind operation.operands.length label past' peek' =
      (graph.fires operation.kind operation.operands.length label past peek).map fun fired =>
        (fired.1, State.truncEmits width fired.2) := by
  have data : ∀ index, index ∈ forwardedIndices operation ∨ operation.operands.length ≤ index →
      peek' index = (peek index).map (Word.truncI width) := by
    intro index isData
    rw [peeks index]
    split
    · rfl
    · rename_i outside
      rw [beyond index (isData.resolve_left outside)]
      rfl
  obtain ⟨kind', operands⟩ := operation
  obtain rfl | rfl | rfl := kind
  · simp only [fires]
    rw [data label.choice (by simp only [forwardedIndices, List.mem_range]; omega)]
    cases peek label.choice with
    | none => rfl
    | some word => rfl
  · simp only [fires]
    rw [peeks 0, if_neg (by simp [forwardedIndices])]
    cases peek 0 with
    | none => rfl
    | some select =>
        simp only [Option.bind_eq_bind, Option.bind_some]
        rw [data (select.bits.toNat + 1) (by simp [forwardedIndices]; omega)]
        cases peek (select.bits.toNat + 1) with
        | none => rfl
        | some word => rfl
  · simp only [fires]
    rw [data label.choice (by simp only [forwardedIndices, List.mem_range]; omega), type]
    cases peek label.choice with
    | none => rfl
    | some word => rfl

/-- An operation of the narrowed graph. -/
theorem narrowed_ops (index : Nat) :
    (graph.narrowed op optWidth).ops[index]? = graph.ops[index]?.map fun operation =>
      { operation with
        operands := (if index = op then graph.newOperands operation optWidth.bitWidth
          else operation.operands).map
            (Wire.replace ⟨op, 0⟩ (State.extended graph op optWidth.extType)) } :=
  List.getElem?_mapIdx

variable (label) in
/-- One step of the narrowed graph is one of the original graph. -/
theorem step_narrowed (typed : state.Typed graph)
    (survive : ∀ word ∈ state.history ⟨op, 0⟩, word.Survives optWidth)
    (kind : ∀ operation, graph.ops[op]? = some operation →
      operation.kind = .merge ∨ operation.kind = .mux ∨ operation.kind = .controlMerge)
    (widths : ∀ operation, graph.ops[op]? = some operation →
      ∀ wire ∈ forwarded operation, optWidth.bitWidth ≤ graph.width wire) :
    (graph.narrowed op optWidth).step (state.narrow op optWidth.bitWidth) label =
      (graph.step state label).map (State.narrow op optWidth.bitWidth) := by
  rw [step, step, narrowed_ops]
  cases defines : graph.ops[label.op]? with
  | none => rfl
  | some operation =>
      simp only [Option.map_some, Option.bind_eq_bind, Option.bind_some]
      by_cases own : label.op = op
      · subst own
        have type : (graph.narrowed label.op optWidth).type ⟨label.op, 1⟩ =
            graph.type ⟨label.op, 1⟩ := Function.update_of_ne (by simp) _ _
        have beyond : ∀ index, operation.operands.length ≤ index →
            state.peek label.op operation.operands index = none := by
          intro index outside
          rw [State.peek, List.getElem?_eq_none outside]
          rfl
        have length : (graph.newOperands operation optWidth.bitWidth).length =
            operation.operands.length := List.length_mapIdx
        rw [if_pos rfl, List.length_map, length,
          fires_narrow (state.past label.op operation.operands) (kind operation defines) type
            (State.peek_newOperands typed survive (widths operation defines)) beyond,
          Option.bind_map, Option.map_bind]
        refine congrArg (Option.bind _) (funext fun fired => ?_)
        exact congrArg some (State.narrow_after_self _ _ _).symm
      · have types : ∀ result, (graph.narrowed op optWidth).type ⟨label.op, result⟩ =
            graph.type ⟨label.op, result⟩ := fun result =>
          Function.update_of_ne (fun same => own (congrArg Channel.op same)) _ _
        rw [if_neg own, List.length_map, State.peek_replace typed survive,
          State.past_replace typed survive, fires_congr operation.kind _ _ _ types rfl,
          Option.map_bind]
        refine congrArg (Option.bind _) (funext fun fired => ?_)
        exact congrArg some (State.narrow_after_of_ne own _ _).symm

theorem run_append (graph : Graph) (labels : List Label) (label : Label) :
    graph.run (labels ++ [label]) = (graph.run labels).bind fun state => graph.step state label := by
  rw [run, List.foldlM_append]
  refine congrArg (Option.bind _) (funext fun state => ?_)
  rw [List.foldlM_cons]
  exact bind_pure _

/-- In a run whose indices survive, the tokens on the cycle do, and the narrowed graph makes
the same run. -/
theorem run_narrowed (verified : graph.Verified) (narrows : graph.forwardCycleOpt op = some optWidth)
    {labels : List Label} (indices : ∀ label ∈ labels, graph.IndexSurvives op optWidth label) :
    (graph.narrowed op optWidth).run labels =
        (graph.run labels).map (State.narrow op optWidth.bitWidth) ∧
      ∀ state, graph.run labels = some state → state.Typed graph ∧
        ∀ word ∈ state.history ⟨op, 0⟩, word.Survives optWidth := by
  obtain ⟨operation, dataWidth, defines, kind, type, result, less⟩ :=
    forwardCycleOpt_eq_some narrows
  have forwards : operation.kind.forwards = true := by
    obtain kind | kind | kind := kind <;> rw [kind] <;> rfl
  have le : optWidth.bitWidth ≤ (graph.type ⟨op, 0⟩).width := by
    rw [type]
    exact Nat.le_of_lt less
  have widths : ∀ other, graph.ops[op]? = some other →
      ∀ wire ∈ forwarded other, optWidth.bitWidth ≤ graph.width wire := by
    intro other otherDefines wire mem
    rw [verified.forwardedWidth otherDefines mem (graph.isIndex_zero op)]
    exact le
  obtain ⟨source, values, sourceEq, inValues, closed⟩ := inCycle_result defines forwards
  cases sourceEq
  suffices (graph.narrowed op optWidth).run labels =
        (graph.run labels).map (State.narrow op optWidth.bitWidth) ∧
      ∀ state, graph.run labels = some state → state.Sourced graph ∧
        ∀ source, values source → ∀ word ∈ state.history source, word.Survives optWidth from
    ⟨this.1, fun state runs => ⟨(this.2 state runs).1.typed, (this.2 state runs).2 _ inValues⟩⟩
  induction labels using List.reverseRecOn with
  | nil =>
      refine ⟨?_, fun state start => ?_⟩
      · have narrowed : State.initial.narrow op optWidth.bitWidth = .initial :=
          congrArg₂ State.mk (Function.update_eq_self _ _) rfl
        exact congrArg some narrowed.symm
      · cases start
        exact ⟨.initial, fun _ _ _ mem => absurd mem List.not_mem_nil⟩
  | append_singleton labels label inductionHypothesis =>
      obtain ⟨same, invariant⟩ := inductionHypothesis fun label mem =>
        indices label (List.mem_append_left _ mem)
      have index := indices label (List.mem_append_right _ (List.mem_singleton_self label))
      rw [run_append, run_append, same]
      cases runs : graph.run labels with
      | none => exact ⟨rfl, nofun⟩
      | some state =>
          obtain ⟨sourced, survive⟩ := invariant state runs
          have step := step_narrowed label sourced.typed (survive _ inValues)
            (fun other otherDefines => Option.some.inj (defines.symm.trans otherDefines) ▸ kind) widths
          refine ⟨step, fun next steps => ⟨sourced.step verified steps, ?_⟩⟩
          intro source mem word inHistory
          obtain old | emitted := step_emits steps inHistory
          · exact survive source mem word old
          · exact closed.survives_of_emitted verified result le sourced survive index mem emitted

end Graph

/-- The narrowed graph makes the runs of the original graph: extended back, its tokens are the
original ones. Indices that lead to the narrowed result must survive the narrowing. -/
theorem restore_run_narrowed {graph : Graph} {op : Nat} {optWidth : ExtWidth} {labels : List Label}
    (verified : graph.Verified) (narrows : graph.forwardCycleOpt op = some optWidth)
    (indices : ∀ label ∈ labels, graph.IndexSurvives op optWidth label) :
    ((graph.narrowed op optWidth).run labels).map
      (State.restore op optWidth.extType (graph.type ⟨op, 0⟩).width) = graph.run labels := by
  obtain ⟨same, invariant⟩ := Graph.run_narrowed verified narrows indices
  rw [same]
  cases runs : graph.run labels with
  | none => rfl
  | some state =>
      obtain ⟨typed, survive⟩ := invariant state runs
      exact congrArg some (State.restore_narrow typed survive)

/-- A merge of an extended bit and of its own buffered result. -/
def bitLoop : Graph where
  ops :=
    [ ⟨.argument, []⟩
    , ⟨.merge, [.extUI 8 (.channel ⟨0, 0⟩), .channel ⟨2, 0⟩]⟩
    , ⟨.buffer, [.channel ⟨1, 0⟩]⟩ ]
  type := fun channel => .integer (if channel.op = 0 then 1 else 8)
  behavior := fun _ _ _ => []

theorem bitLoop_verified : bitLoop.Verified where
  forwardedWidth := by
    rintro (_ | _ | _ | op) operation result wire defines mem data
    all_goals cases defines
    all_goals simp [Graph.forwarded, Graph.forwardedIndices, List.range_succ] at mem
    · obtain rfl | rfl := mem <;> rfl
    · subst mem
      rfl

/-- The bit circulates through the narrowed merge. -/
theorem restore_run_narrowed_bitLoop :
    let labels : List Label := [⟨0, 0, 1, []⟩, ⟨1, 0, 0, []⟩, ⟨2, 0, 0, []⟩, ⟨1, 1, 0, []⟩]
    (bitLoop.run labels).map (fun state => state.history ⟨1, 0⟩) =
        some [.ofNat 8 1, .ofNat 8 1] ∧
      ((bitLoop.narrowed 1 ⟨.zext, 1⟩).run labels).map (State.restore 1 .zext 8) =
        bitLoop.run labels := by
  intro labels
  have narrows : bitLoop.forwardCycleOpt 1 = some ⟨.zext, 1⟩ := by decide +kernel
  have noIndex : ∀ label ∈ labels, bitLoop.isIndex ⟨label.op, 1⟩ = false := by decide +kernel
  refine ⟨by decide +kernel, restore_run_narrowed bitLoop_verified narrows ?_⟩
  intro label mem index
  exact absurd index (Bool.eq_false_iff.mp (noIndex label mem))

/-- The index of a control merge is merged with its own buffered value; the data of the
control merge are single bits, one of which circulates. -/
def indexLoop : Graph where
  ops :=
    [ ⟨.argument, []⟩
    , ⟨.argument, []⟩
    , ⟨.controlMerge, [.channel ⟨3, 0⟩, .channel ⟨0, 0⟩, .channel ⟨1, 0⟩]⟩
    , ⟨.buffer, [.channel ⟨2, 0⟩]⟩
    , ⟨.merge, [.channel ⟨2, 1⟩, .channel ⟨5, 0⟩]⟩
    , ⟨.buffer, [.channel ⟨4, 0⟩]⟩ ]
  type := fun channel =>
    .integer (if channel.op = 4 ∨ channel.op = 5 ∨ channel.op = 2 ∧ channel.result ≠ 0 then 2 else 1)
  behavior := fun _ _ _ => []

theorem indexLoop_verified : indexLoop.Verified where
  forwardedWidth := by
    rintro (_ | _ | _ | _ | _ | _ | op) operation result wire defines mem data
    all_goals cases defines
    all_goals simp [Graph.forwarded, Graph.forwardedIndices, List.range_succ] at mem
    · have dataResult : result = 0 := by simpa [Graph.isIndex, indexLoop] using data
      subst dataResult
      obtain rfl | rfl | rfl := mem <;> rfl
    · subst mem
      rfl
    · obtain rfl | rfl := mem <;> rfl
    · subst mem
      rfl

/-- The index 1 is narrowed to a bit and extended to 3. -/
theorem index_not_restored : ¬ ∀ (graph : Graph) (op : Nat) (optWidth : ExtWidth)
    (labels : List Label), graph.Verified → graph.forwardCycleOpt op = some optWidth →
      ((graph.narrowed op optWidth).run labels).map
        (State.restore op optWidth.extType (graph.type ⟨op, 0⟩).width) = graph.run labels := by
  intro restored
  have same := restored indexLoop 4 ⟨.none, 1⟩ [⟨0, 0, 1, []⟩, ⟨2, 1, 0, []⟩, ⟨4, 0, 0, []⟩]
    indexLoop_verified (by decide +kernel)
  have tokens := congrArg (Option.map fun state => state.history ⟨4, 0⟩) same
  revert tokens
  decide +kernel

end Dynamatic.Bitwidth
