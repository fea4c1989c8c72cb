import Dynamatic.Bitwidth.ArithSingleType
import Dynamatic.Bitwidth.ForwardCycle

/-!
# Where tokens come from

A forwarding operation puts on its data results only tokens of its data operands. A
value is followed back to its minimal value through such operations, so each of its
tokens stands for an integer that the minimal value's width represents.
-/

namespace Dynamatic.Bitwidth

namespace Word

/-- An integer modulo the width. -/
def ofInt (width : Nat) (number : Int) : Word := ⟨width, BitVec.ofInt width number⟩

/-- The integer that a word stands for. -/
def number (extType : ExtType) (word : Word) : Int :=
  (MinimalValue.mk extType word.width word.bits).number

/-- The extension to a width, by its kind. -/
def extend (extType : ExtType) (width : Nat) (word : Word) : Word :=
  if extType = .zext then word.extUI width else word.extSI width

/-- Narrowing to the width and extending back gives the word. -/
def Survives (extWidth : ExtWidth) (word : Word) : Prop :=
  (word.truncI extWidth.bitWidth).extend extWidth.extType word.width = word

instance (extWidth : ExtWidth) (word : Word) : Decidable (word.Survives extWidth) :=
  inferInstanceAs (Decidable (_ = _))

/-- The word stands for an integer that the kind of extension and the width represent. -/
def Represented (extWidth : ExtWidth) (word : Word) : Prop :=
  ∃ number, word = ofInt word.width number ∧ Fits extWidth.extType extWidth.bitWidth number

section Numbers

variable {extWidth : ExtWidth} {word : Word} {width : Nat}

theorem extUI_eq : word.extUI width = ofInt width (word.number .zext) := by
  change Word.mk width (word.bits.setWidth width) = ⟨width, BitVec.ofInt width (word.bits.toNat : Int)⟩
  rw [BitVec.ofInt_natCast, BitVec.ofNat_toNat]

theorem extend_eq (extType : ExtType) :
    word.extend extType width = ofInt width (word.number extType) := by
  cases extType with
  | none => rfl
  | zext => exact extUI_eq
  | sext => rfl

theorem number_ofInt {extType : ExtType} {number : Int} (fits : Fits extType width number) :
    (ofInt width number).number extType = number :=
  Bitwidth.number_ofInt fits

theorem truncI_ofInt {dataWidth : Nat} {number : Int} (le : width ≤ dataWidth) :
    (ofInt dataWidth number).truncI width = ofInt width number :=
  congrArg (Word.mk width) (setWidth_ofInt le)

theorem eq_ofInt (extType : ExtType) (word : Word) :
    word = ofInt word.width (word.number extType) := by
  cases extType with
  | none => exact congrArg (Word.mk word.width) BitVec.ofInt_toInt.symm
  | zext => rw [← extUI_eq, extUI, BitVec.setWidth_eq]
  | sext => exact congrArg (Word.mk word.width) BitVec.ofInt_toInt.symm

theorem fits_number (extType : ExtType) (word : Word) :
    Fits extType word.width (word.number extType) :=
  MinimalValue.fits ⟨extType, word.width, word.bits⟩

theorem ofNat_zero : ofNat width 0 = ofInt width 0 :=
  congrArg (Word.mk width) (BitVec.ofInt_natCast width 0).symm

theorem represented_zero (extWidth : ExtWidth) (width : Nat) :
    (ofNat width 0).Represented extWidth := by
  refine ⟨0, ofNat_zero, ?_⟩
  have positive : (0 : Int) < 2 ^ extWidth.bitWidth := by positivity
  cases extWidth.extType with
  | none => exact ⟨by omega, by omega⟩
  | zext => exact ⟨le_refl 0, positive⟩
  | sext => exact ⟨by omega, by omega⟩

/-- A represented word survives. -/
theorem Represented.survives (represented : word.Represented extWidth)
    (le : extWidth.bitWidth ≤ word.width) : word.Survives extWidth := by
  obtain ⟨number, wordEq, fits⟩ := represented
  rw [Survives, extend_eq]
  have truncated : word.truncI extWidth.bitWidth = ofInt extWidth.bitWidth number := by
    rw [wordEq]
    exact truncI_ofInt le
  rw [truncated, number_ofInt fits, ← wordEq]

end Numbers

end Word

section Result

variable {operands : List ExtWidth} {operand : ExtWidth}

private theorem bitWidth_le_foldr (mem : operand ∈ operands) :
    operand.bitWidth ≤ (operands.map ExtWidth.bitWidth).foldr max 0 := by
  induction operands with
  | nil => cases mem
  | cons first rest inductionHypothesis =>
      rw [List.map_cons, List.foldr_cons]
      cases mem with
      | head => exact Nat.le_max_left _ _
      | tail _ inRest => exact Nat.le_trans (inductionHypothesis inRest) (Nat.le_max_right _ _)

theorem Fits.mono {extType : ExtType} {small large : Nat} {number : Int}
    (fits : Fits extType small number) (le : small ≤ large) : Fits extType large number := by
  cases extType with
  | none => exact Fits.sext_mono fits le
  | zext => exact fits.zext_mono le
  | sext => exact fits.sext_mono le

/-- The result represents what one of the forwarded values represents. -/
theorem fits_computeDataForwardResult {number : Int} (mem : operand ∈ operands)
    (fits : Fits operand.extType operand.bitWidth number) :
    Fits (computeDataForwardResult operands).extType (computeDataForwardResult operands).bitWidth
      number := by
  have le := bitWidth_le_foldr mem
  cases operands with
  | nil => cases mem
  | cons first rest =>
      simp only [computeDataForwardResult]
      split
      · rename_i same
        have kind : operand.extType = first.extType := by
          cases mem with
          | head => rfl
          | tail _ inRest => exact of_decide_eq_true (List.all_eq_true.mp same _ inRest)
        rw [← kind]
        exact fits.mono le
      · split
        · cases kind : operand.extType with
          | zext => exact (kind ▸ fits).sext_of_zext (Nat.lt_succ_of_le le)
          | none => exact Fits.mono (kind ▸ fits : Fits .none _ _) (Nat.le_succ_of_le le)
          | sext => exact Fits.mono (kind ▸ fits) (Nat.le_succ_of_le le)
        · rename_i widest
          cases kind : operand.extType with
          | zext =>
              refine (kind ▸ fits).sext_of_zext (Nat.lt_of_le_of_ne le fun same => widest ?_)
              exact List.any_eq_true.mpr ⟨operand, mem, by simp [kind, same]⟩
          | none => exact Fits.mono (kind ▸ fits : Fits .none _ _) le
          | sext => exact Fits.mono (kind ▸ fits) le

theorem Word.Represented.computeDataForwardResult {word : Word} (mem : operand ∈ operands)
    (represented : word.Represented operand) :
    word.Represented (computeDataForwardResult operands) := by
  obtain ⟨number, wordEq, fits⟩ := represented
  exact ⟨number, wordEq, fits_computeDataForwardResult mem fits⟩

end Result

namespace State

/-- A token of the wire. -/
def Carries (state : State) (wire : Wire) (word : Word) : Prop :=
  ∃ position, state.tokenAt position wire = some word

/-- The tokens on a channel have its width. -/
def Typed (graph : Graph) (state : State) : Prop :=
  ∀ channel, ∀ word ∈ state.history channel, word.width = (graph.type channel).width

variable {graph : Graph} {state : State} {wire : Wire} {word : Word}

theorem carries_channel {source : Channel} :
    state.Carries (.channel source) word ↔ word ∈ state.history source :=
  List.mem_iff_getElem?.symm

theorem Typed.width_eq (typed : state.Typed graph) (carries : state.Carries wire word) :
    word.width = graph.width wire := by
  obtain ⟨position, token⟩ := carries
  cases wire with
  | channel source => exact typed source word (List.mem_of_getElem? token)
  | extSI width operand =>
      obtain ⟨_, _, rfl⟩ := Option.map_eq_some_iff.mp token
      rfl
  | extUI width operand =>
      obtain ⟨_, _, rfl⟩ := Option.map_eq_some_iff.mp token
      rfl
  | truncI width operand =>
      obtain ⟨_, _, rfl⟩ := Option.map_eq_some_iff.mp token
      rfl
  | constant value ctrl =>
      obtain ⟨_, _, rfl⟩ := Option.map_eq_some_iff.mp token
      rfl

/-- A token of an unextended wire is its own minimal value. -/
private theorem tokenAt_eq_map (typed : state.Typed graph) (position : Nat) :
    state.tokenAt position wire = (state.tokenAt position wire).map fun word =>
      Word.ofInt (graph.width wire) (word.number .none) := by
  cases token : state.tokenAt position wire with
  | none => rfl
  | some word =>
      rw [Option.map_some, ← typed.width_eq ⟨position, token⟩]
      exact congrArg some (word.eq_ofInt .none)

theorem ofInt_number_ofConstant (value : Word) :
    value = Word.ofInt value.width (MinimalValue.ofConstant value.bits).number :=
  congrArg (Word.mk value.width) (ofInt_number_getMinimalValue (.constant value.bits)).symm

/-- A token of a wire stands for the same integer as the token of its minimal value. -/
theorem tokenAt_getMinimalWire (typed : state.Typed graph) (wire : Wire) (position : Nat) :
    state.tokenAt position wire =
      (state.tokenAt position (getMinimalWire wire).wire).map fun word =>
        Word.ofInt (graph.width wire) (word.number (getMinimalWire wire).extType) := by
  cases wire with
  | channel source => exact tokenAt_eq_map typed position
  | truncI width operand => exact tokenAt_eq_map typed position
  | extSI width operand => rfl
  | extUI width operand => exact congrArg (Option.map · _) (funext fun _ => Word.extUI_eq)
  | constant value ctrl =>
      have is := ofInt_number_ofConstant value
      simp only [getMinimalWire, MinimalWire.ofConstant, MinimalValue.ofConstant] at is ⊢
      split
      · exact tokenAt_eq_map typed position
      · rename_i narrow
        rw [if_neg narrow] at is
        rw [tokenAt, tokenAt, Option.map_map]
        exact congrArg (Option.map · _) (funext fun _ => is)

/-- A token of a wire is represented as its minimal value is. -/
theorem Typed.represented (typed : state.Typed graph) (carries : state.Carries wire word) :
    word.Represented ⟨(getMinimalWire wire).extType, graph.width (getMinimalWire wire).wire⟩ := by
  have width := typed.width_eq carries
  obtain ⟨position, token⟩ := carries
  rw [tokenAt_getMinimalWire typed wire position, Option.map_eq_some_iff] at token
  obtain ⟨minimal, minimalToken, wordEq⟩ := token
  refine ⟨minimal.number (getMinimalWire wire).extType, ?_, ?_⟩
  · rw [width]
    exact wordEq.symm
  · rw [← typed.width_eq ⟨position, minimalToken⟩]
    exact minimal.fits_number _

/-- A minimal value with its width modified stands for the same integer. -/
theorem tokenAt_modBitWidth (typed : state.Typed graph) (minimal : MinimalWire)
    (target position : Nat) :
    state.tokenAt position (graph.modBitWidth minimal target) =
      (state.tokenAt position minimal.wire).map fun word =>
        Word.ofInt target (word.number minimal.extType) := by
  have kept : target ≤ graph.width minimal.wire → ∀ word ∈ state.tokenAt position minimal.wire,
      word.truncI target = Word.ofInt target (word.number minimal.extType) := by
    intro le word token
    rw [← typed.width_eq ⟨position, token⟩] at le
    conv_lhs => rw [word.eq_ofInt minimal.extType]
    exact Word.truncI_ofInt le
  rw [Graph.modBitWidth]
  split
  · rename_i same
    cases token : state.tokenAt position minimal.wire with
    | none => rfl
    | some word =>
        rw [Option.map_some, ← same, ← typed.width_eq ⟨position, token⟩]
        exact congrArg some (word.eq_ofInt _)
  · split
    · split
      · rename_i kind
        rw [kind]
        exact congrArg (Option.map · _) (funext fun _ => Word.extUI_eq)
      · rename_i kind
        refine congrArg (Option.map · _) (funext fun word => ?_)
        rw [← Word.extend_eq, Word.extend, if_neg kind]
    · exact Option.map_congr (kept (by omega))

/-- The minimal value of a wire, with its width modified, gives the low bits of the wire's
token. -/
theorem tokenAt_modBitWidth_getMinimalWire (typed : state.Typed graph) {target : Nat}
    (le : target ≤ graph.width wire) (position : Nat) :
    state.tokenAt position (graph.modBitWidth (getMinimalWire wire) target) =
      (state.tokenAt position wire).map (Word.truncI target) := by
  rw [tokenAt_modBitWidth typed, tokenAt_getMinimalWire typed wire, Option.map_map]
  exact congrArg (Option.map · _) (funext fun _ => (Word.truncI_ofInt le).symm)

end State

/-- The operation forwards one of its data operands. -/
def OpKind.forwards : OpKind → Bool
  | argument | other => false
  | _ => true

/-- What a firing puts on a channel. -/
inductive Emitted (graph : Graph) (state : State) (label : Label) (channel : Channel)
    (word : Word) : Prop where
  | forwarded {operation : Operation} {wire : Wire}
      (defines : graph.ops[channel.op]? = some operation)
      (data : graph.isIndex channel = false) (mem : wire ∈ Graph.forwarded operation)
      (carries : state.Carries wire word)
  | index {operation : Operation} (defines : graph.ops[channel.op]? = some operation)
      (index : graph.isIndex channel = true) (fires : channel = ⟨label.op, 1⟩)
      (choice : label.choice < operation.operands.length)
      (wordEq : word = .ofNat (graph.type channel).width label.choice)
  | made {operation : Operation} (defines : graph.ops[channel.op]? = some operation)
      (makes : operation.kind.forwards = false)
      (width : word.width = (graph.type channel).width)

section Step

variable {graph : Graph} {state next : State} {label : Label}

theorem Graph.mem_forwarded {operation : Operation} {index : Nat} {wire : Wire}
    (forwards : index ∈ Graph.forwardedIndices operation)
    (operand : operation.operands[index]? = some wire) : wire ∈ Graph.forwarded operation :=
  List.mem_filterMap.mpr ⟨index, forwards, operand⟩

private theorem filterMap_getElem? {α : Type} (operands : List α) :
    ((List.range operands.length).filterMap fun index => operands[index]?) = operands := by
  induction operands using List.reverseRecOn with
  | nil => rfl
  | append_singleton rest last inductionHypothesis =>
      rw [List.length_append, List.length_singleton, List.range_succ, List.filterMap_append]
      have before : ((List.range rest.length).filterMap fun index => (rest ++ [last])[index]?) =
          (List.range rest.length).filterMap fun index => rest[index]? :=
        List.filterMap_congr fun index inRange =>
          List.getElem?_append_left (List.mem_range.mp inRange)
      rw [before, inductionHypothesis]
      simp

theorem Graph.forwarded_controlMerge {operation : Operation}
    (kind : operation.kind = .controlMerge) : Graph.forwarded operation = operation.operands := by
  rw [forwarded, forwardedIndices, kind]
  exact filterMap_getElem? _

theorem State.carries_of_peek {op index : Nat} {operands : List Wire} {word : Word}
    (peeks : state.peek op operands index = some word) :
    ∃ wire, operands[index]? = some wire ∧ state.Carries wire word := by
  obtain ⟨wire, operand, token⟩ := Option.bind_eq_some_iff.mp peeks
  exact ⟨wire, operand, _, token⟩

/-- What a forwarding operation emits comes from an operand that it forwards. -/
private theorem emitted_of_peek {operation : Operation} {index result : Nat} {word : Word}
    (defines : graph.ops[label.op]? = some operation)
    (data : graph.isIndex ⟨label.op, result⟩ = false)
    (forwards : index ∈ Graph.forwardedIndices operation)
    (peeks : state.peek label.op operation.operands index = some word) :
    Emitted graph state label ⟨label.op, result⟩ word := by
  obtain ⟨wire, operand, carries⟩ := State.carries_of_peek peeks
  exact .forwarded defines data (Graph.mem_forwarded forwards operand) carries

private theorem mem_of_mapM {α β : Type} {f : α → Option β} {inputs : List α} {outputs : List β}
    {output : β} (maps : inputs.mapM f = some outputs) (mem : output ∈ outputs) :
    ∃ input ∈ inputs, f input = some output := by
  induction inputs generalizing outputs with
  | nil =>
      cases maps
      cases mem
  | cons first rest inductionHypothesis =>
      rw [List.mapM_cons] at maps
      obtain ⟨head, headEq, maps⟩ := Option.bind_eq_some_iff.mp maps
      obtain ⟨tail, tailEq, maps⟩ := Option.bind_eq_some_iff.mp maps
      cases maps
      cases mem with
      | head => exact ⟨first, .head _, headEq⟩
      | tail _ inTail =>
          obtain ⟨input, inRest, same⟩ := inductionHypothesis tailEq inTail
          exact ⟨input, .tail _ inRest, same⟩

theorem Graph.fires_emits {operation : Operation} {past : Nat → List Word} {takes : List Nat}
    {emits : List (Nat × Word)} {result : Nat} {word : Word}
    (defines : graph.ops[label.op]? = some operation)
    (fires : graph.fires operation.kind operation.operands.length label past
      (state.peek label.op operation.operands) = some (takes, emits))
    (mem : (result, word) ∈ emits) : Emitted graph state label ⟨label.op, result⟩ word := by
  obtain ⟨kind, operands⟩ := operation
  have data : kind ≠ .controlMerge ∨ result = 0 → graph.isIndex ⟨label.op, result⟩ = false := by
    rintro (other | rfl)
    · simp [isIndex, defines, other]
    · simp [isIndex, defines]
  have forwardsOne : ∀ index, index ∈ forwardedIndices ⟨kind, operands⟩ →
      kind ≠ .controlMerge ∨ result = 0 → state.peek label.op operands index = some word →
        Emitted graph state label ⟨label.op, result⟩ word :=
    fun index forwards carriesData => emitted_of_peek defines (data carriesData) forwards
  have operandLt : ∀ {index word}, state.peek label.op operands index = some word →
      index < operands.length := by
    intro index word peeks
    obtain ⟨_, operand, _⟩ := State.carries_of_peek peeks
    exact (List.getElem?_eq_some_iff.mp operand).choose
  cases kind with
  | argument =>
      cases fires
      cases List.mem_singleton.mp mem
      exact .made defines rfl rfl
  | buffer | branch =>
      obtain ⟨token, peeks, fires⟩ := Option.bind_eq_some_iff.mp fires
      cases fires
      cases List.mem_singleton.mp mem
      exact forwardsOne 0 (List.mem_singleton_self 0) (.inl nofun) peeks
  | fork size | lazyFork size =>
      obtain ⟨token, peeks, fires⟩ := Option.bind_eq_some_iff.mp fires
      cases fires
      obtain ⟨_, _, same⟩ := List.mem_map.mp mem
      cases same
      exact forwardsOne 0 (List.mem_singleton_self 0) (.inl nofun) peeks
  | condBranch =>
      obtain ⟨condition, _, fires⟩ := Option.bind_eq_some_iff.mp fires
      obtain ⟨token, peeks, fires⟩ := Option.bind_eq_some_iff.mp fires
      cases fires
      cases List.mem_singleton.mp mem
      exact forwardsOne 1 (List.mem_singleton_self 1) (.inl nofun) peeks
  | merge =>
      obtain ⟨token, peeks, fires⟩ := Option.bind_eq_some_iff.mp fires
      cases fires
      cases List.mem_singleton.mp mem
      exact forwardsOne _ (List.mem_range.mpr (operandLt peeks)) (.inl nofun) peeks
  | mux =>
      obtain ⟨select, _, fires⟩ := Option.bind_eq_some_iff.mp fires
      obtain ⟨token, peeks, fires⟩ := Option.bind_eq_some_iff.mp fires
      cases fires
      cases List.mem_singleton.mp mem
      have bound : select.bits.toNat < operands.length - 1 :=
        Nat.lt_sub_of_add_lt (operandLt peeks)
      exact forwardsOne _ (List.mem_map.mpr ⟨_, List.mem_range.mpr bound, rfl⟩) (.inl nofun) peeks
  | controlMerge =>
      obtain ⟨token, peeks, fires⟩ := Option.bind_eq_some_iff.mp fires
      cases fires
      cases mem with
      | head => exact forwardsOne _ (List.mem_range.mpr (operandLt peeks)) (.inr rfl) peeks
      | tail _ mem =>
          cases List.mem_singleton.mp mem
          exact .index defines (by simp [isIndex, defines]) rfl (operandLt peeks) rfl
  | first =>
      obtain ⟨words, peeks, fires⟩ := Option.bind_eq_some_iff.mp fires
      obtain ⟨token, chosen, fires⟩ := Option.bind_eq_some_iff.mp fires
      split at fires
      · cases fires
      · cases fires
        cases List.mem_singleton.mp mem
        obtain ⟨index, inRange, peeks⟩ := mem_of_mapM peeks (List.mem_of_getElem? chosen)
        exact forwardsOne index inRange (.inl nofun) peeks
  | select =>
      obtain ⟨condition, _, fires⟩ := Option.bind_eq_some_iff.mp fires
      obtain ⟨trueValue, truePeeks, fires⟩ := Option.bind_eq_some_iff.mp fires
      obtain ⟨falseValue, falsePeeks, fires⟩ := Option.bind_eq_some_iff.mp fires
      cases fires
      obtain ⟨rfl, wordEq⟩ := Prod.mk.inj (List.mem_singleton.mp mem)
      split at wordEq
      · exact forwardsOne 2 (by simp [forwardedIndices]) (.inl nofun) (wordEq ▸ falsePeeks)
      · exact forwardsOne 1 (by simp [forwardedIndices]) (.inl nofun) (wordEq ▸ truePeeks)
  | other =>
      obtain ⟨_, _, fires⟩ := Option.bind_eq_some_iff.mp fires
      cases fires
      obtain ⟨_, _, same⟩ := List.mem_map.mp mem
      cases same
      exact .made defines rfl rfl

theorem Graph.step_eq_some (steps : graph.step state label = some next) :
    ∃ operation takes emits, graph.ops[label.op]? = some operation ∧
      graph.fires operation.kind operation.operands.length label
        (state.past label.op operation.operands) (state.peek label.op operation.operands) =
          some (takes, emits) ∧
      next = state.after label.op takes emits := by
  obtain ⟨operation, defines, steps⟩ := Option.bind_eq_some_iff.mp steps
  obtain ⟨⟨takes, emits⟩, fires, steps⟩ := Option.bind_eq_some_iff.mp steps
  exact ⟨operation, takes, emits, defines, fires, (Option.some.inj steps).symm⟩

/-- A new token was emitted. -/
theorem Graph.step_emits (steps : graph.step state label = some next) {channel : Channel}
    {word : Word} (mem : word ∈ next.history channel) :
    word ∈ state.history channel ∨ Emitted graph state label channel word := by
  obtain ⟨operation, takes, emits, defines, fires, rfl⟩ := step_eq_some steps
  simp only [State.after] at mem
  split at mem
  · rename_i fired
    refine (List.mem_append.mp mem).imp_right fun new => ?_
    obtain ⟨⟨result, _⟩, emitted, rfl⟩ := List.mem_map.mp new
    obtain ⟨inEmits, result⟩ := List.mem_filter.mp emitted
    obtain ⟨op, _⟩ := channel
    cases fired
    cases of_decide_eq_true result
    exact fires_emits defines fires inEmits
  · exact .inl mem

/-- Tokens stay. -/
theorem State.Carries.step (steps : graph.step state label = some next) {wire : Wire} {word : Word}
    (carries : state.Carries wire word) : next.Carries wire word := by
  obtain ⟨operation, takes, emits, _, _, rfl⟩ := Graph.step_eq_some steps
  obtain ⟨position, token⟩ := carries
  refine ⟨position, ?_⟩
  induction wire generalizing word with
  | channel source =>
      simp only [tokenAt, after] at token ⊢
      split
      · exact (List.getElem?_append_left (List.getElem?_eq_some_iff.mp token).choose).trans token
      · exact token
  | extSI width operand inductionHypothesis | extUI width operand inductionHypothesis
  | truncI width operand inductionHypothesis | constant value ctrl inductionHypothesis =>
      obtain ⟨inner, innerToken, rfl⟩ := Option.map_eq_some_iff.mp token
      exact Option.map_eq_some_iff.mpr ⟨inner, inductionHypothesis innerToken, rfl⟩

end Step

/-- The tokens have their channels' widths, data results hold tokens of the operands, and
indices name operands. -/
structure State.Sourced (graph : Graph) (state : State) : Prop where
  typed : state.Typed graph
  data : ∀ {channel operation word}, graph.ops[channel.op]? = some operation →
    operation.kind.forwards = true → graph.isIndex channel = false →
      word ∈ state.history channel → ∃ wire ∈ Graph.forwarded operation, state.Carries wire word
  index : ∀ {channel operation word}, graph.ops[channel.op]? = some operation →
    graph.isIndex channel = true → word ∈ state.history channel →
      ∃ choice < operation.operands.length, word = .ofNat (graph.type channel).width choice

namespace State.Sourced

variable {graph : Graph} {state next : State} {label : Label}

theorem initial : State.initial.Sourced graph where
  typed := fun _ _ mem => absurd mem List.not_mem_nil
  data := fun _ _ _ mem => absurd mem List.not_mem_nil
  index := fun _ _ mem => absurd mem List.not_mem_nil

theorem forwards_of_isIndex {channel : Channel} {operation : Operation}
    (defines : graph.ops[channel.op]? = some operation) (index : graph.isIndex channel = true) :
    operation.kind = .controlMerge := by
  simp only [Graph.isIndex, defines, Bool.and_eq_true, decide_eq_true_eq] at index
  exact index.1

theorem step (verified : graph.Verified) (sourced : state.Sourced graph)
    (steps : graph.step state label = some next) : next.Sourced graph where
  typed := by
    intro channel word mem
    cases Graph.step_emits steps mem with
    | inl old => exact sourced.typed channel word old
    | inr emitted =>
        cases emitted with
        | forwarded defines data mem carries =>
            rw [sourced.typed.width_eq carries]
            exact verified.forwardedWidth defines mem data
        | index _ _ _ _ wordEq => exact congrArg Word.width wordEq
        | made _ _ width => exact width
  data := by
    intro channel operation word defines forwards data mem
    cases Graph.step_emits steps mem with
    | inl old =>
        obtain ⟨wire, forwarded, carries⟩ := sourced.data defines forwards data old
        exact ⟨wire, forwarded, carries.step steps⟩
    | inr emitted =>
        cases emitted with
        | forwarded defined _ mem carries =>
            cases Option.some.inj (defines.symm.trans defined)
            exact ⟨_, mem, carries.step steps⟩
        | index _ index => exact absurd index (Bool.eq_false_iff.mp data)
        | made defined makes =>
            cases Option.some.inj (defines.symm.trans defined)
            exact absurd forwards (Bool.eq_false_iff.mp makes)
  index := by
    intro channel operation word defines index mem
    cases Graph.step_emits steps mem with
    | inl old => exact sourced.index defines index old
    | inr emitted =>
        cases emitted with
        | forwarded _ data => exact absurd index (Bool.eq_false_iff.mp data)
        | index defined _ _ choice wordEq =>
            cases Option.some.inj (defines.symm.trans defined)
            exact ⟨_, choice, wordEq⟩
        | made defined makes =>
            rw [forwards_of_isIndex defined index] at makes
            cases makes

theorem data_of_single {channel : Channel} {operation : Operation} {operand : Wire} {word : Word}
    (sourced : state.Sourced graph) (defines : graph.ops[channel.op]? = some operation)
    (forwards : operation.kind.forwards = true) (single : Graph.forwarded operation = [operand])
    (mem : word ∈ state.history channel) :
    state.Carries operand word ∨ word = .ofNat word.width 0 := by
  cases index : graph.isIndex channel with
  | false =>
      obtain ⟨wire, inSingle, carries⟩ := sourced.data defines forwards index mem
      rw [single, List.mem_singleton] at inSingle
      exact .inl (inSingle ▸ carries)
  | true =>
      obtain ⟨choice, bound, wordEq⟩ := sourced.index defines index mem
      have all : operation.operands.length = 1 := by
        rw [Graph.forwarded_controlMerge (forwards_of_isIndex defines index)] at single
        rw [single, List.length_singleton]
      have zero : choice = 0 := by omega
      rw [zero] at wordEq
      exact .inr (by rw [wordEq]; rfl)

/-- A token of a value is one of what it is followed back to, or the index of the only
operand of a control merge. -/
theorem carries_backtrack (sourced : state.Sourced graph) (depth : Nat) (visited : VisitedOps)
    {wire : Wire} {word : Word} (carries : state.Carries wire word) :
    state.Carries (graph.backtrack depth visited wire) word ∨ word = .ofNat word.width 0 := by
  induction depth generalizing visited wire with
  | zero => exact .inl carries
  | succ depth inductionHypothesis =>
      cases wire with
      | channel source =>
          have mem := State.carries_channel.mp carries
          simp only [Graph.backtrack]
          split
          · exact .inl carries
          · rename_i operation defines
            split
            · exact .inl carries
            · split
              iterate 4
                rename_i kind single
                exact sourced.data_of_single defines (by rw [kind]; rfl) single mem
              iterate 5
                rename_i kind single
                refine (sourced.data_of_single defines (by rw [kind]; rfl) single mem).elim ?_ .inr
                exact inductionHypothesis _
              exact .inl carries
      | extSI width operand => exact .inl carries
      | extUI width operand => exact .inl carries
      | truncI width operand => exact .inl carries
      | constant value ctrl => exact .inl carries

/-- A token of a value is represented as what the value is followed back to. -/
theorem represented (sourced : state.Sourced graph) {wire : Wire} {word : Word}
    (carries : state.Carries wire word) :
    word.Represented ⟨(graph.backtrackToMinimalWire wire).extType,
      graph.width (graph.backtrackToMinimalWire wire).wire⟩ := by
  cases sourced.carries_backtrack graph.depth [] carries with
  | inl carries => exact sourced.typed.represented carries
  | inr zero =>
      rw [zero]
      exact Word.represented_zero _ _

end State.Sourced

end Dynamatic.Bitwidth
