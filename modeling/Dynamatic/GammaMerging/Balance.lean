import Dynamatic.GammaMerging.Forest

/-!
# What the steps keep of the conditions

The conditions of the gammas are read once, but merging and bypassing change what a gamma feeds. A
gamma whose tree comes to one value, whatever its selects say, may get anywhere: it is bypassed in
the end. All other gammas keep feeding gates that take them under the conditions read at first.
-/

namespace Dynamatic.GammaMerging

open GammaMerging.Graph

variable {alike : Nat → Nat → Bool} {g start : Graph}

/-- A value that is no gamma of the block. -/
def Graph.Foreign (g : Graph) (block : Nat) (value : Value) : Prop :=
  ∀ index mux, value = .gate index → g.gate index = some mux → mux.block = block → mux.isMu = true

/-- A tree of gammas of the block with one value at all its leaves. -/
inductive Graph.StandsFor (g : Graph) (block : Nat) : Value → Value → Prop
  | value {value result : Value} (foreign : g.Foreign block value)
      (same : g.getEffectiveValue value = result) : StandsFor g block value result
  | gamma {index : Nat} {mux : Gate} {result : Value} (found : g.gate index = some mux)
      (own : mux.block = block) (isGamma : mux.isMu = false)
      (in0 : StandsFor g block mux.in0 result) (in1 : StandsFor g block mux.in1 result) :
      StandsFor g block (.gate index) result

/-- A value that stands for one value of another kind. -/
def Graph.Void (g : Graph) (block : Nat) (value : Value) : Prop :=
  ∃ result, g.StandsFor block value result

/-- A gamma of the block that is not void, or a value that gates of other blocks pass on from it. -/
inductive Graph.Own (g : Graph) (block : Nat) : Value → Prop
  | gamma {index : Nat} {mux : Gate} (found : g.gate index = some mux) (own : mux.block = block)
      (isGamma : mux.isMu = false) (full : ¬ g.Void block (.gate index)) :
      Own g block (.gate index)
  | through {index : Nat} {mux : Gate} (found : g.gate index = some mux)
      (foreign : mux.block ≠ block) (own : Own g block mux.in0) : Own g block (.gate index)

/-- What holds in every forest the loop goes through, with the conditions read from `start`. -/
structure Graph.Kept (start : Graph) (alike : Nat → Nat → Bool) (g : Graph) : Prop where
  regular : g.Regular alike
  alikeConditions : ∀ first second, alike first second = true →
    start.conditions first = start.conditions second
  consumed : ∀ index mux, g.gate index = some mux → mux.isMu = false →
    ¬ g.Void mux.block (.gate index) → start.ConsumedAs g index mux.block
  mus : ∀ index mux, g.gate index = some mux → mux.isMu = true →
    start.added index 1 = start.added index 2 → g.Void mux.block mux.in0
  leaves : ∀ index mux number other foreign, g.gate index = some mux → number = 1 ∨ number = 2 →
    mux.operand number = .gate other → g.gate other = some foreign → foreign.block ≠ mux.block →
    ¬ g.Own mux.block (.gate other)

/-! ## Values that stand for one another -/

theorem Graph.StandsFor.of_equivalent {block : Nat} {a b result : Value}
    (stands : g.StandsFor block a result) (same : g.getEffectiveValue a = g.getEffectiveValue b) :
    g.StandsFor block b result := by
  rcases equivalent_cases same with rfl | ⟨name, name', rfl, rfl⟩
  · exact stands
  · cases stands with
    | value _ result => exact .value (fun _ _ => nofun) (same.symm.trans result)

theorem Graph.Foreign.void {block : Nat} {value : Value} (foreign : g.Foreign block value) :
    g.Void block value := ⟨_, .value foreign rfl⟩

/-- A gamma of the block that stands for a value, by its inputs. -/
theorem Graph.StandsFor.inputs {block index : Nat} {mux : Gate} {result : Value}
    (stands : g.StandsFor block (.gate index) result) (found : g.gate index = some mux)
    (own : mux.block = block) (isGamma : mux.isMu = false) :
    g.StandsFor block mux.in0 result ∧ g.StandsFor block mux.in1 result := by
  cases stands with
  | value foreign =>
    rw [foreign index mux rfl found own] at isGamma
    cases isGamma
  | gamma found' _ _ in0 in1 =>
    rw [found] at found'
    cases found'
    exact ⟨in0, in1⟩

/-- No gamma of the block stands at the end. -/
theorem Graph.StandsFor.foreign {block : Nat} {value result : Value}
    (stands : g.StandsFor block value result) : g.Foreign block result := by
  induction stands with
  | @value value result foreign same =>
    intro index mux isGate
    rw [isGate, getEffectiveValue_eq_gate] at same
    exact foreign index mux same
  | gamma _ _ _ _ _ ih => exact ih

/-- A value that stands for a gate is a gate, ranked no lower. -/
theorem Graph.StandsFor.rank_le {rank : Nat → Nat}
    (falls : ∀ index mux input, g.gate index = some mux →
      mux.in0 = .gate input ∨ mux.isMu = false ∧ mux.in1 = .gate input → rank input < rank index)
    {block result : Nat} {value : Value} (stands : g.StandsFor block value (.gate result)) :
    ∃ index, value = .gate index ∧ rank result ≤ rank index := by
  generalize isResult : Value.gate result = final at stands
  induction stands with
  | value _ same =>
    subst isResult
    exact ⟨result, getEffectiveValue_eq_gate.mp same, le_rfl⟩
  | @gamma index mux final found _ _ _ _ ih _ =>
    obtain ⟨input, isInput, lower⟩ := ih isResult
    exact ⟨index, rfl, lower.trans (falls index mux input found (.inl isInput)).le⟩

/-! ## One step -/

/-- No gate turns into a gamma of the block. -/
theorem Graph.Foreign.replaceOp {block index : Nat} {new value : Value}
    (foreign : g.Foreign block value) : (g.replaceOp index new).Foreign block value := by
  intro other mux isGate found own
  obtain ⟨-, before, foundBefore, rfl⟩ := replaceOp_gate_eq_some.mp found
  exact foreign other before isGate foundBefore own

/-- A gamma that is left is a gamma of the block with its inputs replaced. -/
theorem Graph.StandsFor.gamma_replaceOp {block index other : Nat} {new result : Value} {mux : Gate}
    (distinct : other ≠ index) (found : g.gate other = some mux) (own : mux.block = block)
    (isGamma : mux.isMu = false)
    (in0 : (g.replaceOp index new).StandsFor block (mux.in0.replace (.gate index) new) result)
    (in1 : (g.replaceOp index new).StandsFor block (mux.in1.replace (.gate index) new) result) :
    (g.replaceOp index new).StandsFor block (.gate other) result :=
  .gamma (replaceOp_gate_eq_some.mpr ⟨distinct, mux, found, rfl⟩) own isGamma in0 in1

/-- What stands for a value that is left goes on standing for it. -/
theorem Graph.StandsFor.replaceOp (regular : g.Regular alike) {index : Nat} {new : Value}
    (replaced : g.Replaced alike index new) {block : Nat} {value result : Value}
    (stands : g.StandsFor block value result) (stays : result ≠ .gate index) :
    (g.replaceOp index new).StandsFor block (value.replace (.gate index) new) result := by
  induction stands with
  | @value value result foreign same =>
    have distinct : value ≠ .gate index := by
      rintro rfl
      exact stays same.symm
    rw [Value.replace_of_ne distinct]
    exact .value foreign.replaceOp ((replaceOp_getEffectiveValue index new value).trans same)
  | @gamma other mux result found own isGamma in0 in1 ih0 ih1 =>
    have ih0 := ih0 stays
    have ih1 := ih1 stays
    by_cases self : other = index
    · subst self
      rw [Value.replace_self]
      cases replaced with
      | @merge first _ _ distinct same =>
        obtain ⟨mux1, mux2, found1, found2, isMu1, isMu2, sameBlock, -, operands⟩ :=
          regular.merge_spec same
        have theSame : mux2 = mux := Option.some.inj (found2.symm.trans found)
        subst theSame
        refine .gamma_replaceOp distinct found1 (sameBlock.trans own) isMu1 ?_ ?_
        · refine ih0.of_equivalent ?_
          simp only [replaceOp_getEffectiveValue]
          exact replace_equivalent (operands 1).symm
        · refine ih1.of_equivalent ?_
          simp only [replaceOp_getEffectiveValue]
          exact replace_equivalent (operands 2).symm
      | @reduce _ mux0 _ found0 same =>
        have theSame : mux0 = mux := Option.some.inj (found0.symm.trans found)
        subst theSame
        rwa [Value.replace_of_ne (regular.in0_ne found0)] at ih0
    · rw [Value.replace_of_ne (by simpa using self)]
      exact .gamma_replaceOp self found own isGamma ih0 ih1

/-- What stands for the erased gate stands for what the new value stands for. -/
theorem Graph.StandsFor.replaceOp_erased {block index : Nat} {new value result : Value}
    (stands : g.StandsFor block value (.gate index))
    (instead : (g.replaceOp index new).StandsFor block new result) :
    (g.replaceOp index new).StandsFor block (value.replace (.gate index) new) result := by
  have foreign := stands.foreign
  generalize isErased : Value.gate index = erased at stands
  induction stands with
  | value _ same =>
    subst isErased
    rw [getEffectiveValue_eq_gate.mp same, Value.replace_self]
    exact instead
  | @gamma other mux _ found own isGamma _ _ ih0 ih1 =>
    subst isErased
    have distinct : other ≠ index := by
      rintro rfl
      rw [foreign other mux rfl found own] at isGamma
      cases isGamma
    rw [Value.replace_of_ne (by simpa using distinct)]
    exact .gamma_replaceOp distinct found own isGamma (ih0 rfl) (ih1 rfl)

theorem Graph.Own.of_equivalent {block : Nat} {a b : Value} (own : g.Own block a)
    (same : g.getEffectiveValue a = g.getEffectiveValue b) : g.Own block b := by
  rcases equivalent_cases same with rfl | ⟨name, name', rfl, rfl⟩
  · exact own
  · cases own

/-- A value that is neither void nor passed on from a full gamma does not exist. -/
theorem Graph.void_of_not_own {block : Nat} {value : Value} (notOwn : ¬ g.Own block value) :
    g.Void block value := by
  by_contra full
  have notForeign : ¬ g.Foreign block value := fun foreign => full foreign.void
  simp only [Foreign, not_forall, exists_prop, Bool.not_eq_true] at notForeign
  obtain ⟨gamma, mux, rfl, found, own, isGamma⟩ := notForeign
  exact notOwn (.gamma found own isGamma full)

namespace Graph.Kept

/-- A gate adds different conditions on its two sides, unless it tests nothing. -/
theorem added_eq_zero {owner number : Nat} (same : start.added owner 1 = start.added owner 2) :
    start.added owner number = 0 := by
  unfold added at same ⊢
  split
  next parent found =>
    rw [found] at same
    dsimp only at same
    split
    next => rfl
    next tests => simp [tests] at same
  next => rfl

/-- A full gamma that feeds both sides of a gate of its block feeds one that tests nothing. -/
theorem added_eq (kept : start.Kept alike g) {gamma owner : Nat} {mux parent : Gate}
    (found : g.gate gamma = some mux) (isGamma : mux.isMu = false)
    (full : ¬ g.Void mux.block (.gate gamma)) (foundParent : g.gate owner = some parent)
    (own : parent.block = mux.block) (in0 : parent.in0 = .gate gamma)
    (in1 : parent.in1 = .gate gamma) : start.added owner 1 = start.added owner 2 := by
  have consumed := kept.consumed gamma mux found isGamma full
  have first := consumed.own owner parent 1 foundParent (.inl rfl) in0 own
  have second := consumed.own owner parent 2 foundParent (.inr rfl) in1 own
  exact Multiset.add_right_inj.mp (first.symm.trans second)

/-- A MU that is bypassed has a void input, if it is a gamma of its block. -/
theorem mu_void (kept : start.Kept alike g) {index : Nat} {mux : Gate}
    (found : g.gate index = some mux) (isMu : mux.isMu = true)
    (same : g.getEffectiveValue mux.in0 = g.getEffectiveValue mux.in1) :
    g.Void mux.block mux.in0 := by
  by_contra full
  have own : g.Own mux.block mux.in0 := by
    by_contra notOwn
    exact full (void_of_not_own notOwn)
  generalize isGate : mux.in0 = value at own
  cases own with
  | @gamma gamma below foundBelow own isGamma fullBelow =>
    rw [isGate] at same
    have other := getEffectiveValue_eq_gate.mp same.symm
    exact full (kept.mus index mux found isMu
      (kept.added_eq foundBelow isGamma (own.symm ▸ fullBelow) found own.symm isGate other))
  | through foundForeign foreign own =>
    exact kept.leaves index mux 1 _ _ found (.inl rfl) isGate foundForeign foreign
      (.through foundForeign foreign own)

/-- No operand of a gate of the block is a value that was passed on from a full gamma of the block,
but for that gamma itself. -/
theorem not_own_of_void (kept : start.Kept alike g) {index number : Nat} {mux : Gate}
    (found : g.gate index = some mux) (data : number = 1 ∨ number = 2)
    (void : g.Void mux.block (mux.operand number)) : ¬ g.Own mux.block (mux.operand number) := by
  intro own
  cases isOperand : mux.operand number with
  | leaf name =>
    rw [isOperand] at own
    cases own
  | gate other =>
    rw [isOperand] at own void
    cases own with
    | gamma _ _ _ full => exact full void
    | @through _ foreign foundForeign different own =>
      exact kept.leaves index mux number other foreign found data isOperand foundForeign different
        (.through foundForeign different own)

/-- What a value stands for is not passed on from a full gamma of the block either. -/
theorem not_own_of_standsFor (kept : start.Kept alike g) {block : Nat} {value result : Value}
    (stands : g.StandsFor block value result) (notOwn : ¬ g.Own block value) :
    ¬ g.Own block result := by
  induction stands with
  | @value value result foreign same =>
    subst same
    intro own
    cases value with
    | leaf name => cases own
    | gate index => exact notOwn own
  | @gamma index mux result found own isGamma in0 _ ih _ =>
    subst own
    exact ih (kept.not_own_of_void found (.inl rfl) ⟨_, in0⟩)

/-- Void values stay void. -/
theorem void_replaceOp (kept : start.Kept alike g) {index : Nat} {new : Value}
    (replaced : g.Replaced alike index new) {block : Nat} {value : Value}
    (void : g.Void block value) (notOwn : ¬ g.Own block value) :
    (g.replaceOp index new).Void block (value.replace (.gate index) new) := by
  obtain ⟨result, stands⟩ := void
  by_cases stays : result = .gate index
  · subst stays
    -- what the erased gate is replaced with stands for something
    have foreign := stands.foreign
    have notOwn' := kept.not_own_of_standsFor stands notOwn
    have instead : (g.replaceOp index new).Void block new := by
      cases replaced with
      | @merge first _ _ distinct same =>
        obtain ⟨mux1, mux2, found1, found2, isMu1, isMu2, sameBlock, -, -⟩ :=
          kept.regular.merge_spec same
        have firstForeign : g.Foreign block (.gate first) := by
          intro other mux isGate found own
          cases isGate
          rw [found1] at found
          cases found
          rw [foreign index mux2 rfl found2 (sameBlock.symm.trans own)] at isMu2
          cases isMu2
        exact firstForeign.replaceOp.void
      | @reduce _ mux _ found same =>
        have void : g.Void block mux.in0 := by
          by_cases own : mux.block = block
          · subst own
            exact kept.mu_void found (foreign index mux rfl found rfl)
              (areEquivalentValues_iff.mp same)
          · exact void_of_not_own fun passed => notOwn' (.through found own passed)
        obtain ⟨result, standsIn0⟩ := void
        have stays : result ≠ .gate index := by
          rintro rfl
          obtain ⟨rank, falls⟩ := kept.regular.ranked
          obtain ⟨input, isInput, higher⟩ := standsIn0.rank_le falls
          have := falls index mux input found (.inl isInput)
          omega
        refine ⟨result, ?_⟩
        have := standsIn0.replaceOp kept.regular (.reduce ‹_› found same) stays
        rwa [Value.replace_of_ne (kept.regular.in0_ne found)] at this
    obtain ⟨final, standsNew⟩ := instead
    exact ⟨final, stands.replaceOp_erased standsNew⟩
  · exact ⟨result, stands.replaceOp kept.regular replaced stays⟩

/-- A gamma that is void after a step, or the gamma it is merged in, was void before. -/
theorem full_of_replaceOp (kept : start.Kept alike g) {index gamma : Nat} {new : Value}
    (replaced : g.Replaced alike index new) {mux : Gate} (found : g.gate gamma = some mux)
    (full : ¬ (g.replaceOp index new).Void mux.block
      ((Value.gate gamma).replace (.gate index) new)) :
    ¬ g.Void mux.block (.gate gamma) := by
  intro void
  refine full (kept.void_replaceOp replaced void ?_)
  intro own
  cases own with
  | gamma _ _ _ full => exact full void
  | through found' foreign =>
    rw [found] at found'
    cases found'
    exact foreign rfl

/-- A gate that is bypassed is passed on with its input. -/
theorem own_of_in0 (kept : start.Kept alike g) {index block : Nat} {mux : Gate}
    (found : g.gate index = some mux)
    (same : g.getEffectiveValue mux.in0 = g.getEffectiveValue mux.in1)
    (own : g.Own block mux.in0) : g.Own block (.gate index) := by
  by_cases inBlock : mux.block = block
  · subst inBlock
    have full : ¬ g.Void mux.block mux.in0 := fun void =>
      kept.not_own_of_void found (.inl rfl) void own
    have isGamma : mux.isMu = false := by
      by_contra isMu
      exact full (kept.mu_void found (by simpa using isMu) same)
    refine .gamma found rfl isGamma fun void => ?_
    obtain ⟨result, stands⟩ := void
    exact full ⟨result, (stands.inputs found rfl isGamma).1⟩
  · exact .through found inBlock own

/-- What is passed on from a full gamma after a step was passed on from one before. -/
theorem own_of_replaceOp (kept : start.Kept alike g) {index block : Nat} {new after : Value}
    (replaced : g.Replaced alike index new) (own : (g.replaceOp index new).Own block after) :
    ∀ value : Value, value.replace (.gate index) new = after → g.Own block value := by
  induction own with
  | @gamma gamma mux' found' own' isGamma full =>
    obtain ⟨distinct, mux, found, rfl⟩ := replaceOp_gate_eq_some.mp found'
    subst own'
    have stays : (Value.gate gamma).replace (.gate index) new = .gate gamma :=
      Value.replace_of_ne (by simpa using distinct)
    have direct : g.Own mux.block (.gate gamma) :=
      .gamma found rfl isGamma (kept.full_of_replaceOp replaced found (by rwa [stays]))
    intro value becomes
    by_cases self : value = .gate index
    · subst self
      rw [Value.replace_self] at becomes
      cases replaced with
      | merge _ _ same =>
        obtain ⟨mux1, mux2, found1, found2, isMu1, isMu2, sameBlock, -, -⟩ :=
          kept.regular.merge_spec same
        cases becomes
        have theSame : mux1 = mux := Option.some.inj (found1.symm.trans found)
        subst theSame
        have fullErased := kept.full_of_replaceOp (.merge ‹_› ‹_› same) found2
          (by rwa [Value.replace_self, ← sameBlock])
        rw [← sameBlock] at fullErased
        exact .gamma found2 sameBlock.symm isMu2 fullErased
      | reduce _ foundErased same =>
        exact kept.own_of_in0 foundErased (areEquivalentValues_iff.mp same) (becomes ▸ direct)
    · rw [Value.replace_of_ne self] at becomes
      exact becomes ▸ direct
  | @through other mux' found' foreign own' ih =>
    obtain ⟨distinct, mux, found, rfl⟩ := replaceOp_gate_eq_some.mp found'
    have ownIn0 : g.Own block mux.in0 := ih mux.in0 rfl
    have direct : g.Own block (.gate other) := .through found foreign ownIn0
    intro value becomes
    by_cases self : value = .gate index
    · subst self
      rw [Value.replace_self] at becomes
      cases replaced with
      | merge _ _ same =>
        obtain ⟨mux1, mux2, found1, found2, -, -, sameBlock, -, operands⟩ :=
          kept.regular.merge_spec same
        cases becomes
        have theSame : mux1 = mux := Option.some.inj (found1.symm.trans found)
        subst theSame
        exact .through found2 (sameBlock ▸ foreign) (ownIn0.of_equivalent (operands 1))
      | reduce _ foundErased same =>
        exact kept.own_of_in0 foundErased (areEquivalentValues_iff.mp same) (becomes ▸ direct)
    · rw [Value.replace_of_ne self] at becomes
      exact becomes ▸ direct

/-- A gate of a gamma's own block that is bypassed for the gamma is consumed as the gamma is. -/
theorem reduced_own (kept : start.Kept alike g) {index gamma : Nat} {erased mux : Gate}
    (foundErased : g.gate index = some erased)
    (same : g.getEffectiveValue erased.in0 = g.getEffectiveValue erased.in1)
    (found : g.gate gamma = some mux) (isGamma : mux.isMu = false)
    (full : ¬ g.Void mux.block (.gate gamma)) (in0 : erased.in0 = .gate gamma)
    (own : erased.block = mux.block) :
    erased.isMu = false ∧ ¬ g.Void erased.block (.gate index) ∧
      start.conditions gamma = start.conditions index := by
  rw [← own] at full
  have in1 : erased.in1 = .gate gamma := by
    rw [in0] at same
    exact getEffectiveValue_eq_gate.mp same.symm
  have notMu : erased.isMu = false := by
    by_contra isMu
    exact full (in0 ▸ kept.mu_void foundErased (by simpa using isMu) same)
  refine ⟨notMu, fun ⟨result, stands⟩ => ?_, ?_⟩
  · exact full ⟨result, in0 ▸ (stands.inputs foundErased rfl notMu).1⟩
  · rw [own] at full
    have nothing : start.added index 1 = 0 :=
      added_eq_zero (kept.added_eq found isGamma full foundErased own in0 in1)
    rw [(kept.consumed gamma mux found isGamma full).own index erased 1 foundErased (.inl rfl)
      in0 own, nothing, Multiset.add_zero]

/-- The uses of an erased gate consume the gamma that takes its place as those of the gamma do. -/
theorem consumed_erased (kept : start.Kept alike g) {index gamma : Nat} {mux : Gate}
    (replaced : g.Replaced alike index (.gate gamma)) (found : g.gate gamma = some mux)
    (isGamma : mux.isMu = false)
    (full : ¬ (g.replaceOp index (.gate gamma)).Void mux.block (.gate gamma)) :
    (∀ owner parent number, g.gate owner = some parent → number = 1 ∨ number = 2 →
      parent.operand number = .gate index →
      (parent.block = mux.block →
        start.conditions gamma = start.conditions owner + start.added owner number) ∧
      (parent.block ≠ mux.block → start.conditions gamma = 0)) ∧
    (.gate index ∈ g.others → start.conditions gamma = 0) := by
  have stays : (Value.gate gamma).replace (.gate index) (.gate gamma) = .gate gamma :=
    Value.replace_of_ne (kept.regular.new_ne replaced)
  have fullBefore : ¬ g.Void mux.block (.gate gamma) :=
    kept.full_of_replaceOp replaced found (by rwa [stays])
  generalize isNew : Value.gate gamma = new at replaced
  cases replaced with
  | @merge first _ listed distinct same =>
    cases isNew
    obtain ⟨mux1, mux2, found1, found2, -, isMu2, sameBlock, areAlike, -⟩ :=
      kept.regular.merge_spec same
    have theSame : mux1 = mux := Option.some.inj (found1.symm.trans found)
    subst theSame
    have fullErased := kept.full_of_replaceOp (.merge listed distinct same) found2
      (by rwa [Value.replace_self, ← sameBlock])
    have consumed := kept.consumed index mux2 found2 isMu2 fullErased
    rw [sameBlock, kept.alikeConditions gamma index areAlike]
    exact ⟨fun owner parent number foundParent data feeds =>
      ⟨consumed.own owner parent number foundParent data feeds,
        consumed.foreign owner parent number foundParent data feeds⟩, consumed.others⟩
  | @reduce _ erased _ foundErased same =>
    have same := areEquivalentValues_iff.mp same
    by_cases own : erased.block = mux.block
    · obtain ⟨notMu, fullErased, conditions⟩ := kept.reduced_own foundErased same found isGamma
        fullBefore isNew.symm own
      have consumed := kept.consumed index erased foundErased notMu fullErased
      rw [conditions, ← own]
      exact ⟨fun owner parent number foundParent data feeds =>
        ⟨consumed.own owner parent number foundParent data feeds,
          consumed.foreign owner parent number foundParent data feeds⟩, consumed.others⟩
    · have empty : start.conditions gamma = 0 :=
        (kept.consumed gamma mux found isGamma fullBefore).foreign index erased 1 foundErased
          (.inl rfl) isNew.symm own
      refine ⟨fun owner parent number foundParent data feeds =>
        ⟨fun inBlock => ?_, fun _ => empty⟩, fun _ => empty⟩
      have passed : g.Own parent.block (.gate index) := by
        rw [inBlock]
        exact .through foundErased own (isNew ▸ .gamma found rfl isGamma fullBefore)
      exact absurd passed (kept.leaves owner parent number index erased foundParent data feeds
        foundErased (inBlock ▸ own))

/-- A gamma that loses all its uses is one whose token is always to be taken. -/
theorem unused_replaceOp (kept : start.Kept alike g) {index gamma : Nat} {new : Value} {mux : Gate}
    (replaced : g.Replaced alike index new) (found : g.gate gamma = some mux)
    (distinct : gamma ≠ index) (isGamma : mux.isMu = false)
    (full : ¬ g.Void mux.block (.gate gamma))
    (unused : ∀ owner parent number, (g.replaceOp index new).gate owner = some parent →
      number = 1 ∨ number = 2 → parent.operand number ≠ .gate gamma)
    (notOther : .gate gamma ∉ (g.replaceOp index new).others) : start.conditions gamma = 0 := by
  have consumed := kept.consumed gamma mux found isGamma full
  have stays : (Value.gate gamma).replace (.gate index) new = .gate gamma :=
    Value.replace_of_ne (by simpa using distinct)
  have onlyErased : ∀ owner parent number, g.gate owner = some parent → number = 1 ∨ number = 2 →
      parent.operand number = .gate gamma → owner = index := by
    intro owner parent number foundParent data feeds
    by_contra other
    refine unused owner _ number (replaceOp_gate_eq_some.mpr ⟨other, parent, foundParent, rfl⟩)
      data ?_
    rw [Gate.replace_operand, feeds, stays]
  have notOtherBefore : .gate gamma ∉ g.others := fun mem =>
    notOther (List.mem_map.mpr ⟨_, mem, stays⟩)
  by_cases used : ∃ owner parent number, g.gate owner = some parent ∧
      (number = 1 ∨ number = 2) ∧ parent.operand number = .gate gamma
  · obtain ⟨owner, erased, number, foundErased, data, feeds⟩ := used
    obtain rfl := onlyErased owner erased number foundErased data feeds
    cases replaced with
    | @merge first _ _ distinct' same =>
      -- the gamma that takes the place of the erased one has the same operands
      obtain ⟨mux1, mux2, found1, found2, -, -, -, -, operands⟩ := kept.regular.merge_spec same
      have theSame : mux2 = erased := Option.some.inj (found2.symm.trans foundErased)
      subst theSame
      have equal := operands number
      rw [feeds] at equal
      exact absurd (onlyErased first mux1 number found1 data (getEffectiveValue_eq_gate.mp equal))
        distinct'
    | @reduce _ erased' _ foundErased' same =>
      have theSame : erased' = erased := Option.some.inj (foundErased'.symm.trans foundErased)
      subst theSame
      have same := areEquivalentValues_iff.mp same
      have in0 : erased'.in0 = .gate gamma := by
        rcases data with rfl | rfl
        · exact feeds
        · have in1 : erased'.in1 = .gate gamma := feeds
          rw [in1] at same
          exact getEffectiveValue_eq_gate.mp same
      by_cases own : erased'.block = mux.block
      · obtain ⟨notMu, fullErased, conditions⟩ := kept.reduced_own foundErased same found isGamma
          full in0 own
        rw [conditions]
        refine (kept.consumed owner erased' foundErased notMu fullErased).unused
          (fun user parent side foundUser data' feeds' => ?_) fun mem => ?_
        · have notSelf : user ≠ owner := by
            rintro rfl
            rw [foundErased] at foundUser
            cases foundUser
            rcases data' with rfl | rfl
            · exact kept.regular.in0_ne foundErased feeds'
            · have in1 : erased'.in1 = .gate user := feeds'
              rw [in1] at same
              exact kept.regular.in0_ne foundErased (getEffectiveValue_eq_gate.mp same)
          refine unused user _ side (replaceOp_gate_eq_some.mpr ⟨notSelf, parent, foundUser, rfl⟩)
            data' ?_
          rw [Gate.replace_operand, feeds', Value.replace_self, in0]
        · refine notOther (List.mem_map.mpr ⟨_, mem, ?_⟩)
          rw [Value.replace_self, in0]
      · exact consumed.foreign owner erased' 1 foundErased (.inl rfl) in0 own
  · push Not at used
    exact consumed.unused used notOtherBefore

/-- A step keeps what the next one relies on. -/
theorem replaceOp (kept : start.Kept alike g) {index : Nat} {new : Value}
    (replaced : g.Replaced alike index new) : start.Kept alike (g.replaceOp index new) where
  regular := kept.regular.replaceOp replaced
  alikeConditions := kept.alikeConditions
  consumed gamma mux' found' isGamma full := by
    obtain ⟨distinct, mux, found, rfl⟩ := replaceOp_gate_eq_some.mp found'
    have stays : (Value.gate gamma).replace (.gate index) new = .gate gamma :=
      Value.replace_of_ne (by simpa using distinct)
    have fullBefore : ¬ g.Void mux.block (.gate gamma) :=
      kept.full_of_replaceOp replaced found (by rwa [stays])
    have consumed := kept.consumed gamma mux found isGamma fullBefore
    have becomes : ∀ value : Value, value.replace (.gate index) new = .gate gamma →
        value = .gate gamma ∨ value = .gate index ∧ new = .gate gamma := by
      intro value becomes
      by_cases self : value = .gate index
      · subst self
        rw [Value.replace_self] at becomes
        exact .inr ⟨rfl, becomes⟩
      · rw [Value.replace_of_ne self] at becomes
        exact .inl becomes
    refine ⟨fun owner parent' number foundParent' data feeds own => ?_,
      fun owner parent' number foundParent' data feeds foreign => ?_, fun mem => ?_,
      kept.unused_replaceOp replaced found distinct isGamma fullBefore⟩
    · obtain ⟨-, parent, foundParent, rfl⟩ := replaceOp_gate_eq_some.mp foundParent'
      rw [Gate.replace_operand] at feeds
      rcases becomes _ feeds with direct | ⟨moved, rfl⟩
      · exact consumed.own owner parent number foundParent data direct own
      · exact ((kept.consumed_erased replaced found isGamma full).1 owner parent number foundParent
          data moved).1 own
    · obtain ⟨-, parent, foundParent, rfl⟩ := replaceOp_gate_eq_some.mp foundParent'
      rw [Gate.replace_operand] at feeds
      rcases becomes _ feeds with direct | ⟨moved, rfl⟩
      · exact consumed.foreign owner parent number foundParent data direct foreign
      · exact ((kept.consumed_erased replaced found isGamma full).1 owner parent number foundParent
          data moved).2 foreign
    · obtain ⟨value, isOther, isGate⟩ := List.mem_map.mp mem
      rcases becomes _ isGate with rfl | ⟨rfl, rfl⟩
      · exact consumed.others isOther
      · exact (kept.consumed_erased replaced found isGamma full).2 isOther
  mus other mux' found' isMu same := by
    obtain ⟨-, mux, found, rfl⟩ := replaceOp_gate_eq_some.mp found'
    have void := kept.mus other mux found isMu same
    exact kept.void_replaceOp replaced void (kept.not_own_of_void found (.inl rfl) void)
  leaves owner mux' number other foreign' found' data feeds foundForeign' different passed := by
    obtain ⟨-, mux, found, rfl⟩ := replaceOp_gate_eq_some.mp found'
    obtain ⟨distinct, foreign, foundForeign, rfl⟩ := replaceOp_gate_eq_some.mp foundForeign'
    rw [Gate.replace_operand] at feeds
    have passedBefore := kept.own_of_replaceOp replaced passed _ feeds
    by_cases self : mux.operand number = .gate index
    · rw [self] at passedBefore feeds
      rw [Value.replace_self] at feeds
      obtain ⟨erased, foundErased⟩ := replaced.isSome
      by_cases own : erased.block = mux.block
      · cases replaced with
        | merge _ _ same =>
          obtain ⟨mux1, mux2, found1, found2, -, -, sameBlock, -, -⟩ := kept.regular.merge_spec same
          cases feeds
          have theSame : mux2 = erased := Option.some.inj (found2.symm.trans foundErased)
          have theSame' : mux1 = foreign := Option.some.inj (found1.symm.trans foundForeign)
          subst theSame theSame'
          exact different (sameBlock.trans own)
        | @reduce _ erased' _ foundErased' same =>
          have theSame : erased' = erased := Option.some.inj (foundErased'.symm.trans foundErased)
          subst theSame
          have otherOwn := kept.own_of_replaceOp (.reduce ‹_› foundErased same) passed (.gate other)
            (Value.replace_of_ne (by simpa using distinct))
          exact kept.leaves index erased' 1 other foreign foundErased (.inl rfl) feeds foundForeign
            (own ▸ different) (own ▸ otherOwn)
      · exact kept.leaves owner mux number index erased found data self foundErased own passedBefore
    · rw [Value.replace_of_ne self] at feeds
      rw [feeds] at passedBefore
      exact kept.leaves owner mux number other foreign found data feeds foundForeign different
        passedBefore

end Graph.Kept

end Dynamatic.GammaMerging
