import Dynamatic.GammaMerging.Balance
import Mathlib.Data.List.Pairwise

/-!
# Merging keeps tokens balanced

The loop of `addGsaGates` ends, what the gates feed has the value it had before, and the token of
each gamma that is left is taken by all the multiplexers it goes to or by none.
-/

namespace Dynamatic.GammaMerging

open GammaMerging.Graph

variable {g start : Graph} {place : Value → Value}

/-! ## What is promised -/

/-- A use by a gate of the block, at one of its data operands. -/
def Graph.Within (g : Graph) (block : Nat) : Use → Prop
  | .operand owner number =>
    ∃ parent, g.gate owner = some parent ∧ parent.block = block ∧ 0 < number
  | .other => False

/-- A gate is consumed when the gate of its block it feeds is, on the side that gate takes. A root,
which feeds anything but a gate of its block, and a MU are consumed whenever the block is
executed. -/
inductive Graph.Consumed (g : Graph) (assignment : Assignment) : Nat → Prop
  | mu {index : Nat} {mux : Gate} (found : g.gate index = some mux) (isMu : mux.isMu = true) :
      Consumed g assignment index
  | unused {index : Nat} (unused : g.uses (.gate index) = []) : Consumed g assignment index
  | root {index : Nat} {mux : Gate} {use : Use} (found : g.gate index = some mux)
      (used : use ∈ g.uses (.gate index)) (foreign : ¬ g.Within mux.block use) :
      Consumed g assignment index
  | use {index owner number : Nat} {mux parent : Gate} (found : g.gate index = some mux)
      (used : .operand owner number ∈ g.uses (.gate index))
      (foundParent : g.gate owner = some parent) (own : parent.block = mux.block)
      (data : 0 < number) (consumed : Consumed g assignment owner)
      (taken : g.side assignment parent = number) : Consumed g assignment index

/-- A use takes the token of a gamma of the block: a gate of the block does when it is consumed and
takes that side, any other use always does. -/
def Graph.Takes (g : Graph) (assignment : Assignment) (block : Nat) : Use → Prop
  | .operand owner number => ∀ parent, g.gate owner = some parent → parent.block = block →
      0 < number → g.Consumed assignment owner ∧ g.side assignment parent = number
  | .other => True

/-- Each gamma is taken by all its uses or by none, whatever the selects say. -/
def Graph.Balanced (g : Graph) : Prop :=
  ∀ assignment index mux, g.gate index = some mux → mux.isMu = false →
    (∀ use ∈ g.uses (.gate index), g.Takes assignment mux.block use) ∨
    ∀ use ∈ g.uses (.gate index), ¬ g.Takes assignment mux.block use

/-- What used a value uses another one with the same value under every assignment. -/
def Graph.KeepsValues (start g : Graph) : Prop :=
  ∃ place : Value → Value, g.others = start.others.map place ∧
    (∀ index now, g.gate index = some now →
      ∃ mux, start.gate index = some mux ∧ now = mux.map place) ∧
    ∀ assignment value result, start.Evaluates assignment value result ↔
      g.Evaluates assignment (place value) result

/-! ## The start -/

/-- The tree of a value: one leaf, for which the value stands, or a node for a gamma under it. -/
private theorem Forest.tree_cases (forest : Forest g) (block : Nat) (value : Value) :
    (∃ result, g.treeOf block value = .leaf result ∧ g.StandsFor block value result) ∨
    ∃ select in0 in1 under, g.treeOf block value = .node select in0 in1 ∧
      g.Below block value under ∧ select = .leaf (g.getEffectiveValue under.select) := by
  obtain ⟨rank, -, falls⟩ := forest.ranked
  have leafCase : ∀ value, g.Foreign block value → ∃ result,
      g.treeOf block value = .leaf result ∧ g.StandsFor block value result := fun value foreign =>
    ⟨_, treeOf_eq_leaf foreign, .value foreign rfl⟩
  have leafForeign : ∀ block name, g.Foreign block (.leaf name) := by
    intro block name index mux isGate
    cases isGate
  cases value with
  | leaf name => exact .inl (leafCase (.leaf name) (leafForeign block name))
  | gate index =>
    generalize bounded : rank index = bound
    induction bound using Nat.strong_induction_on generalizing index with
    | _ bound ih =>
      by_cases foreign : g.Foreign block (.gate index)
      · exact .inl (leafCase _ foreign)
      · simp only [Foreign, not_forall, exists_prop, Bool.not_eq_true] at foreign
        obtain ⟨_, mux, same, found, rfl, isGamma⟩ := foreign
        cases same
        have tree := forest.treeOf_gamma found isGamma
        have inputs : ∀ input, input = mux.in0 ∨ input = mux.in1 →
            (∃ result, g.treeOf mux.block input = .leaf result ∧
              g.StandsFor mux.block input result) ∨
            ∃ select in0 in1 under, g.treeOf mux.block input = .node select in0 in1 ∧
              g.Below mux.block input under ∧
              select = .leaf (g.getEffectiveValue under.select) := by
          intro input isInput
          cases input with
          | leaf name => exact .inl (leafCase (.leaf name) (leafForeign _ name))
          | gate below =>
            refine ih (rank below) ?_ below rfl
            rw [← bounded]
            rcases isInput with isInput | isInput
            · exact falls index mux below found (.inl isInput.symm)
            · exact falls index mux below found (.inr ⟨isGamma, isInput.symm⟩)
        by_cases same : g.treeOf mux.block mux.in0 = g.treeOf mux.block mux.in1
        · rw [if_pos same] at tree
          rcases inputs mux.in0 (.inl rfl) with ⟨result, leaf, stands0⟩ |
            ⟨select, in0, in1, under, node, below, isSelect⟩
          · rcases inputs mux.in1 (.inr rfl) with ⟨result', leaf', stands1⟩ |
              ⟨select, in0, in1, under, node, -, -⟩
            · rw [same, leaf'] at leaf
              cases leaf
              exact .inl ⟨_, tree.trans (same.trans leaf'),
                .gamma found rfl isGamma stands0 stands1⟩
            · rw [same, node] at leaf
              cases leaf
          · exact .inr ⟨select, in0, in1, under, tree.trans node, .in0 found rfl isGamma below,
              isSelect⟩
        · rw [if_neg same] at tree
          exact .inr ⟨_, _, _, mux, tree, .here found rfl isGamma, rfl⟩

/-- A gate adds no conditions when it tests nothing, and different ones for its sides else. -/
theorem Graph.testsNothing_of_added {index : Nat} {mux : Gate} (found : g.gate index = some mux)
    (same : g.added index 1 = g.added index 2) :
    g.treeOf mux.block mux.in0 = g.treeOf mux.block mux.in1 := by
  simp only [added, found] at same
  split at same
  next tests => simpa [testsNothing] using tests
  next => simp at same

theorem Forest.areConsumedAlike_iff (forest : Forest g) {first second : Nat} {mux1 mux2 : Gate}
    (found1 : g.gate first = some mux1) (found2 : g.gate second = some mux2) :
    g.areConsumedAlike first second = true ↔ mux1.isMu = false ∧ mux2.isMu = false ∧
      mux1.block = mux2.block ∧ g.conditions first = g.conditions second := by
  simp only [areConsumedAlike, forest.canMerge, Graph.isGamma, found1, found2, Option.any_some,
    Bool.true_and, Bool.and_eq_true, Bool.not_eq_true', beq_iff_eq, and_assoc]
  refine and_congr_right fun isMu1 => and_congr_right fun isMu2 => ?_
  rw [forest.consumptionPerGamma_eq found1 isMu1, forest.consumptionPerGamma_eq found2 isMu2]
  simp

/-- The select of a gamma as a condition. -/
theorem Forest.selectTree_eq (forest : Forest g) {index : Nat} {mux : Gate}
    (found : g.gate index = some mux) (isGamma : mux.isMu = false) :
    g.selectTree mux = .leaf (g.getEffectiveValue mux.select) := by
  obtain ⟨name, select⟩ := forest.selects index mux found
  rw [selectTree, isGamma, if_neg Bool.false_ne_true]
  exact treeOf_eq_leaf fun _ _ isGate => by simp [select] at isGate

/-- What is passed on from a full gamma is passed on from a gamma. -/
private theorem Graph.Own.returns {block : Nat} {value : Value} (own : g.Own block value) :
    g.Returns block value := by
  induction own with
  | gamma found own isGamma _ => exact .gamma found own isGamma
  | through found foreign _ ih => exact .through found foreign ih

/-- A forest is where the loop may start. -/
theorem Forest.kept (forest : Forest g) : g.Kept g.areConsumedAlike g where
  regular := by
    refine ⟨forest.selects, ?_, fun first second mux1 mux2 areAlike found1 found2 => ?_⟩
    · obtain ⟨rank, -, falls⟩ := forest.ranked
      exact ⟨rank, falls⟩
    · obtain ⟨isMu1, isMu2, block, -⟩ := (forest.areConsumedAlike_iff found1 found2).mp areAlike
      exact ⟨isMu1, isMu2, block⟩
  alikeConditions first second areAlike := by
    have gammas := areAlike
    simp only [areConsumedAlike, Bool.and_eq_true, Graph.isGamma, Option.any_eq_true] at gammas
    obtain ⟨⟨⟨-, mux1, found1, -⟩, mux2, found2, -⟩, -⟩ := gammas
    exact ((forest.areConsumedAlike_iff found1 found2).mp areAlike).2.2.2
  consumed index mux found isGamma _ := forest.consumedAs found isGamma
  mus index mux found isMu same := by
    have trees := testsNothing_of_added found same
    rcases forest.tree_cases mux.block mux.in0 with ⟨result, leaf, stands⟩ |
      ⟨select, in0, in1, under, node, below, isSelect⟩
    · exact ⟨result, stands⟩
    · rcases forest.tree_cases mux.block mux.in1 with ⟨result, leaf, stands⟩ |
        ⟨select', in0', in1', under', node', below', isSelect'⟩
      · rw [← trees, node] at leaf
        cases leaf
      · rw [← trees, node] at node'
        cases node'
        have sameSelect := Tree.leaf.inj (isSelect.symm.trans isSelect')
        exact absurd sameSelect (forest.muApart index mux under under' found isMu below below')
  leaves index mux number other foreign found data feeds foundForeign different own :=
    forest.leaves index mux number other foreign found data feeds foundForeign different own.returns

/-! ## Where the loop ends -/

/-- The steps keep both what they rely on and what became of the start. -/
theorem Graph.Kept.of_steps {alike : Nat → Nat → Bool} {g' : Graph} (kept : start.Kept alike g)
    (follows : start.Follows alike g place) (steps : Steps alike g g') :
    start.Kept alike g' ∧ ∃ place', start.Follows alike g' place' := by
  induction steps with
  | refl => exact ⟨kept, place, follows⟩
  | tail _ step ih =>
    obtain ⟨kept, place', follows⟩ := ih
    cases step with
    | replace replaced =>
      exact ⟨kept.replaceOp replaced, _, follows.replaceOp kept.regular replaced⟩

/-- A simplified forest, with what became of the gates it started from. -/
structure Simplified (start g : Graph) (place : Value → Value) : Prop where
  forest : Forest start
  kept : start.Kept start.areConsumedAlike g
  follows : start.Follows start.areConsumedAlike g place
  settled : g.Settled start.areConsumedAlike

namespace Simplified

/-- The gate that is left was there at the start. -/
theorem found_start (simplified : Simplified start g place) {index : Nat} {now : Gate}
    (found : g.gate index = some now) :
    ∃ mux, start.gate index = some mux ∧ now = mux.map place :=
  (simplified.follows.gates index now found).2

theorem listed (simplified : Simplified start g place) {index : Nat} {now : Gate}
    (found : g.gate index = some now) : index ∈ g.gsaList := by
  obtain ⟨mux, foundStart, -⟩ := simplified.found_start found
  rw [simplified.follows.gsaList]
  exact simplified.forest.listed index mux foundStart

/-- No gate that is left has one value at both inputs. -/
theorem inputs_ne (simplified : Simplified start g place) {index : Nat} {now : Gate}
    (found : g.gate index = some now) :
    g.getEffectiveValue now.in0 ≠ g.getEffectiveValue now.in1 := by
  intro same
  have := simplified.settled.reduced index (simplified.listed found) now found
  rw [areEquivalentValues_iff.mpr same] at this
  cases this

/-- What is void is no gamma of the block any more. -/
theorem effective_of_standsFor (simplified : Simplified start g place) {block : Nat}
    {value result : Value} (stands : g.StandsFor block value result) :
    g.getEffectiveValue value = result := by
  induction stands with
  | value _ same => exact same
  | gamma found _ _ _ _ ih0 ih1 => exact absurd (ih0.trans ih1.symm) (simplified.inputs_ne found)

/-- All gammas that are left are full. -/
theorem full (simplified : Simplified start g place) {index : Nat} {now : Gate}
    (found : g.gate index = some now) (isGamma : now.isMu = false) :
    ¬ g.Void now.block (.gate index) := by
  rintro ⟨result, stands⟩
  obtain ⟨stands0, stands1⟩ := stands.inputs found rfl isGamma
  exact simplified.inputs_ne found ((simplified.effective_of_standsFor stands0).trans
    (simplified.effective_of_standsFor stands1).symm)

theorem consumedAs (simplified : Simplified start g place) {index : Nat} {now : Gate}
    (found : g.gate index = some now) (isGamma : now.isMu = false) :
    start.ConsumedAs g index now.block :=
  simplified.kept.consumed index now found isGamma (simplified.full found isGamma)

/-- Gammas merged one after the other have the same conditions. -/
theorem conditions_eq (simplified : Simplified start g place) {first second : Nat}
    (alike : Relation.ReflTransGen (fun a b => start.areConsumedAlike a b = true) first second) :
    start.conditions first = start.conditions second := by
  induction alike with
  | refl => rfl
  | tail _ step ih => exact ih.trans (simplified.kept.alikeConditions _ _ step)

/-- A gate of the start whose inputs became one value became that value. -/
theorem place_of_inputs (simplified : Simplified start g place) {index : Nat} {mux : Gate}
    (found : start.gate index = some mux)
    (same : g.getEffectiveValue (place mux.in0) = g.getEffectiveValue (place mux.in1)) :
    g.getEffectiveValue (place (.gate index)) = g.getEffectiveValue (place mux.in0) := by
  cases simplified.follows.represents index mux found with
  | bypassed _ placed => exact placed
  | kept _ foundNow _ _ _ operands =>
    exact absurd ((operands 1).trans (same.trans (operands 2).symm)) (simplified.inputs_ne foundNow)

/-- Two gammas that are left, with the same operands and the same conditions, are one. -/
theorem eq_of_alike (simplified : Simplified start g place) {first second : Nat} {mux1 mux2 : Gate}
    (found1 : g.gate first = some mux1) (found2 : g.gate second = some mux2)
    (isMu1 : mux1.isMu = false) (isMu2 : mux2.isMu = false) (block : mux1.block = mux2.block)
    (conditions : start.conditions first = start.conditions second)
    (operands : ∀ number, g.getEffectiveValue (mux1.operand number) =
      g.getEffectiveValue (mux2.operand number)) : first = second := by
  have areAlike : ∀ {first second : Nat} {mux1 mux2 : Gate}, g.gate first = some mux1 →
      g.gate second = some mux2 → mux1.isMu = false → mux2.isMu = false →
      mux1.block = mux2.block → start.conditions first = start.conditions second →
      (∀ number, g.getEffectiveValue (mux1.operand number) =
        g.getEffectiveValue (mux2.operand number)) →
      g.areAlike start.areConsumedAlike first second = true := by
    intro first second mux1 mux2 found1 found2 isMu1 isMu2 block conditions operands
    obtain ⟨start1, foundStart1, rfl⟩ := simplified.found_start found1
    obtain ⟨start2, foundStart2, rfl⟩ := simplified.found_start found2
    exact areAlike_iff.mpr ⟨_, _, found1, found2, operands 0, operands 1, operands 2,
      (simplified.forest.areConsumedAlike_iff foundStart1 foundStart2).mpr
        ⟨isMu1, isMu2, block, conditions⟩⟩
  by_contra distinct
  have apart : g.gsaList.Pairwise fun a b => g.areAlike start.areConsumedAlike a b = false ∨
      g.areAlike start.areConsumedAlike b a = false := simplified.settled.merged.imp .inl
  have symmetric : Std.Symm fun a b => g.areAlike start.areConsumedAlike a b = false ∨
      g.areAlike start.areConsumedAlike b a = false := ⟨fun _ _ => Or.symm⟩
  have forward := areAlike found1 found2 isMu1 isMu2 block conditions operands
  have backward := areAlike found2 found1 isMu2 isMu1 block.symm conditions.symm
    fun number => (operands number).symm
  rcases apart.forall (simplified.listed found1) (simplified.listed found2) distinct with
    none | none
  · rw [forward] at none
    cases none
  · rw [backward] at none
    cases none

/-- Two gammas of the start whose operands became the same became one value, when they are consumed
under the same conditions. -/
theorem place_eq_of_operands (simplified : Simplified start g place) {a b : Nat} {mux1 mux2 : Gate}
    (found1 : start.gate a = some mux1) (found2 : start.gate b = some mux2)
    (isMu1 : mux1.isMu = false) (isMu2 : mux2.isMu = false) (block : mux1.block = mux2.block)
    (conditions : start.conditions a = start.conditions b)
    (operands : ∀ number, g.getEffectiveValue (place (mux1.operand number)) =
      g.getEffectiveValue (place (mux2.operand number))) :
    g.getEffectiveValue (place (.gate a)) = g.getEffectiveValue (place (.gate b)) := by
  cases simplified.follows.represents a mux1 found1 with
  | bypassed inputs placed =>
    have same := simplified.place_of_inputs found2
      ((operands 1).symm.trans (inputs.trans (operands 2)))
    exact placed.trans ((operands 1).trans same.symm)
  | kept placed1 now1 block1 isGamma1 alike1 operands1 =>
    cases simplified.follows.represents b mux2 found2 with
    | bypassed inputs placed =>
      have same := simplified.place_of_inputs found1
        ((operands 1).trans (inputs.trans (operands 2).symm))
      exact same.trans ((operands 1).trans placed.symm)
    | kept placed2 now2 block2 isGamma2 alike2 operands2 =>
      rw [placed1, placed2, simplified.eq_of_alike now1 now2 (isGamma1.trans isMu1)
        (isGamma2.trans isMu2) (block1.trans (block.trans block2.symm))
        ((simplified.conditions_eq alike1).trans
          (conditions.trans (simplified.conditions_eq alike2).symm))
        fun number => (operands1 number).trans ((operands number).trans (operands2 number).symm)]

/-- The conditions of the gammas that are the inputs of a gate of the start. -/
theorem conditions_operand (simplified : Simplified start g place) {index gamma number : Nat}
    {mux below : Gate} (found : start.gate index = some mux) (data : number = 1 ∨ number = 2)
    (isInput : mux.operand number = .gate gamma) (foundBelow : start.gate gamma = some below)
    (own : below.block = mux.block) (isGamma : below.isMu = false) :
    start.conditions gamma = start.conditions index + start.added index number :=
  (simplified.forest.consumedAs foundBelow isGamma).own index mux number found data isInput own.symm

/-- Equivalent values of the start are equivalent still. -/
theorem place_equivalent (simplified : Simplified start g place) {v w : Value}
    (same : start.getEffectiveValue v = start.getEffectiveValue w) :
    g.getEffectiveValue (place v) = g.getEffectiveValue (place w) := by
  rcases equivalent_cases same with rfl | ⟨name, name', rfl, rfl⟩
  · rfl
  · rw [simplified.follows.leaf, simplified.follows.leaf, simplified.follows.effective,
      simplified.follows.effective]
    exact same

/-- Gammas of a block with one select add the same conditions. -/
private theorem added_eq_of_select {a b : Nat} {mux1 mux2 : Gate}
    (found1 : start.gate a = some mux1) (found2 : start.gate b = some mux2)
    (tests1 : ¬ start.treeOf mux1.block mux1.in0 = start.treeOf mux1.block mux1.in1)
    (tests2 : ¬ start.treeOf mux2.block mux2.in0 = start.treeOf mux2.block mux2.in1)
    (select : start.selectTree mux1 = start.selectTree mux2) (number : Nat) :
    start.added a number = start.added b number := by
  simp [added, found1, found2, testsNothing, tests1, tests2, select]

/-- The number of gates a value is ranked above. -/
private def height (rank : Nat → Nat) : Value → Nat
  | .leaf _ => 0
  | .gate index => rank index + 1

/-- Two values which, where both are gammas of the block, are consumed under the same conditions. -/
private def SameConditions (start : Graph) (block : Nat) (v w : Value) : Prop :=
  ∀ a b mux1 mux2, v = .gate a → w = .gate b → start.gate a = some mux1 →
    start.gate b = some mux2 → mux1.block = block → mux2.block = block → mux1.isMu = false →
    mux2.isMu = false → start.conditions a = start.conditions b

private theorem SameConditions.symm {block : Nat} {v w : Value}
    (same : SameConditions start block v w) : SameConditions start block w v :=
  fun a b mux1 mux2 isA isB foundA foundB ownA ownB gammaA gammaB =>
    (same b a mux2 mux1 isB isA foundB foundA ownB ownA gammaB gammaA).symm

/-- A gamma is a gamma of the block or foreign to it. -/
private theorem gamma_or_foreign (start : Graph) (block : Nat) (value : Value) :
    (∃ index mux, value = .gate index ∧ start.gate index = some mux ∧ mux.block = block ∧
      mux.isMu = false) ∨ start.Foreign block value := by
  by_cases foreign : start.Foreign block value
  · exact .inr foreign
  · simp only [Foreign, not_forall, exists_prop, Bool.not_eq_true] at foreign
    exact .inl foreign

/-- A gamma that tests nothing became what its inputs became. -/
private theorem place_eq_of_idle (simplified : Simplified start g place) {a : Nat} {mux : Gate}
    {w : Value} (found : start.gate a = some mux) (isGamma : mux.isMu = false)
    (idle : start.treeOf mux.block mux.in0 = start.treeOf mux.block mux.in1)
    (conditions : SameConditions start mux.block (.gate a) w)
    (inputs : ∀ number, number = 1 ∨ number = 2 →
      start.treeOf mux.block (mux.operand number) = start.treeOf mux.block mux.in0 →
      SameConditions start mux.block (mux.operand number) w →
      g.getEffectiveValue (place (mux.operand number)) = g.getEffectiveValue (place w)) :
    g.getEffectiveValue (place (.gate a)) = g.getEffectiveValue (place w) := by
  have nothing : ∀ number, start.added a number = 0 := by
    intro number
    simp [added, found, testsNothing, idle]
  have below : ∀ number, number = 1 ∨ number = 2 →
      SameConditions start mux.block (mux.operand number) w := by
    intro number data b c mux1 mux2 isB isC foundB foundC ownB ownC gammaB gammaC
    rw [simplified.conditions_operand found data isB foundB ownB gammaB, nothing number,
      Multiset.add_zero]
    exact conditions a c mux mux2 rfl isC found foundC rfl ownC isGamma gammaC
  have first := inputs 1 (.inl rfl) rfl (below 1 (.inl rfl))
  have second := inputs 2 (.inr rfl) idle.symm (below 2 (.inr rfl))
  exact (simplified.place_of_inputs found (first.trans second.symm)).trans first

/-- Equal trees became one value, when they are consumed under the same conditions. The induction
is on both heights, since a gate that tests nothing is left out on its side alone. -/
theorem place_eq_of_trees (simplified : Simplified start g place) {block : Nat} (v w : Value)
    (trees : start.treeOf block v = start.treeOf block w)
    (conditions : SameConditions start block v w) :
    g.getEffectiveValue (place v) = g.getEffectiveValue (place w) := by
  obtain ⟨rank, -, falls⟩ := simplified.forest.ranked
  have lower : ∀ index mux number, start.gate index = some mux → mux.isMu = false →
      number = 1 ∨ number = 2 → height rank (mux.operand number) < height rank (.gate index) := by
    intro index mux number found isGamma data
    cases isInput : mux.operand number with
    | leaf => exact Nat.succ_pos _
    | gate input =>
      refine Nat.succ_lt_succ ?_
      rcases data with rfl | rfl
      · exact falls index mux input found (.inl isInput)
      · exact falls index mux input found (.inr ⟨isGamma, isInput⟩)
  have forest := simplified.forest
  generalize total : height rank v + height rank w = bound
  induction bound using Nat.strong_induction_on generalizing v w with
  | _ bound ih =>
    have idleCase : ∀ a mux w, start.gate a = some mux → mux.block = block → mux.isMu = false →
        start.treeOf block mux.in0 = start.treeOf block mux.in1 →
        start.treeOf block (.gate a) = start.treeOf block w →
        SameConditions start block (.gate a) w →
        height rank (.gate a) + height rank w = bound →
        g.getEffectiveValue (place (.gate a)) = g.getEffectiveValue (place w) := by
      intro a mux w found own isGamma idle trees conditions total
      subst own
      have tree := forest.treeOf_gamma found isGamma
      rw [if_pos idle] at tree
      refine place_eq_of_idle simplified found isGamma idle conditions
        fun number data same conditions => ?_
      have := lower a mux number found isGamma data
      exact ih _ (by omega) _ w (same.trans (tree.symm.trans trees)) conditions rfl
    rcases gamma_or_foreign start block w with ⟨b, muxB, rfl, foundB, ownB, gammaB⟩ | foreignW
    · by_cases idleB : start.treeOf block muxB.in0 = start.treeOf block muxB.in1
      · exact (idleCase b muxB v foundB ownB gammaB idleB trees.symm conditions.symm
          (by omega)).symm
      have treeB := forest.treeOf_gamma foundB gammaB
      rw [ownB, if_neg idleB] at treeB
      rcases gamma_or_foreign start block v with ⟨a, muxA, rfl, foundA, ownA, gammaA⟩ | foreignV
      · by_cases idleA : start.treeOf block muxA.in0 = start.treeOf block muxA.in1
        · exact idleCase a muxA _ foundA ownA gammaA idleA trees conditions total
        have treeA := forest.treeOf_gamma foundA gammaA
        rw [ownA, if_neg idleA] at treeA
        rw [treeA, treeB] at trees
        obtain ⟨select, in0, in1⟩ := Tree.node.inj trees
        have sameConditions :=
          conditions a b muxA muxB rfl rfl foundA foundB ownA ownB gammaA gammaB
        have added := added_eq_of_select foundA foundB (ownA ▸ idleA) (ownB ▸ idleB)
          ((forest.selectTree_eq foundA gammaA).trans
            (select.trans (forest.selectTree_eq foundB gammaB).symm))
        have inputs : ∀ number, number = 1 ∨ number = 2 →
            start.treeOf block (muxA.operand number) = start.treeOf block (muxB.operand number) →
            g.getEffectiveValue (place (muxA.operand number)) =
              g.getEffectiveValue (place (muxB.operand number)) := by
          intro number data same
          have lowerA := lower a muxA number foundA gammaA data
          have lowerB := lower b muxB number foundB gammaB data
          refine ih _ (by omega) _ _ same (fun c d mux1 mux2 isC isD foundC foundD ownC ownD gammaC
            gammaD => ?_) rfl
          rw [simplified.conditions_operand foundA data isC foundC (ownC.trans ownA.symm) gammaC,
            simplified.conditions_operand foundB data isD foundD (ownD.trans ownB.symm) gammaD,
            sameConditions, added number]
        refine simplified.place_eq_of_operands foundA foundB gammaA gammaB (ownA.trans ownB.symm)
          sameConditions fun number => ?_
        match number with
        | 0 => exact simplified.place_equivalent (Tree.leaf.inj select)
        | 1 => exact inputs 1 (.inl rfl) in0
        | _ + 2 => exact inputs 2 (.inr rfl) in1
      · rw [treeB, treeOf_eq_leaf foreignV] at trees
        cases trees
    · rcases gamma_or_foreign start block v with ⟨a, muxA, rfl, foundA, ownA, gammaA⟩ | foreignV
      · by_cases idleA : start.treeOf block muxA.in0 = start.treeOf block muxA.in1
        · exact idleCase a muxA _ foundA ownA gammaA idleA trees conditions total
        have treeA := forest.treeOf_gamma foundA gammaA
        rw [ownA, if_neg idleA] at treeA
        rw [treeA, treeOf_eq_leaf foreignW] at trees
        cases trees
      · rw [treeOf_eq_leaf foreignV, treeOf_eq_leaf foreignW] at trees
        exact simplified.place_equivalent (Tree.leaf.inj trees)

/-- Every gate that is left adds a condition. -/
theorem added_eq_singleton (simplified : Simplified start g place) {index : Nat} {mux : Gate}
    (found : start.gate index = some mux) (left : g.gate index = some (mux.map place))
    (number : Nat) : start.added index number = {(start.selectTree mux, number)} := by
  have tests : ¬ start.treeOf mux.block mux.in0 = start.treeOf mux.block mux.in1 := by
    intro trees
    have nothing : ∀ number, start.added index number = 0 := by
      intro number
      simp [added, found, testsNothing, trees]
    refine simplified.inputs_ne left (simplified.place_eq_of_trees mux.in0 mux.in1 trees
      fun a b muxA muxB isA isB foundA foundB ownA ownB gammaA gammaB => ?_)
    rw [simplified.conditions_operand found (.inl rfl) isA foundA ownA gammaA,
      simplified.conditions_operand found (.inr rfl) isB foundB ownB gammaB,
      nothing, nothing]
  simp [added, found, testsNothing, tests]

/-- The uses by gates, at their data operands. -/
theorem mem_uses (simplified : Simplified start g place) {index owner number : Nat}
    (used : .operand owner number ∈ g.uses (.gate index)) :
    ∃ parent, g.gate owner = some parent ∧ (number = 1 ∨ number = 2) ∧
      parent.operand number = .gate index := by
  obtain ⟨parent, found, small, feeds⟩ :=
    (mem_uses_operand fun _ _ found => simplified.listed found).mp used
  refine ⟨parent, found, ?_, feeds⟩
  obtain ⟨name, select⟩ := simplified.kept.regular.selects owner parent found
  match number, small with
  | 0, _ =>
    rw [show parent.operand 0 = parent.select from rfl, select] at feeds
    cases feeds
  | 1, _ => exact .inl rfl
  | 2, _ => exact .inr rfl

/-- A MU is consumed under no condition. -/
theorem conditions_mu (simplified : Simplified start g place) {index : Nat} {now : Gate}
    (found : g.gate index = some now) (isMu : now.isMu = true) : start.conditions index = 0 := by
  obtain ⟨mux, foundStart, rfl⟩ := simplified.found_start found
  have isMu : mux.isMu = true := isMu
  simp [conditions, Graph.isGamma, foundStart, isMu]

end Simplified

/-! ## What the selects say -/

/-- The side a select takes in a block. -/
def Assignment.sideOf (assignment : Assignment) (block : Nat) : Tree → Nat
  | .mu => if assignment.mu block then 2 else 1
  | .leaf value => if assignment.condition value then 2 else 1
  | .node .. => 0

/-- All selects take the sides of the conditions. -/
def Assignment.Holds (assignment : Assignment) (block : Nat) (conditions : Multiset (Tree × Nat)) :
    Prop :=
  ∀ condition ∈ conditions, assignment.sideOf block condition.1 = condition.2

namespace Simplified

variable {assignment : Assignment}

/-- The side of a gate that is left is that of its condition. -/
theorem side_eq (simplified : Simplified start g place) {index : Nat} {mux : Gate}
    (found : start.gate index = some mux) :
    g.side assignment (mux.map place) = assignment.sideOf mux.block (start.selectTree mux) := by
  cases isMu : mux.isMu with
  | true => simp [side, selectTree, Gate.map, isMu, Assignment.sideOf]
  | false =>
    obtain ⟨name, select⟩ := simplified.forest.selects index mux found
    have stays : (mux.map place).select = mux.select := by
      rw [show (mux.map place).select = place mux.select from rfl, select, simplified.follows.leaf]
    have notMu : (mux.map place).isMu = false := isMu
    rw [simplified.forest.selectTree_eq found isMu]
    simp [side, stays, notMu, Assignment.sideOf, simplified.follows.effective]

/-- What a gate adds holds when the gate takes that side. -/
theorem holds_added (simplified : Simplified start g place) {owner number : Nat} {parent : Gate}
    (found : g.gate owner = some parent) :
    assignment.Holds parent.block (start.conditions owner + start.added owner number) ↔
      assignment.Holds parent.block (start.conditions owner) ∧
        g.side assignment parent = number := by
  obtain ⟨mux, foundStart, rfl⟩ := simplified.found_start found
  rw [simplified.added_eq_singleton foundStart found, simplified.side_eq foundStart]
  simp only [Assignment.Holds, Multiset.mem_add, Multiset.mem_singleton, or_imp, forall_and,
    forall_eq]
  rfl

/-- What is consumed is consumed under its conditions. -/
theorem holds_of_consumed (simplified : Simplified start g place) {index : Nat}
    (consumed : g.Consumed assignment index) :
    ∀ now, g.gate index = some now → assignment.Holds now.block (start.conditions index) := by
  have always : ∀ index now, g.gate index = some now →
      (now.isMu = false → start.conditions index = 0) →
      assignment.Holds now.block (start.conditions index) := by
    intro index now found empty
    have empty : start.conditions index = 0 := by
      cases isMu : now.isMu with
      | true => exact simplified.conditions_mu found isMu
      | false => exact empty isMu
    rw [empty]
    exact fun _ mem => absurd mem (Multiset.notMem_zero _)
  induction consumed with
  | mu foundMu isMu =>
    intro now found
    rw [foundMu] at found
    cases found
    exact always _ _ foundMu fun notMu => absurd (isMu.symm.trans notMu) nofun
  | @unused index unused =>
    intro now found
    refine always index now found fun isGamma => ?_
    refine (simplified.consumedAs found isGamma).unused
      (fun owner parent number foundParent data feeds => ?_) fun mem => ?_
    · have used : Use.operand owner number ∈ g.uses (.gate index) :=
        (mem_uses_operand fun _ _ found => simplified.listed found).mpr
          ⟨parent, foundParent, by omega, feeds⟩
      rw [unused] at used
      cases used
    · have used := mem_uses_other.mpr mem
      rw [unused] at used
      cases used
  | @root index mux use foundRoot used foreign =>
    intro now found
    rw [foundRoot] at found
    cases found
    refine always index _ foundRoot fun isGamma => ?_
    have consumedAs := simplified.consumedAs foundRoot isGamma
    cases use with
    | other => exact consumedAs.others (mem_uses_other.mp used)
    | operand owner number =>
      obtain ⟨parent, foundParent, data, feeds⟩ := simplified.mem_uses used
      exact consumedAs.foreign owner parent number foundParent data feeds
        fun own => foreign ⟨parent, foundParent, own, by omega⟩
  | @use index owner number mux parent foundMux used foundParent own data _ taken ih =>
    intro now found
    rw [foundMux] at found
    cases found
    by_cases isGamma : mux.isMu = false
    · obtain ⟨parent', foundParent', data', feeds⟩ := simplified.mem_uses used
      have theSame : parent' = parent := Option.some.inj (foundParent'.symm.trans foundParent)
      subst theSame
      rw [(simplified.consumedAs foundMux isGamma).own owner parent' number foundParent data' feeds
        own, ← own]
      exact (simplified.holds_added foundParent).mpr ⟨ih parent' foundParent, taken⟩
    · exact always index mux foundMux fun notMu => absurd notMu isGamma

/-- What is to be consumed under its conditions is consumed under them. The induction is on the
number of conditions, which falls on the way to the root. -/
theorem consumed_of_holds (simplified : Simplified start g place) {index : Nat} {now : Gate}
    (found : g.gate index = some now)
    (holds : assignment.Holds now.block (start.conditions index)) :
    g.Consumed assignment index := by
  generalize size : (start.conditions index).card = bound
  induction bound using Nat.strong_induction_on generalizing index now with
  | _ bound ih =>
    cases isMu : now.isMu with
    | true => exact .mu found isMu
    | false =>
      have consumedAs := simplified.consumedAs found isMu
      by_cases within : ∃ use ∈ g.uses (.gate index), g.Within now.block use
      · obtain ⟨use, used, inBlock⟩ := within
        cases use with
        | other => cases inBlock
        | operand owner number =>
          obtain ⟨parent, foundParent, own, positive⟩ := inBlock
          obtain ⟨parent', foundParent', data, feeds⟩ := simplified.mem_uses used
          have theSame : parent' = parent := Option.some.inj (foundParent'.symm.trans foundParent)
          subst theSame
          have conditions := consumedAs.own owner parent' number foundParent data feeds own
          rw [conditions, ← own] at holds
          obtain ⟨above, taken⟩ := (simplified.holds_added foundParent).mp holds
          obtain ⟨mux, foundStart, isMap⟩ := simplified.found_start foundParent
          have added := simplified.added_eq_singleton foundStart (isMap ▸ foundParent) number
          refine .use found used foundParent own positive (ih _ ?_ foundParent above rfl) taken
          rw [← size, conditions, added, Multiset.card_add, Multiset.card_singleton]
          exact Nat.lt_succ_self _
      · push Not at within
        cases uses : g.uses (.gate index) with
        | nil => exact .unused uses
        | cons use rest =>
          have used : use ∈ g.uses (.gate index) := by simp [uses]
          exact .root found used (within use used)

/-- The uses of a gamma that is left take its token together, under the conditions read at first. -/
theorem takes_iff (simplified : Simplified start g place) {index : Nat} {now : Gate}
    (found : g.gate index = some now) (isGamma : now.isMu = false) {use : Use}
    (used : use ∈ g.uses (.gate index)) :
    g.Takes assignment now.block use ↔ assignment.Holds now.block (start.conditions index) := by
  have consumedAs := simplified.consumedAs found isGamma
  have always : start.conditions index = 0 →
      assignment.Holds now.block (start.conditions index) := by
    intro empty
    rw [empty]
    exact fun _ mem => absurd mem (Multiset.notMem_zero _)
  cases use with
  | other =>
    exact iff_of_true trivial (always (consumedAs.others (mem_uses_other.mp used)))
  | operand owner number =>
    obtain ⟨parent, foundParent, data, feeds⟩ := simplified.mem_uses used
    by_cases own : parent.block = now.block
    · rw [consumedAs.own owner parent number foundParent data feeds own, ← own,
        simplified.holds_added foundParent]
      constructor
      · intro takes
        obtain ⟨consumed, taken⟩ := takes parent foundParent rfl (by omega)
        exact ⟨simplified.holds_of_consumed consumed parent foundParent, taken⟩
      · rintro ⟨holds, taken⟩ parent' foundParent' _ _
        rw [foundParent] at foundParent'
        cases foundParent'
        exact ⟨simplified.consumed_of_holds foundParent holds, taken⟩
    · refine iff_of_true ?_
        (always (consumedAs.foreign owner parent number foundParent data feeds own))
      intro parent' foundParent' inBlock
      rw [foundParent] at foundParent'
      cases foundParent'
      exact absurd inBlock own

/-- Every gamma that is left is taken by all its uses or by none. -/
theorem balanced (simplified : Simplified start g place) : g.Balanced := by
  intro assignment index now found isGamma
  by_cases holds : assignment.Holds now.block (start.conditions index)
  · exact .inl fun use used => (simplified.takes_iff found isGamma used).mpr holds
  · exact .inr fun use used takes => holds ((simplified.takes_iff found isGamma used).mp takes)

end Simplified

/-- The loop ends on every forest the analysis builds; what used a value uses one with the same
value under every assignment of the selects, and each gamma that is left is taken by all the
multiplexers it feeds, on the side they select, or by none. -/
theorem simplify_balanced (forest : Forest g) :
    ∃ reduced, simplify g = some reduced ∧ g.KeepsValues reduced ∧ reduced.Balanced := by
  have enough : g.live < g.gsaList.length + 1 := Nat.lt_succ_of_le (live_le_length g)
  obtain ⟨reduced, computes, steps, settled⟩ :=
    @simplifyLoop_settles g.areConsumedAlike g _ forest.nodup enough
  obtain ⟨kept, place, follows⟩ := forest.kept.of_steps (.refl g) steps
  refine ⟨reduced, computes, ⟨place, follows.others, fun index now found =>
    (follows.gates index now found).2, follows.evaluates⟩, ?_⟩
  exact Simplified.balanced ⟨forest, kept, follows, settled⟩

/-- Two trees of a block with a gamma in common, and a MU of the loop they lead to. -/
def twoTrees : Graph where
  gsaList := [0, 1, 2, 3, 4]
  gate
    | 0 => some ⟨1, false, .leaf 10, .gate 2, .leaf 0⟩
    | 1 => some ⟨1, false, .leaf 10, .gate 3, .leaf 1⟩
    | 2 => some ⟨1, false, .leaf 11, .leaf 2, .leaf 3⟩
    | 3 => some ⟨1, false, .leaf 11, .leaf 2, .leaf 3⟩
    | 4 => some ⟨2, true, .leaf 12, .gate 0, .gate 4⟩
    | _ => none
  others := [.gate 0, .gate 1, .gate 4]
  backedgeToOriginal _ := none

theorem twoTrees_gate {index : Nat} {mux : Gate} (found : twoTrees.gate index = some mux) :
    index = 0 ∧ mux = ⟨1, false, .leaf 10, .gate 2, .leaf 0⟩ ∨
    index = 1 ∧ mux = ⟨1, false, .leaf 10, .gate 3, .leaf 1⟩ ∨
    index = 2 ∧ mux = ⟨1, false, .leaf 11, .leaf 2, .leaf 3⟩ ∨
    index = 3 ∧ mux = ⟨1, false, .leaf 11, .leaf 2, .leaf 3⟩ ∨
    index = 4 ∧ mux = ⟨2, true, .leaf 12, .gate 0, .gate 4⟩ := by
  match index with
  | 0 | 1 | 2 | 3 | 4 => simpa [twoTrees, eq_comm] using found
  | _ + 5 => cases found

theorem twoTrees_forest : Forest twoTrees where
  nodup := by decide
  listed index mux found := by
    rcases twoTrees_gate found with ⟨rfl, -⟩ | ⟨rfl, -⟩ | ⟨rfl, -⟩ | ⟨rfl, -⟩ | ⟨rfl, -⟩ <;> decide
  selects index mux found := by
    rcases twoTrees_gate found with ⟨-, rfl⟩ | ⟨-, rfl⟩ | ⟨-, rfl⟩ | ⟨-, rfl⟩ | ⟨-, rfl⟩ <;>
      exact ⟨_, rfl⟩
  ranked := by
    refine ⟨fun index => [2, 3, 0, 1, 4].getD index 0, by decide,
      fun index mux input found below => ?_⟩
    rcases twoTrees_gate found with ⟨rfl, rfl⟩ | ⟨rfl, rfl⟩ | ⟨rfl, rfl⟩ | ⟨rfl, rfl⟩ |
      ⟨rfl, rfl⟩ <;> simp at below <;> subst below <;> decide
  oneParent gamma mux owner parent number found isGamma foundParent own data feeds := by
    rcases twoTrees_gate foundParent with ⟨rfl, rfl⟩ | ⟨rfl, rfl⟩ | ⟨rfl, rfl⟩ | ⟨rfl, rfl⟩ |
      ⟨rfl, rfl⟩ <;> rcases data with rfl | rfl <;> simp [Gate.operand] at feeds <;> subst feeds
    · have uses : twoTrees.uses (.gate 2) = [.operand 0 1] := by decide
      exact fun use used => ⟨1, by simpa [uses] using used⟩
    · have uses : twoTrees.uses (.gate 3) = [.operand 1 1] := by decide
      exact fun use used => ⟨1, by simpa [uses] using used⟩
    · cases found
      cases own
    · cases found
      cases isGamma
  muApart index mux first second found isMu below := by
    rcases twoTrees_gate found with ⟨rfl, rfl⟩ | ⟨rfl, rfl⟩ | ⟨rfl, rfl⟩ | ⟨rfl, rfl⟩ | ⟨rfl, rfl⟩
    all_goals cases isMu
    cases below with
    | here found own | in0 found own | in1 found own =>
      cases found
      cases own
  leaves index mux number other foreign found data feeds foundForeign different returns := by
    rcases twoTrees_gate found with ⟨rfl, rfl⟩ | ⟨rfl, rfl⟩ | ⟨rfl, rfl⟩ | ⟨rfl, rfl⟩ |
      ⟨rfl, rfl⟩ <;> rcases data with rfl | rfl <;> simp [Gate.operand] at feeds <;> subst feeds <;>
      cases foundForeign <;> simp at different
    cases returns with
    | gamma found own =>
      cases found
      cases own
    | through found _ returns =>
      cases found
      cases returns with
      | gamma found own =>
        cases found
        cases own
      | through found _ returns =>
        cases found
        cases returns

theorem twoTrees_balanced :
    ∃ reduced, simplify twoTrees = some reduced ∧ twoTrees.KeepsValues reduced ∧
      reduced.Balanced :=
  simplify_balanced twoTrees_forest

/-- The gamma the trees have in common is built once. -/
example : (simplify twoTrees).map (fun reduced => reduced.gsaList.map reduced.gate) =
    some [some ⟨1, false, .leaf 10, .gate 2, .leaf 0⟩, some ⟨1, false, .leaf 10, .gate 2, .leaf 1⟩,
      some ⟨1, false, .leaf 11, .leaf 2, .leaf 3⟩, none,
      some ⟨2, true, .leaf 12, .gate 0, .gate 4⟩] := by decide

end Dynamatic.GammaMerging
