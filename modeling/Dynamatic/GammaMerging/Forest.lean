import Dynamatic.GammaMerging.Values

/-!
# Forests of gates

What the analysis promises of the gates it builds, and what the trees and the conditions read from
such a forest are: the conditions of a gamma are those of the multiplexer above it and the side it
is on there.
-/

namespace Dynamatic.GammaMerging

open GammaMerging.Graph

variable {g : Graph}

/-- A gamma of the tree of gammas of `block` under a value. -/
inductive Graph.Below (g : Graph) (block : Nat) : Value → Gate → Prop
  | here {index : Nat} {mux : Gate} (found : g.gate index = some mux) (own : mux.block = block)
      (gamma : mux.isMu = false) : Below g block (.gate index) mux
  | in0 {index : Nat} {mux under : Gate} (found : g.gate index = some mux)
      (own : mux.block = block) (gamma : mux.isMu = false) (below : Below g block mux.in0 under) :
      Below g block (.gate index) under
  | in1 {index : Nat} {mux under : Gate} (found : g.gate index = some mux)
      (own : mux.block = block) (gamma : mux.isMu = false) (below : Below g block mux.in1 under) :
      Below g block (.gate index) under

/-- A value that gates of other blocks pass on, by their first inputs, from a gamma of `block`. -/
inductive Graph.Returns (g : Graph) (block : Nat) : Value → Prop
  | gamma {index : Nat} {mux : Gate} (found : g.gate index = some mux) (own : mux.block = block)
      (gamma : mux.isMu = false) : Returns g block (.gate index)
  | through {index : Nat} {mux : Gate} (found : g.gate index = some mux)
      (foreign : mux.block ≠ block) (returns : Returns g block mux.in0) :
      Returns g block (.gate index)

/-- A forest of gates as the analysis builds it. Gates are built from their inputs up, but for the
loop input of a MU, and selects are conditions, never gates. A gamma that feeds a gate of its block
feeds nothing else. The trees of the two inputs of a MU test different conditions: those outside
of the loop and those in it. The value of a gamma gets back to its block in a next iteration only,
by the loop input of a MU, so no gate of the block takes it from another block. -/
structure Forest (g : Graph) : Prop where
  nodup : g.gsaList.Nodup
  listed : ∀ index mux, g.gate index = some mux → index ∈ g.gsaList
  selects : ∀ index mux, g.gate index = some mux → ∃ name, mux.select = .leaf name
  ranked : ∃ rank : Nat → Nat, (∀ index ∈ g.gsaList, rank index < g.gsaList.length) ∧
    ∀ index mux input, g.gate index = some mux →
      mux.in0 = .gate input ∨ mux.isMu = false ∧ mux.in1 = .gate input → rank input < rank index
  oneParent : ∀ gamma mux owner parent number, g.gate gamma = some mux → mux.isMu = false →
    g.gate owner = some parent → parent.block = mux.block → number = 1 ∨ number = 2 →
    parent.operand number = .gate gamma → ∀ use ∈ g.uses (.gate gamma), ∃ side,
      use = .operand owner side
  muApart : ∀ index mux first second, g.gate index = some mux → mux.isMu = true →
    g.Below mux.block mux.in0 first → g.Below mux.block mux.in1 second →
    g.getEffectiveValue first.select ≠ g.getEffectiveValue second.select
  leaves : ∀ index mux number other foreign, g.gate index = some mux → number = 1 ∨ number = 2 →
    mux.operand number = .gate other → g.gate other = some foreign → foreign.block ≠ mux.block →
    ¬ g.Returns mux.block (.gate other)

/-! ## Uses -/

theorem Graph.mem_uses_operand (listed : ∀ index mux, g.gate index = some mux → index ∈ g.gsaList)
    {value : Value} {owner number : Nat} :
    .operand owner number ∈ g.uses value ↔
      ∃ parent, g.gate owner = some parent ∧ number ≤ 2 ∧ parent.operand number = value := by
  simp only [uses, List.mem_append, List.mem_flatMap, List.mem_map, List.mem_filter,
    reduceCtorEq, and_false, exists_false, or_false]
  constructor
  · rintro ⟨index, -, mem⟩
    split at mem
    next mux found =>
      simp only [List.mem_map, List.mem_filter, decide_eq_true_eq, Use.operand.injEq] at mem
      obtain ⟨side, ⟨sideMem, operand⟩, rfl, rfl⟩ := mem
      refine ⟨mux, found, ?_, operand⟩
      simp only [List.mem_cons, List.not_mem_nil, or_false] at sideMem
      omega
    next => cases mem
  · rintro ⟨parent, found, small, operand⟩
    refine ⟨owner, listed owner parent found, ?_⟩
    rw [found]
    simp only [List.mem_map, List.mem_filter, decide_eq_true_eq, Use.operand.injEq]
    refine ⟨number, ⟨?_, operand⟩, trivial, rfl⟩
    simp only [List.mem_cons, List.not_mem_nil, or_false]
    omega

theorem Graph.mem_uses_other {value : Value} : .other ∈ g.uses value ↔ value ∈ g.others := by
  simp only [uses, List.mem_append, List.mem_flatMap, List.mem_map, List.mem_filter,
    decide_eq_true_eq, and_true]
  constructor
  · rintro (⟨index, -, mem⟩ | ⟨other, mem, rfl⟩)
    · split at mem
      · simp at mem
      · cases mem
    · exact mem
  · exact fun mem => .inr ⟨value, mem, rfl⟩

/-! ## Trees -/

/-- Fuel past the rank of a value changes nothing. -/
private theorem Graph.getTree_fuel {rank : Nat → Nat} (forest : Forest g)
    (falls : ∀ index mux input, g.gate index = some mux →
      mux.in0 = .gate input ∨ mux.isMu = false ∧ mux.in1 = .gate input →
      rank input < rank index) {block fuel : Nat} {value : Value}
    (enough : ∀ index, value = .gate index → rank index < fuel) :
    g.getTree block (fuel + 1) value = g.getTree block fuel value := by
  induction fuel generalizing value with
  | zero =>
    cases value with
    | leaf => rfl
    | gate index => exact absurd (enough index rfl) (Nat.not_lt_zero _)
  | succ fuel ih =>
    cases value with
    | leaf => rfl
    | gate index =>
      have below := enough index rfl
      rw [getTree, getTree]
      cases found : g.gate index with
      | none => rfl
      | some mux =>
        dsimp only
        split
        next own =>
          obtain ⟨name, select⟩ := forest.selects index mux found
          have tree0 : g.getTree block (fuel + 1) mux.in0 = g.getTree block fuel mux.in0 := by
            refine ih fun input isInput => ?_
            have := falls index mux input found (.inl isInput)
            omega
          have tree1 : g.getTree block (fuel + 1) mux.in1 = g.getTree block fuel mux.in1 := by
            refine ih fun input isInput => ?_
            have := falls index mux input found (.inr ⟨own.2, isInput⟩)
            omega
          have treeSelect :
              g.getTree block (fuel + 1) mux.select = g.getTree block fuel mux.select :=
            ih fun input isInput => by simp [select] at isInput
          rw [tree0, tree1, treeSelect]
        next => rfl

/-- The tree of a gamma of the block. -/
theorem Forest.treeOf_gamma (forest : Forest g) {index : Nat} {mux : Gate}
    (found : g.gate index = some mux) (gamma : mux.isMu = false) :
    g.treeOf mux.block (.gate index) =
      if g.treeOf mux.block mux.in0 = g.treeOf mux.block mux.in1 then g.treeOf mux.block mux.in0
      else .node (.leaf (g.getEffectiveValue mux.select)) (g.treeOf mux.block mux.in0)
        (g.treeOf mux.block mux.in1) := by
  obtain ⟨rank, bound, falls⟩ := forest.ranked
  obtain ⟨name, select⟩ := forest.selects index mux found
  have below := bound index (forest.listed index mux found)
  obtain ⟨fuel, length⟩ : ∃ fuel, g.gsaList.length = fuel + 1 :=
    ⟨g.gsaList.length - 1, by omega⟩
  rw [length] at below
  have unfolded : ∀ value, g.treeOf mux.block value = g.getTree mux.block (fuel + 1) value := by
    intro value
    rw [treeOf, length]
  have tree0 : g.getTree mux.block (fuel + 1) mux.in0 = g.getTree mux.block fuel mux.in0 := by
    refine getTree_fuel forest falls fun input isInput => ?_
    have := falls index mux input found (.inl isInput)
    omega
  have tree1 : g.getTree mux.block (fuel + 1) mux.in1 = g.getTree mux.block fuel mux.in1 := by
    refine getTree_fuel forest falls fun input isInput => ?_
    have := falls index mux input found (.inr ⟨gamma, isInput⟩)
    omega
  have selectTree :
      g.getTree mux.block fuel mux.select = .leaf (g.getEffectiveValue mux.select) := by
    rw [select, getTree]
    exact fun _ _ _ => nofun
  simp only [unfolded, tree0, tree1]
  rw [getTree, found]
  simp only [gamma, and_self, if_true, selectTree]

/-- Any other value is a leaf. -/
theorem Graph.treeOf_eq_leaf {block : Nat} {value : Value}
    (foreign : ∀ index mux, value = .gate index → g.gate index = some mux → mux.block = block →
      mux.isMu = true) : g.treeOf block value = .leaf (g.getEffectiveValue value) := by
  unfold treeOf
  generalize g.gsaList.length = fuel
  cases fuel with
  | zero => cases value <;> rfl
  | succ fuel =>
    cases value with
    | leaf => rfl
    | gate index =>
      rw [getTree]
      split
      next mux found =>
        refine if_neg ?_
        rintro ⟨own, gamma⟩
        rw [foreign index mux rfl found own] at gamma
        cases gamma
      next => rfl

/-! ## Conditions -/

/-- The conditions under which a gate is consumed, once they are read: a MU is consumed whenever its
block is executed. -/
def Graph.conditions (g : Graph) (index : Nat) : Multiset (Tree × Nat) :=
  if g.isGamma index then ((g.consumptionPerGamma index).map Consumption.sides).getD 0 else 0

/-- The condition a gate adds for what feeds one of its operands. -/
def Graph.added (g : Graph) (owner number : Nat) : Multiset (Tree × Nat) :=
  match g.gate owner with
  | some parent => if g.testsNothing parent then 0 else {(g.selectTree parent, number)}
  | none => 0

/-- All uses agree. -/
private theorem agree_of_forall {block : Nat} {consumption : Consumption}
    {uses : List (Option Consumption)} (all : ∀ use ∈ uses, use = some consumption) :
    agree block none uses = some (if uses = [] then ⟨block, 0⟩ else consumption) := by
  have again : ∀ rest : List (Option Consumption), (∀ use ∈ rest, use = some consumption) →
      agree block (some consumption) rest = some consumption := by
    intro rest all
    induction rest with
    | nil => rfl
    | cons use rest ih =>
      rw [all use (by simp), agree, if_pos rfl]
      exact ih fun other mem => all other (by simp [mem])
  cases uses with
  | nil => rfl
  | cons use rest =>
    rw [all use (by simp), agree, again rest fun other mem => all other (by simp [mem])]
    simp

/-- A gamma that feeds a gate of its block is consumed as that gate is, on the side it feeds. -/
private theorem Forest.getConsumption_own (forest : Forest g) {gamma owner number fuel : Nat}
    {mux parent : Gate} {above : Multiset (Tree × Nat)} (found : g.gate gamma = some mux)
    (isGamma : mux.isMu = false) (foundParent : g.gate owner = some parent)
    (own : parent.block = mux.block) (data : number = 1 ∨ number = 2)
    (feeds : parent.operand number = .gate gamma)
    (consumed : (if parent.isMu then some ⟨mux.block, 0⟩ else g.getConsumption fuel owner) =
      some ⟨mux.block, above⟩) :
    g.getConsumption (fuel + 1) gamma = some ⟨mux.block, above + g.added owner number⟩ := by
  have used : Use.operand owner number ∈ g.uses (.gate gamma) :=
    (mem_uses_operand forest.listed).mpr ⟨parent, foundParent, by omega, feeds⟩
  have all : ∀ use ∈ (g.uses (.gate gamma)).map
      (g.useConsumption (g.getConsumption fuel) mux.block),
      use = some ⟨mux.block, above + g.added owner number⟩ := by
    intro item mem
    obtain ⟨use, isUse, rfl⟩ := List.mem_map.mp mem
    obtain ⟨side, rfl⟩ := forest.oneParent gamma mux owner parent number found isGamma foundParent
      own data feeds use isUse
    obtain ⟨parent', foundParent', small, feeds'⟩ := (mem_uses_operand forest.listed).mp isUse
    rw [foundParent] at foundParent'
    cases foundParent'
    have positive : 0 < side := by
      rcases Nat.eq_zero_or_pos side with rfl | positive
      · obtain ⟨name, select⟩ := forest.selects owner parent foundParent
        rw [show parent.operand 0 = parent.select from rfl, select] at feeds'
        exact nomatch feeds'
      · exact positive
    simp only [useConsumption, foundParent, added, own, positive, and_self, if_true, consumed,
      Option.map_some]
    split
    next => simp
    next tests =>
      -- a gate that took the gamma on both sides would test nothing
      have sameSide : side = number := by
        by_contra differ
        refine tests ?_
        have both : parent.in0 = .gate gamma ∧ parent.in1 = .gate gamma := by
          have sides : side = 1 ∨ side = 2 := by omega
          rcases data with rfl | rfl <;> rcases sides with rfl | rfl
          · exact absurd rfl differ
          · exact ⟨feeds, feeds'⟩
          · exact ⟨feeds', feeds⟩
          · exact absurd rfl differ
        simp [testsNothing, both.1, both.2]
      rw [sameSide, Multiset.add_comm, Multiset.singleton_add]
  rw [getConsumption, found]
  dsimp only
  rw [agree_of_forall all, if_neg ?_]
  intro empty
  rw [List.map_eq_nil_iff] at empty
  rw [empty] at used
  cases used

/-- A gamma that feeds no gate of its block is a root. -/
private theorem Forest.getConsumption_root (forest : Forest g) {gamma fuel : Nat} {mux : Gate}
    (found : g.gate gamma = some mux)
    (root : ∀ owner parent number, g.gate owner = some parent → number = 1 ∨ number = 2 →
      parent.operand number = .gate gamma → parent.block ≠ mux.block) :
    g.getConsumption (fuel + 1) gamma = some ⟨mux.block, 0⟩ := by
  have all : ∀ use ∈ (g.uses (.gate gamma)).map
      (g.useConsumption (g.getConsumption fuel) mux.block), use = some ⟨mux.block, 0⟩ := by
    intro item mem
    obtain ⟨use, isUse, rfl⟩ := List.mem_map.mp mem
    cases use with
    | other => rfl
    | operand owner number =>
      obtain ⟨parent, foundParent, small, feeds⟩ := (mem_uses_operand forest.listed).mp isUse
      simp only [useConsumption, foundParent]
      refine if_neg ?_
      rintro ⟨own, positive⟩
      exact root owner parent number foundParent (by omega) feeds own
  rw [getConsumption, found]
  dsimp only
  rw [agree_of_forall all]
  split <;> rfl

/-- Whether a gamma feeds a gate of its block, and which. -/
private theorem Graph.feeds_cases (g : Graph) (gamma block : Nat) :
    (∃ owner parent number, g.gate owner = some parent ∧ parent.block = block ∧
      (number = 1 ∨ number = 2) ∧ parent.operand number = .gate gamma) ∨
    ∀ owner parent number, g.gate owner = some parent → number = 1 ∨ number = 2 →
      parent.operand number = .gate gamma → parent.block ≠ block := by
  by_contra neither
  push Not at neither
  obtain ⟨none, owner, parent, number, found, data, feeds, own⟩ := neither
  exact none owner parent number found own data feeds

/-- The conditions of a gamma are read, with any fuel past the way to its root. -/
private theorem Forest.exists_consumption (forest : Forest g) {rank : Nat → Nat}
    (bound : ∀ index ∈ g.gsaList, rank index < g.gsaList.length)
    (falls : ∀ index mux input, g.gate index = some mux →
      mux.in0 = .gate input ∨ mux.isMu = false ∧ mux.in1 = .gate input →
      rank input < rank index) (gamma : Nat) (mux : Gate) (found : g.gate gamma = some mux)
    (isGamma : mux.isMu = false) :
    ∃ sides, ∀ fuel, g.gsaList.length ≤ fuel + rank gamma →
      g.getConsumption fuel gamma = some ⟨mux.block, sides⟩ := by
  have below := bound gamma (forest.listed gamma mux found)
  obtain ⟨distance, atDistance⟩ : ∃ distance, rank gamma + distance = g.gsaList.length :=
    ⟨g.gsaList.length - rank gamma, by omega⟩
  induction distance using Nat.strong_induction_on generalizing gamma mux with
  | _ distance ih =>
    rcases g.feeds_cases gamma mux.block with
      ⟨owner, parent, number, foundParent, own, data, feeds⟩ | root
    · cases isMu : parent.isMu with
      | true =>
        refine ⟨0 + g.added owner number, fun fuel enough => ?_⟩
        obtain ⟨fuel, rfl⟩ : ∃ less, fuel = less + 1 := ⟨fuel - 1, by omega⟩
        exact forest.getConsumption_own found isGamma foundParent own data feeds (by simp [isMu])
      | false =>
        have belowParent := bound owner (forest.listed owner parent foundParent)
        have higher : rank gamma < rank owner := by
          rcases data with rfl | rfl
          · exact falls owner parent gamma foundParent (.inl feeds)
          · exact falls owner parent gamma foundParent (.inr ⟨isMu, feeds⟩)
        obtain ⟨above, consumed⟩ := ih (g.gsaList.length - rank owner) (by omega) owner parent
          foundParent isMu belowParent (by omega)
        refine ⟨above + g.added owner number, fun fuel enough => ?_⟩
        obtain ⟨fuel, rfl⟩ : ∃ less, fuel = less + 1 := ⟨fuel - 1, by omega⟩
        refine forest.getConsumption_own found isGamma foundParent own data feeds ?_
        rw [isMu, ← own]
        exact consumed fuel (by omega)
    · refine ⟨0, fun fuel enough => ?_⟩
      obtain ⟨fuel, rfl⟩ : ∃ less, fuel = less + 1 := ⟨fuel - 1, by omega⟩
      exact forest.getConsumption_root found root

/-- What the uses of a gamma say about the conditions under which it is consumed. -/
structure Graph.ConsumedAs (start g : Graph) (gamma block : Nat) : Prop where
  own : ∀ owner parent number, g.gate owner = some parent → number = 1 ∨ number = 2 →
    parent.operand number = .gate gamma → parent.block = block →
    start.conditions gamma = start.conditions owner + start.added owner number
  foreign : ∀ owner parent number, g.gate owner = some parent → number = 1 ∨ number = 2 →
    parent.operand number = .gate gamma → parent.block ≠ block → start.conditions gamma = 0
  others : .gate gamma ∈ g.others → start.conditions gamma = 0
  unused : (∀ owner parent number, g.gate owner = some parent → number = 1 ∨ number = 2 →
    parent.operand number ≠ .gate gamma) → .gate gamma ∉ g.others → start.conditions gamma = 0

theorem Graph.conditions_eq {gamma : Nat} {mux : Gate} {consumption : Consumption}
    (found : g.gate gamma = some mux) (isGamma : mux.isMu = false)
    (read : g.consumptionPerGamma gamma = some consumption) :
    g.conditions gamma = consumption.sides := by
  simp [conditions, Graph.isGamma, found, isGamma, read]

/-- The conditions of a gamma of a forest. -/
theorem Forest.consumptionPerGamma_eq (forest : Forest g) {gamma : Nat} {mux : Gate}
    (found : g.gate gamma = some mux) (isGamma : mux.isMu = false) :
    g.consumptionPerGamma gamma = some ⟨mux.block, g.conditions gamma⟩ := by
  obtain ⟨rank, bound, falls⟩ := forest.ranked
  obtain ⟨sides, read⟩ := forest.exists_consumption bound falls gamma mux found isGamma
  have read : g.consumptionPerGamma gamma = some ⟨mux.block, sides⟩ := read _ (by omega)
  rw [conditions_eq found isGamma read]
  exact read

/-- The conditions of a gamma of a forest fit all its uses. -/
theorem Forest.consumedAs (forest : Forest g) {gamma : Nat} {mux : Gate}
    (found : g.gate gamma = some mux) (isGamma : mux.isMu = false) :
    g.ConsumedAs g gamma mux.block := by
  obtain ⟨rank, bound, falls⟩ := forest.ranked
  obtain ⟨sides, read⟩ := forest.exists_consumption bound falls gamma mux found isGamma
  have read' : g.getConsumption (g.gsaList.length + 1) gamma = some ⟨mux.block, sides⟩ :=
    read _ (by omega)
  have conditions : g.conditions gamma = sides :=
    conditions_eq found isGamma (read g.gsaList.length (by omega))
  rcases g.feeds_cases gamma mux.block with
    ⟨owner, parent, number, foundParent, own, data, feeds⟩ | root
  · have onlyUse := forest.oneParent gamma mux owner parent number found isGamma foundParent own
      data feeds
    refine ⟨fun owner' parent' number' found' data' feeds' own' => ?_,
      fun owner' parent' number' found' data' feeds' foreign' => ?_, fun mem => ?_,
      fun unused => absurd feeds (unused owner parent number foundParent data)⟩
    · have above : (if parent'.isMu then some ⟨mux.block, 0⟩
          else g.getConsumption g.gsaList.length owner') =
          some (⟨mux.block, g.conditions owner'⟩ : Consumption) := by
        cases isMu : parent'.isMu with
        | true => simp [Graph.conditions, Graph.isGamma, found', isMu]
        | false =>
          rw [← own']
          exact forest.consumptionPerGamma_eq found' isMu
      have := forest.getConsumption_own found isGamma found' own' data' feeds' above
      rw [read'] at this
      cases this
      exact conditions
    · obtain ⟨side, same⟩ := onlyUse (.operand owner' number')
        ((mem_uses_operand forest.listed).mpr ⟨parent', found', by omega, feeds'⟩)
      cases same
      rw [foundParent] at found'
      cases found'
      exact absurd own foreign'
    · obtain ⟨side, same⟩ := onlyUse .other (mem_uses_other.mpr mem)
      cases same
  · have empty : g.conditions gamma = 0 := by
      have rootRead : g.getConsumption (g.gsaList.length + 1) gamma = some ⟨mux.block, 0⟩ :=
        forest.getConsumption_root found root
      rw [read'] at rootRead
      cases rootRead
      exact conditions
    exact ⟨fun owner' parent' number' found' data' feeds' own' =>
      absurd own' (root owner' parent' number' found' data' feeds'),
      fun _ _ _ _ _ _ _ => empty, fun _ => empty, fun _ _ => empty⟩

/-- The conditions of all gammas are read, so gammas may be merged. -/
theorem Forest.canMerge (forest : Forest g) : g.canMerge = true := by
  refine List.all_eq_true.mpr fun index mem => ?_
  cases found : g.gate index with
  | none => simp [Graph.isGamma, found]
  | some mux =>
    cases isMu : mux.isMu with
    | true => simp [Graph.isGamma, found, isMu]
    | false => simp [forest.consumptionPerGamma_eq found isMu]

end Dynamatic.GammaMerging
