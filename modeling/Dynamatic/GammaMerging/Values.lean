import Dynamatic.GammaMerging.Merging

/-!
# The values of a forest

Under an assignment of the selects a value is followed through the gates to a value that no gate
computes. A step of the simplification gives another value to the users of a gate, and every value
is followed to where it led before.
-/

namespace Dynamatic.GammaMerging

open GammaMerging.Graph

variable {alike : Nat → Nat → Bool} {g g' : Graph}

/-- What the selects say: a bit for each condition, and one for all the MUs of a block, which take
their initial input together. -/
structure Assignment where
  condition : Value → Bool
  mu : Nat → Bool

/-- The number of the data operand a gate takes. -/
def Graph.side (g : Graph) (assignment : Assignment) (mux : Gate) : Nat :=
  let bit :=
    if mux.isMu then assignment.mu mux.block
    else assignment.condition (g.getEffectiveValue mux.select)
  if bit then 2 else 1

/-- The value comes to `result` when every gate takes the side its select says. -/
inductive Graph.Evaluates (g : Graph) (assignment : Assignment) : Value → Value → Prop
  | leaf (name : Nat) : Evaluates g assignment (.leaf name) (g.getEffectiveValue (.leaf name))
  | gate {index : Nat} {mux : Gate} {result : Value} (found : g.gate index = some mux)
      (taken : Evaluates g assignment (mux.operand (g.side assignment mux)) result) :
      Evaluates g assignment (.gate index) result

/-- What a step relies on: selects are no gates, the gates are built from their inputs up, the loop
input of a MU apart, and gates merged are gammas of one block. -/
structure Graph.Regular (alike : Nat → Nat → Bool) (g : Graph) : Prop where
  selects : ∀ index mux, g.gate index = some mux → ∃ name, mux.select = .leaf name
  ranked : ∃ rank : Nat → Nat, ∀ index mux input, g.gate index = some mux →
    mux.in0 = .gate input ∨ mux.isMu = false ∧ mux.in1 = .gate input → rank input < rank index
  gammas : ∀ first second mux1 mux2, alike first second = true → g.gate first = some mux1 →
    g.gate second = some mux2 →
    mux1.isMu = false ∧ mux2.isMu = false ∧ mux1.block = mux2.block

/-! ## Values that are equivalent -/

@[simp] theorem Value.replace_self (old new : Value) : old.replace old new = new := if_pos rfl

theorem Value.replace_of_ne {old new value : Value} (distinct : value ≠ old) :
    value.replace old new = value := if_neg distinct

@[simp] theorem Value.replace_leaf (name index : Nat) (new : Value) :
    (Value.leaf name).replace (.gate index) new = .leaf name := if_neg nofun

@[simp] theorem Graph.getEffectiveValue_gate (index : Nat) :
    g.getEffectiveValue (.gate index) = .gate index := rfl

/-- A gate is equivalent to itself alone. -/
@[simp] theorem Graph.getEffectiveValue_eq_gate {value : Value} {index : Nat} :
    g.getEffectiveValue value = .gate index ↔ value = .gate index := by
  cases value <;> simp [getEffectiveValue]

/-- Equivalent values are one gate, or no gates. -/
theorem Graph.equivalent_cases {a b : Value}
    (same : g.getEffectiveValue a = g.getEffectiveValue b) :
    a = b ∨ ∃ name name', a = .leaf name ∧ b = .leaf name' := by
  cases a with
  | leaf name =>
    cases b with
    | leaf name' => exact .inr ⟨name, name', rfl, rfl⟩
    | gate index => exact nomatch same
  | gate index =>
    left
    exact (Graph.getEffectiveValue_eq_gate.mp same.symm).symm

/-- A step keeps equivalent values equivalent. -/
theorem Graph.replace_equivalent {a b new : Value} {index : Nat}
    (same : g.getEffectiveValue a = g.getEffectiveValue b) :
    g.getEffectiveValue (a.replace (.gate index) new) =
      g.getEffectiveValue (b.replace (.gate index) new) := by
  rcases equivalent_cases same with rfl | ⟨name, name', rfl, rfl⟩
  · rfl
  · simpa using same

theorem Graph.Evaluates.of_equivalent {assignment : Assignment} {a b result : Value}
    (evaluates : g.Evaluates assignment a result)
    (same : g.getEffectiveValue a = g.getEffectiveValue b) : g.Evaluates assignment b result := by
  rcases equivalent_cases same with rfl | ⟨name, name', rfl, rfl⟩
  · exact evaluates
  · cases evaluates with
    | leaf => exact same ▸ .leaf name'

/-! ## One step -/

@[simp] theorem Gate.replace_block (mux : Gate) (old new : Value) :
    (mux.replace old new).block = mux.block := rfl

@[simp] theorem Gate.replace_isMu (mux : Gate) (old new : Value) :
    (mux.replace old new).isMu = mux.isMu := rfl

@[simp] theorem Gate.replace_in0 (mux : Gate) (old new : Value) :
    (mux.replace old new).in0 = mux.in0.replace old new := rfl

@[simp] theorem Gate.replace_in1 (mux : Gate) (old new : Value) :
    (mux.replace old new).in1 = mux.in1.replace old new := rfl

theorem Gate.replace_operand (mux : Gate) (old new : Value) (number : Nat) :
    (mux.replace old new).operand number = (mux.operand number).replace old new := by
  unfold Gate.operand
  split <;> rfl

/-- The two sides of a gate. -/
theorem Graph.side_cases (assignment : Assignment) (mux : Gate) :
    g.side assignment mux = 1 ∨ g.side assignment mux = 2 := by
  unfold side
  generalize (if mux.isMu then assignment.mu mux.block
    else assignment.condition (g.getEffectiveValue mux.select)) = bit
  cases bit with
  | false => exact .inl rfl
  | true => exact .inr rfl

/-- Gammas with one select take the same side. -/
theorem Graph.side_eq {assignment : Assignment} {mux1 mux2 : Gate} (isMu1 : mux1.isMu = false)
    (isMu2 : mux2.isMu = false)
    (same : g.getEffectiveValue mux1.select = g.getEffectiveValue mux2.select) :
    g.side assignment mux1 = g.side assignment mux2 := by
  simp [side, isMu1, isMu2, same]

/-- A gate with one value at both inputs takes its first input, whatever the selects say. -/
theorem Graph.side_equivalent {assignment : Assignment} {mux : Gate}
    (same : g.getEffectiveValue mux.in0 = g.getEffectiveValue mux.in1) :
    g.getEffectiveValue (mux.operand (g.side assignment mux)) = g.getEffectiveValue mux.in0 := by
  rcases side_cases assignment mux with one | two
  · rw [one]
    rfl
  · rw [two]
    exact same.symm

namespace Graph.Regular

/-- A gate is not its own first input. -/
theorem in0_ne (regular : g.Regular alike) {index : Nat} {mux : Gate}
    (found : g.gate index = some mux) : mux.in0 ≠ .gate index := by
  intro own
  obtain ⟨rank, falls⟩ := regular.ranked
  exact lt_irrefl _ (falls index mux index found (.inl own))

/-- The users of a gate are given another value than its result. -/
theorem new_ne (regular : g.Regular alike) {index : Nat} {new : Value}
    (replaced : g.Replaced alike index new) : new ≠ .gate index := by
  cases replaced with
  | merge _ distinct _ => simpa using distinct
  | reduce _ found _ => exact regular.in0_ne found

/-- Selects stay as they are. -/
theorem select_replace (regular : g.Regular alike) {index other : Nat} {new : Value} {mux : Gate}
    (found : g.gate other = some mux) :
    (mux.replace (.gate index) new).select = mux.select := by
  obtain ⟨name, select⟩ := regular.selects other mux found
  simp [Gate.replace, select]

/-- Two gammas that are merged: one block, and the same operands. -/
theorem merge_spec (regular : g.Regular alike) {first second : Nat}
    (same : g.areAlike alike first second = true) :
    ∃ mux1 mux2, g.gate first = some mux1 ∧ g.gate second = some mux2 ∧ mux1.isMu = false ∧
      mux2.isMu = false ∧ mux1.block = mux2.block ∧ alike first second = true ∧
      ∀ number, g.getEffectiveValue (mux1.operand number) =
        g.getEffectiveValue (mux2.operand number) := by
  obtain ⟨mux1, mux2, found1, found2, sameSelect, same0, same1, areAlike⟩ := areAlike_iff.mp same
  obtain ⟨isMu1, isMu2, block⟩ := regular.gammas first second mux1 mux2 areAlike found1 found2
  refine ⟨mux1, mux2, found1, found2, isMu1, isMu2, block, areAlike, fun number => ?_⟩
  match number with
  | 0 => exact sameSelect
  | 1 => exact same0
  | _ + 2 => exact same1

/-- The ranks after a step: a gamma that takes the place of another is ranked as the lower one. -/
private theorem ranked_replaceOp (regular : g.Regular alike) {index : Nat} {new : Value}
    (replaced : g.Replaced alike index new) :
    ∃ rank : Nat → Nat, ∀ other mux input, (g.replaceOp index new).gate other = some mux →
      mux.in0 = .gate input ∨ mux.isMu = false ∧ mux.in1 = .gate input →
      rank input < rank other := by
  obtain ⟨rank, falls⟩ := regular.ranked
  cases replaced with
  | @reduce _ mux _ found same =>
    have lower : ∀ (value : Value) (input : Nat),
        value.replace (.gate index) mux.in0 = .gate input →
        value = .gate input ∨ value = .gate index ∧ rank input < rank index := by
      intro value input replacedValue
      by_cases self : value = .gate index
      · subst self
        rw [Value.replace_self] at replacedValue
        exact .inr ⟨rfl, falls index mux input found (.inl replacedValue)⟩
      · rw [Value.replace_of_ne self] at replacedValue
        exact .inl replacedValue
    refine ⟨rank, fun other mux' input found' isInput => ?_⟩
    obtain ⟨_, before, foundBefore, rfl⟩ := replaceOp_gate_eq_some.mp found'
    have falls' := fun input => falls other before input foundBefore
    rcases isInput with isInput | ⟨isMu, isInput⟩
    · rcases lower _ _ isInput with direct | ⟨direct, below⟩
      · exact falls' input (.inl direct)
      · exact below.trans (falls' index (.inl direct))
    · rcases lower _ _ isInput with direct | ⟨direct, below⟩
      · exact falls' input (.inr ⟨isMu, direct⟩)
      · exact below.trans (falls' index (.inr ⟨isMu, direct⟩))
  | @merge first _ _ distinct same =>
    obtain ⟨mux1, mux2, found1, found2, isMu1, isMu2, -, -, operands⟩ := regular.merge_spec same
    have same0 : g.getEffectiveValue mux1.in0 = g.getEffectiveValue mux2.in0 := operands 1
    have same1 : g.getEffectiveValue mux1.in1 = g.getEffectiveValue mux2.in1 := operands 2
    -- what is below the first gamma is below the second, since their inputs are the same
    have below : ∀ mux input, g.gate first = some mux →
        mux.in0 = .gate input ∨ mux.isMu = false ∧ mux.in1 = .gate input →
        rank input < rank first ∧ rank input < rank index := by
      intro mux input found isInput
      rw [found1] at found
      cases found
      refine ⟨falls first mux1 input found1 isInput, ?_⟩
      rcases isInput with isInput | ⟨-, isInput⟩
      · rw [isInput] at same0
        exact falls index mux2 input found2 (.inl (getEffectiveValue_eq_gate.mp same0.symm))
      · rw [isInput] at same1
        exact falls index mux2 input found2
          (.inr ⟨isMu2, getEffectiveValue_eq_gate.mp same1.symm⟩)
    have falls' : ∀ other mux input, g.gate other = some mux →
        mux.in0 = .gate input ∨ mux.isMu = false ∧ mux.in1 = .gate input →
        rank input < if other = first then min (rank first) (rank index) else rank other := by
      intro other mux input found isInput
      split
      next self =>
        subst self
        obtain ⟨lower1, lower2⟩ := below mux input found isInput
        exact lt_min lower1 lower2
      next => exact falls other mux input found isInput
    let rank' other := if other = first then min (rank first) (rank index) else rank other
    have le : ∀ other, rank' other ≤ rank other := by
      intro other
      simp only [rank']
      split
      next self => exact self ▸ Nat.min_le_left _ _
      next => exact le_rfl
    have lower : ∀ (value : Value) (input : Nat),
        value.replace (.gate index) (.gate first) = .gate input →
        value = .gate input ∨ value = .gate index ∧ rank' input ≤ rank index := by
      intro value input replacedValue
      by_cases self : value = .gate index
      · subst self
        rw [Value.replace_self] at replacedValue
        cases replacedValue
        refine .inr ⟨rfl, ?_⟩
        simp only [rank', if_true]
        exact Nat.min_le_right _ _
      · rw [Value.replace_of_ne self] at replacedValue
        exact .inl replacedValue
    refine ⟨rank', fun other mux' input found' isInput => ?_⟩
    obtain ⟨_, before, foundBefore, rfl⟩ := replaceOp_gate_eq_some.mp found'
    have falls'' := fun input => falls' other before input foundBefore
    rcases isInput with isInput | ⟨isMu, isInput⟩
    · rcases lower _ _ isInput with direct | ⟨direct, below⟩
      · exact (le input).trans_lt (falls'' input (.inl direct))
      · exact below.trans_lt (falls'' index (.inl direct))
    · rcases lower _ _ isInput with direct | ⟨direct, below⟩
      · exact (le input).trans_lt (falls'' input (.inr ⟨isMu, direct⟩))
      · exact below.trans_lt (falls'' index (.inr ⟨isMu, direct⟩))

/-- A step keeps what the next one relies on. -/
theorem replaceOp (regular : g.Regular alike) {index : Nat} {new : Value}
    (replaced : g.Replaced alike index new) : (g.replaceOp index new).Regular alike where
  selects other mux found := by
    obtain ⟨-, before, foundBefore, rfl⟩ := replaceOp_gate_eq_some.mp found
    rw [regular.select_replace foundBefore]
    exact regular.selects other before foundBefore
  ranked := regular.ranked_replaceOp replaced
  gammas first second mux1 mux2 areAlike found1 found2 := by
    obtain ⟨-, before1, foundBefore1, rfl⟩ := replaceOp_gate_eq_some.mp found1
    obtain ⟨-, before2, foundBefore2, rfl⟩ := replaceOp_gate_eq_some.mp found2
    exact regular.gammas first second before1 before2 areAlike foundBefore1 foundBefore2

/-- A gate takes the same side after a step. -/
theorem side_replaceOp (regular : g.Regular alike) {index other : Nat} {new : Value} {mux : Gate}
    (found : g.gate other = some mux) (assignment : Assignment) :
    (g.replaceOp index new).side assignment (mux.replace (.gate index) new) =
      g.side assignment mux := by
  simp [side, regular.select_replace found]

/-- Every value is followed to where it led before. -/
theorem evaluates_replaceOp (regular : g.Regular alike) {index : Nat} {new : Value}
    (replaced : g.Replaced alike index new) {assignment : Assignment} {value result : Value}
    (evaluates : g.Evaluates assignment value result) :
    (g.replaceOp index new).Evaluates assignment (value.replace (.gate index) new) result := by
  induction evaluates with
  | leaf name => simpa using @Evaluates.leaf (g.replaceOp index new) assignment name
  | @gate other mux result found taken ih =>
    by_cases self : other = index
    · subst self
      rw [Value.replace_self]
      cases replaced with
      | @merge first _ _ distinct same =>
        obtain ⟨mux1, mux2, found1, found2, isMu1, isMu2, -, -, operands⟩ :=
          regular.merge_spec same
        have theSame : mux2 = mux := Option.some.inj (found2.symm.trans found)
        subst theSame
        refine .gate (replaceOp_gate_eq_some.mpr ⟨distinct, mux1, found1, rfl⟩) ?_
        rw [regular.side_replaceOp found1, side_eq isMu1 isMu2 (operands 0), Gate.replace_operand]
        refine ih.of_equivalent ?_
        simp only [replaceOp_getEffectiveValue]
        exact replace_equivalent (operands _).symm
      | @reduce _ mux0 _ found0 same =>
        have theSame : mux0 = mux := Option.some.inj (found0.symm.trans found)
        subst theSame
        have stays : mux0.in0.replace (.gate other) mux0.in0 = mux0.in0 :=
          Value.replace_of_ne (regular.in0_ne found0)
        have equivalent := @replace_equivalent g _ _ mux0.in0 other
          (@side_equivalent g assignment _ (areEquivalentValues_iff.mp same))
        rw [stays] at equivalent
        refine ih.of_equivalent ?_
        simpa only [replaceOp_getEffectiveValue] using equivalent
    · rw [Value.replace_of_ne (by simpa using self)]
      refine .gate (replaceOp_gate_eq_some.mpr ⟨self, mux, found, rfl⟩) ?_
      rw [regular.side_replaceOp found, Gate.replace_operand]
      exact ih

/-- An erased gate leads to where its users are led instead. -/
private theorem evaluates_of_new (regular : g.Regular alike) {index : Nat} {new : Value}
    (replaced : g.Replaced alike index new) {assignment : Assignment} {result : Value}
    (evaluates : g.Evaluates assignment new result) :
    g.Evaluates assignment (.gate index) result := by
  cases replaced with
  | @merge first _ _ distinct same =>
    obtain ⟨mux1, mux2, found1, found2, isMu1, isMu2, -, -, operands⟩ := regular.merge_spec same
    cases evaluates with
    | @gate _ mux _ found taken =>
      have theSame : mux1 = mux := Option.some.inj (found1.symm.trans found)
      subst theSame
      rw [side_eq isMu1 isMu2 (operands 0)] at taken
      exact .gate found2 (taken.of_equivalent (operands _))
  | @reduce _ mux _ found same =>
    exact .gate found (evaluates.of_equivalent
      (side_equivalent (areEquivalentValues_iff.mp same)).symm)

private theorem evaluates_of_others (regular : g.Regular alike) {index : Nat} {new : Value}
    (replaced : g.Replaced alike index new) {assignment : Assignment} {after result : Value}
    (others : ∀ value : Value, value ≠ .gate index → value = after →
      g.Evaluates assignment value result) (value : Value)
    (becomes : value.replace (.gate index) new = after) :
    g.Evaluates assignment value result := by
  by_cases self : value = .gate index
  · subst self
    rw [Value.replace_self] at becomes
    exact regular.evaluates_of_new replaced (others new (regular.new_ne replaced) becomes)
  · rw [Value.replace_of_ne self] at becomes
    exact others value self becomes

/-- The other way around: what the values lead to after a step is where they led before. -/
theorem evaluates_of_replaceOp (regular : g.Regular alike) {index : Nat} {new : Value}
    (replaced : g.Replaced alike index new) {assignment : Assignment} {after result : Value}
    (evaluates : (g.replaceOp index new).Evaluates assignment after result) :
    ∀ value : Value, value.replace (.gate index) new = after →
      g.Evaluates assignment value result := by
  induction evaluates with
  | leaf name =>
    refine regular.evaluates_of_others replaced fun value _ becomes => ?_
    subst becomes
    simpa using @Evaluates.leaf g assignment name
  | @gate other mux result found taken ih =>
    refine regular.evaluates_of_others replaced fun value _ becomes => ?_
    subst becomes
    obtain ⟨_, before, foundBefore, rfl⟩ := replaceOp_gate_eq_some.mp found
    rw [regular.side_replaceOp foundBefore, Gate.replace_operand] at ih
    exact .gate foundBefore (ih _ rfl)

/-- A step leads every value to where it led before. -/
theorem evaluates_replaceOp_iff (regular : g.Regular alike) {index : Nat} {new : Value}
    (replaced : g.Replaced alike index new) (assignment : Assignment) (value result : Value) :
    g.Evaluates assignment value result ↔
      (g.replaceOp index new).Evaluates assignment (value.replace (.gate index) new) result :=
  ⟨regular.evaluates_replaceOp replaced,
    fun evaluates => regular.evaluates_of_replaceOp replaced evaluates value rfl⟩

end Graph.Regular

/-! ## A run -/

/-- A gate whose operands are put in other places. -/
def Gate.map (mux : Gate) (place : Value → Value) : Gate :=
  { mux with select := place mux.select, in0 := place mux.in0, in1 := place mux.in1 }

/-- What stands for a gate of the start: a gate that is left, with the same operands, or, where the
gate was bypassed, what stands for its inputs. -/
inductive Graph.Represents (alike : Nat → Nat → Bool) (g : Graph) (place : Value → Value)
    (index : Nat) (mux : Gate) : Prop
  | kept {other : Nat} {now : Gate} (placed : place (.gate index) = .gate other)
      (found : g.gate other = some now) (block : now.block = mux.block)
      (isMu : now.isMu = mux.isMu)
      (alike : Relation.ReflTransGen (fun a b => alike a b = true) other index)
      (operands : ∀ number, g.getEffectiveValue (now.operand number) =
        g.getEffectiveValue (place (mux.operand number)))
  | bypassed (inputs : g.getEffectiveValue (place mux.in0) = g.getEffectiveValue (place mux.in1))
      (placed : g.getEffectiveValue (place (.gate index)) = g.getEffectiveValue (place mux.in0))

/-- What a run leaves: `place` takes each value of the start to the one its users have now. -/
structure Graph.Follows (alike : Nat → Nat → Bool) (start g : Graph) (place : Value → Value) :
    Prop where
  gsaList : g.gsaList = start.gsaList
  effective : ∀ value, g.getEffectiveValue value = start.getEffectiveValue value
  leaf : ∀ name, place (.leaf name) = .leaf name
  others : g.others = start.others.map place
  gates : ∀ index now, g.gate index = some now → place (.gate index) = .gate index ∧
    ∃ mux, start.gate index = some mux ∧ now = mux.map place
  evaluates : ∀ assignment value result, start.Evaluates assignment value result ↔
    g.Evaluates assignment (place value) result
  represents : ∀ index mux, start.gate index = some mux → g.Represents alike place index mux

theorem Graph.Follows.refl (g : Graph) : g.Follows alike g id where
  gsaList := rfl
  effective _ := rfl
  leaf _ := rfl
  others := (List.map_id _).symm
  gates _ now found := ⟨rfl, now, found, rfl⟩
  evaluates _ _ _ := Iff.rfl
  represents _ _ found := .kept rfl found rfl rfl .refl fun _ => rfl

/-- What stands for a gate is replaced with it. -/
private theorem Graph.Represents.replaceOp (regular : g.Regular alike) {erased : Nat} {new : Value}
    (replaced : g.Replaced alike erased new) {place : Value → Value} {index : Nat} {mux : Gate}
    (represents : g.Represents alike place index mux) :
    (g.replaceOp erased new).Represents alike
      (fun value => (place value).replace (.gate erased) new) index mux := by
  cases represents with
  | bypassed inputs placed =>
    refine .bypassed ?_ ?_
    · simpa only [replaceOp_getEffectiveValue] using replace_equivalent inputs
    · simpa only [replaceOp_getEffectiveValue] using replace_equivalent placed
  | @kept other now placed found block isMu areAlike operands =>
    by_cases self : other = erased
    · subst self
      cases replaced with
      | @merge first _ _ distinct same =>
        obtain ⟨mux1, mux2, found1, found2, isMu1, isMu2, sameBlock, alike1, equivalent⟩ :=
          regular.merge_spec same
        have theSame : mux2 = now := Option.some.inj (found2.symm.trans found)
        subst theSame
        refine .kept (by rw [placed, Value.replace_self])
          (replaceOp_gate_eq_some.mpr ⟨distinct, mux1, found1, rfl⟩) (sameBlock.trans block)
          (isMu1.trans (isMu2.symm.trans isMu)) (.head alike1 areAlike) fun number => ?_
        rw [Gate.replace_operand]
        simp only [replaceOp_getEffectiveValue]
        exact replace_equivalent ((equivalent number).trans (operands number))
      | @reduce _ mux0 _ found0 same =>
        have theSame : mux0 = now := Option.some.inj (found0.symm.trans found)
        subst theSame
        have same := areEquivalentValues_iff.mp same
        have first := operands 1
        have second := operands 2
        refine .bypassed ?_ ?_
        · simp only [replaceOp_getEffectiveValue]
          exact replace_equivalent (first.symm.trans (same.trans second))
        · rw [placed, Value.replace_self]
          have stays : mux0.in0.replace (.gate other) mux0.in0 = mux0.in0 :=
            Value.replace_of_ne (regular.in0_ne found0)
          rw [← stays]
          simp only [replaceOp_getEffectiveValue, stays]
          have := @replace_equivalent g _ _ mux0.in0 other first
          rwa [show (mux0.operand 1) = mux0.in0 from rfl, stays] at this
    · refine .kept (by rw [placed, Value.replace_of_ne (by simpa using self)])
        (replaceOp_gate_eq_some.mpr ⟨self, now, found, rfl⟩) block isMu areAlike fun number => ?_
      rw [Gate.replace_operand]
      simp only [replaceOp_getEffectiveValue]
      exact replace_equivalent (operands number)

/-- One step more. -/
theorem Graph.Follows.replaceOp {start : Graph} {place : Value → Value}
    (follows : start.Follows alike g place) (regular : g.Regular alike) {index : Nat} {new : Value}
    (replaced : g.Replaced alike index new) :
    start.Follows alike (g.replaceOp index new)
      fun value => (place value).replace (.gate index) new where
  gsaList := follows.gsaList
  effective value := (replaceOp_getEffectiveValue index new value).trans (follows.effective value)
  leaf name := by rw [follows.leaf, Value.replace_leaf]
  others := by
    rw [replaceOp_others, follows.others, List.map_map]
    rfl
  gates other now found := by
    obtain ⟨distinct, before, foundBefore, rfl⟩ := replaceOp_gate_eq_some.mp found
    obtain ⟨placed, mux, foundMux, rfl⟩ := follows.gates other before foundBefore
    refine ⟨?_, mux, foundMux, rfl⟩
    rw [placed, Value.replace_of_ne (by simpa using distinct)]
  evaluates assignment value result :=
    (follows.evaluates assignment value result).trans
      (regular.evaluates_replaceOp_iff replaced assignment _ result)
  represents other mux found := (follows.represents other mux found).replaceOp regular replaced

end Dynamatic.GammaMerging
