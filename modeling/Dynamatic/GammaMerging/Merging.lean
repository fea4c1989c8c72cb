import Dynamatic.GammaMerging.Gates

/-!
# The steps of the simplification

The loop takes steps of two kinds: a gamma is merged in another, or a gate is bypassed. It ends,
since every step erases a gate, and where it ends neither kind of step is left.
-/

namespace Dynamatic.GammaMerging

variable {alike : Nat → Nat → Bool} {g g' : Graph}

namespace Graph

/-- A gate and the value its users take instead of its result. -/
inductive Replaced (alike : Nat → Nat → Bool) (g : Graph) : Nat → Value → Prop
  | merge {first second : Nat} (listed : second ∈ g.gsaList) (distinct : first ≠ second)
      (same : g.areAlike alike first second = true) : Replaced alike g second (.gate first)
  | reduce {index : Nat} {mux : Gate} (listed : index ∈ g.gsaList)
      (found : g.gate index = some mux) (same : g.areEquivalentValues mux.in0 mux.in1 = true) :
      Replaced alike g index mux.in0

/-- One step of the loop. -/
inductive Step (alike : Nat → Nat → Bool) (g : Graph) : Graph → Prop
  | replace {index : Nat} {new : Value} (replaced : g.Replaced alike index new) :
      Step alike g (g.replaceOp index new)

/-- The steps of the loop one after the other. -/
abbrev Steps (alike : Nat → Nat → Bool) : Graph → Graph → Prop :=
  Relation.ReflTransGen (Step alike)

/-- Neither kind of step is left. -/
structure Settled (alike : Nat → Nat → Bool) (g : Graph) : Prop where
  merged : g.gsaList.Pairwise fun first second => g.areAlike alike first second = false
  reduced : ∀ index ∈ g.gsaList, ∀ mux, g.gate index = some mux →
    g.areEquivalentValues mux.in0 mux.in1 = false

/-- The gates that have not been erased. -/
def live (g : Graph) : Nat :=
  g.gsaList.countP fun index => (g.gate index).isSome

@[simp] theorem replaceOp_others (index : Nat) (new : Value) :
    (g.replaceOp index new).others = g.others.map fun value => value.replace (.gate index) new :=
  rfl

@[simp] theorem replaceOp_getEffectiveValue (index : Nat) (new value : Value) :
    (g.replaceOp index new).getEffectiveValue value = g.getEffectiveValue value := by
  cases value <;> rfl

@[simp] theorem replaceOp_gate_self (index : Nat) (new : Value) :
    (g.replaceOp index new).gate index = none := if_pos rfl

theorem replaceOp_gate_of_ne {index other : Nat} (new : Value) (distinct : other ≠ index) :
    (g.replaceOp index new).gate other =
      (g.gate other).map fun mux => mux.replace (.gate index) new := if_neg distinct

/-- What is left after a step was there before. -/
theorem replaceOp_gate_eq_some {index other : Nat} {new : Value} {mux' : Gate} :
    (g.replaceOp index new).gate other = some mux' ↔
      other ≠ index ∧ ∃ mux, g.gate other = some mux ∧ mux.replace (.gate index) new = mux' := by
  by_cases same : other = index
  · simp [same]
  · simp [replaceOp_gate_of_ne new same, same]

theorem areEquivalentValues_iff {a b : Value} :
    g.areEquivalentValues a b = true ↔ g.getEffectiveValue a = g.getEffectiveValue b := by
  simp [areEquivalentValues]

/-- Equal gates, field by field. -/
theorem areAlike_iff {first second : Nat} :
    g.areAlike alike first second = true ↔ ∃ mux1 mux2, g.gate first = some mux1 ∧
      g.gate second = some mux2 ∧
      g.getEffectiveValue mux1.select = g.getEffectiveValue mux2.select ∧
      g.getEffectiveValue mux1.in0 = g.getEffectiveValue mux2.in0 ∧
      g.getEffectiveValue mux1.in1 = g.getEffectiveValue mux2.in1 ∧
      alike first second = true := by
  unfold areAlike
  split
  next mux1 mux2 found1 found2 =>
    simp [found1, found2, areEquivalentValues_iff, and_assoc]
  next none_found =>
    constructor
    · exact fun impossible => nomatch impossible
    · rintro ⟨mux1, mux2, found1, found2, -⟩
      exact absurd found2 (none_found mux1 mux2 found1)

/-! ## The loop ends -/

theorem Replaced.listed {index : Nat} {new : Value} (replaced : g.Replaced alike index new) :
    index ∈ g.gsaList := by
  cases replaced with
  | merge listed | reduce listed => exact listed

theorem Replaced.isSome {index : Nat} {new : Value} (replaced : g.Replaced alike index new) :
    ∃ mux, g.gate index = some mux := by
  cases replaced with
  | merge _ _ same =>
    obtain ⟨_, mux2, _, found, -⟩ := areAlike_iff.mp same
    exact ⟨mux2, found⟩
  | reduce _ found => exact ⟨_, found⟩

private theorem countP_lt {α : Type} {p q : α → Bool} {list : List α} {a : α} (mem : a ∈ list)
    (holds : q a = true) (fails : p a = false) (weaker : ∀ b, p b = true → q b = true) :
    list.countP p < list.countP q := by
  induction list with
  | nil => cases mem
  | cons b rest ih =>
    have le := List.countP_mono_left fun c (_ : c ∈ rest) => weaker c
    rcases List.mem_cons.mp mem with rfl | mem
    · simp only [List.countP_cons, holds, fails]
      simp only [if_true, if_false, Bool.false_eq_true]
      omega
    · have lt := ih mem
      simp only [List.countP_cons]
      have := weaker b
      split <;> split <;> first | omega | simp_all

/-- A step erases a gate. -/
theorem Step.live_lt (step : Step alike g g') : g'.live < g.live := by
  cases step with
  | replace replaced =>
    obtain ⟨mux, found⟩ := replaced.isSome
    refine countP_lt replaced.listed (by simp [found]) (by simp) fun other isSome => ?_
    obtain ⟨mux', found'⟩ := Option.isSome_iff_exists.mp isSome
    obtain ⟨-, mux, found, -⟩ := replaceOp_gate_eq_some.mp found'
    simp [found]

theorem live_le_length (g : Graph) : g.live ≤ g.gsaList.length := List.countP_le_length

end Graph

open GammaMerging.Graph

/-- What a pass does: it takes steps, at least one when its flag comes up, and none when the flag
stays down. -/
structure Passed (alike : Nat → Nat → Bool) (before after : Graph × Bool) : Prop where
  steps : Steps alike before.1 after.1
  gsaList : after.1.gsaList = before.1.gsaList
  counted : after.1.live + after.2.toNat ≤ before.1.live + before.2.toNat
  unchanged : after.2 = false → after = before

theorem Passed.refl (state : Graph × Bool) : Passed alike state state :=
  ⟨.refl, rfl, le_rfl, fun _ => rfl⟩

theorem Passed.trans {first second third : Graph × Bool} (before : Passed alike first second)
    (after : Passed alike second third) : Passed alike first third where
  steps := before.steps.trans after.steps
  gsaList := after.gsaList.trans before.gsaList
  counted := after.counted.trans before.counted
  unchanged down := by
    have same := after.unchanged down
    exact same.trans (before.unchanged (same ▸ down))

theorem Passed.step {changed : Bool} {index : Nat} {new : Value}
    (replaced : g.Replaced alike index new) :
    Passed alike (g, changed) (g.replaceOp index new, true) where
  steps := .single (.replace replaced)
  gsaList := rfl
  counted := by
    have := (Step.replace replaced).live_lt
    simp only [Bool.toNat_true]
    omega
  unchanged down := nomatch down

/-- The inner loop of the first step. -/
theorem mergeLater_passed {first : Nat} {later : List Nat} {state : Graph × Bool}
    (listed : ∀ second ∈ later, second ∈ state.1.gsaList) (distinct : first ∉ later) :
    Passed alike state (mergeLater alike first later state) := by
  induction later generalizing state with
  | nil => exact .refl state
  | cons second later ih =>
    obtain ⟨g, changed⟩ := state
    obtain ⟨ne, distinct⟩ : first ≠ second ∧ first ∉ later := by simpa using distinct
    simp only [mergeLater]
    split
    next same =>
      have step : Passed alike (g, changed) (g.replaceOp second (.gate first), true) :=
        .step (.merge (listed second (by simp)) ne same)
      exact step.trans (ih (fun other mem => listed other (by simp [mem])) distinct)
    next => exact ih (fun other mem => listed other (by simp [mem])) distinct

/-- The inner loop leaves no equal of `first` when it changes nothing. -/
theorem mergeLater_unchanged {first : Nat} {later : List Nat} {state : Graph × Bool}
    (listed : ∀ second ∈ later, second ∈ state.1.gsaList) (distinct : first ∉ later)
    (down : (mergeLater alike first later state).2 = false) :
    ∀ second ∈ later, state.1.areAlike alike first second = false := by
  induction later generalizing state with
  | nil => simp
  | cons second later ih =>
    obtain ⟨g, changed⟩ := state
    obtain ⟨ne, distinct⟩ : first ≠ second ∧ first ∉ later := by simpa using distinct
    have listed' : ∀ other ∈ later, other ∈ g.gsaList := fun other mem =>
      listed other (by simp [mem])
    simp only [mergeLater] at down
    split at down
    next same =>
      have passed := @mergeLater_passed alike first later
        (g.replaceOp second (.gate first), true) listed' distinct
      have same := passed.unchanged down
      rw [same] at down
      exact nomatch down
    next differ =>
      intro other mem
      rcases List.mem_cons.mp mem with rfl | mem
      · simpa using differ
      · exact ih listed' distinct down other mem

/-- The first step. -/
theorem mergeStep_passed {list : List Nat} {state : Graph × Bool}
    (listed : ∀ index ∈ list, index ∈ state.1.gsaList) (nodup : list.Nodup) :
    Passed alike state (mergeStep alike list state) := by
  induction list generalizing state with
  | nil => exact .refl state
  | cons first later ih =>
    obtain ⟨distinct, nodup⟩ := List.nodup_cons.mp nodup
    have inner : Passed alike state (mergeLater alike first later state) :=
      mergeLater_passed (fun other mem => listed other (by simp [mem])) distinct
    refine inner.trans (ih (fun other mem => ?_) nodup)
    rw [inner.gsaList]
    exact listed other (by simp [mem])

/-- The first step leaves no two equal gates when it changes nothing. -/
theorem mergeStep_unchanged {list : List Nat} {state : Graph × Bool}
    (listed : ∀ index ∈ list, index ∈ state.1.gsaList) (nodup : list.Nodup)
    (down : (mergeStep alike list state).2 = false) :
    list.Pairwise fun first second => state.1.areAlike alike first second = false := by
  induction list generalizing state with
  | nil => exact .nil
  | cons first later ih =>
    obtain ⟨distinct, nodup⟩ := List.nodup_cons.mp nodup
    have listed' : ∀ other ∈ later, other ∈ state.1.gsaList := fun other mem =>
      listed other (by simp [mem])
    have inner : Passed alike state (mergeLater alike first later state) :=
      mergeLater_passed listed' distinct
    have listed'' : ∀ other ∈ later, other ∈ (mergeLater alike first later state).1.gsaList := by
      rw [inner.gsaList]
      exact listed'
    have outer := @mergeStep_passed alike _ _ listed'' nodup
    have innerDown : (mergeLater alike first later state).2 = false := by
      rw [← outer.unchanged down]
      exact down
    have rest := ih listed'' nodup down
    rw [inner.unchanged innerDown] at rest
    exact .cons (mergeLater_unchanged listed' distinct innerDown) rest

/-- The second step. -/
theorem reduceStep_passed {list : List Nat} {state : Graph × Bool}
    (listed : ∀ index ∈ list, index ∈ state.1.gsaList) :
    Passed alike state (reduceStep list state) := by
  induction list generalizing state with
  | nil => exact .refl state
  | cons index later ih =>
    obtain ⟨g, changed⟩ := state
    have listed' : ∀ other ∈ later, other ∈ g.gsaList := fun other mem =>
      listed other (by simp [mem])
    simp only [reduceStep]
    split
    next mux found =>
      split
      next same =>
        have step : Passed alike (g, changed) (g.replaceOp index mux.in0, true) :=
          .step (.reduce (listed index (by simp)) found same)
        exact step.trans (ih listed')
      next => exact ih listed'
    next => exact ih listed'

/-- The second step leaves no gate with one value at both inputs when it changes nothing. -/
theorem reduceStep_unchanged {list : List Nat} {state : Graph × Bool}
    (listed : ∀ index ∈ list, index ∈ state.1.gsaList)
    (down : (reduceStep list state).2 = false) :
    ∀ index ∈ list, ∀ mux, state.1.gate index = some mux →
      state.1.areEquivalentValues mux.in0 mux.in1 = false := by
  induction list generalizing state with
  | nil => simp
  | cons index later ih =>
    obtain ⟨g, changed⟩ := state
    have listed' : ∀ other ∈ later, other ∈ g.gsaList := fun other mem =>
      listed other (by simp [mem])
    intro other mem mux' found'
    simp only [reduceStep] at down
    split at down
    next mux found =>
      split at down
      next same =>
        have passed := @reduceStep_passed (fun _ _ => false) later
          (g.replaceOp index mux.in0, true) listed'
        rw [passed.unchanged down] at down
        exact nomatch down
      next differ =>
        rcases List.mem_cons.mp mem with rfl | mem
        · rw [found] at found'
          cases found'
          simpa using differ
        · exact ih listed' down other mem mux' found'
    next missing =>
      rcases List.mem_cons.mp mem with rfl | mem
      · rw [missing] at found'
        exact nomatch found'
      · exact ih listed' down other mem mux' found'

/-- The loop ends, whatever forest it starts from, after steps that leave no other to take. -/
theorem simplifyLoop_settles {fuel : Nat} (nodup : g.gsaList.Nodup) (enough : g.live < fuel) :
    ∃ reduced, simplifyLoop alike fuel g = some reduced ∧ Steps alike g reduced ∧
      reduced.Settled alike := by
  induction fuel generalizing g with
  | zero => exact absurd enough (Nat.not_lt_zero _)
  | succ fuel ih =>
    have first : Passed alike (g, false) (mergeStep alike g.gsaList (g, false)) :=
      mergeStep_passed (fun _ mem => mem) nodup
    have second :=
      @reduceStep_passed alike _ (mergeStep alike g.gsaList (g, false)) fun _ mem => mem
    have both := first.trans second
    simp only [simplifyLoop]
    split
    next changed =>
      have counted := both.counted
      rw [changed] at counted
      simp only [Bool.toNat_true, Bool.toNat_false] at counted
      obtain ⟨reduced, computes, steps, settled⟩ := ih (both.gsaList ▸ nodup) (by omega)
      exact ⟨reduced, computes, both.steps.trans steps, settled⟩
    next unchanged =>
      have down := Bool.eq_false_iff.mpr unchanged
      have same := second.unchanged down
      have innerDown := down
      rw [same] at innerDown
      have start := first.unchanged innerDown
      refine ⟨_, rfl, both.steps, ?_⟩
      have final := both.unchanged down
      rw [final]
      refine ⟨mergeStep_unchanged (fun _ mem => mem) nodup innerDown, ?_⟩
      rw [start] at down
      exact reduceStep_unchanged (fun _ mem => mem) down

end Dynamatic.GammaMerging
