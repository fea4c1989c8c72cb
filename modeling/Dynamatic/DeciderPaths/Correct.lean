import Dynamatic.DeciderPaths.Exploration
import Dynamatic.Numerals

/-!
# When the paths are right

A fork before the first slot makes the search put sent bits of other outputs on a path in the place
of the sent bit of the output that was taken. The other paths are right.
-/

namespace Dynamatic.DeciderPaths

namespace Circuit

variable {Op Value : Type} {circuit : Circuit Op Value} {value start : Value} {op other branch : Op}
  {steps : List (Step Op)} {index earlier : Nat} {namer : EagerForkSentNamer}

theorem simpleResultName_inj {idx other count : Nat} (bound : idx < count)
    (otherBound : other < count)
    (same : simpleResultName idx count = simpleResultName other count) : idx = other := by
  rw [simpleResultName, simpleResultName] at same
  split at same
  · omega
  · have digits := congrArg String.toList ((String.append_right_inj _).mp same)
    rw [Nat.toString_eq_repr, Nat.toString_eq_repr, Nat.toList_repr, Nat.toList_repr] at digits
    have read := congrArg (Nat.ofDigitChars 10 · 0) digits
    simpa only [Nat.ofDigitChars_ten_toDigits] using read

/-- The sent bit of an output is named after the fork and the output. -/
theorem namer_eq (isNamer : (circuit.getInternalSentStateNamers op)[index]? = some namer) :
    namer.opName = circuit.name op ∧ index < (circuit.getInternalSentStateNamers op).length ∧
      namer.channelName =
        simpleResultName index (circuit.getInternalSentStateNamers op).length := by
  have bound := (List.getElem?_eq_some_iff.mp isNamer).1
  cases kind : circuit.kind op with
  | fork operand results =>
      rw [length_getInternalSentStateNamers kind] at bound ⊢
      rw [getInternalSentStateNamers, kind] at isNamer
      simp only [List.getElem?_map, List.getElem?_zipIdx, Option.map_eq_some_iff] at isNamer
      obtain ⟨_, ⟨res, -, rfl⟩, rfl⟩ := isNamer
      exact ⟨rfl, bound, by rw [Nat.zero_add]⟩
  | _ =>
      rw [getInternalSentStateNamers, kind] at isNamer
      cases isNamer

/-- Different outputs have different sent bits. -/
theorem namer_inj (isNamer : (circuit.getInternalSentStateNamers op)[index]? = some namer)
    (isOther : (circuit.getInternalSentStateNamers other)[earlier]? = some namer) :
    op = other ∧ index = earlier := by
  obtain ⟨name, bound, channel⟩ := namer_eq isNamer
  obtain ⟨otherName, otherBound, otherChannel⟩ := namer_eq isOther
  obtain rfl := circuit.name_injective (name.symm.trans otherName)
  exact ⟨rfl, simpleResultName_inj bound otherBound (channel.symm.trans otherChannel)⟩

/-- What the search puts on a path comes from earlier outputs of forks on the walk. -/
theorem mem_leaked (mem : namer ∈ circuit.leaked steps) :
    ∃ fork index, .output fork index ∈ steps ∧ ∃ earlier < index,
      (circuit.getInternalSentStateNamers fork)[earlier]? = some namer := by
  induction steps with
  | nil => exact absurd mem List.not_mem_nil
  | cons step steps inductionHypothesis =>
      have later (mem : namer ∈ circuit.leaked steps) :
          ∃ fork index, .output fork index ∈ step :: steps ∧ ∃ earlier < index,
            (circuit.getInternalSentStateNamers fork)[earlier]? = some namer := by
        obtain ⟨fork, index, outputMem, isEarlier⟩ := inductionHypothesis mem
        exact ⟨fork, index, List.mem_cons_of_mem step outputMem, isEarlier⟩
      cases step with
      | output fork index =>
          rcases List.mem_append.mp mem with here | mem
          · obtain ⟨earlier, taken⟩ := List.mem_iff_getElem?.mp here
            rw [List.getElem?_take] at taken
            split at taken
            · exact ⟨fork, index, List.mem_cons_self, earlier, ‹_›, taken⟩
            · cases taken
          · exact later mem
      | buffer op =>
          rw [leaked] at mem
          split at mem
          · exact later mem
          · exact absurd mem List.not_mem_nil

/-- A sent bit before the first slot is that of an output on the walk. -/
theorem head_beforeFirstSlot {more : List EagerForkSentNamer}
    (first : beforeFirstSlot (circuit.events steps) = namer :: more) :
    ∃ fork index, .output fork index ∈ steps ∧
      (circuit.getInternalSentStateNamers fork)[index]? = some namer := by
  induction steps with
  | nil => cases first
  | cons step steps inductionHypothesis =>
      have later (first : beforeFirstSlot (circuit.events steps) = namer :: more) :
          ∃ fork index, .output fork index ∈ step :: steps ∧
            (circuit.getInternalSentStateNamers fork)[index]? = some namer := by
        obtain ⟨fork, index, outputMem, isNamer⟩ := inductionHypothesis first
        exact ⟨fork, index, List.mem_cons_of_mem step outputMem, isNamer⟩
      rw [events_cons] at first
      cases step with
      | output fork index =>
          rw [stepEvents] at first
          cases sent : (circuit.getInternalSentStateNamers fork)[index]? with
          | none =>
              rw [sent] at first
              exact later first
          | some sent' =>
              rw [sent] at first
              cases first
              exact ⟨fork, index, List.mem_cons_self, sent⟩
      | buffer op =>
          rw [stepEvents] at first
          cases slots : (circuit.getInternalSlotStateNamers op).getD [] with
          | nil =>
              rw [slots] at first
              exact later first
          | cons slot slots' =>
              rw [slots] at first
              cases first

/-- A step of a walk is new to it. -/
theorem nodup_step {dec : Op} (isArith : circuit.kind dec = .arith start) {before : List Value}
    (way : circuit.Way start (value :: before))
    (passes : (circuit.kind (circuit.user value)).operand?.isSome) {step : Step Op}
    (isUser : step.op = circuit.user value)
    (later : (∀ step ∈ steps, step.op ∉ (value :: before).map circuit.user) ∧
      (steps.map Step.op).Nodup) :
    (∀ step' ∈ step :: steps, step'.op ∉ before.map circuit.user) ∧
      ((step :: steps).map Step.op).Nodup := by
  obtain ⟨fresh, nodup⟩ := later
  constructor
  · intro step' mem again
    rcases List.mem_cons.mp mem with rfl | mem
    · obtain ⟨other, otherMem, same⟩ := List.mem_map.mp again
      rw [isUser] at same
      rw [← eq_of_user_eq passes same.symm] at otherMem
      exact (List.nodup_cons.mp (way.nodup isArith)).1 otherMem
    · exact fresh step' mem (List.mem_cons_of_mem _ again)
  · rw [List.map_cons, List.nodup_cons]
    refine ⟨fun again => ?_, nodup⟩
    obtain ⟨step', mem, same⟩ := List.mem_map.mp again
    refine fresh step' mem ?_
    rw [same, isUser]
    exact List.mem_cons_self

/-- No walk passes an operation twice. -/
theorem Walk.nodup {dec : Op} (isArith : circuit.kind dec = .arith start)
    (walk : circuit.Walk value steps branch) {before : List Value}
    (way : circuit.Way start (value :: before)) :
    (∀ step ∈ steps, step.op ∉ before.map circuit.user) ∧ (steps.map Step.op).Nodup := by
  induction walk generalizing before with
  | branch => exact ⟨nofun, .nil⟩
  | output isFork taken rest inductionHypothesis =>
      refine nodup_step isArith way (by rw [isFork]; rfl) rfl
        (inductionHypothesis (way.step (by rw [isFork]; rfl) ?_))
      rw [isFork]
      exact List.mem_of_getElem? taken
  | buffer isBuffer rest inductionHypothesis =>
      refine nodup_step isArith way (by rw [isBuffer]; rfl) rfl
        (inductionHypothesis (way.step (by rw [isBuffer]; rfl) ?_))
      rw [isBuffer]
      exact List.mem_singleton_self _

theorem Walk.leaked_eq_nil (walk : circuit.Walk value steps branch)
    (slotsFirst : beforeFirstSlot (circuit.events steps) = []) : circuit.leaked steps = [] := by
  induction walk with
  | branch => rfl
  | output isFork taken rest inductionHypothesis =>
      obtain ⟨sent, isSent, -⟩ := getElem?_zip_of_taken isFork taken
      rw [events_cons, stepEvents, isSent] at slotsFirst
      cases slotsFirst
  | buffer isBuffer rest inductionHypothesis =>
      rw [leaked]
      split
      · rename_i none
        rw [events_cons, stepEvents, none] at slotsFirst
        exact inductionHypothesis slotsFirst
      · rfl

/-- Behind a fork before the first slot the path is wrong. -/
theorem Walk.leaked_ne {dec : Op} (isArith : circuit.kind dec = .arith start)
    (walk : circuit.Walk start steps branch)
    (forkFirst : beforeFirstSlot (circuit.events steps) ≠ []) :
    circuit.leaked steps ≠ beforeFirstSlot (circuit.events steps) := by
  intro same
  obtain ⟨namer, more, first⟩ := List.exists_cons_of_ne_nil forkFirst
  obtain ⟨fork, index, mem, isNamer⟩ := head_beforeFirstSlot first
  have isLeaked : namer ∈ circuit.leaked steps := by
    rw [same, first]
    exact List.mem_cons_self
  obtain ⟨other, last, otherMem, earlier, less, isOther⟩ := mem_leaked isLeaked
  obtain ⟨rfl, rfl⟩ := namer_inj isNamer isOther
  have sameStep := List.inj_on_of_nodup_map (walk.nodup isArith .start).2 mem otherMem rfl
  cases sameStep
  exact Nat.lt_irrefl _ less

/-- The search takes no walk twice. -/
theorem Explores.nodup {walks : List (List (Step Op) × Op)}
    (explores : circuit.Explores value walks) : walks.Nodup := by
  induction explores with
  | branch => exact List.nodup_singleton _
  | buffer isBuffer named below inductionHypothesis =>
      refine inductionHypothesis.map fun walk other same => ?_
      cases walk
      cases other
      cases same
      rfl
  | @fork value operand results walks isFork below inductionHypothesis =>
      refine List.nodup_flatMap.mpr ⟨fun index mem => ?_, ?_⟩
      · have bound := List.mem_range.mp (List.mem_reverse.mp mem)
        refine (inductionHypothesis index _ (List.getElem?_eq_getElem bound)).map ?_
        intro walk other same
        cases walk
        cases other
        cases same
        rfl
      · refine (List.nodup_reverse.mpr List.nodup_range).imp fun apart => ?_
        intro walk mem otherMem
        obtain ⟨first, -, rfl⟩ := List.mem_map.mp mem
        obtain ⟨second, -, same⟩ := List.mem_map.mp otherMem
        have sameStep := (List.cons.inj (congrArg Prod.fst same)).1
        cases sameStep
        exact apart rfl

variable (circuit)

/-- The path that a walk should give. -/
def pathOf (steps : List (Step Op)) (branch : Op) : UnstartedPath Op :=
  ⟨effectiveSlots (circuit.events steps), beforeFirstSlot (circuit.events steps), branch⟩

/-- There is one path for each branch that is reached, that of a walk to the branch. -/
structure Returns (start : Value) (ret : List (UnstartedPath Op)) : Prop where
  once : (ret.map UnstartedPath.branch).Nodup
  reached : ∀ branch, branch ∈ ret.map UnstartedPath.branch ↔
    ∃ steps, circuit.Walk start steps branch
  paths : ∀ path ∈ ret, ∃ steps, circuit.Walk start steps path.branch ∧
    path = circuit.pathOf steps path.branch

/-- The search behind a decider ends with the paths to the branches. -/
def Right (dec : Op) : Prop :=
  ∃ start fuel ret, circuit.kind dec = .arith start ∧
    circuit.findDeciderBranchPaths fuel dec = some ret ∧ circuit.Returns start ret

/-- The decider computes a value that reaches named buffers, forks and branches only, no branch by
two walks, and a slot before the first fork. -/
structure Supported (dec : Op) (start : Value) : Prop where
  isArith : circuit.kind dec = .arith start
  known : ∀ value earlier, circuit.Way start (value :: earlier) →
    circuit.Known (circuit.user value)
  once : ∀ steps other branch, circuit.Walk start steps branch → circuit.Walk start other branch →
    steps = other
  slotsFirst : ∀ steps branch, circuit.Walk start steps branch →
    beforeFirstSlot (circuit.events steps) = []

variable {circuit} {dec : Op}

theorem supported_of_right (right : circuit.Right dec) : ∃ start, circuit.Supported dec start := by
  obtain ⟨start, fuel, ret, isArith, finds, returns⟩ := right
  obtain ⟨walks, explores, rfl⟩ := (findDeciderBranchPaths_iff isArith).mp ⟨fuel, finds⟩
  have once : ∀ steps other branch, circuit.Walk start steps branch →
      circuit.Walk start other branch → steps = other := by
    intro steps other branch walk otherWalk
    have nodup := returns.once
    rw [List.map_map] at nodup
    have same := List.inj_on_of_nodup_map nodup (explores.mem_iff.mpr walk)
      (explores.mem_iff.mpr otherWalk) rfl
    exact congrArg Prod.fst same
  refine ⟨start, isArith, fun value earlier way => way.known explores, once, ?_⟩
  intro steps branch walk
  refine Classical.not_not.mp fun forkFirst => walk.leaked_ne isArith forkFirst ?_
  obtain ⟨other, otherWalk, same⟩ := returns.paths _
    (List.mem_map_of_mem (explores.mem_iff.mpr walk))
  rw [once _ _ _ walk otherWalk]
  have sents := congrArg UnstartedPath.startSents same
  rw [once _ _ _ walk otherWalk] at sents
  exact sents

theorem right_of_supported [Fintype Value] (supported : circuit.Supported dec start) :
    circuit.Right dec := by
  obtain ⟨walks, explores⟩ := exists_explores supported.isArith supported.known
    (Fintype.card Value) .start (by rw [List.length_singleton]; omega)
  obtain ⟨fuel, finds⟩ := (findDeciderBranchPaths_iff supported.isArith).mpr ⟨walks, explores, rfl⟩
  refine ⟨start, fuel, _, supported.isArith, finds, ?_, ?_, ?_⟩
  · rw [List.map_map]
    refine explores.nodup.map_on fun walk mem other otherMem same => ?_
    have sameBranch : walk.2 = other.2 := same
    have sameSteps := supported.once walk.1 other.1 walk.2 (explores.mem_iff.mp mem)
      (sameBranch ▸ explores.mem_iff.mp otherMem)
    exact Prod.ext sameSteps sameBranch
  · intro branch
    rw [List.map_map, List.mem_map]
    constructor
    · rintro ⟨walk, mem, rfl⟩
      exact ⟨walk.1, explores.mem_iff.mp mem⟩
    · rintro ⟨steps, walk⟩
      exact ⟨(steps, branch), explores.mem_iff.mpr walk, rfl⟩
  · intro path mem
    obtain ⟨⟨steps, branch⟩, walkMem, rfl⟩ := List.mem_map.mp mem
    have walk := explores.mem_iff.mp walkMem
    have slotsFirst := supported.slotsFirst steps branch walk
    refine ⟨steps, walk, ?_⟩
    rw [pathOf, slotsFirst]
    dsimp only [found]
    rw [walk.leaked_eq_nil slotsFirst]

end Circuit

open Circuit in
/-- The search behind a decider gives the paths to the branches if and only if no walk from it to a
branch takes a fork before the first slot, no branch is reached by two walks, and the value of the
decider is computed and reaches no operation that the search does not know. -/
theorem findDeciderBranchPaths_iff_supported {Op Value : Type} [Fintype Value]
    (circuit : Circuit Op Value) (dec : Op) :
    circuit.Right dec ↔ ∃ start, circuit.Supported dec start :=
  ⟨supported_of_right, fun ⟨_, supported⟩ => right_of_supported supported⟩

open Numerals in
/-- A comparison whose result is forked to two branches. -/
def forkFirst : Circuit (Fin 4) (Fin 3) where
  name
    | 0 => "cmpi0" | 1 => "fork0" | 2 => "cond_br0" | 3 => "cond_br1"
  kind
    | 0 => .arith 0 | 1 => .fork 0 [1, 2] | 2 => .conditionalBranch | 3 => .conditionalBranch
  user
    | 0 => 1 | 1 => 2 | 2 => 3
  dataBitWidth _ := 1
  name_injective := by decide
  results_nodup := by decide
  definer_unique := by decide
  operand_eq := by decide

/-- The path through the second output has the sent bit of the first, and the other path none. -/
theorem not_right_forkFirst :
    forkFirst.findDeciderBranchPaths 4 0 =
      some [⟨[], [⟨"fork0", "outs_0", 1⟩], 3⟩, ⟨[], [], 2⟩] ∧ ¬ forkFirst.Right 0 := by
  refine ⟨by decide +kernel, fun right => ?_⟩
  obtain ⟨start, supported⟩ := Circuit.supported_of_right right
  cases supported.isArith
  have walk : forkFirst.Walk 0 [.output 1 0] 2 :=
    @Circuit.Walk.output _ _ forkFirst 0 0 1 [1, 2] 0 [] 2 rfl rfl
      (@Circuit.Walk.branch _ _ forkFirst 1 rfl)
  exact absurd (supported.slotsFirst _ _ walk) (by decide +kernel)

end Dynamatic.DeciderPaths
