import Dynamatic.ControlFlow.ReversePostOrder

/-!
# Strongly connected components

Units are ordered by a search along the channels; searches back along the channels, in that
order, give each unit the number of its component. The numbers do not fall along the channels.
-/

namespace Dynamatic.Sharing

open ControlFlow

variable {Operation : Type} [DecidableEq Operation]

structure Channel (Operation : Type) where
  producer : Operation
  consumer : Operation
  deriving DecidableEq, Repr

section Components

variable (cfChannels : List (Channel Operation))

/-- The consumers of an operation's outgoing channels. -/
def consumers (op : Operation) : List Operation :=
  (cfChannels.filter fun ch => ch.producer = op).map Channel.consumer

/-- The producers of an operation's incoming channels. -/
def producers (op : Operation) : List Operation :=
  (cfChannels.filter fun ch => ch.consumer = op).map Channel.producer

/-- Visit an operation, given those visited and the post-order so far. -/
def recursiveDfsComponentOrder : Nat → List Operation × List Operation → Operation →
    List Operation × List Operation :=
  topo (consumers cfChannels)

/-- Assign a number to an operation and to all that lead to it, where there is none. -/
def recursiveDfsAssignSCCId (currSCCId : Nat) : Nat → (Operation → Nat) → Operation →
    Operation → Nat
  | 0, assigned, _ => assigned
  | bound + 1, assigned, op =>
      if assigned op = 0 then
        (producers cfChannels op).foldl (recursiveDfsAssignSCCId currSCCId bound)
          (Function.update assigned op currSCCId)
      else assigned

/-- Number the component of an operation that has no number. -/
def assignComponent (bound : Nat) (state : (Operation → Nat) × Nat) (op : Operation) :
    (Operation → Nat) × Nat :=
  let (assigned, currSCCId) := state
  if assigned op = 0 then
    (recursiveDfsAssignSCCId cfChannels (currSCCId + 1) bound assigned op, currSCCId + 1)
  else (assigned, currSCCId)

end Components

/-- The numbers of the units' components. The units and channels of the sets come in any order,
and no search goes deeper than there are units. -/
def getSccsInCfc (cfUnits : List Operation) (cfChannels : List (Channel Operation)) :
    Operation → Nat :=
  let bound := cfUnits.length
  let dfsPostOrder := (cfUnits.foldl (recursiveDfsComponentOrder cfChannels bound) ([], [])).2
  (dfsPostOrder.foldl (assignComponent cfChannels bound) (fun _ => 0, 0)).1

variable {cfChannels : List (Channel Operation)} {op other : Operation}

/-- Channels lead from one operation to another. -/
def Reaches (cfChannels : List (Channel Operation)) : Operation → Operation → Prop :=
  Path (consumers cfChannels)

theorem mem_consumers : other ∈ consumers cfChannels op ↔ ⟨op, other⟩ ∈ cfChannels := by
  rw [consumers, List.mem_map]
  constructor
  · rintro ⟨ch, mem, rfl⟩
    obtain ⟨isChannel, isProducer⟩ := List.mem_filter.mp mem
    exact of_decide_eq_true isProducer ▸ isChannel
  · exact fun mem => ⟨_, List.mem_filter.mpr ⟨mem, decide_eq_true rfl⟩, rfl⟩

theorem mem_producers : other ∈ producers cfChannels op ↔ ⟨other, op⟩ ∈ cfChannels := by
  rw [producers, List.mem_map]
  constructor
  · rintro ⟨ch, mem, rfl⟩
    obtain ⟨isChannel, isConsumer⟩ := List.mem_filter.mp mem
    exact of_decide_eq_true isConsumer ▸ isChannel
  · exact fun mem => ⟨_, List.mem_filter.mpr ⟨mem, decide_eq_true rfl⟩, rfl⟩

theorem path_producers_iff : Path (producers cfChannels) op other ↔ Reaches cfChannels other op := by
  constructor
  · intro path
    induction path with
    | refl => exact .refl
    | tail _ edge inductionHypothesis =>
        exact .head (mem_consumers.mpr (mem_producers.mp edge)) inductionHypothesis
  · intro path
    induction path with
    | refl => exact .refl
    | tail _ edge inductionHypothesis =>
        exact .head (mem_producers.mpr (mem_consumers.mp edge)) inductionHypothesis

/-! ### One component -/

section Assign

variable {currSCCId : Nat} {starts : List Operation} {assigned result : Operation → Nat}

/-- Operations without a number that lead to some operations get one, the others keep theirs. -/
structure Assigns (cfChannels : List (Channel Operation)) (currSCCId : Nat)
    (starts : List Operation) (assigned result : Operation → Nat) : Prop where
  kept : ∀ op, assigned op ≠ 0 → result op = assigned op
  fresh : ∀ op, assigned op = 0 → result op ≠ 0 →
    result op = currSCCId ∧ ∃ start ∈ starts, Path (producers cfChannels) start op
  closed : ∀ op, assigned op = 0 → result op ≠ 0 →
    ∀ next ∈ producers cfChannels op, result next ≠ 0
  all : ∀ start ∈ starts, result start ≠ 0

theorem Assigns.nil (assigned : Operation → Nat) :
    Assigns cfChannels currSCCId [] assigned assigned :=
  ⟨fun _ _ => rfl, fun _ none some => absurd none some, fun _ none some => absurd none some,
    fun _ mem => nomatch mem⟩

theorem Assigns.ne_zero (assigns : Assigns cfChannels currSCCId starts assigned result)
    (isAssigned : assigned op ≠ 0) : result op ≠ 0 := by
  rw [assigns.kept op isAssigned]
  exact isAssigned

theorem Assigns.cons {first : Operation} {middle : Operation → Nat}
    (one : Assigns cfChannels currSCCId [first] assigned middle)
    (others : Assigns cfChannels currSCCId starts middle result) :
    Assigns cfChannels currSCCId (first :: starts) assigned result where
  kept := by
    intro op isAssigned
    rw [others.kept op (one.ne_zero isAssigned), one.kept op isAssigned]
  fresh := by
    intro op none some
    by_cases early : middle op = 0
    · obtain ⟨same, start, isStart, path⟩ := others.fresh op early some
      exact ⟨same, start, .tail _ isStart, path⟩
    · obtain ⟨same, start, isStart, path⟩ := one.fresh op none early
      rw [List.mem_singleton.mp isStart] at path
      exact ⟨(others.kept op early).trans same, first, .head _, path⟩
  closed := by
    intro op none some next edge
    by_cases early : middle op = 0
    · exact others.closed op early some next edge
    · exact others.ne_zero (one.closed op none early next edge)
  all := by
    intro start mem
    rcases List.mem_cons.mp mem with rfl | later
    · exact others.ne_zero (one.all start List.mem_cons_self)
    · exact others.all start later

variable {cfUnits : List Operation}

/-- The units without a number. -/
def unassigned (cfUnits : List Operation) (assigned : Operation → Nat) : Finset Operation :=
  cfUnits.toFinset.filter fun op => assigned op = 0

theorem Assigns.unassigned_subset (assigns : Assigns cfChannels currSCCId starts assigned result) :
    unassigned cfUnits result ⊆ unassigned cfUnits assigned := by
  intro op mem
  simp only [unassigned, Finset.mem_filter] at mem ⊢
  refine ⟨mem.1, ?_⟩
  by_contra isAssigned
  exact assigns.ne_zero isAssigned mem.2

variable (within : ∀ ch ∈ cfChannels, ch.producer ∈ cfUnits ∧ ch.consumer ∈ cfUnits)
  (positive : currSCCId ≠ 0)

include within positive

/-- With fuel for every unit without a number, a search numbers all that leads to a unit. -/
theorem assigns_recursiveDfsAssignSCCId {bound : Nat}
    (enough : (unassigned cfUnits assigned).card ≤ bound) (isUnit : op ∈ cfUnits) :
    Assigns cfChannels currSCCId [op] assigned
      (recursiveDfsAssignSCCId cfChannels currSCCId bound assigned op) := by
  induction bound generalizing op assigned with
  | zero =>
      have none := Finset.card_eq_zero.mp (Nat.le_zero.mp enough)
      refine ⟨fun _ _ => rfl, fun _ none some => absurd none some,
        fun _ none some => absurd none some, fun start mem isNone => ?_⟩
      have isOp := List.mem_singleton.mp mem
      have listed : start ∈ unassigned cfUnits assigned :=
        Finset.mem_filter.mpr ⟨List.mem_toFinset.mpr (isOp ▸ isUnit), isNone⟩
      rw [none] at listed
      cases listed
  | succ bound inductionHypothesis =>
      rw [recursiveDfsAssignSCCId]
      split
      · rename_i isNone
        have fewer : (unassigned cfUnits (Function.update assigned op currSCCId)).card ≤ bound := by
          refine Nat.le_of_lt_succ (Nat.lt_of_lt_of_le (Finset.card_lt_card ?_) enough)
          refine Finset.ssubset_iff_of_subset (fun other mem => ?_) |>.mpr ⟨op, ?_, ?_⟩
          · obtain ⟨isUnit, isNone⟩ := Finset.mem_filter.mp mem
            have differs : other ≠ op := by
              rintro rfl
              exact positive (by simpa using isNone)
            exact Finset.mem_filter.mpr ⟨isUnit, by rwa [Function.update_of_ne differs] at isNone⟩
          · exact Finset.mem_filter.mpr ⟨List.mem_toFinset.mpr isUnit, isNone⟩
          · intro mem
            exact positive (by simpa using (Finset.mem_filter.mp mem).2)
        have all : ∀ (nexts : List Operation) (assigned : Operation → Nat),
            (∀ next ∈ nexts, next ∈ cfUnits) → (unassigned cfUnits assigned).card ≤ bound →
            Assigns cfChannels currSCCId nexts assigned
              (nexts.foldl (recursiveDfsAssignSCCId cfChannels currSCCId bound) assigned) := by
          intro nexts
          induction nexts with
          | nil => exact fun assigned _ _ => .nil assigned
          | cons next nexts inductionHypothesisAll =>
              intro assigned areUnits enough
              have one := inductionHypothesis enough (areUnits next List.mem_cons_self)
              refine one.cons (inductionHypothesisAll _
                (fun next mem => areUnits next (List.mem_cons_of_mem _ mem)) ?_)
              exact (Finset.card_le_card one.unassigned_subset).trans enough
        have further := all (producers cfChannels op) _
          (fun next edge => (within _ (mem_producers.mp edge)).1) fewer
        have started : Function.update assigned op currSCCId op ≠ 0 := by
          rwa [Function.update_self]
        refine ⟨fun other isAssigned => ?_, fun other isNone some => ?_,
          fun other isNone some => ?_, fun start mem => ?_⟩
        · have differs : other ≠ op := by
            rintro rfl
            exact isAssigned isNone
          have kept := further.kept other (by rwa [Function.update_of_ne differs])
          rw [kept, Function.update_of_ne differs]
        · by_cases same : other = op
          · subst same
            refine ⟨?_, other, List.mem_cons_self, .refl⟩
            rw [further.kept other started, Function.update_self]
          · obtain ⟨isId, next, edge, path⟩ := further.fresh other
              (by rwa [Function.update_of_ne same]) some
            exact ⟨isId, op, List.mem_cons_self, .head edge path⟩
        · by_cases same : other = op
          · subst same
            exact further.all
          · exact further.closed other (by rwa [Function.update_of_ne same]) some
        · rw [List.mem_singleton.mp mem]
          exact further.ne_zero started
      · rename_i isAssigned
        exact ⟨fun _ _ => rfl, fun _ none some => absurd none some,
          fun _ none some => absurd none some,
          fun start mem => List.mem_singleton.mp mem ▸ isAssigned⟩

end Assign

/-! ### All components -/

section Numbers

variable {cfUnits done rest : List Operation} {state : (Operation → Nat) × Nat}

/-- The components of some operations are numbered, and with them all that lead to them. -/
structure Numbers (cfUnits : List Operation) (cfChannels : List (Channel Operation))
    (done : List Operation) (state : (Operation → Nat) × Nat) : Prop where
  all : ∀ op ∈ done, state.1 op ≠ 0
  unit : ∀ op, state.1 op ≠ 0 → op ∈ cfUnits
  bounded : ∀ op, state.1 op ≤ state.2
  backward : ∀ ch ∈ cfChannels, state.1 ch.consumer ≠ 0 → state.1 ch.producer ≠ 0
  ordered : ∀ ch ∈ cfChannels, state.1 ch.consumer ≠ 0 → state.1 ch.producer ≤ state.1 ch.consumer
  same_iff : ∀ op other, state.1 op ≠ 0 → state.1 other ≠ 0 →
    (state.1 op = state.1 other ↔ Reaches cfChannels op other ∧ Reaches cfChannels other op)

theorem Numbers.of_reaches (numbers : Numbers cfUnits cfChannels done state)
    (reaches : Reaches cfChannels op other) (isNumbered : state.1 other ≠ 0) : state.1 op ≠ 0 := by
  induction reaches using Relation.ReflTransGen.head_induction_on with
  | refl => exact isNumbered
  | head edge _ inductionHypothesis =>
      exact numbers.backward _ (mem_consumers.mp edge) inductionHypothesis

variable (within : ∀ ch ∈ cfChannels, ch.producer ∈ cfUnits ∧ ch.consumer ∈ cfUnits)

include within

theorem mem_of_reaches (reaches : Reaches cfChannels op other) (isUnit : other ∈ cfUnits) :
    op ∈ cfUnits := by
  rcases Relation.ReflTransGen.cases_head reaches with rfl | ⟨next, edge, _⟩
  · exact isUnit
  · exact (within _ (mem_consumers.mp edge)).1

/-- What leads to the first operation without a number is led to by it. -/
theorem Numbers.reaches (numbers : Numbers cfUnits cfChannels done state)
    (ordered : PostOrdered (consumers cfChannels) cfUnits (done ++ op :: rest))
    (isUnit : op ∈ cfUnits) (isNew : state.1 other = 0) (reaches : Reaches cfChannels other op) :
    Reaches cfChannels op other := by
  have otherUnit := mem_of_reaches within reaches isUnit
  have listed := (ordered.mem_iff other).mpr ⟨other, otherUnit, .refl⟩
  have notDone : other ∉ done := fun mem => numbers.all other mem isNew
  rcases List.mem_cons.mp ((List.mem_append.mp listed).resolve_left notDone) with rfl | behind
  · exact .refl
  · have around : Reach (consumers cfChannels) (fun passed => state.1 passed ≠ 0) other op :=
      reaches.reach (fun _ next edge => mt (numbers.backward ⟨_, next⟩ (mem_consumers.mp edge)))
        (not_not.mpr isNew)
    exact ordered.comesBack rfl other behind
      (around.mono fun passed avoided => numbers.all passed (avoided.resolve_left id))

/-- The component of the next operation is numbered. -/
theorem Numbers.assignComponent (numbers : Numbers cfUnits cfChannels done state)
    (ordered : PostOrdered (consumers cfChannels) cfUnits (done ++ op :: rest))
    (isUnit : op ∈ cfUnits) : Numbers cfUnits cfChannels (done ++ [op])
      (Sharing.assignComponent cfChannels cfUnits.length state op) := by
  obtain ⟨assigned, currSCCId⟩ := state
  rw [Sharing.assignComponent]
  split
  · rename_i isNone
    have assigns := @assigns_recursiveDfsAssignSCCId _ _ _ _ (currSCCId + 1) assigned _ within
      (Nat.succ_ne_zero _) cfUnits.length ((Finset.card_filter_le _ _).trans cfUnits.toFinset_card_le) isUnit
    generalize recursiveDfsAssignSCCId cfChannels (currSCCId + 1) cfUnits.length assigned op = result
      at assigns
    -- the operations that get a number now are those of one component
    have fresh : ∀ other, assigned other = 0 → result other ≠ 0 → result other = currSCCId + 1 ∧
        Reaches cfChannels other op ∧ Reaches cfChannels op other := by
      intro other isNew some
      obtain ⟨isId, start, isStart, path⟩ := assigns.fresh other isNew some
      rw [List.mem_singleton.mp isStart] at path
      have reaches := path_producers_iff.mp path
      exact ⟨isId, reaches, numbers.reaches within ordered isUnit isNew reaches⟩
    have apart : ∀ op other, assigned op ≠ 0 → assigned other = 0 → result other ≠ 0 →
        ¬ result op = result other ∧ ¬ Reaches cfChannels other op := by
      intro op other isOld isNew some
      have bounded := numbers.bounded op
      refine ⟨fun same => ?_, fun reaches => numbers.of_reaches reaches isOld isNew⟩
      rw [assigns.kept op isOld, (fresh other isNew some).1] at same
      dsimp only at bounded
      omega
    have bounded : ∀ other, result other ≤ currSCCId + 1 := by
      intro other
      by_cases isNew : assigned other = 0
      · by_cases some : result other = 0
        · omega
        · exact (fresh other isNew some).1.le
      · rw [assigns.kept other isNew]
        exact Nat.le_succ_of_le (numbers.bounded other)
    refine ⟨fun other mem => ?_, fun other some => ?_, bounded, fun ch mem some => ?_,
      fun ch mem some => ?_, fun first second someFirst someSecond => ?_⟩
    · rcases List.mem_append.mp mem with old | new
      · exact assigns.ne_zero (numbers.all other old)
      · exact assigns.all other new
    · by_cases isNew : assigned other = 0
      · exact mem_of_reaches within (fresh other isNew some).2.1 isUnit
      · exact numbers.unit other isNew
    · by_cases isNew : assigned ch.consumer = 0
      · exact assigns.closed _ isNew some _ (mem_producers.mpr mem)
      · exact assigns.ne_zero (numbers.backward ch mem isNew)
    · by_cases isNew : assigned ch.consumer = 0
      · dsimp only
        rw [(fresh _ isNew some).1]
        exact bounded _
      · dsimp only
        rw [assigns.kept _ isNew, assigns.kept _ (numbers.backward ch mem isNew)]
        exact numbers.ordered ch mem isNew
    · by_cases newFirst : assigned first = 0
      · obtain ⟨isId, toOp, ofOp⟩ := fresh first newFirst someFirst
        by_cases newSecond : assigned second = 0
        · obtain ⟨isIdSecond, toOpSecond, ofOpSecond⟩ := fresh second newSecond someSecond
          exact iff_of_true (isId.trans isIdSecond.symm)
            ⟨toOp.trans ofOpSecond, toOpSecond.trans ofOp⟩
        · obtain ⟨differs, notReaches⟩ := apart second first newSecond newFirst someFirst
          exact iff_of_false (fun same => differs same.symm) fun both => notReaches both.1
      · by_cases newSecond : assigned second = 0
        · obtain ⟨differs, notReaches⟩ := apart first second newFirst newSecond someSecond
          exact iff_of_false differs fun both => notReaches both.2
        · dsimp only
          rw [assigns.kept first newFirst, assigns.kept second newSecond]
          exact numbers.same_iff first second newFirst newSecond
  · rename_i isNumbered
    refine { numbers with all := fun other mem => ?_ }
    rcases List.mem_append.mp mem with old | new
    · exact numbers.all other old
    · exact List.mem_singleton.mp new ▸ isNumbered

theorem numbers_foldl (numbers : Numbers cfUnits cfChannels done state)
    (ordered : PostOrdered (consumers cfChannels) cfUnits (done ++ rest)) :
    Numbers cfUnits cfChannels (done ++ rest)
      (rest.foldl (Sharing.assignComponent cfChannels cfUnits.length) state) := by
  induction rest generalizing done state with
  | nil => rwa [List.append_nil]
  | cons op rest inductionHypothesis =>
      obtain ⟨start, isUnit, path⟩ := (ordered.mem_iff op).mp (by simp)
      have unit : op ∈ cfUnits := by
        induction path with
        | refl => exact isUnit
        | tail _ edge _ => exact (within _ (mem_consumers.mp edge)).2
      have further := inductionHypothesis (numbers.assignComponent within ordered unit)
        (by rwa [List.append_assoc, List.singleton_append])
      rwa [List.append_assoc, List.singleton_append] at further

/-- Two units get the same number, which is not zero, exactly when each reaches the other, and a
channel between components goes to a larger number. -/
theorem getSccsInCfc_components :
    (∀ op ∈ cfUnits, getSccsInCfc cfUnits cfChannels op ≠ 0) ∧
      (∀ op ∈ cfUnits, ∀ other ∈ cfUnits,
        getSccsInCfc cfUnits cfChannels op = getSccsInCfc cfUnits cfChannels other ↔
          Reaches cfChannels op other ∧ Reaches cfChannels other op) ∧
      ∀ ch ∈ cfChannels,
        ¬ (Reaches cfChannels ch.consumer ch.producer) →
          getSccsInCfc cfUnits cfChannels ch.producer < getSccsInCfc cfUnits cfChannels ch.consumer := by
  have ordered : PostOrdered (consumers cfChannels) cfUnits
      (cfUnits.foldl (recursiveDfsComponentOrder cfChannels cfUnits.length) ([], [])).2 :=
    postOrdered_topo (fun op isUnit next edge => (within _ (mem_consumers.mp edge)).2) (le_refl _)
      (List.Subset.refl _)
  have initial : Numbers cfUnits cfChannels [] (fun _ => 0, 0) :=
    ⟨(fun _ mem => nomatch mem), fun _ some => absurd rfl some, fun _ => le_refl _,
      fun _ _ some => absurd rfl some, fun _ _ some => absurd rfl some,
      fun _ _ some => absurd rfl some⟩
  have numbers := numbers_foldl within initial ordered
  have numbered : ∀ op ∈ cfUnits, getSccsInCfc cfUnits cfChannels op ≠ 0 := fun op isUnit =>
    numbers.all op ((ordered.mem_iff op).mpr ⟨op, isUnit, .refl⟩)
  refine ⟨numbered, fun op isUnit other otherUnit => ?_, fun ch mem apart => ?_⟩
  · exact numbers.same_iff op other (numbered op isUnit) (numbered other otherUnit)
  · obtain ⟨isUnit, otherUnit⟩ := within ch mem
    refine lt_of_le_of_ne (numbers.ordered ch mem (numbered _ otherUnit)) fun same => apart ?_
    exact ((numbers.same_iff _ _ (numbered _ isUnit) (numbered _ otherUnit)).mp same).2

end Numbers

/-- A loop of two units that leads to a third one. -/
theorem getSccsInCfc_components_loop :
    let cfUnits := [2, 0, 1]
    let cfChannels : List (Channel Nat) := [⟨0, 1⟩, ⟨1, 0⟩, ⟨1, 2⟩]
    (∀ op ∈ cfUnits, getSccsInCfc cfUnits cfChannels op ≠ 0) ∧
      (∀ op ∈ cfUnits, ∀ other ∈ cfUnits,
        getSccsInCfc cfUnits cfChannels op = getSccsInCfc cfUnits cfChannels other ↔
          Reaches cfChannels op other ∧ Reaches cfChannels other op) ∧
      ∀ ch ∈ cfChannels,
        ¬ (Reaches cfChannels ch.consumer ch.producer) →
          getSccsInCfc cfUnits cfChannels ch.producer < getSccsInCfc cfUnits cfChannels ch.consumer :=
  getSccsInCfc_components (by decide)

end Dynamatic.Sharing
