import Mathlib.Order.Fin.Basic
import Dynamatic.BooleanLogic.Expression

/-!
# Decision graphs

An acyclic graph of two-way branches, each on its own variable, with the consumer and the
sink as exits. An execution assigns an outcome to every variable and visits the blocks on
the one path that agrees with it. Where the destinations of every branch differ, the
function that tells whether a goal is reached depends on the variable of each block from
which it is open.
-/

namespace Dynamatic.Suppression

open BooleanLogic

/-- A block: an inner node, by the position of its block in the topological order, or one of
the exits. -/
inductive Block (size : Nat) where
  | node (var : Fin size)
  | consumer
  | sink
  deriving DecidableEq, Repr

/-- One step of a path: a variable and its outcome. -/
structure PathStep (size : Nat) where
  var : Fin size
  value : Bool
  deriving DecidableEq, Repr

abbrev PathContext (size : Nat) := List (PathStep size)

/-- The branches of the inner nodes lead to later nodes or to an exit. -/
structure BranchGraph (size : Nat) where
  trueDest : Fin size → Block size
  falseDest : Fin size → Block size
  newProd : Block size
  trueLater : ∀ {var next}, trueDest var = .node next → var < next
  falseLater : ∀ {var next}, falseDest var = .node next → var < next

/-- An execution: the outcome of every branch condition. -/
abbrev Execution (size : Nat) := Fin size → Bool

namespace BranchGraph

variable {size : Nat} (graph : BranchGraph size)

def dest (var : Fin size) (value : Bool) : Block size :=
  if value then graph.trueDest var else graph.falseDest var

/-- The blocks that an execution visits from a block on, in a number of steps. -/
def visits (run : Execution size) : Nat → Block size → List (Block size)
  | steps + 1, .node var => .node var :: visits run steps (graph.dest var (run var))
  | _, block => [block]

/-- The blocks that an execution visits from a block on. -/
def trace (run : Execution size) (block : Block size) : List (Block size) :=
  graph.visits run size block

/-- Whether an execution that is at a block reaches the goal. -/
def reaches (goal block : Block size) (run : Execution size) : Bool :=
  goal ∈ graph.trace run block

/-- A path leads from a block to another. -/
inductive Leads : Block size → PathContext size → Block size → Prop where
  | here {block : Block size} : Leads block [] block
  | step {var : Fin size} {value : Bool} {path : PathContext size} {last : Block size} :
      Leads (graph.dest var value) path last → Leads (.node var) (⟨var, value⟩ :: path) last

/-- The goal can still be reached from a block. -/
def Open (goal block : Block size) : Prop :=
  ∃ path, graph.Leads block path goal

/-- The executions that reach `target` depend on the branch at a node: on one of its sides
they all do, but not on both. Dependences of a dependence count too. -/
inductive ControlDependence : Block size → Fin size → Prop where
  | direct {target : Block size} {var : Fin size} (value : Bool) :
      (∀ run, target ∈ graph.trace run (graph.dest var value)) →
      ¬ (∀ run, target ∈ graph.trace run (.node var)) → ControlDependence target var
  | trans {target : Block size} {middle var : Fin size} :
      ControlDependence target middle → ControlDependence (.node middle) var →
        ControlDependence target var

/-- A topological order of the nodes. -/
structure TopologicalOrder (order : List (Fin size)) : Prop where
  complete : ∀ var, var ∈ order
  forward : order.Pairwise fun var later => ¬ graph.Open (.node var) (.node later)

end BranchGraph

/-- Whether an execution takes all the steps of a path. -/
def agrees {size : Nat} (path : PathContext size) (run : Execution size) : Bool :=
  path.all fun step => run step.var == step.value

/-- A graph whose inner nodes are control dependences of the consumer. -/
structure DecisionGraph (size : Nat) extends BranchGraph size where
  controls : ∀ var, toBranchGraph.ControlDependence .consumer var

namespace BranchGraph

variable {size : Nat} {graph : BranchGraph size} {run : Execution size}
  {block goal last : Block size} {var next : Fin size} {value : Bool}
  {path front rest : PathContext size}

section Traces

theorem later (isNext : graph.dest var value = .node next) : var < next := by
  cases value with
  | false => exact graph.falseLater isNext
  | true => exact graph.trueLater isNext

/-- What holds of the exits, and of a node when it holds of its destinations, holds of all. -/
theorem block_induction {motive : Block size → Prop} (consumer : motive .consumer)
    (sink : motive .sink)
    (node : ∀ var, (∀ value, motive (graph.dest var value)) → motive (.node var))
    (block : Block size) : motive block := by
  have nodes (var : Fin size) : motive (.node var) := by
    induction var using (measure fun var : Fin size => size - var).wf.induction with
    | _ var inductionHypothesis =>
        refine node var fun value => ?_
        cases isNext : graph.dest var value with
        | node next =>
            have isLater := Fin.lt_def.mp (graph.later isNext)
            exact inductionHypothesis next (Nat.sub_lt_sub_left var.isLt isLater)
        | consumer => exact consumer
        | sink => exact sink
  cases block with
  | node var => exact nodes var
  | consumer => exact consumer
  | sink => exact sink

/-- Enough steps take an execution to its exit. -/
private theorem visits_eq {steps more : Nat}
    (enough : ∀ var, block = .node var → size ≤ var + steps)
    (enoughMore : ∀ var, block = .node var → size ≤ var + more) :
    graph.visits run steps block = graph.visits run more block := by
  induction steps generalizing block more with
  | zero =>
      cases block with
      | node var => exact absurd (enough var rfl) (by omega)
      | consumer => cases more <;> rfl
      | sink => cases more <;> rfl
  | succ steps inductionHypothesis =>
      cases block with
      | consumer => cases more <;> rfl
      | sink => cases more <;> rfl
      | node var =>
          cases more with
          | zero => exact absurd (enoughMore var rfl) (by omega)
          | succ more =>
              have ofSize := enough var rfl
              have ofSizeMore := enoughMore var rfl
              refine congrArg _ (inductionHypothesis (fun next isNext => ?_) fun next isNext => ?_)
              · have := Fin.lt_def.mp (graph.later isNext)
                omega
              · have := Fin.lt_def.mp (graph.later isNext)
                omega

theorem trace_node :
    graph.trace run (.node var) = .node var :: graph.trace run (graph.dest var (run var)) := by
  have enough : ∀ next, Block.node var = .node next → size ≤ next + size := fun _ _ => by omega
  have enoughMore : ∀ next, Block.node var = .node next → size ≤ next + (size + 1) :=
    fun _ _ => by omega
  exact visits_eq enough enoughMore

@[simp] theorem trace_consumer : graph.trace run .consumer = [.consumer] := by
  cases size <;> rfl

@[simp] theorem trace_sink : graph.trace run .sink = [.sink] := by
  cases size <;> rfl

@[simp] theorem reaches_self : graph.reaches block block run = true := by
  cases block <;> simp [reaches, trace_node]

theorem reaches_node (differs : .node var ≠ goal) :
    graph.reaches goal (.node var) run = graph.reaches goal (graph.dest var (run var)) run := by
  simp [reaches, trace_node, differs.symm]

end Traces

section Paths

theorem Leads.append (before : graph.Leads block front last) {final : Block size}
    (after : graph.Leads last rest final) : graph.Leads block (front ++ rest) final := by
  induction before with
  | here => exact after
  | step _ inductionHypothesis => exact .step (inductionHypothesis after)

theorem Leads.snoc (leads : graph.Leads block path (.node var)) :
    graph.Leads block (path ++ [⟨var, value⟩]) (graph.dest var value) :=
  leads.append (.step .here)

theorem Leads.split (leads : graph.Leads block (front ++ rest) last) :
    ∃ middle, graph.Leads block front middle ∧ graph.Leads middle rest last := by
  induction front generalizing block with
  | nil => exact ⟨block, .here, leads⟩
  | cons step front inductionHypothesis =>
      cases leads with
      | step leads =>
          obtain ⟨middle, before, after⟩ := inductionHypothesis leads
          exact ⟨middle, .step before, after⟩

/-- A path leads to one block. -/
theorem Leads.unique {other : Block size} (leads : graph.Leads block path last)
    (leadsOther : graph.Leads block path other) : last = other := by
  induction leads with
  | here =>
      cases leadsOther
      rfl
  | step _ inductionHypothesis =>
      cases leadsOther with
      | step leadsOther => exact inductionHypothesis leadsOther

theorem Leads.eq_of_consumer (leads : graph.Leads .consumer path last) :
    path = [] ∧ last = .consumer := by
  cases leads
  exact ⟨rfl, rfl⟩

theorem Leads.eq_of_sink (leads : graph.Leads .sink path last) : path = [] ∧ last = .sink := by
  cases leads
  exact ⟨rfl, rfl⟩

/-- Paths lead to later nodes. -/
theorem Leads.le (leads : graph.Leads (.node var) path (.node next)) :
    var ≤ next ∧ (path ≠ [] → var < next) := by
  generalize isFirst : Block.node var = first at leads
  generalize isLast : Block.node next = last at leads
  induction leads generalizing var with
  | here =>
      cases isFirst.trans isLast.symm
      exact ⟨le_refl _, fun nonempty => absurd rfl nonempty⟩
  | @step start value path last leads inductionHypothesis =>
      cases isFirst
      subst isLast
      suffices start < next from ⟨this.le, fun _ => this⟩
      cases isNext : graph.dest start value with
      | node middle =>
          exact (graph.later isNext).trans_le (inductionHypothesis isNext.symm rfl).1
      | consumer => cases (isNext ▸ leads).eq_of_consumer.2
      | sink => cases (isNext ▸ leads).eq_of_sink.2

theorem Leads.eq_nil (leads : graph.Leads (.node var) path (.node var)) : path = [] := by
  by_contra nonempty
  exact lt_irrefl var (leads.le.2 nonempty)

theorem Open.of_leads (leads : graph.Leads block path last) (isOpen : graph.Open goal last) :
    graph.Open goal block := by
  obtain ⟨rest, leadsRest⟩ := isOpen
  exact ⟨path ++ rest, leads.append leadsRest⟩

theorem Open.dest (isOpen : graph.Open goal (.node var)) (differs : .node var ≠ goal) :
    ∃ value, graph.Open goal (graph.dest var value) := by
  obtain ⟨path, leads⟩ := isOpen
  cases leads with
  | here => exact absurd rfl differs
  | step leads => exact ⟨_, _, leads⟩

end Paths

section Executions

@[simp] theorem agrees_nil : agrees [] run = true :=
  rfl

@[simp] theorem agrees_append : agrees (front ++ rest) run = (agrees front run && agrees rest run) :=
  List.all_append

@[simp] theorem agrees_cons {step : PathStep size} :
    agrees (step :: path) run = ((run step.var == step.value) && agrees path run) :=
  rfl

/-- An execution visits the blocks to which the paths lead that it takes. -/
theorem reaches_iff :
    graph.reaches goal block run ↔ ∃ path, graph.Leads block path goal ∧ agrees path run := by
  rw [reaches, decide_eq_true_iff]
  induction block using graph.block_induction with
  | consumer =>
      rw [trace_consumer, List.mem_singleton]
      constructor
      · rintro rfl
        exact ⟨[], .here, rfl⟩
      · rintro ⟨path, leads, _⟩
        exact leads.eq_of_consumer.2
  | sink =>
      rw [trace_sink, List.mem_singleton]
      constructor
      · rintro rfl
        exact ⟨[], .here, rfl⟩
      · rintro ⟨path, leads, _⟩
        exact leads.eq_of_sink.2
  | node var inductionHypothesis =>
      rw [trace_node, List.mem_cons, inductionHypothesis]
      constructor
      · rintro (rfl | ⟨path, leads, takes⟩)
        · exact ⟨[], .here, rfl⟩
        · exact ⟨⟨var, run var⟩ :: path, .step leads, by simpa using takes⟩
      · rintro ⟨path, leads, takes⟩
        cases leads with
        | here => exact .inl rfl
        | @step _ value path _ leads =>
            obtain ⟨isValue, takes⟩ := Bool.and_eq_true_iff.mp takes
            rw [eq_of_beq isValue]
            exact .inr ⟨path, leads, takes⟩

/-- Of two paths that an execution takes, one continues the other. -/
theorem Leads.comparable {other : Block size} {second : PathContext size}
    (leads : graph.Leads block path last) (takes : agrees path run)
    (leadsOther : graph.Leads block second other) (takesOther : agrees second run) :
    path <+: second ∨ second <+: path := by
  induction leads generalizing second with
  | here => exact .inl List.nil_prefix
  | @step var value path last leads inductionHypothesis =>
      cases leadsOther with
      | here => exact .inr List.nil_prefix
      | @step _ otherValue second _ leadsOther =>
          obtain ⟨isValue, takes⟩ := Bool.and_eq_true_iff.mp takes
          obtain ⟨isOther, takesRest⟩ := Bool.and_eq_true_iff.mp takesOther
          have isSame : value = otherValue := (eq_of_beq isValue).symm.trans (eq_of_beq isOther)
          subst isSame
          exact (inductionHypothesis takes leadsOther takesRest).imp
            (fun grows => List.cons_prefix_cons.mpr ⟨rfl, grows⟩)
            fun grows => List.cons_prefix_cons.mpr ⟨rfl, grows⟩

/-- At the end of a path that an execution takes, it reaches what it reaches from its start,
unless it was on the path. -/
theorem Leads.reaches_eq (leads : graph.Leads block path (.node var)) (takes : agrees path run)
    (ahead : graph.Open (.node next) (.node var)) :
    graph.reaches (.node next) block run = graph.reaches (.node next) (.node var) run := by
  rw [Bool.eq_iff_iff, reaches_iff, reaches_iff]
  constructor
  · rintro ⟨second, leadsSecond, takesSecond⟩
    rcases leads.comparable takes leadsSecond takesSecond with ⟨rest, rfl⟩ | ⟨rest, rfl⟩
    · obtain ⟨middle, before, after⟩ := leadsSecond.split
      cases leads.unique before
      exact ⟨rest, after, by simp_all⟩
    · obtain ⟨middle, before, after⟩ := leads.split
      cases leadsSecond.unique before
      obtain ⟨onwards, leadsOnwards⟩ := ahead
      have isNil := (after.append leadsOnwards).eq_nil
      obtain ⟨rfl, rfl⟩ := List.append_eq_nil_iff.mp isNil
      cases after
      exact ⟨[], .here, rfl⟩
  · rintro ⟨rest, leadsRest, takesRest⟩
    exact ⟨path ++ rest, leads.append leadsRest, by simp [takes, takesRest]⟩

end Executions

section Dependence

/-- The outcome of a branch that is not ahead does not matter. -/
theorem trace_update (closed : ¬ graph.Open (.node var) block) :
    graph.trace (Function.update run var value) block = graph.trace run block := by
  induction block using graph.block_induction with
  | consumer => simp
  | sink => simp
  | node other inductionHypothesis =>
      have differs : other ≠ var := fun same => closed ⟨[], same ▸ .here⟩
      rw [trace_node, trace_node, Function.update_of_ne differs]
      refine congrArg _ (inductionHypothesis _ fun isOpen => closed ?_)
      obtain ⟨path, leads⟩ := isOpen
      exact ⟨_, .step leads⟩

theorem reaches_update (closed : ¬ graph.Open (.node var) block) :
    graph.reaches goal block (Function.update run var value) = graph.reaches goal block run := by
  rw [reaches, reaches, trace_update closed]

/-- The variables on which reaching the goal depends are ahead. -/
theorem open_of_dependsOn (depends : DependsOn (graph.reaches goal block) var) :
    graph.Open (.node var) block := by
  obtain ⟨run, differs⟩ := depends
  by_contra closed
  exact differs ((reaches_update closed).trans (reaches_update closed).symm)

theorem dest_closed : ¬ graph.Open (.node var) (graph.dest var value) := by
  rintro ⟨path, leads⟩
  exact List.cons_ne_nil _ _ (Leads.step leads).eq_nil

/-- Reaching the goal from a node, with a value for its variable. -/
theorem reaches_node_update (differs : .node var ≠ goal) :
    graph.reaches goal (.node var) (Function.update run var value) =
      graph.reaches goal (graph.dest var value) run := by
  rw [reaches_node differs, Function.update_self, reaches_update dest_closed]

/-- An open goal is reached by an execution. -/
theorem Open.exists_reaches (isOpen : graph.Open goal block) :
    ∃ run, graph.reaches goal block run = true := by
  obtain ⟨path, leads⟩ := isOpen
  induction leads with
  | here => exact ⟨fun _ => false, reaches_self⟩
  | @step var value path last _ inductionHypothesis =>
      obtain ⟨run, reached⟩ := inductionHypothesis
      by_cases same : .node var = last
      · exact ⟨run, same ▸ reaches_self⟩
      · exact ⟨Function.update run var value, (reaches_node_update same).trans reached⟩

theorem reaches_of_closed (closed : ¬ graph.Open goal block) :
    graph.reaches goal block run = false := by
  by_contra reached
  obtain ⟨path, leads, _⟩ := reaches_iff.mp (Bool.not_eq_false _ ▸ reached)
  exact closed ⟨path, leads⟩

theorem Open.isNode (isOpen : graph.Open goal block) (isNot : block ≠ goal) :
    ∃ var, block = .node var := by
  obtain ⟨path, leads⟩ := isOpen
  cases block with
  | node var => exact ⟨var, rfl⟩
  | consumer => exact absurd leads.eq_of_consumer.2.symm isNot
  | sink => exact absurd leads.eq_of_sink.2.symm isNot

/-- The goal is reached from a block in a way that depends on the variable of the block. -/
private def Distinguished (graph : BranchGraph size) (goal block : Block size) : Prop :=
  ∀ var, block = .node var → block ≠ goal → DependsOn (graph.reaches goal block) var

private theorem Distinguished.eq_goal (distinguished : graph.Distinguished goal block)
    (isOpen : graph.Open goal block) (always : ∀ run, graph.reaches goal block run = true) :
    block = goal := by
  by_contra isNot
  obtain ⟨var, rfl⟩ := isOpen.isNode isNot
  obtain ⟨run, differs⟩ := distinguished var rfl isNot
  exact differs ((always _).trans (always _).symm)

/-- Two blocks from which the same executions reach the goal are one. -/
private theorem Distinguished.unique {other : Block size}
    (distinguished : graph.Distinguished goal block) (isOpen : graph.Open goal block)
    (distinguishedOther : graph.Distinguished goal other) (isOpenOther : graph.Open goal other)
    (same : graph.reaches goal block = graph.reaches goal other) : block = other := by
  by_cases isGoal : block = goal
  · subst isGoal
    exact (distinguishedOther.eq_goal isOpenOther fun run => same ▸ reaches_self).symm
  by_cases isGoalOther : other = goal
  · subst isGoalOther
    exact distinguished.eq_goal isOpen fun run => same ▸ reaches_self
  obtain ⟨var, rfl⟩ := isOpen.isNode isGoal
  obtain ⟨next, rfl⟩ := isOpenOther.isNode isGoalOther
  obtain ⟨_, leads⟩ := open_of_dependsOn (same ▸ distinguished var rfl isGoal)
  obtain ⟨_, leadsBack⟩ := open_of_dependsOn (same ▸ distinguishedOther next rfl isGoalOther)
  exact congrArg _ (le_antisymm leadsBack.le.1 leads.le.1)

/-- Where the goal is open and all branches lead two ways, reaching it depends on the branch
of a node. -/
theorem Open.dependsOn (differ : ∀ var, graph.trueDest var ≠ graph.falseDest var)
    (isOpen : graph.Open goal (.node var)) (isNot : .node var ≠ goal) :
    DependsOn (graph.reaches goal (.node var)) var := by
  suffices distinguished : ∀ block, graph.Open goal block → graph.Distinguished goal block from
    distinguished _ isOpen var rfl isNot
  clear isOpen isNot
  intro block
  induction block using graph.block_induction with
  | consumer => exact fun _ _ isNode => nomatch isNode
  | sink => exact fun _ _ isNode => nomatch isNode
  | node var inductionHypothesis =>
      intro isOpen var isVar isNot
      cases isVar
      by_contra independent
      have same : graph.reaches goal (graph.dest var true) =
          graph.reaches goal (graph.dest var false) := by
        funext run
        by_contra differs
        refine independent ⟨run, ?_⟩
        rwa [reaches_node_update isNot, reaches_node_update isNot]
      have opens (value : Bool) : graph.Open goal (graph.dest var value) := by
        obtain ⟨side, openSide⟩ := isOpen.dest isNot
        obtain ⟨run, reached⟩ := openSide.exists_reaches
        by_contra closed
        have missed : graph.reaches goal (graph.dest var value) run = false :=
          reaches_of_closed closed
        cases side <;> cases value <;> simp_all
      exact differ var ((inductionHypothesis true (opens true)).unique (opens true)
        (inductionHypothesis false (opens false)) (opens false) same)

/-- A branch that decides anything leads two ways. -/
theorem ControlDependence.differ (depends : graph.ControlDependence goal var) :
    graph.trueDest var ≠ graph.falseDest var := by
  induction depends with
  | @direct target var value always notAlways =>
      intro same
      have sides (outcome : Bool) : graph.dest var outcome = graph.dest var value := by
        cases outcome <;> cases value <;> simp [dest, same]
      refine notAlways fun run => ?_
      rw [trace_node, sides]
      exact List.mem_cons_of_mem _ (always run)
  | trans _ _ _ differ => exact differ

end Dependence

end BranchGraph

end Dynamatic.Suppression
