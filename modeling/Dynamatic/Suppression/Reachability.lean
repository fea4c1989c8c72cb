import Dynamatic.Suppression.Distribution

/-!
# The circuit of a reaching condition

The decision diagram of the condition that a goal is reached has a node for each block on
the paths to the goal, and follows them. So its circuit takes the token of each variable on
its path where the variable is reached on this path, and delivers the condition for every
execution that takes the path.
-/

namespace Dynamatic.Suppression

open BooleanLogic BranchGraph

variable {size : Nat}

/-- A signal of a variable, good on a path: it has the tokens of the executions that take the
path and reach the variable. -/
structure Serves (graph : BranchGraph size) (runs : List (Execution size)) (var : Fin size)
    (path : PathContext size) (signal : Signal size) : Prop where
  limited : signal.isUnlimited = false
  uses : .raw var ∈ signal.units
  delivers : Delivers graph runs signal
    (emitted runs (fun run => agrees path run && graph.reaches (.node var) graph.newProd run)
      fun run => run var)

/-- All variables on the way from a path to a goal have good signals. -/
def ServesGoal (graph : BranchGraph size) (runs : List (Execution size))
    (registry : SignalRegistry size) (goal : Block size) (start : PathContext size) : Prop :=
  ∀ {var path}, start <+: path → graph.Leads graph.newProd path (.node var) →
    graph.Open goal (.node var) → .node var ≠ goal →
      Serves graph runs var path (registry.signal var path)

variable {graph : BranchGraph size} {runs : List (Execution size)}
  {registry : SignalRegistry size} {minimizer : Minimizer (Fin size)} {goal block : Block size}
  {path start : PathContext size} {expr : BoolExpression (Fin size)} {var : Fin size}
  {negated : Bool} {signal : Signal size}

/-- On a path to the variable, its tokens are those of the executions that take the path. -/
theorem Serves.delivers_path (serves : Serves graph runs var path signal)
    (leads : graph.Leads graph.newProd path (.node var)) :
    Delivers graph runs signal (emitted runs (agrees path) fun run => run var) := by
  have seen : ∀ run ∈ runs, (agrees path run && graph.reaches (.node var) graph.newProd run) =
      agrees path run := fun run _ => by
    cases takes : agrees path run with
    | false => rfl
    | true => exact reaches_iff.mpr ⟨path, leads, takes⟩
  exact emitted_congr seen (fun _ _ _ => rfl) ▸ serves.delivers

/-- The expression tells whether the goal is reached from a block, or that it is not. -/
def Tells (graph : BranchGraph size) (goal block : Block size) (negated : Bool)
    (expr : BoolExpression (Fin size)) : Prop :=
  ∀ run, expr.evaluate run = (graph.reaches goal block run ^^ negated)

section Dependence

theorem Tells.dependsOn_iff (tells : Tells graph goal block negated expr) :
    DependsOn expr.evaluate var ↔ DependsOn (graph.reaches goal block) var := by
  simp only [BooleanLogic.DependsOn, tells _, ne_eq, Bool.xor_left_inj]

/-- A block from which reaching the goal is not decided is a node on the way. -/
theorem Tells.node_of_dependsOn (tells : Tells graph goal block negated expr)
    (depends : DependsOn expr.evaluate var) :
    ∃ first, block = .node first ∧ graph.Open goal block ∧ block ≠ goal := by
  obtain ⟨run, differs⟩ := tells.dependsOn_iff.mp depends
  have isOpen : graph.Open goal block := by
    by_contra closed
    exact differs ((reaches_of_closed closed).trans (reaches_of_closed closed).symm)
  have isNot : block ≠ goal := by
    rintro rfl
    exact differs (reaches_self.trans reaches_self.symm)
  obtain ⟨first, isFirst⟩ := isOpen.isNode isNot
  exact ⟨first, isFirst, isOpen, isNot⟩

/-- The cofactor of an expression at a node tells whether the goal is reached from the
destination. -/
theorem Tells.restrict {value : Bool} (tells : Tells graph goal (.node var) negated expr)
    (isNot : .node var ≠ goal) :
    Tells graph goal (graph.dest var value) negated
      (minimizer.boolMinimize (expr.restrict var value)) := fun run => by
  rw [minimizer.evaluate, evaluate_restrict, tells, reaches_node_update isNot]

/-- The variables of the cofactor are variables of the expression. -/
theorem mem_of_mem_restrict {value : Bool} {other : Fin size}
    (mem : other ∈ (minimizer.boolMinimize (expr.restrict var value)).getVariables) :
    other ∈ expr.getVariables := by
  have depends := (minimizer.minimal _).depends mem
  rw [show (minimizer.boolMinimize (expr.restrict var value)).evaluate =
    fun row => expr.evaluate (Function.update row var value) from
      funext fun row => (minimizer.evaluate _ row).trans evaluate_restrict] at depends
  exact mem_getVariables_of_dependsOn depends.of_update

end Dependence

section Circuits

/-- A value delivers a condition for the executions that take a path to a block, and uses the
tokens of the variables on the way from there to the goal. -/
structure DeliversCondition (graph : BranchGraph size) (runs : List (Execution size))
    (goal block : Block size) (path : PathContext size) (expr : BoolExpression (Fin size))
    (signal : Signal size) : Prop where
  delivers : Delivers graph runs signal (emitted runs (agrees path) fun run => expr.evaluate run)
  uses : ∀ {var rest}, graph.Leads block rest (.node var) → graph.Open goal (.node var) →
    .node var ≠ goal → .raw var ∈ signal.units
  limited : graph.Open goal block → block ≠ goal → signal.isUnlimited = false

/-- A constant condition is delivered without a token of any variable. -/
private theorem delivers_of_constant (minimal : expr.Minimal) (unnamed : expr.getVariables = []) :
    ∃ signal, boolExpressionToCircuit registry path expr = some signal ∧
      Delivers graph runs signal (emitted runs (agrees path) fun run => expr.evaluate run) := by
  rcases minimal.constant unnamed with rfl | rfl
  · refine ⟨_, rfl, delivers_constant fun word mem => ?_⟩
    obtain ⟨_, _, rfl⟩ := List.mem_map.mp mem
    rfl
  · refine ⟨_, rfl, delivers_constant fun word mem => ?_⟩
    obtain ⟨_, _, rfl⟩ := List.mem_map.mp mem
    rfl

theorem isLeaf_of_unnamed (minimal : expr.Minimal) (unnamed : expr.getVariables = []) :
    expr.isLeaf = true := by
  rcases minimal.constant unnamed with rfl | rfl <;> rfl

private theorem delivers_literal {isNegated : Bool}
    (serves : Serves graph runs var path (registry.signal var path))
    (leads : graph.Leads graph.newProd path (.node var)) :
    ∃ signal, boolExpressionToCircuit registry path (.literal var isNegated) = some signal ∧
      Delivers graph runs signal
        (emitted runs (agrees path) fun run => (BoolExpression.literal var isNegated).evaluate run) ∧
      .raw var ∈ signal.units ∧ signal.isUnlimited = false := by
  cases isNegated with
  | false =>
      refine ⟨_, rfl, ?_, serves.uses, serves.limited⟩
      simpa [BoolExpression.evaluate] using serves.delivers_path leads
  | true =>
      refine ⟨_, rfl, ?_, List.mem_cons_of_mem _ serves.uses, rfl⟩
      simpa [BoolExpression.evaluate] using (serves.delivers_path leads).notI serves.limited

/-- The block before a node on the way to the goal is itself on the way. -/
theorem BranchGraph.Leads.ahead {rest : PathContext size}
    (leads : graph.Leads block rest (.node var)) (isOpen : graph.Open goal (.node var))
    (isNot : .node var ≠ goal) : graph.Open goal block ∧ block ≠ goal := by
  refine ⟨isOpen.of_leads leads, ?_⟩
  rintro rfl
  obtain ⟨onwards, leadsOnwards⟩ := isOpen
  cases block with
  | node goal =>
      have isNil := (leads.append leadsOnwards).eq_nil
      obtain ⟨rfl, rfl⟩ := List.append_eq_nil_iff.mp isNil
      cases leads
      exact isNot rfl
  | consumer => cases leads.eq_of_consumer.2
  | sink => cases leads.eq_of_sink.2

/-- The expression names the block when there is a node on the way. -/
private theorem Tells.named (tells : Tells graph goal block negated expr)
    (differ : ∀ var, graph.trueDest var ≠ graph.falseDest var) (isOpen : graph.Open goal block)
    (isNot : block ≠ goal) : ∃ first, block = .node first ∧ first ∈ expr.getVariables := by
  obtain ⟨first, rfl⟩ := isOpen.isNode isNot
  exact ⟨first, rfl, mem_getVariables_of_dependsOn
    (tells.dependsOn_iff.mpr (isOpen.dependsOn differ isNot))⟩

/-- The variables of a cofactor are ahead of the node. -/
private theorem Tells.ne_of_mem_restrict {value : Bool} {other : Fin size}
    (tells : Tells graph goal (.node var) negated expr) (isNot : .node var ≠ goal)
    (mem : other ∈ (minimizer.boolMinimize (expr.restrict var value)).getVariables) :
    other ≠ var := by
  rintro rfl
  have depends := (tells.restrict isNot).dependsOn_iff.mp ((minimizer.minimal _).depends mem)
  exact dest_closed (open_of_dependsOn depends)

private theorem delivers_leaf (differ : ∀ var, graph.trueDest var ≠ graph.falseDest var)
    (minimal : expr.Minimal) (isLeaf : expr.isLeaf = true)
    (tells : Tells graph goal block negated expr)
    (leads : graph.Leads graph.newProd path block)
    (serves : ServesGoal graph runs registry goal path) :
    ∃ signal, boolExpressionToCircuit registry path expr = some signal ∧
      DeliversCondition graph runs goal block path expr signal := by
  have unnamed (none : expr.getVariables = []) : ∃ signal,
      boolExpressionToCircuit registry path expr = some signal ∧
        DeliversCondition graph runs goal block path expr signal := by
    obtain ⟨signal, isSignal, delivers⟩ := delivers_of_constant minimal none
    have decided (ahead : graph.Open goal block) (differs : block ≠ goal) : False := by
      obtain ⟨_, _, mem⟩ := tells.named differ ahead differs
      exact List.not_mem_nil (none ▸ mem)
    refine ⟨signal, isSignal, delivers, fun leads isOpen isNot => ?_,
      fun ahead differs => (decided ahead differs).elim⟩
    obtain ⟨ahead, differs⟩ := leads.ahead isOpen isNot
    exact (decided ahead differs).elim
  cases expr with
  | zero => exact unnamed rfl
  | one => exact unnamed rfl
  | or left right => cases isLeaf
  | and left right => cases isLeaf
  | literal id isNegated =>
      have depends := minimal.depends (List.mem_singleton_self id)
      obtain ⟨first, rfl, isOpen, isNot⟩ := tells.node_of_dependsOn depends
      have named : first = id := by
        obtain ⟨_, isFirst, mem⟩ := tells.named differ isOpen isNot
        cases isFirst
        exact List.mem_singleton.mp mem
      subst named
      obtain ⟨signal, isSignal, delivers, uses, limited⟩ :=
        delivers_literal (serves (List.prefix_refl path) leads isOpen isNot) leads
      refine ⟨signal, isSignal, delivers, fun {var rest} leads isOpen differs => ?_,
        fun _ _ => limited⟩
      cases leads with
      | here => exact uses
      | @step _ value rest _ leads =>
          -- behind the only variable of the expression nothing is left to decide
          obtain ⟨ahead, isNotDest⟩ := leads.ahead isOpen differs
          obtain ⟨next, isNext, mem⟩ :=
            (Tells.restrict tells isNot : Tells graph goal (graph.dest first value) negated
              (expansion.boolMinimize _)).named differ ahead isNotDest
          have same := List.mem_singleton.mp (mem_of_mem_restrict mem)
          exact absurd (same ▸ later isNext) (lt_irrefl _)

/-- The circuit of the condition at the end of a path delivers it. -/
theorem delivers_bddToCircuit (differ : ∀ var, graph.trueDest var ≠ graph.falseDest var)
    {order : List (Fin size)} (minimal : expr.Minimal) (tells : Tells graph goal block negated expr)
    (complete : ∀ var ∈ expr.getVariables, var ∈ order)
    (forward : order.Pairwise fun var later => ¬ graph.Open (.node var) (.node later))
    (leads : graph.Leads graph.newProd path block)
    (serves : ServesGoal graph runs registry goal path) :
    ∃ signal, bddToCircuit registry path (buildBDD minimizer order expr) = some signal ∧
      DeliversCondition graph runs goal block path expr signal := by
  induction order generalizing expr block path with
  | nil =>
      have unnamed : expr.getVariables = [] :=
        List.eq_nil_iff_forall_not_mem.mpr fun var mem => List.not_mem_nil (complete var mem)
      rw [buildBDD, bddToCircuit]
      exact delivers_leaf differ minimal (isLeaf_of_unnamed minimal unnamed) tells leads serves
  | cons var order inductionHypothesis =>
      cases isLeaf : expr.isLeaf with
      | true =>
          rw [buildBDD, if_pos isLeaf, bddToCircuit]
          exact delivers_leaf differ minimal isLeaf tells leads serves
      | false =>
      rw [buildBDD, if_neg (by simp [isLeaf])]
      by_cases named : var ∈ expr.getVariables
      swap
      · rw [if_neg named]
        refine inductionHypothesis minimal tells (fun other mem => ?_) forward.tail leads serves
        exact (List.mem_cons.mp (complete other mem)).resolve_left fun same => named (same ▸ mem)
      -- the first variable of the order that the expression names is that of the block
      rw [if_pos named]
      obtain ⟨first, rfl, isOpen, isNot⟩ := tells.node_of_dependsOn (minimal.depends named)
      have isFirst : var = first := by
        obtain ⟨_, same, mem⟩ := tells.named differ isOpen isNot
        cases same
        refine ((List.mem_cons.mp (complete first mem)).resolve_right fun mem => ?_).symm
        exact (List.pairwise_cons.mp forward).1 first mem
          (open_of_dependsOn (tells.dependsOn_iff.mp (minimal.depends named)))
      subst isFirst
      have sides (value : Bool) := inductionHypothesis
        (minimizer.minimal (expr.restrict var value)) (tells.restrict isNot)
        (fun other mem => (List.mem_cons.mp (complete other (mem_of_mem_restrict mem))).resolve_left
          (tells.ne_of_mem_restrict isNot mem))
        forward.tail (leads.snoc : graph.Leads _ (path ++ [⟨var, value⟩]) _)
        fun grows => serves ((List.prefix_append _ _).trans grows)
      obtain ⟨falseOperand, isFalse, falseDelivers, falseUses, _⟩ := sides false
      obtain ⟨trueOperand, isTrue, trueDelivers, trueUses, _⟩ := sides true
      have select := serves (List.prefix_refl path) leads isOpen isNot
      refine ⟨.mux (registry.signal var path) falseOperand trueOperand, ?_, ?_, ?_, fun _ _ => rfl⟩
      · simp [bddToCircuit, isFalse, isTrue]
      · have side (value : Bool) : emitted runs (agrees (path ++ [⟨var, value⟩])) (fun run =>
            (minimizer.boolMinimize (expr.restrict var value)).evaluate run) =
            emitted runs (fun run => agrees path run && (run var == value))
              fun run => expr.evaluate run := by
          refine emitted_congr (fun run _ => by simp) fun run _ takes => ?_
          have isValue : run var = value := by simp_all
          rw [minimizer.evaluate, evaluate_restrict, ← isValue, Function.update_eq_self]
        rw [side] at falseDelivers trueDelivers
        simp only [beq_false, beq_true] at falseDelivers trueDelivers
        simpa using (select.delivers_path leads).mux select.limited falseDelivers trueDelivers
      · intro other rest leads isOpen differs
        simp only [Signal.units, List.mem_cons, List.mem_append]
        cases leads with
        | here => exact .inr (.inl (.inl select.uses))
        | @step _ value rest _ leads =>
            cases value with
            | false => exact .inr (.inl (.inr (falseUses leads isOpen differs)))
            | true => exact .inr (.inr (trueUses leads isOpen differs))

end Circuits

section Validity

variable {requirements : List (PathContext size)} {run : Execution size} {base : PathContext size}
  {split : Fin size}

private theorem evaluate_pathExpr_from : (path.foldl (fun expr step =>
    BoolExpression.and expr (.literal step.var !step.value)) expr).evaluate run =
      (expr.evaluate run && agrees path run) := by
  induction path generalizing expr with
  | nil => simp
  | cons step path inductionHypothesis =>
      rw [List.foldl_cons, inductionHypothesis, agrees_cons, BoolExpression.evaluate,
        BoolExpression.evaluate, Bool.and_assoc]
      cases run step.var <;> cases step.value <;> rfl

theorem evaluate_pathExpr : (pathExpr path).evaluate run = agrees path run :=
  evaluate_pathExpr_from

theorem evaluate_validPaths {startIndex : Nat} : (validPaths requirements startIndex).evaluate run =
    requirements.any fun path => agrees (path.drop startIndex) run := by
  suffices general : ∀ expr : BoolExpression (Fin size), (requirements.foldl (fun expr path =>
      .or expr (pathExpr (path.drop startIndex))) expr).evaluate run =
        (expr.evaluate run || requirements.any fun path => agrees (path.drop startIndex) run) from
    general .zero
  induction requirements with
  | nil => simp
  | cons path requirements inductionHypothesis =>
      intro expr
      rw [List.foldl_cons, inductionHypothesis, BoolExpression.evaluate, evaluate_pathExpr,
        List.any_cons, Bool.or_assoc]

theorem later_of_finRange :
    (List.finRange size).Pairwise fun var later => ¬ graph.Open (.node var) (.node later) := by
  refine List.pairwise_ofFn.mpr fun var later isLess isOpen => ?_
  obtain ⟨_, leads⟩ := isOpen
  exact absurd leads.le.1 (not_le_of_gt isLess)

/-- The requirements that go on from a path are all ways to the variable. -/
theorem reaches_iff_requirement
    (isRequirement : ∀ path, path ∈ requirements ↔
      graph.Leads graph.newProd path (.node var) ∧ base <+: path)
    (leads : graph.Leads graph.newProd base block) :
    graph.reaches (.node var) block run ↔
      ∃ path ∈ requirements, agrees (path.drop base.length) run := by
  rw [reaches_iff]
  constructor
  · rintro ⟨rest, leadsRest, takes⟩
    refine ⟨base ++ rest, (isRequirement _).mpr ⟨leads.append leadsRest, List.prefix_append _ _⟩, ?_⟩
    rwa [List.drop_left]
  · rintro ⟨path, mem, takes⟩
    obtain ⟨leadsPath, rest, rfl⟩ := (isRequirement path).mp mem
    obtain ⟨middle, before, after⟩ := leadsPath.split
    cases leads.unique before
    exact ⟨rest, after, by rwa [List.drop_left] at takes⟩

variable (minimizer) in
/-- The condition that a variable is not reached from a split. -/
theorem delivers_generateReachabilityLogic
    (differ : ∀ var, graph.trueDest var ≠ graph.falseDest var)
    (isRequirement : ∀ path, path ∈ requirements ↔
      graph.Leads graph.newProd path (.node var) ∧ base <+: path)
    (leads : graph.Leads graph.newProd base block)
    (serves : ServesGoal graph runs registry (.node var) base) :
    ∃ signal, generateReachabilityLogic minimizer registry requirements base base.length =
        some signal ∧
      Delivers graph runs signal
        (emitted runs (agrees base) fun run => !graph.reaches (.node var) block run) := by
  have tells : Tells graph (.node var) block true
      (minimizer.boolMinimize (validPaths requirements base.length).boolNegate) := fun run => by
    rw [minimizer.evaluate, evaluate_boolNegate, evaluate_validPaths, Bool.xor_true]
    refine congrArg _ (Bool.eq_iff_iff.mpr ?_)
    rw [List.any_eq_true, reaches_iff_requirement isRequirement leads]
  obtain ⟨signal, isSignal, ⟨delivers, _, _⟩⟩ := delivers_bddToCircuit differ (minimizer.minimal _) tells
    (fun var mem => List.mem_filter.mpr ⟨List.mem_finRange var, decide_eq_true mem⟩)
    (later_of_finRange.filter _) leads serves
  refine ⟨signal, isSignal, ?_⟩
  simpa [tells _] using delivers

end Validity

end Dynamatic.Suppression
