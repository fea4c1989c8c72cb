import Dynamatic.Blif.Statements

/-!
# What a network holds

A network that is made of statements, one after another, holds what they say: a
node is a port or the end of a latch when some statement says so, and its fanins
are the inputs of the gates that some statements give it. The order of statements
matters for the order of the latches only.
-/

namespace Dynamatic.Blif

/-! ### Facts that are added and never taken back -/

theorem foldl_iff {State Item : Type} {step : State → Item → State} (holds : State → Prop)
    (adds : Item → Prop)
    (one : ∀ state item, holds (step state item) ↔ holds state ∨ adds item) (items : List Item)
    (state : State) :
    holds (items.foldl step state) ↔ holds state ∨ ∃ item ∈ items, adds item := by
  induction items generalizing state with
  | nil => simp
  | cons item items inductionHypothesis =>
      rw [List.foldl_cons, inductionHypothesis, one, List.exists_mem_cons_iff, or_assoc]

theorem foldl_eq {State Item Fact : Type} {step : State → Item → State} (fact : State → Fact)
    (one : ∀ state item, fact (step state item) = fact state) (items : List Item)
    (state : State) : fact (items.foldl step state) = fact state := by
  induction items generalizing state with
  | nil => rfl
  | cons item items inductionHypothesis => rw [List.foldl_cons, inductionHypothesis, one]

/-! ### Sets of nodes -/

section Sets

variable {address : Name → Nat} {name other : Name} {names : List Name}

theorem mem_insertNode : other ∈ insertNode address name names ↔ other = name ∨ other ∈ names := by
  induction names with
  | nil => simp [insertNode]
  | cons first rest inductionHypothesis =>
      rw [insertNode]
      split
      · exact List.mem_cons
      · split
        case isTrue same =>
          rw [same, List.mem_cons]
          exact ⟨.inr, fun either => either.elim .inl id⟩
        case isFalse =>
          rw [List.mem_cons, inductionHypothesis, List.mem_cons]
          exact or_left_comm

theorem mem_setOf : other ∈ setOf address names ↔ other ∈ names := by
  induction names with
  | nil => exact Iff.rfl
  | cons first rest inductionHypothesis =>
      rw [setOf, List.foldr_cons, mem_insertNode, List.mem_cons]
      exact or_congr_right inductionHypothesis

/-- A set that lists its nodes by their addresses still does with a node inserted. -/
theorem sorted_insertNode (injective : Function.Injective address)
    (sorted : names.Pairwise fun first second => address first < address second) :
    (insertNode address name names).Pairwise
      fun first second => address first < address second := by
  induction sorted with
  | nil => exact List.pairwise_singleton _ _
  | @cons first rest below sorted inductionHypothesis =>
      rw [insertNode]
      split
      case isTrue less =>
        refine List.pairwise_cons.mpr ⟨fun later mem => ?_, List.pairwise_cons.mpr ⟨below, sorted⟩⟩
        rcases List.mem_cons.mp mem with rfl | mem
        · exact less
        · exact Nat.lt_trans less (below later mem)
      case isFalse notLess =>
        split
        case isTrue => exact List.pairwise_cons.mpr ⟨below, sorted⟩
        case isFalse apart =>
          refine List.pairwise_cons.mpr ⟨fun later mem => ?_, inductionHypothesis⟩
          rcases mem_insertNode.mp mem with rfl | mem
          · have differ : address first ≠ address later := fun same =>
              apart (injective same).symm
            omega
          · exact below later mem

end Sets

/-! ### What each addition does to a node -/

namespace LogicNetwork

variable {address : Name → Nat} {network : LogicNetwork} {name : Name}

@[simp] theorem node_createNode (created : Name) :
    (network.createNode created).node = network.node := by
  rw [createNode]
  split <;> rfl

@[simp] theorem latches_createNode (created : Name) :
    (network.createNode created).latches = network.latches := by
  rw [createNode]
  split <;> rfl

@[simp] theorem moduleName_createNode (created : Name) :
    (network.createNode created).moduleName = network.moduleName := by
  rw [createNode]
  split <;> rfl

@[simp] theorem mem_names_createNode {created : Name} :
    name ∈ (network.createNode created).names ↔ name ∈ network.names ∨ name = created := by
  rw [createNode]
  split
  case isTrue isNode =>
    refine ⟨.inl, fun either => either.elim id ?_⟩
    rintro rfl
    exact isNode
  case isFalse => simp

@[simp] theorem node_modifyNode (modified : Name) (change : Node → Node) :
    (network.modifyNode modified change).node name =
      if name = modified then change (network.node name) else network.node name := by
  rw [modifyNode]
  by_cases same : name = modified
  · subst same
    simp
  · simp [same]

@[simp] theorem names_modifyNode (modified : Name) (change : Node → Node) :
    (network.modifyNode modified change).names = network.names := rfl

@[simp] theorem latches_modifyNode (modified : Name) (change : Node → Node) :
    (network.modifyNode modified change).latches = network.latches := rfl

@[simp] theorem moduleName_modifyNode (modified : Name) (change : Node → Node) :
    (network.modifyNode modified change).moduleName = network.moduleName := rfl

theorem node_addIONode (port type : Name) :
    (network.addIONode port type).node name =
      if name = port then (network.node name).configureIONode type else network.node name := by
  simp [addIONode]

theorem node_addLatch (input output : Name) :
    (network.addLatch input output).node name =
      { network.node name with
        isLatchInput := (network.node name).isLatchInput || decide (name = input)
        isLatchOutput := (network.node name).isLatchOutput || decide (name = output) } := by
  by_cases isInput : name = input <;> by_cases isOutput : name = output <;>
    simp [addLatch, isInput, isOutput] <;> split <;> simp_all

theorem node_addConstantNode (constant : Name) (function : List Char) :
    (network.addConstantNode constant function).node name =
      if name = constant then { network.node name with function := function }.configureConstantNode
      else network.node name := by
  simp [addConstantNode]

theorem node_addEdge (fanin fanout : Name) :
    (network.addEdge address fanin fanout).node name =
      { network.node name with
        fanins := if name = fanout then insertNode address fanin (network.node name).fanins
          else (network.node name).fanins
        fanouts := if name = fanin then insertNode address fanout (network.node name).fanouts
          else (network.node name).fanouts } := by
  by_cases isFanin : name = fanin <;> by_cases isFanout : name = fanout <;>
    simp [addEdge, isFanin, isFanout] <;> split <;> simp_all

/-- A gate changes the function and the edges of nodes, and nothing else. -/
theorem field_addLogicGate {Field : Type} (field : Node → Field)
    (others : ∀ node function fanins fanouts,
      field { node with function := function, fanins := fanins, fanouts := fanouts } = field node)
    (inputs : List Name) (output : Name) (function : List Char) :
    field ((network.addLogicGate address inputs output function).node name) =
      field (network.node name) := by
  rw [addLogicGate, foldl_eq fun network : LogicNetwork => field (network.node name)]
  · rw [node_modifyNode, node_createNode]
    split
    · exact others (network.node name) function (network.node name).fanins (network.node name).fanouts
    · rfl
  · intro network input
    rw [node_addEdge, node_createNode]
    exact others (network.node name) (network.node name).function _ _

theorem mem_fanins_addLogicGate {inputs : List Name} {output fanin : Name} {function : List Char} :
    fanin ∈ ((network.addLogicGate address inputs output function).node name).fanins ↔
      fanin ∈ (network.node name).fanins ∨ name = output ∧ fanin ∈ inputs := by
  rw [addLogicGate, foldl_iff (fun network : LogicNetwork => fanin ∈ (network.node name).fanins)
    fun input => name = output ∧ fanin = input]
  · refine or_congr ?_ (by simp [and_comm])
    rw [node_modifyNode, node_createNode]
    split <;> rfl
  · intro network input
    rw [node_addEdge, node_createNode]
    dsimp only
    split
    case isTrue same => simp [mem_insertNode, same, or_comm]
    case isFalse apart => simp [apart]

theorem function_addLogicGate (inputs : List Name) (output : Name) (function : List Char) :
    ((network.addLogicGate address inputs output function).node name).function =
      if name = output then function else (network.node name).function := by
  rw [addLogicGate, foldl_eq fun network : LogicNetwork => (network.node name).function]
  · rw [node_modifyNode, node_createNode]
    split <;> rfl
  · intro network input
    rw [node_addEdge, node_createNode]

/-- Ports that are declared get the flag of their type. -/
theorem flag_addIONodes {flag : Node → Bool} {type : Name}
    (sets : ∀ node : Node, flag (node.configureIONode type) = true) (ports : List Name) :
    flag ((ports.foldl (fun network port => network.addIONode port type) network).node name) =
        true ↔
      flag (network.node name) = true ∨ name ∈ ports := by
  rw [foldl_iff (fun network : LogicNetwork => flag (network.node name) = true)
    fun port => name = port]
  · simp
  · intro network port
    rw [node_addIONode]
    split
    case isTrue same => simp [sets, same]
    case isFalse apart => simp [apart]

/-- Declaring ports changes no other field than their flags. -/
theorem field_addIONodes {Field : Type} (field : Node → Field) {type : Name}
    (others : ∀ node : Node, field (node.configureIONode type) = field node) (ports : List Name) :
    field ((ports.foldl (fun network port => network.addIONode port type) network).node name) =
      field (network.node name) := by
  rw [foldl_eq fun network : LogicNetwork => field (network.node name)]
  intro network port
  rw [node_addIONode]
  split
  · exact others _
  · rfl

theorem mem_names_addIONodes {type : Name} (ports : List Name) :
    name ∈ (ports.foldl (fun network port => network.addIONode port type) network).names ↔
      name ∈ network.names ∨ name ∈ ports := by
  rw [foldl_iff (fun network : LogicNetwork => name ∈ network.names) fun port => name = port]
  · simp
  · intro network port
    rw [addIONode, names_modifyNode, mem_names_createNode]

theorem latches_addIONodes {type : Name} (ports : List Name) :
    (ports.foldl (fun network port => network.addIONode port type) network).latches =
      network.latches :=
  foldl_eq (fun network : LogicNetwork => network.latches) (fun network port => by
    rw [addIONode, latches_modifyNode, latches_createNode]) ports network

theorem moduleName_addIONodes {type : Name} (ports : List Name) :
    (ports.foldl (fun network port => network.addIONode port type) network).moduleName =
      network.moduleName :=
  foldl_eq (fun network : LogicNetwork => network.moduleName) (fun network port => by
    rw [addIONode, moduleName_modifyNode, moduleName_createNode]) ports network

theorem mem_names_addLogicGate {inputs : List Name} {output : Name} {function : List Char} :
    name ∈ (network.addLogicGate address inputs output function).names ↔
      name ∈ network.names ∨ name = output ∨ name ∈ inputs := by
  rw [addLogicGate, foldl_iff (fun network : LogicNetwork => name ∈ network.names)
    fun input => name = input]
  · simp [or_assoc]
  · intro network input
    rw [addEdge, names_modifyNode, names_modifyNode, mem_names_createNode]

theorem latches_addLogicGate (inputs : List Name) (output : Name) (function : List Char) :
    (network.addLogicGate address inputs output function).latches = network.latches := by
  rw [addLogicGate, foldl_eq fun network : LogicNetwork => network.latches]
  · rw [latches_modifyNode, latches_createNode]
  · intro network input
    rw [addEdge, latches_modifyNode, latches_modifyNode, latches_createNode]

theorem moduleName_addLogicGate (inputs : List Name) (output : Name) (function : List Char) :
    (network.addLogicGate address inputs output function).moduleName = network.moduleName := by
  rw [addLogicGate, foldl_eq fun network : LogicNetwork => network.moduleName]
  · rw [moduleName_modifyNode, moduleName_createNode]
  · intro network input
    rw [addEdge, moduleName_modifyNode, moduleName_modifyNode, moduleName_createNode]

end LogicNetwork

/-! ### What a statement says -/

namespace Statement

def declaresInput (name : Name) : Statement → Prop
  | .inputs nodeNames => name ∈ nodeNames ∧ name ≠ "rst".toList
  | _ => False

def declaresOutput (name : Name) : Statement → Prop
  | .outputs nodeNames => name ∈ nodeNames ∧ name ≠ "rst".toList
  | _ => False

def latch? : Statement → Option (Name × Name)
  | .latch input output _ => some (input, output)
  | _ => none

def entersLatch (name : Name) : Statement → Prop
  | .latch input _ _ => name = input
  | _ => False

def leavesLatch (name : Name) : Statement → Prop
  | .latch _ output _ => name = output
  | _ => False

/-- A node is an input of a gate. -/
def feeds (fanin name : Name) : Statement → Prop
  | .names fanins output _ => name = output ∧ fanin ∈ fanins
  | _ => False

def gives (name : Name) (function : List Char) : Statement → Prop
  | .names _ output itsFunction => name = output ∧ function = itsFunction
  | _ => False

def isConstant (name : Name) (value : List Char) : Statement → Prop
  | .names [] output function => name = output ∧ function = value
  | _ => False

def mentions (name : Name) : Statement → Prop
  | .inputs nodeNames => name ∈ nodeNames ∧ name ≠ "rst".toList
  | .outputs nodeNames => name ∈ nodeNames ∧ name ≠ "rst".toList
  | .latch input output _ => name = input ∨ name = output
  | .names fanins output _ => name = output ∨ name ∈ fanins
  | _ => False

variable {address : Name → Nat} {network : LogicNetwork} {name : Name} (statement : Statement)

theorem isInput_apply :
    ((statement.apply address network).node name).isInput = true ↔
      (network.node name).isInput = true ∨ statement.declaresInput name := by
  cases statement with
  | ignored => simp [declaresInput]
  | model args => simp [declaresInput]
  | inputs nodeNames =>
      rw [apply_inputs, LogicNetwork.flag_addIONodes (by simp [Node.configureIONode])]
      simp [declaresInput]
  | outputs nodeNames =>
      rw [apply_outputs, LogicNetwork.field_addIONodes Node.isInput fun node => by
        dsimp only [Node.configureIONode]
        rw [decide_eq_false (by decide), Bool.or_false]]
      simp [declaresInput]
  | latch input output more =>
      rw [apply_latch, LogicNetwork.node_addLatch]
      simp [declaresInput]
  | names inputs output function =>
      cases inputs with
      | nil =>
          rw [apply_constant, LogicNetwork.node_addConstantNode]
          split <;> simp [declaresInput, Node.configureConstantNode]
      | cons first others =>
          rw [apply_gate, LogicNetwork.field_addLogicGate Node.isInput fun _ _ _ _ => rfl]
          simp [declaresInput]

theorem isOutput_apply :
    ((statement.apply address network).node name).isOutput = true ↔
      (network.node name).isOutput = true ∨ statement.declaresOutput name := by
  cases statement with
  | ignored => simp [declaresOutput]
  | model args => simp [declaresOutput]
  | inputs nodeNames =>
      rw [apply_inputs, LogicNetwork.field_addIONodes Node.isOutput fun node => by
        dsimp only [Node.configureIONode]
        rw [decide_eq_false (by decide), Bool.or_false]]
      simp [declaresOutput]
  | outputs nodeNames =>
      rw [apply_outputs, LogicNetwork.flag_addIONodes (by simp [Node.configureIONode])]
      simp [declaresOutput]
  | latch input output more =>
      rw [apply_latch, LogicNetwork.node_addLatch]
      simp [declaresOutput]
  | names inputs output function =>
      cases inputs with
      | nil =>
          rw [apply_constant, LogicNetwork.node_addConstantNode]
          split <;> simp [declaresOutput, Node.configureConstantNode]
      | cons first others =>
          rw [apply_gate, LogicNetwork.field_addLogicGate Node.isOutput fun _ _ _ _ => rfl]
          simp [declaresOutput]

theorem isLatchInput_apply :
    ((statement.apply address network).node name).isLatchInput = true ↔
      (network.node name).isLatchInput = true ∨ statement.entersLatch name := by
  cases statement with
  | ignored => simp [entersLatch]
  | model args => simp [entersLatch]
  | inputs nodeNames =>
      rw [apply_inputs, LogicNetwork.field_addIONodes Node.isLatchInput fun _ => rfl]
      simp [entersLatch]
  | outputs nodeNames =>
      rw [apply_outputs, LogicNetwork.field_addIONodes Node.isLatchInput fun _ => rfl]
      simp [entersLatch]
  | latch input output more =>
      rw [apply_latch, LogicNetwork.node_addLatch]
      simp [entersLatch]
  | names inputs output function =>
      cases inputs with
      | nil =>
          rw [apply_constant, LogicNetwork.node_addConstantNode]
          split <;> simp [entersLatch, Node.configureConstantNode]
      | cons first others =>
          rw [apply_gate, LogicNetwork.field_addLogicGate Node.isLatchInput fun _ _ _ _ => rfl]
          simp [entersLatch]

theorem isLatchOutput_apply :
    ((statement.apply address network).node name).isLatchOutput = true ↔
      (network.node name).isLatchOutput = true ∨ statement.leavesLatch name := by
  cases statement with
  | ignored => simp [leavesLatch]
  | model args => simp [leavesLatch]
  | inputs nodeNames =>
      rw [apply_inputs, LogicNetwork.field_addIONodes Node.isLatchOutput fun _ => rfl]
      simp [leavesLatch]
  | outputs nodeNames =>
      rw [apply_outputs, LogicNetwork.field_addIONodes Node.isLatchOutput fun _ => rfl]
      simp [leavesLatch]
  | latch input output more =>
      rw [apply_latch, LogicNetwork.node_addLatch]
      simp [leavesLatch]
  | names inputs output function =>
      cases inputs with
      | nil =>
          rw [apply_constant, LogicNetwork.node_addConstantNode]
          split <;> simp [leavesLatch, Node.configureConstantNode]
      | cons first others =>
          rw [apply_gate, LogicNetwork.field_addLogicGate Node.isLatchOutput fun _ _ _ _ => rfl]
          simp [leavesLatch]

theorem isConstZero_apply :
    ((statement.apply address network).node name).isConstZero = true ↔
      (network.node name).isConstZero = true ∨ statement.isConstant name ['0'] := by
  cases statement with
  | ignored => simp [isConstant]
  | model args => simp [isConstant]
  | inputs nodeNames =>
      rw [apply_inputs, LogicNetwork.field_addIONodes Node.isConstZero fun _ => rfl]
      simp [isConstant]
  | outputs nodeNames =>
      rw [apply_outputs, LogicNetwork.field_addIONodes Node.isConstZero fun _ => rfl]
      simp [isConstant]
  | latch input output more =>
      rw [apply_latch, LogicNetwork.node_addLatch]
      simp [isConstant]
  | names inputs output function =>
      cases inputs with
      | nil =>
          rw [apply_constant, LogicNetwork.node_addConstantNode]
          split <;> simp_all [isConstant, Node.configureConstantNode]
      | cons first others =>
          rw [apply_gate, LogicNetwork.field_addLogicGate Node.isConstZero fun _ _ _ _ => rfl]
          simp [isConstant]

theorem isConstOne_apply :
    ((statement.apply address network).node name).isConstOne = true ↔
      (network.node name).isConstOne = true ∨ statement.isConstant name ['1'] := by
  cases statement with
  | ignored => simp [isConstant]
  | model args => simp [isConstant]
  | inputs nodeNames =>
      rw [apply_inputs, LogicNetwork.field_addIONodes Node.isConstOne fun _ => rfl]
      simp [isConstant]
  | outputs nodeNames =>
      rw [apply_outputs, LogicNetwork.field_addIONodes Node.isConstOne fun _ => rfl]
      simp [isConstant]
  | latch input output more =>
      rw [apply_latch, LogicNetwork.node_addLatch]
      simp [isConstant]
  | names inputs output function =>
      cases inputs with
      | nil =>
          rw [apply_constant, LogicNetwork.node_addConstantNode]
          split
          case isTrue same =>
            simp only [isConstant, same, Node.configureConstantNode, true_and, Bool.or_eq_true,
              decide_eq_true_eq]
            exact or_congr_right ⟨And.right, fun one => ⟨by simp [one], one⟩⟩
          case isFalse apart => simp [isConstant, apart]
      | cons first others =>
          rw [apply_gate, LogicNetwork.field_addLogicGate Node.isConstOne fun _ _ _ _ => rfl]
          simp [isConstant]

theorem isBlackboxOutput_apply :
    ((statement.apply address network).node name).isBlackboxOutput =
      (network.node name).isBlackboxOutput := by
  cases statement with
  | ignored => rfl
  | model args => rfl
  | inputs nodeNames =>
      rw [apply_inputs, LogicNetwork.field_addIONodes Node.isBlackboxOutput fun _ => rfl]
  | outputs nodeNames =>
      rw [apply_outputs, LogicNetwork.field_addIONodes Node.isBlackboxOutput fun _ => rfl]
  | latch input output more => rw [apply_latch, LogicNetwork.node_addLatch]
  | names inputs output function =>
      cases inputs with
      | nil =>
          rw [apply_constant, LogicNetwork.node_addConstantNode]
          split <;> rfl
      | cons first others =>
          rw [apply_gate, LogicNetwork.field_addLogicGate Node.isBlackboxOutput fun _ _ _ _ => rfl]

theorem mem_fanins_apply {fanin : Name} :
    fanin ∈ ((statement.apply address network).node name).fanins ↔
      fanin ∈ (network.node name).fanins ∨ statement.feeds fanin name := by
  cases statement with
  | ignored => simp [feeds]
  | model args => simp [feeds]
  | inputs nodeNames =>
      rw [apply_inputs, LogicNetwork.field_addIONodes Node.fanins fun _ => rfl]
      simp [feeds]
  | outputs nodeNames =>
      rw [apply_outputs, LogicNetwork.field_addIONodes Node.fanins fun _ => rfl]
      simp [feeds]
  | latch input output more =>
      rw [apply_latch, LogicNetwork.node_addLatch]
      simp [feeds]
  | names inputs output function =>
      cases inputs with
      | nil =>
          rw [apply_constant, LogicNetwork.node_addConstantNode]
          split <;> simp [feeds, Node.configureConstantNode]
      | cons first others => exact LogicNetwork.mem_fanins_addLogicGate

/-- A statement that gives a node a function replaces the one it had. -/
theorem function_apply :
    statement.gives name ((statement.apply address network).node name).function ∨
      (∀ function, ¬ statement.gives name function) ∧
        ((statement.apply address network).node name).function = (network.node name).function := by
  cases statement with
  | ignored => exact .inr ⟨fun _ => id, rfl⟩
  | model args => exact .inr ⟨fun _ => id, rfl⟩
  | inputs nodeNames =>
      exact .inr ⟨fun _ => id, LogicNetwork.field_addIONodes Node.function (fun _ => rfl) _⟩
  | outputs nodeNames =>
      exact .inr ⟨fun _ => id, LogicNetwork.field_addIONodes Node.function (fun _ => rfl) _⟩
  | latch input output more =>
      refine .inr ⟨fun _ => id, ?_⟩
      rw [apply_latch, LogicNetwork.node_addLatch]
  | names inputs output function =>
      by_cases same : name = output
      · refine .inl ⟨same, ?_⟩
        cases inputs with
        | nil =>
            rw [apply_constant, LogicNetwork.node_addConstantNode, if_pos same]
            rfl
        | cons first others => rw [apply_gate, LogicNetwork.function_addLogicGate, if_pos same]
      · refine .inr ⟨fun _ given => same given.1, ?_⟩
        cases inputs with
        | nil => rw [apply_constant, LogicNetwork.node_addConstantNode, if_neg same]
        | cons first others => rw [apply_gate, LogicNetwork.function_addLogicGate, if_neg same]

theorem mem_names_apply :
    name ∈ (statement.apply address network).names ↔
      name ∈ network.names ∨ statement.mentions name := by
  cases statement with
  | ignored => simp [mentions]
  | model args => simp [mentions]
  | inputs nodeNames =>
      rw [apply_inputs, LogicNetwork.mem_names_addIONodes]
      simp [mentions]
  | outputs nodeNames =>
      rw [apply_outputs, LogicNetwork.mem_names_addIONodes]
      simp [mentions]
  | latch input output more => simp [apply_latch, LogicNetwork.addLatch, mentions, or_assoc]
  | names inputs output function =>
      cases inputs with
      | nil => simp [apply_constant, LogicNetwork.addConstantNode, mentions]
      | cons first others => exact LogicNetwork.mem_names_addLogicGate

theorem latches_apply :
    (statement.apply address network).latches = network.latches ++ statement.latch?.toList := by
  cases statement with
  | ignored => exact (List.append_nil _).symm
  | model args => exact (List.append_nil _).symm
  | inputs nodeNames => exact (LogicNetwork.latches_addIONodes _).trans (List.append_nil _).symm
  | outputs nodeNames => exact (LogicNetwork.latches_addIONodes _).trans (List.append_nil _).symm
  | latch input output more => simp [apply_latch, LogicNetwork.addLatch, latch?]
  | names inputs output function =>
      cases inputs with
      | nil => simp [apply_constant, LogicNetwork.addConstantNode, latch?]
      | cons first others =>
          exact (LogicNetwork.latches_addLogicGate _ _ _).trans (List.append_nil _).symm

theorem sorted_addLogicGate (injective : Function.Injective address)
    (sorted : ∀ name, (network.node name).fanins.Pairwise
      fun first second => address first < address second)
    (inputs : List Name) (output : Name) (function : List Char) (name : Name) :
    ((network.addLogicGate address inputs output function).node name).fanins.Pairwise
      fun first second => address first < address second := by
  have start : ∀ name, (((network.createNode output).modifyNode output fun node =>
      { node with function := function }).node name).fanins.Pairwise
        fun first second => address first < address second := by
    intro name
    rw [LogicNetwork.node_modifyNode, LogicNetwork.node_createNode]
    split <;> exact sorted name
  rw [LogicNetwork.addLogicGate]
  generalize (network.createNode output).modifyNode output _ = network at start
  induction inputs generalizing network with
  | nil => exact start name
  | cons input inputs inductionHypothesis =>
      refine inductionHypothesis _ fun name => ?_
      rw [LogicNetwork.node_addEdge, LogicNetwork.node_createNode]
      dsimp only
      split
      · exact sorted_insertNode injective (start name)
      · exact start name

theorem sorted_apply (injective : Function.Injective address)
    (sorted : ∀ name, (network.node name).fanins.Pairwise
      fun first second => address first < address second) (name : Name) :
    ((statement.apply address network).node name).fanins.Pairwise
      fun first second => address first < address second := by
  cases statement with
  | ignored => exact sorted name
  | model args => exact sorted name
  | inputs nodeNames =>
      rw [apply_inputs, LogicNetwork.field_addIONodes Node.fanins fun _ => rfl]
      exact sorted name
  | outputs nodeNames =>
      rw [apply_outputs, LogicNetwork.field_addIONodes Node.fanins fun _ => rfl]
      exact sorted name
  | latch input output more =>
      rw [apply_latch, LogicNetwork.node_addLatch]
      exact sorted name
  | names inputs output function =>
      cases inputs with
      | nil =>
          rw [apply_constant, LogicNetwork.node_addConstantNode]
          split <;> exact sorted name
      | cons first others => exact sorted_addLogicGate injective sorted _ _ _ _

theorem moduleName_apply :
    (statement.apply address network).moduleName = network.moduleName ∨
      ∃ args, statement = .model args ∧
        (statement.apply address network).moduleName = args.headD [] := by
  cases statement with
  | ignored => exact .inl rfl
  | model args => exact .inr ⟨args, rfl, rfl⟩
  | inputs nodeNames => exact .inl (LogicNetwork.moduleName_addIONodes _)
  | outputs nodeNames => exact .inl (LogicNetwork.moduleName_addIONodes _)
  | latch input output more => exact .inl (by simp [apply_latch, LogicNetwork.addLatch])
  | names inputs output function =>
      cases inputs with
      | nil => exact .inl (by simp [apply_constant, LogicNetwork.addConstantNode])
      | cons first others => exact .inl (LogicNetwork.moduleName_addLogicGate _ _ _)

end Statement

/-! ### What the statements of a file say -/

/-- What a network holds of a list of statements. -/
structure Holds (address : Name → Nat) (statements : List Statement) (network : LogicNetwork) :
    Prop where
  isInput : ∀ name, (network.node name).isInput = true ↔
    ∃ statement ∈ statements, statement.declaresInput name
  isOutput : ∀ name, (network.node name).isOutput = true ↔
    ∃ statement ∈ statements, statement.declaresOutput name
  isLatchInput : ∀ name, (network.node name).isLatchInput = true ↔
    ∃ statement ∈ statements, statement.entersLatch name
  isLatchOutput : ∀ name, (network.node name).isLatchOutput = true ↔
    ∃ statement ∈ statements, statement.leavesLatch name
  isConstZero : ∀ name, (network.node name).isConstZero = true ↔
    ∃ statement ∈ statements, statement.isConstant name ['0']
  isConstOne : ∀ name, (network.node name).isConstOne = true ↔
    ∃ statement ∈ statements, statement.isConstant name ['1']
  isBlackboxOutput : ∀ name, (network.node name).isBlackboxOutput = false
  fanins : ∀ name fanin, fanin ∈ network.fanins name ↔
    ∃ statement ∈ statements, statement.feeds fanin name
  sorted : ∀ name, (network.fanins name).Pairwise
    fun first second => address first < address second
  function : ∀ name, (∃ statement ∈ statements,
      statement.gives name (network.node name).function) ∨
    (∀ function, ∀ statement ∈ statements, ¬ statement.gives name function) ∧
      (network.node name).function = []
  names : ∀ name, name ∈ network.names ↔ ∃ statement ∈ statements, statement.mentions name
  latches : network.latches = statements.filterMap Statement.latch?
  moduleName : network.moduleName = [] ∨
    ∃ args, .model args ∈ statements ∧ network.moduleName = args.headD []

section Fold

variable {address : Name → Nat}

private theorem sorted_foldl (injective : Function.Injective address)
    (statements : List Statement) (name : Name) :
    ((statements.foldl (Statement.apply address) .empty).fanins name).Pairwise
      fun first second => address first < address second := by
  induction statements using List.reverseRecOn generalizing name with
  | nil => exact List.Pairwise.nil
  | append_singleton statements statement inductionHypothesis =>
      rw [List.foldl_append]
      exact statement.sorted_apply injective inductionHypothesis name

/-- The last statement that gives a node a function stands. -/
private theorem function_foldl (statements : List Statement) (name : Name) :
    let node := (statements.foldl (Statement.apply address) .empty).node name
    (∃ statement ∈ statements, statement.gives name node.function) ∨
      (∀ function, ∀ statement ∈ statements, ¬ statement.gives name function) ∧
        node.function = [] := by
  induction statements using List.reverseRecOn with
  | nil => exact .inr ⟨fun _ _ mem => (by cases mem), rfl⟩
  | append_singleton statements statement inductionHypothesis =>
      rw [List.foldl_append]
      dsimp only [List.foldl_cons, List.foldl_nil] at inductionHypothesis ⊢
      rcases @Statement.function_apply address
        (statements.foldl (Statement.apply address) .empty) name statement
        with given | ⟨notGiven, same⟩
      · exact .inl ⟨statement, by simp, given⟩
      · rw [same]
        refine inductionHypothesis.imp ?_ (And.imp_left ?_)
        · rintro ⟨earlier, mem, given⟩
          exact ⟨earlier, List.mem_append_left _ mem, given⟩
        · intro none function other mem
          rcases List.mem_append.mp mem with mem | mem
          · exact none function other mem
          · rw [List.mem_singleton.mp mem]
            exact notGiven function

private theorem latches_foldl (statements : List Statement) :
    (statements.foldl (Statement.apply address) .empty).latches =
      statements.filterMap Statement.latch? := by
  induction statements using List.reverseRecOn with
  | nil => rfl
  | append_singleton statements statement inductionHypothesis =>
      rw [List.foldl_append, List.foldl_cons, List.foldl_nil, Statement.latches_apply,
        inductionHypothesis, List.filterMap_append]
      cases same : statement.latch? <;> simp [same]

private theorem moduleName_foldl (statements : List Statement) :
    let network := statements.foldl (Statement.apply address) .empty
    network.moduleName = [] ∨
      ∃ args, .model args ∈ statements ∧ network.moduleName = args.headD [] := by
  induction statements using List.reverseRecOn with
  | nil => exact .inl rfl
  | append_singleton statements statement inductionHypothesis =>
      rw [List.foldl_append]
      dsimp only [List.foldl_cons, List.foldl_nil] at inductionHypothesis ⊢
      rcases @Statement.moduleName_apply address
        (statements.foldl (Statement.apply address) .empty) statement
        with same | ⟨args, rfl, named⟩
      · rw [same]
        refine inductionHypothesis.imp_right ?_
        rintro ⟨args, mem, named⟩
        exact ⟨args, List.mem_append_left _ mem, named⟩
      · exact .inr ⟨args, by simp, named⟩

/-- The network that the statements of a file make holds what they say. -/
theorem holds_foldl (injective : Function.Injective address) (statements : List Statement) :
    Holds address statements (statements.foldl (Statement.apply address) .empty) := by
  have added : ∀ (holds : LogicNetwork → Prop) (adds : Statement → Prop), ¬ holds .empty →
      (∀ network statement, holds (Statement.apply address network statement) ↔
        holds network ∨ adds statement) →
      (holds (statements.foldl (Statement.apply address) .empty) ↔
        ∃ statement ∈ statements, adds statement) := by
    intro holds adds start one
    rw [foldl_iff holds adds one]
    exact or_iff_right start
  have flagged : ∀ (flag : Node → Bool) (adds : Statement → Prop) (name : Name),
      flag .new = false →
      (∀ network statement, flag ((Statement.apply address network statement).node name) = true ↔
        flag (network.node name) = true ∨ adds statement) →
      (flag ((statements.foldl (Statement.apply address) .empty).node name) = true ↔
        ∃ statement ∈ statements, adds statement) := by
    intro flag adds name start one
    refine added (fun network => flag (network.node name) = true) adds ?_ one
    show ¬ flag .new = true
    rw [start]
    exact Bool.false_ne_true
  exact {
    isInput := fun name => flagged Node.isInput _ name rfl fun _ => Statement.isInput_apply
    isOutput := fun name => flagged Node.isOutput _ name rfl fun _ => Statement.isOutput_apply
    isLatchInput := fun name =>
      flagged Node.isLatchInput _ name rfl fun _ => Statement.isLatchInput_apply
    isLatchOutput := fun name =>
      flagged Node.isLatchOutput _ name rfl fun _ => Statement.isLatchOutput_apply
    isConstZero := fun name =>
      flagged Node.isConstZero _ name rfl fun _ => Statement.isConstZero_apply
    isConstOne := fun name => flagged Node.isConstOne _ name rfl fun _ => Statement.isConstOne_apply
    isBlackboxOutput := fun name =>
      foldl_eq (fun network : LogicNetwork => (network.node name).isBlackboxOutput)
        (fun _ => Statement.isBlackboxOutput_apply) statements .empty
    fanins := fun name fanin => added (fun network => fanin ∈ network.fanins name) _
      (fun mem => by cases mem) fun _ statement => statement.mem_fanins_apply
    sorted := sorted_foldl injective statements
    function := function_foldl statements
    names := fun name => added (fun network => name ∈ network.names) _ (fun mem => by cases mem)
      fun _ => Statement.mem_names_apply
    latches := latches_foldl statements
    moduleName := moduleName_foldl statements }

end Fold

end Dynamatic.Blif
