import Dynamatic.Blif.RoundTrip
import Dynamatic.ControlFlow.Frontier
import Dynamatic.Numerals
import Mathlib.Data.List.Destutter

/-!
# LUT cuts

The cuts that `generateCuts` finds for the nodes of a network. A wavy line of nodes grows from the
primary inputs: a node joins it if the nodes of the line that a search from the node meets first,
its wavy inputs, are no more than a LUT has inputs. A second run starts from the channels too.
Whatever the line, the wavy inputs of a node are a cut; without channels no node drops out of a
line, and so the line grows until every node has one.
-/

namespace Dynamatic.Blif

open Dynamatic.ControlFlow

structure Cut where
  depth : Nat
  root : Name
  leaves : List Name
  deriving DecidableEq

/-- The cuts of each node, none for a node that is not in the map. -/
abbrev NodeToCuts := Name → List Cut

/-- `std::sort`, which may order what compares equal in any way. -/
structure Sorter where
  sort : (Cut → Cut → Bool) → List Cut → List Cut
  perm : ∀ precedes cuts, (sort precedes cuts).Perm cuts

namespace Cut

/-- `std::lexicographical_compare` on names. -/
def lexicographicalCompare : List Name → List Name → Bool
  | _, [] => false
  | [], _ :: _ => true
  | first :: firsts, second :: seconds =>
      if first < second then true
      else if second < first then false
      else lexicographicalCompare firsts seconds

def precedes (first second : Cut) : Bool :=
  if first.leaves.length ≠ second.leaves.length then
    decide (first.leaves.length < second.leaves.length)
  else lexicographicalCompare first.leaves second.leaves

def sameLeaves (first second : Cut) : Bool :=
  if first.leaves.length ≠ second.leaves.length then false
  else decide (first.leaves = second.leaves)

end Cut

/-- `std::unique` keeps the first of a run of cuts with the same leaves. -/
def sortAndEraseCuts (sorter : Sorter) (cuts : NodeToCuts) : NodeToCuts := fun node =>
  (sorter.sort Cut.precedes (cuts node)).destutter
    fun first second => ¬ first.sameLeaves second = true

namespace LogicNetwork

variable (address : Name → Nat) (network : LogicNetwork)

def getPrimaryInputs : List Name := network.getNodes address Node.isPrimaryInput

def getChannels : List Name := network.getNodes address Node.isChannelEdge

/-- Insert nodes in a set, one after another. -/
def insertNodes (names line : List Name) : List Name :=
  names.foldl (fun line name => insertNode address name line) line

open Numerals in
/-- A line without the node itself, if it is a channel. -/
def erased (node : Name) (wavyLine : List Name) : List Name :=
  if (network.node node).isChannelEdge && decide (node ∈ wavyLine) then
    wavyLine.filter fun other => decide (other ≠ node)
  else wavyLine

open Numerals in
/-- The depth of the search is bounded by the number of the nodes. -/
def findWavyInputsOfNode (node : Name) (wavyLine : List Name) : List Name :=
  setOf address (Frontier.search network.fanins
    (fun other => decide (other ∈ network.erased node wavyLine)) (network.names.length + 1) node
    ([], [])).2

/-- The next line and the cuts, when the nodes are visited in their order. -/
def expand (lutSize expansionCount : Nat) (currentWavyLine : List Name) (cuts : NodeToCuts) :
    List Name × NodeToCuts :=
  network.nodesTopologicalOrder.foldl (fun (nextWavyLine, cuts) currentNode =>
    let wavyInputs := network.findWavyInputsOfNode address currentNode currentWavyLine
    if wavyInputs.length ≤ lutSize then
      (insertNode address currentNode nextWavyLine,
        Function.update cuts currentNode
          (cuts currentNode ++ [⟨expansionCount, currentNode, wavyInputs⟩]))
    else (nextWavyLine, cuts)) ([], cuts)

def expansionWithChannels : Nat := 6

/-- Expand the line until it has as many nodes as the next one, or the limit is met. Without
fuel the loop has not ended. -/
def cutLoop (lutSize : Nat) (includeChannels : Bool) :
    Nat → List Name → Nat → NodeToCuts → Option NodeToCuts
  | 0, _, _, _ => none
  | fuel + 1, currentWavyLine, expansionCount, cuts =>
      if !includeChannels || decide (expansionCount < expansionWithChannels) then
        let (nextWavyLine, cuts) :=
          network.expand address lutSize expansionCount currentWavyLine cuts
        if nextWavyLine.length = currentWavyLine.length then some cuts
        else
          cutLoop lutSize includeChannels fuel (insertNodes address nextWavyLine currentWavyLine)
            (expansionCount + 1) cuts
      else some cuts

def cutAlgorithm (lutSize : Nat) (includeChannels : Bool) (fuel : Nat) : Option NodeToCuts :=
  let primaryInputs := network.getPrimaryInputs address
  let currentWavyLine :=
    if includeChannels then insertNodes address (network.getChannels address) primaryInputs
    else primaryInputs
  network.cutLoop address lutSize includeChannels fuel currentWavyLine 0 fun _ => []

def generateCuts (sorter : Sorter) (lutSize fuel : Nat) : Option NodeToCuts := do
  let cutsWithoutChannels ← network.cutAlgorithm address lutSize false fuel
  let cutsWithChannels ← network.cutAlgorithm address lutSize true fuel
  return sortAndEraseCuts sorter fun node => cutsWithoutChannels node ++ cutsWithChannels node

/-! ### Logic networks -/

/-- An acyclic network of gates with at most two fanins. -/
structure IsAcyclic : Prop where
  closed : ∀ name ∈ network.names, network.fanins name ⊆ network.names
  acyclic : ∀ name ∈ network.names,
    ¬ Relation.TransGen (fun fanin name => fanin ∈ network.fanins name) name name
  twoFanins : ∀ name ∈ network.names, (network.fanins name).length ≤ 2

/-- An acyclic network whose primary inputs no gate drives. -/
structure IsLogic : Prop extends IsAcyclic network where
  undriven : ∀ name ∈ network.names, (network.node name).isPrimaryInput = true →
    network.fanins name = []

/-- The order holds the primary inputs and, with a gate, its fanins. -/
structure IsOrdered : Prop where
  isNode : network.nodesTopologicalOrder ⊆ network.names
  primary : ∀ name ∈ network.names, (network.node name).isPrimaryInput = true →
    name ∈ network.nodesTopologicalOrder
  fanins : ∀ name ∈ network.nodesTopologicalOrder, (network.node name).isPrimaryInput = false →
    network.fanins name ⊆ network.nodesTopologicalOrder

/-- What each node computes is a function of the values of its fanins. -/
def ReadsFanins (meaning : Name → (Name → Bool) → Bool) : Prop :=
  ∀ name ∈ network.names, ∀ values others : Name → Bool,
    (∀ fanin ∈ network.fanins name, values fanin = others fanin) →
      meaning name values = meaning name others

/-- Values in which every node but the primary inputs has the value that it computes. -/
def Computed (meaning : Name → (Name → Bool) → Bool) (values : Name → Bool) : Prop :=
  ∀ name ∈ network.names, (network.node name).isPrimaryInput = false →
    values name = meaning name values

/-- Whatever the nodes compute, the values of the leaves fix that of the node. -/
def Determines (leaves : List Name) (node : Name) : Prop :=
  ∀ meaning, network.ReadsFanins meaning → ∀ values others, network.Computed meaning values →
    network.Computed meaning others → (∀ leaf ∈ leaves, values leaf = others leaf) →
      values node = others node

/-- Every path from another primary input to the node passes through a leaf. -/
def Crosses (leaves : List Name) (node : Name) : Prop :=
  ∀ (path : List Name) (input : Name), path.IsChain (fun fanin name => fanin ∈ network.fanins name) →
    path.head? = some input → path.getLast? = some node → input ∈ network.names →
      (network.node input).isPrimaryInput = true → input ≠ node → ∃ leaf ∈ path, leaf ∈ leaves

/-- A cut of a node that fits a LUT. -/
structure IsCut (lutSize : Nat) (node : Name) (cut : Cut) : Prop where
  root : cut.root = node
  distinct : cut.leaves.Nodup
  few : cut.leaves.length ≤ lutSize
  crosses : network.Crosses cut.leaves node
  determines : (network.node node).isPrimaryInput = false → network.Determines cut.leaves node

section Order

variable {address network}

theorem topologicalOrderUtil_subset
    (closed : ∀ name ∈ network.names, network.fanins name ⊆ network.names) {name : Name}
    (isNode : name ∈ network.names) {state : List Name × List Name}
    (within : state.2 ⊆ network.names) :
    (network.topologicalOrderUtil name state).2 ⊆ network.names := by
  obtain ⟨way, order⟩ := state
  obtain ⟨added, same, parented⟩ :=
    @PostOrder.parented_visit _ _ network.fanins (network.names.length + 1) name way order
  rw [topologicalOrderUtil, same]
  refine List.append_subset.mpr ⟨within, parented.subset ?_ closed⟩
  exact List.cons_subset.mpr ⟨isNode, List.nil_subset _⟩

theorem isOrdered_generateTopologicalOrder
    (closed : ∀ name ∈ network.names, network.fanins name ⊆ network.names) :
    (network.generateTopologicalOrder address).IsOrdered where
  isNode := by
    have all : ∀ outputs, outputs ⊆ network.names → ∀ state : List Name × List Name,
        state.2 ⊆ network.names →
          (outputs.foldl (fun state name => network.topologicalOrderUtil name state) state).2 ⊆
            network.names := by
      intro outputs
      induction outputs with
      | nil => exact fun _ state within => within
      | cons output outputs inductionHypothesis =>
          intro areNodes state within
          obtain ⟨isNode, areNodes⟩ := List.cons_subset.mp areNodes
          exact inductionHypothesis areNodes _ (topologicalOrderUtil_subset closed isNode within)
    exact all _ (fun _ mem => (mem_getNodes.mp mem).1) _ fun _ mem => (mem_getNodes.mp mem).1
  primary := fun name isNode isPrimary => primaryInput_listed closed isNode isPrimary
  fanins := fun name listed isInner fanin feeds => fanin_listed closed isInner listed feeds

end Order

end LogicNetwork

end Dynamatic.Blif
