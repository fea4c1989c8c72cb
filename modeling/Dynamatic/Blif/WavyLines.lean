import Dynamatic.Blif.Cuts

/-!
# Wavy lines

The wavy inputs of a node are the frontier of a search from it, so they are a cut of the node for
any line that holds the primary inputs. A line whose nodes have their fanins in it stays within
the next one; when the two are of one size they are the same, and then no node is missing.
-/

namespace Dynamatic.Blif.LogicNetwork

open Dynamatic.ControlFlow

variable {address : Name → Nat} {network : LogicNetwork} {lutSize : Nat}

/-! ### Sets -/

theorem mem_insertNodes {names line : List Name} {name : Name} :
    name ∈ insertNodes address names line ↔ name ∈ line ∨ name ∈ names := by
  rw [insertNodes, foldl_iff (fun line => name ∈ line) (fun other => name = other)
    (fun _ _ => mem_insertNode.trans or_comm)]
  simp

/-- A set of nodes lists them by their addresses. -/
def Sorted (address : Name → Nat) (names : List Name) : Prop :=
  names.Pairwise fun first second => address first < address second

section Sorted

variable (injective : Function.Injective address)
include injective

theorem sorted_insertNodes {names line : List Name} (sorted : Sorted address line) :
    Sorted address (insertNodes address names line) := by
  induction names generalizing line with
  | nil => exact sorted
  | cons name names inductionHypothesis =>
      exact inductionHypothesis (sorted_insertNode injective sorted)

theorem sorted_setOf {names : List Name} : Sorted address (setOf address names) := by
  induction names with
  | nil => exact List.Pairwise.nil
  | cons name names inductionHypothesis => exact sorted_insertNode injective inductionHypothesis

end Sorted

theorem Sorted.nodup {names : List Name} (sorted : Sorted address names) : names.Nodup := by
  refine List.Pairwise.imp (fun less => ?_) sorted
  rintro rfl
  exact Nat.lt_irrefl _ less

/-! ### Wavy inputs -/

section WavyInputs

variable {node leaf : Name} {wavyLine : List Name}

theorem mem_erased {other : Name} (mem : other ∈ wavyLine) (apart : other ≠ node) :
    other ∈ network.erased node wavyLine := by
  rw [erased]
  split
  · simp [mem, apart]
  · exact mem

/-- Only a node of the line is erased from it. -/
theorem erased_of_not_mem (outside : node ∉ wavyLine) :
    network.erased node wavyLine = wavyLine := by
  rw [erased]
  simp [outside]

open Numerals in
/-- A node of a line that a path from a node meets first. -/
abbrev Meets (network : LogicNetwork) (node : Name) (wavyLine : List Name) : Name → Name → Prop :=
  Frontier.Meets network.fanins fun other => decide (other ∈ network.erased node wavyLine)

theorem mem_findWavyInputsOfNode (logic : network.IsLogic) (isNode : node ∈ network.names) :
    leaf ∈ network.findWavyInputsOfNode address node wavyLine ↔
      network.Meets node wavyLine node leaf :=
  mem_setOf.trans (Frontier.mem_search logic.closed isNode)

theorem nodup_findWavyInputsOfNode (injective : Function.Injective address) :
    (network.findWavyInputsOfNode address node wavyLine).Nodup :=
  (sorted_setOf injective).nodup

/-- The wavy inputs of a node are a cut, if there are few enough and the line holds the primary
inputs. -/
theorem isCut_findWavyInputsOfNode (injective : Function.Injective address)
    (logic : network.IsLogic) (isNode : node ∈ network.names)
    (primary : ∀ name ∈ network.names, (network.node name).isPrimaryInput = true →
      name ∈ wavyLine)
    (few : (network.findWavyInputsOfNode address node wavyLine).length ≤ lutSize) (depth : Nat) :
    network.IsCut lutSize node
      ⟨depth, node, network.findWavyInputsOfNode address node wavyLine⟩ where
  root := rfl
  distinct := nodup_findWavyInputsOfNode injective
  few := few
  crosses := fun path input chain starts ends isInput isPrimary apart => by
    have stopped : decide (input ∈ network.erased node wavyLine) = true :=
      decide_eq_true (mem_erased (primary input isInput isPrimary) apart)
    obtain ⟨leaf, mem, meets⟩ := @Frontier.exists_meets_of_path Name network.fanins
      (fun other => decide (other ∈ network.erased node wavyLine)) path input node chain starts
      ends stopped
    exact ⟨leaf, mem, (mem_findWavyInputsOfNode logic isNode).mpr meets⟩
  determines := fun isInner meaning reads values others computed computedOthers agree => by
    have accessible := Frontier.accessible_of_acyclic logic.closed logic.acyclic isNode
    refine Frontier.eq_of_meets logic.closed accessible isNode (fun other isOther passes same => ?_)
      fun leaf meets => agree leaf ((mem_findWavyInputsOfNode logic isNode).mpr meets)
    -- A primary input that is not the node itself stops the search.
    have notPrimary : (network.node other).isPrimaryInput = false := by
      by_cases here : other = node
      · rw [here]
        exact isInner
      · refine Bool.eq_false_iff.mpr fun isPrimary => ?_
        exact of_decide_eq_false passes (mem_erased (primary other isOther isPrimary) here)
    rw [computed other isOther notPrimary, computedOthers other isOther notPrimary]
    exact reads other isOther values others same

/-- A node whose fanins are in a line has few wavy inputs. -/
theorem length_le_of_fanins (injective : Function.Injective address) (logic : network.IsLogic)
    (isNode : node ∈ network.names) (atLeastTwo : 2 ≤ lutSize)
    (within : network.fanins node ⊆ wavyLine) :
    (network.findWavyInputsOfNode address node wavyLine).length ≤ lutSize := by
  have distinct := @nodup_findWavyInputsOfNode address network node wavyLine injective
  by_cases stopped : node ∈ network.erased node wavyLine
  · -- The search stops in the node itself.
    have only : network.findWavyInputsOfNode address node wavyLine ⊆ [node] := by
      intro leaf mem
      cases (mem_findWavyInputsOfNode logic isNode).mp mem with
      | here _ => exact List.mem_singleton_self _
      | further passes _ _ => exact absurd stopped (of_decide_eq_false passes)
    have one := (distinct.subperm only).length_le
    rw [List.length_singleton] at one
    omega
  · -- The search stops in each of the fanins.
    have only : network.findWavyInputsOfNode address node wavyLine ⊆ network.fanins node := by
      intro leaf mem
      cases (mem_findWavyInputsOfNode logic isNode).mp mem with
      | here here => exact absurd (of_decide_eq_true here) stopped
      | @further _ fanin _ _ feeds meets =>
          have apart : fanin ≠ node := by
            rintro rfl
            exact logic.acyclic _ isNode (.single feeds)
          have inLine := @mem_erased network node wavyLine fanin (within feeds) apart
          cases meets with
          | here _ => exact feeds
          | further passes _ _ => exact absurd inLine (of_decide_eq_false passes)
    have two := (distinct.subperm only).length_le
    have fanins := logic.twoFanins node isNode
    omega

/-- A fanin of a node outside a line is in the line, or has no more wavy inputs than the node. -/
theorem length_fanin_le (injective : Function.Injective address) (logic : network.IsLogic)
    (isNode : node ∈ network.names) (outside : node ∉ wavyLine) {fanin : Name}
    (feeds : fanin ∈ network.fanins node) (faninOutside : fanin ∉ wavyLine) :
    (network.findWavyInputsOfNode address fanin wavyLine).length ≤
      (network.findWavyInputsOfNode address node wavyLine).length := by
  refine ((@nodup_findWavyInputsOfNode address network fanin wavyLine injective).subperm
    fun leaf mem => ?_).length_le
  have meets := (mem_findWavyInputsOfNode logic (logic.closed node isNode feeds)).mp mem
  rw [Meets, erased_of_not_mem faninOutside] at meets
  refine (mem_findWavyInputsOfNode logic isNode).mpr ?_
  rw [Meets, erased_of_not_mem outside]
  exact .further (decide_eq_false outside) feeds meets

end WavyInputs

/-! ### A round -/

section Round

variable {expansionCount : Nat} {currentWavyLine : List Name} {cuts : NodeToCuts}

/-- The nodes of the order that have few enough wavy inputs. -/
def Fits (address : Name → Nat) (network : LogicNetwork) (lutSize : Nat)
    (currentWavyLine : List Name) (node : Name) : Prop :=
  node ∈ network.nodesTopologicalOrder ∧
    (network.findWavyInputsOfNode address node currentWavyLine).length ≤ lutSize

/-- The next line does not depend on the cuts. -/
theorem expand_fst :
    (network.expand address lutSize expansionCount currentWavyLine cuts).1 =
      network.nodesTopologicalOrder.foldl (fun nextWavyLine currentNode =>
        if (network.findWavyInputsOfNode address currentNode currentWavyLine).length ≤ lutSize then
          insertNode address currentNode nextWavyLine
        else nextWavyLine) [] := by
  rw [expand]
  refine (List.foldl_hom Prod.fst fun state currentNode => ?_).symm
  dsimp only
  split <;> rfl

theorem mem_expand {node : Name} :
    node ∈ (network.expand address lutSize expansionCount currentWavyLine cuts).1 ↔
      Fits address network lutSize currentWavyLine node := by
  rw [expand_fst, foldl_iff (fun nextWavyLine => node ∈ nextWavyLine)
    (fun other => node = other ∧
      (network.findWavyInputsOfNode address other currentWavyLine).length ≤ lutSize)]
  · simp only [List.not_mem_nil, false_or, Fits]
    constructor
    · rintro ⟨_, mem, rfl, few⟩
      exact ⟨mem, few⟩
    · rintro ⟨mem, few⟩
      exact ⟨node, mem, rfl, few⟩
  · intro nextWavyLine other
    split
    case isTrue few => rw [mem_insertNode, and_iff_left few, or_comm]
    case isFalse many => simp [many]

theorem mem_cuts_expand {node : Name} {cut : Cut} :
    cut ∈ (network.expand address lutSize expansionCount currentWavyLine cuts).2 node ↔
      cut ∈ cuts node ∨ Fits address network lutSize currentWavyLine node ∧
        cut = ⟨expansionCount, node,
          network.findWavyInputsOfNode address node currentWavyLine⟩ := by
  rw [expand, foldl_iff (fun state : List Name × NodeToCuts => cut ∈ state.2 node)
    (fun other => (node = other ∧
      (network.findWavyInputsOfNode address other currentWavyLine).length ≤ lutSize) ∧
        cut = ⟨expansionCount, other,
          network.findWavyInputsOfNode address other currentWavyLine⟩)]
  · refine or_congr_right ?_
    constructor
    · rintro ⟨_, mem, ⟨rfl, few⟩, same⟩
      exact ⟨⟨mem, few⟩, same⟩
    · rintro ⟨⟨mem, few⟩, same⟩
      exact ⟨node, mem, ⟨rfl, few⟩, same⟩
  · rintro ⟨nextWavyLine, cuts⟩ other
    dsimp only
    split
    case isTrue few =>
      by_cases here : node = other
      · subst here
        simp [few]
      · simp [here]
    case isFalse many => simp [many]

theorem sorted_expand (injective : Function.Injective address) :
    Sorted address (network.expand address lutSize expansionCount currentWavyLine cuts).1 := by
  rw [expand_fst]
  have start : Sorted address ([] : List Name) := List.Pairwise.nil
  revert start
  generalize ([] : List Name) = nextWavyLine
  induction network.nodesTopologicalOrder generalizing nextWavyLine with
  | nil => exact id
  | cons node order inductionHypothesis =>
      intro sorted
      refine inductionHypothesis _ ?_
      dsimp only
      split
      · exact sorted_insertNode injective sorted
      · exact sorted

end Round

/-! ### The loop -/

section Loop

variable {includeChannels : Bool} {fuel expansionCount : Nat} {currentWavyLine : List Name}
  {cuts result : NodeToCuts}

/-- More fuel changes nothing once the loop has ended. -/
theorem cutLoop_mono {more : Nat} (enough : fuel ≤ more)
    (ends : network.cutLoop address lutSize includeChannels fuel currentWavyLine expansionCount
      cuts = some result) :
    network.cutLoop address lutSize includeChannels more currentWavyLine expansionCount cuts =
      some result := by
  induction fuel generalizing more currentWavyLine expansionCount cuts with
  | zero => cases ends
  | succ fuel inductionHypothesis =>
      obtain ⟨more, rfl⟩ := Nat.exists_eq_add_of_le' (Nat.le_trans (Nat.le_add_left 1 fuel) enough)
      rw [cutLoop] at ends ⊢
      dsimp only at ends ⊢
      split at ends
      case isFalse stops => rwa [if_neg stops]
      case isTrue goesOn =>
        rw [if_pos goesOn]
        split at ends
        case isTrue same => rwa [if_pos same]
        case isFalse apart =>
          rw [if_neg apart]
          exact inductionHypothesis (Nat.le_of_succ_le_succ enough) ends

/-- Whatever the loop does, it adds cuts only. -/
theorem isCut_cutLoop (injective : Function.Injective address) (logic : network.IsLogic)
    (ordered : network.IsOrdered)
    (primary : ∀ name ∈ network.names, (network.node name).isPrimaryInput = true →
      name ∈ currentWavyLine)
    (before : ∀ node, ∀ cut ∈ cuts node, network.IsCut lutSize node cut)
    (ends : network.cutLoop address lutSize includeChannels fuel currentWavyLine expansionCount
      cuts = some result) :
    ∀ node, ∀ cut ∈ result node, network.IsCut lutSize node cut := by
  induction fuel generalizing currentWavyLine expansionCount cuts with
  | zero => cases ends
  | succ fuel inductionHypothesis =>
      have after : ∀ node, ∀ cut ∈ (network.expand address lutSize expansionCount currentWavyLine
          cuts).2 node, network.IsCut lutSize node cut := by
        intro node cut mem
        rcases mem_cuts_expand.mp mem with old | ⟨⟨listed, few⟩, rfl⟩
        · exact before node cut old
        · exact isCut_findWavyInputsOfNode injective logic (ordered.isNode listed) primary few _
      rw [cutLoop] at ends
      dsimp only at ends
      split at ends
      case isFalse =>
        cases ends
        exact before
      case isTrue =>
        split at ends
        case isTrue =>
          cases ends
          exact after
        case isFalse =>
          refine inductionHypothesis (fun name isNode isPrimary => ?_) after ends
          exact mem_insertNodes.mpr (.inl (primary name isNode isPrimary))

/-- With channels the number of rounds is limited. -/
theorem exists_cutLoop_true (inLimit : expansionCount ≤ expansionWithChannels)
    (enough : expansionWithChannels < fuel + expansionCount) :
    ∃ result, network.cutLoop address lutSize true fuel currentWavyLine expansionCount cuts =
      some result := by
  induction fuel generalizing currentWavyLine expansionCount cuts with
  | zero => omega
  | succ fuel inductionHypothesis =>
      rw [cutLoop]
      dsimp only
      split
      case isTrue goesOn =>
        split
        case isTrue => exact ⟨_, rfl⟩
        case isFalse =>
          have below : expansionCount < expansionWithChannels := by simpa using goesOn
          exact inductionHypothesis below (by omega)
      case isFalse => exact ⟨_, rfl⟩

end Loop

/-! ### Without channels -/

/-- A line that the first run may reach: no node of it drops out of the next one. -/
structure Settled (address : Name → Nat) (network : LogicNetwork) (wavyLine : List Name) :
    Prop where
  sorted : Sorted address wavyLine
  listed : wavyLine ⊆ network.nodesTopologicalOrder
  primary : ∀ name ∈ network.names, (network.node name).isPrimaryInput = true → name ∈ wavyLine
  fanins : ∀ name ∈ wavyLine, network.fanins name ⊆ wavyLine

section Settled

variable {fuel expansionCount : Nat} {currentWavyLine : List Name} {cuts : NodeToCuts}

theorem settled_getPrimaryInputs (injective : Function.Injective address)
    (logic : network.IsLogic) (ordered : network.IsOrdered) :
    Settled address network (network.getPrimaryInputs address) where
  sorted := sorted_setOf injective
  listed := fun name mem => by
    obtain ⟨isNode, isPrimary⟩ := mem_getNodes.mp mem
    exact ordered.primary name isNode isPrimary
  primary := fun name isNode isPrimary => mem_getNodes.mpr ⟨isNode, isPrimary⟩
  fanins := fun name mem fanin feeds => by
    obtain ⟨isNode, isPrimary⟩ := mem_getNodes.mp mem
    rw [logic.undriven name isNode isPrimary] at feeds
    cases feeds

variable (injective : Function.Injective address) (logic : network.IsLogic)
  (ordered : network.IsOrdered)
include injective logic ordered

/-- A node that joins a line has its fanins in it or joining too. -/
theorem Settled.expand (settled : Settled address network currentWavyLine) :
    Settled address network (insertNodes address
      (network.expand address lutSize expansionCount currentWavyLine cuts).1 currentWavyLine) where
  sorted := sorted_insertNodes injective settled.sorted
  listed := fun name mem => by
    rcases mem_insertNodes.mp mem with old | new
    · exact settled.listed old
    · exact (mem_expand.mp new).1
  primary := fun name isNode isPrimary =>
    mem_insertNodes.mpr (.inl (settled.primary name isNode isPrimary))
  fanins := fun name mem fanin feeds => by
    rw [mem_insertNodes, mem_expand] at mem ⊢
    by_cases old : name ∈ currentWavyLine
    · exact .inl (settled.fanins name old feeds)
    by_cases faninOld : fanin ∈ currentWavyLine
    · exact .inl faninOld
    obtain ⟨listed, few⟩ := mem.resolve_left old
    have isNode := ordered.isNode listed
    have isInner : (network.node name).isPrimaryInput = false :=
      Bool.eq_false_iff.mpr fun isPrimary => old (settled.primary name isNode isPrimary)
    exact .inr ⟨ordered.fanins name listed isInner feeds,
      Nat.le_trans (length_fanin_le injective logic isNode old feeds faninOld) few⟩

theorem Settled.fits (settled : Settled address network currentWavyLine)
    (atLeastTwo : 2 ≤ lutSize) {name : Name} (mem : name ∈ currentWavyLine) :
    Fits address network lutSize currentWavyLine name :=
  ⟨settled.listed mem, length_le_of_fanins injective logic (ordered.isNode (settled.listed mem))
    atLeastTwo (settled.fanins name mem)⟩

/-- If no node joins a line, it holds all nodes. -/
theorem Settled.all_fit (settled : Settled address network currentWavyLine)
    (atLeastTwo : 2 ≤ lutSize)
    (stays : ∀ name, Fits address network lutSize currentWavyLine name → name ∈ currentWavyLine)
    {node : Name} (listed : node ∈ network.nodesTopologicalOrder) : node ∈ currentWavyLine := by
  have accessible := Frontier.accessible_of_acyclic logic.closed logic.acyclic
    (ordered.isNode listed)
  induction accessible with
  | intro node _ inductionHypothesis =>
      have isNode := ordered.isNode listed
      cases isPrimary : (network.node node).isPrimaryInput with
      | true => exact settled.primary node isNode isPrimary
      | false =>
          refine stays node ⟨listed, length_le_of_fanins injective logic isNode atLeastTwo ?_⟩
          intro fanin feeds
          exact inductionHypothesis fanin feeds (ordered.fanins node listed isPrimary feeds)

/-- The first run ends, at the latest when every node of the order is in the line, and with a cut
for each. -/
theorem Settled.exists_cutLoop (settled : Settled address network currentWavyLine)
    (atLeastTwo : 2 ≤ lutSize)
    (enough : network.nodesTopologicalOrder.length < fuel + currentWavyLine.length) :
    ∃ result, network.cutLoop address lutSize false fuel currentWavyLine expansionCount cuts =
        some result ∧
      ∀ node ∈ network.nodesTopologicalOrder, result node ≠ [] := by
  induction fuel generalizing currentWavyLine expansionCount cuts with
  | zero =>
      have few := (settled.sorted.nodup.subperm settled.listed).length_le
      omega
  | succ fuel inductionHypothesis =>
      have sorted := @sorted_expand address network lutSize expansionCount currentWavyLine cuts
        injective
      have stays : currentWavyLine ⊆
          (network.expand address lutSize expansionCount currentWavyLine cuts).1 :=
        fun name mem => mem_expand.mpr (settled.fits injective logic ordered atLeastTwo mem)
      have subperm := settled.sorted.nodup.subperm stays
      rw [cutLoop]
      dsimp only
      rw [if_pos (by rfl)]
      by_cases same : (network.expand address lutSize expansionCount currentWavyLine cuts).1.length =
          currentWavyLine.length
      · rw [if_pos same]
        have noneJoins : ∀ name, name ∈ currentWavyLine ↔ name ∈ _ := fun _ =>
          (subperm.perm_of_length_le (Nat.le_of_eq same)).mem_iff
        refine ⟨_, rfl, fun node listed => ?_⟩
        have inLine := settled.all_fit injective logic ordered atLeastTwo
          (fun name fits => (noneJoins name).mpr (mem_expand.mpr fits)) listed
        refine List.ne_nil_of_mem (mem_cuts_expand.mpr (.inr ⟨?_, rfl⟩))
        exact settled.fits injective logic ordered atLeastTwo inLine
      · rw [if_neg same]
        refine inductionHypothesis (settled.expand injective logic ordered) ?_
        have longer := (sorted.nodup.subperm fun name mem =>
          (@mem_insertNodes address _ currentWavyLine name).mpr (.inr mem)).length_le
        have grows := subperm.length_le
        omega

end Settled

/-! ### The cuts -/

section Cuts

variable {sorter : Sorter} {cuts : NodeToCuts} {node : Name}

/-- Only cuts are erased, and never the last of a node. -/
theorem mem_of_mem_sortAndEraseCuts {cut : Cut} (mem : cut ∈ sortAndEraseCuts sorter cuts node) :
    cut ∈ cuts node :=
  (sorter.perm Cut.precedes (cuts node)).mem_iff.mp ((List.destutter_sublist _ _).subset mem)

theorem sortAndEraseCuts_ne_nil (some : cuts node ≠ []) :
    sortAndEraseCuts sorter cuts node ≠ [] := by
  rw [sortAndEraseCuts, Ne, List.destutter_eq_nil]
  intro none
  exact some (List.Perm.nil_eq (none ▸ sorter.perm Cut.precedes (cuts node))).symm

/-- The second run ends within its limit. -/
theorem exists_cutAlgorithm_true : ∃ cuts, ∀ fuel ≥ expansionWithChannels + 1,
    network.cutAlgorithm address lutSize true fuel = some cuts := by
  obtain ⟨cuts, ends⟩ := @exists_cutLoop_true address network lutSize (expansionWithChannels + 1) 0
    (insertNodes address (network.getChannels address) (network.getPrimaryInputs address))
    (fun _ => []) (Nat.zero_le _) (Nat.lt_succ_self _)
  exact ⟨cuts, fun fuel enough => cutLoop_mono enough ends⟩

variable (injective : Function.Injective address) (logic : network.IsLogic)
  (ordered : network.IsOrdered)
include injective logic ordered

/-- The first run ends with a cut for each node. -/
theorem exists_cutAlgorithm_false (atLeastTwo : 2 ≤ lutSize) : ∃ cuts,
    (∀ fuel ≥ network.nodesTopologicalOrder.length + 1,
      network.cutAlgorithm address lutSize false fuel = some cuts) ∧
    ∀ node ∈ network.nodesTopologicalOrder, cuts node ≠ [] := by
  have start := settled_getPrimaryInputs injective logic ordered
  obtain ⟨cuts, ends, all⟩ := @Settled.exists_cutLoop address network lutSize
    (network.nodesTopologicalOrder.length + 1) 0 _ (fun _ => []) injective logic ordered start
    atLeastTwo (by omega)
  exact ⟨cuts, fun fuel enough => cutLoop_mono enough ends, all⟩

theorem isCut_cutAlgorithm {includeChannels : Bool} {fuel : Nat}
    (ends : network.cutAlgorithm address lutSize includeChannels fuel = some cuts) :
    ∀ node, ∀ cut ∈ cuts node, network.IsCut lutSize node cut := by
  refine isCut_cutLoop injective logic ordered (fun name isNode isPrimary => ?_)
    (fun _ _ mem => by cases mem) ends
  have mem : name ∈ network.getPrimaryInputs address := mem_getNodes.mpr ⟨isNode, isPrimary⟩
  split
  · exact mem_insertNodes.mpr (.inl mem)
  · exact mem

/-- What the generated cuts are, for a network in its order. -/
theorem exists_generateCuts_of_isOrdered (atLeastTwo : 2 ≤ lutSize) (sorter : Sorter) :
    ∃ cuts, (∃ enough, ∀ fuel ≥ enough,
        network.generateCuts address sorter lutSize fuel = some cuts) ∧
      (∀ node, ∀ cut ∈ cuts node, network.IsCut lutSize node cut) ∧
      ∀ node ∈ network.nodesTopologicalOrder, cuts node ≠ [] := by
  obtain ⟨without, endsWithout, all⟩ :=
    exists_cutAlgorithm_false injective logic ordered atLeastTwo
  obtain ⟨withChannels, endsWith⟩ := @exists_cutAlgorithm_true address network lutSize
  refine ⟨sortAndEraseCuts sorter fun node => without node ++ withChannels node,
    ⟨max (network.nodesTopologicalOrder.length + 1) (expansionWithChannels + 1), ?_⟩, ?_, ?_⟩
  · intro fuel enough
    rw [generateCuts, endsWithout fuel (Nat.le_trans (Nat.le_max_left _ _) enough),
      endsWith fuel (Nat.le_trans (Nat.le_max_right _ _) enough)]
    rfl
  · intro node cut mem
    rcases List.mem_append.mp (mem_of_mem_sortAndEraseCuts mem) with first | second
    · exact isCut_cutAlgorithm injective logic ordered (endsWithout _ (Nat.le_refl _)) node cut first
    · exact isCut_cutAlgorithm injective logic ordered (endsWith _ (Nat.le_refl _)) node cut second
  · intro node listed
    refine sortAndEraseCuts_ne_nil ?_
    simp [all node listed]

end Cuts

/-- In an acyclic network of gates with at most two fanins, whose primary inputs are not driven,
the cuts are generated for every LUT size from two on: each is a cut that fits the LUT, and each
node of the order has one. -/
theorem exists_generateCuts (injective : Function.Injective address) (logic : network.IsLogic)
    (atLeastTwo : 2 ≤ lutSize) (sorter : Sorter) :
    ∃ cuts, (∃ enough, ∀ fuel ≥ enough,
        (network.generateTopologicalOrder address).generateCuts address sorter lutSize fuel =
          some cuts) ∧
      (∀ node, ∀ cut ∈ cuts node, network.IsCut lutSize node cut) ∧
      ∀ node ∈ (network.generateTopologicalOrder address).nodesTopologicalOrder,
        cuts node ≠ [] := by
  have again : (network.generateTopologicalOrder address).IsLogic :=
    ⟨⟨logic.closed, logic.acyclic, logic.twoFanins⟩, logic.undriven⟩
  obtain ⟨cuts, ends, areCuts, all⟩ := exists_generateCuts_of_isOrdered injective again
    (isOrdered_generateTopologicalOrder logic.closed) atLeastTwo sorter
  refine ⟨cuts, ends, fun node cut mem => ?_, all⟩
  have isCut := areCuts node cut mem
  exact ⟨isCut.root, isCut.distinct, isCut.few, isCut.crosses, isCut.determines⟩

/-! ### Networks with inputs -/

/-- A sort that leaves what it gets. -/
def unsorted : Sorter where
  sort := fun _ cuts => cuts
  perm := fun _ _ => List.Perm.refl _

def inputsOf (names : List Name) : LogicNetwork :=
  names.foldl (fun network name => network.addIONode name ".inputs".toList) .empty

/-- An output of two gates, over three inputs. -/
def twoGates : LogicNetwork :=
  (((inputsOf [['a'], ['b'], ['c']]).addIONode ['z'] ".outputs".toList).addLogicGate
    Circuit.codeAddress [['a'], ['b']] ['x'] ['1', '1']).addLogicGate
      Circuit.codeAddress [['x'], ['c']] ['z'] ['1', '1']

theorem isLogic_twoGates : twoGates.IsLogic := by
  have closed : ∀ name ∈ twoGates.names, twoGates.fanins name ⊆ twoGates.names := by decide
  refine ⟨⟨closed, fun name isNode => ?_, by decide⟩, by decide⟩
  refine Frontier.acyclic_of_rank closed
    (fun name => if name = ['z'] then 2 else if name = ['x'] then 1 else 0) ?_ isNode
  decide

theorem exists_generateCuts_twoGates :
    ∃ cuts, (∃ enough, ∀ fuel ≥ enough,
        (twoGates.generateTopologicalOrder Circuit.codeAddress).generateCuts Circuit.codeAddress
          unsorted 2 fuel = some cuts) ∧
      (∀ node, ∀ cut ∈ cuts node, twoGates.IsCut 2 node cut) ∧
      ∀ node ∈ (twoGates.generateTopologicalOrder Circuit.codeAddress).nodesTopologicalOrder,
        cuts node ≠ [] :=
  exists_generateCuts Circuit.codeAddress_injective isLogic_twoGates (Nat.le_refl 2) unsorted

/-- An input that a gate drives, over two more. -/
def drivenInput : LogicNetwork :=
  (((inputsOf [['a'], ['b'], ['c'], ['p']]).addLogicGate
    Circuit.codeAddress [['a'], ['b']] ['x'] ['1', '1']).addLogicGate
      Circuit.codeAddress [['c']] ['y'] ['1']).addLogicGate
        Circuit.codeAddress [['x'], ['y']] ['p'] ['1', '1']

theorem isAcyclic_drivenInput : drivenInput.IsAcyclic := by
  have closed : ∀ name ∈ drivenInput.names, drivenInput.fanins name ⊆ drivenInput.names := by
    decide
  refine ⟨closed, fun name isNode => ?_, by decide⟩
  refine Frontier.acyclic_of_rank closed
    (fun name => if name = ['p'] then 2 else if name = ['x'] ∨ name = ['y'] then 1 else 0) ?_ isNode
  decide

/-- A driven input drops out of every line, which is one node longer than the next. -/
theorem cutLoop_drivenInput (fuel expansionCount : Nat) (cuts : NodeToCuts) :
    (drivenInput.generateTopologicalOrder Circuit.codeAddress).cutLoop Circuit.codeAddress 2 false
      fuel [['a'], ['b'], ['c'], ['p']] expansionCount cuts = none := by
  induction fuel generalizing expansionCount cuts with
  | zero => rfl
  | succ fuel inductionHypothesis =>
      have next : ((drivenInput.generateTopologicalOrder Circuit.codeAddress).expand
          Circuit.codeAddress 2 expansionCount [['a'], ['b'], ['c'], ['p']] cuts).1 =
            [['a'], ['b'], ['c']] := by
        rw [expand_fst]
        decide
      rw [cutLoop]
      dsimp only
      rw [if_pos (by rfl), next, if_neg (by decide)]
      exact inductionHypothesis _ _

theorem not_determines_input : ¬ (inputsOf [['a']]).Determines [] ['a'] := by
  intro determines
  have same := determines (fun _ _ => false) (fun _ _ _ _ _ => rfl) (fun _ => false)
    (fun _ => true) (by unfold Computed; decide) (by unfold Computed; decide) (by simp)
  cases same

/-- The cut of an input has no leaves; with a driven input the first run does not end. -/
theorem not_cuts_of_inputs :
    ((inputsOf [['a']]).IsLogic ∧ ∃ cuts,
      ((inputsOf [['a']]).generateTopologicalOrder Circuit.codeAddress).generateCuts
        Circuit.codeAddress unsorted 2 7 = some cuts ∧
      ∃ cut ∈ cuts ['a'], ¬ (inputsOf [['a']]).Determines cut.leaves ['a']) ∧
    (drivenInput.IsAcyclic ∧ ∀ fuel,
      (drivenInput.generateTopologicalOrder Circuit.codeAddress).generateCuts
        Circuit.codeAddress unsorted 2 fuel = none) := by
  refine ⟨⟨⟨⟨by decide, fun name isNode => ?_, by decide⟩, by decide⟩, ?_⟩,
    isAcyclic_drivenInput, fun fuel => ?_⟩
  · exact Frontier.acyclic_of_rank (by decide) (fun _ => 0) (by decide) isNode
  · have found : (((inputsOf [['a']]).generateTopologicalOrder Circuit.codeAddress).generateCuts
        Circuit.codeAddress unsorted 2 7).map (fun cuts => cuts ['a']) =
          some [⟨0, ['a'], []⟩] := by
      decide
    obtain ⟨cuts, generated, listed⟩ := Option.map_eq_some_iff.mp found
    exact ⟨cuts, generated, ⟨0, ['a'], []⟩, by simp [listed], not_determines_input⟩
  · have never := cutLoop_drivenInput fuel 0 fun _ => []
    have start : (drivenInput.generateTopologicalOrder Circuit.codeAddress).getPrimaryInputs
        Circuit.codeAddress = [['a'], ['b'], ['c'], ['p']] := by
      decide
    rw [generateCuts, cutAlgorithm, start]
    exact congrArg (fun first => Option.bind first _) never

end Dynamatic.Blif.LogicNetwork
