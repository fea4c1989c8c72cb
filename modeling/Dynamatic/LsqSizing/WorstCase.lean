import Mathlib.Algebra.GroupWithZero.Nat
import Mathlib.Algebra.Ring.Int.Defs
import Mathlib.Data.Fintype.Card
import Mathlib.Order.Bounds.Basic

/-!
# The worst-case interval between iterations

If every load of an LSQ collides with the stores before it, an iteration starts when the stores of
the last one are done. The worst-case interval is the latency of the slowest path from a load to a
store. `getWorstCaseII` finds it among all paths that pass no node twice.
-/

namespace Dynamatic.LsqSizing

/-- What the sizing asks an operation for. -/
inductive OpType
  | load
  | store
  | other
  deriving DecidableEq

/-- An operation, with the first LSQ among its users. -/
structure Operation (Lsq : Type) where
  opType : OpType
  lsqOp : Option Lsq
  isConnectedToLSQ : Bool

/-- A node without an operation is artificial. -/
structure CFDFCNode (Node Lsq : Type) where
  latency : Int
  op : Option (Operation Lsq)
  edges : List Node
  backedges : List Node
  shiftingedges : List Node

structure CFDFCGraph (Node Lsq : Type) where
  names : List Node
  nodup : names.Nodup
  complete : ∀ name, name ∈ names
  nodes : Node → CFDFCNode Node Lsq

/-! ### The greatest of some numbers -/

/-- A loop with a running maximum ends with the greatest number. -/
theorem isGreatest_foldl_max {α β : Type} [LinearOrder β] (value : α → β) (first : β)
    (items : List α) :
    IsGreatest {number | number = first ∨ ∃ item ∈ items, number = value item}
      (items.foldl (fun greatest item => max greatest (value item)) first) := by
  induction items generalizing first with
  | nil => exact ⟨.inl rfl, fun number isFirst => (isFirst.resolve_right (by simp)).le⟩
  | cons item items inductionHypothesis =>
      obtain ⟨attained, above⟩ := inductionHypothesis (max first (value item))
      constructor
      · rcases attained with isMax | ⟨other, mem, isValue⟩
        · rw [List.foldl_cons, isMax]
          rcases max_choice first (value item) with isFirst | isItem
          · exact .inl isFirst
          · exact .inr ⟨item, List.mem_cons_self, isItem⟩
        · exact .inr ⟨other, List.mem_cons_of_mem item mem, isValue⟩
      · rintro number (rfl | ⟨other, mem, rfl⟩)
        · exact (le_max_left _ _).trans (above (.inl rfl))
        · rcases List.mem_cons.mp mem with rfl | later
          · exact (le_max_right _ _).trans (above (.inl rfl))
          · exact above (.inr ⟨other, later, rfl⟩)

namespace CFDFCGraph

variable {Node Lsq : Type} [DecidableEq Node] (graph : CFDFCGraph Node Lsq)

/-! ### Paths -/

section Search

variable (ignoreBackedges ignoreShiftingEdge : Bool)

/-- The adjacent nodes, in the order in which they are visited. -/
def neighbors (name : Node) : List Node :=
  (graph.nodes name).edges ++
    (if ignoreBackedges then [] else (graph.nodes name).backedges) ++
      if ignoreShiftingEdge then [] else (graph.nodes name).shiftingedges

/-- The paths to an end that go on from a path, without a node that has been visited. -/
def dfsAllPaths [Fintype Node] (finish currentNode : Node) (currentPath : List Node)
    (visited : Finset Node) : List (List Node) :=
  if currentNode = finish then [currentPath]
  else
    (graph.neighbors ignoreBackedges ignoreShiftingEdge currentNode).flatMap fun neighbor =>
      if neighbor ∈ visited then []
      else dfsAllPaths finish neighbor (currentPath ++ [neighbor]) (insert neighbor visited)
  termination_by visitedᶜ.card
  decreasing_by
    rename_i unvisited
    rw [Finset.compl_insert]
    exact Finset.card_erase_lt_of_mem (Finset.mem_compl.mpr unvisited)

def findPaths [Fintype Node] (start finish : Node) : List (List Node) :=
  graph.dfsAllPaths ignoreBackedges ignoreShiftingEdge finish start [start] {start}

end Search

def getPathLatency (path : List Node) : Int :=
  (path.map fun name => (graph.nodes name).latency).sum

/-- The latency of the slowest path. A path takes a backedge or a shifting edge, not both. -/
def findMaxPathLatency [Fintype Node] (start finish : Node)
    (ignoreBackedge ignoreShiftingEdge excludeLastNodeLatency : Bool) : Int :=
  let paths :=
    if !ignoreBackedge && !ignoreShiftingEdge then
      graph.findPaths false true start finish ++ graph.findPaths true false start finish
    else graph.findPaths ignoreBackedge ignoreShiftingEdge start finish
  paths.foldl (fun maxLatency path => max maxLatency
    (graph.getPathLatency (if excludeLastNodeLatency then path.dropLast else path))) 0

/-! ### The interval -/

/-- The accesses of a type that lead to an LSQ. -/
def lsqOps (opType : OpType) : List Node :=
  graph.names.filter fun name =>
    (graph.nodes name).op.any fun op => op.opType = opType && op.isConnectedToLSQ

/-- The slowest path from a load with an LSQ to a store; the store may be one of another LSQ. -/
def tempMaxLatency [Fintype Node] (name : Node) : Nat :=
  match (graph.nodes name).op with
  | none => 0
  | some op =>
      if op.lsqOp.isSome ∧ op.opType = .load then
        (graph.lsqOps .store).foldl (fun tempMaxLatency otherNode =>
          max tempMaxLatency (graph.findMaxPathLatency name otherNode true true false).toNat) 0
      else 0

def getWorstCaseII [Fintype Node] : Nat :=
  graph.names.foldl (fun maxLatency name => max maxLatency (graph.tempMaxLatency name)) 0

/-- A path that passes no node twice. -/
structure SimplePath (ignoreBackedges ignoreShiftingEdge : Bool) (start finish : Node)
    (path : List Node) : Prop where
  begins : path.head? = some start
  ends : path.getLast? = some finish
  nodup : path.Nodup
  chain : path.IsChain fun name next =>
    next ∈ graph.neighbors ignoreBackedges ignoreShiftingEdge name

def LoadsFromLSQ (name : Node) : Prop :=
  ∃ op, (graph.nodes name).op = some op ∧ op.lsqOp.isSome ∧ op.opType = .load

/-- The latencies, in one iteration, between the loads and the stores of LSQs. -/
def collisions : Set Nat :=
  {latency | latency = 0 ∨ ∃ load store path, graph.LoadsFromLSQ load ∧
    store ∈ graph.lsqOps .store ∧ graph.SimplePath true true load store path ∧
    (latency : Int) = graph.getPathLatency path}

variable {graph} [Fintype Node] {ignoreBackedges ignoreShiftingEdge : Bool}
  {start finish name : Node} {path found : List Node}

theorem mem_dfsAllPaths {currentNode : Node} {currentPath : List Node} {visited : Finset Node}
    (mem : currentNode ∈ visited) :
    found ∈ graph.dfsAllPaths ignoreBackedges ignoreShiftingEdge finish currentNode currentPath
        visited ↔
      ∃ rest, found = currentPath ++ rest ∧ (currentNode :: rest).getLast? = some finish ∧
        ((currentNode :: rest).IsChain fun name next =>
          next ∈ graph.neighbors ignoreBackedges ignoreShiftingEdge name) ∧
        rest.Nodup ∧ ∀ node ∈ rest, node ∉ visited := by
  induction currentNode, currentPath, visited using dfsAllPaths.induct finish with
  | case1 currentPath visited =>
      rw [dfsAllPaths, if_pos rfl, List.mem_singleton]
      constructor
      · intro same
        exact ⟨[], by rw [same, List.append_nil], rfl, List.IsChain.singleton finish,
          List.nodup_nil, nofun⟩
      · rintro ⟨rest, rfl, ends, -, -, unvisited⟩
        cases rest with
        | nil => exact List.append_nil currentPath
        | cons node rest =>
            rw [List.getLast?_cons_cons] at ends
            exact absurd mem (unvisited finish (List.mem_of_getLast? ends))
  | case2 currentNode currentPath visited differs inductionHypothesis =>
      rw [dfsAllPaths, if_neg differs, List.mem_flatMap]
      constructor
      · rintro ⟨neighbor, adjacent, isFound⟩
        split at isFound
        · cases isFound
        · rename_i fresh
          obtain ⟨rest, rfl, ends, chain, nodup, unvisited⟩ :=
            (inductionHypothesis neighbor fresh (Finset.mem_insert_self _ _)).mp isFound
          refine ⟨neighbor :: rest, List.append_assoc _ _ _, ?_,
            List.isChain_cons_cons.mpr ⟨adjacent, chain⟩, List.nodup_cons.mpr ⟨?_, nodup⟩,
            List.forall_mem_cons.mpr ⟨fresh, ?_⟩⟩
          · rw [List.getLast?_cons_cons, ends]
          · exact fun repeated => unvisited neighbor repeated (Finset.mem_insert_self _ _)
          · exact fun node mem visited => unvisited node mem (Finset.mem_insert_of_mem visited)
      · rintro ⟨rest, rfl, ends, chain, nodup, unvisited⟩
        cases rest with
        | nil => exact absurd (Option.some.inj ends) differs
        | cons neighbor rest =>
            obtain ⟨adjacent, chain⟩ := List.isChain_cons_cons.mp chain
            obtain ⟨first, nodup⟩ := List.nodup_cons.mp nodup
            obtain ⟨fresh, unvisited⟩ := List.forall_mem_cons.mp unvisited
            refine ⟨neighbor, adjacent, ?_⟩
            rw [if_neg fresh]
            refine (inductionHypothesis neighbor fresh (Finset.mem_insert_self _ _)).mpr
              ⟨rest, (List.append_assoc currentPath [neighbor] rest).symm, ?_, chain, nodup,
                fun node later visited => ?_⟩
            · rw [← List.getLast?_cons_cons, ends]
            · rcases Finset.mem_insert.mp visited with rfl | visited
              · exact first later
              · exact unvisited node later visited

/-- The search finds the simple paths. -/
theorem mem_findPaths :
    found ∈ graph.findPaths ignoreBackedges ignoreShiftingEdge start finish ↔
      graph.SimplePath ignoreBackedges ignoreShiftingEdge start finish found := by
  rw [findPaths, mem_dfsAllPaths (Finset.mem_singleton_self start)]
  constructor
  · rintro ⟨rest, rfl, ends, chain, nodup, unvisited⟩
    refine ⟨rfl, ends, List.nodup_cons.mpr ⟨fun repeated => ?_, nodup⟩, chain⟩
    exact unvisited start repeated (Finset.mem_singleton_self start)
  · rintro ⟨begins, ends, nodup, chain⟩
    obtain ⟨rest, rfl⟩ := List.head?_eq_some_iff.mp begins
    obtain ⟨first, nodup⟩ := List.nodup_cons.mp nodup
    refine ⟨rest, rfl, ends, chain, nodup, fun node mem visited => ?_⟩
    exact first (Finset.mem_singleton.mp visited ▸ mem)

/-- The latency of the slowest path that takes neither backedges nor shifting edges. -/
theorem isGreatest_findMaxPathLatency (graph : CFDFCGraph Node Lsq) (start finish : Node) :
    IsGreatest {latency | latency = 0 ∨ ∃ path, graph.SimplePath true true start finish path ∧
        latency = graph.getPathLatency path}
      (graph.findMaxPathLatency start finish true true false) := by
  have greatest := isGreatest_foldl_max graph.getPathLatency 0
    (graph.findPaths true true start finish)
  simp only [mem_findPaths] at greatest
  exact greatest

omit [DecidableEq Node] [Fintype Node] in
theorem loadsFromLSQ_iff {op : Operation Lsq} (isOp : (graph.nodes name).op = some op) :
    graph.LoadsFromLSQ name ↔ op.lsqOp.isSome ∧ op.opType = .load := by
  constructor
  · rintro ⟨other, isOther, both⟩
    cases isOp.symm.trans isOther
    exact both
  · exact fun both => ⟨op, isOp, both⟩

theorem tempMaxLatency_of_loads (loads : graph.LoadsFromLSQ name) :
    graph.tempMaxLatency name = (graph.lsqOps .store).foldl (fun tempMaxLatency otherNode =>
      max tempMaxLatency (graph.findMaxPathLatency name otherNode true true false).toNat) 0 := by
  obtain ⟨op, isOp, both⟩ := loads
  rw [tempMaxLatency, isOp]
  exact if_pos both

theorem tempMaxLatency_of_not (skipped : ¬graph.LoadsFromLSQ name) :
    graph.tempMaxLatency name = 0 := by
  rw [tempMaxLatency]
  split
  · rfl
  · rename_i op isOp
    exact if_neg fun both => skipped ((loadsFromLSQ_iff isOp).mpr both)

/-- The worst-case interval is the latency of the slowest path from a load to a store. -/
theorem isGreatest_getWorstCaseII (graph : CFDFCGraph Node Lsq) :
    IsGreatest graph.collisions graph.getWorstCaseII := by
  obtain ⟨attained, above⟩ := isGreatest_foldl_max graph.tempMaxLatency 0 graph.names
  constructor
  · rcases attained with isZero | ⟨load, -, isLoad⟩
    · exact .inl isZero
    by_cases loads : graph.LoadsFromLSQ load
    · rw [tempMaxLatency_of_loads loads] at isLoad
      rcases (isGreatest_foldl_max (fun store =>
        (graph.findMaxPathLatency load store true true false).toNat) 0 (graph.lsqOps .store)).1
        with isZero | ⟨store, isStore, isPath⟩
      · exact .inl (isLoad.trans isZero)
      obtain ⟨isLatency, atLeast⟩ := isGreatest_findMaxPathLatency graph load store
      have nonneg : 0 ≤ graph.findMaxPathLatency load store true true false := atLeast (.inl rfl)
      have same := isLoad.trans isPath
      rcases isLatency with isZero | ⟨path, isSimple, isLatency⟩
      · exact .inl (same.trans (by rw [isZero, Int.toNat_zero]))
      · refine .inr ⟨load, store, path, loads, isStore, isSimple, ?_⟩
        rw [← isLatency]
        exact (congrArg Nat.cast same).trans (Int.toNat_of_nonneg nonneg)
    · exact .inl (isLoad.trans (tempMaxLatency_of_not loads))
  · rintro latency (rfl | ⟨load, store, path, loads, isStore, isSimple, isLatency⟩)
    · exact Nat.zero_le _
    · have ofPath := (isGreatest_findMaxPathLatency graph load store).2
        (.inr ⟨path, isSimple, isLatency⟩)
      have ofLoad := (isGreatest_foldl_max (fun store =>
        (graph.findMaxPathLatency load store true true false).toNat) 0 (graph.lsqOps .store)).2
        (.inr ⟨store, isStore, rfl⟩)
      rw [← tempMaxLatency_of_loads loads] at ofLoad
      have ofAll := above (.inr ⟨load, graph.complete load, rfl⟩)
      exact (Int.ofNat_le.mp (ofPath.trans (Int.self_le_toNat _))).trans (ofLoad.trans ofAll)

end CFDFCGraph

end Dynamatic.LsqSizing
