import Dynamatic.CfgAnnotation.Placing
import Dynamatic.CfgAnnotation.RoundTrip
import Dynamatic.Numerals
import Mathlib.Data.Fintype.EquivFin

/-!
# What restoring gives back

The annotation of a numbered function lists every block but the one that returns,
and the reader adds the number after the last. So the numbers of the list, of the
tags and of the blocks made agree when the block that returns has the highest
number; then each block has its operations and, if names and results can be
found again, its branch.
-/

namespace Dynamatic.CfgAnnotation

/-- A list is mapped if every element is. -/
theorem mapM_eq_ok {α β ε : Type} {make : α → Except ε β} {items : List α} {results : List β} :
    items.mapM make = .ok results ↔
      List.Forall₂ (fun item result => make item = .ok result) items results := by
  induction items generalizing results with
  | nil =>
      constructor
      · intro done
        cases done
        exact .nil
      · intro all
        cases all
        rfl
  | cons item items inductionHypothesis =>
      rw [List.mapM_cons]
      constructor
      · intro done
        obtain ⟨first, made, done⟩ := bind_eq_ok.mp done
        obtain ⟨rest, others, done⟩ := bind_eq_ok.mp done
        cases done
        exact .cons made (inductionHypothesis.mp others)
      · intro all
        cases all with
        | cons made others => rw [made, inductionHypothesis.mpr others]; rfl

/-- If every element can be mapped, the list can. -/
theorem exists_mapM {α β ε : Type} {make : α → Except ε β} {items : List α}
    (all : ∀ item ∈ items, ∃ result, make item = .ok result) :
    ∃ results, items.mapM make = .ok results := by
  induction items with
  | nil => exact ⟨[], rfl⟩
  | cons item items inductionHypothesis =>
      obtain ⟨first, made⟩ := all item List.mem_cons_self
      obtain ⟨rest, others⟩ := inductionHypothesis fun other mem => all other (.tail _ mem)
      exact ⟨first :: rest, by rw [List.mapM_cons, made, others]; rfl⟩

namespace HandshakeFunc

open CFGAnnotation

variable {Op : Type} [DecidableEq Op] {function : HandshakeFunc Op}

/-! ### The annotation -/

section Edges
omit [DecidableEq Op]

variable (function) in
def tag (block : Fin function.size) : BitVec 32 := .ofNat 32 (function.number block)

variable (function) in
/-- The entry of a block, its condition named as it is. -/
def node (block : Fin function.size) : Option CFGNode :=
  match function.terminator block with
  | .branch dest => some (.unconditional (function.tag dest))
  | .condBranch (.result op _) trueDest falseDest =>
      some (.conditional (function.tag trueDest) (function.tag falseDest)
        ((function.namer.nameAttr op).getD []))
  | _ => none

/-- The edges of some blocks. -/
def edgesOf (function : HandshakeFunc Op) (blocks : List (Fin function.size)) : CFGAnnotation :=
  fun key => (blocks.find? fun block => decide (function.tag block = key)).bind function.node

theorem toNat_tag (wellFormed : function.WellFormed) (block : Fin function.size) :
    (function.tag block).toNat = function.number block := by
  have small := wellFormed.small
  have less := (function.number block).isLt
  rw [tag, BitVec.toNat_ofNat, Nat.mod_eq_of_lt (by omega)]

theorem tag_injective (wellFormed : function.WellFormed) : Function.Injective function.tag := by
  intro first second same
  have numbers := congrArg BitVec.toNat same
  rw [toNat_tag wellFormed, toNat_tag wellFormed] at numbers
  exact wellFormed.distinct (Fin.ext numbers)

theorem not_isReserved_tag (wellFormed : function.WellFormed) (block : Fin function.size) :
    isReserved (function.tag block) = false := by
  have small := wellFormed.small
  have less := (function.number block).isLt
  rw [isReserved, toNat_tag wellFormed, decide_eq_false_iff_not]
  omega

theorem edgesOf_eq_none {blocks : List (Fin function.size)} {key : BitVec 32}
    (none : ∀ block ∈ blocks, function.tag block ≠ key) : function.edgesOf blocks key = .none := by
  have notFound : (blocks.find? fun block => decide (function.tag block = key)) = .none :=
    List.find?_eq_none.mpr fun block mem => by simpa using none block mem
  rw [edgesOf, notFound]
  rfl

theorem edgesOf_tag (wellFormed : function.WellFormed) {blocks : List (Fin function.size)}
    {block : Fin function.size} (mem : block ∈ blocks) :
    function.edgesOf blocks (function.tag block) = function.node block := by
  cases found : blocks.find? fun other => decide (function.tag other = function.tag block) with
  | none => exact absurd (decide_eq_true rfl) (List.find?_eq_none.mp found block mem)
  | some other =>
      have matching := List.find?_some found
      have same : other = block := tag_injective wellFormed (of_decide_eq_true matching)
      rw [edgesOf, found, same]
      rfl

theorem edgesOf_concat (wellFormed : function.WellFormed) {blocks : List (Fin function.size)}
    {block : Fin function.size} (fresh : block ∉ blocks) :
    function.edgesOf (blocks ++ [block]) =
      match function.node block with
      | some node => Function.update (function.edgesOf blocks) (function.tag block) (some node)
      | none => function.edgesOf blocks := by
  have before : function.edgesOf blocks (function.tag block) = none :=
    edgesOf_eq_none fun other mem same => fresh (tag_injective wellFormed same ▸ mem)
  funext key
  by_cases here : key = function.tag block
  · subst here
    rw [edgesOf_tag wellFormed (List.mem_append_right _ (List.mem_singleton_self block))]
    cases function.node block with
    | none => exact before.symm
    | some node =>
        dsimp only
        rw [Function.update_self]
  · have there : function.edgesOf (blocks ++ [block]) key = function.edgesOf blocks key := by
      have other : decide (function.tag block = key) = false :=
        decide_eq_false fun same => here same.symm
      have notFound : [block].find? (fun block => decide (function.tag block = key)) = none := by
        simp [other]
      rw [edgesOf, List.find?_append, notFound, Option.or_none, edgesOf]
    rw [there]
    cases function.node block with
    | none => rfl
    | some node =>
        dsimp only
        rw [Function.update_of_ne here]

end Edges

/-- Visiting a block adds its entry and leaves the names as they are. -/
theorem visitBlock_edgesOf (wellFormed : function.WellFormed) {blocks : List (Fin function.size)}
    {block : Fin function.size} (fresh : block ∉ blocks) :
    function.region.visitBlock (function.edgesOf blocks, function.namer) block =
      .ok (function.edgesOf (blocks ++ [block]), function.namer) := by
  have before : function.edgesOf blocks (function.tag block) = none :=
    edgesOf_eq_none fun other mem same => fresh (tag_injective wellFormed same ▸ mem)
  have inserts : ∀ node, (function.edgesOf blocks).insert (function.tag block) node =
      .ok (Function.update (function.edgesOf blocks) (function.tag block) (some node)) := by
    intro node
    rw [ CFGAnnotation.insert, not_isReserved_tag wellFormed, before]
    rfl
  have tagged : ∀ other, function.region.getIDBlock other = .ok (function.tag other) := fun _ => rfl
  rw [edgesOf_concat wellFormed fresh]
  cases ends : function.terminator block with
  | branch dest =>
      simp only [Region.visitBlock, tagged, node, ends]
      change (function.edgesOf blocks).insert _ _ >>= _ = _
      rw [inserts]
      rfl
  | condBranch condition trueDest falseDest =>
      obtain ⟨op, number, name, rfl, -, named, -⟩ := wellFormed.conditions block _ _ _ ends
      have given : function.region.conditionName function.namer (.result op number) =
          (name, function.namer) := by
        rw [Region.conditionName, NameAnalysis.getName, named]
      simp only [Region.visitBlock, tagged, given, node, ends, named]
      change (function.edgesOf blocks).insert _ _ >>= _ = _
      rw [inserts]
      rfl
  | «return» =>
      simp only [Region.visitBlock, tagged, node, ends]
      rfl
  | other => exact absurd ends (wellFormed.ends block)

variable (function) in
omit [DecidableEq Op] in
/-- The edges of the function. -/
def edges : CFGAnnotation := function.edgesOf (List.finRange function.size)

theorem getCFGEdges_eq (wellFormed : function.WellFormed) :
    function.region.getCFGEdges function.namer = .ok (function.edges, function.namer) := by
  have visits : ∀ rest passed : List (Fin function.size), (passed ++ rest).Nodup →
      rest.foldlM function.region.visitBlock (function.edgesOf passed, function.namer) =
        .ok (function.edgesOf (passed ++ rest), function.namer) := by
    intro rest
    induction rest with
    | nil => intro passed _; rw [List.append_nil]; rfl
    | cons block rest inductionHypothesis =>
        intro passed nodup
        have fresh : block ∉ passed := fun mem =>
          (List.nodup_append'.mp nodup).2.2 mem List.mem_cons_self
        have regroup : passed ++ block :: rest = passed ++ [block] ++ rest := by simp
        rw [List.foldlM_cons, visitBlock_edgesOf wellFormed fresh]
        rw [regroup] at nodup ⊢
        exact inductionHypothesis (passed ++ [block]) nodup
  exact visits (List.finRange function.size) [] (List.nodup_finRange _)

omit [DecidableEq Op] in
theorem edges_tag (wellFormed : function.WellFormed) (block : Fin function.size) :
    function.edges (function.tag block) = function.node block :=
  edgesOf_tag wellFormed (List.mem_finRange block)

omit [DecidableEq Op] in
theorem exists_of_edges {key : BitVec 32} (isKey : (function.edges key).isSome = true) :
    ∃ block, function.tag block = key := by
  by_contra none
  push Not at none
  rw [edges, edgesOf_eq_none fun block _ => none block] at isKey
  cases isKey

omit [DecidableEq Op] in
theorem node_eq_none (wellFormed : function.WellFormed) (block : Fin function.size) :
    function.node block = none ↔ function.terminator block = .return := by
  cases ends : function.terminator block with
  | branch dest => simp [node, ends]
  | condBranch condition trueDest falseDest =>
      obtain ⟨op, number, name, rfl, -⟩ := wellFormed.conditions block _ _ _ ends
      simp [node, ends]
  | «return» => simp [node, ends]
  | other => exact absurd ends (wellFormed.ends block)

/-! ### The list of the blocks -/

section Sources
omit [DecidableEq Op]

theorem exists_number (wellFormed : function.WellFormed) {position : Nat}
    (less : position < function.size) : ∃ block, (function.number block).val = position := by
  obtain ⟨block, same⟩ :=
    Finite.injective_iff_surjective.mp wellFormed.distinct ⟨position, less⟩
  exact ⟨block, congrArg Fin.val same⟩

variable {sources : List (BitVec 32)}

theorem mem_sources (wellFormed : function.WellFormed)
    (enumerates : function.edges.Enumerates sources) {exit : Fin function.size}
    (returns : function.terminator exit = .return) {position : Nat} :
    position ∈ sources.map BitVec.toNat ↔
      position < function.size ∧ position ≠ (function.number exit).val := by
  constructor
  · intro mem
    obtain ⟨key, listed, rfl⟩ := List.mem_map.mp mem
    have isKey := (enumerates.mem_iff key).mp listed
    obtain ⟨block, rfl⟩ := exists_of_edges isKey
    rw [toNat_tag wellFormed]
    refine ⟨(function.number block).isLt, fun same => ?_⟩
    obtain rfl : block = exit := wellFormed.distinct (Fin.ext same)
    rw [edges_tag wellFormed, (node_eq_none wellFormed block).mpr returns] at isKey
    cases isKey
  · rintro ⟨less, apart⟩
    obtain ⟨block, rfl⟩ := exists_number wellFormed less
    refine List.mem_map.mpr ⟨function.tag block, (enumerates.mem_iff _).mpr ?_, toNat_tag wellFormed block⟩
    rw [edges_tag wellFormed]
    by_contra notKey
    have ends := (node_eq_none wellFormed block).mp (by simpa using notKey)
    obtain rfl := wellFormed.returns.unique ends returns
    exact apart rfl

/-- The numbers below a size but one. -/
def branching (size exit : Nat) : List Nat :=
  (List.range size).filter fun position => decide (position ≠ exit)

theorem branching_last (exit : Nat) : branching (exit + 1) exit = List.range exit := by
  have below : (List.range exit).filter (fun position => decide (position ≠ exit)) =
      List.range exit :=
    List.filter_eq_self.mpr fun position mem =>
      decide_eq_true (Nat.ne_of_lt (List.mem_range.mp mem))
  rw [branching, List.range_succ, List.filter_append, below]
  simp

theorem getLast?_branching {exit last : Nat} (less : exit < last) :
    (branching (last + 1) exit).getLast? = some last := by
  have apart : decide (last ≠ exit) = true := decide_eq_true (Nat.ne_of_gt less)
  rw [branching, List.range_succ, List.filter_append, List.filter_singleton, apart]
  simp

theorem sorted_sources (wellFormed : function.WellFormed)
    (enumerates : function.edges.Enumerates sources) {exit : Fin function.size}
    (returns : function.terminator exit = .return) :
    (sources.map BitVec.toNat).mergeSort = branching function.size (function.number exit) := by
  have nodup : (sources.map BitVec.toNat).Nodup :=
    enumerates.nodup.map fun _ _ same => BitVec.toNat_inj.mp same
  refine List.Perm.eq_of_sortedLE List.sortedLE_mergeSort ?_ ?_
  · exact (List.Pairwise.filter _ List.pairwise_le_range).sortedLE
  · refine (List.mergeSort_perm _ _).trans ?_
    refine (List.perm_ext_iff_of_nodup nodup (List.nodup_range.filter _)).mpr fun position => ?_
    rw [mem_sources wellFormed enumerates returns, List.mem_filter, List.mem_range,
      decide_eq_true_iff]

/-- If the block that returns is the last, the list has every block. -/
theorem blocksList_eq (wellFormed : function.WellFormed)
    (enumerates : function.edges.Enumerates sources) {exit : Fin function.size}
    (returns : function.terminator exit = .return)
    (isLast : (function.number exit).val + 1 = function.size) :
    blocksList sources = List.range function.size := by
  have sorted := sorted_sources wellFormed enumerates returns
  generalize (function.number exit).val = last at sorted isLast
  rw [blocksList, sorted, ← isLast, branching_last]
  cases last with
  | zero => rfl
  | succ last => simp [List.range_succ]

/-- If it is not, the list skips it and has a number that no block has. -/
theorem blocksList_eq_of_lt (wellFormed : function.WellFormed)
    (enumerates : function.edges.Enumerates sources) {exit : Fin function.size}
    (returns : function.terminator exit = .return)
    (notLast : (function.number exit).val + 1 < function.size) :
    blocksList sources = branching function.size (function.number exit) ++ [function.size] := by
  have sorted := sorted_sources wellFormed enumerates returns
  generalize (function.number exit).val = before at sorted notLast ⊢
  obtain ⟨last, same⟩ : ∃ last, function.size = last + 1 := ⟨function.size - 1, by omega⟩
  rw [blocksList, sorted, same, getLast?_branching (by omega)]

end Sources

/-! ### The operations -/

section Operations
omit [DecidableEq Op]

/-- The operations of the function, block by block. -/
def allOps (function : HandshakeFunc Op) : List Op :=
  (List.finRange function.size).flatMap function.ops

theorem mem_allOps {op : Op} : op ∈ function.allOps ↔ function.Contains op := by
  simp [allOps, Contains]

theorem mapM_eraseTerminator (wellFormed : function.WellFormed) :
    (List.finRange function.size).mapM function.eraseTerminator =
      .ok ((List.finRange function.size).map function.ops) := by
  refine mapM_eq_ok.mpr (List.forall₂_map_right_iff.mpr (List.forall₂_same.mpr fun block _ => ?_))
  have ends := wellFormed.ends block
  rw [eraseTerminator]
  cases terminator : function.terminator block with
  | other => exact absurd terminator ends
  | branch | condBranch | «return» => rfl

theorem foldlM_moveAfterBack {front rest : List Op} (filled : front ≠ []) :
    rest.foldlM moveAfterBack front = .ok (front ++ rest) := by
  induction rest generalizing front with
  | nil => rw [List.append_nil]; rfl
  | cons op rest inductionHypothesis =>
      have moved : moveAfterBack front op = .ok (front ++ [op]) :=
        if_neg (by simpa using filled)
      rw [List.foldlM_cons, moved]
      refine (inductionHypothesis (by simp)).trans ?_
      rw [List.append_assoc, List.singleton_append]

/-- What is flattened is all the operations. -/
theorem eq_allOps_of_flattenFunction (wellFormed : function.WellFormed) {flattened : List Op}
    (flattens : function.flattenFunction = .ok flattened) : flattened = function.allOps := by
  rw [flattenFunction, mapM_eraseTerminator wellFormed] at flattens
  rw [allOps, List.flatMap_def]
  cases listed : (List.finRange function.size).map function.ops with
  | nil =>
      rw [listed] at flattens
      cases flattens
      rfl
  | cons front rest =>
      rw [listed] at flattens
      change rest.flatten.foldlM moveAfterBack front = .ok flattened at flattens
      cases front with
      | cons op front =>
          rw [foldlM_moveAfterBack (by simp)] at flattens
          cases flattens
          rfl
      | nil =>
          cases flat : rest.flatten with
          | nil =>
              rw [flat] at flattens
              cases flattens
              simp [flat]
          | cons op later =>
              rw [flat] at flattens
              cases flattens

theorem flattenFunction_eq (wellFormed : function.WellFormed)
    (filled : ∀ block, function.ops block ≠ []) :
    function.flattenFunction = .ok function.allOps := by
  rw [flattenFunction, mapM_eraseTerminator wellFormed, allOps, List.flatMap_def]
  cases listed : (List.finRange function.size).map function.ops with
  | nil => rfl
  | cons front rest =>
      have first : front ≠ [] := by
        have mem : front ∈ (List.finRange function.size).map function.ops := by simp [listed]
        obtain ⟨block, -, rfl⟩ := List.mem_map.mp mem
        exact filled block
      exact foldlM_moveAfterBack first

theorem opBlock_eq (wellFormed : function.WellFormed) {block : Fin function.size} {op : Op}
    (mem : op ∈ function.ops block) : function.opBlock op = (function.number block).val := by
  rw [opBlock, wellFormed.tagged block op mem]
  exact toNat_tag wellFormed block

theorem mem_taggedWith_allOps (wellFormed : function.WellFormed) {block : Fin function.size}
    {op : Op} :
    op ∈ function.taggedWith function.allOps (function.number block) ↔ op ∈ function.ops block := by
  rw [mem_taggedWith, mem_allOps]
  constructor
  · rintro ⟨⟨other, mem⟩, tagged⟩
    rw [opBlock_eq wellFormed mem] at tagged
    rwa [wellFormed.distinct (Fin.ext tagged)] at mem
  · intro mem
    exact ⟨⟨block, mem⟩, opBlock_eq wellFormed mem⟩

theorem nodup_ops (wellFormed : function.WellFormed) (block : Fin function.size) :
    (function.ops block).Nodup :=
  (List.nodup_flatMap.mp wellFormed.nodup).1 block (List.mem_finRange block)

theorem taggedWith_perm (wellFormed : function.WellFormed) (block : Fin function.size) :
    (function.taggedWith function.allOps (function.number block)).Perm (function.ops block) := by
  have nodup : (function.taggedWith function.allOps (function.number block)).Nodup :=
    wellFormed.nodup.filter _
  exact (List.perm_ext_iff_of_nodup nodup (nodup_ops wellFormed block)).mpr fun _ =>
    mem_taggedWith_allOps wellFormed

/-- The name finds its operation, if the compares on the way are tagged. -/
theorem findByName_eq {nameAttr : Op → Option Name} {name : Name} {ops : List Op} {target : Op}
    (mem : target ∈ ops) (named : nameAttr target = some name)
    (unique : ∀ op ∈ ops, nameAttr op = some name → op = target)
    (tagged : ∀ op ∈ ops, (function.bb op).isSome = true) (blockID : Nat)
    (cmpSameBlock : Option Op) :
    function.findByName nameAttr name blockID ops cmpSameBlock = .ok (some target) := by
  induction ops generalizing cmpSameBlock with
  | nil => cases mem
  | cons op ops inductionHypothesis =>
      have later : op ≠ target → ∀ cmpSameBlock,
          function.findByName nameAttr name blockID ops cmpSameBlock = .ok (some target) := by
        intro apart
        refine inductionHypothesis ?_ (fun other otherMem => unique other (.tail _ otherMem))
          fun other otherMem => tagged other (.tail _ otherMem)
        exact (List.mem_cons.mp mem).resolve_left fun same => apart same.symm
      obtain ⟨bb, tag⟩ := Option.isSome_iff_exists.mp (tagged op List.mem_cons_self)
      rw [findByName]
      cases opNamed : nameAttr op with
      | none =>
          refine later ?_ cmpSameBlock
          rintro rfl
          rw [named] at opNamed
          cases opNamed
      | some opName =>
          by_cases same : name = opName
          · have isTarget := unique op List.mem_cons_self (same ▸ opNamed)
            cases function.isCompare op <;> simp only [tag, if_pos same] <;>
              exact congrArg (fun found => Except.ok (some found)) isTarget
          · have apart : op ≠ target := by
              rintro rfl
              exact same (Option.some.inj (named.symm.trans opNamed))
            cases function.isCompare op <;> simp only [tag, if_neg same] <;> exact later apart _

end Operations

/-! ### Restoring -/

section Restore

variable {written listed : CFGAnnotation → List (BitVec 32)}

variable (function) in
/-- The state after the operations are placed. -/
def placing (listed : CFGAnnotation → List (BitVec 32)) : Placing Op :=
  function.placeBlocks function.allOps ((blocksList (listed function.edges)).getLastD 0)
    (blocksList (listed function.edges))
    { made := [], current := function.allOps,
      indexToBlock := Function.update (fun _ => none) 0 (some 0) }

variable (function) in
def placedBlocks (listed : CFGAnnotation → List (BitVec 32)) : List (List Op) :=
  (function.placing listed).made ++ [(function.placing listed).current]

omit [DecidableEq Op] in
theorem blocksList_distinct (wellFormed : function.WellFormed) {sources : List (BitVec 32)}
    (enumerates : function.edges.Enumerates sources) :
    (blocksList sources).Nodup ∧ ∃ back, (blocksList sources).getLast? = some back := by
  obtain ⟨exit, returns, -⟩ := wellFormed.returns
  have some : 0 < function.size := Nat.zero_lt_of_lt exit.isLt
  rcases Nat.lt_or_eq_of_le (Nat.succ_le_of_lt (function.number exit).isLt) with notLast | isLast
  · rw [blocksList_eq_of_lt wellFormed enumerates returns notLast]
    refine ⟨List.nodup_append.mpr ⟨List.nodup_range.filter _, List.nodup_singleton _, ?_⟩,
      _, List.getLast?_concat⟩
    rintro position mem other isSize rfl
    rw [List.mem_singleton.mp isSize] at mem
    exact absurd (List.mem_range.mp (List.mem_of_mem_filter mem)) (Nat.lt_irrefl _)
  · rw [blocksList_eq wellFormed enumerates returns isLast]
    exact ⟨List.nodup_range, _, List.getLast?_eq_some_getLast (by simp; omega)⟩

theorem between_placing (wellFormed : function.WellFormed)
    (lists : function.edges.Enumerates (listed function.edges)) :
    function.Between function.allOps (blocksList (listed function.edges))
      (function.placing listed) := by
  obtain ⟨distinct, back, isBack⟩ := blocksList_distinct wellFormed lists
  have last : (blocksList (listed function.edges)).getLastD 0 = back := by
    rw [List.getLastD_eq_getLast?, isBack]
    rfl
  rw [placing, last]
  exact placeBlocks_eq wellFormed.nodup distinct isBack

/-- Restoring makes the terminators of the blocks that the operations are placed in, if the
annotation is read. -/
theorem restored_eq (wellFormed : function.WellFormed)
    (flattens : function.flattenFunction = .ok function.allOps)
    (reads : unserializeEdges (some (annotateCFG function.edges (written function.edges))) =
      .ok function.edges) :
    function.restored written listed =
      (function.placedBlocks listed).zipIdx.mapM
        (function.makeBlock function.namer.nameAttr function.edges
          (function.placing listed).indexToBlock (function.placedBlocks listed).flatten) := by
  rw [restored, getCFGEdges_eq wellFormed]
  change function.flattenFunction >>= _ = _
  rw [flattens]
  change function.restoreCfStructure _ _ _ _ = _
  rw [restoreCfStructure, reads]
  rfl

omit [DecidableEq Op] in
/-- What is made of the placed blocks keeps their operations. -/
theorem exists_made {blocks : List (List Op)} {edges : CFGAnnotation}
    {indexToBlock : Nat → Option Nat} {ops : List Op} {made : List (RestoredBlock Op)}
    (makes : blocks.zipIdx.mapM
      (function.makeBlock function.namer.nameAttr edges indexToBlock ops) = .ok made) :
    made.length = blocks.length ∧ ∀ position block, blocks[position]? = some block →
      ∃ restored, made[position]? = some restored ∧ restored.ops = block ∧
        function.makeTerminator function.namer.nameAttr edges indexToBlock ops position block =
          .ok restored.terminator := by
  have all := mapM_eq_ok.mp makes
  have length := all.length_eq
  rw [List.length_zipIdx] at length
  refine ⟨length.symm, fun position block found => ?_⟩
  obtain ⟨less, rfl⟩ := List.getElem?_eq_some_iff.mp found
  have madeHere := List.forall₂_iff_get.mp all |>.2 position (by simpa using less)
    (by rw [← length]; exact less)
  simp only [List.get_eq_getElem, List.getElem_zipIdx, Nat.zero_add] at madeHere
  refine ⟨made[position], List.getElem?_eq_getElem _, ?_⟩
  rw [makeBlock] at madeHere
  cases makesHere : function.makeTerminator function.namer.nameAttr edges indexToBlock ops position
      blocks[position] with
  | error fault => rw [makesHere] at madeHere; cases madeHere
  | ok terminator =>
      rw [makesHere] at madeHere
      have same := Except.ok.inj madeHere
      exact ⟨congrArg RestoredBlock.ops same.symm,
        congrArg (fun block => Except.ok block.terminator) same⟩

variable {edges : CFGAnnotation} {indexToBlock : Nat → Option Nat} {ops block : List Op}
  {position : Nat} {terminator : RestoredTerminator Op}

omit [DecidableEq Op] in
/-- A terminator is made in a block that has an operation, and a branch on the first result of
the operation found. -/
theorem cases_makeTerminator
    (makes : function.makeTerminator function.namer.nameAttr edges indexToBlock ops position block =
      .ok terminator) :
    block ≠ [] ∧ ∀ op number trueDest falseDest,
      terminator = .condBranch op number trueDest falseDest → number = 0 := by
  have filled : ∀ {op : Op}, back block = .ok op → block ≠ [] := by
    rintro op last rfl
    cases last
  rw [makeTerminator] at makes
  split at makes
  case h_1 =>
    obtain ⟨_, last, made⟩ := bind_eq_ok.mp makes
    cases made
    exact ⟨filled last, fun _ _ _ _ same => by cases same⟩
  case h_2 trueSuccessor falseSuccessor condition _ =>
    obtain ⟨found, _, made⟩ := bind_eq_ok.mp makes
    cases found with
    | none => cases made
    | some condOp =>
        obtain ⟨_, last, made⟩ := bind_eq_ok.mp made
        obtain ⟨⟨op, result⟩, isFirst, made⟩ := bind_eq_ok.mp made
        obtain ⟨trueDest, _, made⟩ := bind_eq_ok.mp made
        obtain ⟨falseDest, _, made⟩ := bind_eq_ok.mp made
        cases made
        refine ⟨filled last, fun _ _ _ _ same => ?_⟩
        cases same
        rw [firstResult] at isFirst
        split at isFirst <;> cases isFirst
        rfl
  case h_3 successor _ =>
    obtain ⟨_, last, made⟩ := bind_eq_ok.mp makes
    obtain ⟨dest, _, made⟩ := bind_eq_ok.mp made
    cases made
    exact ⟨filled last, fun _ _ _ _ same => by cases same⟩

/-! ### The function that is restored -/

omit [DecidableEq Op] in
/-- Every block has its place, by its number. -/
theorem placed_range {ops : List Op} {size : Nat} (some : 0 < size)
    (within : ∀ op ∈ ops, function.opBlock op < size) :
    function.placed ops (List.range size) = (List.range size).map (function.taggedWith ops) := by
  obtain ⟨size, rfl⟩ : ∃ before, size = before + 1 := ⟨size - 1, by omega⟩
  have none : function.leftOver ops (List.range (size + 1)) = [] := by
    refine List.filter_eq_nil_iff.mpr fun op mem => ?_
    simp [within op mem]
  rw [List.range_succ_eq_map] at none ⊢
  rw [placed, none, List.nil_append, List.map_cons]

omit [DecidableEq Op] in
theorem opBlock_lt (wellFormed : function.WellFormed) {op : Op} (mem : op ∈ function.allOps) :
    function.opBlock op < function.size := by
  obtain ⟨block, mem⟩ := mem_allOps.mp mem
  rw [opBlock_eq wellFormed mem]
  exact (function.number block).isLt

omit [DecidableEq Op] in
/-- A block at its place gets its terminator. -/
theorem makeTerminator_eq (wellFormed : function.WellFormed) (restorable : function.Restorable)
    (block : Fin function.size) {indexToBlock : Nat → Option Nat}
    (index : ∀ position < function.size, indexToBlock position = some position)
    {ops bb : List Op} (mem : ∀ op, op ∈ ops ↔ function.Contains op) (filled : bb ≠ []) :
    ∃ terminator, function.renumbered block = some terminator ∧
      function.makeTerminator function.namer.nameAttr function.edges indexToBlock ops
        (function.number block) bb = .ok terminator := by
  have last : back bb = .ok (bb.getLast filled) := by
    rw [back, List.getLast?_eq_some_getLast filled]
    rfl
  have goes : ∀ dest, blockAt indexToBlock (function.tag dest) = .ok (function.number dest).val := by
    intro dest
    rw [blockAt, toNat_tag wellFormed, index _ (function.number dest).isLt]
    rfl
  have entry : function.edges (.ofNat 32 (function.number block)) = function.node block :=
    edges_tag wellFormed block
  rw [makeTerminator, entry]
  cases ends : function.terminator block with
  | branch dest =>
      refine ⟨.branch (function.number dest), by rw [renumbered, ends], ?_⟩
      simp only [node, ends, last, goes]
      rfl
  | condBranch condition trueDest falseDest =>
      obtain ⟨op, number, name, rfl, contained, named, isResult⟩ :=
        wellFormed.conditions block _ _ _ ends
      obtain rfl := restorable.first block _ _ _ _ ends
      have found : function.findByName function.namer.nameAttr name (function.number block) ops
          none = .ok (some op) := by
        refine findByName_eq ((mem op).mpr contained) named (fun other otherMem otherNamed => ?_)
          (fun other otherMem => ?_) _ _
        · exact wellFormed.named other op name ((mem other).mp otherMem) contained otherNamed named
        · obtain ⟨source, inSource⟩ := (mem other).mp otherMem
          rw [wellFormed.tagged source other inSource]
          rfl
      have first : function.firstResult op = .ok (op, 0) :=
        if_neg (Nat.ne_of_gt isResult)
      refine ⟨.condBranch op 0 (function.number trueDest) (function.number falseDest),
        by rw [renumbered, ends], ?_⟩
      simp only [node, ends, named, Option.getD_some, found, last, goes]
      change (function.firstResult op >>= _) = _
      rw [first]
      rfl
  | «return» =>
      refine ⟨.return, by rw [renumbered, ends], ?_⟩
      simp only [node, ends, last]
      rfl
  | other => exact absurd ends (wellFormed.ends block)

omit [DecidableEq Op] in
theorem exists_node (wellFormed : function.WellFormed) {key : BitVec 32} {entry : CFGNode}
    (found : function.edges key = some entry) :
    ∃ block, function.tag block = key ∧ function.node block = some entry := by
  obtain ⟨block, rfl⟩ := exists_of_edges (Option.isSome_of_eq_some found)
  exact ⟨block, rfl, (edges_tag wellFormed block).symm.trans found⟩

omit [DecidableEq Op] in
theorem conditionName_node (wellFormed : function.WellFormed) {block : Fin function.size}
    {entry : CFGNode} {name : Name} (found : function.node block = some entry)
    (named : entry.conditionName = some name) :
    ∃ op number trueDest falseDest,
      function.terminator block = .condBranch (.result op number) trueDest falseDest ∧
        function.namer.nameAttr op = some name := by
  cases ends : function.terminator block with
  | condBranch condition trueDest falseDest =>
      obtain ⟨op, number, opName, rfl, -, opNamed, -⟩ := wellFormed.conditions block _ _ _ ends
      rw [node, ends] at found
      cases found
      cases named
      exact ⟨op, number, trueDest, falseDest, rfl, by rw [opNamed]; rfl⟩
  | branch | «return» | other =>
      rw [node, ends] at found
      cases found <;> cases named

omit [DecidableEq Op] in
theorem Restorable.words_edges (restorable : function.Restorable)
    (wellFormed : function.WellFormed) : Words function.edges := by
  intro key entry found name named
  obtain ⟨block, -, isNode⟩ := exists_node wellFormed found
  obtain ⟨op, number, trueDest, falseDest, ends, opNamed⟩ :=
    conditionName_node wellFormed isNode named
  exact restorable.words block op number trueDest falseDest name ends opNamed

theorem placedBlocks_eq (wellFormed : function.WellFormed) {exit : Fin function.size}
    (returns : function.terminator exit = .return)
    (isLast : (function.number exit).val + 1 = function.size)
    (lists : function.edges.Enumerates (listed function.edges)) :
    function.placedBlocks listed =
        (List.range function.size).map (function.taggedWith function.allOps) ∧
      ∀ position < function.size, (function.placing listed).indexToBlock position =
        some position := by
  have some : 0 < function.size := Nat.zero_lt_of_lt exit.isLt
  have between := between_placing wellFormed lists
  rw [blocksList_eq wellFormed lists returns isLast] at between
  refine ⟨?_, fun position less => ?_⟩
  · rw [placedBlocks, between.blocks,
      placed_range some fun op mem => opBlock_lt wellFormed mem]
  · have dropped : (List.range function.size).dropLast = List.range (function.size - 1) := by
      obtain ⟨before, same⟩ : ∃ before, function.size = before + 1 :=
        ⟨function.size - 1, by omega⟩
      rw [same, List.range_succ, List.dropLast_concat, Nat.add_sub_cancel]
    rw [between.index, dropped, openedFor_range, if_pos (by omega)]

/-- A function that meets the conditions is restored. -/
theorem Restorable.isRestored (restorable : function.Restorable) (wellFormed : function.WellFormed)
    (writes : function.edges.Enumerates (written function.edges))
    (lists : function.edges.Enumerates (listed function.edges)) :
    function.IsRestored written listed := by
  obtain ⟨exit, returns, -⟩ := wellFormed.returns
  obtain ⟨blocks, index⟩ :=
    placedBlocks_eq wellFormed returns (restorable.returnsLast exit returns) lists
  have reads : unserializeEdges (some (annotateCFG function.edges (written function.edges))) =
      .ok function.edges := by
    refine unserializeEdges_annotateCFG (restorable.words_edges wellFormed) (fun key isKey => ?_)
      writes
    obtain ⟨block, rfl⟩ := exists_of_edges isKey
    exact not_isReserved_tag wellFormed block
  have inBlocks : ∀ block, (function.placedBlocks listed)[(function.number block).val]? =
      some (function.taggedWith function.allOps (function.number block)) := by
    intro block
    rw [blocks]
    simp
  have members : ∀ op, op ∈ (function.placedBlocks listed).flatten ↔ function.Contains op := by
    intro op
    rw [blocks, ← List.flatMap_def, List.mem_flatMap]
    constructor
    · rintro ⟨_, -, mem⟩
      exact mem_allOps.mp (mem_taggedWith.mp mem).1
    · intro contained
      have mem := mem_allOps.mpr contained
      exact ⟨function.opBlock op, List.mem_range.mpr (opBlock_lt wellFormed mem),
        mem_taggedWith.mpr ⟨mem, rfl⟩⟩
  have filled : ∀ block, function.taggedWith function.allOps (function.number block) ≠ [] := by
    intro block empty
    have same := taggedWith_perm wellFormed block
    rw [empty] at same
    exact restorable.filled block same.nil_eq.symm
  have makesEach : ∀ entry ∈ (function.placedBlocks listed).zipIdx, ∃ restored,
      function.makeBlock function.namer.nameAttr function.edges
        (function.placing listed).indexToBlock (function.placedBlocks listed).flatten entry =
          .ok restored := by
    rintro ⟨bb, position⟩ mem
    have found := List.mk_mem_zipIdx_iff_getElem?.mp mem
    have less : position < function.size := by
      have within := (List.getElem?_eq_some_iff.mp found).1
      rwa [blocks, List.length_map, List.length_range] at within
    obtain ⟨block, rfl⟩ := exists_number wellFormed less
    obtain rfl := Option.some.inj ((inBlocks block).symm.trans found)
    obtain ⟨terminator, -, makes⟩ :=
      makeTerminator_eq wellFormed restorable block index members (filled block)
    exact ⟨_, bind_eq_ok.mpr ⟨terminator, makes, rfl⟩⟩
  obtain ⟨made, makes⟩ := exists_mapM makesEach
  obtain ⟨length, each⟩ := exists_made makes
  refine ⟨made, (restored_eq wellFormed (flattenFunction_eq wellFormed restorable.filled)
    reads).trans makes, ?_, fun block => ?_⟩
  · rw [length, blocks, List.length_map, List.length_range]
  · obtain ⟨restored, found, sameOps, makesTerminator⟩ := each _ _ (inBlocks block)
    obtain ⟨terminator, renumbered, makesSame⟩ :=
      makeTerminator_eq wellFormed restorable block index members (filled block)
    refine ⟨restored, found, sameOps ▸ taggedWith_perm wellFormed block, ?_⟩
    rw [renumbered, Except.ok.inj (makesSame.symm.trans makesTerminator)]

/-- What a restored function is made from: its operations, and its edges as they are read. -/
theorem IsRestored.exists_made (isRestored : function.IsRestored written listed)
    (wellFormed : function.WellFormed) (names : HoldableNames function.edges)
    (writes : function.edges.Enumerates (written function.edges)) :
    Words function.edges ∧ ∃ made, function.Restores made ∧
      made.length = (function.placedBlocks listed).length ∧
      ∀ position block, (function.placedBlocks listed)[position]? = some block →
        ∃ restored, made[position]? = some restored ∧ restored.ops = block ∧
          function.makeTerminator function.namer.nameAttr function.edges
            (function.placing listed).indexToBlock (function.placedBlocks listed).flatten position
            block = .ok restored.terminator := by
  obtain ⟨made, makes, restores⟩ := isRestored
  have wholeRun := makes
  rw [restored, getCFGEdges_eq wellFormed] at makes
  obtain ⟨_, isEdges, makes⟩ := bind_eq_ok.mp makes
  cases isEdges
  obtain ⟨flattened, flattens, restoring⟩ := bind_eq_ok.mp makes
  obtain rfl := eq_allOps_of_flattenFunction wellFormed flattens
  obtain ⟨result, reads, -⟩ := bind_eq_ok.mp restoring
  have words := words_of_read writes names reads
  have readsEdges : unserializeEdges
      (some (annotateCFG function.edges (written function.edges))) = .ok function.edges := by
    refine unserializeEdges_annotateCFG words (fun key isKey => ?_) writes
    obtain ⟨block, rfl⟩ := exists_of_edges isKey
    exact not_isReserved_tag wellFormed block
  rw [restored_eq wellFormed flattens readsEdges] at wholeRun
  obtain ⟨length, each⟩ := HandshakeFunc.exists_made wholeRun
  exact ⟨words, made, restores, length, each⟩

/-- If the block that returns is not the last, the first block has operations of another. -/
theorem exists_misplaced (wellFormed : function.WellFormed) {exit : Fin function.size}
    (returns : function.terminator exit = .return)
    (notLast : (function.number exit).val + 1 < function.size)
    (filled : ∀ block, function.ops block ≠ [])
    (lists : function.edges.Enumerates (listed function.edges)) :
    ∃ first, (function.placedBlocks listed)[0]? = some first ∧
      ∃ op ∈ first, function.Contains op ∧ function.opBlock op ≠ 0 := by
  have between := between_placing wellFormed lists
  rw [blocksList_eq_of_lt wellFormed lists returns notLast] at between
  have inRange : ∀ {position : Nat}, position ∈ branching function.size (function.number exit) ↔
      position < function.size ∧ position ≠ (function.number exit).val := by
    intro position
    rw [branching, List.mem_filter, List.mem_range, decide_eq_true_iff]
  cases listing : branching function.size (function.number exit) with
  | nil =>
      have last := inRange.mpr ⟨Nat.sub_lt (Nat.zero_lt_of_lt notLast) Nat.zero_lt_one,
        (by omega : function.size - 1 ≠ (function.number exit).val)⟩
      rw [listing] at last
      cases last
  | cons first later =>
      rw [listing] at between
      refine ⟨_, by rw [placedBlocks, between.blocks]; rfl, ?_⟩
      by_cases isZero : (function.number exit).val = 0
      · -- The block that returns is the first, and the next one takes its place.
        obtain ⟨less, apart⟩ := inRange.mp (listing ▸ List.mem_cons_self)
        obtain ⟨block, rfl⟩ := exists_number wellFormed less
        obtain ⟨op, mem⟩ := List.exists_mem_of_ne_nil _ (filled block)
        exact ⟨op, List.mem_append_right _ ((mem_taggedWith_allOps wellFormed).mpr mem),
          ⟨block, mem⟩, by rw [opBlock_eq wellFormed mem, ← isZero]; exact apart⟩
      · -- No block is made for the one that returns, and its operations stay.
        obtain ⟨op, mem⟩ := List.exists_mem_of_ne_nil _ (filled exit)
        have tagged := opBlock_eq wellFormed mem
        have notListed : function.opBlock op ∉ first :: (later ++ [function.size]) := by
          rw [← List.cons_append, ← listing, tagged, List.mem_append, List.mem_singleton, inRange]
          omega
        refine ⟨op, List.mem_append_left _ (List.mem_filter.mpr ⟨mem_allOps.mpr ⟨exit, mem⟩, ?_⟩),
          ⟨exit, mem⟩, by rw [tagged]; exact isZero⟩
        exact decide_eq_true notListed

/-- A function that is restored meets the conditions, if its names can stand between brackets. -/
theorem IsRestored.restorable (isRestored : function.IsRestored written listed)
    (wellFormed : function.WellFormed) (names : HoldableNames function.edges)
    (writes : function.edges.Enumerates (written function.edges))
    (lists : function.edges.Enumerates (listed function.edges)) : function.Restorable := by
  obtain ⟨words, made, restores, length, each⟩ := isRestored.exists_made wellFormed names writes
  have places : ∀ block, ∃ restored, made[(function.number block).val]? = some restored ∧
      restored.ops.Perm (function.ops block) ∧
      function.renumbered block = some restored.terminator ∧
      function.makeTerminator function.namer.nameAttr function.edges
        (function.placing listed).indexToBlock (function.placedBlocks listed).flatten
        (function.number block) restored.ops = .ok restored.terminator := by
    intro block
    obtain ⟨restored, found, perm, renumbered⟩ := restores.blocks block
    have less : (function.number block).val < (function.placedBlocks listed).length := by
      rw [← length, restores.length]
      exact (function.number block).isLt
    obtain ⟨other, foundOther, same, makes⟩ := each _ _ (List.getElem?_eq_getElem less)
    obtain rfl := Option.some.inj (found.symm.trans foundOther)
    exact ⟨restored, found, perm, renumbered, same ▸ makes⟩
  have filled : ∀ block, function.ops block ≠ [] := by
    intro block empty
    obtain ⟨restored, -, perm, -, makes⟩ := places block
    rw [empty] at perm
    exact (cases_makeTerminator makes).1 perm.eq_nil
  refine ⟨fun exit returns => ?_, filled, ?_, ?_⟩
  · by_contra notLast
    have less : (function.number exit).val + 1 < function.size :=
      Nat.lt_of_le_of_ne (function.number exit).isLt notLast
    obtain ⟨first, isFirst, op, mem, contained, apart⟩ :=
      exists_misplaced wellFormed returns less filled lists
    obtain ⟨block, isZero⟩ := exists_number wellFormed (Nat.zero_lt_of_lt less)
    obtain ⟨restored, found, perm, -⟩ := restores.blocks block
    obtain ⟨other, foundOther, same, -⟩ := each 0 first isFirst
    rw [isZero] at found
    obtain rfl := Option.some.inj (found.symm.trans foundOther)
    have tagged := opBlock_eq wellFormed (perm.mem_iff.mp (same ▸ mem))
    exact apart (tagged.trans isZero)
  · intro block op number trueDest falseDest name ends named
    have entry : function.edges (function.tag block) =
        some (.conditional (function.tag trueDest) (function.tag falseDest) name) := by
      rw [edges_tag wellFormed, node, ends]
      dsimp only
      rw [named, Option.getD_some]
    exact words _ _ entry name rfl
  · intro block op number trueDest falseDest ends
    obtain ⟨restored, -, -, renumbered, makes⟩ := places block
    have same : some (.condBranch op number (function.number trueDest) (function.number falseDest)) =
        some restored.terminator := by
      rw [← renumbered, HandshakeFunc.renumbered, ends]
    exact (cases_makeTerminator makes).2 op number _ _ (Option.some.inj same).symm

variable (function) in
omit [DecidableEq Op] in
/-- The names of the conditions can stand between brackets. -/
def HoldableConditions : Prop :=
  ∀ block op number trueDest falseDest name,
    function.terminator block = .condBranch (.result op number) trueDest falseDest →
      function.namer.nameAttr op = some name → Holdable name

/-- A function that meets the conditions is restored. A function that is restored meets them,
unless a name ends a bracket or a line, of which the reader may read something else. -/
theorem restored_iff_restorable (wellFormed : function.WellFormed)
    (writes : ∀ edges : CFGAnnotation, edges.Enumerates (written edges))
    (lists : ∀ edges : CFGAnnotation, edges.Enumerates (listed edges)) :
    (function.Restorable → function.IsRestored written listed) ∧
      (function.HoldableConditions → function.IsRestored written listed → function.Restorable) := by
  constructor
  · intro restorable
    exact restorable.isRestored wellFormed (writes _) (lists _)
  · intro holdable isRestored
    refine isRestored.restorable wellFormed (fun key entry found name named => ?_) (writes _)
      (lists _)
    obtain ⟨block, -, isNode⟩ := exists_node wellFormed found
    obtain ⟨op, number, trueDest, falseDest, ends, opNamed⟩ :=
      conditionName_node wellFormed isNode named
    exact holdable block op number trueDest falseDest name ends opNamed

end Restore

open Numerals in
/-- A branch over a block to the exit, with a compare for the condition. -/
def skipFunc (exit : Fin 3) : HandshakeFunc (Fin 3) where
  size := 3
  number := Equiv.swap exit 2
  ops block := [block]
  terminator
    | 0 => .condBranch (.result 0 0) 1 2
    | 1 => .branch 2
    | 2 => .return
  bb op := some (.ofNat 32 (Equiv.swap exit 2 op))
  isCompare op := op == 0
  numResults := fun _ => 1
  kind := fun _ => "handshake.cmpi".toList
  namer :=
    { nameAttr := fun op => some ("cmpi".toList ++ decimal op)
      namedOperations := []
      counters := fun _ => 0 }

theorem skipFunc_cases (exit block : Fin 3) :
    (skipFunc exit).terminator block = .condBranch (.result 0 0) (1 : Fin 3) (2 : Fin 3) ∨
      (skipFunc exit).terminator block = .branch (2 : Fin 3) ∨
      (skipFunc exit).terminator block = .return ∧ block = 2 := by
  match block with
  | 0 => exact .inl rfl
  | 1 => exact .inr (.inl rfl)
  | 2 => exact .inr (.inr ⟨rfl, rfl⟩)

theorem skipFunc_wellFormed (exit : Fin 3) : (skipFunc exit).WellFormed where
  small := show 3 + 2 ≤ 2 ^ 32 by decide
  distinct := (Equiv.swap exit 2).injective
  nodup := show ((List.finRange 3).flatMap fun block => [block]).Nodup by decide
  tagged := by
    rintro block op mem
    rw [List.mem_singleton.mp mem]
    rfl
  named := by
    rintro op other name - - opNamed otherNamed
    have same := Option.some.inj (opNamed.trans otherNamed.symm)
    exact Fin.ext (decimal_injective (List.append_cancel_left same))
  conditions := by
    intro block condition trueDest falseDest ends
    rcases skipFunc_cases exit block with same | same | ⟨same, -⟩ <;> rw [same] at ends <;>
      cases ends
    exact ⟨0, 0, _, rfl, ⟨(0 : Fin 3), List.mem_singleton_self _⟩, rfl, Nat.zero_lt_one⟩
  returns := by
    refine ⟨(2 : Fin 3), rfl, fun block ends => ?_⟩
    dsimp only at ends
    rcases skipFunc_cases exit block with same | same | ⟨-, isLast⟩
    · rw [same] at ends; cases ends
    · rw [same] at ends; cases ends
    · exact isLast
  ends := by
    intro block ends
    rcases skipFunc_cases exit block with same | same | ⟨same, -⟩ <;> rw [same] at ends <;>
      cases ends

theorem skipFunc_restored : (skipFunc 2).IsRestored ascending ascending := by
  refine (restored_iff_restorable (skipFunc_wellFormed 2) enumerates_ascending
    enumerates_ascending).1 ⟨?_, ?_, ?_, ?_⟩
  · intro block ends
    rcases skipFunc_cases 2 block with same | same | ⟨-, rfl⟩
    · rw [same] at ends; cases ends
    · rw [same] at ends; cases ends
    · decide
  · intro block
    exact List.cons_ne_nil _ _
  · intro block op number trueDest falseDest name ends named
    rcases skipFunc_cases 2 block with same | same | ⟨same, -⟩ <;> rw [same] at ends <;> cases ends
    cases named
    decide
  · intro block op number trueDest falseDest ends
    rcases skipFunc_cases 2 block with same | same | ⟨same, -⟩ <;> rw [same] at ends <;> cases ends
    rfl

/-- When the block that returns is numbered before another, no function comes back. -/
theorem skipFunc_not_restored :
    (skipFunc 1).WellFormed ∧ ¬ (skipFunc 1).IsRestored ascending ascending := by
  refine ⟨skipFunc_wellFormed 1, fun isRestored => ?_⟩
  have names : HoldableNames (skipFunc 1).edges := by
    intro key entry found name named
    obtain ⟨block, -, isNode⟩ := exists_node (skipFunc_wellFormed 1) found
    obtain ⟨op, number, trueDest, falseDest, ends, opNamed⟩ :=
      conditionName_node (skipFunc_wellFormed 1) isNode named
    rcases skipFunc_cases 1 block with same | same | ⟨same, -⟩ <;> rw [same] at ends <;> cases ends
    cases opNamed
    exact IsWord.holdable (by decide)
  have restorable := isRestored.restorable (skipFunc_wellFormed 1) names
    (enumerates_ascending _) (enumerates_ascending _)
  exact absurd (restorable.returnsLast (2 : Fin 3) rfl) (by decide)

end HandshakeFunc

end Dynamatic.CfgAnnotation
