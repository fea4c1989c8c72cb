import Dynamatic.Suppression.PathCondition

/-!
# Cloning the blocks between producer and consumer

The search clones all blocks that are reached from the producer around the consumer, each with
its own terminator. An execution from the producer reaches the consumer if the run from the
producer's clone leads to the consumer's proxy.
-/

namespace Dynamatic.Suppression

open ControlFlow

variable {size : Nat}

def FunctionCFG.successors (cfg : FunctionCFG size) (block : Fin size) : List (Fin size) :=
  (cfg.terminator block).successors

/-- The block for the destination of an edge. -/
def localDest (origCons succOrig : Fin size) : LocalBlock size :=
  if succOrig = origCons then .proxy else .clone succOrig

/-- How the clone of a block ends. -/
def localTerminator (cfg : FunctionCFG size) (origCons block : Fin size) :
    Terminator (LocalBlock size) :=
  match cfg.terminator block with
  | .ret => .br .sink
  | .br dest => .br (localDest origCons dest)
  | .condBr trueDest falseDest =>
      .condBr (localDest origCons trueDest) (localDest origCons falseDest)

/-! ### The edges of one block -/

section Edges

variable {cfg : FunctionCFG size} {origProd origCons currOrig : Fin size}

/-- What connecting a block with some successors changes. -/
structure Connects (origCons : Fin size) (nexts toVisit : List (Fin size))
    (state result : Building size) : Prop where
  visited : result.visited = state.visited
  cloned : state.cloned ⊆ result.cloned
  kept : state.terminators ⊆ result.terminators
  terminators : ∀ entry ∈ result.terminators,
    entry ∈ state.terminators ∨ entry = (.proxy, .br .sink)
  hasProxy : result.hasProxy = true ↔ state.hasProxy = true ∨ origCons ∈ nexts
  proxy : (state.hasProxy = true → (.proxy, .br .sink) ∈ state.terminators) →
    result.hasProxy = true → (.proxy, .br .sink) ∈ result.terminators
  enqueued : ∀ block, block ∈ result.enqueued ↔ block ∈ state.enqueued ∨ block ∈ toVisit
  toVisit : ∀ block ∈ toVisit, block ∈ nexts ∧ block ≠ origCons ∧ block ∈ result.cloned
  reached : ∀ block ∈ nexts, block ≠ origCons →
    block ∈ result.visited ∨ block ∈ result.enqueued

theorem Connects.nil (state : Building size) : Connects origCons [] [] state state where
  visited := rfl
  cloned := List.Subset.refl _
  kept := List.Subset.refl _
  terminators := fun _ => .inl
  hasProxy := by simp
  proxy := fun recorded => recorded
  enqueued := by simp
  toVisit := fun _ mem => nomatch mem
  reached := fun _ mem => nomatch mem

theorem Connects.append {nexts others toVisit more : List (Fin size)}
    {state middle result : Building size} (first : Connects origCons nexts toVisit state middle)
    (second : Connects origCons others more middle result) :
    Connects origCons (nexts ++ others) (toVisit ++ more) state result where
  visited := second.visited.trans first.visited
  cloned := List.Subset.trans first.cloned second.cloned
  kept := List.Subset.trans first.kept second.kept
  terminators := by
    intro entry mem
    rcases second.terminators entry mem with old | new
    · exact first.terminators entry old
    · exact .inr new
  hasProxy := by rw [second.hasProxy, first.hasProxy, List.mem_append, or_assoc]
  proxy := fun recorded => second.proxy (first.proxy recorded)
  enqueued := fun block => by
    rw [second.enqueued, first.enqueued, List.mem_append, or_assoc]
  toVisit := by
    intro block mem
    rcases List.mem_append.mp mem with early | late
    · obtain ⟨isNext, apart, isCloned⟩ := first.toVisit block early
      exact ⟨List.mem_append_left _ isNext, apart, second.cloned isCloned⟩
    · obtain ⟨isNext, apart, isCloned⟩ := second.toVisit block late
      exact ⟨List.mem_append_right _ isNext, apart, isCloned⟩
  reached := by
    intro block mem apart
    rcases List.mem_append.mp mem with early | late
    · refine (first.reached block early apart).imp (fun seen => ?_) fun seen => ?_
      · rw [second.visited]
        exact seen
      · exact (second.enqueued block).mpr (.inl seen)
    · exact second.reached block late apart

variable {state : Building size}

/-- The consumer is reached for the first time. -/
theorem Connects.deliver : Connects origCons [origCons] [] state
    ({ state with hasProxy := true }.record .proxy (.br .sink)) where
  visited := rfl
  cloned := List.Subset.refl _
  kept := List.subset_cons_self _ _
  terminators := fun _ mem => (List.mem_cons.mp mem).symm
  hasProxy := by simp [Building.record]
  proxy := fun _ _ => List.mem_cons_self
  enqueued := by simp [Building.record]
  toVisit := fun _ mem => nomatch mem
  reached := fun _ mem apart => absurd (List.mem_singleton.mp mem) apart

/-- The consumer is reached again. -/
theorem Connects.again (has : state.hasProxy = true) :
    Connects origCons [origCons] [] state state where
  visited := rfl
  cloned := List.Subset.refl _
  kept := List.Subset.refl _
  terminators := fun _ => .inl
  hasProxy := by simp [has]
  proxy := fun recorded => recorded
  enqueued := by simp
  toVisit := fun _ mem => nomatch mem
  reached := fun _ mem apart => absurd (List.mem_singleton.mp mem) apart

/-- A successor that is not the consumer is cloned, and visited if it is to be. -/
theorem Connects.clone {succOrig : Fin size} {cloned enqueued toVisit : List (Fin size)}
    (notCons : succOrig ≠ origCons) (within : state.cloned ⊆ cloned) (isCloned : succOrig ∈ cloned)
    (isEnqueued : ∀ block, block ∈ enqueued ↔ block ∈ state.enqueued ∨ block ∈ toVisit)
    (isSucc : ∀ block ∈ toVisit, block = succOrig)
    (reached : succOrig ∈ state.visited ∨ succOrig ∈ enqueued) :
    Connects origCons [succOrig] toVisit state
      { state with cloned := cloned, enqueued := enqueued } where
  visited := rfl
  cloned := within
  kept := List.Subset.refl _
  terminators := fun _ => .inl
  hasProxy := by simp [notCons.symm]
  proxy := fun recorded => recorded
  enqueued := isEnqueued
  toVisit := by
    intro block mem
    rw [isSucc block mem]
    exact ⟨List.mem_singleton_self _, notCons, isCloned⟩
  reached := by
    intro block mem _
    rw [List.mem_singleton.mp mem]
    exact reached

/-- An edge that goes on leads to the consumer's proxy or to the clone of the successor. -/
theorem connects_connect {succOrig : Fin size} (isLater : currOrig < succOrig)
    (apart : succOrig ≠ origProd) (within : state.visited ⊆ state.cloned) :
    ∃ toVisit result, Building.connect origProd origCons currOrig state succOrig =
        (localDest origCons succOrig, toVisit, result) ∧
      Connects origCons [succOrig] toVisit state result := by
  rw [Building.connect, localDest]
  split
  · rename_i isCons
    subst isCons
    split
    · rename_i has
      exact ⟨[], state, rfl, .again has⟩
    · exact ⟨[], _, rfl, .deliver⟩
  · rename_i notCons
    split
    · rename_i isCloned
      split
      · exact ⟨_, _, rfl, .clone notCons (List.Subset.refl _) isCloned
          (fun block => by simp [or_comm]) (fun _ mem => List.mem_singleton.mp mem)
          (.inr List.mem_cons_self)⟩
      · rename_i known
        have reached : succOrig ∈ state.visited ∨ succOrig ∈ state.enqueued := by
          by_contra neither
          exact known (not_or.mp neither)
        exact ⟨_, _, rfl, .clone notCons (List.Subset.refl _) isCloned (by simp)
          (fun _ mem => absurd mem List.not_mem_nil) reached⟩
    · rename_i notCloned
      rw [if_neg (fun seen => notCloned (within seen)), if_neg (not_lt_of_gt isLater)]
      dsimp only
      split
      · exact ⟨_, _, rfl, .clone notCons (List.subset_cons_self _ _) List.mem_cons_self
          (fun block => by simp [or_comm]) (fun _ mem => List.mem_singleton.mp mem)
          (.inr List.mem_cons_self)⟩
      · rename_i known
        exact ⟨_, _, rfl, .clone notCons (List.subset_cons_self _ _) List.mem_cons_self (by simp)
          (fun _ mem => absurd mem List.not_mem_nil) (.inr (not_not.mp known))⟩

/-- All the edges of a block lead to the proxy and to clones. -/
theorem connects_connectAll (nexts : List (Fin size)) (later : ∀ next ∈ nexts, currOrig < next)
    (apart : origProd ∉ nexts) (within : state.visited ⊆ state.cloned) :
    ∃ toVisit result, Building.connectAll origProd origCons currOrig nexts state =
        (nexts.map (localDest origCons), toVisit, result) ∧
      Connects origCons nexts toVisit state result := by
  induction nexts generalizing state with
  | nil => exact ⟨[], state, rfl, .nil state⟩
  | cons next nexts inductionHypothesis =>
      obtain ⟨toVisit, middle, isMiddle, first⟩ := @connects_connect _ _ origCons _ _ _
        (later next List.mem_cons_self) (fun same => apart (same ▸ List.mem_cons_self)) within
      have stillWithin : middle.visited ⊆ middle.cloned := by
        rw [first.visited]
        exact List.Subset.trans within first.cloned
      obtain ⟨more, result, isResult, others⟩ := inductionHypothesis
        (fun next mem => later next (List.mem_cons_of_mem _ mem))
        (fun mem => apart (List.mem_cons_of_mem _ mem)) stillWithin
      refine ⟨toVisit ++ more, result, ?_, first.append others⟩
      rw [Building.connectAll, isMiddle]
      dsimp only
      rw [isResult]
      rfl

end Edges

/-! ### The search -/

section Search

variable {cfg : FunctionCFG size} {origProd origCons currOrig : Fin size}

/-- The visited blocks are cloned with their terminators; what follows them is the consumer or is
visited, if only later. -/
structure Clones (cfg : FunctionCFG size) (origProd origCons : Fin size) (state : Building size) :
    Prop where
  cloned : state.visited ⊆ state.cloned
  apart : origCons ∉ state.visited
  path : ∀ block ∈ state.visited, Path cfg.successors origProd block
  recorded : ∀ block ∈ state.visited,
    (.clone block, localTerminator cfg origCons block) ∈ state.terminators
  terminators : ∀ entry ∈ state.terminators, entry = (.proxy, .br .sink) ∨
    ∃ block, entry = (.clone block, localTerminator cfg origCons block)
  proxy : state.hasProxy = true → (.proxy, .br .sink) ∈ state.terminators
  reached : state.hasProxy = true → Path cfg.successors origProd origCons
  next : ∀ block ∈ state.visited, ∀ next ∈ cfg.successors block,
    (next = origCons → state.hasProxy = true) ∧
      (next ≠ origCons → next ∈ state.visited ∨ next ∈ state.enqueued)

/-- What a search keeps: it visits all that it enqueues. -/
structure Explores (state result : Building size) : Prop where
  visited : state.visited ⊆ result.visited
  cloned : state.cloned ⊆ result.cloned
  enqueued : ∀ block ∈ result.enqueued, block ∈ state.enqueued ∨ block ∈ result.visited

theorem Explores.refl (state : Building size) : Explores state state :=
  ⟨List.Subset.refl _, List.Subset.refl _, fun _ => .inl⟩

theorem Explores.trans {state middle result : Building size} (first : Explores state middle)
    (second : Explores middle result) : Explores state result where
  visited := List.Subset.trans first.visited second.visited
  cloned := List.Subset.trans first.cloned second.cloned
  enqueued := by
    intro block mem
    rcases second.enqueued block mem with early | late
    · exact (first.enqueued block early).imp_right fun seen => second.visited seen
    · exact .inr late

/-- If each of some blocks is explored in turn, all are visited. -/
theorem explores_foldl {go : Building size → Fin size → Building size} {blocks : List (Fin size)}
    {state : Building size}
    (goes : ∀ block ∈ blocks, ∀ state, Clones cfg origProd origCons state → block ∈ state.cloned →
      Clones cfg origProd origCons (go state block) ∧ Explores state (go state block) ∧
        block ∈ (go state block).visited)
    (clones : Clones cfg origProd origCons state) (within : blocks ⊆ state.cloned) :
    Clones cfg origProd origCons (blocks.foldl go state) ∧
      Explores state (blocks.foldl go state) ∧ blocks ⊆ (blocks.foldl go state).visited := by
  induction blocks generalizing state with
  | nil => exact ⟨clones, .refl state, List.nil_subset _⟩
  | cons first blocks inductionHypothesis =>
      obtain ⟨isCloned, others⟩ := List.cons_subset.mp within
      obtain ⟨after, one, isVisited⟩ := goes first List.mem_cons_self state clones isCloned
      obtain ⟨afterAll, rest, areVisited⟩ := inductionHypothesis
        (fun block mem => goes block (List.mem_cons_of_mem _ mem)) after
        (List.Subset.trans others one.cloned)
      exact ⟨afterAll, one.trans rest, List.cons_subset.mpr ⟨rest.visited isVisited, areVisited⟩⟩

/-- A block is visited: its terminator is recorded once its edges are connected. -/
theorem Clones.visit {state middle : Building size} {toVisit : List (Fin size)}
    (clones : Clones cfg origProd origCons state) (isCloned : currOrig ∈ state.cloned)
    (notCons : currOrig ≠ origCons) (path : Path cfg.successors origProd currOrig)
    (connects : Connects origCons (cfg.successors currOrig) toVisit
      { state with visited := currOrig :: state.visited } middle) :
    Clones cfg origProd origCons
      (middle.record (.clone currOrig) (localTerminator cfg origCons currOrig)) := by
  have visited : (middle.record (.clone currOrig) (localTerminator cfg origCons currOrig)).visited =
      currOrig :: state.visited := connects.visited
  refine ⟨?_, ?_, ?_, ?_, ?_, ?_, ?_, ?_⟩
  · rw [visited]
    exact List.cons_subset.mpr
      ⟨connects.cloned isCloned, List.Subset.trans clones.cloned connects.cloned⟩
  · rw [visited]
    exact List.not_mem_cons_of_ne_of_not_mem notCons.symm clones.apart
  · rw [visited]
    exact List.forall_mem_cons.mpr ⟨path, clones.path⟩
  · rw [visited]
    refine List.forall_mem_cons.mpr ⟨List.mem_cons_self, fun block mem => ?_⟩
    exact .tail _ (connects.kept (clones.recorded block mem))
  · intro entry mem
    rcases List.mem_cons.mp mem with rfl | old
    · exact .inr ⟨currOrig, rfl⟩
    · rcases connects.terminators entry old with older | isProxy
      · exact clones.terminators entry older
      · exact .inl isProxy
  · intro has
    exact .tail _ (connects.proxy clones.proxy has)
  · intro has
    rcases connects.hasProxy.mp has with old | isNext
    · exact clones.reached old
    · exact path.tail isNext
  · rw [visited]
    refine List.forall_mem_cons.mpr ⟨fun next edge => ⟨?_, ?_⟩, fun block mem next edge => ⟨?_, ?_⟩⟩
    · rintro rfl
      exact connects.hasProxy.mpr (.inr edge)
    · intro apart
      exact visited ▸ connects.reached next edge apart
    · intro isCons
      exact connects.hasProxy.mpr (.inl ((clones.next block mem next edge).1 isCons))
    · intro apart
      rcases (clones.next block mem next edge).2 apart with seen | waiting
      · exact .inl (.tail _ seen)
      · exact .inr ((connects.enqueued next).mpr (.inl waiting))

theorem branch_map_localDest (block : Fin size) (goesOn : cfg.terminator block ≠ .ret) :
    Building.branch (((cfg.terminator block).successors).map (localDest origCons)) =
      localTerminator cfg origCons block := by
  rw [localTerminator]
  cases isTerminator : cfg.terminator block with
  | ret => exact absurd isTerminator goesOn
  | br dest => rfl
  | condBr trueDest falseDest => rfl

/-- A search from a block visits it and all that it enqueues. -/
theorem explores_dfs {bound : Nat} {state : Building size} (enough : size ≤ currOrig + bound)
    (start : origProd ≤ currOrig) (notCons : currOrig ≠ origCons)
    (path : Path cfg.successors origProd currOrig) (clones : Clones cfg origProd origCons state)
    (isCloned : currOrig ∈ state.cloned) :
    Clones cfg origProd origCons (Building.dfs cfg origProd origCons bound state currOrig) ∧
      Explores state (Building.dfs cfg origProd origCons bound state currOrig) ∧
      currOrig ∈ (Building.dfs cfg origProd origCons bound state currOrig).visited := by
  induction bound generalizing currOrig state with
  | zero => exact absurd currOrig.isLt (Nat.not_lt_of_le enough)
  | succ bound inductionHypothesis =>
      have stillWithin : currOrig :: state.visited ⊆ state.cloned :=
        List.cons_subset.mpr ⟨isCloned, clones.cloned⟩
      have later : ∀ next ∈ cfg.successors currOrig, currOrig < next := fun _ => cfg.forward
      have apart : origProd ∉ cfg.successors currOrig :=
        fun edge => not_lt_of_ge start (later origProd edge)
      obtain ⟨toVisit, middle, isMiddle, connects⟩ := @connects_connectAll _ _ origCons _
        { state with visited := currOrig :: state.visited } (cfg.successors currOrig) later apart stillWithin
      have visited := clones.visit isCloned notCons path connects
      have result : Building.dfs cfg origProd origCons (bound + 1) state currOrig =
          toVisit.foldl (Building.dfs cfg origProd origCons bound)
            (middle.record (.clone currOrig) (localTerminator cfg origCons currOrig)) := by
        rw [Building.dfs]
        dsimp only
        split
        · rename_i isRet
          rw [FunctionCFG.successors, isRet] at isMiddle
          cases isMiddle
          rw [localTerminator, isRet]
          rfl
        · rename_i goesOn
          rw [← FunctionCFG.successors, isMiddle]
          dsimp only
          rw [FunctionCFG.successors, branch_map_localDest currOrig goesOn]
      rw [result]
      have isLast : (middle.record (.clone currOrig) (localTerminator cfg origCons currOrig)).visited
          = currOrig :: state.visited := connects.visited
      obtain ⟨after, explores, all⟩ := @explores_foldl _ _ _ _ _ toVisit _
        (fun next isNext further clones isCloned => by
          obtain ⟨edge, apart, _⟩ := connects.toVisit next isNext
          have isLater := Fin.lt_def.mp (later next edge)
          exact inductionHypothesis (by omega) (le_trans start (later next edge).le) apart
            (path.tail edge) clones isCloned)
        visited fun next isNext => (connects.toVisit next isNext).2.2
      refine ⟨after, ⟨fun block mem => ?_, ?_, fun block mem => ?_⟩, ?_⟩
      · exact explores.visited (isLast ▸ .tail _ mem)
      · exact List.Subset.trans connects.cloned explores.cloned
      · rcases explores.enqueued block mem with early | late
        · rcases (connects.enqueued block).mp early with old | new
          · exact .inl old
          · exact .inr (all new)
        · exact .inr late
      · exact explores.visited (isLast ▸ List.mem_cons_self)

end Search

/-! ### The local graph -/

section Graph

variable {cfg : FunctionCFG size} {origProd origCons : Fin size} {block : Fin size}

/-- What the search from the producer builds. -/
def built (cfg : FunctionCFG size) (origProd origCons : Fin size) : Building size :=
  Building.dfs cfg origProd origCons size ⟨[origProd], [], [], false, []⟩ origProd

variable (differ : origProd ≠ origCons)

section

include differ

theorem clones_built : Clones cfg origProd origCons (built cfg origProd origCons) ∧
    (built cfg origProd origCons).enqueued ⊆ (built cfg origProd origCons).visited ∧
    origProd ∈ (built cfg origProd origCons).visited := by
  have first : Clones cfg origProd origCons ⟨[origProd], [], [], false, []⟩ := by
    constructor <;> simp
  obtain ⟨clones, explores, visited⟩ := @explores_dfs _ _ _ _ _ size _ (by omega) (le_refl origProd)
    differ .refl first (List.mem_singleton_self _)
  refine ⟨clones, fun block mem => ?_, visited⟩
  exact (explores.enqueued block mem).resolve_left (fun mem => nomatch mem)

/-- Behind a visited block comes the consumer or another one. -/
theorem built_next (visited : block ∈ (built cfg origProd origCons).visited) {next : Fin size}
    (edge : next ∈ cfg.successors block) (apart : next ≠ origCons) :
    next ∈ (built cfg origProd origCons).visited := by
  obtain ⟨clones, within, _⟩ := @clones_built _ cfg _ _ differ
  exact ((clones.next block visited next edge).2 apart).elim id fun mem => within mem

/-- There is a proxy if the consumer is reached. -/
theorem hasProxy_iff :
    (built cfg origProd origCons).hasProxy = true ↔ Path cfg.successors origProd origCons := by
  obtain ⟨clones, _, start⟩ := @clones_built _ cfg _ _ differ
  refine ⟨clones.reached, fun path => ?_⟩
  have from_ : ∀ block ∈ (built cfg origProd origCons).visited,
      Path cfg.successors block origCons → (built cfg origProd origCons).hasProxy = true := by
    intro block visited path
    induction path using Relation.ReflTransGen.head_induction_on with
    | refl => exact absurd visited clones.apart
    | @head block next edge _ inductionHypothesis =>
        by_cases isCons : next = origCons
        · exact (clones.next block visited next edge).1 isCons
        · exact inductionHypothesis (built_next differ visited edge isCons)
  exact from_ origProd start path

end

/-- The distance of a block from the sink. -/
def localRank : LocalBlock size → Nat
  | .clone orig => size - orig + 1
  | .proxy => 1
  | .sink => 0

/-- How the blocks of the region end. -/
def entries (cfg : FunctionCFG size) (origProd origCons : Fin size) :
    List (LocalBlock size × Terminator (LocalBlock size)) :=
  (.sink, .ret) :: (built cfg origProd origCons).terminators

theorem terminator_eq (block : LocalBlock size) :
    (buildLocalCFGRegion cfg origProd origCons).terminator block =
      ((entries cfg origProd origCons).lookup block).getD (.br .sink) := rfl

/-- An entry that is found is one of the sink or of the search. -/
theorem mem_of_lookup {block : LocalBlock size} {found : Terminator (LocalBlock size)}
    (isFound : (entries cfg origProd origCons).lookup block = some found)
    (notSink : block ≠ .sink) : (block, found) ∈ (built cfg origProd origCons).terminators := by
  obtain ⟨front, rest, isEntries, _⟩ := List.lookup_eq_some_iff.mp isFound
  have mem : (block, found) ∈ entries cfg origProd origCons := by
    rw [isEntries]
    exact List.mem_append_right _ List.mem_cons_self
  exact (List.mem_cons.mp mem).resolve_left fun same => notSink (congrArg Prod.fst same)

section

include differ

variable (cfg) in
theorem terminator_proxy :
    (buildLocalCFGRegion cfg origProd origCons).terminator .proxy = .br .sink := by
  rw [terminator_eq]
  cases found : (entries cfg origProd origCons).lookup .proxy with
  | none => rfl
  | some terminator =>
      have mem := mem_of_lookup found nofun
      rcases (@clones_built _ cfg _ _ differ).1.terminators _ mem with same | ⟨_, same⟩
      · exact congrArg Prod.snd same
      · cases same

variable (cfg) in
/-- A block that was visited is cloned with its terminator, others lead to the sink. -/
theorem terminator_clone (block : Fin size) :
    (buildLocalCFGRegion cfg origProd origCons).terminator (.clone block) =
        localTerminator cfg origCons block ∨
      block ∉ (built cfg origProd origCons).visited ∧
        (buildLocalCFGRegion cfg origProd origCons).terminator (.clone block) = .br .sink := by
  obtain ⟨clones, _, _⟩ := @clones_built _ cfg _ _ differ
  rw [terminator_eq]
  cases found : (entries cfg origProd origCons).lookup (.clone block) with
  | none =>
      refine .inr ⟨fun visited => ?_, rfl⟩
      have apart := List.lookup_eq_none_iff.mp found _ (.tail _ (clones.recorded block visited))
      simp at apart
  | some terminator =>
      refine .inl ?_
      have mem := mem_of_lookup found nofun
      rcases clones.terminators _ mem with same | ⟨_, same⟩
      · cases same
      · cases same
        rfl

end

theorem localRank_localDest_lt {next : Fin size} (isLater : block < next) :
    localRank (localDest origCons next) < localRank (.clone block) := by
  have less := Fin.lt_def.mp isLater
  rw [localDest]
  split
  · simp only [localRank]
    omega
  · simp only [localRank]
    omega

include differ

variable (cfg)

theorem falls (block next : LocalBlock size)
    (edge : next ∈ (buildLocalCFGRegion cfg origProd origCons).successors block) :
    localRank next < localRank block := by
  rw [LocalCFG.successors] at edge
  cases block with
  | sink => cases edge
  | proxy =>
      rw [terminator_proxy cfg differ] at edge
      rw [List.mem_singleton.mp edge]
      exact Nat.one_pos
  | clone block =>
      rcases terminator_clone cfg differ block with isLocal | ⟨_, toSink⟩
      · rw [isLocal, localTerminator] at edge
        have forward {next : Fin size} := @FunctionCFG.forward _ cfg block next
        cases isTerminator : cfg.terminator block with
        | ret =>
            rw [isTerminator] at edge
            rw [List.mem_singleton.mp edge]
            exact Nat.succ_pos _
        | br dest =>
            rw [isTerminator] at edge forward
            rw [List.mem_singleton.mp edge]
            exact localRank_localDest_lt (forward List.mem_cons_self)
        | condBr trueDest falseDest =>
            rw [isTerminator] at edge forward
            rcases List.mem_pair.mp edge with rfl | rfl
            · exact localRank_localDest_lt (forward List.mem_cons_self)
            · exact localRank_localDest_lt (forward (.tail _ List.mem_cons_self))
      · rw [toSink] at edge
        rw [List.mem_singleton.mp edge]
        exact Nat.succ_pos _

theorem goesOn (block : LocalBlock size) (notSink : block ≠ .sink) :
    (buildLocalCFGRegion cfg origProd origCons).successors block ≠ [] := by
  rw [LocalCFG.successors]
  cases block with
  | sink => exact absurd rfl notSink
  | proxy =>
      rw [terminator_proxy cfg differ]
      exact List.cons_ne_nil _ _
  | clone block =>
      rcases terminator_clone cfg differ block with isLocal | ⟨_, toSink⟩
      · rw [isLocal, localTerminator]
        split <;> exact List.cons_ne_nil _ _
      · rw [toSink]
        exact List.cons_ne_nil _ _

omit differ in
theorem localRank_lt (block : LocalBlock size) : localRank block < size + 2 := by
  cases block with
  | clone orig =>
      have isLt := orig.isLt
      simp only [localRank]
      omega
  | proxy => exact Nat.succ_lt_succ (Nat.succ_pos _)
  | sink => exact Nat.succ_pos _

omit differ in
/-- The topological order lists what the producer leads to. -/
theorem postOrdered_topoOrder : PostOrdered
    (buildLocalCFGRegion cfg origProd origCons).successors [.clone origProd]
    (buildLocalCFGRegion cfg origProd origCons).topoOrder := by
  let nodes : List (LocalBlock size) := .sink :: .proxy :: (List.finRange size).map .clone
  have isNode : ∀ block, block ∈ nodes := by
    intro block
    cases block with
    | clone orig => exact .tail _ (.tail _ (List.mem_map_of_mem (List.mem_finRange orig)))
    | proxy => exact .tail _ (.head _)
    | sink => exact .head _
  have enough : nodes.length ≤ size + 2 := by simp [nodes]
  exact @postOrdered_topo _ _ _ _ (fun _ _ next _ => isNode next) _ [.clone origProd] enough
    fun block _ => isNode block

omit differ in
theorem mem_topoOrder_iff {block : LocalBlock size} :
    block ∈ (buildLocalCFGRegion cfg origProd origCons).topoOrder ↔
      Path (buildLocalCFGRegion cfg origProd origCons).successors (.clone origProd) block := by
  rw [(postOrdered_topoOrder cfg).mem_iff]
  simp

omit differ in
/-- The blocks of the region are those that the producer leads to. -/
theorem mem_blocks_iff {block : LocalBlock size} :
    block ∈ (buildLocalCFGRegion cfg origProd origCons).blocks ↔
      Path (buildLocalCFGRegion cfg origProd origCons).successors (.clone origProd) block := by
  have nodup := (@postOrdered_topoOrder _ cfg origProd origCons).nodup
  have isErased : block ∈ (buildLocalCFGRegion cfg origProd origCons).topoOrder.erase
      (.clone origProd) ↔ block ≠ .clone origProd ∧
        block ∈ (buildLocalCFGRegion cfg origProd origCons).topoOrder := nodup.mem_erase_iff
  refine (List.mem_cons.trans (or_congr_right isErased)).trans ?_
  rw [mem_topoOrder_iff]
  constructor
  · rintro (rfl | ⟨_, path⟩)
    · exact .refl
    · exact path
  · intro path
    by_cases same : block = .clone origProd
    · exact .inl same
    · exact .inr ⟨same, path⟩

theorem wellFormed_buildLocalCFGRegion :
    (buildLocalCFGRegion cfg origProd origCons).WellFormed localRank where
  falls := falls cfg differ
  goesOn := goesOn cfg differ
  ret := rfl
  nodup := by
    have nodup := (@postOrdered_topoOrder _ cfg origProd origCons).nodup
    exact List.nodup_cons.mpr ⟨fun mem => (nodup.mem_erase_iff.mp mem).1 rfl, nodup.erase _⟩
  kept := fun inside edge => (mem_blocks_iff cfg).mpr (((mem_blocks_iff cfg).mp inside).tail edge)
  enough := localRank_lt

end Graph

/-! ### Executions -/

section Execution

variable {cfg : FunctionCFG size} {outcome : Fin size → Bool} {origProd origCons : Fin size}
  {block : Fin size}

/-- Where an execution goes on. -/
def FunctionCFG.taken (cfg : FunctionCFG size) (outcome : Fin size → Bool) (block : Fin size) :
    Option (Fin size) :=
  (cfg.terminator block).taken (outcome block)

theorem mem_visited_iff {steps : Nat} {last : Fin size} (enough : size ≤ block + steps) :
    last ∈ visited cfg.terminator outcome steps block ↔ Leads (cfg.taken outcome) block last := by
  induction steps generalizing block with
  | zero => exact absurd block.isLt (Nat.not_lt_of_le enough)
  | succ steps inductionHypothesis =>
      rw [visited, List.mem_cons]
      by_cases same : last = block
      · exact iff_of_true (.inl same) (same ▸ .refl)
      · rw [or_iff_right same]
        cases isTaken : (cfg.terminator block).taken (outcome block) with
        | none =>
            exact iff_of_false List.not_mem_nil fun leads => same (leads.eq_of_none isTaken).symm
        | some next =>
            have isLater := Fin.lt_def.mp (cfg.forward (Terminator.mem_of_taken isTaken))
            have further : last ∈ visited cfg.terminator outcome steps next ↔ _ :=
              inductionHypothesis (by omega)
            exact further.trans (leads_iff_of_taken isTaken (Ne.symm same)).symm

/-- The blocks of an execution are those that its run leads to. -/
theorem mem_execution_iff {last : Fin size} :
    last ∈ cfg.execution outcome block ↔ Leads (cfg.taken outcome) block last :=
  mem_visited_iff (Nat.le_add_left size block)

theorem taken_clone (differ : origProd ≠ origCons)
    (visited : block ∈ (built cfg origProd origCons).visited) :
    (buildLocalCFGRegion cfg origProd origCons).taken outcome (.clone block) =
      some ((cfg.taken outcome block).elim .sink (localDest origCons)) := by
  have isLocal := (terminator_clone cfg differ block).resolve_right fun apart => apart.1 visited
  have isOrig : (buildLocalCFGRegion cfg origProd origCons).origMap (.clone block) = some block := rfl
  rw [LocalCFG.taken, isLocal, isOrig, localTerminator, FunctionCFG.taken, Option.elim_some]
  cases cfg.terminator block with
  | ret => rfl
  | br dest => rfl
  | condBr trueDest falseDest => cases outcome block <;> rfl

/-- The run in the local graph leads to the proxy if the execution reaches the consumer. -/
theorem leads_proxy_iff (differ : origProd ≠ origCons)
    (visited : block ∈ (built cfg origProd origCons).visited) :
    Leads ((buildLocalCFGRegion cfg origProd origCons).taken outcome) (.clone block) .proxy ↔
      Leads (cfg.taken outcome) block origCons := by
  induction isRank : size - block using Nat.strong_induction_on generalizing block with
  | _ rank inductionHypothesis =>
      have notCons : block ≠ origCons :=
        fun same => (clones_built differ).1.apart (same ▸ visited)
      have goesOn := @taken_clone _ _ outcome _ _ _ differ visited
      have notProxy : LocalBlock.clone block ≠ .proxy := nofun
      rw [leads_iff_of_taken goesOn notProxy]
      cases isTaken : cfg.taken outcome block with
      | none =>
          refine iff_of_false (fun leads => ?_) fun leads => notCons (leads.eq_of_none isTaken)
          exact absurd (leads.eq_of_none rfl) nofun
      | some next =>
          rw [leads_iff_of_taken isTaken notCons, Option.elim_some]
          have edge : next ∈ cfg.successors block := Terminator.mem_of_taken isTaken
          have isLater := Fin.lt_def.mp (cfg.forward edge)
          rw [localDest]
          split
          · rename_i isCons
            exact iff_of_true .refl (isCons ▸ .refl)
          · rename_i apart
            exact inductionHypothesis (size - next) (by omega) (built_next differ visited edge apart)
              rfl

end Execution

end Dynamatic.Suppression
