import Dynamatic.MemoryDependence.LoopDepth

/-!
# The index analysis of a SCoP

`computeIntersections` compares the accesses of every store of a SCoP with those of the other
loads and stores to its array. Where one depends on the other it compares iterations of the
common loops of the SCoP only, and so it counts those loops, from a depth that Polly's region
says where to start.
-/

namespace Dynamatic.MemoryDependence

universe u v

/-- `isl::constraint`: an equality or an inequality on the input dimensions. -/
structure IslConstraint where
  inequality : Bool
  constant : Int
  coefficients : List (Nat × Int)

/-- What the analysis calls of isl; `none` stands for an isl error. -/
structure Isl (Map : Type u) where
  dimIn : Map → Option Nat
  projectOutIn : Map → Nat → Nat → Map
  addDimsIn : Map → Nat → Map
  addConstraint : Map → IslConstraint → Map
  unite : Map → Map → Map
  setTupleIdIn : Map → String → Map
  setTupleIdOut : Map → String → Map
  intersect : Map → Map → Map
  isEmpty : Map → Option Bool

/-- How the analysis can stop: one constructor for each assertion and fatal error. -/
inductive Failure where
  | nullLoop
  | scopMinDepth
  | negativeDepthToKeep
  | tooFewDims
  | noFutureMap
  | islError
  deriving DecidableEq

/-- The loops around the instructions made the analysis stop. -/
def Failure.aboutLoops : Failure → Bool
  | .nullLoop | .scopMinDepth | .negativeDepthToKeep => true
  | .tooFewDims | .noFutureMap | .islError => false

section Maps

variable {Map : Type u} (isl : Isl Map)

def removeMapMeta (map : Map) : Map :=
  isl.setTupleIdOut (isl.setTupleIdIn map "") ""

/-- The constraints on the `n` most significant dimensions: equal but for the last, in which the
new iteration comes earlier. -/
def addFutureCondition (map : Map) (n : Nat) : Except Failure Map :=
  match isl.dimIn map with
  | none => .error .islError
  | some dims =>
      let nIns := dims / 2
      .ok ((List.range n).foldl (fun constrMap i =>
        isl.addConstraint constrMap
          { inequality := i = n - 1
            constant := if i = n - 1 then -1 else 0
            coefficients := [(i, 1), (i + nIns, -1)] }) map)

/-- The iterations that come after those of the map. -/
def makeFutureMap (map : Map) : Except Failure Map :=
  match isl.dimIn map with
  | none => .error .islError
  | some nIns => do
      let tmpMap := isl.addDimsIn map nIns
      let fMap ← (List.range nIns).foldlM (fun (fMap : Option Map) i => do
        let constrMapN ← addFutureCondition isl tmpMap (i + 1)
        match fMap with
        | none => pure (some constrMapN)
        | some united => pure (some (isl.unite united constrMapN))) none
      match fMap with
      | none => .error .noFutureMap
      | some united => .ok (isl.projectOutIn united 0 nIns)

def getMap (currentMap : Map) (depthToKeep : Nat) (getFuture : Bool) : Except Failure Map :=
  match isl.dimIn currentMap with
  | none => .error .islError
  | some inDimValue =>
      if depthToKeep ≤ inDimValue then do
        let retMap := isl.projectOutIn currentMap depthToKeep (inDimValue - depthToKeep)
        let retMap ← if getFuture && 0 < depthToKeep then makeFutureMap isl retMap else .ok retMap
        .ok (removeMapMeta isl retMap)
      else .error .tooFewDims

end Maps

/-- What the analysis asks of an instruction. -/
structure Instructions (Inst Block : Type u) where
  getParent : Inst → Block
  mayWriteToMemory : Inst → Bool
  mayReadOrWriteMemory : Inst → Bool
  isLoadInst : Inst → Bool
  isCallInst : Inst → Bool

/-- A statement, with the access relation of its instructions in its domain. -/
structure ScopStmt (Inst Block Base Map : Type u) where
  getBasicBlock : Block
  getInstructions : List Inst
  accessRelation : Inst → Map
  originalBaseAddr : Inst → Base

/-- A region that Polly found, with its statements and what Polly says of a loop's depth in it. -/
structure Scop (Inst Block Loop Base Map : Type u) where
  begin : ScopStmt Inst Block Base Map
  others : List (ScopStmt Inst Block Base Map)
  getRelativeLoopDepth : Option Loop → Int

/-- The fields that `computeIntersections` reads. -/
structure ScopAnalysisInfo (Inst Base Map : Type u) where
  scopMinDepth : Int
  memInsts : List Inst
  instToCurrentMap : Inst → Option Map
  instToBase : Inst → Option Base

section Analysis

variable {Inst Block Loop Base Map : Type u} [DecidableEq Inst] [DecidableEq Loop]
  [DecidableEq Base]

namespace Scop

variable (scop : Scop Inst Block Loop Base Map)

def stmts : List (ScopStmt Inst Block Base Map) :=
  scop.begin :: scop.others

end Scop

namespace ScopAnalysisInfo

/-- The constructor, with its assertion. -/
def ofScop (loopInfo : LoopInfo Block Loop) (scop : Scop Inst Block Loop Base Map) :
    Except Failure (ScopAnalysisInfo Inst Base Map) :=
  let bb := scop.begin.getBasicBlock
  let loop := loopInfo.getLoopFor bb
  let scopMinDepth := (loopInfo.getLoopDepth bb : Int) - scop.getRelativeLoopDepth loop
  if scopMinDepth > 0 then
    .ok { scopMinDepth, memInsts := [], instToCurrentMap := fun _ => none,
          instToBase := fun _ => none }
  else .error .scopMinDepth

/-- The map keeps the relation that an instruction was first given, the array is overwritten. -/
def addInst (info : ScopAnalysisInfo Inst Base Map) (stmt : ScopStmt Inst Block Base Map)
    (inst : Inst) : ScopAnalysisInfo Inst Base Map :=
  { info with
    instToCurrentMap := Function.update info.instToCurrentMap inst
      (some ((info.instToCurrentMap inst).getD (stmt.accessRelation inst)))
    instToBase := Function.update info.instToBase inst (some (stmt.originalBaseAddr inst))
    memInsts := info.memInsts ++ [inst] }

def addScopStmt (instructions : Instructions Inst Block) (info : ScopAnalysisInfo Inst Base Map)
    (stmt : ScopStmt Inst Block Base Map) : ScopAnalysisInfo Inst Base Map :=
  (stmt.getInstructions.filter fun inst =>
    instructions.mayReadOrWriteMemory inst && !instructions.isCallInst inst).foldl
      (fun info inst => info.addInst stmt inst) info

/-- The maps that a pair is compared by: past iterations of the store and, if there is a
dependency, only the future ones of the load in the loops that surround both. -/
def mapsToCompare (isl : Isl Map) (instructions : Instructions Inst Block)
    (loopInfo : LoopInfo Block Loop) (hasDependency : Inst → Inst → Bool)
    (info : ScopAnalysisInfo Inst Base Map) (storeInst secondInst : Inst)
    (storeMap secondMap : Map) : Except Failure (Option (Map × Map)) :=
  match getOutMostCommonLoopDepth loopInfo (instructions.getParent secondInst)
      (instructions.getParent storeInst) with
  | none => .error .nullLoop
  | some commonDepth =>
      if instructions.isLoadInst secondInst && hasDependency storeInst secondInst then
        if commonDepth = 0 ∧ info.scopMinDepth = 1 then .ok none
        else if commonDepth - info.scopMinDepth + 1 ≥ 0 then do
          let depthToKeep := (commonDepth - info.scopMinDepth + 1).toNat
          let instMap ← getMap isl secondMap depthToKeep true
          let wrInstMap ← getMap isl storeMap depthToKeep false
          pure (some (instMap, wrInstMap))
        else .error .negativeDepthToKeep
      else do
        let wrInstMap ← getMap isl storeMap 0 false
        let instMap ← getMap isl secondMap 0 false
        pure (some (instMap, wrInstMap))

/-- The body of both loops. An instruction without a relation reads a null map. -/
def compare (isl : Isl Map) (instructions : Instructions Inst Block)
    (loopInfo : LoopInfo Block Loop) (hasDependency : Inst → Inst → Bool)
    (info : ScopAnalysisInfo Inst Base Map) (storeInst : Inst)
    (intersections : List (Inst × Inst)) (secondInst : Inst) :
    Except Failure (List (Inst × Inst)) :=
  if secondInst = storeInst then .ok intersections
  else if info.instToBase secondInst ≠ info.instToBase storeInst then .ok intersections
  else
    match info.instToCurrentMap storeInst, info.instToCurrentMap secondInst with
    | some storeMap, some secondMap => do
        match ← info.mapsToCompare isl instructions loopInfo hasDependency storeInst secondInst
            storeMap secondMap with
        | none => pure intersections
        | some (instMap, wrInstMap) =>
            if isl.isEmpty (isl.intersect instMap wrInstMap) = some false then
              pure (intersections.insert (storeInst, secondInst))
            else pure intersections
    | _, _ => .error .islError

def computeIntersections (isl : Isl Map) (instructions : Instructions Inst Block)
    (loopInfo : LoopInfo Block Loop) (hasDependency : Inst → Inst → Bool)
    (info : ScopAnalysisInfo Inst Base Map) : Except Failure (List (Inst × Inst)) :=
  info.memInsts.foldlM (fun intersections storeInst =>
    if instructions.mayWriteToMemory storeInst then
      info.memInsts.foldlM
        (info.compare isl instructions loopInfo hasDependency storeInst) intersections
    else pure intersections) []

end ScopAnalysisInfo

/-- `processScop` as far as the intersections: a statement that accesses no memory adds nothing. -/
def processScop (isl : Isl Map) (instructions : Instructions Inst Block)
    (loopInfo : LoopInfo Block Loop) (hasDependency : Inst → Inst → Bool)
    (scop : Scop Inst Block Loop Base Map) : Except Failure (List (Inst × Inst)) := do
  let start ← ScopAnalysisInfo.ofScop loopInfo scop
  let info := (scop.stmts.filter fun stmt =>
    stmt.getInstructions.any instructions.mayReadOrWriteMemory).foldl
      (fun info stmt => info.addScopStmt instructions stmt) start
  info.computeIntersections isl instructions loopInfo hasDependency

/-- What Polly documents of a region. A loop is contained in it or not; one that is not contained
but is around a statement is around the whole region. The depth of a loop is counted from the
outermost one contained in the region, and is minus one for a loop that is not contained. -/
structure Scop.Documented (scop : Scop Inst Block Loop Base Map)
    (instructions : Instructions Inst Block) (loopInfo : LoopInfo Block Loop)
    (contains : Loop → Prop) : Prop where
  relative_outside : ∀ place, (∀ loop, place = some loop → ¬ contains loop) →
    scop.getRelativeLoopDepth place = -1
  relative_inside : ∀ loop, contains loop → ∃ outer,
    (outer ∈ loopInfo.loops.chain (some loop) ∧
      ∀ above, loopInfo.getParentLoop outer = some above → ¬ contains above) ∧
    scop.getRelativeLoopDepth (some loop) = (loopInfo.depthOf loop : Int) - loopInfo.depthOf outer
  around : ∀ loop, ¬ contains loop → ∀ stmt ∈ scop.stmts, ∀ other ∈ scop.stmts,
    loopInfo.Contains loop stmt.getBasicBlock → loopInfo.Contains loop other.getBasicBlock
  parent : ∀ stmt ∈ scop.stmts, ∀ inst ∈ stmt.getInstructions,
    instructions.getParent inst = stmt.getBasicBlock

end Analysis

section Loops

variable {Inst Block Loop Base Map : Type u} {instructions : Instructions Inst Block}
  {loopInfo : LoopInfo Block Loop} {scop : Scop Inst Block Loop Base Map} {contains : Loop → Prop}

/-- A place around the first statement, from which the analysis starts one deeper. -/
theorem exists_surrounding (documented : scop.Documented instructions loopInfo contains) :
    ∃ place,
      (loopInfo.getLoopDepth scop.begin.getBasicBlock : Int) -
          scop.getRelativeLoopDepth (loopInfo.getLoopFor scop.begin.getBasicBlock) =
        (loopInfo.loops.depth place : Int) + 1 ∧
      ∀ loop, place = some loop →
        ¬ contains loop ∧ loopInfo.Contains loop scop.begin.getBasicBlock := by
  simp only [LoopInfo.getLoopDepth, LoopInfo.Contains]
  cases innermost : loopInfo.getLoopFor scop.begin.getBasicBlock with
  | none =>
    have nowhere : ∀ loop, none = some loop → ¬ contains loop := by
      intro loop isLoop
      cases isLoop
    refine ⟨none, ?_, fun loop isLoop => ?_⟩
    · rw [documented.relative_outside none nowhere]
      rfl
    · cases isLoop
  | some loop =>
    by_cases inside : contains loop
    · obtain ⟨outer, ⟨around, outermost⟩, relative⟩ := documented.relative_inside loop inside
      refine ⟨loopInfo.getParentLoop outer, ?_, fun above parent => ⟨outermost above parent, ?_⟩⟩
      · rw [relative, LoopInfo.depthOf, LoopInfo.depthOf, loopInfo.loops.depth_some outer,
          LoopInfo.getParentLoop]
        omega
      · refine loopInfo.loops.mem_chain_trans ?_ around
        rw [loopInfo.loops.chain_some, show loopInfo.loops.parent outer = some above from parent]
        exact List.mem_cons_of_mem _ (loopInfo.loops.mem_chain_self above)
    · have outside : ∀ other, some loop = some other → ¬ contains other := by
        rintro other ⟨⟩
        exact inside
      refine ⟨some loop, ?_, ?_⟩
      · rw [documented.relative_outside (some loop) outside]
        omega
      · rintro other ⟨⟩
        exact ⟨inside, loopInfo.loops.mem_chain_self loop⟩

/-- What holds of the analysis while statements are added: it starts at a depth that surrounds
the region, and its instructions are in the region. -/
structure ScopAnalysisInfo.Within (info : ScopAnalysisInfo Inst Base Map)
    (instructions : Instructions Inst Block) (loopInfo : LoopInfo Block Loop)
    (scop : Scop Inst Block Loop Base Map) : Prop where
  surrounded : ∃ place, info.scopMinDepth = (loopInfo.loops.depth place : Int) + 1 ∧
    ∀ loop, place = some loop → ∀ stmt ∈ scop.stmts, loopInfo.Contains loop stmt.getBasicBlock
  inStmts : ∀ inst ∈ info.memInsts, ∃ stmt ∈ scop.stmts,
    instructions.getParent inst = stmt.getBasicBlock

/-- The assertion of the constructor holds. -/
theorem ofScop_within (documented : scop.Documented instructions loopInfo contains) :
    ∃ info, ScopAnalysisInfo.ofScop loopInfo scop = .ok info ∧
      info.Within instructions loopInfo scop := by
  obtain ⟨place, minDepth, around⟩ := exists_surrounding documented
  have positive : (loopInfo.loops.depth place : Int) + 1 > 0 := by omega
  refine ⟨_, by rw [ScopAnalysisInfo.ofScop, minDepth, if_pos positive], ?_, ?_⟩
  · refine ⟨place, rfl, fun loop isPlace stmt mem => ?_⟩
    obtain ⟨outside, first⟩ := around loop isPlace
    exact documented.around loop outside scop.begin List.mem_cons_self stmt mem first
  · exact fun inst mem => absurd mem List.not_mem_nil

theorem ScopAnalysisInfo.Within.addInst [DecidableEq Inst] {info : ScopAnalysisInfo Inst Base Map}
    (within : info.Within instructions loopInfo scop)
    {stmt : ScopStmt Inst Block Base Map} {inst : Inst}
    (inStmt : ∃ stmt ∈ scop.stmts, instructions.getParent inst = stmt.getBasicBlock) :
    (info.addInst stmt inst).Within instructions loopInfo scop where
  surrounded := within.surrounded
  inStmts := by
    intro other mem
    cases List.mem_append.mp mem with
    | inl before => exact within.inStmts other before
    | inr last => exact List.mem_singleton.mp last ▸ inStmt

theorem ScopAnalysisInfo.Within.addScopStmt [DecidableEq Inst]
    {info : ScopAnalysisInfo Inst Base Map}
    (within : info.Within instructions loopInfo scop)
    (documented : scop.Documented instructions loopInfo contains)
    {stmt : ScopStmt Inst Block Base Map} (mem : stmt ∈ scop.stmts) :
    (info.addScopStmt instructions stmt).Within instructions loopInfo scop := by
  refine List.foldlRecOn
    (motive := fun info : ScopAnalysisInfo Inst Base Map => info.Within instructions loopInfo scop) _ _ within ?_
  refine fun info within inst accesses => within.addInst ?_
  exact ⟨stmt, mem, documented.parent stmt mem inst (List.mem_filter.mp accesses).1⟩

/-- The loops that surround the region are around both instructions. -/
theorem ScopAnalysisInfo.Within.kept [DecidableEq Loop] {info : ScopAnalysisInfo Inst Base Map}
    (within : info.Within instructions loopInfo scop) {first second : Inst} {commonDepth : Int}
    (firstMem : first ∈ info.memInsts) (secondMem : second ∈ info.memInsts)
    (common : getOutMostCommonLoopDepth loopInfo (instructions.getParent first)
      (instructions.getParent second) = some commonDepth) :
    commonDepth - info.scopMinDepth + 1 ≥ 0 := by
  obtain ⟨place, minDepth, around⟩ := within.surrounded
  obtain ⟨stmt, stmtMem, parent⟩ := within.inStmts first firstMem
  obtain ⟨stmt', stmtMem', parent'⟩ := within.inStmts second secondMem
  rw [parent, parent'] at common
  have bound : (loopInfo.loops.depth place : Int) ≤ commonDepth := by
    cases place with
    | none =>
      obtain ⟨meet, found, -⟩ := getOutMostCommonLoopDepth_eq loopInfo stmt.getBasicBlock
        stmt'.getBasicBlock
      obtain rfl := Option.some.inj (found.symm.trans common)
      exact Int.natCast_nonneg _
    | some loop =>
      exact depthOf_le_common loopInfo (around loop rfl stmt stmtMem)
        (around loop rfl stmt' stmtMem') common
  omega

end Loops

section Failures

/-- The result is no failure for the sake of the loops. -/
def NoLoopFailure {Result : Type u} (result : Except Failure Result) : Prop :=
  ∀ failure, result = .error failure → failure.aboutLoops = false

variable {Item : Type v} {Result Next : Type u}

theorem NoLoopFailure.ok (result : Result) : NoLoopFailure (.ok result) :=
  nofun

theorem NoLoopFailure.error {failure : Failure} (other : failure.aboutLoops = false) :
    NoLoopFailure (.error failure : Except Failure Result) := by
  rintro _ ⟨⟩
  exact other

theorem NoLoopFailure.bind {first : Except Failure Result} {next : Result → Except Failure Next}
    (noFailure : NoLoopFailure first)
    (nextNoFailure : ∀ result, first = .ok result → NoLoopFailure (next result)) :
    NoLoopFailure (first >>= next) := by
  cases first with
  | error failure =>
    rintro _ ⟨⟩
    exact noFailure failure rfl
  | ok result => exact nextNoFailure result rfl

theorem NoLoopFailure.foldlM {step : Result → Item → Except Failure Result} {items : List Item}
    (noFailure : ∀ state, ∀ item ∈ items, NoLoopFailure (step state item)) (start : Result) :
    NoLoopFailure (items.foldlM step start) := by
  induction items generalizing start with
  | nil => exact .ok start
  | cons item items ih =>
    rw [List.foldlM_cons]
    exact (noFailure start item List.mem_cons_self).bind fun state _ =>
      ih (fun state other mem => noFailure state other (List.mem_cons_of_mem _ mem)) state

theorem addFutureCondition_noLoopFailure (isl : Isl Result) (map : Result) (n : Nat) :
    NoLoopFailure (addFutureCondition isl map n) := by
  unfold addFutureCondition
  split
  · exact .error rfl
  · exact .ok _

theorem makeFutureMap_noLoopFailure (isl : Isl Result) (map : Result) :
    NoLoopFailure (makeFutureMap isl map) := by
  unfold makeFutureMap
  split
  · exact .error rfl
  · refine .bind (.foldlM (fun state i _ => ?_) none) fun fMap _ => ?_
    · refine (addFutureCondition_noLoopFailure isl _ _).bind fun constrMapN _ => ?_
      cases state <;> exact .ok _
    · cases fMap with
      | none => exact .error rfl
      | some united => exact .ok _

theorem getMap_noLoopFailure (isl : Isl Result) (map : Result) (depthToKeep : Nat)
    (getFuture : Bool) : NoLoopFailure (getMap isl map depthToKeep getFuture) := by
  unfold getMap
  split
  · exact .error rfl
  · split
    · dsimp only
      split
      · exact (makeFutureMap_noLoopFailure isl _).bind fun retMap _ => .ok _
      · exact .ok _
    · exact .error rfl

end Failures

section Intersections

variable {Inst Block Loop Base Map : Type u} [DecidableEq Inst] [DecidableEq Loop]
  [DecidableEq Base] {instructions : Instructions Inst Block} {loopInfo : LoopInfo Block Loop}
  {scop : Scop Inst Block Loop Base Map} {contains : Loop → Prop}

namespace ScopAnalysisInfo

omit [DecidableEq Inst] [DecidableEq Base] in
theorem Within.mapsToCompare {info : ScopAnalysisInfo Inst Base Map}
    (within : info.Within instructions loopInfo scop) (isl : Isl Map)
    (hasDependency : Inst → Inst → Bool) {storeInst secondInst : Inst}
    (storeMem : storeInst ∈ info.memInsts) (secondMem : secondInst ∈ info.memInsts)
    (storeMap secondMap : Map) :
    NoLoopFailure (info.mapsToCompare isl instructions loopInfo hasDependency storeInst
      secondInst storeMap secondMap) := by
  obtain ⟨meet, common, -⟩ := getOutMostCommonLoopDepth_eq loopInfo
    (instructions.getParent secondInst) (instructions.getParent storeInst)
  have kept := within.kept secondMem storeMem common
  unfold ScopAnalysisInfo.mapsToCompare
  rw [common]
  dsimp only
  rw [if_pos kept]
  split
  · split
    · exact .ok _
    · exact (getMap_noLoopFailure isl _ _ _).bind fun instMap _ =>
        (getMap_noLoopFailure isl _ _ _).bind fun wrInstMap _ => .ok _
  · exact (getMap_noLoopFailure isl _ _ _).bind fun wrInstMap _ =>
      (getMap_noLoopFailure isl _ _ _).bind fun instMap _ => .ok _

theorem Within.compare {info : ScopAnalysisInfo Inst Base Map}
    (within : info.Within instructions loopInfo scop) (isl : Isl Map)
    (hasDependency : Inst → Inst → Bool) {storeInst secondInst : Inst}
    (storeMem : storeInst ∈ info.memInsts) (secondMem : secondInst ∈ info.memInsts)
    (intersections : List (Inst × Inst)) :
    NoLoopFailure (info.compare isl instructions loopInfo hasDependency storeInst
      intersections secondInst) := by
  unfold ScopAnalysisInfo.compare
  split
  · exact .ok _
  split
  · exact .ok _
  split
  · refine (within.mapsToCompare isl hasDependency storeMem secondMem _ _).bind fun maps _ => ?_
    cases maps with
    | none => exact .ok _
    | some maps =>
      dsimp only
      split <;> exact .ok _
  · exact .error rfl

theorem Within.computeIntersections {info : ScopAnalysisInfo Inst Base Map}
    (within : info.Within instructions loopInfo scop) (isl : Isl Map)
    (hasDependency : Inst → Inst → Bool) :
    NoLoopFailure (info.computeIntersections isl instructions loopInfo hasDependency) := by
  refine .foldlM (fun intersections storeInst storeMem => ?_) []
  split
  · exact .foldlM (fun intersections secondInst secondMem =>
      within.compare isl hasDependency storeMem secondMem intersections) intersections
  · exact .ok _

end ScopAnalysisInfo

/-- The loops never make the analysis of a SCoP stop. -/
theorem processScop_noLoopFailure (documented : scop.Documented instructions loopInfo contains)
    (isl : Isl Map) (hasDependency : Inst → Inst → Bool) :
    NoLoopFailure (processScop isl instructions loopInfo hasDependency scop) := by
  obtain ⟨start, constructed, startWithin⟩ := ofScop_within documented
  rw [processScop, constructed]
  refine @ScopAnalysisInfo.Within.computeIntersections _ _ _ _ _ _ _ _ _ _ scop _ ?_ isl
    hasDependency
  refine List.foldlRecOn (motive := fun info : ScopAnalysisInfo Inst Base Map =>
    info.Within instructions loopInfo scop) _ _ startWithin ?_
  exact fun info within stmt accesses =>
    within.addScopStmt documented (List.mem_filter.mp accesses).1

/-- The depth is that of the innermost loop around both instructions, zero if there is none, and
with it the number of loop dimensions that `computeIntersections` keeps is not negative. -/
theorem getOutMostCommonLoopDepth_correct (loopInfo : LoopInfo Block Loop) :
    (∀ bb0 bb1,
      (∃ loop, loopInfo.InnermostCommon loop bb0 bb1 ∧
        getOutMostCommonLoopDepth loopInfo bb0 bb1 = some (loopInfo.depthOf loop : Int)) ∨
      (∀ loop, ¬ (loopInfo.Contains loop bb0 ∧ loopInfo.Contains loop bb1)) ∧
        getOutMostCommonLoopDepth loopInfo bb0 bb1 = some 0) ∧
    ∀ (instructions : Instructions Inst Block) (scop : Scop Inst Block Loop Base Map)
      (contains : Loop → Prop) (isl : Isl Map) (hasDependency : Inst → Inst → Bool),
      scop.Documented instructions loopInfo contains → ∀ failure,
        processScop isl instructions loopInfo hasDependency scop = .error failure →
          failure ∉ [.nullLoop, .scopMinDepth, .negativeDepthToKeep] := by
  refine ⟨getOutMostCommonLoopDepth_innermost loopInfo, ?_⟩
  intro instructions scop contains isl hasDependency documented failure failed
  have other := processScop_noLoopFailure documented isl hasDependency failure failed
  cases failure <;> first | exact absurd other (by decide) | decide

/-- A loop around a SCoP that is a loop itself, with a load and a store in its body. -/
def nestedLoops : LoopInfo Nat Nat where
  loops :=
    { parent := fun loop => if loop = 1 then some 0 else none
      rank := id
      rank_parent := by
        intro node above isParent
        split at isParent
        · obtain rfl := Option.some.inj isParent
          simp [*]
        · cases isParent }
  loopFor := fun block => if block = 0 then some 0 else some 1

def loadAndStore : Instructions Nat Nat where
  getParent := fun _ => 1
  mayWriteToMemory := fun inst => inst = 1
  mayReadOrWriteMemory := fun _ => true
  isLoadInst := fun inst => inst = 0
  isCallInst := fun _ => false

/-- Maps that only count their input dimensions, and never miss each other. -/
def dimsOnly : Isl Nat where
  dimIn := some
  projectOutIn := fun dims _ count => dims - count
  addDimsIn := fun dims count => dims + count
  addConstraint := fun dims _ => dims
  unite := fun dims _ => dims
  setTupleIdIn := fun dims _ => dims
  setTupleIdOut := fun dims _ => dims
  intersect := fun dims _ => dims
  isEmpty := fun _ => some false

def innerScop : Scop Nat Nat Nat Nat Nat where
  begin :=
    { getBasicBlock := 1
      getInstructions := [0, 1]
      accessRelation := fun _ => 1
      originalBaseAddr := fun _ => 7 }
  others := []
  getRelativeLoopDepth := fun place => if place = some 1 then 0 else -1

example : processScop dimsOnly loadAndStore nestedLoops (fun _ _ => true) innerScop =
    .ok [(1, 0)] := by decide

theorem innerScop_documented :
    innerScop.Documented loadAndStore nestedLoops (fun loop => loop = 1) where
  relative_outside := by
    intro place outside
    refine if_neg fun inner => ?_
    exact outside 1 inner rfl
  relative_inside := by
    rintro _ rfl
    exact ⟨1, by decide, by decide⟩
  around := by
    intro loop outside stmt mem other otherMem
    cases List.mem_singleton.mp mem
    cases List.mem_singleton.mp otherMem
    exact id
  parent := by
    intro stmt mem inst instMem
    cases List.mem_singleton.mp mem
    rfl

theorem getOutMostCommonLoopDepth_innerScop :
    innerScop.Documented loadAndStore nestedLoops (fun loop => loop = 1) ∧
    ∀ failure, processScop dimsOnly loadAndStore nestedLoops (fun _ _ => true) innerScop =
      .error failure → failure ∉ [.nullLoop, .scopMinDepth, .negativeDepthToKeep] :=
  ⟨innerScop_documented, (getOutMostCommonLoopDepth_correct nestedLoops).2 loadAndStore innerScop
    (fun loop => loop = 1) dimsOnly (fun _ _ => true) innerScop_documented⟩

end Intersections

end Dynamatic.MemoryDependence
