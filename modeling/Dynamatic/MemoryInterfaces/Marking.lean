import Dynamatic.Numerals
import Mathlib.Data.Finset.Basic

/-!
# The memory interfaces of accesses

`markMemoryInterfaces` walks over the memory accesses of a function and requests an interface for
each: the memory controller for those that record no dependence, the load-store queue for both ends
of every dependence. A request for the queue wins over one for the controller, whichever comes
first, so that the marking does not depend on the order of the walk.
-/

namespace Dynamatic.MemoryInterfaces

/-- `MemInterfaceAttr`: the memory controller, or a group of the load-store queue. -/
inductive MemInterface where
  | mc
  | lsq (groupID : Nat)
  deriving DecidableEq, Repr

/-- The memory interfaces of the accesses to one region. -/
structure RegionInterfaces (Operation Block : Type) where
  connectToMC : Finset Operation
  connectToLSQ : Operation → Option Nat
  lsqGroups : List (Block × Nat)

/-- The operations that are walked. `named` is what the name analysis guarantees, `recorded` what
the dependence analysis does: it looks at pairs of accesses to the same base only. -/
structure Accesses (Operation Block MemRef Name : Type) where
  operations : List Operation
  memref : Operation → Option MemRef
  block : Operation → Block
  name : Operation → Name
  getOp : Name → Option Operation
  dependencies : Operation → List Name
  named : ∀ op ∈ operations, getOp (name op) = some op
  recorded : ∀ op ∈ operations, ∀ region, memref op = some region → ∀ dst ∈ dependencies op,
    ∃ dstOp ∈ operations, getOp dst = some dstOp ∧ name dstOp = dst ∧ memref dstOp = some region

variable {Operation Block MemRef Name : Type} [DecidableEq Operation] [DecidableEq Block]
  [DecidableEq MemRef] [DecidableEq Name]

namespace RegionInterfaces

def empty : RegionInterfaces Operation Block where
  connectToMC := ∅
  connectToLSQ := fun _ => none
  lsqGroups := []

variable (block : Operation → Block) (interfaces : RegionInterfaces Operation Block)
  (memOp : Operation)

def connectAccessToMC : RegionInterfaces Operation Block :=
  if (interfaces.connectToLSQ memOp).isSome then interfaces
  else { interfaces with connectToMC := insert memOp interfaces.connectToMC }

/-- The group of a block and the groups with it; a block without one gets the next number. -/
def groupOf (lsqGroups : List (Block × Nat)) (block : Block) : Nat × List (Block × Nat) :=
  match lsqGroups.lookup block with
  | some groupID => (groupID, lsqGroups)
  | none => (lsqGroups.length, lsqGroups ++ [(block, lsqGroups.length)])

def connectAccessToLSQ : RegionInterfaces Operation Block where
  connectToMC := interfaces.connectToMC.erase memOp
  connectToLSQ := Function.update interfaces.connectToLSQ memOp
    (some (groupOf interfaces.lsqGroups (block memOp)).1)
  lsqGroups := (groupOf interfaces.lsqGroups (block memOp)).2

/-- The attribute of an operation once those of the region are set, first those for the controller
and then those for the queue. -/
def interfaceOf (before : Option MemInterface) : Option MemInterface :=
  match interfaces.connectToLSQ memOp with
  | some groupID => some (.lsq groupID)
  | none => if memOp ∈ interfaces.connectToMC then some .mc else before

end RegionInterfaces

section Marking

variable (accesses : Accesses Operation Block MemRef Name)

/-- The dependences of an access: both ends need the queue, unless it depends on itself. Without
the destination the pass stops. -/
def connectDependencies (op : Operation) : List Name → Bool → RegionInterfaces Operation Block →
    Option (Bool × RegionInterfaces Operation Block)
  | [], connectToMC, interfaces => some (connectToMC, interfaces)
  | dst :: rest, connectToMC, interfaces =>
    if accesses.name op = dst then connectDependencies op rest connectToMC interfaces
    else
      match accesses.getOp dst with
      | none => none
      | some dstOp =>
        connectDependencies op rest false
          ((interfaces.connectAccessToLSQ accesses.block op).connectAccessToLSQ
            accesses.block dstOp)

/-- One operation of the walk. -/
def visit (interfaces : MemRef → RegionInterfaces Operation Block) (op : Operation) :
    Option (MemRef → RegionInterfaces Operation Block) :=
  match accesses.memref op with
  | none => some interfaces
  | some memref =>
    (connectDependencies accesses op (accesses.dependencies op) true (interfaces memref)).map
      fun (connectToMC, region) =>
        Function.update interfaces memref
          (if connectToMC then region.connectAccessToMC op else region)

/-- The attributes of all regions, one region after the other. -/
def setAttributes (interfaces : MemRef → RegionInterfaces Operation Block)
    (regions : List MemRef) (before : Operation → Option MemInterface) :
    Operation → Option MemInterface :=
  regions.foldl (fun attributes region op => (interfaces region).interfaceOf op (attributes op))
    before

/-- The marking, for the order in which the operations are walked and that in which the regions
come out of their map. -/
def markMemoryInterfaces (walk : List Operation) (regions : List MemRef)
    (before : Operation → Option MemInterface) : Option (Operation → Option MemInterface) :=
  (walk.foldlM (visit accesses) fun _ => .empty).map fun interfaces =>
    setAttributes interfaces regions before

end Marking

/-! ## Requests -/

/-- Groups with different numbers for different blocks. -/
structure Groups (lsqGroups : List (Block × Nat)) : Prop where
  bounded : ∀ block groupID, lsqGroups.lookup block = some groupID → groupID < lsqGroups.length
  distinct : ∀ block other groupID, lsqGroups.lookup block = some groupID →
    lsqGroups.lookup other = some groupID → block = other

/-- What a region's interfaces hold for the operations that were requested for the controller and
for the queue. -/
structure RegionInterfaces.Serves (block : Operation → Block)
    (interfaces : RegionInterfaces Operation Block) (forMC forLSQ : Operation → Prop) : Prop where
  lsq : ∀ op, (interfaces.connectToLSQ op).isSome ↔ forLSQ op
  mc : ∀ op, op ∈ interfaces.connectToMC ↔ forMC op ∧ ¬ forLSQ op
  group : ∀ op groupID, interfaces.connectToLSQ op = some groupID →
    interfaces.lsqGroups.lookup (block op) = some groupID
  groups : Groups interfaces.lsqGroups

namespace RegionInterfaces

variable {block : Operation → Block} {interfaces : RegionInterfaces Operation Block}
  {forMC forLSQ : Operation → Prop}

omit [DecidableEq Operation] in
theorem Serves.congr (serves : interfaces.Serves block forMC forLSQ) {mc lsq : Operation → Prop}
    (sameMC : ∀ op, forMC op ↔ mc op) (sameLSQ : ∀ op, forLSQ op ↔ lsq op) :
    interfaces.Serves block mc lsq := by
  obtain rfl : forMC = mc := funext fun op => propext (sameMC op)
  obtain rfl : forLSQ = lsq := funext fun op => propext (sameLSQ op)
  exact serves

omit [DecidableEq Operation] in
theorem serves_empty : (@empty Operation Block).Serves block (fun _ => False) fun _ => False where
  lsq := fun _ => by simp [empty]
  mc := fun _ => by simp [empty]
  group := nofun
  groups := ⟨nofun, nofun⟩

theorem Serves.connectAccessToMC (serves : interfaces.Serves block forMC forLSQ)
    (memOp : Operation) :
    (interfaces.connectAccessToMC memOp).Serves block (fun op => op = memOp ∨ forMC op) forLSQ := by
  rw [RegionInterfaces.connectAccessToMC]
  split
  next inQueue =>
    refine { serves with mc := fun op => ?_ }
    have queued := (serves.lsq memOp).mp inQueue
    rw [serves.mc]
    by_cases here : op = memOp
    · subst here
      simp [queued]
    · simp [here]
  next notInQueue =>
    refine ⟨serves.lsq, fun op => ?_, serves.group, serves.groups⟩
    have notQueued : ¬ forLSQ memOp := fun queued => notInQueue ((serves.lsq memOp).mpr queued)
    rw [Finset.mem_insert, serves.mc]
    by_cases here : op = memOp
    · subst here
      simp [notQueued]
    · simp [here]

/-- A block gets its group, the others keep theirs. -/
theorem lookup_groupOf (lsqGroups : List (Block × Nat)) (block other : Block) :
    (groupOf lsqGroups block).2.lookup other =
      if other = block then some (groupOf lsqGroups block).1 else lsqGroups.lookup other := by
  rw [groupOf]
  split
  next groupID known =>
    split
    next here => rw [here, known]
    next => rfl
  next unknown =>
    rw [List.lookup_append]
    by_cases here : other = block
    · subst here
      simp [unknown]
    · have differs : (other == block) = false := beq_eq_false_iff_ne.mpr here
      simp [List.lookup_cons, differs, here]

theorem groups_groupOf {lsqGroups : List (Block × Nat)} (groups : Groups lsqGroups)
    (block : Block) : Groups (groupOf lsqGroups block).2 := by
  rw [groupOf]
  split
  next groupID known => exact groups
  next unknown =>
    have lookup := lookup_groupOf lsqGroups block
    simp only [groupOf, unknown] at lookup
    refine ⟨fun other group here => ?_, fun other third group here there => ?_⟩
    · rw [lookup] at here
      rw [List.length_append, List.length_singleton]
      split at here
      · cases here
        exact Nat.lt_succ_self _
      · exact Nat.lt_succ_of_lt (groups.bounded other group here)
    · rw [lookup] at here there
      split at here <;> split at there
      next first second => exact first.trans second.symm
      next first second =>
        cases here
        exact absurd (groups.bounded third _ there) (Nat.lt_irrefl _)
      next first second =>
        cases there
        exact absurd (groups.bounded other _ here) (Nat.lt_irrefl _)
      next first second => exact groups.distinct other third group here there

/-- A request for the queue takes the operation from the controller. -/
theorem Serves.connectAccessToLSQ (serves : interfaces.Serves block forMC forLSQ)
    (memOp : Operation) :
    (interfaces.connectAccessToLSQ block memOp).Serves block forMC
      fun op => op = memOp ∨ forLSQ op := by
  refine ⟨fun op => ?_, fun op => ?_, fun op groupID here => ?_,
    groups_groupOf serves.groups (block memOp)⟩
  · rw [RegionInterfaces.connectAccessToLSQ, ← serves.lsq]
    by_cases here : op = memOp
    · subst here
      simp
    · simp [here]
  · rw [RegionInterfaces.connectAccessToLSQ, Finset.mem_erase, serves.mc, not_or]
    tauto
  · dsimp only [RegionInterfaces.connectAccessToLSQ] at here ⊢
    rw [lookup_groupOf]
    by_cases same : op = memOp
    · subst same
      rw [Function.update_self] at here
      rw [if_pos rfl, here]
    · rw [Function.update_of_ne same] at here
      have known := serves.group op groupID here
      split
      next sameBlock =>
        rw [sameBlock] at known
        rw [groupOf, known]
      next => exact known

end RegionInterfaces

/-! ## The walk -/

section Requests

variable {Operation Block MemRef Name : Type} {accesses : Accesses Operation Block MemRef Name}
  {region : MemRef} {op : Operation}

/-- An operation that the dependences of an access bring to the queue. -/
def QueuedBy (accesses : Accesses Operation Block MemRef Name) (op : Operation)
    (dependencies : List Name) (queued : Operation) : Prop :=
  ∃ dst ∈ dependencies, dst ≠ accesses.name op ∧
    (queued = op ∨ accesses.getOp dst = some queued)

/-- An operation that the accesses of a region seen so far bring to the queue. -/
def ForLSQ (accesses : Accesses Operation Block MemRef Name) (region : MemRef)
    (seen : List Operation) (queued : Operation) : Prop :=
  ∃ src ∈ seen, accesses.memref src = some region ∧
    QueuedBy accesses src (accesses.dependencies src) queued

/-- An access of a region seen so far that depends on itself at most. -/
def ForMC (accesses : Accesses Operation Block MemRef Name) (region : MemRef)
    (seen : List Operation) (op : Operation) : Prop :=
  op ∈ seen ∧ accesses.memref op = some region ∧
    ∀ dst ∈ accesses.dependencies op, dst = accesses.name op

theorem queuedBy_cons_self {rest : List Name} {queued : Operation} :
    QueuedBy accesses op (accesses.name op :: rest) queued ↔ QueuedBy accesses op rest queued := by
  constructor
  · rintro ⟨dst, member, differs, either⟩
    exact ⟨dst, (List.mem_cons.mp member).resolve_left differs, differs, either⟩
  · rintro ⟨dst, member, rest⟩
    exact ⟨dst, List.mem_cons_of_mem _ member, rest⟩

theorem queuedBy_cons {dst : Name} {dstOp : Operation} {rest : List Name} {queued : Operation}
    (differs : dst ≠ accesses.name op) (found : accesses.getOp dst = some dstOp) :
    QueuedBy accesses op (dst :: rest) queued ↔
      QueuedBy accesses op rest queued ∨ queued = dstOp ∨ queued = op := by
  constructor
  · rintro ⟨other, member, otherDiffers, either⟩
    rcases List.mem_cons.mp member with rfl | behind
    · rcases either with same | here
      · exact .inr (.inr same)
      · rw [found] at here
        exact .inr (.inl (Option.some.inj here).symm)
    · exact .inl ⟨other, behind, otherDiffers, either⟩
  · rintro (⟨other, behind, rest⟩ | rfl | rfl)
    · exact ⟨other, List.mem_cons_of_mem _ behind, rest⟩
    · exact ⟨dst, List.mem_cons_self, differs, .inr found⟩
    · exact ⟨dst, List.mem_cons_self, differs, .inl rfl⟩

theorem forLSQ_append {seen : List Operation} {queued : Operation} :
    ForLSQ accesses region (seen ++ [op]) queued ↔ ForLSQ accesses region seen queued ∨
      (accesses.memref op = some region ∧
        QueuedBy accesses op (accesses.dependencies op) queued) := by
  simp [ForLSQ, or_and_right, exists_or]

theorem forMC_append {seen : List Operation} {access : Operation} :
    ForMC accesses region (seen ++ [op]) access ↔ ForMC accesses region seen access ∨
      (access = op ∧ accesses.memref op = some region ∧
        ∀ dst ∈ accesses.dependencies op, dst = accesses.name op) := by
  simp only [ForMC, List.mem_append, List.mem_singleton, or_and_right]
  refine or_congr_right (and_congr_right fun same => ?_)
  rw [same]

/-- An access that is the source or the destination of a dependence with another access. -/
def DependsOnOther (accesses : Accesses Operation Block MemRef Name) (op : Operation) :
    Prop :=
  ∃ other ∈ accesses.operations, other ≠ op ∧ accesses.memref other = accesses.memref op ∧
    (accesses.name other ∈ accesses.dependencies op ∨
      accesses.name op ∈ accesses.dependencies other)

/-- What an access is to its own region: it needs the queue when it depends on another access. -/
theorem forLSQ_iff {walk : List Operation} (visits : ∀ op, op ∈ walk ↔ op ∈ accesses.operations)
    (member : op ∈ accesses.operations) (isAccess : accesses.memref op = some region) :
    ForLSQ accesses region walk op ↔ DependsOnOther accesses op := by
  constructor
  · rintro ⟨src, srcWalked, srcRegion, dst, recorded, differs, either⟩
    obtain ⟨dstOp, dstMember, found, dstName, dstRegion⟩ :=
      accesses.recorded src ((visits src).mp srcWalked) region srcRegion dst recorded
    rcases either with rfl | here
    · refine ⟨dstOp, dstMember, ?_, dstRegion.trans isAccess.symm, .inl (dstName ▸ recorded)⟩
      rintro rfl
      exact differs dstName.symm
    · rw [found] at here
      cases here
      refine ⟨src, (visits src).mp srcWalked, ?_, srcRegion.trans isAccess.symm,
        .inr (dstName ▸ recorded)⟩
      rintro rfl
      exact differs dstName.symm
  · rintro ⟨other, otherMember, otherDiffers, sameRegion, recorded⟩
    have names : accesses.name other ≠ accesses.name op := by
      intro same
      have found := accesses.named other otherMember
      rw [same, accesses.named op member] at found
      exact otherDiffers (Option.some.inj found).symm
    rcases recorded with source | destination
    · exact ⟨op, (visits op).mpr member, isAccess, _, source, names, .inl rfl⟩
    · exact ⟨other, (visits other).mpr otherMember, sameRegion.trans isAccess, _, destination,
        names.symm, .inr (accesses.named op member)⟩

/-- Other regions have no part in an access. -/
theorem not_forLSQ {walk : List Operation} (visits : ∀ op, op ∈ walk ↔ op ∈ accesses.operations)
    (elsewhere : accesses.memref op ≠ some region) : ¬ ForLSQ accesses region walk op := by
  rintro ⟨src, srcWalked, srcRegion, dst, recorded, -, rfl | here⟩
  · exact elsewhere srcRegion
  · obtain ⟨dstOp, -, found, -, dstRegion⟩ :=
      accesses.recorded src ((visits src).mp srcWalked) region srcRegion dst recorded
    rw [found] at here
    cases here
    exact elsewhere dstRegion

end Requests

section Walk

variable {accesses : Accesses Operation Block MemRef Name} {region : MemRef} {op : Operation}

omit [DecidableEq MemRef] in
/-- The loop over the dependences of an access brings all their ends to the queue. -/
theorem connectDependencies_serves {dependencies : List Name}
    (found : ∀ dst ∈ dependencies, ∃ dstOp, accesses.getOp dst = some dstOp)
    {interfaces : RegionInterfaces Operation Block} {mc lsq : Operation → Prop}
    (serves : interfaces.Serves accesses.block mc lsq) (connectToMC : Bool) :
    ∃ after, connectDependencies accesses op dependencies connectToMC interfaces = some
        (connectToMC && decide (∀ dst ∈ dependencies, dst = accesses.name op), after) ∧
      after.Serves accesses.block mc
        fun queued => lsq queued ∨ QueuedBy accesses op dependencies queued := by
  induction dependencies generalizing interfaces lsq connectToMC with
  | nil =>
    refine ⟨interfaces, by simp [connectDependencies], ?_⟩
    simpa [QueuedBy] using serves
  | cons dst rest ih =>
    have foundRest : ∀ dst ∈ rest, ∃ dstOp, accesses.getOp dst = some dstOp := fun other member =>
      found other (List.mem_cons_of_mem _ member)
    rw [connectDependencies]
    by_cases itself : accesses.name op = dst
    · obtain ⟨after, computes, served⟩ := ih foundRest serves connectToMC
      refine ⟨after, ?_, ?_⟩
      · rw [if_pos itself, computes]
        simp [itself]
      · subst itself
        simpa only [queuedBy_cons_self] using served
    · obtain ⟨dstOp, here⟩ := found dst List.mem_cons_self
      obtain ⟨after, computes, served⟩ := ih foundRest
        ((serves.connectAccessToLSQ op).connectAccessToLSQ dstOp) false
      refine ⟨after, ?_, served.congr (fun _ => Iff.rfl) fun queued => ?_⟩
      · rw [if_neg itself, here]
        simp [computes, Ne.symm itself]
      · rw [queuedBy_cons (Ne.symm itself) here]
        tauto

/-- The interfaces of all regions serve the accesses seen so far. -/
def Served (accesses : Accesses Operation Block MemRef Name)
    (interfaces : MemRef → RegionInterfaces Operation Block) (seen : List Operation) : Prop :=
  ∀ region, (interfaces region).Serves accesses.block (ForMC accesses region seen)
    (ForLSQ accesses region seen)

/-- A visit serves one more operation. -/
theorem visit_serves (member : op ∈ accesses.operations) {seen : List Operation}
    {interfaces : MemRef → RegionInterfaces Operation Block}
    (served : Served accesses interfaces seen) :
    ∃ after, visit accesses interfaces op = some after ∧
      Served accesses after (seen ++ [op]) := by
  rw [visit]
  split
  next noAccess =>
    refine ⟨interfaces, rfl, fun region => (served region).congr (fun access => ?_) fun queued => ?_⟩
    · rw [forMC_append, noAccess]
      simp
    · rw [forLSQ_append, noAccess]
      simp
  next memref isAccess =>
    have found : ∀ dst ∈ accesses.dependencies op, ∃ dstOp, accesses.getOp dst = some dstOp := by
      intro dst recorded
      obtain ⟨dstOp, -, here, -⟩ := accesses.recorded op member memref isAccess dst recorded
      exact ⟨dstOp, here⟩
    obtain ⟨after, computes, serves⟩ := connectDependencies_serves found (served memref) true
    rw [computes, Bool.true_and]
    refine ⟨_, rfl, fun region => ?_⟩
    dsimp only
    by_cases here : region = memref
    · subst here
      rw [Function.update_self]
      by_cases alone : ∀ dst ∈ accesses.dependencies op, dst = accesses.name op
      · rw [if_pos (decide_eq_true alone)]
        refine (serves.connectAccessToMC op).congr (fun access => ?_) fun queued => ?_
        · rw [forMC_append, or_comm]
          exact or_congr_right ⟨fun same => ⟨same, isAccess, alone⟩, And.left⟩
        · rw [forLSQ_append]
          simp [isAccess]
      · rw [if_neg (by simpa using alone)]
        refine serves.congr (fun access => ?_) fun queued => ?_
        · rw [forMC_append]
          simp [alone]
        · rw [forLSQ_append]
          simp [isAccess]
    · rw [Function.update_of_ne here]
      have elsewhere : accesses.memref op ≠ some region := by
        rw [isAccess]
        exact fun same => here (Option.some.inj same).symm
      refine (served region).congr (fun access => ?_) fun queued => ?_
      · rw [forMC_append]
        simp [elsewhere]
      · rw [forLSQ_append]
        simp [elsewhere]

/-- The walk serves all the operations it visits. -/
theorem walk_serves {walk : List Operation} (inside : ∀ op ∈ walk, op ∈ accesses.operations)
    {seen : List Operation} {interfaces : MemRef → RegionInterfaces Operation Block}
    (served : Served accesses interfaces seen) :
    ∃ after, walk.foldlM (visit accesses) interfaces = some after ∧
      Served accesses after (seen ++ walk) := by
  induction walk generalizing seen interfaces with
  | nil => exact ⟨interfaces, rfl, by rwa [List.append_nil]⟩
  | cons op rest ih =>
    obtain ⟨next, computes, servedNext⟩ := visit_serves (inside op List.mem_cons_self) served
    obtain ⟨after, computesRest, servedAfter⟩ :=
      ih (fun other member => inside other (List.mem_cons_of_mem _ member)) servedNext
    refine ⟨after, ?_, ?_⟩
    · rw [List.foldlM_cons, computes]
      exact computesRest
    · rwa [List.append_assoc] at servedAfter

/-! ## The attributes -/

namespace RegionInterfaces

variable {interfaces : RegionInterfaces Operation Block} {block : Operation → Block}
  {mc lsq : Operation → Prop} {before : Option MemInterface}

theorem Serves.interfaceOf_lsq (serves : interfaces.Serves block mc lsq) (queued : lsq op) :
    ∃ groupID, interfaces.lsqGroups.lookup (block op) = some groupID ∧
      ∀ before, interfaces.interfaceOf op before = some (.lsq groupID) := by
  obtain ⟨groupID, here⟩ := Option.isSome_iff_exists.mp ((serves.lsq op).mpr queued)
  refine ⟨groupID, serves.group op groupID here, fun before => ?_⟩
  rw [interfaceOf, here]

theorem Serves.interfaceOf_not_lsq (serves : interfaces.Serves block mc lsq)
    (notQueued : ¬ lsq op) :
    (mc op → interfaces.interfaceOf op before = some .mc) ∧
      (¬ mc op → interfaces.interfaceOf op before = before) := by
  have none : interfaces.connectToLSQ op = none :=
    Option.not_isSome_iff_eq_none.mp fun isSome => notQueued ((serves.lsq op).mp isSome)
  rw [interfaceOf, none]
  constructor
  · intro requested
    exact if_pos ((serves.mc op).mpr ⟨requested, notQueued⟩)
  · intro unrequested
    exact if_neg fun inside => unrequested ((serves.mc op).mp inside).1

end RegionInterfaces

omit [DecidableEq Block] in
/-- An operation keeps what the one region that has a part in it sets. -/
theorem setAttributes_eq {interfaces : MemRef → RegionInterfaces Operation Block}
    {value : Option MemInterface}
    (sets : ∀ before, (interfaces region).interfaceOf op before = value)
    (keeps : ∀ other, other ≠ region → ∀ before, (interfaces other).interfaceOf op before = before)
    {regions : List MemRef} (covered : region ∈ regions) (before : Operation → Option MemInterface) :
    setAttributes interfaces regions before op = value := by
  have stays : ∀ (regions : List MemRef) (before : Operation → Option MemInterface),
      before op = value → setAttributes interfaces regions before op = value := by
    intro regions
    induction regions with
    | nil => exact fun _ same => same
    | cons first rest ih =>
      intro before same
      refine ih _ ?_
      by_cases here : first = region
      · rw [here]
        exact sets _
      · exact (keeps first here _).trans same
  induction regions generalizing before with
  | nil => cases covered
  | cons first rest ih =>
    rcases List.mem_cons.mp covered with rfl | behind
    · exact stays rest _ (sets _)
    · exact ih behind _

omit [DecidableEq Block] [DecidableEq MemRef] in
theorem setAttributes_none {interfaces : MemRef → RegionInterfaces Operation Block}
    (keeps : ∀ region before, (interfaces region).interfaceOf op before = before)
    (regions : List MemRef) (before : Operation → Option MemInterface) :
    setAttributes interfaces regions before op = before op := by
  induction regions generalizing before with
  | nil => rfl
  | cons first rest ih => exact (ih _).trans (keeps first _)

/-- What the marking is for: an access connects to the queue exactly when it depends on another
one, and to the controller otherwise; the accesses of a region that connect to its queue share a
group exactly when they share a block; nothing else is marked. -/
structure Marked (accesses : Accesses Operation Block MemRef Name)
    (before after : Operation → Option MemInterface) : Prop where
  queue : ∀ op ∈ accesses.operations, (accesses.memref op).isSome →
    ((∃ groupID, after op = some (.lsq groupID)) ↔ DependsOnOther accesses op)
  controller : ∀ op ∈ accesses.operations, (accesses.memref op).isSome →
    (after op = some .mc ↔ ¬ DependsOnOther accesses op)
  groups : ∀ op ∈ accesses.operations, ∀ other ∈ accesses.operations, ∀ region,
    accesses.memref op = some region → accesses.memref other = some region →
    ∀ groupID otherID, after op = some (.lsq groupID) → after other = some (.lsq otherID) →
    (groupID = otherID ↔ accesses.block op = accesses.block other)
  others : ∀ op ∈ accesses.operations, accesses.memref op = none → after op = before op

section Attributes

variable {interfaces : MemRef → RegionInterfaces Operation Block} {walk : List Operation}

omit [DecidableEq MemRef] [DecidableEq Name] in
/-- A region that an operation does not access has no part in it. -/
theorem Served.keeps (served : Served accesses interfaces walk)
    (visits : ∀ op, op ∈ walk ↔ op ∈ accesses.operations)
    (elsewhere : accesses.memref op ≠ some region) (before : Option MemInterface) :
    (interfaces region).interfaceOf op before = before :=
  ((served region).interfaceOf_not_lsq (not_forLSQ visits elsewhere)).2
    fun requested => elsewhere requested.2.1

/-- The attribute of an access: its block's group when it depends on another access, else the
controller. -/
theorem Served.sets (served : Served accesses interfaces walk)
    (visits : ∀ op, op ∈ walk ↔ op ∈ accesses.operations) (member : op ∈ accesses.operations)
    (isAccess : accesses.memref op = some region) {regions : List MemRef}
    (covered : region ∈ regions) (before : Operation → Option MemInterface) :
    (DependsOnOther accesses op →
      ∃ groupID, (interfaces region).lsqGroups.lookup (accesses.block op) = some groupID ∧
        setAttributes interfaces regions before op = some (.lsq groupID)) ∧
      (¬ DependsOnOther accesses op → setAttributes interfaces regions before op = some .mc) := by
  have keeps : ∀ other, other ≠ region → ∀ before,
      (interfaces other).interfaceOf op before = before := by
    intro other differs
    refine served.keeps visits ?_
    rw [isAccess]
    exact fun same => differs (Option.some.inj same).symm
  constructor
  · intro depends
    obtain ⟨groupID, known, sets⟩ := (served region).interfaceOf_lsq
      ((forLSQ_iff visits member isAccess).mpr depends)
    exact ⟨groupID, known, setAttributes_eq sets keeps covered before⟩
  · intro alone
    have notQueued : ¬ ForLSQ accesses region walk op := fun queued =>
      alone ((forLSQ_iff visits member isAccess).mp queued)
    have requested : ForMC accesses region walk op := by
      refine ⟨(visits op).mpr member, isAccess, fun dst recorded => ?_⟩
      by_contra differs
      exact notQueued ⟨op, (visits op).mpr member, isAccess, dst, recorded, differs, .inl rfl⟩
    exact setAttributes_eq (fun before => ((served region).interfaceOf_not_lsq notQueued).1 requested)
      keeps covered before

/-- An access that is marked for the queue has the group of its block. -/
theorem Served.lookup_of_lsq (served : Served accesses interfaces walk)
    (visits : ∀ op, op ∈ walk ↔ op ∈ accesses.operations) (member : op ∈ accesses.operations)
    (isAccess : accesses.memref op = some region) {regions : List MemRef}
    (covered : region ∈ regions) (before : Operation → Option MemInterface) {groupID : Nat}
    (marked : setAttributes interfaces regions before op = some (.lsq groupID)) :
    (interfaces region).lsqGroups.lookup (accesses.block op) = some groupID := by
  obtain ⟨queued, alone⟩ := served.sets visits member isAccess covered before
  by_cases depends : DependsOnOther accesses op
  · obtain ⟨found, lookup, also⟩ := queued depends
    rw [marked] at also
    cases also
    exact lookup
  · rw [alone depends] at marked
    cases marked

end Attributes

/-- The marking, for every order of the walk and every order of the regions. -/
theorem markMemoryInterfaces_marks (accesses : Accesses Operation Block MemRef Name)
    {walk : List Operation} (visits : walk.Perm accesses.operations) {regions : List MemRef}
    (covers : ∀ op ∈ accesses.operations, ∀ region, accesses.memref op = some region →
      region ∈ regions) (before : Operation → Option MemInterface) :
    ∃ after, markMemoryInterfaces accesses walk regions before = some after ∧
      Marked accesses before after := by
  have unseen : Served accesses (fun _ => .empty) [] := fun region =>
    RegionInterfaces.serves_empty.congr (by simp [ForMC]) (by simp [ForLSQ])
  have inside : ∀ op, op ∈ walk ↔ op ∈ accesses.operations := fun op => visits.mem_iff
  obtain ⟨interfaces, computes, served⟩ := walk_serves (fun op => (inside op).mp) unseen
  rw [List.nil_append] at served
  have sets := fun op member region isAccess =>
    @Served.sets _ _ _ _ _ _ _ _ accesses region op interfaces walk served inside member isAccess
      regions (covers op member region isAccess) before
  refine ⟨setAttributes interfaces regions before, by rw [markMemoryInterfaces, computes]; rfl,
    ?_, ?_, ?_, ?_⟩
  · intro op member isSome
    obtain ⟨region, isAccess⟩ := Option.isSome_iff_exists.mp isSome
    obtain ⟨queued, alone⟩ := sets op member region isAccess
    refine ⟨fun ⟨groupID, here⟩ => ?_, fun depends => ?_⟩
    · by_contra independent
      rw [alone independent] at here
      cases here
    · obtain ⟨groupID, -, here⟩ := queued depends
      exact ⟨groupID, here⟩
  · intro op member isSome
    obtain ⟨region, isAccess⟩ := Option.isSome_iff_exists.mp isSome
    obtain ⟨queued, alone⟩ := sets op member region isAccess
    refine ⟨fun here depends => ?_, alone⟩
    obtain ⟨groupID, -, also⟩ := queued depends
    rw [here] at also
    cases also
  · intro op member other otherMember region isAccess otherAccess groupID otherID here there
    have first := served.lookup_of_lsq inside member isAccess
      (covers op member region isAccess) before here
    have second := served.lookup_of_lsq inside otherMember otherAccess
      (covers other otherMember region otherAccess) before there
    constructor
    · rintro rfl
      exact (served region).groups.distinct _ _ _ first second
    · intro sameBlock
      rw [sameBlock, second] at first
      exact (Option.some.inj first).symm
  · intro op member noAccess
    refine setAttributes_none (fun region => served.keeps inside ?_) regions before
    rw [noAccess]
    exact nofun

open Numerals in
/-- Two loads and two stores in two blocks: the second operation depends on the first and on the
last, the third, in a region of its own, on itself. -/
def twoRegions : Accesses (Fin 4) (Fin 2) (Fin 2) (Fin 4) where
  operations := [0, 1, 2, 3]
  memref := fun op => if op = 2 then some 1 else some 0
  block := fun op => if op = 3 then 1 else 0
  name := fun op => op
  getOp := some
  dependencies := fun op => if op = 1 then [0, 3] else if op = 2 then [2] else []
  named := by decide
  recorded := by decide

theorem markMemoryInterfaces_marks_twoRegions :
    ∃ after, markMemoryInterfaces twoRegions [3, 2, 1, 0] [1, 0] (fun _ => none) = some after ∧
      Marked twoRegions (fun _ => none) after :=
  markMemoryInterfaces_marks twoRegions (by decide) (by decide) fun _ => none

end Walk

end Dynamatic.MemoryInterfaces
