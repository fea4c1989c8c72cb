import Dynamatic.Clocked.Machine
import Dynamatic.Lsq.Dispatchers

/-!
# The load-store queue

The circuit of the generated load-store queue: the group allocator reserves the
entries of a basic block's accesses in program order, the dispatchers bring in
their addresses and data, and the core issues loads out of order where no older
store is in the way, forwards store data to loads, and issues stores in order.

Every signal has the name it has in `lsq.py` and `group_allocator.py`. A pipeline
signal (`_pcomp`, `_p0`, `_p1`) is a register when its stage is enabled and a wire
when it is not; its register is named with a trailing `Q`, as the generated VHDL
ends it with `_q`.
-/

namespace Dynamatic.Lsq

open Dynamatic.Clocked

/-- The generator's configuration, with what it asserts and what the compiler that
writes it ensures: ports exist, and no load is ordered after stores that its group
does not have. -/
structure Configs where
  dataW : Nat
  addrW : Nat
  idW : Nat
  numLdqEntries : Nat
  numStqEntries : Nat
  numLdPorts : Nat
  numStPorts : Nat
  numGroups : Nat
  numLdMem : Nat
  gaNumLoads : List Nat
  gaNumStores : List Nat
  gaLdOrder : List (List Nat)
  gaLdPortIdx : List (List Nat)
  gaStPortIdx : List (List Nat)
  pipe0 : Bool
  pipe1 : Bool
  pipeComp : Bool
  headLag : Bool
  stResp : Bool
  gaMulti : Bool
  bypass : Bool
  someLdqAddr : 2 ≤ numLdqEntries
  someStqAddr : 2 ≤ numStqEntries
  idFits : log2Ceil numLdqEntries ≤ idW
  loadsFit : ∀ group < numGroups, gaNumLoads.getD group 0 < numLdqEntries
  storesFit : ∀ group < numGroups, gaNumStores.getD group 0 < numStqEntries
  orderFits : ∀ group < numGroups, ∀ load < gaNumLoads.getD group 0,
    (gaLdOrder.getD group []).getD load 0 ≤ gaNumStores.getD group 0
  loadPorts : ∀ group < numGroups, ∀ load < gaNumLoads.getD group 0,
    (gaLdPortIdx.getD group []).getD load 0 < numLdPorts
  storePorts : ∀ group < numGroups, ∀ store < gaNumStores.getD group 0,
    (gaStPortIdx.getD group []).getD store 0 < numStPorts

namespace Configs

variable (configs : Configs)

def ldqAddrW : Nat := log2Ceil configs.numLdqEntries

def stqAddrW : Nat := log2Ceil configs.numStqEntries

/-- `GetValue` of a configuration's table: rows are padded with zeros. -/
def value (table : List (List Nat)) (group index : Nat) : Nat := (table.getD group []).getD index 0

end Configs

variable {configs : Configs}

/-- The registers. -/
structure State (configs : Configs) where
  ldqAlloc : Nat → Bool
  ldqIssue : Nat → Bool
  ldqPortIdx : Nat → Nat
  ldqAddrValid : Nat → Bool
  ldqAddr : Nat → BitVec configs.addrW
  ldqDataValid : Nat → Bool
  ldqData : Nat → BitVec configs.dataW
  stqAlloc : Nat → Bool
  stqExec : Nat → Bool
  stqPortIdx : Nat → Nat
  stqAddrValid : Nat → Bool
  stqAddr : Nat → BitVec configs.addrW
  stqDataValid : Nat → Bool
  stqData : Nat → BitVec configs.dataW
  storeIsOlder : Nat → Nat → Bool
  ldqTail : Nat
  ldqHead : Nat
  stqTail : Nat
  stqHead : Nat
  stqIssue : Nat
  stqResp : Nat
  stqTailUpdate : Bool
  gaRrMask : Nat → Bool
  ldqWenPcompQ : Nat → Bool
  ldqHeadOhPcompQ : Nat → Bool
  ldqAllocPcompQ : Nat → Bool
  ldqAddrValidPcompQ : Nat → Bool
  stqAllocPcompQ : Nat → Bool
  stqAddrValidPcompQ : Nat → Bool
  stqDataValidPcompQ : Nat → Bool
  stqTailUpdatePcompQ : Bool
  addrSamePcompQ : Nat → Nat → Bool
  storeIsOlderPcompQ : Nat → Nat → Bool
  ldqWenP0Q : Nat → Bool
  ldqHeadOhP0Q : Nat → Bool
  canBypassP0Q : Nat → Nat → Bool
  canLoadP0Q : Nat → Bool
  storeReqValidP0Q : Bool
  stLdConflictP0Q : Nat → Bool
  bypassIdxOhP0Q : Nat → Nat → Bool
  storeIssueStall : Bool
  loadIdxOhP1Q : Nat → Nat → Bool
  loadEnP1Q : Nat → Bool
  storeIdxP1Q : Nat
  storeEnP1Q : Bool
  bypassIdxOhP1Q : Nat → Nat → Bool
  bypassEnP1Q : Nat → Bool
  memStartReady : Bool
  memEndValid : Bool
  ctrlEndReady : Bool

/-- The ports the environment drives: groups, the load and store ports of the kernel,
the memory interface, and the control tokens of the master. -/
structure Input (configs : Configs) where
  groupInitValid : Nat → Bool
  ldpAddr : Nat → BitVec configs.addrW
  ldpAddrValid : Nat → Bool
  ldpDataReady : Nat → Bool
  stpAddr : Nat → BitVec configs.addrW
  stpAddrValid : Nat → Bool
  stpData : Nat → BitVec configs.dataW
  stpDataValid : Nat → Bool
  stpExecReady : Nat → Bool
  rreqReady : Nat → Bool
  rrespValid : Nat → Bool
  rrespId : Nat → Nat
  rrespData : Nat → BitVec configs.dataW
  wreqReady : Bool
  wrespValid : Bool
  memStartValid : Bool
  ctrlEndValid : Bool
  memEndReady : Bool

/-- One clock cycle: the registers, and what drives the ports. -/
structure Cycle (configs : Configs) where
  state : State configs
  input : Input configs

namespace Cycle

variable (now : Cycle configs)

section GroupAllocator

def ldqEmpty : Bool := !reduceOr configs.numLdqEntries now.state.ldqAlloc

def stqEmpty : Bool :=
  !muxLookUp configs.numStqEntries now.state.stqAlloc now.state.stqHead false

def emptyLoads : Nat :=
  if now.ldqEmpty then configs.numLdqEntries
  else wrapSub configs.numLdqEntries now.state.ldqHead now.state.ldqTail

def emptyStores : Nat :=
  if now.stqEmpty then configs.numStqEntries
  else wrapSub configs.numStqEntries now.state.stqHead now.state.stqTail

def groupInitReady (group : Nat) : Bool :=
  decide (configs.gaNumLoads.getD group 0 ≤ now.emptyLoads) &&
    decide (configs.gaNumStores.getD group 0 ≤ now.emptyStores)

def groupInitAnd (group : Nat) : Bool :=
  now.groupInitReady group && now.input.groupInitValid group

def groupInitHs (group : Nat) : Bool :=
  if configs.gaMulti then
    cyclicPriorityMasking configs.numGroups now.groupInitAnd now.state.gaRrMask group
  else now.groupInitAnd group

def numLoads : Nat :=
  mux1HROM configs.numGroups now.groupInitHs fun group => configs.gaNumLoads.getD group 0

def numStores : Nat :=
  mux1HROM configs.numGroups now.groupInitHs fun group => configs.gaNumStores.getD group 0

def ldqPortIdxRom (index : Nat) : Nat :=
  mux1HROM configs.numGroups now.groupInitHs fun group =>
    Configs.value configs.gaLdPortIdx group index

def stqPortIdxRom (index : Nat) : Nat :=
  mux1HROM configs.numGroups now.groupInitHs fun group =>
    Configs.value configs.gaStPortIdx group index

/-- Each row is `MaskLess` of the load's order. -/
def gaLsOrderRom (load store : Nat) : Bool :=
  reduceOr configs.numGroups fun group =>
    now.groupInitHs group && decide (store < Configs.value configs.gaLdOrder group load)

def ldqWen : Nat → Bool :=
  cyclicLeftShift configs.numLdqEntries configs.ldqAddrW now.state.ldqTail fun index =>
    decide (index < now.numLoads)

def stqWen : Nat → Bool :=
  cyclicLeftShift configs.numStqEntries configs.stqAddrW now.state.stqTail fun index =>
    decide (index < now.numStores)

def ldqPortIdxIn : Nat → Nat :=
  cyclicLeftShift configs.numLdqEntries configs.ldqAddrW now.state.ldqTail now.ldqPortIdxRom

def stqPortIdxIn : Nat → Nat :=
  cyclicLeftShift configs.numStqEntries configs.stqAddrW now.state.stqTail now.stqPortIdxRom

def gaLsOrder : Nat → Nat → Bool :=
  cyclicLeftShift configs.numLdqEntries configs.ldqAddrW now.state.ldqTail fun load =>
    cyclicLeftShift configs.numStqEntries configs.stqAddrW now.state.stqTail (now.gaLsOrderRom load)

end GroupAllocator

section Dispatch

def ldqHeadOh : Nat → Bool := bitsToOH now.state.ldqHead

def stqHeadOh : Nat → Bool := bitsToOH now.state.stqHead

/-- The load address dispatcher's view of the load queue. -/
def lda : Entries where
  numPorts := configs.numLdPorts
  numEntries := configs.numLdqEntries
  alloc := now.state.ldqAlloc
  payloadValid := now.state.ldqAddrValid
  portIdx := now.state.ldqPortIdx
  headOh := now.ldqHeadOh

/-- The load data dispatcher's view of the load queue. -/
def ldd : Entries where
  numPorts := configs.numLdPorts
  numEntries := configs.numLdqEntries
  alloc := now.state.ldqAlloc
  payloadValid := now.state.ldqDataValid
  portIdx := now.state.ldqPortIdx
  headOh := now.ldqHeadOh

/-- The store address dispatcher's view of the store queue. -/
def sta : Entries where
  numPorts := configs.numStPorts
  numEntries := configs.numStqEntries
  alloc := now.state.stqAlloc
  payloadValid := now.state.stqAddrValid
  portIdx := now.state.stqPortIdx
  headOh := now.stqHeadOh

/-- The store data dispatcher's view of the store queue. -/
def std : Entries where
  numPorts := configs.numStPorts
  numEntries := configs.numStqEntries
  alloc := now.state.stqAlloc
  payloadValid := now.state.stqDataValid
  portIdx := now.state.stqPortIdx
  headOh := now.stqHeadOh

/-- The store backward dispatcher's view of the store queue. -/
def stb : Entries where
  numPorts := configs.numStPorts
  numEntries := configs.numStqEntries
  alloc := now.state.stqAlloc
  payloadValid := now.state.stqExec
  portIdx := now.state.stqPortIdx
  headOh := now.stqHeadOh

def ldqAddrWen : Nat → Bool := now.lda.entryWen now.input.ldpAddrValid

def ldqReset : Nat → Bool := now.ldd.entryReset now.input.ldpDataReady

def stqAddrWen : Nat → Bool := now.sta.entryWen now.input.stpAddrValid

def stqDataWen : Nat → Bool := now.std.entryWen now.input.stpDataValid

/-- The store that a write response is for. -/
def responded (entry : Nat) : Bool := now.input.wrespValid && decide (now.state.stqResp = entry)

def stqReset (entry : Nat) : Bool :=
  if configs.stResp then now.stb.entryReset now.input.stpExecReady entry else now.responded entry

def stqExecSet (entry : Nat) : Bool := now.responded entry

end Dispatch

section DependencyCheck

def ldqWenPcomp : Nat → Bool := if configs.pipeComp then now.state.ldqWenPcompQ else now.ldqWen

def ldqWenP0 : Nat → Bool := if configs.pipe0 then now.state.ldqWenP0Q else now.ldqWenPcomp

def ldqHeadOhPcomp : Nat → Bool :=
  if configs.pipeComp then now.state.ldqHeadOhPcompQ else now.ldqHeadOh

def ldqAllocPcomp : Nat → Bool :=
  if configs.pipeComp then now.state.ldqAllocPcompQ else now.state.ldqAlloc

def ldqAddrValidPcomp : Nat → Bool :=
  if configs.pipeComp then now.state.ldqAddrValidPcompQ else now.state.ldqAddrValid

def stqAllocPcomp : Nat → Bool :=
  if configs.pipeComp then now.state.stqAllocPcompQ else now.state.stqAlloc

def stqAddrValidPcomp : Nat → Bool :=
  if configs.pipeComp then now.state.stqAddrValidPcompQ else now.state.stqAddrValid

def stqDataValidPcomp : Nat → Bool :=
  if configs.pipeComp then now.state.stqDataValidPcompQ else now.state.stqDataValid

def stqTailUpdatePcomp : Bool :=
  if configs.pipeComp then now.state.stqTailUpdatePcompQ else now.state.stqTailUpdate

def addrSame (load store : Nat) : Bool := decide (now.state.ldqAddr load = now.state.stqAddr store)

def addrSamePcomp : Nat → Nat → Bool :=
  if configs.pipeComp then now.state.addrSamePcompQ else now.addrSame

def storeIsOlderPcomp : Nat → Nat → Bool :=
  if configs.pipeComp then now.state.storeIsOlderPcompQ else now.state.storeIsOlder

def addrValidPcomp (load store : Nat) : Bool :=
  now.ldqAddrValidPcomp load && now.stqAddrValidPcomp store

def loadCompleted (load : Nat) : Bool := now.state.ldqDataValid load

def storeCompleted (store : Nat) : Bool :=
  if configs.stResp then now.state.stqExec store else !now.state.stqAlloc store

def ldStConflict (load store : Nat) : Bool :=
  now.stqAllocPcomp store && !now.storeCompleted store && now.storeIsOlderPcomp load store &&
    (now.addrSamePcomp load store || !now.stqAddrValidPcomp store)

/-- What `can_bypass_p0` is assigned. -/
def canBypassD (load store : Nat) : Bool :=
  now.ldqAllocPcomp load && now.stqDataValidPcomp store && now.addrSamePcomp load store &&
    now.addrValidPcomp load store

def canBypassP0 : Nat → Nat → Bool :=
  if configs.pipe0 then now.state.canBypassP0Q else now.canBypassD

def canBypass (load store : Nat) : Bool := !now.state.ldqIssue load && now.canBypassP0 load store

def loadConflict (load : Nat) : Bool := reduceOr configs.numStqEntries (now.ldStConflict load)

def loadReqValid (load : Nat) : Bool := now.ldqAllocPcomp load && now.ldqAddrValidPcomp load

/-- What `can_load_p0` is assigned. -/
def canLoadD (load : Nat) : Bool := !now.loadConflict load && now.loadReqValid load

def canLoadP0 : Nat → Bool := if configs.pipe0 then now.state.canLoadP0Q else now.canLoadD

def canLoad (load : Nat) : Bool := !now.state.ldqIssue load && now.canLoadP0 load

def ldqHeadOhP0 : Nat → Bool :=
  if configs.pipe0 then now.state.ldqHeadOhP0Q else now.ldqHeadOhPcomp

/-- The loads left for a memory channel by those before it. -/
def canLoadList : Nat → Nat → Bool
  | 0 => now.canLoad
  | channel + 1 => fun load =>
      !cyclicPriorityMasking configs.numLdqEntries (canLoadList channel) now.ldqHeadOhP0 load &&
        canLoadList channel load

def loadIdxOh (channel : Nat) : Nat → Bool :=
  cyclicPriorityMasking configs.numLdqEntries (now.canLoadList channel) now.ldqHeadOhP0

def loadEn (channel : Nat) : Bool := reduceOr configs.numLdqEntries (now.canLoadList channel)

end DependencyCheck

section StoreIssue

def storeReqValidArr (store : Nat) : Bool :=
  now.stqAllocPcomp store && now.stqAddrValidPcomp store && now.stqDataValidPcomp store

def stqIssueNext : Nat := wrapAddConst configs.numStqEntries now.state.stqIssue 1

/-- `store_req_valid_curr` and `store_req_valid_next`, at their store. -/
def storeReqValidAt (store : Nat) : Bool :=
  muxLookUp configs.numStqEntries now.storeReqValidArr store false

/-- `st_ld_conflict_curr` and `st_ld_conflict_next`, at their store. -/
def stLdConflictAt (store load : Nat) : Bool :=
  now.ldqAllocPcomp load && !now.loadCompleted load && !now.storeIsOlderPcomp load store &&
    (now.addrSamePcomp load store || !now.ldqAddrValidPcomp load)

def storeReqValidP0 : Bool :=
  if configs.pipe0 then now.state.storeReqValidP0Q else now.storeReqValidAt now.state.stqIssue

def stLdConflictP0 : Nat → Bool :=
  if configs.pipe0 then now.state.stLdConflictP0Q else now.stLdConflictAt now.state.stqIssue

def storeConflict : Bool := reduceOr configs.numLdqEntries now.stLdConflictP0

def storeEn : Bool :=
  !now.storeConflict && now.storeReqValidP0 && !now.state.storeIssueStall

def storeEnP1 : Bool := if configs.pipe1 then now.state.storeEnP1Q else now.storeEn

def storeIdxP1 : Nat := if configs.pipe1 then now.state.storeIdxP1Q else now.state.stqIssue

def storeP1Ready : Bool :=
  if configs.pipe1 then now.storeEnP1 && now.input.wreqReady || !now.storeEnP1
  else now.input.wreqReady

def stqIssueEn : Bool := now.storeEn && now.storeP1Ready

/-- The store that is checked for the next cycle: with `pipe0`, one ahead as the current
one issues. -/
def storeChecked : Nat := if now.stqIssueEn then now.stqIssueNext else now.state.stqIssue

def storeIssueStallSet : Bool :=
  if now.stqIssueNext = now.state.stqTail then now.stqIssueEn else false

def storeIssueStallReset : Bool := now.stqTailUpdatePcomp

end StoreIssue

section Bypass

def stqLastOh : Nat → Bool := bitsToOHSub1 configs.numStqEntries now.state.stqTail

/-- What `bypass_idx_oh_p0` is assigned: the youngest conflicting store. -/
def bypassIdxOhD (load : Nat) : Nat → Bool :=
  if configs.bypass then
    cyclicPriorityMaskingReverse configs.numStqEntries (now.ldStConflict load) now.stqLastOh
  else fun _ => false

def bypassIdxOhP0 : Nat → Nat → Bool :=
  if configs.pipe0 then now.state.bypassIdxOhP0Q else now.bypassIdxOhD

def bypassEn (load : Nat) : Bool :=
  configs.bypass && reduceOr configs.numStqEntries fun store =>
    now.bypassIdxOhP0 load store && now.canBypass load store

end Bypass

section Memory

def loadIdxOhP1 (channel : Nat) : Nat → Bool :=
  if configs.pipe1 then now.state.loadIdxOhP1Q channel else now.loadIdxOh channel

def loadEnP1 (channel : Nat) : Bool :=
  if configs.pipe1 then now.state.loadEnP1Q channel else now.loadEn channel

def bypassIdxOhP1 (load : Nat) : Nat → Bool :=
  if configs.pipe1 then now.state.bypassIdxOhP1Q load else now.bypassIdxOhP0 load

def bypassEnP1 (load : Nat) : Bool :=
  if configs.pipe1 then now.state.bypassEnP1Q load else now.bypassEn load

def loadP1Ready (channel : Nat) : Bool :=
  if configs.pipe1 then
    now.loadEnP1 channel && now.input.rreqReady channel || !now.loadEnP1 channel
  else now.input.rreqReady channel && now.loadEn channel

def rreqValid (channel : Nat) : Bool := now.loadEnP1 channel

def rreqId (channel : Nat) : Nat :=
  ohToBits configs.idW configs.numLdqEntries (now.loadIdxOhP1 channel)

def rreqAddr (channel : Nat) : BitVec configs.addrW :=
  mux1H configs.numLdqEntries (now.loadIdxOhP1 channel) now.state.ldqAddr

def ldqIssueSet (load : Nat) : Bool :=
  reduceOr configs.numLdMem fun channel =>
    now.loadIdxOh channel load && now.loadP1Ready channel || now.bypassEn load

def wreqValid : Bool := now.storeEnP1

def wreqAddr : BitVec configs.addrW :=
  muxLookUp configs.numStqEntries now.state.stqAddr now.storeIdxP1 0

def wreqData : BitVec configs.dataW :=
  muxLookUp configs.numStqEntries now.state.stqData now.storeIdxP1 0

def readIdxOh (load channel : Nat) : Bool :=
  now.input.rrespValid channel && decide (now.input.rrespId channel = load)

def readData (load : Nat) : BitVec configs.dataW :=
  mux1H configs.numLdMem (now.readIdxOh load) now.input.rrespData

def readValid (load : Nat) : Bool := reduceOr configs.numLdMem (now.readIdxOh load)

def bypassData (load : Nat) : BitVec configs.dataW :=
  mux1H configs.numStqEntries (now.bypassIdxOhP1 load) now.state.stqData

def ldqDataWen (load : Nat) : Bool := now.bypassEnP1 load || now.readValid load

end Memory

section Master

/-- All memory operations are completed and the function can return. -/
def tempGenMem : Bool :=
  now.input.ctrlEndValid && now.stqEmpty && now.ldqEmpty &&
    !reduceOr configs.numGroups now.input.groupInitValid

end Master

section Next

def ldqAllocNext (entry : Nat) : Bool := !now.ldqReset entry && now.state.ldqAlloc entry

def stqAllocNext (entry : Nat) : Bool := !now.stqReset entry && now.state.stqAlloc entry

/-- The head of a queue whose entries are freed out of order: the oldest entry still
there, or the tail. -/
def oldestHead (size width : Nat) (alloc : Nat → Bool) (tail : Nat) : Nat :=
  if reduceOr size alloc then
    ohToBits width size (cyclicPriorityMasking size alloc (bitsToOH tail))
  else tail

def ldqHeadNext : Nat :=
  oldestHead configs.numLdqEntries configs.ldqAddrW
    (if configs.headLag then now.state.ldqAlloc else now.ldqAllocNext) now.state.ldqTail

def stqHeadNext : Nat :=
  if configs.stResp then
    oldestHead configs.numStqEntries configs.stqAddrW
      (if configs.headLag then now.state.stqAlloc else now.stqAllocNext) now.state.stqTail
  else if now.input.wrespValid then wrapAddConst configs.numStqEntries now.state.stqHead 1
  else now.state.stqHead

/-- The registers after the clock edge. -/
def next : State configs where
  ldqAlloc entry := now.ldqWen entry || now.ldqAllocNext entry
  ldqIssue entry := !now.ldqWenP0 entry && (now.ldqIssueSet entry || now.state.ldqIssue entry)
  ldqPortIdx entry := if now.ldqWen entry then now.ldqPortIdxIn entry else now.state.ldqPortIdx entry
  ldqAddrValid entry := !now.ldqWen entry && (now.ldqAddrWen entry || now.state.ldqAddrValid entry)
  ldqAddr entry :=
    if now.ldqAddrWen entry then now.lda.entryPayload now.input.ldpAddr entry
    else now.state.ldqAddr entry
  ldqDataValid entry := !now.ldqWen entry && (now.ldqDataWen entry || now.state.ldqDataValid entry)
  ldqData entry :=
    if now.ldqDataWen entry then now.readData entry ||| now.bypassData entry
    else now.state.ldqData entry
  stqAlloc entry := now.stqWen entry || now.stqAllocNext entry
  stqExec entry := !now.stqWen entry && (now.stqExecSet entry || now.state.stqExec entry)
  stqPortIdx entry := if now.stqWen entry then now.stqPortIdxIn entry else now.state.stqPortIdx entry
  stqAddrValid entry := !now.stqWen entry && (now.stqAddrWen entry || now.state.stqAddrValid entry)
  stqAddr entry :=
    if now.stqAddrWen entry then now.sta.entryPayload now.input.stpAddr entry
    else now.state.stqAddr entry
  stqDataValid entry := !now.stqWen entry && (now.stqDataWen entry || now.state.stqDataValid entry)
  stqData entry :=
    if now.stqDataWen entry then now.std.entryPayload now.input.stpData entry
    else now.state.stqData entry
  storeIsOlder load store :=
    if now.ldqWen load then
      !now.stqReset store && (now.state.stqAlloc store || now.gaLsOrder load store)
    else !now.stqReset store && now.state.storeIsOlder load store
  ldqTail := wrapAdd configs.numLdqEntries now.state.ldqTail now.numLoads
  ldqHead := now.ldqHeadNext
  stqTail := wrapAdd configs.numStqEntries now.state.stqTail now.numStores
  stqHead := now.stqHeadNext
  stqIssue :=
    if now.stqIssueEn then wrapAddConst configs.numStqEntries now.state.stqIssue 1
    else now.state.stqIssue
  stqResp :=
    if now.input.wrespValid then wrapAddConst configs.numStqEntries now.state.stqResp 1
    else now.state.stqResp
  stqTailUpdate := decide (now.numStores ≠ 0)
  gaRrMask group :=
    now.groupInitHs ((group + configs.numGroups - 1) % configs.numGroups)
  ldqWenPcompQ := now.ldqWen
  ldqHeadOhPcompQ := now.ldqHeadOh
  ldqAllocPcompQ := now.state.ldqAlloc
  ldqAddrValidPcompQ := now.state.ldqAddrValid
  stqAllocPcompQ := now.state.stqAlloc
  stqAddrValidPcompQ := now.state.stqAddrValid
  stqDataValidPcompQ := now.state.stqDataValid
  stqTailUpdatePcompQ := now.state.stqTailUpdate
  addrSamePcompQ := now.addrSame
  storeIsOlderPcompQ := now.state.storeIsOlder
  ldqWenP0Q := now.ldqWenPcomp
  ldqHeadOhP0Q := now.ldqHeadOhPcomp
  canBypassP0Q := now.canBypassD
  canLoadP0Q := now.canLoadD
  storeReqValidP0Q := now.storeReqValidAt now.storeChecked
  stLdConflictP0Q := now.stLdConflictAt now.storeChecked
  bypassIdxOhP0Q := now.bypassIdxOhD
  storeIssueStall :=
    !now.storeIssueStallReset && (now.state.storeIssueStall || now.storeIssueStallSet)
  loadIdxOhP1Q channel :=
    if now.loadP1Ready channel then now.loadIdxOh channel else now.state.loadIdxOhP1Q channel
  loadEnP1Q channel :=
    if now.loadP1Ready channel then now.loadEn channel else now.state.loadEnP1Q channel
  storeIdxP1Q := if now.storeP1Ready then now.state.stqIssue else now.state.storeIdxP1Q
  storeEnP1Q := if now.storeP1Ready then now.storeEn else now.state.storeEnP1Q
  bypassIdxOhP1Q := now.bypassIdxOhP0
  bypassEnP1Q := now.bypassEn
  memStartReady :=
    now.state.memEndValid && now.input.memEndReady ||
      !(now.input.memStartValid && now.state.memStartReady) && now.state.memStartReady
  memEndValid := now.tempGenMem || now.state.memEndValid
  ctrlEndReady :=
    !(now.input.ctrlEndValid && now.state.ctrlEndReady) && (now.tempGenMem || now.state.ctrlEndReady)

end Next

end Cycle

/-- What the reset fixes; the registers without a reset value may hold anything. -/
structure Reset (state : State configs) : Prop where
  ldqAlloc : ∀ entry, state.ldqAlloc entry = false
  stqAlloc : ∀ entry, state.stqAlloc entry = false
  ldqTail : state.ldqTail = 0
  ldqHead : state.ldqHead = 0
  stqTail : state.stqTail = 0
  stqHead : state.stqHead = 0
  stqIssue : state.stqIssue = 0
  stqResp : state.stqResp = 0
  ldqHeadOhPcompQ : ∀ entry, state.ldqHeadOhPcompQ entry = false
  ldqAllocPcompQ : ∀ entry, state.ldqAllocPcompQ entry = false
  stqAllocPcompQ : ∀ entry, state.stqAllocPcompQ entry = false
  canBypassP0Q : ∀ load store, state.canBypassP0Q load store = false
  canLoadP0Q : ∀ load, state.canLoadP0Q load = false
  storeReqValidP0Q : state.storeReqValidP0Q = false
  storeIssueStall : state.storeIssueStall = false
  loadEnP1Q : ∀ channel, state.loadEnP1Q channel = false
  storeEnP1Q : state.storeEnP1Q = false
  bypassEnP1Q : ∀ load, state.bypassEnP1Q load = false
  memStartReady : state.memStartReady = true
  memEndValid : state.memEndValid = false
  ctrlEndReady : state.ctrlEndReady = false

/-- Registers that hold what the reset gives them and are clear where it gives nothing. -/
def State.clear (configs : Configs) : State configs where
  ldqAlloc _ := false
  ldqIssue _ := false
  ldqPortIdx _ := 0
  ldqAddrValid _ := false
  ldqAddr _ := 0
  ldqDataValid _ := false
  ldqData _ := 0
  stqAlloc _ := false
  stqExec _ := false
  stqPortIdx _ := 0
  stqAddrValid _ := false
  stqAddr _ := 0
  stqDataValid _ := false
  stqData _ := 0
  storeIsOlder _ _ := false
  ldqTail := 0
  ldqHead := 0
  stqTail := 0
  stqHead := 0
  stqIssue := 0
  stqResp := 0
  stqTailUpdate := false
  gaRrMask _ := false
  ldqWenPcompQ _ := false
  ldqHeadOhPcompQ _ := false
  ldqAllocPcompQ _ := false
  ldqAddrValidPcompQ _ := false
  stqAllocPcompQ _ := false
  stqAddrValidPcompQ _ := false
  stqDataValidPcompQ _ := false
  stqTailUpdatePcompQ := false
  addrSamePcompQ _ _ := false
  storeIsOlderPcompQ _ _ := false
  ldqWenP0Q _ := false
  ldqHeadOhP0Q _ := false
  canBypassP0Q _ _ := false
  canLoadP0Q _ := false
  storeReqValidP0Q := false
  stLdConflictP0Q _ := false
  bypassIdxOhP0Q _ _ := false
  storeIssueStall := false
  loadIdxOhP1Q _ _ := false
  loadEnP1Q _ := false
  storeIdxP1Q := 0
  storeEnP1Q := false
  bypassIdxOhP1Q _ _ := false
  bypassEnP1Q _ := false
  memStartReady := true
  memEndValid := false
  ctrlEndReady := false

theorem reset_clear : Reset (State.clear configs) := by
  constructor <;> first | rfl | exact fun _ => rfl | exact fun _ _ => rfl

/-- Two entries a queue, and one group of a store and a load ordered after it. -/
def Configs.small (stResp headLag bypass : Bool) : Configs where
  dataW := 1
  addrW := 1
  idW := 1
  numLdqEntries := 2
  numStqEntries := 2
  numLdPorts := 1
  numStPorts := 1
  numGroups := 1
  numLdMem := 1
  gaNumLoads := [1]
  gaNumStores := [1]
  gaLdOrder := [[1]]
  gaLdPortIdx := [[0]]
  gaStPortIdx := [[0]]
  pipe0 := false
  pipe1 := false
  pipeComp := false
  headLag := headLag
  stResp := stResp
  gaMulti := false
  bypass := bypass
  someLdqAddr := by decide
  someStqAddr := by decide
  idFits := by decide
  loadsFit := by decide
  storesFit := by decide
  orderFits := by decide
  loadPorts := by decide
  storePorts := by decide

end Dynamatic.Lsq
