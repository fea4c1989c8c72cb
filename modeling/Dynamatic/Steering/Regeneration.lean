import Dynamatic.Steering.Equivalence

/-!
# Combining muxes that regenerate a value

A mux that feeds itself through a branch repeats a value from outside its loop.
`CombineMuxes` replaces muxes that it takes to regenerate the value of another one: it
walks from the outside input back to the first producer that is no mux, and from there
forward to muxes of the same block. Neither the branches nor the muxes on the way are
compared. The definitions follow `HandshakeCombineSteeringLogic.cpp`.
-/

namespace Dynamatic.Steering

open Bitwidth Kahn

namespace Circuit

variable (circuit : Circuit)

def isCondBranch (op : Nat) : Bool :=
  (circuit.operation op).any fun operation => operation.kind = .condBranch

def isMux (op : Nat) : Bool := (circuit.operation op).any fun operation => operation.kind = .mux

def getDataOperands (op : Nat) : List Value := (circuit.operands op).drop 1

/-- The data operand of a mux that comes from a branch which uses the mux, if there is one. -/
def isSelfRegenerateMux (op : Nat) : Option Nat :=
  (circuit.getDataOperands op).findIdx? fun operand =>
    circuit.isCondBranch operand.op && ⟨op, 0⟩ ∈ circuit.operands operand.op

/-- The first value on the way back from a data operand that no mux produces. -/
def returnNonMuxProducerVal : Nat → Nat → Nat → Option Value
  | 0, _, _ => none
  | depth + 1, op, idx => do
      let val ← (circuit.getDataOperands op)[idx]?
      if circuit.isMux val.op then returnNonMuxProducerVal depth val.op idx else some val

/-- The first mux in the block of a reference mux, on the way forward from an operation through
muxes. The users of each value come in the order of its use list. -/
def returnMuxAtSameDepth (users : Value → List Nat) (referenceMux : Nat) : Nat → Nat → Option Nat
  | 0, _ => none
  | depth + 1, op =>
      if circuit.isMux op = false ∨ op = referenceMux then none
      else if (circuit.operation op).bind Operation.bb =
          (circuit.operation referenceMux).bind Operation.bb then some op
      else (users ⟨op, 0⟩).findSome? (returnMuxAtSameDepth users referenceMux depth)

/-- The muxes that `CombineMuxes` replaces when it matches a mux. -/
def redundantMuxes (users : Value → List Nat) (mux : Nat) : List Nat :=
  match circuit.operation mux, circuit.isSelfRegenerateMux mux with
  | some ⟨.mux, [select, _, _], _⟩, some muxCycleIdx =>
      match circuit.returnNonMuxProducerVal circuit.depth mux (1 - muxCycleIdx) with
      | some valProducedByNonMux =>
          let dataMuxUsers := (users valProducedByNonMux).filterMap
            (circuit.returnMuxAtSameDepth users mux circuit.depth)
          (users select).filter fun selUser =>
            circuit.isMux selUser && selUser ≠ mux &&
              (circuit.isSelfRegenerateMux selUser).isSome && selUser ∈ dataMuxUsers
      | none => []
  | _, _ => []

/-- The operands of a mux whose data operand of some number comes back from its loop. -/
def loopOperands (muxCycleIdx : Nat) (select back outside : Value) : List Value :=
  if muxCycleIdx = 0 then [select, back, outside] else [select, outside, back]

/-- Two muxes repeat what comes from their outside inputs in the same way: the selects are the
same, and the inputs of one number come back through branches on the same condition and side,
each of which takes the mux itself. -/
def LoopAlike (mux other : Nat) (outside outside' : Value) : Prop :=
  ∃ muxCycleIdx side select select' branch branch' condition condition',
    circuit.isMux mux = true ∧ circuit.isMux other = true ∧
    circuit.operands mux = loopOperands muxCycleIdx select ⟨branch, side⟩ outside ∧
    circuit.operands other = loopOperands muxCycleIdx select' ⟨branch', side⟩ outside' ∧
    circuit.network.Bisimilar select select' ∧
    circuit.isCondBranch branch = true ∧ circuit.isCondBranch branch' = true ∧
    circuit.operands branch = [condition, ⟨mux, 0⟩] ∧
    circuit.operands branch' = [condition', ⟨other, 0⟩] ∧
    circuit.network.Bisimilar condition condition'

/-- Two muxes regenerate the same value: they repeat it in the same way, and it comes from the
same value outside, or from muxes that regenerate the same value. -/
inductive RegeneratesAlike : Nat → Nat → Prop where
  | entry {mux other : Nat} {outside outside' : Value}
      (loop : circuit.LoopAlike mux other outside outside')
      (alike : circuit.network.Bisimilar outside outside') : RegeneratesAlike mux other
  | outer {mux other outerMux outerOther : Nat}
      (loop : circuit.LoopAlike mux other ⟨outerMux, 0⟩ ⟨outerOther, 0⟩)
      (alike : RegeneratesAlike outerMux outerOther) : RegeneratesAlike mux other

end Circuit

section Streams

variable {circuit : Circuit} {mux other : Nat}

/-- What a pair of muxes that regenerate the same value, and the branches of their loops, have
in common. -/
def Circuit.InLoops (circuit : Circuit) (val image : Value) : Prop :=
  ∃ mux other, circuit.RegeneratesAlike mux other ∧
    (val = ⟨mux, 0⟩ ∧ image = ⟨other, 0⟩ ∨
      ∃ side branch branch' condition condition', val = ⟨branch, side⟩ ∧ image = ⟨branch', side⟩ ∧
        circuit.isCondBranch branch = true ∧ circuit.isCondBranch branch' = true ∧
        circuit.operands branch = [condition, ⟨mux, 0⟩] ∧
        circuit.operands branch' = [condition', ⟨other, 0⟩] ∧
        circuit.network.Bisimilar condition condition')

theorem Circuit.network_kind_of_any {op result : Nat} {kind : OpKind}
    (is : (circuit.operation op).any (fun operation => operation.kind = kind) = true) :
    circuit.network.kind ⟨op, result⟩ = ⟨kind, result⟩ := by
  obtain ⟨operation, defines, same⟩ := Option.any_eq_true _ _ |>.mp is
  rw [network_kind result defines, of_decide_eq_true same]

theorem Circuit.LoopAlike.forall₂ {outside outside' : Value} {related : Value → Value → Prop}
    (loop : circuit.LoopAlike mux other outside outside')
    (alike : circuit.RegeneratesAlike mux other)
    (base : ∀ {val image}, circuit.network.Bisimilar val image → related val image)
    (loops : ∀ {val image}, circuit.InLoops val image → related val image)
    (outsides : related outside outside') :
    List.Forall₂ related (circuit.operands mux) (circuit.operands other) := by
  obtain ⟨muxCycleIdx, side, select, select', branch, branch', condition, condition', _, _,
    operands, operands', selects, isBranch, isBranch', takes, takes', conditions⟩ := loop
  have backs : related ⟨branch, side⟩ ⟨branch', side⟩ :=
    loops ⟨mux, other, alike, .inr ⟨side, branch, branch', condition, condition', rfl, rfl,
      isBranch, isBranch', takes, takes', conditions⟩⟩
  rw [operands, operands', loopOperands, loopOperands]
  split
  · exact .cons (base selects) (.cons backs (.cons outsides .nil))
  · exact .cons (base selects) (.cons outsides (.cons backs .nil))

theorem Circuit.RegeneratesAlike.isMux (alike : circuit.RegeneratesAlike mux other) :
    circuit.isMux mux = true ∧ circuit.isMux other = true := by
  cases alike with
  | entry loop _ | outer loop _ =>
      obtain ⟨_, _, _, _, _, _, _, _, isMux, isOther, _⟩ := loop
      exact ⟨isMux, isOther⟩

/-- Muxes that regenerate the same value are bisimilar. -/
theorem Circuit.RegeneratesAlike.bisimilar (alike : circuit.RegeneratesAlike mux other) :
    circuit.network.Bisimilar ⟨mux, 0⟩ ⟨other, 0⟩ := by
  refine ⟨fun val image => circuit.network.Bisimilar val image ∨ circuit.InLoops val image,
    ⟨?_, ?_⟩, .inr ⟨mux, other, alike, .inl ⟨rfl, rfl⟩⟩⟩
  · rintro val image (bisimilar | ⟨mux, other, alike, ⟨rfl, rfl⟩ |
      ⟨side, branch, branch', condition, condition', rfl, rfl, isBranch, isBranch', _⟩⟩)
    · exact Network.bisimulation_bisimilar.kind bisimilar
    · rw [network_kind_of_any alike.isMux.1, network_kind_of_any alike.isMux.2]
    · rw [network_kind_of_any isBranch, network_kind_of_any isBranch']
  · rintro val image (bisimilar | ⟨mux, other, alike, ⟨rfl, rfl⟩ |
      ⟨side, branch, branch', condition, condition', rfl, rfl, _, _, takes, takes', conditions⟩⟩)
    · exact (Network.bisimulation_bisimilar.operands bisimilar).imp fun _ _ => .inl
    · cases alike with
      | entry loop outsides => exact loop.forall₂ (.entry loop outsides) .inl .inr (.inl outsides)
      | outer loop outers =>
          exact loop.forall₂ (.outer loop outers) .inl .inr
            (.inr ⟨_, _, outers, .inl ⟨rfl, rfl⟩⟩)
    · change List.Forall₂ _ (circuit.operands branch) (circuit.operands branch')
      rw [takes, takes']
      exact .cons (.inl conditions) (.cons (.inr ⟨mux, other, alike, .inl ⟨rfl, rfl⟩⟩) .nil)

/-- All results of muxes that regenerate the same value are bisimilar. -/
theorem Circuit.RegeneratesAlike.bisimilar_result (alike : circuit.RegeneratesAlike mux other)
    (result : Nat) : circuit.network.Bisimilar ⟨mux, result⟩ ⟨other, result⟩ := by
  have operands : List.Forall₂ circuit.network.Bisimilar (circuit.network.operands ⟨mux, 0⟩)
      (circuit.network.operands ⟨other, 0⟩) :=
    Network.bisimulation_bisimilar.operands alike.bisimilar
  refine Network.Bisimilar.of_operands ?_ operands
  rw [network_kind_of_any alike.isMux.1, network_kind_of_any alike.isMux.2]

theorem Circuit.ne_of_mem_redundantMuxes {users : Value → List Nat} {kept : Nat}
    (mem : other ∈ circuit.redundantMuxes users kept) : other ≠ kept := by
  unfold redundantMuxes at mem
  split at mem
  · split at mem
    · simp only [List.mem_filter, Bool.and_eq_true, decide_eq_true_eq] at mem
      exact mem.2.1.1.2
    · cases mem
  · cases mem

/-- Where the muxes that `CombineMuxes` replaces repeat the value of the kept one in the same
way, they carry its stream, and all values that remain keep theirs. -/
theorem combineMuxes_streams (environment : Environment) (circuit : Circuit)
    (users : Value → List Nat) (kept : Nat)
    (alike : ∀ other ∈ circuit.redundantMuxes users kept, circuit.RegeneratesAlike other kept) :
    (∀ other ∈ circuit.redundantMuxes users kept,
      circuit.network.SameStream environment.units circuit.network ⟨other, 0⟩ ⟨kept, 0⟩) ∧
    ∀ val : Value, val.op ∉ circuit.redundantMuxes users kept →
      (circuit.replaceAll kept (circuit.redundantMuxes users kept)).network.SameStream
        environment.units circuit.network val val := by
  have survives : kept ∉ circuit.redundantMuxes users kept :=
    fun mem => Circuit.ne_of_mem_redundantMuxes mem rfl
  refine ⟨fun other mem => ?_, fun val remains => ?_⟩
  · exact Network.sameStream_of_history_eq fun time =>
      (alike other mem).bisimilar.history_eq time
  · exact Network.sameStream_of_history_eq fun time =>
      circuit.history_replaceAll environment (fun other mem => (alike other mem).bisimilar_result)
        survives remains time

end Streams

/-- Two muxes of one block that repeat the same value, through branches on a condition each. -/
def regeneratingMuxes (first second : OpKind) : Circuit where
  ops :=
    [ some ⟨.argument 0, [], none⟩
    , some ⟨.argument 1, [], none⟩
    , some ⟨first, [], none⟩
    , some ⟨second, [], none⟩
    , some ⟨.mux, [⟨0, 0⟩, ⟨1, 0⟩, ⟨6, 0⟩], some 1⟩
    , some ⟨.mux, [⟨0, 0⟩, ⟨1, 0⟩, ⟨7, 0⟩], some 1⟩
    , some ⟨.condBranch, [⟨2, 0⟩, ⟨4, 0⟩], some 1⟩
    , some ⟨.condBranch, [⟨3, 0⟩, ⟨5, 0⟩], some 1⟩ ]
  type := fun _ => 0

/-- The select takes the value from outside once and then the repeated one; the value comes
once, one condition is always true and another one false. -/
def Environment.repeating : Environment where
  arguments := fun index time =>
    match index with
    | 0 => some (.ofNat 1 (if time = 0 then 0 else 1))
    | 1 => if time = 0 then some (.ofNat 8 7) else none
    | 2 => some (.ofNat 1 1)
    | _ => some (.ofNat 1 0)
  merge := fun _ => []
  other := fun _ _ _ => []
  mergeMonotone := @nil_mergeMonotone
  otherMonotone := @nil_otherMonotone

/-- With branches on one condition, the second mux is redundant. -/
theorem combineMuxes_streams_condition :
    let circuit := regeneratingMuxes (.argument 2) (.argument 2)
    let units := Environment.repeating.units
    (∀ other ∈ circuit.redundantMuxes circuit.users 4,
      circuit.network.SameStream units circuit.network ⟨other, 0⟩ ⟨4, 0⟩) ∧
    ∀ val : Value, val.op ∉ circuit.redundantMuxes circuit.users 4 →
      (circuit.replaceAll 4 (circuit.redundantMuxes circuit.users 4)).network.SameStream
        units circuit.network val val := by
  intro circuit units
  refine combineMuxes_streams .repeating circuit circuit.users 4 fun other mem => ?_
  have redundant : circuit.redundantMuxes circuit.users 4 = [5] := by decide +kernel
  rw [redundant, List.mem_singleton] at mem
  subst mem
  have conditions : circuit.network.Bisimilar ⟨3, 0⟩ ⟨2, 0⟩ := .of_operands rfl .nil
  have selects : circuit.network.Bisimilar ⟨0, 0⟩ ⟨0, 0⟩ := .refl _
  have loop : circuit.LoopAlike 5 4 ⟨1, 0⟩ ⟨1, 0⟩ :=
    ⟨1, 0, ⟨0, 0⟩, ⟨0, 0⟩, 7, 6, ⟨3, 0⟩, ⟨2, 0⟩, rfl, rfl, rfl, rfl, selects, rfl, rfl, rfl,
      rfl, conditions⟩
  exact .entry loop (.refl _)

private theorem sum_length_set {data : List (List Word)} {index : Nat} {token : Word}
    {rest : List Word} (held : data[index]? = some (token :: rest)) :
    ((data.set index rest).map List.length).sum + 1 = (data.map List.length).sum := by
  induction data generalizing index with
  | nil => cases held
  | cons first data inductionHypothesis =>
      cases index with
      | zero =>
          obtain rfl := Option.some.inj held
          simp only [List.set_cons_zero, List.map_cons, List.sum_cons, List.length_cons]
          omega
      | succ index =>
          simp only [List.set_cons_succ, List.map_cons, List.sum_cons]
          have smaller := inductionHypothesis held
          omega

/-- A mux gives no more tokens than its data operands have. -/
theorem length_muxTokens_le (selects : List Word) (data : List (List Word)) :
    (muxTokens selects data).length ≤ (data.map List.length).sum := by
  induction selects generalizing data with
  | nil => exact Nat.zero_le _
  | cons select selects inductionHypothesis =>
      rw [muxTokens]
      split
      · rename_i token rest held
        have taken := inductionHypothesis (data.set select.bits.toNat rest)
        have smaller := sum_length_set held
        rw [List.length_cons]
        omega
      · exact Nat.zero_le _

theorem branchTokens_true_eq_nil {conditions data : List Word}
    (zeros : ∀ condition ∈ conditions, condition.isZero = true) :
    branchTokens true conditions data = [] := by
  rw [branchTokens, List.map_eq_nil_iff, List.filter_eq_nil_iff]
  intro pair mem
  rw [zeros pair.1 (List.of_mem_zip mem).1]
  decide

/-- Branches on other conditions are not looked at: a mux that repeats its value is replaced by
one that does not. -/
theorem condition_not_sameStream : ¬ ∀ (environment : Environment) (circuit : Circuit) (kept : Nat),
    ∀ other ∈ circuit.redundantMuxes circuit.users kept,
      circuit.network.SameStream environment.units circuit.network ⟨other, 0⟩ ⟨kept, 0⟩ := by
  intro same
  let circuit := regeneratingMuxes (.argument 2) (.argument 3)
  let units := Environment.repeating.units
  have redundant : 5 ∈ circuit.redundantMuxes circuit.users 4 := by decide +kernel
  have carries : circuit.network.Carries units ⟨4, 0⟩ 1 (.ofNat 8 7) := ⟨8, by decide +kernel⟩
  obtain ⟨time, held⟩ := (same .repeating circuit 4 5 redundant 1 (.ofNat 8 7)).mpr carries
  have back : ∀ time, circuit.network.history units time ⟨7, 0⟩ = [] := by
    rintro (_ | time)
    · rfl
    · refine branchTokens_true_eq_nil fun condition mem => ?_
      cases time with
      | zero => cases mem
      | succ time =>
          obtain ⟨_, _, sent⟩ := List.mem_filterMap.mp mem
          exact Option.some.inj sent ▸ rfl
  have outside : ∀ time, (circuit.network.history units time ⟨1, 0⟩).length ≤ 1 := by
    rintro (_ | _ | time)
    · exact Nat.zero_le _
    · exact Nat.zero_le _
    · have once : circuit.network.history units (time + 1 + 1) ⟨1, 0⟩ =
          (List.range (time + 1)).filterMap (Environment.repeating.arguments 1) := rfl
      rw [once, List.range_succ_eq_map, List.filterMap_cons, List.filterMap_map]
      have none : (List.range time).filterMap (Environment.repeating.arguments 1 ∘ Nat.succ) = [] :=
        List.filterMap_eq_nil_iff.mpr fun _ _ => rfl
      rw [none]
      exact Nat.le_refl 1
  cases time with
  | zero => cases held
  | succ time =>
      have bounded := length_muxTokens_le (circuit.network.history units time ⟨0, 0⟩)
        [circuit.network.history units time ⟨1, 0⟩, circuit.network.history units time ⟨7, 0⟩]
      rw [back time, List.map_cons, List.map_cons, List.map_nil, List.sum_cons] at bounded
      have second := (List.getElem?_eq_some_iff.mp held).choose
      have short : (circuit.network.history units (time + 1) ⟨5, 0⟩).length ≤ 1 := by
        have taken : circuit.network.history units (time + 1) ⟨5, 0⟩ =
            muxTokens (circuit.network.history units time ⟨0, 0⟩)
              [circuit.network.history units time ⟨1, 0⟩,
                circuit.network.history units time ⟨7, 0⟩] := rfl
        rw [taken, back time]
        exact bounded.trans (outside time)
      exact absurd (second.trans_le short) (Nat.lt_irrefl 1)

end Dynamatic.Steering
