import Dynamatic.DeciderPaths.Walks

/-!
# What the search returns

The search takes every walk of a circuit once, and ends because no walk passes a channel twice.
-/

namespace Dynamatic.DeciderPaths

namespace Circuit

variable {Op Value : Type} (circuit : Circuit Op Value)

/-- The walks that the search takes from a channel, in its order. -/
inductive Explores : Value → List (List (Step Op) × Op) → Prop where
  | branch {value : Value} (isBranch : circuit.kind (circuit.user value) = .conditionalBranch) :
      Explores value [([], circuit.user value)]
  | buffer {value operand result : Value} {numSlots : Nat} {bufferType : BufferType}
      {slots : List BufferSlotFullNamer} {walks : List (List (Step Op) × Op)}
      (isBuffer : circuit.kind (circuit.user value) = .buffer operand numSlots bufferType result)
      (named : circuit.getInternalSlotStateNamers (circuit.user value) = some slots)
      (below : Explores result walks) :
      Explores value (walks.map fun walk => (.buffer (circuit.user value) :: walk.1, walk.2))
  | fork {value operand : Value} {results : List Value}
      {walks : Nat → List (List (Step Op) × Op)}
      (isFork : circuit.kind (circuit.user value) = .fork operand results)
      (below : ∀ index channel, results[index]? = some channel → Explores channel (walks index)) :
      Explores value ((List.range results.length).reverse.flatMap fun index =>
        (walks index).map fun walk => (.output (circuit.user value) index :: walk.1, walk.2))

/-- The operations that the search goes through. -/
def Known (op : Op) : Prop :=
  match circuit.kind op with
  | .fork _ _ | .conditionalBranch => True
  | .buffer _ _ _ _ => ∃ slots, circuit.getInternalSlotStateNamers op = some slots
  | _ => False

variable {circuit} {value start : Value} {walks : List (List (Step Op) × Op)}

/-- The walks are those of the circuit. -/
theorem Explores.mem_iff (explores : circuit.Explores value walks) {steps : List (Step Op)}
    {branch : Op} : (steps, branch) ∈ walks ↔ circuit.Walk value steps branch := by
  induction explores generalizing steps with
  | branch isBranch =>
      rw [List.mem_singleton, Prod.mk.injEq]
      constructor
      · rintro ⟨rfl, rfl⟩
        exact .branch isBranch
      · intro walk
        cases walk with
        | branch => exact ⟨rfl, rfl⟩
        | output isFork => cases isBranch.symm.trans isFork
        | buffer isBuffer => cases isBranch.symm.trans isBuffer
  | buffer isBuffer named below inductionHypothesis =>
      rw [List.mem_map]
      constructor
      · rintro ⟨⟨steps, branch⟩, mem, same⟩
        cases same
        exact .buffer isBuffer (inductionHypothesis.mp mem)
      · intro walk
        cases walk with
        | branch isBranch => cases isBuffer.symm.trans isBranch
        | output isFork => cases isBuffer.symm.trans isFork
        | buffer isBuffer' rest =>
            cases isBuffer.symm.trans isBuffer'
            exact ⟨_, inductionHypothesis.mpr rest, rfl⟩
  | fork isFork below inductionHypothesis =>
      simp only [List.mem_flatMap, List.mem_reverse, List.mem_range, List.mem_map]
      constructor
      · rintro ⟨index, bound, ⟨steps, branch⟩, mem, same⟩
        cases same
        have taken := List.getElem?_eq_getElem bound
        exact .output isFork taken ((inductionHypothesis index _ taken).mp mem)
      · intro walk
        cases walk with
        | branch isBranch => cases isFork.symm.trans isBranch
        | buffer isBuffer => cases isFork.symm.trans isBuffer
        | @output _ _ channel _ index _ _ isFork' taken rest =>
            cases isFork.symm.trans isFork'
            exact ⟨index, (List.getElem?_eq_some_iff.mp taken).1, _,
              (inductionHypothesis index channel taken).mpr rest, rfl⟩

/-! ### The stack -/

theorem search_branch (isBranch : circuit.kind (circuit.user value) = .conditionalBranch)
    (steps : List (Step Op)) (fuel : Nat) (stack : List (PartialPath Value))
    (ret : List (UnstartedPath Op)) :
    circuit.search (fuel + 1) (circuit.reached steps value :: stack) ret =
      circuit.search fuel stack (ret ++ [circuit.found steps (circuit.user value)]) := by
  rw [search, reached]
  simp only [isBranch]
  rfl

theorem search_buffer {operand result : Value} {numSlots : Nat} {bufferType : BufferType}
    {slots : List BufferSlotFullNamer}
    (isBuffer : circuit.kind (circuit.user value) = .buffer operand numSlots bufferType result)
    (named : circuit.getInternalSlotStateNamers (circuit.user value) = some slots)
    (steps : List (Step Op)) (fuel : Nat) (stack : List (PartialPath Value))
    (ret : List (UnstartedPath Op)) :
    circuit.search (fuel + 1) (circuit.reached steps value :: stack) ret =
      circuit.search fuel
        (circuit.reached (steps ++ [.buffer (circuit.user value)]) result :: stack) ret := by
  rw [search, reached, reached_buffer named]
  simp only [isBuffer, named]

theorem search_fork {operand : Value} {results : List Value}
    (isFork : circuit.kind (circuit.user value) = .fork operand results)
    (path : PartialPath Value) (isCur : path.cur = value) (fuel : Nat)
    (stack : List (PartialPath Value)) (ret : List (UnstartedPath Op)) :
    circuit.search (fuel + 1) (path :: stack) ret =
      circuit.search fuel
        ((forkPaths path
          ((circuit.getInternalSentStateNamers (circuit.user value)).zip results)).reverse ++ stack)
        ret := by
  rw [search]
  simp only [isCur, isFork]

/-- The search takes the walks behind each output, the last output first. -/
theorem search_outputs {results : List Value} {paths : List (PartialPath Value)}
    {behind : Nat → Value → PartialPath Value} {extra : Nat → Nat}
    {returned : Nat → List (UnstartedPath Op)}
    (isPath : ∀ index channel, results[index]? = some channel →
      paths[index]? = some (behind index channel))
    (searches : ∀ index channel, results[index]? = some channel → ∀ fuel stack ret,
      circuit.search (fuel + extra index) (behind index channel :: stack) ret =
        circuit.search fuel stack (ret ++ returned index))
    (count : Nat) (bound : count ≤ results.length) (fuel : Nat)
    (stack : List (PartialPath Value)) (ret : List (UnstartedPath Op)) :
    circuit.search (fuel + ((List.range count).map extra).sum)
        ((paths.take count).reverse ++ stack) ret =
      circuit.search fuel stack (ret ++ (List.range count).reverse.flatMap returned) := by
  induction count generalizing ret with
  | zero => simp
  | succ count inductionHypothesis =>
      have taken := List.getElem?_eq_getElem (Nat.lt_of_succ_le bound)
      have here := isPath count _ taken
      rw [List.take_add_one, here, Option.toList_some, List.reverse_append,
        List.reverse_singleton, List.append_assoc, List.singleton_append, List.range_succ,
        List.map_append, List.sum_append, List.map_singleton, List.sum_singleton,
        ← Nat.add_assoc, searches count _ taken,
        inductionHypothesis (Nat.le_of_succ_le bound), List.reverse_append,
        List.reverse_singleton, List.singleton_append, List.flatMap_cons, List.append_assoc]

/-- With enough fuel the search takes a path off the stack and returns what is found on the walks
that it begins. -/
theorem Explores.search_eq (explores : circuit.Explores value walks) :
    ∃ extra, ∀ steps fuel stack ret,
      circuit.search (fuel + extra) (circuit.reached steps value :: stack) ret =
        circuit.search fuel stack
          (ret ++ walks.map fun walk => circuit.found (steps ++ walk.1) walk.2) := by
  induction explores with
  | branch isBranch =>
      refine ⟨1, fun steps fuel stack ret => ?_⟩
      rw [search_branch isBranch, List.map_singleton, List.append_nil]
  | buffer isBuffer named below inductionHypothesis =>
      obtain ⟨extra, searches⟩ := inductionHypothesis
      refine ⟨extra + 1, fun steps fuel stack ret => ?_⟩
      rw [← Nat.add_assoc, search_buffer isBuffer named, searches, List.map_map]
      simp only [Function.comp_def, List.append_assoc, List.singleton_append]
  | @fork value operand results walks isFork below inductionHypothesis =>
      have enough : ∀ index, ∃ extra, ∀ channel, results[index]? = some channel →
          ∀ steps fuel stack ret,
            circuit.search (fuel + extra) (circuit.reached steps channel :: stack) ret =
              circuit.search fuel stack
                (ret ++ (walks index).map fun walk => circuit.found (steps ++ walk.1) walk.2) := by
        intro index
        cases taken : results[index]? with
        | none => exact ⟨0, nofun⟩
        | some channel =>
            obtain ⟨extra, searches⟩ := inductionHypothesis index channel taken
            exact ⟨extra, fun _ same => Option.some.inj same ▸ searches⟩
      choose extra searches using enough
      refine ⟨((List.range results.length).map extra).sum + 1, fun steps fuel stack ret => ?_⟩
      have sameLength : (forkPaths (circuit.reached steps value)
          ((circuit.getInternalSentStateNamers (circuit.user value)).zip results)).length =
            results.length := by
        rw [length_forkPaths, List.length_zip, length_getInternalSentStateNamers isFork, min_self]
      have isPath : ∀ index channel, results[index]? = some channel →
          (forkPaths (circuit.reached steps value)
              ((circuit.getInternalSentStateNamers (circuit.user value)).zip results))[index]? =
            some (circuit.reached (steps ++ [.output (circuit.user value) index]) channel) :=
        fun index channel taken => forkPaths_reached isFork taken
      have outputs := search_outputs isPath (fun index channel taken fuel stack ret =>
          searches index channel taken (steps ++ [.output (circuit.user value) index]) fuel stack
            ret)
        results.length (Nat.le_refl _) fuel stack ret
      rw [← sameLength, List.take_length, sameLength] at outputs
      rw [← Nat.add_assoc, search_fork isFork (circuit.reached steps value) rfl, outputs,
        List.map_flatMap]
      simp only [List.map_map, Function.comp_def, List.append_assoc, List.singleton_append]

/-- Where the search ends it has gone through known operations only. -/
theorem explores_of_search {fuel : Nat} {stack : List (PartialPath Value)}
    {ret all : List (UnstartedPath Op)} (searches : circuit.search fuel stack ret = some all) :
    ∀ path ∈ stack, ∃ walks, circuit.Explores path.cur walks := by
  induction fuel generalizing stack ret with
  | zero => cases searches
  | succ fuel inductionHypothesis =>
      cases stack with
      | nil => exact fun path mem => absurd mem List.not_mem_nil
      | cons path stack =>
          intro other mem
          cases kind : circuit.kind (circuit.user path.cur) with
          | fork operand results =>
              rw [search_fork kind path rfl] at searches
              have later := inductionHypothesis searches
              rcases List.mem_cons.mp mem with rfl | mem
              · have below : ∀ index : Nat, ∃ walks, ∀ channel : Value,
                    results[index]? = some channel → circuit.Explores channel walks := by
                  intro index
                  cases taken : results[index]? with
                  | none => exact ⟨[], nofun⟩
                  | some channel =>
                      obtain ⟨next, isNext, same⟩ := exists_forkPaths kind other taken
                      obtain ⟨walks, explores⟩ := later next (List.mem_append_left _
                        (List.mem_reverse.mpr (List.mem_of_getElem? isNext)))
                      exact ⟨walks, fun _ isChannel => Option.some.inj isChannel ▸ same ▸ explores⟩
                choose walks explores using below
                exact ⟨_, .fork kind explores⟩
              · exact later other (List.mem_append_right _ mem)
          | buffer operand numSlots bufferType result =>
              rw [search] at searches
              simp only [kind] at searches
              split at searches
              · cases searches
              · rename_i slots named
                have later := inductionHypothesis searches
                rcases List.mem_cons.mp mem with rfl | mem
                · obtain ⟨walks, explores⟩ := later _ List.mem_cons_self
                  exact ⟨_, .buffer kind named explores⟩
                · exact later other (List.mem_cons_of_mem _ mem)
          | conditionalBranch =>
              rw [search] at searches
              simp only [kind] at searches
              rcases List.mem_cons.mp mem with rfl | mem
              · exact ⟨_, .branch kind⟩
              · exact inductionHypothesis searches other mem
          | arith | load | other =>
              rw [search] at searches
              simp only [kind] at searches
              cases searches

theorem search_mono {fuel : Nat} {stack : List (PartialPath Value)}
    {ret all : List (UnstartedPath Op)} (searches : circuit.search fuel stack ret = some all)
    (extra : Nat) : circuit.search (fuel + extra) stack ret = some all := by
  induction fuel generalizing stack ret with
  | zero => cases searches
  | succ fuel inductionHypothesis =>
      rw [Nat.add_right_comm]
      cases stack with
      | nil => exact searches
      | cons path stack =>
          rw [search] at searches ⊢
          dsimp only at searches ⊢
          split at searches
          · exact inductionHypothesis searches
          · split at searches
            · cases searches
            · exact inductionHypothesis searches
          · exact inductionHypothesis searches
          · cases searches

/-- What the search returns. -/
theorem findDeciderBranchPaths_iff {dec : Op} (isArith : circuit.kind dec = .arith start)
    {ret : List (UnstartedPath Op)} :
    (∃ fuel, circuit.findDeciderBranchPaths fuel dec = some ret) ↔
      ∃ walks, circuit.Explores start walks ∧
        ret = walks.map fun walk => circuit.found walk.1 walk.2 := by
  simp only [findDeciderBranchPaths, isArith]
  have returned : ∀ {walks}, circuit.Explores start walks → ∃ fuel,
      circuit.search fuel [⟨[], [], start⟩] [] =
        some (walks.map fun walk => circuit.found walk.1 walk.2) := by
    intro walks explores
    obtain ⟨extra, searches⟩ := explores.search_eq
    exact ⟨1 + extra, searches [] 1 [] []⟩
  constructor
  · rintro ⟨fuel, searches⟩
    obtain ⟨walks, explores⟩ := explores_of_search searches _ List.mem_cons_self
    obtain ⟨enough, again⟩ := returned explores
    have same := (search_mono searches enough).symm.trans
      (Nat.add_comm fuel enough ▸ search_mono again fuel)
    exact ⟨walks, explores, Option.some.inj same⟩
  · rintro ⟨walks, explores, rfl⟩
    exact returned explores

/-! ### Ways from the decider -/

/-- The channels on a way from the start, the last one first. -/
inductive Way (circuit : Circuit Op Value) (start : Value) : List Value → Prop where
  | start : Way circuit start [start]
  | step {value channel : Value} {earlier : List Value}
      (way : Way circuit start (value :: earlier))
      (passes : (circuit.kind (circuit.user value)).operand?.isSome)
      (isResult : channel ∈ (circuit.kind (circuit.user value)).results) :
      Way circuit start (channel :: value :: earlier)

/-- Forks and buffers have one operand each. -/
theorem eq_of_user_eq {other : Value} (passes : (circuit.kind (circuit.user value)).operand?.isSome)
    (same : circuit.user value = circuit.user other) : value = other := by
  obtain ⟨operand, isOperand⟩ := Option.isSome_iff_exists.mp passes
  rw [← circuit.operand_eq isOperand]
  exact circuit.operand_eq (same ▸ isOperand)

/-- Every channel of a way but the first is the result of the user of an earlier one. -/
theorem Way.exists_earlier {ways : List Value} (way : circuit.Way start ways) {channel : Value}
    (mem : channel ∈ ways) :
    channel = start ∨ ∃ value ∈ ways.tail, (circuit.kind (circuit.user value)).operand?.isSome ∧
      channel ∈ (circuit.kind (circuit.user value)).results := by
  induction way with
  | start => exact .inl (List.mem_singleton.mp mem)
  | @step value _ earlier way passes isResult inductionHypothesis =>
      rcases List.mem_cons.mp mem with rfl | mem
      · exact .inr ⟨value, List.mem_cons_self, passes, isResult⟩
      · exact (inductionHypothesis mem).imp_right fun ⟨value, valueMem, found⟩ =>
          ⟨value, List.mem_of_mem_tail valueMem, found⟩

/-- No way passes a channel twice. -/
theorem Way.nodup {dec : Op} (isArith : circuit.kind dec = .arith start) {ways : List Value}
    (way : circuit.Way start ways) : ways.Nodup := by
  induction way with
  | start => exact List.nodup_singleton start
  | @step value channel earlier way passes isResult inductionHypothesis =>
      refine List.nodup_cons.mpr ⟨fun again => ?_, inductionHypothesis⟩
      rcases way.exists_earlier again with rfl | ⟨other, otherMem, otherPasses, otherResult⟩
      · have mem : channel ∈ (circuit.kind dec).results := by
          rw [isArith]
          exact List.mem_singleton_self _
        have isDec := circuit.definer_unique isResult mem
        rw [isDec, isArith] at passes
        cases passes
      · have same := eq_of_user_eq otherPasses (circuit.definer_unique otherResult isResult)
        exact (List.nodup_cons.mp inductionHypothesis).1 (same ▸ otherMem)

/-- The search ends if it knows every operation on its way. -/
theorem exists_explores [Fintype Value] {dec : Op} (isArith : circuit.kind dec = .arith start)
    (known : ∀ value earlier, circuit.Way start (value :: earlier) →
      circuit.Known (circuit.user value)) (missing : Nat) {earlier : List Value}
    (way : circuit.Way start (value :: earlier))
    (enough : Fintype.card Value < missing + (value :: earlier).length) :
    ∃ walks, circuit.Explores value walks := by
  induction missing generalizing value earlier with
  | zero =>
      have short := (way.nodup isArith).length_le_card
      omega
  | succ missing inductionHypothesis =>
      have isKnown := known value earlier way
      rw [Known] at isKnown
      have further : ∀ {channel}, (circuit.kind (circuit.user value)).operand?.isSome →
          channel ∈ (circuit.kind (circuit.user value)).results →
          ∃ walks, circuit.Explores channel walks := by
        intro channel passes isResult
        refine inductionHypothesis (way.step passes isResult) ?_
        rw [List.length_cons]
        omega
      split at isKnown
      · rename_i operand results kind
        have below : ∀ index : Nat, ∃ walks, ∀ channel : Value, results[index]? = some channel →
            circuit.Explores channel walks := by
          intro index
          cases taken : results[index]? with
          | none => exact ⟨[], nofun⟩
          | some channel =>
              obtain ⟨walks, explores⟩ := further (by rw [kind]; rfl)
                (by rw [kind]; exact List.mem_of_getElem? taken)
              exact ⟨walks, fun _ isChannel => Option.some.inj isChannel ▸ explores⟩
        choose walks explores using below
        exact ⟨_, .fork kind explores⟩
      · rename_i kind
        exact ⟨_, .branch kind⟩
      · rename_i operand numSlots bufferType result kind
        obtain ⟨slots, named⟩ := isKnown
        obtain ⟨walks, explores⟩ := further (by rw [kind]; rfl)
          (by rw [kind]; exact List.mem_singleton_self result)
        exact ⟨_, .buffer kind named explores⟩
      · exact isKnown.elim

/-- What the search goes through from the start it goes through from every channel of a way. -/
theorem Way.explores {channels : List Value} (way : circuit.Way start channels)
    (explores : circuit.Explores start walks) :
    ∀ value ∈ channels.head?, ∃ walks, circuit.Explores value walks := by
  induction way with
  | start => exact fun value isStart => Option.some.inj isStart ▸ ⟨walks, explores⟩
  | @step value channel earlier way passes isResult inductionHypothesis =>
      intro other same
      obtain rfl := Option.some.inj same
      obtain ⟨walks, explores⟩ := inductionHypothesis value rfl
      cases explores with
      | branch isBranch =>
          rw [isBranch] at passes
          cases passes
      | buffer isBuffer named below =>
          rw [isBuffer] at isResult
          rw [List.mem_singleton.mp isResult]
          exact ⟨_, below⟩
      | fork isFork below =>
          rw [isFork] at isResult
          obtain ⟨index, taken⟩ := List.mem_iff_getElem?.mp isResult
          exact ⟨_, below index channel taken⟩

theorem Explores.known (explores : circuit.Explores value walks) :
    circuit.Known (circuit.user value) := by
  rw [Known]
  cases explores with
  | branch isBranch => simp only [isBranch]
  | buffer isBuffer named =>
      simp only [isBuffer]
      exact ⟨_, named⟩
  | fork isFork => simp only [isFork]

/-- Where the search ends, all operations on its way are known. -/
theorem Way.known {earlier : List Value} (way : circuit.Way start (value :: earlier))
    (explores : circuit.Explores start walks) : circuit.Known (circuit.user value) := by
  obtain ⟨walks, explores⟩ := way.explores explores value rfl
  exact explores.known

end Circuit

end Dynamatic.DeciderPaths
