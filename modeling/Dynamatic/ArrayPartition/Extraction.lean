import Dynamatic.ArrayPartition.Shrinking
import Mathlib.Data.List.GetD

/-!
# What the extraction gives for each dimension

Each dimension other than the one of interest is projected out of the whole range, not out of
what the earlier projections left. What remains are the tuples without one coordinate, the last
other one, and their first coordinates are taken for the indices of the dimension. `Extractable`
says, of the tuples alone, when that does no harm.
-/

namespace Dynamatic.ArrayPartition

/-- The remapping of a dimension serves some of its indices. -/
structure DimInfo.Serves (info : DimInfo) (size : Nat) (values : List Nat) : Prop where
  positive : 1 ≤ info.step
  few : info.elems ≤ size
  holds : ∀ value ∈ values, info.firstIndex ≤ value ∧ info.step ∣ value - info.firstIndex ∧
    (value - info.firstIndex) / info.step < info.elems

/-- The indices of some tuples in a dimension. -/
def coordinates (range : List Subscript) (dim : Nat) : List Nat := range.map (·.getD dim 0)

/-- The places of a tuple in the bank. -/
def remap (info : DimInfoOfAllDimensions) (subscript : Subscript) : Subscript :=
  info.zipWith (fun info value => (value - info.firstIndex) / info.step) subscript

/-- There is an info for each dimension, and no two tuples get the same places. -/
structure Compresses (range : List Subscript) (dims : List Nat) (info : DimInfoOfAllDimensions) :
    Prop where
  length : info.length = dims.length
  serves : ∀ {dim : Nat} {dimInfo : DimInfo} {size : Nat}, info[dim]? = some dimInfo →
    dims[dim]? = some size → dimInfo.Serves size (coordinates range dim)
  injective : ∀ subscript ∈ range, ∀ other ∈ range,
    remap info subscript = remap info other → subscript = other

/-! ### The condition -/

/-- The tuples without their last coordinate other than that of a dimension. -/
def shortened (range : List Subscript) (numDims dim : Nat) : List Subscript :=
  if numDims ≤ 1 then range.dedup
  else (range.map (·.eraseIdx (if dim + 1 = numDims then numDims - 2 else numDims - 1))).dedup

/-- The first coordinates of the shortened tuples, each as an `int`, in order. -/
def firstCoordinates (range : List Subscript) (numDims dim : Nat) : List Int :=
  ((shortened range numDims dim).map fun point => int (point.headD 0)).insertionSort (· ≤ ·)

/-- Every number is as far from the one before. -/
def EvenlySpaced (indices : List Int) : Prop :=
  ∃ gap : Int, ∀ (place : Nat) index, indices[place]? = some index →
    index = indices.headD 0 + gap * place

/-- What an `unsigned` adds to the first of some numbers. -/
def offset (indices : List Int) : Int := if indices.headD 0 < 0 then 2 ^ 32 else 0

/-- There are at most as many shortened tuples as the dimension has indices, and their first
coordinates are either not evenly spaced, or all different and those of the dimension among
them. -/
def Extractable (range : List Subscript) (numDims dim size : Nat) : Prop :=
  let indices := firstCoordinates range numDims dim
  indices.length ≤ size ∧
    (¬ EvenlySpaced indices ∧ (∀ value ∈ coordinates range dim, value < size % 2 ^ 32) ∨
      EvenlySpaced indices ∧ indices.Nodup ∧ indices.length < 2 ^ 32 ∧
        ∀ value ∈ coordinates range dim, (value : Int) - offset indices ∈ indices)

section Reaching

variable {range : List Subscript} {numDims dim : Nat}

/-- Only the last projection counts. -/
theorem reachableSet_eq_shortened (isDim : dim < numDims) :
    reachableSet range numDims dim = shortened range numDims dim := by
  have last (count : Nat) : reachableSet range (count + 1) dim =
      if dim ≠ count then projectOut range count else reachableSet range count dim := by
    rw [reachableSet, List.range_succ, List.foldl_append]
    rfl
  match numDims with
  | 0 => omega
  | 1 =>
      obtain rfl : dim = 0 := by omega
      rfl
  | count + 2 =>
      have several : ¬ count + 2 ≤ 1 := by omega
      rw [last, shortened, if_neg several]
      by_cases isLast : dim = count + 1
      · have earlier : dim ≠ count := by omega
        rw [if_neg (not_not.mpr isLast), last, if_pos earlier, if_pos (congrArg (· + 1) isLast)]
        rfl
      · have other : ¬ dim + 1 = count + 2 := by omega
        rw [if_pos isLast, if_neg other]
        rfl

theorem reachableIndices_eq_firstCoordinates (isDim : dim < numDims) :
    reachableIndices range numDims dim = firstCoordinates range numDims dim := by
  rw [reachableIndices, reachableSet_eq_shortened isDim, firstCoordinates]

variable (numDims dim)

theorem firstCoordinates_ne_nil (nonempty : range ≠ []) :
    firstCoordinates range numDims dim ≠ [] := by
  intro isNil
  have length := congrArg List.length isNil
  rw [firstCoordinates, List.length_insertionSort, List.length_map, List.length_nil,
    List.length_eq_zero_iff, shortened] at length
  split at length
  · exact nonempty (List.eq_nil_iff_forall_not_mem.mpr fun point mem =>
      List.not_mem_nil (length ▸ List.mem_dedup.mpr mem))
  · exact nonempty (List.eq_nil_iff_forall_not_mem.mpr fun point mem =>
      List.not_mem_nil (length ▸ List.mem_dedup.mpr (List.mem_map_of_mem mem)))

variable (range)

theorem firstCoordinates_sorted : (firstCoordinates range numDims dim).Pairwise (· ≤ ·) :=
  List.pairwise_insertionSort (· ≤ ·) _

theorem firstCoordinates_bounded : ∀ index ∈ firstCoordinates range numDims dim,
    -2 ^ 31 ≤ index ∧ index < 2 ^ 31 := by
  intro index mem
  obtain ⟨point, -, rfl⟩ := List.mem_map.mp ((List.mem_insertionSort _).mp mem)
  exact ⟨BitVec.le_toInt _, BitVec.toInt_lt⟩

end Reaching

section Spacing

variable {first : Int} {rest : List Int} {size : Nat}

/-- Neighbours of a progression all differ by the gap. -/
theorem diffs_of_progression {second gap : Int}
    (spaced : ∀ (place : Nat) index, (first :: second :: rest)[place]? = some index →
      index = first + gap * place) : diffs (first :: second :: rest) = [-gap] := by
  have all : ∀ diff ∈ ((first :: second :: rest).zip (second :: rest)).map
      (fun pair => pair.1 - pair.2), diff = -gap := by
    intro diff mem
    obtain ⟨⟨left, right⟩, memZip, rfl⟩ := List.mem_map.mp mem
    obtain ⟨place, isPair⟩ := List.mem_iff_getElem?.mp memZip
    obtain ⟨isLeft, isRight⟩ := List.getElem?_zip_eq_some.mp isPair
    have next : (first :: second :: rest)[place + 1]? = some right := isRight
    rw [spaced _ _ isLeft, spaced _ _ next]
    push_cast
    ring
  have length : ((first :: second :: rest).zip (second :: rest)).map
      (fun pair => pair.1 - pair.2) = List.replicate (rest.length + 1) (-gap) := by
    rw [List.eq_replicate_iff]
    exact ⟨by simp, all⟩
  rw [diffs, List.tail_cons, length]
  exact List.replicate_dedup (Nat.succ_ne_zero _)

/-- Evenly spaced indices give their first, their gap and their number. -/
theorem squash_of_evenlySpaced (sorted : (first :: rest).Pairwise (· ≤ ·))
    (bounded : ∀ index ∈ first :: rest, -2 ^ 31 ≤ index ∧ index < 2 ^ 31)
    (even : EvenlySpaced (first :: rest)) (few : rest.length + 1 ≤ size) :
    ∃ gap : Nat, gap < 2 ^ 32 ∧ (gap = 0 → rest ≠ []) ∧
      (∀ (place : Nat) index, (first :: rest)[place]? = some index → index = first + gap * place) ∧
      squash (first :: rest) size =
        some ⟨unsigned first, gap, unsigned (rest.length + 1 : Nat)⟩ := by
  have isFew : ¬ size < (first :: rest).length := not_lt.mpr few
  obtain ⟨gap, spaced⟩ := even
  rw [List.headD_cons] at spaced
  cases rest with
  | nil =>
      refine ⟨1, by omega, by omega, fun place index isIndex => ?_, ?_⟩
      · cases place with
        | zero => simpa using isIndex.symm
        | succ place => simp at isIndex
      · unfold squash
        rw [if_neg isFew]
        rfl
  | cons second rest =>
      have isSecond : second = first + gap := by simpa using spaced 1 second rfl
      have above : first ≤ second := (List.pairwise_cons.mp sorted).1 second (List.mem_cons_self ..)
      have firstBounded := bounded first (List.mem_cons_self ..)
      have secondBounded := bounded second (List.mem_cons_of_mem _ (List.mem_cons_self ..))
      obtain ⟨gap, rfl⟩ := Int.eq_ofNat_of_zero_le (by omega : 0 ≤ gap)
      refine ⟨gap, by omega, fun _ => List.cons_ne_nil _ _, spaced, ?_⟩
      have isGap : unsigned ((-(gap : Int)).natAbs : Nat) = gap := by
        unfold unsigned
        omega
      unfold squash
      rw [if_neg isFew, diffs_of_progression spaced]
      simp only [List.headD_cons, isGap, List.length_cons]

/-- Other indices keep the dimension as it is. -/
theorem squash_of_not_evenlySpaced (uneven : ¬ EvenlySpaced (first :: rest))
    (few : rest.length + 1 ≤ size) :
    squash (first :: rest) size = some ⟨0, 1, unsigned size⟩ := by
  have isFew : ¬ size < (first :: rest).length := not_lt.mpr few
  unfold squash
  rw [if_neg isFew]
  match isDiffs : diffs (first :: rest) with
  | [] =>
      obtain rfl := diffs_eq_nil isDiffs
      refine absurd ⟨0, fun place index isIndex => ?_⟩ uneven
      cases place with
      | zero => simpa using isIndex.symm
      | succ place => simp at isIndex
  | [diff] =>
      refine absurd ⟨-diff, fun place index isIndex => ?_⟩ uneven
      have spaced : ∀ pair ∈ (first :: rest).zip rest, pair.1 - pair.2 = diff := fun pair mem => by
        have isMember : pair.1 - pair.2 ∈ diffs (first :: rest) :=
          List.mem_dedup.mpr (List.mem_map_of_mem (f := fun pair => pair.1 - pair.2) mem)
        exact List.mem_singleton.mp (isDiffs ▸ isMember)
      rw [getElem?_of_spaced spaced isIndex, List.headD_cons]
      ring
  | _ :: _ :: _ => rfl

theorem natCast_unsigned (rest : List Int) (bounded : -2 ^ 31 ≤ first ∧ first < 2 ^ 31) :
    (unsigned first : Int) = first + offset (first :: rest) := by
  rw [offset, List.headD_cons]
  unfold unsigned
  split <;> omega

section Progression

variable {gap : Nat} {values : List Nat}

/-- The members of a progression, by their places. -/
theorem mem_progression_iff (spaced : ∀ (place : Nat) index, (first :: rest)[place]? = some index →
    index = first + gap * place) {index : Int} :
    index ∈ first :: rest ↔ ∃ place < rest.length + 1, index = first + gap * place := by
  constructor
  · intro mem
    obtain ⟨place, isIndex⟩ := List.mem_iff_getElem?.mp mem
    exact ⟨place, (List.getElem?_eq_some_iff.mp isIndex).choose, spaced _ _ isIndex⟩
  · rintro ⟨place, isLess, rfl⟩
    have isIndex := List.getElem?_eq_getElem (l := first :: rest) isLess
    exact spaced _ _ isIndex ▸ List.mem_of_getElem? isIndex

/-- The members of a progression differ exactly when it has a gap or a single member. -/
theorem nodup_progression_iff (spaced : ∀ (place : Nat) index,
    (first :: rest)[place]? = some index → index = first + gap * place)
    (single : gap = 0 → rest ≠ []) : (first :: rest).Nodup ↔ 1 ≤ gap := by
  constructor
  · intro nodup
    by_contra none
    obtain ⟨second, rest, rfl⟩ := List.exists_cons_of_ne_nil (single (by omega))
    have isSecond := spaced 1 second rfl
    have isZero : gap = 0 := by omega
    rw [isZero] at isSecond
    exact (List.pairwise_cons.mp nodup).1 second (List.mem_cons_self ..) (by simpa using isSecond.symm)
  · intro positive
    rw [List.nodup_iff_getElem?_ne_getElem?]
    intro left right before isLess same
    have isRight := List.getElem?_eq_getElem isLess
    have isLeft := same.trans isRight
    have apart := (spaced _ _ isLeft).symm.trans (spaced _ _ isRight)
    have equal : gap * left = gap * right := by
      have cast := add_left_cancel apart
      exact_mod_cast cast
    exact absurd (Nat.eq_of_mul_eq_mul_left positive equal) (Nat.ne_of_lt before)

/-- The remapping of a progression serves its members, if they differ. -/
theorem serves_iff (bounded : ∀ index ∈ first :: rest, -2 ^ 31 ≤ index ∧ index < 2 ^ 31)
    (few : rest.length + 1 ≤ size) (single : gap = 0 → rest ≠ [])
    (spaced : ∀ (place : Nat) index, (first :: rest)[place]? = some index →
      index = first + gap * place) (nonempty : values ≠ []) :
    (DimInfo.mk (unsigned first) gap (unsigned (rest.length + 1 : Nat))).Serves size values ↔
      (first :: rest).Nodup ∧ (first :: rest).length < 2 ^ 32 ∧
        ∀ value ∈ values, (value : Int) - offset (first :: rest) ∈ first :: rest := by
  have isFirst := natCast_unsigned rest (bounded first (List.mem_cons_self ..))
  rw [nodup_progression_iff spaced single, List.length_cons]
  constructor
  · intro serves
    have positive : 1 ≤ gap := serves.positive
    have notTooMany : unsigned (rest.length + 1 : Nat) ≤ rest.length + 1 := by
      unfold unsigned
      omega
    refine ⟨positive, ?_, fun value mem => ?_⟩
    · obtain ⟨value, mem⟩ := List.exists_mem_of_ne_nil _ nonempty
      have some : 0 < unsigned (rest.length + 1 : Nat) :=
        Nat.lt_of_le_of_lt (Nat.zero_le _) (serves.holds value mem).2.2
      have isLast := (mem_progression_iff spaced).mpr ⟨rest.length, Nat.lt_succ_self _, rfl⟩
      have lastBounded := bounded _ isLast
      have firstBounded := bounded first (List.mem_cons_self ..)
      have spread : (rest.length : Int) ≤ gap * rest.length := by
        have scaled := Nat.mul_le_mul_right rest.length positive
        rw [Nat.one_mul] at scaled
        exact_mod_cast scaled
      have atMost : rest.length + 1 ≤ 2 ^ 32 := by omega
      unfold unsigned at some
      omega
    · obtain ⟨above, divides, isLess⟩ := serves.holds value mem
      simp only at above divides isLess
      refine (mem_progression_iff spaced).mpr ⟨_, Nat.lt_of_lt_of_le isLess notTooMany, ?_⟩
      have whole : (gap : Int) * ((value - unsigned first) / gap : Nat) =
          (value - unsigned first : Nat) := by exact_mod_cast Nat.mul_div_cancel' divides
      rw [whole, Nat.cast_sub above, isFirst]
      ring
  · rintro ⟨positive, fits, within⟩
    have isLength : unsigned (rest.length + 1 : Nat) = rest.length + 1 := by
      unfold unsigned
      omega
    refine ⟨positive, isLength.le.trans few, fun value mem => ?_⟩
    obtain ⟨place, isLess, isPlace⟩ := (mem_progression_iff spaced).mp (within value mem)
    have isValue : value = unsigned first + gap * place := by
      have cast : (value : Int) = (unsigned first : Int) + gap * place := by
        rw [isFirst, add_right_comm, ← isPlace, sub_add_cancel]
      exact_mod_cast cast
    simp only
    rw [isValue, Nat.add_sub_cancel_left, Nat.mul_div_cancel_left _ positive, isLength]
    exact ⟨Nat.le_add_right _ _, Dvd.intro _ rfl, isLess⟩

end Progression

/-- The whole dimension serves the indices that an `unsigned` size counts. -/
theorem serves_whole_iff {values : List Nat} :
    (DimInfo.mk 0 1 (unsigned size)).Serves size values ↔
      ∀ value ∈ values, value < size % 2 ^ 32 := by
  have isSize : unsigned size = size % 2 ^ 32 := by
    unfold unsigned
    omega
  constructor
  · intro serves value mem
    have isLess := (serves.holds value mem).2.2
    simpa [isSize] using isLess
  · intro within
    refine ⟨le_rfl, ?_, fun value mem => ⟨Nat.zero_le _, one_dvd _, ?_⟩⟩
    · simp only [isSize]
      exact Nat.mod_le _ _
    · simpa [isSize] using within value mem

end Spacing

section Extraction

variable {range : List Subscript} {dims : List Nat}

/-- What a dimension gets serves its indices exactly under the condition. -/
theorem exists_serves_iff (nonempty : range ≠ []) {dim size : Nat} (isDim : dims[dim]? = some size) :
    (∃ info, squash (reachableIndices range dims.length dim) size = some info ∧
      info.Serves size (coordinates range dim)) ↔ Extractable range dims.length dim size := by
  have inDims : dim < dims.length := (List.getElem?_eq_some_iff.mp isDim).choose
  have someValue : coordinates range dim ≠ [] := fun isNil => nonempty (List.map_eq_nil_iff.mp isNil)
  have sorted := firstCoordinates_sorted range dims.length dim
  have bounded := firstCoordinates_bounded range dims.length dim
  obtain ⟨first, rest, indices⟩ := List.exists_cons_of_ne_nil
    (firstCoordinates_ne_nil dims.length dim nonempty)
  rw [reachableIndices_eq_firstCoordinates inDims, Extractable]
  rw [indices] at sorted bounded ⊢
  by_cases few : rest.length + 1 ≤ size
  · by_cases even : EvenlySpaced (first :: rest)
    · obtain ⟨gap, -, single, spaced, isSquash⟩ := squash_of_evenlySpaced sorted bounded even few
      have serves := serves_iff bounded few single spaced someValue
      rw [isSquash]
      simp only [Option.some.injEq, exists_eq_left']
      rw [serves]
      exact ⟨fun condition => ⟨few, .inr ⟨even, condition⟩⟩,
        fun ⟨_, condition⟩ => condition.elim (fun uneven => absurd even uneven.1) And.right⟩
    · rw [squash_of_not_evenlySpaced even few]
      simp only [Option.some.injEq, exists_eq_left']
      rw [serves_whole_iff]
      exact ⟨fun condition => ⟨few, .inl ⟨even, condition⟩⟩,
        fun ⟨_, condition⟩ => condition.elim And.right fun isEven => absurd isEven.1 even⟩
  · have failed : squash (first :: rest) size = none := if_pos (not_le.mp few)
    rw [failed]
    exact ⟨fun ⟨_, isSome, _⟩ => (nomatch isSome), fun condition => absurd condition.1 few⟩

theorem mapM_eq_some_iff {α β : Type} {f : α → Option β} {items : List α} {results : List β} :
    items.mapM f = some results ↔ items.map f = results.map some := by
  induction items generalizing results with
  | nil => cases results <;> simp
  | cons item items inductionHypothesis =>
      cases results with
      | nil => simp [List.mapM_cons, Option.bind_eq_some_iff]
      | cons result results =>
          simp [List.mapM_cons, Option.bind_eq_some_iff, inductionHypothesis]

/-- The infos are those of the dimensions, one by one. -/
theorem extractDimInfo_eq_some_iff {info : DimInfoOfAllDimensions} :
    extractDimInfo (some range) dims = some info ↔ info.length = dims.length ∧
      ∀ {dim size : Nat}, dims[dim]? = some size →
        squash (reachableIndices range dims.length dim) size = info[dim]? := by
  simp only [extractDimInfo]
  rw [mapM_eq_some_iff]
  constructor
  · intro same
    refine ⟨by simpa using (congrArg List.length same).symm, fun {dim size} isDim => ?_⟩
    have here := congrArg (·[dim]?) same
    simp only [List.getElem?_map, List.getElem?_zipIdx, isDim, Option.map_some, Nat.zero_add] at here
    cases isInfo : info[dim]? with
    | none =>
        rw [isInfo] at here
        cases here
    | some dimInfo =>
        rw [isInfo] at here
        exact Option.some.inj here
  · rintro ⟨length, each⟩
    refine List.ext_getElem? fun dim => ?_
    simp only [List.getElem?_map, List.getElem?_zipIdx, Nat.zero_add]
    cases isDim : dims[dim]? with
    | none =>
        rw [List.getElem?_eq_none_iff, ← length, ← List.getElem?_eq_none_iff] at isDim
        rw [isDim]
        rfl
    | some size =>
        have inDims : dim < info.length := length ▸ (List.getElem?_eq_some_iff.mp isDim).choose
        rw [Option.map_some, Option.map_some, each isDim, List.getElem?_eq_getElem inDims]
        rfl

theorem remap_injective {info : DimInfoOfAllDimensions} {subscript other : Subscript}
    (length : subscript.length = info.length) (otherLength : other.length = info.length)
    (served : ∀ {dim : Nat} {dimInfo : DimInfo}, info[dim]? = some dimInfo →
      ∀ value, value = subscript.getD dim 0 ∨ value = other.getD dim 0 →
        dimInfo.firstIndex ≤ value ∧ dimInfo.step ∣ value - dimInfo.firstIndex)
    (same : remap info subscript = remap info other) : subscript = other := by
  refine List.ext_getElem (length.trans otherLength.symm) fun dim inSubscript inOther => ?_
  have inInfo : dim < info.length := length ▸ inSubscript
  have isInfo := List.getElem?_eq_getElem inInfo
  obtain ⟨above, divides⟩ := served isInfo subscript[dim]
    (.inl (List.getD_eq_getElem _ _ inSubscript).symm)
  obtain ⟨aboveOther, dividesOther⟩ := served isInfo other[dim]
    (.inr (List.getD_eq_getElem _ _ inOther).symm)
  have here := congrArg (·[dim]?) same
  simp only [remap, List.getElem?_zipWith, isInfo, List.getElem?_eq_getElem inSubscript,
    List.getElem?_eq_getElem inOther, Option.some.injEq] at here
  have equal := (Nat.div_left_inj divides dividesOther).mp here
  omega

/-- Infos that serve every dimension tell the tuples apart. -/
theorem compresses_of_serves {info : DimInfoOfAllDimensions}
    (inRange : ∀ subscript ∈ range, InBounds dims subscript) (length : info.length = dims.length)
    (serves : ∀ {dim : Nat} {dimInfo : DimInfo} {size : Nat}, info[dim]? = some dimInfo →
      dims[dim]? = some size → dimInfo.Serves size (coordinates range dim)) :
    Compresses range dims info := by
  refine ⟨length, serves, fun subscript mem other memOther => ?_⟩
  refine remap_injective ((inRange _ mem).length_eq.trans length.symm)
    ((inRange _ memOther).length_eq.trans length.symm) fun {dim dimInfo} isInfo value isValue => ?_
  have inDims : dim < dims.length := length ▸ (List.getElem?_eq_some_iff.mp isInfo).choose
  have isCoordinate : value ∈ coordinates range dim := by
    rcases isValue with rfl | rfl
    · exact List.mem_map_of_mem mem
    · exact List.mem_map_of_mem memOther
  obtain ⟨above, divides, -⟩ :=
    (serves isInfo (List.getElem?_eq_getElem inDims)).holds value isCoordinate
  exact ⟨above, divides⟩

/-- The extraction compresses a range exactly when each of its dimensions is extractable. -/
theorem extractDimInfo_compresses_iff (nonempty : range ≠ [])
    (inRange : ∀ subscript ∈ range, InBounds dims subscript) :
    (∃ info, extractDimInfo (some range) dims = some info ∧ Compresses range dims info) ↔
      ∀ dim size, dims[dim]? = some size → Extractable range dims.length dim size := by
  constructor
  · rintro ⟨info, isInfo, compresses⟩ dim size isDim
    obtain ⟨length, each⟩ := extractDimInfo_eq_some_iff.mp isInfo
    have inInfo : dim < info.length := length ▸ (List.getElem?_eq_some_iff.mp isDim).choose
    have isDimInfo := List.getElem?_eq_getElem inInfo
    exact (exists_serves_iff nonempty isDim).mp
      ⟨_, (each isDim).trans isDimInfo, compresses.serves isDimInfo isDim⟩
  · intro extractable
    let info : DimInfoOfAllDimensions := dims.zipIdx.map fun entry =>
      (squash (reachableIndices range dims.length entry.2) entry.1).getD ⟨0, 1, entry.1⟩
    have length : info.length = dims.length := by simp [info]
    have each {dim size : Nat} (isDim : dims[dim]? = some size) : ∃ dimInfo,
        squash (reachableIndices range dims.length dim) size = some dimInfo ∧
          info[dim]? = some dimInfo ∧ dimInfo.Serves size (coordinates range dim) := by
      obtain ⟨dimInfo, isSquash, serves⟩ :=
        (exists_serves_iff nonempty isDim).mpr (extractable dim size isDim)
      refine ⟨dimInfo, isSquash, ?_, serves⟩
      simp [info, List.getElem?_map, List.getElem?_zipIdx, isDim, isSquash]
    have serves {dim : Nat} {dimInfo : DimInfo} {size : Nat} (isInfo : info[dim]? = some dimInfo)
        (isDim : dims[dim]? = some size) : dimInfo.Serves size (coordinates range dim) := by
      obtain ⟨found, -, isFound, serves⟩ := each isDim
      rw [isInfo] at isFound
      exact Option.some.inj isFound ▸ serves
    refine ⟨info, extractDimInfo_eq_some_iff.mpr ⟨length, fun isDim => ?_⟩,
      compresses_of_serves inRange length serves⟩
    obtain ⟨dimInfo, isSquash, isInfo, -⟩ := each isDim
    exact isSquash.trans isInfo.symm

end Extraction

/-- Two points of a column, of which the last projection leaves the first coordinates twice. -/
theorem extractDimInfo_not_compresses : ∃ range dims,
    range ≠ [] ∧ (∀ subscript ∈ range, InBounds dims subscript) ∧
      ¬ ∃ info, extractDimInfo (some range) dims = some info ∧ Compresses range dims info := by
  refine ⟨[[0, 0, 0], [0, 1, 0]], [2, 2, 2], List.cons_ne_nil _ _, ?_, ?_⟩
  · simp [InBounds]
  · rintro ⟨info, isInfo, compresses⟩
    have isExtracted : extractDimInfo (some [[0, 0, 0], [0, 1, 0]]) [2, 2, 2] =
        some [⟨0, 0, 2⟩, ⟨0, 0, 2⟩, ⟨0, 1, 1⟩] := by decide
    obtain rfl := Option.some.inj (isExtracted.symm.trans isInfo)
    have serves : DimInfo.Serves ⟨0, 0, 2⟩ 2 _ :=
      compresses.serves (rfl : _[0]? = _) (rfl : _[0]? = _)
    exact absurd serves.positive (by decide)

theorem diagonal_extractable (dim size : Nat) (isDim : [2, 2, 2][dim]? = some size) :
    Extractable [[0, 0, 0], [1, 1, 1]] 3 dim size := by
  have isThere := List.mem_of_getElem? isDim
  obtain rfl : size = 2 := by simpa using isThere
  have inDims : dim < 3 := (List.getElem?_eq_some_iff.mp isDim).choose
  have indices : ∀ dim < 3, firstCoordinates [[0, 0, 0], [1, 1, 1]] 3 dim = [0, 1] := by decide
  have values : ∀ dim < 3, coordinates [[0, 0, 0], [1, 1, 1]] dim = [0, 1] := by decide
  have even : EvenlySpaced [0, 1] := by
    refine ⟨1, fun place index isIndex => ?_⟩
    match place, isIndex with
    | 0, rfl => rfl
    | 1, rfl => rfl
  rw [Extractable, indices dim inDims, values dim inDims]
  exact ⟨le_rfl, .inr ⟨even, by decide, by decide, by decide⟩⟩

theorem extractDimInfo_compresses_iff_diagonal :
    ∃ info, extractDimInfo (some [[0, 0, 0], [1, 1, 1]]) [2, 2, 2] = some info ∧
      Compresses [[0, 0, 0], [1, 1, 1]] [2, 2, 2] info :=
  (extractDimInfo_compresses_iff (List.cons_ne_nil _ _) (by simp [InBounds])).mpr diagonal_extractable

end Dynamatic.ArrayPartition
