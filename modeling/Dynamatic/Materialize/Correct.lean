import Dynamatic.Materialize.Circuit

/-!
# Materialized circuits

Each step gives one more value its single use and leaves the use counts of the others. The
forks stand between values and their users, so all streams stay.
-/

namespace Dynamatic.Materialize

open Kahn

namespace Circuit

variable {circuit : Circuit} {user op : Nat} {val old new : Value}

/-! ### Uses -/

theorem count_owners : (circuit.owners val).count op = (circuit.operands op).count val := by
  have each : ∀ count, ((List.range count).flatMap fun op =>
      List.replicate ((circuit.operands op).count val) op).count op =
        if op < count then (circuit.operands op).count val else 0 := by
    intro count
    induction count with
    | zero => rfl
    | succ count inductionHypothesis =>
        rw [List.range_succ, List.flatMap_append, List.count_append, inductionHypothesis]
        simp only [List.flatMap_singleton, List.count_replicate, beq_iff_eq]
        grind
  rw [owners, each]
  split
  · rfl
  · rename_i outside
    rw [operands, List.getElem?_eq_none (Nat.not_lt.mp outside)]
    rfl

theorem mem_owners : op ∈ circuit.owners val ↔ val ∈ circuit.operands op := by
  rw [← List.count_pos_iff, count_owners, List.count_pos_iff]

theorem count_replace {operands : List Value} (mem : old ∈ operands) :
    (operands.replace old new).count val + (if val = old then 1 else 0) =
      operands.count val + (if val = new then 1 else 0) := by
  induction operands with
  | nil => cases mem
  | cons operand operands inductionHypothesis =>
      rw [List.replace_cons]
      grind

theorem operands_replaceFirstUse :
    (circuit.replaceFirstUse user old new).operands op =
      if op = user then (circuit.operands op).replace old new else circuit.operands op := by
  simp only [operands, replaceFirstUse, List.getElem?_modify]
  cases circuit.ops[op]? <;> grind

theorem operands_insert {operation : Operation} :
    (circuit.insert operation).operands op =
      if op = circuit.ops.length then operation.operands else circuit.operands op := by
  simp only [operands, insert]
  grind

/-- A use is taken from the old value and given to the new one. -/
theorem owners_replaceFirstUse (mem : old ∈ circuit.operands user) :
    ((if val = old then [user] else []) ++
      (circuit.replaceFirstUse user old new).owners val).Perm
        ((if val = new then [user] else []) ++ circuit.owners val) := by
  rw [List.perm_iff_count]
  intro op
  rw [List.count_append, List.count_append, count_owners, count_owners, operands_replaceFirstUse]
  have moved := @count_replace val old new _ mem
  grind

variable {replacements : List (Nat × Value)}

/-- The uses that the replacements take from a value are given to the new ones. -/
theorem numUses_replaceUses (taken : (replacements.map Prod.fst).Subperm (circuit.owners old))
    (fresh : old ∉ replacements.map Prod.snd) :
    (circuit.replaceUses old replacements).numUses val +
        (if val = old then replacements.length else 0) =
      circuit.numUses val + (replacements.map Prod.snd).count val := by
  induction replacements generalizing circuit with
  | nil => simp [replaceUses]
  | cons replacement replacements inductionHypothesis =>
      obtain ⟨user, new⟩ := replacement
      simp only [List.map_cons, List.mem_cons, not_or] at taken fresh
      have mem := mem_owners.mp (taken.subset List.mem_cons_self)
      have moved := @owners_replaceFirstUse circuit user old old new mem
      rw [if_pos rfl, if_neg fresh.1] at moved
      have rest := inductionHypothesis
        ((List.subperm_cons user).mp (moved.subperm_left.mpr taken)) fresh.2
      have lengths := (@owners_replaceFirstUse circuit user val old new mem).length_eq
      simp only [replaceUses, numUses, List.foldl_cons, List.length_append, List.map_cons] at *
      grind

theorem operands_replaceUses_of_notMem (unused : op ∉ replacements.map Prod.fst) :
    (circuit.replaceUses old replacements).operands op = circuit.operands op := by
  induction replacements generalizing circuit with
  | nil => rfl
  | cons replacement replacements inductionHypothesis =>
      rw [List.map_cons, List.mem_cons, not_or] at unused
      exact (inductionHypothesis unused.2).trans
        (operands_replaceFirstUse.trans (if_neg unused.1))

theorem forall₂_replace (operands : List Value) :
    List.Forall₂ (fun after before => after = before ∨ before = old ∧ after = new)
      (operands.replace old new) operands := by
  induction operands with
  | nil => exact .nil
  | cons operand operands inductionHypothesis =>
      rw [List.replace_cons]
      split
      · rename_i same
        exact .cons (.inr ⟨(eq_of_beq same).symm, rfl⟩) (List.forall₂_same.mpr fun _ _ => .inl rfl)
      · exact .cons (.inl rfl) inductionHypothesis

/-- An operand stays or is one of the new values. -/
theorem operands_replaceUses (op : Nat) :
    List.Forall₂ (fun after before => after = before ∨
        before = old ∧ after ∈ replacements.map Prod.snd)
      ((circuit.replaceUses old replacements).operands op) (circuit.operands op) := by
  induction replacements generalizing circuit with
  | nil => exact List.forall₂_same.mpr fun _ _ => .inl rfl
  | cons replacement replacements inductionHypothesis =>
      have first : List.Forall₂ (fun after before => after = before ∨
            before = old ∧ after = replacement.2)
          ((circuit.replaceFirstUse replacement.1 old replacement.2).operands op)
          (circuit.operands op) := by
        rw [operands_replaceFirstUse]
        split
        · exact forall₂_replace _
        · exact List.forall₂_same.mpr fun _ _ => .inl rfl
      refine (Network.forall₂_comp inductionHypothesis first).imp ?_
      rintro after before ⟨between, rfl | ⟨rfl, mem⟩, rfl | ⟨rfl, rfl⟩⟩ <;> grind

/-- Kind and result types of an operation. -/
def shape (circuit : Circuit) (op : Nat) : Option (Kind × List ValueType) :=
  circuit.ops[op]?.map fun operation => (operation.kind, operation.resultTypes)

theorem shape_replaceUses :
    (circuit.replaceUses old replacements).shape op = circuit.shape op := by
  induction replacements generalizing circuit with
  | nil => rfl
  | cons replacement replacements inductionHypothesis =>
      refine inductionHypothesis.trans ?_
      simp only [shape, replaceFirstUse, List.getElem?_modify]
      cases circuit.ops[op]? <;> grind

theorem type_result (op number : Nat) :
    circuit.type (.result op number) = (circuit.shape op).bind fun shape => shape.2[number]? := by
  rw [type, shape]
  cases circuit.ops[op]? <;> rfl

theorem network_kind (op number : Nat) : circuit.network.kind (.result op number) =
    .unit ((circuit.shape op).map Prod.fst) number := by
  rw [shape, Option.map_map]
  rfl

theorem type_eq {after : Circuit} (same : after.arguments = circuit.arguments)
    (shapes : ∀ op number, val = .result op number → after.shape op = circuit.shape op) :
    after.type val = circuit.type val := by
  cases val with
  | argument number => rw [type, same, type]
  | result op number => rw [type_result, type_result, shapes op number rfl]

theorem arguments_replaceUses :
    (circuit.replaceUses old replacements).arguments = circuit.arguments := by
  induction replacements generalizing circuit with
  | nil => rfl
  | cons replacement replacements inductionHypothesis => exact inductionHypothesis

theorem lt_of_shape (isOp : (circuit.shape op).isSome) : op < circuit.ops.length := by
  by_contra outside
  rw [shape, List.getElem?_eq_none (Nat.le_of_not_lt outside)] at isOp
  cases isOp

theorem shape_of_type {number : Nat} (isResult : (circuit.type (.result op number)).isSome) :
    (circuit.shape op).isSome := by
  rw [type_result] at isResult
  exact Option.isSome_of_isSome_bind isResult

theorem shape_insert {operation : Operation} (isOp : (circuit.shape op).isSome) :
    (circuit.insert operation).shape op = circuit.shape op := by
  rw [shape, insert, List.getElem?_append_left (lt_of_shape isOp), shape]

/-- The values of an operation that is added. -/
theorem isSome_type_insert {operation : Operation} :
    ((circuit.insert operation).type val).isSome ↔ (circuit.type val).isSome ∨
      val ∈ results circuit.ops.length operation.resultTypes.length := by
  cases val with
  | argument number => simp [type, insert, results]
  | result op number =>
      simp only [type, insert, results, List.mem_map, List.mem_range, Value.result.injEq]
      grind

theorem owners_insert {operation : Operation} : ((circuit.insert operation).owners val).Perm
    (circuit.owners val ++
      List.replicate (operation.operands.count val) circuit.ops.length) := by
  rw [List.perm_iff_count]
  intro op
  rw [List.count_append, count_owners, count_owners, operands_insert, List.count_replicate]
  have outside : circuit.operands circuit.ops.length = [] := by simp [operands]
  grind

theorem numUses_insert {operation : Operation} : (circuit.insert operation).numUses val =
    circuit.numUses val + operation.operands.count val := by
  rw [numUses, owners_insert.length_eq, List.length_append, List.length_replicate, numUses]

end Circuit

/-- What is the same in a circuit after some of its values have been materialized. -/
structure Extends (circuit after : Circuit) (vals : List Value) : Prop where
  single : ∀ val, (after.type val).isSome → (val ∈ vals ∨ ¬ (circuit.type val).isSome) →
    after.eligibleForMaterialization val = true → after.numUses val = 1
  others : ∀ val, (circuit.type val).isSome → val ∉ vals → after.numUses val = circuit.numUses val
  type : ∀ val, (circuit.type val).isSome → after.type val = circuit.type val
  shape : ∀ op, (circuit.shape op).isSome → after.shape op = circuit.shape op
  valid : after.Valid
  streams : ∀ {Token : Type} (units : Units Token) (val : Value), (circuit.type val).isSome →
    after.network.SameStream units.toInterpretation circuit.network val val
  operands : ∀ {Token : Type} (units : Units Token) (op : Nat), (circuit.shape op).isSome →
    List.Forall₂ (after.network.SameStream units.toInterpretation circuit.network)
      (after.operands op) (circuit.operands op)

theorem extends_self {circuit : Circuit} {vals : List Value} (valid : circuit.Valid)
    (single : ∀ val ∈ vals, circuit.eligibleForMaterialization val = true →
      circuit.numUses val = 1) : Extends circuit circuit vals where
  single val isValue mem := single val (mem.resolve_right fun isNew => isNew isValue)
  others _ _ _ := rfl
  type _ _ := rfl
  shape _ _ := rfl
  valid := valid
  streams _ _ _ _ _ := Iff.rfl
  operands _ _ _ := List.forall₂_same.mpr fun _ _ _ _ => Iff.rfl

theorem Extends.trans {circuit after final : Circuit} {val : Value} {vals : List Value}
    (first : Extends circuit after [val]) (rest : Extends after final vals) :
    Extends circuit final (val :: vals) where
  single other isValue mem eligible := by
    by_cases later : other ∈ vals ∨ ¬ (after.type other).isSome
    · exact rest.single other isValue later eligible
    · simp only [not_or, not_not] at later
      rw [rest.others other later.2 later.1]
      refine first.single other later.2 (mem.imp_left fun mem => ?_) ?_
      · exact List.mem_singleton.mpr ((List.mem_cons.mp mem).resolve_right later.1)
      · rwa [Circuit.eligibleForMaterialization, rest.type other later.2] at eligible
  others other isValue absent := by
    rw [List.mem_cons, not_or] at absent
    have isAfter : (after.type other).isSome := first.type other isValue ▸ isValue
    rw [rest.others other isAfter absent.2]
    exact first.others other isValue (mt List.mem_singleton.mp absent.1)
  type other isValue :=
    (rest.type other (first.type other isValue ▸ isValue)).trans (first.type other isValue)
  shape op isOp := (rest.shape op (first.shape op isOp ▸ isOp)).trans (first.shape op isOp)
  valid := rest.valid
  streams units other isValue position token :=
    (rest.streams units other (first.type other isValue ▸ isValue) position token).trans
      (first.streams units other isValue position token)
  operands units op isOp := by
    refine (Network.forall₂_comp (rest.operands units op (first.shape op isOp ▸ isOp))
      (first.operands units op isOp)).imp ?_
    rintro last operand ⟨between, after, before⟩ position token
    exact (after position token).trans (before position token)

/-- A new operation uses a value, and its results are used where the value was. -/
structure Attaches (circuit : Circuit) (operation : Operation) (val : Value)
    (replacements : List (Nat × Value)) : Prop where
  valid : circuit.Valid
  isValue : (circuit.type val).isSome
  taken : (replacements.map Prod.fst).Perm (circuit.owners val)
  given : replacements.map Prod.snd =
    Circuit.results circuit.ops.length operation.resultTypes.length
  reads : operation.operands = [val]
  forks : replacements ≠ [] → operation.kind = .fork

namespace Attaches

variable {circuit : Circuit} {operation : Operation} {val other : Value}
  {replacements : List (Nat × Value)}

section Facts

variable (attaches : Attaches circuit operation val replacements)
include attaches

theorem isNew (mem : other ∈ replacements.map Prod.snd) : ¬ (circuit.type other).isSome := by
  intro isOther
  rw [attaches.given] at mem
  obtain ⟨number, _, rfl⟩ := List.mem_map.mp mem
  exact Nat.lt_irrefl _ (Circuit.lt_of_shape (Circuit.shape_of_type isOther))

theorem operands_new :
    (circuit.attach operation val replacements).operands circuit.ops.length = [val] := by
  rw [Circuit.attach, Circuit.operands_replaceUses_of_notMem, Circuit.operands_insert, if_pos rfl,
    attaches.reads]
  intro mem
  have used := Circuit.mem_owners.mp (attaches.taken.subset mem)
  simp [Circuit.operands] at used

/-- Each operand is the former one, or takes its tokens from it. -/
theorem operands_old {op : Nat} (differs : op ≠ circuit.ops.length) :
    List.Forall₂ (fun after before => (circuit.type before).isSome ∧ (after = before ∨
        before = val ∧ after ∈ replacements.map Prod.snd))
      ((circuit.attach operation val replacements).operands op) (circuit.operands op) := by
  have related := @Circuit.operands_replaceUses (circuit.insert operation) val replacements op
  rw [Circuit.operands_insert, if_neg differs] at related
  exact ((List.forall₂_and_left _ _).mpr ⟨attaches.valid op, related.flip⟩).flip

theorem forwards {Token : Type} (units : Units Token) (mem : other ∈ replacements.map Prod.snd) :
    (circuit.attach operation val replacements).network.Forwards units.toInterpretation
      other val := by
  have isFork := attaches.forks (by rintro rfl; cases mem)
  rw [attaches.given] at mem
  obtain ⟨number, _, rfl⟩ := List.mem_map.mp mem
  refine ⟨attaches.operands_new, fun time tokens => ?_⟩
  have shapeNew : (circuit.attach operation val replacements).shape circuit.ops.length =
      some (.fork, operation.resultTypes) := by
    rw [Circuit.attach, Circuit.shape_replaceUses, ← isFork]
    simp [Circuit.shape, Circuit.insert]
  rw [Circuit.network_kind, shapeNew]
  exact units.fork number time tokens

theorem numUses :
    (circuit.attach operation val replacements).numUses other +
        (if other = val then replacements.length else 0) =
      circuit.numUses other + [val].count other + (replacements.map Prod.snd).count other := by
  rw [← attaches.reads, ← Circuit.numUses_insert]
  refine Circuit.numUses_replaceUses ?_ fun mem => attaches.isNew mem attaches.isValue
  exact attaches.taken.subperm.trans
    ((List.sublist_append_left _ _).subperm.trans Circuit.owners_insert.symm.subperm)

theorem isSome_type : ((circuit.attach operation val replacements).type other).isSome ↔
    (circuit.type other).isSome ∨ other ∈ replacements.map Prod.snd := by
  rw [attaches.given, ← Circuit.isSome_type_insert, Circuit.attach,
    Circuit.type_eq Circuit.arguments_replaceUses fun _ _ _ => Circuit.shape_replaceUses]

end Facts

theorem type_same (isOther : (circuit.type other).isSome) :
    (circuit.attach operation val replacements).type other = circuit.type other := by
  refine Circuit.type_eq Circuit.arguments_replaceUses ?_
  rintro op number rfl
  exact Circuit.shape_replaceUses.trans (Circuit.shape_insert (Circuit.shape_of_type isOther))

theorem relayed {Token : Type} (units : Units Token)
    (attaches : Attaches circuit operation val replacements) :
    circuit.network.Relayed (circuit.attach operation val replacements).network
      units.toInterpretation (fun val => (circuit.type val).isSome) id where
  kind channel isValue := by
    cases channel with
    | argument number => rfl
    | result op number =>
        rw [id, Circuit.network_kind, Circuit.network_kind, Circuit.attach,
          Circuit.shape_replaceUses, Circuit.shape_insert (Circuit.shape_of_type isValue)]
  operands channel isValue := by
    cases channel with
    | argument number => exact .nil
    | result op number =>
        have before := Circuit.lt_of_shape (Circuit.shape_of_type isValue)
        refine (attaches.operands_old (Nat.ne_of_lt before)).imp ?_
        rintro after source ⟨isSource, same | ⟨rfl, mem⟩⟩
        · exact ⟨isSource, .inl same⟩
        · exact ⟨isSource, .inr (attaches.forwards units mem)⟩

theorem extends_attach (attaches : Attaches circuit operation val replacements) :
    Extends circuit (circuit.attach operation val replacements) [val] where
  single other isOther mem _ := by
    have uses := @numUses circuit operation val other replacements attaches
    by_cases same : other = val
    · subst same
      have absent := List.count_eq_zero_of_not_mem fun mem => attaches.isNew mem attaches.isValue
      have length := attaches.taken.length_eq
      rw [if_pos rfl, absent] at uses
      simp [Circuit.numUses] at uses length ⊢
      omega
    · have isNew := mem.resolve_left (mt List.mem_singleton.mp same)
      have mem := (attaches.isSome_type.mp isOther).resolve_left isNew
      have none : circuit.numUses other = 0 := by
        rw [Circuit.numUses, List.length_eq_zero_iff, List.eq_nil_iff_forall_not_mem]
        exact fun op owner => isNew (attaches.valid op other (Circuit.mem_owners.mp owner))
      have once : (replacements.map Prod.snd).count other = 1 := by
        rw [attaches.given] at mem ⊢
        refine List.count_eq_one_of_mem (List.nodup_range.map fun first second same => ?_) mem
        exact (Value.result.inj same).2
      rw [if_neg same, none, once] at uses
      simpa [List.count_singleton, Ne.symm same] using uses
  others other isOther absent := by
    have differs := mt List.mem_singleton.mpr absent
    have uses := @numUses circuit operation val other replacements attaches
    rw [if_neg differs, List.count_eq_zero_of_not_mem fun mem => attaches.isNew mem isOther] at uses
    simpa [List.count_singleton, Ne.symm differs] using uses
  type other := type_same
  shape op isOp := Circuit.shape_replaceUses.trans (Circuit.shape_insert isOp)
  valid op operand mem := by
    rw [attaches.isSome_type]
    by_cases same : op = circuit.ops.length
    · rw [same, attaches.operands_new, List.mem_singleton] at mem
      exact .inl (mem ▸ attaches.isValue)
    · have each := (attaches.operands_old same).imp fun after before related =>
        (⟨related.2.elim (fun same => .inl (same ▸ related.1)) fun replaced => .inr replaced.2,
          related⟩ : ((circuit.type after).isSome ∨ after ∈ replacements.map Prod.snd) ∧ _)
      exact ((List.forall₂_and_left _ _).mp each).1 operand mem
  streams units other := (attaches.relayed units).sameStream
  operands units op isOp := by
    refine (attaches.operands_old (Nat.ne_of_lt (Circuit.lt_of_shape isOp))).imp ?_
    rintro after before ⟨isBefore, rfl | ⟨rfl, mem⟩⟩ position token
    · exact (attaches.relayed units).sameStream isBefore position token
    · exact ((attaches.forwards units mem).sameStream position token).trans
        ((attaches.relayed units).sameStream isBefore position token)

end Attaches

variable {circuit : Circuit} {order : UseOrder} {val : Value}

theorem extends_materializeValue (valid : circuit.Valid) (isValue : (circuit.type val).isSome) :
    Extends circuit (materializeValue order circuit val) [val] := by
  rw [materializeValue]
  split
  · rename_i ineligible
    exact extends_self valid fun other mem eligible =>
      absurd (List.mem_singleton.mp mem ▸ eligible) ineligible
  · split
    · rename_i unused
      exact @Attaches.extends_attach circuit ⟨.sink, [val], []⟩ val []
        ⟨valid, isValue, List.nil_perm.mpr (List.length_eq_zero_iff.mp unused), rfl, rfl,
          fun differs => absurd rfl differs⟩
    · split
      · rename_i once
        exact extends_self valid fun other mem _ => List.mem_singleton.mp mem ▸ once
      · have same : (order.users circuit val).length =
            (Circuit.results circuit.ops.length (circuit.numUses val)).length := by
          simp [Circuit.results, Circuit.numUses, (order.perm circuit val).length_eq]
        refine Attaches.extends_attach ⟨valid, isValue, ?_, ?_, rfl, fun _ => rfl⟩
        · rw [List.map_fst_zip (Nat.le_of_eq same)]
          exact order.perm circuit val
        · rw [List.map_snd_zip (Nat.le_of_eq same.symm), List.length_replicate]

theorem extends_foldl {vals : List Value} (valid : circuit.Valid)
    (areValues : ∀ val ∈ vals, (circuit.type val).isSome) :
    Extends circuit (vals.foldl (materializeValue order) circuit) vals := by
  induction vals generalizing circuit with
  | nil => exact extends_self valid fun _ mem => by cases mem
  | cons val vals inductionHypothesis =>
      rw [List.forall_mem_cons] at areValues
      have first := @extends_materializeValue circuit order val valid areValues.1
      refine first.trans (inductionHypothesis first.valid fun other mem => ?_)
      rw [first.type other (areValues.2 other mem)]
      exact areValues.2 other mem

theorem mem_values : val ∈ circuit.values ↔ (circuit.type val).isSome := by
  cases val with
  | argument number => simp [Circuit.values, Circuit.type]
  | result op number =>
      simp only [Circuit.values, Circuit.type, List.mem_append, List.mem_map, List.mem_flatMap,
        List.mem_range]
      cases found : circuit.ops[op]? <;> grind

theorem forM_ok {check : Value → Except String Unit} {vals : List Value}
    (each : ∀ val ∈ vals, check val = .ok ()) : vals.forM check = .ok () := by
  induction vals with
  | nil => rfl
  | cons val vals inductionHypothesis =>
      rw [List.forall_mem_cons] at each
      change (check val >>= fun _ => vals.forM check) = _
      rw [each.1]
      exact inductionHypothesis each.2

theorem foldl_of_single {vals : List Value}
    (single : ∀ val ∈ vals, circuit.eligibleForMaterialization val = true →
      circuit.numUses val = 1) : vals.foldl (materializeValue order) circuit = circuit := by
  induction vals with
  | nil => rfl
  | cons val vals inductionHypothesis =>
      rw [List.forall_mem_cons] at single
      rw [List.foldl_cons, materializeValue]
      split
      · exact inductionHypothesis single.2
      · rename_i eligible
        rw [single.1 (not_not.mp eligible)]
        exact inductionHypothesis single.2

/-- The first step of the pass leaves every control and channel value with one use, so that the
step has nothing to do any more. All values keep their streams, and each operation stays with
operands that carry the former streams. -/
theorem materialize_correct (order : UseOrder) (circuit : Circuit) (valid : circuit.Valid) :
    (materialize order circuit).verifyIRMaterialized = .ok () ∧
      materialize order (materialize order circuit) = materialize order circuit ∧
      ∀ (Token : Type) (units : Units Token),
        let same := (materialize order circuit).network.SameStream units.toInterpretation
          circuit.network
        (∀ val ∈ circuit.values, same val val) ∧
          ∀ (op : Nat) (operation : Operation), circuit.ops[op]? = some operation →
            ∃ after : Operation, (materialize order circuit).ops[op]? = some after ∧
              after.kind = operation.kind ∧ after.resultTypes = operation.resultTypes ∧
                List.Forall₂ same after.operands operation.operands := by
  have extended : Extends circuit (materialize order circuit) circuit.values :=
    extends_foldl valid fun _ => mem_values.mp
  have once : ∀ val ∈ (materialize order circuit).values,
      (materialize order circuit).eligibleForMaterialization val = true →
        (materialize order circuit).numUses val = 1 := fun val mem =>
    extended.single val (mem_values.mp mem) ((em _).imp_left mem_values.mpr)
  refine ⟨forM_ok fun val mem => ?_, foldl_of_single once, fun Token units =>
    ⟨fun val mem => ?_, fun op operation found => ?_⟩⟩
  · rw [Circuit.checkUses]
    split
    · rfl
    · rename_i eligible
      rw [once val mem (not_not.mp eligible)]
      rfl
  · exact extended.streams units val (mem_values.mp mem)
  · have isOp : (circuit.shape op).isSome := by simp [Circuit.shape, found]
    have shape := extended.shape op isOp
    have operands := extended.operands units op isOp
    rw [Circuit.operands, Circuit.operands, found] at operands
    rw [Circuit.shape, Circuit.shape, found] at shape
    obtain ⟨after, isAfter, shape⟩ := Option.map_eq_some_iff.mp shape
    rw [isAfter] at operands
    obtain ⟨kind, types⟩ := Prod.mk.inj shape
    exact ⟨after, isAfter, kind, types, operands⟩

/-- An argument with three uses, two of them by one operation, and a result without any. -/
def sharing : Circuit where
  arguments := [.channel 8]
  ops :=
    [ ⟨.other 0, [.argument 0, .argument 0], [.channel 8, .control]⟩
    , ⟨.other 1, [.argument 0, .result 0 0], []⟩ ]

theorem materialize_correct_sharing :
    (materialize ⟨Circuit.owners, fun _ _ => .refl _⟩ sharing).verifyIRMaterialized = .ok () := by
  refine (materialize_correct _ sharing ?_).1
  rintro (_ | _ | op)
  · decide
  · decide
  · intro _ mem
    cases mem

end Dynamatic.Materialize
