import Dynamatic.TreeHeight.Building

/-!
# The reduced trees

`AddTreeHeightReduction` does to an adder what it should if the adders below it make up a tree that
nothing else uses, and only then: an adder with another user is erased nevertheless. Where it
succeeds there are fewer adders that it can be applied to.
-/

namespace Dynamatic.TreeHeight

open Dynamatic.Trees

/-! ### Erasing -/

namespace Graph

variable {graph after : Graph} {value : Nat} {erased : List Nat}

theorem eraseOp_eq_some : graph.eraseOp value = some after ↔
    (value ∈ graph.adds.map AddIOp.result ∧ graph.useEmpty value) ∧
      after = { graph with adds := graph.adds.filter (·.result ≠ value) } := by
  rw [eraseOp]
  split
  · rename_i allowed
    rw [Option.some.injEq, eq_comm]
    exact (and_iff_right allowed).symm
  · rename_i forbidden
    exact iff_of_false nofun fun ⟨allowed, _⟩ => forbidden allowed

/-- Adders that have been erased were different, had adders among them as their only users, and
are those that are gone. -/
theorem of_foldlM_eraseOp (erases : erased.foldlM eraseOp graph = some after) :
    erased.Nodup ∧ (∀ value ∈ erased, value ∈ graph.adds.map AddIOp.result) ∧
      (∀ value ∈ erased, ∀ add ∈ graph.adds, add.Uses value → add.result ∈ erased) ∧
      (∀ value ∈ erased, ∀ operands ∈ graph.others, value ∉ operands) ∧
      after = { graph with adds := graph.adds.filter (·.result ∉ erased) } := by
  induction erased generalizing graph with
  | nil =>
      obtain rfl : graph = after := Option.some.inj erases
      simp
  | cons first erased inductionHypothesis =>
      rw [List.foldlM_cons] at erases
      obtain ⟨middle, isMiddle, erases⟩ := Option.bind_eq_some_iff.mp erases
      obtain ⟨⟨isResult, addsUnused, othersUnused⟩, rfl⟩ := eraseOp_eq_some.mp isMiddle
      obtain ⟨distinct, results, users, unused, rfl⟩ := inductionHypothesis erases
      have stays : ∀ add ∈ graph.adds, add.result ≠ first →
          add ∈ graph.adds.filter (·.result ≠ first) :=
        fun add mem apart => List.mem_filter.mpr ⟨mem, decide_eq_true apart⟩
      have left : ∀ value ∈ erased,
          ∃ add ∈ graph.adds, add.result ≠ first ∧ add.result = value := by
        intro value mem
        obtain ⟨add, addMem, rfl⟩ := List.mem_map.mp (results value mem)
        obtain ⟨addMem, apart⟩ := List.mem_filter.mp addMem
        exact ⟨add, addMem, of_decide_eq_true apart, rfl⟩
      refine ⟨List.nodup_cons.mpr ⟨fun mem => ?_, distinct⟩, ?_, ?_, ?_, ?_⟩
      · obtain ⟨add, -, apart, same⟩ := left first mem
        exact apart same
      · refine List.forall_mem_cons.mpr ⟨isResult, fun value mem => ?_⟩
        obtain ⟨add, addMem, -, same⟩ := left value mem
        exact List.mem_map.mpr ⟨add, addMem, same⟩
      · refine List.forall_mem_cons.mpr ⟨fun add mem uses => absurd uses (addsUnused add mem), ?_⟩
        intro value mem add addMem uses
        by_cases isFirst : add.result = first
        · exact List.mem_cons.mpr (.inl isFirst)
        · exact List.mem_cons_of_mem _ (users value mem add (stays add addMem isFirst) uses)
      · exact List.forall_mem_cons.mpr ⟨othersUnused, unused⟩
      · refine congrArg (fun adds => { graph with adds := adds }) ?_
        dsimp only
        rw [List.filter_filter]
        refine List.filter_congr fun add _ => ?_
        by_cases isFirst : add.result = first <;> simp [isFirst]

/-- Adders can be erased one after the other if the users of each come before it. -/
theorem exists_foldlM_eraseOp (distinct : erased.Nodup)
    (results : ∀ value ∈ erased, value ∈ graph.adds.map AddIOp.result)
    (users : ∀ before value behind, erased = before ++ value :: behind →
      ∀ add ∈ graph.adds, add.Uses value → add.result ∈ before)
    (unused : ∀ value ∈ erased, ∀ operands ∈ graph.others, value ∉ operands) :
    ∃ after, erased.foldlM eraseOp graph = some after := by
  induction erased generalizing graph with
  | nil => exact ⟨graph, rfl⟩
  | cons first erased inductionHypothesis =>
      obtain ⟨fresh, distinct⟩ := List.nodup_cons.mp distinct
      obtain ⟨firstResult, results⟩ := List.forall_mem_cons.mp results
      obtain ⟨firstUnused, unused⟩ := List.forall_mem_cons.mp unused
      have addsUnused : ∀ add ∈ graph.adds, ¬ add.Uses first := fun add mem uses =>
        List.not_mem_nil (users [] first erased rfl add mem uses)
      have isMiddle := eraseOp_eq_some.mpr ⟨⟨firstResult, addsUnused, firstUnused⟩, rfl⟩
      rw [List.foldlM_cons, isMiddle]
      refine inductionHypothesis distinct (fun value mem => ?_) ?_ unused
      · obtain ⟨add, addMem, rfl⟩ := List.mem_map.mp (results value mem)
        have apart : add.result ≠ first := fun same => fresh (same ▸ mem)
        exact List.mem_map_of_mem (List.mem_filter.mpr ⟨addMem, decide_eq_true apart⟩)
      · intro before value behind split add addMem uses
        obtain ⟨addMem, apart⟩ := List.mem_filter.mp addMem
        have earlier := users (first :: before) value behind (by rw [split]; rfl) add addMem uses
        exact (List.mem_cons.mp earlier).resolve_left (of_decide_eq_true apart)

end Graph

/-! ### The replaced adder -/

namespace Graph

/-- The adders below an adder are different, and nothing but adders of its tree uses them. -/
structure Owned (graph : Graph) (op : Nat) (tree : LabelledTree Nat) : Prop where
  distinct : tree.inner.Nodup
  adds : ∀ label ∈ tree.inner, label ≠ op → ∀ add ∈ graph.adds, add.Uses label →
    add.result ∈ tree.inner
  others : ∀ label ∈ tree.inner, label ≠ op → ∀ operands ∈ graph.others, label ∉ operands

/-- An adder with its operands behind the replacement. -/
def substAdd (op newTree : Nat) (add : AddIOp) : AddIOp :=
  { add with lhs := subst op newTree add.lhs, rhs := subst op newTree add.rhs }

/-- The graph in which the new tree has taken the place of the adder. -/
def replaced (graph : Graph) (op : Nat) (vals : List Nat) : Graph :=
  let built := build vals graph.next
  { graph with adds := graph.adds ++ built.2.1, next := built.2.2 }.replaceOp op built.1

variable {graph after : Graph} {op fuel : Nat} {tree left right : LabelledTree Nat}

/-- With enough fuel the pattern finds the tree. -/
theorem matchAndRewrite_eq (unfolds : graph.Unfolds op tree) (enough : tree.height < fuel) :
    matchAndRewrite graph fuel op =
      if tree.height = Nat.clog 2 tree.leaves.length then .optimal
      else match (tree.inner.filter (· ≠ op)).reverse.foldlM eraseOp
          (graph.replaced op tree.leaves) with
        | none => .failedErase
        | some after => .rewritten after (build tree.leaves graph.next).1 := by
  rw [matchAndRewrite, unfolds.collect_eq enough, unfolds.computeAddTreeHeight_eq enough]
  rfl

theorem Unfolds.leaves_lt (wellFormed : graph.WellFormed) {value : Nat}
    (unfolds : graph.Unfolds value tree) (bounded : value < graph.next) :
    ∀ leaf ∈ tree.leaves, leaf < graph.next := by
  induction unfolds with
  | leaf => exact fun leaf mem => List.mem_singleton.mp mem ▸ bounded
  | node isAdd _ _ leftLt rightLt =>
      have mem := ((definingAdd_eq_some wellFormed).mp isAdd).1
      intro leaf leafMem
      rcases List.mem_append.mp leafMem with inLeft | inRight
      · exact leftLt (wellFormed.lhs _ mem) leaf inLeft
      · exact rightLt (wellFormed.rhs _ mem) leaf inRight

theorem Unfolds.inner_lt (wellFormed : graph.WellFormed) {value label : Nat}
    (unfolds : graph.Unfolds value tree) (mem : label ∈ tree.inner) : label < graph.next := by
  obtain ⟨add, isAdd⟩ := unfolds.exists_add mem
  obtain ⟨addMem, rfl⟩ := (definingAdd_eq_some wellFormed).mp isAdd
  exact wellFormed.results add addMem

section Replacing

variable (wellFormed : graph.WellFormed) (unfolds : graph.Unfolds op tree)
  (isAdd : op ∈ tree.inner)

include wellFormed unfolds isAdd

theorem builds_leaves : Builds tree.leaves graph.next (build tree.leaves graph.next) :=
  builds_build _ _ (List.ne_nil_of_length_pos tree.length_leaves_pos)
    (unfolds.leaves_lt wellFormed (unfolds.inner_lt wellFormed isAdd))

/-- What a created adder uses is no adder of the tree. -/
theorem created_not_uses {add : AddIOp} (mem : add ∈ (build tree.leaves graph.next).2.1)
    {label : Nat} (labelMem : label ∈ tree.inner) : ¬ add.Uses label := by
  intro uses
  have below := unfolds.inner_lt wellFormed labelMem
  rcases (builds_leaves wellFormed unfolds isAdd).uses add mem label uses with leaf | fresh
  · obtain ⟨_, isAdder⟩ := unfolds.exists_add labelMem
    cases (unfolds.leaf_not_add label leaf).symm.trans isAdder
  · omega

/-- The new value is no adder of the old tree. -/
theorem newTree_ne {label : Nat} (labelMem : label ∈ tree.inner) :
    (build tree.leaves graph.next).1 ≠ label := by
  rintro rfl
  have below := unfolds.inner_lt wellFormed labelMem
  rcases (builds_leaves wellFormed unfolds isAdd).rootMem with leaf | fresh
  · obtain ⟨_, isAdder⟩ := unfolds.exists_add labelMem
    cases (unfolds.leaf_not_add _ leaf).symm.trans isAdder
  · omega

/-- The adders behind the replacement are those of the graph but for the replaced one, and those
that have been created. -/
theorem mem_replaced {add : AddIOp} :
    add ∈ (graph.replaced op tree.leaves).adds ↔
      (∃ old ∈ graph.adds, old.result ≠ op ∧
        add = substAdd op (build tree.leaves graph.next).1 old) ∨
      add ∈ (build tree.leaves graph.next).2.1 := by
  have kept : ∀ created ∈ (build tree.leaves graph.next).2.1, created.result ≠ op ∧
      substAdd op (build tree.leaves graph.next).1 created = created := by
    intro created mem
    have unused := created_not_uses wellFormed unfolds isAdd mem isAdd
    have bounds := (builds_leaves wellFormed unfolds isAdd).result_bounds mem
    have below := unfolds.inner_lt wellFormed isAdd
    refine ⟨by omega, ?_⟩
    rw [substAdd, subst, subst, if_neg fun same => unused (.inl same),
      if_neg fun same => unused (.inr same)]
  rw [replaced, replaceOp]
  dsimp only
  rw [List.mem_map]
  constructor
  · rintro ⟨old, mem, rfl⟩
    obtain ⟨mem, apart⟩ := List.mem_filter.mp mem
    rcases List.mem_append.mp mem with inGraph | created
    · exact .inl ⟨old, inGraph, of_decide_eq_true apart, rfl⟩
    · refine .inr ?_
      change substAdd op (build tree.leaves graph.next).1 old ∈ _
      rw [(kept old created).2]
      exact created
  · rintro (⟨old, mem, apart, rfl⟩ | created)
    · exact ⟨old, List.mem_filter.mpr ⟨List.mem_append_left _ mem, decide_eq_true apart⟩, rfl⟩
    · obtain ⟨apart, same⟩ := kept add created
      exact ⟨add, List.mem_filter.mpr ⟨List.mem_append_right _ created, decide_eq_true apart⟩,
        same⟩

/-- An adder uses another one of the tree behind the replacement if it did before. -/
theorem substAdd_uses {add : AddIOp} {label : Nat} (labelMem : label ∈ tree.inner)
    (apart : label ≠ op) :
    (substAdd op (build tree.leaves graph.next).1 add).Uses label ↔ add.Uses label := by
  have other := newTree_ne wellFormed unfolds isAdd labelMem
  have same : ∀ value, subst op (build tree.leaves graph.next).1 value = label ↔ value = label := by
    intro value
    rw [subst]
    split
    · rename_i isOp
      rw [isOp]
      exact iff_of_false other (Ne.symm apart)
    · rfl
  exact or_congr (same add.lhs) (same add.rhs)

theorem results_replaced :
    (graph.replaced op tree.leaves).adds.map AddIOp.result =
      (graph.adds.map AddIOp.result).filter (· ≠ op) ++
        List.range' graph.next ((build tree.leaves graph.next).2.2 - graph.next) := by
  have builds := builds_leaves wellFormed unfolds isAdd
  have below := unfolds.inner_lt wellFormed isAdd
  have created : (List.range' graph.next
      ((build tree.leaves graph.next).2.2 - graph.next)).filter (· ≠ op) =
        List.range' graph.next ((build tree.leaves graph.next).2.2 - graph.next) := by
    refine List.filter_eq_self.mpr fun value mem => decide_eq_true ?_
    have bounds := List.mem_range'_1.mp mem
    omega
  rw [← created, ← builds.results, ← List.filter_append, ← List.map_append, List.filter_map,
    replaced, replaceOp, List.map_map]
  rfl

theorem wellFormed_replaced : (graph.replaced op tree.leaves).WellFormed := by
  have builds := builds_leaves wellFormed unfolds isAdd
  have nextLe := builds.next_le
  have rootLt := builds.root_lt
  have leavesLt := unfolds.leaves_lt wellFormed (unfolds.inner_lt wellFormed isAdd)
  have substLt : ∀ value < graph.next,
      subst op (build tree.leaves graph.next).1 value < (build tree.leaves graph.next).2.2 := by
    intro value below
    rw [subst]
    split
    · exact rootLt
    · omega
  have bounds : ∀ add ∈ (graph.replaced op tree.leaves).adds,
      add.result < (build tree.leaves graph.next).2.2 ∧
        add.lhs < (build tree.leaves graph.next).2.2 ∧
        add.rhs < (build tree.leaves graph.next).2.2 := by
    intro add mem
    rcases (mem_replaced wellFormed unfolds isAdd).mp mem with ⟨old, oldMem, -, rfl⟩ | created
    · exact ⟨Nat.lt_of_lt_of_le (wellFormed.results old oldMem) nextLe,
        substLt _ (wellFormed.lhs old oldMem), substLt _ (wellFormed.rhs old oldMem)⟩
    · have result := (builds.result_bounds created).2
      exact ⟨result, Nat.lt_trans (builds.used_lt leavesLt created (.inl rfl)) result,
        Nat.lt_trans (builds.used_lt leavesLt created (.inr rfl)) result⟩
  refine ⟨?_, fun add mem => (bounds add mem).1, fun add mem => (bounds add mem).2.1,
    fun add mem => (bounds add mem).2.2, ?_⟩
  · rw [results_replaced wellFormed unfolds isAdd]
    refine List.nodup_append.mpr ⟨wellFormed.distinct.filter _, List.nodup_range', ?_⟩
    intro first firstMem second secondMem
    obtain ⟨add, addMem, rfl⟩ := List.mem_map.mp (List.mem_filter.mp firstMem).1
    have below := wellFormed.results add addMem
    have bounds := List.mem_range'_1.mp secondMem
    omega
  · intro operands mem value valueMem
    obtain ⟨old, oldMem, rfl⟩ := List.mem_map.mp mem
    obtain ⟨value, oldValue, rfl⟩ := List.mem_map.mp valueMem
    exact substLt value (wellFormed.operands old oldMem value oldValue)

end Replacing

/-! ### When the adders can be erased -/

section Erasing

variable (wellFormed : graph.WellFormed) (unfolds : graph.Unfolds op tree)
  (isAdd : op ∈ tree.inner)

/-- The adders that are erased are those of the tree but for the replaced one. -/
theorem mem_erased {label : Nat} :
    label ∈ (tree.inner.filter (· ≠ op)).reverse ↔ label ∈ tree.inner ∧ label ≠ op := by
  rw [List.mem_reverse, List.mem_filter, decide_eq_true_iff]

include unfolds in
/-- The replaced adder is in the tree once. -/
theorem nodup_inner (distinct : (tree.inner.filter (· ≠ op)).Nodup) : tree.inner.Nodup := by
  cases unfolds with
  | leaf => exact List.nodup_nil
  | node isAdd unfoldsLeft unfoldsRight =>
      obtain ⟨notLeft, notRight⟩ := Unfolds.not_mem_below (.node isAdd unfoldsLeft unfoldsRight)
      have below : ∀ label ∈ (_ ++ _ : List Nat), decide (label ≠ op) = true :=
        fun label mem => decide_eq_true fun same => (List.mem_append.mp (same ▸ mem)).elim
          notLeft notRight
      rw [LabelledTree.inner, List.filter_append, List.filter_eq_self.mpr below] at distinct
      refine List.nodup_append.mpr ⟨(List.nodup_append.mp distinct).1, List.nodup_singleton op, ?_⟩
      intro first firstMem second secondMem same
      rw [same, List.mem_singleton.mp secondMem] at firstMem
      exact (List.mem_append.mp firstMem).elim notLeft notRight

include wellFormed unfolds isAdd

/-- If the adders can be erased then nothing else uses them. -/
theorem owned_of_erases (erases : (tree.inner.filter (· ≠ op)).reverse.foldlM eraseOp
    (graph.replaced op tree.leaves) = some after) : graph.Owned op tree := by
  obtain ⟨distinct, -, users, unused, -⟩ := of_foldlM_eraseOp erases
  refine ⟨nodup_inner unfolds (List.nodup_reverse.mp distinct), ?_, ?_⟩
  · intro label labelMem apart add addMem uses
    by_cases isOp : add.result = op
    · exact isOp ▸ isAdd
    · have substMem := (mem_replaced wellFormed unfolds isAdd).mpr (.inl ⟨add, addMem, isOp, rfl⟩)
      have substUses := (substAdd_uses wellFormed unfolds isAdd labelMem apart).mpr uses
      exact (mem_erased.mp (users label (mem_erased.mpr ⟨labelMem, apart⟩) _ substMem substUses)).1
  · intro label labelMem apart operands operandsMem used
    refine unused label (mem_erased.mpr ⟨labelMem, apart⟩) _ (List.mem_map_of_mem operandsMem) ?_
    refine List.mem_map.mpr ⟨label, used, ?_⟩
    rw [subst, if_neg apart]

/-- If nothing else uses the adders then they can be erased. -/
theorem erases_of_owned (owned : graph.Owned op tree) :
    ∃ after, (tree.inner.filter (· ≠ op)).reverse.foldlM eraseOp
      (graph.replaced op tree.leaves) = some after := by
  refine exists_foldlM_eraseOp (List.nodup_reverse.mpr (owned.distinct.filter _)) ?_ ?_ ?_
  · intro label mem
    obtain ⟨labelMem, apart⟩ := mem_erased.mp mem
    obtain ⟨add, isLabel⟩ := unfolds.exists_add labelMem
    obtain ⟨addMem, rfl⟩ := (definingAdd_eq_some wellFormed).mp isLabel
    exact List.mem_map.mpr
      ⟨_, (mem_replaced wellFormed unfolds isAdd).mpr (.inl ⟨add, addMem, apart, rfl⟩), rfl⟩
  · intro before label behind split add addMem uses
    have labelErased : label ∈ (tree.inner.filter (· ≠ op)).reverse := by
      rw [split]
      exact List.mem_append_right _ List.mem_cons_self
    obtain ⟨labelMem, apart⟩ := mem_erased.mp labelErased
    rcases (mem_replaced wellFormed unfolds isAdd).mp addMem with ⟨old, oldMem, oldApart, rfl⟩ | new
    · have oldUses := (substAdd_uses wellFormed unfolds isAdd labelMem apart).mp uses
      have oldInner := owned.adds label labelMem apart old oldMem oldUses
      have isOld := (definingAdd_eq_some wellFormed).mpr ⟨oldMem, rfl⟩
      have erased : old.result ∈ (tree.inner.filter (· ≠ op)).reverse :=
        mem_erased.mpr ⟨oldInner, oldApart⟩
      -- in the order of the recursion no adder uses one that comes later
      have ordered := ((unfolds.pairwise_not_uses owned.distinct).filter (· ≠ op))
      rw [← List.pairwise_reverse, split] at ordered
      rw [split] at erased
      rcases List.mem_append.mp erased with earlier | later
      · exact earlier
      · rcases List.mem_cons.mp later with same | behindMem
        · exact absurd oldUses (unfolds.not_uses_self labelMem (same ▸ isOld))
        · have unusedBehind := (List.pairwise_cons.mp (List.pairwise_append.mp ordered).2.1).1
          exact absurd oldUses (unusedBehind old.result behindMem old isOld)
    · exact absurd uses (created_not_uses wellFormed unfolds isAdd new labelMem)
  · intro label mem operands operandsMem used
    obtain ⟨labelMem, apart⟩ := mem_erased.mp mem
    obtain ⟨old, oldMem, rfl⟩ := List.mem_map.mp operandsMem
    obtain ⟨value, valueMem, same⟩ := List.mem_map.mp used
    rw [subst] at same
    split at same
    · exact newTree_ne wellFormed unfolds isAdd labelMem same
    · exact owned.others label labelMem apart old oldMem (same ▸ valueMem)

end Erasing

/-! ### The rewritten graph -/

/-- What the pattern should do to an adder with a tree. -/
structure Rewrites (graph : Graph) (op : Nat) (tree : LabelledTree Nat) (after : Graph)
    (newTree : Nat) : Prop where
  wellFormed : after.WellFormed
  /-- The new value is the sum that the adder had, and every other operation, adders that stay
  included, sees the values it saw. -/
  values : ∀ {width : Nat} (value : Nat → BitVec width), Adds graph.adds value →
    ∃ value' : Nat → BitVec width, (∀ index < graph.next, value' index = value index) ∧
      Adds after.adds value' ∧ value' newTree = value op ∧
      after.others.map (·.map value') = graph.others.map (·.map value) ∧
      ∀ add ∈ graph.adds, add.result ∉ tree.inner → ∃ stays ∈ after.adds,
        stays.result = add.result ∧ value' stays.lhs = value add.lhs ∧
          value' stays.rhs = value add.rhs
  /-- The new tree has the same leaves and is no higher than they require. -/
  height : ∃ balanced, after.Unfolds newTree balanced ∧ balanced.leaves = tree.leaves ∧
    balanced.height = Nat.clog 2 tree.leaves.length
  /-- Only adders of the tree are gone, and they have no user left. -/
  erased : ∀ label ∈ graph.adds.map AddIOp.result,
    (label ∉ after.adds.map AddIOp.result ↔ label ∈ tree.inner)
  unused : ∀ label ∈ tree.inner, after.useEmpty label

/-- The value of a tree is the sum of its leaves. -/
theorem Unfolds.sum_leaves (unfolds : graph.Unfolds op tree) (wellFormed : graph.WellFormed)
    {width : Nat} {value : Nat → BitVec width} (isSum : Adds graph.adds value) :
    value op = (tree.leaves.map value).sum := by
  induction unfolds with
  | leaf => simp [LabelledTree.leaves]
  | node isAdd _ _ leftSum rightSum =>
      obtain ⟨mem, rfl⟩ := (definingAdd_eq_some wellFormed).mp isAdd
      rw [isSum _ mem, leftSum, rightSum, LabelledTree.leaves, List.map_append, List.sum_append]

section Rewriting

variable (wellFormed : graph.WellFormed) (unfolds : graph.Unfolds op tree)
  (isAdd : op ∈ tree.inner)
  (erases : (tree.inner.filter (· ≠ op)).reverse.foldlM eraseOp
    (graph.replaced op tree.leaves) = some after)

include wellFormed unfolds isAdd erases

theorem mem_after {add : AddIOp} :
    add ∈ after.adds ↔
      (∃ old ∈ graph.adds, old.result ∉ tree.inner ∧
        add = substAdd op (build tree.leaves graph.next).1 old) ∨
      add ∈ (build tree.leaves graph.next).2.1 := by
  obtain ⟨-, -, -, -, rfl⟩ := of_foldlM_eraseOp erases
  rw [List.mem_filter, mem_replaced wellFormed unfolds isAdd, decide_eq_true_iff, mem_erased]
  constructor
  · rintro ⟨⟨old, oldMem, apart, rfl⟩ | created, notErased⟩
    · exact .inl ⟨old, oldMem, fun inside => notErased ⟨inside, apart⟩, rfl⟩
    · exact .inr created
  · rintro (⟨old, oldMem, outside, rfl⟩ | created)
    · refine ⟨.inl ⟨old, oldMem, fun same => outside (same ▸ isAdd), rfl⟩, ?_⟩
      exact fun inside => outside inside.1
    · refine ⟨.inr created, fun inside => ?_⟩
      have bounds := (builds_leaves wellFormed unfolds isAdd).result_bounds created
      have below := unfolds.inner_lt wellFormed inside.1
      omega

omit wellFormed unfolds isAdd in
theorem others_after : after.others =
    graph.others.map (·.map (subst op (build tree.leaves graph.next).1)) := by
  obtain ⟨-, -, -, -, rfl⟩ := of_foldlM_eraseOp erases
  rfl

theorem wellFormed_after : after.WellFormed := by
  have whole := wellFormed_replaced wellFormed unfolds isAdd
  obtain ⟨-, -, -, -, rfl⟩ := of_foldlM_eraseOp erases
  have inside : ∀ {add : AddIOp}, add ∈ (graph.replaced op tree.leaves).adds.filter
      (·.result ∉ (tree.inner.filter (· ≠ op)).reverse) →
        add ∈ (graph.replaced op tree.leaves).adds :=
    fun mem => (List.mem_filter.mp mem).1
  exact ⟨whole.distinct.sublist (List.filter_sublist.map _),
    fun add mem => whole.results add (inside mem), fun add mem => whole.lhs add (inside mem),
    fun add mem => whole.rhs add (inside mem), whole.operands⟩

/-- Every adder that is created has a tree of least height. -/
theorem unfolds_after :
    (∃ balanced, after.Unfolds (build tree.leaves graph.next).1 balanced ∧
      balanced.leaves = tree.leaves ∧ balanced.height = Nat.clog 2 tree.leaves.length) ∧
    ∀ add ∈ (build tree.leaves graph.next).2.1, ∃ balanced, after.Unfolds add.result balanced ∧
      balanced.height = Nat.clog 2 balanced.leaves.length := by
  have afterFormed := wellFormed_after wellFormed unfolds isAdd erases
  refine unfolds_build _ _ (List.ne_nil_of_length_pos tree.length_leaves_pos) after ?_ ?_
  · intro add created
    exact (definingAdd_eq_some afterFormed).mpr
      ⟨(mem_after wellFormed unfolds isAdd erases).mpr (.inr created), rfl⟩
  · intro leaf leafMem
    rw [definingAdd_eq_none, List.mem_map]
    rintro ⟨add, addMem, rfl⟩
    rcases (mem_after wellFormed unfolds isAdd erases).mp addMem with ⟨old, oldMem, -, rfl⟩ | new
    · have isLeaf := (definingAdd_eq_none.mp (unfolds.leaf_not_add _ leafMem))
      exact isLeaf (List.mem_map.mpr ⟨old, oldMem, rfl⟩)
    · have bounds := (builds_leaves wellFormed unfolds isAdd).result_bounds new
      have below := unfolds.leaves_lt wellFormed (unfolds.inner_lt wellFormed isAdd) _ leafMem
      omega

/-- The values that the graph had can be kept. -/
theorem values_after {width : Nat} (value : Nat → BitVec width) (isSum : Adds graph.adds value) :
    ∃ value' : Nat → BitVec width, (∀ index < graph.next, value' index = value index) ∧
      Adds after.adds value' ∧ value' (build tree.leaves graph.next).1 = value op ∧
      after.others.map (·.map value') = graph.others.map (·.map value) ∧
      ∀ add ∈ graph.adds, add.result ∉ tree.inner → ∃ stays ∈ after.adds,
        stays.result = add.result ∧ value' stays.lhs = value add.lhs ∧
          value' stays.rhs = value add.rhs := by
  obtain ⟨value', same, created, sum⟩ := exists_sum_build tree.leaves graph.next
    (List.ne_nil_of_length_pos tree.length_leaves_pos)
    (unfolds.leaves_lt wellFormed (unfolds.inner_lt wellFormed isAdd)) value
  rw [← unfolds.sum_leaves wellFormed isSum] at sum
  have seen : ∀ index < graph.next,
      value' (subst op (build tree.leaves graph.next).1 index) = value index := by
    intro index below
    rw [subst]
    split
    · rename_i isOp
      rw [sum, isOp]
    · exact same index below
  refine ⟨value', same, ?_, sum, ?_, ?_⟩
  · intro add mem
    rcases (mem_after wellFormed unfolds isAdd erases).mp mem with ⟨old, oldMem, -, rfl⟩ | new
    · rw [substAdd]
      dsimp only
      rw [same _ (wellFormed.results old oldMem), seen _ (wellFormed.lhs old oldMem),
        seen _ (wellFormed.rhs old oldMem)]
      exact isSum old oldMem
    · exact created add new
  · rw [others_after erases, List.map_map]
    refine List.map_congr_left fun operands mem => ?_
    rw [Function.comp_apply, List.map_map]
    exact List.map_congr_left fun index indexMem =>
      seen index (wellFormed.operands operands mem index indexMem)
  · intro add mem outside
    exact ⟨_, (mem_after wellFormed unfolds isAdd erases).mpr (.inl ⟨add, mem, outside, rfl⟩), rfl,
      seen _ (wellFormed.lhs add mem), seen _ (wellFormed.rhs add mem)⟩

theorem erased_after {label : Nat} (isResult : label ∈ graph.adds.map AddIOp.result) :
    label ∉ after.adds.map AddIOp.result ↔ label ∈ tree.inner := by
  constructor
  · intro gone
    by_contra outside
    obtain ⟨add, addMem, rfl⟩ := List.mem_map.mp isResult
    exact gone (List.mem_map.mpr ⟨_, (mem_after wellFormed unfolds isAdd erases).mpr
      (.inl ⟨add, addMem, outside, rfl⟩), rfl⟩)
  · intro inside gone
    obtain ⟨add, addMem, rfl⟩ := List.mem_map.mp gone
    rcases (mem_after wellFormed unfolds isAdd erases).mp addMem with ⟨old, -, outside, rfl⟩ | new
    · exact outside inside
    · have bounds := (builds_leaves wellFormed unfolds isAdd).result_bounds new
      have below := unfolds.inner_lt wellFormed inside
      omega

theorem unused_after {label : Nat} (labelMem : label ∈ tree.inner) : after.useEmpty label := by
  have owned := owned_of_erases wellFormed unfolds isAdd erases
  have other := newTree_ne wellFormed unfolds isAdd labelMem
  have kept : ∀ value, subst op (build tree.leaves graph.next).1 value = label →
      value = label ∧ label ≠ op := by
    intro value same
    rw [subst] at same
    split at same
    · exact absurd same other
    · rename_i apart
      exact ⟨same, same ▸ apart⟩
  constructor
  · intro add mem uses
    rcases (mem_after wellFormed unfolds isAdd erases).mp mem with ⟨old, oldMem, outside, rfl⟩ | new
    · have oldUses : old.Uses label ∧ label ≠ op := by
        rcases uses with same | same
        · exact ⟨.inl (kept _ same).1, (kept _ same).2⟩
        · exact ⟨.inr (kept _ same).1, (kept _ same).2⟩
      exact outside (owned.adds label labelMem oldUses.2 old oldMem oldUses.1)
    · exact created_not_uses wellFormed unfolds isAdd new labelMem uses
  · intro operands mem used
    rw [others_after erases] at mem
    obtain ⟨old, oldMem, rfl⟩ := List.mem_map.mp mem
    obtain ⟨value, valueMem, same⟩ := List.mem_map.mp used
    obtain ⟨rfl, apart⟩ := kept value same
    exact owned.others value labelMem apart old oldMem valueMem

theorem rewrites_after :
    graph.Rewrites op tree after (build tree.leaves graph.next).1 where
  wellFormed := wellFormed_after wellFormed unfolds isAdd erases
  values := fun value isSum => values_after wellFormed unfolds isAdd erases value isSum
  height := (unfolds_after wellFormed unfolds isAdd erases).1
  erased := fun _ isResult => erased_after wellFormed unfolds isAdd erases isResult
  unused := fun _ labelMem => unused_after wellFormed unfolds isAdd erases labelMem

end Rewriting

end Graph

end Dynamatic.TreeHeight
