import Mathlib.Data.Fintype.Card

/-!
# Depth-first preorder

`preorder` lists a node before what it leads to: its successors in turn, each with all that
is not listed by then. The nodes come in the order of their first paths, where paths are
compared at the successors at which they part.
-/

namespace Dynamatic.ControlFlow

variable {Node : Type}

/-- A path from one node to another around some nodes. -/
inductive Reach (successors : Node → List Node) (avoid : Node → Prop) : Node → Node → Prop where
  | here {node : Node} (free : ¬ avoid node) : Reach successors avoid node node
  | step {node next last : Node} (free : ¬ avoid node) (edge : next ∈ successors node)
      (rest : Reach successors avoid next last) : Reach successors avoid node last

/-- A path that passes no node twice, and its nodes. -/
inductive SimplePath (successors : Node → List Node) :
    (Node → Prop) → Node → Node → List Node → Prop where
  | here {avoid : Node → Prop} {node : Node} (free : ¬ avoid node) :
      SimplePath successors avoid node node [node]
  | step {avoid : Node → Prop} {node next last : Node} {path : List Node} (free : ¬ avoid node)
      (edge : next ∈ successors node)
      (rest : SimplePath successors (fun other => avoid other ∨ other = node) next last path) :
      SimplePath successors avoid node last (node :: path)

section Reaching

variable {successors : Node → List Node} {avoid members : Node → Prop} {node other last : Node}

theorem Reach.mono {less : Node → Prop} (reach : Reach successors avoid node last)
    (fewer : ∀ node, less node → avoid node) : Reach successors less node last := by
  induction reach with
  | here free => exact .here (mt (fewer _) free)
  | step free edge _ inductionHypothesis => exact .step (mt (fewer _) free) edge inductionHypothesis

theorem Reach.free_first (reach : Reach successors avoid node last) : ¬ avoid node := by
  cases reach <;> assumption

theorem Reach.free_last (reach : Reach successors avoid node last) : ¬ avoid last := by
  induction reach with
  | here free => exact free
  | step _ _ _ inductionHypothesis => exact inductionHypothesis

theorem Reach.trans (reach : Reach successors avoid node other)
    (further : Reach successors avoid other last) : Reach successors avoid node last := by
  induction reach with
  | here => exact further
  | step free edge _ inductionHypothesis => exact .step free edge (inductionHypothesis further)

/-- A path leads around the members of a set, or through one of them. -/
theorem Reach.around_or_through (reach : Reach successors avoid node last)
    (members : Node → Prop) :
    Reach successors (fun node => avoid node ∨ members node) node last ∨
      ∃ member, members member ∧ Reach successors avoid node member ∧
        Reach successors avoid member last := by
  induction reach with
  | @here node free =>
      by_cases mem : members node
      · exact .inr ⟨node, mem, .here free, .here free⟩
      · exact .inl (.here (not_or.mpr ⟨free, mem⟩))
  | @step node next last free edge rest inductionHypothesis =>
      by_cases mem : members node
      · exact .inr ⟨node, mem, .here free, .step free edge rest⟩
      · rcases inductionHypothesis with around | ⟨member, isMember, before, after⟩
        · exact .inl (.step (not_or.mpr ⟨free, mem⟩) edge around)
        · exact .inr ⟨member, isMember, .step free edge before, after⟩

end Reaching

section SimplePaths

variable {successors : Node → List Node} {avoid : Node → Prop} {node other last : Node}
  {path : List Node}

theorem SimplePath.free (simple : SimplePath successors avoid node last path) :
    ∀ passed ∈ path, ¬ avoid passed := by
  induction simple with
  | here free => simpa using free
  | step free _ _ inductionHypothesis =>
      intro passed mem
      rcases List.mem_cons.mp mem with rfl | later
      · exact free
      · exact fun avoided => inductionHypothesis passed later (.inl avoided)

/-- Only the nodes on the path matter for what it leads around. -/
theorem SimplePath.of_free {others : Node → Prop}
    (simple : SimplePath successors avoid node last path) (free : ∀ passed ∈ path, ¬ others passed) :
    SimplePath successors others node last path := by
  induction simple generalizing others with
  | here => exact .here (free _ (.head _))
  | step _ edge rest inductionHypothesis =>
      refine .step (free _ (.head _)) edge (inductionHypothesis fun passed mem => ?_)
      exact not_or.mpr ⟨free passed (.tail _ mem), fun same => rest.free passed mem (.inr same)⟩

theorem SimplePath.reach (simple : SimplePath successors avoid node last path) :
    Reach successors avoid node last := by
  induction simple with
  | here free => exact .here free
  | step free edge _ inductionHypothesis =>
      exact .step free edge (inductionHypothesis.mono fun _ => .inl)

theorem SimplePath.reach_of_mem (simple : SimplePath successors avoid node last path)
    (mem : other ∈ path) : ∃ rest, SimplePath successors avoid other last rest := by
  induction simple with
  | here free =>
      rw [List.mem_singleton.mp mem]
      exact ⟨_, .here free⟩
  | @step avoid node _ _ _ free edge rest inductionHypothesis =>
      rcases List.mem_cons.mp mem with rfl | later
      · exact ⟨_, .step free edge rest⟩
      · obtain ⟨remaining, simple⟩ := inductionHypothesis later
        exact ⟨remaining, simple.of_free fun passed isPassed avoided =>
          simple.free passed isPassed (.inl avoided)⟩

/-- What can be reached can be reached without passing a node twice. -/
theorem Reach.exists_simplePath (reach : Reach successors avoid node last) :
    ∃ path, SimplePath successors avoid node last path := by
  induction reach with
  | here free => exact ⟨_, .here free⟩
  | @step node next last free edge rest inductionHypothesis =>
      obtain ⟨path, simple⟩ := inductionHypothesis
      by_cases mem : node ∈ path
      · exact simple.reach_of_mem mem
      · refine ⟨node :: path, .step free edge (simple.of_free fun passed isPassed => ?_)⟩
        exact not_or.mpr ⟨simple.free passed isPassed, fun same => mem (same ▸ isPassed)⟩

theorem SimplePath.exists_rest (simple : SimplePath successors avoid node last path) :
    ∃ rest, path = node :: rest := by
  cases simple with
  | here => exact ⟨[], rfl⟩
  | step => exact ⟨_, rfl⟩

/-- A path to another node goes on from a successor around the node. -/
theorem SimplePath.exists_next (simple : SimplePath successors avoid node last path)
    (differs : last ≠ node) :
    ∃ next ∈ successors node, ∃ rest, path = node :: next :: rest ∧
      SimplePath successors (fun other => avoid other ∨ other = node) next last (next :: rest) := by
  cases simple with
  | here => exact absurd rfl differs
  | step _ edge further =>
      obtain ⟨rest, rfl⟩ := further.exists_rest
      exact ⟨_, edge, rest, rfl, further⟩

end SimplePaths

/-! ### The order of paths -/

variable [DecidableEq Node]

/-- One path ends where the other goes on, or takes an earlier successor where they part. -/
def PathLt (successors : Node → List Node) : List Node → List Node → Prop
  | [node], other :: _ :: _ => node = other
  | node :: next :: path, other :: otherNext :: otherPath =>
      node = other ∧
        if next = otherNext then PathLt successors (next :: path) (otherNext :: otherPath)
        else (successors node).idxOf next < (successors node).idxOf otherNext
  | _, _ => False

/-- Some path to the first node comes before all paths to the second. -/
def Ahead (successors : Node → List Node) (avoid : Node → Prop) (start first second : Node) :
    Prop :=
  ∃ path, SimplePath successors avoid start first path ∧
    ∀ other, SimplePath successors avoid start second other → PathLt successors path other

section PathOrder

variable {successors : Node → List Node} {avoid : Node → Prop} {start first second : Node}

theorem PathLt.asymm {path other : List Node} (less : PathLt successors path other) :
    ¬ PathLt successors other path := by
  induction path generalizing other with
  | nil => simp [PathLt] at less
  | cons node path inductionHypothesis =>
      intro greater
      match path, other with
      | [], [] => simp [PathLt] at less
      | [], [_] => simp [PathLt] at less
      | [], _ :: _ :: _ => simp [PathLt] at greater
      | _ :: _, [] => simp [PathLt] at less
      | _ :: _, [_] => simp [PathLt] at less
      | next :: path, other :: otherNext :: otherPath =>
          rw [PathLt] at less greater
          obtain ⟨rfl, less⟩ := less
          by_cases same : next = otherNext
          · rw [if_pos same] at less
            rw [if_pos same.symm] at greater
            exact inductionHypothesis less greater.2
          · rw [if_neg same] at less
            rw [if_neg (Ne.symm same)] at greater
            exact Nat.lt_asymm less greater.2

theorem Ahead.asymm (ahead : Ahead successors avoid start first second) :
    ¬ Ahead successors avoid start second first := by
  rintro ⟨other, isOther, behind⟩
  obtain ⟨path, isPath, before⟩ := ahead
  exact (before other isOther).asymm (behind path isPath)

/-- The start comes ahead of all other nodes. -/
theorem Ahead.of_start (fresh : ¬ avoid start) (differs : second ≠ start) :
    Ahead successors avoid start start second := by
  refine ⟨[start], .here fresh, fun other isOther => ?_⟩
  obtain ⟨next, _, rest, rfl, _⟩ := isOther.exists_next differs
  rfl

end PathOrder

/-! ### The traversal -/

/-- The nodes listed so far, followed by the node and what it leads to. -/
def preorder (successors : Node → List Node) : Nat → List Node → Node → List Node
  | 0, order, _ => order
  | fuel + 1, order, node =>
      if node ∈ order then order
      else (successors node).foldl (preorder successors fuel) (order ++ [node])

/-- A traversal from a node lists behind the others what the node reaches around them, in the
order of first paths. -/
def Lists (successors : Node → List Node) (order : List Node) (start : Node) (listed : List Node) :
    Prop :=
  ∃ added, listed = order ++ added ∧
    (∀ node, node ∈ added ↔ Reach successors (· ∈ order) start node) ∧
    added.Pairwise (Ahead successors (· ∈ order) start)

section Traversal

variable {successors : Node → List Node} {order : List Node} {start : Node}

theorem Lists.of_mem (mem : start ∈ order) : Lists successors order start order := by
  refine ⟨[], (List.append_nil order).symm, fun node => ?_, List.Pairwise.nil⟩
  exact ⟨fun isListed => absurd isListed List.not_mem_nil, fun reach => absurd mem reach.free_first⟩

/-- Successors that were gone on to lead to all that was added. -/
def AddedBy (successors : Node → List Node) (order : List Node) (start : Node)
    (nodes added : List Node) : Prop :=
  (∀ node, node ∈ added ↔ ∃ next ∈ nodes, Reach successors (· ∈ order ++ [start]) next node) ∧
    added.Pairwise (Ahead successors (· ∈ order) start)

omit [DecidableEq Node] in
private theorem avoids_start_iff {first last : Node} {path : List Node} :
    SimplePath successors (fun other => other ∈ order ∨ other = start) first last path ↔
      SimplePath successors (· ∈ order ++ [start]) first last path := by
  simp only [List.mem_append, List.mem_singleton]

variable {before after added more : List Node} {next first second last : Node}

/-- What an added node leads to has been added. -/
theorem AddedBy.closed (addedBy : AddedBy successors order start before added) (mem : next ∈ added)
    (further : Reach successors (· ∈ order ++ [start]) next last) : last ∈ added := by
  obtain ⟨earlier, isEarlier, reach⟩ := (addedBy.1 next).mp mem
  exact (addedBy.1 last).mpr ⟨earlier, isEarlier, reach.trans further⟩

/-- A path to a node that was not added starts with a successor that was not gone on to. -/
theorem AddedBy.exists_other (addedBy : AddedBy successors order start before added)
    (outside : last ∉ added) (differs : last ≠ start) {path : List Node}
    (simple : SimplePath successors (· ∈ order) start last path) :
    ∃ other rest, path = start :: other :: rest ∧ other ∉ before ∧ other ∈ successors start ∧
      SimplePath successors (· ∈ order ++ [start]) other last (other :: rest) := by
  obtain ⟨other, edge, rest, isPath, simple⟩ := simple.exists_next differs
  rw [avoids_start_iff] at simple
  refine ⟨other, rest, isPath, fun isBefore => outside ?_, edge, simple⟩
  exact (addedBy.1 last).mpr ⟨other, isBefore, simple.reach⟩

/-- A node comes ahead when all paths to the second node start with a later successor, or with the
same one and are behind from there on. -/
theorem Ahead.of_next {path : List Node} (fresh : start ∉ order) (isNext : next ∈ successors start)
    (simple : SimplePath successors (· ∈ order ++ [start]) next first path)
    (behind : ∀ other, SimplePath successors (· ∈ order) start second other →
      ∃ otherNext rest, other = start :: otherNext :: rest ∧
        if otherNext = next then PathLt successors path (otherNext :: rest)
        else (successors start).idxOf next < (successors start).idxOf otherNext) :
    Ahead successors (· ∈ order) start first second := by
  refine ⟨start :: path, .step fresh isNext (avoids_start_iff.mpr simple), fun other isOther => ?_⟩
  obtain ⟨otherNext, rest, rfl, further⟩ := behind other isOther
  obtain ⟨tail, rfl⟩ := simple.exists_rest
  refine ⟨rfl, ?_⟩
  by_cases same : next = otherNext
  · rw [if_pos same]
    rwa [if_pos same.symm] at further
  · rw [if_neg same]
    rwa [if_neg (Ne.symm same)] at further

/-- One more successor is gone on to. -/
theorem AddedBy.goOn (isSuccessors : successors start = before ++ next :: after)
    (fresh : start ∉ order) (addedBy : AddedBy successors order start before added)
    (isAdded : ∀ node, node ∈ more ↔ Reach successors (· ∈ order ++ [start] ++ added) next node)
    (inOrder : more.Pairwise (Ahead successors (· ∈ order ++ [start] ++ added) next)) :
    AddedBy successors order start (before ++ [next]) (added ++ more) := by
  have aside : ∀ {node}, node ∈ more → node ∉ added := fun mem isOld =>
    ((isAdded _).mp mem).free_last (List.mem_append_right _ isOld)
  have notStart : ∀ {node}, node ∈ more → node ≠ start := by
    rintro node mem rfl
    exact ((isAdded _).mp mem).free_last (by simp)
  have isNext : next ∈ successors start := by
    rw [isSuccessors]
    simp
  constructor
  · intro node
    rw [List.mem_append, addedBy.1]
    constructor
    · rintro (⟨earlier, isEarlier, reach⟩ | isNew)
      · exact ⟨earlier, List.mem_append_left _ isEarlier, reach⟩
      · exact ⟨next, by simp, ((isAdded node).mp isNew).mono fun _ => List.mem_append_left _⟩
    · rintro ⟨other, isOther, reach⟩
      rcases List.mem_append.mp isOther with isEarlier | isLast
      · exact .inl ⟨other, isEarlier, reach⟩
      · rw [List.mem_singleton.mp isLast] at reach
        rcases reach.around_or_through (· ∈ added) with around | ⟨member, isMember, _, further⟩
        · exact .inr ((isAdded node).mpr (around.mono fun _ => List.mem_append.mp))
        · exact .inl ((addedBy.1 node).mp (addedBy.closed isMember further))
  · rw [List.pairwise_append]
    refine ⟨addedBy.2, inOrder.imp_of_mem ?_, fun first isOld second isNew => ?_⟩
    · rintro first second isFirst isSecond ⟨path, simple, before⟩
      have freshNext : next ∉ order ++ [start] ++ added := simple.reach.free_first
      have around : SimplePath successors (· ∈ order ++ [start]) next first path :=
        simple.of_free fun passed mem avoided =>
          simple.free passed mem (List.mem_append_left _ avoided)
      refine Ahead.of_next fresh isNext around fun other isOther => ?_
      obtain ⟨otherNext, rest, isPath, notBefore, edge, further⟩ :=
        addedBy.exists_other (aside isSecond) (notStart isSecond) isOther
      refine ⟨otherNext, rest, isPath, ?_⟩
      split
      · rename_i same
        subst same
        refine before _ (further.of_free fun passed mem avoided => ?_)
        rcases List.mem_append.mp avoided with avoided | isOld
        · exact further.free passed mem avoided
        · obtain ⟨_, remaining⟩ := further.reach_of_mem mem
          exact aside isSecond (addedBy.closed isOld remaining.reach)
      · rename_i differs
        have notEarlier : next ∉ _ := fun isEarlier =>
          freshNext (List.mem_append_right _ ((addedBy.1 next).mpr
            ⟨next, isEarlier, .here fun avoided => freshNext (List.mem_append_left _ avoided)⟩))
        rw [isSuccessors, List.idxOf_append_of_notMem notEarlier,
          List.idxOf_append_of_notMem notBefore, List.idxOf_cons_self,
          List.idxOf_cons_ne _ (Ne.symm differs)]
        omega
    · obtain ⟨earlier, isEarlier, reach⟩ := (addedBy.1 first).mp isOld
      obtain ⟨path, simple⟩ := reach.exists_simplePath
      have edge : earlier ∈ successors start := by
        rw [isSuccessors]
        exact List.mem_append_left _ isEarlier
      refine Ahead.of_next fresh edge simple fun other isOther => ?_
      obtain ⟨otherNext, rest, isPath, notBefore, _, _⟩ :=
        addedBy.exists_other (aside isNew) (notStart isNew) isOther
      refine ⟨otherNext, rest, isPath, ?_⟩
      have differs : otherNext ≠ earlier := fun same => notBefore (same ▸ isEarlier)
      rw [if_neg differs, isSuccessors,
        List.idxOf_append_of_mem isEarlier, List.idxOf_append_of_notMem notBefore]
      have short := List.idxOf_lt_length_of_mem isEarlier
      omega

/-- All successors are gone on to. -/
theorem AddedBy.foldl {go : List Node → Node → List Node}
    (goes : ∀ more next, Lists successors (order ++ [start] ++ more) next
      (go (order ++ [start] ++ more) next))
    (isSuccessors : successors start = before ++ after) (fresh : start ∉ order)
    (addedBy : AddedBy successors order start before added) :
    ∃ more, after.foldl go (order ++ [start] ++ added) = order ++ [start] ++ more ∧
      AddedBy successors order start (successors start) more := by
  induction after generalizing before added with
  | nil =>
      rw [List.append_nil] at isSuccessors
      exact ⟨added, rfl, isSuccessors ▸ addedBy⟩
  | cons next after inductionHypothesis =>
      obtain ⟨more, isMore, isAdded, inOrder⟩ := goes added next
      have nextAdded := addedBy.goOn isSuccessors fresh isAdded inOrder
      rw [List.foldl_cons, isMore, List.append_assoc (order ++ [start])]
      exact inductionHypothesis (by rw [isSuccessors, List.append_assoc]; rfl) nextAdded

/-- The node and all that its successors led to. -/
theorem AddedBy.lists (fresh : start ∉ order)
    (addedBy : AddedBy successors order start (successors start) added) :
    Lists successors order start (order ++ [start] ++ added) := by
  have notStart : ∀ {node}, node ∈ added → node ≠ start := by
    rintro node mem rfl
    obtain ⟨_, _, reach⟩ := (addedBy.1 node).mp mem
    exact reach.free_last (by simp)
  refine ⟨start :: added, by simp, fun node => ?_, List.pairwise_cons.mpr ⟨?_, addedBy.2⟩⟩
  · rw [List.mem_cons]
    constructor
    · rintro (rfl | mem)
      · exact .here fresh
      · obtain ⟨next, edge, reach⟩ := (addedBy.1 node).mp mem
        exact .step fresh edge (reach.mono fun _ => List.mem_append_left _)
    · intro reach
      by_cases same : node = start
      · exact .inl same
      · obtain ⟨path, simple⟩ := reach.exists_simplePath
        obtain ⟨next, edge, rest, _, simple⟩ := simple.exists_next same
        exact .inr ((addedBy.1 node).mpr ⟨next, edge, (avoids_start_iff.mp simple).reach⟩)
  · exact fun node mem => .of_start fresh (notStart mem)

/-- With fuel for every node that is not listed, the traversal lists all that it reaches. -/
theorem lists_preorder [Fintype Node] {fuel : Nat}
    (enough : (Finset.univ.filter (· ∉ order)).card < fuel) :
    Lists successors order start (preorder successors fuel order start) := by
  induction fuel generalizing order start with
  | zero => exact absurd enough (Nat.not_lt_zero _)
  | succ fuel inductionHypothesis =>
      rw [preorder]
      split
      · rename_i mem
        exact Lists.of_mem mem
      · rename_i fresh
        have goes : ∀ more next, Lists successors (order ++ [start] ++ more) next
            (preorder successors fuel (order ++ [start] ++ more) next) := by
          intro more next
          refine inductionHypothesis (Nat.lt_of_lt_of_le (Finset.card_lt_card ?_)
            (Nat.le_of_lt_succ enough))
          refine Finset.ssubset_iff_of_subset ?_ |>.mpr ⟨start, by simpa using fresh, by simp⟩
          intro node mem
          simp only [Finset.mem_filter, Finset.mem_univ, true_and, List.mem_append, not_or] at mem ⊢
          exact mem.1.1
        have start : AddedBy successors order start [] [] :=
          ⟨fun node => by simp, List.Pairwise.nil⟩
        obtain ⟨more, same, addedBy⟩ := start.foldl goes rfl fresh
        rw [List.append_nil] at same
        rw [same]
        exact addedBy.lists fresh

end Traversal

/-! ### Whole graphs -/

section Whole

variable [Fintype Node] {successors : Node → List Node} {start first second : Node}

/-- The nodes that are reached from a node, around some others. -/
def reachable (successors : Node → List Node) (avoid : List Node) (start : Node) : List Node :=
  (preorder successors (Fintype.card Node + 1) avoid start).drop avoid.length

theorem lists_whole (successors : Node → List Node) (avoid : List Node) (start : Node) :
    Lists successors avoid start (preorder successors (Fintype.card Node + 1) avoid start) :=
  lists_preorder (Nat.lt_succ_of_le (Finset.card_le_univ _))

theorem mem_reachable {avoid : List Node} {node : Node} :
    node ∈ reachable successors avoid start ↔ Reach successors (· ∈ avoid) start node := by
  obtain ⟨added, isListed, isAdded, _⟩ := lists_whole successors avoid start
  rw [reachable, isListed, List.drop_left, isAdded]

instance decidableReach (avoid : List Node) (start last : Node) :
    Decidable (Reach successors (· ∈ avoid) start last) :=
  decidable_of_iff _ mem_reachable

/-- Of two nodes that are listed, the one is listed first that comes ahead. -/
theorem idxOf_preorder_lt_iff
    (isFirst : Reach successors (· ∈ ([] : List Node)) start first)
    (isSecond : Reach successors (· ∈ ([] : List Node)) start second) :
    (preorder successors (Fintype.card Node + 1) [] start).idxOf first
        < (preorder successors (Fintype.card Node + 1) [] start).idxOf second ↔
      Ahead successors (· ∈ ([] : List Node)) start first second := by
  obtain ⟨added, isListed, isAdded, sorted⟩ := lists_whole successors [] start
  rw [isListed, List.nil_append]
  have firstMem := (isAdded first).mpr isFirst
  have secondMem := (isAdded second).mpr isSecond
  have ahead : ∀ {first second}, first ∈ added → second ∈ added →
      added.idxOf first < added.idxOf second →
      Ahead successors (· ∈ ([] : List Node)) start first second := by
    intro first second firstMem secondMem less
    have further := List.pairwise_iff_getElem.mp sorted _ _ (List.idxOf_lt_length_of_mem firstMem)
      (List.idxOf_lt_length_of_mem secondMem) less
    rwa [List.getElem_idxOf, List.getElem_idxOf] at further
  constructor
  · exact ahead firstMem secondMem
  · intro isAhead
    rcases Nat.lt_trichotomy (added.idxOf first) (added.idxOf second) with less | same | greater
    · exact less
    · have equal := (List.idxOf_inj firstMem).mp same
      subst equal
      exact absurd isAhead isAhead.asymm
    · exact absurd isAhead (ahead secondMem firstMem greater).asymm

end Whole

end Dynamatic.ControlFlow
