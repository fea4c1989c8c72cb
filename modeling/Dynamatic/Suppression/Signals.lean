import Mathlib.Order.Filter.AtTopBot.Basic
import Dynamatic.Steering.Circuit
import Dynamatic.Suppression.DecisionGraph

/-!
# The values of a suppression circuit

A value is the tree of the muxes, branches, negations and constants that compute it from
the conditions of the blocks. In every execution, each block that is visited emits the
outcome of its condition, and the units carry the tokens of all executions in their order.
A value delivers what some of the executions put on it.
-/

namespace Dynamatic.Suppression

open Bitwidth (Word)
open Steering Kahn Filter

/-- A value: the condition of a block, or the unit that drives it with its operands. -/
inductive Signal (size : Nat) where
  | raw (var : Fin size)
  | source
  | constant (value : Bool) (ctrl : Signal size)
  | notI (operand : Signal size)
  | mux (select falseOperand trueOperand : Signal size)
  /-- The true or the false result of a conditional branch. -/
  | branch (side : Bool) (condition data : Signal size)
  deriving DecidableEq, Repr

/-- The token of a boolean. -/
def token (value : Bool) : Word := ⟨1, BitVec.ofBool value⟩

namespace Signal

variable {size : Nat}

def driver : Signal size → Driver
  | raw var => ⟨.argument var, 0⟩
  | source => ⟨.source, 0⟩
  | constant value _ => ⟨.constant (token value), 0⟩
  | notI _ => ⟨.notI, 0⟩
  | mux _ _ _ => ⟨.mux, 0⟩
  | branch side _ _ => ⟨.condBranch, if side then 0 else 1⟩

def operands : Signal size → List (Signal size)
  | raw _ | source => []
  | constant _ ctrl => [ctrl]
  | notI operand => [operand]
  | mux select falseOperand trueOperand => [select, falseOperand, trueOperand]
  | branch _ condition data => [condition, data]

/-- The value and all those that it is computed from. -/
def units : Signal size → List (Signal size)
  | raw var => [raw var]
  | source => [source]
  | constant value ctrl => constant value ctrl :: ctrl.units
  | notI operand => notI operand :: operand.units
  | mux select falseOperand trueOperand =>
      mux select falseOperand trueOperand ::
        (select.units ++ falseOperand.units ++ trueOperand.units)
  | branch side condition data =>
      branch side condition data :: (condition.units ++ data.units)

/-- Sources and the constants they trigger have tokens without end. -/
def isUnlimited : Signal size → Bool
  | source | constant _ _ => true
  | _ => false

end Signal

def network (size : Nat) : Network (Signal size) Driver where
  kind := Signal.driver
  operands := Signal.operands

section Consumption

/-- What a mux does not take from its operands. -/
def muxUnread : List Word → List (List Word) → List (List Word)
  | [], data => [] :: data
  | select :: selects, data =>
      match data[select.bits.toNat]? with
      | some (_ :: rest) => muxUnread selects (data.set select.bits.toNat rest)
      | _ => (select :: selects) :: data

/-- What a unit does not take from its operands. -/
def unread (kind : OpKind) (operands : List (List Word)) : List (List Word) :=
  match kind, operands with
  | .constant _, [_] | .notI, [_] => [[]]
  | .mux, select :: data => muxUnread select data
  | .condBranch, [condition, data] => [condition.drop data.length, data.drop condition.length]
  | _, operands => operands

end Consumption

section Emissions

variable {Run : Type}

/-- The tokens of the executions among `runs` that a value sees, in their order. -/
def emitted (runs : List Run) (sees value : Run → Bool) : List Word :=
  (runs.filter sees).map fun run => token (value run)

/-- In every execution, the blocks that it visits from the producer on emit their outcomes. -/
def BranchGraph.environment {size : Nat} (graph : BranchGraph size)
    (runs : List (Execution size)) : Environment where
  arguments := fun index position =>
    if inRange : index < size then
      (emitted runs (graph.reaches (.node ⟨index, inRange⟩) graph.newProd)
        fun run => run ⟨index, inRange⟩)[position]?
    else none
  merge := fun _ => []
  other := fun _ _ _ => []
  mergeMonotone := @nil_mergeMonotone
  otherMonotone := @nil_otherMonotone

variable {runs : List Run} {sees value choice first second : Run → Bool}

@[simp] theorem isZero_token {value : Bool} : (token value).isZero = !value := by
  cases value <;> rfl

@[simp] theorem invert_token {value : Bool} : invert (token value) = token !value := by
  cases value <;> rfl

@[simp] theorem toNat_token {value : Bool} : (token value).bits.toNat = value.toNat := by
  cases value <;> rfl

theorem emitted_congr {others values : Run → Bool} (seen : ∀ run ∈ runs, sees run = others run)
    (same : ∀ run ∈ runs, sees run → value run = values run) :
    emitted runs sees value = emitted runs others values := by
  rw [emitted, emitted, ← List.filter_congr seen]
  refine List.map_congr_left fun run mem => ?_
  obtain ⟨mem, isSeen⟩ := List.mem_filter.mp mem
  rw [same run mem isSeen]

theorem map_invert_emitted :
    (emitted runs sees value).map invert = emitted runs sees fun run => !value run := by
  simp [emitted]

/-- A mux joins the executions that its select token separates. -/
theorem muxTokens_emitted {more others : List Word} :
    muxTokens (emitted runs sees choice)
      [emitted runs (fun run => sees run && !choice run) first ++ more,
        emitted runs (fun run => sees run && choice run) second ++ others] =
      emitted runs sees fun run => if choice run then second run else first run := by
  induction runs with
  | nil => rfl
  | cons run runs inductionHypothesis =>
      cases isSeen : sees run with
      | false => simpa [emitted, isSeen] using inductionHypothesis
      | true =>
          cases chosen : choice run <;>
            simpa [emitted, isSeen, chosen, muxTokens] using inductionHypothesis

theorem muxUnread_emitted {more others : List Word} :
    muxUnread (emitted runs sees choice)
      [emitted runs (fun run => sees run && !choice run) first ++ more,
        emitted runs (fun run => sees run && choice run) second ++ others] =
      [[], more, others] := by
  induction runs with
  | nil => rfl
  | cons run runs inductionHypothesis =>
      cases isSeen : sees run with
      | false => simpa [emitted, isSeen] using inductionHypothesis
      | true =>
          cases chosen : choice run <;>
            simpa [emitted, isSeen, chosen, muxUnread] using inductionHypothesis

/-- A branch separates the executions by its condition token. -/
theorem branchTokens_emitted {side : Bool} {more : List Word} :
    branchTokens side (emitted runs sees choice ++ more) (emitted runs sees value) =
      emitted runs (fun run => sees run && (choice run == side)) value := by
  induction runs with
  | nil => simp [emitted, branchTokens]
  | cons run runs inductionHypothesis =>
      cases isSeen : sees run with
      | false => simpa [emitted, isSeen] using inductionHypothesis
      | true =>
          cases chosen : choice run <;> cases side <;>
            simpa [emitted, isSeen, chosen, branchTokens] using inductionHypothesis

end Emissions

section Delivery

variable {size : Nat} (graph : BranchGraph size) (runs : List (Execution size))

/-- The tokens on a value by a time. -/
def history (time : Nat) (signal : Signal size) : List Word :=
  (network size).history (graph.environment runs).units time signal

/-- The unit of a value takes all tokens from its operands in the end, unless they have
tokens without end. -/
def Drained (signal : Signal size) : Prop :=
  ∀ᶠ time in atTop, ∀ pair ∈ signal.operands.zip
    (unread signal.driver.kind (signal.operands.map (history graph runs time))),
      pair.1.isUnlimited = false → pair.2 = []

/-- In the end a value carries the tokens, and more only when it has tokens without end; all
units that compute it are drained. -/
structure Delivers (signal : Signal size) (tokens : List Word) : Prop where
  drained : ∀ unit ∈ signal.units, Drained graph runs unit
  carries : ∀ᶠ time in atTop, ∃ more, history graph runs time signal = tokens ++ more ∧
    (signal.isUnlimited = false → more = [])

variable {graph runs} {signal select falseOperand trueOperand condition data : Signal size}
  {sees value choice first second : Execution size → Bool} {var : Fin size} {tokens : List Word}

private theorem eventually_succ {holds : Nat → Prop} (later : ∀ᶠ time in atTop, holds (time + 1)) :
    ∀ᶠ time in atTop, holds time := by
  obtain ⟨since, later⟩ := eventually_atTop.mp later
  refine eventually_atTop.mpr ⟨since + 1, fun time le => ?_⟩
  obtain ⟨earlier, rfl⟩ := Nat.exists_eq_add_of_le' (Nat.le_of_add_left_le le)
  exact later earlier (by omega)

theorem Delivers.eventually_eq (delivers : Delivers graph runs signal tokens)
    (limited : signal.isUnlimited = false) :
    ∀ᶠ time in atTop, history graph runs time signal = tokens :=
  delivers.carries.mono fun _ ⟨_, isHistory, exact⟩ => by
    rw [isHistory, exact limited, List.append_nil]

private theorem filterMap_range {items : List Word} {time : Nat} :
    (List.range time).filterMap (fun position => items[position]?) = items.take time := by
  induction time with
  | zero => rfl
  | succ time inductionHypothesis =>
      rw [List.range_succ, List.filterMap_append, inductionHypothesis, List.take_add_one]
      cases held : items[time]? <;> simp [held]

private theorem history_raw {time : Nat} : history graph runs (time + 1) (.raw var) =
    (emitted runs (graph.reaches (.node var) graph.newProd) fun run => run var).take time := by
  have arguments : (graph.environment runs).arguments var = fun position =>
      (emitted runs (graph.reaches (.node var) graph.newProd) fun run => run var)[position]? :=
    funext fun position => dif_pos var.isLt
  refine Eq.trans ?_ filterMap_range
  rw [← arguments]
  rfl

/-- The condition of a block has a token of every execution that visits the block. -/
theorem delivers_raw : Delivers graph runs (.raw var)
    (emitted runs (graph.reaches (.node var) graph.newProd) fun run => run var) := by
  refine ⟨fun unit isUnit => ?_, eventually_succ ?_⟩
  · cases List.mem_singleton.mp isUnit
    exact .of_forall fun time pair mem => (nomatch mem)
  · refine (eventually_ge_atTop (emitted runs (graph.reaches (.node var) graph.newProd)
      fun run => run var).length).mono fun time le => ⟨[], ?_, fun _ => rfl⟩
    rw [history_raw, List.take_of_length_le le, List.append_nil]

theorem delivers_constant {value : Bool} (same : ∀ word ∈ tokens, word = token value) :
    Delivers graph runs (.constant value .source) tokens := by
  obtain ⟨count, rfl⟩ : ∃ count, tokens = List.replicate count (token value) :=
    ⟨_, List.eq_replicate_of_mem same⟩
  refine ⟨fun unit isUnit => ?_, eventually_succ (eventually_succ ?_)⟩
  · rcases List.mem_cons.mp isUnit with rfl | isUnit
    · refine .of_forall fun time pair mem unlimited => ?_
      cases List.mem_singleton.mp mem
      rfl
    · cases List.mem_singleton.mp isUnit
      exact .of_forall fun time pair mem => (nomatch mem)
  · refine (eventually_ge_atTop count).mono fun time le =>
      ⟨List.replicate (time - count) (token value), ?_, fun limited => nomatch limited⟩
    have isHistory : history graph runs (time + 2) (.constant value .source) =
        (List.replicate time (Word.ofNat 0 0)).map fun _ => token value := rfl
    rw [isHistory, List.map_replicate, List.replicate_append_replicate, Nat.add_sub_cancel' le]

theorem Delivers.notI (delivers : Delivers graph runs signal (emitted runs sees value))
    (limited : signal.isUnlimited = false) :
    Delivers graph runs (.notI signal) (emitted runs sees fun run => !value run) := by
  refine ⟨fun unit isUnit => ?_, eventually_succ ?_⟩
  · rcases List.mem_cons.mp isUnit with rfl | isUnit
    · refine .of_forall fun time pair mem _ => ?_
      cases List.mem_singleton.mp mem
      rfl
    · exact delivers.drained unit isUnit
  · refine (delivers.eventually_eq limited).mono fun time isHistory => ⟨[], ?_, fun _ => rfl⟩
    have output : history graph runs (time + 1) (.notI signal) =
        (history graph runs time signal).map invert := rfl
    rw [output, isHistory, map_invert_emitted, List.append_nil]

/-- A mux whose data operands deliver what its select token chooses. -/
theorem Delivers.mux (selects : Delivers graph runs select (emitted runs sees choice))
    (limited : select.isUnlimited = false)
    (falseDelivers : Delivers graph runs falseOperand
      (emitted runs (fun run => sees run && !choice run) first))
    (trueDelivers : Delivers graph runs trueOperand
      (emitted runs (fun run => sees run && choice run) second)) :
    Delivers graph runs (.mux select falseOperand trueOperand)
      (emitted runs sees fun run => if choice run then second run else first run) := by
  refine ⟨fun unit isUnit => ?_, eventually_succ ?_⟩
  · simp only [Signal.units, List.mem_cons, List.mem_append] at isUnit
    rcases isUnit with rfl | (isUnit | isUnit) | isUnit
    · filter_upwards [selects.eventually_eq limited, falseDelivers.carries, trueDelivers.carries]
      rintro time isSelect ⟨more, isFalse, exact⟩ ⟨others, isTrue, exactOther⟩ pair mem
      rw [show unread (Signal.mux select falseOperand trueOperand).driver.kind
        ((Signal.mux select falseOperand trueOperand).operands.map (history graph runs time)) =
          muxUnread (history graph runs time select) [history graph runs time falseOperand,
            history graph runs time trueOperand] from rfl, isSelect, isFalse, isTrue,
        muxUnread_emitted] at mem
      simp only [Signal.operands, List.zip_cons_cons, List.zip_nil_left, List.mem_cons,
        List.not_mem_nil, or_false] at mem
      rcases mem with rfl | rfl | rfl
      · exact fun _ => rfl
      · exact exact
      · exact exactOther
    · exact selects.drained unit isUnit
    · exact falseDelivers.drained unit isUnit
    · exact trueDelivers.drained unit isUnit
  · filter_upwards [selects.eventually_eq limited, falseDelivers.carries, trueDelivers.carries]
    rintro time isSelect ⟨more, isFalse, _⟩ ⟨others, isTrue, _⟩
    refine ⟨[], ?_, fun _ => rfl⟩
    have output : history graph runs (time + 1) (.mux select falseOperand trueOperand) =
        muxTokens (history graph runs time select) [history graph runs time falseOperand,
          history graph runs time trueOperand] := rfl
    rw [output, isSelect, isFalse, isTrue, muxTokens_emitted, List.append_nil]

/-- A branch whose condition delivers a token for each data token. -/
theorem Delivers.branch (conditions : Delivers graph runs condition (emitted runs sees choice))
    (delivers : Delivers graph runs data (emitted runs sees value))
    (limited : data.isUnlimited = false) (side : Bool) :
    Delivers graph runs (.branch side condition data)
      (emitted runs (fun run => sees run && (choice run == side)) value) := by
  refine ⟨fun unit isUnit => ?_, eventually_succ ?_⟩
  · simp only [Signal.units, List.mem_cons, List.mem_append] at isUnit
    rcases isUnit with rfl | isUnit | isUnit
    · filter_upwards [delivers.eventually_eq limited, conditions.carries]
      rintro time isData ⟨more, isCondition, exact⟩ pair mem
      rw [show unread (Signal.branch side condition data).driver.kind
        ((Signal.branch side condition data).operands.map (history graph runs time)) =
          [(history graph runs time condition).drop (history graph runs time data).length,
            (history graph runs time data).drop (history graph runs time condition).length] from
              rfl, isData, isCondition] at mem
      simp only [Signal.operands, List.zip_cons_cons, List.zip_nil_left, List.mem_cons,
        List.not_mem_nil, or_false] at mem
      rcases mem with rfl | rfl
      · intro limited
        simp [exact limited, emitted]
      · exact fun _ => List.drop_of_length_le (by simp [emitted])
    · exact conditions.drained unit isUnit
    · exact delivers.drained unit isUnit
  · filter_upwards [delivers.eventually_eq limited, conditions.carries]
    rintro time isData ⟨more, isCondition, _⟩
    refine ⟨[], ?_, fun _ => rfl⟩
    have output : history graph runs (time + 1) (.branch side condition data) =
        branchTokens side (history graph runs time condition) (history graph runs time data) := by
      cases side <;> rfl
    rw [output, isData, isCondition, branchTokens_emitted, List.append_nil]

end Delivery

end Dynamatic.Suppression
