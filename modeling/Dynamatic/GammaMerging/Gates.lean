import Mathlib.Data.Multiset.AddSub

/-!
# The multiplexers of the gated form and their simplification

`addGsaGates` builds one multiplexer for each gate of the gated single assignment form: a MU takes
its initial input on the first iteration of a loop and its loop input on the others, a gamma takes
the input its condition selects. It then simplifies the trees of gammas: two gammas with one select
and the same inputs become one, and a multiplexer whose two inputs are one value is bypassed, until
nothing changes.

The result of a gamma is one token, which goes to every multiplexer it feeds. Two gammas are
therefore merged only when they are consumed under the same conditions, and these are read once,
before anything is merged (`getTree`, `getConsumption`).
-/

namespace Dynamatic.GammaMerging

/-- A wire: the result of a gate, or a value that no gate of the forest computes, such as a
condition, a value of the function or the placeholder of one. -/
inductive Value where
  | leaf (name : Nat)
  | gate (index : Nat)
  deriving DecidableEq, Repr

/-- A multiplexer of the forest, with the block it stands in and whether it is a MU (a gamma
otherwise). -/
structure Gate where
  block : Nat
  isMu : Bool
  select : Value
  in0 : Value
  in1 : Value
  deriving DecidableEq, Repr

/-- The operand of a number: the select is operand 0, the data operands come next. -/
def Gate.operand (mux : Gate) : Nat → Value
  | 0 => mux.select
  | 1 => mux.in0
  | _ => mux.in1

/-- The forest and what it feeds. The gates are listed in the order the map of gates is gone
through, an erased gate is `none`, and `others` holds the operands of the operations that are no
gate. `backedgeToOriginal` takes a placeholder to the value it stands for. -/
structure Graph where
  gsaList : List Nat
  gate : Nat → Option Gate
  others : List Value
  backedgeToOriginal : Nat → Option Nat

namespace Graph

/-- Placeholders are resolved to their values first. -/
def getEffectiveValue (g : Graph) : Value → Value
  | .leaf name => .leaf ((g.backedgeToOriginal name).getD name)
  | .gate index => .gate index

/-- Two values are equivalent when they are one wire, once placeholders are resolved. -/
def areEquivalentValues (g : Graph) (a b : Value) : Bool :=
  g.getEffectiveValue a == g.getEffectiveValue b

end Graph

/-! ## Trees -/

/-- The trees of gammas of a block, up to the multiplexers whose inputs are the same tree. Two trees
are equal exactly when the source gives them one number: `mu` is the number that stands for the
selects of the MUs of a block, the others are given by leaf and by shape. -/
inductive Tree where
  | mu
  | leaf (value : Value)
  | node (select in0 in1 : Tree)
  deriving DecidableEq, Repr

/-- The tree of a value among the gammas of `block`; any other value, a MU among them, is a leaf. -/
def Graph.getTree (g : Graph) (block : Nat) : Nat → Value → Tree
  | fuel + 1, .gate index =>
    match g.gate index with
    | some mux =>
      if mux.block = block ∧ mux.isMu = false then
        let select := g.getTree block fuel mux.select
        let in0 := g.getTree block fuel mux.in0
        let in1 := g.getTree block fuel mux.in1
        if in0 = in1 then in0 else .node select in0 in1
      else .leaf (.gate index)
    | none => .leaf (.gate index)
  | _, value => .leaf (g.getEffectiveValue value)

/-- The tree of a value; gates are no deeper than there are of them. -/
def Graph.treeOf (g : Graph) (block : Nat) (value : Value) : Tree :=
  g.getTree block g.gsaList.length value

/-! ## Consumption -/

/-- A use of a value: an operand of a gate, or an operand of another operation. -/
inductive Use where
  | operand (owner number : Nat)
  | other
  deriving DecidableEq, Repr

/-- The uses of a value. -/
def Graph.uses (g : Graph) (value : Value) : List Use :=
  g.gsaList.flatMap (fun owner =>
    match g.gate owner with
    | some mux => ([0, 1, 2].filter fun number => mux.operand number = value).map (.operand owner)
    | none => []) ++
  (g.others.filter (· = value)).map fun _ => .other

/-- The conditions under which a gamma is consumed: its block, and the side taken at each select on
the way from the root. The source keeps the sides sorted, so that two lists are equal when they hold
the same sides. -/
structure Consumption where
  block : Nat
  sides : Multiset (Tree × Nat)
  deriving DecidableEq

/-- The select of a gate as a condition of its block. -/
def Graph.selectTree (g : Graph) (mux : Gate) : Tree :=
  if mux.isMu then .mu else g.treeOf mux.block mux.select

/-- A multiplexer whose two inputs are the same tree is not counted. -/
def Graph.testsNothing (g : Graph) (mux : Gate) : Bool :=
  g.treeOf mux.block mux.in0 = g.treeOf mux.block mux.in1

/-- The conditions under which one use consumes a gamma of `block`, from those of the gammas above
it. -/
def Graph.useConsumption (g : Graph) (consumption : Nat → Option Consumption) (block : Nat) :
    Use → Option Consumption
  | .other => some ⟨block, 0⟩
  | .operand owner number =>
    match g.gate owner with
    | some parent =>
      if parent.block = block ∧ 0 < number then
        let above := if parent.isMu then some ⟨block, 0⟩ else consumption owner
        if g.testsNothing parent then above
        else above.map fun above =>
          { above with sides := (g.selectTree parent, number) ::ₘ above.sides }
      else some ⟨block, 0⟩
    | none => some ⟨block, 0⟩

/-- All uses have to consume a gamma under the same conditions; one without uses is a root. -/
def agree (block : Nat) : Option Consumption → List (Option Consumption) → Option Consumption
  | consumption, [] => some (consumption.getD ⟨block, 0⟩)
  | _, none :: _ => none
  | none, some use :: rest => agree block (some use) rest
  | some consumption, some use :: rest =>
    if consumption = use then agree block (some use) rest else none

/-- The conditions under which a gamma is consumed, `none` when two uses disagree or when the gamma
is met again on the way to its root. -/
def Graph.getConsumption (g : Graph) : Nat → Nat → Option Consumption
  | 0, _ => none
  | fuel + 1, gamma =>
    match g.gate gamma with
    | some mux =>
      agree mux.block none ((g.uses (.gate gamma)).map
        (g.useConsumption (g.getConsumption fuel) mux.block))
    | none => none

/-- The conditions read before anything is merged. -/
def Graph.consumptionPerGamma (g : Graph) (gamma : Nat) : Option Consumption :=
  g.getConsumption g.gsaList.length gamma

/-- Whether a gate is there and is a gamma. -/
def Graph.isGamma (g : Graph) (index : Nat) : Bool :=
  (g.gate index).any fun mux => !mux.isMu

/-- If the conditions of one gamma cannot be read, every merge is refused. -/
def Graph.canMerge (g : Graph) : Bool :=
  g.gsaList.all fun index => !g.isGamma index || (g.consumptionPerGamma index).isSome

/-- Two gammas consumed under the same conditions. -/
def Graph.areConsumedAlike (g : Graph) (a b : Nat) : Bool :=
  g.canMerge && g.isGamma a && g.isGamma b &&
    (g.consumptionPerGamma a == g.consumptionPerGamma b)

/-! ## Merging and reducing -/

/-- A value after the uses of `old` have been given `new`. -/
def Value.replace (value old new : Value) : Value :=
  if value = old then new else value

/-- A gate after the uses of `old` have been given `new`. -/
def Gate.replace (mux : Gate) (old new : Value) : Gate :=
  { mux with
    select := mux.select.replace old new
    in0 := mux.in0.replace old new
    in1 := mux.in1.replace old new }

/-- All uses of the result of a gate take another value, and the gate is erased. -/
def Graph.replaceOp (g : Graph) (index : Nat) (new : Value) : Graph :=
  { g with
    gate := fun other =>
      if other = index then none else (g.gate other).map fun mux => mux.replace (.gate index) new
    others := g.others.map fun value => value.replace (.gate index) new }

/-- Whether the second gate may be merged in the first. -/
def Graph.areAlike (g : Graph) (alike : Nat → Nat → Bool) (first second : Nat) : Bool :=
  match g.gate first, g.gate second with
  | some mux1, some mux2 =>
    g.areEquivalentValues mux1.select mux2.select && g.areEquivalentValues mux1.in0 mux2.in0 &&
      g.areEquivalentValues mux1.in1 mux2.in1 && alike first second
  | _, _ => false

/-- The inner loop of the first step: `first` takes the place of all its equals further on. The flag
tells whether something changed. -/
def mergeLater (alike : Nat → Nat → Bool) (first : Nat) : List Nat → Graph × Bool → Graph × Bool
  | [], state => state
  | second :: later, (g, changed) =>
    if g.areAlike alike first second then
      mergeLater alike first later (g.replaceOp second (.gate first), true)
    else mergeLater alike first later (g, changed)

/-- The first step: equal gates consumed under the same conditions are merged. -/
def mergeStep (alike : Nat → Nat → Bool) : List Nat → Graph × Bool → Graph × Bool
  | [], state => state
  | first :: later, state => mergeStep alike later (mergeLater alike first later state)

/-- The second step: a gate whose data inputs are the same value is bypassed. -/
def reduceStep : List Nat → Graph × Bool → Graph × Bool
  | [], state => state
  | index :: later, (g, changed) =>
    match g.gate index with
    | some mux =>
      if g.areEquivalentValues mux.in0 mux.in1 then
        reduceStep later (g.replaceOp index mux.in0, true)
      else reduceStep later (g, changed)
    | none => reduceStep later (g, changed)

/-- Both steps, until nothing changes; `none` is a loop that has not ended. -/
def simplifyLoop (alike : Nat → Nat → Bool) : Nat → Graph → Option Graph
  | 0, _ => none
  | fuel + 1, g =>
    let (merged, mergedSome) := mergeStep alike g.gsaList (g, false)
    let (reduced, changed) := reduceStep merged.gsaList (merged, mergedSome)
    if changed then simplifyLoop alike fuel reduced else some reduced

/-- The simplification of a forest. The conditions are those of the forest it starts from. -/
def simplify (g : Graph) : Option Graph :=
  simplifyLoop g.areConsumedAlike (g.gsaList.length + 1) g

end Dynamatic.GammaMerging
