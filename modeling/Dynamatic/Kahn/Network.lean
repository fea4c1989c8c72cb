import Mathlib.Data.List.Forall2
import Mathlib.Order.Basic

/-!
# Kahn networks

Each channel is driven by a unit, which puts tokens on it that depend only on the tokens
of its operand channels. From empty channels, the histories grow with time; their limits
are the token streams of the network. Channels that unfold to the same tree of units
carry the same stream, and one may be used in place of the other.
-/

namespace Dynamatic.Kahn

/-- The unit that drives each channel, and its operands. -/
structure Network (Channel Kind : Type) where
  kind : Channel → Kind
  operands : Channel → List Channel

/-- What each kind of unit has put on its channel by a time. More time and more tokens on the
operands only add to it. -/
structure Interpretation (Kind Token : Type) where
  output : Kind → Nat → List (List Token) → List Token
  monotone : ∀ {kind time later} {operands more : List (List Token)}, time ≤ later →
    List.Forall₂ (fun operand extended => operand <+: extended) operands more →
      output kind time operands <+: output kind later more

namespace Network

variable {Channel Other Kind Token : Type} (network : Network Channel Kind)
  (units : Interpretation Kind Token)

/-- The tokens that were put on a channel by a time. -/
def history : Nat → Channel → List Token
  | 0, _ => []
  | time + 1, channel =>
      units.output (network.kind channel) time ((network.operands channel).map (history time))

/-- The stream of a channel has a token at a position. -/
def Carries (channel : Channel) (position : Nat) (token : Token) : Prop :=
  ∃ time, (network.history units time channel)[position]? = some token

/-- Two channels, of two networks or of one, have the same token stream. -/
def SameStream (other : Network Other Kind) (channel : Channel) (image : Other) : Prop :=
  ∀ position token, network.Carries units channel position token ↔
    other.Carries units image position token

section Histories

variable {network units} {channel : Channel} {time later position : Nat}

theorem history_succ :
    network.history units (time + 1) channel =
      units.output (network.kind channel) time
        ((network.operands channel).map (network.history units time)) :=
  rfl

private theorem forall₂_map_grows {channels : List Channel} {before after : Channel → List Token}
    (grows : ∀ channel, before channel <+: after channel) :
    List.Forall₂ (fun operand extended => operand <+: extended) (channels.map before)
      (channels.map after) := by
  induction channels with
  | nil => exact .nil
  | cons first rest inductionHypothesis => exact .cons (grows first) inductionHypothesis

theorem history_grows_succ (time : Nat) (channel : Channel) :
    network.history units time channel <+: network.history units (time + 1) channel := by
  induction time generalizing channel with
  | zero => exact List.nil_prefix
  | succ time inductionHypothesis =>
      exact units.monotone (Nat.le_succ time) (forall₂_map_grows inductionHypothesis)

theorem history_grows (le : time ≤ later) :
    network.history units time channel <+: network.history units later channel := by
  induction le with
  | refl => exact List.prefix_refl _
  | step _ inductionHypothesis => exact inductionHypothesis.trans (history_grows_succ _ _)

theorem sameStream_of_history_eq {other : Network Other Kind} {image : Other}
    (same : ∀ time, network.history units time channel = other.history units time image) :
    network.SameStream units other channel image := fun position token =>
  exists_congr fun time => by rw [same time]

end Histories

section Bisimulation

/-- Related channels are driven by units of one kind, with related operands. -/
structure Bisimulation (other : Network Other Kind) (related : Channel → Other → Prop) : Prop where
  kind : ∀ {channel image}, related channel image → network.kind channel = other.kind image
  operands : ∀ {channel image}, related channel image →
    List.Forall₂ related (network.operands channel) (other.operands image)

variable {network units} {other : Network Other Kind} {related : Channel → Other → Prop}

private theorem map_eq_of_forall₂ {channels : List Channel} {images : List Other}
    {before : Channel → List Token} {after : Other → List Token}
    (relates : List.Forall₂ related channels images)
    (same : ∀ {channel image}, related channel image → before channel = after image) :
    channels.map before = images.map after := by
  induction relates with
  | nil => rfl
  | cons first _ inductionHypothesis => exact congrArg₂ List.cons (same first) inductionHypothesis

/-- Related channels have the same histories. -/
theorem Bisimulation.history_eq (bisimulation : network.Bisimulation other related) (time : Nat)
    {channel : Channel} {image : Other} (relates : related channel image) :
    network.history units time channel = other.history units time image := by
  induction time generalizing channel image with
  | zero => rfl
  | succ time inductionHypothesis =>
      rw [history_succ, history_succ, bisimulation.kind relates,
        map_eq_of_forall₂ (bisimulation.operands relates) inductionHypothesis]

variable (network) in
/-- Two channels unfold to the same tree of units. -/
def Bisimilar (channel image : Channel) : Prop :=
  ∃ related, network.Bisimulation network related ∧ related channel image

variable {channel image third : Channel}

theorem Bisimilar.refl (channel : Channel) : network.Bisimilar channel channel :=
  ⟨Eq, ⟨fun same => congrArg _ same, fun same => same ▸ List.forall₂_refl _⟩, rfl⟩

/-- What bisimilar channels unfold to. -/
theorem bisimulation_bisimilar : network.Bisimulation network network.Bisimilar where
  kind := by
    rintro channel image ⟨related, bisimulation, relates⟩
    exact bisimulation.kind relates
  operands := by
    rintro channel image ⟨related, bisimulation, relates⟩
    exact (bisimulation.operands relates).imp fun _ _ relates => ⟨related, bisimulation, relates⟩

theorem forall₂_comp {α β γ : Type} {first : α → β → Prop} {second : β → γ → Prop}
    {xs : List α} {ys : List β} {zs : List γ} (before : List.Forall₂ first xs ys)
    (after : List.Forall₂ second ys zs) :
    List.Forall₂ (fun x z => ∃ y, first x y ∧ second y z) xs zs := by
  induction before generalizing zs with
  | nil =>
      cases after
      exact .nil
  | cons head _ inductionHypothesis =>
      cases after with
      | cons next rest => exact .cons ⟨_, head, next⟩ (inductionHypothesis rest)

theorem Bisimilar.trans (first : network.Bisimilar channel image)
    (second : network.Bisimilar image third) : network.Bisimilar channel third := by
  refine ⟨fun channel third => ∃ image, network.Bisimilar channel image ∧
    network.Bisimilar image third, ⟨?_, ?_⟩, image, first, second⟩
  · rintro channel third ⟨image, first, second⟩
    exact (bisimulation_bisimilar.kind first).trans (bisimulation_bisimilar.kind second)
  · rintro channel third ⟨image, first, second⟩
    exact forall₂_comp (bisimulation_bisimilar.operands first)
      (bisimulation_bisimilar.operands second)

theorem Bisimilar.history_eq (bisimilar : network.Bisimilar channel image) (time : Nat) :
    network.history units time channel = network.history units time image :=
  bisimulation_bisimilar.history_eq time bisimilar

/-- Channels of one kind with bisimilar operands are bisimilar. -/
theorem Bisimilar.of_operands (kind : network.kind channel = network.kind image)
    (operands : List.Forall₂ network.Bisimilar (network.operands channel)
      (network.operands image)) : network.Bisimilar channel image := by
  refine ⟨fun x y => network.Bisimilar x y ∨ x = channel ∧ y = image, ⟨?_, ?_⟩, .inr ⟨rfl, rfl⟩⟩
  · rintro x y (bisimilar | ⟨rfl, rfl⟩)
    · exact bisimulation_bisimilar.kind bisimilar
    · exact kind
  · rintro x y (bisimilar | ⟨rfl, rfl⟩)
    · exact (bisimulation_bisimilar.operands bisimilar).imp fun _ _ => .inl
    · exact operands.imp fun _ _ => .inl

/-- Channels may be used in place of bisimilar ones, which may then go. -/
theorem history_of_replaced {other : Network Channel Kind} {kept : Channel → Prop}
    {image : Channel → Channel} (bisimilar : ∀ channel, network.Bisimilar channel (image channel))
    (lands : ∀ channel, kept (image channel))
    (kind : ∀ channel, kept channel → other.kind channel = network.kind channel)
    (operands : ∀ channel, kept channel →
      other.operands channel = (network.operands channel).map image)
    (time : Nat) (isKept : kept channel) :
    other.history units time channel = network.history units time channel := by
  have bisimulation : network.Bisimulation other fun channel image =>
      network.Bisimilar channel image ∧ kept image := by
    refine ⟨fun ⟨relates, isKept⟩ => ?_, fun ⟨relates, isKept⟩ => ?_⟩
    · exact (bisimulation_bisimilar.kind relates).trans (kind _ isKept).symm
    · rw [operands _ isKept, List.forall₂_map_right_iff]
      exact (bisimulation_bisimilar.operands relates).imp fun _ _ relates =>
        ⟨relates.trans (bisimilar _), lands _⟩
  exact (bisimulation.history_eq time ⟨Bisimilar.refl channel, isKept⟩).symm

end Bisimulation

end Network

end Dynamatic.Kahn

/-!
## Replacing units of a Kahn network

A channel covers another one if it puts out all of its tokens, at some time. Two channels that
cover each other carry the same stream, whatever the delays. When a network differs from another
one in some units only, it is enough to compare these, on operands that cover each other.
-/

namespace Dynamatic.Kahn.Network

variable {Channel Other Kind Token : Type} (network : Network Channel Kind)
  (units : Interpretation Kind Token) (other : Network Other Kind)

/-- What a channel has put out by a time comes out of another one. -/
def CoveredAt (time : Nat) (channel : Channel) (image : Other) : Prop :=
  ∃ later, network.history units time channel <+: other.history units later image

/-- All that a channel puts out comes out of another one. -/
def Covered (channel : Channel) (image : Other) : Prop :=
  ∀ time, network.CoveredAt units other time channel image

/-- A channel puts out at least as many tokens as another one. -/
def NoLonger (channel than : Channel) : Prop :=
  ∀ time, ∃ later, (network.history units time channel).length ≤
    (network.history units later than).length

variable {network units other}

theorem Covered.carries {channel : Channel} {image : Other}
    (covered : network.Covered units other channel image) {position : Nat} {token : Token}
    (carries : network.Carries units channel position token) :
    other.Carries units image position token := by
  obtain ⟨time, held⟩ := carries
  obtain ⟨later, rest, extends_⟩ := covered time
  refine ⟨later, ?_⟩
  rw [← extends_, List.getElem?_append_left (List.getElem?_eq_some_iff.mp held).choose]
  exact held

theorem sameStream_of_covered {channel : Channel} {image : Other}
    (there : network.Covered units other channel image)
    (back : other.Covered units network image channel) :
    network.SameStream units other channel image :=
  fun _ _ => ⟨there.carries, back.carries⟩

/-- There is a time by which all of some channels are covered. -/
theorem exists_covered {time : Nat} {channels : List Channel} {images : List Other}
    (covered : List.Forall₂ (network.CoveredAt units other time) channels images) :
    ∃ later, List.Forall₂ (fun operand extended => operand <+: extended)
      (channels.map (network.history units time)) (images.map (other.history units later)) := by
  induction covered with
  | nil => exact ⟨0, .nil⟩
  | @cons channel image channels images first _ inductionHypothesis =>
      obtain ⟨firstLater, firstCovered⟩ := first
      obtain ⟨later, restCovered⟩ := inductionHypothesis
      refine ⟨max firstLater later, .cons (firstCovered.trans (history_grows (Nat.le_max_left _ _))) ?_⟩
      rw [List.forall₂_map_left_iff, List.forall₂_map_right_iff] at restCovered ⊢
      exact restCovered.imp fun _ _ isPrefix => isPrefix.trans (history_grows (Nat.le_max_right _ _))

/-- A unit of the same kind on covered operands covers. -/
theorem coveredAt_succ {time : Nat} {channel : Channel} {image : Other}
    (kind : network.kind channel = other.kind image)
    (covered : List.Forall₂ (network.CoveredAt units other time) (network.operands channel)
      (other.operands image)) : network.CoveredAt units other (time + 1) channel image := by
  obtain ⟨later, grows⟩ := exists_covered covered
  refine ⟨max time later + 1, ?_⟩
  rw [history_succ, history_succ, kind]
  refine units.monotone (Nat.le_max_left _ _) ?_
  rw [List.forall₂_map_left_iff, List.forall₂_map_right_iff] at grows ⊢
  exact grows.imp fun _ _ isPrefix => isPrefix.trans (history_grows (Nat.le_max_right _ _))

section Replacing

variable {live special : Channel → Prop} {image : Channel → Other}

variable (network other live special image) in
/-- Outside some special channels, a network has the units of another one, on the images of the
operands. -/
structure Regular : Prop where
  kind : ∀ {channel}, live channel → ¬ special channel →
    network.kind channel = other.kind (image channel)
  operands : ∀ {channel}, live channel → ¬ special channel →
    other.operands (image channel) = (network.operands channel).map image
  live : ∀ {channel operand}, live channel → ¬ special channel →
    operand ∈ network.operands channel → live operand

/-- The images of the live channels cover them if those of the special ones do. -/
theorem Regular.covered (regular : network.Regular other live special image)
    (specials : ∀ time, (∀ channel, live channel →
        network.CoveredAt units other time channel (image channel)) →
      ∀ channel, live channel → special channel →
        network.CoveredAt units other (time + 1) channel (image channel))
    {channel : Channel} (isLive : live channel) :
    network.Covered units other channel (image channel) := by
  intro time
  induction time generalizing channel with
  | zero => exact ⟨0, List.nil_prefix⟩
  | succ time inductionHypothesis =>
      by_cases isSpecial : special channel
      · exact specials time (fun _ => inductionHypothesis) channel isLive isSpecial
      · refine coveredAt_succ (regular.kind isLive isSpecial) ?_
        rw [regular.operands isLive isSpecial, List.forall₂_map_right_iff, List.forall₂_same]
        exact fun operand mem => inductionHypothesis (regular.live isLive isSpecial mem)

/-- The live channels cover their images if the special ones do, each after the others. -/
theorem Regular.coveredBack (regular : network.Regular other live special image)
    (specials : ∀ time, (∀ channel, live channel →
        other.CoveredAt units network time (image channel) channel) →
      (∀ channel, live channel → ¬ special channel →
        other.CoveredAt units network (time + 1) (image channel) channel) →
      ∀ channel, live channel → special channel →
        other.CoveredAt units network (time + 1) (image channel) channel)
    {channel : Channel} (isLive : live channel) :
    other.Covered units network (image channel) channel := by
  intro time
  induction time generalizing channel with
  | zero => exact ⟨0, List.nil_prefix⟩
  | succ time inductionHypothesis =>
      have others : ∀ channel, live channel → ¬ special channel →
          other.CoveredAt units network (time + 1) (image channel) channel := by
        intro channel isLive isRegular
        refine coveredAt_succ (regular.kind isLive isRegular).symm ?_
        rw [regular.operands isLive isRegular, List.forall₂_map_left_iff, List.forall₂_same]
        exact fun operand mem => inductionHypothesis (regular.live isLive isRegular mem)
      by_cases isSpecial : special channel
      · exact specials time (fun _ => inductionHypothesis) others channel isLive isSpecial
      · exact others channel isLive isSpecial

end Replacing

end Dynamatic.Kahn.Network
