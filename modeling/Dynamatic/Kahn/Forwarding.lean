import Dynamatic.Kahn.Network

/-!
# Channels that pass tokens on

A channel that carries what another one carried can stand between a unit and an operand:
the tokens arrive later, and every stream is the same.
-/

namespace Dynamatic.Kahn.Network

variable {Channel Other Kind Token : Type} {network : Network Channel Kind}
  {other : Network Other Kind} {units : Interpretation Kind Token}

variable (other units) in
/-- The unit of a channel puts on it what it takes from its only operand. -/
structure Forwards (channel source : Other) : Prop where
  operands : other.operands channel = [source]
  output : ∀ time tokens, units.output (other.kind channel) time [tokens] = tokens

section Forwards

variable {channel source : Other} (forwards : other.Forwards units channel source)
include forwards

theorem Forwards.history_succ (time : Nat) :
    other.history units (time + 1) channel = other.history units time source := by
  rw [Network.history_succ, forwards.operands]
  exact forwards.output time _

theorem Forwards.sameStream : other.SameStream units other channel source := by
  refine fun position token => ⟨?_, ?_⟩
  · rintro ⟨time, held⟩
    cases time with
    | zero => cases held
    | succ time => exact ⟨time, forwards.history_succ time ▸ held⟩
  · rintro ⟨time, held⟩
    exact ⟨time + 1, (forwards.history_succ time).symm ▸ held⟩

end Forwards

variable (network other units) in
/-- The images of some channels have the same units, whose operands are the images of the
operands or forward them. -/
structure Relayed (within : Channel → Prop) (image : Channel → Other) : Prop where
  kind : ∀ channel, within channel → other.kind (image channel) = network.kind channel
  operands : ∀ channel, within channel →
    List.Forall₂
      (fun operand source => within source ∧
        (operand = image source ∨ other.Forwards units operand (image source)))
      (other.operands (image channel)) (network.operands channel)

namespace Relayed

variable {within : Channel → Prop} {image : Channel → Other} {channel : Channel}

/-- The image lags behind the channel, -/
theorem history_prefix (relayed : network.Relayed other units within image)
    (isWithin : within channel) (time : Nat) :
    other.history units time (image channel) <+: network.history units time channel := by
  induction time generalizing channel with
  | zero => exact List.nil_prefix
  | succ time inductionHypothesis =>
      rw [Network.history_succ, Network.history_succ, relayed.kind channel isWithin]
      refine units.monotone (Nat.le_refl time) ?_
      rw [List.forall₂_map_left_iff, List.forall₂_map_right_iff]
      refine (relayed.operands channel isWithin).imp ?_
      rintro operand source ⟨sourceWithin, rfl | forwards⟩
      · exact inductionHypothesis sourceWithin
      · refine List.IsPrefix.trans ?_ (inductionHypothesis sourceWithin)
        cases time with
        | zero => exact List.nil_prefix
        | succ time =>
            rw [forwards.history_succ]
            exact history_grows_succ time _

/-- and catches up in twice the time. -/
theorem prefix_history (relayed : network.Relayed other units within image)
    (isWithin : within channel) (time : Nat) :
    network.history units time channel <+: other.history units (2 * time) (image channel) := by
  induction time generalizing channel with
  | zero => exact List.nil_prefix
  | succ time inductionHypothesis =>
      rw [Nat.mul_succ, Network.history_succ, Network.history_succ, relayed.kind channel isWithin]
      refine units.monotone (by omega) ?_
      rw [List.forall₂_map_left_iff, List.forall₂_map_right_iff]
      refine (relayed.operands channel isWithin).flip.imp ?_
      rintro source operand ⟨sourceWithin, rfl | forwards⟩
      · exact (inductionHypothesis sourceWithin).trans (history_grows_succ _ _)
      · rw [forwards.history_succ]
        exact inductionHypothesis sourceWithin

theorem sameStream (relayed : network.Relayed other units within image)
    (isWithin : within channel) : other.SameStream units network (image channel) channel := by
  have reads : ∀ {tokens more : List Token} {position : Nat} {token : Token}, tokens <+: more →
      tokens[position]? = some token → more[position]? = some token := by
    rintro tokens _ position token ⟨rest, rfl⟩ held
    rwa [List.getElem?_append_left (List.getElem?_eq_some_iff.mp held).choose]
  refine fun position token => ⟨?_, ?_⟩
  · rintro ⟨time, held⟩
    exact ⟨time, reads (relayed.history_prefix isWithin time) held⟩
  · rintro ⟨time, held⟩
    exact ⟨2 * time, reads (relayed.prefix_history isWithin time) held⟩

end Relayed

end Dynamatic.Kahn.Network
