import Mathlib
import ThresholdKeys.Proofs.Engine.Outcome

/-!
# Whom a message is addressed to

A protocol that takes up messages by their sender, their content and the way they came does not care
whom they are addressed to. Then no party does, and as that is all of a message that the bytes do not
carry or the receiver fills in, a message that comes as bytes is as good as the message itself.
-/

namespace ThresholdKeys

variable {σ C O : Type}

/-- Recipients and committee have no influence on what becomes of a message. -/
def Protocol.IgnoresAddress (protocol : Protocol σ C O) : Prop :=
  ∀ (s : σ) (m : Message C) (recipients : Option (List PartyId)) (scope : Scope),
    protocol.store s { m with recipients, scope } = protocol.store s m

theorem Party.store_readdressed {p : Party σ C O} (h : p.protocol.IgnoresAddress) (m : Message C)
    (recipients : Option (List PartyId)) (scope : Scope) :
    p.store { m with recipients, scope } = p.store m := by
  unfold store
  simp only [h p.state m recipients scope]

variable [Content C]

/-- The message is read off the front of its bytes, whatever follows it and whatever the transport
says about who sent it, to whom and how. -/
def Message.SurvivesWire (m : Message C) : Prop :=
  ∀ (suffix : Bytes) (sender : PartyId) (recipients : Option (List PartyId)) (isBroadcast : Bool),
    ofWire (m.toWire ++ suffix) sender recipients isBroadcast =
      .ok ⟨sender, recipients, isBroadcast, m.scope, m.content⟩

namespace Party

variable {p : Party σ C O} (h : p.protocol.IgnoresAddress)

include h

theorem update_readdressed (m : Message C) (recipients : Option (List PartyId)) (scope : Scope) :
    p.update { m with recipients, scope } = p.update m := by
  unfold update
  rw [store_readdressed h m recipients scope]
  rfl

theorem updateFromBytes_toWire {m : Message C} (hm : m.SurvivesWire) (suffix : Bytes) :
    p.updateFromBytes (m.toWire ++ suffix) m.sender m.isBroadcast = p.update m := by
  rw [updateFromBytes_eq_update (hm suffix m.sender _ m.isBroadcast)]
  exact update_readdressed h m _ m.scope

end Party

end ThresholdKeys
