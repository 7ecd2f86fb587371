import Mathlib
import ThresholdKeys.Proofs.Keygen.Setup
import ThresholdKeys.Proofs.Reshare.Soundness
import ThresholdKeys.Proofs.Wire.Values

/-!
# Messages that come as bytes

Both protocols take up a message by its sender, its content and the way it came. So a message that
comes as bytes does to a party exactly what the message does.
-/

namespace ThresholdKeys

theorem Keygen.ignoresAddress_protocol : Keygen.protocol.IgnoresAddress := fun _ _ _ _ => rfl

theorem Reshare.ignoresAddress_protocol : Reshare.protocol.IgnoresAddress := fun _ _ _ _ => rfl

/-- Every message of key generation and of resharing whose lengths and thresholds are machine words
comes back from its bytes with its scope and its content, whatever follows, and at every moment of a
run its bytes have the same answer and the same effects on the party as the message. -/
theorem update_over_wire :
    (∀ m : Message Keygen.Payload, m.content.Fits → m.SurvivesWire ∧
      ∀ {params : Keygen.Parameters} {source : Source}
        {p : Party Keygen.State Keygen.Payload KeyShare},
        Keygen.newParty params source = .ok p →
          ∀ (calls : List (Call Keygen.Payload)) (suffix : Bytes),
            (p.run calls).updateFromBytes (m.toWire ++ suffix) m.sender m.isBroadcast =
              (p.run calls).update m) ∧
    ∀ m : Message Reshare.Payload, m.content.Fits → m.SurvivesWire ∧
      ∀ {params : Reshare.Parameters} {input : Reshare.Input} {source : Source}
        {p : Party Reshare.State Reshare.Payload Reshare.Outcome},
        Reshare.newParty params input source = .ok p →
          ∀ (calls : List (Call Reshare.Payload)) (suffix : Bytes),
            (p.run calls).updateFromBytes (m.toWire ++ suffix) m.sender m.isBroadcast =
              (p.run calls).update m := by
  constructor
  · intro m hfits
    have hm : m.SurvivesWire := Message.survivesWire (Keygen.Payload.restores hfits)
    refine ⟨hm, fun {params source p} hp calls suffix => ?_⟩
    have hignores := Keygen.ignoresAddress_protocol
    rw [← Keygen.protocol_of_run hp calls] at hignores
    exact Party.updateFromBytes_toWire hignores hm suffix
  · intro m hfits
    have hm : m.SurvivesWire := Message.survivesWire (Reshare.Payload.restores hfits)
    refine ⟨hm, fun {params input source p} hp calls suffix => ?_⟩
    have hignores := Reshare.ignoresAddress_protocol
    rw [← Reshare.protocol_of_run hp calls] at hignores
    exact Party.updateFromBytes_toWire hignores hm suffix

theorem update_over_wire_pair :
    (let m : Message Keygen.Payload :=
      .broadcast (Keygen.Setup.pair.parties.member 1) .both (.reveal ⟨[0, 2 ^ 40]⟩ ⟨0, 5⟩)
    m.content.Fits ∧ m.SurvivesWire ∧
      ((Keygen.Setup.pair.party 0).run [.start]).updateFromBytes (m.toWire ++ [7]) m.sender true =
        ((Keygen.Setup.pair.party 0).run [.start]).update m) ∧
    let m : Message Reshare.Payload :=
      .direct (Reshare.firstPair.member 0) (Reshare.firstPair.member 1) .old (.share ⟨2 ^ 60, 0, 5⟩)
    m.content.Fits ∧ m.SurvivesWire ∧
      ((Reshare.Setup.pair.party (Reshare.firstPair.member 1)).run [.start]).updateFromBytes
          (m.toWire ++ [7]) m.sender false =
        ((Reshare.Setup.pair.party (Reshare.firstPair.member 1)).run [.start]).update m := by
  constructor
  · have hfits : (Keygen.Payload.reveal ⟨[0, 2 ^ 40]⟩ ⟨0, 5⟩).Fits := ⟨by decide, by decide⟩
    obtain ⟨hwire, hupdate⟩ := update_over_wire.1
      (.broadcast (Keygen.Setup.pair.parties.member 1) .both (.reveal ⟨[0, 2 ^ 40]⟩ ⟨0, 5⟩)) hfits
    exact ⟨hfits, hwire, hupdate (Keygen.Setup.valid_pair.newParty_eq 0) [.start] [7]⟩
  · have hfits : (Reshare.Payload.share ⟨2 ^ 60, 0, 5⟩).Fits := by
      rw [Reshare.Payload.Fits]
      norm_num
    obtain ⟨hwire, hupdate⟩ := update_over_wire.2 (.direct (Reshare.firstPair.member 0)
      (Reshare.firstPair.member 1) .old (.share ⟨2 ^ 60, 0, 5⟩)) hfits
    exact ⟨hfits, hwire, hupdate (Reshare.Setup.valid_pair.newParty_eq _) [.start] [7]⟩

end ThresholdKeys
