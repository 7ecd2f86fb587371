import Mathlib
import ThresholdKeys.Proofs.Keygen.Dispatch
import ThresholdKeys.Proofs.Reshare.Correctness
import ThresholdKeys.Proofs.Reshare.Dispatch

/-!
# Dealers of both protocols

Whatever a party receives, a share of its dealing leaves it once, and only towards its owner.
-/

namespace ThresholdKeys

/-- Every participant of key generation and every old member in resharing has one dealing, which
the random words determine, and has sent the beginning of what there is to send of it, whatever it
has received. The acknowledgement of an old member that stays is sent before its shares, under the
name that it has on the new committee. -/
theorem dispatches_of_newParty :
    (∀ {ids : List PartyId} {curve : CurveParams} {parties : Committee} {id : PartyId}
      {threshold : ℕ} {version : Version} {params : Keygen.Parameters} {source : Source}
      {p : Party Keygen.State Keygen.Payload KeyShare},
      Committee.ofList ids = .ok parties →
      Keygen.Parameters.make curve parties id threshold version = .ok params →
      Keygen.newParty params source = .ok p → ∀ calls : List (Call Keygen.Payload), ∃ proof,
        (params.dealer source).Dispatches (Keygen.wording proof) params.id parties []
          (p.run calls).outbox.sent) ∧
    ∀ {oldIds newIds : List PartyId} {curve : CurveParams} {old new : Committee} {id : PartyId}
      {oldThreshold newThreshold : ℕ} {version : Version} {params : Reshare.Parameters}
      {input : Reshare.Input} {source : Source}
      {p : Party Reshare.State Reshare.Payload Reshare.Outcome},
      Committee.ofList oldIds = .ok old → Committee.ofList newIds = .ok new →
      Reshare.Parameters.make curve old new id oldThreshold newThreshold version = .ok params →
      params.isOld = true → Reshare.newParty params input source = .ok p →
      ∃ secret, input.secret = some secret ∧ ∀ calls : List (Call Reshare.Payload),
        (params.dealer secret source).Dispatches Reshare.wording params.id new
          (Reshare.acks (new.find? id)) (p.run calls).outbox.sent := by
  constructor
  · intro ids curve parties id threshold version params source p hids hmake hp calls
    have hproper := Committee.proper_of_ofList hids
    obtain ⟨rfl, hid, hi⟩ := Keygen.own_of_make hproper hmake
    exact Keygen.dispatches_of_run hproper hid hi hp calls
  · intro oldIds newIds curve old new id oldThreshold newThreshold version params input source p
      holdIds hnewIds hmake hisOld hp
    obtain ⟨i, hparams⟩ := Reshare.ofOld_of_make (Committee.proper_of_ofList holdIds)
      (Committee.proper_of_ofList hnewIds) hmake hisOld
    obtain ⟨-, rfl, hnewId⟩ := Reshare.committees_of_make hmake
    obtain ⟨secret, hsecret⟩ := Reshare.exists_secret hparams (Reshare.check_of_newParty hp)
    refine ⟨secret, hsecret, fun calls => ?_⟩
    rw [← hnewId]
    exact Reshare.dispatches_of_run hparams hp hsecret calls

theorem dispatches_of_newParty_pair :
    (∃ proof, ((Keygen.Setup.pair.params 0).dealer .ones).Dispatches (Keygen.wording proof)
      (Keygen.Setup.pair.params 0).id Keygen.Setup.pair.parties []
        ((Keygen.Setup.pair.party 0).run (Keygen.Setup.pair.calls 0)).outbox.sent) ∧
    ∃ secret, ((Reshare.Setup.pair.params (Reshare.firstPair.member 1)).dealer secret
      .ones).Dispatches Reshare.wording (Reshare.firstPair.member 1) Reshare.secondPair
        [.broadcast (Reshare.secondPair.member 0) .old .ack]
        ((Reshare.Setup.pair.party (Reshare.firstPair.member 1)).run
          (Reshare.Setup.pair.calls (Reshare.firstPair.member 1))).outbox.sent := by
  constructor
  · have hvalid := Keygen.Setup.valid_pair
    exact dispatches_of_newParty.1 Keygen.Setup.ofList_pair (hvalid.make_eq (i := 0) (by decide))
      (hvalid.newParty_eq 0) _
  · have hvalid := Reshare.Setup.valid_pair
    have hmember : Reshare.firstPair.member 1 ∈
        Reshare.participants Reshare.Setup.pair.old Reshare.Setup.pair.new := by decide
    obtain ⟨secret, -, hdispatches⟩ := dispatches_of_newParty.2 Reshare.ofList_firstPair
      Reshare.ofList_secondPair (hvalid.make_eq hmember) (by decide) (hvalid.newParty_eq _)
    exact ⟨secret, hdispatches _⟩

end ThresholdKeys
