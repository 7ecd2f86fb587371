import Mathlib
import ThresholdKeys.Proofs.Keygen.Order
import ThresholdKeys.Proofs.Keygen.Setup
import ThresholdKeys.Proofs.Reshare.Order

/-!
# Which messages are kept

The slots of both protocols keep the first message that comes the right way, in every state and
whatever else comes. What the right way is for a slot is what the round asks for that waits for it.
-/

namespace ThresholdKeys

namespace Keygen

theorem isAdmittedIn_eq_true_iff {n : ℕ} {m : Message Payload} :
    Payload.isAdmittedIn n m = true ↔ n = m.round ∧ intake.WellRouted m := by
  rw [Payload.isAdmittedIn, Bool.and_eq_true, decide_eq_true_eq, beq_iff_eq, eq_comm (b := n)]
  rfl

theorem sorts : intake.Sorts where
  exists_shelf c := by
    cases c <;> simp [intake, Content.kind, Payload.kind, commitShelf, shareShelf, revealShelf]
  isSome_item?_iff shelf hshelf c := by
    rcases mem_shelves_iff.1 hshelf with rfl | rfl | rfl <;> cases c <;>
      simp [Content.kind, Payload.kind, commitShelf, shareShelf, revealShelf]
  byBroadcast_eq shelf hshelf c hkind := by
    rcases mem_shelves_iff.1 hshelf with rfl | rfl | rfl <;> cases c <;>
      first
        | rfl
        | simp [Content.kind, Payload.kind, commitShelf, shareShelf, revealShelf] at hkind

theorem admittedBy_rounds (params : Parameters) : intake.AdmittedBy (rounds params) where
  exists_round m := by
    unfold Message.round
    cases m.content with
    | commit c => exact ⟨commitRound params, by simp [rounds], rfl⟩
    | share x | reveal o p => exact ⟨revealRound params, by simp [rounds], rfl⟩
  accepts_iff round hround m := by
    rcases mem_rounds_iff.1 hround with rfl | rfl | rfl <;> exact isAdmittedIn_eq_true_iff

end Keygen

namespace Reshare

theorem isAdmittedIn_eq_true_iff {n : ℕ} {m : Message Payload} :
    Payload.isAdmittedIn n m = true ↔ n = m.round ∧ intake.WellRouted m := by
  rw [Payload.isAdmittedIn, Bool.and_eq_true, decide_eq_true_eq, beq_iff_eq, eq_comm (b := n)]
  rfl

theorem sorts : intake.Sorts where
  exists_shelf c := by
    cases c <;> simp [intake, Content.kind, Payload.kind, commitShelf, ackShelf, shareShelf, revealShelf]
  isSome_item?_iff shelf hshelf c := by
    rcases mem_shelves_iff.1 hshelf with rfl | rfl | rfl | rfl <;> cases c <;>
      simp [Content.kind, Payload.kind, commitShelf, ackShelf, shareShelf, revealShelf]
  byBroadcast_eq shelf hshelf c hkind := by
    rcases mem_shelves_iff.1 hshelf with rfl | rfl | rfl | rfl <;> cases c <;>
      first
        | rfl
        | simp [Content.kind, Payload.kind, commitShelf, ackShelf, shareShelf, revealShelf] at hkind

theorem admittedBy_rounds (params : Parameters) : intake.AdmittedBy (rounds params) where
  exists_round m := by
    unfold Message.round
    cases m.content with
    | commit c => exact ⟨commitRound params, by simp [rounds], rfl⟩
    | ack => exact ⟨ackRound params, by simp [rounds], rfl⟩
    | share x | reveal o => exact ⟨revealRound params, by simp [rounds], rfl⟩
  accepts_iff round hround m := by
    rcases mem_rounds_iff.1 hround with rfl | rfl | rfl | rfl <;> exact isAdmittedIn_eq_true_iff

end Reshare

/-- Whatever messages are stored, in whatever state, every slot of either protocol keeps the first
that comes the right way from the member at its place. -/
theorem keepsFirst_of_state :
    (∀ s : Keygen.State,
      Keygen.intake.KeepsFirst Keygen.protocol (Keygen.rounds s.params) s) ∧
    ∀ s : Reshare.State,
      Reshare.intake.KeepsFirst Reshare.protocol (Reshare.rounds s.params) s :=
  ⟨fun s => Keygen.stores.keepsFirst Keygen.fills Keygen.sorts (Keygen.admittedBy_rounds s.params) s,
    fun s => Reshare.stores.keepsFirst Reshare.fills Reshare.sorts
      (Reshare.admittedBy_rounds s.params) s⟩

def Keygen.Setup.rivalShares : List (Message Keygen.Payload) :=
  [.broadcast (pair.parties.member 1) .new (.share ⟨1, 1, 0⟩),
    .direct (pair.parties.member 1) (pair.parties.member 0) .new (.share ⟨1, 1, 1⟩),
    .direct (pair.parties.member 1) (pair.parties.member 0) .new (.share ⟨1, 1, 0⟩)]

theorem keepsFirst_of_state_pair :
    (Keygen.protocol.takeAll (Keygen.Setup.pair.initial 0) Keygen.Setup.rivalShares).shares[1]? =
      some (some ⟨⟨1, 1, 1⟩, false⟩) := by
  have hsettled := (keepsFirst_of_state.1 (Keygen.Setup.pair.initial 0)).settled
    Keygen.shareShelf (Keygen.mem_shelves_iff.2 (.inr (.inl rfl))) Keygen.Setup.rivalShares 1
  exact hsettled.trans rfl

end ThresholdKeys
