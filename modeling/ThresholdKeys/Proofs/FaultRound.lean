import Mathlib
import ThresholdKeys.Proofs.Arrival
import ThresholdKeys.Proofs.Calls
import ThresholdKeys.Proofs.Engine.FaultRound

/-!
# Rounds in the faults of the protocols

Only the last round of either protocol raises faults, and they name it. The protocols charge an
outsider with the round that its message speaks of, be it the running one or not.
-/

namespace ThresholdKeys

open Result (FaultsIn faultsIn_ok faultsIn_mapM)

/-! ## What raises no faults -/

section Parts

variable (n : ℕ)

theorem faultsIn_checkEvaluators (earlier xs : List Scalar) :
    FaultsIn n (checkEvaluators earlier xs) := by
  induction xs generalizing earlier with
  | nil => exact faultsIn_ok n ()
  | cons x rest ih =>
      unfold checkEvaluators
      split_ifs
      · rintro _ ⟨⟩
      · rintro _ ⟨⟩
      · exact ih _

theorem faultsIn_lagrangeCoefficient (ks : List Scalar) (i : ℕ) :
    FaultsIn n (lagrangeCoefficient ks i) := by
  unfold lagrangeCoefficient
  split
  · rintro _ ⟨⟩
  · dsimp only
    split_ifs <;> rintro _ ⟨⟩

theorem faultsIn_create (source : Source) (threshold : ℕ) (secret : Scalar) (ids : List Scalar) :
    FaultsIn n (Dealing.create source threshold secret ids) := by
  unfold Dealing.create
  split_ifs
  · rintro _ ⟨⟩
  · exact (faultsIn_checkEvaluators n [] ids).bind fun _ => faultsIn_ok n _

theorem faultsIn_flatten (points : List Point) : FaultsIn n (Point.flatten points) := by
  induction points with
  | nil => exact faultsIn_ok n []
  | cons p rest ih =>
      unfold Point.flatten
      split
      · rintro _ ⟨⟩
      · exact ih.map _

theorem faultsIn_commit (d : Dealing) (source : Source) : FaultsIn n (d.commit source) :=
  (faultsIn_flatten n d.commitments).bind fun _ => faultsIn_ok n _

theorem faultsIn_prove (s : Schnorr.Statement) (witness : Scalar) (t : Transcript)
    (source : Source) : FaultsIn n (Schnorr.prove s witness t source) := by
  intro f h
  cases Schnorr.prove_eq_error h

theorem faultsIn_make (threshold : ℕ) (parties : Committee) (index : ℕ) (secret : Scalar)
    (publicShares : List Point) (publicKey : Point) :
    FaultsIn n (KeyShare.make threshold parties index secret publicShares publicKey) := by
  unfold KeyShare.make
  split_ifs <;> rintro _ ⟨⟩

end Parts

/-! ## Key generation -/

namespace Keygen

variable {params : Parameters} {s : State} {m : Message Payload}

theorem faultsIn_enterCommit (n : ℕ) (s : State) : FaultsIn n (enterCommit s) := by
  simp only [enterCommit]
  exact (faultsIn_create n _ _ _ _).bind fun _ => (faultsIn_commit n _ _).bind fun _ =>
    faultsIn_ok n _

theorem faultsIn_shareMessages (n : ℕ) (s : State) (d : Dealing) :
    FaultsIn n (shareMessages s d) := by
  refine faultsIn_mapM (fun p => ?_) _
  split <;> rintro _ ⟨⟩

theorem faultsIn_sessionOf (n : ℕ) (s : State) : FaultsIn n (sessionOf s) := by
  refine Result.FaultsIn.bind (faultsIn_mapM (fun j => ?_) _) fun _ => faultsIn_ok n _
  split <;> rintro _ ⟨⟩

theorem faultsIn_enterReveal (n : ℕ) (s : State) : FaultsIn n (enterReveal s) := by
  refine (faultsIn_sessionOf n s).bind fun session => ?_
  split
  · rintro _ ⟨⟩
  · split
    · exact (faultsIn_prove n _ _ _ _).bind fun _ =>
        (faultsIn_shareMessages n s _).bind fun _ => faultsIn_ok n _
    · rintro _ ⟨⟩

theorem faultsIn_enterVerify (s : State) : FaultsIn 3 (enterVerify s) := by
  unfold enterVerify
  dsimp only
  split
  · refine Result.FaultsIn.bind (faultsIn_mapM (fun j => ?_) _) fun contributions => ?_
    · unfold contribution
      split <;> rintro _ ⟨⟩
    · split_ifs
      · rintro f ⟨⟩
        rfl
      · exact Result.FaultsIn.bind (fun f hf => absurd hf (assemble_ne_fault _ _ f)) fun _ =>
          faultsIn_ok 3 _
  · rintro _ ⟨⟩

theorem faultsIn_enter {round : Round State Payload KeyShare} (hround : round ∈ rounds params)
    (s : State) : FaultsIn round.number (round.enter s) := by
  rcases mem_rounds_iff.1 hround with rfl | rfl | rfl
  · exact faultsIn_enterCommit 1 s
  · exact faultsIn_enterReveal 2 s
  · exact faultsIn_enterVerify s

theorem namesOutsider {p : Party State Payload KeyShare} (hprotocol : p.protocol = protocol)
    (hseat : p.state.params.parties.seat? m.sender = none) :
    Party.NamesOutsider .senderNotParticipant p m
      ⟨task, m.round, [m.sender], .senderNotParticipant⟩ :=
  ⟨hprotocol ▸ store_of_seat?_eq_none hseat, rfl, rfl, rfl⟩

end Keygen

/-! ## Resharing -/

namespace Reshare

variable {params : Parameters} {s : State} {m : Message Payload}

theorem faultsIn_enterCommit (n : ℕ) (s : State) : FaultsIn n (enterCommit s) := by
  unfold enterCommit
  split
  · rintro _ ⟨⟩
  · split
    · rintro _ ⟨⟩
    · exact (faultsIn_lagrangeCoefficient n _ _).bind fun _ =>
        (faultsIn_create n _ _ _ _).bind fun _ => (faultsIn_commit n _ _).bind fun _ =>
          faultsIn_ok n _

theorem faultsIn_enterAck (n : ℕ) (s : State) : FaultsIn n (enterAck s) := by
  unfold enterAck
  split <;> rintro _ ⟨⟩

theorem faultsIn_dealtShares (n : ℕ) (s : State) (d : Dealing) : FaultsIn n (dealtShares s d) := by
  refine faultsIn_mapM (fun (p, j) => ?_) _
  dsimp only
  split <;> rintro _ ⟨⟩

theorem faultsIn_enterReveal (n : ℕ) (s : State) : FaultsIn n (enterReveal s) := by
  unfold enterReveal
  split
  · rintro _ ⟨⟩
  · split
    · rintro _ ⟨⟩
    · exact (faultsIn_dealtShares n s _).bind fun _ => faultsIn_ok n _

theorem faultsIn_conclude (s : State) : FaultsIn 4 (conclude s) := by
  unfold conclude
  split
  · rintro _ ⟨⟩
  · split
    · rintro _ ⟨⟩
    · refine Result.FaultsIn.bind (faultsIn_mapM (fun j => ?_) _) fun deals => ?_
      · unfold deal
        split
        · exact (faultsIn_lagrangeCoefficient 4 _ _).map _
        · rintro _ ⟨⟩
      · dsimp only
        split_ifs
        · rintro f ⟨⟩
          rfl
        · unfold assemble
          dsimp only
          split
          · rintro _ ⟨⟩
          · split_ifs
            · rintro _ ⟨⟩
            · exact faultsIn_make 4 _ _ _ _ _ _

theorem faultsIn_enter {round : Round State Payload Outcome} (hround : round ∈ rounds params)
    (s : State) : FaultsIn round.number (round.enter s) := by
  rcases mem_rounds_iff.1 hround with rfl | rfl | rfl | rfl
  · exact faultsIn_enterCommit 1 s
  · exact faultsIn_enterAck 2 s
  · exact faultsIn_enterReveal 3 s
  · change FaultsIn 4 (enterConclude s)
    unfold enterConclude
    split
    · exact (faultsIn_conclude s).map _
    · rintro _ ⟨⟩

theorem namesOutsider {p : Party State Payload Outcome} (hprotocol : p.protocol = protocol)
    (hfor : m.content.isFor p.state.params = true)
    (hseat : (m.content.senders p.state.params).seat? m.sender = none) :
    Party.NamesOutsider .senderNotOnCommittee p m
      ⟨task, m.round, [m.sender], .senderNotOnCommittee⟩ :=
  ⟨hprotocol ▸ store_of_seat?_eq_none hfor hseat, rfl, rfl, rfl⟩

end Reshare

/-! ## Faults over messages -/

/-- Somebody who claims a seat that is taken. -/
def stranger : PartyId := ⟨"x", "X", 7, some 1⟩

namespace Keygen.Setup

def strayShare : Message Payload := .direct stranger (pair.parties.member 0) .new (.share ⟨1, 1, 5⟩)

theorem roundNumber_pair : ((pair.party 0).run [.start]).roundNumber = .ok 1 := by
  obtain ⟨k, hk, hrests⟩ := (valid_pair.lawful_role
    (show 0 < pair.parties.size by decide)).run_of_needs List.nodup_nil nofun
  exact hrests.roundNumber_eq hk (l := 0) rfl nofun fun hneeds => List.not_mem_nil
    (hneeds (mem_needs_zero_iff.2 ⟨1, by decide, by decide, rfl⟩))

theorem validate_strayShare : ((pair.party 0).run [.start]).validate strayShare = .ok () :=
  (Party.validate_eq_ok_congr (Party.frame_of_moves ((pair.party 0).moves_run [.start])) _).2
    (by decide)

theorem namesOutsider_strayShare : Party.NamesOutsider .senderNotParticipant
    ((pair.party 0).run [.start]) strayShare ⟨task, 2, [stranger], .senderNotParticipant⟩ := by
  obtain ⟨_, -, hfollows⟩ :=
    (follows_newParty (valid_pair.newParty_eq 0)).run (keeps _) [.start]
  refine Keygen.namesOutsider hfollows.protocol ?_
  rw [hfollows.inv.prepared.params_eq]
  decide

end Keygen.Setup

namespace Reshare.Setup

def strayShare : Message Payload :=
  .direct stranger (secondPair.member 1) .new (.share ⟨1, 1, 5⟩)

theorem roundNumber_pair :
    ((pair.party (firstPair.member 1)).run [.start]).roundNumber = .ok 1 := by
  have hmember : firstPair.member 1 ∈ participants pair.old pair.new := by decide
  obtain ⟨k, hk, hrests⟩ := (valid_pair.lawful_role hmember).run_of_needs List.nodup_nil nofun
  exact hrests.roundNumber_eq hk (l := 0) rfl nofun fun hneeds => List.not_mem_nil
    (hneeds (mem_needs_zero_iff.2 ⟨0, by decide, 0, by decide, by decide, rfl⟩))

theorem validate_strayShare :
    ((pair.party (firstPair.member 1)).run [.start]).validate strayShare = .ok () :=
  (Party.validate_eq_ok_congr
    (Party.frame_of_moves ((pair.party (firstPair.member 1)).moves_run [.start])) _).2 (by decide)

theorem namesOutsider_strayShare : Party.NamesOutsider .senderNotOnCommittee
    ((pair.party (firstPair.member 1)).run [.start]) strayShare
      ⟨task, 3, [stranger], .senderNotOnCommittee⟩ := by
  have hmember : firstPair.member 1 ∈ participants pair.old pair.new := by decide
  have hindex (j : ℕ) :=
    newIndex?_lt_of_make (j := j) valid_pair.new_proper (valid_pair.make_eq hmember)
  obtain ⟨_, -, hfollows⟩ :=
    (follows_newParty (valid_pair.newParty_eq _)).run (keeps hindex _) [.start]
  refine Reshare.namesOutsider hfollows.protocol ?_ ?_ <;> rw [hfollows.inv.prepared.params_eq] <;>
    decide

end Reshare.Setup

theorem Party.phase_of_roundNumber {σ C O : Type} {p : Party σ C O} {number : ℕ}
    (h : p.roundNumber = .ok number) : p.phase = .active := by
  obtain ⟨_, _, _, hs, -⟩ := Party.roundNumber_eq_ok_iff.1 h
  rw [Party.phase, hs]
  rfl

/-- Whatever fault a running party of key generation or of resharing raises over a message, it names
the running round or the one that the party tries to enter, except where the sender is no
participant, or not on the committee that it speaks for, and its message is of another round. -/
theorem fault_of_update {source : Source} {f : Fault} :
    (∀ {params : Keygen.Parameters} {p : Party Keygen.State Keygen.Payload KeyShare},
      Keygen.newParty params source = .ok p → ∀ (calls : List (Call Keygen.Payload)) m,
        (p.run calls).phase = .active → ((p.run calls).update m).1 = .error (.fault f) →
          ((p.run calls).NamesReached m f ↔
            (Party.NamesOutsider .senderNotParticipant (p.run calls) m f →
              (p.run calls).roundNumber = .ok m.round))) ∧
    ∀ {params : Reshare.Parameters} {input : Reshare.Input}
      {p : Party Reshare.State Reshare.Payload Reshare.Outcome},
      Reshare.newParty params input source = .ok p → ∀ (calls : List (Call Reshare.Payload)) m,
        (p.run calls).phase = .active → ((p.run calls).update m).1 = .error (.fault f) →
          ((p.run calls).NamesReached m f ↔
            (Party.NamesOutsider .senderNotOnCommittee (p.run calls) m f →
              (p.run calls).roundNumber = .ok m.round)) := by
  constructor
  · intro params p hp calls m hactive h
    obtain ⟨k, hlives⟩ := Keygen.lives_of_run hp calls
    refine hlives.namesReached_iff (Keygen.concluding params)
      (fun round hround => Keygen.faultsIn_enter hround) (fun he => ?_) hactive h
    rw [Keygen.protocol_of_run hp calls] at he ⊢
    exact (Keygen.eq_of_store_error he).2
  · intro params input p hp calls m hactive h
    obtain ⟨k, hlives⟩ := Reshare.lives_of_run hp calls
    refine hlives.namesReached_iff (Reshare.concluding params)
      (fun round hround => Reshare.faultsIn_enter hround) (fun he => ?_) hactive h
    rw [Reshare.protocol_of_run hp calls] at he ⊢
    exact (Reshare.eq_of_store_error he).2

theorem fault_of_update_pair :
    (let p := (Keygen.Setup.pair.party 0).run [.start]
    let f : Fault := ⟨Keygen.task, 2, [stranger], .senderNotParticipant⟩
    p.phase = .active ∧ (p.update Keygen.Setup.strayShare).1 = .error (.fault f) ∧
      (p.NamesReached Keygen.Setup.strayShare f ↔
        (Party.NamesOutsider .senderNotParticipant p Keygen.Setup.strayShare f →
          p.roundNumber = .ok 2))) ∧
    let p := (Reshare.Setup.pair.party (Reshare.firstPair.member 1)).run [.start]
    let f : Fault := ⟨Reshare.task, 3, [stranger], .senderNotOnCommittee⟩
    p.phase = .active ∧ (p.update Reshare.Setup.strayShare).1 = .error (.fault f) ∧
      (p.NamesReached Reshare.Setup.strayShare f ↔
        (Party.NamesOutsider .senderNotOnCommittee p Reshare.Setup.strayShare f →
          p.roundNumber = .ok 3)) := by
  constructor
  · have hactive := Party.phase_of_roundNumber Keygen.Setup.roundNumber_pair
    have hanswer := Keygen.Setup.namesOutsider_strayShare.answer hactive
      Keygen.Setup.validate_strayShare
    exact ⟨hactive, hanswer, fault_of_update.1 (Keygen.Setup.valid_pair.newParty_eq 0) [.start] _
      hactive hanswer⟩
  · have hactive := Party.phase_of_roundNumber Reshare.Setup.roundNumber_pair
    have hanswer := Reshare.Setup.namesOutsider_strayShare.answer hactive
      Reshare.Setup.validate_strayShare
    exact ⟨hactive, hanswer, fault_of_update.2 (Reshare.Setup.valid_pair.newParty_eq _) [.start] _
      hactive hanswer⟩

/-- A fault over a share from a stranger names neither round 1, in which it comes, nor a round that
is tried. -/
theorem not_namesReached_pair :
    (∃ f, (((Keygen.Setup.pair.party 0).run [.start]).update Keygen.Setup.strayShare).1 =
        .error (.fault f) ∧
      ¬ ((Keygen.Setup.pair.party 0).run [.start]).NamesReached Keygen.Setup.strayShare f) ∧
    ∃ f, (((Reshare.Setup.pair.party (Reshare.firstPair.member 1)).run [.start]).update
        Reshare.Setup.strayShare).1 = .error (.fault f) ∧
      ¬ ((Reshare.Setup.pair.party (Reshare.firstPair.member 1)).run [.start]).NamesReached
        Reshare.Setup.strayShare f := by
  constructor
  · have hnumber := Keygen.Setup.roundNumber_pair
    have houtsider := Keygen.Setup.namesOutsider_strayShare
    refine ⟨_, houtsider.answer (Party.phase_of_roundNumber hnumber)
      Keygen.Setup.validate_strayShare, fun hreached => ?_⟩
    cases hnumber.symm.trans (houtsider.namesReached_iff.1 hreached)
  · have hnumber := Reshare.Setup.roundNumber_pair
    have houtsider := Reshare.Setup.namesOutsider_strayShare
    refine ⟨_, houtsider.answer (Party.phase_of_roundNumber hnumber)
      Reshare.Setup.validate_strayShare, fun hreached => ?_⟩
    cases hnumber.symm.trans (houtsider.namesReached_iff.1 hreached)

end ThresholdKeys
