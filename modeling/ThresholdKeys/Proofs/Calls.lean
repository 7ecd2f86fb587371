import Mathlib
import ThresholdKeys.Proofs.Engine.Refusal
import ThresholdKeys.Proofs.Keygen.Honest
import ThresholdKeys.Proofs.Keygen.Waiting
import ThresholdKeys.Proofs.Reshare.Waiting

/-!
# What a host may rely on

Whatever a host does with a party of either protocol, the party goes through its rounds once and
yields at most one result, an error either changes nothing or ends the run, and a party that waits
tells for whom.
-/

namespace ThresholdKeys

/-! ## The rounds of the protocols -/

namespace Keygen

theorem concluding (params : Parameters) : Party.Concluding (rounds params) where
  number := number_eq
  inspect {round} hround s := by
    rcases mem_rounds_iff.1 hround with rfl | rfl | rfl <;> rfl
  silent {l round s entry} hround hl he := by
    rcases getElem?_rounds hround with ⟨rfl, rfl⟩ | ⟨rfl, rfl⟩ | ⟨rfl, rfl⟩
    · obtain ⟨_, _, _, _, _, -, -, rfl⟩ := enterCommit_eq_ok_iff.1 he
      rfl
    · obtain ⟨_, _, _, _, _, _, _, -, -, -, -, -, -, rfl⟩ := enterReveal_eq_ok_iff.1 he
      rfl
    · exact absurd hl (Nat.lt_irrefl 3)
  yields {l round s entry} hround hl he := by
    obtain rfl : l = 2 := Nat.succ.inj hl
    obtain rfl := Option.some.inj hround
    obtain ⟨_, _, _, _, _, share, -, -, -, -, -, -, -, rfl⟩ := enterVerify_eq_ok_iff.1 he
    exact ⟨share, rfl⟩
  expected {l round} hround hl := by
    obtain rfl : l = 2 := Nat.succ.inj hl
    obtain rfl := Option.some.inj hround
    rfl

theorem lives_of_run {params : Parameters} {source : Source} {p : Party State Payload KeyShare}
    (hp : newParty params source = .ok p) (calls : List (Call Payload)) :
    ∃ k, Party.Lives (rounds params) k (p.run calls) := by
  obtain ⟨-, hfirst, hnone, -⟩ := newParty_spec hp
  obtain ⟨k, -, -, hlives⟩ :=
    (Party.lives_of_notStarted hfirst hnone).run (concluding params) calls
  exact ⟨k, hlives⟩

end Keygen

namespace Reshare

theorem result_enterCommit {s : State} {e : Step} (he : enterCommit s = .ok e) :
    e.result = none := by
  cases hi : s.params.oldIndex? with
  | none =>
      rw [enterCommit_of_notOld hi] at he
      exact Except.ok.inj he ▸ rfl
  | some i =>
      obtain ⟨_, _, _, _, _, _, _, -, -, -, -, rfl⟩ := (enterCommit_eq_ok_iff hi).1 he
      rfl

theorem result_enterAck {s : State} {e : Step} (he : enterAck s = .ok e) : e.result = none := by
  cases hi : s.params.newIndex? with
  | none =>
      rw [enterAck_of_notNew hi] at he
      exact Except.ok.inj he ▸ rfl
  | some i =>
      cases hme : s.params.newId with
      | none => rw [Parameters.newIndex?, hme] at hi; cases hi
      | some me =>
          rw [enterAck_eq hi hme] at he
          exact Except.ok.inj he ▸ rfl

theorem result_enterReveal {s : State} {e : Step} (he : enterReveal s = .ok e) :
    e.result = none := by
  cases hi : s.params.oldIndex? with
  | none =>
      rw [enterReveal_of_notOld hi] at he
      exact Except.ok.inj he ▸ rfl
  | some i =>
      obtain ⟨_, _, _, -, -, rfl⟩ := (enterReveal_eq_ok_iff hi).1 he
      rfl

theorem concluding (params : Parameters) : Party.Concluding (rounds params) where
  number := number_eq
  inspect {round} hround s := by
    rcases mem_rounds_iff.1 hround with rfl | rfl | rfl | rfl <;> rfl
  silent {l round s entry} hround hl he := by
    rcases getElem?_rounds hround with ⟨rfl, rfl⟩ | ⟨rfl, rfl⟩ | ⟨rfl, rfl⟩ | ⟨rfl, rfl⟩
    · exact result_enterCommit he
    · exact result_enterAck he
    · exact result_enterReveal he
    · exact absurd hl (Nat.lt_irrefl 4)
  yields {l round s entry} hround hl he := by
    obtain rfl : l = 3 := Nat.succ.inj hl
    obtain rfl := Option.some.inj hround
    have hresult := enterConclude_eq_ok_iff.1 he
    split at hresult
    · obtain ⟨k, -, rfl⟩ := hresult
      exact ⟨.share k, rfl⟩
    · subst hresult
      exact ⟨.retired, rfl⟩
  expected {l round} hround hl := by
    obtain rfl : l = 3 := Nat.succ.inj hl
    obtain rfl := Option.some.inj hround
    rfl

theorem lives_of_run {params : Parameters} {input : Input} {source : Source}
    {p : Party State Payload Outcome} (hp : newParty params input source = .ok p) (calls : List (Call Payload)) :
    ∃ k, Party.Lives (rounds params) k (p.run calls) := by
  obtain ⟨-, hfirst, hnone, -⟩ := newParty_spec hp
  obtain ⟨k, -, -, hlives⟩ :=
    (Party.lives_of_notStarted hfirst hnone).run (concluding params) calls
  exact ⟨k, hlives⟩

end Reshare

/-! ## Life -/

/-- Every party of key generation and of resharing lives through its rounds in order and yields
once. -/
theorem lifecycle_of_newParty :
    (∀ {params : Keygen.Parameters} {source : Source}
      {p : Party Keygen.State Keygen.Payload KeyShare},
      Keygen.newParty params source = .ok p → p.Lifecycle (Keygen.rounds params)) ∧
    ∀ {params : Reshare.Parameters} {input : Reshare.Input} {source : Source}
      {p : Party Reshare.State Reshare.Payload Reshare.Outcome},
      Reshare.newParty params input source = .ok p → p.Lifecycle (Reshare.rounds params) := by
  constructor
  · intro params source p hp
    obtain ⟨-, hfirst, hnone, -⟩ := Keygen.newParty_spec hp
    exact (Keygen.concluding params).lifecycle hfirst hnone
  · intro params input source p hp
    obtain ⟨-, hfirst, hnone, -⟩ := Reshare.newParty_spec hp
    exact (Reshare.concluding params).lifecycle hfirst hnone

theorem lifecycle_of_newParty_pair :
    (Keygen.Setup.pair.party 0).Lifecycle (Keygen.rounds (Keygen.Setup.pair.params 0)) ∧
    (Reshare.Setup.pair.party (Reshare.firstPair.member 1)).Lifecycle
      (Reshare.rounds (Reshare.Setup.pair.params (Reshare.firstPair.member 1))) :=
  ⟨lifecycle_of_newParty.1 (Keygen.Setup.valid_pair.newParty_eq 0),
    lifecycle_of_newParty.2 (Reshare.Setup.valid_pair.newParty_eq _)⟩

/-! ## Errors -/

/-- A running party of key generation or of resharing that has looked for progress after every
message is in the first round that misses something, and it waits for those who have not sent it. -/
theorem waits_of_newParty :
    (∀ {ids : List PartyId} {curve : CurveParams} {parties : Committee} {id : PartyId}
      {threshold : ℕ} {version : Version} {params : Keygen.Parameters} {source : Source}
      {p : Party Keygen.State Keygen.Payload KeyShare} {calls : List (Call Keygen.Payload)},
      Committee.ofList ids = .ok parties →
      Keygen.Parameters.make curve parties id threshold version = .ok params →
      Keygen.newParty params source = .ok p → (∀ c ∈ calls, c.Looks) →
      (p.run calls).isRunning = true → ∃ number js,
        (p.run calls).Waits (Keygen.Lacks params (p.taken calls)) (fun _ => parties.member)
          number js) ∧
    ∀ {oldIds newIds : List PartyId} {curve : CurveParams} {old new : Committee} {id : PartyId}
      {oldThreshold newThreshold : ℕ} {version : Version} {params : Reshare.Parameters}
      {input : Reshare.Input} {source : Source}
      {p : Party Reshare.State Reshare.Payload Reshare.Outcome}
      {calls : List (Call Reshare.Payload)},
      Committee.ofList oldIds = .ok old → Committee.ofList newIds = .ok new →
      Reshare.Parameters.make curve old new id oldThreshold newThreshold version = .ok params →
      Reshare.newParty params input source = .ok p → (∀ c ∈ calls, c.Looks) →
      (p.run calls).isRunning = true → ∃ number js,
        (p.run calls).Waits (Reshare.Lacks params (p.taken calls)) (Reshare.sender params)
          number js := by
  constructor
  · intro ids curve parties id threshold version params source p calls hids hmake hp hcalls hrunning
    obtain ⟨rfl, hid, hi⟩ := Keygen.own_of_make (Committee.proper_of_ofList hids) hmake
    exact Keygen.waits_of_run (Committee.proper_of_ofList hids) hid hi hp hcalls hrunning
  · intro oldIds newIds curve old new id oldThreshold newThreshold version params input source p
      calls hold hnew hmake hp hcalls hrunning
    exact Reshare.waits_of_run hmake (Committee.proper_of_ofList hold)
      (Committee.proper_of_ofList hnew) hp hcalls hrunning

theorem Role.Rests.isRunning {σ C O : Type} [Content C] {r : Role σ C O} {k l : ℕ}
    {log : List (Message C)} {p : Party σ C O} {m : Message C} (hp : r.Rests k log p) (hk : 0 < k)
    (hl : l + 1 < r.rounds.length) (hm : m ∈ r.needs l) (hlog : m ∉ log) : p.isRunning = true := by
  have hstage := hp.stage
  cases hs : p.stage with
  | active checklist round later => exact Party.isRunning_of_stage hs
  | notStarted first later =>
      rw [hs] at hstage
      exact absurd hstage.1 (Nat.ne_of_gt hk)
  | finished =>
      rw [hs] at hstage
      obtain rfl : k = r.rounds.length := hstage
      exact absurd (hp.left l hl hm) hlog
  | failed => exact absurd hs hp.running

theorem waits_of_newParty_pair :
    (∃ number js, ((Keygen.Setup.pair.party 0).run [.start]).Waits
      (Keygen.Lacks (Keygen.Setup.pair.params 0) ((Keygen.Setup.pair.party 0).taken [.start]))
      (fun _ => Keygen.Setup.pair.parties.member) number js) ∧
    ∃ number js, ((Reshare.Setup.pair.party (Reshare.firstPair.member 1)).run [.start]).Waits
      (Reshare.Lacks (Reshare.Setup.pair.params (Reshare.firstPair.member 1))
        ((Reshare.Setup.pair.party (Reshare.firstPair.member 1)).taken [.start]))
      (Reshare.sender (Reshare.Setup.pair.params (Reshare.firstPair.member 1))) number js := by
  constructor
  · have hvalid := Keygen.Setup.valid_pair
    have hmake : Keygen.Parameters.make .secp256k1 Keygen.Setup.pair.parties
        (Keygen.Setup.pair.parties.member 0) 1 .v1 = .ok (Keygen.Setup.pair.params 0) :=
      Keygen.Parameters.make_eq_ok_iff.2 ⟨checkThreshold_eq_ok_iff.2 ⟨hvalid.threshold_pos,
        hvalid.threshold_lt⟩, _, hvalid.proper.find?_member (by decide), rfl⟩
    obtain ⟨k, hk, hrests⟩ := (hvalid.lawful_role
      (show 0 < Keygen.Setup.pair.parties.size by decide)).run_of_needs List.nodup_nil nofun
    refine waits_of_newParty.1 Keygen.Setup.ofList_pair hmake (hvalid.newParty_eq 0)
      (by simp [Call.Looks]) ?_
    exact hrests.isRunning hk (show 0 + 1 < 3 by decide)
      (Keygen.Setup.mem_needs_zero_iff.2 ⟨1, by decide, by decide, rfl⟩) List.not_mem_nil
  · have hvalid := Reshare.Setup.valid_pair
    have hmember : Reshare.firstPair.member 1 ∈
        Reshare.participants Reshare.Setup.pair.old Reshare.Setup.pair.new := by decide
    obtain ⟨k, hk, hrests⟩ := (hvalid.lawful_role hmember).run_of_needs List.nodup_nil nofun
    refine waits_of_newParty.2 Reshare.ofList_firstPair Reshare.ofList_secondPair
      (hvalid.make_eq hmember) (hvalid.newParty_eq _) (by simp [Call.Looks]) ?_
    exact hrests.isRunning hk (show 0 + 1 < 4 by decide)
      (Reshare.Setup.mem_needs_zero_iff.2 ⟨0, by decide, 0, by decide, by decide, rfl⟩)
      List.not_mem_nil

end ThresholdKeys
