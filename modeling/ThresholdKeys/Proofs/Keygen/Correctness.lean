import Mathlib
import ThresholdKeys.Proofs.Keygen.Honest
import ThresholdKeys.Proofs.Network.Ensemble

/-!
# Key generation without disturbance

In a network of participants whose messages are delivered in any order, no call fails. Once nothing
is in flight, every participant has finished with a key share, and all key shares belong to one
key.
-/

namespace ThresholdKeys.Keygen

/-- The network of one participant for every member of a committee, before any of them has
started. -/
def setUp (curve : CurveParams) (parties : Committee) (threshold : ℕ) (version : Version)
    (sources : ℕ → Source) : Result (Network State Payload KeyShare) := do
  let participants ← parties.members.zipIdx.mapM fun (id, i) => do
    newParty (← Parameters.make curve parties id threshold version) (sources i)
  return .ofKeygen (participants.map fun p => some (.new p false))

namespace Setup

variable {r : Setup}

def ensemble (r : Setup) : Ensemble State Payload KeyShare where
  size := r.parties.size
  role := r.role
  depth := 3
  hears _ _ := true
  concerns _ _ := true

theorem Valid.setUp_eq (h : r.Valid) :
    setUp r.curve r.parties r.threshold r.version r.sources = .ok r.ensemble.network := by
  have hparties : (r.parties.members.zipIdx.mapM fun x => (do
      newParty (← Parameters.make r.curve r.parties x.1 r.threshold r.version) (r.sources x.2))) =
        .ok ((List.range r.parties.size).map r.party) := by
    rw [Committee.zipIdx_members, Result.mapM_eq_ok_iff, List.forall₂_map_left_iff,
      List.forall₂_map_right_iff]
    refine List.forall₂_same.2 fun i hi => ?_
    have hmake : Parameters.make r.curve r.parties (r.parties.member i) r.threshold r.version =
        .ok (r.params i) := by
      rw [Parameters.make, checkThreshold_eq_ok_iff.2 ⟨h.threshold_pos, h.threshold_lt⟩, Result.ok_bind,
        h.proper.find?_member (List.mem_range.1 hi)]
      rfl
    rw [hmake, Result.ok_bind, h.newParty_eq]
  rw [setUp, hparties, Result.ok_bind, Result.pure_eq_ok, List.map_map]
  rfl

theorem mem_sends_iff {i k : ℕ} {m : Message Payload} : m ∈ (r.role i).sends k ↔
    (k = 0 ∧ m = r.commitMessage i) ∨
      (k = 1 ∧ ((∃ j < r.parties.size, j ≠ i ∧ m = r.shareMessage i j) ∨ m = r.revealMessage i)) := by
  rcases k with _ | _ | k
  · simp [role]
  · simp [role, mem_others_iff, and_assoc, eq_comm]
  · simp [role]

theorem origin_of_mem_sends {i k : ℕ} {m : Message Payload} (hm : m ∈ (r.role i).sends k) :
    m.sender = r.parties.member i ∧ m.round = k + 1 := by
  rcases mem_sends_iff.1 hm with ⟨rfl, rfl⟩ | ⟨rfl, ⟨j, -, -, rfl⟩ | rfl⟩ <;> exact ⟨rfl, rfl⟩

section Addressed

variable {i j : ℕ} (h : r.Valid) (hi : i < r.parties.size) (hj : j < r.parties.size)

include h hi hj

theorem addressed_broadcast_iff (content : Payload) :
    r.ensemble.addressed j (.broadcast (r.parties.member i) .new content) = true ↔ i ≠ j := by
  change (!decide ((r.parties.member j).SameKey (r.parties.member i)) && true) = true ↔ _
  rw [Bool.and_true, Bool.not_eq_true', decide_eq_false_iff_not, h.proper.sameKey_iff hj hi]
  exact ne_comm

theorem addressed_direct_iff (sender : PartyId) (content : Payload) :
    r.ensemble.addressed j (.direct sender (r.parties.member i) .new content) = true ↔ i = j := by
  change ([r.parties.member i].any fun p => decide (p.SameKey (r.parties.member j))) = true ↔ _
  rw [List.any_cons, List.any_nil, Bool.or_false, decide_eq_true_iff, h.proper.sameKey_iff hi hj]

end Addressed

theorem Valid.nodup_sends (h : r.Valid) (i k : ℕ) : ((r.role i).sends k).Nodup := by
  rcases k with _ | _ | k
  · exact List.nodup_singleton _
  · apply List.nodup_append.2
    refine ⟨?_, List.nodup_singleton _, ?_⟩
    · apply (List.nodup_range.filter _).map_on
      intro j hj j' hj' heq
      have hrecipient := congrArg Message.recipients heq
      exact h.member_inj (mem_others_iff.1 hj).1 (mem_others_iff.1 hj').1
        (List.cons.inj (Option.some.inj hrecipient)).1
    · intro m hm m' hm' heq
      obtain ⟨j, -, rfl⟩ := List.mem_map.1 hm
      rw [List.mem_singleton.1 hm'] at heq
      exact shareMessage_ne_revealMessage i i j heq
  · exact List.nodup_nil

theorem Valid.lawful_ensemble (h : r.Valid) : r.ensemble.Lawful where
  role hi := h.lawful_role hi
  depth _ := rfl
  hears _ _ := rfl
  nodup _ _ := h.nodup_sends _ _
  origin {i i' k k' m} hi hi' _ _ hm hm' := by
    obtain ⟨hsender, hround⟩ := origin_of_mem_sends hm
    obtain ⟨hsender', hround'⟩ := origin_of_mem_sends hm'
    exact ⟨h.member_inj hi hi' (hsender.symm.trans hsender'), by omega⟩
  needed {i j k m} hi hj _ hm haddressed := by
    rcases mem_sends_iff.1 hm with ⟨-, rfl⟩ | ⟨-, ⟨l, hl, hli, rfl⟩ | rfl⟩
    · have hij := (addressed_broadcast_iff h hi hj _).1 haddressed
      exact needs_iff.2 ⟨i, hi, hij, Or.inl rfl⟩
    · obtain rfl := (addressed_direct_iff h hl hj _ _).1 haddressed
      exact needs_iff.2 ⟨i, hi, hli.symm, Or.inr (Or.inl rfl)⟩
    · have hij := (addressed_broadcast_iff h hi hj _).1 haddressed
      exact needs_iff.2 ⟨i, hi, hij, Or.inr (Or.inr rfl)⟩
  sent {j k m} hj hk hm := by
    change k < 3 at hk
    rcases k with _ | _ | _ | k
    · obtain ⟨i, hi, hij, rfl⟩ := mem_needs_zero_iff.1 hm
      exact ⟨(addressed_broadcast_iff h hi hj _).2 hij, i, hi, 0, le_rfl,
        mem_sends_iff.2 (Or.inl ⟨rfl, rfl⟩)⟩
    · obtain ⟨i, hi, hij, rfl | rfl⟩ := mem_needs_one_iff.1 hm
      · exact ⟨(addressed_direct_iff h hj hj _ _).2 rfl, i, hi, 1, le_rfl,
          mem_sends_iff.2 (Or.inr ⟨rfl, Or.inl ⟨j, hj, hij.symm, rfl⟩⟩)⟩
      · exact ⟨(addressed_broadcast_iff h hi hj _).2 hij, i, hi, 1, le_rfl,
          mem_sends_iff.2 (Or.inr ⟨rfl, Or.inr rfl⟩)⟩
    · exact absurd hm List.not_mem_nil
    · omega

theorem Valid.agree (h : r.Valid) :
    Agree r.parties r.threshold ((List.range r.parties.size).map r.secret).sum r.keyShare :=
  r.secrets_dealers ▸ Dealer.agree_keyShare (fun _ => threshold_of_mem_dealers) h.proper

end Setup

/-- A run of key generation that nobody disturbs, with messages delivered in any order: no call
fails, the run can always come to rest, and when it rests everybody has put out a key share of one
key. -/
theorem undisturbed_run {ids : List PartyId} {parties : Committee}
    (hparties : Committee.ofList ids = .ok parties) (name : String) {threshold : ℕ}
    (hpos : 0 < threshold) (hlt : threshold < parties.size) (version : Version)
    (sources : ℕ → Source)
    (hdrawn : ∀ i < parties.size, ∀ c ∈ (Source.draws Source.nextScalar threshold
      (sources i).nextNonzeroScalar.2).1, c ≠ 0)
    (hsum : ((List.range parties.size).map fun i => (sources i).nextNonzeroScalar.1).sum ≠ 0)
    (hchallenge : version = .v2 → ∀ i < parties.size, ∃ e,
      Setup.challenge ⟨.named name, parties, threshold, version, sources⟩ i = .ok e) :
    ∃ before, setUp (.named name) parties threshold version sources = .ok before ∧
      ∀ net, before.Reaches net →
        (∀ answer net', net.Step answer net' → answer = .ok ()) ∧
        (∃ net', net.Reaches net' ∧ net'.AtRest) ∧
        (net.AtRest → ∃ share : ℕ → KeyShare,
          (∀ i < parties.size, ∃ n, net.node? i = some n ∧ n.party.stage = .finished ∧
            n.party.results.sent = [share i]) ∧
          Agree parties threshold
            ((List.range parties.size).map fun i => (sources i).nextNonzeroScalar.1).sum share) := by
  have hvalid : Setup.Valid ⟨.named name, parties, threshold, version, sources⟩ :=
    { proper := Committee.proper_of_ofList hparties
      generator := rfl
      threshold_pos := hpos
      threshold_lt := hlt
      drawn_ne_zero := hdrawn
      sum_ne_zero := hsum
      challenge := fun i hi => by
        cases version with
        | v1 => exact Schnorr.exists_challengeOf_v1 _
        | v2 => exact hchallenge rfl i hi }
  have hlawful := hvalid.lawful_ensemble
  refine ⟨_, hvalid.setUp_eq, fun net hnet => ⟨fun answer net' hstep => ?_, ?_, fun hrest => ?_⟩⟩
  · exact hlawful.answer_ok hnet hstep
  · exact hlawful.exists_atRest hnet
  · exact ⟨_, fun i hi => hlawful.finished hnet hrest hi, hvalid.agree⟩

theorem undisturbed_run_pair : ∃ before net,
    setUp .secp256k1 Setup.pair.parties 1 .v1 (fun _ => .ones) = .ok before ∧
      before.Reaches net ∧ ∃ share : ℕ → KeyShare,
        (∀ i < 2, ∃ n, net.node? i = some n ∧ n.party.stage = .finished ∧
          n.party.results.sent = [share i]) ∧ Agree Setup.pair.parties 1 (1 + 1) share := by
  obtain ⟨before, hbefore, hruns⟩ := undisturbed_run Setup.ofList_pair "secp256k1" Nat.one_pos
    Setup.valid_pair.threshold_lt .v1 (fun _ => .ones) Setup.valid_pair.drawn_ne_zero
    Setup.valid_pair.sum_ne_zero (fun h => (by cases h))
  obtain ⟨-, ⟨net, hnet, hrest⟩, -⟩ := hruns before .refl
  obtain ⟨share, hfinished, hagree⟩ := (hruns net hnet).2.2 hrest
  have hsum : ((List.range Setup.pair.parties.size).map Setup.pair.secret).sum = 1 + 1 := by
    rw [funext Setup.secret_pair]
    decide
  exact ⟨before, net, hbefore, hnet, share, hfinished, hsum ▸ hagree⟩

end ThresholdKeys.Keygen
