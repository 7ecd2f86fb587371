import Mathlib
import ThresholdKeys.Proofs.Engine.Attempt
import ThresholdKeys.Proofs.Keygen.Emission
import ThresholdKeys.Proofs.Keygen.Verification
import ThresholdKeys.Proofs.Keygen.Honest

/-!
# Blame in key generation

A participant that comes to the last round blames exactly the peers whose contribution is not in
order, whatever else it has been sent and in whatever order it was called. A peer that follows the
protocol is not among them if its messages have arrived as it sent them.
-/

namespace ThresholdKeys.Keygen

/-- What the slots at a place hold is what the participant there has sent, the share to `receiver`. -/
structure State.HoldsFrom (s : State) (j : ℕ) (sender receiver : PartyId)
    (sent : List (Message Payload)) : Prop where
  commit : ∃ c, s.commits.item? j = some c ∧ .broadcast sender .new (.commit c) ∈ sent
  share : ∃ x, s.shares.item? j = some x ∧ .direct sender receiver .new (.share x) ∈ sent
  reveal : ∃ o proof, s.reveals.item? j = some (o, proof) ∧
    .broadcast sender .new (.reveal o proof) ∈ sent

section Peer

variable {s s' : State} {d : Dealt} {session : Session} {proof : Schnorr.Proof}

theorem State.HasDealt.sound {params : Parameters} (hd : s.HasDealt d) (hproper : d.Proper)
    (hproves : s.Proves d session proof) (hcurve : params.curve = s.params.curve)
    (hthreshold : params.threshold = s.params.threshold)
    (hversion : params.version = s.params.version)
    (hgenerator : s.params.curve.generator = Point.generator) {i : ℕ} {own : Scalar} {share : Share}
    (hown : s.points[i]? = some own) (hshare : d.dealing.shares[i]? = some share) :
    Contribution.Sound ⟨d.opening.commitment, share, d.opening, proof⟩ params session own
      s.params.index d.dealing.commitments := by
  obtain ⟨coefficients, hlen, hdealing⟩ := hd.dealing
  obtain ⟨source, source', hprove⟩ := hproves
  obtain ⟨_, hown', rfl⟩ :=
    Dealing.getElem?_shares_ofPolynomial_eq_some_iff.1 (hdealing ▸ hshare)
  obtain rfl := Option.some.inj (hown.symm.trans hown')
  refine ⟨rfl, hd.reveals, ?_, ⟨_, hproper.head, ?_⟩, ?_, ?_⟩
  · rw [hd.length_commitments, hthreshold]
  · rw [hcurve, hversion]
    exact Schnorr.verify_of_prove hgenerator rfl hproper.secret_ne_zero hprove
  · rfl
  · rw [hthreshold, hdealing]
    exact Dealing.verifies_ofPolynomial hlen own

theorem State.Emits.of_reveal {params : Parameters} {k : ℕ} {sent : List (Message Payload)}
    {results : List KeyShare} (h : Invariant.WithSent params k s sent results) {sender : PartyId}
    {o : Opening} (hreveal : .broadcast sender .new (.reveal o proof) ∈ sent) :
    ∃ d commitments, s.HasDealt d ∧ d.Proper ∧ s.Commits commitments ∧
      s.Proves d (.new task s.params.curve s.params.parties s.params.threshold commitments) proof ∧
      o = d.opening ∧
      (∀ sender' c, .broadcast sender' .new (.commit c) ∈ sent → c = d.opening.commitment) ∧
      ∀ sender' receiver x, .direct sender' receiver .new (.share x) ∈ sent →
        ∃ i, receiver.index = some i ∧ d.dealing.shares[i]? = some x := by
  have hk := h.two_le hreveal rfl
  obtain ⟨hinv, hemits⟩ := h
  obtain ⟨d, session, hd, hsession⟩ := hinv.session hk
  obtain ⟨commitments, hcommits, rfl⟩ := hsession.exists_commits
  obtain ⟨messages, proof', hproves, hmessages, rfl⟩ :=
    hemits.revealed hk d _ hd.dealt hsession.session_eq
  have hmem {m : Message Payload}
      (hm : m ∈ s.commitMessage d :: (messages ++ [s.revealMessage d proof'])) :
      m.content = .commit d.opening.commitment ∨ m.content = .reveal d.opening proof' ∨
        ∃ p i x, p.index = some i ∧ d.dealing.shares[i]? = some x ∧
          m = .direct s.params.id p .new (.share x) := by
    rcases List.mem_cons.1 hm with rfl | hm
    · exact Or.inl rfl
    · rcases List.mem_append.1 hm with hm | hm
      · obtain ⟨p, -, i, x, hindex, hx, rfl⟩ := mem_shareMessages hmessages hm
        exact Or.inr (Or.inr ⟨p, i, x, hindex, hx, rfl⟩)
      · rw [List.mem_singleton.1 hm]
        exact Or.inr (Or.inl rfl)
  obtain ⟨rfl, rfl⟩ : o = d.opening ∧ proof = proof' := by
    rcases hmem hreveal with h | h | ⟨p, i, x, -, -, h⟩ <;> cases h
    exact ⟨rfl, rfl⟩
  refine ⟨d, commitments, hd, hemits.proper (by omega) d hd.dealt, hcommits, hproves, rfl,
    fun sender' c hc => ?_, fun sender' receiver x hx => ?_⟩
  · rcases hmem hc with h | h | ⟨p, i, x, -, -, h⟩ <;> cases h
    rfl
  · rcases hmem hx with h | h | ⟨p, i, x', hindex, hx', h⟩ <;> cases h
    exact ⟨i, hindex, hx'⟩

structure Parameters.Alike (a b : Parameters) : Prop where
  curve : b.curve = a.curve
  parties : b.parties = a.parties
  threshold : b.threshold = a.threshold
  version : b.version = a.version

/-- A peer that follows the protocol with the same commitments is accepted if what is held of it is
what it has sent. -/
theorem State.HoldsFrom.accepts {params params' : Parameters} {commitments : List Commitment}
    {k : ℕ} {sent : List (Message Payload)} {results : List KeyShare}
    (h : s.HoldsFrom params'.index params'.id params.id sent) (hs : s.Prepared params)
    (hcommits : s.Commits commitments) (harrived : hasReveal s params'.index = true)
    (hpeer : Invariant.WithSent params' k s' sent results) (halike : params.Alike params')
    (hsame : ∀ j < params.parties.size, s'.commits.item? j = s.commits.item? j)
    (hgenerator : params.curve.generator = Point.generator) :
    s.Accepts commitments params'.index := by
  obtain ⟨c, hc, hcsent⟩ := h.commit
  obtain ⟨x, hx, hxsent⟩ := h.share
  obtain ⟨o, proof, ho, hosent⟩ := h.reveal
  obtain ⟨d, commitments', hd, hproper, hcommits', hproves, rfl, hcommit, hshare⟩ :=
    State.Emits.of_reveal hpeer hosent
  obtain rfl := hcommit _ c hcsent
  obtain ⟨i, hi, hxi⟩ := hshare _ _ _ hxsent
  have hs' := hpeer.1.prepared
  have hpoints : s'.points = s.points := by
    have hpoints' := hs'.points_eq
    rw [halike.parties, hs.points_eq] at hpoints'
    exact (Except.ok.inj hpoints').symm
  obtain rfl : commitments' = commitments := by
    have hlen := (State.commits_iff.1 hcommits).1.trans hs.length_commits
    have hlen' := (State.commits_iff.1 hcommits').1.trans hs'.length_commits
    rw [halike.parties] at hlen'
    apply List.ext_getElem?
    intro j
    by_cases hj : j < params.parties.size
    · rw [← hcommits'.item?, hsame j hj, hcommits.item?]
    · rw [List.getElem?_eq_none (by omega), List.getElem?_eq_none (by omega)]
  obtain rfl := hs.params_eq
  obtain rfl := hs'.params_eq
  have hindex : s.params.index = i := by rw [Parameters.index, hi, Option.getD_some]
  obtain ⟨own, hown⟩ := hd.exists_point hxi
  obtain ⟨hshares, hreveals⟩ := Bool.and_eq_true_iff.1 harrived
  have hsound := hd.sound hproper hproves halike.curve.symm halike.threshold.symm
    halike.version.symm (halike.curve.symm ▸ hgenerator) hown hxi
  rw [halike.curve, halike.parties, halike.threshold] at hsound
  exact ⟨own, _, x, _, proof, _, hindex ▸ hpoints ▸ hown, (hcommits.item? _).symm.trans hc,
    Slots.admitted?_eq_some_of_item? hshares hx, Slots.admitted?_eq_some_of_item? hreveals ho,
    hsound⟩

end Peer

theorem Parameters.make_eq_ok_iff {curve : CurveParams} {parties : Committee} {id : PartyId}
    {threshold : ℕ} {version : Version} {params : Parameters} :
    Parameters.make curve parties id threshold version = .ok params ↔
      checkThreshold threshold parties.size = .ok () ∧ ∃ own, parties.find? id = some own ∧
        params = ⟨curve, parties, own, threshold, version⟩ := by
  simp only [Parameters.make, Result.bind_eq_ok_iff]
  constructor
  · rintro ⟨_, hthreshold, h⟩
    cases hfind : parties.find? id with
    | none => rw [hfind] at h; cases h
    | some own =>
        rw [hfind] at h
        exact ⟨hthreshold, own, rfl, (Except.ok.inj h).symm⟩
  · rintro ⟨hthreshold, own, hfind, rfl⟩
    exact ⟨(), hthreshold, by rw [hfind]; rfl⟩

theorem Setup.Valid.make_eq {r : Setup} (h : r.Valid) {i : ℕ} (hi : i < r.parties.size) :
    Parameters.make r.curve r.parties (r.parties.member i) r.threshold r.version =
      .ok (r.params i) :=
  Parameters.make_eq_ok_iff.2 ⟨checkThreshold_eq_ok_iff.2 ⟨h.threshold_pos, h.threshold_lt⟩, _,
    h.proper.find?_member hi, rfl⟩

theorem index_verifyRound {params : Parameters} {k : ℕ}
    (h : (rounds params)[k]? = some verifyRound) : k = 2 := by
  rcases getElem?_rounds h with ⟨-, h⟩ | ⟨-, h⟩ | ⟨hk, -⟩
  · exact absurd (congrArg Round.number h) (show (3 : ℕ) ≠ 1 by decide)
  · exact absurd (congrArg Round.number h) (show (3 : ℕ) ≠ 2 by decide)
  · exact hk

/-- What comes of the last round: `js` are the places of those who are blamed. -/
structure Verdict (params : Parameters) (answer : Result Unit) (p : Party State Payload KeyShare)
    (js : List ℕ) : Prop where
  blames : js ≠ [] →
    answer = .error (.fault ⟨task, 3, js.map params.parties.member, .peerContribution⟩) ∧
      p.stage = .failed ∧ p.results.sent = []
  spares : js = [] → ∀ f, answer ≠ .error (.fault f)

section Attempt

variable {params : Parameters} {source : Source} {p q : Party State Payload KeyShare}
  {c : Call Payload}

theorem state_of_attempt (hp : newParty params source = .ok p) (calls : List (Call Payload))
    (hq : Party.Attempts verifyRound q (p.run calls) c) :
    ((p.run calls).after c).state = q.state := by
  obtain ⟨k, -, hfollows⟩ := (follows_newParty hp).run (keeps params) calls
  refine hq.state_last (keeps params) hfollows (fun k hk => by rw [index_verifyRound hk]; rfl) rfl
    (fun _ => rfl) fun hentry => ?_
  obtain ⟨_, _, _, _, _, _, -, -, -, -, -, -, -, rfl⟩ := enterVerify_eq_ok_iff.1 hentry
  rfl

theorem verdict_of_attempt (hp : newParty params source = .ok p) (calls : List (Call Payload))
    (hq : Party.Attempts verifyRound q (p.run calls) c) :
    q.state.Prepared params ∧ (∀ j < params.parties.size, hasReveal q.state j = true) ∧
      ∃ commitments js, q.state.Commits commitments ∧
        Enumerates js (fun j => j < params.parties.size ∧ j ≠ params.index ∧
          ¬ q.state.Accepts commitments j) ∧
        Verdict params ((p.run calls).answer c) ((p.run calls).after c) js := by
  obtain ⟨k, -, hfollows⟩ := (follows_newParty hp).run (keeps params) calls
  obtain ⟨k', -, hround, hdue⟩ := hq.due (keeps params) hfollows
  obtain rfl := index_verifyRound hround
  have hall := hdue.arrived 1 (revealRound params) rfl rfl
  obtain ⟨commitments, js, hcommits, -, hjs, hblames, hspares⟩ := hdue.inv.verification hall
  have houtcome := hq.outcome_last (keeps params) hfollows
    (fun k hk => by rw [index_verifyRound hk]; rfl) rfl fun _ => rfl
  refine ⟨hdue.inv.prepared, hall, commitments, js, hcommits, hjs, fun hne => ?_, fun hnil f hf => ?_⟩
  · have henter : q.enter verifyRound = _ := Party.enter_eq_error (hblames hne)
    rw [henter] at houtcome
    obtain ⟨hanswer, hafter⟩ := Prod.mk.inj houtcome
    rw [hafter]
    exact ⟨hanswer, rfl, hdue.inv.none le_rfl⟩
  · cases henter : q.enter verifyRound with
    | error e =>
        rw [henter] at houtcome
        obtain rfl := Except.error.inj ((Prod.mk.inj houtcome).1.symm.trans hf)
        rcases Party.error_of_enter henter with h | h
        · exact hspares hnil f h
        · cases h
    | ok r =>
        rw [henter] at houtcome
        exact absurd ((Prod.mk.inj houtcome).1.symm.trans hf) (by simp)

end Attempt

/-- In the last round exactly those peers are blamed whose contribution is not in order: each once,
in the order of the participants, and never the participant itself. A peer that runs the protocol
with the same commitments is not blamed if what is held of it is what it has sent; only this rests
on the generator, by which a peer deals whatever curve it proves over. -/
theorem blames_of_attempt {ids : List PartyId} {curve : CurveParams} {parties : Committee}
    {id : PartyId} {threshold : ℕ} {version : Version} {params : Parameters} {source : Source}
    {p q : Party State Payload KeyShare} {c : Call Payload}
    (hparties : Committee.ofList ids = .ok parties)
    (hparams : Parameters.make curve parties id threshold version = .ok params)
    (hp : newParty params source = .ok p) (calls : List (Call Payload))
    (hq : Party.Attempts verifyRound q (p.run calls) c) :
    ∃ commitments js, q.state.Commits commitments ∧
      Enumerates js (fun j => j < parties.size ∧ j ≠ params.index ∧
        ¬ q.state.Accepts commitments j) ∧
      Verdict params ((p.run calls).answer c) ((p.run calls).after c) js ∧
      (js.map parties.member).Nodup ∧ (∀ peer ∈ js.map parties.member, ¬ peer.SameKey params.id) ∧
      ∀ {id' : PartyId} {params' : Parameters} {source' : Source}
        {p' : Party State Payload KeyShare} (calls' : List (Call Payload)),
        curve.generator = Point.generator →
        Parameters.make curve parties id' threshold version = .ok params' →
        newParty params' source' = .ok p' →
        (∀ j < parties.size,
          (p'.run calls').state.commits.item? j = q.state.commits.item? j) →
        q.state.HoldsFrom params'.index params'.id params.id (p'.run calls').outbox.sent →
          params'.index ∉ js := by
  have hproper := Committee.proper_of_ofList hparties
  obtain ⟨-, own, hfind, rfl⟩ := Parameters.make_eq_ok_iff.1 hparams
  obtain ⟨hprepared, hall, commitments, js, hcommits, hjs, hverdict⟩ :=
    verdict_of_attempt hp calls hq
  have hlt (j : ℕ) (hj : j ∈ js) : j < parties.size := ((hjs.mem_iff j).1 hj).1
  refine ⟨commitments, js, hcommits, hjs, hverdict, ?_, ?_, ?_⟩
  · exact List.Nodup.map_on (fun i hi j hj hij =>
      hproper.eq_of_sameKey (hlt i hi) (hlt j hj) (congrArg PartyId.key hij)) hjs.nodup
  · intro peer hpeer hself
    obtain ⟨j, hj, rfl⟩ := List.mem_map.1 hpeer
    obtain ⟨i, hi, rfl⟩ := Committee.mem_iff.1 (List.mem_of_find?_eq_some hfind)
    obtain rfl := hproper.eq_of_sameKey (hlt j hj) hi hself
    refine ((hjs.mem_iff j).1 hj).2.1 ?_
    rw [Parameters.index, hproper.index_member hi, Option.getD_some]
  · intro id' params' source' p' calls' hgenerator hparams' hp' hsame hholds hmem
    obtain ⟨-, own', hfind', rfl⟩ := Parameters.make_eq_ok_iff.1 hparams'
    obtain ⟨k, -, hfollows⟩ := (follows_withSent hp').run (keeps_withSent _) calls'
    obtain ⟨hj, -, hrejected⟩ := (hjs.mem_iff _).1 hmem
    exact hrejected (hholds.accepts hprepared hcommits (hall _ hj) hfollows.inv ⟨rfl, rfl, rfl, rfl⟩
      hsame hgenerator)

theorem Setup.Valid.holdsFrom {r : Setup} (h : r.Valid) {i j : ℕ} (hi : i < r.parties.size)
    (hj : j < r.parties.size) (hji : j ≠ i) :
    ((r.party i).run (r.calls i)).state.HoldsFrom j (r.parties.member j) (r.parties.member i)
      ((r.party j).run (r.calls j)).outbox.sent := by
  have hholds := (h.rests_run hi).holds
  have hreceived {m : Message Payload}
      (hm : m ∈ [r.commitMessage j, r.shareMessage j i, r.revealMessage j]) : m ∈ r.received i :=
    List.mem_flatMap.2 ⟨j, Setup.mem_others_iff.2 ⟨hj, hji⟩, hm⟩
  have hsent (k : ℕ) (hk : k < 3) {m : Message Payload} (hm : m ∈ (r.role j).sends k) :
      m ∈ ((r.party j).run (r.calls j)).outbox.sent := by
    rw [(h.rests_run hj).outbox]
    exact List.mem_flatMap.2 ⟨k, List.mem_range.2 hk, hm⟩
  have hshare : r.shareMessage j i ∈ (r.role j).sends 1 :=
    List.mem_append_left _ (List.mem_map_of_mem (Setup.mem_others_iff.2 ⟨hi, hji.symm⟩))
  have hreveal : r.revealMessage j ∈ (r.role j).sends 1 :=
    List.mem_append_right _ (List.mem_singleton_self _)
  exact ⟨⟨_, h.item?_commits_run hi hj, hsent 0 (by decide) (List.mem_singleton_self _)⟩,
    ⟨_, hholds.shares.item? hj (Or.inr (hreceived (by simp))), hsent 1 (by decide) hshare⟩,
    ⟨_, _, hholds.reveals.item? hj (Or.inr (hreceived (by simp))), hsent 1 (by decide) hreveal⟩⟩

theorem blames_of_attempt_pair : ∃ q,
    Party.Attempts verifyRound q
      ((Setup.pair.party 0).run
        (.start :: [Setup.pair.commitMessage 1, Setup.pair.shareMessage 1 0].map .update))
      (.update (Setup.pair.revealMessage 1)) ∧
    ∃ commitments js, q.state.Commits commitments ∧
      Enumerates js (fun j => j < 2 ∧ j ≠ 0 ∧ ¬ q.state.Accepts commitments j) ∧ 1 ∉ js := by
  have hvalid := Setup.valid_pair
  have hreceived : Setup.pair.received 0 = [Setup.pair.commitMessage 1,
      Setup.pair.shareMessage 1 0] ++ [Setup.pair.revealMessage 1] := rfl
  have hrounds : (Setup.pair.role 0).rounds = [commitRound (Setup.pair.params 0),
      revealRound (Setup.pair.params 0)] ++ [verifyRound] := rfl
  obtain ⟨-, q, hq⟩ := Party.exists_attempts_last
    (hvalid.lawful_role (show 0 < Setup.pair.parties.size by decide))
    (hreceived ▸ Setup.nodup_received hvalid 0) (fun _ => hreceived ▸ Setup.mem_received_iff)
    hrounds Nat.one_lt_two
    (Setup.mem_needs_one_iff.2 ⟨1, by decide, by decide, Or.inr rfl⟩)
  have hparams {i : ℕ} (hi : i < Setup.pair.parties.size) :
      Parameters.make .secp256k1 Setup.pair.parties (Setup.pair.parties.member i) 1 .v1 =
        .ok (Setup.pair.params i) :=
    Parameters.make_eq_ok_iff.2 ⟨checkThreshold_eq_ok_iff.2 ⟨hvalid.threshold_pos,
      hvalid.threshold_lt⟩, _, hvalid.proper.find?_member hi, rfl⟩
  have hstate : q.state = ((Setup.pair.party 0).run (Setup.pair.calls 0)).state := by
    rw [← state_of_attempt (hvalid.newParty_eq 0) _ hq, Setup.calls, hreceived, List.map_append,
      ← List.cons_append, List.map_singleton, Party.run_concat]
  obtain ⟨commitments, js, hcommits, hjs, -, -, -, hspares⟩ :=
    blames_of_attempt Setup.ofList_pair (hparams (by decide)) (hvalid.newParty_eq 0) _ hq
  refine ⟨q, hq, commitments, js, hcommits, hjs, ?_⟩
  have hindex : (Setup.pair.params 1).index = 1 := hvalid.index_params (by decide)
  rw [← hindex]
  refine hspares (Setup.pair.calls 1) rfl (hparams (by decide)) (hvalid.newParty_eq 1)
    (fun j hj => ?_) ?_
  · rw [hstate, hvalid.item?_commits_run (by decide) hj, hvalid.item?_commits_run (by decide) hj]
  · rw [hstate, hindex]
    exact hvalid.holdsFrom (by decide) (by decide) (by decide)

end ThresholdKeys.Keygen
