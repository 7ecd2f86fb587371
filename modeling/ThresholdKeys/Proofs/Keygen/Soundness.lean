import Mathlib
import ThresholdKeys.Proofs.Keygen.Honest
import ThresholdKeys.Proofs.Keygen.Invariant

/-!
# Key shares against arbitrary peers

A participant that is called in any order and with any messages puts out only key shares that lie
on a polynomial of the agreed degree in the exponent. The points of this polynomial are the sum of
the own published points and of points that the peers have committed to and proved to know.
-/

namespace ThresholdKeys.Keygen

/-- What stands behind a key share that a participant has put out: the points that everybody has
dealt, and their sum. -/
structure Justified (params : Parameters) (s : State) (share : KeyShare) (points : List Scalar)
    (session : Session) (dealt : List (List Point)) (vs : List Point) : Prop where
  points_eq : params.parties.points = .ok points
  sum : vs = sumCommitments (params.threshold + 1) dealt
  length : vs.length = params.threshold + 1
  publicKey : vs[0]? = some share.publicKey
  publicKey_ne_zero : share.publicKey ≠ 0
  publicShares : share.publicShares = points.map fun x =>
    ∑ c ∈ Finset.range (params.threshold + 1), x ^ c • vs.getD c 0
  secret : share.publicShares[params.index]? = some (share.secret • Point.generator)
  /-- Enough public shares, weighted by their Lagrange coefficients, give the public key. -/
  quorum : ∀ quorum : List ℕ, quorum.Nodup → (∀ j ∈ quorum, j < params.parties.size) →
    params.threshold + 1 ≤ quorum.length →
      Reshare.Input.interpolate (quorum.map fun j => points.getD j 0)
        (quorum.map fun j => share.publicShares.getD j 0) = .ok share.publicKey
  length_dealt : dealt.length = params.parties.size
  length_of_mem : ∀ ws ∈ dealt, ws.length = params.threshold + 1
  own : ∃ d, s.dealt = some d ∧ dealt[params.index]? = some d.dealing.commitments
  session_eq : s.session = some session
  /-- Every peer has committed to its points, has proved in this session that it knows the first
  of them, and has sent a share that lies on them. -/
  peer : ∀ j ws, j ≠ params.index → dealt[j]? = some ws →
    ∃ c own, s.Holds j c ∧ points[params.index]? = some own ∧ c.Sound params session own j ws

theorem issued_of_run {params : Parameters} {source : Source} {p : Party State Payload KeyShare}
    (hp : newParty params source = .ok p) (calls : List (Call Payload)) {share : KeyShare}
    (hshare : share ∈ (p.run calls).results.sent) :
    ∃ d session contributions dealt, (p.run calls).state.Prepared params ∧
      (p.run calls).state.HasDealt d ∧ (p.run calls).state.InSession d session ∧
      (p.run calls).state.Issued d session share contributions dealt := by
  obtain ⟨k, -, hfollows⟩ := (follows_newParty hp).run (keeps params) calls
  obtain ⟨d, session, contributions, dealt, hd, hsession, hissued⟩ :=
    hfollows.inv.issued share hshare
  exact ⟨d, session, contributions, dealt, hfollows.inv.prepared, hd, hsession, hissued⟩

section

variable {s : State} {d : Dealt} {session : Session} {k : KeyShare}
  {contributions : List Contribution} {dealt : List (List Point)}

theorem State.Issued.length_of_mem (h : s.Issued d session k contributions dealt)
    (hd : s.HasDealt d) {vs : List Point} (hvs : vs ∈ dealt) :
    vs.length = s.params.threshold + 1 := by
  obtain ⟨j, hj⟩ := List.mem_iff_getElem?.1 hvs
  by_cases hown : j = s.params.index
  · obtain rfl := Option.some.inj (hj.symm.trans (hown ▸ h.own))
    exact hd.length_commitments
  · have hlt : j < contributions.length := by
      rw [h.length_contributions, ← h.length_dealt]
      exact (List.getElem?_eq_some_iff.1 hj).1
    obtain ⟨own, -, hsound⟩ := h.sound j _ vs hown (List.getElem?_eq_getElem hlt) hj
    exact hsound.length

end

/-- Whatever its peers send and in whatever order it is called, a participant that puts out a key
share has one on a polynomial of the agreed degree, made from contributions that are in order. -/
theorem justified_of_run {params : Parameters} {source : Source}
    {p : Party State Payload KeyShare} (hp : newParty params source = .ok p)
    (calls : List (Call Payload)) {share : KeyShare}
    (hshare : share ∈ (p.run calls).results.sent) :
    ∃ points session dealt vs,
      Justified params (p.run calls).state share points session dealt vs := by
  obtain ⟨d, session, contributions, dealt, hprepared, hd, hsession, hissued⟩ :=
    issued_of_run hp calls hshare
  generalize (p.run calls).state = s at hprepared hd hsession hissued ⊢
  have hparams := hprepared.params_eq
  subst hparams
  have hlen : (sumCommitments (s.params.threshold + 1) dealt).length = s.params.threshold + 1 :=
    length_sumCommitments ..
  refine ⟨s.points, session, dealt, _,
    { points_eq := hprepared.points_eq
      sum := rfl
      length := hlen
      publicKey := by rw [← List.head?_eq_getElem?]; exact hissued.publicKey
      publicKey_ne_zero := hissued.publicKey_ne_zero
      publicShares := ?_
      secret := hissued.secret
      quorum := fun quorum hquorum hlt hcount => ?_
      length_dealt := hissued.length_dealt
      length_of_mem := fun ws hws => hissued.length_of_mem hd hws
      own := ⟨d, hd.dealt, hissued.own⟩
      session_eq := hsession.session_eq
      peer := fun j ws hj hws => ?_ }⟩
  · rw [hissued.publicShares]
    refine List.map_congr_left fun x _ => ?_
    rw [evaluateCommitments_eq_sum, hlen]
  · rw [hissued.publicShares, interpolate_quorum hd.nodup hquorum
      (fun j hj => hprepared.length_points ▸ hlt j hj) (by rwa [hlen]),
      List.headD_eq_head?_getD, hissued.publicKey, Option.getD_some]
  · have hlt : j < contributions.length := by
      rw [hissued.length_contributions, ← hissued.length_dealt]
      exact (List.getElem?_eq_some_iff.1 hws).1
    have hc := List.getElem?_eq_getElem hlt
    obtain ⟨own, hown, hsound⟩ := hissued.sound j _ ws hj hc hws
    exact ⟨_, own, hissued.holds j _ hc, hown, hsound⟩

theorem justified_of_run_pair : ∃ points session dealt vs,
    Justified (Setup.pair.params 0) ((Setup.pair.party 0).run (Setup.pair.calls 0)).state
      (Setup.pair.keyShare 0) points session dealt vs :=
  justified_of_run (Setup.valid_pair.newParty_eq 0) _ <| by
    rw [Setup.valid_pair.results_run (by decide)]
    exact List.mem_singleton_self _

end ThresholdKeys.Keygen
