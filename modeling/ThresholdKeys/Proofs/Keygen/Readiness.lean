import Mathlib
import ThresholdKeys.Proofs.Keygen.Emission
import ThresholdKeys.Proofs.Keygen.Verification
import ThresholdKeys.Proofs.Keygen.Waiting

/-!
# What the rounds of key generation take for granted

Each round reads what earlier rounds have left: the slots, the own dealing, the session. On a proper
committee all of it is there, and every place that is looked at exists. What can still fail is the
commitment to a coefficient of zero, the search for a challenge, the check of a peer, and a public
key that is the identity.
-/

namespace ThresholdKeys.Keygen

structure Parameters.Proper (params : Parameters) : Prop where
  parties : params.parties.Proper
  index_lt : params.index < params.parties.size
  threshold_lt : params.threshold < params.parties.size

theorem Parameters.proper_of_make {curve : CurveParams} {parties : Committee} {id : PartyId}
    {threshold : ℕ} {version : Version} {params : Parameters} (hproper : parties.Proper)
    (h : Parameters.make curve parties id threshold version = .ok params) : params.Proper := by
  obtain ⟨hparties, -, hlt⟩ := own_of_make hproper h
  obtain ⟨hthreshold, own, -, rfl⟩ := Parameters.make_eq_ok_iff.1 h
  exact ⟨hproper, hlt, (checkThreshold_eq_ok_iff.1 hthreshold).2⟩

/-- What round 2 reads is there: everybody's commitment, the own dealing with its first point and
the own share, and the share of everybody else. -/
structure State.ReadyToReveal (s : State) : Prop where
  session : ∃ session, sessionOf s = .ok session
  dealt : ∃ d point own messages, s.dealt = some d ∧ d.dealing.commitments.head? = some point ∧
    d.dealing.shares[s.params.index]? = some own ∧ shareMessages s d.dealing = .ok messages

/-- The last round has passed everybody: the contributions in the slots, and the points that they
publish. -/
structure State.AcceptsAll (s : State) (contributions : List Contribution)
    (dealt : List (List Point)) : Prop where
  gathered : (List.range s.params.parties.size).mapM (contribution s) = .ok contributions
  length_dealt : dealt.length = contributions.length
  passed : ∃ session d own, s.session = some session ∧ s.dealt = some d ∧
    s.points[s.params.index]? = some own ∧ ∀ j c vs, contributions[j]? = some c →
      dealt[j]? = some vs → if j = s.params.index then vs = d.dealing.commitments
        else c.Sound s.params session own j vs

/-- What the last round reads is there, and once it has passed everybody the secret share matches
its public share whatever the public key. -/
structure State.ReadyToVerify (s : State) : Prop where
  session : ∃ session, s.session = some session
  dealt : ∃ d, s.dealt = some d
  point : ∃ own, s.points[s.params.index]? = some own
  contributions : ∃ contributions,
    (List.range s.params.parties.size).mapM (contribution s) = .ok contributions
  fits : ∀ {contributions dealt}, s.AcceptsAll contributions dealt → ∀ publicKey, ∃ k,
    KeyShare.make s.params.threshold s.params.parties s.params.index
      (Residue.sum (contributions.map fun c => c.share.value))
      (s.points.map (evaluateCommitments (sumCommitments (s.params.threshold + 1) dealt)))
      publicKey = .ok k

section

variable {params : Parameters} {s : State} {sent : List (Message Payload)}
  {results : List KeyShare}

theorem State.Prepared.points_eq_map (hs : s.Prepared params) (hparams : params.Proper) :
    s.points = params.parties.members.map Committee.pointOf :=
  Except.ok.inj (hs.points_eq.symm.trans hparams.parties.points_eq)

/-! ## Round 1 -/

theorem State.Prepared.points_spec (hs : s.Prepared params) (hparams : params.Proper) :
    s.params.threshold < s.points.length ∧ (∀ x ∈ s.points, x ≠ 0) ∧ s.points.Nodup := by
  have hpoints := hs.points_eq_map hparams
  obtain rfl := hs.params_eq
  refine ⟨hs.length_points.symm ▸ hparams.threshold_lt, fun x hx => ?_, ?_⟩
  · rw [hpoints] at hx
    obtain ⟨p, hp, rfl⟩ := List.mem_map.1 hx
    exact hparams.parties.ne_zero p hp
  · exact hpoints.symm ▸ hparams.parties.nodup

/-- The coefficients that a participant deals from a source: its secret and those drawn above it. -/
def drawnCoefficients (source : Source) (threshold : ℕ) : List Scalar :=
  Dealing.coefficients source.nextNonzeroScalar.2 threshold source.nextNonzeroScalar.1

theorem exists_enterCommit (hparams : params.Proper) (hs : s.Prepared params)
    (hzero : 0 ∉ drawnCoefficients s.source params.threshold) : ∃ e, enterCommit s = .ok e := by
  obtain ⟨hlt, hne, hnodup⟩ := hs.points_spec hparams
  obtain rfl := hs.params_eq
  have hdealer : Dealer.Valid ⟨s.source.nextNonzeroScalar.2, s.params.threshold,
      s.source.nextNonzeroScalar.1, s.points⟩ :=
    ⟨hlt, hne, hnodup, s.source.nextNonzeroScalar_ne_zero, fun c hc hc0 =>
      hzero (List.mem_cons_of_mem _ (hc0 ▸ hc))⟩
  exact ⟨_, enterCommit_eq_ok_iff.2 ⟨_, _, _, _, _, Dealer.create_eq hdealer,
    Dealer.commit_eq hdealer, rfl⟩⟩

theorem enterCommit_of_zero_mem (hparams : params.Proper) (hs : s.Prepared params)
    (hzero : 0 ∈ drawnCoefficients s.source params.threshold) :
    enterCommit s = .error .brokenInvariant := by
  obtain ⟨hlt, hne, hnodup⟩ := hs.points_spec hparams
  obtain rfl := hs.params_eq
  obtain ⟨d, source, hcreate, hd⟩ : ∃ d source, Dealing.create s.source.nextNonzeroScalar.2
      s.params.threshold s.source.nextNonzeroScalar.1 s.points = .ok (d, source) ∧
        (0 : Point) ∈ d.commitments :=
    ⟨_, _, Dealing.create_eq_ok_iff.2 ⟨hlt, hne, hnodup, rfl, rfl⟩,
      List.mem_map.2 ⟨0, hzero, zero_smul ..⟩⟩
  simp only [enterCommit, hcreate, Result.ok_bind, Dealing.commit, Point.flatten_of_zero_mem hd,
    Result.error_bind]

/-! ## Round 2 -/

theorem State.HasDealt.exists_share {d : Dealt} (hd : s.HasDealt d) {j : ℕ}
    (hj : j < s.points.length) : ∃ x, d.dealing.shares[j]? = some x :=
  ⟨_, List.getElem?_eq_getElem (hd.length_shares.symm ▸ hj)⟩

theorem exists_shareMessages {d : Dealt} (hproper : s.params.parties.Proper) (hd : s.HasDealt d)
    (hlen : s.points.length = s.params.parties.size) :
    ∃ messages, shareMessages s d.dealing = .ok messages := by
  refine Result.exists_mapM_eq_ok fun p hp => ?_
  obtain ⟨j, hj, hindex⟩ := hproper.exists_index_of_mem_exclude hp
  obtain ⟨x, hx⟩ := hd.exists_share (hlen.symm ▸ hj)
  rw [hindex, Option.bind_some, hx]
  exact ⟨_, rfl⟩

theorem exists_commits (hall : ∀ j < s.commits.length, hasCommit s j = true) :
    ∃ commitments, s.Commits commitments := by
  have hsome (j : Fin s.commits.length) : ∃ c, s.commits.admitted? true j = some c :=
    Option.isSome_iff_exists.1 (hall j j.isLt)
  choose commit hcommit using hsome
  refine ⟨List.ofFn commit, State.commits_iff.2 ⟨List.length_ofFn, fun j c hc => ?_⟩⟩
  obtain ⟨hj, rfl⟩ := List.getElem?_eq_some_iff.1 hc
  rw [List.getElem_ofFn]
  exact hcommit ⟨j, by rwa [List.length_ofFn] at hj⟩

theorem readyToReveal (h : Invariant.WithSent params 1 s sent results)
    (hparams : params.Proper) (hall : ∀ j < params.parties.size, hasCommit s j = true) :
    s.ReadyToReveal := by
  obtain ⟨hinv, hemits⟩ := h
  have hs := hinv.prepared
  obtain ⟨d, hd⟩ := hinv.dealt le_rfl
  have hlen := hs.length_points
  obtain rfl := hs.params_eq
  constructor
  · obtain ⟨commitments, hcommits⟩ := exists_commits fun j hj => hall j (hs.length_commits ▸ hj)
    obtain ⟨hlen, hadmitted⟩ := State.commits_iff.1 hcommits
    exact ⟨_, sessionOf_eq_ok_iff.2 ⟨commitments, hlen,
      fun j c hc => Slots.item?_of_admitted? (hadmitted j c hc), rfl⟩⟩
  · obtain ⟨own, hown⟩ := hd.exists_share (hlen.symm ▸ hparams.index_lt)
    obtain ⟨messages, hmessages⟩ := exists_shareMessages hparams.parties hd hlen
    exact ⟨d, _, own, messages, hd.dealt, (hemits.proper le_rfl d hd.dealt).head, hown, hmessages⟩

theorem State.ReadyToReveal.eq_of_error (h : s.ReadyToReveal) {e : Error}
    (he : enterReveal s = .error e) : e = .retriesExhausted := by
  obtain ⟨session, hsession⟩ := h.session
  obtain ⟨d, point, own, messages, hd, hpoint, hown, hmessages⟩ := h.dealt
  simp only [enterReveal, hsession, hd, hpoint, hown, hmessages, Result.ok_bind,
    Result.bind_eq_error_iff, Result.pure_eq_ok, reduceCtorEq, and_false, exists_false,
    or_false] at he
  exact Schnorr.prove_eq_error he

/-! ## Round 3 -/

theorem State.AcceptsAll.forall₂ {contributions : List Contribution} {dealt : List (List Point)}
    (h : s.AcceptsAll contributions dealt) {d : Dealt} {session : Session} (hd : s.HasDealt d)
    (hsession : s.InSession d session) {own : Scalar} (hown : s.points[s.params.index]? = some own) :
    List.Forall₂ (fun c vs => vs.length = s.params.threshold + 1 ∧
      evaluateCommitments vs own = c.share.value • Point.generator) contributions dealt := by
  obtain ⟨session', d', own', -, hd', hown', hpassed⟩ := h.passed
  obtain rfl := Option.some.inj (hd.dealt.symm.trans hd')
  obtain rfl := Option.some.inj (hown.symm.trans hown')
  refine List.forall₂_iff_get.2 ⟨h.length_dealt.symm, fun j hj hj' => ?_⟩
  have hcheck := hpassed j _ _ (List.getElem?_eq_getElem hj) (List.getElem?_eq_getElem hj')
  rw [List.get_eq_getElem, List.get_eq_getElem]
  split at hcheck
  · rename_i hindex
    -- the own share lies on the own polynomial
    obtain ⟨c, hc, hshare, -⟩ := hsession.own
    obtain ⟨coefficients, hcount, hdealing⟩ := hd.dealing
    obtain ⟨i, hi, hcontribution⟩ :=
      Result.getElem?_of_mapM h.gathered (List.getElem?_eq_getElem hj)
    obtain ⟨hlt, rfl⟩ := List.getElem?_eq_some_iff.1 hi
    rw [List.getElem_range] at hcontribution
    have hitem := (contribution_eq_ok_iff.1 hcontribution).2.1
    have hheld := Slots.item?_of_admitted? hc.share
    rw [← hindex, hitem, Option.some.injEq] at hheld
    obtain ⟨_, hown', hvalue⟩ :=
      Dealing.getElem?_shares_ofPolynomial_eq_some_iff.1 (hdealing ▸ hshare)
    obtain rfl := Option.some.inj (hown.symm.trans hown')
    refine ⟨hcheck.symm ▸ hd.length_commitments, ?_⟩
    rw [hcheck, hheld, hvalue, hdealing]
    exact evaluateCommitments_map_generator coefficients own
  · exact ⟨hcheck.length, by rw [← hcheck.addressed, ← hcheck.share.2.2]⟩

theorem readyToVerify (h : Invariant params 2 s results) (hparams : params.Proper)
    (hall : ∀ j < params.parties.size, hasReveal s j = true) : s.ReadyToVerify := by
  obtain ⟨d, session, hd, hsession⟩ := h.session le_rfl
  obtain ⟨commitments, hcommits, -⟩ := hsession.exists_commits
  obtain ⟨contributions, hmapM, -, -⟩ := exists_contributions h.prepared hcommits hall
  have hlen := h.prepared.length_points
  obtain rfl := h.prepared.params_eq
  have hown := List.getElem?_eq_getElem (hlen.symm ▸ hparams.index_lt)
  refine ⟨⟨session, hsession.session_eq⟩, ⟨d, hd.dealt⟩, ⟨_, hown⟩, ⟨contributions, hmapM⟩,
    fun haccepts publicKey => ⟨_, KeyShare.make_eq_ok_iff.2
      ⟨(List.length_map ..).trans hlen, hparams.index_lt, ?_, rfl⟩⟩⟩
  rw [List.getElem?_map, hown, Option.map_some, evaluateCommitments_sumCommitments_of_values
    (List.forall₂_map_left_iff.2 (haccepts.forall₂ hd hsession hown))]

/-- The last round, entered in time, blames peers, or it has passed all of them and the public key
is zero. -/
theorem State.ReadyToVerify.of_error (h : s.ReadyToVerify) {e : Error}
    (he : enterVerify s = .error e) :
    (∃ culprits, e = .fault ⟨task, 3, culprits, .peerContribution⟩) ∨
      ∃ contributions dealt, s.AcceptsAll contributions dealt ∧
        (dealt.map fun vs => vs.headD 0).sum = 0 := by
  obtain ⟨session, hsession⟩ := h.session
  obtain ⟨d, hd⟩ := h.dealt
  obtain ⟨own, hown⟩ := h.point
  obtain ⟨contributions, hmapM⟩ := h.contributions
  obtain ⟨js, hjs, hverify⟩ := enterVerify_eq hsession hd hown hmapM rfl
  rw [hverify] at he
  split at he
  · exact Or.inl ⟨_, (Except.error.inj he).symm⟩
  · rename_i hnobody
    have hnil : js = [] := by simpa using hnobody
    set checks := contributions.mapIdx fun j c =>
      if j = s.params.index then some d.dealing.commitments
      else c.verified? s.params session own j with hchecks
    obtain ⟨dealt, hdealt⟩ : checks ∈ Set.range (List.map some) := by
      rw [Set.range_list_map]
      intro check hcheck
      obtain ⟨j, hj⟩ := List.mem_iff_getElem?.1 hcheck
      cases check with
      | some vs => exact ⟨vs, rfl⟩
      | none => exact absurd ((hjs.mem_iff j).2 hj) (hnil ▸ List.not_mem_nil)
    obtain ⟨hlen, hall⟩ := checks_eq_map_some_iff.1 (hchecks.symm.trans hdealt.symm)
    have haccepts : s.AcceptsAll contributions dealt :=
      ⟨hmapM, hlen, session, d, own, hsession, hd, hown, hall⟩
    refine Or.inr ⟨contributions, dealt, haccepts, ?_⟩
    by_contra hkey
    rw [← hdealt, filterMap_id_map_some,
      Result.map_eq_error_iff] at he
    obtain ⟨k, hk⟩ := h.fits haccepts (dealt.map fun vs => vs.headD 0).sum
    rw [assemble_eq_ok_iff.2 ⟨_, head?_sumCommitments_succ .., hkey, hk⟩] at he
    cases he

/-! ## Places -/

/-- Every place that the rounds and the storing of messages look at exists: the own place and every
seat are places of the slots and the points, a dealing has a share for each of them, and what is
published has a point for every coefficient. -/
structure State.InBounds (s : State) : Prop where
  own : s.params.index < s.params.parties.size
  seat : ∀ {p j}, s.params.parties.seat? p = some j → j < s.params.parties.size
  others : ∀ p ∈ s.params.parties.exclude s.params.index,
    ∃ j < s.params.parties.size, p.index = some j
  expected : ∀ round ∈ rounds s.params, round.expected.length ≤ s.params.parties.size
  points : s.points.length = s.params.parties.size
  commits : s.commits.length = s.params.parties.size
  shares : s.shares.length = s.params.parties.size
  reveals : s.reveals.length = s.params.parties.size
  dealt : ∀ {d}, s.dealt = some d → d.dealing.shares.length = s.params.parties.size ∧
    d.dealing.commitments.length = s.params.threshold + 1
  accepted : ∀ {contributions dealt}, s.AcceptsAll contributions dealt →
    dealt.length = s.params.parties.size ∧ ∀ vs ∈ dealt, vs.length = s.params.threshold + 1

theorem State.Prepared.inBounds (hs : s.Prepared params) (hparams : params.Proper)
    (hdealt : ∀ d, s.dealt = some d → s.HasDealt d) : s.InBounds := by
  have hlen := hs.length_points
  obtain ⟨rfl, -, hcommits, hshares, hreveals⟩ := hs
  refine
    { own := hparams.index_lt
      seat := fun hj => (Committee.seat?_eq_some_iff.1 hj).2.1
      others := fun p hp => hparams.parties.exists_index_of_mem_exclude hp
      expected := fun round hround => ?_
      points := hlen
      commits := hcommits
      shares := hshares
      reveals := hreveals
      dealt := fun hd => ⟨(hdealt _ hd).length_shares.trans hlen, (hdealt _ hd).length_commitments⟩
      accepted := fun {contributions dealt} haccepts => ?_ }
  · rcases mem_rounds_iff.1 hround with rfl | rfl | rfl
    · exact le_rfl
    · exact le_rfl
    · exact Nat.zero_le _
  · obtain ⟨session, d, own, -, hd, -, hpassed⟩ := haccepts.passed
    refine ⟨?_, fun vs hvs => ?_⟩
    · rw [haccepts.length_dealt, Result.length_of_mapM haccepts.gathered, List.length_range]
    · obtain ⟨j, hj, rfl⟩ := List.mem_iff_getElem.1 hvs
      have hcheck := hpassed j _ _ (List.getElem?_eq_getElem (haccepts.length_dealt ▸ hj))
        (List.getElem?_eq_getElem hj)
      split at hcheck
      · rw [hcheck]
        exact (hdealt d hd).length_commitments
      · exact hcheck.length

end

end ThresholdKeys.Keygen
