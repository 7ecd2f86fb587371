import Mathlib
import ThresholdKeys.Proofs.Engine.Invariant
import ThresholdKeys.Proofs.Engine.Outcome
import ThresholdKeys.Proofs.Keygen.Entry

/-!
# What a participant of key generation holds

The invariant of a participant under arbitrary calls: its own dealing and the opening of its
commitment from round 1 on, the session over the commitments in its slots from round 2 on, and for
a key share that it has put out, the contributions which the share was made from. Messages may
come from anybody and in any order.
-/

namespace ThresholdKeys.Keygen

/-- A later state: nothing that was dealt, fixed or admitted is lost. -/
structure State.Extends (s s' : State) : Prop where
  params : s'.params = s.params
  points : s'.points = s.points
  dealt : s'.dealt = s.dealt
  session : s'.session = s.session
  length_commits : s'.commits.length = s.commits.length
  length_shares : s'.shares.length = s.shares.length
  length_reveals : s'.reveals.length = s.reveals.length
  commits : ∀ {j c}, s.commits.admitted? true j = some c → s'.commits.admitted? true j = some c
  shares : ∀ {j x}, s.shares.admitted? false j = some x → s'.shares.admitted? false j = some x
  reveals : ∀ {j r}, s.reveals.admitted? true j = some r → s'.reveals.admitted? true j = some r

theorem State.Extends.refl (s : State) : s.Extends s :=
  ⟨rfl, rfl, rfl, rfl, rfl, rfl, rfl, id, id, id⟩

theorem State.extends_of_store {s s' : State} {m : Message Payload} (h : s.store m = .ok s') :
    s.Extends s' := by
  unfold State.store at h
  split at h
  · cases h
  · split at h <;> obtain rfl := Except.ok.inj h
    · exact { State.Extends.refl s with
        length_commits := Slots.length_store ..
        commits := fun hj => Slots.admitted?_store hj .. }
    · exact { State.Extends.refl s with
        length_shares := Slots.length_store ..
        shares := fun hj => Slots.admitted?_store hj .. }
    · exact { State.Extends.refl s with
        length_reveals := Slots.length_store ..
        reveals := fun hj => Slots.admitted?_store hj .. }

/-- The contribution in the slots at place `j`. -/
structure State.Holds (s : State) (j : ℕ) (c : Contribution) : Prop where
  commit : s.commits.admitted? true j = some c.commitment
  share : s.shares.admitted? false j = some c.share
  reveal : s.reveals.admitted? true j = some (c.opening, c.proof)

theorem State.Holds.mono {s s' : State} {j : ℕ} {c : Contribution} (h : s.Holds j c)
    (hs : s.Extends s') : s'.Holds j c :=
  ⟨hs.commits h.commit, hs.shares h.share, hs.reveals h.reveal⟩

structure State.Prepared (s : State) (params : Parameters) : Prop where
  params_eq : s.params = params
  points_eq : params.parties.points = .ok s.points
  length_commits : s.commits.length = params.parties.size
  length_shares : s.shares.length = params.parties.size
  length_reveals : s.reveals.length = params.parties.size

theorem State.Prepared.length_points {s : State} {params : Parameters} (h : s.Prepared params) :
    s.points.length = params.parties.size :=
  Result.length_of_mapM h.points_eq

theorem State.Prepared.mono {s s' : State} {params : Parameters} (h : s.Prepared params)
    (hs : s.Extends s') : s'.Prepared params where
  params_eq := hs.params.trans h.params_eq
  points_eq := by rw [hs.points, h.points_eq]
  length_commits := hs.length_commits.trans h.length_commits
  length_shares := hs.length_shares.trans h.length_shares
  length_reveals := hs.length_reveals.trans h.length_reveals

/-- The participant has dealt a polynomial to distinct points and has committed to it. -/
structure State.HasDealt (s : State) (d : Dealt) : Prop where
  dealt : s.dealt = some d
  nodup : s.points.Nodup
  threshold_lt : s.params.threshold < s.points.length
  dealing : ∃ coefficients : List Scalar, coefficients.length = s.params.threshold + 1 ∧
    d.dealing = Dealing.ofPolynomial s.params.threshold coefficients s.points
  reveals : d.opening.Reveals d.dealing.commitments
  commit : s.params.index < s.commits.length →
    s.commits.admitted? true s.params.index = some d.opening.commitment

theorem State.HasDealt.length_commitments {s : State} {d : Dealt} (h : s.HasDealt d) :
    d.dealing.commitments.length = s.params.threshold + 1 := by
  obtain ⟨coefficients, hlen, hd⟩ := h.dealing
  rw [hd, Dealing.length_commitments_ofPolynomial, hlen]

theorem State.HasDealt.length_shares {s : State} {d : Dealt} (h : s.HasDealt d) :
    d.dealing.shares.length = s.points.length := by
  obtain ⟨coefficients, -, hd⟩ := h.dealing
  rw [hd, Dealing.length_shares_ofPolynomial]

theorem State.HasDealt.exists_point {s : State} {d : Dealt} (h : s.HasDealt d) {j : ℕ} {x : Share}
    (hx : d.dealing.shares[j]? = some x) : ∃ own, s.points[j]? = some own := by
  obtain ⟨coefficients, -, hd⟩ := h.dealing
  obtain ⟨own, hown, -⟩ := Dealing.getElem?_shares_ofPolynomial_eq_some_iff.1 (hd ▸ hx)
  exact ⟨own, hown⟩

theorem State.HasDealt.mono {s s' : State} {d : Dealt} (h : s.HasDealt d) (hs : s.Extends s') :
    s'.HasDealt d where
  dealt := hs.dealt.trans h.dealt
  nodup := hs.points ▸ h.nodup
  threshold_lt := by rw [hs.points, hs.params]; exact h.threshold_lt
  dealing := by rw [hs.points, hs.params]; exact h.dealing
  reveals := h.reveals
  commit hi := by
    rw [hs.params] at hi ⊢
    rw [hs.length_commits] at hi
    exact hs.commits (h.commit hi)

/-- The session is over the admitted commitments, and the own slots are filled. -/
structure State.InSession (s : State) (d : Dealt) (session : Session) : Prop where
  session_eq : s.session = some session
  commitments : ∃ commitments : List Commitment, commitments.length = s.commits.length ∧
    (∀ j c, commitments[j]? = some c → s.commits.admitted? true j = some c) ∧
    session = .new task s.params.curve s.params.parties s.params.threshold commitments
  own : ∃ c, s.Holds s.params.index c ∧ d.dealing.shares[s.params.index]? = some c.share ∧
    c.opening = d.opening ∧ c.commitment = d.opening.commitment

theorem State.InSession.mono {s s' : State} {d : Dealt} {session : Session}
    (h : s.InSession d session) (hs : s.Extends s') : s'.InSession d session where
  session_eq := hs.session.trans h.session_eq
  commitments := by
    obtain ⟨commitments, hlen, hall, hsession⟩ := h.commitments
    rw [hs.length_commits, hs.params]
    exact ⟨commitments, hlen, fun j c hc => hs.commits (hall j c hc), hsession⟩
  own := by
    obtain ⟨c, hc, hown⟩ := h.own
    rw [hs.params]
    exact ⟨c, hc.mono hs, hown⟩

/-- What a key share was made from: every participant's contribution as it stands in the slots,
and the points that it publishes. -/
structure State.Issued (s : State) (d : Dealt) (session : Session) (k : KeyShare)
    (contributions : List Contribution) (dealt : List (List Point)) : Prop where
  holds : ∀ j c, contributions[j]? = some c → s.Holds j c
  length_contributions : contributions.length = s.params.parties.size
  length_dealt : dealt.length = s.params.parties.size
  own : dealt[s.params.index]? = some d.dealing.commitments
  sound : ∀ j c vs, j ≠ s.params.index → contributions[j]? = some c → dealt[j]? = some vs →
    ∃ own, s.points[s.params.index]? = some own ∧ c.Sound s.params session own j vs
  publicKey : (sumCommitments (s.params.threshold + 1) dealt).head? = some k.publicKey
  publicKey_ne_zero : k.publicKey ≠ 0
  publicShares : k.publicShares =
    s.points.map (evaluateCommitments (sumCommitments (s.params.threshold + 1) dealt))
  secret : k.publicShares[s.params.index]? = some (k.secret • Point.generator)
  fields : k.threshold = s.params.threshold ∧ k.parties = s.params.parties ∧
    k.index = s.params.index

theorem State.Issued.mono {s s' : State} {d : Dealt} {session : Session} {k : KeyShare}
    {contributions : List Contribution} {dealt : List (List Point)}
    (h : s.Issued d session k contributions dealt) (hs : s.Extends s') :
    s'.Issued d session k contributions dealt where
  holds j c hc := (h.holds j c hc).mono hs
  length_contributions := by rw [hs.params]; exact h.length_contributions
  length_dealt := by rw [hs.params]; exact h.length_dealt
  own := by rw [hs.params]; exact h.own
  sound := by rw [hs.params, hs.points]; exact h.sound
  publicKey := by rw [hs.params]; exact h.publicKey
  publicKey_ne_zero := h.publicKey_ne_zero
  publicShares := by rw [hs.params, hs.points]; exact h.publicShares
  secret := by rw [hs.params]; exact h.secret
  fields := by rw [hs.params]; exact h.fields

/-- The invariant of a participant that has entered `k` rounds. -/
structure Invariant (params : Parameters) (k : ℕ) (s : State) (results : List KeyShare) :
    Prop where
  prepared : s.Prepared params
  dealt : 1 ≤ k → ∃ d, s.HasDealt d
  session : 2 ≤ k → ∃ d session, s.HasDealt d ∧ s.InSession d session
  none : k ≤ 2 → results = []
  issued : ∀ share ∈ results, ∃ d session contributions dealt, s.HasDealt d ∧
    s.InSession d session ∧ s.Issued d session share contributions dealt

theorem Invariant.mono {params : Parameters} {k : ℕ} {s s' : State} {results : List KeyShare}
    (h : Invariant params k s results) (hs : s.Extends s') : Invariant params k s' results where
  prepared := h.prepared.mono hs
  dealt hk := by
    obtain ⟨d, hd⟩ := h.dealt hk
    exact ⟨d, hd.mono hs⟩
  session hk := by
    obtain ⟨d, session, hd, hsession⟩ := h.session hk
    exact ⟨d, session, hd.mono hs, hsession.mono hs⟩
  none := h.none
  issued share hshare := by
    obtain ⟨d, session, contributions, dealt, hd, hsession, hissued⟩ := h.issued share hshare
    exact ⟨d, session, contributions, dealt, hd.mono hs, hsession.mono hs, hissued.mono hs⟩

/-! ## The rounds keep the invariant -/

variable {params : Parameters} {s : State} {e : Step} {results : List KeyShare}

theorem Invariant.enterCommit (h : Invariant params 0 s results)
    (he : enterCommit s = .ok e) : Invariant params 1 e.state (results ++ e.result.toList) := by
  obtain ⟨dealing, source₁, c, o, source₂, hcreate, hcommit, rfl⟩ := enterCommit_eq_ok_iff.1 he
  obtain ⟨hlt, -, hnodup, rfl, -⟩ := Dealing.create_eq_ok_iff.1 hcreate
  obtain ⟨rfl, hreveals⟩ := Dealing.reveals_of_commit hcommit
  have hnone : results = [] := h.none (Nat.zero_le 2)
  have hdealt : State.HasDealt { s with
      source := source₂
      dealt := some ⟨s.source.nextNonzeroScalar.1, _, o⟩
      commits := s.commits.put s.params.index ⟨o.commitment, true⟩ } _ :=
    ⟨rfl, hnodup, hlt, ⟨_, Dealing.length_coefficients .., rfl⟩, hreveals, fun hi =>
      Slots.admitted?_put (by rwa [Slots.length_put] at hi) _⟩
  exact
    { prepared := ⟨h.prepared.params_eq, h.prepared.points_eq,
        (Slots.length_put ..).trans h.prepared.length_commits, h.prepared.length_shares,
        h.prepared.length_reveals⟩
      dealt := fun _ => ⟨_, hdealt⟩
      session := fun hk => absurd hk (by omega)
      none := fun _ => by rw [hnone]; rfl
      issued := by simp [hnone] }

theorem Invariant.enterReveal (h : Invariant params 1 s results)
    (hall : ∀ j < params.parties.size, hasCommit s j = true) (he : enterReveal s = .ok e) :
    Invariant params 2 e.state (results ++ e.result.toList) := by
  obtain ⟨session, d, point, own, proof, source, messages, hsession, hd, -, hown, -, -, rfl⟩ :=
    enterReveal_eq_ok_iff.1 he
  obtain ⟨d', hd'⟩ := h.dealt le_rfl
  obtain rfl : d' = d := Option.some.inj (hd'.dealt.symm.trans hd)
  have hnone : results = [] := h.none (Nat.le_succ 1)
  obtain ⟨hparams, hpoints, hcommits, hshares, hreveals⟩ := h.prepared
  -- the own share exists, so the own index is one of a participant
  have hi : s.params.index < s.params.parties.size := by
    have hlt := (List.getElem?_eq_some_iff.1 hown).1
    rwa [hd'.length_shares, h.prepared.length_points, ← hparams] at hlt
  have hdealt : State.HasDealt { s with
      source, session := some session
      shares := s.shares.put s.params.index ⟨own, false⟩
      reveals := s.reveals.put s.params.index ⟨(d'.opening, proof), true⟩ } d' :=
    ⟨hd'.dealt, hd'.nodup, hd'.threshold_lt, hd'.dealing, hd'.reveals, hd'.commit⟩
  obtain ⟨commitments, hlen, hitems, rfl⟩ := sessionOf_eq_ok_iff.1 hsession
  have hadmitted (j : ℕ) (c : Commitment) (hc : commitments[j]? = some c) :
      s.commits.admitted? true j = some c := by
    have hj := (List.getElem?_eq_some_iff.1 hc).1
    obtain ⟨c', hc'⟩ := Option.isSome_iff_exists.1 (hall j (by omega))
    rw [hc', ← hitems j c hc, Slots.item?_of_admitted? hc']
  refine
    { prepared := ⟨hparams, hpoints, hcommits, (Slots.length_put ..).trans hshares,
        (Slots.length_put ..).trans hreveals⟩
      dealt := fun _ => ⟨_, hdealt⟩
      session := fun _ => ⟨_, _, hdealt, ⟨rfl, ⟨commitments, hlen, hadmitted, rfl⟩, ?_⟩⟩
      none := fun _ => by rw [hnone]; rfl
      issued := by simp [hnone] }
  rw [hparams] at hi
  refine ⟨⟨d'.opening.commitment, own, d'.opening, proof⟩, ⟨?_, ?_, ?_⟩, hown, rfl, rfl⟩
  · exact hd'.commit (by rw [hcommits, hparams]; exact hi)
  · exact Slots.admitted?_put (by rw [hshares, hparams]; exact hi) _
  · exact Slots.admitted?_put (by rw [hreveals, hparams]; exact hi) _

theorem holds_of_contribution {j : ℕ} {c : Contribution} (hc : contribution s j = .ok c)
    (hcommit : hasCommit s j = true) (hreveal : hasReveal s j = true) : s.Holds j c := by
  obtain ⟨hcommitment, hshare, hopening⟩ := contribution_eq_ok_iff.1 hc
  obtain ⟨c', hc'⟩ := Option.isSome_iff_exists.1 hcommit
  rw [hasReveal, Bool.and_eq_true] at hreveal
  obtain ⟨x', hx'⟩ := Option.isSome_iff_exists.1 hreveal.1
  obtain ⟨r', hr'⟩ := Option.isSome_iff_exists.1 hreveal.2
  refine ⟨?_, ?_, ?_⟩
  · rw [hc', ← hcommitment, Slots.item?_of_admitted? hc']
  · rw [hx', ← hshare, Slots.item?_of_admitted? hx']
  · rw [hr', ← hopening, Slots.item?_of_admitted? hr']

theorem Invariant.issued_of_assemble (h : Invariant params 2 s results)
    (hall : ∀ j < params.parties.size, hasReveal s j = true) {d : Dealt} {session : Session}
    (hsession : s.InSession d session) {own : Scalar} (hown : s.points[s.params.index]? = some own)
    {contributions : List Contribution} {dealt : List (List Point)} {k : KeyShare}
    (hmapM : (List.range s.params.parties.size).mapM (contribution s) = .ok contributions)
    (hlen : dealt.length = contributions.length)
    (hsound : ∀ j c vs, contributions[j]? = some c → dealt[j]? = some vs →
      if j = s.params.index then vs = d.dealing.commitments
      else c.Sound s.params session own j vs)
    (hk : assemble s contributions dealt = .ok k) : s.Issued d session k contributions dealt := by
  have hparams := h.prepared.params_eq
  obtain ⟨commitments, hcount, hcommits, -⟩ := hsession.commitments
  obtain ⟨publicKey, hhead, hne, hmake⟩ := assemble_eq_ok_iff.1 hk
  obtain ⟨-, hi, hsecret, rfl⟩ := KeyShare.make_eq_ok_iff.1 hmake
  have hsize : contributions.length = s.params.parties.size := by
    rw [Result.length_of_mapM hmapM, List.length_range]
  exact
    { holds := fun j c hc => by
        obtain ⟨j', hj', hc'⟩ := Result.getElem?_of_mapM hmapM hc
        obtain ⟨hj, rfl⟩ := List.getElem?_eq_some_iff.1 hj'
        rw [List.length_range, hparams] at hj
        rw [List.getElem_range] at hc'
        refine holds_of_contribution hc' ?_ (hall j hj)
        have hj' : j < commitments.length := by
          rw [hcount, h.prepared.length_commits]
          exact hj
        rw [hasCommit, hcommits j _ (List.getElem?_eq_getElem hj')]
        rfl
      length_contributions := hsize
      length_dealt := hlen.trans hsize
      own := by
        have hi' : s.params.index < contributions.length := hsize.symm ▸ hi
        have hi'' : s.params.index < dealt.length := hlen.symm ▸ hi'
        have hown' := hsound _ _ _ (List.getElem?_eq_getElem hi') (List.getElem?_eq_getElem hi'')
        rw [if_pos rfl] at hown'
        rw [List.getElem?_eq_getElem hi'', hown']
      sound := fun j c vs hj hc hvs => by
        have hcheck := hsound j c vs hc hvs
        rw [if_neg hj] at hcheck
        exact ⟨own, hown, hcheck⟩
      publicKey := hhead
      publicKey_ne_zero := hne
      publicShares := rfl
      secret := hsecret
      fields := ⟨rfl, rfl, rfl⟩ }

theorem Invariant.enterVerify (h : Invariant params 2 s results)
    (hall : ∀ j < params.parties.size, hasReveal s j = true) (he : enterVerify s = .ok e) :
    Invariant params 3 e.state (results ++ e.result.toList) := by
  obtain ⟨session, d, own, contributions, dealt, k, hsession, hd, hown, hmapM, hlen, hsound, hk,
    rfl⟩ := enterVerify_eq_ok_iff.1 he
  obtain ⟨d', session', hd', hsession'⟩ := h.session le_rfl
  obtain rfl : d' = d := Option.some.inj (hd'.dealt.symm.trans hd)
  obtain rfl : session' = session := Option.some.inj (hsession'.session_eq.symm.trans hsession)
  exact
    { prepared := h.prepared
      dealt := fun _ => ⟨_, hd'⟩
      session := fun _ => ⟨_, _, hd', hsession'⟩
      none := fun hk => absurd hk (by omega)
      issued := fun share hshare => by
        rw [h.none le_rfl, List.nil_append, Option.mem_toList] at hshare
        obtain rfl := Option.some.inj hshare
        exact ⟨_, _, _, _, hd', hsession',
          h.issued_of_assemble hall hsession' hown hmapM hlen hsound hk⟩ }

def rounds (params : Parameters) : List (Round State Payload KeyShare) :=
  [commitRound params, revealRound params, verifyRound]

theorem hasCommit_mono {s s' : State} (hs : s.Extends s') {j : ℕ} (h : hasCommit s j = true) :
    hasCommit s' j = true := by
  obtain ⟨c, hc⟩ := Option.isSome_iff_exists.1 h
  exact Option.isSome_iff_exists.2 ⟨c, hs.commits hc⟩

theorem hasReveal_mono {s s' : State} (hs : s.Extends s') {j : ℕ} (h : hasReveal s j = true) :
    hasReveal s' j = true := by
  rw [hasReveal, Bool.and_eq_true] at h ⊢
  obtain ⟨x, hx⟩ := Option.isSome_iff_exists.1 h.1
  obtain ⟨r, hr⟩ := Option.isSome_iff_exists.1 h.2
  exact ⟨Option.isSome_iff_exists.2 ⟨x, hs.shares hx⟩,
    Option.isSome_iff_exists.2 ⟨r, hs.reveals hr⟩⟩

theorem getElem?_rounds {params : Parameters} {k : ℕ} {round : Round State Payload KeyShare}
    (h : (rounds params)[k]? = some round) :
    k = 0 ∧ round = commitRound params ∨ k = 1 ∧ round = revealRound params ∨
      k = 2 ∧ round = verifyRound := by
  rcases k with _ | _ | _ | k
  · exact Or.inl ⟨rfl, (Option.some.inj h).symm⟩
  · exact Or.inr (Or.inl ⟨rfl, (Option.some.inj h).symm⟩)
  · exact Or.inr (Or.inr ⟨rfl, (Option.some.inj h).symm⟩)
  · cases h

theorem mem_rounds_iff {round : Round State Payload KeyShare} : round ∈ rounds params ↔
    round = commitRound params ∨ round = revealRound params ∨ round = verifyRound := by
  simp [rounds]

/-- What has arrived for a round is not lost. -/
theorem hasArrived_mono {s s' : State} (hs : s.Extends s') {round : Round State Payload KeyShare}
    (hround : round ∈ rounds params) {j : ℕ} (hj : round.hasArrived s j = true) :
    round.hasArrived s' j = true := by
  rcases mem_rounds_iff.1 hround with rfl | rfl | rfl
  · exact hasCommit_mono hs hj
  · exact hasReveal_mono hs hj
  · cases hj

theorem keeps (params : Parameters) :
    Party.Keeps protocol (rounds params) fun k s _ results => Invariant params k s results where
  enter {k s sent results round entry} hround hinv hall he := by
    rcases getElem?_rounds hround with ⟨rfl, rfl⟩ | ⟨rfl, rfl⟩ | ⟨rfl, rfl⟩
    · exact hinv.enterCommit he
    · exact hinv.enterReveal (hall 0 _ rfl rfl) he
    · exact hinv.enterVerify (hall 1 _ rfl rfl) he
  ticked {k s sent results round entry} hround hinv he := by
    rcases getElem?_rounds hround with ⟨rfl, rfl⟩ | ⟨rfl, rfl⟩ | ⟨rfl, rfl⟩
    · obtain ⟨_, _, _, _, _, -, -, rfl⟩ := enterCommit_eq_ok_iff.1 he
      simp only [List.mem_singleton, forall_eq]
      intro hi
      rw [hinv.prepared.params_eq] at hi
      have hlt : s.params.index < s.commits.length := by
        rwa [hinv.prepared.length_commits, hinv.prepared.params_eq]
      exact Option.isSome_iff_exists.2 ⟨_, Slots.admitted?_put hlt _⟩
    · obtain ⟨_, _, _, _, _, _, _, -, -, -, -, -, -, rfl⟩ := enterReveal_eq_ok_iff.1 he
      simp only [List.mem_singleton, forall_eq]
      intro hi
      rw [hinv.prepared.params_eq] at hi
      have hlt : s.params.index < s.shares.length := by
        rwa [hinv.prepared.length_shares, hinv.prepared.params_eq]
      have hlt' : s.params.index < s.reveals.length := by
        rwa [hinv.prepared.length_reveals, hinv.prepared.params_eq]
      exact Bool.and_eq_true_iff.2
        ⟨Option.isSome_iff_exists.2 ⟨_, Slots.admitted?_put hlt _⟩,
          Option.isSome_iff_exists.2 ⟨_, Slots.admitted?_put hlt' _⟩⟩
    · obtain ⟨_, _, _, _, _, _, -, -, -, -, -, -, -, rfl⟩ := enterVerify_eq_ok_iff.1 he
      exact fun j hj => absurd hj List.not_mem_nil
  store {k s sent results m s'} _ hinv hs := hinv.mono (State.extends_of_store hs)
  arrived _ hround hs hj := hasArrived_mono (State.extends_of_store hs) hround hj

theorem follows_newParty {params : Parameters} {source : Source} {p : Party State Payload KeyShare}
    (hp : newParty params source = .ok p) :
    Party.Follows protocol (rounds params) (fun k s _ results => Invariant params k s results) 0
      p := by
  obtain ⟨s, hs, hp⟩ := Result.bind_eq_ok_iff.1 hp
  obtain rfl := Except.ok.inj hp
  obtain ⟨points, hpoints, hs⟩ := Result.bind_eq_ok_iff.1 hs
  obtain rfl := Except.ok.inj hs
  exact ⟨rfl, ⟨rfl, rfl⟩,
    { prepared := ⟨rfl, hpoints, Slots.length_empty _, Slots.length_empty _, Slots.length_empty _⟩
      dealt := fun h => absurd h (by omega)
      session := fun h => absurd h (by omega)
      none := fun _ => rfl
      issued := fun _ h => absurd h List.not_mem_nil }⟩

theorem protocol_of_run {params : Parameters} {source : Source} {p : Party State Payload KeyShare}
    (hp : newParty params source = .ok p) (calls : List (Call Payload)) :
    (p.run calls).protocol = protocol :=
  (Party.frame_of_moves (p.moves_run calls)).1.trans (follows_newParty hp).protocol

end ThresholdKeys.Keygen
