import Mathlib
import ThresholdKeys.Keygen.Rounds
import ThresholdKeys.Proofs.Engine.Slots
import ThresholdKeys.Proofs.Sharing.Dealer
import ThresholdKeys.Proofs.Sharing.Quorum

/-!
# When the rounds of key generation are entered

For each round, the conditions under which a participant enters it, and what it does then.
-/

namespace ThresholdKeys.Keygen

/-! ## Rounds 1 and 2 -/

theorem enterCommit_eq_ok_iff {s : State} {e : Step} :
    enterCommit s = .ok e ↔ ∃ dealing source₁ commitment opening source₂,
      Dealing.create s.source.nextNonzeroScalar.2 s.params.threshold
          s.source.nextNonzeroScalar.1 s.points = .ok (dealing, source₁) ∧
        dealing.commit source₁ = .ok ((commitment, opening), source₂) ∧
        e = {
          state := { s with
            source := source₂
            dealt := some ⟨s.source.nextNonzeroScalar.1, dealing, opening⟩
            commits := s.commits.put s.params.index ⟨commitment, true⟩ }
          ticked := [s.params.index]
          sent := [.broadcast s.params.id .new (.commit commitment)] } := by
  simp only [enterCommit, Result.bind_eq_ok_iff, Result.pure_eq_ok, Except.ok.injEq, Prod.exists]
  constructor
  · rintro ⟨dealing, source₁, hcreate, commitment, opening, source₂, hcommit, rfl⟩
    exact ⟨dealing, source₁, commitment, opening, source₂, hcreate, hcommit, rfl⟩
  · rintro ⟨dealing, source₁, commitment, opening, source₂, hcreate, hcommit, rfl⟩
    exact ⟨dealing, source₁, hcreate, commitment, opening, source₂, hcommit, rfl⟩

theorem sessionOf_eq_ok_iff {s : State} {session : Session} :
    sessionOf s = .ok session ↔ ∃ commitments : List Commitment,
      commitments.length = s.commits.length ∧
        (∀ j c, commitments[j]? = some c → s.commits.item? j = some c) ∧
        session = .new task s.params.curve s.params.parties s.params.threshold commitments := by
  simp only [sessionOf, Result.bind_eq_ok_iff, Result.pure_eq_ok, Except.ok.injEq,
    Result.mapM_eq_ok_iff, List.forall₂_iff_get, List.length_range, List.get_eq_getElem,
    List.getElem_range]
  apply exists_congr
  intro commitments
  constructor
  · rintro ⟨⟨hlen, hitems⟩, rfl⟩
    refine ⟨hlen.symm, ?_, rfl⟩
    intro j c hc
    obtain ⟨hj, rfl⟩ := List.getElem?_eq_some_iff.1 hc
    have hitem := hitems j (hlen ▸ hj) hj
    split at hitem
    · rename_i c' hc'
      rw [hc', Except.ok.inj hitem]
    · cases hitem
  · rintro ⟨hlen, hitems, rfl⟩
    refine ⟨⟨hlen.symm, ?_⟩, rfl⟩
    intro j _ hj
    rw [hitems j _ (List.getElem?_eq_getElem hj)]

theorem enterReveal_eq_ok_iff {s : State} {e : Step} :
    enterReveal s = .ok e ↔ ∃ session d point own proof source messages,
      sessionOf s = .ok session ∧ s.dealt = some d ∧
        d.dealing.commitments.head? = some point ∧ d.dealing.shares[s.params.index]? = some own ∧
        Schnorr.prove ⟨s.params.curve, point, s.params.version⟩ d.secret
          (session.transcriptFor s.params.index) s.source = .ok (proof, source) ∧
        shareMessages s d.dealing = .ok messages ∧
        e = {
          state := { s with
            source
            session := some session
            shares := s.shares.put s.params.index ⟨own, false⟩
            reveals := s.reveals.put s.params.index ⟨(d.opening, proof), true⟩ }
          ticked := [s.params.index]
          sent := messages ++ [.broadcast s.params.id .new (.reveal d.opening proof)] } := by
  constructor
  · intro h
    obtain ⟨session, hsession, h⟩ := Result.bind_eq_ok_iff.1 h
    split at h
    · cases h
    · rename_i d hd
      split at h
      · rename_i point own hpoint hown
        obtain ⟨⟨proof, source⟩, hprove, h⟩ := Result.bind_eq_ok_iff.1 h
        obtain ⟨messages, hmessages, he⟩ := Result.bind_eq_ok_iff.1 h
        exact ⟨session, d, point, own, proof, source, messages, hsession, hd, hpoint, hown, hprove,
          hmessages, (Except.ok.inj he).symm⟩
      · cases h
  · rintro ⟨session, d, point, own, proof, source, messages, hsession, hd, hpoint, hown, hprove,
      hmessages, rfl⟩
    simp only [enterReveal, hsession, hd, hpoint, hown, hprove, hmessages, Result.ok_bind]
    rfl

/-- The shares of a dealing go to the participants at all other places, in their order. -/
theorem shareMessages_dealing {s : State} {d : Dealer} (hproper : s.params.parties.Proper)
    (hids : d.ids = s.params.parties.members.map Committee.pointOf) :
    shareMessages s d.dealing =
      .ok (((List.range s.params.parties.size).filter (· ≠ s.params.index)).map fun j =>
        .direct s.params.id (s.params.parties.member j) .new
          (.share (d.share (Committee.pointOf (s.params.parties.member j))))) := by
  rw [shareMessages, hproper.exclude_eq, Result.mapM_eq_ok_iff, List.forall₂_map_left_iff,
    List.forall₂_map_right_iff]
  refine List.forall₂_same.2 fun j hj => ?_
  have hj' : j < s.params.parties.size := List.mem_range.1 (List.mem_filter.1 hj).1
  rw [hproper.index_member hj', Option.bind_some, Dealer.getElem?_shares hids hj']

/-! ## Round 3 -/

/-- A contribution in order in every respect, with the points that it publishes. -/
structure Contribution.Sound (c : Contribution) (params : Parameters) (session : Session)
    (own : Scalar) (j : ℕ) (vs : List Point) : Prop where
  opens : c.opening.commitment = c.commitment
  reveals : c.opening.Reveals vs
  length : vs.length = params.threshold + 1
  proof : ∃ point, vs.head? = some point ∧ c.proof.verify ⟨params.curve, point, params.version⟩
    (session.transcriptFor j) = .ok ()
  addressed : c.share.id = own
  share : c.share.Verifies params.threshold vs

theorem Contribution.verified?_eq_some_iff {c : Contribution} {params : Parameters}
    {session : Session} {own : Scalar} {j : ℕ} {vs : List Point} :
    c.verified? params session own j = some vs ↔ c.Sound params session own j vs := by
  have hproof {r : Result Unit} {u : Unit} : r.toOption = some u ↔ r = .ok () := by
    cases r <;> simp [Except.toOption]
  simp only [verified?, Option.bind_eq_bind, Option.bind_eq_some_iff,
    Commitment.reveal?_eq_some_iff, Option.ite_none_right_eq_some, Option.some.injEq, hproof]
  constructor
  · rintro ⟨_, ⟨hopens, hreveals, hlength⟩, point, hpoint, -, hverify, ⟨haddressed, hshare⟩, rfl⟩
    exact ⟨hopens, hreveals, hlength, ⟨point, hpoint, hverify⟩, haddressed, hshare⟩
  · rintro ⟨hopens, hreveals, hlength, ⟨point, hpoint, hverify⟩, haddressed, hshare⟩
    exact ⟨vs, ⟨hopens, hreveals, hlength⟩, point, hpoint, (), hverify,
      ⟨haddressed, hshare⟩, rfl⟩

theorem contribution_eq_ok_iff {s : State} {j : ℕ} {c : Contribution} :
    contribution s j = .ok c ↔ s.commits.item? j = some c.commitment ∧
      s.shares.item? j = some c.share ∧ s.reveals.item? j = some (c.opening, c.proof) := by
  obtain ⟨commitment, share, opening, proof⟩ := c
  unfold contribution
  cases s.commits.item? j <;> cases s.shares.item? j <;> cases s.reveals.item? j <;> simp
  simp [Prod.ext_iff]

theorem assemble_eq_ok_iff {s : State} {contributions : List Contribution}
    {dealt : List (List Point)} {k : KeyShare} :
    assemble s contributions dealt = .ok k ↔
      ∃ publicKey, (sumCommitments (s.params.threshold + 1) dealt).head? = some publicKey ∧
        publicKey ≠ 0 ∧
        KeyShare.make s.params.threshold s.params.parties s.params.index
          (Residue.sum (contributions.map fun c => c.share.value))
          (s.points.map (evaluateCommitments (sumCommitments (s.params.threshold + 1) dealt)))
          publicKey = .ok k := by
  unfold assemble
  dsimp only
  cases (sumCommitments (s.params.threshold + 1) dealt).head? with
  | none => simp
  | some publicKey =>
      dsimp only
      by_cases h : publicKey = 0
      · rw [if_pos ((Point.isIdentity_eq_true_iff _).2 h)]
        simp [h]
      · rw [if_neg (mt (Point.isIdentity_eq_true_iff _).1 h)]
        simp [h]

/-- The checks of round 3 pass everywhere: the own points stand for themselves, and every other
contribution is in order. -/
theorem checks_eq_map_some_iff {contributions : List Contribution} {params : Parameters}
    {session : Session} {own : Scalar} {published : List Point} {dealt : List (List Point)} :
    (contributions.mapIdx fun j c =>
        if j = params.index then some published else c.verified? params session own j) =
          dealt.map some ↔
      dealt.length = contributions.length ∧
        ∀ j c vs, contributions[j]? = some c → dealt[j]? = some vs →
          if j = params.index then vs = published else c.Sound params session own j vs := by
  rw [mapIdx_eq_map_some_iff]
  refine and_congr_right fun _ => forall_congr' fun j => forall_congr' fun c =>
    forall_congr' fun vs => forall₂_congr fun _ _ => ?_
  split
  · rw [Option.some.injEq, eq_comm]
  · exact Contribution.verified?_eq_some_iff

theorem enterVerify_eq_ok_iff {s : State} {e : Step} :
    enterVerify s = .ok e ↔ ∃ session d own contributions dealt k,
      s.session = some session ∧ s.dealt = some d ∧ s.points[s.params.index]? = some own ∧
        (List.range s.params.parties.size).mapM (contribution s) = .ok contributions ∧
        dealt.length = contributions.length ∧
        (∀ j c vs, contributions[j]? = some c → dealt[j]? = some vs →
          if j = s.params.index then vs = d.dealing.commitments
          else c.Sound s.params session own j vs) ∧
        assemble s contributions dealt = .ok k ∧ e = { state := s, result := some k } := by
  have hblame {contributions : List Contribution}
      (hall : (List.range s.params.parties.size).mapM (contribution s) = .ok contributions)
      (check : ℕ → Contribution → Option (List Point)) :=
    filterMap_isNone_eq_nil_iff (contributions.mapIdx check) s.params.parties.members (by
      rw [List.length_mapIdx, Result.length_of_mapM hall, List.length_range, Committee.size])
  constructor
  · intro h
    unfold enterVerify at h
    dsimp only at h
    split at h
    · rename_i session d own hsession hd hown
      obtain ⟨contributions, hall, h⟩ := Result.bind_eq_ok_iff.1 h
      split at h
      · cases h
      · rename_i hnobody
        obtain ⟨dealt, hdealt⟩ := (hblame hall _).1 (not_not.1 hnobody)
        rw [hdealt, filterMap_id_map_some] at h
        obtain ⟨k, hk, he⟩ := Result.bind_eq_ok_iff.1 h
        obtain ⟨hlen, hsound⟩ := checks_eq_map_some_iff.1 hdealt
        exact ⟨session, d, own, contributions, dealt, k, hsession, hd, hown, hall, hlen, hsound, hk,
          (Except.ok.inj he).symm⟩
    · cases h
  · rintro ⟨session, d, own, contributions, dealt, k, hsession, hd, hown, hall, hlen, hsound, hk,
      rfl⟩
    have hdealt := checks_eq_map_some_iff.2 ⟨hlen, hsound⟩
    simp only [enterVerify, hsession, hd, hown, hall, Result.ok_bind]
    rw [if_neg (not_not.2 ((hblame hall _).2 ⟨dealt, hdealt⟩)), hdealt, filterMap_id_map_some, hk]
    rfl

end ThresholdKeys.Keygen
