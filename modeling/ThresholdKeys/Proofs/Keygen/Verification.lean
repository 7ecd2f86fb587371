import Mathlib
import ThresholdKeys.Proofs.Keygen.Invariant

/-!
# Who is blamed in key generation

The last round checks every peer by itself: its opening against the commitment in its slot, and its
proof in the session over the commitments in all slots. It blames those whose check fails and nobody
else, and raises no fault if there are none.
-/

namespace ThresholdKeys.Keygen

/-- What the participant at a place has sent is in order against these commitments. -/
def State.Accepts (s : State) (commitments : List Commitment) (j : ℕ) : Prop :=
  ∃ own commitment share opening proof vs, s.points[s.params.index]? = some own ∧
    commitments[j]? = some commitment ∧ s.shares.admitted? false j = some share ∧
    s.reveals.admitted? true j = some (opening, proof) ∧
    Contribution.Sound ⟨commitment, share, opening, proof⟩ s.params
      (.new task s.params.curve s.params.parties s.params.threshold commitments) own j vs

/-- The slots for commitments are full: each holds the one in the list, as it was broadcast. -/
def State.Commits (s : State) (commitments : List Commitment) : Prop :=
  s.commits = commitments.map fun c => some ⟨c, true⟩

section

variable {params : Parameters} {s : State} {results : List KeyShare} {commitments : List Commitment}

theorem State.Commits.admitted? (h : s.Commits commitments) (j : ℕ) :
    s.commits.admitted? true j = commitments[j]? := by
  rw [Slots.admitted?, Slots.get?, h, List.getElem?_map]
  cases commitments[j]? <;> rfl

theorem State.Commits.item? (h : s.Commits commitments) (j : ℕ) :
    s.commits.item? j = commitments[j]? := by
  rw [Slots.item?, Slots.get?, h, List.getElem?_map]
  cases commitments[j]? <;> rfl

theorem State.commits_iff : s.Commits commitments ↔ commitments.length = s.commits.length ∧
    ∀ j c, commitments[j]? = some c → s.commits.admitted? true j = some c := by
  refine ⟨fun h => ⟨?_, fun j c hc => (h.admitted? j).trans hc⟩, fun ⟨hlen, hall⟩ => ?_⟩
  · rw [h, List.length_map]
  · apply List.ext_getElem
    · rw [List.length_map, hlen]
    · intro j hj hj'
      rw [List.length_map] at hj'
      have hget := Slots.admitted?_eq_some_iff.1 (hall j _ (List.getElem?_eq_getElem hj'))
      rw [Slots.get?, List.getElem?_eq_getElem hj, Option.join_some] at hget
      rw [hget, List.getElem_map]

/-- Once a session is fixed, it is over commitments that fill all slots. -/
theorem State.InSession.exists_commits {d : Dealt} {session : Session}
    (h : s.InSession d session) : ∃ commitments, s.Commits commitments ∧
      session = .new task s.params.curve s.params.parties s.params.threshold commitments := by
  obtain ⟨commitments, hlen, hall, hsession⟩ := h.commitments
  exact ⟨commitments, State.commits_iff.2 ⟨hlen, hall⟩, hsession⟩

theorem State.Commits.mono {s' : State} (h : s.Commits commitments) (hs : s.Extends s') :
    s'.Commits commitments := by
  rw [State.commits_iff] at h ⊢
  exact ⟨h.1.trans hs.length_commits.symm, fun j c hc => hs.commits (h.2 j c hc)⟩

theorem enterVerify_eq {session : Session} {d : Dealt} {own : Scalar}
    {contributions : List Contribution} (hsession : s.session = some session)
    (hd : s.dealt = some d) (hown : s.points[s.params.index]? = some own)
    (hall : (List.range s.params.parties.size).mapM (contribution s) = .ok contributions)
    {checks : List (Option (List Point))}
    (hchecks : checks = contributions.mapIdx fun j c =>
      if j = s.params.index then some d.dealing.commitments
      else c.verified? s.params session own j) :
    ∃ js, Enumerates js (fun j => checks[j]? = some none) ∧
      enterVerify s =
        if js.map s.params.parties.member ≠ [] then
          .error (.fault ⟨task, 3, js.map s.params.parties.member, .peerContribution⟩)
        else (assemble s contributions (checks.filterMap id)).map fun k =>
          { state := s, result := some k } := by
  have hlen : checks.length = s.params.parties.size := by
    rw [hchecks, List.length_mapIdx, Result.length_of_mapM hall, List.length_range]
  obtain ⟨js, hjs, hblame⟩ := exists_enumerates_isNone checks s.params.parties.member
  rw [hlen, ← Committee.members_eq] at hblame
  refine ⟨js, hjs, ?_⟩
  simp only [enterVerify, hsession, hd, hown, hall, Result.ok_bind]
  rw [← hchecks, hblame]
  split
  · rfl
  · cases assemble s contributions (checks.filterMap id) <;> rfl

theorem assemble_ne_fault (contributions : List Contribution) (dealt : List (List Point))
    (f : Fault) : assemble s contributions dealt ≠ .error (.fault f) := by
  unfold assemble KeyShare.make
  dsimp only
  split
  · exact fun h => by cases h
  · split_ifs <;> exact fun h => by cases h

theorem exists_contributions (hprepared : s.Prepared params) (hcommits : s.Commits commitments)
    (hall : ∀ j < params.parties.size, hasReveal s j = true) :
    ∃ contributions, (List.range s.params.parties.size).mapM (contribution s) = .ok contributions ∧
      contributions.length = params.parties.size ∧
      ∀ j c, contributions[j]? = some c → s.Holds j c := by
  have hsize : s.params.parties.size = params.parties.size := by rw [hprepared.params_eq]
  have hcommit (j : ℕ) (hj : j < params.parties.size) : hasCommit s j = true := by
    rw [hasCommit, hcommits.admitted?, List.getElem?_eq_getElem]
    · rfl
    · rwa [(State.commits_iff.1 hcommits).1, hprepared.length_commits]
  have hsome : ∀ j ∈ List.range s.params.parties.size, ∃ c, contribution s j = .ok c := by
    intro j hj
    rw [List.mem_range, hsize] at hj
    obtain ⟨c, hc⟩ := Option.isSome_iff_exists.1 (hcommit j hj)
    obtain ⟨x, hx⟩ := Option.isSome_iff_exists.1 (Bool.and_eq_true_iff.1 (hall j hj)).1
    obtain ⟨r, hr⟩ := Option.isSome_iff_exists.1 (Bool.and_eq_true_iff.1 (hall j hj)).2
    exact ⟨⟨c, x, r.1, r.2⟩, contribution_eq_ok_iff.2 ⟨Slots.item?_of_admitted? hc,
      Slots.item?_of_admitted? hx, Slots.item?_of_admitted? hr⟩⟩
  obtain ⟨contributions, hmapM⟩ := Result.exists_mapM_eq_ok hsome
  have hlen := Result.length_of_mapM hmapM
  rw [List.length_range, hsize] at hlen
  refine ⟨contributions, hmapM, hlen, fun j c hc => ?_⟩
  obtain ⟨j', hj', hcontribution⟩ := Result.getElem?_of_mapM hmapM hc
  obtain ⟨hj, rfl⟩ := List.getElem?_eq_some_iff.1 hj'
  rw [List.length_range, hsize] at hj
  rw [List.getElem_range] at hcontribution
  exact holds_of_contribution hcontribution (hcommit j hj) (hall j hj)

theorem State.Holds.accepts_iff {j : ℕ} {c : Contribution} {own : Scalar} (h : s.Holds j c)
    (hcommits : s.Commits commitments) (hown : s.points[s.params.index]? = some own) :
    s.Accepts commitments j ↔ ∃ vs, c.Sound s.params
      (.new task s.params.curve s.params.parties s.params.threshold commitments) own j vs := by
  have hcommit := (hcommits.admitted? j).symm.trans h.commit
  constructor
  · rintro ⟨own', commitment, share, opening, proof, vs, hown', hcommit', hshare, hreveal, hsound⟩
    obtain rfl := Option.some.inj (hown.symm.trans hown')
    obtain rfl := Option.some.inj (hcommit.symm.trans hcommit')
    obtain rfl := Option.some.inj (h.share.symm.trans hshare)
    obtain ⟨rfl, rfl⟩ := Prod.mk.inj (Option.some.inj (h.reveal.symm.trans hreveal))
    exact ⟨vs, hsound⟩
  · rintro ⟨vs, hsound⟩
    exact ⟨own, _, _, _, _, vs, hown, hcommit, h.share, h.reveal, hsound⟩

theorem State.Holds.verified?_eq_none_iff {j : ℕ} {c : Contribution} {own : Scalar}
    (h : s.Holds j c) (hcommits : s.Commits commitments)
    (hown : s.points[s.params.index]? = some own) :
    c.verified? s.params (.new task s.params.curve s.params.parties s.params.threshold commitments)
      own j = Option.none ↔ ¬ s.Accepts commitments j := by
  rw [h.accepts_iff hcommits hown, not_exists, Option.eq_none_iff_forall_ne_some]
  exact forall_congr' fun vs => not_congr Contribution.verified?_eq_some_iff

/-- The last round of a participant that everything has arrived for: those whose check fails are
blamed, and if there are none then there is no fault. -/
theorem Invariant.verification (h : Invariant params 2 s results)
    (hall : ∀ j < params.parties.size, hasReveal s j = true) :
    ∃ commitments js, s.Commits commitments ∧
      s.session = some (.new task params.curve params.parties params.threshold commitments) ∧
      Enumerates js (fun j =>
        j < params.parties.size ∧ j ≠ params.index ∧ ¬ s.Accepts commitments j) ∧
      (js ≠ [] → Keygen.enterVerify s =
        .error (.fault ⟨task, 3, js.map params.parties.member, .peerContribution⟩)) ∧
      (js = [] → ∀ f, Keygen.enterVerify s ≠ .error (.fault f)) := by
  obtain ⟨d, session, hd, hsession⟩ := h.session le_rfl
  obtain ⟨commitments, hcommits, hnew⟩ := hsession.exists_commits
  obtain ⟨contributions, hmapM, hlen, hholds⟩ := exists_contributions h.prepared hcommits hall
  obtain ⟨c, -, hshare, -⟩ := hsession.own
  obtain ⟨own, hown⟩ := hd.exists_point hshare
  obtain ⟨js, hjs, hverify⟩ := enterVerify_eq hsession.session_eq hd.dealt hown hmapM rfl
  have hparams := h.prepared.params_eq
  subst hparams
  refine ⟨commitments, js, hcommits, hnew ▸ hsession.session_eq, hjs.congr fun j => ?_,
    fun hne => ?_, fun hnil f => ?_⟩
  · rw [List.getElem?_mapIdx, ← hlen]
    by_cases hj : j < contributions.length
    · have hfailed :=
        (hholds j _ (List.getElem?_eq_getElem hj)).verified?_eq_none_iff hcommits hown
      rw [← hnew] at hfailed
      rw [List.getElem?_eq_getElem hj, Option.map_some, Option.some.injEq, ← hfailed]
      split
      · rename_i hown'
        simp [hown']
      · rename_i hother
        exact ⟨fun h => ⟨hj, hother, h⟩, fun h => h.2.2⟩
    · rw [List.getElem?_eq_none (Nat.not_lt.1 hj)]
      simp [hj]
  · rw [hverify, if_pos (by simpa using hne)]
  · rw [hverify, if_neg (by simp [hnil])]
    intro hf
    cases hk : assemble s contributions _ with
    | error e =>
        rw [hk] at hf
        exact assemble_ne_fault contributions _ f (hk.trans (congrArg _ (Except.error.inj hf)))
    | ok k =>
        rw [hk] at hf
        cases hf

end

end ThresholdKeys.Keygen
