import Mathlib
import ThresholdKeys.Proofs.Commitment.Binding
import ThresholdKeys.Proofs.Keygen.Soundness

/-!
# Agreement of two participants

Two participants that hold the same commitments put out the same public key and the same public
shares, whatever else their peers send them, unless two openings share a commitment.
-/

namespace ThresholdKeys.Keygen

/-- Two runs hold two openings of one commitment between them. -/
def Collide (s s' : State) : Prop :=
  ∃ j o o' proof proof', s.reveals.item? j = some (o, proof) ∧
    s'.reveals.item? j = some (o', proof') ∧ o.Collide o'

section

variable {s : State} {d : Dealt} {session : Session} {k : KeyShare}
  {contributions : List Contribution} {dealt : List (List Point)}

theorem State.Issued.revealed (h : s.Issued d session k contributions dealt) (hd : s.HasDealt d)
    (hsession : s.InSession d session) {j : ℕ} {vs : List Point} (hvs : dealt[j]? = some vs) :
    ∃ c, s.Holds j c ∧ c.opening.commitment = c.commitment ∧ c.opening.Reveals vs := by
  by_cases hown : j = s.params.index
  · subst hown
    obtain rfl := Option.some.inj (hvs.symm.trans h.own)
    obtain ⟨c, hc, -, hopening, hcommitment⟩ := hsession.own
    exact ⟨c, hc, by rw [hopening, hcommitment], hopening ▸ hd.reveals⟩
  · have hlt : j < contributions.length := by
      rw [h.length_contributions, ← h.length_dealt]
      exact (List.getElem?_eq_some_iff.1 hvs).1
    have hc := List.getElem?_eq_getElem hlt
    obtain ⟨own, -, hsound⟩ := h.sound j _ vs hown hc hvs
    exact ⟨_, h.holds j _ hc, hsound.opens, hsound.reveals⟩

variable {s' : State} {d' : Dealt} {session' : Session} {k' : KeyShare}
  {contributions' : List Contribution} {dealt' : List (List Point)}

/-- The same commitments stand for the same points. -/
theorem State.Issued.dealt_eq (h : s.Issued d session k contributions dealt) (hd : s.HasDealt d)
    (hsession : s.InSession d session) (h' : s'.Issued d' session' k' contributions' dealt')
    (hd' : s'.HasDealt d') (hsession' : s'.InSession d' session')
    (hparties : s'.params.parties = s.params.parties)
    (hcommits : ∀ j < s.params.parties.size, s'.commits.item? j = s.commits.item? j)
    (hcollide : ¬ Collide s s') : dealt' = dealt := by
  apply List.ext_getElem
  · rw [h'.length_dealt, h.length_dealt, hparties]
  · intro j hj' hj
    obtain ⟨c, hc, hopens, hreveals⟩ := h.revealed hd hsession (List.getElem?_eq_getElem hj)
    obtain ⟨c', hc', hopens', hreveals'⟩ := h'.revealed hd' hsession' (List.getElem?_eq_getElem hj')
    have hsame : c'.commitment = c.commitment := by
      have hitem := hcommits j (h.length_dealt ▸ hj)
      rw [Slots.item?_of_admitted? hc.commit, Slots.item?_of_admitted? hc'.commit] at hitem
      exact Option.some.inj hitem
    have hopening : c.opening = c'.opening :=
      (Opening.eq_or_collide (hopens.trans (hsame.symm.trans hopens'.symm))).resolve_right
        fun hopenings => hcollide ⟨j, c.opening, c'.opening, c.proof, c'.proof,
          Slots.item?_of_admitted? hc.reveal, Slots.item?_of_admitted? hc'.reveal, hopenings⟩
    exact (hopening ▸ hreveals').unique hreveals

end

/-- Two participants that have put out key shares and hold the same commitments agree on the public
key and on all public shares, or their runs hold two openings of one commitment. -/
theorem agree_of_runs {params params' : Parameters} {source source' : Source}
    {p p' : Party State Payload KeyShare} (hp : newParty params source = .ok p)
    (hp' : newParty params' source' = .ok p') (hparties : params'.parties = params.parties)
    (hthreshold : params'.threshold = params.threshold) (calls calls' : List (Call Payload))
    {share share' : KeyShare} (hshare : share ∈ (p.run calls).results.sent)
    (hshare' : share' ∈ (p'.run calls').results.sent)
    (hcommits : ∀ j < params.parties.size,
      (p'.run calls').state.commits.item? j = (p.run calls).state.commits.item? j) :
    Collide (p.run calls).state (p'.run calls').state ∨
      share'.publicKey = share.publicKey ∧ share'.publicShares = share.publicShares ∧
        share.publicShares[params'.index]? = some (share'.secret • Point.generator) ∧
        share'.publicShares[params.index]? = some (share.secret • Point.generator) := by
  obtain ⟨d, session, contributions, dealt, hprepared, hd, hsession, hissued⟩ :=
    issued_of_run hp calls hshare
  obtain ⟨d', session', contributions', dealt', hprepared', hd', hsession', hissued'⟩ :=
    issued_of_run hp' calls' hshare'
  generalize (p.run calls).state = s at *
  generalize (p'.run calls').state = s' at *
  obtain rfl := hprepared.params_eq
  obtain rfl := hprepared'.params_eq
  refine or_iff_not_imp_left.2 fun hcollide => ?_
  have hdealt := hissued.dealt_eq hd hsession hissued' hd' hsession' hparties hcommits hcollide
  have hpoints : s'.points = s.points := by
    have hpoints' := hprepared'.points_eq
    rw [hparties, hprepared.points_eq] at hpoints'
    exact (Except.ok.inj hpoints').symm
  have hkey := hissued'.publicKey
  rw [hdealt, hthreshold, hissued.publicKey] at hkey
  have hshares : share'.publicShares = share.publicShares := by
    rw [hissued'.publicShares, hissued.publicShares, hdealt, hpoints, hthreshold]
  exact ⟨(Option.some.inj hkey).symm, hshares, hshares ▸ hissued'.secret,
    hshares.symm ▸ hissued.secret⟩

theorem agree_of_runs_pair :
    Collide ((Setup.pair.party 0).run (Setup.pair.calls 0)).state
        ((Setup.pair.party 1).run (Setup.pair.calls 1)).state ∨
      (Setup.pair.keyShare 1).publicKey = (Setup.pair.keyShare 0).publicKey ∧
        (Setup.pair.keyShare 1).publicShares = (Setup.pair.keyShare 0).publicShares ∧
        (Setup.pair.keyShare 0).publicShares[(Setup.pair.params 1).index]? =
          some ((Setup.pair.keyShare 1).secret • Point.generator) ∧
        (Setup.pair.keyShare 1).publicShares[(Setup.pair.params 0).index]? =
          some ((Setup.pair.keyShare 0).secret • Point.generator) :=
  agree_of_runs (Setup.valid_pair.newParty_eq 0) (Setup.valid_pair.newParty_eq 1) rfl rfl _ _
    (by rw [Setup.valid_pair.results_run (by decide)]; exact List.mem_singleton_self _)
    (by rw [Setup.valid_pair.results_run (by decide)]; exact List.mem_singleton_self _)
    fun j hj => by
      rw [Setup.valid_pair.item?_commits_run (by decide) hj,
        Setup.valid_pair.item?_commits_run (by decide) hj]

end ThresholdKeys.Keygen
