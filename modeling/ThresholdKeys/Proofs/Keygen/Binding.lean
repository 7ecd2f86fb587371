import Mathlib
import ThresholdKeys.Proofs.Keygen.Blame

/-!
# Commitments come before openings

A participant of key generation reveals nothing before it holds a commitment of everybody. These
commitments never change afterwards: the session in which it proves and in which it checks its peers
is over them, and it checks the openings against them.
-/

namespace ThresholdKeys.Keygen

variable {params : Parameters} {p q r : Party State Payload KeyShare}
  {commitments commitments' : List Commitment}

theorem State.Commits.unique {s : State} (h : s.Commits commitments) (h' : s.Commits commitments') :
    commitments = commitments' := by
  apply List.ext_getElem?
  intro j
  rw [← h.admitted? j, h'.admitted? j]

/-- The party has sent shares or an opening. -/
def HasRevealed (p : Party State Payload KeyShare) : Prop :=
  ∃ m ∈ p.outbox.sent, m.content.round = 2

/-- All that the party does rests on these commitments. -/
structure Bound (params : Parameters) (commitments : List Commitment)
    (p : Party State Payload KeyShare) : Prop where
  length : commitments.length = params.parties.size
  commits : p.state.Commits commitments
  session : p.state.session =
    some (.new task params.curve params.parties params.threshold commitments)
  /-- Its own proof is made in the session over them. -/
  proof : ∀ sender o proof, .broadcast sender .new (.reveal o proof) ∈ p.outbox.sent →
    ∃ d, p.state.dealt = some d ∧ o = d.opening ∧
      p.state.Proves d (.new task params.curve params.parties params.threshold commitments) proof

abbrev FollowsRounds (params : Parameters) (k : ℕ) (p : Party State Payload KeyShare) : Prop :=
  Party.Follows protocol (rounds params) (Invariant.WithSent params) k p

theorem two_le_of_hasRevealed {k : ℕ} (h : FollowsRounds params k p) (hp : HasRevealed p) :
    2 ≤ k := by
  obtain ⟨m, hm, hround⟩ := hp
  exact h.inv.two_le hm hround

theorem exists_bound {k : ℕ} (h : FollowsRounds params k p) (hp : HasRevealed p) :
    ∃ commitments, Bound params commitments p := by
  have hk := two_le_of_hasRevealed h hp
  obtain ⟨hinv, -⟩ := h.inv
  obtain ⟨d, session, hd, hsession⟩ := hinv.session hk
  obtain ⟨commitments, hcommits, rfl⟩ := hsession.exists_commits
  have hsession := hsession.session_eq
  have hparams := hinv.prepared.params_eq
  refine ⟨commitments, ?_, hcommits, hparams ▸ hsession, fun sender o proof hm => ?_⟩
  · rw [(State.commits_iff.1 hcommits).1, hinv.prepared.length_commits]
  · obtain ⟨d', commitments', hd', -, hcommits', hproves, ho, -⟩ := State.Emits.of_reveal h.inv hm
    rw [hcommits'.unique hcommits, hparams] at hproves
    exact ⟨d', hd'.dealt, ho, hproves⟩

/-! ## Moves after the opening -/

theorem extends_of_moves {k : ℕ} (h : FollowsRounds params k q) (hk : 2 ≤ k)
    (hmove : Party.Moves q r) : q.state.Extends r.state := by
  have hstage := h.stage
  cases hmove with
  | enterFirst hs _ =>
      rw [hs] at hstage
      exact absurd hstage.1 (by omega)
  | enterNext hs _ henter =>
      rw [hs] at hstage
      obtain ⟨entry, outbox, results, hentry, -, -, rfl, -⟩ := Party.enter_eq_ok_iff.1 henter
      rcases getElem?_rounds hstage.next.2.2 with ⟨hl, -⟩ | ⟨hl, -⟩ | ⟨-, rfl⟩
      · omega
      · omega
      · obtain ⟨_, _, _, _, _, _, -, -, -, -, -, -, -, rfl⟩ := enterVerify_eq_ok_iff.1 hentry
        exact State.Extends.refl _
  | store _ hstore =>
      rw [h.protocol] at hstore
      exact State.extends_of_store hstore
  | look _ | finish _ _ | failFirst _ | fail _ | closeOutbox | closeResults =>
      exact State.Extends.refl _

theorem HasRevealed.of_moves (hq : HasRevealed q) (h : Relation.ReflTransGen Party.Moves q r) :
    HasRevealed r := by
  obtain ⟨m, hm, hround⟩ := hq
  obtain ⟨more, hmore⟩ := Party.exists_sent_of_moves h
  exact ⟨m, hmore ▸ List.mem_append_left more hm, hround⟩

theorem Bound.of_moves {k : ℕ} (h : FollowsRounds params k q) (hq : HasRevealed q)
    (hbound : Bound params commitments q) (hmoves : Relation.ReflTransGen Party.Moves q r) :
    Bound params commitments r := by
  induction hmoves with
  | refl => exact hbound
  | @tail r t hmoves hmove ih =>
      obtain ⟨k', -, hfollows⟩ := h.of_moves (keeps_withSent params) hmoves
      obtain ⟨k'', -, hfollows'⟩ := hfollows.moves (keeps_withSent params) hmove
      have hr := hq.of_moves hmoves
      have hextends := extends_of_moves hfollows (two_le_of_hasRevealed hfollows hr) hmove
      obtain ⟨commitments', hbound'⟩ := exists_bound hfollows' (hr.of_moves (.single hmove))
      rwa [(ih.commits.mono hextends).unique hbound'.commits]

/-- The move by which something is revealed first leaves the commitments alone. -/
theorem commits_of_reveal {k : ℕ} (h : FollowsRounds params k q) (hq : ¬ HasRevealed q)
    (hmove : Party.Moves q r) (hr : HasRevealed r) : r.state.commits = q.state.commits := by
  have hstage := h.stage
  obtain ⟨m, hm, hround⟩ := hr
  cases hmove with
  | enterFirst hs henter =>
      rw [hs] at hstage
      obtain ⟨-, hrounds⟩ := hstage
      obtain ⟨rfl, -⟩ := List.cons.inj hrounds
      obtain ⟨entry, outbox, results, hentry, houtbox, -, rfl, -⟩ :=
        Party.enter_eq_ok_iff.1 henter
      obtain ⟨_, _, _, _, _, -, -, rfl⟩ := enterCommit_eq_ok_iff.1 hentry
      rw [show outbox.sent = _ from Party.sent_of_send houtbox, List.mem_append,
        List.mem_singleton] at hm
      rcases hm with hm | rfl
      · exact absurd ⟨m, hm, hround⟩ hq
      · exact absurd hround (show (1 : ℕ) ≠ 2 by decide)
  | enterNext hs _ henter =>
      rw [hs] at hstage
      obtain ⟨entry, outbox, results, hentry, -, -, rfl, -⟩ := Party.enter_eq_ok_iff.1 henter
      rcases getElem?_rounds hstage.next.2.2 with ⟨hl, -⟩ | ⟨-, rfl⟩ | ⟨-, rfl⟩
      · exact absurd hl (Nat.ne_of_gt hstage.next.1)
      · obtain ⟨_, _, _, _, _, _, _, -, -, -, -, -, -, rfl⟩ := enterReveal_eq_ok_iff.1 hentry
        rfl
      · obtain ⟨_, _, _, _, _, _, -, -, -, -, -, -, -, rfl⟩ := enterVerify_eq_ok_iff.1 hentry
        rfl
  | look _ | finish _ _ | failFirst _ | fail _ | store _ _ | closeOutbox | closeResults =>
      exact absurd ⟨m, hm, hround⟩ hq

/-- In every run in which a participant has sent shares or an opening, there is a moment at which it
does so first. Its slots then hold the commitments of all participants as they were broadcast, and
never change again; its own proof is made in the session over them, and the last round checks all
peers in this session and against these commitments. -/
theorem bound_of_run {source : Source} (hp : newParty params source = .ok p)
    (calls : List (Call Payload)) (hrevealed : HasRevealed (p.run calls)) :
    ∃ commitments q r, Relation.ReflTransGen Party.Moves p q ∧ ¬ HasRevealed q ∧
      Party.Moves q r ∧ HasRevealed r ∧ Relation.ReflTransGen Party.Moves r (p.run calls) ∧
      q.state.Commits commitments ∧
      (∀ t, Relation.ReflTransGen Party.Moves r t → Bound params commitments t) ∧
      ∀ more before c after t, calls ++ more = before ++ c :: after →
        Party.Attempts verifyRound t (p.run before) c →
          t.state.Commits commitments ∧ ∃ js,
            Enumerates js (fun j => j < params.parties.size ∧ j ≠ params.index ∧
              ¬ t.state.Accepts commitments j) ∧
            Verdict params ((p.run before).answer c) ((p.run before).after c) js := by
  have hfollows := follows_withSent hp
  have hstart : ¬ HasRevealed p := fun ⟨m, hm, _⟩ => by
    rw [hfollows.inv.2.none rfl] at hm
    exact List.not_mem_nil hm
  obtain ⟨q, r, hpq, hq, hqr, hr, hrp⟩ :=
    Party.exists_turn (p.moves_run calls) hstart hrevealed
  obtain ⟨k, -, hfollows_q⟩ := hfollows.of_moves (keeps_withSent params) hpq
  obtain ⟨k', -, hfollows_r⟩ := hfollows_q.moves (keeps_withSent params) hqr
  obtain ⟨commitments, hbound⟩ := exists_bound hfollows_r hr
  refine ⟨commitments, q, r, hpq, hq, hqr, hr, hrp, ?_,
    fun t ht => hbound.of_moves hfollows_r hr ht, ?_⟩
  · rw [State.Commits, ← commits_of_reveal hfollows_q hq hqr hr]
    exact hbound.commits
  · intro more before c after t hcalls ht
    obtain ⟨k₁, -, hfollows_b⟩ := hfollows.run (keeps_withSent params) before
    obtain ⟨stage, hto, hfrom⟩ := ht.moves
    obtain ⟨k₂, -, hfollows_t⟩ := hfollows_b.of_moves (keeps_withSent params) hto
    have hrevealed_t : HasRevealed { t with stage } := by
      obtain ⟨k₃, -, hround, hdue⟩ := ht.due (keeps_withSent params) hfollows_b
      obtain rfl := index_verifyRound hround
      exact hdue.inv.exists_reveal
    obtain ⟨commitments', hbound'⟩ := exists_bound hfollows_t hrevealed_t
    have hend : (p.run calls).run more = ((p.run before).after c).run after := by
      rw [Party.run, Party.run, ← List.foldl_append, hcalls, List.foldl_append, List.foldl_cons]
      rfl
    have hmore := hbound.of_moves hfollows_r hr (hrp.trans ((p.run calls).moves_run more))
    have hafter := hbound'.of_moves hfollows_t hrevealed_t
      (hfrom.trans (Party.moves_run _ after))
    rw [← hend] at hafter
    obtain rfl := hafter.commits.unique hmore.commits
    obtain ⟨-, -, commitments'', js, hcommits, hjs, hverdict⟩ := verdict_of_attempt hp before ht
    obtain rfl := hcommits.unique hbound'.commits
    exact ⟨hcommits, js, hjs, hverdict⟩

theorem bound_of_run_pair : ∃ commitments q,
    Relation.ReflTransGen Party.Moves (Setup.pair.party 0) q ∧ ¬ HasRevealed q ∧
      q.state.Commits commitments ∧
      Bound (Setup.pair.params 0) commitments
        ((Setup.pair.party 0).run (Setup.pair.calls 0)) := by
  have hvalid := Setup.valid_pair
  have hrevealed : HasRevealed ((Setup.pair.party 0).run (Setup.pair.calls 0)) := by
    refine ⟨Setup.pair.revealMessage 0, ?_, rfl⟩
    rw [(hvalid.rests_run (i := 0) (by decide)).outbox]
    exact List.mem_flatMap.2 ⟨1, by decide, List.mem_append_right _ (List.mem_singleton_self _)⟩
  obtain ⟨commitments, q, r, hpq, hq, -, -, hrp, hcommits, hbound, -⟩ :=
    bound_of_run (hvalid.newParty_eq 0) (Setup.pair.calls 0) hrevealed
  exact ⟨commitments, q, hpq, hq, hcommits, hbound _ hrp⟩

end ThresholdKeys.Keygen
