import Mathlib
import ThresholdKeys.Proofs.Keygen.Waiting
import ThresholdKeys.Proofs.Sharing.Dispatch

/-!
# What a participant lets go of its dealing

A participant of key generation deals once, from the words that it draws first. What it has sent
under arbitrary calls is the beginning of the messages of that dealer.
-/

namespace ThresholdKeys.Keygen

open Committee (pointOf)

variable {params : Parameters} {source : Source} {s s' : State} {e : Step} {k : ℕ}
  {sent : List (Message Payload)} {results : List KeyShare}

def wording (proof : Schnorr.Proof) : Wording Payload where
  commit := .commit
  share := .share
  reveal o := .reveal o proof
  share?
    | .share x => some x
    | .commit _ | .reveal .. => none
  share?_commit _ := rfl
  share?_share _ := rfl
  share?_reveal _ := rfl

/-- The dealer that a participant is. -/
def Parameters.dealer (params : Parameters) (source : Source) : Dealer :=
  ⟨source.nextNonzeroScalar.2, params.threshold, source.nextNonzeroScalar.1,
    params.parties.members.map pointOf⟩

/-- What was dealt when `k` rounds are entered. -/
structure State.Deals (s : State) (params : Parameters) (source : Source) (k : ℕ) : Prop where
  source_eq : k = 0 → s.source = source
  dealt_eq : 1 ≤ k → s.dealt = some ⟨(params.dealer source).secret, (params.dealer source).dealing,
    (params.dealer source).opening⟩
  opens : 1 ≤ k → (params.dealer source).Opens

theorem State.Deals.of_dealt (h : s.Deals params source k) (hk : 1 ≤ k) {k' : ℕ} (hk' : 1 ≤ k')
    (hs : s'.dealt = s.dealt) : s'.Deals params source k' where
  source_eq h0 := absurd h0 (Nat.ne_of_gt hk')
  dealt_eq _ := hs.trans (h.dealt_eq hk)
  opens _ := h.opens hk

theorem State.Deals.enterCommit (hproper : params.parties.Proper) (hs : s.Prepared params)
    (h : s.Deals params source 0) (he : enterCommit s = .ok e) : e.state.Deals params source 1 := by
  obtain ⟨dealing, source₁, c, o, source₂, hcreate, hcommit, rfl⟩ := enterCommit_eq_ok_iff.1 he
  have hpoints : s.points = params.parties.members.map pointOf :=
    Except.ok.inj (hs.points_eq.symm.trans hproper.points_eq)
  rw [h.source_eq rfl, hs.params_eq, hpoints] at hcreate
  obtain ⟨rfl, rfl, -, hopens⟩ :=
    Dealer.commitments_of_create (d := params.dealer source) hcreate hcommit
  refine ⟨fun h0 => absurd h0 one_ne_zero, fun _ => ?_, fun _ => hopens⟩
  rw [h.source_eq rfl]
  rfl

theorem keepsDeals (hproper : params.parties.Proper) (source : Source) :
    Party.Keeps protocol (rounds params) fun k s sent results =>
      Invariant.WithSent params k s sent results ∧ s.Deals params source k :=
  (keeps_withSent params).and
    (fun {k s sent results round entry} hround hinv hdeals _ he => by
      rcases getElem?_rounds hround with ⟨rfl, rfl⟩ | ⟨rfl, rfl⟩ | ⟨rfl, rfl⟩
      · exact hdeals.enterCommit hproper hinv.1.prepared he
      · obtain ⟨_, _, _, _, _, _, _, -, -, -, -, -, -, rfl⟩ := enterReveal_eq_ok_iff.1 he
        exact hdeals.of_dealt le_rfl (Nat.le_succ 1) rfl
      · obtain ⟨_, _, _, _, _, _, -, -, -, -, -, -, -, rfl⟩ := enterVerify_eq_ok_iff.1 he
        exact hdeals.of_dealt (Nat.le_succ 1) (Nat.le_add_left 1 2) rfl)
    fun hk _ hdeals hs => hdeals.of_dealt hk hk (State.extends_of_store hs).dealt

theorem shareMessages_others (proof : Schnorr.Proof) (hproper : params.parties.Proper)
    (hid : params.id = params.parties.member params.index)
    (hi : params.index < params.parties.size) (hs : s.params = params) :
    shareMessages s (params.dealer source).dealing = .ok ((params.parties.others params.id).map
      ((params.dealer source).shareMessage (wording proof) params.id)) := by
  have hposition : params.parties.position? params.id = some params.index :=
    hproper.position?_eq hi (hid ▸ rfl)
  have hplaces : (fun j => decide (params.parties.position? params.id ≠ some j)) =
      fun j => decide (j ≠ params.index) := by
    funext j
    rw [decide_eq_decide, hposition, ne_eq, Option.some.injEq, eq_comm]
  rw [shareMessages_dealing (hs ▸ hproper) (hs ▸ rfl), hs, hproper.others_eq, hplaces, List.map_map]
  rfl

theorem Invariant.WithSent.ordered (hproper : params.parties.Proper)
    (hid : params.id = params.parties.member params.index)
    (hi : params.index < params.parties.size) (h : Invariant.WithSent params k s sent results)
    (hdeals : s.Deals params source k) :
    ∃ proof, sent <+: (params.dealer source).messages (wording proof) params.id params.parties
      [] := by
  obtain ⟨hinv, hemits⟩ := h
  have hparams := hinv.prepared.params_eq
  -- before the opening is sent, any proof may be the one that goes with it
  rcases k with _ | _ | k
  · rw [hemits.none rfl]
    exact ⟨⟨0, 0⟩, List.nil_prefix⟩
  · refine ⟨⟨0, 0⟩, ?_⟩
    rw [hemits.committed rfl _ (hdeals.dealt_eq le_rfl), State.commitMessage, hparams]
    exact ⟨_, rfl⟩
  · have hk : 1 ≤ k + 2 := by omega
    obtain ⟨d, session, hd, hsession⟩ := hinv.session (by omega)
    obtain rfl := Option.some.inj (hd.dealt.symm.trans (hdeals.dealt_eq hk))
    obtain ⟨messages, proof, -, hmessages, rfl⟩ :=
      hemits.revealed (by omega) _ session hd.dealt hsession.session_eq
    obtain rfl := Except.ok.inj
      (hmessages.symm.trans (shareMessages_others proof hproper hid hi hparams))
    rw [State.commitMessage, State.revealMessage, hparams]
    exact ⟨proof, List.prefix_rfl⟩

theorem deals_newParty {p : Party State Payload KeyShare} (hp : newParty params source = .ok p) :
    p.state.Deals params source 0 := by
  obtain ⟨s, hs, hp⟩ := Result.bind_eq_ok_iff.1 hp
  obtain rfl := Except.ok.inj hp
  obtain ⟨points, -, hs⟩ := Result.bind_eq_ok_iff.1 hs
  obtain rfl := Except.ok.inj hs
  exact ⟨fun _ => rfl, fun hk => absurd hk (by omega), fun hk => absurd hk (by omega)⟩

/-- Whatever is done with a participant, it dispatches its one dealing. -/
theorem dispatches_of_run {p : Party State Payload KeyShare} (hproper : params.parties.Proper)
    (hid : params.id = params.parties.member params.index)
    (hi : params.index < params.parties.size) (hp : newParty params source = .ok p)
    (calls : List (Call Payload)) : ∃ proof, (params.dealer source).Dispatches (wording proof)
      params.id params.parties [] (p.run calls).outbox.sent := by
  have hfollows := follows_withSent hp
  obtain ⟨k, -, hrun⟩ := Party.Follows.run (keepsDeals hproper source)
    ⟨hfollows.protocol, hfollows.stage, hfollows.inv, deals_newParty hp⟩ calls
  obtain ⟨proof, hordered⟩ := hrun.inv.1.ordered hproper hid hi hrun.inv.2
  refine ⟨proof, Dealer.dispatches_of_ordered hproper (by simp) (fun hne => ?_) hordered⟩
  refine hrun.inv.2.opens (Nat.one_le_iff_ne_zero.2 fun hk => hne ?_)
  exact hrun.inv.1.2.none hk

end ThresholdKeys.Keygen
