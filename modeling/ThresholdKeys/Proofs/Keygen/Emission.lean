import Mathlib
import ThresholdKeys.Proofs.Keygen.Invariant

/-!
# What a participant of key generation sends

All that a participant sends under arbitrary calls: one commitment, and in the session over the
commitments that it holds, its shares and one opening of its own dealing. The dealt secret is never
zero, so the proof that goes with the opening is one that others accept.
-/

namespace ThresholdKeys.Keygen

/-- The dealing is of a secret other than zero, which the first published point hides. -/
structure Dealt.Proper (d : Dealt) : Prop where
  secret_ne_zero : d.secret ≠ 0
  head : d.dealing.commitments.head? = some (d.secret • Point.generator)

namespace State

def commitMessage (s : State) (d : Dealt) : Message Payload :=
  .broadcast s.params.id .new (.commit d.opening.commitment)

def revealMessage (s : State) (d : Dealt) (proof : Schnorr.Proof) : Message Payload :=
  .broadcast s.params.id .new (.reveal d.opening proof)

/-- The participant has made this proof of its secret in the session. -/
def Proves (s : State) (d : Dealt) (session : Session) (proof : Schnorr.Proof) : Prop :=
  ∃ source source', Schnorr.prove ⟨s.params.curve, d.secret • Point.generator, s.params.version⟩
    d.secret (session.transcriptFor s.params.index) source = .ok (proof, source')

/-- What has been sent once `k` rounds are entered. -/
structure Emits (k : ℕ) (s : State) (sent : List (Message Payload)) : Prop where
  none : k = 0 → sent = []
  proper : 1 ≤ k → ∀ d, s.dealt = some d → d.Proper
  committed : k = 1 → ∀ d, s.dealt = some d → sent = [s.commitMessage d]
  revealed : 2 ≤ k → ∀ d session, s.dealt = some d → s.session = some session →
    ∃ messages proof, s.Proves d session proof ∧ shareMessages s d.dealing = .ok messages ∧
      sent = s.commitMessage d :: (messages ++ [s.revealMessage d proof])

theorem Emits.mono {k : ℕ} {s s' : State} {sent : List (Message Payload)} (h : s.Emits k sent)
    (hs : s.Extends s') : s'.Emits k sent where
  none := h.none
  proper hk d hd := h.proper hk d (hs.dealt ▸ hd)
  committed hk d hd := by
    rw [h.committed hk d (hs.dealt ▸ hd), commitMessage, commitMessage, hs.params]
  revealed hk d session hd hsession := by
    unfold Proves shareMessages commitMessage revealMessage
    rw [hs.params]
    exact h.revealed hk d session (hs.dealt ▸ hd) (hs.session ▸ hsession)

end State

theorem mem_shareMessages {s : State} {d : Dealing} {messages : List (Message Payload)}
    (h : shareMessages s d = .ok messages) {m : Message Payload} (hm : m ∈ messages) :
    ∃ p ∈ s.params.parties.exclude s.params.index, ∃ j share, p.index = some j ∧
      d.shares[j]? = some share ∧ m = .direct s.params.id p .new (.share share) := by
  obtain ⟨i, hi⟩ := List.mem_iff_getElem?.1 hm
  obtain ⟨p, hp, hmessage⟩ := Result.getElem?_of_mapM h hi
  cases hshare : p.index.bind (d.shares[·]?) with
  | none => simp [hshare] at hmessage
  | some share =>
      obtain ⟨j, hj, hshare'⟩ := Option.bind_eq_some_iff.1 hshare
      rw [hshare] at hmessage
      exact ⟨p, List.mem_of_getElem? hp, j, share, hj, hshare', (Except.ok.inj hmessage).symm⟩

/-! ## The rounds keep it -/

section

variable {params : Parameters} {s : State} {e : Step} {sent : List (Message Payload)}

theorem State.Emits.enterCommit (h : s.Emits 0 sent) (he : enterCommit s = .ok e) :
    e.state.Emits 1 (sent ++ e.sent) := by
  obtain ⟨dealing, source₁, c, o, source₂, hcreate, hcommit, rfl⟩ := enterCommit_eq_ok_iff.1 he
  obtain ⟨-, -, -, rfl, -⟩ := Dealing.create_eq_ok_iff.1 hcreate
  obtain ⟨rfl, -⟩ := Dealing.reveals_of_commit hcommit
  refine ⟨fun hk => absurd hk one_ne_zero, fun _ d hd => ?_, fun _ d hd => ?_,
    fun hk => absurd hk (by omega)⟩
  · obtain rfl := Option.some.inj hd
    exact ⟨s.source.nextNonzeroScalar_ne_zero, rfl⟩
  · obtain rfl := Option.some.inj hd
    rw [h.none rfl]
    rfl

theorem State.Emits.enterReveal (h : s.Emits 1 sent) (he : enterReveal s = .ok e) :
    e.state.Emits 2 (sent ++ e.sent) := by
  obtain ⟨session, d, point, own, proof, source, messages, -, hd, hpoint, -, hprove, hmessages,
    rfl⟩ := enterReveal_eq_ok_iff.1 he
  have hproper := h.proper le_rfl d hd
  obtain rfl := Option.some.inj (hpoint.symm.trans hproper.head)
  refine ⟨fun hk => absurd hk two_ne_zero, fun _ d' hd' => ?_, fun hk => absurd hk (by omega),
    fun _ d' session' hd' hsession' => ?_⟩
  · exact h.proper le_rfl d' hd'
  · obtain rfl := Option.some.inj (hd.symm.trans hd')
    obtain rfl := Option.some.inj hsession'
    refine ⟨messages, proof, ⟨s.source, source, hprove⟩, hmessages, ?_⟩
    rw [h.committed rfl d hd]
    rfl

theorem State.Emits.enterVerify (h : s.Emits 2 sent) (he : enterVerify s = .ok e) :
    e.state.Emits 3 (sent ++ e.sent) := by
  obtain ⟨_, _, _, _, _, _, -, -, -, -, -, -, -, rfl⟩ := enterVerify_eq_ok_iff.1 he
  rw [List.append_nil]
  exact ⟨fun hk => absurd hk (by omega), fun _ => h.proper one_le_two, fun hk => absurd hk (by omega),
    fun _ => h.revealed le_rfl⟩

def Invariant.WithSent (params : Parameters) (k : ℕ) (s : State) (sent : List (Message Payload))
    (results : List KeyShare) : Prop := Invariant params k s results ∧ s.Emits k sent

theorem keeps_withSent (params : Parameters) :
    Party.Keeps protocol (rounds params) (Invariant.WithSent params) :=
  (keeps params).and
    (fun {k s sent results round entry} hround _ hemits _ he => by
      rcases getElem?_rounds hround with ⟨rfl, rfl⟩ | ⟨rfl, rfl⟩ | ⟨rfl, rfl⟩
      · exact hemits.enterCommit he
      · exact hemits.enterReveal he
      · exact hemits.enterVerify he)
    fun _ _ hemits hs => hemits.mono (State.extends_of_store hs)

theorem follows_withSent {source : Source} {p : Party State Payload KeyShare}
    (hp : newParty params source = .ok p) :
    Party.Follows protocol (rounds params) (Invariant.WithSent params) 0 p := by
  have hfollows := follows_newParty hp
  obtain ⟨s, -, hp⟩ := Result.bind_eq_ok_iff.1 hp
  obtain rfl := Except.ok.inj hp
  exact ⟨hfollows.protocol, hfollows.stage, hfollows.inv, fun _ => rfl,
    fun hk => absurd hk (by omega), fun hk => absurd hk (by omega), fun hk => absurd hk (by omega)⟩

theorem Invariant.WithSent.two_le {k : ℕ} {results : List KeyShare}
    (h : Invariant.WithSent params k s sent results) {m : Message Payload} (hm : m ∈ sent)
    (hround : m.content.round = 2) : 2 ≤ k := by
  obtain ⟨hinv, hemits⟩ := h
  by_contra hlt
  obtain rfl | rfl : k = 0 ∨ k = 1 := by omega
  · rw [hemits.none rfl] at hm
    exact List.not_mem_nil hm
  · obtain ⟨d, hd⟩ := hinv.dealt le_rfl
    rw [hemits.committed rfl d hd.dealt, List.mem_singleton] at hm
    rw [hm] at hround
    exact absurd hround (show (1 : ℕ) ≠ 2 by decide)

theorem Invariant.WithSent.exists_reveal {results : List KeyShare}
    (h : Invariant.WithSent params 2 s sent results) : ∃ m ∈ sent, m.content.round = 2 := by
  obtain ⟨d, session, hd, hsession⟩ := h.1.session le_rfl
  obtain ⟨messages, proof, -, -, rfl⟩ := h.2.revealed le_rfl d _ hd.dealt hsession.session_eq
  exact ⟨s.revealMessage d proof, by simp, rfl⟩

end

end ThresholdKeys.Keygen
