import Mathlib
import ThresholdKeys.Proofs.Engine.Attempt
import ThresholdKeys.Proofs.Reshare.Emission
import ThresholdKeys.Proofs.Reshare.Soundness
import ThresholdKeys.Proofs.Reshare.Verification

/-!
# Blame in resharing

A new member that comes to the last round either puts out a key share or blames exactly the dealers
whose deal is not in order, whatever it has been sent and in whatever order it was called. A dealer
that follows the protocol is not among them if its messages have arrived as it sent them, and nobody
blames itself.
-/

namespace ThresholdKeys.Reshare

variable {params params' : Parameters} {input input' : Input} {s s' : State} {k : ℕ}
  {sent : List (Message Payload)} {results : List Outcome}

/-- What the slots at a place hold is what the old member there has sent, the share to
`receiver`. -/
structure State.HoldsFrom (s : State) (j : ℕ) (sender receiver : PartyId)
    (sent : List (Message Payload)) : Prop where
  commit : ∃ c, s.commits.item? j = some c ∧ .broadcast sender .new (.commit c) ∈ sent
  share : ∃ x, s.shares.item? j = some x ∧ .direct sender receiver .new (.share x) ∈ sent
  reveal : ∃ o, s.reveals.item? j = some o ∧ .broadcast sender .new (.reveal o) ∈ sent

theorem State.HasDealt.sound {i l : ℕ} {d : Dealing × Opening} (hd : s.HasDealt i d) {x : Share}
    (hx : d.1.shares[l]? = some x) : ∃ own publicShare weight, s.newPoints[l]? = some own ∧
      s.input.oldShares[i]? = some publicShare ∧ lagrangeCoefficient s.oldPoints i = .ok weight ∧
      Deal.Sound ⟨d.2.commitment, x, d.2, weight • publicShare⟩ s.params.newThreshold own
        d.1.commitments := by
  obtain ⟨coefficients, hlen, hdealing⟩ := hd.dealing
  obtain ⟨publicShare, weight, hshare, hweight, hhead⟩ := hd.head
  obtain ⟨own, hown, rfl⟩ := Dealing.getElem?_shares_ofPolynomial_eq_some_iff.1 (hdealing ▸ hx)
  refine ⟨own, publicShare, weight, hown, hshare, hweight, rfl, hd.reveals, ?_, hhead, rfl, ?_⟩
  · rw [hdealing, Dealing.length_commitments_ofPolynomial, hlen]
  · rw [hdealing]
    exact Dealing.verifies_ofPolynomial hlen own

theorem State.Emits.accepts_own (h : s.Emits k sent) (hk : 3 ≤ k) {i l : ℕ}
    (hi : s.params.oldIndex? = some i) (hl : s.params.newIndex? = some l)
    (hnew : s.params.isNew = true) : s.Accepts i := by
  obtain ⟨d, hd, -⟩ := h.dealt (by omega) i hi
  obtain ⟨hreveal, x, hx, hshare⟩ := h.ownReveal hk i l d hi hl hd.dealt
  obtain ⟨own, publicShare, weight, hown, hpublic, hweight, hsound⟩ := hd.sound hx
  exact ⟨_, l, own, _, ⟨h.ownCommit (by omega) hnew i d hi hd.dealt, hshare, hreveal,
    publicShare, weight, hpublic, hweight, rfl⟩, hl, hown, hsound⟩

structure Parameters.Alike (a b : Parameters) : Prop where
  old : b.old = a.old
  new : b.new = a.new
  newThreshold : b.newThreshold = a.newThreshold

theorem Parameters.alike_of_make {curve curve' : CurveParams} {old new : Committee}
    {id id' : PartyId} {oldThreshold oldThreshold' newThreshold : ℕ} {version version' : Version}
    (h : make curve old new id oldThreshold newThreshold version = .ok params)
    (h' : make curve' old new id' oldThreshold' newThreshold version' = .ok params') :
    params.Alike params' := by
  obtain ⟨-, -, own, -, rfl⟩ := make_eq_ok_iff.1 h
  obtain ⟨-, -, own', -, rfl⟩ := make_eq_ok_iff.1 h'
  exact ⟨rfl, rfl, rfl⟩

/-- A dealer that follows the protocol is accepted if what is held of it is what it has sent. -/
theorem State.HoldsFrom.accepts {j : ℕ} {me : PartyId} (h : s.HoldsFrom j params'.id me sent)
    (hs : s.Prepared params input) (hcommit : hasCommit s j = true)
    (hreveal : hasReveal s j = true) (hme : params.newId = some me)
    (hpeer : Invariant.WithSent params' input' k s' sent results) (halike : params.Alike params')
    (hnew : params.new.Proper) (hj : params'.oldIndex? = some j)
    (hpublic : input'.oldShares[j]? = input.oldShares[j]?) : s.Accepts j := by
  obtain ⟨c, hc, hcsent⟩ := h.commit
  obtain ⟨x, hx, hxsent⟩ := h.share
  obtain ⟨o, ho, hosent⟩ := h.reveal
  obtain ⟨hinv, hemits⟩ := hpeer
  obtain ⟨d, hd, rfl⟩ := (hemits.sends _ hcsent).of_commit rfl
  obtain ⟨hk, _, l, p, hd', hp, hmember, hxl⟩ := (hemits.sends _ hxsent).of_share rfl
  obtain rfl := Option.some.inj (hd.symm.trans hd')
  obtain ⟨-, _, hd', rfl⟩ := (hemits.sends _ hosent).of_reveal rfl
  obtain rfl := Option.some.inj (hd.symm.trans hd')
  obtain rfl : me = p := by simpa using Option.some.inj hp
  have hs' := hinv.prepared
  obtain ⟨d', hdealt, -⟩ := hemits.dealt (by omega) j (hs'.params_eq.symm ▸ hj)
  obtain rfl := Option.some.inj (hd.symm.trans hdealt.dealt)
  obtain ⟨own, publicShare, weight, hown, hshare, hweight, hsound⟩ := hdealt.sound hxl
  have holdPoints : s'.oldPoints = s.oldPoints := by
    have hpoints := hs'.oldPoints_eq
    rw [halike.old, hs.oldPoints_eq] at hpoints
    exact (Except.ok.inj hpoints).symm
  have hnewPoints : s'.newPoints = s.newPoints := by
    have hpoints := hs'.newPoints_eq
    rw [halike.new, hs.newPoints_eq] at hpoints
    exact (Except.ok.inj hpoints).symm
  rw [hs'.params_eq, halike.new] at hmember
  rw [hs'.params_eq, halike.newThreshold] at hsound
  rw [hs'.input_eq, hpublic] at hshare
  rw [holdPoints] at hweight
  rw [hnewPoints] at hown
  obtain rfl := hs.params_eq
  obtain rfl := hs.input_eq
  obtain ⟨hshares, hreveals⟩ := Bool.and_eq_true_iff.1 hreveal
  have hl : s.params.newIndex? = some l := by
    rw [Parameters.newIndex?, hme]
    exact hnew.index l me hmember
  exact ⟨_, l, own, _, ⟨Slots.admitted?_eq_some_of_item? hcommit hc,
    Slots.admitted?_eq_some_of_item? hshares hx, Slots.admitted?_eq_some_of_item? hreveals ho,
    publicShare, weight, hshare, hweight, rfl⟩, hl, hown, hsound⟩

/-! ## The last round of a run -/

theorem index_concludeRound (h : (rounds params)[k]? = some concludeRound) : k = 3 := by
  rcases getElem?_rounds h with ⟨-, h⟩ | ⟨-, h⟩ | ⟨-, h⟩ | ⟨hk, -⟩
  · exact absurd (congrArg Round.number h) (show (4 : ℕ) ≠ 1 by decide)
  · exact absurd (congrArg Round.number h) (show (4 : ℕ) ≠ 2 by decide)
  · exact absurd (congrArg Round.number h) (show (4 : ℕ) ≠ 3 by decide)
  · exact hk

/-- What comes of the last round for a new member: `js` are the places of those who are blamed. -/
structure Verdict (params : Parameters) (answer : Result Unit) (p : Party State Payload Outcome)
    (js : List ℕ) : Prop where
  blames : js ≠ [] →
    answer = .error (.fault ⟨task, 4, js.map params.old.member, .dealerContribution⟩) ∧
      p.stage = .failed ∧ p.results.sent = []
  concludes : js = [] → answer = .ok () ∧ p.stage = .finished ∧ ∃ k, p.results.sent = [.share k]

theorem enter_of_result {q : Party State Payload Outcome} (round : Round State Payload Outcome)
    {o : Outcome} (h : round.enter q.state = .ok { state := q.state, result := some o })
    (hopen : q.results.isOpen = true) : ∃ checklist, q.enter round =
      .ok ({ q with results := { q.results with sent := q.results.sent ++ [o] } }, checklist) := by
  refine ⟨_, Party.enter_eq_ok_iff.2 ⟨_, q.outbox, _, h, rfl, ?_, rfl, rfl⟩⟩
  simp [Channel.send, hopen]

theorem verdict_of_attempt {source : Source} {p q : Party State Payload Outcome}
    (hold : params.old.Proper) {i : ℕ} (hi : params.newIndex? = some i)
    (hindex : ∀ l, params.newIndex? = some l → l < params.new.size)
    (hp : newParty params input source = .ok p) (calls : List (Call Payload)) {c : Call Payload}
    (hopen : (p.run calls).results.isOpen = true)
    (hq : Party.Attempts concludeRound q (p.run calls) c) :
    Invariant.WithSent params input 3 q.state q.outbox.sent q.results.sent ∧
      (∀ j < params.old.size, hasReveal q.state j = true) ∧
      ∃ js, Enumerates js (fun j => j < params.old.size ∧ ¬ q.state.Accepts j) ∧
        Verdict params ((p.run calls).answer c) ((p.run calls).after c) js := by
  have hcheck := check_of_newParty hp
  have hkeeps := keeps_withSent hindex hcheck
  obtain ⟨k, -, hfollows⟩ := (follows_withSent hp).run hkeeps calls
  obtain ⟨k', -, hround, hdue⟩ := hq.due hkeeps hfollows
  obtain rfl := index_concludeRound hround
  have hnew : params.isNew = true := by
    cases hid : params.newId with
    | none => rw [Parameters.newIndex?, hid] at hi; cases hi
    | some me => rw [Parameters.isNew, hid]; rfl
  have hall : ∀ j < params.old.size, hasReveal q.state j = true := by
    have harrived : ∀ j < (dealers params).length, hasReveal q.state j = true :=
      hdue.arrived 2 (revealRound params) rfl rfl
    rwa [dealers, if_pos hnew] at harrived
  obtain ⟨js, hjs, hblames, hconcludes⟩ :=
    hdue.inv.1.verification hold hcheck hi (hindex i hi) hall
  have houtcome := hq.outcome_last hkeeps hfollows
    (fun k hk => by rw [index_concludeRound hk]; rfl) rfl fun _ => rfl
  have hnone : q.results.sent = [] := hdue.inv.1.none le_rfl
  refine ⟨hdue.inv, hall, js, hjs, fun hne => ?_, fun hnil => ?_⟩
  · have henter : q.enter concludeRound = _ := Party.enter_eq_error (hblames hne)
    rw [henter] at houtcome
    obtain ⟨hanswer, hafter⟩ := Prod.mk.inj houtcome
    rw [hafter]
    exact ⟨hanswer, rfl, hnone⟩
  · obtain ⟨share, hshare⟩ := hconcludes hnil
    obtain ⟨checklist, henter⟩ := enter_of_result concludeRound hshare
      (hq.isOpen_results.trans hopen)
    rw [henter] at houtcome
    obtain ⟨hanswer, hafter⟩ := Prod.mk.inj houtcome
    rw [hafter]
    exact ⟨hanswer, rfl, share, by rw [hnone]; rfl⟩

theorem state_of_attempt {source : Source} {p q : Party State Payload Outcome}
    (hindex : ∀ l, params.newIndex? = some l → l < params.new.size)
    (hp : newParty params input source = .ok p) (calls : List (Call Payload)) {c : Call Payload}
    (hq : Party.Attempts concludeRound q (p.run calls) c) :
    ((p.run calls).after c).state = q.state := by
  have hkeeps := keeps_withSent hindex (check_of_newParty hp)
  obtain ⟨k, -, hfollows⟩ := (follows_withSent hp).run hkeeps calls
  refine hq.state_last hkeeps hfollows (fun k hk => by rw [index_concludeRound hk]; rfl) rfl
    (fun _ => rfl) fun hentry => ?_
  have hconclude := enterConclude_eq_ok_iff.1 hentry
  split at hconclude
  · obtain ⟨_, -, rfl⟩ := hconclude
    rfl
  · rw [hconclude]

/-- In the last round a new member puts out a key share, or it blames exactly those dealers whose
deal is not in order: each once, in the order of the old committee, and never the member itself. A
dealer that follows the protocol with the same public share is not blamed if what is held of it is
what it has sent. -/
theorem concludes_of_attempt {oldIds newIds : List PartyId} {curve : CurveParams}
    {old new : Committee} {id : PartyId} {oldThreshold newThreshold : ℕ} {version : Version}
    {params : Parameters} {input : Input} {source : Source} {p q : Party State Payload Outcome}
    {c : Call Payload} (hold : Committee.ofList oldIds = .ok old)
    (hnew : Committee.ofList newIds = .ok new)
    (hmake : Parameters.make curve old new id oldThreshold newThreshold version = .ok params)
    (hisNew : params.isNew = true) (hp : newParty params input source = .ok p)
    (calls : List (Call Payload)) (hopen : (p.run calls).results.isOpen = true)
    (hq : Party.Attempts concludeRound q (p.run calls) c) :
    ∃ js, Enumerates js (fun j => j < old.size ∧ ¬ q.state.Accepts j) ∧
      Verdict params ((p.run calls).answer c) ((p.run calls).after c) js ∧
      (js.map old.member).Nodup ∧ (∀ i, params.oldIndex? = some i → i ∉ js) ∧
      ∀ {curve' id' oldThreshold' version' params' input' source' j me}
        {p' : Party State Payload Outcome} (calls' : List (Call Payload)),
        Parameters.make curve' old new id' oldThreshold' newThreshold version' = .ok params' →
        newParty params' input' source' = .ok p' →
        params'.oldIndex? = some j → input'.oldShares[j]? = input.oldShares[j]? →
        params.newId = some me →
        q.state.HoldsFrom j params'.id me (p'.run calls').outbox.sent → j ∉ js := by
  have hproper := Committee.proper_of_ofList hold
  have hnewProper := Committee.proper_of_ofList hnew
  obtain ⟨me, hme⟩ := Option.isSome_iff_exists.1 hisNew
  obtain ⟨rfl, rfl, hid⟩ := committees_of_make hmake
  have hindex (l : ℕ) (hl : params.newIndex? = some l) := newIndex?_lt_of_make hnewProper hmake hl
  obtain ⟨l, hlt, hl⟩ := Committee.mem_iff.1 (List.mem_of_find?_eq_some (hid.symm.trans hme))
  have hnewIndex : params.newIndex? = some l := by
    rw [Parameters.newIndex?, hme, Option.bind_some, ← hl, hnewProper.index_member hlt]
  obtain ⟨⟨hinv, hemits⟩, hall, js, hjs, hverdict⟩ :=
    verdict_of_attempt hproper hnewIndex hindex hp calls hopen hq
  have hparams := hinv.prepared.params_eq
  refine ⟨js, hjs, hverdict, ?_, ?_, ?_⟩
  · exact List.Nodup.map_on (fun i hi j hj hij =>
      hproper.eq_of_sameKey ((hjs.mem_iff i).1 hi).1 ((hjs.mem_iff j).1 hj).1
        (congrArg PartyId.key hij)) hjs.nodup
  · intro i hi hmem
    exact ((hjs.mem_iff i).1 hmem).2 (hemits.accepts_own le_rfl (hparams.symm ▸ hi)
      (hparams.symm ▸ hnewIndex) (hparams.symm ▸ hisNew))
  · intro curve' id' oldThreshold' version' params' input' source' j me' p' calls' hmake' hp' hj
      hpublic hme' hholds hmem
    obtain ⟨k, -, hfollows⟩ := (follows_withSent hp').run
      (keeps_withSent (fun _ hl => newIndex?_lt_of_make hnewProper hmake' hl)
        (check_of_newParty hp')) calls'
    obtain ⟨hj', hrejected⟩ := (hjs.mem_iff j).1 hmem
    exact hrejected (hholds.accepts hinv.prepared (hinv.committed (by omega) hisNew j hj')
      (hall j hj') hme' hfollows.inv (Parameters.alike_of_make hmake hmake') hnewProper hj hpublic)

/-! ## An undisturbed new member -/

section Undisturbed

variable {r : Setup} {me : PartyId} {m : Message Payload}

theorem Setup.perm_received (hm : m ∈ (r.role me).needs 2) :
    ((r.received me).erase m ++ [m]).Perm (r.received me) :=
  (List.perm_append_singleton m _).trans
    (List.perm_cons_erase (Setup.mem_received_iff.2 ⟨2, by change 2 < 4; omega, hm⟩)).symm

/-- An undisturbed new member attempts the last round with the last message that it waits for. -/
theorem Setup.Valid.exists_attempts (h : r.Valid) (hme : me ∈ participants r.old r.new)
    (hm : m ∈ (r.role me).needs 2) :
    ((r.party me).run (.start :: ((r.received me).erase m).map .update)).results.isOpen = true ∧
      ∃ q, Party.Attempts concludeRound q
        ((r.party me).run (.start :: ((r.received me).erase m).map .update)) (.update m) := by
  have hperm := Setup.perm_received hm
  have hrounds : (r.role me).rounds = [commitRound (r.params me), ackRound (r.params me),
      revealRound (r.params me)] ++ [concludeRound] := rfl
  exact Party.exists_attempts_last (h.lawful_role hme) (hperm.nodup_iff.2 (List.nodup_dedup _))
    (fun _ => hperm.mem_iff.trans Setup.mem_received_iff) hrounds (Nat.lt_succ_self 2) hm

theorem Setup.Valid.holds_of_attempts (h : r.Valid) (hme : me ∈ participants r.old r.new)
    (hm : m ∈ (r.role me).needs 2) {q : Party State Payload Outcome}
    (hq : Party.Attempts concludeRound q
      ((r.party me).run (.start :: ((r.received me).erase m).map .update)) (.update m)) :
    r.Holds me 4 ((r.received me).erase m ++ [m]) q.state := by
  have hperm := Setup.perm_received hm
  have hrests := (h.lawful_role hme).run_complete (hperm.nodup_iff.2 (List.nodup_dedup _))
    fun _ => hperm.mem_iff.trans Setup.mem_received_iff
  have hindex (l : ℕ) (hl : (r.params me).newIndex? = some l) : l < (r.params me).new.size :=
    newIndex?_lt_of_make h.new_proper (h.make_eq hme) hl
  rw [← state_of_attempt hindex (h.newParty_eq me) _ hq, ← Party.run_concat, List.cons_append,
    ← List.map_singleton, ← List.map_append]
  exact hrests.holds

theorem Setup.Holds.holdsFrom (h : r.Valid) {i j k : ℕ} {log : List (Message Payload)} {s : State}
    (hs : r.Holds me k log s) (hj : r.new.position? me = some j) (hlog : r.HasDeals me j log)
    (hi : i < r.old.size) (hmember : r.old.member i ∈ participants r.old r.new)
    (hother : r.old.position? me ≠ some i) :
    s.HoldsFrom i (r.old.member i) (r.new.member j)
      ((r.party (r.old.member i)).run (r.calls (r.old.member i))).outbox.sent := by
  obtain ⟨hcommit, hshare, hreveal⟩ := hlog i hi hother
  have hplace : r.old.position? (r.old.member i) = some i :=
    h.old_proper.position?_eq_some_iff.2 ⟨hi, rfl⟩
  obtain ⟨hlt, hkey⟩ := h.new_proper.position?_eq_some_iff.1 hj
  have hholder : j ∈ r.otherHolders (r.old.member i) := by
    refine Setup.mem_otherHolders_iff.2 ⟨hlt, fun hsame => hother ?_⟩
    obtain ⟨-, hsame⟩ := h.new_proper.position?_eq_some_iff.1 hsame
    exact h.old_proper.position?_eq_some_iff.2 ⟨hi, hsame.symm.trans hkey⟩
  have hsent (l : ℕ) (hl : l < 4) {m : Message Payload}
      (hm : m ∈ (r.role (r.old.member i)).sends l) :
      m ∈ ((r.party (r.old.member i)).run (r.calls (r.old.member i))).outbox.sent := by
    rw [(h.rests_run hmember).outbox]
    exact List.mem_flatMap.2 ⟨l, List.mem_range.2 hl, hm⟩
  have hsends : (r.role (r.old.member i)).sends 0 = [r.commitMessage i] ∧
      (r.role (r.old.member i)).sends 2 =
        (r.otherHolders (r.old.member i)).map (r.shareMessage i) ++ [r.revealMessage i] := by
    simp [Setup.role, hplace]
  refine ⟨⟨_, hs.commits.item? hi (Or.inr hcommit), hsent 0 (by decide) ?_⟩,
    ⟨_, (hs.shares j hj).item? hi (Or.inr hshare), hsent 2 (by decide) ?_⟩,
    ⟨_, hs.reveals.item? hi (Or.inr hreveal), hsent 2 (by decide) ?_⟩⟩
  · rw [hsends.1]
    exact List.mem_singleton_self _
  · rw [hsends.2]
    exact List.mem_append_left _ (List.mem_map_of_mem hholder)
  · rw [hsends.2]
    exact List.mem_append_right _ (List.mem_singleton_self _)

end Undisturbed

theorem concludes_of_attempt_pair : ∃ q,
    Party.Attempts concludeRound q
      ((Setup.pair.party (secondPair.member 1)).run
        (.start :: ((Setup.pair.received (secondPair.member 1)).erase
          (Setup.pair.revealMessage 1)).map .update))
      (.update (Setup.pair.revealMessage 1)) ∧
    ∃ js, Enumerates js (fun j => j < 2 ∧ ¬ q.state.Accepts j) ∧ 1 ∉ js := by
  have hvalid := Setup.valid_pair
  have hjoins : secondPair.member 1 ∈ participants Setup.pair.old Setup.pair.new := by decide
  have hdeals : Setup.pair.old.member 1 ∈ participants Setup.pair.old Setup.pair.new := by decide
  have hplaces : secondPair.position? (secondPair.member 1) = some 1 ∧
      firstPair.position? (secondPair.member 1) ≠ some 1 := by decide
  have hneeds : Setup.pair.revealMessage 1 ∈ (Setup.pair.role (secondPair.member 1)).needs 2 :=
    Setup.mem_needs_two_iff.2 ⟨1, hplaces.1, 1, by decide, hplaces.2, Or.inr rfl⟩
  obtain ⟨hopen, q, hq⟩ := hvalid.exists_attempts hjoins hneeds
  obtain ⟨js, hjs, -, -, -, hspares⟩ := concludes_of_attempt ofList_firstPair ofList_secondPair
    (hvalid.make_eq hjoins)
    ((hvalid.isNew_params _).trans (congrArg Option.isSome hplaces.1))
    (hvalid.newParty_eq _) _ hopen hq
  refine ⟨q, hq, js, hjs, ?_⟩
  have hlog : Setup.pair.HasDeals (secondPair.member 1) 1
      ((Setup.pair.received (secondPair.member 1)).erase (Setup.pair.revealMessage 1) ++
        [Setup.pair.revealMessage 1]) := by
    intro i hi hother
    have hreceived {m : Message Payload} (hm : m = Setup.pair.commitMessage i ∨
        m = Setup.pair.shareMessage i 1 ∨ m = Setup.pair.revealMessage i) :=
      (Setup.perm_received hneeds).mem_iff.2 (Setup.mem_received_iff.2
        (Setup.needs_iff.2 (Or.inl ⟨1, hplaces.1, i, hi, hother, hm⟩)))
    exact ⟨hreceived (Or.inl rfl), hreceived (Or.inr (Or.inl rfl)),
      hreceived (Or.inr (Or.inr rfl))⟩
  have hholds := hvalid.holds_of_attempts hjoins hneeds hq
  exact hspares (Setup.pair.calls (Setup.pair.old.member 1)) (hvalid.make_eq hdeals)
    (hvalid.newParty_eq _) (by decide) rfl (by decide)
    (hholds.holdsFrom hvalid hplaces.1 hlog (by decide) hdeals hplaces.2)

end ThresholdKeys.Reshare
