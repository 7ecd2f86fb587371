import Mathlib
import ThresholdKeys.Proofs.Reshare.Invariant
import ThresholdKeys.Proofs.Sharing.Dealing

/-!
# What a member of two committees sends

All that a member sends under arbitrary calls, and by when. An old member deals the share that its
input was checked for, weighted; whoever is on both committees holds its own deal in its own slots.
-/

namespace ThresholdKeys.Reshare

variable {params : Parameters} {input : Input} {s s' : State} {e : Step}
  {sent : List (Message Payload)} {results : List Outcome}

theorem Input.checkSecret_eq_ok_iff {input : Input} {old : PartyId} :
    input.checkSecret old = .ok () ↔ ∃ i secret, old.index = some i ∧ input.secret = some secret ∧
      input.oldShares[i]? = some (secret • Point.generator) := by
  unfold checkSecret
  cases old.index with
  | none => simp
  | some i =>
      cases input.secret with
      | none => simp
      | some secret =>
          cases hshare : input.oldShares[i]? with
          | none => simp [hshare]
          | some share => simp [hshare, eq_comm]

namespace State

/-- The old member at place `i` has dealt its weighted share to the new committee. -/
structure HasDealt (s : State) (i : ℕ) (d : Dealing × Opening) : Prop where
  dealt : s.dealt = some d
  dealing : ∃ coefficients : List Scalar, coefficients.length = s.params.newThreshold + 1 ∧
    d.1 = Dealing.ofPolynomial s.params.newThreshold coefficients s.newPoints
  head : ∃ publicShare weight, s.input.oldShares[i]? = some publicShare ∧
    lagrangeCoefficient s.oldPoints i = .ok weight ∧
      d.1.commitments.head? = some (weight • publicShare)
  reveals : d.2.Reveals d.1.commitments

theorem HasDealt.mono {i : ℕ} {d : Dealing × Opening} (h : s.HasDealt i d) (hs : s.Extends s') :
    s'.HasDealt i d where
  dealt := hs.dealt.trans h.dealt
  dealing := by rw [hs.params, hs.newPoints]; exact h.dealing
  head := by rw [hs.input, hs.oldPoints]; exact h.head
  reveals := h.reveals

/-- The messages that a member sends in the first `k` rounds. -/
inductive Sends (s : State) (k : ℕ) : Message Payload → Prop
  | commit {d : Dealing × Opening} (hk : 1 ≤ k) (hold : s.params.isOld = true)
      (hd : s.dealt = some d) :
      s.Sends k (.broadcast s.params.id .new (.commit d.2.commitment))
  | ack {me : PartyId} (hk : 2 ≤ k) (hme : s.params.newId = some me) :
      s.Sends k (.broadcast me .old .ack)
  | share {d : Dealing × Opening} {j : ℕ} {p : PartyId} {x : Share} (hk : 3 ≤ k)
      (hold : s.params.isOld = true) (hd : s.dealt = some d)
      (hp : s.params.new.members[j]? = some p) (hx : d.1.shares[j]? = some x) :
      s.Sends k (.direct s.params.id p .new (.share x))
  | reveal {d : Dealing × Opening} (hk : 3 ≤ k) (hold : s.params.isOld = true)
      (hd : s.dealt = some d) :
      s.Sends k (.broadcast s.params.id .new (.reveal d.2))

theorem Sends.mono {k k' : ℕ} {m : Message Payload} (h : s.Sends k m) (hk : k ≤ k')
    (hparams : s'.params = s.params) (hdealt : s'.dealt = s.dealt) : s'.Sends k' m := by
  cases h with
  | commit hk' hold hd =>
      rw [← hparams] at hold ⊢
      exact .commit (hk'.trans hk) hold (hdealt.trans hd)
  | ack hk' hme => exact .ack (hk'.trans hk) (hparams ▸ hme)
  | share hk' hold hd hp hx =>
      rw [← hparams] at hold hp ⊢
      exact .share (hk'.trans hk) hold (hdealt.trans hd) hp hx
  | reveal hk' hold hd =>
      rw [← hparams] at hold ⊢
      exact .reveal (hk'.trans hk) hold (hdealt.trans hd)

section Content

variable {k : ℕ} {m : Message Payload} (h : s.Sends k m)

include h

theorem Sends.of_commit {c : Commitment} (hm : m.content = .commit c) :
    ∃ d, s.dealt = some d ∧ c = d.2.commitment := by
  cases h with
  | commit _ _ hd =>
      cases hm
      exact ⟨_, hd, rfl⟩
  | ack _ _ | share _ _ _ _ _ | reveal _ _ _ => cases hm

theorem Sends.of_share {x : Share} (hm : m.content = .share x) :
    3 ≤ k ∧ ∃ (d : Dealing × Opening) (j : ℕ) (p : PartyId), s.dealt = some d ∧
      m.recipients = some [p] ∧ s.params.new.members[j]? = some p ∧ d.1.shares[j]? = some x := by
  cases h with
  | share hk _ hd hp hx =>
      cases hm
      exact ⟨hk, _, _, _, hd, rfl, hp, hx⟩
  | commit _ _ _ | ack _ _ | reveal _ _ _ => cases hm

theorem Sends.of_reveal {o : Opening} (hm : m.content = .reveal o) :
    3 ≤ k ∧ ∃ d, s.dealt = some d ∧ o = d.2 := by
  cases h with
  | reveal hk _ hd =>
      cases hm
      exact ⟨hk, _, hd, rfl⟩
  | commit _ _ _ | ack _ _ | share _ _ _ _ _ => cases hm

end Content

/-- What has been sent once `k` rounds are entered, and what of it stands in the own slots. -/
structure Emits (k : ℕ) (s : State) (sent : List (Message Payload)) : Prop where
  dealt : 1 ≤ k → ∀ i, s.params.oldIndex? = some i → ∃ d, s.HasDealt i d ∧
    .broadcast s.params.id .new (.commit d.2.commitment) ∈ sent
  sends : ∀ m ∈ sent, s.Sends k m
  ownCommit : 1 ≤ k → s.params.isNew = true → ∀ i d, s.params.oldIndex? = some i →
    s.dealt = some d → s.commits.admitted? true i = some d.2.commitment
  ownReveal : 3 ≤ k → ∀ i l d, s.params.oldIndex? = some i → s.params.newIndex? = some l →
    s.dealt = some d → s.reveals.admitted? true i = some d.2 ∧
      ∃ x, d.1.shares[l]? = some x ∧ s.shares.admitted? false i = some x

theorem Emits.mono {k : ℕ} (h : s.Emits k sent) (hs : s.Extends s') : s'.Emits k sent where
  dealt hk i hi := by
    rw [hs.params] at hi ⊢
    obtain ⟨d, hd, hsent⟩ := h.dealt hk i hi
    exact ⟨d, hd.mono hs, hsent⟩
  sends m hm := (h.sends m hm).mono le_rfl hs.params hs.dealt
  ownCommit hk hnew i d hi hd := by
    rw [hs.params] at hnew hi
    exact hs.commits (h.ownCommit hk hnew i d hi (hs.dealt ▸ hd))
  ownReveal hk i l d hi hl hd := by
    rw [hs.params] at hi hl
    obtain ⟨hreveal, x, hx, hshare⟩ := h.ownReveal hk i l d hi hl (hs.dealt ▸ hd)
    exact ⟨hs.reveals hreveal, x, hx, hs.shares hshare⟩

end State

/-! ## The rounds keep it -/

theorem isOld_of_oldIndex? {i : ℕ} (h : params.oldIndex? = some i) : params.isOld = true := by
  cases hid : params.oldId with
  | none => rw [Parameters.oldIndex?, hid] at h; cases h
  | some me => rw [Parameters.isOld, hid]; rfl

/-- The secret of an old member is the one behind its public share. -/
theorem oldShare_of_check {i : ℕ} {secret : Scalar} (hs : s.Prepared params input)
    (hcheck : input.check params = .ok ()) (hi : s.params.oldIndex? = some i)
    (hsecret : s.input.secret = some secret) :
    s.input.oldShares[i]? = some (secret • Point.generator) := by
  obtain rfl := hs.params_eq
  obtain rfl := hs.input_eq
  obtain ⟨-, -, -, -, hold⟩ := Input.check_eq_ok_iff.1 hcheck
  obtain ⟨me, hme, hindex⟩ := Option.bind_eq_some_iff.1 hi
  obtain ⟨i', secret', hindex', hsecret', hshare⟩ := Input.checkSecret_eq_ok_iff.1 (hold me hme)
  obtain rfl := Option.some.inj (hindex.symm.trans hindex')
  obtain rfl := Option.some.inj (hsecret.symm.trans hsecret')
  exact hshare

theorem exists_dealt {i : ℕ} (hs : s.Prepared params input) (hcheck : input.check params = .ok ())
    (hi : s.params.oldIndex? = some i) (he : enterCommit s = .ok e) :
    ∃ d source, State.HasDealt { s with dealt := some d } i d ∧
      e = {
        state := { s with
          source
          dealt := some d
          commits := if s.params.isNew then s.commits.put i ⟨d.2.commitment, true⟩ else s.commits }
        ticked := if s.params.isNew then [i] else []
        sent := [.broadcast s.params.id .new (.commit d.2.commitment)] } := by
  obtain ⟨secret, weight, dealing, source₁, commitment, opening, source₂, hsecret, hweight,
    hcreate, hcommit, rfl⟩ := (enterCommit_eq_ok_iff hi).1 he
  obtain ⟨-, -, -, hdealing, -⟩ := Dealing.create_eq_ok_iff.1 hcreate
  obtain ⟨rfl, hreveals⟩ := Dealing.reveals_of_commit hcommit
  have hshare := oldShare_of_check hs hcheck hi hsecret
  refine ⟨(dealing, opening), source₂, ⟨rfl, ⟨_, Dealing.length_coefficients .., hdealing⟩,
    ⟨_, weight, hshare, hweight, ?_⟩, hreveals⟩, rfl⟩
  rw [hdealing, ← mul_smul]
  rfl

theorem State.Emits.enterCommit (h : s.Emits 0 sent) (hs : s.Prepared params input)
    (hcheck : input.check params = .ok ()) (he : enterCommit s = .ok e) :
    e.state.Emits 1 (sent ++ e.sent) := by
  have hnothing (m : Message Payload) (hm : m ∈ sent) : False := by
    cases h.sends m hm <;> omega
  obtain rfl : sent = [] := List.eq_nil_iff_forall_not_mem.2 hnothing
  rw [List.nil_append]
  cases hi : s.params.oldIndex? with
  | none =>
      rw [enterCommit_of_notOld hi] at he
      obtain rfl := Except.ok.inj he
      exact ⟨fun _ i hi' => absurd (hi.symm.trans hi') (by simp),
        fun _ hm => absurd hm List.not_mem_nil,
        fun _ _ i _ hi' => absurd (hi.symm.trans hi') (by simp), fun hk => absurd hk (by omega)⟩
  | some i =>
      obtain ⟨d, source, hd, rfl⟩ := exists_dealt hs hcheck hi he
      refine ⟨fun _ i' hi' => ?_, fun m hm => ?_, fun _ hnew i' d' hi' hd' => ?_,
        fun hk => absurd hk (by omega)⟩
      · obtain rfl := Option.some.inj (hi.symm.trans hi')
        exact ⟨d, ⟨rfl, hd.dealing, hd.head, hd.reveals⟩, List.mem_singleton_self _⟩
      · obtain rfl := List.mem_singleton.1 hm
        exact .commit le_rfl (isOld_of_oldIndex? hi) rfl
      · obtain rfl := Option.some.inj (hi.symm.trans hi')
        obtain rfl := Option.some.inj hd'
        obtain ⟨_, _, hshare, -⟩ := hd.head
        have hlt := (List.getElem?_eq_some_iff.1 hshare).1
        dsimp only at hnew hlt ⊢
        rw [if_pos hnew]
        refine Slots.admitted?_put ?_ _
        rwa [hs.length_commits, ← (Input.check_eq_ok_iff.1 hcheck).1, ← hs.input_eq]

theorem State.Emits.enterAck (h : s.Emits 1 sent) (he : enterAck s = .ok e) :
    e.state.Emits 2 (sent ++ e.sent) := by
  have hentered : ∃ acks : Slots Unit, e.state = { s with acks } ∧ ∀ m ∈ e.sent, s.Sends 2 m := by
    cases hj : s.params.newIndex? with
    | none =>
        rw [enterAck_of_notNew hj] at he
        obtain rfl := Except.ok.inj he
        exact ⟨s.acks, rfl, fun _ hm => absurd hm List.not_mem_nil⟩
    | some j =>
        cases hme : s.params.newId with
        | none => rw [Parameters.newIndex?, hme] at hj; cases hj
        | some me =>
            rw [enterAck_eq hj hme] at he
            obtain rfl := Except.ok.inj he
            refine ⟨_, rfl, fun m hm => ?_⟩
            obtain rfl := List.mem_singleton.1 hm
            exact .ack le_rfl hme
  obtain ⟨acks, hstate, hsent⟩ := hentered
  rw [hstate]
  refine ⟨fun _ i hi => ?_, fun m hm => ?_, fun _ => h.ownCommit le_rfl,
    fun hk => absurd hk (by omega)⟩
  · obtain ⟨d, hd, hmem⟩ := h.dealt le_rfl i hi
    exact ⟨d, ⟨hd.dealt, hd.dealing, hd.head, hd.reveals⟩, List.mem_append_left _ hmem⟩
  · rcases List.mem_append.1 hm with hm | hm
    · exact (h.sends m hm).mono one_le_two rfl rfl
    · exact (hsent m hm).mono le_rfl rfl rfl

theorem mem_dealtShares {d : Dealing} {dealt : List (ℕ × PartyId × Share)}
    (h : dealtShares s d = .ok dealt) {j : ℕ} {p : PartyId} {x : Share} (hx : (j, p, x) ∈ dealt) :
    s.params.new.members[j]? = some p ∧ d.shares[j]? = some x := by
  obtain ⟨l, hl⟩ := List.mem_iff_getElem?.1 hx
  obtain ⟨⟨p', j'⟩, hmember, hshare⟩ := Result.getElem?_of_mapM h hl
  obtain ⟨rfl, hp⟩ : j' = l ∧ s.params.new.members[l]? = some p' := by
    rw [List.getElem?_zipIdx, Option.map_eq_some_iff] at hmember
    obtain ⟨p'', hp'', heq⟩ := hmember
    obtain ⟨rfl, rfl⟩ := Prod.mk.inj heq
    exact ⟨Nat.zero_add l, hp''⟩
  cases hx' : d.shares[j']? with
  | none => simp [hx'] at hshare
  | some x' =>
      simp only [hx', Except.ok.injEq, Prod.mk.injEq] at hshare
      obtain ⟨rfl, rfl, rfl⟩ := hshare
      exact ⟨hp, hx'⟩

theorem State.Emits.enterReveal (h : s.Emits 2 sent) (hs : s.Prepared params input)
    (hcheck : input.check params = .ok ())
    (hindex : ∀ l, params.newIndex? = some l → l < params.new.size) (he : enterReveal s = .ok e) :
    e.state.Emits 3 (sent ++ e.sent) := by
  cases hi : s.params.oldIndex? with
  | none =>
      rw [enterReveal_of_notOld hi] at he
      obtain rfl := Except.ok.inj he
      rw [List.append_nil]
      exact ⟨fun _ => h.dealt one_le_two, fun m hm => (h.sends m hm).mono (by omega) rfl rfl,
        fun _ => h.ownCommit one_le_two, fun _ i _ _ hi' => absurd (hi.symm.trans hi') (by simp)⟩
  | some i =>
      obtain ⟨dealing, opening, dealt, hdealt, hshares, rfl⟩ := (enterReveal_eq_ok_iff hi).1 he
      have hold := isOld_of_oldIndex? hi
      obtain ⟨d, hd, hmem⟩ := h.dealt one_le_two i hi
      obtain rfl := Option.some.inj (hd.dealt.symm.trans hdealt)
      have hlt : i < params.old.size := by
        obtain ⟨_, _, hshare, -⟩ := hd.head
        rw [← (Input.check_eq_ok_iff.1 hcheck).1, ← hs.input_eq]
        exact (List.getElem?_eq_some_iff.1 hshare).1
      refine ⟨fun _ i' hi' => ?_, fun m hm => ?_, fun _ => h.ownCommit one_le_two,
        fun _ i' l d' hi' hl hd' => ?_⟩
      · obtain rfl := Option.some.inj (hi.symm.trans hi')
        exact ⟨_, ⟨hd.dealt, hd.dealing, hd.head, hd.reveals⟩, List.mem_append_left _ hmem⟩
      · rcases List.mem_append.1 hm with hm | hm
        · exact (h.sends m hm).mono (by omega) rfl rfl
        · rcases List.mem_append.1 hm with hm | hm
          · obtain ⟨⟨j, p, x⟩, hx, rfl⟩ := List.mem_map.1 hm
            obtain ⟨hp, hx⟩ := mem_dealtShares hshares (List.mem_filter.1 hx).1
            exact .share le_rfl hold hdealt hp hx
          · obtain rfl := List.mem_singleton.1 hm
            have hsends := State.Sends.reveal (le_refl 3) hold hdealt
            exact hsends.mono le_rfl rfl rfl
      · obtain rfl := Option.some.inj (hi.symm.trans hi')
        obtain rfl := Option.some.inj (hdealt.symm.trans hd')
        dsimp only at hl ⊢
        rw [hl, Option.isSome_some, if_pos rfl]
        refine ⟨Slots.admitted?_put (hs.length_reveals.symm ▸ hlt) _, ?_⟩
        obtain ⟨p, x, hfind⟩ := find?_dealtShares hshares
          (show l < s.params.new.size from hs.params_eq.symm ▸ hindex l (hs.params_eq ▸ hl))
        rw [hfind]
        exact ⟨x, (mem_dealtShares hshares (List.mem_of_find?_eq_some hfind)).2,
          Slots.admitted?_put (hs.length_shares.symm ▸ hlt) _⟩

theorem silent_enterConclude (he : enterConclude s = .ok e) : e.state = s ∧ e.sent = [] := by
  have hresult := enterConclude_eq_ok_iff.1 he
  split at hresult
  · obtain ⟨k, -, rfl⟩ := hresult
    exact ⟨rfl, rfl⟩
  · obtain rfl := hresult
    exact ⟨rfl, rfl⟩

theorem State.Emits.enterConclude (h : s.Emits 3 sent) (he : enterConclude s = .ok e) :
    e.state.Emits 4 (sent ++ e.sent) := by
  obtain ⟨hstate, hsent⟩ := silent_enterConclude he
  rw [hstate, hsent, List.append_nil]
  exact ⟨fun _ => h.dealt (by omega), fun m hm => (h.sends m hm).mono (by omega) rfl rfl,
    fun _ => h.ownCommit (by omega), fun _ => h.ownReveal le_rfl⟩

def Invariant.WithSent (params : Parameters) (input : Input) (k : ℕ) (s : State)
    (sent : List (Message Payload)) (results : List Outcome) : Prop :=
  Invariant params input k s results ∧ s.Emits k sent

theorem keeps_withSent (hindex : ∀ l, params.newIndex? = some l → l < params.new.size)
    (hcheck : input.check params = .ok ()) :
    Party.Keeps protocol (rounds params) (Invariant.WithSent params input) :=
  (keeps hindex input).and
    (fun {k s sent results round entry} hround hinv hemits _ he => by
      rcases getElem?_rounds hround with ⟨rfl, rfl⟩ | ⟨rfl, rfl⟩ | ⟨rfl, rfl⟩ | ⟨rfl, rfl⟩
      · exact hemits.enterCommit hinv.prepared hcheck he
      · exact hemits.enterAck he
      · exact hemits.enterReveal hinv.prepared hcheck hindex he
      · exact hemits.enterConclude he)
    fun _ _ hemits hs => hemits.mono (State.takes_of_store hs).extends

theorem check_of_newParty {source : Source} {p : Party State Payload Outcome}
    (hp : newParty params input source = .ok p) : input.check params = .ok () := by
  obtain ⟨s, hs, -⟩ := Result.bind_eq_ok_iff.1 hp
  obtain ⟨u, hcheck, -⟩ := Result.bind_eq_ok_iff.1 hs
  exact hcheck

theorem follows_withSent {source : Source} {p : Party State Payload Outcome}
    (hp : newParty params input source = .ok p) :
    Party.Follows protocol (rounds params) (Invariant.WithSent params input) 0 p := by
  have hfollows := follows_newParty hp
  obtain ⟨s, -, hp⟩ := Result.bind_eq_ok_iff.1 hp
  obtain rfl := Except.ok.inj hp
  exact ⟨hfollows.protocol, hfollows.stage, hfollows.inv, fun hk => absurd hk (by omega),
    fun _ hm => absurd hm List.not_mem_nil, fun hk => absurd hk (by omega),
    fun hk => absurd hk (by omega)⟩

end ThresholdKeys.Reshare
