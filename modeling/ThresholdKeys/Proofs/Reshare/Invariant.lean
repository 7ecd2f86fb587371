import Mathlib
import ThresholdKeys.Proofs.Engine.Invariant
import ThresholdKeys.Proofs.Engine.Outcome
import ThresholdKeys.Proofs.Party.Committee
import ThresholdKeys.Proofs.Reshare.Entry
import ThresholdKeys.Proofs.Reshare.Store

/-!
# What a member of two committees holds

The invariant of a member under arbitrary calls: a new member that has left round 1 holds every
dealer's commitment, and for a key share that it has put out it holds the deals which the share was
made from. Every deal is checked against what the dealer is known to hold, so that nothing has to
be assumed about the dealers, not even about the member itself where it is one of them.
-/

namespace ThresholdKeys.Reshare

/-- The deal in the slots at place `j`, with the point that its dealer has to deal. -/
structure State.Holds (s : State) (j : ℕ) (d : Deal) : Prop where
  commit : s.commits.admitted? true j = some d.commitment
  share : s.shares.admitted? false j = some d.share
  reveal : s.reveals.admitted? true j = some d.opening
  expected : ∃ publicShare weight, s.input.oldShares[j]? = some publicShare ∧
    lagrangeCoefficient s.oldPoints j = .ok weight ∧ d.expected = weight • publicShare

theorem State.Holds.mono {s s' : State} {j : ℕ} {d : Deal} (h : s.Holds j d)
    (hs : s.Extends s') : s'.Holds j d where
  commit := hs.commits h.commit
  share := hs.shares h.share
  reveal := hs.reveals h.reveal
  expected := by rw [hs.input, hs.oldPoints]; exact h.expected

structure State.Prepared (s : State) (params : Parameters) (input : Input) : Prop where
  params_eq : s.params = params
  input_eq : s.input = input
  oldPoints_eq : params.old.points = .ok s.oldPoints
  newPoints_eq : params.new.points = .ok s.newPoints
  length_commits : s.commits.length = params.old.size
  length_acks : s.acks.length = params.new.size
  length_shares : s.shares.length = params.old.size
  length_reveals : s.reveals.length = params.old.size

theorem State.Prepared.length_newPoints {s : State} {params : Parameters} {input : Input}
    (h : s.Prepared params input) : s.newPoints.length = params.new.size :=
  Result.length_of_mapM h.newPoints_eq

theorem State.Prepared.mono {s s' : State} {params : Parameters} {input : Input}
    (h : s.Prepared params input) (hs : s.Extends s') : s'.Prepared params input where
  params_eq := hs.params.trans h.params_eq
  input_eq := hs.input.trans h.input_eq
  oldPoints_eq := by rw [hs.oldPoints, h.oldPoints_eq]
  newPoints_eq := by rw [hs.newPoints, h.newPoints_eq]
  length_commits := hs.length_commits.trans h.length_commits
  length_acks := hs.length_acks.trans h.length_acks
  length_shares := hs.length_shares.trans h.length_shares
  length_reveals := hs.length_reveals.trans h.length_reveals

/-- What a key share was made from: every dealer's deal as it stands in the slots, and the points
that it publishes. -/
structure State.Issued (s : State) (k : KeyShare) (deals : List Deal) (dealt : List (List Point)) :
    Prop where
  holds : ∀ j d, deals[j]? = some d → s.Holds j d
  length_deals : deals.length = s.params.old.size
  place : ∃ i own, s.params.newIndex? = some i ∧ s.newPoints[i]? = some own ∧
    List.Forall₂ (fun d vs => d.Sound s.params.newThreshold own vs) deals dealt ∧
    k.publicShares[i]? = some (k.secret • Point.generator) ∧ k.index = i
  head : (sumCommitments (s.params.newThreshold + 1) dealt).head? = some s.input.publicKey
  publicKey : k.publicKey = s.input.publicKey
  publicShares : k.publicShares =
    s.newPoints.map (evaluateCommitments (sumCommitments (s.params.newThreshold + 1) dealt))

theorem State.Issued.mono {s s' : State} {k : KeyShare} {deals : List Deal}
    {dealt : List (List Point)} (h : s.Issued k deals dealt) (hs : s.Extends s') :
    s'.Issued k deals dealt where
  holds j d hd := (h.holds j d hd).mono hs
  length_deals := by rw [hs.params]; exact h.length_deals
  place := by rw [hs.params, hs.newPoints]; exact h.place
  head := by rw [hs.params, hs.input]; exact h.head
  publicKey := by rw [hs.input]; exact h.publicKey
  publicShares := by rw [hs.params, hs.newPoints]; exact h.publicShares

/-- The invariant of a member that has entered `k` rounds. -/
structure Invariant (params : Parameters) (input : Input) (k : ℕ) (s : State)
    (results : List Outcome) : Prop where
  prepared : s.Prepared params input
  committed : 2 ≤ k → params.isNew = true → ∀ j < params.old.size, hasCommit s j = true
  none : k ≤ 3 → results = []
  issued : ∀ share, .share share ∈ results → ∃ deals dealt, s.Issued share deals dealt

theorem Invariant.mono {params : Parameters} {input : Input} {k : ℕ} {s s' : State}
    {results : List Outcome} (h : Invariant params input k s results) (hs : s.Extends s') :
    Invariant params input k s' results where
  prepared := h.prepared.mono hs
  committed hk hnew j hj := hasCommit_mono hs (h.committed hk hnew j hj)
  none := h.none
  issued share hshare := by
    obtain ⟨deals, dealt, hissued⟩ := h.issued share hshare
    exact ⟨deals, dealt, hissued.mono hs⟩

/-! ## The rounds keep the invariant -/

variable {params : Parameters} {input : Input} {s : State} {e : Step} {results : List Outcome}

theorem Invariant.enterCommit (h : Invariant params input 0 s results)
    (he : enterCommit s = .ok e) :
    Invariant params input 1 e.state (results ++ e.result.toList) := by
  have hnone : results = [] := h.none (Nat.zero_le 3)
  have hprepared : e.state.Prepared params input ∧ e.result = Option.none := by
    cases hi : s.params.oldIndex? with
    | none =>
        rw [enterCommit_of_notOld hi] at he
        obtain rfl := Except.ok.inj he
        exact ⟨h.prepared, rfl⟩
    | some i =>
        obtain ⟨_, _, _, _, _, _, _, -, -, -, -, rfl⟩ := (enterCommit_eq_ok_iff hi).1 he
        refine ⟨{ h.prepared with length_commits := ?_ }, rfl⟩
        change List.length (if _ then _ else _) = _
        split
        · exact (Slots.length_put ..).trans h.prepared.length_commits
        · exact h.prepared.length_commits
  exact
    { prepared := hprepared.1
      committed := fun hk => absurd hk (by omega)
      none := fun _ => by rw [hnone, hprepared.2]; rfl
      issued := by simp [hnone, hprepared.2] }

theorem Invariant.enterAck (h : Invariant params input 1 s results)
    (hall : params.isNew = true → ∀ j < params.old.size, hasCommit s j = true)
    (he : enterAck s = .ok e) :
    Invariant params input 2 e.state (results ++ e.result.toList) := by
  have hnone : results = [] := h.none (by omega)
  have hstate : ∃ acks : Slots Unit, acks.length = s.acks.length ∧ e.state = { s with acks } ∧
      e.result = Option.none := by
    cases hj : s.params.newIndex? with
    | none =>
        rw [enterAck_of_notNew hj] at he
        obtain rfl := Except.ok.inj he
        exact ⟨s.acks, rfl, rfl, rfl⟩
    | some j =>
        cases hme : s.params.newId with
        | none => rw [Parameters.newIndex?, hme] at hj; cases hj
        | some me =>
            rw [enterAck_eq hj hme] at he
            obtain rfl := Except.ok.inj he
            refine ⟨_, ?_, rfl, rfl⟩
            split
            · exact Slots.length_put ..
            · rfl
  obtain ⟨acks, hlength, hstate, hresult⟩ := hstate
  rw [hstate, hresult]
  exact
    { prepared := { h.prepared with length_acks := hlength.trans h.prepared.length_acks }
      committed := fun _ => hall
      none := fun _ => by rw [hnone]; rfl
      issued := by simp [hnone] }

theorem Invariant.enterReveal (h : Invariant params input 2 s results)
    (he : enterReveal s = .ok e) :
    Invariant params input 3 e.state (results ++ e.result.toList) := by
  have hnone : results = [] := h.none (by omega)
  have hstate : ∃ (shares : Slots Share) (reveals : Slots Opening),
      shares.length = s.shares.length ∧ reveals.length = s.reveals.length ∧
        e.state = { s with shares, reveals } ∧ e.result = Option.none := by
    cases hi : s.params.oldIndex? with
    | none =>
        rw [enterReveal_of_notOld hi] at he
        obtain rfl := Except.ok.inj he
        exact ⟨s.shares, s.reveals, rfl, rfl, rfl, rfl⟩
    | some i =>
        obtain ⟨_, _, dealt, -, -, rfl⟩ := (enterReveal_eq_ok_iff hi).1 he
        refine ⟨_, _, ?_, ?_, rfl, rfl⟩
        · cases dealt.find? fun d => s.params.newIndex? = some d.1 with
          | none => rfl
          | some d => exact Slots.length_put ..
        · split
          · exact Slots.length_put ..
          · rfl
  obtain ⟨shares, reveals, hshares, hreveals, hstate, hresult⟩ := hstate
  rw [hstate, hresult]
  exact
    { prepared := { h.prepared with
        length_shares := hshares.trans h.prepared.length_shares
        length_reveals := hreveals.trans h.prepared.length_reveals }
      committed := fun _ => h.committed le_rfl
      none := fun _ => by rw [hnone]; rfl
      issued := by simp [hnone] }

theorem holds_of_deal {j : ℕ} {d : Deal} (hd : deal s j = .ok d) (hcommit : hasCommit s j = true)
    (hreveal : hasReveal s j = true) : s.Holds j d := by
  obtain ⟨hcommitment, hshare, hopening, hexpected⟩ := deal_eq_ok_iff.1 hd
  obtain ⟨c', hc'⟩ := Option.isSome_iff_exists.1 hcommit
  rw [hasReveal, Bool.and_eq_true] at hreveal
  obtain ⟨x', hx'⟩ := Option.isSome_iff_exists.1 hreveal.1
  obtain ⟨o', ho'⟩ := Option.isSome_iff_exists.1 hreveal.2
  refine ⟨?_, ?_, ?_, hexpected⟩
  · rw [hc', ← hcommitment, Slots.item?_of_admitted? hc']
  · rw [hx', ← hshare, Slots.item?_of_admitted? hx']
  · rw [ho', ← hopening, Slots.item?_of_admitted? ho']

theorem issued_of_conclude {k : KeyShare}
    (hcommit : ∀ j < s.params.old.size, hasCommit s j = true)
    (hreveal : ∀ j < s.params.old.size, hasReveal s j = true) (hk : conclude s = .ok k) :
    ∃ deals dealt, s.Issued k deals dealt := by
  obtain ⟨i, own, deals, dealt, hi, hown, hdeals, hsound, hassemble⟩ := conclude_eq_ok_iff.1 hk
  obtain ⟨hhead, hmake⟩ := assemble_eq_ok_iff.1 hassemble
  obtain ⟨-, -, hsecret, rfl⟩ := KeyShare.make_eq_ok_iff.1 hmake
  refine ⟨deals, dealt,
    { holds := fun j d hd => ?_
      length_deals := by rw [Result.length_of_mapM hdeals, List.length_range]
      place := ⟨i, own, hi, hown, hsound, hsecret, rfl⟩
      head := hhead
      publicKey := rfl
      publicShares := rfl }⟩
  obtain ⟨j', hj', hd'⟩ := Result.getElem?_of_mapM hdeals hd
  obtain ⟨hj, rfl⟩ := List.getElem?_eq_some_iff.1 hj'
  rw [List.length_range] at hj
  rw [List.getElem_range] at hd'
  exact holds_of_deal hd' (hcommit j hj) (hreveal j hj)

theorem Invariant.enterConclude (h : Invariant params input 3 s results)
    (hall : params.isNew = true → ∀ j < params.old.size, hasReveal s j = true)
    (he : enterConclude s = .ok e) :
    Invariant params input 4 e.state (results ++ e.result.toList) := by
  have hnone : results = [] := h.none le_rfl
  have hparams := h.prepared.params_eq
  have hresult := enterConclude_eq_ok_iff.1 he
  split at hresult
  · rename_i hnew
    obtain ⟨k, hk, rfl⟩ := hresult
    rw [hparams] at hnew
    exact
      { prepared := h.prepared
        committed := fun _ => h.committed (by omega)
        none := fun hk => absurd hk (by omega)
        issued := fun share hshare => by
          rw [hnone, List.nil_append, Option.mem_toList] at hshare
          obtain rfl := Outcome.share.inj (Option.some.inj hshare)
          apply issued_of_conclude _ _ hk
          · rw [hparams]
            exact h.committed (by omega) hnew
          · rw [hparams]
            exact hall hnew }
  · subst hresult
    exact
      { prepared := h.prepared
        committed := fun _ => h.committed (by omega)
        none := fun hk => absurd hk (by omega)
        issued := fun share hshare => by
          rw [hnone, List.nil_append, Option.mem_toList] at hshare
          cases hshare }

/-! ## What a member ticks off itself -/

/-- Among the shares that were dealt to the new committee is one for each of its places. -/
theorem exists_dealtShare {d : Dealing} {dealt : List (ℕ × PartyId × Share)}
    (h : dealtShares s d = .ok dealt) {j : ℕ} (hj : j < s.params.new.size) :
    ∃ p x, (j, p, x) ∈ dealt := by
  have hall := Result.mapM_eq_ok_iff.1 h
  have hj' : j < s.params.new.members.zipIdx.length := by rwa [List.length_zipIdx]
  have hj'' : j < dealt.length := hall.length_eq ▸ hj'
  have hget := (List.forall₂_iff_get.1 hall).2 j hj' hj''
  simp only [List.get_eq_getElem, List.getElem_zipIdx, Nat.zero_add] at hget
  split at hget
  · rename_i x _
    exact ⟨_, x, Except.ok.inj hget ▸ List.getElem_mem hj''⟩
  · cases hget

/-- A member of both committees finds its own share among those that it dealt. -/
theorem find?_dealtShares {d : Dealing} {dealt : List (ℕ × PartyId × Share)}
    (h : dealtShares s d = .ok dealt) {j : ℕ} (hj : j < s.params.new.size) :
    ∃ p x, dealt.find? (fun d => decide (some j = some d.1)) = some (j, p, x) := by
  obtain ⟨p, x, hx⟩ := exists_dealtShare h hj
  have hkept : (dealt.find? fun d => decide (some j = some d.1)).isSome :=
    List.find?_isSome.2 ⟨_, hx, decide_eq_true rfl⟩
  obtain ⟨⟨j', p', x'⟩, hfind⟩ := Option.isSome_iff_exists.1 hkept
  obtain rfl : j = j' := by simpa using List.find?_some hfind
  exact ⟨p', x', hfind⟩

variable (hindex : ∀ j, params.newIndex? = some j → j < params.new.size)

theorem ticked_enterCommit (h : Invariant params input 0 s results)
    (he : enterCommit s = .ok e) {j : ℕ} (hj : j ∈ e.ticked)
    (hlt : j < (dealers params).length) : hasCommit e.state j = true := by
  have hparams := h.prepared.params_eq
  cases hi : s.params.oldIndex? with
  | none =>
      rw [enterCommit_of_notOld hi] at he
      obtain rfl := Except.ok.inj he
      exact absurd hj List.not_mem_nil
  | some i =>
      obtain ⟨_, _, _, _, commitment, _, _, -, -, -, -, rfl⟩ := (enterCommit_eq_ok_iff hi).1 he
      dsimp only at hj ⊢
      split at hj
      · rename_i hnew
        obtain rfl := List.mem_singleton.1 hj
        rw [dealers, ← hparams, if_pos hnew, hparams] at hlt
        refine Option.isSome_iff_exists.2 ⟨commitment, ?_⟩
        dsimp only
        rw [if_pos hnew]
        exact Slots.admitted?_put (h.prepared.length_commits.symm ▸ hlt) _
      · exact absurd hj List.not_mem_nil

include hindex in
theorem ticked_enterAck (h : Invariant params input 1 s results) (he : enterAck s = .ok e) {j : ℕ}
    (hj : j ∈ e.ticked) : hasAck e.state j = true := by
  have hparams := h.prepared.params_eq
  cases hi : s.params.newIndex? with
  | none =>
      rw [enterAck_of_notNew hi] at he
      obtain rfl := Except.ok.inj he
      exact absurd hj List.not_mem_nil
  | some i =>
      cases hme : s.params.newId with
      | none => rw [Parameters.newIndex?, hme] at hi; cases hi
      | some me =>
          rw [enterAck_eq hi hme] at he
          obtain rfl := Except.ok.inj he
          dsimp only at hj ⊢
          split at hj
          · rename_i hold
            obtain rfl := List.mem_singleton.1 hj
            refine Option.isSome_iff_exists.2 ⟨(), ?_⟩
            dsimp only
            rw [if_pos hold]
            apply Slots.admitted?_put
            rw [h.prepared.length_acks]
            exact hindex j (hparams ▸ hi)
          · exact absurd hj List.not_mem_nil

include hindex in
theorem ticked_enterReveal (h : Invariant params input 2 s results)
    (he : enterReveal s = .ok e) {j : ℕ} (hj : j ∈ e.ticked)
    (hlt : j < (dealers params).length) : hasReveal e.state j = true := by
  have hparams := h.prepared.params_eq
  cases hi : s.params.oldIndex? with
  | none =>
      rw [enterReveal_of_notOld hi] at he
      obtain rfl := Except.ok.inj he
      exact absurd hj List.not_mem_nil
  | some i =>
      obtain ⟨dealing, opening, dealt, -, hdealt, rfl⟩ := (enterReveal_eq_ok_iff hi).1 he
      dsimp only at hj ⊢
      split at hj
      · rename_i hown
        obtain rfl := List.mem_singleton.1 hj
        obtain ⟨l, hl⟩ := Option.isSome_iff_exists.1 hown
        have hnew : params.isNew = true := by
          rw [hparams] at hl
          cases hid : params.newId with
          | none => rw [Parameters.newIndex?, hid] at hl; cases hl
          | some me => rw [Parameters.isNew, hid]; rfl
        rw [dealers, if_pos hnew] at hlt
        obtain ⟨p, x, hfind⟩ := find?_dealtShares hdealt
          (show l < s.params.new.size from hparams ▸ hindex l (hparams ▸ hl))
        rw [hasReveal, Bool.and_eq_true]
        dsimp only
        rw [if_pos hown, hl, hfind]
        exact ⟨Option.isSome_iff_exists.2
            ⟨_, Slots.admitted?_put (h.prepared.length_shares.symm ▸ hlt) _⟩,
          Option.isSome_iff_exists.2
            ⟨_, Slots.admitted?_put (h.prepared.length_reveals.symm ▸ hlt) _⟩⟩
      · exact absurd hj List.not_mem_nil

include hindex in
/-- Entering a round and taking up a message keep the invariant. -/
theorem keeps (input : Input) :
    Party.Keeps protocol (rounds params)
      fun k s _ results => Invariant params input k s results where
  enter {k s sent results round entry} hround hinv hall he := by
    have hdealers {arrived : State → ℕ → Bool}
        (hl : ∀ j < (dealers params).length, arrived s j = true) (hnew : params.isNew = true) :
        ∀ j < params.old.size, arrived s j = true := by
      rwa [dealers, if_pos hnew] at hl
    rcases getElem?_rounds hround with ⟨rfl, rfl⟩ | ⟨rfl, rfl⟩ | ⟨rfl, rfl⟩ | ⟨rfl, rfl⟩
    · exact hinv.enterCommit he
    · exact hinv.enterAck (hdealers (hall 0 _ rfl rfl)) he
    · exact hinv.enterReveal he
    · exact hinv.enterConclude (hdealers (hall 2 _ rfl rfl)) he
  ticked {k s sent results round entry} hround hinv he j hj hlt := by
    rcases getElem?_rounds hround with ⟨rfl, rfl⟩ | ⟨rfl, rfl⟩ | ⟨rfl, rfl⟩ | ⟨rfl, rfl⟩
    · exact ticked_enterCommit hinv he hj hlt
    · exact ticked_enterAck hindex hinv he hj
    · exact ticked_enterReveal hindex hinv he hj hlt
    · exact absurd hlt (Nat.not_lt_zero j)
  store {k s sent results m s'} _ hinv hs := hinv.mono (State.takes_of_store hs).extends
  arrived _ hround hs hj := hasArrived_mono (State.takes_of_store hs).extends hround hj

/-! ## Members that have not started -/

theorem follows_newParty {params : Parameters} {input : Input} {source : Source}
    {p : Party State Payload Outcome} (hp : newParty params input source = .ok p) :
    Party.Follows protocol (rounds params)
      (fun k s _ results => Invariant params input k s results) 0 p := by
  obtain ⟨s, hs, hp⟩ := Result.bind_eq_ok_iff.1 hp
  obtain rfl := Except.ok.inj hp
  obtain ⟨u, -, hs⟩ := Result.bind_eq_ok_iff.1 hs
  obtain ⟨oldPoints, hold, hs⟩ := Result.bind_eq_ok_iff.1 hs
  obtain ⟨newPoints, hnew, hs⟩ := Result.bind_eq_ok_iff.1 hs
  obtain rfl := Except.ok.inj hs
  exact ⟨rfl, ⟨rfl, rfl⟩,
    { prepared := ⟨rfl, rfl, hold, hnew, Slots.length_empty _, Slots.length_empty _,
        Slots.length_empty _, Slots.length_empty _⟩
      committed := fun h => absurd h (by omega)
      none := fun _ => rfl
      issued := fun _ h => absurd h List.not_mem_nil }⟩

theorem protocol_of_run {params : Parameters} {input : Input} {source : Source}
    {p : Party State Payload Outcome} (hp : newParty params input source = .ok p)
    (calls : List (Call Payload)) : (p.run calls).protocol = protocol :=
  (Party.frame_of_moves (p.moves_run calls)).1.trans (follows_newParty hp).protocol

section Make

variable {curve : CurveParams} {old new : Committee} {id : PartyId}
  {oldThreshold newThreshold : ℕ} {version : Version} {params : Parameters}

theorem Parameters.make_eq_ok_iff :
    Parameters.make curve old new id oldThreshold newThreshold version = .ok params ↔
      oldThreshold < old.size ∧ checkThreshold newThreshold new.size = .ok () ∧
        ∃ own, (old.find? id <|> new.find? id) = some own ∧
          params = ⟨curve, old, new, oldThreshold, newThreshold, own, old.find? id, new.find? id,
            version⟩ := by
  unfold Parameters.make
  by_cases hsize : old.size ≤ oldThreshold
  · rw [if_pos hsize]
    exact ⟨fun h => (by cases h), fun h => absurd h.1 (Nat.not_lt.2 hsize)⟩
  · rw [if_neg hsize, Result.bind_eq_ok_iff]
    constructor
    · rintro ⟨_, hthreshold, h⟩
      dsimp only at h
      cases hown : old.find? id <|> new.find? id with
      | none => rw [hown] at h; cases h
      | some own =>
          rw [hown] at h
          exact ⟨Nat.not_le.1 hsize, hthreshold, own, rfl, (Except.ok.inj h).symm⟩
    · rintro ⟨-, hthreshold, own, hown, rfl⟩
      refine ⟨(), hthreshold, ?_⟩
      dsimp only
      rw [hown]
      rfl

theorem committees_of_make
    (h : Parameters.make curve old new id oldThreshold newThreshold version = .ok params) :
    params.old = old ∧ params.new = new ∧ params.newId = new.find? id := by
  obtain ⟨-, -, own, -, rfl⟩ := Parameters.make_eq_ok_iff.1 h
  exact ⟨rfl, rfl, rfl⟩

theorem newIndex?_lt_of_make (hnew : new.Proper)
    (h : Parameters.make curve old new id oldThreshold newThreshold version = .ok params) {j : ℕ}
    (hj : params.newIndex? = some j) : j < params.new.size := by
  obtain ⟨-, hparams, hid⟩ := committees_of_make h
  rw [Parameters.newIndex?, hid] at hj
  rw [hparams]
  exact (hnew.position?_eq_some_iff.1 hj).1

end Make

end ThresholdKeys.Reshare
