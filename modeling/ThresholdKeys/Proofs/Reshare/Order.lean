import Mathlib
import ThresholdKeys.Proofs.Engine.Intake
import ThresholdKeys.Proofs.Engine.Reorder
import ThresholdKeys.Proofs.Engine.Replay
import ThresholdKeys.Proofs.Reshare.Invariant

/-!
# Resharing in any order of messages

As in key generation, what a member does when it enters a round depends on what has come the right
way for the rounds before. Which messages count depends on the committees that the member is on; all
others are dropped and so may come at any time.
-/

namespace ThresholdKeys.Reshare

variable {params : Parameters} {input : Input} {s t : State} {m m' : Message Payload}

/-! ## Filling slots -/

/-- The committee that a content speaks for. -/
def Payload.senders (params : Parameters) : Payload → Committee
  | ack => params.new
  | commit _ | share _ | reveal _ => params.old

/-- Whether a content is for a committee that the member is on. -/
def Payload.isFor (params : Parameters) : Payload → Bool
  | ack => params.isOld
  | commit _ | share _ | reveal _ => params.isNew

def place? (params : Parameters) (m : Message Payload) : Option ℕ :=
  if m.content.isFor params then (m.content.senders params).seat? m.sender else none

def State.fill (s : State) (j : ℕ) (m : Message Payload) : State :=
  match m.content with
  | .commit c => { s with commits := s.commits.store true j ⟨c, m.isBroadcast⟩ }
  | .ack => { s with acks := s.acks.store true j ⟨(), m.isBroadcast⟩ }
  | .share x => { s with shares := s.shares.store false j ⟨x, m.isBroadcast⟩ }
  | .reveal o => { s with reveals := s.reveals.store true j ⟨o, m.isBroadcast⟩ }

/-- The state without what came the wrong way. -/
def State.strip (s : State) : State :=
  { s with
    commits := s.commits.strip true
    acks := s.acks.strip true
    shares := s.shares.strip false
    reveals := s.reveals.strip true }

def State.acknowledge (s : State) (i : ℕ) : State :=
  { s with acks := if s.params.isOld then s.acks.put i ⟨(), true⟩ else s.acks }

def State.reveal (s : State) (i : ℕ) (kept : Option (ℕ × PartyId × Share)) (opening : Opening) :
    State :=
  { s with
    shares := kept.elim s.shares fun d => s.shares.put i ⟨d.2.2, false⟩
    reveals := if s.params.newIndex?.isSome then s.reveals.put i ⟨opening, true⟩ else s.reveals }

theorem place?_eq_some_iff {j : ℕ} : place? params m = some j ↔
    m.content.isFor params = true ∧ (m.content.senders params).seat? m.sender = some j := by
  rw [place?, Option.ite_none_right_eq_some]

theorem store_of_place? {j : ℕ} (h : place? s.params m = some j) :
    protocol.store s m = .ok (s.fill j m) := by
  obtain ⟨hfor, hseat⟩ := place?_eq_some_iff.1 h
  change s.store m = _
  unfold State.store State.fill State.seatOf
  cases hcontent : m.content with
  | ack =>
      rw [hcontent] at hfor hseat
      change s.params.new.seat? m.sender = some j at hseat
      simp only [show s.params.isOld = true from hfor, if_true, hseat]
      rfl
  | commit c | share x | reveal o =>
      rw [hcontent] at hfor hseat
      change s.params.old.seat? m.sender = some j at hseat
      simp only [show s.params.isNew = true from hfor, if_true, hseat]
      rfl

/-- A message that is for others is dropped. -/
theorem store_of_isFor_eq_false (h : m.content.isFor s.params = false) :
    protocol.store s m = .ok s := by
  change s.store m = _
  unfold State.store
  cases hcontent : m.content with
  | ack =>
      rw [hcontent] at h
      simp only [show s.params.isOld = false from h, Bool.false_eq_true, if_false]
  | commit c | share x | reveal o =>
      rw [hcontent] at h
      simp only [show s.params.isNew = false from h, Bool.false_eq_true, if_false]

theorem store_of_seat?_eq_none (hfor : m.content.isFor s.params = true)
    (hseat : (m.content.senders s.params).seat? m.sender = none) :
    protocol.store s m = .error (.fault ⟨task, m.round, [m.sender], .senderNotOnCommittee⟩) := by
  change s.store m = _
  unfold State.store State.seatOf
  cases hcontent : m.content with
  | ack =>
      rw [hcontent] at hfor hseat
      change s.params.new.seat? m.sender = none at hseat
      simp only [show s.params.isOld = true from hfor, if_true, hseat]
      rfl
  | commit c | share x | reveal o =>
      rw [hcontent] at hfor hseat
      change s.params.old.seat? m.sender = none at hseat
      simp only [show s.params.isNew = true from hfor, if_true, hseat]
      rfl

def commitShelf : Shelf State Payload where
  Item := Commitment
  kind := "ReshareRound1Commit"
  byBroadcast := true
  slots := State.commits
  item?
    | .commit c => some c
    | _ => none

def ackShelf : Shelf State Payload where
  Item := Unit
  kind := "ReshareRound2Ack"
  byBroadcast := true
  slots := State.acks
  item?
    | .ack => some ()
    | _ => none

def shareShelf : Shelf State Payload where
  Item := Share
  kind := "ReshareRound3Share"
  byBroadcast := false
  slots := State.shares
  item?
    | .share x => some x
    | _ => none

def revealShelf : Shelf State Payload where
  Item := Opening
  kind := "ReshareRound3Decommit"
  byBroadcast := true
  slots := State.reveals
  item?
    | .reveal o => some o
    | _ => none

def intake : Intake State Payload where
  shelves := [commitShelf, ackShelf, shareShelf, revealShelf]
  byBroadcast := Payload.byBroadcast
  consumes s := Payload.isFor s.params
  senders s := Payload.senders s.params
  charge := .senderNotOnCommittee

theorem mem_shelves_iff {shelf : Shelf State Payload} : shelf ∈ intake.shelves ↔
    shelf = commitShelf ∨ shelf = ackShelf ∨ shelf = shareShelf ∨ shelf = revealShelf := by
  simp [intake]

theorem stores : intake.Stores protocol State.fill where
  filled hplace := store_of_place? hplace
  dropped hfor := store_of_isFor_eq_false hfor
  refused hfor hseat := store_of_seat?_eq_none hfor hseat

theorem eq_of_store_error {e : Error} (h : protocol.store s m = .error e) :
    (m.content.isFor s.params = true ∧ (m.content.senders s.params).seat? m.sender = none) ∧
      e = .fault ⟨task, m.round, [m.sender], .senderNotOnCommittee⟩ :=
  stores.eq_of_error h

theorem takeUp_eq (s : State) (m : Message Payload) :
    protocol.takeUp s m = (place? s.params m).elim s fun j => s.fill j m :=
  stores.takeUp_eq s m

theorem params_fill (s : State) (j : ℕ) (m : Message Payload) : (s.fill j m).params = s.params := by
  unfold State.fill
  split <;> rfl

theorem extends_takeUp (s : State) (m : Message Payload) : s.Extends (protocol.takeUp s m) := by
  rcases protocol.takeUp_cases s m with heq | hstore
  · rw [heq]
    exact .refl s
  · exact (State.takes_of_store hstore).extends

theorem extends_strip (s : State) : s.Extends s.strip :=
  { State.Extends.refl s with
    length_commits := Slots.length_strip ..
    length_acks := Slots.length_strip ..
    length_shares := Slots.length_strip ..
    length_reveals := Slots.length_strip ..
    commits := fun h => (Slots.admitted?_strip ..).trans h
    acks := fun h => (Slots.admitted?_strip ..).trans h
    shares := fun h => (Slots.admitted?_strip ..).trans h
    reveals := fun h => (Slots.admitted?_strip ..).trans h }

theorem extends_of_strip (h : s.strip = t.strip) : s.Extends t := by
  simp only [State.strip, State.mk.injEq] at h
  obtain ⟨hparams, hinput, hold, hnew, -, hdealt, hcommits, hacks, hshares, hreveals⟩ := h
  exact
    { params := hparams.symm
      input := hinput.symm
      oldPoints := hold.symm
      newPoints := hnew.symm
      dealt := hdealt.symm
      length_commits := by simpa using congrArg List.length hcommits.symm
      length_acks := by simpa using congrArg List.length hacks.symm
      length_shares := by simpa using congrArg List.length hshares.symm
      length_reveals := by simpa using congrArg List.length hreveals.symm
      commits := fun hj => by rwa [← Slots.admitted?_strip, ← hcommits, Slots.admitted?_strip]
      acks := fun hj => by rwa [← Slots.admitted?_strip, ← hacks, Slots.admitted?_strip]
      shares := fun hj => by rwa [← Slots.admitted?_strip, ← hshares, Slots.admitted?_strip]
      reveals := fun hj => by rwa [← Slots.admitted?_strip, ← hreveals, Slots.admitted?_strip] }

/-! ## Entering rounds -/

/-- Entering round 2 goes together with every change that keeps what it reads. -/
theorem enterAck_comm {f : State → State} (hext : s.Extends (f s))
    (hack : ∀ i, f (s.acknowledge i) = (f s).acknowledge i) :
    enterAck (f s) = (enterAck s).map fun e => { e with state := f e.state } := by
  unfold enterAck
  simp only [hext.params]
  cases s.params.newIndex? with
  | none => rfl
  | some i =>
      cases s.params.newId with
      | none => rfl
      | some me =>
          have hstate := hack i
          simp only [State.acknowledge, hext.params] at hstate
          simp only [Except.map, hstate]

theorem enterReveal_comm {f : State → State} (hext : s.Extends (f s))
    (hreveal : ∀ i kept opening, f (s.reveal i kept opening) = (f s).reveal i kept opening) :
    enterReveal (f s) = (enterReveal s).map fun e => { e with state := f e.state } := by
  have hshares (d : Dealing) : dealtShares (f s) d = dealtShares s d := by
    simp only [dealtShares, hext.params]
  unfold enterReveal
  simp only [hext.params, hext.dealt, hshares]
  cases s.params.oldIndex? with
  | none => rfl
  | some i =>
      cases hd : s.dealt with
      | none => rfl
      | some d =>
          dsimp only
          cases dealtShares s d.1 with
          | error e => rfl
          | ok dealt =>
              have hstate := hreveal i (dealt.find? fun d => s.params.newIndex? = some d.1) d.2
              simp only [State.reveal, hext.params, hext.dealt, hd] at hstate
              simp only [Result.ok_bind, Result.pure_eq_ok, Except.map]
              cases hkept : dealt.find? fun d => s.params.newIndex? = some d.1 <;>
                simp only [hkept, Option.elim_none, Option.elim_some] at hstate <;>
                simp only [hstate]

theorem deal_of_extends (h : s.Extends t) {j : ℕ} (hcommit : hasCommit s j = true)
    (hreveal : hasReveal s j = true) : deal t j = deal s j := by
  obtain ⟨hshare, hopening⟩ := Bool.and_eq_true_iff.1 hreveal
  unfold deal
  rw [Slots.item?_eq_of_admitted? h.commits hcommit, Slots.item?_eq_of_admitted? h.shares hshare,
    Slots.item?_eq_of_admitted? h.reveals hopening, h.input, h.oldPoints]

theorem conclude_of_extends (h : s.Extends t)
    (hcommit : ∀ j < s.params.old.size, hasCommit s j = true)
    (hreveal : ∀ j < s.params.old.size, hasReveal s j = true) : conclude t = conclude s := by
  have hdeals : (List.range s.params.old.size).mapM (deal t) =
      (List.range s.params.old.size).mapM (deal s) :=
    Result.mapM_congr fun j hj =>
      deal_of_extends h (hcommit j (List.mem_range.1 hj)) (hreveal j (List.mem_range.1 hj))
  have hassemble (i : ℕ) (ds : List Deal) (dealt : List (List Point)) :
      assemble t i ds dealt = assemble s i ds dealt := by
    simp only [assemble, h.params, h.input, h.newPoints]
  unfold conclude
  simp only [h.params, h.newPoints, hdeals, hassemble]

theorem enterConclude_comm {f : State → State} (hext : s.Extends (f s))
    (hcommit : s.params.isNew = true → ∀ j < s.params.old.size, hasCommit s j = true)
    (hreveal : s.params.isNew = true → ∀ j < s.params.old.size, hasReveal s j = true) :
    enterConclude (f s) = (enterConclude s).map fun e => { e with state := f e.state } := by
  unfold enterConclude
  rw [hext.params]
  split
  · rename_i hnew
    rw [conclude_of_extends hext (hcommit hnew) (hreveal hnew)]
    cases conclude s <;> rfl
  · rfl

/-! ## Early, late and repeated messages -/

theorem hasCommit_fill (hm : m.round ≠ 1) (s : State) (i j : ℕ) :
    hasCommit (s.fill i m) j = hasCommit s j := by
  unfold State.fill
  cases hcontent : m.content with
  | commit c => exact absurd (by rw [Message.round, hcontent]; rfl) hm
  | ack | share x | reveal o => rfl

theorem hasAck_fill (hm : m.round ≠ 2) (s : State) (i j : ℕ) :
    hasAck (s.fill i m) j = hasAck s j := by
  unfold State.fill
  cases hcontent : m.content with
  | ack => exact absurd (by rw [Message.round, hcontent]; rfl) hm
  | commit c | share x | reveal o => rfl

theorem hasReveal_fill (hm : m.round ≠ 3) (s : State) (i j : ℕ) :
    hasReveal (s.fill i m) j = hasReveal s j := by
  unfold State.fill
  cases hcontent : m.content with
  | commit c | ack => rfl
  | share x | reveal o => exact absurd (by rw [Message.round, hcontent]; rfl) hm

theorem round_eq_of_kind_eq (h : m.kind = m'.kind) : m.round = m'.round := by
  unfold Message.kind at h
  unfold Message.round
  cases hcontent : m.content <;> cases hcontent' : m'.content <;> rw [hcontent, hcontent'] at h <;>
    first
      | rfl
      | simp [Content.kind, Payload.kind] at h

/-- Messages of different kinds or places go to different slots. -/
theorem fill_comm {i j : ℕ} (h : m.kind = m'.kind → i ≠ j) (s : State) :
    (s.fill i m).fill j m' = (s.fill j m').fill i m := by
  unfold State.fill
  unfold Message.kind at h
  cases hcontent : m.content <;> cases hcontent' : m'.content <;> rw [hcontent, hcontent'] at h <;>
    first
      | rfl
      | simp only [Slots.store_comm (h rfl)]

theorem fills : intake.Fills State.fill where
  place? s j m := by
    change Reshare.place? (s.fill j m).params = Reshare.place? s.params
    rw [params_fill]
  slots shelf hshelf s j m := by
    unfold State.fill
    rcases mem_shelves_iff.1 hshelf with rfl | rfl | rfl | rfl <;> cases m.content <;> rfl
  again s j m := by
    unfold State.fill
    cases m.content <;> simp only [Slots.store_store]
  comm h := fill_comm h _

/-- Acknowledging and filling a slot may change places. -/
theorem acknowledge_fill (s : State) (j : ℕ) (m : Message Payload) (i : ℕ) :
    (s.acknowledge i).fill j m = (s.fill j m).acknowledge i := by
  unfold State.fill State.acknowledge
  cases m.content with
  | ack =>
      dsimp only
      split
      · rw [Slots.put_store]
      · rfl
  | commit c | share x | reveal o => rfl

theorem reveal_fill (s : State) (j : ℕ) (m : Message Payload) (i : ℕ)
    (kept : Option (ℕ × PartyId × Share)) (opening : Opening) :
    (s.reveal i kept opening).fill j m = (s.fill j m).reveal i kept opening := by
  unfold State.fill State.reveal
  cases m.content with
  | commit c | ack => rfl
  | share x =>
      cases kept with
      | none => rfl
      | some own => simp only [Option.elim_some, Slots.put_store]
  | reveal o =>
      by_cases hown : s.params.newIndex?.isSome = true
      · simp only [if_pos hown, Slots.put_store]
      · simp only [if_neg hown]

theorem acknowledge_strip (s : State) (i : ℕ) :
    (s.acknowledge i).strip = s.strip.acknowledge i := by
  unfold State.strip State.acknowledge
  dsimp only
  split
  · rw [Slots.strip_put]
  · rfl

theorem reveal_strip (s : State) (i : ℕ) (kept : Option (ℕ × PartyId × Share))
    (opening : Opening) : (s.reveal i kept opening).strip = s.strip.reveal i kept opening := by
  unfold State.strip State.reveal
  by_cases hown : s.params.newIndex?.isSome = true
  · cases kept <;> simp only [Option.elim_none, Option.elim_some, if_pos hown, Slots.strip_put]
  · cases kept <;> simp only [Option.elim_none, Option.elim_some, if_neg hown, Slots.strip_put]

theorem strip_fill (s : State) (j : ℕ) (m : Message Payload) :
    (s.fill j m).strip =
      if m.isBroadcast = m.content.byBroadcast then s.strip.fill j m else s.strip := by
  unfold State.fill State.strip
  cases m.content with
  | share x =>
      change _ = if m.isBroadcast = false then _ else _
      simp only [Slots.strip_store]
      split <;> rfl
  | commit c | ack | reveal o =>
      change _ = if m.isBroadcast = true then _ else _
      simp only [Slots.strip_store]
      split <;> rfl

/-! ## The protocol -/

/-- The invariant of a member, with all that the rounds behind it have waited for. -/
def Kept (params : Parameters) (input : Input) (k : ℕ) (s : State) (_ : List (Message Payload))
    (results : List Outcome) : Prop :=
  Invariant params input k s results ∧ Party.Behind (rounds params) (k - 1) s

section Kept

variable {k : ℕ} {sent : List (Message Payload)} {results : List Outcome}

theorem Kept.mono (h : Kept params input k s sent results) (hs : s.Extends t) :
    Kept params input k t sent results :=
  ⟨h.1.mono hs, h.2.mono fun _ hround _ => hasArrived_mono hs hround⟩

theorem arrived_of_dealers {arrived : State → ℕ → Bool}
    (h : ∀ j < (dealers params).length, arrived s j = true) (hnew : params.isNew = true) :
    ∀ j < params.old.size, arrived s j = true := by
  rwa [dealers, if_pos hnew] at h

theorem Kept.hasCommit (h : Kept params input k s sent results) (hk : 1 < k)
    (hnew : params.isNew = true) {j : ℕ} (hj : j < params.old.size) : hasCommit s j = true :=
  arrived_of_dealers (h.2 0 (by omega) (commitRound params) rfl) hnew j hj

theorem Kept.hasAck (h : Kept params input k s sent results) (hk : 2 < k)
    (hold : params.isOld = true) {j : ℕ} (hj : j < params.new.size) : hasAck s j = true := by
  have hall := h.2 1 (by omega) (ackRound params) rfl
  change ∀ j < (holders params).length, Reshare.hasAck s j = true at hall
  rw [holders, if_pos hold] at hall
  exact hall j hj

theorem Kept.hasReveal (h : Kept params input k s sent results) (hk : 3 < k)
    (hnew : params.isNew = true) {j : ℕ} (hj : j < params.old.size) : hasReveal s j = true :=
  arrived_of_dealers (h.2 2 (by omega) (revealRound params) rfl) hnew j hj

end Kept

/-- Entering round 1 loses nothing that has arrived. -/
theorem hasArrived_of_enterCommit {prev : Round State Payload Outcome} {e : Step}
    (he : enterCommit s = .ok e) (hprev : prev ∈ rounds params) {j : ℕ}
    (hj : prev.hasArrived s j = true) : prev.hasArrived e.state j = true := by
  cases hi : s.params.oldIndex? with
  | none =>
      rw [enterCommit_of_notOld hi] at he
      exact Except.ok.inj he ▸ hj
  | some i =>
      obtain ⟨_, _, _, _, _, _, _, -, -, -, -, rfl⟩ := (enterCommit_eq_ok_iff hi).1 he
      rcases mem_rounds_iff.1 hprev with rfl | rfl | rfl | rfl
      · simp only [commitRound, hasCommit]
        split
        · exact Slots.isSome_admitted?_put hj _ _
        · exact hj
      · exact hj
      · exact hj
      · cases hj

theorem hasArrived_acknowledge (i : ℕ) {prev : Round State Payload Outcome}
    (hprev : prev ∈ rounds params) {j : ℕ} (hj : prev.hasArrived s j = true) :
    prev.hasArrived (s.acknowledge i) j = true := by
  rcases mem_rounds_iff.1 hprev with rfl | rfl | rfl | rfl
  · exact hj
  · simp only [ackRound, hasAck, State.acknowledge]
    split
    · exact Slots.isSome_admitted?_put hj _ _
    · exact hj
  · exact hj
  · cases hj

theorem hasArrived_reveal (i : ℕ) (kept : Option (ℕ × PartyId × Share)) (opening : Opening)
    {prev : Round State Payload Outcome} (hprev : prev ∈ rounds params) {j : ℕ}
    (hj : prev.hasArrived s j = true) : prev.hasArrived (s.reveal i kept opening) j = true := by
  rcases mem_rounds_iff.1 hprev with rfl | rfl | rfl | rfl
  · exact hj
  · exact hj
  · obtain ⟨hshare, hopening⟩ := Bool.and_eq_true_iff.1 hj
    apply Bool.and_eq_true_iff.2
    simp only [State.reveal]
    constructor
    · cases kept with
      | none => exact hshare
      | some own => exact Slots.isSome_admitted?_put hshare _ _
    · split
      · exact Slots.isSome_admitted?_put hopening _ _
      · exact hopening
  · cases hj

theorem hasArrived_of_enter {k : ℕ} {round prev : Round State Payload Outcome} {e : Step}
    (hround : (rounds params)[k]? = some round) (he : round.enter s = .ok e)
    (hprev : prev ∈ rounds params) {j : ℕ} (hj : prev.hasArrived s j = true) :
    prev.hasArrived e.state j = true := by
  rcases getElem?_rounds hround with ⟨-, rfl⟩ | ⟨-, rfl⟩ | ⟨-, rfl⟩ | ⟨-, rfl⟩
  · exact hasArrived_of_enterCommit he hprev hj
  · change enterAck s = .ok e at he
    cases hi : s.params.newIndex? with
    | none =>
        rw [enterAck_of_notNew hi] at he
        exact Except.ok.inj he ▸ hj
    | some i =>
        cases hme : s.params.newId with
        | none => rw [Parameters.newIndex?, hme] at hi; cases hi
        | some me =>
            rw [enterAck_eq hi hme] at he
            obtain rfl := Except.ok.inj he
            exact hasArrived_acknowledge i hprev hj
  · change enterReveal s = .ok e at he
    cases hi : s.params.oldIndex? with
    | none =>
        rw [enterReveal_of_notOld hi] at he
        exact Except.ok.inj he ▸ hj
    | some i =>
        obtain ⟨_, _, _, -, -, rfl⟩ := (enterReveal_eq_ok_iff hi).1 he
        exact hasArrived_reveal i _ _ hprev hj
  · have hresult := enterConclude_eq_ok_iff.1 he
    split at hresult
    · obtain ⟨_, -, rfl⟩ := hresult
      exact hj
    · subst hresult
      exact hj

theorem keepsKept (hindex : ∀ j, params.newIndex? = some j → j < params.new.size)
    (input : Input) : Party.Keeps protocol (rounds params) (Kept params input) :=
  (keeps hindex input).withBehind
    fun hround _ he _ hprev _ hj => hasArrived_of_enter hround he hprev hj

/-- Each round of resharing goes together with every change that keeps what it reads. -/
theorem enter_comm {f : State → State} {k : ℕ} {round : Round State Payload Outcome}
    {sent : List (Message Payload)} {results : List Outcome} (hk : 0 < k)
    (hround : (rounds params)[k]? = some round) (hs : Kept params input k s sent results)
    (hbehind : Party.Behind (rounds params) k s) (hext : s.Extends (f s))
    (hack : ∀ i, f (s.acknowledge i) = (f s).acknowledge i)
    (hreveal : ∀ i kept opening, f (s.reveal i kept opening) = (f s).reveal i kept opening) :
    round.enter (f s) = (round.enter s).map fun e => { e with state := f e.state } := by
  have hparams := hs.1.prepared.params_eq
  rcases getElem?_rounds hround with ⟨rfl, -⟩ | ⟨-, rfl⟩ | ⟨-, rfl⟩ | ⟨rfl, rfl⟩
  · exact absurd hk (lt_irrefl 0)
  · exact enterAck_comm hext hack
  · exact enterReveal_comm hext hreveal
  · apply enterConclude_comm hext <;> rw [hparams] <;> intro hnew
    · exact arrived_of_dealers (hbehind 0 (by decide) (commitRound params) rfl) hnew
    · exact arrived_of_dealers (hbehind 2 (by decide) (revealRound params) rfl) hnew

theorem takeUp_acknowledge (s : State) (m : Message Payload) (i : ℕ) :
    protocol.takeUp (s.acknowledge i) m = (protocol.takeUp s m).acknowledge i := by
  rw [takeUp_eq, takeUp_eq]
  change Option.elim (place? s.params m) _ _ = _
  cases place? s.params m with
  | none => rfl
  | some j => exact acknowledge_fill s j m i

theorem takeUp_reveal (s : State) (m : Message Payload) (i : ℕ)
    (kept : Option (ℕ × PartyId × Share)) (opening : Opening) :
    protocol.takeUp (s.reveal i kept opening) m =
      (protocol.takeUp s m).reveal i kept opening := by
  rw [takeUp_eq, takeUp_eq]
  change Option.elim (place? s.params m) _ _ = _
  cases place? s.params m with
  | none => rfl
  | some j => exact reveal_fill s j m i kept opening

/-- A message of a round that is over is not needed any more. -/
theorem Kept.fill_eq {k : ℕ} {sent : List (Message Payload)} {results : List Outcome}
    (h : Kept params input k s sent results) (hm : m.round < k) {j : ℕ}
    (hj : place? params m = some j) : s.fill j m = s := by
  obtain ⟨hfor, hseat⟩ := place?_eq_some_iff.1 hj
  obtain ⟨-, hlt, -⟩ := Committee.seat?_eq_some_iff.1 hseat
  unfold Message.round at hm
  unfold State.fill
  cases hcontent : m.content with
  | commit c =>
      rw [hcontent] at hm hfor hlt
      have hcommit : Reshare.hasCommit s j = true := h.hasCommit hm hfor hlt
      simp only [Slots.store_of_admitted? hcommit]
  | ack =>
      rw [hcontent] at hm hfor hlt
      have hack : Reshare.hasAck s j = true := h.hasAck hm hfor hlt
      simp only [Slots.store_of_admitted? hack]
  | share x =>
      rw [hcontent] at hm hfor hlt
      obtain ⟨hshare, -⟩ := Bool.and_eq_true_iff.1 (h.hasReveal hm hfor hlt)
      simp only [Slots.store_of_admitted? hshare]
  | reveal o =>
      rw [hcontent] at hm hfor hlt
      obtain ⟨-, hreveal⟩ := Bool.and_eq_true_iff.1 (h.hasReveal hm hfor hlt)
      simp only [Slots.store_of_admitted? hreveal]

theorem number_eq {l : ℕ} {round : Round State Payload Outcome}
    (hround : (rounds params)[l]? = some round) : round.number = l + 1 := by
  rcases getElem?_rounds hround with ⟨rfl, rfl⟩ | ⟨rfl, rfl⟩ | ⟨rfl, rfl⟩ | ⟨rfl, rfl⟩ <;> rfl

theorem takeUp_of_past {l : ℕ} {round : Round State Payload Outcome}
    {sent : List (Message Payload)} {results : List Outcome}
    (hround : (rounds params)[l]? = some round)
    (hs : Kept params input (l + 1) s sent results) (hm : m.round < round.number) :
    protocol.takeUp s m = s := by
  rw [takeUp_eq, hs.1.prepared.params_eq]
  cases hplace : place? params m with
  | none => rfl
  | some j => exact hs.fill_eq (number_eq hround ▸ hm) hplace

/-- Messages matter to their own rounds only. -/
theorem staged (hindex : ∀ j, params.newIndex? = some j → j < params.new.size) (input : Input) :
    Party.Staged protocol (rounds params) (Kept params input) where
  keeps := keepsKept hindex input
  inspect hround := by
    rcases mem_rounds_iff.1 hround with rfl | rfl | rfl | rfl <;> rfl
  behind h := h.2
  enter_takeUp m hk hround hs hbehind :=
    enter_comm (f := (protocol.takeUp · m)) hk hround hs hbehind (extends_takeUp _ m)
      (takeUp_acknowledge _ m) (takeUp_reveal _ m)
  past := takeUp_of_past
  arrived_other {s round m} j hround hm := by
    rw [takeUp_eq]
    cases place? s.params m with
    | none => rfl
    | some i =>
        rcases mem_rounds_iff.1 hround with rfl | rfl | rfl | rfl
        · exact hasCommit_fill hm s i j
        · exact hasAck_fill hm s i j
        · exact hasReveal_fill hm s i j
        · rfl
  comm {m m'} s hm := stores.comm fills (intake.slot?_of_kind_ne (mt round_eq_of_kind_eq hm))

/-- The sender sits where it claims to in the committee that the content speaks for. -/
def Seated (params : Parameters) (m : Message Payload) : Prop :=
  ((m.content.senders params).seat? m.sender).isSome = true

theorem storable_of_seated (h : Seated params m) :
    Party.Storable protocol (Kept params input) m := by
  intro k s sent results _ hs
  obtain rfl := hs.1.prepared.params_eq
  cases hfor : m.content.isFor s.params with
  | false => exact ⟨s, store_of_isFor_eq_false hfor⟩
  | true =>
      obtain ⟨j, hj⟩ := Option.isSome_iff_exists.1 h
      exact ⟨_, store_of_place? (place?_eq_some_iff.2 ⟨hfor, hj⟩)⟩

theorem settled_of_start (hindex : ∀ j, params.newIndex? = some j → j < params.new.size)
    {source : Source} {p : Party State Payload Outcome}
    (hp : newParty params input source = .ok p) (hstart : p.start.1 = .ok ()) :
    Party.Settled protocol (rounds params) (Kept params input) p.start.2 :=
  Party.settled_of_start (keepsKept hindex input) (follows_newParty hp).withBehind
    (Prod.ext hstart rfl)

/-! ## Misrouted and reordered messages -/

def WellRouted (m : Message Payload) : Prop := m.isBroadcast = m.content.byBroadcast

/-- Two messages of one kind and one sender that both count say the same. -/
def Concur (params : Parameters) (m m' : Message Payload) : Prop :=
  Seated params m → Seated params m' → WellRouted m → WellRouted m' →
    m.sender.index = m'.sender.index → m.kind = m'.kind → m.content = m'.content

theorem strip_takeUp (h : s.strip = t.strip) (m : Message Payload) :
    (protocol.takeUp s m).strip = (protocol.takeUp t m).strip := by
  have hparams : t.params = s.params := (extends_of_strip h).params
  rw [takeUp_eq, takeUp_eq, hparams]
  cases place? s.params m with
  | none => exact h
  | some j =>
      change (s.fill j m).strip = (t.fill j m).strip
      rw [strip_fill, strip_fill, h]

theorem strip_fill_comm {i j : ℕ} (h : i = j → WellRouted m → WellRouted m' → m.kind = m'.kind →
    m.content = m'.content) (s : State) :
    ((s.fill i m).fill j m').strip = ((s.fill j m').fill i m).strip := by
  obtain ⟨sender, recipients, isBroadcast, scope, content⟩ := m
  obtain ⟨sender', recipients', isBroadcast', scope', content'⟩ := m'
  cases content with
  | commit c =>
      cases content' with
      | commit c' =>
          simp only [State.fill, State.strip]
          rw [Slots.strip_store_comm]
          intro hij hm hm'
          exact Payload.commit.inj (h hij hm hm' rfl)
      | ack | share x' | reveal o' => rfl
  | ack =>
      cases content' with
      | ack =>
          simp only [State.fill, State.strip]
          rw [Slots.strip_store_comm]
          exact fun _ _ _ => rfl
      | commit c' | share x' | reveal o' => rfl
  | share x =>
      cases content' with
      | share x' =>
          simp only [State.fill, State.strip]
          rw [Slots.strip_store_comm]
          intro hij hm hm'
          exact Payload.share.inj (h hij hm hm' rfl)
      | commit c' | ack | reveal o' => rfl
  | reveal o =>
      cases content' with
      | reveal o' =>
          simp only [State.fill, State.strip]
          rw [Slots.strip_store_comm]
          intro hij hm hm'
          exact Payload.reveal.inj (h hij hm hm' rfl)
      | commit c' | ack | share x' => rfl

/-- Messages that concur may change places. -/
theorem strip_takeUp_comm (h : Concur params m m') (hs : s.params = params) :
    (protocol.takeUp (protocol.takeUp s m) m').strip =
      (protocol.takeUp (protocol.takeUp s m') m).strip := by
  subst hs
  simp only [takeUp_eq]
  cases hplace : place? s.params m with
  | none => cases hplace' : place? s.params m' <;> simp [params_fill, hplace, hplace']
  | some i =>
      cases hplace' : place? s.params m' with
      | none => simp [params_fill, hplace, hplace']
      | some j =>
          simp only [Option.elim_some, params_fill, hplace, hplace']
          apply strip_fill_comm
          intro hij hm hm' hkind
          obtain ⟨-, hseat⟩ := place?_eq_some_iff.1 hplace
          obtain ⟨-, hseat'⟩ := place?_eq_some_iff.1 hplace'
          obtain ⟨hi, -⟩ := Committee.seat?_eq_some_iff.1 hseat
          obtain ⟨hj, -⟩ := Committee.seat?_eq_some_iff.1 hseat'
          exact h (Option.isSome_of_mem hseat) (Option.isSome_of_mem hseat') hm hm'
            (by rw [hi, hj, hij]) hkind

theorem overlooks (params : Parameters) (input : Input) :
    Party.Overlooks protocol (rounds params) (Kept params input)
      fun s t => s.strip = t.strip := by
  apply Party.overlooks_of_strip State.strip
  · intro round hround s j
    rcases mem_rounds_iff.1 hround with rfl | rfl | rfl | rfl
    · simp only [commitRound, hasCommit, State.strip, Slots.admitted?_strip]
    · simp only [ackRound, hasAck, State.strip, Slots.admitted?_strip]
    · simp only [revealRound, hasReveal, State.strip, Slots.admitted?_strip]
    · rfl
  · exact fun m h => strip_takeUp h m
  · exact fun h hs => hs.mono (extends_of_strip h)
  · intro k s sent results round hk hround hs hbehind
    exact enter_comm hk hround hs hbehind (extends_strip s) (acknowledge_strip s) (reveal_strip s)

/-! ## Whole runs -/

section Runs

variable {source : Source} {p : Party State Payload Outcome}
  (hindex : ∀ j, params.newIndex? = some j → j < params.new.size)
  (hp : newParty params input source = .ok p) (hstart : p.start.1 = .ok ())

include hindex hp hstart

theorem views_start {messages : List (Message Payload)}
    (h : ∀ m ∈ messages, p.start.2.validate m = .ok () ∧ Seated params m) :
    (OrderedParty.start ⟨p, []⟩).2.views messages = p.start.2.views messages :=
  (settled_of_start hindex hp hstart).mirrors.views_eq (staged hindex input) fun m hm =>
    ⟨(h m hm).1, storable_of_seated (h m hm).2⟩

/-- Messages that concur take a member to the same end in every order. -/
theorem alike_of_perm {messages messages' : List (Message Payload)}
    (hperm : messages.Perm messages')
    (h : ∀ m ∈ messages, ∀ m' ∈ messages, p.start.2.validate m = .ok () →
      p.start.2.validate m' = .ok () → Concur params m m') :
    (p.start.2.run (messages.map .update)).Alike (p.start.2.run (messages'.map .update)) ∧
      p.start.2.failure? messages' = p.start.2.failure? messages := by
  refine (settled_of_start hindex hp hstart).run_perm (overlooks params input)
    (staged hindex input).toPatient hperm ?_
  intro m hm m' hm' hvalid hvalid' k s sent results _ hs
  exact strip_takeUp_comm (h m hm m' hm' hvalid hvalid') hs.1.prepared.params_eq

end Runs

end ThresholdKeys.Reshare
