import Mathlib
import ThresholdKeys.Proofs.Engine.Intake
import ThresholdKeys.Proofs.Engine.Reorder
import ThresholdKeys.Proofs.Engine.Replay
import ThresholdKeys.Proofs.Keygen.Invariant
import ThresholdKeys.Proofs.Party.Committee

/-!
# Key generation in any order of messages

What a participant does when it enters a round depends on what has come the right way for the
rounds before, and on nothing else in its slots. So messages may come earlier or later, and what
came the wrong way may as well not have come.
-/

namespace ThresholdKeys.Keygen

variable {params : Parameters} {s t : State} {m m' : Message Payload}

/-! ## Filling slots -/

def State.fill (s : State) (j : ℕ) (m : Message Payload) : State :=
  match m.content with
  | .commit c => { s with commits := s.commits.store true j ⟨c, m.isBroadcast⟩ }
  | .share x => { s with shares := s.shares.store false j ⟨x, m.isBroadcast⟩ }
  | .reveal o p => { s with reveals := s.reveals.store true j ⟨(o, p), m.isBroadcast⟩ }

/-- The state without what came the wrong way. -/
def State.strip (s : State) : State :=
  { s with
    commits := s.commits.strip true
    shares := s.shares.strip false
    reveals := s.reveals.strip true }

def State.reveal (s : State) (source : Source) (session : Session) (own : Share)
    (revealed : Opening × Schnorr.Proof) : State :=
  { s with
    source
    session := some session
    shares := s.shares.put s.params.index ⟨own, false⟩
    reveals := s.reveals.put s.params.index ⟨revealed, true⟩ }

theorem store_of_seat? {j : ℕ} (h : s.params.parties.seat? m.sender = some j) :
    protocol.store s m = .ok (s.fill j m) := by
  change s.store m = _
  unfold State.store State.fill
  rw [h]
  cases m.content <;> rfl

theorem store_of_seat?_eq_none (hseat : s.params.parties.seat? m.sender = none) :
    protocol.store s m = .error (.fault ⟨task, m.round, [m.sender], .senderNotParticipant⟩) := by
  change s.store m = _
  rw [State.store, hseat]

def commitShelf : Shelf State Payload where
  Item := Commitment
  kind := "KeygenRound1Commit"
  byBroadcast := true
  slots := State.commits
  item?
    | .commit c => some c
    | _ => none

def shareShelf : Shelf State Payload where
  Item := Share
  kind := "KeygenRound2Share"
  byBroadcast := false
  slots := State.shares
  item?
    | .share x => some x
    | _ => none

def revealShelf : Shelf State Payload where
  Item := Opening × Schnorr.Proof
  kind := "KeygenRound2Decommit"
  byBroadcast := true
  slots := State.reveals
  item?
    | .reveal o p => some (o, p)
    | _ => none

def intake : Intake State Payload where
  shelves := [commitShelf, shareShelf, revealShelf]
  byBroadcast := Payload.byBroadcast
  consumes _ _ := true
  senders s _ := s.params.parties
  charge := .senderNotParticipant

theorem mem_shelves_iff {shelf : Shelf State Payload} : shelf ∈ intake.shelves ↔
    shelf = commitShelf ∨ shelf = shareShelf ∨ shelf = revealShelf := by
  simp [intake]

theorem stores : intake.Stores protocol State.fill where
  filled hplace := store_of_seat? hplace
  dropped h := by cases h
  refused _ hseat := store_of_seat?_eq_none hseat

theorem eq_of_store_error {e : Error} (h : protocol.store s m = .error e) :
    s.params.parties.seat? m.sender = none ∧
      e = .fault ⟨task, m.round, [m.sender], .senderNotParticipant⟩ :=
  ⟨(stores.eq_of_error h).1.2, (stores.eq_of_error h).2⟩

theorem takeUp_eq (s : State) (m : Message Payload) :
    protocol.takeUp s m = (s.params.parties.seat? m.sender).elim s fun j => s.fill j m :=
  stores.takeUp_eq s m

theorem params_fill (s : State) (j : ℕ) (m : Message Payload) : (s.fill j m).params = s.params := by
  unfold State.fill
  split <;> rfl

theorem source_takeUp (s : State) (m : Message Payload) :
    (protocol.takeUp s m).source = s.source := by
  rw [takeUp_eq]
  cases s.params.parties.seat? m.sender with
  | none => rfl
  | some j =>
      change (s.fill j m).source = _
      unfold State.fill
      split <;> rfl

theorem extends_takeUp (s : State) (m : Message Payload) : s.Extends (protocol.takeUp s m) := by
  rcases protocol.takeUp_cases s m with heq | hstore
  · rw [heq]
    exact .refl s
  · exact State.extends_of_store hstore

theorem extends_strip (s : State) : s.Extends s.strip :=
  ⟨rfl, rfl, rfl, rfl, Slots.length_strip .., Slots.length_strip .., Slots.length_strip ..,
    fun h => (Slots.admitted?_strip ..).trans h, fun h => (Slots.admitted?_strip ..).trans h,
    fun h => (Slots.admitted?_strip ..).trans h⟩

theorem extends_of_strip (h : s.strip = t.strip) : s.Extends t := by
  simp only [State.strip, State.mk.injEq] at h
  obtain ⟨hparams, hpoints, -, hdealt, hsession, hcommits, hshares, hreveals⟩ := h
  exact
    { params := hparams.symm
      points := hpoints.symm
      dealt := hdealt.symm
      session := hsession.symm
      length_commits := by simpa using congrArg List.length hcommits.symm
      length_shares := by simpa using congrArg List.length hshares.symm
      length_reveals := by simpa using congrArg List.length hreveals.symm
      commits := fun hj => by rwa [← Slots.admitted?_strip, ← hcommits, Slots.admitted?_strip]
      shares := fun hj => by rwa [← Slots.admitted?_strip, ← hshares, Slots.admitted?_strip]
      reveals := fun hj => by rwa [← Slots.admitted?_strip, ← hreveals, Slots.admitted?_strip] }

/-! ## Entering rounds -/

theorem sessionOf_of_extends (h : s.Extends t)
    (hcommit : ∀ j < s.commits.length, hasCommit s j = true) : sessionOf t = sessionOf s := by
  unfold sessionOf
  rw [h.length_commits, h.params]
  refine congrArg (· >>= _) (Result.mapM_congr fun j hj => ?_)
  rw [Slots.item?_eq_of_admitted? h.commits (hcommit j (List.mem_range.1 hj))]

theorem enterReveal_comm {f : State → State} (hext : s.Extends (f s))
    (hsource : (f s).source = s.source) (hcommit : ∀ j < s.commits.length, hasCommit s j = true)
    (hreveal : ∀ source session own revealed,
      f (s.reveal source session own revealed) = (f s).reveal source session own revealed) :
    enterReveal (f s) = (enterReveal s).map fun e => { e with state := f e.state } := by
  have hsession := sessionOf_of_extends hext hcommit
  have hmessages (d : Dealing) : shareMessages (f s) d = shareMessages s d := by
    simp only [shareMessages, hext.params]
  unfold enterReveal
  simp only [hsession, hext.params, hext.dealt, hsource, hmessages]
  cases sessionOf s with
  | error e => rfl
  | ok session =>
      cases hd : s.dealt with
      | none => rfl
      | some d =>
          simp only [Result.ok_bind]
          cases d.dealing.commitments.head? with
          | none => rfl
          | some point =>
              cases d.dealing.shares[s.params.index]? with
              | none => rfl
              | some own =>
                  dsimp only
                  cases Schnorr.prove ⟨s.params.curve, point, s.params.version⟩ d.secret
                      (session.transcriptFor s.params.index) s.source with
                  | error e => rfl
                  | ok proved =>
                      cases shareMessages s d.dealing with
                      | error e => rfl
                      | ok messages =>
                          have hstate := hreveal proved.2 session own (d.opening, proved.1)
                          simp only [State.reveal, hext.params, hext.dealt, hd] at hstate
                          simp only [Result.ok_bind, Result.pure_eq_ok, Except.map, hstate]

theorem contribution_of_extends (h : s.Extends t) {j : ℕ} (hcommit : hasCommit s j = true)
    (hreveal : hasReveal s j = true) : contribution t j = contribution s j := by
  obtain ⟨hshare, hopening⟩ := Bool.and_eq_true_iff.1 hreveal
  unfold contribution
  rw [Slots.item?_eq_of_admitted? h.commits hcommit, Slots.item?_eq_of_admitted? h.shares hshare,
    Slots.item?_eq_of_admitted? h.reveals hopening]

theorem enterVerify_comm {f : State → State} (hext : s.Extends (f s))
    (hcommit : ∀ j < s.params.parties.size, hasCommit s j = true)
    (hreveal : ∀ j < s.params.parties.size, hasReveal s j = true) :
    enterVerify (f s) = (enterVerify s).map fun e => { e with state := f e.state } := by
  have hcontributions : (List.range s.params.parties.size).mapM (contribution (f s)) =
      (List.range s.params.parties.size).mapM (contribution s) :=
    Result.mapM_congr fun j hj => contribution_of_extends hext (hcommit j (List.mem_range.1 hj))
      (hreveal j (List.mem_range.1 hj))
  have hassemble (cs : List Contribution) (dealt : List (List Point)) :
      assemble (f s) cs dealt = assemble s cs dealt := by
    simp only [assemble, hext.params, hext.points]
  unfold enterVerify
  simp only [hext.session, hext.dealt, hext.points, hext.params, hcontributions, hassemble]
  cases s.session with
  | none => rfl
  | some session =>
      cases s.dealt with
      | none => rfl
      | some d =>
          cases s.points[s.params.index]? with
          | none => rfl
          | some own =>
              dsimp only
              cases (List.range s.params.parties.size).mapM (contribution s) with
              | error e => rfl
              | ok cs =>
                  simp only [Result.ok_bind]
                  split
                  · rfl
                  · cases assemble s cs _ with
                    | error e => rfl
                    | ok share => rfl

/-! ## Early, late and repeated messages -/

theorem hasCommit_fill (hm : m.round ≠ 1) (s : State) (i j : ℕ) :
    hasCommit (s.fill i m) j = hasCommit s j := by
  unfold State.fill
  cases hcontent : m.content with
  | commit c => exact absurd (by rw [Message.round, hcontent]; rfl) hm
  | share x | reveal o p => rfl

theorem hasReveal_fill (hm : m.round ≠ 2) (s : State) (i j : ℕ) :
    hasReveal (s.fill i m) j = hasReveal s j := by
  unfold State.fill
  cases hcontent : m.content with
  | commit c => rfl
  | share x | reveal o p => exact absurd (by rw [Message.round, hcontent]; rfl) hm

theorem round_eq_of_kind_eq (h : m.kind = m'.kind) : m.round = m'.round := by
  unfold Message.kind at h
  unfold Message.round
  cases hcontent : m.content <;> cases hcontent' : m'.content <;> rw [hcontent, hcontent'] at h <;>
    first
      | rfl
      | simp [Content.kind, Payload.kind] at h

theorem fill_comm {i j : ℕ} (h : m.kind = m'.kind → i ≠ j) (s : State) :
    (s.fill i m).fill j m' = (s.fill j m').fill i m := by
  unfold State.fill
  unfold Message.kind at h
  cases hcontent : m.content <;> cases hcontent' : m'.content <;> rw [hcontent, hcontent'] at h <;>
    first
      | rfl
      | simp only [Slots.store_comm (h rfl)]

theorem fills : intake.Fills State.fill where
  place? s j m := by
    funext m'
    change (s.fill j m).params.parties.seat? m'.sender = s.params.parties.seat? m'.sender
    rw [params_fill]
  slots shelf hshelf s j m := by
    unfold State.fill
    rcases mem_shelves_iff.1 hshelf with rfl | rfl | rfl <;> cases m.content <;> rfl
  again s j m := by
    unfold State.fill
    cases m.content <;> simp only [Slots.store_store]
  comm h := fill_comm h _

theorem reveal_fill (s : State) (j : ℕ) (m : Message Payload) (source : Source)
    (session : Session) (own : Share) (revealed : Opening × Schnorr.Proof) :
    (s.reveal source session own revealed).fill j m =
      (s.fill j m).reveal source session own revealed := by
  unfold State.fill State.reveal
  cases m.content with
  | commit c => rfl
  | share x => simp only [Slots.put_store]
  | reveal o p => simp only [Slots.put_store]

theorem reveal_strip (s : State) (source : Source) (session : Session) (own : Share)
    (revealed : Opening × Schnorr.Proof) :
    (s.reveal source session own revealed).strip =
      s.strip.reveal source session own revealed := by
  unfold State.strip State.reveal
  simp only [Slots.strip_put]

theorem strip_fill (s : State) (j : ℕ) (m : Message Payload) :
    (s.fill j m).strip =
      if m.isBroadcast = m.content.byBroadcast then s.strip.fill j m else s.strip := by
  unfold State.fill State.strip
  cases m.content with
  | commit c =>
      change _ = if m.isBroadcast = true then _ else _
      simp only [Slots.strip_store]
      split <;> rfl
  | share x =>
      change _ = if m.isBroadcast = false then _ else _
      simp only [Slots.strip_store]
      split <;> rfl
  | reveal o p =>
      change _ = if m.isBroadcast = true then _ else _
      simp only [Slots.strip_store]
      split <;> rfl

/-! ## The protocol -/

/-- The invariant of a participant, with all that the rounds behind it have waited for. -/
def Kept (params : Parameters) (k : ℕ) (s : State) (_ : List (Message Payload))
    (results : List KeyShare) : Prop :=
  Invariant params k s results ∧ Party.Behind (rounds params) (k - 1) s

theorem hasArrived_of_enter {k : ℕ} {round prev : Round State Payload KeyShare} {e : Step}
    (hround : (rounds params)[k]? = some round) (he : round.enter s = .ok e)
    (hprev : prev ∈ rounds params) {j : ℕ} (hj : prev.hasArrived s j = true) :
    prev.hasArrived e.state j = true := by
  rcases getElem?_rounds hround with ⟨-, rfl⟩ | ⟨-, rfl⟩ | ⟨-, rfl⟩
  · obtain ⟨_, _, _, _, _, -, -, rfl⟩ := enterCommit_eq_ok_iff.1 he
    rcases mem_rounds_iff.1 hprev with rfl | rfl | rfl
    · exact Slots.isSome_admitted?_put hj _ _
    · exact hj
    · cases hj
  · obtain ⟨_, _, _, _, _, _, _, -, -, -, -, -, -, rfl⟩ := enterReveal_eq_ok_iff.1 he
    rcases mem_rounds_iff.1 hprev with rfl | rfl | rfl
    · exact hj
    · obtain ⟨hshare, hopening⟩ := Bool.and_eq_true_iff.1 hj
      exact Bool.and_eq_true_iff.2
        ⟨Slots.isSome_admitted?_put hshare _ _, Slots.isSome_admitted?_put hopening _ _⟩
    · cases hj
  · obtain ⟨_, _, _, _, _, _, -, -, -, -, -, -, -, rfl⟩ := enterVerify_eq_ok_iff.1 he
    exact hj

theorem Kept.mono {k : ℕ} {sent : List (Message Payload)} {results : List KeyShare}
    (h : Kept params k s sent results) (hs : s.Extends t) : Kept params k t sent results :=
  ⟨h.1.mono hs, h.2.mono fun _ hround _ => hasArrived_mono hs hround⟩

theorem Kept.hasCommit {k : ℕ} {sent : List (Message Payload)} {results : List KeyShare}
    (h : Kept params k s sent results) (hk : 1 < k) {j : ℕ} (hj : j < params.parties.size) :
    hasCommit s j = true :=
  h.2 0 (by omega) (commitRound params) rfl j hj

theorem Kept.hasReveal {k : ℕ} {sent : List (Message Payload)} {results : List KeyShare}
    (h : Kept params k s sent results) (hk : 2 < k) {j : ℕ} (hj : j < params.parties.size) :
    hasReveal s j = true :=
  h.2 1 (by omega) (revealRound params) rfl j hj

theorem keepsKept (params : Parameters) :
    Party.Keeps protocol (rounds params) (Kept params) :=
  (keeps params).withBehind fun hround _ he _ hprev _ hj => hasArrived_of_enter hround he hprev hj

/-- Each round of key generation goes together with every change that keeps what it reads. -/
theorem enter_comm {f : State → State} {k : ℕ} {round : Round State Payload KeyShare}
    {sent : List (Message Payload)} {results : List KeyShare} (hk : 0 < k)
    (hround : (rounds params)[k]? = some round) (hs : Kept params k s sent results)
    (hbehind : Party.Behind (rounds params) k s) (hext : s.Extends (f s))
    (hsource : (f s).source = s.source)
    (hreveal : ∀ source session own revealed,
      f (s.reveal source session own revealed) = (f s).reveal source session own revealed) :
    round.enter (f s) = (round.enter s).map fun e => { e with state := f e.state } := by
  have hparams := hs.1.prepared.params_eq
  have hcommits : ∀ j < params.parties.size, hasCommit s j = true :=
    hbehind 0 hk (commitRound params) rfl
  rcases getElem?_rounds hround with ⟨rfl, -⟩ | ⟨-, rfl⟩ | ⟨rfl, rfl⟩
  · exact absurd hk (lt_irrefl 0)
  · exact enterReveal_comm hext hsource (by rwa [hs.1.prepared.length_commits]) hreveal
  · have hreveals : ∀ j < params.parties.size, hasReveal s j = true :=
      hbehind 1 one_lt_two (revealRound params) rfl
    exact enterVerify_comm hext (by rwa [hparams]) (by rwa [hparams])

theorem takeUp_reveal (s : State) (m : Message Payload) (source : Source) (session : Session)
    (own : Share) (revealed : Opening × Schnorr.Proof) :
    protocol.takeUp (s.reveal source session own revealed) m =
      (protocol.takeUp s m).reveal source session own revealed := by
  rw [takeUp_eq, takeUp_eq]
  change Option.elim (s.params.parties.seat? m.sender) _ _ = _
  cases s.params.parties.seat? m.sender with
  | none => rfl
  | some j => exact reveal_fill s j m source session own revealed

/-- A message of a round that is over is not needed any more. -/
theorem Kept.fill_eq {k : ℕ} {sent : List (Message Payload)} {results : List KeyShare}
    (h : Kept params k s sent results) (hm : m.round < k) {j : ℕ} (hj : j < params.parties.size) :
    s.fill j m = s := by
  unfold Message.round at hm
  unfold State.fill
  cases hcontent : m.content with
  | commit c =>
      rw [hcontent] at hm
      have hcommit : Keygen.hasCommit s j = true := h.hasCommit hm hj
      simp only [Slots.store_of_admitted? hcommit]
  | share x =>
      rw [hcontent] at hm
      obtain ⟨hshare, -⟩ := Bool.and_eq_true_iff.1 (h.hasReveal hm hj)
      simp only [Slots.store_of_admitted? hshare]
  | reveal o p =>
      rw [hcontent] at hm
      obtain ⟨-, hreveal⟩ := Bool.and_eq_true_iff.1 (h.hasReveal hm hj)
      simp only [Slots.store_of_admitted? hreveal]

theorem number_eq {l : ℕ} {round : Round State Payload KeyShare}
    (hround : (rounds params)[l]? = some round) : round.number = l + 1 := by
  rcases getElem?_rounds hround with ⟨rfl, rfl⟩ | ⟨rfl, rfl⟩ | ⟨rfl, rfl⟩ <;> rfl

theorem takeUp_of_past {l : ℕ} {round : Round State Payload KeyShare}
    {sent : List (Message Payload)} {results : List KeyShare}
    (hround : (rounds params)[l]? = some round) (hs : Kept params (l + 1) s sent results)
    (hm : m.round < round.number) : protocol.takeUp s m = s := by
  rw [takeUp_eq, hs.1.prepared.params_eq]
  cases hseat : params.parties.seat? m.sender with
  | none => rfl
  | some j => exact hs.fill_eq (number_eq hround ▸ hm) (Committee.seat?_eq_some_iff.1 hseat).2.1

/-- Messages matter to their own rounds only. -/
theorem staged (params : Parameters) : Party.Staged protocol (rounds params) (Kept params) where
  keeps := keepsKept params
  inspect hround := by
    rcases mem_rounds_iff.1 hround with rfl | rfl | rfl <;> rfl
  behind h := h.2
  enter_takeUp m hk hround hs hbehind :=
    enter_comm (f := (protocol.takeUp · m)) hk hround hs hbehind (extends_takeUp _ m)
      (source_takeUp _ m) (takeUp_reveal _ m)
  past := takeUp_of_past
  arrived_other {s round m} j hround hm := by
    rw [takeUp_eq]
    cases s.params.parties.seat? m.sender with
    | none => rfl
    | some i =>
        rcases mem_rounds_iff.1 hround with rfl | rfl | rfl
        · exact hasCommit_fill hm s i j
        · exact hasReveal_fill hm s i j
        · rfl
  comm {m m'} s hm := stores.comm fills (intake.slot?_of_kind_ne (mt round_eq_of_kind_eq hm))

/-- The sender is a participant and sits where it claims to. -/
def Seated (params : Parameters) (m : Message Payload) : Prop :=
  (params.parties.seat? m.sender).isSome = true

theorem storable_of_seated (h : Seated params m) : Party.Storable protocol (Kept params) m := by
  intro k s sent results _ hs
  obtain ⟨j, hj⟩ := Option.isSome_iff_exists.1 h
  exact ⟨_, store_of_seat? (hs.1.prepared.params_eq ▸ hj)⟩

theorem settled_of_start {source : Source} {p : Party State Payload KeyShare}
    (hp : newParty params source = .ok p) (hstart : p.start.1 = .ok ()) :
    Party.Settled protocol (rounds params) (Kept params) p.start.2 :=
  Party.settled_of_start (keepsKept params) (follows_newParty hp).withBehind (Prod.ext hstart rfl)

/-! ## Misrouted and reordered messages -/

def WellRouted (m : Message Payload) : Prop := m.isBroadcast = m.content.byBroadcast

/-- Two messages of one kind and one sender that both count say the same. -/
def Concur (params : Parameters) (m m' : Message Payload) : Prop :=
  Seated params m → Seated params m' → WellRouted m → WellRouted m' →
    m.sender.index = m'.sender.index → m.kind = m'.kind → m.content = m'.content

theorem strip_takeUp (h : s.strip = t.strip) (m : Message Payload) :
    (protocol.takeUp s m).strip = (protocol.takeUp t m).strip := by
  have hparams : t.params = s.params := (extends_of_strip h).params
  rw [takeUp_eq, takeUp_eq, hparams]
  cases s.params.parties.seat? m.sender with
  | none => exact h
  | some j =>
      change (s.fill j m).strip = (t.fill j m).strip
      rw [strip_fill, strip_fill, h]

theorem strip_fill_comm {i j : ℕ} (h : i = j → WellRouted m → WellRouted m' → m.kind = m'.kind →
    m.content = m'.content) (s : State) :
    ((s.fill i m).fill j m').strip = ((s.fill j m').fill i m).strip := by
  obtain ⟨sender, recipients, isBroadcast, scope, content⟩ := m
  obtain ⟨sender', recipients', isBroadcast', scope', content'⟩ := m'
  cases content with
  | commit c =>
      cases content' with
      | commit c' =>
          simp only [State.fill, State.strip]
          rw [Slots.strip_store_comm]
          intro hij hm hm'
          exact Payload.commit.inj (h hij hm hm' rfl)
      | share x' | reveal o' p' => rfl
  | share x =>
      cases content' with
      | share x' =>
          simp only [State.fill, State.strip]
          rw [Slots.strip_store_comm]
          intro hij hm hm'
          exact Payload.share.inj (h hij hm hm' rfl)
      | commit c' | reveal o' p' => rfl
  | reveal o p =>
      cases content' with
      | reveal o' p' =>
          simp only [State.fill, State.strip]
          rw [Slots.strip_store_comm]
          intro hij hm hm'
          exact Prod.ext_iff.2 (Payload.reveal.inj (h hij hm hm' rfl))
      | commit c' | share x' => rfl

/-- Messages that concur may change places. -/
theorem strip_takeUp_comm (h : Concur params m m') (hs : s.params = params) :
    (protocol.takeUp (protocol.takeUp s m) m').strip =
      (protocol.takeUp (protocol.takeUp s m') m).strip := by
  subst hs
  simp only [takeUp_eq]
  cases hseat : s.params.parties.seat? m.sender with
  | none =>
      cases hseat' : s.params.parties.seat? m'.sender <;> simp [params_fill, hseat, hseat']
  | some i =>
      cases hseat' : s.params.parties.seat? m'.sender with
      | none => simp [params_fill, hseat, hseat']
      | some j =>
          simp only [Option.elim_some, params_fill, hseat, hseat']
          apply strip_fill_comm
          intro hij hm hm' hkind
          obtain ⟨hi, -⟩ := Committee.seat?_eq_some_iff.1 hseat
          obtain ⟨hj, -⟩ := Committee.seat?_eq_some_iff.1 hseat'
          exact h (Option.isSome_of_mem hseat) (Option.isSome_of_mem hseat') hm hm'
            (by rw [hi, hj, hij]) hkind

theorem overlooks (params : Parameters) :
    Party.Overlooks protocol (rounds params) (Kept params) fun s t => s.strip = t.strip := by
  apply Party.overlooks_of_strip State.strip
  · intro round hround s j
    rcases mem_rounds_iff.1 hround with rfl | rfl | rfl
    · simp only [commitRound, hasCommit, State.strip, Slots.admitted?_strip]
    · simp only [revealRound, hasReveal, State.strip, Slots.admitted?_strip]
    · rfl
  · exact fun m h => strip_takeUp h m
  · exact fun h hs => hs.mono (extends_of_strip h)
  · intro k s sent results round hk hround hs hbehind
    exact enter_comm hk hround hs hbehind (extends_strip s) rfl (reveal_strip s)

/-! ## Whole runs -/

section Runs

variable {source : Source} {p : Party State Payload KeyShare}
  (hp : newParty params source = .ok p) (hstart : p.start.1 = .ok ())

include hp hstart

theorem views_start {messages : List (Message Payload)}
    (h : ∀ m ∈ messages, p.start.2.validate m = .ok () ∧ Seated params m) :
    (OrderedParty.start ⟨p, []⟩).2.views messages = p.start.2.views messages :=
  (settled_of_start hp hstart).mirrors.views_eq (staged params) fun m hm =>
    ⟨(h m hm).1, storable_of_seated (h m hm).2⟩

/-- Messages that concur take a participant to the same end in every order. -/
theorem alike_of_perm {messages messages' : List (Message Payload)}
    (hperm : messages.Perm messages')
    (h : ∀ m ∈ messages, ∀ m' ∈ messages, p.start.2.validate m = .ok () →
      p.start.2.validate m' = .ok () → Concur params m m') :
    (p.start.2.run (messages.map .update)).Alike (p.start.2.run (messages'.map .update)) ∧
      p.start.2.failure? messages' = p.start.2.failure? messages := by
  refine (settled_of_start hp hstart).run_perm (overlooks params) (staged params).toPatient hperm ?_
  intro m hm m' hm' hvalid hvalid' k s sent results _ hs
  exact strip_takeUp_comm (h m hm m' hm' hvalid hvalid') hs.1.prepared.params_eq

end Runs

end ThresholdKeys.Keygen
