import Mathlib
import ThresholdKeys.Proofs.Engine.Waiting
import ThresholdKeys.Proofs.Reshare.Committed
import ThresholdKeys.Proofs.Reshare.Order

/-!
# Whom a member waits for

New members wait in round 1 for the old members who have not broadcast a commitment, and in round 3
for those who have not both sent them a share and broadcast an opening. Old members wait in round 2
for the new members who have not acknowledged.
-/

namespace ThresholdKeys.Reshare

variable {params : Parameters} {input : Input} {s : State} {m : Message Payload}
  {log : List (Message Payload)} {i j : ℕ}

/-! ## What messages bring -/

/-- The message comes from place `j` of the committee that it speaks for, by broadcast or directly as
told, with the content in question. -/
def Brings (params : Parameters) (byBroadcast : Bool) (content : Payload → Prop)
    (m : Message Payload) (j : ℕ) : Prop :=
  (m.content.senders params).seat? m.sender = some j ∧ m.isBroadcast = byBroadcast ∧
    content m.content

def BringsCommit (params : Parameters) : Message Payload → ℕ → Prop :=
  Brings params true fun content => ∃ c, content = .commit c

def BringsAck (params : Parameters) : Message Payload → ℕ → Prop :=
  Brings params true fun content => content = .ack

def BringsShare (params : Parameters) : Message Payload → ℕ → Prop :=
  Brings params false fun content => ∃ x, content = .share x

def BringsReveal (params : Parameters) : Message Payload → ℕ → Prop :=
  Brings params true fun content => ∃ o, content = .reveal o

/-- At place `j` is another old member who has not dealt all that a new member needs in rounds 1 and
3, or another new member who has not told an old one what it waits for in round 2. -/
def Lacks (params : Parameters) (log : List (Message Payload)) (number j : ℕ) : Prop :=
  match number with
  | 1 => params.isNew = true ∧ j < params.old.size ∧ params.oldIndex? ≠ some j ∧
      ¬ ∃ m ∈ log, BringsCommit params m j
  | 2 => params.isOld = true ∧ j < params.new.size ∧ params.newIndex? ≠ some j ∧
      ¬ ∃ m ∈ log, BringsAck params m j
  | 3 => params.isNew = true ∧ j < params.old.size ∧ params.oldIndex? ≠ some j ∧
      ¬ ((∃ m ∈ log, BringsShare params m j) ∧ ∃ m ∈ log, BringsReveal params m j)
  | _ => False

/-- The member at place `j` of the committee that a round waits for. -/
def sender (params : Parameters) (number j : ℕ) : PartyId :=
  if number = 2 then params.new.member j else params.old.member j

theorem Brings.place? {byBroadcast : Bool} {content : Payload → Prop}
    (h : Brings params byBroadcast content m j)
    (hfor : ∀ c, content c → c.isFor params = true) : place? params m = some j :=
  place?_eq_some_iff.2 ⟨hfor _ h.2.2, h.1⟩

/-- The slots that a member reads show, but for its own places, the messages that have come. -/
structure State.Gathered (params : Parameters) (log : List (Message Payload)) (s : State) :
    Prop where
  params_eq : s.params = params
  commits : params.isNew = true →
    s.commits.Gathers params.old.size true (params.oldIndex? = some ·) (BringsCommit params) log
  acks : params.isOld = true →
    s.acks.Gathers params.new.size true (params.newIndex? = some ·) (BringsAck params) log
  shares : params.isNew = true →
    s.shares.Gathers params.old.size false (params.oldIndex? = some ·) (BringsShare params) log
  reveals : params.isNew = true →
    s.reveals.Gathers params.old.size true (params.oldIndex? = some ·) (BringsReveal params) log

theorem brings_iff (hseat : (m.content.senders params).seat? m.sender = some i)
    {byBroadcast : Bool} {content : Payload → Prop} (h : content m.content) (j : ℕ) :
    Brings params byBroadcast content m j ↔ i = j ∧ m.isBroadcast = byBroadcast := by
  simp [Brings, hseat, h]

theorem not_brings {byBroadcast : Bool} {content : Payload → Prop} (h : ¬ content m.content)
    (j : ℕ) : ¬ Brings params byBroadcast content m j :=
  fun hbrings => h hbrings.2.2

theorem State.Gathered.fill (hs : s.Gathered params log) (hplace : place? params m = some i) :
    (s.fill i m).Gathered params (log ++ [m]) := by
  obtain ⟨-, hseat⟩ := place?_eq_some_iff.1 hplace
  obtain ⟨-, hi, -⟩ := Committee.seat?_eq_some_iff.1 hseat
  unfold State.fill
  cases hcontent : m.content with
  | commit c =>
      rw [hcontent] at hi
      exact
        { params_eq := hs.params_eq
          commits := fun h => (hs.commits h).store hi (brings_iff hseat ⟨c, hcontent⟩)
          acks := fun h => (hs.acks h).ignore (not_brings (by simp [hcontent]))
          shares := fun h => (hs.shares h).ignore (not_brings (by simp [hcontent]))
          reveals := fun h => (hs.reveals h).ignore (not_brings (by simp [hcontent])) }
  | ack =>
      rw [hcontent] at hi
      exact
        { params_eq := hs.params_eq
          commits := fun h => (hs.commits h).ignore (not_brings (by simp [hcontent]))
          acks := fun h => (hs.acks h).store hi (brings_iff hseat hcontent)
          shares := fun h => (hs.shares h).ignore (not_brings (by simp [hcontent]))
          reveals := fun h => (hs.reveals h).ignore (not_brings (by simp [hcontent])) }
  | share x =>
      rw [hcontent] at hi
      exact
        { params_eq := hs.params_eq
          commits := fun h => (hs.commits h).ignore (not_brings (by simp [hcontent]))
          acks := fun h => (hs.acks h).ignore (not_brings (by simp [hcontent]))
          shares := fun h => (hs.shares h).store hi (brings_iff hseat ⟨x, hcontent⟩)
          reveals := fun h => (hs.reveals h).ignore (not_brings (by simp [hcontent])) }
  | reveal o =>
      rw [hcontent] at hi
      exact
        { params_eq := hs.params_eq
          commits := fun h => (hs.commits h).ignore (not_brings (by simp [hcontent]))
          acks := fun h => (hs.acks h).ignore (not_brings (by simp [hcontent]))
          shares := fun h => (hs.shares h).ignore (not_brings (by simp [hcontent]))
          reveals := fun h => (hs.reveals h).store hi (brings_iff hseat ⟨o, hcontent⟩) }

theorem State.Gathered.enterCommit {e : Step} (hs : s.Gathered params log)
    (he : enterCommit s = .ok e) : e.state.Gathered params log := by
  cases hi : s.params.oldIndex? with
  | none =>
      rw [enterCommit_of_notOld hi] at he
      exact Except.ok.inj he ▸ hs
  | some i =>
      obtain ⟨_, _, _, _, _, _, _, -, -, -, -, rfl⟩ := (enterCommit_eq_ok_iff hi).1 he
      refine { hs with commits := fun h => ?_ }
      dsimp only
      split
      · exact (hs.commits h).put (hs.params_eq ▸ hi) _
      · exact hs.commits h

theorem State.Gathered.enterAck {e : Step} (hs : s.Gathered params log)
    (he : enterAck s = .ok e) : e.state.Gathered params log := by
  cases hi : s.params.newIndex? with
  | none =>
      rw [enterAck_of_notNew hi] at he
      exact Except.ok.inj he ▸ hs
  | some i =>
      cases hme : s.params.newId with
      | none => rw [Parameters.newIndex?, hme] at hi; cases hi
      | some me =>
          rw [enterAck_eq hi hme] at he
          obtain rfl := Except.ok.inj he
          refine { hs with acks := fun h => ?_ }
          dsimp only
          split
          · exact (hs.acks h).put (hs.params_eq ▸ hi) _
          · exact hs.acks h

theorem State.Gathered.enterReveal {e : Step} (hs : s.Gathered params log)
    (he : enterReveal s = .ok e) : e.state.Gathered params log := by
  cases hi : s.params.oldIndex? with
  | none =>
      rw [enterReveal_of_notOld hi] at he
      exact Except.ok.inj he ▸ hs
  | some i =>
      obtain ⟨_, _, dealt, -, -, rfl⟩ := (enterReveal_eq_ok_iff hi).1 he
      refine { hs with shares := fun h => ?_, reveals := fun h => ?_ }
      · cases dealt.find? fun d => s.params.newIndex? = some d.1 with
        | none => exact hs.shares h
        | some d => exact (hs.shares h).put (hs.params_eq ▸ hi) _
      · dsimp only
        split
        · exact (hs.reveals h).put (hs.params_eq ▸ hi) _
        · exact hs.reveals h

theorem records (params : Parameters) :
    Party.Records protocol (rounds params) fun log s => s.Gathered params log where
  enter {log s round entry} hround hs he := by
    rcases mem_rounds_iff.1 hround with rfl | rfl | rfl | rfl
    · exact hs.enterCommit he
    · exact hs.enterAck he
    · exact hs.enterReveal he
    · have hresult := enterConclude_eq_ok_iff.1 he
      split at hresult
      · obtain ⟨_, -, rfl⟩ := hresult
        exact hs
      · subst hresult
        exact hs
  takeUp {log s} m hs := by
    rw [takeUp_eq, hs.params_eq]
    cases hplace : place? params m with
    | some i => exact hs.fill hplace
    | none =>
        have hnone (j : ℕ) : place? params m ≠ some j := by rw [hplace]; exact nofun
        exact
          { params_eq := hs.params_eq
            commits := fun h => (hs.commits h).ignore fun j hj =>
              hnone j (hj.place? (by rintro _ ⟨c, rfl⟩; exact h))
            acks := fun h => (hs.acks h).ignore fun j hj =>
              hnone j (hj.place? (by rintro _ rfl; exact h))
            shares := fun h => (hs.shares h).ignore fun j hj =>
              hnone j (hj.place? (by rintro _ ⟨x, rfl⟩; exact h))
            reveals := fun h => (hs.reveals h).ignore fun j hj =>
              hnone j (hj.place? (by rintro _ ⟨o, rfl⟩; exact h)) }

/-! ## Waiting -/

/-- The place of the member itself among those that the round after `l` others waits for. -/
def ownPlace (params : Parameters) (l : ℕ) : Option ℕ :=
  if l = 1 then params.newIndex? else params.oldIndex?

def KeptWithOwn (params : Parameters) (input : Input) (k : ℕ) (s : State)
    (sent : List (Message Payload)) (results : List Outcome) : Prop :=
  Kept params input k s sent results ∧
    Party.FillsOwn (rounds params) (fun l j => ownPlace params l = some j) k s

theorem lt_dealers_iff : j < (dealers params).length ↔ params.isNew = true ∧ j < params.old.size := by
  unfold dealers
  cases params.isNew <;> simp [Committee.size]

theorem lt_holders_iff : j < (holders params).length ↔ params.isOld = true ∧ j < params.new.size := by
  unfold holders
  cases params.isOld <;> simp [Committee.size]

theorem keepsKeptWithOwn (hindex : ∀ j, params.newIndex? = some j → j < params.new.size)
    (hplace : params.isNew = true → params.newIndex?.isSome = true) (input : Input) :
    Party.Keeps protocol (rounds params) (KeptWithOwn params input) := by
  refine (keepsKept hindex input).withOwn ?_ fun hround _ he _ hprev _ hj =>
    hasArrived_of_enter hround he hprev hj
  intro k s sent results round e j hround hs he hlt hj
  have hparams := hs.1.prepared.params_eq
  rcases getElem?_rounds hround with ⟨rfl, rfl⟩ | ⟨rfl, rfl⟩ | ⟨rfl, rfl⟩ | ⟨rfl, rfl⟩
  · obtain ⟨hnew, -⟩ := lt_dealers_iff.1 hlt
    obtain ⟨_, _, _, _, _, _, _, -, -, -, -, rfl⟩ :=
      (enterCommit_eq_ok_iff (hparams.symm ▸ hj)).1 he
    dsimp only
    rw [hparams, if_pos hnew]
    exact List.mem_singleton_self j
  · obtain ⟨hold, -⟩ := lt_holders_iff.1 hlt
    have hj' : params.newIndex? = some j := hj
    cases hme : params.newId with
    | none => rw [Parameters.newIndex?, hme] at hj'; cases hj'
    | some me =>
        change enterAck s = .ok e at he
        rw [enterAck_eq (hparams.symm ▸ hj') (hparams.symm ▸ hme)] at he
        obtain rfl := Except.ok.inj he
        dsimp only
        rw [hparams, if_pos hold]
        exact List.mem_singleton_self j
  · obtain ⟨hnew, -⟩ := lt_dealers_iff.1 hlt
    obtain ⟨_, _, _, -, -, rfl⟩ := (enterReveal_eq_ok_iff (hparams.symm ▸ hj)).1 he
    dsimp only
    rw [hparams, if_pos (hplace hnew)]
    exact List.mem_singleton_self j
  · exact absurd hlt (Nat.not_lt_zero j)

theorem dealers_eq :
    dealers params = (List.range (dealers params).length).map params.old.member := by
  unfold dealers
  cases params.isNew with
  | true => exact Committee.members_eq
  | false => rfl

theorem holders_eq :
    holders params = (List.range (holders params).length).map params.new.member := by
  unfold holders
  cases params.isOld with
  | true => exact Committee.members_eq
  | false => rfl

/-- What has not arrived for a round that was entered is what the others lack. -/
theorem lacks_iff_hasArrived {k l : ℕ} {round : Round State Payload Outcome}
    (hs : s.Gathered params log)
    (hown : Party.FillsOwn (rounds params) (fun l j => ownPlace params l = some j) k s)
    (hl : l < k) (hround : (rounds params)[l]? = some round) : round.number = l + 1 ∧
      ∃ n, round.expected = (List.range n).map (sender params (l + 1)) ∧
        ∀ j, Lacks params log (l + 1) j ↔ j < n ∧ round.hasArrived s j = false := by
  refine ⟨number_eq hround, ?_⟩
  have hfilled := hown l hl round hround
  rcases getElem?_rounds hround with ⟨rfl, rfl⟩ | ⟨rfl, rfl⟩ | ⟨rfl, rfl⟩ | ⟨rfl, rfl⟩
  · have hothers (j : ℕ) (hj : j < (dealers params).length) (hi : params.oldIndex? ≠ some j) :
        hasCommit s j = true ↔ ∃ m ∈ log, BringsCommit params m j := by
      obtain ⟨hnew, hlt⟩ := lt_dealers_iff.1 hj
      exact (hs.commits hnew).isSome_iff j hlt hi
    exact ⟨_, dealers_eq, fun j => (and_assoc.symm.trans (and_congr_left' lt_dealers_iff.symm)).trans
      (Party.missing_iff hfilled hothers)⟩
  · have hothers (j : ℕ) (hj : j < (holders params).length) (hi : params.newIndex? ≠ some j) :
        hasAck s j = true ↔ ∃ m ∈ log, BringsAck params m j := by
      obtain ⟨hold, hlt⟩ := lt_holders_iff.1 hj
      exact (hs.acks hold).isSome_iff j hlt hi
    exact ⟨_, holders_eq, fun j => (and_assoc.symm.trans (and_congr_left' lt_holders_iff.symm)).trans
      (Party.missing_iff hfilled hothers)⟩
  · have hothers (j : ℕ) (hj : j < (dealers params).length) (hi : params.oldIndex? ≠ some j) :
        hasReveal s j = true ↔
          (∃ m ∈ log, BringsShare params m j) ∧ ∃ m ∈ log, BringsReveal params m j := by
      obtain ⟨hnew, hlt⟩ := lt_dealers_iff.1 hj
      exact Bool.and_eq_true_iff.trans (and_congr ((hs.shares hnew).isSome_iff j hlt hi)
        ((hs.reveals hnew).isSome_iff j hlt hi))
    exact ⟨_, dealers_eq, fun j => (and_assoc.symm.trans (and_congr_left' lt_dealers_iff.symm)).trans
      (Party.missing_iff hfilled hothers)⟩
  · refine ⟨0, rfl, fun j => ?_⟩
    simp [Lacks]

theorem newParty_spec {source : Source} {p : Party State Payload Outcome}
    (hp : newParty params input source = .ok p) :
    p.id = params.id ∧
      p.stage = .notStarted (commitRound params)
        [ackRound params, revealRound params, concludeRound] ∧
      p.results.sent = [] ∧ p.state.Gathered params [] := by
  obtain ⟨s, hs, hp⟩ := Result.bind_eq_ok_iff.1 hp
  obtain rfl := Except.ok.inj hp
  obtain ⟨u, -, hs⟩ := Result.bind_eq_ok_iff.1 hs
  obtain ⟨oldPoints, -, hs⟩ := Result.bind_eq_ok_iff.1 hs
  obtain ⟨newPoints, -, hs⟩ := Result.bind_eq_ok_iff.1 hs
  obtain rfl := Except.ok.inj hs
  exact ⟨rfl, rfl, rfl, rfl, fun _ => Slots.gathers_empty .., fun _ => Slots.gathers_empty ..,
    fun _ => Slots.gathers_empty .., fun _ => Slots.gathers_empty ..⟩

section Make

variable {curve : CurveParams} {old new : Committee} {id : PartyId}
  {oldThreshold newThreshold : ℕ} {version : Version}
  (hmake : Parameters.make curve old new id oldThreshold newThreshold version = .ok params)
  (hold : old.Proper) (hnew : new.Proper)

include hmake

theorem sameKey_of_make : params.id.SameKey id := by
  have hfind {c : Committee} {q : PartyId} (h : c.find? id = some q) : q.SameKey id := by
    unfold Committee.find? at h
    have hkey := List.find?_some h
    exact of_decide_eq_true hkey
  obtain ⟨-, -, own, hown, rfl⟩ := Parameters.make_eq_ok_iff.1 hmake
  rcases (Option.orElse_eq_some _ _ _).1 hown with h | ⟨-, h⟩
  · exact hfind h
  · exact hfind h

include hold hnew

/-- Whom a member waits for is not the member itself. -/
theorem not_sameKey_of_lacks {number : ℕ} (h : Lacks params log number j) :
    ¬ (sender params number j).SameKey params.id := by
  intro hkey
  have hid := hkey.trans (sameKey_of_make hmake)
  obtain ⟨-, -, own, -, rfl⟩ := Parameters.make_eq_ok_iff.1 hmake
  have hplace {c : Committee} (hc : c.Proper) (hj : j < c.size) (hid : (c.member j).SameKey id) :
      (c.find? id).bind PartyId.index = some j := by
    rw [hc.find?_eq hj hid, Option.bind_some, hc.index_member hj]
  match number, h with
  | 1, ⟨_, hj, hown, _⟩ => exact hown (hplace hold hj hid)
  | 2, ⟨_, hj, hown, _⟩ => exact hown (hplace hnew hj hid)
  | 3, ⟨_, hj, hown, _⟩ => exact hown (hplace hold hj hid)

/-- A running member that looks for progress after every message waits for the others who have not
provided what its round needs. -/
theorem waits_of_run {source : Source} {p : Party State Payload Outcome}
    (hp : newParty params input source = .ok p) {calls : List (Call Payload)}
    (hcalls : ∀ c ∈ calls, c.Looks) (hrunning : (p.run calls).isRunning = true) :
    ∃ number js, (p.run calls).Waits (Lacks params (p.taken calls)) (sender params) number js := by
  obtain ⟨hpid, hfirst, -, hgathered⟩ := newParty_spec hp
  have hfollows : Party.Follows protocol (rounds params) (KeptWithOwn params input) 0 p :=
    (follows_newParty hp).withBehind.withOwn _
  have hplace (hisNew : params.isNew = true) : params.newIndex?.isSome = true := by
    obtain ⟨me, hme⟩ := Option.isSome_iff_exists.1 hisNew
    obtain ⟨j, -, hj, rfl⟩ := newPlace_of_make hmake hnew hme
    rw [Parameters.newIndex?, hme, Option.bind_some, hnew.index_member hj]
    rfl
  have hkeeps := keepsKeptWithOwn (fun _ hj => newIndex?_lt_of_make hnew hmake hj) hplace input
  have hshows := (records params).run hkeeps hfollows hgathered hcalls
  have hframe := (Party.frame_of_moves (p.moves_run calls)).2.1
  have hsettled := Party.settled_of_run hkeeps hfollows hfirst hcalls hrunning
  refine hsettled.waits hrunning (fun h => h.1.2) (fun h hl hround =>
    lacks_iff_hasArrived hshows h.2 hl hround) (fun j h => h) fun number j h => ?_
  rw [hframe, hpid]
  exact not_sameKey_of_lacks hmake hold hnew h

end Make

end ThresholdKeys.Reshare
