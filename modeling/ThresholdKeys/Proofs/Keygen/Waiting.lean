import Mathlib
import ThresholdKeys.Proofs.Engine.Waiting
import ThresholdKeys.Proofs.Keygen.Blame
import ThresholdKeys.Proofs.Keygen.Order

/-!
# Whom a participant waits for

A participant waits in round 1 for those who have not broadcast a commitment, and in round 2 for
those who have not both sent it a share and broadcast an opening.
-/

namespace ThresholdKeys.Keygen

variable {params : Parameters} {s : State} {m : Message Payload} {log : List (Message Payload)}
  {i j : ℕ}

/-! ## What messages bring -/

/-- The message comes from place `j`, by broadcast or directly as told, with the content in
question. -/
def Brings (params : Parameters) (byBroadcast : Bool) (content : Payload → Prop)
    (m : Message Payload) (j : ℕ) : Prop :=
  params.parties.seat? m.sender = some j ∧ m.isBroadcast = byBroadcast ∧ content m.content

def BringsCommit (params : Parameters) : Message Payload → ℕ → Prop :=
  Brings params true fun content => ∃ c, content = .commit c

def BringsShare (params : Parameters) : Message Payload → ℕ → Prop :=
  Brings params false fun content => ∃ x, content = .share x

def BringsReveal (params : Parameters) : Message Payload → ℕ → Prop :=
  Brings params true fun content => ∃ o proof, content = .reveal o proof

def Provides (params : Parameters) (log : List (Message Payload)) (j : ℕ) : ℕ → Prop
  | 1 => ∃ m ∈ log, BringsCommit params m j
  | 2 => (∃ m ∈ log, BringsShare params m j) ∧ ∃ m ∈ log, BringsReveal params m j
  | _ => True

/-- At place `j` is another participant who has not provided all that a round needs. -/
def Lacks (params : Parameters) (log : List (Message Payload)) (number j : ℕ) : Prop :=
  j < params.parties.size ∧ j ≠ params.index ∧ ¬ Provides params log j number

/-- The slots of the others show the messages that have come. -/
structure State.Gathered (params : Parameters) (log : List (Message Payload)) (s : State) :
    Prop where
  params_eq : s.params = params
  commits : s.commits.Gathers params.parties.size true (· = params.index) (BringsCommit params) log
  shares : s.shares.Gathers params.parties.size false (· = params.index) (BringsShare params) log
  reveals : s.reveals.Gathers params.parties.size true (· = params.index) (BringsReveal params) log

theorem brings_iff (hseat : params.parties.seat? m.sender = some i) {byBroadcast : Bool}
    {content : Payload → Prop} (h : content m.content) (j : ℕ) :
    Brings params byBroadcast content m j ↔ i = j ∧ m.isBroadcast = byBroadcast := by
  simp [Brings, hseat, h]

theorem not_brings {byBroadcast : Bool} {content : Payload → Prop} (h : ¬ content m.content)
    (j : ℕ) : ¬ Brings params byBroadcast content m j :=
  fun hbrings => h hbrings.2.2

theorem State.Gathered.fill (hs : s.Gathered params log)
    (hseat : params.parties.seat? m.sender = some i) :
    (s.fill i m).Gathered params (log ++ [m]) := by
  obtain ⟨-, hi, -⟩ := Committee.seat?_eq_some_iff.1 hseat
  unfold State.fill
  cases hcontent : m.content with
  | commit c =>
      exact
        { params_eq := hs.params_eq
          commits := hs.commits.store hi (brings_iff hseat ⟨c, hcontent⟩)
          shares := hs.shares.ignore (not_brings (by simp [hcontent]))
          reveals := hs.reveals.ignore (not_brings (by simp [hcontent])) }
  | share x =>
      exact
        { params_eq := hs.params_eq
          commits := hs.commits.ignore (not_brings (by simp [hcontent]))
          shares := hs.shares.store hi (brings_iff hseat ⟨x, hcontent⟩)
          reveals := hs.reveals.ignore (not_brings (by simp [hcontent])) }
  | reveal o proof =>
      exact
        { params_eq := hs.params_eq
          commits := hs.commits.ignore (not_brings (by simp [hcontent]))
          shares := hs.shares.ignore (not_brings (by simp [hcontent]))
          reveals := hs.reveals.store hi (brings_iff hseat ⟨o, proof, hcontent⟩) }

theorem records (params : Parameters) :
    Party.Records protocol (rounds params) fun log s => s.Gathered params log where
  enter {log s round entry} hround hs he := by
    have hown := congrArg Parameters.index hs.params_eq
    rcases mem_rounds_iff.1 hround with rfl | rfl | rfl
    · obtain ⟨_, _, _, _, _, -, -, rfl⟩ := enterCommit_eq_ok_iff.1 he
      exact ⟨hs.params_eq, hs.commits.put hown _, hs.shares, hs.reveals⟩
    · obtain ⟨_, _, _, _, _, _, _, -, -, -, -, -, -, rfl⟩ := enterReveal_eq_ok_iff.1 he
      exact ⟨hs.params_eq, hs.commits, hs.shares.put hown _, hs.reveals.put hown _⟩
    · obtain ⟨_, _, _, _, _, _, -, -, -, -, -, -, -, rfl⟩ := enterVerify_eq_ok_iff.1 he
      exact hs
  takeUp {log s} m hs := by
    rw [takeUp_eq, hs.params_eq]
    cases hseat : params.parties.seat? m.sender with
    | some i => exact hs.fill hseat
    | none =>
        exact
          { params_eq := hs.params_eq
            commits := hs.commits.ignore fun j => by simp [BringsCommit, Brings, hseat]
            shares := hs.shares.ignore fun j => by simp [BringsShare, Brings, hseat]
            reveals := hs.reveals.ignore fun j => by simp [BringsReveal, Brings, hseat] }

/-! ## Waiting -/

def KeptWithOwn (params : Parameters) (k : ℕ) (s : State) (sent : List (Message Payload))
    (results : List KeyShare) : Prop :=
  Kept params k s sent results ∧ Party.FillsOwn (rounds params) (fun _ j => j = params.index) k s

theorem keepsKeptWithOwn (params : Parameters) :
    Party.Keeps protocol (rounds params) (KeptWithOwn params) := by
  refine (keepsKept params).withOwn ?_ fun hround _ he _ hprev _ hj =>
    hasArrived_of_enter hround he hprev hj
  intro k s sent results round e j hround hs he hlt hj
  have hown : j = s.params.index := hj.trans (congrArg _ hs.1.prepared.params_eq.symm)
  rcases getElem?_rounds hround with ⟨-, rfl⟩ | ⟨-, rfl⟩ | ⟨-, rfl⟩
  · obtain ⟨_, _, _, _, _, -, -, rfl⟩ := enterCommit_eq_ok_iff.1 he
    exact List.mem_singleton.2 hown
  · obtain ⟨_, _, _, _, _, _, _, -, -, -, -, -, -, rfl⟩ := enterReveal_eq_ok_iff.1 he
    exact List.mem_singleton.2 hown
  · exact absurd hlt (Nat.not_lt_zero j)

theorem newParty_spec {source : Source} {p : Party State Payload KeyShare}
    (hp : newParty params source = .ok p) :
    p.id = params.id ∧ p.stage = .notStarted (commitRound params) [revealRound params, verifyRound] ∧
      p.results.sent = [] ∧ p.state.Gathered params [] := by
  obtain ⟨s, hs, hp⟩ := Result.bind_eq_ok_iff.1 hp
  obtain rfl := Except.ok.inj hp
  obtain ⟨points, -, hs⟩ := Result.bind_eq_ok_iff.1 hs
  obtain rfl := Except.ok.inj hs
  exact ⟨rfl, rfl, rfl, rfl, Slots.gathers_empty .., Slots.gathers_empty .., Slots.gathers_empty ..⟩

/-- What has not arrived for a round that was entered is what the others lack. -/
theorem lacks_iff_hasArrived {k l : ℕ} {round : Round State Payload KeyShare}
    (hs : s.Gathered params log)
    (hown : Party.FillsOwn (rounds params) (fun _ j => j = params.index) k s)
    (hl : l < k) (hround : (rounds params)[l]? = some round) : round.number = l + 1 ∧
      ∃ n, round.expected = (List.range n).map params.parties.member ∧
        ∀ j, Lacks params log (l + 1) j ↔ j < n ∧ round.hasArrived s j = false := by
  refine ⟨number_eq hround, ?_⟩
  have hfilled := hown l hl round hround
  rcases getElem?_rounds hround with ⟨rfl, rfl⟩ | ⟨rfl, rfl⟩ | ⟨rfl, rfl⟩
  · exact ⟨_, Committee.members_eq, fun j => Party.missing_iff hfilled hs.commits.isSome_iff⟩
  · have hothers (j : ℕ) (hj : j < params.parties.size) (hi : j ≠ params.index) :
        hasReveal s j = true ↔ Provides params log j 2 :=
      Bool.and_eq_true_iff.trans
        (and_congr (hs.shares.isSome_iff j hj hi) (hs.reveals.isSome_iff j hj hi))
    exact ⟨_, Committee.members_eq, fun j => Party.missing_iff hfilled hothers⟩
  · refine ⟨0, rfl, fun j => ?_⟩
    simp [Lacks, Provides]

theorem own_of_make {curve : CurveParams} {parties : Committee} {id : PartyId} {threshold : ℕ}
    {version : Version} (hproper : parties.Proper)
    (h : Parameters.make curve parties id threshold version = .ok params) :
    params.parties = parties ∧ params.id = parties.member params.index ∧
      params.index < parties.size := by
  obtain ⟨-, own, hfind, rfl⟩ := Parameters.make_eq_ok_iff.1 h
  rw [hproper.find?_eq_map_position?, Option.map_eq_some_iff] at hfind
  obtain ⟨i, hi, rfl⟩ := hfind
  obtain ⟨hlt, -⟩ := hproper.position?_eq_some_iff.1 hi
  rw [Parameters.index, hproper.index_member hlt, Option.getD_some]
  exact ⟨rfl, rfl, hlt⟩

/-- A running participant that looks for progress after every message waits for the others who have
not provided what its round needs. -/
theorem waits_of_run {source : Source} {p : Party State Payload KeyShare}
    (hproper : params.parties.Proper) (hid : params.id = params.parties.member params.index)
    (hi : params.index < params.parties.size) (hp : newParty params source = .ok p)
    {calls : List (Call Payload)} (hcalls : ∀ c ∈ calls, c.Looks)
    (hrunning : (p.run calls).isRunning = true) :
    ∃ number js, (p.run calls).Waits (Lacks params (p.taken calls))
      (fun _ => params.parties.member) number js := by
  obtain ⟨hpid, hfirst, -, hgathered⟩ := newParty_spec hp
  have hfollows : Party.Follows protocol (rounds params) (KeptWithOwn params) 0 p :=
    (follows_newParty hp).withBehind.withOwn _
  have hkeeps := keepsKeptWithOwn params
  have hshows := (records params).run hkeeps hfollows hgathered hcalls
  have hframe := (Party.frame_of_moves (p.moves_run calls)).2.1
  have hsettled := Party.settled_of_run hkeeps hfollows hfirst hcalls hrunning
  refine hsettled.waits hrunning (fun h => h.1.2) (fun h hl hround =>
    lacks_iff_hasArrived hshows h.2 hl hround) (fun j h => h.2.2 trivial) fun number j h => ?_
  rw [hframe, hpid, hid, hproper.sameKey_iff h.1 hi]
  exact h.2.1

end ThresholdKeys.Keygen
