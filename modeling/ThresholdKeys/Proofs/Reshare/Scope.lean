import Mathlib
import ThresholdKeys.Proofs.Arrival
import ThresholdKeys.Proofs.Calls
import ThresholdKeys.Proofs.Wire.Arrival

/-!
# Messages for the other committee

A message names the committee that it is addressed to, but a member goes by the content: it drops
what committees that it is not on would consume, and takes everything else, whomever it is addressed
to. What members send is addressed as its content demands, so among them the two agree.
-/

namespace ThresholdKeys.Reshare

variable {params : Parameters} {s : State} {m : Message Payload} {p : Party State Payload Outcome}

/-- The message is addressed to one committee, and the member is not on it. -/
def Misses (params : Parameters) (m : Message Payload) : Prop :=
  m.scope = .old ∧ params.isOld = false ∨ m.scope = .new ∧ params.isNew = false

/-- The message leaves the slots, the running round and both channels as they were. -/
structure Disregards (p : Party State Payload Outcome) (m : Message Payload) : Prop where
  commits : (p.update m).2.state.commits = p.state.commits
  acks : (p.update m).2.state.acks = p.state.acks
  shares : (p.update m).2.state.shares = p.state.shares
  reveals : (p.update m).2.state.reveals = p.state.reveals
  roundNumber : (p.update m).2.roundNumber = p.roundNumber
  outbox : (p.update m).2.outbox = p.outbox
  results : (p.update m).2.results = p.results

/-- The message is not taken up, so that at most it makes the member look for progress. -/
structure Drops (p : Party State Payload Outcome) (m : Message Payload) : Prop where
  store : (p.store m).2 = p
  update : (p.update m).2 = p ∨ p.update m = p.advance

theorem drops_of_store (h : p.protocol.store p.state m = .ok p.state) : Drops p m where
  store := by
    unfold Party.store
    split
    · rw [h]
    all_goals rfl
  update := Party.unchanged_or_advance_of_dropped h

theorem disregards_of_unchanged (h : (p.update m).2 = p) : Disregards p m := by
  constructor <;> rw [h]

def Payload.scope : Payload → Scope
  | ack => .old
  | commit _ | share _ | reveal _ => .new

theorem State.Sends.scope_eq {k : ℕ} (h : s.Sends k m) : m.scope = m.content.scope := by
  cases h <;> rfl

theorem misses_iff (h : m.scope = m.content.scope) :
    Misses params m ↔ m.content.isFor params = false := by
  unfold Misses
  rw [h]
  cases m.content <;> simp [Payload.scope, Payload.isFor]

section Run

variable {input : Input} {source : Source}
  (hindex : ∀ j, params.newIndex? = some j → j < params.new.size)
  (hp : newParty params input source = .ok p)

include hindex hp

theorem drops_of_isFor_eq_false (calls : List (Call Payload))
    (hm : m.content.isFor params = false) : Drops (p.run calls) m := by
  obtain ⟨_, -, hfollows⟩ := (follows_newParty hp).run (keeps hindex input) calls
  refine drops_of_store ?_
  rw [hfollows.protocol]
  exact store_of_isFor_eq_false (hfollows.inv.prepared.params_eq.symm ▸ hm)

theorem disregards_of_isFor_eq_false {calls : List (Call Payload)} (hcalls : ∀ c ∈ calls, c.Looks)
    (hm : m.content.isFor params = false) : Disregards (p.run calls) m := by
  obtain ⟨-, hfirst, -, -⟩ := newParty_spec hp
  refine disregards_of_unchanged ?_
  rcases (drops_of_isFor_eq_false hindex hp calls hm).update with h | h
  · exact h
  · cases hrunning : (p.run calls).isRunning with
    | false => exact Party.update_of_not_running hrunning m
    | true =>
        have hsettled := Party.settled_of_run (keepsKept hindex input)
          (follows_newParty hp).withBehind hfirst hcalls hrunning
        rw [h, hsettled.advance_eq (staged hindex input).toPatient]

theorem scope_eq_of_mem_outbox (calls : List (Call Payload)) (hm : m ∈ (p.run calls).outbox.sent) :
    m.scope = m.content.scope := by
  obtain ⟨k, -, hfollows⟩ :=
    (follows_withSent hp).run (keeps_withSent hindex (check_of_newParty hp)) calls
  exact (hfollows.inv.2.sends m hm).scope_eq

theorem not_disregards_of_bringsCommit {calls : List (Call Payload)} {j : ℕ}
    (hcalls : ∀ c ∈ calls, c.Looks) (hrunning : (p.run calls).isRunning = true)
    (hvalid : (p.run calls).validate m = .ok ()) (hisNew : params.isNew = true)
    (hj : j < params.old.size) (hown : params.oldIndex? ≠ some j) (hm : BringsCommit params m j)
    (hfirst : ¬ ∃ m' ∈ p.taken calls, BringsCommit params m' j) : ¬ Disregards (p.run calls) m := by
  intro hdisregards
  have hkeeps := keeps hindex input
  obtain ⟨_, -, hfollows⟩ := (follows_newParty hp).run hkeeps calls
  have hbefore := (records params).run hkeeps (follows_newParty hp) (newParty_spec hp).2.2.2 hcalls
  have hafter := (records params).update hfollows hbefore m
  rw [Party.takes_update_of_running hrunning hvalid] at hafter
  have hheld := ((hafter.commits hisNew).isSome_iff j hj hown).2
    ⟨m, List.mem_append_right _ (List.mem_singleton_self m), hm⟩
  rw [hdisregards.commits] at hheld
  exact hfirst (((hbefore.commits hisNew).isSome_iff j hj hown).1 hheld)

end Run

/-- At every moment of a run the committee that a message is addressed to has no influence on what
becomes of it. What a committee consumes that the member is not on is dropped, and has no effect
unless messages were stored before that were not looked at. Among all that members of the two
committees send in their runs, this is just what is addressed to a committee that the member is not
on. -/
theorem drops_of_run {newIds : List PartyId} {curve : CurveParams} {old new : Committee}
    {id : PartyId} {oldThreshold newThreshold : ℕ} {version : Version} {params : Parameters}
    {input : Input} {source : Source} {p : Party State Payload Outcome}
    (hnew : Committee.ofList newIds = .ok new)
    (hmake : Parameters.make curve old new id oldThreshold newThreshold version = .ok params)
    (hp : newParty params input source = .ok p) (calls : List (Call Payload)) :
    (∀ m recipients scope,
      (p.run calls).update { m with recipients, scope } = (p.run calls).update m) ∧
    (∀ m, m.content.isFor params = false → Drops (p.run calls) m ∧
      ((∀ c ∈ calls, c.Looks) → Disregards (p.run calls) m)) ∧
    ∀ {id' : PartyId} {params' : Parameters} {input' : Input} {source' : Source}
      {p' : Party State Payload Outcome} (calls' : List (Call Payload)),
      Parameters.make curve old new id' oldThreshold newThreshold version = .ok params' →
      newParty params' input' source' = .ok p' → ∀ m ∈ (p'.run calls').outbox.sent,
        (Misses params m ↔ m.content.isFor params = false) := by
  have hproper := Committee.proper_of_ofList hnew
  have hindex (j : ℕ) := newIndex?_lt_of_make (j := j) hproper hmake
  have hignores := ignoresAddress_protocol
  rw [← protocol_of_run hp calls] at hignores
  refine ⟨fun m => Party.update_readdressed hignores m,
    fun m hm => ⟨drops_of_isFor_eq_false hindex hp calls hm,
      fun hcalls => disregards_of_isFor_eq_false hindex hp hcalls hm⟩,
    fun calls' hmake' hp' m hm => misses_iff ?_⟩
  exact scope_eq_of_mem_outbox (fun j => newIndex?_lt_of_make (j := j) hproper hmake') hp' calls' hm

theorem drops_of_run_pair :
    ((Setup.pair.party (secondPair.member 1)).run [.start]).update
        { Setup.pair.commitMessage 0 with scope := .old } =
      ((Setup.pair.party (secondPair.member 1)).run [.start]).update (Setup.pair.commitMessage 0) ∧
    Disregards ((Setup.pair.party (secondPair.member 1)).run [.start]) (Setup.pair.ackMessage 0) ∧
    ∀ m ∈ ((Setup.pair.party (firstPair.member 0)).run [.start]).outbox.sent,
      Misses (Setup.pair.params (secondPair.member 1)) m ↔
        m.content.isFor (Setup.pair.params (secondPair.member 1)) = false := by
  have hvalid := Setup.valid_pair
  have hjoins : secondPair.member 1 ∈ participants Setup.pair.old Setup.pair.new := by decide
  have hleaves : firstPair.member 0 ∈ participants Setup.pair.old Setup.pair.new := by decide
  obtain ⟨hreaddressed, hdrops, hsent⟩ := drops_of_run ofList_secondPair (hvalid.make_eq hjoins)
    (hvalid.newParty_eq _) [.start]
  exact ⟨hreaddressed (Setup.pair.commitMessage 0) none .old,
    (hdrops (Setup.pair.ackMessage 0) (by decide)).2 (by simp [Call.Looks]),
    hsent [.start] (hvalid.make_eq hleaves) (hvalid.newParty_eq _)⟩

/-- The commitment of the member that leaves is not disregarded by the one that joins, though it is
addressed to the old committee. -/
theorem not_disregards_of_misses_pair :
    ¬ ∀ m, Misses (Setup.pair.params (secondPair.member 1)) m →
      Disregards ((Setup.pair.party (secondPair.member 1)).run [.start]) m := by
  intro hall
  have hvalid := Setup.valid_pair
  have hjoins : secondPair.member 1 ∈ participants Setup.pair.old Setup.pair.new := by decide
  have hplaces : secondPair.position? (secondPair.member 1) = some 1 ∧
      firstPair.position? (secondPair.member 1) = none := by decide
  have hlawful := hvalid.lawful_role hjoins
  have hneeds : Setup.pair.commitMessage 0 ∈ (Setup.pair.role (secondPair.member 1)).needs 0 :=
    Setup.mem_needs_zero_iff.2 ⟨1, hplaces.1, 0, by decide, hplaces.2 ▸ nofun, rfl⟩
  obtain ⟨k, hk, hrests⟩ := hlawful.run_of_needs List.nodup_nil nofun
  have hrunning : ((Setup.pair.party (secondPair.member 1)).run [.start]).isRunning = true :=
    hrests.isRunning hk (show 0 + 1 < 4 by decide) hneeds List.not_mem_nil
  have hvalidated := hlawful.validate_start ⟨0, by decide, hneeds⟩
  refine not_disregards_of_bringsCommit
    (fun j hj => newIndex?_lt_of_make hvalid.new_proper (hvalid.make_eq hjoins) hj)
    (hvalid.newParty_eq _) (m := { Setup.pair.commitMessage 0 with scope := .old })
    (by simp [Call.Looks]) hrunning hvalidated (by decide) (show 0 < 2 by decide) (by decide)
    ⟨by decide, rfl, _, rfl⟩ ?_ (hall _ (Or.inl ⟨rfl, by decide⟩))
  rintro ⟨m', hm', -⟩
  exact List.not_mem_nil hm'

end ThresholdKeys.Reshare
