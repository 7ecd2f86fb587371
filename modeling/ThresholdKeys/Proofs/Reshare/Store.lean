import Mathlib
import ThresholdKeys.Proofs.Engine.Slots
import ThresholdKeys.Proofs.Result
import ThresholdKeys.Reshare.Rounds

/-!
# Messages that a member takes up

A message goes to the slot of its sender in the committee that it speaks for, if the member is on
the committee that consumes it, and to no other slot. Nothing that has arrived is lost by it.
-/

namespace ThresholdKeys.Reshare

variable {s s' : State} {m : Message Payload}

theorem State.seatOf_eq_ok_iff {committee : Committee} {j : ℕ} :
    seatOf committee m = .ok j ↔ committee.seat? m.sender = some j := by
  unfold seatOf
  cases committee.seat? m.sender <;> simp

/-- Where a message goes. -/
inductive State.Takes (s : State) (m : Message Payload) : State → Prop
  | nothing : s.Takes m s
  | commit {c : Commitment} {i : ℕ} (hcontent : m.content = .commit c)
      (hseat : s.params.old.seat? m.sender = some i) :
      s.Takes m { s with commits := s.commits.store true i ⟨c, m.isBroadcast⟩ }
  | ack {j : ℕ} (hcontent : m.content = .ack) (hseat : s.params.new.seat? m.sender = some j) :
      s.Takes m { s with acks := s.acks.store true j ⟨(), m.isBroadcast⟩ }
  | share {x : Share} {i : ℕ} (hcontent : m.content = .share x)
      (hseat : s.params.old.seat? m.sender = some i) :
      s.Takes m { s with shares := s.shares.store false i ⟨x, m.isBroadcast⟩ }
  | reveal {o : Opening} {i : ℕ} (hcontent : m.content = .reveal o)
      (hseat : s.params.old.seat? m.sender = some i) :
      s.Takes m { s with reveals := s.reveals.store true i ⟨o, m.isBroadcast⟩ }

theorem State.takes_of_store (h : s.store m = .ok s') : s.Takes m s' := by
  unfold State.store at h
  cases hcontent : m.content with
  | commit c =>
      simp only [hcontent] at h
      split at h
      · obtain ⟨i, hseat, rfl⟩ := Result.map_eq_ok_iff.1 h
        exact .commit hcontent (State.seatOf_eq_ok_iff.1 hseat)
      · obtain rfl := Except.ok.inj h
        exact .nothing
  | ack =>
      simp only [hcontent] at h
      split at h
      · obtain ⟨j, hseat, rfl⟩ := Result.map_eq_ok_iff.1 h
        exact .ack hcontent (State.seatOf_eq_ok_iff.1 hseat)
      · obtain rfl := Except.ok.inj h
        exact .nothing
  | share x =>
      simp only [hcontent] at h
      split at h
      · obtain ⟨i, hseat, rfl⟩ := Result.map_eq_ok_iff.1 h
        exact .share hcontent (State.seatOf_eq_ok_iff.1 hseat)
      · obtain rfl := Except.ok.inj h
        exact .nothing
  | reveal o =>
      simp only [hcontent] at h
      split at h
      · obtain ⟨i, hseat, rfl⟩ := Result.map_eq_ok_iff.1 h
        exact .reveal hcontent (State.seatOf_eq_ok_iff.1 hseat)
      · obtain rfl := Except.ok.inj h
        exact .nothing

/-- A later state: nothing that was given, dealt or admitted is lost. -/
structure State.Extends (s s' : State) : Prop where
  params : s'.params = s.params
  input : s'.input = s.input
  oldPoints : s'.oldPoints = s.oldPoints
  newPoints : s'.newPoints = s.newPoints
  dealt : s'.dealt = s.dealt
  length_commits : s'.commits.length = s.commits.length
  length_acks : s'.acks.length = s.acks.length
  length_shares : s'.shares.length = s.shares.length
  length_reveals : s'.reveals.length = s.reveals.length
  commits : ∀ {j c}, s.commits.admitted? true j = some c → s'.commits.admitted? true j = some c
  acks : ∀ {j u}, s.acks.admitted? true j = some u → s'.acks.admitted? true j = some u
  shares : ∀ {j x}, s.shares.admitted? false j = some x → s'.shares.admitted? false j = some x
  reveals : ∀ {j o}, s.reveals.admitted? true j = some o → s'.reveals.admitted? true j = some o

theorem State.Extends.refl (s : State) : s.Extends s :=
  ⟨rfl, rfl, rfl, rfl, rfl, rfl, rfl, rfl, rfl, id, id, id, id⟩

theorem State.Takes.extends (h : s.Takes m s') : s.Extends s' := by
  cases h with
  | nothing => exact .refl s
  | commit _ _ =>
      exact { State.Extends.refl s with
        length_commits := Slots.length_store ..
        commits := fun hj => Slots.admitted?_store hj .. }
  | ack _ _ =>
      exact { State.Extends.refl s with
        length_acks := Slots.length_store ..
        acks := fun hj => Slots.admitted?_store hj .. }
  | share _ _ =>
      exact { State.Extends.refl s with
        length_shares := Slots.length_store ..
        shares := fun hj => Slots.admitted?_store hj .. }
  | reveal _ _ =>
      exact { State.Extends.refl s with
        length_reveals := Slots.length_store ..
        reveals := fun hj => Slots.admitted?_store hj .. }

/-! ## What has arrived -/

def rounds (params : Parameters) : List (Round State Payload Outcome) :=
  [commitRound params, ackRound params, revealRound params, concludeRound]

theorem getElem?_rounds {params : Parameters} {k : ℕ} {round : Round State Payload Outcome}
    (h : (rounds params)[k]? = some round) :
    (k = 0 ∧ round = commitRound params) ∨ (k = 1 ∧ round = ackRound params) ∨
      (k = 2 ∧ round = revealRound params) ∨ (k = 3 ∧ round = concludeRound) := by
  rcases k with _ | _ | _ | _ | k
  · exact Or.inl ⟨rfl, (Option.some.inj h).symm⟩
  · exact Or.inr (Or.inl ⟨rfl, (Option.some.inj h).symm⟩)
  · exact Or.inr (Or.inr (Or.inl ⟨rfl, (Option.some.inj h).symm⟩))
  · exact Or.inr (Or.inr (Or.inr ⟨rfl, (Option.some.inj h).symm⟩))
  · cases h

theorem mem_rounds_iff {params : Parameters} {round : Round State Payload Outcome} :
    round ∈ rounds params ↔ round = commitRound params ∨ round = ackRound params ∨
      round = revealRound params ∨ round = concludeRound := by
  simp [rounds]

theorem hasCommit_mono (hs : s.Extends s') {j : ℕ} (h : hasCommit s j = true) :
    hasCommit s' j = true := by
  obtain ⟨c, hc⟩ := Option.isSome_iff_exists.1 h
  exact Option.isSome_iff_exists.2 ⟨c, hs.commits hc⟩

theorem hasAck_mono (hs : s.Extends s') {j : ℕ} (h : hasAck s j = true) :
    hasAck s' j = true := by
  obtain ⟨u, hu⟩ := Option.isSome_iff_exists.1 h
  exact Option.isSome_iff_exists.2 ⟨u, hs.acks hu⟩

theorem hasReveal_mono (hs : s.Extends s') {j : ℕ} (h : hasReveal s j = true) :
    hasReveal s' j = true := by
  rw [hasReveal, Bool.and_eq_true] at h ⊢
  obtain ⟨x, hx⟩ := Option.isSome_iff_exists.1 h.1
  obtain ⟨o, ho⟩ := Option.isSome_iff_exists.1 h.2
  exact ⟨Option.isSome_iff_exists.2 ⟨x, hs.shares hx⟩,
    Option.isSome_iff_exists.2 ⟨o, hs.reveals ho⟩⟩

theorem hasArrived_mono (hs : s.Extends s') {params : Parameters}
    {round : Round State Payload Outcome} (hround : round ∈ rounds params) {j : ℕ}
    (hj : round.hasArrived s j = true) : round.hasArrived s' j = true := by
  rcases mem_rounds_iff.1 hround with rfl | rfl | rfl | rfl
  · exact hasCommit_mono hs hj
  · exact hasAck_mono hs hj
  · exact hasReveal_mono hs hj
  · cases hj

end ThresholdKeys.Reshare
