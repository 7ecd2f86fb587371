import ThresholdKeys.Engine.Slots
import ThresholdKeys.Reshare.Input
import ThresholdKeys.Reshare.Payload
import ThresholdKeys.Sharing.Reveal

/-!
# The state of a member

What an old member has dealt, and the slots for the messages that this member's committees
consume: new members take what dealers send, old members take acknowledgements. Everything else is
dropped.
-/

namespace ThresholdKeys.Reshare

def task : String := "reshare"

structure State where
  params : Parameters
  input : Input
  /-- The evaluation points of the old and of the new committee. -/
  oldPoints : List Scalar
  newPoints : List Scalar
  source : Source
  /-- The polynomial that an old member has dealt, and what opens its commitment. -/
  dealt : Option (Dealing × Opening) := none
  commits : Slots Commitment
  acks : Slots Unit
  shares : Slots Share
  reveals : Slots Opening

namespace State

def initial (params : Parameters) (input : Input) (source : Source) : Result State := do
  input.check params
  let oldPoints ← params.old.points
  let newPoints ← params.new.points
  let o := params.old.size
  return {
    params, input, oldPoints, newPoints, source
    commits := .empty o, acks := .empty params.new.size, shares := .empty o, reveals := .empty o }

/-- The position of a sender in the committee that it speaks for. -/
def seatOf (committee : Committee) (m : Message Payload) : Result Nat :=
  match committee.seat? m.sender with
  | some j => .ok j
  | none => .error (.fault ⟨task, m.round, [m.sender], .senderNotOnCommittee⟩)

def store (s : State) (m : Message Payload) : Result State :=
  let asNew (take : Nat → State) : Result State :=
    if s.params.isNew then (seatOf s.params.old m).map take else .ok s
  match m.content with
  | .commit c => asNew fun j => { s with commits := s.commits.store true j ⟨c, m.isBroadcast⟩ }
  | .ack =>
    if s.params.isOld then
      (seatOf s.params.new m).map fun j =>
        { s with acks := s.acks.store true j ⟨(), m.isBroadcast⟩ }
    else .ok s
  | .share x => asNew fun j => { s with shares := s.shares.store false j ⟨x, m.isBroadcast⟩ }
  | .reveal o => asNew fun j => { s with reveals := s.reveals.store true j ⟨o, m.isBroadcast⟩ }

end State

end ThresholdKeys.Reshare
