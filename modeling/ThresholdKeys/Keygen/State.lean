import ThresholdKeys.Engine.Slots
import ThresholdKeys.Keygen.Parameters
import ThresholdKeys.Keygen.Payload
import ThresholdKeys.Session
import ThresholdKeys.Sharing.Reveal

/-!
# The state of a participant

What a participant has dealt, the session once it is fixed, and one slot a participant for each
kind of message. A message is taken up only from a participant that sits where it claims to.
-/

namespace ThresholdKeys.Keygen

def task : String := "keygen"

/-- The polynomial that a participant has dealt, kept until it is revealed. -/
structure Dealt where
  secret : Scalar
  dealing : Dealing
  opening : Opening

structure State where
  params : Parameters
  /-- The evaluation points of the participants. -/
  points : List Scalar
  source : Source
  dealt : Option Dealt := none
  session : Option Session := none
  commits : Slots Commitment
  shares : Slots Share
  reveals : Slots (Opening × Schnorr.Proof)

namespace State

def initial (params : Parameters) (source : Source) : Result State := do
  let points ← params.parties.points
  let n := params.parties.size
  return { params, points, source, commits := .empty n, shares := .empty n, reveals := .empty n }

def store (s : State) (m : Message Payload) : Result State :=
  match s.params.parties.seat? m.sender with
  | none => .error (.fault ⟨task, m.round, [m.sender], .senderNotParticipant⟩)
  | some j =>
    match m.content with
    | .commit c => .ok { s with commits := s.commits.store true j ⟨c, m.isBroadcast⟩ }
    | .share x => .ok { s with shares := s.shares.store false j ⟨x, m.isBroadcast⟩ }
    | .reveal o p => .ok { s with reveals := s.reveals.store true j ⟨(o, p), m.isBroadcast⟩ }

end State

end ThresholdKeys.Keygen
