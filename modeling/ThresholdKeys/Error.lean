import ThresholdKeys.Party.Id

/-!
# What can go wrong

A call fails because the caller misused it, because peers misbehaved, or because an assumption of
this library did not hold. Each cause has one constructor; the wording is in one function.
-/

namespace ThresholdKeys

inductive InputProblem
  | noParticipants
  | duplicateKey (party : PartyId)
  | notParticipant (party : PartyId)
  | thresholdRange (threshold parties : Nat)
  | oldCommitteeTooSmall
  | inNeitherCommittee (party : PartyId)
  | curveRegistered (name : String)
  | curveMismatch (name : String)
  | unknownCurve (name : String)
  | notInQuorum
  | holdsNoShare (party : PartyId)
  | holdsNoKeyShare (party : PartyId)
  | publicShareCount
  | publicKeyMismatch
  | secretShareMissing
  | oldMemberWithoutIndex
  | secretShareMismatch
deriving DecidableEq

inductive CallerError
  | alreadyStarted
  | notStarted
  | alreadyTerminated
  | invalidMessage (kind : String)
  | malformedParty (party : PartyId)
  | badInput (problem : InputProblem)
  | undecodable
deriving DecidableEq

/-- What the blamed parties did. -/
inductive FaultCause
  | senderIndexOutOfRange
  | sentByReceiver
  | senderNotParticipant
  | senderNotOnCommittee
  | peerContribution
  | dealerContribution
  | other (text : String)
deriving DecidableEq

/-- A fault that peers are to blame for. -/
structure Fault where
  task : String
  round : Nat
  culprits : List PartyId
  cause : FaultCause
deriving DecidableEq

inductive ProofProblem
  | identity
  | equation
deriving DecidableEq

inductive ArgumentProblem
  | zeroPoint
  | thresholdTooLarge
  | lagrangeIndex
  | lengthMismatch
  | oddCoordinateCount
deriving DecidableEq

inductive Error
  | caller (e : CallerError)
  | fault (f : Fault)
  | serialization
  | proof (problem : ProofProblem)
  | brokenInvariant
  | notInvertible
  | retriesExhausted
  | argument (problem : ArgumentProblem)
  | insufficientShares (required got : Nat)
  | duplicateEvaluator
deriving DecidableEq

abbrev Result (α : Type) := Except Error α

namespace InputProblem

def message : InputProblem → String
  | noParticipants => "empty participant list"
  | duplicateKey p => "duplicate party key " ++ p.label
  | notParticipant p => "party " ++ p.label ++ " is not a participant"
  | thresholdRange t n =>
      "threshold must satisfy 0 < t < n, got t = " ++ toString t ++ ", n = " ++ toString n
  | oldCommitteeTooSmall => "old committee is smaller than its threshold quorum"
  | inNeitherCommittee p => "party " ++ p.label ++ " is in neither committee"
  | curveRegistered name => "curve `" ++ name ++ "` is already registered"
  | curveMismatch name => "curve `" ++ name ++ "` does not match the arithmetic backend"
  | unknownCurve name => "unknown curve `" ++ name ++ "`"
  | notInQuorum => "quorum does not contain this party"
  | holdsNoShare p => p.label ++ " holds no share of this key"
  | holdsNoKeyShare p => p.label ++ " does not hold a key share"
  | publicShareCount => "one public share per old committee member is required"
  | publicKeyMismatch => "old public shares do not match the public key"
  | secretShareMissing => "old committee members need a secret share"
  | oldMemberWithoutIndex => "old committee id carries no index"
  | secretShareMismatch => "secret share does not match its public share"

end InputProblem

namespace CallerError

def message : CallerError → String
  | alreadyStarted => "The party was already started"
  | notStarted => "The party has not been started"
  | alreadyTerminated => "The protocol has already terminated for this party"
  | invalidMessage kind => "Message failed basic validation: " ++ kind
  | malformedParty p => "Malformed party identifier: " ++ p.label
  | badInput problem => "Bad input: " ++ problem.message
  | undecodable => "Could not deserialize message bytes"

end CallerError

namespace FaultCause

def message : FaultCause → String
  | senderIndexOutOfRange => "sender index out of range"
  | sentByReceiver => "message appears to be sent by the receiving party"
  | senderNotParticipant => "sender is not a participant"
  | senderNotOnCommittee => "sender is not a member of the sending committee"
  | peerContribution => "peer contribution failed verification"
  | dealerContribution => "dealer contribution failed verification"
  | other text => text

end FaultCause

namespace Fault

def message (f : Fault) : String :=
  "task `" ++ f.task ++ "`, round " ++ toString f.round ++ ", culprits " ++
    Text.bracketed (f.culprits.map PartyId.describe) ++ ": " ++ f.cause.message

end Fault

namespace ProofProblem

def message : ProofProblem → String
  | identity => "Schnorr statement or commitment is the identity"
  | equation => "Schnorr equality check failed"

end ProofProblem

namespace ArgumentProblem

def message : ArgumentProblem → String
  | zeroPoint => "evaluation point is zero"
  | thresholdTooLarge => "threshold must be smaller than the number of evaluators"
  | lagrangeIndex => "lagrange index out of range"
  | lengthMismatch => "evaluation points and public shares differ in length"
  | oddCoordinateCount => "flattened point list has odd length"

end ArgumentProblem

namespace Error

def badInput (problem : InputProblem) : Error := caller (.badInput problem)

def message : Error → String
  | caller e => "Calling application mistake: " ++ e.message
  | fault f => "Protocol fault: " ++ f.message
  | serialization => "Serialization Error"
  | proof problem => "Failed to verify proof: `" ++ problem.message ++ "`"
  | brokenInvariant =>
      "Represents some code assumption that was checked at runtime but failed to be true"
  | notInvertible => "Could not invert a Scalar"
  | retriesExhausted => "Reached the maximum allowed number of retries"
  | argument problem => "Function call contained invalid arguments: `" ++ problem.message ++ "`"
  | insufficientShares required got =>
      "Reconstruction needs at least " ++ toString required ++ " shares, got " ++ toString got
  | duplicateEvaluator => "Two shares were evaluated at the same point"

end Error

end ThresholdKeys
