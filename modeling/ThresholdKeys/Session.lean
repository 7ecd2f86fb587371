import ThresholdKeys.Commitment
import ThresholdKeys.Curve.Params
import ThresholdKeys.Party.Committee
import ThresholdKeys.Transcript

/-!
# Sessions

A session binds one run: the task, the curve, the participants, the threshold and the first-round
commitments. Each sender has a transcript of its own in it, so a proof made by one sender in one
run is void for every other.
-/

namespace ThresholdKeys

structure Session where
  digest : Digest
deriving DecidableEq

namespace Session

/-- What is hashed. Every part of variable length stands behind its length. -/
def context (task : String) (curve : CurveParams) (parties : Committee) (threshold : Nat)
    (commitments : List Commitment) : Bytes :=
  Bytes.lengthPrefixed (Bytes.ofString task) ++ curve.toBytes ++ Bytes.be64 parties.size ++
    (parties.members.flatMap fun p => Bytes.lengthPrefixed (Bytes.minimal p.key)) ++
    Bytes.be64 threshold ++ commitments.flatMap fun c => c.digest.bytes

def new (task : String) (curve : CurveParams) (parties : Committee) (threshold : Nat)
    (commitments : List Commitment) : Session :=
  ⟨sha256 (context task curve parties threshold commitments)⟩

/-- The session as one sender sees it. -/
def bytesFor (s : Session) (sender : Nat) : Bytes := s.digest.bytes ++ Bytes.be64 sender

def transcriptFor (s : Session) (sender : Nat) : Transcript :=
  (Transcript.new "tss-rounds session").append "session" (s.bytesFor sender)

end Session

end ThresholdKeys
