import ThresholdKeys.Curve.Params
import ThresholdKeys.Party.Committee
import ThresholdKeys.Schnorr

/-!
# Parameters of key generation

Who takes part, which of the participants this party is, and how many shares do not suffice to
recover the key.
-/

namespace ThresholdKeys

def checkThreshold (threshold count : Nat) : Result Unit :=
  if threshold = 0 ∨ count ≤ threshold then .error (.badInput (.thresholdRange threshold count))
  else .ok ()

namespace Keygen

structure Parameters where
  curve : CurveParams
  parties : Committee
  /-- This party, as the committee lists it. -/
  id : PartyId
  threshold : Nat
  version : Version

namespace Parameters

def make (curve : CurveParams) (parties : Committee) (id : PartyId) (threshold : Nat)
    (version : Version) : Result Parameters := do
  checkThreshold threshold parties.size
  match parties.find? id with
  | some id => return ⟨curve, parties, id, threshold, version⟩
  | none => throw (.badInput (.notParticipant id))

def index (p : Parameters) : Nat := p.id.index.getD 0

end Parameters

end Keygen

end ThresholdKeys
