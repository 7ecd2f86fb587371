import ThresholdKeys.KeyShare
import ThresholdKeys.Reshare.Parameters

/-!
# What a party brings to resharing

The public key and the public shares of the old committee, and for members of the old committee
the secret share. The input is checked against the committees before a run.
-/

namespace ThresholdKeys.Reshare

structure Input where
  publicKey : Point
  /-- One for each old member, in the order of the old committee. -/
  oldShares : List Point
  secret : Option Scalar

namespace Input

/-- The input of an old member, from its key share. -/
def ofKeyShare (k : KeyShare) (old : Committee) : Result Input := do
  let oldShares ← k.publicSharesOf .holdsNoKeyShare old.members
  return ⟨k.publicKey, oldShares, some k.secret⟩

def ofNewMember (publicKey : Point) (oldShares : List Point) : Input :=
  ⟨publicKey, oldShares, none⟩

/-- The point at zero of the polynomial behind public shares at the points `ks`. -/
def interpolate (ks : List Scalar) (shares : List Point) : Result Point := do
  let terms ← shares.zipIdx.mapM fun (share, j) => (lagrangeCoefficient ks j).map (· • share)
  return Point.sum terms

def checkSecret (input : Input) (old : PartyId) : Result Unit :=
  match old.index with
  | none => .error (.badInput .oldMemberWithoutIndex)
  | some i =>
    match input.secret with
    | none => .error (.badInput .secretShareMissing)
    | some secret =>
      match input.oldShares[i]? with
      | none => .error .brokenInvariant
      | some share =>
        if secret • Point.generator = share then .ok ()
        else .error (.badInput .secretShareMismatch)

def check (input : Input) (params : Parameters) : Result Unit :=
  if input.oldShares.length ≠ params.old.size then .error (.badInput .publicShareCount)
  else do
    let ks ← params.old.points
    let key ← interpolate ks input.oldShares
    if key ≠ input.publicKey then throw (.badInput .publicKeyMismatch)
    else
      match params.oldId with
      | some old => input.checkSecret old
      | none => return ()

def describeTail : String := "secret_share: " ++ Text.quoted "[redacted]" ++ " \x7d"

end Input

end ThresholdKeys.Reshare
