import ThresholdKeys.Sharing.Lagrange
import ThresholdKeys.Wire.Values

/-!
# Key shares

What a party keeps after a run: its secret share, the public shares of all participants and the
public key. Any `threshold + 1` participants can weight their shares so that the weights add up to
the secret key.
-/

namespace ThresholdKeys

structure KeyShare where
  threshold : Nat
  parties : Committee
  index : Nat
  secret : Scalar
  publicShares : List Point
  publicKey : Point
deriving DecidableEq

namespace KeyShare

/-- Refuses lists of unequal length and a secret that does not belong to its public share. -/
def make (threshold : Nat) (parties : Committee) (index : Nat) (secret : Scalar)
    (publicShares : List Point) (publicKey : Point) : Result KeyShare :=
  if publicShares.length ≠ parties.size ∨ parties.size ≤ index then .error .brokenInvariant
  else if publicShares[index]? ≠ some (secret • Point.generator) then .error .brokenInvariant
  else .ok ⟨threshold, parties, index, secret, publicShares, publicKey⟩

def party? (k : KeyShare) : Option PartyId := k.parties.get? k.index

def publicShareOf? (k : KeyShare) (p : PartyId) : Option Point := do
  k.publicShares[← k.parties.position? p]?

/-- The public shares of the given parties, or the first party that has none. -/
def publicSharesOf (k : KeyShare) (missing : PartyId → InputProblem) (parties : List PartyId) :
    Result (List Point) :=
  parties.mapM fun p =>
    match k.publicShareOf? p with
    | some share => .ok share
    | none => .error (.badInput (missing p))

def signingWeight (k : KeyShare) (quorum : Committee) : Result SigningWeight :=
  -- the threshold of a run is below the number of participants, so one more fits a machine word
  if quorum.size < k.threshold + 1 then
    .error (.insufficientShares (k.threshold + 1) quorum.size)
  else
    match k.party? with
    | none => .error .brokenInvariant
    | some own =>
      match quorum.position? own with
      | none => .error (.badInput .notInQuorum)
      | some position => do
        let publicShares ← k.publicSharesOf .holdsNoShare quorum.members
        ThresholdKeys.signingWeight position k.secret (← quorum.points) publicShares

def codec : Codec KeyShare :=
  (Codec.u64.pair (Codec.committee.pair (Codec.u64.pair (Codec.scalar.pair
    ((Codec.list Codec.point).pair Codec.point))))).convert
      (fun k => (k.threshold, k.parties, k.index, k.secret, k.publicShares, k.publicKey))
      fun (threshold, parties, index, secret, publicShares, publicKey) =>
        ⟨threshold, parties, index, secret, publicShares, publicKey⟩

def describeHead (k : KeyShare) : String :=
  let parties := "SortedPartyIds(" ++ Text.bracketed (k.parties.members.map PartyId.describe) ++ ")"
  "KeygenOutput \x7b threshold: " ++ toString k.threshold ++ ", parties: " ++ parties ++
    ", index: " ++ toString k.index ++ ", xi: " ++ Text.quoted "[redacted]"

end KeyShare

end ThresholdKeys
