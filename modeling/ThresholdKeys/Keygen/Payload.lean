import ThresholdKeys.Message
import ThresholdKeys.Wire.Values

/-!
# Messages of key generation

Every participant broadcasts a commitment in round 1. In round 2 it sends each other participant a
share and broadcasts the opening together with a proof that it knows the dealt secret.
-/

namespace ThresholdKeys.Keygen

inductive Payload
  | commit (commitment : Commitment)
  | share (share : Share)
  | reveal (opening : Opening) (proof : Schnorr.Proof)
deriving DecidableEq

namespace Payload

def byBroadcast : Payload → Bool
  | share _ => false
  | commit _ | reveal .. => true

def round : Payload → Nat
  | commit _ => 1
  | share _ | reveal .. => 2

def kind : Payload → String
  | commit _ => "KeygenRound1Commit"
  | share _ => "KeygenRound2Share"
  | reveal .. => "KeygenRound2Decommit"

def IsPlausible : Payload → Prop
  | commit _ => True
  | share s => s.Plausible
  | reveal o _ => o.HoldsPairs

instance : DecidablePred IsPlausible
  | commit _ => inferInstanceAs (Decidable True)
  | share s => inferInstanceAs (Decidable s.Plausible)
  | reveal o _ => inferInstanceAs (Decidable o.HoldsPairs)

def codec : Codec Payload where
  encode
    | commit c => Codec.u32.encode 0 ++ Codec.commitment.encode c
    | share s => Codec.u32.encode 1 ++ Codec.share.encode s
    | reveal o p => Codec.u32.encode 2 ++ (Codec.opening.pair Codec.proof).encode (o, p)
  decode := Codec.decodeTagged fun
    | 0 => some (Codec.commitment.decodeAs commit)
    | 1 => some (Codec.share.decodeAs share)
    | 2 => some ((Codec.opening.pair Codec.proof).decodeAs fun (o, p) => reveal o p)
    | _ => none

instance : Content Payload where
  round := round
  kind := kind
  isPlausible p := decide p.IsPlausible
  codec := codec

/-- A round admits the contents that are sent in it if they came the way they have to. -/
def isAdmittedIn (number : Nat) (m : Message Payload) : Bool :=
  m.content.round = number && m.isBroadcast == m.content.byBroadcast

end Payload

end ThresholdKeys.Keygen
