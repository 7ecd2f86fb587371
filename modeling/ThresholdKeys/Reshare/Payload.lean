import ThresholdKeys.Message
import ThresholdKeys.Wire.Values

/-!
# Messages of resharing

Old members broadcast a commitment in round 1, new members acknowledge in round 2 that they hold
all commitments, and old members send the shares and broadcast the opening in round 3.
-/

namespace ThresholdKeys.Reshare

inductive Payload
  | commit (commitment : Commitment)
  | ack
  | share (share : Share)
  | reveal (opening : Opening)
deriving DecidableEq

namespace Payload

def byBroadcast : Payload → Bool
  | share _ => false
  | commit _ | ack | reveal _ => true

def round : Payload → Nat
  | commit _ => 1
  | ack => 2
  | share _ | reveal _ => 3

def kind : Payload → String
  | commit _ => "ReshareRound1Commit"
  | ack => "ReshareRound2Ack"
  | share _ => "ReshareRound3Share"
  | reveal _ => "ReshareRound3Decommit"

def IsPlausible : Payload → Prop
  | commit _ | ack => True
  | share s => s.Plausible
  | reveal o => o.HoldsPairs

instance : DecidablePred IsPlausible
  | commit _ | ack => inferInstanceAs (Decidable True)
  | share s => inferInstanceAs (Decidable s.Plausible)
  | reveal o => inferInstanceAs (Decidable o.HoldsPairs)

def codec : Codec Payload where
  encode
    | commit c => Codec.u32.encode 0 ++ Codec.commitment.encode c
    | ack => Codec.u32.encode 1
    | share s => Codec.u32.encode 2 ++ Codec.share.encode s
    | reveal o => Codec.u32.encode 3 ++ Codec.opening.encode o
  decode := Codec.decodeTagged fun
    | 0 => some (Codec.commitment.decodeAs commit)
    | 1 => some fun rest => some (ack, rest)
    | 2 => some (Codec.share.decodeAs share)
    | 3 => some (Codec.opening.decodeAs reveal)
    | _ => none

instance : Content Payload where
  round := round
  kind := kind
  isPlausible p := decide p.IsPlausible
  codec := codec

/-- A round admits the contents that are sent in it if they came the way they have to. -/
def isAdmittedIn (number : Nat) (m : Message Payload) : Bool :=
  m.content.round = number && m.isBroadcast == m.content.byBroadcast

end Payload

end ThresholdKeys.Reshare
