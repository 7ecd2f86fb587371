import ThresholdKeys.Curve.Params
import ThresholdKeys.Random.Source
import ThresholdKeys.Transcript

/-!
# Proofs of knowledge of an exponent

Schnorr proofs made non-interactive by a transcript: the prover shows that it knows the scalar by
which the generator gives a public point. The protocol version says how the challenge is drawn
from the transcript.
-/

namespace ThresholdKeys

/-- How a challenge is made from transcript bytes: one digest reduced modulo the group order, or
digests until one is below it. -/
inductive Version
  | v1
  | v2
deriving DecidableEq

namespace Version

def default : Version := v2

def describe : Version → String
  | v1 => "v1 (single digest reduced modulo the group order)"
  | v2 => "v2 (digest rejection-sampled below the group order)"

end Version

namespace Schnorr

structure Statement where
  curve : CurveParams
  point : Point
  version : Version

structure Proof where
  commitment : Point
  response : Scalar
deriving DecidableEq

def maxRetries : Nat := 500

/-- Draws digests, numbered from `counter` on, until one is below the group order. -/
def sampleChallenge : Nat → Nat → Transcript → Result Scalar
  | 0, _, _ => .error .retriesExhausted
  | tries + 1, counter, t =>
      let (bytes, t) :=
        (t.appendNumber "challenge counter" counter).challenge "sampling randomness" 32
      match Scalar.ofBytes? bytes with
      | some e => .ok e
      | none => sampleChallenge tries (counter + 1) t

def challengeOf (t : Transcript) : Version → Result Scalar
  | .v1 =>
      match Scalar.ofInteger? (Bytes.ofBigEndian (t.challenge "challenge" 32).1) with
      | some e => .ok e
      | none => .error .brokenInvariant
  | .v2 => sampleChallenge maxRetries 0 t

def challenge (s : Statement) (commitment : Point) (t : Transcript) : Result Scalar :=
  let t := t.append "PiSchProof" []
  let t := t.append "curve" s.curve.toBytes
  let t := t.append "X" s.point.toBytes
  let t := t.append "g" s.curve.generator.toBytes
  let t := t.append "A" commitment.toBytes
  challengeOf t s.version

def prove (s : Statement) (witness : Scalar) (t : Transcript) (source : Source) :
    Result (Proof × Source) := do
  let (α, source) := source.nextNonzeroScalar
  let commitment := α • s.curve.generator
  let e ← challenge s commitment t
  return (⟨commitment, α + e * witness⟩, source)

/-- Whether a proof holds for a statement under the challenge that the transcript gives. -/
def Proof.verify (p : Proof) (s : Statement) (t : Transcript) : Result Unit :=
  if s.point.isIdentity || p.commitment.isIdentity then .error (.proof .identity)
  else do
    let e ← challenge s p.commitment t
    if p.response • s.curve.generator = p.commitment + e • s.point then .ok ()
    else .error (.proof .equation)

def describeWitness (_ : Scalar) : String := "PiSchSecret([redacted])"

end Schnorr

end ThresholdKeys
