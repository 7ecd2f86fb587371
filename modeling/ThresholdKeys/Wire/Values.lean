import ThresholdKeys.Commitment
import ThresholdKeys.Curve.Params
import ThresholdKeys.Party.Committee
import ThresholdKeys.Schnorr
import ThresholdKeys.Sharing.Share
import ThresholdKeys.Wire.Codec

/-!
# Codecs of the values that are sent and saved

Scalars and digests are thirty-two raw bytes, points are length-prefixed standard forms, and
records are their fields in order.
-/

namespace ThresholdKeys.Codec

def digest : Codec Digest := (raw 32).refine Digest.bytes Digest.ofBytes?

/-- Big-endian, and below the group order. -/
def scalar : Codec Scalar := (raw 32).refine Scalar.toBytes Scalar.ofBytes?

def point : Codec Point := bytes.refine Point.toStandardBytes Point.ofStandardBytes?

def commitment : Codec Commitment := digest.convert Commitment.digest Commitment.mk

def opening : Codec Opening := (list integer).convert Opening.elements Opening.mk

def share : Codec Share :=
  (u64.pair (scalar.pair scalar)).convert
    (fun s => (s.threshold, s.id, s.value)) fun (t, id, value) => ⟨t, id, value⟩

def proof : Codec Schnorr.Proof :=
  (point.pair scalar).convert (fun p => (p.commitment, p.response)) fun (a, z) => ⟨a, z⟩

def version : Codec Version :=
  u32.refine (fun v => match v with | .v1 => 0 | .v2 => 1)
    fun n => if n = 0 then some .v1 else if n = 1 then some .v2 else none

def partyId : Codec PartyId :=
  (string.pair (string.pair (integer.pair (option u64)))).convert
    (fun p => (p.id, p.moniker, p.key, p.index))
    fun (id, moniker, key, index) => ⟨id, moniker, key, index⟩

def committee : Codec Committee := (list partyId).convert Committee.members Committee.mk

def curveParams : Codec CurveParams :=
  (string.pair (integer.pair point)).convert (fun c => (c.name, c.order, c.generator))
    fun (name, order, generator) => ⟨name, order, generator⟩

end ThresholdKeys.Codec
