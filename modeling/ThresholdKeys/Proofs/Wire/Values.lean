import Mathlib
import ThresholdKeys.Keygen.Payload
import ThresholdKeys.Proofs.Curve.Encoding
import ThresholdKeys.Proofs.Encoding
import ThresholdKeys.Proofs.Engine.Routing
import ThresholdKeys.Proofs.Wire.Codec
import ThresholdKeys.Reshare.Payload

/-!
# What is sent comes back

Digests, scalars and points come back whatever they are. Openings and shares hold lists and numbers
of a fixed width, so they come back as long as their lengths and thresholds fit that width, which is
that of a machine word. So do the contents of the messages, and the messages themselves.
-/

namespace ThresholdKeys

namespace Codec

theorem restores_digest (d : Digest) : digest.Restores d := by
  have hraw := restores_raw d.bytes
  rw [d.length_eq] at hraw
  exact hraw.refine (dif_pos d.length_eq)

theorem restores_scalar (s : Scalar) : scalar.Restores s := by
  have hraw : (raw 32).Restores s.toBytes := by
    have h := restores_raw s.toBytes
    rwa [show s.toBytes.length = 32 from Bytes.length_bigEndian 32 s.val] at h
  exact hraw.refine (Scalar.ofBytes?_eq_some_iff.2 s.toInteger_eq)

theorem restores_point (p : Point) : point.Restores p := by
  have hlength : p.toStandardBytes.length < 2 ^ 64 :=
    p.length_toStandardBytes_le.trans_lt (by norm_num)
  exact (restores_bytes hlength).refine p.ofStandardBytes?_toStandardBytes

theorem restores_commitment (c : Commitment) : commitment.Restores c :=
  (restores_digest c.digest).convert rfl

theorem restores_opening {o : Opening} (h : Bytes.Fits o.elements) : opening.Restores o := by
  have helements : (list integer).Restores o.elements :=
    restores_list h.1 fun n hn => restores_integer (h.2 n hn)
  exact helements.convert rfl

theorem restores_share {s : Share} (h : s.threshold < 2 ^ 64) : share.Restores s := by
  have hfields : (u64.pair (scalar.pair scalar)).Restores (s.threshold, s.id, s.value) :=
    (restores_u64 h).pair ((restores_scalar s.id).pair (restores_scalar s.value))
  exact hfields.convert (b := s) rfl

theorem restores_proof (p : Schnorr.Proof) : proof.Restores p := by
  have hfields : (point.pair scalar).Restores (p.commitment, p.response) :=
    (restores_point p.commitment).pair (restores_scalar p.response)
  exact hfields.convert (b := p) rfl

end Codec

/-! ## Contents -/

/-- The threshold, the number of integers and the size of each of them are machine words. -/
def Keygen.Payload.Fits : Keygen.Payload → Prop
  | commit _ => True
  | share s => s.threshold < 2 ^ 64
  | reveal o _ => Bytes.Fits o.elements

theorem Keygen.Payload.restores {c : Keygen.Payload} (h : c.Fits) : codec.Restores c := by
  intro rest
  simp only [codec]
  cases c with
  | commit c =>
      exact (Codec.restores_commitment c).decodeTagged 0 (by decide) rfl rest
  | share s =>
      exact (Codec.restores_share h).decodeTagged 1 (by decide) rfl rest
  | reveal o p =>
      have hparts := (Codec.restores_opening h).pair (Codec.restores_proof p)
      exact (hparts.decodeTagged 2 (by decide) rfl rest).trans rfl

/-- The threshold, the number of integers and the size of each of them are machine words. -/
def Reshare.Payload.Fits : Reshare.Payload → Prop
  | commit _ | ack => True
  | share s => s.threshold < 2 ^ 64
  | reveal o => Bytes.Fits o.elements

theorem Reshare.Payload.restores {c : Reshare.Payload} (h : c.Fits) : codec.Restores c := by
  intro rest
  simp only [codec]
  cases c with
  | commit c =>
      exact (Codec.restores_commitment c).decodeTagged 0 (by decide) rfl rest
  | ack => exact (Codec.decodeTagged_encode 1 (by decide) rfl rest).trans rfl
  | share s =>
      exact (Codec.restores_share h).decodeTagged 2 (by decide) rfl rest
  | reveal o =>
      exact (Codec.restores_opening h).decodeTagged 3 (by decide) rfl rest

/-! ## Messages -/

theorem Scope.restores (s : Scope) : codec.Restores s := by
  unfold codec
  apply Codec.Restores.refine
  · exact Codec.restores_u32 (by cases s <;> decide)
  · cases s <;> rfl

theorem Message.survivesWire {C : Type} [Content C] {m : Message C}
    (h : (Content.codec : Codec C).Restores m.content) : m.SurvivesWire := by
  intro suffix sender recipients isBroadcast
  have hm : (codec C).Restores (m.scope, m.content) := (Scope.restores m.scope).pair h
  rw [ofWire, toWire, hm.decodeFront?]

end ThresholdKeys
