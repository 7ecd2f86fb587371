import Mathlib
import ThresholdKeys.Proofs.Curve.Order
import ThresholdKeys.Proofs.Result
import ThresholdKeys.Proofs.Sharing.Dealing
import ThresholdKeys.Schnorr

/-!
# The equation behind proofs of knowledge

A proof is accepted exactly when it answers the challenge that the transcript gives for it. What a
prover makes from a scalar answers its challenge exactly if the scalar fits the statement or the
challenge is zero; so a proof that is made from a fitting scalar other than zero is accepted.
-/

namespace ThresholdKeys

namespace Schnorr

/-- The equation of proofs holds under the challenge `e`, and neither the statement nor the first
message is about the identity. -/
structure Proof.Answers (p : Proof) (s : Statement) (e : Scalar) : Prop where
  point_ne : s.point ≠ 0
  commitment_ne : p.commitment ≠ 0
  equation : p.response • s.curve.generator = p.commitment + e • s.point

theorem verify_eq_ok_iff {p : Proof} {s : Statement} {t : Transcript} :
    p.verify s t = .ok () ↔ ∃ e, challenge s p.commitment t = .ok e ∧ p.Answers s e := by
  have hidentity : (s.point.isIdentity || p.commitment.isIdentity) = true ↔
      s.point = 0 ∨ p.commitment = 0 := by
    rw [Bool.or_eq_true, Point.isIdentity_eq_true_iff, Point.isIdentity_eq_true_iff]
  unfold Proof.verify
  by_cases hzero : s.point = 0 ∨ p.commitment = 0
  · rw [if_pos (hidentity.2 hzero)]
    refine iff_of_false (by simp) ?_
    rintro ⟨e, -, h⟩
    exact hzero.elim h.point_ne h.commitment_ne
  · rw [if_neg (mt hidentity.1 hzero), Result.bind_eq_ok_iff]
    obtain ⟨hpoint, hcommitment⟩ := not_or.1 hzero
    refine exists_congr fun e => and_congr_right fun _ => ?_
    split
    · rename_i hequation
      exact iff_of_true rfl ⟨hpoint, hcommitment, hequation⟩
    · rename_i hequation
      exact iff_of_false (by simp) fun h => hequation h.equation

-- The proof is explicit: to find it by unification means to compute the transcript.
theorem verify_iff_answers (p : Proof) {s : Statement} {t : Transcript} {e : Scalar}
    (he : challenge s p.commitment t = .ok e) : p.verify s t = .ok () ↔ p.Answers s e := by
  simp [verify_eq_ok_iff, he]

def proofOf (s : Statement) (witness nonce e : Scalar) : Proof :=
  ⟨nonce • s.curve.generator, nonce + e * witness⟩

theorem prove_eq_ok {s : Statement} {witness e : Scalar} {t : Transcript} {source : Source}
    (he : challenge s (source.nextNonzeroScalar.1 • s.curve.generator) t = .ok e) :
    prove s witness t source =
      .ok (proofOf s witness source.nextNonzeroScalar.1 e, source.nextNonzeroScalar.2) := by
  rw [prove]
  dsimp only
  rw [he]
  rfl

/-- Whatever the prover gives out is made for the challenge that the verifier will draw. -/
theorem proofOf_of_prove {s : Statement} {witness : Scalar} {t : Transcript}
    {source source' : Source} {proof : Proof} (h : prove s witness t source = .ok (proof, source')) :
    ∃ e, challenge s proof.commitment t = .ok e ∧
      proof = proofOf s witness source.nextNonzeroScalar.1 e := by
  obtain ⟨e, he, hproof⟩ := Result.bind_eq_ok_iff.1 h
  obtain ⟨rfl, -⟩ := Prod.mk.inj (Except.ok.inj hproof)
  exact ⟨e, he, rfl⟩

section Sampling

-- unfolded, the draws would be evaluated down to the permutation of the sponge
attribute [local irreducible] Transcript.challenge Transcript.appendNumber Scalar.ofBytes?

theorem sampleChallenge_succ (tries counter : ℕ) (t : Transcript) :
    sampleChallenge (tries + 1) counter t =
      match (t.appendNumber "challenge counter" counter).challenge "sampling randomness" 32 with
      | (bytes, t) =>
        match Scalar.ofBytes? bytes with
        | some e => .ok e
        | none => sampleChallenge tries (counter + 1) t :=
  rfl

theorem sampleChallenge_eq_error {tries counter : ℕ} {t : Transcript} {e : Error}
    (h : sampleChallenge tries counter t = .error e) : e = .retriesExhausted := by
  induction tries generalizing counter t with
  | zero => exact (Except.error.inj h).symm
  | succ tries ih =>
      rw [sampleChallenge_succ] at h
      split at h
      split at h
      · cases h
      · exact ih h

end Sampling

theorem challengeOf_v1 (t : Transcript) : challengeOf t .v1 =
    .ok (Scalar.ofNat (Bytes.ofBigEndian (t.challenge "challenge" 32).1)) := by
  rw [challengeOf, Scalar.ofInteger?_eq]

theorem challengeOf_eq_error {t : Transcript} {version : Version} {e : Error}
    (h : challengeOf t version = .error e) : e = .retriesExhausted := by
  cases version with
  | v1 => rw [challengeOf_v1] at h; cases h
  | v2 => exact sampleChallenge_eq_error h

/-- A prover fails only if it finds no challenge. -/
theorem prove_eq_error {s : Statement} {witness : Scalar} {t : Transcript} {source : Source}
    {e : Error} (h : prove s witness t source = .error e) : e = .retriesExhausted := by
  rcases Result.bind_eq_error_iff.1 h with h | ⟨e', -, h⟩
  · exact challengeOf_eq_error h
  · cases h

theorem exists_challengeOf_v1 (t : Transcript) : ∃ e, challengeOf t .v1 = .ok e :=
  ⟨_, challengeOf_v1 t⟩

theorem point_ne_zero {s : Statement} {witness : Scalar}
    (hpoint : s.point = witness • Point.generator) (hwitness : witness ≠ 0) : s.point ≠ 0 :=
  hpoint.trans_ne (smul_ne_zero hwitness Point.generator_ne_zero)

section Generator

variable {s : Statement} (hgenerator : s.curve.generator = Point.generator)

include hgenerator

/-- The nonce cancels: what is left is that the challenge times the point is the challenge times the
multiple by the witness. -/
theorem answers_proofOf_iff {witness nonce e : Scalar} (hnonce : nonce ≠ 0) :
    (proofOf s witness nonce e).Answers s e ↔
      s.point ≠ 0 ∧ (s.point = witness • Point.generator ∨ e = 0) := by
  have hcommitment : (proofOf s witness nonce e).commitment ≠ 0 := by
    rw [proofOf, hgenerator]
    exact smul_ne_zero hnonce Point.generator_ne_zero
  have hequation : (proofOf s witness nonce e).response • s.curve.generator =
      (proofOf s witness nonce e).commitment + e • s.point ↔
        s.point = witness • Point.generator ∨ e = 0 := by
    rw [proofOf, hgenerator, add_smul, mul_smul, add_right_inj, ← sub_eq_zero, ← smul_sub,
      smul_eq_zero, sub_eq_zero, or_comm, eq_comm]
  exact ⟨fun h => ⟨h.point_ne, hequation.1 h.equation⟩,
    fun h => ⟨h.1, hcommitment, hequation.2 h.2⟩⟩

/-- When a verifier accepts what a prover has made from a scalar. -/
theorem verify_iff_of_prove {witness : Scalar} {t : Transcript} {source source' : Source}
    {proof : Proof} (h : prove s witness t source = .ok (proof, source')) :
    ∃ e, challenge s proof.commitment t = .ok e ∧ (proof.verify s t = .ok () ↔
      s.point ≠ 0 ∧ (s.point = witness • Point.generator ∨ e = 0)) := by
  obtain ⟨e, he, rfl⟩ := proofOf_of_prove h
  refine ⟨e, he, (verify_iff_answers _ he).trans ?_⟩
  exact answers_proofOf_iff hgenerator source.nextNonzeroScalar_ne_zero

variable {witness : Scalar} (hpoint : s.point = witness • Point.generator) (hwitness : witness ≠ 0)

include hpoint hwitness

theorem verify_proofOf {nonce e : Scalar} {t : Transcript} (hnonce : nonce ≠ 0)
    (he : challenge s (nonce • s.curve.generator) t = .ok e) :
    (proofOf s witness nonce e).verify s t = .ok () := by
  rw [verify_iff_answers (proofOf s witness nonce e) he, answers_proofOf_iff hgenerator hnonce]
  exact ⟨point_ne_zero hpoint hwitness, .inl hpoint⟩

theorem verify_of_prove {t : Transcript} {source source' : Source} {proof : Proof}
    (h : prove s witness t source = .ok (proof, source')) : proof.verify s t = .ok () := by
  obtain ⟨e, -, hverify⟩ := verify_iff_of_prove hgenerator h
  exact hverify.2 ⟨point_ne_zero hpoint hwitness, .inl hpoint⟩

end Generator

end Schnorr

end ThresholdKeys
