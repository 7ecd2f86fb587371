import Mathlib
import ThresholdKeys.Proofs.Sharing.Dealing

/-!
# Evaluation in the exponent

Horner's rule on published points adds up the points, each times a power of the evaluation point. It
is linear in the points and evaluates the polynomial whose coefficients they hide. So it makes no
difference whether the points of several dealers are first added up and then evaluated, as both
protocols do it, or the other way round.
-/

namespace ThresholdKeys

theorem evaluateCommitments_zipWith (a b x : Scalar) {vs ws : List Point}
    (hlen : vs.length = ws.length) :
    evaluateCommitments (List.zipWith (fun v w => a • v + b • w) vs ws) x =
      a • evaluateCommitments vs x + b • evaluateCommitments ws x := by
  induction vs generalizing ws with
  | nil =>
      obtain rfl := List.length_eq_zero_iff.1 hlen.symm
      change (0 : Point) = a • 0 + b • 0
      rw [smul_zero, smul_zero, add_zero]
  | cons v rest ih =>
      cases ws with
      | nil => cases hlen
      | cons w rest' =>
          rw [List.zipWith_cons_cons, evaluateCommitments_cons, ih (Nat.succ.inj hlen),
            evaluateCommitments_cons, evaluateCommitments_cons, smul_add, smul_add, smul_add,
            smul_comm x a, smul_comm x b]
          exact add_add_add_comm ..

/-- What the evaluation of published points at `x` comes to. -/
structure EvaluatesInExponent (x : Scalar) : Prop where
  eq_sum : ∀ vs : List Point,
    evaluateCommitments vs x = ∑ c ∈ Finset.range vs.length, x ^ c • vs.getD c 0
  linear : ∀ (a b : Scalar) (vs ws : List Point), vs.length = ws.length →
    evaluateCommitments (List.zipWith (fun v w => a • v + b • w) vs ws) x =
      a • evaluateCommitments vs x + b • evaluateCommitments ws x
  /-- The points that hide coefficients are evaluated to what hides the value of the polynomial. -/
  polynomial : ∀ coefficients : List Scalar,
    evaluateCommitments (coefficients.map (· • Point.generator)) x =
        evaluatePolynomial coefficients x • Point.generator ∧
      evaluatePolynomial coefficients x =
        ∑ c ∈ Finset.range coefficients.length, coefficients.getD c 0 * x ^ c
  /-- The points of several dealers may be added up before or after. -/
  sum : ∀ (count : ℕ) (dealt : List (List Point)), (∀ vs ∈ dealt, vs.length = count) →
    evaluateCommitments (sumCommitments count dealt) x =
      Point.sum (dealt.map fun vs => evaluateCommitments vs x)

theorem evaluatesInExponent (x : Scalar) : EvaluatesInExponent x where
  eq_sum vs := evaluateCommitments_eq_sum vs x
  linear a b vs ws hlen := evaluateCommitments_zipWith a b x hlen
  polynomial coefficients :=
    ⟨evaluateCommitments_map_generator coefficients x, evaluatePolynomial_eq_sum coefficients x⟩
  sum count dealt hlen := by
    rw [evaluateCommitments_sumCommitments hlen, Point.sum_eq_sum]

theorem evaluatesInExponent_two :
    evaluateCommitments ([(1 : Scalar), 0, 3].map (· • Point.generator)) 2 =
        (13 : Scalar) • Point.generator ∧
      evaluateCommitments (sumCommitments 3 [[Point.generator, 0, 0], [0, 0, Point.generator]]) 2 =
        Point.sum [evaluateCommitments [Point.generator, 0, 0] 2,
          evaluateCommitments [0, 0, Point.generator] 2] := by
  have hvalue : evaluatePolynomial [1, 0, 3] 2 = 13 := by decide +kernel
  have hlen : ∀ vs ∈ [[Point.generator, 0, 0], [0, 0, Point.generator]], vs.length = 3 := by
    rw [List.forall_mem_cons, List.forall_mem_singleton]
    exact ⟨rfl, rfl⟩
  refine ⟨?_, (evaluatesInExponent 2).sum 3 _ hlen⟩
  rw [((evaluatesInExponent 2).polynomial [1, 0, 3]).1, hvalue]

end ThresholdKeys
