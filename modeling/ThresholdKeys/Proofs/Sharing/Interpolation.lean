import Mathlib
import ThresholdKeys.Proofs.Curve.Order
import ThresholdKeys.Proofs.Result
import ThresholdKeys.Reshare.Input

/-!
# Interpolation at zero

Horner's rule on coefficients and on published points is the evaluation of one polynomial. The
Lagrange coefficients of distinct points are its weights at zero: weighted values of a polynomial
of lower degree than there are points add up to its constant term, in the scalars and in the
exponent.
-/

namespace ThresholdKeys

open Polynomial

/-! ## Polynomials from their coefficients -/

noncomputable def polynomialOf (coefficients : List Scalar) : Scalar[X] :=
  coefficients.foldr (fun c p => p * X + C c) 0

theorem eval_polynomialOf (coefficients : List Scalar) (x : Scalar) :
    (polynomialOf coefficients).eval x = evaluatePolynomial coefficients x := by
  induction coefficients with
  | nil => simp [polynomialOf, evaluatePolynomial]
  | cons c rest ih =>
      simp only [polynomialOf, evaluatePolynomial, List.foldr_cons, eval_add, eval_mul, eval_X,
        eval_C] at ih ⊢
      rw [ih]

theorem degree_polynomialOf_lt (coefficients : List Scalar) :
    (polynomialOf coefficients).degree < coefficients.length := by
  induction coefficients with
  | nil => simp [polynomialOf]
  | cons c rest ih =>
      change (polynomialOf rest * X + C c).degree < ((rest.length + 1 : ℕ) : WithBot ℕ)
      refine (degree_add_le _ _).trans_lt (max_lt ?_ ?_)
      · by_cases h0 : polynomialOf rest = 0
        · rw [h0, zero_mul, degree_zero]
          exact WithBot.bot_lt_coe _
        · rw [degree_mul_X]
          rw [degree_eq_natDegree h0] at ih ⊢
          exact_mod_cast Nat.succ_lt_succ (by exact_mod_cast ih)
      · exact degree_C_le.trans_lt (by exact_mod_cast Nat.succ_pos _)

theorem coeff_polynomialOf (coefficients : List Scalar) (i : ℕ) :
    (polynomialOf coefficients).coeff i = coefficients.getD i 0 := by
  induction coefficients generalizing i with
  | nil => rfl
  | cons c rest ih =>
      change (polynomialOf rest * X + C c).coeff i = _
      cases i with
      | zero => rw [coeff_add, coeff_mul_X_zero, coeff_C_zero, zero_add, List.getD_cons_zero]
      | succ i => rw [coeff_add, coeff_mul_X, coeff_C_succ, add_zero, ih, List.getD_cons_succ]

/-- Every polynomial of at most the given degree comes from a list of coefficients. -/
theorem exists_polynomialOf_eq {f : Scalar[X]} {n : ℕ} (hf : f.natDegree ≤ n) :
    ∃ coefficients : List Scalar, coefficients.length = n + 1 ∧ polynomialOf coefficients = f := by
  refine ⟨(List.range (n + 1)).map f.coeff, by simp, ?_⟩
  ext i
  rw [coeff_polynomialOf, List.getD_eq_getElem?_getD, List.getElem?_map]
  by_cases hi : i < n + 1
  · rw [List.getElem?_range hi, Option.map_some, Option.getD_some]
  · have hdegree : f.natDegree < i := by omega
    rw [List.getElem?_eq_none (by simpa using hi), coeff_eq_zero_of_natDegree_lt hdegree]
    rfl

theorem evaluatePolynomial_cons (c : Scalar) (rest : List Scalar) (x : Scalar) :
    evaluatePolynomial (c :: rest) x = evaluatePolynomial rest x * x + c := rfl

theorem evaluatePolynomial_zero (coefficients : List Scalar) :
    evaluatePolynomial coefficients 0 = coefficients.headD 0 := by
  cases coefficients with
  | nil => rfl
  | cons c rest => rw [evaluatePolynomial_cons, mul_zero, zero_add, List.headD_cons]

theorem evaluatePolynomial_eq_sum (coefficients : List Scalar) (x : Scalar) :
    evaluatePolynomial coefficients x =
      ∑ c ∈ Finset.range coefficients.length, coefficients.getD c 0 * x ^ c := by
  induction coefficients with
  | nil => rfl
  | cons c rest ih =>
      rw [evaluatePolynomial_cons, ih, List.length_cons, Finset.sum_range_succ', Finset.sum_mul]
      simp only [List.getD_cons_succ, List.getD_cons_zero, pow_zero, mul_one, mul_assoc,
        ← pow_succ]

/-- Coefficients are known from the values at as many distinct points. -/
theorem eq_of_evaluatePolynomial_eq {ks : List Scalar} (hks : ks.Nodup) {cs cs' : List Scalar}
    (hlen : cs.length = ks.length) (hlen' : cs'.length = ks.length)
    (h : ∀ k ∈ ks, evaluatePolynomial cs k = evaluatePolynomial cs' k) : cs = cs' := by
  have hcard : ks.toFinset.card = ks.length := List.toFinset_card_of_nodup hks
  have hpolynomial : polynomialOf cs = polynomialOf cs' := by
    refine eq_of_degrees_lt_of_eval_finset_eq ks.toFinset ?_ ?_ fun k hk => ?_
    · rw [hcard, ← hlen]
      exact degree_polynomialOf_lt cs
    · rw [hcard, ← hlen']
      exact degree_polynomialOf_lt cs'
    · rw [eval_polynomialOf, eval_polynomialOf, h k (List.mem_toFinset.1 hk)]
  apply List.ext_getElem (hlen.trans hlen'.symm)
  intro i hi hi'
  have hcoeff := congrArg (fun f : Scalar[X] => f.coeff i) hpolynomial
  simpa only [coeff_polynomialOf, List.getD_eq_getElem _ _ hi, List.getD_eq_getElem _ _ hi']
    using hcoeff

theorem evaluateCommitments_cons (v : Point) (rest : List Point) (x : Scalar) :
    evaluateCommitments (v :: rest) x = x • evaluateCommitments rest x + v := rfl

theorem evaluateCommitments_zero (vs : List Point) : evaluateCommitments vs 0 = vs.headD 0 := by
  cases vs with
  | nil => rfl
  | cons v rest => rw [evaluateCommitments_cons, zero_smul, zero_add, List.headD_cons]

theorem evaluateCommitments_map_generator (coefficients : List Scalar) (x : Scalar) :
    evaluateCommitments (coefficients.map (· • Point.generator)) x =
      evaluatePolynomial coefficients x • Point.generator := by
  induction coefficients with
  | nil => exact (zero_smul Scalar Point.generator).symm
  | cons c rest ih =>
      rw [List.map_cons, evaluateCommitments_cons, evaluatePolynomial_cons, ih, smul_smul,
        ← add_smul, mul_comm]

theorem evaluateCommitments_eq_sum (vs : List Point) (x : Scalar) :
    evaluateCommitments vs x = ∑ c ∈ Finset.range vs.length, x ^ c • vs.getD c 0 := by
  induction vs with
  | nil => rfl
  | cons v rest ih =>
      rw [evaluateCommitments_cons, ih, List.length_cons, Finset.sum_range_succ', Finset.smul_sum]
      simp only [List.getD_cons_succ, List.getD_cons_zero, pow_zero, one_smul, smul_smul,
        ← pow_succ']

/-- Every list of points hides coefficients. -/
theorem exists_coefficients (vs : List Point) :
    ∃ coefficients : List Scalar, coefficients.map (· • Point.generator) = vs := by
  induction vs with
  | nil => exact ⟨[], rfl⟩
  | cons v rest ih =>
      obtain ⟨c, rfl⟩ := Point.exists_smul_generator v
      obtain ⟨coefficients, rfl⟩ := ih
      exact ⟨c :: coefficients, rfl⟩

/-! ## Lagrange coefficients -/

/-- The weight at zero of the value at `k` among distinct points `ks`. -/
def lagrangeWeight (ks : List Scalar) (k : Scalar) : Scalar :=
  ∏ x ∈ ks.toFinset.erase k, x / (x - k)

theorem lagrangeWeight_ne_zero {ks : List Scalar} (hks : ∀ x ∈ ks, x ≠ 0) (k : Scalar) :
    lagrangeWeight ks k ≠ 0 := by
  rw [lagrangeWeight, Finset.prod_ne_zero_iff]
  intro x hx
  obtain ⟨hne, hx⟩ := Finset.mem_erase.1 hx
  exact div_ne_zero (hks x (List.mem_toFinset.1 hx)) (sub_ne_zero.2 hne)

theorem product_sub_ne_zero {others : List Scalar} {k : Scalar} (hk : k ∉ others) :
    Residue.product (others.map (· - k)) ≠ 0 := by
  rw [Residue.product_eq_prod]
  refine List.prod_ne_zero fun hzero => ?_
  obtain ⟨x, hx, hsub⟩ := List.mem_map.1 hzero
  exact hk (sub_eq_zero.1 hsub ▸ hx)

theorem lagrangeCoefficient_eq {ks : List Scalar} (hks : ks.Nodup) {i : ℕ} {k : Scalar}
    (hi : ks[i]? = some k) : lagrangeCoefficient ks i = .ok (lagrangeWeight ks k) := by
  obtain ⟨hlt, rfl⟩ := List.getElem?_eq_some_iff.1 hi
  have herase : ks.eraseIdx i = ks.erase ks[i] := (hks.erase_getElem i hlt).symm
  have hnodup : (ks.erase ks[i]).Nodup := hks.erase _
  have hfinset : ks.toFinset.erase ks[i] = (ks.erase ks[i]).toFinset := by
    ext x
    simp [hks.mem_erase_iff]
  have hprod (g : Scalar → Scalar) : ((ks.erase ks[i]).map g).prod =
      ∏ x ∈ ks.toFinset.erase ks[i], g x := by
    rw [hfinset, List.prod_toFinset g hnodup]
  have hden := product_sub_ne_zero hks.not_mem_erase (k := ks[i])
  have hnum : (ks.erase ks[i]).prod = ∏ x ∈ ks.toFinset.erase ks[i], x := by
    rw [← hprod fun x => x, List.map_id']
  simp only [lagrangeCoefficient, hi, herase, hks.not_mem_erase, if_false, if_neg hden]
  rw [← Scalar.inv_eq_inverse, Residue.product_eq_prod, Residue.product_eq_prod, hprod, hnum,
    ← div_eq_mul_inv, ← Finset.prod_div_distrib, lagrangeWeight]

theorem lagrangeWeight_eq_eval_basis (ks : List Scalar) (k : Scalar) :
    lagrangeWeight ks k = (Lagrange.basis ks.toFinset id k).eval 0 := by
  rw [Lagrange.basis, eval_prod, lagrangeWeight]
  refine Finset.prod_congr rfl fun x hx => ?_
  have hne : x - k ≠ 0 := sub_ne_zero.2 (Finset.ne_of_mem_erase hx)
  have hne' : k - x ≠ 0 := sub_ne_zero.2 (Finset.ne_of_mem_erase hx).symm
  simp only [Lagrange.basisDivisor, id, eval_mul, eval_C, eval_sub, eval_X]
  field_simp
  ring

/-- Weighted values of a polynomial of low degree add up to its value at zero. -/
theorem sum_lagrangeWeight_mul_eval {ks : List Scalar} (hks : ks.Nodup) {f : Scalar[X]}
    (hf : f.degree < ks.length) :
    (ks.map fun k => lagrangeWeight ks k * f.eval k).sum = f.eval 0 := by
  have hcard : ks.toFinset.card = ks.length := List.toFinset_card_of_nodup hks
  have heq := Lagrange.eq_interpolate (s := ks.toFinset) (v := id) (f := f)
    (Set.injOn_id _) (by rwa [hcard])
  conv_rhs => rw [heq]
  rw [Lagrange.interpolate_apply, eval_finsetSum, ← List.sum_toFinset _ hks]
  refine Finset.sum_congr rfl fun k _ => ?_
  rw [eval_mul, eval_C, lagrangeWeight_eq_eval_basis, mul_comm]
  rfl

theorem sum_lagrangeWeight_mul_evaluatePolynomial {ks : List Scalar} (hks : ks.Nodup)
    {coefficients : List Scalar} (hlen : coefficients.length ≤ ks.length) :
    (ks.map fun k => lagrangeWeight ks k * evaluatePolynomial coefficients k).sum =
      coefficients.headD 0 := by
  have hdeg : (polynomialOf coefficients).degree < ks.length :=
    (degree_polynomialOf_lt coefficients).trans_le (by exact_mod_cast hlen)
  have hsum := sum_lagrangeWeight_mul_eval hks hdeg
  simp only [eval_polynomialOf] at hsum
  rw [hsum, evaluatePolynomial_zero]

theorem sum_lagrangeWeight_smul_evaluateCommitments {ks : List Scalar} (hks : ks.Nodup)
    {vs : List Point} (hlen : vs.length ≤ ks.length) :
    (ks.map fun k => lagrangeWeight ks k • evaluateCommitments vs k).sum = vs.headD 0 := by
  obtain ⟨coefficients, rfl⟩ := exists_coefficients vs
  rw [List.length_map] at hlen
  have hscalar := sum_lagrangeWeight_mul_evaluatePolynomial hks hlen
  have hhead : (coefficients.map (· • Point.generator)).headD 0 =
      coefficients.headD 0 • Point.generator := by
    cases coefficients with
    | nil => exact (zero_smul Scalar Point.generator).symm
    | cons c rest => rfl
  rw [hhead, ← hscalar, List.sum_smul, List.map_map]
  refine congrArg List.sum (List.map_congr_left fun k _ => ?_)
  rw [evaluateCommitments_map_generator, smul_smul]
  rfl

/-! ## Weighted lists -/

/-- Weights the items at distinct points. -/
theorem mapM_lagrangeCoefficient {α β : Type} {ks : List Scalar} (hks : ks.Nodup)
    (items : List α) (hlen : items.length = ks.length) (f : Scalar → α → β) :
    items.zipIdx.mapM (fun x => (lagrangeCoefficient ks x.2).map (f · x.1)) =
      .ok (List.zipWith (fun k a => f (lagrangeWeight ks k) a) ks items) := by
  rw [Result.mapM_eq_ok_iff, List.forall₂_iff_get]
  refine ⟨by simp [hlen], fun i hi hi' => ?_⟩
  have hlt : i < ks.length := by simpa [hlen] using hi
  simp [lagrangeCoefficient_eq hks (List.getElem?_eq_getElem hlt), Except.map]

theorem interpolate_eq {ks : List Scalar} (hks : ks.Nodup) {shares : List Point}
    (hlen : shares.length = ks.length) :
    Reshare.Input.interpolate ks shares =
      .ok (List.zipWith (fun k p => lagrangeWeight ks k • p) ks shares).sum := by
  have hterms := mapM_lagrangeCoefficient hks shares hlen fun w (p : Point) => w • p
  rw [Reshare.Input.interpolate, hterms, Result.ok_bind, Point.sum_eq_sum]
  rfl

/-- Values of a polynomial in the exponent interpolate to its constant term. -/
theorem interpolate_evaluateCommitments {ks : List Scalar} (hks : ks.Nodup) {vs : List Point}
    (hlen : vs.length ≤ ks.length) :
    Reshare.Input.interpolate ks (ks.map (evaluateCommitments vs)) = .ok (vs.headD 0) := by
  rw [interpolate_eq hks (by simp), ← sum_lagrangeWeight_smul_evaluateCommitments hks hlen,
    List.zipWith_map_right, List.zipWith_self]

theorem interpolate_quorum {points : List Scalar} (hpoints : points.Nodup) {vs : List Point}
    {quorum : List ℕ} (hquorum : quorum.Nodup) (hlt : ∀ j ∈ quorum, j < points.length)
    (hlen : vs.length ≤ quorum.length) :
    Reshare.Input.interpolate (quorum.map fun j => points.getD j 0)
      (quorum.map fun j => (points.map (evaluateCommitments vs)).getD j 0) =
        .ok (vs.headD 0) := by
  have hshares : (quorum.map fun j => (points.map (evaluateCommitments vs)).getD j 0) =
      (quorum.map fun j => points.getD j 0).map (evaluateCommitments vs) := by
    rw [List.map_map]
    refine List.map_congr_left fun j hj => ?_
    simp [List.getD_eq_getElem?_getD, List.getElem?_eq_getElem (hlt j hj)]
  have hnodup : (quorum.map fun j => points.getD j 0).Nodup := by
    refine hquorum.map_on fun i hi j hj hij => ?_
    simp only [List.getD_eq_getElem?_getD, List.getElem?_eq_getElem (hlt i hi),
      List.getElem?_eq_getElem (hlt j hj), Option.getD_some] at hij
    exact (hpoints.getElem_inj_iff).1 hij
  rw [hshares, interpolate_evaluateCommitments hnodup (by rwa [List.length_map])]

end ThresholdKeys
