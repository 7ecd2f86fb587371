import Mathlib
import ThresholdKeys.Proofs.Sharing.Verification

/-!
# What a reconstruction answers

Shares that are enough and stand at distinct points are points of one polynomial whose degree is
below their number, and its value at zero is the answer. Shares that are enough but not distinct are
refused, whichever of them coincide and wherever in the list they stand; the division never fails.
So the answer is the same for every order of the shares.
-/

namespace ThresholdKeys

open Polynomial

variable {threshold : ℕ} {shares : List Share} {f : Scalar[X]}

/-- The polynomial runs through all shares, and its degree is below their number. -/
structure Interpolates (f : Scalar[X]) (shares : List Share) : Prop where
  degree_lt : f.degree < shares.length
  eval_eq : ∀ s ∈ shares, f.eval s.id = s.value

/-! ## The polynomial through the shares -/

theorem exists_interpolates (hnodup : (shares.map Share.id).Nodup) : ∃ f, Interpolates f shares := by
  let point (i : Fin shares.length) : Scalar := shares[i].id
  let value (i : Fin shares.length) : Scalar := shares[i].value
  have hinj : Set.InjOn point (Finset.univ : Finset (Fin shares.length)) := by
    intro i _ j _ hij
    have hsame : shares[i] = shares[j] :=
      List.inj_on_of_nodup_map hnodup (List.getElem_mem _) (List.getElem_mem _) hij
    exact Fin.ext ((hnodup.of_map _).getElem_inj_iff.1 hsame)
  refine ⟨Lagrange.interpolate Finset.univ point value, ?_, fun s hs => ?_⟩
  · have hdegree := Lagrange.degree_interpolate_lt value hinj
    rwa [Finset.card_univ, Fintype.card_fin] at hdegree
  · obtain ⟨i, hi, rfl⟩ := List.mem_iff_getElem.1 hs
    exact Lagrange.eval_interpolate_at_node value hinj (Finset.mem_univ ⟨i, hi⟩)

theorem Interpolates.unique (hf : Interpolates f shares) (hnodup : (shares.map Share.id).Nodup)
    {g : Scalar[X]} (hg : Interpolates g shares) : g = f := by
  have hcard : (shares.map Share.id).toFinset.card = shares.length := by
    rw [List.toFinset_card_of_nodup hnodup, List.length_map]
  refine eq_of_degrees_lt_of_eval_finset_eq (shares.map Share.id).toFinset ?_ ?_ fun x hx => ?_
  · rw [hcard]
    exact hg.degree_lt
  · rw [hcard]
    exact hf.degree_lt
  · obtain ⟨s, hs, rfl⟩ := List.mem_map.1 (List.mem_toFinset.1 hx)
    rw [hg.eval_eq s hs, hf.eval_eq s hs]

theorem Interpolates.reconstruct_eq (hf : Interpolates f shares) (hlt : threshold < shares.length)
    (hnodup : (shares.map Share.id).Nodup) : reconstruct shares threshold = .ok (f.eval 0) := by
  have hdegree : f.degree < (shares.map Share.id).length := by
    rw [List.length_map]
    exact hf.degree_lt
  rw [ThresholdKeys.reconstruct_eq hlt hnodup, ← sum_lagrangeWeight_mul_eval hnodup hdegree,
    List.map_map]
  refine congrArg (Except.ok ∘ List.sum) (List.map_congr_left fun s hs => ?_)
  rw [Function.comp_apply, hf.eval_eq s hs]

theorem Interpolates.of_perm (hf : Interpolates f shares) {shares' : List Share}
    (hperm : shares'.Perm shares) : Interpolates f shares' :=
  ⟨hperm.length_eq ▸ hf.degree_lt, fun s hs => hf.eval_eq s (hperm.mem_iff.1 hs)⟩

/-! ## Shares that coincide -/

theorem lagrangeCoefficient_eq_error_iff {ks : List Scalar} {i : ℕ} {k : Scalar}
    (hi : ks[i]? = some k) {e : Error} :
    lagrangeCoefficient ks i = .error e ↔ e = .duplicateEvaluator ∧ k ∈ ks.eraseIdx i := by
  simp only [lagrangeCoefficient, hi]
  by_cases hk : k ∈ ks.eraseIdx i
  · simp [hk, eq_comm]
  · simp [hk, product_sub_ne_zero hk]

theorem exists_mem_eraseIdx {ks : List Scalar} (h : ¬ ks.Nodup) :
    ∃ i k, ks[i]? = some k ∧ k ∈ ks.eraseIdx i := by
  rw [List.nodup_iff_getElem?_ne_getElem?] at h
  push Not at h
  obtain ⟨i, j, hij, hj, heq⟩ := h
  have hjk : ks[j]? = some ks[j] := List.getElem?_eq_getElem hj
  exact ⟨i, ks[j], heq.trans hjk, List.mem_eraseIdx_iff_getElem?.2 ⟨j, hij.ne', hjk⟩⟩

theorem reconstruct_of_not_nodup (hlt : threshold < shares.length)
    (h : ¬ (shares.map Share.id).Nodup) :
    reconstruct shares threshold = .error .duplicateEvaluator := by
  have hid (i : ℕ) (s : Share) (hi : shares[i]? = some s) :
      (shares.map Share.id)[i]? = some s.id := by
    rw [List.getElem?_map, hi, Option.map_some]
  have hterms : shares.zipIdx.mapM (fun x =>
      (lagrangeCoefficient (shares.map Share.id) x.2).map (· * x.1.value)) =
        .error .duplicateEvaluator := by
    -- Every failing coefficient fails for a repeated point, so it does not matter which is first.
    apply Result.mapM_eq_error
    · rintro ⟨s, i⟩ hs e he
      rw [List.mem_zipIdx_iff_getElem?] at hs
      exact ((lagrangeCoefficient_eq_error_iff (hid i s hs)).1 (Result.map_eq_error_iff.1 he)).1
    · obtain ⟨i, k, hi, hk⟩ := exists_mem_eraseIdx h
      rw [List.getElem?_map, Option.map_eq_some_iff] at hi
      obtain ⟨s, hs, rfl⟩ := hi
      refine ⟨(s, i), List.mem_zipIdx_iff_getElem?.2 hs, Result.map_eq_error_iff.2 ?_⟩
      exact (lagrangeCoefficient_eq_error_iff (hid i s hs)).2 ⟨rfl, hk⟩
  simp only [reconstruct, if_neg (Nat.not_lt.2 hlt), hterms, Result.error_bind]

/-! ## All answers -/

theorem reconstruct_of_few (hfew : shares.length < threshold + 1) :
    reconstruct shares threshold = .error (.insufficientShares (threshold + 1) shares.length) :=
  if_pos hfew

theorem reconstruct_of_perm {shares' : List Share} (hperm : shares'.Perm shares) :
    reconstruct shares' threshold = reconstruct shares threshold := by
  have hlength := hperm.length_eq
  have hids := (hperm.map Share.id).nodup_iff
  rcases Nat.lt_or_ge shares.length (threshold + 1) with hfew | henough
  · rw [reconstruct_of_few hfew, reconstruct_of_few (hlength ▸ hfew), hlength]
  · by_cases hnodup : (shares.map Share.id).Nodup
    · obtain ⟨f, hf⟩ := exists_interpolates hnodup
      rw [hf.reconstruct_eq henough hnodup,
        (hf.of_perm hperm).reconstruct_eq (hlength ▸ henough) (hids.2 hnodup)]
    · rw [reconstruct_of_not_nodup henough hnodup,
        reconstruct_of_not_nodup (hlength ▸ henough) (mt hids.1 hnodup)]

/-- Too few shares, shares that coincide, and the value at zero of the polynomial through them: the
answer is the first of these that applies, in whatever order the shares come. -/
theorem reconstruct_exact (shares : List Share) (threshold : ℕ) :
    (reconstruct shares threshold =
        .error (.insufficientShares (threshold + 1) shares.length) ↔
      shares.length < threshold + 1) ∧
    (threshold + 1 ≤ shares.length →
      (reconstruct shares threshold = .error .duplicateEvaluator ↔
        ¬ (shares.map Share.id).Nodup)) ∧
    (threshold + 1 ≤ shares.length → (shares.map Share.id).Nodup →
      ∃ f, Interpolates f shares ∧ (∀ g, Interpolates g shares → g = f) ∧
        reconstruct shares threshold = .ok (f.eval 0)) ∧
    reconstruct shares threshold ≠ .error .notInvertible ∧
    ∀ shares', shares'.Perm shares →
      reconstruct shares' threshold = reconstruct shares threshold := by
  have hperm (shares' : List Share) (h : shares'.Perm shares) :
      reconstruct shares' threshold = reconstruct shares threshold := reconstruct_of_perm h
  rcases Nat.lt_or_ge shares.length (threshold + 1) with hfew | henough
  · have hnot := Nat.not_le.2 hfew
    rw [reconstruct_of_few hfew] at hperm ⊢
    exact ⟨iff_of_true rfl hfew, fun h => absurd h hnot, fun h => absurd h hnot, nofun, hperm⟩
  · have hnot := Nat.not_lt.2 henough
    by_cases hnodup : (shares.map Share.id).Nodup
    · obtain ⟨f, hf⟩ := exists_interpolates hnodup
      rw [hf.reconstruct_eq henough hnodup] at hperm ⊢
      exact ⟨iff_of_false nofun hnot, fun _ => iff_of_false nofun (not_not.2 hnodup),
        fun _ _ => ⟨f, hf, fun g hg => hf.unique hnodup hg, rfl⟩, nofun, hperm⟩
    · rw [reconstruct_of_not_nodup henough hnodup] at hperm ⊢
      exact ⟨iff_of_false nofun hnot, fun _ => iff_of_true rfl hnodup,
        fun _ h => absurd h hnodup, nofun, hperm⟩

theorem reconstruct_exact_zero :
    reconstruct [⟨1, 3, 4⟩, ⟨7, 0, 9⟩] 1 = .ok 9 ∧
      reconstruct [⟨7, 0, 9⟩, ⟨1, 3, 4⟩] 1 = .ok 9 ∧
      reconstruct [⟨1, 3, 4⟩, ⟨1, 2, 4⟩, ⟨1, 3, 5⟩] 1 = .error .duplicateEvaluator := by
  obtain ⟨-, -, hvalue, -, hperm⟩ := reconstruct_exact [⟨1, 3, 4⟩, ⟨7, 0, 9⟩] 1
  obtain ⟨f, hf, -, hanswer⟩ := hvalue (by decide) (by decide)
  have hzero : f.eval 0 = 9 := hf.eval_eq ⟨7, 0, 9⟩ (by decide)
  rw [hzero] at hanswer
  refine ⟨hanswer, (hperm _ (.swap ..)).trans hanswer, ?_⟩
  exact ((reconstruct_exact _ 1).2.1 (by decide)).2 (by decide)

end ThresholdKeys
