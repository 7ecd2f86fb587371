import Mathlib
import ThresholdKeys.Curve.Multiple
import ThresholdKeys.Proofs.Curve.GroupLaw

/-!
# Multiples on fractions

Doubling and adding on fractions with a common denominator are doubling and adding of the points
that the fractions stand for, so the computed multiple is the repeated sum.
-/

namespace ThresholdKeys

namespace Fraction

/-- A fraction stands for a point: the identity if its denominator is zero. -/
def Represents (f : Fraction) (p : Point) : Prop :=
  (f.z = 0 ∧ p = 0) ∨ (f.z ≠ 0 ∧ p.coordinates? = some (f.x / f.z ^ 2, f.y / f.z ^ 3))

theorem represents_identity : identity.Represents 0 := Or.inl ⟨rfl, rfl⟩

theorem Represents.toPoint_eq {f : Fraction} {p : Point} (h : f.Represents p) :
    f.toPoint = p := by
  rcases h with ⟨hz, rfl⟩ | ⟨hz, hp⟩
  · exact if_pos hz
  · have hx : f.x * (f.z.inverse * f.z.inverse) = f.x / f.z ^ 2 := by
      rw [← Coordinate.inv_eq_inverse]
      ring
    have hy : f.y * (f.z.inverse * f.z.inverse * f.z.inverse) = f.y / f.z ^ 3 := by
      rw [← Coordinate.inv_eq_inverse]
      ring
    simp only [toPoint, if_neg hz]
    rw [hx, hy, Point.ofAffine, (Point.ofCoordinates?_eq_some_iff _ _ p).2 hp,
      Option.getD_some]

/-- The affine form of what a fraction with a denominator stands for. -/
theorem eq_affine_of_coordinates? {p : Point} {x y : Coordinate}
    (h : p.coordinates? = some (x, y)) : ∃ hc : OnCurve x y, p = .affine x y hc := by
  cases p with
  | identity => simp [Point.coordinates?] at h
  | affine u v hc =>
      obtain ⟨rfl, rfl⟩ : u = x ∧ v = y := by simpa [Point.coordinates?] using h
      exact ⟨hc, rfl⟩

theorem Represents.double {f : Fraction} {p : Point} (h : f.Represents p) :
    f.double.Represents (p + p) := by
  rcases h with ⟨hz, rfl⟩ | ⟨hz, hp⟩
  · left
    simp [Fraction.double, hz]
  · obtain ⟨hc, rfl⟩ := eq_affine_of_coordinates? hp
    have htwo := Coordinate.two_ne_zero
    by_cases hy : f.y = 0
    · left
      refine ⟨by simp [Fraction.double, hy], Point.affine_add_opposite hc hc ?_⟩
      rw [hy, zero_div, add_zero]
    · right
      have hsum : f.y / f.z ^ 3 + f.y / f.z ^ 3 ≠ 0 := by
        rw [← two_mul]
        exact mul_ne_zero htwo (div_ne_zero hy (pow_ne_zero 3 hz))
      have hden : f.double.z = 2 * f.y * f.z := by
        simp only [Fraction.double]
        ring
      refine ⟨by rw [hden]; exact mul_ne_zero (mul_ne_zero htwo hy) hz, ?_⟩
      rw [Point.coordinates?_tangent hc hsum, hden]
      simp only [Fraction.double, Option.some.injEq, Prod.mk.injEq]
      constructor
      · field_simp
        ring
      · field_simp
        ring

theorem sub_eq_zero_iff_div_eq {a b c : Coordinate} (hc : c ≠ 0) : a * c - b = 0 ↔ b / c = a := by
  rw [div_eq_iff hc, sub_eq_zero, eq_comm]

theorem Represents.addAffine {f : Fraction} {p : Point} (h : f.Represents p) {x y : Coordinate}
    (hq : OnCurve x y) : (f.addAffine x y).Represents (p + .affine x y hq) := by
  rcases h with ⟨hz, rfl⟩ | ⟨hz, hp⟩
  · right
    rw [Fraction.addAffine, if_pos hz, zero_add]
    simp [Point.coordinates?]
  · obtain ⟨hc, rfl⟩ := eq_affine_of_coordinates? hp
    have hx : x * (f.z * f.z) - f.x = 0 ↔ f.x / f.z ^ 2 = x := by
      rw [pow_two]
      exact sub_eq_zero_iff_div_eq (mul_ne_zero hz hz)
    have hy : y * (f.z * f.z * f.z) - f.y = 0 ↔ f.y / f.z ^ 3 = y := by
      rw [show f.z * f.z * f.z = f.z ^ 3 by ring]
      exact sub_eq_zero_iff_div_eq (pow_ne_zero 3 hz)
    simp only [Fraction.addAffine, if_neg hz, hx, hy]
    split_ifs with hxe hye
    · have hsame : (Point.affine _ _ hc) = .affine x y hq := by
        simp only [hxe, hye]
      rw [← hsame]
      exact Represents.double (Or.inr ⟨hz, rfl⟩)
    · subst hxe
      have hopp := (Point.eq_or_add_eq_zero hc hq).resolve_left hye
      rw [Point.affine_add_opposite hc hq hopp]
      exact represents_identity
    · right
      have hd : x * (f.z * f.z) - f.x ≠ 0 := mt hx.1 hxe
      refine ⟨mul_ne_zero hz hd, ?_⟩
      rw [Point.coordinates?_chord hc hq hxe]
      obtain ⟨d, hfx⟩ : ∃ d, f.x = x * (f.z * f.z) - d := ⟨x * (f.z * f.z) - f.x, by ring⟩
      simp only [hfx, sub_sub_cancel] at hd ⊢
      have hslope : x - (x * (f.z * f.z) - d) / f.z ^ 2 = d / f.z ^ 2 := by
        field_simp
        ring
      rw [hslope]
      simp only [Option.some.injEq, Prod.mk.injEq]
      constructor
      · field_simp
        ring
      · field_simp
        ring

theorem multiple_represents {x y : Coordinate} (h : OnCurve x y) (n : ℕ) :
    (multiple x y n).Represents (n • Point.affine x y h) := by
  have hbits (ds : List Bool) : (ds.foldr (fun bit acc => if bit then addAffine (double acc) x y
      else double acc) identity).Represents (ofBits ds • Point.affine x y h) := by
    induction ds with
    | nil =>
        rw [ofBits, zero_nsmul]
        exact represents_identity
    | cons b rest ih =>
        cases b with
        | false =>
            rw [ofBits, Bool.toNat_false, add_zero, mul_comm, mul_two, add_nsmul]
            exact ih.double
        | true =>
            rw [ofBits, Bool.toNat_true, succ_nsmul, mul_comm, mul_two, add_nsmul]
            exact ih.double.addAffine h
  have hn := hbits (bits n)
  rwa [ofBits_bits] at hn

end Fraction

namespace Point

theorem multiple_eq_nsmul (n : ℕ) (p : Point) : multiple n p = n • p := by
  cases p with
  | identity => exact (nsmul_zero n).symm
  | affine x y h => exact (Fraction.multiple_represents h n).toPoint_eq

end Point

end ThresholdKeys
