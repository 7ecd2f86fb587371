import Mathlib
import ThresholdKeys.Proofs.Arithmetic.Primes

/-!
# Points form a group

Addition by chords and tangents is the addition of the nonsingular points of the Weierstrass curve
`y² = x³ + 7` over the field of coordinates. So points form a commutative group, in which the
reflected point is the negative.
-/

namespace ThresholdKeys

theorem Coordinate.ofNat_eq_cast (n : ℕ) : Coordinate.ofNat n = (n : Coordinate) := rfl

theorem Coordinate.natCast_ne_zero {n : ℕ} (h : ¬ fieldPrime ∣ n) : (n : Coordinate) ≠ 0 :=
  mt (Residue.natCast_eq_zero_iff_dvd n).1 h

theorem Coordinate.two_ne_zero : (2 : Coordinate) ≠ 0 :=
  Coordinate.natCast_ne_zero (n := 2) (by decide)

theorem Coordinate.three_ne_zero : (3 : Coordinate) ≠ 0 :=
  Coordinate.natCast_ne_zero (n := 3) (by decide)

theorem Coordinate.seven_ne_zero : (7 : Coordinate) ≠ 0 :=
  Coordinate.natCast_ne_zero (n := 7) (by decide)

theorem onCurve_iff (x y : Coordinate) : OnCurve x y ↔ y ^ 2 = x ^ 3 + 7 := by
  rw [OnCurve, Coordinate.ofNat_eq_cast, Nat.cast_ofNat, pow_two, pow_three, mul_assoc]

/-- The curve as Mathlib describes it. -/
def weierstrass : WeierstrassCurve.Affine Coordinate where
  a₁ := 0
  a₂ := 0
  a₃ := 0
  a₄ := 0
  a₆ := 7

theorem nonsingular_iff_onCurve (x y : Coordinate) :
    weierstrass.Nonsingular x y ↔ OnCurve x y := by
  rw [WeierstrassCurve.Affine.nonsingular_iff, WeierstrassCurve.Affine.equation_iff, onCurve_iff]
  simp only [weierstrass, zero_mul, mul_zero, add_zero, sub_zero, ne_eq]
  refine and_iff_left_of_imp fun h => ?_
  by_contra! hboth
  have hy : y = 0 := by
    have htwo : 2 * y = 0 := by linear_combination hboth.2
    exact (mul_eq_zero.1 htwo).resolve_left Coordinate.two_ne_zero
  have hx : x = 0 := by
    have hthree : 3 * x ^ 2 = 0 := hboth.1.symm
    exact pow_eq_zero_iff two_ne_zero |>.1
      ((mul_eq_zero.1 hthree).resolve_left Coordinate.three_ne_zero)
  apply Coordinate.seven_ne_zero
  rw [hx, hy] at h
  linear_combination -h

namespace Point

open WeierstrassCurve.Affine (nonsingular_add)

def toWeierstrass : Point → weierstrass.Point
  | identity => 0
  | affine x y h => .some x y ((nonsingular_iff_onCurve x y).2 h)

@[simp] theorem toWeierstrass_zero : toWeierstrass 0 = 0 := rfl

theorem toWeierstrass_injective : Function.Injective toWeierstrass := by
  intro p q h
  cases p <;> cases q <;> simp_all [toWeierstrass, WeierstrassCurve.Affine.Point.zero_def]

theorem toWeierstrass_ofAffine {x y : Coordinate} (h : weierstrass.Nonsingular x y) :
    (ofAffine x y).toWeierstrass = .some x y h := by
  have hc := (nonsingular_iff_onCurve x y).1 h
  simp [ofAffine, ofCoordinates?, hc, toWeierstrass]

/-- The third point of a line, in both descriptions. -/
theorem toWeierstrass_reflectThird {slope x₁ y₁ x₂ : Coordinate}
    (h : weierstrass.Nonsingular (weierstrass.addX x₁ x₂ slope)
      (weierstrass.addY x₁ x₂ y₁ slope)) :
    (reflectThird slope x₁ y₁ x₂).toWeierstrass = .some _ _ h := by
  have hx : slope * slope - x₁ - x₂ = weierstrass.addX x₁ x₂ slope := by
    simp only [WeierstrassCurve.Affine.addX, weierstrass]
    ring
  have hy : slope * (x₁ - (slope * slope - x₁ - x₂)) - y₁ = weierstrass.addY x₁ x₂ y₁ slope := by
    rw [hx]
    simp only [WeierstrassCurve.Affine.addY, WeierstrassCurve.Affine.negAddY,
      WeierstrassCurve.Affine.negY, weierstrass]
    ring
  rw [reflectThird, hy, hx, toWeierstrass_ofAffine h]

theorem negY_eq (x y : Coordinate) : weierstrass.negY x y = -y := by
  simp [WeierstrassCurve.Affine.negY, weierstrass]

theorem eq_or_add_eq_zero {x y₁ y₂ : Coordinate} (h₁ : OnCurve x y₁) (h₂ : OnCurve x y₂) :
    y₁ = y₂ ∨ y₁ + y₂ = 0 := by
  rw [onCurve_iff] at h₁ h₂
  have hprod : (y₁ - y₂) * (y₁ + y₂) = 0 := by linear_combination h₁ - h₂
  exact (mul_eq_zero.1 hprod).imp sub_eq_zero.1 id

theorem slope_eq {x₁ y₁ x₂ y₂ : Coordinate} (h₁ : OnCurve x₁ y₁) (h₂ : OnCurve x₂ y₂)
    (h : ¬ (x₁ = x₂ ∧ y₁ + y₂ = 0)) :
    weierstrass.slope x₁ x₂ y₁ y₂ =
      if x₁ = x₂ then Coordinate.ofNat 3 * x₁ * x₁ * (y₁ + y₁).inverse
      else (y₂ - y₁) * (x₂ - x₁).inverse := by
  by_cases hx : x₁ = x₂
  · subst hx
    have hne : y₁ + y₂ ≠ 0 := fun hy => h ⟨rfl, hy⟩
    obtain rfl := (eq_or_add_eq_zero h₁ h₂).resolve_right hne
    have hy : y₁ ≠ weierstrass.negY x₁ y₁ := by
      rw [negY_eq]
      exact fun hy => hne (by linear_combination hy)
    rw [if_pos rfl, WeierstrassCurve.Affine.slope_of_Y_ne rfl hy, negY_eq,
      ← Coordinate.inv_eq_inverse, ← div_eq_mul_inv, Coordinate.ofNat_eq_cast]
    simp only [weierstrass]
    congr 1
    · push_cast
      ring
    · ring
  · rw [if_neg hx, WeierstrassCurve.Affine.slope_of_X_ne hx, ← Coordinate.inv_eq_inverse,
      ← div_eq_mul_inv, ← neg_sub y₂, ← neg_sub x₂, neg_div_neg_eq]

/-- The sum of two points that are not opposite. -/
theorem affine_add_affine {x₁ y₁ x₂ y₂ : Coordinate} (h₁ : OnCurve x₁ y₁) (h₂ : OnCurve x₂ y₂)
    (h : ¬ (x₁ = x₂ ∧ y₁ + y₂ = 0)) :
    affine x₁ y₁ h₁ + affine x₂ y₂ h₂ =
      reflectThird (weierstrass.slope x₁ x₂ y₁ y₂) x₁ y₁ x₂ := by
  rw [slope_eq h₁ h₂ h]
  change add _ _ = _
  by_cases hx : x₁ = x₂
  · subst hx
    have hy : y₁ + y₂ ≠ 0 := fun hy => h ⟨rfl, hy⟩
    obtain rfl := (eq_or_add_eq_zero h₁ h₂).resolve_right hy
    simp only [add, if_true, if_neg hy]
  · simp only [add, if_neg hx]

theorem ne_negY {x₁ y₁ x₂ y₂ : Coordinate} (h : ¬ (x₁ = x₂ ∧ y₁ + y₂ = 0)) :
    ¬ (x₁ = x₂ ∧ y₁ = weierstrass.negY x₂ y₂) := by
  rw [negY_eq]
  exact fun hc => h ⟨hc.1, by linear_combination hc.2⟩

theorem nonsingular_sum {x₁ y₁ x₂ y₂ : Coordinate} (h₁ : OnCurve x₁ y₁) (h₂ : OnCurve x₂ y₂)
    (h : ¬ (x₁ = x₂ ∧ y₁ + y₂ = 0)) :
    weierstrass.Nonsingular (weierstrass.addX x₁ x₂ (weierstrass.slope x₁ x₂ y₁ y₂))
      (weierstrass.addY x₁ x₂ y₁ (weierstrass.slope x₁ x₂ y₁ y₂)) :=
  nonsingular_add ((nonsingular_iff_onCurve x₁ y₁).2 h₁) ((nonsingular_iff_onCurve x₂ y₂).2 h₂)
    (ne_negY h)

theorem toWeierstrass_add (p q : Point) :
    (p + q).toWeierstrass = p.toWeierstrass + q.toWeierstrass := by
  cases p with
  | identity => exact (zero_add _).symm
  | affine x₁ y₁ h₁ =>
      cases q with
      | identity => exact (add_zero _).symm
      | affine x₂ y₂ h₂ =>
          by_cases hxy : x₁ = x₂ ∧ y₁ + y₂ = 0
          · have hy : y₁ = weierstrass.negY x₂ y₂ := by
              rw [negY_eq]
              linear_combination hxy.2
            change (add _ _).toWeierstrass = _
            simp only [add, hxy.1, hxy.2, if_true, toWeierstrass]
            exact (WeierstrassCurve.Affine.Point.add_of_Y_eq rfl hy).symm
          · rw [affine_add_affine h₁ h₂ hxy, toWeierstrass_reflectThird (nonsingular_sum h₁ h₂ hxy)]
            exact (WeierstrassCurve.Affine.Point.add_some (ne_negY hxy)).symm

theorem onCurve_neg {x y : Coordinate} (h : OnCurve x y) : OnCurve x (-y) := by
  rw [onCurve_iff] at h ⊢
  rw [neg_pow_two, h]

def neg : Point → Point
  | identity => identity
  | affine x y h => affine x (-y) (onCurve_neg h)

instance : Neg Point := ⟨neg⟩

theorem neg_add_cancel' (p : Point) : -p + p = 0 := by
  cases p with
  | identity => rfl
  | affine x y h =>
      change add (affine x (-y) _) (affine x y h) = identity
      simp [add]

instance : AddCommGroup Point where
  add_assoc p q r := toWeierstrass_injective (by simp only [toWeierstrass_add, add_assoc])
  zero_add _ := rfl
  add_zero p := toWeierstrass_injective (by simp only [toWeierstrass_add, toWeierstrass_zero, add_zero])
  add_comm p q := toWeierstrass_injective (by simp only [toWeierstrass_add, add_comm])
  neg_add_cancel := neg_add_cancel'
  nsmul := nsmulRec
  zsmul := zsmulRec

/-! ## Coordinates of sums -/

theorem coordinates?_reflectThird {slope x₁ y₁ x₂ : Coordinate}
    (h : weierstrass.Nonsingular (weierstrass.addX x₁ x₂ slope)
      (weierstrass.addY x₁ x₂ y₁ slope)) :
    (reflectThird slope x₁ y₁ x₂).coordinates? =
      some (slope ^ 2 - x₁ - x₂, slope * (x₁ - (slope ^ 2 - x₁ - x₂)) - y₁) := by
  have hthird := toWeierstrass_reflectThird h
  cases hp : reflectThird slope x₁ y₁ x₂ with
  | identity =>
      rw [hp] at hthird
      exact absurd hthird.symm (WeierstrassCurve.Affine.Point.some_ne_zero h)
  | affine x y hc =>
      rw [hp] at hthird
      obtain ⟨rfl, rfl⟩ := WeierstrassCurve.Affine.Point.some.inj hthird
      simp only [coordinates?, WeierstrassCurve.Affine.addX, WeierstrassCurve.Affine.addY,
        WeierstrassCurve.Affine.negAddY, WeierstrassCurve.Affine.negY, weierstrass,
        Option.some.injEq, Prod.mk.injEq]
      exact ⟨by ring, by ring⟩

theorem coordinates?_chord {x₁ y₁ x₂ y₂ : Coordinate} (h₁ : OnCurve x₁ y₁) (h₂ : OnCurve x₂ y₂)
    (h : x₁ ≠ x₂) :
    let slope := (y₂ - y₁) / (x₂ - x₁)
    (affine x₁ y₁ h₁ + affine x₂ y₂ h₂).coordinates? =
      some (slope ^ 2 - x₁ - x₂, slope * (x₁ - (slope ^ 2 - x₁ - x₂)) - y₁) := by
  intro slope
  have hne : ¬ (x₁ = x₂ ∧ y₁ + y₂ = 0) := fun hc => h hc.1
  rw [affine_add_affine h₁ h₂ hne, coordinates?_reflectThird (nonsingular_sum h₁ h₂ hne),
    slope_eq h₁ h₂ hne, if_neg h, ← Coordinate.inv_eq_inverse, ← div_eq_mul_inv]

theorem coordinates?_tangent {x y : Coordinate} (h : OnCurve x y) (hy : y + y ≠ 0) :
    let slope := 3 * x ^ 2 / (2 * y)
    (affine x y h + affine x y h).coordinates? =
      some (slope ^ 2 - x - x, slope * (x - (slope ^ 2 - x - x)) - y) := by
  intro slope
  have hne : ¬ (x = x ∧ y + y = 0) := fun hc => hy hc.2
  have hslope : Coordinate.ofNat 3 * x * x * (y + y).inverse = slope := by
    rw [← Coordinate.inv_eq_inverse, ← div_eq_mul_inv, Coordinate.ofNat_eq_cast, Nat.cast_ofNat,
      mul_assoc, ← pow_two, ← two_mul]
  rw [affine_add_affine h h hne, coordinates?_reflectThird (nonsingular_sum h h hne),
    slope_eq h h hne, if_pos rfl, hslope]

theorem affine_add_opposite {x y₁ y₂ : Coordinate} (h₁ : OnCurve x y₁) (h₂ : OnCurve x y₂)
    (h : y₁ + y₂ = 0) : affine x y₁ h₁ + affine x y₂ h₂ = 0 := by
  change add _ _ = identity
  simp only [add, h, if_true]

theorem isIdentity_eq_true_iff (p : Point) : p.isIdentity = true ↔ p = 0 := by
  cases p with
  | identity => exact ⟨fun _ => rfl, fun _ => rfl⟩
  | affine x y h => exact ⟨fun h => (by cases h), fun h => (by cases h)⟩

theorem sum_eq_sum (points : List Point) : sum points = points.sum := by
  rw [sum, List.sum_eq_foldl]

end Point

end ThresholdKeys
