import Mathlib
import ThresholdKeys.Proofs.Curve.Multiple

/-!
# The group has prime order

The generator has the prime group order. A point is known by its `x` and the parity of its `y`, so
there are fewer than three times as many points; and as `-7` is no cube there is no point of order
two. Hence the generator's multiples are all points, and points are a vector space over scalars.
-/

namespace ThresholdKeys

namespace Coordinate

theorem val_neg {a : Coordinate} (h : a ≠ 0) : (-a).val = fieldPrime - a.val := by
  have hpos : 0 < a.val := Nat.pos_of_ne_zero fun h0 => h (Residue.ext (h0.trans Residue.val_zero.symm))
  exact Nat.mod_eq_of_lt (by have := a.isLt; omega)

theorem pow_card_sub_one {a : Coordinate} (h : a ≠ 0) : a ^ (fieldPrime - 1) = 1 := by
  have hinv := Residue.mul_inverse prime_fieldPrime h
  rwa [Residue.inverse, Residue.power_eq_pow, ← pow_succ'] at hinv

theorem neg_seven_not_cube (x : Coordinate) : x ^ 3 ≠ -7 := by
  have hpow : (-Coordinate.ofNat 7).power ((fieldPrime - 1) / 3) ≠ 1 := by decide +kernel
  intro hx
  have hx0 : x ≠ 0 := by
    rintro rfl
    exact neg_ne_zero.2 seven_ne_zero (hx.symm.trans (zero_pow (by decide)))
  apply hpow
  rw [Residue.power_eq_pow, ofNat_eq_cast, Nat.cast_ofNat, ← hx, ← pow_mul,
    show 3 * ((fieldPrime - 1) / 3) = fieldPrime - 1 by decide]
  exact pow_card_sub_one hx0

def equivFin : Coordinate ≃ Fin fieldPrime where
  toFun a := ⟨a.val, a.isLt⟩
  invFun i := ⟨i, i.isLt⟩

instance : Finite Coordinate := Finite.of_equiv _ equivFin.symm

theorem card_coordinate : Nat.card Coordinate = fieldPrime := by
  rw [Nat.card_congr equivFin, Nat.card_fin]

end Coordinate

namespace Point

/-- The `x` of a point and the parity of its `y`. -/
def compressed : Point → Option (Coordinate × Bool)
  | identity => none
  | affine x y _ => some (x, y.val % 2 = 0)

theorem compressed_injective : Function.Injective compressed := by
  intro p q h
  cases p with
  | identity => cases q <;> simp_all [compressed]
  | affine x₁ y₁ h₁ =>
      cases q with
      | identity => simp [compressed] at h
      | affine x₂ y₂ h₂ =>
          simp only [compressed, Option.some.injEq, Prod.mk.injEq] at h
          obtain ⟨rfl, hparity⟩ := h
          have hy : y₁ = y₂ := by
            rcases eq_or_add_eq_zero h₁ h₂ with heq | hopp
            · exact heq
            · obtain rfl : y₁ = -y₂ := eq_neg_of_add_eq_zero_left hopp
              by_cases h0 : y₂ = 0
              · rw [h0, neg_zero]
              · have hlt := y₂.isLt
                have hodd : fieldPrime % 2 = 1 := by decide
                rw [Coordinate.val_neg h0, decide_eq_decide] at hparity
                omega
          subst hy
          rfl

instance : Finite Point := Finite.of_injective compressed compressed_injective

theorem card_le : Nat.card Point ≤ fieldPrime * 2 + 1 := by
  have h := Nat.card_le_card_of_injective compressed compressed_injective
  rwa [Finite.card_option, Nat.card_prod, Coordinate.card_coordinate,
    show Nat.card Bool = 2 from Nat.card_eq_fintype_card] at h

theorem eq_zero_of_add_self {p : Point} (h : p + p = 0) : p = 0 := by
  cases p with
  | identity => rfl
  | affine x y hc =>
      by_cases hy : y + y = 0
      · have hy0 : y = 0 := by
          rw [← two_mul] at hy
          exact (mul_eq_zero.1 hy).resolve_left Coordinate.two_ne_zero
        rw [onCurve_iff, hy0] at hc
        exact absurd (by linear_combination -hc) (Coordinate.neg_seven_not_cube x)
      · have hsum := coordinates?_tangent hc hy
        rw [h] at hsum
        exact absurd hsum (by simp [coordinates?])

theorem generator_ne_zero : generator ≠ 0 := by
  intro h
  cases h

theorem groupOrder_nsmul_generator : groupOrder • generator = 0 := by
  rw [← multiple_eq_nsmul]
  decide +kernel

theorem addOrderOf_generator : addOrderOf generator = groupOrder :=
  have : Fact groupOrder.Prime := ⟨prime_groupOrder⟩
  addOrderOf_eq_prime groupOrder_nsmul_generator generator_ne_zero

theorem card_eq : Nat.card Point = groupOrder := by
  obtain ⟨k, hk⟩ : groupOrder ∣ Nat.card Point :=
    addOrderOf_generator ▸ addOrderOf_dvd_natCard generator
  have hle := card_le
  have hpos : 0 < Nat.card Point := Nat.card_pos
  have hratio : fieldPrime * 2 + 1 < groupOrder * 3 := by decide
  have hk2 : k ≠ 2 := by
    rintro rfl
    have : Fact (Nat.Prime 2) := ⟨Nat.prime_two⟩
    obtain ⟨p, hp⟩ := exists_prime_addOrderOf_dvd_card' (G := Point) 2 ⟨groupOrder, by rw [hk, mul_comm]⟩
    have hzero : p = 0 := eq_zero_of_add_self (by
      rw [← two_nsmul, ← hp, addOrderOf_nsmul_eq_zero])
    rw [hzero, addOrderOf_zero] at hp
    omega
  have hk0 : k ≠ 0 := by
    rintro rfl
    omega
  have hk3 : k < 3 := by
    by_contra! h
    have := Nat.mul_le_mul_left groupOrder h
    omega
  obtain rfl : k = 1 := by omega
  rw [hk, mul_one]

theorem groupOrder_nsmul (p : Point) : groupOrder • p = 0 := by
  rw [← card_eq]
  exact card_nsmul_eq_zero'

theorem smul_eq_nsmul (s : Scalar) (p : Point) : s • p = s.val • p := multiple_eq_nsmul s.val p

theorem mod_nsmul (n : ℕ) (p : Point) : (n % groupOrder) • p = n • p := by
  conv_rhs => rw [← Nat.mod_add_div n groupOrder, add_nsmul, mul_nsmul, groupOrder_nsmul, nsmul_zero,
    add_zero]

instance : Module Scalar Point where
  one_smul p := by
    rw [smul_eq_nsmul]
    exact one_nsmul p
  mul_smul a b p := by
    simp only [smul_eq_nsmul, Residue.val_mul]
    rw [mod_nsmul, mul_nsmul']
  smul_zero s := by rw [smul_eq_nsmul, nsmul_zero]
  smul_add s p q := by simp only [smul_eq_nsmul, nsmul_add]
  add_smul a b p := by
    simp only [smul_eq_nsmul, Residue.val_add]
    rw [mod_nsmul, add_nsmul]
  zero_smul p := by
    rw [smul_eq_nsmul, Residue.val_zero, zero_nsmul]

/-- Every point is a multiple of the generator. -/
theorem exists_smul_generator (p : Point) : ∃ s : Scalar, s • generator = p := by
  have : Fact groupOrder.Prime := ⟨prime_groupOrder⟩
  obtain ⟨n, hn⟩ : ∃ n : ℕ, n • generator = p :=
    (AddSubmonoid.mem_multiples_iff _ _).1 (mem_multiples_of_prime_card card_eq generator_ne_zero)
  refine ⟨Scalar.ofNat n, ?_⟩
  rw [smul_eq_nsmul, ← hn]
  exact mod_nsmul n generator

theorem smul_generator_injective : Function.Injective fun s : Scalar => s • generator :=
  smul_left_injective Scalar generator_ne_zero

end Point

end ThresholdKeys
