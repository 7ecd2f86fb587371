import Mathlib
import ThresholdKeys.Curve.Encoding
import ThresholdKeys.Proofs.Curve.Order

/-!
# Points come back from their byte forms

The field prime is three modulo four, so a power of a square is one of its roots. The other root is
its negative, which has the other parity, so `x` and the parity of `y` are enough to find `y`.
-/

namespace ThresholdKeys

namespace Coordinate

theorem root?_of_mul_self {a : Coordinate}
    (h : a.power ((fieldPrime + 1) / 4) * a.power ((fieldPrime + 1) / 4) = a) :
    root? a = some (a.power ((fieldPrime + 1) / 4)) := by
  unfold root?
  simp only [h, if_true]

-- The exponents are variables here: with those of the field spelled out the kernel unfolds powers.
theorem pow_mul_pow_of_pow_eq_one {n k : ℕ} (hk : 2 * (k + k) = n + 2) {y : Coordinate}
    (h : y ≠ 0 → y ^ n = 1) : (y * y) ^ k * (y * y) ^ k = y * y := by
  rw [← pow_add, ← pow_two, ← pow_mul, hk, pow_add]
  by_cases hy : y = 0
  · have hzero : (0 : Coordinate) ^ 2 = 0 := zero_pow (by decide)
    rw [hy, hzero, mul_zero]
  · rw [h hy, one_mul]

theorem power_mul_self (y : Coordinate) :
    (y * y).power ((fieldPrime + 1) / 4) * (y * y).power ((fieldPrime + 1) / 4) = y * y := by
  rw [Residue.power_eq_pow]
  exact pow_mul_pow_of_pow_eq_one (n := fieldPrime - 1) (by decide) pow_card_sub_one

/-- A power of a square is one of its two roots. -/
theorem exists_root?_mul_self (y : Coordinate) :
    ∃ r, root? (y * y) = some r ∧ (r = y ∨ r = -y) :=
  ⟨_, root?_of_mul_self (power_mul_self y), mul_self_eq_mul_self_iff.1 (power_mul_self y)⟩

theorem val_neg_mod_two {a : Coordinate} (h : a ≠ 0) : (-a).val % 2 ≠ a.val % 2 := by
  have hlt := a.isLt
  have hodd : fieldPrime % 2 = 1 := by decide
  rw [val_neg h]
  omega

/-- Of the two roots of a square, the parity picks out one. -/
theorem root_of_parity {r y : Coordinate} (h : r = y ∨ r = -y) :
    (if r.val % 2 = y.val % 2 then r else -r) = y := by
  rcases h with rfl | rfl
  · exact if_pos rfl
  · by_cases hy : y = 0
    · rw [hy, neg_zero, if_pos rfl]
    · rw [if_neg (val_neg_mod_two hy), neg_neg]

theorem ofBytes?_bigEndian (a : Coordinate) : ofBytes? (Bytes.bigEndian 32 a.val) = some a := by
  rw [ofBytes?_eq_some_iff, Bytes.ofBigEndian_bigEndian,
    Nat.mod_eq_of_lt (a.isLt.trans (by decide))]

end Coordinate

namespace Point

theorem withX?_of_onCurve {x y : Coordinate} (h : OnCurve x y) :
    withX? x (y.val % 2) = some (affine x y h) := by
  obtain ⟨r, hr, hroots⟩ := Coordinate.exists_root?_mul_self y
  rw [h] at hr
  simp only [withX?, hr, Option.bind_eq_bind, Option.bind_some, Coordinate.root_of_parity hroots]
  exact dif_pos h

theorem ofTagged?_toBytes {x y : Coordinate} (h : OnCurve x y) :
    ofTagged? (affine x y h).toBytes = some (affine x y h) := by
  have hparity : parity? (if y.val % 2 = 0 then 2 else 3) = some (y.val % 2) := by
    rcases Nat.mod_two_eq_zero_or_one y.val with h0 | h1
    · rw [h0]
      rfl
    · rw [h1]
      rfl
  simp only [toBytes, ofTagged?, Coordinate.ofBytes?_bigEndian, hparity, Option.bind_eq_bind,
    Option.bind_some]
  exact withX?_of_onCurve h

theorem ofStandardBytes?_toStandardBytes (p : Point) :
    ofStandardBytes? p.toStandardBytes = some p := by
  cases p with
  | identity => rfl
  | affine x y h =>
      have hlength : (affine x y h).toBytes.length = 33 := by
        rw [toBytes, List.length_cons, Bytes.length_bigEndian]
      have hne : (affine x y h).toBytes ≠ [0] := fun h0 => by simp [h0] at hlength
      rw [toStandardBytes, ofStandardBytes?, if_neg hne, if_pos hlength, ofTagged?_toBytes]
      rintro ⟨⟩

theorem length_toStandardBytes_le (p : Point) : p.toStandardBytes.length ≤ 33 := by
  cases p with
  | identity => decide
  | affine x y h =>
      rw [toStandardBytes, toBytes, List.length_cons, Bytes.length_bigEndian]
      rintro ⟨⟩

end Point

end ThresholdKeys
