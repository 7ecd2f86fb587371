import Mathlib
import ThresholdKeys.Arithmetic.Residue

/-!
# Residues form a ring

The residues below a modulus are the integers modulo it: they form a commutative ring under the
operations computed on representatives, and a field when the modulus is prime. Powers and
inverses found by repeated squaring are the powers and inverses of that ring.
-/

namespace ThresholdKeys.Residue

variable {m : ℕ} [Modulus m]

def toZMod (a : Residue m) : ZMod m := (a.val : ZMod m)

theorem toZMod_ofNat (n : ℕ) : toZMod (ofNat m n) = (n : ZMod m) := by
  simp [toZMod, val_ofNat]

omit [Modulus m] in
theorem toZMod_injective : Function.Injective (toZMod : Residue m → ZMod m) := by
  intro a b h
  have hmod : a.val ≡ b.val [MOD m] := (ZMod.natCast_eq_natCast_iff a.val b.val m).1 h
  rw [Nat.ModEq, Nat.mod_eq_of_lt a.isLt, Nat.mod_eq_of_lt b.isLt] at hmod
  exact ext hmod

theorem toZMod_zero : toZMod (0 : Residue m) = 0 := by
  rw [show (0 : Residue m) = ofNat m 0 from rfl, toZMod_ofNat, Nat.cast_zero]

theorem toZMod_one : toZMod (1 : Residue m) = 1 := by
  rw [show (1 : Residue m) = ofNat m 1 from rfl, toZMod_ofNat, Nat.cast_one]

theorem toZMod_add (a b : Residue m) : toZMod (a + b) = toZMod a + toZMod b := by
  rw [show a + b = ofNat m (a.val + b.val) from rfl, toZMod_ofNat, Nat.cast_add]
  rfl

theorem toZMod_mul (a b : Residue m) : toZMod (a * b) = toZMod a * toZMod b := by
  rw [show a * b = ofNat m (a.val * b.val) from rfl, toZMod_ofNat, Nat.cast_mul]
  rfl

theorem toZMod_neg (a : Residue m) : toZMod (-a) = -toZMod a := by
  rw [show -a = ofNat m (m - a.val) from rfl, toZMod_ofNat, Nat.cast_sub a.isLt.le,
    ZMod.natCast_self, zero_sub]
  rfl

theorem toZMod_sub (a b : Residue m) : toZMod (a - b) = toZMod a - toZMod b := by
  rw [show a - b = ofNat m (a.val + (m - b.val)) from rfl, toZMod_ofNat, Nat.cast_add,
    Nat.cast_sub b.isLt.le, ZMod.natCast_self, zero_sub, ← sub_eq_add_neg]
  rfl

instance : NatCast (Residue m) := ⟨ofNat m⟩

theorem natCast_def (n : ℕ) : (n : Residue m) = ofNat m n := rfl

theorem toZMod_natCast (n : ℕ) : toZMod (n : Residue m) = n := toZMod_ofNat n

instance : CommRing (Residue m) where
  add_assoc a b c := toZMod_injective (by simp only [toZMod_add, add_assoc])
  zero_add a := toZMod_injective (by simp only [toZMod_add, toZMod_zero, zero_add])
  add_zero a := toZMod_injective (by simp only [toZMod_add, toZMod_zero, add_zero])
  add_comm a b := toZMod_injective (by simp only [toZMod_add, add_comm])
  mul_assoc a b c := toZMod_injective (by simp only [toZMod_mul, mul_assoc])
  one_mul a := toZMod_injective (by simp only [toZMod_mul, toZMod_one, one_mul])
  mul_one a := toZMod_injective (by simp only [toZMod_mul, toZMod_one, mul_one])
  left_distrib a b c := toZMod_injective (by simp only [toZMod_add, toZMod_mul, mul_add])
  right_distrib a b c := toZMod_injective (by simp only [toZMod_add, toZMod_mul, add_mul])
  zero_mul a := toZMod_injective (by simp only [toZMod_mul, toZMod_zero, zero_mul])
  mul_zero a := toZMod_injective (by simp only [toZMod_mul, toZMod_zero, mul_zero])
  mul_comm a b := toZMod_injective (by simp only [toZMod_mul, mul_comm])
  neg_add_cancel a := toZMod_injective (by
    simp only [toZMod_add, toZMod_neg, toZMod_zero, neg_add_cancel])
  sub_eq_add_neg a b := toZMod_injective (by
    simp only [toZMod_sub, toZMod_add, toZMod_neg, sub_eq_add_neg])
  natCast_zero := rfl
  natCast_succ n := toZMod_injective (by
    simp only [toZMod_natCast, toZMod_add, toZMod_one, Nat.cast_add, Nat.cast_one])
  nsmul := nsmulRec
  zsmul := zsmulRec

def zmodHom : Residue m →+* ZMod m where
  toFun := toZMod
  map_zero' := toZMod_zero
  map_one' := toZMod_one
  map_add' := toZMod_add
  map_mul' := toZMod_mul

instance : CharP (Residue m) m where
  cast_eq_zero_iff n := by
    rw [natCast_def, ofNat_eq_zero_iff, Nat.dvd_iff_mod_eq_zero]

theorem natCast_eq_zero_iff_dvd (n : ℕ) : (n : Residue m) = 0 ↔ m ∣ n :=
  CharP.cast_eq_zero_iff (Residue m) m n

theorem power_eq_pow (a : Residue m) (n : ℕ) : a.power n = a ^ n := by
  apply @alongBits_eq _ _ _ _ fun n => a ^ n
  · exact pow_zero a
  · intro n
    rw [two_mul, pow_add]
  · intro n
    rw [pow_succ, two_mul, pow_add]

theorem sum_eq_sum (xs : List (Residue m)) : sum xs = xs.sum := by
  rw [sum, List.sum_eq_foldl]

theorem product_eq_prod (xs : List (Residue m)) : product xs = xs.prod := by
  rw [product, List.prod_eq_foldl]

/-! ## Prime moduli -/

theorem mul_inverse (hm : m.Prime) {a : Residue m} (h : a ≠ 0) : a * a.inverse = 1 := by
  have : Fact m.Prime := ⟨hm⟩
  have hz : toZMod a ≠ 0 := fun hz => h (toZMod_injective (hz.trans toZMod_zero.symm))
  have hpow : toZMod (a ^ (m - 1)) = toZMod a ^ (m - 1) := map_pow zmodHom a (m - 1)
  have htwo : 2 ≤ m := hm.two_le
  rw [inverse, power_eq_pow, ← pow_succ', show m - 2 + 1 = m - 1 by omega]
  apply toZMod_injective
  rw [hpow, toZMod_one, ZMod.pow_card_sub_one_eq_one hz]

theorem inverse_zero (h : 2 < m) : (0 : Residue m).inverse = 0 := by
  rw [inverse, power_eq_pow, zero_pow (by omega)]

/-- Residues modulo an odd prime form a field, the inverse being the computed one. -/
abbrev fieldOfPrime (hm : m.Prime) (h : 2 < m) : Field (Residue m) where
  inv := inverse
  exists_pair_ne := ⟨0, 1, fun h01 => by
    have hval : (0 : ℕ) % m = 1 % m := congrArg val h01
    rw [Nat.zero_mod, Nat.mod_eq_of_lt hm.one_lt] at hval
    omega⟩
  mul_inv_cancel _ := mul_inverse hm
  inv_zero := inverse_zero h
  nnqsmul := _
  nnqsmul_def _ _ := rfl
  qsmul := _
  qsmul_def _ _ := rfl

end ThresholdKeys.Residue
