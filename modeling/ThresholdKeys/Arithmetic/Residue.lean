import ThresholdKeys.Arithmetic.Binary

/-!
# Arithmetic modulo a number

Residues below a fixed modulus. A negative power is taken by Fermat's rule, which is right for a
prime modulus; the inverse of zero is zero.
-/

namespace ThresholdKeys

class Modulus (m : Nat) : Prop where
  pos : 0 < m

structure Residue (m : Nat) where
  val : Nat
  isLt : val < m
deriving DecidableEq

namespace Residue

variable {m : Nat} [Modulus m]

@[ext] theorem ext {m : Nat} {a b : Residue m} (h : a.val = b.val) : a = b := by
  cases a; cases b; cases h; rfl

def ofNat (m : Nat) [Modulus m] (n : Nat) : Residue m := ⟨n % m, Nat.mod_lt _ Modulus.pos⟩

instance : Zero (Residue m) := ⟨ofNat m 0⟩
instance : One (Residue m) := ⟨ofNat m 1⟩
instance : Add (Residue m) := ⟨fun a b => ofNat m (a.val + b.val)⟩
instance : Sub (Residue m) := ⟨fun a b => ofNat m (a.val + (m - b.val))⟩
instance : Neg (Residue m) := ⟨fun a => ofNat m (m - a.val)⟩
instance : Mul (Residue m) := ⟨fun a b => ofNat m (a.val * b.val)⟩
instance : Inhabited (Residue m) := ⟨0⟩

instance (x : Residue m) (xs : List (Residue m)) : Decidable (x ∈ xs) :=
  List.instDecidableMemOfLawfulBEq x xs

/-- Squaring along the binary digits of the exponent. -/
def power (a : Residue m) (n : Nat) : Residue m :=
  alongBits (fun r => r * r) (fun r => r * a) 1 n

/-- The inverse when the modulus is prime and the residue is not zero. -/
def inverse (a : Residue m) : Residue m := a.power (m - 2)

def sum (xs : List (Residue m)) : Residue m := xs.foldl (· + ·) 0

def product (xs : List (Residue m)) : Residue m := xs.foldl (· * ·) 1

theorem val_ofNat (n : Nat) : (ofNat m n).val = n % m := rfl

theorem val_zero : (0 : Residue m).val = 0 := Nat.zero_mod m

theorem val_add (a b : Residue m) : (a + b).val = (a.val + b.val) % m := rfl

theorem val_mul (a b : Residue m) : (a * b).val = a.val * b.val % m := rfl

theorem ofNat_val (a : Residue m) : ofNat m a.val = a := ext (Nat.mod_eq_of_lt a.isLt)

theorem ofNat_eq_ofNat_iff (a b : Nat) : ofNat m a = ofNat m b ↔ a % m = b % m :=
  ⟨congrArg val, fun h => ext h⟩

theorem dite_eq_some_iff {m n : Nat} {a : Residue m} :
    (if h : n < m then some ⟨n, h⟩ else none) = some a ↔ n = a.val := by
  split
  · exact ⟨fun h => Option.some.inj h ▸ rfl, fun h => congrArg some (ext h)⟩
  · rename_i hle
    exact ⟨fun h => (by cases h), fun h => absurd (h ▸ a.isLt) hle⟩

theorem ofNat_eq_zero_iff (n : Nat) : ofNat m n = 0 ↔ n % m = 0 := by
  rw [show (0 : Residue m) = ofNat m 0 from rfl, ofNat_eq_ofNat_iff, Nat.zero_mod]

end Residue

end ThresholdKeys
