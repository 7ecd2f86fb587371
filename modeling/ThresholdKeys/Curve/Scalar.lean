import ThresholdKeys.Arithmetic.Residue
import ThresholdKeys.Bytes

/-!
# Scalars

Exponents of the group, which are numbers modulo its prime order.
-/

namespace ThresholdKeys

/-- The number of points on the curve, a prime. -/
def groupOrder : Nat := 0xfffffffffffffffffffffffffffffffebaaedce6af48a03bbfd25e8cd0364141

instance : Modulus groupOrder := ⟨by decide⟩

abbrev Scalar := Residue groupOrder

namespace Scalar

def ofNat (n : Nat) : Scalar := Residue.ofNat groupOrder n

/-- The scalar of a number that is already reduced. -/
def ofReduced? (n : Nat) : Option Scalar := if h : n < groupOrder then some ⟨n, h⟩ else none

def toBytes (s : Scalar) : Bytes := Bytes.bigEndian 32 s.val

def ofBytes? (bytes : Bytes) : Option Scalar := ofReduced? (Bytes.ofBigEndian bytes)

/-- The scalar whose bytes are those of an integer modulo the group order. -/
def ofInteger? (n : Nat) : Option Scalar := do ofBytes? (← Bytes.fixed? 32 (n % groupOrder))

def toInteger (s : Scalar) : Nat := Bytes.ofBigEndian s.toBytes

theorem ofBytes?_eq_some_iff {bytes : Bytes} {s : Scalar} :
    ofBytes? bytes = some s ↔ Bytes.ofBigEndian bytes = s.val := Residue.dite_eq_some_iff

theorem ofInteger?_eq (n : Nat) : ofInteger? n = some (ofNat n) := by
  have hlt : n % groupOrder < 256 ^ 32 :=
    Nat.lt_trans (Nat.mod_lt n (by decide)) (by decide)
  have hbytes := Bytes.fixed?_of_lt (by decide) hlt
  rw [ofInteger?, hbytes]
  apply ofBytes?_eq_some_iff.2
  rw [Bytes.ofBigEndian_bigEndian, Nat.mod_eq_of_lt hlt]
  rfl

theorem toInteger_eq (s : Scalar) : s.toInteger = s.val := by
  rw [toInteger, toBytes, Bytes.ofBigEndian_bigEndian]
  exact Nat.mod_eq_of_lt (Nat.lt_trans s.isLt (by decide))

end Scalar

end ThresholdKeys
