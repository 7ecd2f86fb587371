/-!
# Byte strings

Numbers as byte strings, big-endian and little-endian, with a fixed width or with the fewest
bytes, and the hexadecimal text of a byte string. Reading back what was written gives the number
modulo the range of the width.
-/

namespace ThresholdKeys

abbrev Bytes := List UInt8

namespace Bytes

attribute [local instance (2000)] instPowNat

/-- The `width` low base-256 digits, least significant first. -/
def littleEndian : Nat → Nat → Bytes
  | 0, _ => []
  | width + 1, n => UInt8.ofNat n :: littleEndian width (n / 256)

def bigEndian (width n : Nat) : Bytes := (littleEndian width n).reverse

/-- The number of base-256 digits of a number; zero has one digit. -/
def digitCount (n : Nat) : Nat := n.log2 / 8 + 1

/-- The big-endian form without leading zero bytes; zero is the single byte zero. -/
def minimal (n : Nat) : Bytes := bigEndian (digitCount n) n

def ofLittleEndian : Bytes → Nat
  | [] => 0
  | b :: rest => b.toNat + 256 * ofLittleEndian rest

def ofBigEndian (bytes : Bytes) : Nat := bytes.foldl (fun acc b => acc * 256 + b.toNat) 0

/-- The bytes behind as many zero bytes as are missing from `width`. -/
def padded? (width : Nat) (bytes : Bytes) : Option Bytes :=
  if width < bytes.length then none else some (List.replicate (width - bytes.length) 0 ++ bytes)

def fixed? (width n : Nat) : Option Bytes := padded? width (minimal n)

def be64 (n : Nat) : Bytes := bigEndian 8 n

def lengthPrefixed (bytes : Bytes) : Bytes := be64 bytes.length ++ bytes

def ofString (s : String) : Bytes := s.toUTF8.toList

@[simp] theorem length_littleEndian (width n : Nat) : (littleEndian width n).length = width := by
  induction width generalizing n with
  | zero => rfl
  | succ width ih => simp [littleEndian, ih]

@[simp] theorem length_bigEndian (width n : Nat) : (bigEndian width n).length = width := by
  simp [bigEndian]

theorem ofLittleEndian_littleEndian (width n : Nat) :
    ofLittleEndian (littleEndian width n) = n % 256 ^ width := by
  induction width generalizing n with
  | zero => simp [littleEndian, ofLittleEndian, Nat.mod_one]
  | succ width ih =>
      simp only [littleEndian, ofLittleEndian, ih, UInt8.toNat_ofNat']
      have split : 256 ^ (width + 1) = 256 * 256 ^ width := Nat.pow_succ'
      exact (split ▸ Nat.mod_mul).symm

theorem ofBigEndian_reverse (bytes : Bytes) : ofBigEndian bytes.reverse = ofLittleEndian bytes := by
  induction bytes with
  | nil => rfl
  | cons b rest ih =>
      simp only [ofBigEndian, List.foldl_reverse, List.foldr_cons, ofLittleEndian] at ih ⊢
      rw [ih, Nat.mul_comm, Nat.add_comm]

theorem ofBigEndian_bigEndian (width n : Nat) :
    ofBigEndian (bigEndian width n) = n % 256 ^ width := by
  rw [bigEndian, ofBigEndian_reverse, ofLittleEndian_littleEndian]

theorem lt_pow_digitCount (n : Nat) : n < 256 ^ digitCount n := by
  have h : n < 2 ^ (n.log2 + 1) := Nat.lt_log2_self
  have hle : 2 ^ (n.log2 + 1) ≤ 2 ^ (8 * digitCount n) :=
    Nat.pow_le_pow_right (by decide) (by unfold digitCount; omega)
  exact Nat.lt_of_lt_of_le h (Nat.pow_mul 2 8 (digitCount n) ▸ hle)

theorem ofBigEndian_minimal (n : Nat) : ofBigEndian (minimal n) = n := by
  rw [minimal, ofBigEndian_bigEndian, Nat.mod_eq_of_lt (lt_pow_digitCount n)]

/-! ## Fixed widths -/

theorem littleEndian_ofLittleEndian (bytes : Bytes) :
    littleEndian bytes.length (ofLittleEndian bytes) = bytes := by
  induction bytes with
  | nil => rfl
  | cons b rest ih =>
      have hlow : UInt8.ofNat (b.toNat + 256 * ofLittleEndian rest) = b := by
        apply UInt8.toNat_inj.1
        rw [UInt8.toNat_ofNat', Nat.add_mul_mod_self_left, Nat.mod_eq_of_lt b.toNat_lt]
      have hhigh : (b.toNat + 256 * ofLittleEndian rest) / 256 = ofLittleEndian rest := by
        have := b.toNat_lt
        omega
      rw [List.length_cons, ofLittleEndian, littleEndian, hlow, hhigh, ih]

theorem bigEndian_ofBigEndian (bytes : Bytes) :
    bigEndian bytes.length (ofBigEndian bytes) = bytes := by
  have h := littleEndian_ofLittleEndian bytes.reverse
  rw [← ofBigEndian_reverse, List.reverse_reverse, List.length_reverse] at h
  rw [bigEndian, h, List.reverse_reverse]

theorem ofBigEndian_lt (bytes : Bytes) : ofBigEndian bytes < 256 ^ bytes.length := by
  have h := ofBigEndian_bigEndian bytes.length (ofBigEndian bytes)
  rw [bigEndian_ofBigEndian] at h
  exact h ▸ Nat.mod_lt _ (Nat.pow_pos (by decide))

theorem digitCount_le_iff {width n : Nat} (hwidth : 0 < width) :
    digitCount n ≤ width ↔ n < 256 ^ width := by
  have hpow : 256 ^ width = 2 ^ (8 * width) := (Nat.pow_mul 2 8 width).symm
  unfold digitCount
  by_cases h0 : n = 0
  · subst h0
    exact iff_of_true hwidth (Nat.pow_pos (by decide))
  · rw [hpow, ← Nat.log2_lt h0]
    omega

theorem ofBigEndian_replicate_append (count : Nat) (bytes : Bytes) :
    ofBigEndian (List.replicate count 0 ++ bytes) = ofBigEndian bytes := by
  induction count with
  | zero => rfl
  | succ count ih => exact ih

theorem eq_of_ofBigEndian_eq {bytes bytes' : Bytes} (hlength : bytes.length = bytes'.length)
    (h : ofBigEndian bytes = ofBigEndian bytes') : bytes = bytes' := by
  rw [← bigEndian_ofBigEndian bytes, hlength, h, bigEndian_ofBigEndian]

theorem fixed?_eq_some_iff {width n : Nat} {bytes : Bytes} (hwidth : 0 < width) :
    fixed? width n = some bytes ↔ bytes.length = width ∧ ofBigEndian bytes = n := by
  have hminimal : (minimal n).length = digitCount n := length_bigEndian ..
  unfold fixed? padded?
  split
  · rename_i hlong
    refine iff_of_false (by rintro ⟨⟩) ?_
    rintro ⟨rfl, rfl⟩
    have hle := (digitCount_le_iff hwidth).2 (ofBigEndian_lt bytes)
    omega
  · rename_i hfits
    have hlength : (List.replicate (width - (minimal n).length) 0 ++ minimal n).length = width := by
      rw [List.length_append, List.length_replicate]
      omega
    have hvalue : ofBigEndian (List.replicate (width - (minimal n).length) 0 ++ minimal n) = n := by
      rw [ofBigEndian_replicate_append, ofBigEndian_minimal]
    rw [Option.some.injEq]
    constructor
    · rintro rfl
      exact ⟨hlength, hvalue⟩
    · rintro ⟨hbytes, hn⟩
      exact eq_of_ofBigEndian_eq (hlength.trans hbytes.symm) (hvalue.trans hn.symm)

theorem fixed?_of_lt {width n : Nat} (hwidth : 0 < width) (h : n < 256 ^ width) :
    fixed? width n = some (bigEndian width n) :=
  (fixed?_eq_some_iff hwidth).2
    ⟨length_bigEndian .., by rw [ofBigEndian_bigEndian, Nat.mod_eq_of_lt h]⟩

/-! ## Hexadecimal text -/

def hexDigit (n : Nat) : Char := Char.ofNat (if n < 10 then 48 + n else 87 + n)

def hex (bytes : Bytes) : String :=
  String.ofList (bytes.flatMap fun b => [hexDigit (b.toNat / 16), hexDigit (b.toNat % 16)])

def hexValue? (c : Char) : Option Nat :=
  if '0' ≤ c ∧ c ≤ '9' then some (c.toNat - 48)
  else if 'a' ≤ c ∧ c ≤ 'f' then some (c.toNat - 87)
  else if 'A' ≤ c ∧ c ≤ 'F' then some (c.toNat - 55)
  else none

def ofHexDigits? : List Char → Option Bytes
  | [] => some []
  | [_] => none
  | high :: low :: rest => do
      let h ← hexValue? high
      let l ← hexValue? low
      return UInt8.ofNat (16 * h + l) :: (← ofHexDigits? rest)

def ofHex? (text : String) : Option Bytes := ofHexDigits? text.toList

end Bytes

end ThresholdKeys
