import ThresholdKeys.Arithmetic.Residue

/-!
# Points of the curve

The curve `y² = x³ + 7` over a prime field: its points, the identity among them, and their
addition by chords and tangents.
-/

namespace ThresholdKeys

def fieldPrime : Nat := 0xfffffffffffffffffffffffffffffffffffffffffffffffffffffffefffffc2f

instance : Modulus fieldPrime := ⟨by decide⟩

abbrev Coordinate := Residue fieldPrime

namespace Coordinate

def ofNat (n : Nat) : Coordinate := Residue.ofNat fieldPrime n

def ofReduced? (n : Nat) : Option Coordinate := if h : n < fieldPrime then some ⟨n, h⟩ else none

end Coordinate

def OnCurve (x y : Coordinate) : Prop := y * y = x * x * x + Coordinate.ofNat 7

instance (x y : Coordinate) : Decidable (OnCurve x y) :=
  inferInstanceAs (Decidable (y * y = x * x * x + Coordinate.ofNat 7))

inductive Point
  | identity
  | affine (x y : Coordinate) (onCurve : OnCurve x y)
deriving DecidableEq

namespace Point

def ofCoordinates? (x y : Coordinate) : Option Point :=
  if h : OnCurve x y then some (affine x y h) else none

/-- As `ofCoordinates?`, for coordinates that the group law yields and that therefore lie on the
curve. -/
def ofAffine (x y : Coordinate) : Point := (ofCoordinates? x y).getD identity

def coordinates? : Point → Option (Coordinate × Coordinate)
  | identity => none
  | affine x y _ => some (x, y)

def isIdentity : Point → Bool
  | identity => true
  | affine .. => false

/-- The third point of a line of the given slope through the point, reflected. -/
def reflectThird (slope x₁ y₁ x₂ : Coordinate) : Point :=
  let x := slope * slope - x₁ - x₂
  ofAffine x (slope * (x₁ - x) - y₁)

def add : Point → Point → Point
  | identity, q => q
  | p, identity => p
  | affine x₁ y₁ _, affine x₂ y₂ _ =>
      if x₁ = x₂ then
        if y₁ + y₂ = 0 then identity
        else reflectThird (Coordinate.ofNat 3 * x₁ * x₁ * (y₁ + y₁).inverse) x₁ y₁ x₂
      else reflectThird ((y₂ - y₁) * (x₂ - x₁).inverse) x₁ y₁ x₂

instance : Zero Point := ⟨identity⟩
instance : Add Point := ⟨add⟩
instance : Inhabited Point := ⟨identity⟩

def sum (points : List Point) : Point := points.foldl (· + ·) 0

theorem ofCoordinates?_eq_some_iff (x y : Coordinate) (p : Point) :
    ofCoordinates? x y = some p ↔ p.coordinates? = some (x, y) := by
  cases p with
  | identity => simp [ofCoordinates?, coordinates?]
  | affine u v h =>
      simp only [ofCoordinates?, coordinates?, Option.dite_none_right_eq_some, Option.some.injEq,
        affine.injEq, Prod.mk.injEq]
      exact ⟨fun ⟨_, hx, hy⟩ => ⟨hx.symm, hy.symm⟩, fun ⟨hx, hy⟩ => ⟨hx ▸ hy ▸ h, hx.symm, hy.symm⟩⟩

end Point

end ThresholdKeys
