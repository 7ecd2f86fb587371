import ThresholdKeys.Curve.Point
import ThresholdKeys.Curve.Scalar

/-!
# Multiples of points

The multiple of a point by a scalar, computed by doubling and adding on fractions with a common
denominator, so that a single division is left for the end.
-/

namespace ThresholdKeys

/-- The point with coordinates `x / z²` and `y / z³`, or the identity when `z` is zero. -/
structure Fraction where
  x : Coordinate
  y : Coordinate
  z : Coordinate

namespace Fraction

def identity : Fraction := ⟨1, 1, 0⟩

def toPoint (f : Fraction) : Point :=
  if f.z = 0 then .identity
  else
    let w := f.z.inverse
    let w₂ := w * w
    Point.ofAffine (f.x * w₂) (f.y * (w₂ * w))

def double (f : Fraction) : Fraction :=
  let a := f.x * f.x
  let b := f.y * f.y
  let c := b * b
  let s := f.x * b
  let d := s + s + s + s
  let e := a + a + a
  let x := e * e - d - d
  let c₄ := c + c + c + c
  ⟨x, e * (d - x) - c₄ - c₄, f.y * f.z + f.y * f.z⟩

def addAffine (f : Fraction) (x y : Coordinate) : Fraction :=
  if f.z = 0 then ⟨x, y, 1⟩
  else
    let z₂ := f.z * f.z
    let h := x * z₂ - f.x
    let r := y * (z₂ * f.z) - f.y
    if h = 0 then if r = 0 then double f else identity
    else
      let h₂ := h * h
      let h₃ := h₂ * h
      let v := f.x * h₂
      let x' := r * r - h₃ - v - v
      ⟨x', r * (v - x') - f.y * h₃, f.z * h⟩

/-- Doubling along the binary digits of the multiplier. -/
def multiple (x y : Coordinate) (n : Nat) : Fraction :=
  alongBits double (fun f => addAffine f x y) identity n

end Fraction

namespace Point

def multiple (n : Nat) : Point → Point
  | identity => identity
  | affine x y _ => (Fraction.multiple x y n).toPoint

instance : SMul Scalar Point := ⟨fun s p => multiple s.val p⟩

def generatorX : Coordinate :=
  Coordinate.ofNat 0x79be667ef9dcbbac55a06295ce870b07029bfcdb2dce28d959f2815b16f81798

def generatorY : Coordinate :=
  Coordinate.ofNat 0x483ada7726a3c4655da4fbfc0e1108a8fd17b448a68554199c47d08ffb10d4b8

def generator : Point := affine generatorX generatorY (by decide +kernel)

end Point

end ThresholdKeys
