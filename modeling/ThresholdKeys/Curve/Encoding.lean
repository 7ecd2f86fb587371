import ThresholdKeys.Bytes
import ThresholdKeys.Curve.Point

/-!
# Byte forms of points

A point is written as a tag for the parity of `y` followed by `x`. Reading also takes the form
with both coordinates and the form that means the even `y`, and finds the missing `y` as a square
root.
-/

namespace ThresholdKeys

namespace Coordinate

/-- A root of a square; the field prime is three modulo four. -/
def root? (a : Coordinate) : Option Coordinate :=
  let r := a.power ((fieldPrime + 1) / 4)
  if r * r = a then some r else none

def ofBytes? (bytes : Bytes) : Option Coordinate := ofReduced? (Bytes.ofBigEndian bytes)

theorem ofBytes?_eq_some_iff {bytes : Bytes} {a : Coordinate} :
    ofBytes? bytes = some a ↔ Bytes.ofBigEndian bytes = a.val := Residue.dite_eq_some_iff

end Coordinate

namespace Point

/-- A tag byte and the thirty-two bytes of `x`; the identity is thirty-three zero bytes. -/
def toBytes : Point → Bytes
  | identity => List.replicate 33 0
  | affine x y _ => (if y.val % 2 = 0 then 2 else 3) :: Bytes.bigEndian 32 x.val

def withX? (x : Coordinate) (parity : Nat) : Option Point := do
  let y ← Coordinate.root? (x * x * x + Coordinate.ofNat 7)
  ofCoordinates? x (if y.val % 2 = parity then y else -y)

def parity? (tag : UInt8) : Option Nat :=
  if tag = 2 ∨ tag = 5 then some 0 else if tag = 3 then some 1 else none

def ofTagged? : Bytes → Option Point
  | [] => none
  | tag :: x => do withX? (← Coordinate.ofBytes? x) (← parity? tag)

def ofBytes? (bytes : Bytes) : Option Point :=
  if bytes.length = 33 then
    if bytes = List.replicate 33 0 then some identity else ofTagged? bytes
  else none

/-- Reads any of the standard forms: one zero byte, a tag and `x`, or the tag 4 and both
coordinates. -/
def ofStandardBytes? (bytes : Bytes) : Option Point :=
  if bytes = [0] then some identity
  else if bytes.length = 33 then ofTagged? bytes
  else if bytes.length = 65 ∧ bytes.head? = some 4 then do
    let x ← Coordinate.ofBytes? ((bytes.drop 1).take 32)
    let y ← Coordinate.ofBytes? (bytes.drop 33)
    ofCoordinates? x y
  else none

def toStandardBytes : Point → Bytes
  | identity => [0]
  | p => p.toBytes

end Point

end ThresholdKeys
