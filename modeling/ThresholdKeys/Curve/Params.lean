import ThresholdKeys.Curve.Encoding
import ThresholdKeys.Curve.Multiple
import ThresholdKeys.Error

/-!
# Named curve parameters

A curve goes by a name that its users choose; the name is bound into sessions and proofs. A
registry finds parameters by name and takes only those of the one group computed in here.
-/

namespace ThresholdKeys

structure CurveParams where
  name : String
  order : Nat
  generator : Point
deriving DecidableEq

namespace CurveParams

def named (name : String) : CurveParams := ⟨name, groupOrder, Point.generator⟩

def secp256k1 : CurveParams := named "secp256k1"

def toBytes (c : CurveParams) : Bytes :=
  Bytes.lengthPrefixed (Bytes.ofString c.name) ++ Bytes.minimal c.order ++ c.generator.toBytes

end CurveParams

/-- Parameters in the order in which they were registered; no name occurs twice. -/
structure Registry where
  curves : List CurveParams

namespace Registry

def empty : Registry := ⟨[]⟩

def withDefaults : Registry := ⟨[.secp256k1]⟩

def find? (r : Registry) (name : String) : Option CurveParams :=
  r.curves.find? fun c => c.name = name

def get (r : Registry) (name : String) : Result CurveParams :=
  match r.find? name with
  | some c => .ok c
  | none => .error (.badInput (.unknownCurve name))

def register (r : Registry) (c : CurveParams) : Result Registry :=
  if (r.find? c.name).isSome then .error (.badInput (.curveRegistered c.name))
  else if c.order ≠ groupOrder ∨ c.generator ≠ Point.generator then
    .error (.badInput (.curveMismatch c.name))
  else .ok ⟨r.curves ++ [c]⟩

end Registry

end ThresholdKeys
