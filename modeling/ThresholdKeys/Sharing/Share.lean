import ThresholdKeys.Curve.Multiple
import ThresholdKeys.Text.Quoted

/-!
# Shares of a secret

A secret is the constant term of a polynomial and a share is its value at the point of a party.
The dealer publishes the multiples of the generator by all coefficients, against which every
holder checks its share.
-/

namespace ThresholdKeys

/-- The value of a polynomial, lowest coefficient first, by Horner's rule. -/
def evaluatePolynomial (coefficients : List Scalar) (x : Scalar) : Scalar :=
  coefficients.foldr (fun c acc => acc * x + c) 0

def evaluateCommitments (vs : List Point) (x : Scalar) : Point :=
  vs.foldr (fun v acc => x • acc + v) 0

structure Share where
  threshold : Nat
  /-- The evaluation point of the holder. -/
  id : Scalar
  value : Scalar
deriving DecidableEq

namespace Share

/-- There is one point more than the threshold. The sum is taken in a machine word, so for the
largest threshold it comes to zero. -/
def FitsThreshold (vs : List Point) (threshold : Nat) : Prop :=
  vs.length = threshold + 1 ∨ threshold + 1 = UInt64.size ∧ vs = []

instance (vs : List Point) (threshold : Nat) : Decidable (FitsThreshold vs threshold) :=
  inferInstanceAs (Decidable (_ ∨ _ ∧ _))

/-- The check of a share against the published points. -/
def Verifies (s : Share) (threshold : Nat) (vs : List Point) : Prop :=
  s.threshold = threshold ∧ FitsThreshold vs threshold ∧
    s.value • Point.generator = evaluateCommitments vs s.id

instance (s : Share) (threshold : Nat) (vs : List Point) : Decidable (s.Verifies threshold vs) :=
  inferInstanceAs (Decidable (_ ∧ _ ∧ _))

def Plausible (s : Share) : Prop := 0 < s.threshold ∧ s.id ≠ 0

instance (s : Share) : Decidable s.Plausible := inferInstanceAs (Decidable (_ ∧ _))

def describe (s : Share) : String :=
  let id := String.ofList (s.id.toBytes.hex.toList.map Char.toUpper)
  Text.record "Share" [("threshold", toString s.threshold), ("id", "Scalar(Uint(0x" ++ id ++ "))"),
    ("share", Text.quoted "[redacted]")]

end Share

end ThresholdKeys
