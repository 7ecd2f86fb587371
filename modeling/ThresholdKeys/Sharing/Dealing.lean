import ThresholdKeys.Random.Source
import ThresholdKeys.Sharing.Lagrange

/-!
# Dealing shares

A dealer draws the coefficients of a polynomial above a given secret, publishes their multiples
and hands every party the value at its point.
-/

namespace ThresholdKeys

structure Dealing where
  commitments : List Point
  shares : List Share
deriving DecidableEq

namespace Dealing

def ofPolynomial (threshold : Nat) (coefficients ids : List Scalar) : Dealing :=
  ⟨coefficients.map (· • Point.generator),
   ids.map fun id => ⟨threshold, id, evaluatePolynomial coefficients id⟩⟩

/-- Deals `secret` to the parties at the points `ids`, any `threshold + 1` of whom recover it. -/
def create (source : Source) (threshold : Nat) (secret : Scalar) (ids : List Scalar) :
    Result (Dealing × Source) :=
  if ids.length ≤ threshold then .error (.argument .thresholdTooLarge)
  else do
    checkEvaluators [] ids
    let (higher, source) := Source.draws Source.nextScalar threshold source
    return (ofPolynomial threshold (secret :: higher) ids, source)

end Dealing

end ThresholdKeys
