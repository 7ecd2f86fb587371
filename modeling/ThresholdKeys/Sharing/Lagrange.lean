import ThresholdKeys.Error
import ThresholdKeys.Sharing.Share

/-!
# Interpolation at zero

The Lagrange coefficients of a list of evaluation points, the secret behind a list of shares, and
the weights under which the shares of a quorum add up to the secret.
-/

namespace ThresholdKeys

def lagrangeCoefficient (ks : List Scalar) (i : Nat) : Result Scalar :=
  match ks[i]? with
  | none => .error (.argument .lagrangeIndex)
  | some k =>
      let others := ks.eraseIdx i
      if k ∈ others then .error .duplicateEvaluator
      else
        let denominator := Residue.product (others.map (· - k))
        if denominator = 0 then .error .notInvertible
        else .ok (Residue.product others * denominator.inverse)

/-- Evaluation points of dealings and quorums are neither zero nor repeated; the first that is
decides the error. -/
def checkEvaluators : List Scalar → List Scalar → Result Unit
  | _, [] => .ok ()
  | earlier, x :: rest =>
      if x = 0 then .error (.argument .zeroPoint)
      else if x ∈ earlier then .error .duplicateEvaluator
      else checkEvaluators (earlier ++ [x]) rest

/-- The value at zero of the polynomial through all shares. One more than the threshold is taken to
fit a machine word. -/
def reconstruct (shares : List Share) (threshold : Nat) : Result Scalar :=
  if shares.length < threshold + 1 then
    .error (.insufficientShares (threshold + 1) shares.length)
  else do
    let ids := shares.map Share.id
    let terms ← shares.zipIdx.mapM fun (s, i) =>
      (lagrangeCoefficient ids i).map (· * s.value)
    return Residue.sum terms

structure SigningWeight where
  weight : Scalar
  publicWeights : List Point
deriving DecidableEq

def signingWeight (i : Nat) (value : Scalar) (ks : List Scalar) (publicShares : List Point) :
    Result SigningWeight :=
  if ks.length ≠ publicShares.length then .error (.argument .lengthMismatch)
  else do
    checkEvaluators [] ks
    let own ← lagrangeCoefficient ks i
    let weights ← publicShares.zipIdx.mapM fun (p, j) => (lagrangeCoefficient ks j).map (· • p)
    return ⟨own * value, weights⟩

end ThresholdKeys
