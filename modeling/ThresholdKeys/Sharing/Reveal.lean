import ThresholdKeys.Commitment
import ThresholdKeys.Sharing.Dealing

/-!
# Committed dealings

A dealer first commits to the coordinates of its published points and reveals them later. The
points of all dealers are added up coefficient by coefficient, which gives the points of the sum
of their polynomials.
-/

namespace ThresholdKeys

namespace Dealing

def commit (d : Dealing) (source : Source) : Result ((Commitment × Opening) × Source) := do
  return Commitment.commit source (← Point.flatten d.commitments)

end Dealing

namespace Commitment

/-- The points that an opening reveals, if it opens the commitment to `count` points. -/
def reveal? (c : Commitment) (o : Opening) (count : Nat) : Option (List Point) := do
  let values ← c.open? o
  let points ← (Point.unflatten values).toOption
  if points.length = count then some points else none

end Commitment

/-- The sums of the points at equal positions, for the first `count` positions. -/
def sumCommitments (count : Nat) (dealt : List (List Point)) : List Point :=
  (List.range count).map fun c => Point.sum (dealt.map fun vs => vs.getD c 0)

end ThresholdKeys
