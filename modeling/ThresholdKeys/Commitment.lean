import ThresholdKeys.Curve.Encoding
import ThresholdKeys.Error
import ThresholdKeys.Random.Source

/-!
# Hash commitments

A list of integers is committed to by hashing it behind a random first element. The encoding that
is hashed states the number of integers and the length of each, so no two lists share one. Points
are committed to as the list of their coordinates.
-/

namespace ThresholdKeys

structure Commitment where
  digest : Digest
deriving DecidableEq

/-- What opens a commitment: the random element and then the committed integers. -/
structure Opening where
  elements : List Nat
deriving DecidableEq

namespace Opening

def valueCount (o : Opening) : Nat := o.elements.length - 1

/-- What can be the coordinates of at least one point. -/
def HoldsPairs (o : Opening) : Prop := 0 < o.valueCount ∧ o.valueCount % 2 = 0

instance (o : Opening) : Decidable o.HoldsPairs := inferInstanceAs (Decidable (_ ∧ _))

def encoding (elements : List Nat) : Bytes :=
  Bytes.ofString "tss-rounds hash commitment v1" ++ Bytes.be64 elements.length ++
    elements.flatMap fun n => Bytes.lengthPrefixed (Bytes.minimal n)

def commitment (o : Opening) : Commitment := ⟨sha256 (encoding o.elements)⟩

end Opening

namespace Commitment

def commit (source : Source) (values : List Nat) : (Commitment × Opening) × Source :=
  let (r, source) := source.nextWord
  let opening : Opening := ⟨r :: values⟩
  ((opening.commitment, opening), source)

/-- The committed integers, if the opening belongs to the commitment. -/
def open? (c : Commitment) (o : Opening) : Option (List Nat) :=
  match o.elements with
  | [] => none
  | _ :: values => if o.commitment = c then some values else none

end Commitment

namespace Point

/-- The point with the given integer coordinates, each read through its 32-byte form. -/
def ofIntegers? (x y : Nat) : Option Point := do
  let x ← Bytes.fixed? 32 x
  let y ← Bytes.fixed? 32 y
  ofCoordinates? (← Coordinate.ofBytes? x) (← Coordinate.ofBytes? y)

def ofIntegers (x y : Nat) : Result Point :=
  match ofIntegers? x y with
  | some p => .ok p
  | none => .error .brokenInvariant

/-- The coordinates of all points in a row; the identity has none. -/
def flatten : List Point → Result (List Nat)
  | [] => .ok []
  | p :: rest =>
      match p.coordinates? with
      | none => .error .brokenInvariant
      | some (x, y) => (flatten rest).map fun flat => x.val :: y.val :: flat

def ofPairs : List Nat → Result (List Point)
  | x :: y :: rest => do return (← ofIntegers x y) :: (← ofPairs rest)
  | _ => .ok []

def unflatten (flat : List Nat) : Result (List Point) :=
  if flat.length % 2 ≠ 0 then .error (.argument .oddCoordinateCount) else ofPairs flat

end Point

end ThresholdKeys
