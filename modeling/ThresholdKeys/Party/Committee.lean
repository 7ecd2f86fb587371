import ThresholdKeys.Error
import ThresholdKeys.Random.Source

/-!
# Committees

A committee lists its parties in the order of their keys, each with its position. Committees are
built from lists in any order; keys that share an evaluation point are refused.
-/

namespace ThresholdKeys

namespace PartyId

def evaluationPoint (p : PartyId) : Result Scalar :=
  match Scalar.ofInteger? p.key with
  | none => .error .brokenInvariant
  | some point => if point = 0 then .error (.caller (.malformedParty p)) else .ok point

theorem toOption_evaluationPoint (p : PartyId) :
    p.evaluationPoint.toOption = p.evaluationPoint? := by
  rw [evaluationPoint, evaluationPoint?_eq, Scalar.ofInteger?_eq]
  simp only
  split <;> rfl

def random (source : Source) (moniker : String) : PartyId × Source :=
  let (key, source) := source.nextWord
  (⟨Bytes.hex ((Bytes.bigEndian 32 key).take 8), moniker, key, none⟩, source)

end PartyId

/-- A list of parties, in the order of their keys if it was built by `Committee.ofList`. -/
structure Committee where
  members : List PartyId
deriving DecidableEq

namespace Committee

/-- The first party whose evaluation point also belongs to an earlier one. -/
def firstRepeated? : List Scalar → List (PartyId × Scalar) → Option PartyId
  | _, [] => none
  | earlier, (p, x) :: rest =>
      if x ∈ earlier then some p else firstRepeated? (earlier ++ [x]) rest

/-- Puts a party before the first one whose key is not smaller. -/
def insertByKey (p : PartyId) : List PartyId → List PartyId
  | [] => [p]
  | q :: rest => if p.key ≤ q.key then p :: q :: rest else q :: insertByKey p rest

def sortByKey (parties : List PartyId) : List PartyId := parties.foldr insertByKey []

def ofList (parties : List PartyId) : Result Committee := do
  if parties = [] then throw (.badInput .noParticipants)
  let points ← parties.mapM PartyId.evaluationPoint
  match firstRepeated? [] (parties.zip points) with
  | some p => throw (.badInput (.duplicateKey p))
  | none => return ⟨(sortByKey parties).mapIdx fun i p => { p with index := some i }⟩

def size (c : Committee) : Nat := c.members.length

def get? (c : Committee) (i : Nat) : Option PartyId := c.members[i]?

def find? (c : Committee) (p : PartyId) : Option PartyId :=
  c.members.find? fun q => decide (q.SameKey p)

/-- The position that the member with the key of the given party carries. -/
def position? (c : Committee) (p : PartyId) : Option Nat := (c.find? p).bind PartyId.index

/-- The place of a party that sits where it claims to. -/
def seat? (c : Committee) (p : PartyId) : Option Nat := do
  let i ← p.index
  let q ← c.members[i]?
  if q.SameKey p then some i else none

def points (c : Committee) : Result (List Scalar) := c.members.mapM PartyId.evaluationPoint

def exclude (c : Committee) (i : Nat) : List PartyId :=
  c.members.filter fun p => p.index ≠ some i

end Committee

end ThresholdKeys
