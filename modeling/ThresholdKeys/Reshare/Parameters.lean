import ThresholdKeys.Keygen.Parameters

/-!
# Parameters of resharing

The committee that holds a key and the committee that is to hold it next. A party can be on either
or on both.
-/

namespace ThresholdKeys.Reshare

structure Parameters where
  curve : CurveParams
  old : Committee
  new : Committee
  oldThreshold : Nat
  newThreshold : Nat
  /-- This party, as the old committee lists it, or else the new one. -/
  id : PartyId
  oldId : Option PartyId
  newId : Option PartyId
  version : Version

namespace Parameters

def make (curve : CurveParams) (old new : Committee) (id : PartyId)
    (oldThreshold newThreshold : Nat) (version : Version) : Result Parameters := do
  if old.size ≤ oldThreshold then throw (.badInput .oldCommitteeTooSmall)
  else do
    checkThreshold newThreshold new.size
    let oldId := old.find? id
    let newId := new.find? id
    match oldId <|> newId with
    | some own => return ⟨curve, old, new, oldThreshold, newThreshold, own, oldId, newId, version⟩
    | none => throw (.badInput (.inNeitherCommittee id))

def isOld (p : Parameters) : Bool := p.oldId.isSome

def isNew (p : Parameters) : Bool := p.newId.isSome

def oldIndex? (p : Parameters) : Option Nat := p.oldId.bind PartyId.index

def newIndex? (p : Parameters) : Option Nat := p.newId.bind PartyId.index

end Parameters

end ThresholdKeys.Reshare
