import ThresholdKeys.Bytes
import ThresholdKeys.Curve.Scalar
import ThresholdKeys.Text.Quoted

/-!
# Identities of parties

A party is known by an integer key. The key modulo the group order is the point at which the
party's shares are evaluated, so a key that is a multiple of the order is of no use.
-/

namespace ThresholdKeys

structure PartyId where
  id : String
  moniker : String
  key : Nat
  /-- The position in a sorted committee, once there is one. -/
  index : Option Nat := none
deriving DecidableEq

namespace PartyId

def SameKey (p q : PartyId) : Prop := p.key = q.key

instance (p q : PartyId) : Decidable (SameKey p q) := inferInstanceAs (Decidable (p.key = q.key))

/-- The key modulo the group order, unless that is zero. -/
def evaluationPoint? (p : PartyId) : Option Scalar := do
  let point ← Scalar.ofInteger? p.key
  if point = 0 then none else some point

def WellFormed (p : PartyId) : Prop := p.index.isSome ∧ p.evaluationPoint?.isSome

instance (p : PartyId) : Decidable p.WellFormed := inferInstanceAs (Decidable (_ ∧ _))

/-- The index, the moniker and the first bytes of the key. -/
def label (p : PartyId) : String :=
  let index := match p.index with
    | some i => toString i
    | none => "-"
  let short := String.ofList ((Bytes.minimal p.key).hex.toList.take 8)
  "\x7b" ++ index ++ "," ++ p.moniker ++ "," ++ short ++ "\x7d"

def describe (p : PartyId) : String :=
  let index := match p.index with
    | some i => "Some(" ++ toString i ++ ")"
    | none => "None"
  Text.record "PartyId" [("id", Text.quoted p.id), ("moniker", Text.quoted p.moniker),
    ("key", toString p.key), ("index", index)]

theorem evaluationPoint?_eq (p : PartyId) :
    p.evaluationPoint? = if Scalar.ofNat p.key = 0 then none else some (Scalar.ofNat p.key) := by
  rw [evaluationPoint?, Scalar.ofInteger?_eq]
  rfl

end PartyId

end ThresholdKeys
