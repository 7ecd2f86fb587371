import ThresholdKeys.Error
import ThresholdKeys.Wire.Codec

/-!
# Messages

A message is content together with its routing: who sent it, to whom it is addressed, whether it
was broadcast, and which committee it concerns. Only scope and content travel as bytes; the rest
of the routing is what the transport vouches for.
-/

namespace ThresholdKeys

/-- The committee that a message is meant for. -/
inductive Scope
  | new
  | old
  | both
deriving DecidableEq

namespace Scope

def describe : Scope → String
  | new => "new committee"
  | old => "old committee"
  | both => "old and new committees"

def codec : Codec Scope :=
  Codec.u32.refine (fun s => match s with | .new => 0 | .old => 1 | .both => 2)
    fun n => if n = 0 then some .new else if n = 1 then some .old else if n = 2 then some .both
      else none

end Scope

class Content (C : Type) where
  /-- The round in which the content is sent. -/
  round : C → Nat
  kind : C → String
  /-- Checks that need no state. -/
  isPlausible : C → Bool
  codec : Codec C

structure Message (C : Type) where
  sender : PartyId
  /-- Absent when the message goes to everybody. -/
  recipients : Option (List PartyId)
  isBroadcast : Bool
  scope : Scope
  content : C
deriving DecidableEq

namespace Message

variable {C : Type}

def broadcast (sender : PartyId) (scope : Scope) (content : C) : Message C :=
  ⟨sender, none, true, scope, content⟩

def direct (sender recipient : PartyId) (scope : Scope) (content : C) : Message C :=
  ⟨sender, some [recipient], false, scope, content⟩

def isToOld (m : Message C) : Bool := m.scope = .old ∨ m.scope = .both

def isToNew (m : Message C) : Bool := m.scope = .new ∨ m.scope = .both

def isToBoth (m : Message C) : Bool := m.scope = .both

variable [Content C]

def round (m : Message C) : Nat := Content.round m.content

def kind (m : Message C) : String := Content.kind m.content

def codec (C : Type) [Content C] : Codec (Scope × C) := Scope.codec.pair Content.codec

def toWire (m : Message C) : Bytes := (codec C).encode (m.scope, m.content)

/-- Reads scope and content off the front of the bytes; the transport supplies the rest. -/
def ofWire (bytes : Bytes) (sender : PartyId) (recipients : Option (List PartyId))
    (isBroadcast : Bool) : Result (Message C) :=
  match (codec C).decodeFront? bytes with
  | some (scope, content) => .ok ⟨sender, recipients, isBroadcast, scope, content⟩
  | none => .error (.caller .undecodable)

end Message

end ThresholdKeys
