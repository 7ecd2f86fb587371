import ThresholdKeys.Message

/-!
# Slots for received messages

A round collects one kind of content from every sender, each in the slot at the sender's position.
A slot keeps the first item that came the way its kind has to come, by broadcast or directly; an
item that came the wrong way gives place to any later one.
-/

namespace ThresholdKeys

structure Received (α : Type) where
  item : α
  isBroadcast : Bool
deriving DecidableEq

abbrev Slots (α : Type) := List (Option (Received α))

namespace Slots

variable {α : Type}

def empty (size : Nat) : Slots α := List.replicate size none

def get? (slots : Slots α) (j : Nat) : Option (Received α) := slots[j]?.join

/-- What a slot holds after `new` has come in, where `byBroadcast` says how its kind comes. -/
def keep (byBroadcast : Bool) (new : Received α) : Option (Received α) → Received α
  | none => new
  | some held => if held.isBroadcast = byBroadcast then held else new

def store (slots : Slots α) (byBroadcast : Bool) (j : Nat) (new : Received α) : Slots α :=
  slots.modify j fun slot => some (keep byBroadcast new slot)

def put (slots : Slots α) (j : Nat) (new : Received α) : Slots α := slots.set j (some new)

/-- The item at position `j`, if it came the way its kind has to come. -/
def admitted? (slots : Slots α) (byBroadcast : Bool) (j : Nat) : Option α :=
  match slots.get? j with
  | some held => if held.isBroadcast = byBroadcast then some held.item else none
  | none => none

/-- The item at position `j`, however it came. -/
def item? (slots : Slots α) (j : Nat) : Option α := (slots.get? j).map Received.item

end Slots

end ThresholdKeys
