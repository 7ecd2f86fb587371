import ThresholdKeys.Keygen.Payload
import ThresholdKeys.Reshare.Payload

/-!
# Tampering with messages

Changes that somebody on the way makes to a message: to its routing, to its content as a whole, or
to parts of its content. A change that does not fit the kind of content does nothing.
-/

namespace ThresholdKeys

structure ContentChange where
  commitment : Option Commitment := none
  threshold : Option Nat := none
  id : Option Scalar := none
  /-- Added to the value of a share. -/
  add : Option Scalar := none
  /-- Replaces all elements of an opening; the changes below come after it, in their order. -/
  elements : Option (List Nat) := none
  /-- How many elements are cut off at the end. -/
  cut : Option Nat := none
  append : Option (List Nat) := none
  /-- A new element at a position. -/
  replace : Option (Nat × Nat) := none
  proofCommitment : Option Point := none
  proofResponse : Option Scalar := none

namespace ContentChange

def onCommitment (e : ContentChange) (c : Commitment) : Commitment := e.commitment.getD c

def onShare (e : ContentChange) (s : Share) : Share :=
  ⟨e.threshold.getD s.threshold, e.id.getD s.id, s.value + e.add.getD 0⟩

def onOpening (e : ContentChange) (o : Opening) : Opening :=
  let elements := e.elements.getD o.elements
  let elements := elements.take (elements.length - e.cut.getD 0)
  let elements := elements ++ e.append.getD []
  match e.replace with
  | some (i, n) => ⟨elements.set i n⟩
  | none => ⟨elements⟩

def onProof (e : ContentChange) (p : Schnorr.Proof) : Schnorr.Proof :=
  ⟨e.proofCommitment.getD p.commitment, e.proofResponse.getD p.response⟩

end ContentChange

class Alterable (C : Type) where
  alter : ContentChange → C → C

instance : Alterable Keygen.Payload where
  alter e
    | .commit c => .commit (e.onCommitment c)
    | .share s => .share (e.onShare s)
    | .reveal o p => .reveal (e.onOpening o) (e.onProof p)

instance : Alterable Reshare.Payload where
  alter e
    | .commit c => .commit (e.onCommitment c)
    | .ack => .ack
    | .share s => .share (e.onShare s)
    | .reveal o => .reveal (e.onOpening o)

structure MessageChange (C : Type) where
  sender : Option PartyId := none
  recipients : Option (List PartyId) := none
  isBroadcast : Option Bool := none
  scope : Option Scope := none
  /-- Replaces the content, before its parts are changed. -/
  content : Option C := none
  parts : ContentChange := {}

namespace MessageChange

variable {C : Type} [Alterable C]

def apply (e : MessageChange C) (m : Message C) : Message C where
  sender := e.sender.getD m.sender
  recipients := e.recipients <|> m.recipients
  isBroadcast := e.isBroadcast.getD m.isBroadcast
  scope := e.scope.getD m.scope
  content := Alterable.alter e.parts (e.content.getD m.content)

end MessageChange

/-- A change to all deliveries that fit a description. Absent parts fit every delivery. -/
structure Rule (C : Type) where
  kind : Option String := none
  /-- The index of the sender of the message that was sent. -/
  sender : Option Nat := none
  recipient : Option Nat := none
  number : Option Nat := none
  change : MessageChange C

namespace Rule

variable {C : Type} [Content C] [Alterable C]

def fits {α : Type} [DecidableEq α] (wanted : Option α) (actual : α) : Bool :=
  match wanted with
  | some a => a = actual
  | none => true

/-- Applies the rules in turn to the message that was sent as `number` and goes to `recipient`;
each rule sees the kind that the rules before it have left. -/
def applyAll (rules : List (Rule C)) (number recipient : Nat) (m : Message C) : Message C :=
  rules.foldl (fun copy r =>
    if fits r.kind copy.kind && fits (r.sender.map some) m.sender.index &&
        fits r.recipient recipient && fits r.number number
    then r.change.apply copy else copy) m

end Rule

end ThresholdKeys
