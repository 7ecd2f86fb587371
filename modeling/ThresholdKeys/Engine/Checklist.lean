import ThresholdKeys.Error

/-!
# The checklist of a round

A round waits for a list of senders. The checklist records of each whether everything needed from
it has arrived; the round is over once it was started and nobody is left.
-/

namespace ThresholdKeys

structure Checklist where
  task : String
  number : Nat
  started : Bool := false
  /-- The expected senders, each with a mark if it has delivered. -/
  entries : List (PartyId × Bool)

namespace Checklist

def new (task : String) (number : Nat) (expected : List PartyId) : Checklist :=
  { task, number, entries := expected.map (·, false) }

def markStarted (c : Checklist) : Result Checklist :=
  if c.started then .error .brokenInvariant else .ok { c with started := true }

/-- Marks the sender at position `j`; positions past the end are ignored. -/
def tick (c : Checklist) (j : Nat) : Checklist :=
  { c with entries := c.entries.modify j fun e => (e.1, true) }

def isTicked (c : Checklist) (j : Nat) : Bool := (c.entries[j]?.map Prod.snd).getD false

/-- Marks the senders whose positions satisfy `arrived`; marks are never taken back. -/
def tickWhere (c : Checklist) (arrived : Nat → Bool) : Checklist :=
  { c with entries := c.entries.mapIdx fun j e => (e.1, e.2 || arrived j) }

def isComplete (c : Checklist) : Bool := c.started && c.entries.all Prod.snd

def waitingFor (c : Checklist) : List PartyId :=
  (c.entries.filter fun e => !e.2).map Prod.fst

def fault (c : Checklist) (culprits : List PartyId) (cause : FaultCause) : Error :=
  .fault ⟨c.task, c.number, culprits, cause⟩

end Checklist

end ThresholdKeys
