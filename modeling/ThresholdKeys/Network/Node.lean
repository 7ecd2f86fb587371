import ThresholdKeys.Engine.Progress

/-!
# Nodes

A party as it stands in a network: with or without a queue before it, and with what its host has
read of its results.
-/

namespace ThresholdKeys

inductive Entrance
  /-- Through the queue, if there is one. -/
  | queue
  /-- To the party itself. -/
  | party
  /-- To the party itself, as bytes. -/
  | wire
  /-- Into its slots, without looking for progress. -/
  | slots
deriving DecidableEq

/-- What handing over a message came to. -/
inductive Receipt
  | advanced (roundLeft : Bool)
  | stored
deriving DecidableEq

structure Node (σ C O : Type) where
  machine : OrderedParty σ C O
  isOrdered : Bool
  /-- How many results have been read, and the last of them. -/
  read : Nat := 0
  last : Option O := none
  /-- A call has failed, so nothing more is delivered by itself. -/
  failed : Bool := false

namespace Node

variable {σ C O : Type}

def new (party : Party σ C O) (isOrdered : Bool) : Node σ C O := ⟨⟨party, []⟩, isOrdered, 0, none, false⟩

def party (n : Node σ C O) : Party σ C O := n.machine.party

def withParty (n : Node σ C O) (p : Party σ C O) : Node σ C O :=
  { n with machine := { n.machine with party := p } }

def onParty {α : Type} (n : Node σ C O) (call : Party σ C O → α × Party σ C O) :
    α × Node σ C O :=
  let (a, p) := call n.party
  (a, n.withParty p)

def start (n : Node σ C O) : Result Unit × Node σ C O := n.onParty Party.start

/-- The messages held back by the queue. -/
def pending? (n : Node σ C O) : Option Nat := if n.isOrdered then some n.machine.queue.length else none

def readResult (n : Node σ C O) : Option O × Node σ C O :=
  match n.party.results.sent[n.read]? with
  | some o => (some o, { n with read := n.read + 1, last := some o })
  | none => (none, n)

/-- Remembers whether a call failed. -/
def marked {α : Type} (n : Node σ C O) : Result α → Node σ C O
  | .error _ => { n with failed := true }
  | .ok _ => n

def closeOutbox (n : Node σ C O) : Node σ C O :=
  n.withParty { n.party with outbox := n.party.outbox.close }

def closeResults (n : Node σ C O) : Node σ C O :=
  n.withParty { n.party with results := n.party.results.close }

variable [Content C]

def receive (n : Node σ C O) (entrance : Entrance) (m : Message C) : Result Receipt × Node σ C O :=
  match entrance with
  | .queue =>
    if n.isOrdered then
      let (result, machine) := n.machine.update m
      (result.map .advanced, { n with machine })
    else n.onParty fun p => (p.update m).map (·.map .advanced) id
  | .party => n.onParty fun p => (p.update m).map (·.map .advanced) id
  | .wire =>
    n.onParty fun p =>
      (p.updateFromBytes m.toWire m.sender m.isBroadcast).map (·.map .advanced) id
  | .slots => n.onParty fun p => (p.store m).map (·.map fun _ => .stored) id

theorem receive_settles (n : Node σ C O) (entrance : Entrance) (m : Message C) :
    n.party.SettlesTo (n.receive entrance m).2.party := by
  cases entrance with
  | queue =>
      by_cases h : n.isOrdered = true
      · simp only [receive, h, if_true]
        exact n.machine.update_settles m
      · simp only [receive, h]
        exact n.party.update_settles m
  | party => exact n.party.update_settles m
  | wire => exact n.party.updateFromBytes_settles _ _ _
  | slots => exact n.party.store_settles m

end Node

end ThresholdKeys
