import ThresholdKeys.Engine.Party

/-!
# Messages in the order of their rounds

A party behind a queue. Messages of later rounds are held back until their round is running,
messages of earlier rounds are dropped.
-/

namespace ThresholdKeys

namespace Queue

variable {C : Type} [Content C]

def store (m : Message C) : List (Message C) → List (Message C)
  | [] => [m]
  | held :: rest => if m.round < held.round then m :: held :: rest else held :: store m rest

def peekRound? (queue : List (Message C)) : Option Nat := queue.head?.map Message.round

def pop? : List (Message C) → Option (Message C × List (Message C))
  | [] => none
  | m :: rest => some (m, rest)

end Queue

structure OrderedParty (σ C O : Type) where
  party : Party σ C O
  queue : List (Message C) := []

namespace OrderedParty

variable {σ C O : Type} [Content C]

def pending (p : OrderedParty σ C O) : Nat := p.queue.length

def start (p : OrderedParty σ C O) : Result Unit × OrderedParty σ C O :=
  let (result, party) := p.party.start
  (result, { p with party })

/-- Feeds the held messages whose round has come. An error ends this; the message that caused it
is not put back. -/
def drain : List (Message C) → Bool → Party σ C O → Result Bool × OrderedParty σ C O
  | [], advanced, party => (.ok advanced, ⟨party, []⟩)
  | m :: rest, advanced, party =>
    if party.isFinished then (.ok advanced, ⟨party, m :: rest⟩)
    else
      match party.roundNumber with
      | .error e => (.error e, ⟨party, m :: rest⟩)
      | .ok current =>
        if current < m.round then (.ok advanced, ⟨party, m :: rest⟩)
        else if m.round < current then drain rest advanced party
        else
          match party.update m with
          | (.error e, party) => (.error e, ⟨party, rest⟩)
          | (.ok more, party) => drain rest (advanced || more) party

/-- Holds an early message back, drops a late one, and passes on one of the running round along
with all that this makes due. -/
def update (p : OrderedParty σ C O) (m : Message C) : Result Bool × OrderedParty σ C O :=
  match p.party.roundNumber with
  | .error e => (.error e, p)
  | .ok current =>
    if current < m.round then (.ok false, { p with queue := Queue.store m p.queue })
    else if m.round < current then (.ok false, p)
    else
      match p.party.update m with
      | (.error e, party) => (.error e, { p with party })
      | (.ok advanced, party) => drain p.queue advanced party

end OrderedParty

end ThresholdKeys
