import ThresholdKeys.Engine.Round

/-!
# Parties

One participant of a protocol run. A party is started once, takes messages, and moves through its
rounds by itself; what it sends and what it yields go to two channels. Messages from malformed
senders, from senders beyond the committee and from the party itself are refused before anything
changes. A round that fails on entry ends the run for the party.
-/

namespace ThresholdKeys

/-- An outgoing channel: what was put on it, and whether the other end still listens. -/
structure Channel (α : Type) where
  sent : List α := []
  isOpen : Bool := true

namespace Channel

variable {α : Type}

def send (c : Channel α) (items : List α) : Result (Channel α) :=
  if items.isEmpty then .ok c
  else if c.isOpen then .ok { c with sent := c.sent ++ items }
  else .error .brokenInvariant

def close (c : Channel α) : Channel α := { c with isOpen := false }

end Channel

inductive Stage (σ C O : Type)
  | notStarted (first : Round σ C O) (later : List (Round σ C O))
  | active (checklist : Checklist) (round : Round σ C O) (later : List (Round σ C O))
  | finished
  | failed

structure Party (σ C O : Type) where
  protocol : Protocol σ C O
  id : PartyId
  /-- No sender has an index from this number on. -/
  senderLimit : Nat
  state : σ
  stage : Stage σ C O
  outbox : Channel (Message C) := {}
  results : Channel O := {}

namespace Party

variable {σ C O : Type}

def fail {α : Type} (p : Party σ C O) (e : Error) : Result α × Party σ C O :=
  (.error e, { p with stage := .failed })

def waitingFor (p : Party σ C O) : List PartyId :=
  match p.stage with
  | .notStarted first _ => first.expected
  | .active checklist _ _ => checklist.waitingFor
  | .finished | .failed => []

def roundNumber (p : Party σ C O) : Result Nat :=
  match p.stage with
  | .active _ round _ => .ok round.number
  | .notStarted .. => .error (.caller .notStarted)
  | .finished | .failed => .error (.caller .alreadyTerminated)

def isFinished (p : Party σ C O) : Bool :=
  match p.stage with
  | .finished => true
  | _ => false

/-- Enters a round: its effects on the state and both channels, and its checklist. -/
def enter (p : Party σ C O) (round : Round σ C O) : Result (Party σ C O × Checklist) := do
  let checklist ← (Checklist.new p.protocol.task round.number round.expected).markStarted
  let entry ← round.enter p.state
  let outbox ← p.outbox.send entry.sent
  let results ← p.results.send entry.result.toList
  return ({ p with state := entry.state, outbox, results }, entry.ticked.foldl .tick checklist)

/-- Looks for progress in a round and goes on through the later ones as long as nothing is
missing. Tells whether a round was left. -/
def proceed : List (Round σ C O) → Round σ C O → Checklist → Bool → Party σ C O →
    Result Bool × Party σ C O
  | later, round, checklist, advanced, p =>
    match round.inspect p.state with
    | .error e => p.fail e
    | .ok () =>
      let checklist := checklist.tickWhere (round.hasArrived p.state)
      if checklist.isComplete then
        match later with
        | [] => (.ok true, { p with stage := .finished })
        | next :: later =>
          match p.enter next with
          | .error e => p.fail e
          | .ok (p, checklist) => proceed later next checklist true p
      else (.ok advanced, { p with stage := .active checklist round later })

def advance (p : Party σ C O) : Result Bool × Party σ C O :=
  match p.stage with
  | .active checklist round later => proceed later round checklist false p
  | _ => (.ok false, p)

def start (p : Party σ C O) : Result Unit × Party σ C O :=
  match p.stage with
  | .notStarted first later =>
    match first.prepare p.state with
    | .error e => p.fail e
    | .ok () =>
      match p.enter first with
      | .error e => p.fail e
      | .ok (p, checklist) =>
        let (advanced, p) := proceed later first checklist false p
        (advanced.map fun _ => (), p)
  | _ => (.error (.caller .alreadyStarted), p)

def store (p : Party σ C O) (m : Message C) : Result Unit × Party σ C O :=
  match p.stage with
  | .active .. =>
    match p.protocol.store p.state m with
    | .ok state => (.ok (), { p with state })
    | .error e => (.error e, p)
  | .notStarted .. => (.error (.caller .notStarted), p)
  | .finished | .failed => (.error (.caller .alreadyTerminated), p)

variable [Content C]

/-- The round that a refused message is charged to: the running one, or after the end of the run
the one that the message speaks of. -/
def chargedRound (p : Party σ C O) (m : Message C) : Nat :=
  match p.stage with
  | .notStarted round _ | .active _ round _ => round.number
  | .finished | .failed => m.round

def senderFault (p : Party σ C O) (m : Message C) (cause : FaultCause) : Error :=
  .fault ⟨p.protocol.task, p.chargedRound m, [m.sender], cause⟩

def validate (p : Party σ C O) (m : Message C) : Result Unit :=
  if !Content.isPlausible m.content then .error (.caller (.invalidMessage m.kind))
  else if ¬ m.sender.WellFormed then .error (.caller (.malformedParty m.sender))
  else if (m.sender.index.map fun i => decide (i < p.senderLimit)) ≠ some true then
    .error (p.senderFault m .senderIndexOutOfRange)
  else if m.sender.SameKey p.id then .error (p.senderFault m .sentByReceiver)
  else .ok ()

/-- Takes a message and moves on as far as possible. Tells whether a round was left. -/
def update (p : Party σ C O) (m : Message C) : Result Bool × Party σ C O :=
  match p.validate m with
  | .error e => (.error e, p)
  | .ok () =>
    match p.store m with
    | (.error e, p) => (.error e, p)
    | (.ok (), p) => p.advance

def updateFromBytes (p : Party σ C O) (bytes : Bytes) (sender : PartyId) (isBroadcast : Bool) :
    Result Bool × Party σ C O :=
  match Message.ofWire bytes sender (if isBroadcast then none else some [p.id]) isBroadcast with
  | .error e => (.error e, p)
  | .ok m => p.update m

end Party

end ThresholdKeys
