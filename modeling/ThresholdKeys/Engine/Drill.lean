import ThresholdKeys.Engine.Party

/-!
# Scripted rounds

A protocol without cryptography whose rounds follow a script: whom they wait for, which places the
party fills itself, and where they fail. It shows how a party moves through rounds.
-/

namespace ThresholdKeys.Drill

def task : String := "ping"

structure Ping where
  round : Nat
  acceptable : Bool
  /-- Zero asks to be kept and one to be dropped; anything else cannot be stored. -/
  storage : Nat
deriving DecidableEq

instance : Content Ping where
  round := Ping.round
  kind _ := "Ping"
  isPlausible := Ping.acceptable
  codec := (Codec.u16.pair (Codec.bool.pair Codec.u8)).convert
    (fun p => (p.round, p.acceptable, p.storage))
    fun (round, acceptable, storage) => ⟨round, acceptable, storage⟩

inductive Reaction
  | ok
  | brokenInvariant
  | fault
deriving DecidableEq

structure ScriptedRound where
  number : Nat
  expected : List PartyId
  /-- The places that the party fills itself. -/
  own : List Nat
  prepare : Reaction := .ok
  startsTwice : Bool := false
  start : Reaction := .ok
  inspect : Reaction := .ok

/-- The round and the sender of every kept message. -/
structure State where
  kept : List (Nat × PartyId) := []

namespace ScriptedRound

def react (r : ScriptedRound) : Reaction → Result Unit
  | .ok => .ok ()
  | .brokenInvariant => .error .brokenInvariant
  | .fault => .error (.fault ⟨task, r.number, r.expected, .other "scripted fault"⟩)

def enter (r : ScriptedRound) (s : State) : Result (Entry State Ping Unit) := do
  if r.startsTwice then throw .brokenInvariant
  else do
    r.react r.start
    return { state := s, ticked := r.own }

def hasArrived (r : ScriptedRound) (s : State) (j : Nat) : Bool :=
  match r.expected[j]? with
  | some p => s.kept.any fun (round, sender) => round = r.number && sender.SameKey p
  | none => false

def toRound (r : ScriptedRound) : Round State Ping Unit where
  number := r.number
  expected := r.expected
  prepare _ := r.react r.prepare
  enter := r.enter
  inspect _ := r.react r.inspect
  accepts m := m.content.round = r.number
  hasArrived := r.hasArrived

end ScriptedRound

def store (s : State) (m : Message Ping) : Result State :=
  if m.content.storage = 0 then .ok ⟨s.kept ++ [(m.content.round, m.sender)]⟩
  else if m.content.storage = 1 then .ok s
  else .error .brokenInvariant

def newParty (id : PartyId) (senderLimit : Nat) (first : ScriptedRound)
    (later : List ScriptedRound) : Party State Ping Unit where
  protocol := ⟨task, store⟩
  id := id
  senderLimit := senderLimit
  state := {}
  stage := .notStarted first.toRound (later.map ScriptedRound.toRound)

end ThresholdKeys.Drill
