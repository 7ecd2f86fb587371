import ThresholdKeys.Keygen.Rounds
import ThresholdKeys.Network.Delivery
import ThresholdKeys.Reshare.Rounds

/-!
# Single steps

What a host or an adversary does to one node of a network: start it, deliver a message that was
sent, hand it a message that nobody sent, close its channels, read its results. A step that names
no node or no message is refused.
-/

namespace ThresholdKeys.Network

inductive Refusal
  | noSuchParty
  | noSuchMessage
deriving DecidableEq

def Refusal.message : Refusal → String
  | noSuchParty => "no such party"
  | noSuchMessage => "no such message"

variable {σ C O : Type}

def requireNode (net : Network σ C O) (i : Nat) : Except Refusal (Node σ C O) :=
  match net.node? i with
  | some n => .ok n
  | none => .error .noSuchParty

def callAt {α : Type} (net : Network σ C O) (i : Nat) (run : Node σ C O → α × Node σ C O) :
    Except Refusal (Response α C × Network σ C O) :=
  (net.requireNode i).map fun n => net.call i n run

def startAt (net : Network σ C O) (i : Nat) :
    Except Refusal (Response (Result Unit) C × Network σ C O) :=
  net.callAt i Node.start

def closeOutboxAt (net : Network σ C O) (i : Nat) :
    Except Refusal (Response Unit C × Network σ C O) :=
  net.callAt i fun n => ((), n.closeOutbox)

def closeResultsAt (net : Network σ C O) (i : Nat) :
    Except Refusal (Response Unit C × Network σ C O) :=
  net.callAt i fun n => ((), n.closeResults)

/-- Lets a node that failed take part in automatic delivery again. -/
def reviveAt (net : Network σ C O) (i : Nat) : Except Refusal (Response Unit C × Network σ C O) :=
  net.callAt i fun n => ((), { n with failed := false })

def readResultAt (net : Network σ C O) (i : Nat) :
    Except Refusal (Response (Option O) C × Network σ C O) :=
  net.callAt i Node.readResult

variable [Content C]

def injectAt (net : Network σ C O) (i : Nat) (m : Message C) (entrance : Entrance) :
    Except Refusal (Response (Result Receipt) C × Network σ C O) :=
  (net.requireNode i).map fun n => net.hand i n entrance m

/-- As `injectAt`, for bytes. -/
def injectBytesAt (net : Network σ C O) (i : Nat) (bytes : Bytes) (sender : PartyId)
    (isBroadcast : Bool) : Except Refusal (Response (Result Bool) C × Network σ C O) :=
  net.callAt i fun n => n.onParty fun p => p.updateFromBytes bytes sender isBroadcast

/-- Delivers a message that was sent to any node, changed on the way, and takes the delivery off
the queue if it was waiting there. -/
def deliverAt [Alterable C] (net : Network σ C O) (number i : Nat) (change : MessageChange C)
    (entrance : Entrance) : Except Refusal (Response (Result Receipt) C × Network σ C O) := do
  let n ← net.requireNode i
  match net.messages[number]? with
  | some m => return (net.dequeue ⟨number, i⟩).hand i n entrance (change.apply m)
  | none => throw .noSuchMessage

/-! ## Networks of the two protocols -/

def ofKeygen (nodes : List (Option (Node Keygen.State Keygen.Payload KeyShare))) :
    Network Keygen.State Keygen.Payload KeyShare :=
  { hears := fun _ _ => true, nodes }

/-- A message to everybody is heard by the members of the committees that it concerns. -/
def ofReshare (nodes : List (Option (Node Reshare.State Reshare.Payload Reshare.Outcome))) :
    Network Reshare.State Reshare.Payload Reshare.Outcome :=
  { hears := fun s m => (s.params.isOld && m.isToOld) || (s.params.isNew && m.isToNew), nodes }

end ThresholdKeys.Network
