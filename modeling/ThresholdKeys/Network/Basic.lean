import ThresholdKeys.Network.Node

/-!
# Networks of parties

Nodes that exchange messages. Every message that a node sends gets a number and is queued once for
each node that it is meant for. When a message is handed to a node, either fewer rounds lie ahead
of all nodes together afterwards or nothing new is queued.
-/

namespace ThresholdKeys

structure Delivery where
  number : Nat
  recipient : Nat
deriving DecidableEq

/-- A message as it left its sender. -/
structure Emission (C : Type) where
  number : Nat
  recipients : List Nat
  message : Message C

structure Network (σ C O : Type) where
  /-- Whether a party with the given state is addressed by a message to everybody. -/
  hears : σ → Message C → Bool
  /-- A place is empty when its party could not be set up. -/
  nodes : List (Option (Node σ C O))
  /-- All messages sent so far, by number. -/
  messages : List (Message C) := []
  pending : List Delivery := []

namespace Network

variable {σ C O : Type}

def node? (net : Network σ C O) (i : Nat) : Option (Node σ C O) := net.nodes[i]?.join

def isAddressed (net : Network σ C O) (m : Message C) (n : Node σ C O) : Bool :=
  match m.recipients with
  | some recipients => recipients.any fun p => p.SameKey n.party.id
  | none => !decide (n.party.id.SameKey m.sender) && net.hears n.party.state m

/-- The places of the nodes that a message is meant for. -/
def addressees (net : Network σ C O) (m : Message C) : List Nat :=
  (List.range net.nodes.length).filter fun i => (net.node? i).any (net.isAddressed m)

/-- Numbers messages and queues them for their addressees. -/
def post (net : Network σ C O) (sent : List (Message C)) : List (Emission C) × Network σ C O :=
  let emissions := sent.mapIdx fun k m =>
    ⟨net.messages.length + k, net.addressees m, m⟩
  let deliveries := emissions.flatMap fun (e : Emission C) => e.recipients.map (⟨e.number, ·⟩)
  (emissions, { net with
    messages := net.messages ++ sent
    pending := net.pending ++ deliveries })

/-- Puts a node back after a call and posts what it has sent meanwhile. -/
def settle (net : Network σ C O) (i : Nat) (before after : Node σ C O) :
    List (Emission C) × Network σ C O :=
  post { net with nodes := net.nodes.set i (some after) }
    (after.party.outbox.sent.drop before.party.outbox.sent.length)

structure Response (α C : Type) where
  result : α
  emissions : List (Emission C)

def call {α : Type} (net : Network σ C O) (i : Nat) (n : Node σ C O)
    (run : Node σ C O → α × Node σ C O) : Response α C × Network σ C O :=
  let (result, after) := run n
  let (emissions, net) := net.settle i n after
  (⟨result, emissions⟩, net)

/-- As `call`, for calls whose failure takes the node out of automatic delivery. -/
def callMarked {α : Type} (net : Network σ C O) (i : Nat) (n : Node σ C O)
    (run : Node σ C O → Result α × Node σ C O) : Response (Result α) C × Network σ C O :=
  net.call i n fun n =>
    let (result, after) := run n
    (result, after.marked result)

def startAll (net : Network σ C O) : List (Nat × Response (Result Unit) C) × Network σ C O :=
  (List.range net.nodes.length).foldl (fun (done, net) i =>
    match net.node? i with
    | none => (done, net)
    | some n =>
      let (response, net) := net.callMarked i n Node.start
      (done ++ [(i, response)], net)) ([], net)

def dequeue (net : Network σ C O) (d : Delivery) : Network σ C O :=
  { net with pending := net.pending.erase d }

/-! ## Coming to rest -/

def roundsOf : Option (Node σ C O) → Nat
  | some n => n.party.stage.roundsAhead
  | none => 0

def total (counts : List Nat) : Nat := counts.foldr (· + ·) 0

/-- The rounds that all nodes together have ahead. -/
def roundsAhead (net : Network σ C O) : Nat := total (net.nodes.map roundsOf)

theorem total_set_lt {counts : List Nat} {i x y : Nat} (hx : counts[i]? = some x) (h : y < x) :
    total (counts.set i y) < total counts := by
  induction counts generalizing i with
  | nil => simp at hx
  | cons a rest ih =>
      cases i with
      | zero =>
          obtain rfl : a = x := by simpa using hx
          exact Nat.add_lt_add_right h _
      | succ i => exact Nat.add_lt_add_left (ih (by simpa using hx)) a

theorem set_eq_self {counts : List Nat} {i x : Nat} (hx : counts[i]? = some x) :
    counts.set i x = counts := by
  obtain ⟨h, rfl⟩ := List.getElem?_eq_some_iff.1 hx
  exact List.set_getElem_self h

@[simp] theorem party_marked {α : Type} (n : Node σ C O) (r : Result α) :
    (n.marked r).party = n.party := by
  cases r <;> rfl

theorem nodes_eq_of_node? {net : Network σ C O} {i : Nat} {n : Node σ C O}
    (h : net.node? i = some n) : net.nodes[i]? = some (some n) := by
  unfold node? at h
  cases hn : net.nodes[i]? with
  | none => simp [hn] at h
  | some o => simp_all

/-- The node at place `i` gives way to `after`, and nothing else changes in the count. -/
theorem roundsAhead_settle (net : Network σ C O) (i : Nat) (before after : Node σ C O) :
    (net.settle i before after).2.roundsAhead =
      total ((net.nodes.map roundsOf).set i after.party.stage.roundsAhead) := by
  simp [settle, post, roundsAhead, List.map_set, roundsOf]

theorem pending_settle_of_outbox_eq (net : Network σ C O) (i : Nat) (before after : Node σ C O)
    (h : after.party.outbox = before.party.outbox) :
    (net.settle i before after).2.pending = net.pending := by
  simp [settle, post, h]

variable [Content C]

def hand (net : Network σ C O) (i : Nat) (n : Node σ C O) (entrance : Entrance) (m : Message C) :
    Response (Result Receipt) C × Network σ C O :=
  net.callMarked i n fun n => n.receive entrance m

/-- Handing over a message leaves fewer rounds ahead or adds no delivery. -/
theorem hand_decreases (net : Network σ C O) (i : Nat) (n : Node σ C O) (hn : net.node? i = some n)
    (entrance : Entrance) (m : Message C) :
    (net.hand i n entrance m).2.roundsAhead < net.roundsAhead ∨
      (net.hand i n entrance m).2.roundsAhead = net.roundsAhead ∧
        (net.hand i n entrance m).2.pending = net.pending := by
  obtain ⟨hle, hsame⟩ := n.receive_settles entrance m
  have hcount : (net.nodes.map roundsOf)[i]? = some n.party.stage.roundsAhead := by
    simp [nodes_eq_of_node? hn, roundsOf]
  rcases Nat.lt_or_eq_of_le hle with hlt | heq
  · left
    simp only [hand, callMarked, call, roundsAhead_settle, party_marked]
    exact total_set_lt hcount hlt
  · right
    simp only [hand, callMarked, call, roundsAhead_settle, party_marked]
    refine ⟨by rw [heq, set_eq_self hcount]; rfl, ?_⟩
    exact pending_settle_of_outbox_eq _ _ _ _ (by simpa using hsame heq)

end Network

end ThresholdKeys
