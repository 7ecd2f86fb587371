import ThresholdKeys.Network.Basic
import ThresholdKeys.Network.Tampering

/-!
# Delivering messages

What waits in a network is delivered in a chosen order, unchanged or changed on the way, until
nothing fits any more. This comes to an end, because a node sends only when it has fewer rounds
ahead.
-/

namespace ThresholdKeys.Network

variable {σ C O : Type}

inductive Order
  | oldest
  | newest
  /-- Pseudorandom, by a linear congruence. -/
  | scattered (state : Nat)

namespace Order

def pick (count : Nat) : Order → Nat × Order
  | oldest => (0, oldest)
  | newest => (count - 1, newest)
  | scattered x =>
      let x := (x * 1103515245 + 12345) % 2147483648
      (x / 256 % count, scattered x)

end Order

/-- What to deliver, and how. -/
structure Plan (C : Type) where
  recipients : Option (List Nat) := none
  kinds : Option (List String) := none
  entrance : Entrance := .queue
  rules : List (Rule C) := []

variable [Content C] [Alterable C]

/-- Whether a waiting delivery belongs to the plan and its node still takes messages. -/
def fits (net : Network σ C O) (plan : Plan C) (d : Delivery) : Bool :=
  (net.node? d.recipient).any (fun n => !n.failed) &&
    (plan.recipients.all fun places => d.recipient ∈ places) &&
    (plan.kinds.all fun kinds => (net.messages[d.number]?).any fun m => m.kind ∈ kinds)

structure Event (C : Type) where
  delivery : Delivery
  response : Response (Result Receipt) C

/-- Delivers what fits the plan, in the given order, until nothing does or `limit` deliveries have
been made. -/
def deliverAll (plan : Plan C) (order : Order) (limit : Option Nat)
    (net : Network σ C O) : List (Event C) × Network σ C O :=
  if limit = some 0 then ([], net)
  else
    match net.pending.filter (net.fits plan) with
    | [] => ([], net)
    | first :: others =>
      let (k, order) := order.pick (others.length + 1)
      let d := (first :: others).getD k first
      match _hn : net.node? d.recipient, net.messages[d.number]? with
      | some n, some m =>
        if _hd : d ∈ net.pending then
          let copy := Rule.applyAll plan.rules d.number d.recipient m
          let next := (net.dequeue d).hand d.recipient n plan.entrance copy
          let (events, last) := deliverAll plan order (limit.map (· - 1)) next.2
          (⟨d, next.1⟩ :: events, last)
        else ([], net)
      | _, _ => ([], net)
termination_by (net.roundsAhead, net.pending.length)
decreasing_by
  rcases (net.dequeue d).hand_decreases d.recipient n _hn plan.entrance copy with h | ⟨h, h'⟩
  · exact .left _ _ h
  · have hlen : ((net.dequeue d).hand d.recipient n plan.entrance copy).2.pending.length <
        net.pending.length := by
      rw [h']
      simp only [dequeue, List.length_erase_of_mem _hd]
      have := List.length_pos_of_mem _hd
      omega
    exact Prod.lex_def.2 (Or.inr ⟨h, hlen⟩)

end ThresholdKeys.Network
