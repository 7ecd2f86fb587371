import Mathlib
import ThresholdKeys.Network.Steps
import ThresholdKeys.Proofs.Result

/-!
# Messages in flight

The environment of an honest run starts every party once, before it delivers anything to it, and
delivers the waiting messages unchanged in any order. Posting a message adds it to what is in
flight for each of its addressees, and a delivery takes it away from one of them.
-/

namespace ThresholdKeys

def Party.IsStarted {σ C O : Type} (p : Party σ C O) : Prop :=
  ∀ first later, p.stage ≠ .notStarted first later

namespace Network

variable {σ C O : Type}

/-- One call of the environment, with its answer: a party that has not started is started, or a
waiting message is delivered to a party that has. -/
inductive Step [Content C] (net : Network σ C O) : Result Unit → Network σ C O → Prop
  | start {i : ℕ} {n : Node σ C O} (hn : net.node? i = some n) (hs : ¬ n.party.IsStarted) :
      Step net (net.callMarked i n Node.start).1.result (net.callMarked i n Node.start).2
  | deliver {d : Delivery} {n : Node σ C O} {m : Message C} (hd : d ∈ net.pending)
      (hn : net.node? d.recipient = some n) (hm : net.messages[d.number]? = some m)
      (hs : n.party.IsStarted) :
      Step net (((net.dequeue d).hand d.recipient n .party m).1.result.map fun _ => ())
        ((net.dequeue d).hand d.recipient n .party m).2

def Reaches [Content C] : Network σ C O → Network σ C O → Prop :=
  Relation.ReflTransGen fun net net' => ∃ answer, Step net answer net'

def inFlight (net : Network σ C O) (j : ℕ) : List (Message C) :=
  net.pending.filterMap fun d => if d.recipient = j then net.messages[d.number]? else none

/-- Every delivery that waits is one of a message that was sent, to a place of the network. -/
def Numbered (net : Network σ C O) : Prop :=
  ∀ d ∈ net.pending, d.number < net.messages.length ∧ d.recipient < net.nodes.length

/-- Nothing is in flight and every party has been started. -/
def AtRest (net : Network σ C O) : Prop :=
  net.pending = [] ∧ ∀ i n, net.node? i = some n → n.party.IsStarted

theorem inFlight_dequeue {net : Network σ C O} {d : Delivery} (hd : d ∈ net.pending)
    {m : Message C} (hm : net.messages[d.number]? = some m) (j : ℕ) :
    (net.inFlight j).Perm
      ((if d.recipient = j then [m] else []) ++ (net.dequeue d).inFlight j) := by
  have hperm := (List.perm_cons_erase hd).filterMap fun d =>
    if d.recipient = j then net.messages[d.number]? else none
  refine hperm.trans (.of_eq ?_)
  by_cases hj : d.recipient = j
  · simp [hj, hm, dequeue, inFlight]
  · simp [hj, dequeue, inFlight]

theorem numbered_dequeue {net : Network σ C O} (h : net.Numbered) (d : Delivery) :
    (net.dequeue d).Numbered :=
  fun d' hd' => h d' (List.mem_of_mem_erase hd')

theorem filterMap_recipient {recipients : List ℕ} (hnodup : recipients.Nodup) (j : ℕ)
    (m : Message C) :
    (recipients.filterMap fun i => if i = j then some m else none) =
      if j ∈ recipients then [m] else [] := by
  induction recipients with
  | nil => rfl
  | cons i rest ih =>
      obtain ⟨hi, hrest⟩ := List.nodup_cons.1 hnodup
      by_cases hij : i = j
      · subst hij
        simp [ih hrest, hi]
      · simp [ih hrest, hij, Ne.symm hij]

theorem filterMap_deliveries (messages sent : List (Message C)) {addressees : Message C → List ℕ}
    (hnodup : ∀ m, (addressees m).Nodup) (j : ℕ) :
    ((sent.mapIdx fun k m => (⟨messages.length + k, addressees m, m⟩ : Emission C)).flatMap
        fun e => e.recipients.map (⟨e.number, ·⟩)).filterMap
          (fun d : Delivery => if d.recipient = j then (messages ++ sent)[d.number]? else none) =
      sent.filter fun m => j ∈ addressees m := by
  induction sent generalizing messages with
  | nil => rfl
  | cons m rest ih =>
      have hrest := ih (messages ++ [m])
      simp only [List.length_append, List.length_singleton, List.append_assoc,
        List.singleton_append] at hrest
      rw [List.mapIdx_cons, List.flatMap_cons, List.filterMap_append, List.filter_cons,
        List.filterMap_map]
      have hone : (addressees m).filterMap ((fun d : Delivery =>
          if d.recipient = j then (messages ++ m :: rest)[d.number]? else none) ∘
            fun i => ⟨messages.length + 0, i⟩) = if j ∈ addressees m then [m] else [] := by
        rw [← filterMap_recipient (hnodup m) j m]
        refine List.filterMap_congr fun i _ => ?_
        simp
      simp only [Nat.add_assoc, Nat.add_comm 1] at hrest
      rw [hone, hrest]
      by_cases hj : j ∈ addressees m <;> simp [hj]

theorem nodup_addressees (net : Network σ C O) (m : Message C) : (net.addressees m).Nodup :=
  List.nodup_range.filter _

theorem inFlight_post {net : Network σ C O} (h : net.Numbered) (sent : List (Message C)) (j : ℕ) :
    (net.post sent).2.inFlight j =
      net.inFlight j ++ sent.filter fun m => j ∈ net.addressees m := by
  have hold : (net.pending.filterMap fun d =>
      if d.recipient = j then (net.messages ++ sent)[d.number]? else none) = net.inFlight j := by
    refine List.filterMap_congr fun d hd => ?_
    rw [List.getElem?_append_left (h d hd).1]
  simp only [inFlight, post, List.filterMap_append]
  rw [hold, filterMap_deliveries net.messages sent (net.nodup_addressees) j]
  rfl

theorem numbered_post {net : Network σ C O} (h : net.Numbered) (sent : List (Message C)) :
    (net.post sent).2.Numbered := by
  intro d hd
  simp only [post, List.mem_append, List.mem_flatMap, List.mem_map, List.mem_mapIdx] at hd
  simp only [post, List.length_append]
  rcases hd with hd | ⟨e, ⟨k, hk, rfl⟩, i, hi, rfl⟩
  · exact ⟨Nat.lt_of_lt_of_le (h d hd).1 (Nat.le_add_right ..), (h d hd).2⟩
  · exact ⟨Nat.add_lt_add_left hk _, List.mem_range.1 (List.mem_filter.1 hi).1⟩

end Network

end ThresholdKeys
