import Mathlib
import ThresholdKeys.Proofs.Keygen.Honest
import ThresholdKeys.Proofs.Keygen.Order
import ThresholdKeys.Proofs.Reshare.Order
import ThresholdKeys.Proofs.Reshare.Soundness

/-!
# The arrival of messages

A host may put a queue in front of a party of either protocol or leave early messages to the party,
and it may deliver messages in any order. Neither can be seen from outside.
-/

namespace ThresholdKeys

variable {σ C O : Type} [Content C]

/-! ## Undisturbed parties -/

theorem Role.Lawful.validate_start {r : Role σ C O} (hr : r.Lawful) {m : Message C}
    (hm : r.Needs m) : r.party.start.2.validate m = .ok () :=
  (Party.validate_eq_ok_congr (Party.frame_of_moves r.party.moves_start) m).2 (hr.validate hm)

namespace Keygen.Setup

variable {r : Setup} {i : ℕ} {m m' : Message Payload}

theorem Valid.seated (h : r.Valid) (hm : (r.role i).Needs m) : Seated (r.params i) m := by
  obtain ⟨j, hj, -, hm⟩ := needs_iff.1 hm
  have hseat : r.parties.seat? (r.parties.member j) = some j := h.proper.seat?_member hj
  rcases hm with rfl | rfl | rfl <;> exact Option.isSome_of_mem hseat

theorem eq_of_kind {j : ℕ}
    (hm : m = r.commitMessage j ∨ m = r.shareMessage j i ∨ m = r.revealMessage j)
    (hm' : m' = r.commitMessage j ∨ m' = r.shareMessage j i ∨ m' = r.revealMessage j)
    (h : m.kind = m'.kind) : m = m' := by
  rcases hm with rfl | rfl | rfl <;> rcases hm' with rfl | rfl | rfl <;>
    simp [Message.kind, Content.kind, Payload.kind, commitMessage, shareMessage, revealMessage,
      Message.broadcast, Message.direct] at h ⊢

theorem Valid.concur (h : r.Valid) (hm : (r.role i).Needs m) (hm' : (r.role i).Needs m') :
    Concur (r.params i) m m' := by
  intro _ _ _ _ hsender hkind
  obtain ⟨j, hj, -, hm⟩ := needs_iff.1 hm
  obtain ⟨j', hj', -, hm'⟩ := needs_iff.1 hm'
  have hplace : (r.parties.member j).index = (r.parties.member j').index := by
    rcases hm with rfl | rfl | rfl <;> rcases hm' with rfl | rfl | rfl <;> exact hsender
  rw [h.proper.index_member hj, h.proper.index_member hj', Option.some.injEq] at hplace
  subst hplace
  rw [eq_of_kind hm hm' hkind]

end Keygen.Setup

namespace Reshare.Setup

variable {r : Setup} {p : PartyId} {m m' : Message Payload}

theorem Valid.seated (h : r.Valid) (hm : (r.role p).Needs m) : Seated (r.params p) m := by
  rcases needs_iff.1 hm with ⟨j, hj, i, hi, -, hm⟩ | ⟨i, -, j, hj, -, rfl⟩
  · have hseat : r.old.seat? (r.old.member i) = some i := h.old_proper.seat?_member hi
    rcases hm with rfl | rfl | rfl <;> exact Option.isSome_of_mem hseat
  · have hseat : r.new.seat? (r.new.member j) = some j := h.new_proper.seat?_member hj
    exact Option.isSome_of_mem hseat

theorem eq_of_kind {i j : ℕ}
    (hm : m = r.commitMessage i ∨ m = r.shareMessage i j ∨ m = r.revealMessage i)
    (hm' : m' = r.commitMessage i ∨ m' = r.shareMessage i j ∨ m' = r.revealMessage i)
    (h : m.kind = m'.kind) : m = m' := by
  rcases hm with rfl | rfl | rfl <;> rcases hm' with rfl | rfl | rfl <;>
    simp [Message.kind, Content.kind, Payload.kind, commitMessage, shareMessage, revealMessage,
      Message.broadcast, Message.direct] at h ⊢

theorem kind_ne_ack {i j l : ℕ}
    (hm : m = r.commitMessage i ∨ m = r.shareMessage i j ∨ m = r.revealMessage i) :
    m.kind ≠ (r.ackMessage l).kind := by
  rcases hm with rfl | rfl | rfl <;>
    simp [Message.kind, Content.kind, Payload.kind, commitMessage, shareMessage, revealMessage,
      ackMessage, Message.broadcast, Message.direct]

theorem Valid.concur (h : r.Valid) (hm : (r.role p).Needs m) (hm' : (r.role p).Needs m') :
    Concur (r.params p) m m' := by
  intro _ _ _ _ hsender hkind
  rcases needs_iff.1 hm with ⟨j, hj, i, hi, -, hm⟩ | ⟨-, -, l, -, -, rfl⟩ <;>
    rcases needs_iff.1 hm' with ⟨j', hj', i', hi', -, hm'⟩ | ⟨-, -, l', -, -, rfl⟩
  · obtain rfl : j' = j := Option.some.inj (hj'.symm.trans hj)
    have hplace : (r.old.member i).index = (r.old.member i').index := by
      rcases hm with rfl | rfl | rfl <;> rcases hm' with rfl | rfl | rfl <;> exact hsender
    rw [h.old_proper.index_member hi, h.old_proper.index_member hi', Option.some.injEq] at hplace
    subst hplace
    rw [eq_of_kind hm hm' hkind]
  · exact absurd hkind (kind_ne_ack hm)
  · exact absurd hkind.symm (kind_ne_ack hm')
  · rfl

end Reshare.Setup

/-! ## Queued and reordered messages -/

/-- The same messages in two orders end alike, with the same failure if there is one. -/
structure Party.SameEnd (p : Party σ C O) (messages messages' : List (Message C)) : Prop where
  stage : (p.run (messages'.map .update)).stage = (p.run (messages.map .update)).stage
  roundNumber : (p.run (messages'.map .update)).roundNumber =
    (p.run (messages.map .update)).roundNumber
  waitingFor : (p.run (messages'.map .update)).waitingFor =
    (p.run (messages.map .update)).waitingFor
  outbox : (p.run (messages'.map .update)).outbox = (p.run (messages.map .update)).outbox
  results : (p.run (messages'.map .update)).results = (p.run (messages.map .update)).results
  failure? : p.failure? messages' = p.failure? messages

theorem Party.Alike.sameEnd {p : Party σ C O} {messages messages' : List (Message C)}
    (h : (p.run (messages.map .update)).Alike (p.run (messages'.map .update)))
    (hfailure : p.failure? messages' = p.failure? messages) : p.SameEnd messages messages' :=
  ⟨h.stage, h.roundNumber_eq, h.waitingFor_eq, h.outbox, h.results, hfailure⟩

/-- Of a party that has been started, in key generation or in resharing, the host sees the same
after every delivery whether or not there is a queue in front of it, as long as it delivers
messages that are valid and whose senders sit where they claim to. -/
theorem views_behind_queue :
    (∀ {params : Keygen.Parameters} {source : Source}
      {p : Party Keygen.State Keygen.Payload KeyShare} {messages : List (Message Keygen.Payload)},
      Keygen.newParty params source = .ok p → p.start.1 = .ok () →
      (∀ m ∈ messages, p.start.2.validate m = .ok () ∧ Keygen.Seated params m) →
        (OrderedParty.start ⟨p, []⟩).2.views messages = p.start.2.views messages) ∧
    ∀ {newIds : List PartyId} {curve : CurveParams} {old new : Committee} {id : PartyId}
      {oldThreshold newThreshold : ℕ} {version : Version} {params : Reshare.Parameters}
      {input : Reshare.Input} {source : Source}
      {p : Party Reshare.State Reshare.Payload Reshare.Outcome}
      {messages : List (Message Reshare.Payload)},
      Committee.ofList newIds = .ok new →
      Reshare.Parameters.make curve old new id oldThreshold newThreshold version = .ok params →
      Reshare.newParty params input source = .ok p → p.start.1 = .ok () →
      (∀ m ∈ messages, p.start.2.validate m = .ok () ∧ Reshare.Seated params m) →
        (OrderedParty.start ⟨p, []⟩).2.views messages = p.start.2.views messages := by
  constructor
  · intro params source p messages hp hstart h
    exact Keygen.views_start hp hstart h
  · intro newIds curve old new id oldThreshold newThreshold version params input source p messages
      hnew hmake hp hstart h
    have hindex (j : ℕ) (hj : params.newIndex? = some j) : j < params.new.size :=
      Reshare.newIndex?_lt_of_make (Committee.proper_of_ofList hnew) hmake hj
    exact Reshare.views_start hindex hp hstart h

theorem views_behind_queue_pair :
    (OrderedParty.start ⟨Keygen.Setup.pair.party 0, []⟩).2.views
        ((Keygen.Setup.pair.received 0).reverse ++ Keygen.Setup.pair.received 0) =
      (Keygen.Setup.pair.party 0).start.2.views
        ((Keygen.Setup.pair.received 0).reverse ++ Keygen.Setup.pair.received 0) ∧
    (OrderedParty.start ⟨Reshare.Setup.pair.party (Reshare.firstPair.member 1), []⟩).2.views
        ((Reshare.Setup.pair.received (Reshare.firstPair.member 1)).reverse ++
          Reshare.Setup.pair.received (Reshare.firstPair.member 1)) =
      (Reshare.Setup.pair.party (Reshare.firstPair.member 1)).start.2.views
        ((Reshare.Setup.pair.received (Reshare.firstPair.member 1)).reverse ++
          Reshare.Setup.pair.received (Reshare.firstPair.member 1)) := by
  constructor
  · have hvalid := Keygen.Setup.valid_pair
    have hlawful := hvalid.lawful_role (show 0 < Keygen.Setup.pair.parties.size by decide)
    refine views_behind_queue.1 (hvalid.newParty_eq 0) hlawful.start_eq_ok fun m hm => ?_
    rw [List.mem_append, List.mem_reverse, or_self, Keygen.Setup.mem_received_iff] at hm
    exact ⟨hlawful.validate_start hm, hvalid.seated hm⟩
  · have hvalid := Reshare.Setup.valid_pair
    have hmember : Reshare.firstPair.member 1 ∈
        Reshare.participants Reshare.Setup.pair.old Reshare.Setup.pair.new := by decide
    have hlawful := hvalid.lawful_role hmember
    refine views_behind_queue.2 Reshare.ofList_secondPair (hvalid.make_eq hmember)
      (hvalid.newParty_eq _) hlawful.start_eq_ok fun m hm => ?_
    rw [List.mem_append, List.mem_reverse, or_self, Reshare.Setup.mem_received_iff] at hm
    exact ⟨hlawful.validate_start hm, hvalid.seated hm⟩

/-- A party that has been started, in key generation or in resharing, ends alike in whatever order
the messages come, if those that count and are of one kind and one sender say the same. -/
theorem sameEnd_of_perm :
    (∀ {params : Keygen.Parameters} {source : Source}
      {p : Party Keygen.State Keygen.Payload KeyShare}
      {messages messages' : List (Message Keygen.Payload)},
      Keygen.newParty params source = .ok p → p.start.1 = .ok () → messages.Perm messages' →
      (∀ m ∈ messages, ∀ m' ∈ messages, p.start.2.validate m = .ok () →
        p.start.2.validate m' = .ok () → Keygen.Concur params m m') →
        p.start.2.SameEnd messages messages') ∧
    ∀ {newIds : List PartyId} {curve : CurveParams} {old new : Committee} {id : PartyId}
      {oldThreshold newThreshold : ℕ} {version : Version} {params : Reshare.Parameters}
      {input : Reshare.Input} {source : Source}
      {p : Party Reshare.State Reshare.Payload Reshare.Outcome}
      {messages messages' : List (Message Reshare.Payload)},
      Committee.ofList newIds = .ok new →
      Reshare.Parameters.make curve old new id oldThreshold newThreshold version = .ok params →
      Reshare.newParty params input source = .ok p → p.start.1 = .ok () →
      messages.Perm messages' →
      (∀ m ∈ messages, ∀ m' ∈ messages, p.start.2.validate m = .ok () →
        p.start.2.validate m' = .ok () → Reshare.Concur params m m') →
        p.start.2.SameEnd messages messages' := by
  constructor
  · intro params source p messages messages' hp hstart hperm h
    obtain ⟨halike, hfailure⟩ := Keygen.alike_of_perm hp hstart hperm h
    exact halike.sameEnd hfailure
  · intro newIds curve old new id oldThreshold newThreshold version params input source p messages
      messages' hnew hmake hp hstart hperm h
    have hindex (j : ℕ) (hj : params.newIndex? = some j) : j < params.new.size :=
      Reshare.newIndex?_lt_of_make (Committee.proper_of_ofList hnew) hmake hj
    obtain ⟨halike, hfailure⟩ := Reshare.alike_of_perm hindex hp hstart hperm h
    exact halike.sameEnd hfailure

theorem sameEnd_of_perm_pair :
    (Keygen.Setup.pair.party 0).start.2.SameEnd (Keygen.Setup.pair.received 0)
      (Keygen.Setup.pair.received 0).reverse ∧
    (Reshare.Setup.pair.party (Reshare.firstPair.member 1)).start.2.SameEnd
      (Reshare.Setup.pair.received (Reshare.firstPair.member 1))
      (Reshare.Setup.pair.received (Reshare.firstPair.member 1)).reverse := by
  constructor
  · have hvalid := Keygen.Setup.valid_pair
    have hlawful := hvalid.lawful_role (show 0 < Keygen.Setup.pair.parties.size by decide)
    refine sameEnd_of_perm.1 (hvalid.newParty_eq 0) hlawful.start_eq_ok
      (List.reverse_perm _).symm fun m hm m' hm' _ _ => ?_
    rw [Keygen.Setup.mem_received_iff] at hm hm'
    exact hvalid.concur hm hm'
  · have hvalid := Reshare.Setup.valid_pair
    have hmember : Reshare.firstPair.member 1 ∈
        Reshare.participants Reshare.Setup.pair.old Reshare.Setup.pair.new := by decide
    refine sameEnd_of_perm.2 Reshare.ofList_secondPair (hvalid.make_eq hmember)
      (hvalid.newParty_eq _) (hvalid.lawful_role hmember).start_eq_ok
      (List.reverse_perm _).symm fun m hm m' hm' _ _ => ?_
    rw [Reshare.Setup.mem_received_iff] at hm hm'
    exact hvalid.concur hm hm'

end ThresholdKeys
