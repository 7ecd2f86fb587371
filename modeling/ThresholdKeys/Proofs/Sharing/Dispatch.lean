import Mathlib
import ThresholdKeys.Message
import ThresholdKeys.Proofs.Sharing.Dealer

/-!
# Shares on their way

What a dealer sends, in whatever protocol: it commits to its dealing, sends every other receiver
the share at the receiver's point, and opens the commitment. A dealer that has got anywhere in this
has sent no share twice, and none to a party other than its owner.
-/

namespace ThresholdKeys

open Committee (pointOf)

/-- How a protocol puts what a dealer has to say. -/
structure Wording (C : Type) where
  commit : Commitment → C
  share : Share → C
  reveal : Opening → C
  share? : C → Option Share
  share?_commit : ∀ c, share? (commit c) = none
  share?_share : ∀ x, share? (share x) = some x
  share?_reveal : ∀ o, share? (reveal o) = none

theorem flatMap_range_prefix {α : Type} {f : ℕ → List α} {n : ℕ} (hf : ∀ k, n ≤ k → f k = [])
    (k : ℕ) : (List.range k).flatMap f <+: (List.range n).flatMap f := by
  rcases Nat.le_total k n with hle | hle
  · obtain ⟨m, rfl⟩ := Nat.exists_eq_add_of_le hle
    rw [List.range_add, List.flatMap_append]
    exact List.prefix_append ..
  · obtain ⟨m, rfl⟩ := Nat.exists_eq_add_of_le hle
    have hrest : (List.range m).flatMap (fun j => f (n + j)) = [] :=
      List.flatMap_eq_nil_iff.2 fun j _ => hf _ (Nat.le_add_right n j)
    rw [List.range_add, List.flatMap_append, List.flatMap_map, hrest, List.append_nil]

namespace Dealer

variable {C : Type} (w : Wording C) (d : Dealer) (me : PartyId) (receivers : Committee)

def commitMessage : Message C := .broadcast me .new (w.commit d.opening.commitment)

def shareMessage (q : PartyId) : Message C := .direct me q .new (w.share (d.share (pointOf q)))

def revealMessage : Message C := .broadcast me .new (w.reveal d.opening)

/-- The messages of the dealer `me` in their order, with others of its messages before the
shares. -/
def messages (between : List (Message C)) : List (Message C) :=
  d.commitMessage w me :: (between ++ ((receivers.others me).map (d.shareMessage w me) ++
    [d.revealMessage w me]))

/-- The commitment is opened to the points of the coefficients. -/
def Opens (d : Dealer) : Prop :=
  ∃ flat, Point.flatten (d.coefficients.map (· • Point.generator)) = .ok flat ∧
    d.opening.commitment.open? d.opening = some flat

/-- What a dealer has sent is the beginning of its messages, and keeps every share from all but its
owner. -/
structure Dispatches (between sent : List (Message C)) : Prop where
  ordered : sent <+: d.messages w me receivers between
  opens : sent ≠ [] → d.Opens
  /-- A share goes to one receiver other than the dealer, at whose point and no other's it is. -/
  addressed : ∀ m ∈ sent, ∀ x, w.share? m.content = some x → m.isBroadcast = false ∧
    ∃ q ∈ receivers.others me, m.recipients = some [q] ∧ x = d.share (pointOf q) ∧
      ∀ r ∈ receivers.members, x.id = pointOf r → r = q
  /-- The share of the dealer itself stays with it. -/
  kept : ∀ m ∈ sent, ∀ x, w.share? m.content = some x → ∀ r ∈ receivers.members, r.SameKey me →
    x.id ≠ pointOf r
  once : (sent.filterMap fun m => w.share? m.content).Nodup

variable {w d me receivers} {between sent : List (Message C)}

/-! ## From dealing to opening -/

theorem commitments_of_create {dealing : Dealing} {source₁ source₂ : Source} {c : Commitment}
    {o : Opening}
    (hcreate : Dealing.create d.source d.threshold d.secret d.ids = .ok (dealing, source₁))
    (hcommit : dealing.commit source₁ = .ok ((c, o), source₂)) :
    dealing = d.dealing ∧ o = d.opening ∧ c = d.opening.commitment ∧ d.Opens := by
  obtain ⟨-, -, -, rfl, rfl⟩ := Dealing.create_eq_ok_iff.1 hcreate
  obtain ⟨flat, hflat, rfl, rfl, -⟩ := Dealing.commit_eq_ok_iff.1 hcommit
  have hopening : d.opening = ⟨d.afterDealing.nextWord.1 :: flat⟩ := by
    rw [opening, show Point.flatten d.dealing.commitments = .ok flat from hflat]
    rfl
  refine ⟨rfl, hopening.symm, congrArg Opening.commitment hopening.symm, flat, hflat, ?_⟩
  exact Commitment.open?_eq_some_iff.2 ⟨rfl, _, congrArg Opening.elements hopening⟩

/-! ## What the messages carry -/

theorem mem_messages_iff {m : Message C} : m ∈ d.messages w me receivers between ↔
    m = d.commitMessage w me ∨ m ∈ between ∨
      (∃ q ∈ receivers.others me, d.shareMessage w me q = m) ∨ m = d.revealMessage w me := by
  simp only [messages, List.mem_cons, List.mem_append, List.mem_map, List.not_mem_nil, or_false]

theorem eq_shareMessage_of_share? (hbetween : ∀ m ∈ between, w.share? m.content = none)
    {m : Message C} (hm : m ∈ d.messages w me receivers between) {x : Share}
    (hx : w.share? m.content = some x) :
    ∃ q ∈ receivers.others me, m = d.shareMessage w me q ∧ x = d.share (pointOf q) := by
  rcases mem_messages_iff.1 hm with rfl | hm | ⟨q, hq, rfl⟩ | rfl
  · cases (w.share?_commit _).symm.trans hx
  · cases (hbetween m hm).symm.trans hx
  · exact ⟨q, hq, rfl, (Option.some.inj ((w.share?_share _).symm.trans hx)).symm⟩
  · cases (w.share?_reveal _).symm.trans hx

theorem filterMap_share?_messages (hbetween : ∀ m ∈ between, w.share? m.content = none) :
    (d.messages w me receivers between).filterMap (fun m => w.share? m.content) =
      (receivers.others me).map fun q => d.share (pointOf q) := by
  have hcommit : w.share? (d.commitMessage w me).content = none := w.share?_commit _
  have hreveal : w.share? (d.revealMessage w me).content = none := w.share?_reveal _
  have hshares : (fun m : Message C => w.share? m.content) ∘ d.shareMessage w me =
      fun q => some (d.share (pointOf q)) := funext fun q => w.share?_share _
  simp only [messages, List.filterMap_cons, hcommit, List.filterMap_append,
    List.filterMap_eq_nil_iff.2 hbetween, List.filterMap_map, hshares, hreveal, List.filterMap_nil,
    List.append_nil, List.nil_append, List.filterMap_eq_map']

theorem nodup_shares (hproper : receivers.Proper) :
    ((receivers.others me).map fun q => d.share (pointOf q)).Nodup := by
  have hpoints : ((receivers.others me).map pointOf).Nodup :=
    hproper.nodup.sublist (List.filter_sublist.map pointOf)
  refine List.Nodup.of_map Share.id ?_
  rwa [List.map_map]

/-- The order of what was sent says all about its shares. -/
theorem dispatches_of_ordered (hproper : receivers.Proper)
    (hbetween : ∀ m ∈ between, w.share? m.content = none) (hopens : sent ≠ [] → d.Opens)
    (hordered : sent <+: d.messages w me receivers between) :
    d.Dispatches w me receivers between sent := by
  have hshare (m : Message C) (hm : m ∈ sent) (x : Share) (hx : w.share? m.content = some x) :
      ∃ q ∈ receivers.others me, m = d.shareMessage w me q ∧ x = d.share (pointOf q) :=
    eq_shareMessage_of_share? hbetween (hordered.subset hm) hx
  refine ⟨hordered, hopens, fun m hm x hx => ?_, fun m hm x hx r hr hrme hid => ?_, ?_⟩
  · obtain ⟨q, hq, rfl, rfl⟩ := hshare m hm x hx
    exact ⟨rfl, q, hq, rfl, rfl, fun r hr hid =>
      hproper.eq_of_pointOf hr (Committee.mem_others_iff.1 hq).1 hid.symm⟩
  · obtain ⟨q, hq, -, rfl⟩ := hshare m hm x hx
    obtain ⟨hmem, hne⟩ := Committee.mem_others_iff.1 hq
    obtain rfl : r = q := hproper.eq_of_pointOf hr hmem hid.symm
    exact hne hrme
  · refine List.Nodup.sublist (hordered.sublist.filterMap _) ?_
    rw [filterMap_share?_messages hbetween]
    exact nodup_shares hproper

end Dealer

end ThresholdKeys
