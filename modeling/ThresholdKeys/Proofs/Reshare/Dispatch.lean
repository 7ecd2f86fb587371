import Mathlib
import ThresholdKeys.Proofs.Reshare.Committed
import ThresholdKeys.Proofs.Reshare.Waiting
import ThresholdKeys.Proofs.Sharing.Dispatch

/-!
# What an old member lets go of its dealing

An old member deals its weighted share once, from the words that it draws first. What it has sent
under arbitrary calls is the beginning of the messages of that dealer, with the acknowledgement of
a member that stays before the shares.
-/

namespace ThresholdKeys.Reshare

open Committee (pointOf)

variable {params : Parameters} {input : Input} {secret : Scalar} {source : Source} {s s' : State}
  {e : Step} {k : ℕ} {sent : List (Message Payload)} {results : List Outcome}

def wording : Wording Payload where
  commit := .commit
  share := .share
  reveal := .reveal
  share?
    | .share x => some x
    | .commit _ | .ack | .reveal _ => none
  share?_commit _ := rfl
  share?_share _ := rfl
  share?_reveal _ := rfl

/-- The dealer that an old member with the given secret is. -/
def Parameters.dealer (params : Parameters) (secret : Scalar) (source : Source) : Dealer :=
  ⟨source, params.newThreshold,
    lagrangeWeight (params.old.members.map pointOf) (pointOf params.id) * secret,
    params.new.members.map pointOf⟩

def acks (newId : Option PartyId) : List (Message Payload) :=
  newId.toList.map fun me => .broadcast me .old .ack

/-- What an old member sends on entering a round. -/
def Parameters.sends (params : Parameters) (d : Dealer) : ℕ → List (Message Payload)
  | 0 => [d.commitMessage wording params.id]
  | 1 => acks params.newId
  | 2 => (params.new.others params.id).map (d.shareMessage wording params.id) ++
      [d.revealMessage wording params.id]
  | _ + 3 => []

/-- What was dealt and what was sent when `k` rounds are entered. -/
structure State.Deals (s : State) (params : Parameters) (secret : Scalar) (source : Source) (k : ℕ)
    (sent : List (Message Payload)) : Prop where
  source_eq : k = 0 → s.source = source
  dealt_eq : 1 ≤ k → s.dealt =
    some ((params.dealer secret source).dealing, (params.dealer secret source).opening)
  opens : 1 ≤ k → (params.dealer secret source).Opens
  sent_eq : sent = (List.range k).flatMap (params.sends (params.dealer secret source))

theorem State.Deals.of_dealt (h : s.Deals params secret source k sent) (hk : 1 ≤ k)
    (hs : s'.dealt = s.dealt) : s'.Deals params secret source k sent where
  source_eq h0 := absurd h0 (Nat.ne_of_gt hk)
  dealt_eq _ := hs.trans (h.dealt_eq hk)
  opens _ := h.opens hk
  sent_eq := h.sent_eq

theorem State.Deals.next (h : s.Deals params secret source k sent) (hk : 1 ≤ k)
    (hdealt : e.state.dealt = s.dealt)
    (hsent : e.sent = params.sends (params.dealer secret source) k) :
    e.state.Deals params secret source (k + 1) (sent ++ e.sent) where
  source_eq h0 := absurd h0 (Nat.succ_ne_zero k)
  dealt_eq _ := hdealt.trans (h.dealt_eq hk)
  opens _ := h.opens hk
  sent_eq := by
    rw [h.sent_eq, hsent, List.range_succ, List.flatMap_append, List.flatMap_singleton]

structure Parameters.OfOld (params : Parameters) (i : ℕ) : Prop where
  old_proper : params.old.Proper
  new_proper : params.new.Proper
  lt : i < params.old.size
  id_eq : params.id = params.old.member i
  oldIndex?_eq : params.oldIndex? = some i
  newId_eq : params.newId = params.new.find? params.id

namespace Parameters.OfOld

variable {i : ℕ}

theorem newIndex?_eq (h : params.OfOld i) : params.newIndex? = params.new.position? params.id := by
  rw [newIndex?, h.newId_eq]
  rfl

theorem weight_eq (h : params.OfOld i) {weight : Scalar}
    (hweight : lagrangeCoefficient (params.old.members.map pointOf) i = .ok weight) :
    weight = lagrangeWeight (params.old.members.map pointOf) (pointOf params.id) := by
  have hpoint : (params.old.members.map pointOf)[i]? = some (pointOf params.id) :=
    h.id_eq ▸ Committee.getElem?_points h.lt
  exact Except.ok.inj (hweight.symm.trans (lagrangeCoefficient_eq h.old_proper.nodup hpoint))

end Parameters.OfOld

section Entering

variable {i : ℕ} (hparams : params.OfOld i)

include hparams

theorem State.Deals.enterCommit (hs : s.Prepared params input) (hsecret : input.secret = some secret)
    (h : s.Deals params secret source 0 sent) (he : enterCommit s = .ok e) :
    e.state.Deals params secret source 1 (sent ++ e.sent) := by
  obtain ⟨secret', weight, dealing, source₁, c, o, source₂, hsecret', hweight, hcreate, hcommit,
    rfl⟩ := (enterCommit_eq_ok_iff (hs.params_eq ▸ hparams.oldIndex?_eq)).1 he
  obtain rfl := Option.some.inj (hsecret.symm.trans (hs.input_eq ▸ hsecret'))
  have holdPoints : s.oldPoints = params.old.members.map pointOf :=
    Except.ok.inj (hs.oldPoints_eq.symm.trans hparams.old_proper.points_eq)
  have hnewPoints : s.newPoints = params.new.members.map pointOf :=
    Except.ok.inj (hs.newPoints_eq.symm.trans hparams.new_proper.points_eq)
  rw [holdPoints] at hweight
  rw [hparams.weight_eq hweight, h.source_eq rfl, hs.params_eq, hnewPoints] at hcreate
  obtain ⟨rfl, rfl, rfl, hopens⟩ :=
    Dealer.commitments_of_create (d := params.dealer secret source) hcreate hcommit
  refine ⟨fun h0 => absurd h0 one_ne_zero, fun _ => rfl, fun _ => hopens, ?_⟩
  rw [h.sent_eq, hs.params_eq]
  rfl

theorem State.Deals.enterAck (hs : s.params = params) (h : s.Deals params secret source 1 sent)
    (he : enterAck s = .ok e) : e.state.Deals params secret source 2 (sent ++ e.sent) := by
  have hfind := hparams.newId_eq.trans (hparams.new_proper.find?_eq_map_position? params.id)
  cases hposition : params.new.position? params.id with
  | none =>
      rw [hposition, Option.map_none] at hfind
      rw [enterAck_of_notNew (hs ▸ hparams.newIndex?_eq.trans hposition)] at he
      obtain rfl := Except.ok.inj he
      exact h.next le_rfl rfl (by rw [Parameters.sends, hfind]; rfl)
  | some j =>
      rw [hposition, Option.map_some] at hfind
      rw [enterAck_eq (hs ▸ hparams.newIndex?_eq.trans hposition) (hs ▸ hfind)] at he
      obtain rfl := Except.ok.inj he
      exact h.next le_rfl rfl (by rw [Parameters.sends, hfind, hs]; rfl)

theorem State.Deals.enterReveal (hs : s.params = params) (h : s.Deals params secret source 2 sent)
    (he : enterReveal s = .ok e) : e.state.Deals params secret source 3 (sent ++ e.sent) := by
  obtain ⟨dealing, opening, dealt, hdealt, hshares, rfl⟩ :=
    (enterReveal_eq_ok_iff (hs ▸ hparams.oldIndex?_eq)).1 he
  obtain ⟨rfl, rfl⟩ := Prod.mk.inj (Option.some.inj (hdealt.symm.trans (h.dealt_eq one_le_two)))
  obtain rfl := Except.ok.inj (hshares.symm.trans (dealtShares_dealing (hs ▸ rfl)))
  refine h.next one_le_two rfl ?_
  -- the share that is held back is the one at the own place on the new committee
  rw [Parameters.sends, hparams.new_proper.others_eq, hs, hparams.newIndex?_eq, List.filter_map,
    List.map_map, List.map_map]
  rfl

/-- Entering a round and taking up a message keep what was dealt and sent. -/
theorem keepsDeals (hsecret : input.secret = some secret) (source : Source) :
    Party.Keeps protocol (rounds params) fun k s sent results =>
      Invariant params input k s results ∧ s.Deals params secret source k sent :=
  (keeps (fun _ hj => (hparams.new_proper.position?_eq_some_iff.1
      (hparams.newIndex?_eq.symm.trans hj)).1) input).and
    (fun {k s sent results round entry} hround hinv hdeals _ he => by
      have hs := hinv.prepared
      rcases getElem?_rounds hround with ⟨rfl, rfl⟩ | ⟨rfl, rfl⟩ | ⟨rfl, rfl⟩ | ⟨rfl, rfl⟩
      · exact hdeals.enterCommit hparams hs hsecret he
      · exact hdeals.enterAck hparams hs.params_eq he
      · exact hdeals.enterReveal hparams hs.params_eq he
      · obtain ⟨hstate, hsent⟩ := silent_enterConclude he
        exact hdeals.next (by omega) (congrArg State.dealt hstate) hsent)
    fun hk _ hdeals hs => hdeals.of_dealt hk (State.takes_of_store hs).extends.dealt

end Entering

/-! ## All that an old member sends -/

theorem deals_newParty {p : Party State Payload Outcome} (secret : Scalar)
    (hp : newParty params input source = .ok p) :
    p.state.Deals params secret source 0 p.outbox.sent := by
  obtain ⟨s, hs, hp⟩ := Result.bind_eq_ok_iff.1 hp
  obtain rfl := Except.ok.inj hp
  obtain ⟨u, -, hs⟩ := Result.bind_eq_ok_iff.1 hs
  obtain ⟨oldPoints, -, hs⟩ := Result.bind_eq_ok_iff.1 hs
  obtain ⟨newPoints, -, hs⟩ := Result.bind_eq_ok_iff.1 hs
  obtain rfl := Except.ok.inj hs
  exact ⟨fun _ => rfl, fun hk => absurd hk (by omega), fun hk => absurd hk (by omega), rfl⟩

/-- An old member sends in each round what follows in its messages. -/
theorem ordered_sends (params : Parameters) (d : Dealer) (k : ℕ) :
    (List.range k).flatMap (params.sends d) <+:
      d.messages wording params.id params.new (acks params.newId) := by
  have hmessages : (List.range 3).flatMap (params.sends d) =
      d.messages wording params.id params.new (acks params.newId) := by
    simp [List.range_succ, Parameters.sends, Dealer.messages]
  rw [← hmessages]
  exact flatMap_range_prefix (fun k hk => by obtain ⟨m, rfl⟩ := Nat.exists_eq_add_of_le' hk; rfl) k

theorem exists_secret {i : ℕ} (hparams : params.OfOld i) (hcheck : input.check params = .ok ()) :
    ∃ secret, input.secret = some secret := by
  obtain ⟨-, -, -, -, hsecret⟩ := Input.check_eq_ok_iff.1 hcheck
  obtain ⟨me, hme, -⟩ := Option.bind_eq_some_iff.1 hparams.oldIndex?_eq
  obtain ⟨_, secret, -, hsome, -⟩ := Input.checkSecret_eq_ok_iff.1 (hsecret me hme)
  exact ⟨secret, hsome⟩

theorem dispatches_of_run {p : Party State Payload Outcome} {i : ℕ} (hparams : params.OfOld i)
    (hp : newParty params input source = .ok p) (hsecret : input.secret = some secret)
    (calls : List (Call Payload)) : (params.dealer secret source).Dispatches wording params.id
      params.new (acks params.newId) (p.run calls).outbox.sent := by
  have hfollows := follows_newParty hp
  obtain ⟨k, -, hrun⟩ := Party.Follows.run (keepsDeals hparams hsecret source)
    ⟨hfollows.protocol, hfollows.stage, hfollows.inv, deals_newParty secret hp⟩ calls
  have hdeals := hrun.inv.2
  refine Dealer.dispatches_of_ordered hparams.new_proper (fun m hm => ?_) (fun hne => ?_) ?_
  · obtain ⟨me, -, rfl⟩ := List.mem_map.1 hm
    rfl
  · refine hdeals.opens (Nat.one_le_iff_ne_zero.2 fun hk => hne ?_)
    rw [hdeals.sent_eq, hk]
    rfl
  · rw [hdeals.sent_eq]
    exact ordered_sends params _ k

section Make

variable {curve : CurveParams} {old new : Committee} {id : PartyId}
  {oldThreshold newThreshold : ℕ} {version : Version}

theorem ofOld_of_make (hold : old.Proper) (hnew : new.Proper)
    (hmake : Parameters.make curve old new id oldThreshold newThreshold version = .ok params)
    (hisOld : params.isOld = true) : ∃ i, params.OfOld i := by
  obtain ⟨i, -, hlt, hindex, hid⟩ := oldPlace_of_make hmake hold hisOld
  have hkey := sameKey_of_make hmake
  obtain ⟨rfl, rfl, hnewId⟩ := committees_of_make hmake
  refine ⟨i, hold, hnew, hlt, hid, hindex, ?_⟩
  rw [hnewId, hnew.find?_eq_map_position?, hnew.find?_eq_map_position?,
    Committee.position?_congr hkey]

end Make

end ThresholdKeys.Reshare
