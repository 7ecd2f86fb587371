import Mathlib
import ThresholdKeys.Proofs.Reshare.Setup

/-!
# The rounds of undisturbed members

Whichever committees a member is on, every round is entered without an error, every message that
the member waits for is taken up, and the round is left exactly when all of them are there.
-/

namespace ThresholdKeys.Reshare.Setup

variable {r : Setup} {p : PartyId} {i j k : ℕ} {log : List (Message Payload)} {s : State}

theorem keepsDeal_iff (hi : r.old.position? p = some i) {l : ℕ} :
    r.KeepsDeal p l ↔ l = i ∧ (r.new.position? p).isSome := by
  rw [KeepsDeal, hi, Option.some.injEq, eq_comm]

theorem keepsAck_iff (hj : r.new.position? p = some j) {l : ℕ} :
    r.KeepsAck p l ↔ l = j ∧ (r.old.position? p).isSome := by
  rw [KeepsAck, hj, Option.some.injEq, eq_comm]

/-! ## Entering -/

/-- A round in which a party has nothing to do leaves it as it is. -/
theorem Holds.pass (hs : r.Holds p k log s) (hdealt : k = 0 → r.old.position? p = none)
    (hdeal : ∀ i, r.KeepsDeal p i → k ≠ 0 ∧ k ≠ 2) (hack : ∀ j, r.KeepsAck p j → k ≠ 1) :
    r.Holds p (k + 1) log s where
  params_eq := hs.params_eq
  input_eq := hs.input_eq
  oldPoints_eq := hs.oldPoints_eq
  newPoints_eq := hs.newPoints_eq
  source_eq hk := absurd hk (Nat.succ_ne_zero k)
  dealt_eq _ i hi := by
    apply hs.dealt_eq _ i hi
    by_contra hk
    rw [hdealt (by omega)] at hi
    cases hi
  commits := hs.commits.congr fun i _ => or_congr_left (and_congr_right fun hi => by
    have := hdeal i hi
    omega)
  acks := hs.acks.congr fun j _ => or_congr_left (and_congr_right fun hj => by
    have := hack j hj
    omega)
  shares j hj := (hs.shares j hj).congr fun i _ => or_congr_left (and_congr_right fun hi => by
    have := hdeal i hi
    omega)
  reveals := hs.reveals.congr fun i _ => or_congr_left (and_congr_right fun hi => by
    have := hdeal i hi
    omega)

/-- Only old members have something to do when deals are made and opened. -/
theorem Holds.pass_of_notOld (hs : r.Holds p k log s) (hi : r.old.position? p = none) :
    r.Holds p (k + 1) log s := by
  refine hs.pass (fun _ => hi) (fun i hkeeps => ?_) fun j hkeeps => ?_
  · cases hi.symm.trans hkeeps.1
  · have hold := hkeeps.2
    rw [hi] at hold
    cases hold

/-- Only new members acknowledge. -/
theorem Holds.pass_of_notNew (hs : r.Holds p k log s) (hj : r.new.position? p = none)
    (hk : k ≠ 0) : r.Holds p (k + 1) log s := by
  refine hs.pass (fun hzero => absurd hzero hk) (fun i hkeeps => ?_) fun j hkeeps => ?_
  · have hnew := hkeeps.2
    rw [hj] at hnew
    cases hnew
  · cases hj.symm.trans hkeeps.1

theorem keepsDeal_of_mem (hi : r.old.position? p = some i) {l : ℕ}
    (hl : l ∈ if (r.new.position? p).isSome then [i] else []) : r.KeepsDeal p l := by
  split at hl
  · rename_i hdual
    exact (keepsDeal_iff hi).2 ⟨List.mem_singleton.1 hl, hdual⟩
  · cases hl

theorem keepsAck_of_mem (hj : r.new.position? p = some j) {l : ℕ}
    (hl : l ∈ if (r.old.position? p).isSome then [j] else []) : r.KeepsAck p l := by
  split at hl
  · rename_i hdual
    exact (keepsAck_iff hj).2 ⟨List.mem_singleton.1 hl, hdual⟩
  · cases hl

theorem Holds.isNew (hs : r.Holds p k log s) (h : r.Valid) :
    s.params.isNew = (r.new.position? p).isSome := by
  rw [hs.params_eq, h.isNew_params]

theorem Holds.isOld (hs : r.Holds p k log s) (h : r.Valid) :
    s.params.isOld = (r.old.position? p).isSome := by
  rw [hs.params_eq, h.isOld_params]

theorem Holds.oldIndex? (hs : r.Holds p k log s) : s.params.oldIndex? = r.old.position? p := by
  rw [hs.params_eq]
  rfl

theorem Holds.newIndex? (hs : r.Holds p k log s) : s.params.newIndex? = r.new.position? p := by
  rw [hs.params_eq]
  rfl

section Enter

variable (h : r.Valid) (hp : p ∈ participants r.old r.new)

include h hp

theorem Holds.create_eq (hs : r.Holds p 0 log s) (hi : r.old.position? p = some i) :
    Dealing.create s.source s.params.newThreshold (r.weight i * r.secrets i) s.newPoints =
      .ok ((r.dealer i).dealing, (r.dealer i).afterDealing) := by
  rw [hs.source_eq rfl, hs.params_eq, hs.newPoints_eq, eq_old_member h.old_proper hp hi]
  exact Dealer.create_eq (h.dealer (h.old_proper.position?_eq_some_iff.1 hi).1)

theorem Holds.enterCommit (hs : r.Holds p 0 log s) :
    ∃ entry, enterCommit s = .ok entry ∧ r.Holds p 1 log entry.state ∧
      entry.sent = (r.role p).sends 0 ∧ entry.result = none ∧
        ∀ i ∈ entry.ticked, r.KeepsDeal p i := by
  cases hi : r.old.position? p with
  | none =>
      refine ⟨_, enterCommit_of_notOld (hs.oldIndex?.trans hi), hs.pass_of_notOld hi, ?_, rfl,
        nofun⟩
      simp [role, hi]
  | some i =>
      have hlt := (h.old_proper.position?_eq_some_iff.1 hi).1
      have hsecret : s.input.secret = some (r.secrets i) := by
        rw [hs.input_eq, input, hi, Option.map_some]
      have hweight : lagrangeCoefficient s.oldPoints i = .ok (r.weight i) := by
        rw [hs.oldPoints_eq, h.lagrangeCoefficient_eq hlt]
      refine ⟨_, (enterCommit_eq_ok_iff (hs.oldIndex?.trans hi)).2 ⟨_, _, _, _, _, _, _, hsecret,
        hweight, hs.create_eq h hp hi, Dealer.commit_eq (h.dealer hlt), rfl⟩, ?_, ?_, rfl, ?_⟩
      · exact
          { hs with
            source_eq := fun hk => absurd hk (by omega)
            dealt_eq := fun _ l hl => by
              obtain rfl := Option.some.inj (hi.symm.trans hl)
              rfl
            commits := by
              dsimp only
              rw [hs.isNew h]
              refine (hs.commits.putIf hlt _).congr fun l _ => ?_
              rw [keepsDeal_iff hi]
              simp
            acks := hs.acks.congr fun _ _ => by simp
            shares := fun l hl => (hs.shares l hl).congr fun _ _ => by simp
            reveals := hs.reveals.congr fun _ _ => by simp }
      · change [Message.broadcast s.params.id .new _] =
          (r.old.position? p).toList.map r.commitMessage
        rw [hi, hs.params_eq]
        change [Message.broadcast p .new _] = [r.commitMessage i]
        rw [commitMessage, ← eq_old_member h.old_proper hp hi]
      · dsimp only
        rw [hs.isNew h]
        exact fun l hl => keepsDeal_of_mem hi hl

omit hp in
theorem Holds.enterAck (hs : r.Holds p 1 log s) :
    ∃ entry, enterAck s = .ok entry ∧ r.Holds p 2 log entry.state ∧
      entry.sent = (r.role p).sends 1 ∧ entry.result = none ∧
        ∀ j ∈ entry.ticked, r.KeepsAck p j := by
  cases hj : r.new.position? p with
  | none =>
      refine ⟨_, enterAck_of_notNew (hs.newIndex?.trans hj), hs.pass_of_notNew hj one_ne_zero, ?_,
        rfl, nofun⟩
      simp [role, hj]
  | some j =>
      have hlt := (h.new_proper.position?_eq_some_iff.1 hj).1
      have hme : s.params.newId = some (r.new.member j) := by
        rw [hs.params_eq]
        change r.new.find? p = _
        rw [h.new_proper.find?_eq_map_position?, hj, Option.map_some]
      refine ⟨_, enterAck_eq (hs.newIndex?.trans hj) hme, ?_, ?_, rfl, ?_⟩
      · exact
          { hs with
            source_eq := fun hk => absurd hk (by omega)
            dealt_eq := fun _ => hs.dealt_eq le_rfl
            commits := hs.commits.congr fun _ _ => by simp
            acks := by
              dsimp only
              rw [hs.isOld h]
              refine (hs.acks.putIf hlt _).congr fun l _ => ?_
              rw [keepsAck_iff hj]
              simp
            shares := fun l hl => (hs.shares l hl).congr fun _ _ => by simp
            reveals := hs.reveals.congr fun _ _ => by simp }
      · simp [role, hj, ackMessage]
      · dsimp only
        rw [hs.isOld h]
        exact fun l hl => keepsAck_of_mem hj hl

end Enter

/-- What a dealer has for the new member at a place. -/
def shareFor (r : Setup) (i j : ℕ) : ℕ × PartyId × Share :=
  (j, r.new.member j, (r.dealer i).share (r.newPoint j))

theorem dealtShares_eq (hs : s.params = r.params p) (i : ℕ) :
    dealtShares s (r.dealer i).dealing = .ok ((List.range r.new.size).map (r.shareFor i)) := by
  rw [dealtShares_dealing (hs ▸ rfl), hs]
  rfl

theorem find?_shareFor (i : ℕ) (hj : j < r.new.size) :
    ((List.range r.new.size).map (r.shareFor i)).find? (fun d => some j = some d.1) =
      some (r.shareFor i j) := by
  rw [List.find?_map]
  have hfind : (List.range r.new.size).find? ((fun d => decide (some j = some d.1)) ∘
      r.shareFor i) = some j := by
    rw [List.find?_range_eq_some]
    refine ⟨by simp [shareFor], List.mem_range.2 hj, fun l hl => ?_⟩
    simp [shareFor, Nat.ne_of_gt hl]
  rw [hfind, Option.map_some]

theorem filter_shareFor (i : ℕ) :
    ((List.range r.new.size).map (r.shareFor i)).filter
        (fun d => r.new.position? p ≠ some d.1) = (r.otherHolders p).map (r.shareFor i) := by
  rw [List.filter_map]
  rfl

theorem Holds.enterReveal (h : r.Valid) (hp : p ∈ participants r.old r.new)
    (hs : r.Holds p 2 log s) :
    ∃ entry, enterReveal s = .ok entry ∧ r.Holds p 3 log entry.state ∧
      entry.sent = (r.role p).sends 2 ∧ entry.result = none ∧
        ∀ i ∈ entry.ticked, r.KeepsDeal p i := by
  cases hi : r.old.position? p with
  | none =>
      refine ⟨_, enterReveal_of_notOld (hs.oldIndex?.trans hi), hs.pass_of_notOld hi, ?_, rfl,
        nofun⟩
      simp [role, hi]
  | some i =>
      have hlt := (h.old_proper.position?_eq_some_iff.1 hi).1
      refine ⟨_, (enterReveal_eq_ok_iff (hs.oldIndex?.trans hi)).2
        ⟨_, _, _, hs.dealt_eq one_le_two i hi, dealtShares_eq hs.params_eq i, rfl⟩,
        ?_, ?_, rfl, ?_⟩
      · exact
          { hs with
            source_eq := fun hk => absurd hk (by omega)
            dealt_eq := fun _ => hs.dealt_eq one_le_two
            commits := hs.commits.congr fun _ _ => by simp
            acks := hs.acks.congr fun _ _ => by simp
            shares := fun j hj => by
              dsimp only
              rw [hs.newIndex?, hj, find?_shareFor i (h.new_proper.position?_eq_some_iff.1 hj).1]
              refine ((hs.shares j hj).put hlt).congr fun l _ => ?_
              rw [keepsDeal_iff hi, hj]
              simp
            reveals := by
              dsimp only
              rw [hs.newIndex?]
              refine (hs.reveals.putIf hlt _).congr fun l _ => ?_
              rw [keepsDeal_iff hi]
              simp }
      · dsimp only
        rw [hs.newIndex?, filter_shareFor, hs.params_eq, List.map_map]
        simp only [role, hi, Option.toList_some, List.flatMap_singleton]
        rw [show (r.params p).id = r.old.member i from eq_old_member h.old_proper hp hi]
        rfl
      · dsimp only
        rw [hs.newIndex?]
        exact fun l hl => keepsDeal_of_mem hi hl

/-! ## Concluding -/

theorem threshold_of_mem_dealers {d : Dealer} (hd : d ∈ r.dealers) :
    d.threshold = r.newThreshold := by
  obtain ⟨i, -, rfl⟩ := List.mem_map.1 hd
  rfl

theorem sum_secrets_dealers (r : Setup) : (r.dealers.map fun d => d.secret).sum =
    ((List.range r.old.size).map fun i => r.weight i * r.secrets i).sum :=
  congrArg List.sum List.map_map

/-- What one old member has dealt to the new member at a place. -/
def dealFor (r : Setup) (j i : ℕ) : Deal :=
  ⟨(r.dealer i).opening.commitment, (r.dealer i).share (r.newPoint j), (r.dealer i).opening,
    r.weight i • r.secrets i • Point.generator⟩

/-- Everything that other dealers send to the new member at a place. -/
def HasDeals (r : Setup) (p : PartyId) (j : ℕ) (log : List (Message Payload)) : Prop :=
  ∀ i < r.old.size, r.old.position? p ≠ some i →
    r.commitMessage i ∈ log ∧ r.shareMessage i j ∈ log ∧ r.revealMessage i ∈ log

theorem Holds.deal (h : r.Valid) (hs : r.Holds p k log s) (hk : 3 ≤ k)
    (hj : r.new.position? p = some j) (hlog : r.HasDeals p j log) (hi : i < r.old.size) :
    deal s i = .ok (r.dealFor j i) := by
  have hthere : r.KeepsDeal p i ∨ r.commitMessage i ∈ log ∧ r.shareMessage i j ∈ log ∧
      r.revealMessage i ∈ log := by
    by_cases hpi : r.old.position? p = some i
    · exact Or.inl ⟨hpi, by rw [hj]; rfl⟩
    · exact Or.inr (hlog i hi hpi)
  apply deal_eq_ok_iff.2
  refine ⟨hs.commits.item? hi ?_, (hs.shares j hj).item? hi ?_, hs.reveals.item? hi ?_, _, _, ?_,
    ?_, rfl⟩
  · exact hthere.imp (fun hkeeps => ⟨hkeeps, by omega⟩) fun hm => hm.1
  · exact hthere.imp (fun hkeeps => ⟨hkeeps, hk⟩) fun hm => hm.2.1
  · exact hthere.imp (fun hkeeps => ⟨hkeeps, hk⟩) fun hm => hm.2.2
  · rw [hs.input_eq]
    exact getElem?_oldShares hi
  · rw [hs.oldPoints_eq, h.lagrangeCoefficient_eq hi]

theorem Holds.assemble (h : r.Valid) (hj : j < r.new.size) (hs : r.Holds p k log s) :
    assemble s j ((List.range r.old.size).map (r.dealFor j))
      (r.dealers.map fun d => d.dealing.commitments) = .ok (r.keyShare j) := by
  have hkey : (Dealer.publishedSum r.newThreshold r.dealers).headD 0 = r.publicKey := by
    rw [Dealer.headD_publishedSum fun d => threshold_of_mem_dealers, r.sum_secrets_dealers,
      h.publicKey_eq]
  have hsecret : Residue.sum (((List.range r.old.size).map (r.dealFor j)).map
      fun d => d.share.value) = (r.keyShare j).secret := by
    rw [Residue.sum_eq_sum, List.map_map]
    change _ = (r.dealers.map fun d => (d.share (r.newPoint j)).value).sum
    rw [dealers, List.map_map]
    rfl
  rw [assemble_eq_ok_iff, hs.params_eq, hs.input_eq, hs.newPoints_eq, hsecret]
  change (Dealer.publishedSum r.newThreshold r.dealers).head? = some r.publicKey ∧
    KeyShare.make _ _ j _ _ r.publicKey = _
  rw [← hkey]
  exact ⟨Dealer.head?_publishedSum .., Dealer.make_keyShare (fun d => threshold_of_mem_dealers) hj⟩

theorem Holds.conclude (h : r.Valid) (hs : r.Holds p k log s) (hk : 3 ≤ k)
    (hj : r.new.position? p = some j) (hlog : r.HasDeals p j log) :
    conclude s = .ok (r.keyShare j) := by
  have hlt := (h.new_proper.position?_eq_some_iff.1 hj).1
  have hindex : s.params.newIndex? = some j := hs.newIndex?.trans hj
  have hown : s.newPoints[j]? = some (r.newPoint j) := by
    rw [hs.newPoints_eq, getElem?_newPoints hlt]
  have hdeals : (List.range s.params.old.size).mapM (Reshare.deal s) =
      .ok ((List.range r.old.size).map (r.dealFor j)) := by
    rw [hs.params_eq]
    exact Result.mapM_eq_ok_map fun i hi => hs.deal h hk hj hlog (List.mem_range.1 hi)
  have hsound : List.Forall₂ (fun d vs => d.Sound s.params.newThreshold (r.newPoint j) vs)
      ((List.range r.old.size).map (r.dealFor j))
      (r.dealers.map fun d => d.dealing.commitments) := by
    rw [dealers, List.map_map, List.forall₂_map_left_iff, List.forall₂_map_right_iff, hs.params_eq]
    exact List.forall₂_same.2 fun i hi => h.sound_deal (List.mem_range.1 hi) j
  exact conclude_eq_ok_iff.2 ⟨j, _, _, _, hindex, hown, hdeals, hsound, hs.assemble h hlt⟩

theorem Holds.enterConclude (h : r.Valid) (hs : r.Holds p 3 log s)
    (hlog : ∀ j, r.new.position? p = some j → r.HasDeals p j log) :
    ∃ entry, enterConclude s = .ok entry ∧ r.Holds p 4 log entry.state ∧ entry.sent = [] ∧
      entry.result = some (r.outcome p) ∧ entry.ticked = [] := by
  have hnext : r.Holds p 4 log s := by
    apply hs.pass
    · omega
    · omega
    · omega
  have hnew := hs.isNew h
  cases hj : r.new.position? p with
  | none =>
      refine ⟨{ state := s, result := some .retired }, enterConclude_eq_ok_iff.2 ?_, hnext, rfl, ?_,
        rfl⟩
      · rw [hnew, hj]
        exact rfl
      · rw [outcome, hj]
        rfl
  | some j =>
      refine ⟨{ state := s, result := some (.share (r.keyShare j)) }, enterConclude_eq_ok_iff.2 ?_,
        hnext, rfl, ?_, rfl⟩
      · rw [hnew, hj]
        exact ⟨_, hs.conclude h le_rfl hj (hlog j hj), rfl⟩
      · rw [outcome, hj]
        rfl

/-! ## Messages -/

theorem mem_needs_zero_iff {m : Message Payload} : m ∈ (r.role p).needs 0 ↔
    ∃ j, r.new.position? p = some j ∧
      ∃ i < r.old.size, r.old.position? p ≠ some i ∧ m = r.commitMessage i := by
  cases hj : r.new.position? p <;>
    simp [role, hj, mem_otherDealers_iff, and_assoc, eq_comm (b := m)]

theorem mem_needs_one_iff {m : Message Payload} : m ∈ (r.role p).needs 1 ↔
    ∃ i, r.old.position? p = some i ∧
      ∃ j < r.new.size, r.new.position? p ≠ some j ∧ m = r.ackMessage j := by
  cases hi : r.old.position? p <;>
    simp [role, hi, mem_otherHolders_iff, and_assoc, eq_comm (b := m)]

theorem mem_needs_two_iff {m : Message Payload} : m ∈ (r.role p).needs 2 ↔
    ∃ j, r.new.position? p = some j ∧ ∃ i < r.old.size, r.old.position? p ≠ some i ∧
      (m = r.shareMessage i j ∨ m = r.revealMessage i) := by
  cases hj : r.new.position? p <;> simp [role, hj, mem_otherDealers_iff, and_assoc]

theorem hasDeals_of_needs (hj : r.new.position? p = some j) (hcommits : (r.role p).needs 0 ⊆ log)
    (hreveals : (r.role p).needs 2 ⊆ log) : r.HasDeals p j log := fun i hi hpi =>
  ⟨hcommits (mem_needs_zero_iff.2 ⟨j, hj, i, hi, hpi, rfl⟩),
    hreveals (mem_needs_two_iff.2 ⟨j, hj, i, hi, hpi, Or.inl rfl⟩),
    hreveals (mem_needs_two_iff.2 ⟨j, hj, i, hi, hpi, Or.inr rfl⟩)⟩

/-- New members wait for the deals of the other dealers, old members for the acknowledgements of
the other holders. -/
theorem needs_iff {m : Message Payload} : (r.role p).Needs m ↔
    (∃ j, r.new.position? p = some j ∧ ∃ i < r.old.size, r.old.position? p ≠ some i ∧
      (m = r.commitMessage i ∨ m = r.shareMessage i j ∨ m = r.revealMessage i)) ∨
    ∃ i, r.old.position? p = some i ∧
      ∃ j < r.new.size, r.new.position? p ≠ some j ∧ m = r.ackMessage j := by
  constructor
  · rintro ⟨k, hk, hm⟩
    change k < 4 at hk
    rcases k with _ | _ | _ | _ | k
    · obtain ⟨j, hj, i, hi, hpi, hm⟩ := mem_needs_zero_iff.1 hm
      exact Or.inl ⟨j, hj, i, hi, hpi, Or.inl hm⟩
    · exact Or.inr (mem_needs_one_iff.1 hm)
    · obtain ⟨j, hj, i, hi, hpi, hm⟩ := mem_needs_two_iff.1 hm
      exact Or.inl ⟨j, hj, i, hi, hpi, Or.inr hm⟩
    · exact absurd hm List.not_mem_nil
    · omega
  · rintro (⟨j, hj, i, hi, hpi, hm | hm⟩ | hm)
    · exact ⟨0, show 0 < 4 by omega, mem_needs_zero_iff.2 ⟨j, hj, i, hi, hpi, hm⟩⟩
    · exact ⟨2, show 2 < 4 by omega, mem_needs_two_iff.2 ⟨j, hj, i, hi, hpi, hm⟩⟩
    · exact ⟨1, show 1 < 4 by omega, mem_needs_one_iff.2 hm⟩

section Messages

variable (h : r.Valid)

include h

theorem Valid.old_member_inj {l : ℕ} (hi : i < r.old.size) (hl : l < r.old.size)
    (heq : r.old.member l = r.old.member i) : l = i :=
  h.old_proper.eq_of_sameKey hl hi (congrArg PartyId.key heq)

theorem Valid.new_member_inj {l : ℕ} (hj : j < r.new.size) (hl : l < r.new.size)
    (heq : r.new.member l = r.new.member j) : l = j :=
  h.new_proper.eq_of_sameKey hl hj (congrArg PartyId.key heq)

theorem Holds.seat?_old (hs : r.Holds p k log s) (hi : i < r.old.size) :
    s.params.old.seat? (r.old.member i) = some i := by
  rw [hs.params_eq]
  exact h.old_proper.seat?_member hi

theorem Holds.seat?_new (hs : r.Holds p k log s) (hj : j < r.new.size) :
    s.params.new.seat? (r.new.member j) = some j := by
  rw [hs.params_eq]
  exact h.new_proper.seat?_member hj

theorem Holds.store_ack (hs : r.Holds p k log s) (hi : r.old.position? p = some i)
    (hj : j < r.new.size) (hpj : r.new.position? p ≠ some j) (hnew : r.ackMessage j ∉ log) :
    ∃ s', s.store (r.ackMessage j) = .ok s' ∧ r.Holds p k (log ++ [r.ackMessage j]) s' := by
  have hisOld : s.params.isOld = true := by rw [hs.isOld h, hi]; rfl
  refine ⟨{ s with acks := s.acks.store true j ⟨(), true⟩ }, ?_,
    { hs with commits := ?_, acks := ?_, shares := fun l hl => ?_, reveals := ?_ }⟩
  · simp [State.store, State.seatOf, ackMessage, Message.broadcast, hisOld, hs.seat?_new h hj,
      Except.map]
  · exact hs.commits.ignore fun l heq => Payload.noConfusion (congrArg Message.content heq)
  · exact hs.acks.arrive hj (fun hkeeps => hpj hkeeps.1.1) hnew fun l hl heq =>
      h.new_member_inj hj hl (congrArg Message.sender heq)
  · exact (hs.shares l hl).ignore fun _ heq => Payload.noConfusion (congrArg Message.content heq)
  · exact hs.reveals.ignore fun l heq => Payload.noConfusion (congrArg Message.content heq)

section Deal

variable (hj : r.new.position? p = some j) (hi : i < r.old.size)
  (hpi : r.old.position? p ≠ some i)

include hj hi hpi

theorem Holds.store_commit (hs : r.Holds p k log s) (hnew : r.commitMessage i ∉ log) :
    ∃ s', s.store (r.commitMessage i) = .ok s' ∧ r.Holds p k (log ++ [r.commitMessage i]) s' := by
  have hisNew : s.params.isNew = true := by rw [hs.isNew h, hj]; rfl
  refine ⟨{ s with commits := s.commits.store true i ⟨(r.dealer i).opening.commitment, true⟩ }, ?_,
    { hs with commits := ?_, acks := ?_, shares := fun l hl => ?_, reveals := ?_ }⟩
  · simp [State.store, State.seatOf, commitMessage, Message.broadcast, hisNew, hs.seat?_old h hi,
      Except.map]
  · exact hs.commits.arrive hi (fun hkeeps => hpi hkeeps.1.1) hnew fun l hl heq =>
      h.old_member_inj hi hl (congrArg Message.sender heq)
  · exact hs.acks.ignore fun l heq => Payload.noConfusion (congrArg Message.content heq)
  · exact (hs.shares l hl).ignore fun _ heq => Payload.noConfusion (congrArg Message.content heq)
  · exact hs.reveals.ignore fun l heq => Payload.noConfusion (congrArg Message.content heq)

theorem Holds.store_share (hs : r.Holds p k log s) (hnew : r.shareMessage i j ∉ log) :
    ∃ s', s.store (r.shareMessage i j) = .ok s' ∧ r.Holds p k (log ++ [r.shareMessage i j]) s' := by
  have hisNew : s.params.isNew = true := by rw [hs.isNew h, hj]; rfl
  refine ⟨{ s with
      shares := s.shares.store false i ⟨(r.dealer i).share (r.newPoint j), false⟩ }, ?_,
    { hs with commits := ?_, acks := ?_, shares := fun l hl => ?_, reveals := ?_ }⟩
  · simp [State.store, State.seatOf, shareMessage, Message.direct, hisNew, hs.seat?_old h hi,
      Except.map]
  · exact hs.commits.ignore fun l heq => Payload.noConfusion (congrArg Message.content heq)
  · exact hs.acks.ignore fun l heq => Payload.noConfusion (congrArg Message.content heq)
  · obtain rfl := Option.some.inj (hj.symm.trans hl)
    exact (hs.shares j hj).arrive hi (fun hkeeps => hpi hkeeps.1.1) hnew fun l hl heq =>
      h.old_member_inj hi hl (congrArg Message.sender heq)
  · exact hs.reveals.ignore fun l heq => Payload.noConfusion (congrArg Message.content heq)

theorem Holds.store_reveal (hs : r.Holds p k log s) (hnew : r.revealMessage i ∉ log) :
    ∃ s', s.store (r.revealMessage i) = .ok s' ∧ r.Holds p k (log ++ [r.revealMessage i]) s' := by
  have hisNew : s.params.isNew = true := by rw [hs.isNew h, hj]; rfl
  refine ⟨{ s with reveals := s.reveals.store true i ⟨(r.dealer i).opening, true⟩ }, ?_,
    { hs with commits := ?_, acks := ?_, shares := fun l hl => ?_, reveals := ?_ }⟩
  · simp [State.store, State.seatOf, revealMessage, Message.broadcast, hisNew, hs.seat?_old h hi,
      Except.map]
  · exact hs.commits.ignore fun l heq => Payload.noConfusion (congrArg Message.content heq)
  · exact hs.acks.ignore fun l heq => Payload.noConfusion (congrArg Message.content heq)
  · exact (hs.shares l hl).ignore fun _ heq => Payload.noConfusion (congrArg Message.content heq)
  · exact hs.reveals.arrive hi (fun hkeeps => hpi hkeeps.1.1) hnew fun l hl heq =>
      h.old_member_inj hi hl (congrArg Message.sender heq)

end Deal

/-- Taking up one message fills its slot and no other. -/
theorem Holds.store (hs : r.Holds p k log s) {m : Message Payload} (hm : (r.role p).Needs m)
    (hnew : m ∉ log) : ∃ s', s.store m = .ok s' ∧ r.Holds p k (log ++ [m]) s' := by
  rcases needs_iff.1 hm with ⟨j, hj, i, hi, hpi, rfl | rfl | rfl⟩ | ⟨i, hi, j, hj, hpj, rfl⟩
  · exact hs.store_commit h hj hi hpi hnew
  · exact hs.store_share h hj hi hpi hnew
  · exact hs.store_reveal h hj hi hpi hnew
  · exact hs.store_ack h hi hj hpj hnew

theorem Valid.validate_party {m : Message Payload} (hm : (r.role p).Needs m) :
    (r.party p).validate m = .ok () := by
  apply Party.validate_eq_ok_iff.2
  rcases needs_iff.1 hm with ⟨j, hj, i, hi, hpi, hm⟩ | ⟨i, hi, j, hj, hpj, rfl⟩
  · have hsender : m.sender = r.old.member i := by rcases hm with rfl | rfl | rfl <;> rfl
    have hcontent : Content.isPlausible m.content = true := by
      have hlt := (h.new_proper.position?_eq_some_iff.1 hj).1
      rcases hm with rfl | rfl | rfl
      · exact decide_eq_true trivial
      · exact decide_eq_true
          (Dealer.isPlausible_share h.newThreshold_pos (h.newPoint_ne_zero hlt))
      · exact decide_eq_true (Dealer.holdsPairs (h.dealer hi))
    rw [hsender]
    refine ⟨hcontent, h.old_proper.wellFormed_member hi, ⟨i, h.old_proper.index_member hi, ?_⟩, ?_⟩
    · exact lt_max_of_lt_left hi
    · intro hkey
      exact hpi (h.old_proper.position?_eq hi hkey)
  · refine ⟨decide_eq_true trivial, h.new_proper.wellFormed_member hj,
      ⟨j, h.new_proper.index_member hj, ?_⟩, ?_⟩
    · exact lt_max_of_lt_right hj
    · intro hkey
      exact hpj (h.new_proper.position?_eq hj hkey)

theorem Valid.length_dealers (p : PartyId) :
    (Reshare.dealers (r.params p)).length =
      if (r.new.position? p).isSome then r.old.size else 0 := by
  rw [Reshare.dealers, h.isNew_params]
  split <;> rfl

theorem Valid.length_holders (p : PartyId) :
    (holders (r.params p)).length = if (r.old.position? p).isSome then r.new.size else 0 := by
  rw [holders, h.isOld_params]
  split <;> rfl

theorem Holds.allArrived_commit_iff (hs : r.Holds p k log s) (hk : 1 ≤ k) :
    Party.AllArrived (commitRound (r.params p)) s ↔ (r.role p).needs 0 ⊆ log := by
  have hlength : (commitRound (r.params p)).expected.length = _ := h.length_dealers p
  have harrived (i : ℕ) (hi : i < (commitRound (r.params p)).expected.length) :
      hasCommit s i = true ↔ r.old.position? p = some i ∨ [r.commitMessage i] ⊆ log := by
    rw [hlength] at hi
    split at hi
    · rename_i hnew
      have hcommit := hs.commits.isSome_admitted?_iff hi
      exact hcommit.trans (by simp [hk, KeepsDeal, hnew])
    · omega
  apply Party.allArrived_iff_subset harrived
  intro m
  rw [hlength, mem_needs_zero_iff]
  cases r.new.position? p <;> simp

theorem Holds.allArrived_ack_iff (hs : r.Holds p k log s) (hk : 2 ≤ k) :
    Party.AllArrived (ackRound (r.params p)) s ↔ (r.role p).needs 1 ⊆ log := by
  have hlength : (ackRound (r.params p)).expected.length = _ := h.length_holders p
  have harrived (j : ℕ) (hj : j < (ackRound (r.params p)).expected.length) :
      hasAck s j = true ↔ r.new.position? p = some j ∨ [r.ackMessage j] ⊆ log := by
    rw [hlength] at hj
    split at hj
    · rename_i hold
      have hack := hs.acks.isSome_admitted?_iff hj
      exact hack.trans (by simp [hk, KeepsAck, hold])
    · omega
  apply Party.allArrived_iff_subset harrived
  intro m
  rw [hlength, mem_needs_one_iff]
  cases r.old.position? p <;> simp

omit h in
theorem Holds.hasReveal_iff (hs : r.Holds p k log s) (hj : r.new.position? p = some j)
    (hi : i < r.old.size) : hasReveal s i = true ↔ (r.KeepsDeal p i ∧ 3 ≤ k) ∨
      r.shareMessage i j ∈ log ∧ r.revealMessage i ∈ log := by
  have hshare := (hs.shares j hj).isSome_admitted?_iff hi
  have hreveal := hs.reveals.isSome_admitted?_iff hi
  rw [hasReveal, Bool.and_eq_true, hshare, hreveal, ← or_and_left]

theorem Holds.hasCommit_of_keepsDeal (hs : r.Holds p k log s) (hk : 1 ≤ k)
    (hkeeps : r.KeepsDeal p i) : hasCommit s i = true :=
  (hs.commits.isSome_admitted?_iff (h.old_proper.position?_eq_some_iff.1 hkeeps.1).1).2
    (Or.inl ⟨hkeeps, hk⟩)

theorem Holds.hasAck_of_keepsAck (hs : r.Holds p k log s) (hk : 2 ≤ k)
    (hkeeps : r.KeepsAck p j) : hasAck s j = true :=
  (hs.acks.isSome_admitted?_iff (h.new_proper.position?_eq_some_iff.1 hkeeps.1).1).2
    (Or.inl ⟨hkeeps, hk⟩)

theorem Holds.hasReveal_of_keepsDeal (hs : r.Holds p k log s) (hk : 3 ≤ k)
    (hkeeps : r.KeepsDeal p i) : hasReveal s i = true := by
  obtain ⟨j, hj⟩ := Option.isSome_iff_exists.1 hkeeps.2
  exact (hs.hasReveal_iff hj (h.old_proper.position?_eq_some_iff.1 hkeeps.1).1).2
    (Or.inl ⟨hkeeps, hk⟩)

theorem Holds.allArrived_reveal_iff (hs : r.Holds p k log s) (hk : 3 ≤ k) :
    Party.AllArrived (revealRound (r.params p)) s ↔ (r.role p).needs 2 ⊆ log := by
  have hlength : (revealRound (r.params p)).expected.length = _ := h.length_dealers p
  cases hj : r.new.position? p with
  | none =>
      rw [hj] at hlength
      constructor
      · intro _ m hm
        obtain ⟨j, hj', -⟩ := mem_needs_two_iff.1 hm
        cases hj.symm.trans hj'
      · intro _ i hi
        rw [hlength] at hi
        exact absurd hi (Nat.not_lt_zero i)
  | some j =>
      rw [hj] at hlength
      have harrived (i : ℕ) (hi : i < (revealRound (r.params p)).expected.length) :
          hasReveal s i = true ↔ r.old.position? p = some i ∨
            [r.shareMessage i j, r.revealMessage i] ⊆ log := by
        have hreveal := hs.hasReveal_iff hj (hlength ▸ hi)
        simpa [hk, KeepsDeal, hj] using hreveal
      apply Party.allArrived_iff_subset harrived
      intro m
      rw [hlength, mem_needs_two_iff, hj]
      simp

omit h in
theorem initial_holds (r : Setup) (p : PartyId) : r.Holds p 0 [] (r.initial p) where
  params_eq := rfl
  input_eq := rfl
  oldPoints_eq := rfl
  newPoints_eq := rfl
  source_eq _ := rfl
  dealt_eq hk := absurd hk (by omega)
  commits := Slots.filled_empty _ _ _ (by simp)
  acks := Slots.filled_empty _ _ _ (by simp)
  shares _ _ := Slots.filled_empty _ _ _ (by simp)
  reveals := Slots.filled_empty _ _ _ (by simp)

/-- An undisturbed member plays its role. -/
theorem Valid.lawful_role (hp : p ∈ participants r.old r.new) : (r.role p).Lawful where
  stage := ⟨_, _, rfl, rfl⟩
  outbox := rfl
  results := rfl
  init := r.initial_holds p
  prepare {round s} hround := by
    simp only [role, rounds, List.mem_cons, List.not_mem_nil, or_false] at hround
    rcases hround with rfl | rfl | rfl | rfl <;> rfl
  inspect {round s} hround := by
    simp only [role, rounds, List.mem_cons, List.not_mem_nil, or_false] at hround
    rcases hround with rfl | rfl | rfl | rfl <;> rfl
  enter {k round log s} hround hs hleft := by
    rcases getElem?_rounds hround with ⟨rfl, rfl⟩ | ⟨rfl, rfl⟩ | ⟨rfl, rfl⟩ | ⟨rfl, rfl⟩
    · obtain ⟨entry, hentry, hholds, hsent, hresult, hticked⟩ := hs.enterCommit h hp
      exact ⟨entry, hentry, hholds, hsent, by rw [hresult]; rfl, fun i hi _ =>
        hholds.hasCommit_of_keepsDeal h le_rfl (hticked i hi)⟩
    · obtain ⟨entry, hentry, hholds, hsent, hresult, hticked⟩ := hs.enterAck h
      exact ⟨entry, hentry, hholds, hsent, by rw [hresult]; rfl, fun j hj _ =>
        hholds.hasAck_of_keepsAck h le_rfl (hticked j hj)⟩
    · obtain ⟨entry, hentry, hholds, hsent, hresult, hticked⟩ := hs.enterReveal h hp
      exact ⟨entry, hentry, hholds, hsent, by rw [hresult]; rfl, fun i hi _ =>
        hholds.hasReveal_of_keepsDeal h le_rfl (hticked i hi)⟩
    · have hlog (j : ℕ) (hj : r.new.position? p = some j) :=
        hasDeals_of_needs hj (hleft 0 (by omega)) (hleft 2 (by omega))
      obtain ⟨entry, hentry, hholds, hsent, hresult, hticked⟩ := hs.enterConclude h hlog
      exact ⟨entry, hentry, hholds, hsent, by rw [hresult]; rfl, fun j hj _ =>
        absurd (hticked ▸ hj) List.not_mem_nil⟩
  store {k log s m} _ hs hm hnew := by
    obtain ⟨s', hs', hholds⟩ := hs.store h hm hnew
    exact ⟨s', hs', hholds, fun round hround j hj =>
      hasArrived_mono (State.takes_of_store hs').extends hround hj⟩
  arrived {k round log s} hround hs := by
    rcases getElem?_rounds hround with ⟨rfl, rfl⟩ | ⟨rfl, rfl⟩ | ⟨rfl, rfl⟩ | ⟨rfl, rfl⟩
    · exact hs.allArrived_commit_iff h le_rfl
    · exact hs.allArrived_ack_iff h le_rfl
    · exact hs.allArrived_reveal_iff h le_rfl
    · exact ⟨fun _ => List.nil_subset _, fun _ j hj => absurd hj (Nat.not_lt_zero j)⟩
  validate hm := h.validate_party hm

end Messages

/-! ## A whole run -/

/-- All that a member waits for. -/
def received (r : Setup) (p : PartyId) : List (Message Payload) :=
  ((List.range (r.role p).rounds.length).flatMap (r.role p).needs).dedup

theorem mem_received_iff {m : Message Payload} : m ∈ r.received p ↔ (r.role p).Needs m := by
  simp only [received, List.mem_dedup, List.mem_flatMap, List.mem_range, Role.Needs]

def calls (r : Setup) (p : PartyId) : List (Call Payload) := .start :: (r.received p).map .update

section Run

variable (h : r.Valid) (hp : p ∈ participants r.old r.new)

include h hp

theorem Valid.rests_run : (r.role p).Rests 4 (r.received p) ((r.party p).run (r.calls p)) :=
  (h.lawful_role hp).run_complete (List.nodup_dedup _) fun _ => mem_received_iff

theorem Valid.results_run : ((r.party p).run (r.calls p)).results.sent = [r.outcome p] := by
  rw [(h.rests_run hp).results]
  rfl

/-- In the end every new member holds all commitments. -/
theorem Valid.item?_commits_run (hj : r.new.position? p = some j) (hi : i < r.old.size) :
    ((r.party p).run (r.calls p)).state.commits.item? i =
      some (r.dealer i).opening.commitment := by
  refine (h.rests_run hp).holds.commits.item? hi ?_
  by_cases hpi : r.old.position? p = some i
  · exact Or.inl ⟨⟨hpi, by rw [hj]; rfl⟩, by omega⟩
  · exact Or.inr (mem_received_iff.2 (needs_iff.2 (Or.inl ⟨j, hj, i, hi, hpi, Or.inl rfl⟩)))

end Run

end ThresholdKeys.Reshare.Setup
