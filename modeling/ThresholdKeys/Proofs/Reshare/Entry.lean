import Mathlib
import ThresholdKeys.Proofs.Sharing.Dealer
import ThresholdKeys.Proofs.Sharing.Quorum
import ThresholdKeys.Reshare.Rounds

/-!
# When the rounds of resharing are entered

What a party has to bring to a run, and for each round the conditions under which a member enters
it, and what it does then. A party passes through the rounds of a committee that it is not on
without doing anything.
-/

namespace ThresholdKeys.Reshare

variable {s : State} {e : Step}

theorem Input.check_eq_ok_iff {input : Input} {params : Parameters} :
    input.check params = .ok () ↔ input.oldShares.length = params.old.size ∧
      ∃ ks, params.old.points = .ok ks ∧ interpolate ks input.oldShares = .ok input.publicKey ∧
        ∀ old, params.oldId = some old → input.checkSecret old = .ok () := by
  unfold check
  by_cases hlen : input.oldShares.length = params.old.size
  · rw [if_neg (not_not.2 hlen), Result.bind_eq_ok_iff]
    simp only [hlen, true_and, Result.bind_eq_ok_iff]
    apply exists_congr
    intro ks
    apply and_congr_right
    intro _
    constructor
    · rintro ⟨key, hkey, h⟩
      split at h
      · cases h
      · rename_i heq
        rw [not_not.1 heq] at hkey
        cases hold : params.oldId with
        | none => exact ⟨hkey, fun old hsome => (by cases hsome)⟩
        | some own =>
            rw [hold] at h
            exact ⟨hkey, fun old hsome => Option.some.inj hsome ▸ h⟩
    · rintro ⟨hkey, hsecret⟩
      refine ⟨_, hkey, ?_⟩
      rw [if_neg (not_not.2 rfl)]
      cases hold : params.oldId with
      | none => rfl
      | some own => exact hsecret own hold
  · simp [hlen]

/-! ## Rounds 1 and 2 -/

theorem enterCommit_of_notOld (h : s.params.oldIndex? = none) :
    enterCommit s = .ok { state := s } := by
  unfold enterCommit
  rw [h]

theorem enterCommit_eq_ok_iff {i : ℕ} (hi : s.params.oldIndex? = some i) :
    enterCommit s = .ok e ↔ ∃ secret weight dealing source₁ commitment opening source₂,
      s.input.secret = some secret ∧ lagrangeCoefficient s.oldPoints i = .ok weight ∧
        Dealing.create s.source s.params.newThreshold (weight * secret) s.newPoints =
          .ok (dealing, source₁) ∧
        dealing.commit source₁ = .ok ((commitment, opening), source₂) ∧
        e = {
          state := { s with
            source := source₂
            dealt := some (dealing, opening)
            commits := if s.params.isNew then s.commits.put i ⟨commitment, true⟩ else s.commits }
          ticked := if s.params.isNew then [i] else []
          sent := [.broadcast s.params.id .new (.commit commitment)] } := by
  unfold enterCommit
  rw [hi]
  cases hsecret : s.input.secret with
  | none => simp
  | some secret =>
      simp only [Result.bind_eq_ok_iff, Result.pure_eq_ok, Except.ok.injEq, Prod.exists]
      constructor
      · rintro ⟨weight, hweight, dealing, source₁, hcreate, commitment, opening, source₂, hcommit,
          rfl⟩
        exact ⟨secret, weight, dealing, source₁, commitment, opening, source₂, rfl, hweight,
          hcreate, hcommit, rfl⟩
      · rintro ⟨_, weight, dealing, source₁, commitment, opening, source₂, hsecret', hweight,
          hcreate, hcommit, rfl⟩
        obtain rfl := Option.some.inj hsecret'
        exact ⟨weight, hweight, dealing, source₁, hcreate, commitment, opening, source₂, hcommit,
          rfl⟩

theorem enterAck_of_notNew (h : s.params.newIndex? = none) : enterAck s = .ok { state := s } := by
  unfold enterAck
  rw [h]

theorem enterAck_eq {j : ℕ} {me : PartyId} (hj : s.params.newIndex? = some j)
    (hme : s.params.newId = some me) :
    enterAck s = .ok {
      state := { s with acks := if s.params.isOld then s.acks.put j ⟨(), true⟩ else s.acks }
      ticked := if s.params.isOld then [j] else []
      sent := [.broadcast me .old .ack] } := by
  unfold enterAck
  rw [hj, hme]

/-! ## Round 3 -/

theorem enterReveal_of_notOld (h : s.params.oldIndex? = none) :
    enterReveal s = .ok { state := s } := by
  unfold enterReveal
  rw [h]

theorem enterReveal_eq_ok_iff {i : ℕ} (hi : s.params.oldIndex? = some i) :
    enterReveal s = .ok e ↔ ∃ dealing opening dealt, s.dealt = some (dealing, opening) ∧
      dealtShares s dealing = .ok dealt ∧
      e = {
        state := { s with
          shares := (dealt.find? fun d => s.params.newIndex? = some d.1).elim s.shares
            fun d => s.shares.put i ⟨d.2.2, false⟩
          reveals := if s.params.newIndex?.isSome then s.reveals.put i ⟨opening, true⟩
            else s.reveals }
        ticked := if s.params.newIndex?.isSome then [i] else []
        sent := ((dealt.filter fun d => s.params.newIndex? ≠ some d.1).map fun d =>
          .direct s.params.id d.2.1 .new (.share d.2.2)) ++
            [.broadcast s.params.id .new (.reveal opening)] } := by
  unfold enterReveal
  rw [hi]
  cases hdealt : s.dealt with
  | none => simp
  | some d =>
      obtain ⟨dealing, opening⟩ := d
      simp only [Result.bind_eq_ok_iff, Result.pure_eq_ok, Except.ok.injEq]
      constructor
      · rintro ⟨dealt, hshares, rfl⟩
        refine ⟨dealing, opening, dealt, rfl, hshares, ?_⟩
        cases hkept : dealt.find? fun d => s.params.newIndex? = some d.1 <;> simp
      · rintro ⟨_, _, dealt, hdealt', hshares, rfl⟩
        obtain ⟨rfl, rfl⟩ := Prod.mk.inj (Option.some.inj hdealt')
        refine ⟨dealt, hshares, ?_⟩
        cases hkept : dealt.find? fun d => s.params.newIndex? = some d.1 <;> simp

theorem dealtShares_dealing {d : Dealer}
    (hids : d.ids = s.params.new.members.map Committee.pointOf) :
    dealtShares s d.dealing = .ok ((List.range s.params.new.size).map fun j =>
      (j, s.params.new.member j, d.share (Committee.pointOf (s.params.new.member j)))) := by
  rw [dealtShares, Committee.zipIdx_members, Result.mapM_eq_ok_iff, List.forall₂_map_left_iff,
    List.forall₂_map_right_iff]
  refine List.forall₂_same.2 fun j hj => ?_
  dsimp only
  rw [Dealer.getElem?_shares hids (List.mem_range.1 hj)]

/-! ## Round 4 -/

/-- A deal in order in every respect, with the points that it publishes. -/
structure Deal.Sound (d : Deal) (threshold : ℕ) (own : Scalar) (vs : List Point) : Prop where
  opens : d.opening.commitment = d.commitment
  reveals : d.opening.Reveals vs
  length : vs.length = threshold + 1
  expected : vs.head? = some d.expected
  addressed : d.share.id = own
  share : d.share.Verifies threshold vs

theorem Deal.verified?_eq_some_iff {d : Deal} {threshold : ℕ} {own : Scalar} {vs : List Point} :
    d.verified? threshold own = some vs ↔ d.Sound threshold own vs := by
  simp only [verified?, Option.bind_eq_bind, Option.bind_eq_some_iff,
    Commitment.reveal?_eq_some_iff, Option.ite_none_right_eq_some, Option.some.injEq]
  constructor
  · rintro ⟨_, ⟨hopens, hreveals, hlength⟩, ⟨hexpected, haddressed, hshare⟩, rfl⟩
    exact ⟨hopens, hreveals, hlength, hexpected, haddressed, hshare⟩
  · rintro ⟨hopens, hreveals, hlength, hexpected, haddressed, hshare⟩
    exact ⟨vs, ⟨hopens, hreveals, hlength⟩, ⟨hexpected, haddressed, hshare⟩, rfl⟩

theorem deal_eq_ok_iff {j : ℕ} {d : Deal} :
    deal s j = .ok d ↔ s.commits.item? j = some d.commitment ∧
      s.shares.item? j = some d.share ∧ s.reveals.item? j = some d.opening ∧
      ∃ publicShare weight, s.input.oldShares[j]? = some publicShare ∧
        lagrangeCoefficient s.oldPoints j = .ok weight ∧ d.expected = weight • publicShare := by
  obtain ⟨commitment, share, opening, expected⟩ := d
  unfold deal
  cases s.commits.item? j <;> cases s.shares.item? j <;> cases s.reveals.item? j <;>
    cases s.input.oldShares[j]? <;> simp [Result.map_eq_ok_iff]
  constructor
  · rintro ⟨weight, hweight, rfl, rfl, rfl, rfl⟩
    exact ⟨rfl, rfl, rfl, weight, hweight, rfl⟩
  · rintro ⟨rfl, rfl, rfl, weight, hweight, rfl⟩
    exact ⟨weight, hweight, rfl, rfl, rfl, rfl⟩

theorem assemble_eq_ok_iff {i : ℕ} {deals : List Deal} {dealt : List (List Point)} {k : KeyShare} :
    assemble s i deals dealt = .ok k ↔
      (sumCommitments (s.params.newThreshold + 1) dealt).head? = some s.input.publicKey ∧
        KeyShare.make s.params.newThreshold s.params.new i
          (Residue.sum (deals.map fun d => d.share.value))
          (s.newPoints.map (evaluateCommitments (sumCommitments (s.params.newThreshold + 1) dealt)))
          s.input.publicKey = .ok k := by
  unfold assemble
  dsimp only
  cases (sumCommitments (s.params.newThreshold + 1) dealt).head? with
  | none => simp
  | some publicKey =>
      dsimp only
      by_cases hkey : publicKey = s.input.publicKey
      · simp [hkey]
      · simp [hkey]

theorem verified?_eq_map_some_iff {deals : List Deal} {threshold : ℕ} {own : Scalar}
    {dealt : List (List Point)} :
    (deals.map fun d => d.verified? threshold own) = dealt.map some ↔
      List.Forall₂ (fun d vs => d.Sound threshold own vs) deals dealt := by
  rw [← List.forall₂_eq_eq_eq, List.forall₂_map_left_iff, List.forall₂_map_right_iff]
  simp only [Deal.verified?_eq_some_iff]

theorem conclude_eq_ok_iff {k : KeyShare} :
    conclude s = .ok k ↔ ∃ i own deals dealt, s.params.newIndex? = some i ∧
      s.newPoints[i]? = some own ∧
      (List.range s.params.old.size).mapM (deal s) = .ok deals ∧
      List.Forall₂ (fun d vs => d.Sound s.params.newThreshold own vs) deals dealt ∧
      assemble s i deals dealt = .ok k := by
  have hblame {deals : List Deal}
      (hdeals : (List.range s.params.old.size).mapM (deal s) = .ok deals)
      (check : Deal → Option (List Point)) :=
    filterMap_isNone_eq_nil_iff (deals.map check) s.params.old.members (by
      rw [List.length_map, Result.length_of_mapM hdeals, List.length_range, Committee.size])
  constructor
  · intro h
    unfold conclude at h
    split at h
    · cases h
    · rename_i i hi
      split at h
      · cases h
      · rename_i own hown
        obtain ⟨deals, hdeals, h⟩ := Result.bind_eq_ok_iff.1 h
        dsimp only at h
        split at h
        · cases h
        · rename_i hnobody
          obtain ⟨dealt, hdealt⟩ := (hblame hdeals _).1 (not_not.1 hnobody)
          rw [hdealt, filterMap_id_map_some] at h
          exact ⟨i, own, deals, dealt, hi, hown, hdeals, verified?_eq_map_some_iff.1 hdealt, h⟩
  · rintro ⟨i, own, deals, dealt, hi, hown, hdeals, hsound, hk⟩
    have hdealt := verified?_eq_map_some_iff.2 hsound
    simp only [conclude, hi, hown, hdeals, Result.ok_bind]
    rw [if_neg (not_not.2 ((hblame hdeals _).2 ⟨dealt, hdealt⟩)), hdealt, filterMap_id_map_some, hk]

theorem enterConclude_eq_ok_iff : enterConclude s = .ok e ↔
    if s.params.isNew then ∃ k, conclude s = .ok k ∧ e = { state := s, result := some (.share k) }
    else e = { state := s, result := some .retired } := by
  unfold enterConclude
  split
  · rw [Result.map_eq_ok_iff]
    exact exists_congr fun k => and_congr_right fun _ => eq_comm
  · rw [Except.ok.injEq, eq_comm]

end ThresholdKeys.Reshare
