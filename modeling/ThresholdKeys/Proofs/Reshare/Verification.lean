import Mathlib
import ThresholdKeys.Proofs.Reshare.Invariant

/-!
# Who is blamed in resharing

In the last round a new member checks every deal by itself and blames those dealers whose deal is
not in order. If all are in order they add up to a key share of the old key: the points that the
dealers have to deal add up to it, as the input was checked for that, and so do the shares.
-/

namespace ThresholdKeys.Reshare

variable {params : Parameters} {input : Input} {s : State} {results : List Outcome}

/-- What the old member at a place has dealt to this member is in order. -/
def State.Accepts (s : State) (j : ℕ) : Prop :=
  ∃ d i own vs, s.Holds j d ∧ s.params.newIndex? = some i ∧ s.newPoints[i]? = some own ∧
    d.Sound s.params.newThreshold own vs

theorem State.Holds.unique {j : ℕ} {d d' : Deal} (h : s.Holds j d) (h' : s.Holds j d') :
    d = d' := by
  obtain ⟨publicShare, weight, hshare, hweight, hexpected⟩ := h.expected
  obtain ⟨publicShare', weight', hshare', hweight', hexpected'⟩ := h'.expected
  obtain rfl := Option.some.inj (hshare.symm.trans hshare')
  obtain rfl := Except.ok.inj (hweight.symm.trans hweight')
  have hcommit := Option.some.inj (h.commit.symm.trans h'.commit)
  have hshare := Option.some.inj (h.share.symm.trans h'.share)
  have hreveal := Option.some.inj (h.reveal.symm.trans h'.reveal)
  obtain ⟨_, _, _, _⟩ := d
  obtain ⟨_, _, _, _⟩ := d'
  simp_all

theorem State.Holds.accepts_iff {i j : ℕ} {d : Deal} {own : Scalar} (h : s.Holds j d)
    (hi : s.params.newIndex? = some i) (hown : s.newPoints[i]? = some own) :
    s.Accepts j ↔ ∃ vs, d.Sound s.params.newThreshold own vs := by
  constructor
  · rintro ⟨d', i', own', vs, h', hi', hown', hsound⟩
    obtain rfl := h.unique h'
    obtain rfl := Option.some.inj (hi.symm.trans hi')
    obtain rfl := Option.some.inj (hown.symm.trans hown')
    exact ⟨vs, hsound⟩
  · rintro ⟨vs, hsound⟩
    exact ⟨d, i, own, vs, h, hi, hown, hsound⟩

theorem State.Holds.verified?_eq_none_iff {i j : ℕ} {d : Deal} {own : Scalar} (h : s.Holds j d)
    (hi : s.params.newIndex? = some i) (hown : s.newPoints[i]? = some own) :
    d.verified? s.params.newThreshold own = Option.none ↔ ¬ s.Accepts j := by
  rw [h.accepts_iff hi hown, not_exists, Option.eq_none_iff_forall_ne_some]
  exact forall_congr' fun vs => not_congr Deal.verified?_eq_some_iff

/-! ## Deals in order add up -/

/-- The points that all dealers have to deal add up to the public key. -/
theorem sum_expected (hold : params.old.Proper) (hs : s.Prepared params input)
    (hcheck : input.check params = .ok ()) {expected : List Point}
    (hlen : expected.length = params.old.size)
    (hexpected : ∀ j p, expected[j]? = some p → ∃ publicShare weight,
      input.oldShares[j]? = some publicShare ∧ lagrangeCoefficient s.oldPoints j = .ok weight ∧
        p = weight • publicShare) :
    expected.sum = input.publicKey := by
  obtain ⟨hshares, ks, hks, hinterpolate, -⟩ := Input.check_eq_ok_iff.1 hcheck
  obtain rfl := Except.ok.inj (hs.oldPoints_eq.symm.trans hks)
  have hnodup : s.oldPoints.Nodup := by
    rw [hold.points_eq] at hks
    exact Except.ok.inj hks ▸ hold.nodup
  have hpoints : s.oldPoints.length = params.old.size := Result.length_of_mapM hs.oldPoints_eq
  rw [interpolate_eq hnodup (hshares.trans hpoints.symm)] at hinterpolate
  rw [← Except.ok.inj hinterpolate]
  congr 1
  apply List.ext_getElem
  · rw [List.length_zipWith, hlen, hpoints, hshares, min_self]
  · intro j hj hj'
    obtain ⟨publicShare, weight, hshare, hweight, hp⟩ :=
      hexpected j _ (List.getElem?_eq_getElem hj)
    obtain ⟨hlt, rfl⟩ := List.getElem?_eq_some_iff.1 hshare
    have hlt' : j < s.oldPoints.length := hpoints.symm ▸ hshares ▸ hlt
    rw [lagrangeCoefficient_eq hnodup (List.getElem?_eq_getElem hlt')] at hweight
    rw [hp, List.getElem_zipWith, Except.ok.inj hweight]

section Sums

variable {threshold : ℕ} {own : Scalar} {deals : List Deal} {dealt : List (List Point)}
  (hsound : List.Forall₂ (fun d vs => d.Sound threshold own vs) deals dealt)

include hsound

theorem head?_sumCommitments :
    (sumCommitments (threshold + 1) dealt).head? = some (deals.map Deal.expected).sum := by
  have hheads : (dealt.map fun vs => vs.headD 0).sum = (deals.map Deal.expected).sum := by
    induction hsound with
    | nil => rfl
    | cons hd _ ih =>
        rw [List.map_cons, List.sum_cons, ih, List.map_cons, List.sum_cons,
          List.headD_eq_head?_getD, hd.expected, Option.getD_some]
  rw [head?_sumCommitments_succ, hheads]

/-- The shares add up to the value of the sum of what was dealt. -/
theorem evaluateCommitments_of_sound :
    evaluateCommitments (sumCommitments (threshold + 1) dealt) own =
      Residue.sum (deals.map fun d => d.share.value) • Point.generator := by
  refine evaluateCommitments_sumCommitments_of_values (List.forall₂_map_left_iff.2 ?_)
  exact hsound.imp fun d vs hd => ⟨hd.length, by rw [← hd.addressed, ← hd.share.2.2]⟩

end Sums

theorem exists_assemble (hold : params.old.Proper) (hs : s.Prepared params input)
    (hcheck : input.check params = .ok ()) {i : ℕ} {own : Scalar}
    (hown : s.newPoints[i]? = some own) {deals : List Deal} {dealt : List (List Point)}
    (hholds : ∀ j d, deals[j]? = some d → s.Holds j d) (hlen : deals.length = params.old.size)
    (hsound : List.Forall₂ (fun d vs => d.Sound s.params.newThreshold own vs) deals dealt) :
    ∃ k, assemble s i deals dealt = .ok k := by
  refine ⟨_, assemble_eq_ok_iff.2 ⟨?_, KeyShare.make_eq_ok_iff.2 ⟨?_, ?_, ?_, rfl⟩⟩⟩
  · rw [head?_sumCommitments hsound, hs.input_eq]
    refine congrArg some (sum_expected hold hs hcheck (by rw [List.length_map, hlen]) ?_)
    intro j p hp
    rw [List.getElem?_map, Option.map_eq_some_iff] at hp
    obtain ⟨d, hd, rfl⟩ := hp
    rw [← hs.input_eq]
    exact (hholds j d hd).expected
  · rw [List.length_map, hs.length_newPoints, hs.params_eq]
  · rw [hs.params_eq, ← hs.length_newPoints]
    exact (List.getElem?_eq_some_iff.1 hown).1
  · rw [List.getElem?_map, hown, Option.map_some, evaluateCommitments_of_sound hsound]

/-! ## The last round -/

theorem exists_deals (h : Invariant params input 3 s results) (hold : params.old.Proper)
    (hcheck : input.check params = .ok ()) (hnew : params.isNew = true)
    (hall : ∀ j < params.old.size, hasReveal s j = true) :
    ∃ deals, (List.range s.params.old.size).mapM (deal s) = .ok deals ∧
      deals.length = params.old.size ∧ ∀ j d, deals[j]? = some d → s.Holds j d := by
  have hs := h.prepared
  have hcommit := h.committed (by omega) hnew
  have hshares := (Input.check_eq_ok_iff.1 hcheck).1
  have hpoints : s.oldPoints.length = params.old.size := Result.length_of_mapM hs.oldPoints_eq
  have hnodup : s.oldPoints.Nodup := by
    have holdPoints := hs.oldPoints_eq
    rw [hold.points_eq] at holdPoints
    exact Except.ok.inj holdPoints ▸ hold.nodup
  have hsize : s.params.old.size = params.old.size := by rw [hs.params_eq]
  have hsome : ∀ j ∈ List.range s.params.old.size, ∃ d, deal s j = .ok d := by
    intro j hj
    rw [List.mem_range, hsize] at hj
    obtain ⟨c, hc⟩ := Option.isSome_iff_exists.1 (hcommit j hj)
    obtain ⟨x, hx⟩ := Option.isSome_iff_exists.1 (Bool.and_eq_true_iff.1 (hall j hj)).1
    obtain ⟨o, ho⟩ := Option.isSome_iff_exists.1 (Bool.and_eq_true_iff.1 (hall j hj)).2
    obtain ⟨publicShare, hshare⟩ : ∃ publicShare, s.input.oldShares[j]? = some publicShare := by
      rw [hs.input_eq]
      exact ⟨_, List.getElem?_eq_getElem (hshares.symm ▸ hj)⟩
    exact ⟨⟨c, x, o, _⟩, deal_eq_ok_iff.2 ⟨Slots.item?_of_admitted? hc,
      Slots.item?_of_admitted? hx, Slots.item?_of_admitted? ho, publicShare, _, hshare,
      lagrangeCoefficient_eq hnodup (List.getElem?_eq_getElem (hpoints.symm ▸ hj)), rfl⟩⟩
  obtain ⟨deals, hmapM⟩ := Result.exists_mapM_eq_ok hsome
  have hlen := Result.length_of_mapM hmapM
  rw [List.length_range, hsize] at hlen
  refine ⟨deals, hmapM, hlen, fun j d hd => ?_⟩
  obtain ⟨j', hj', hdeal⟩ := Result.getElem?_of_mapM hmapM hd
  obtain ⟨hj, rfl⟩ := List.getElem?_eq_some_iff.1 hj'
  rw [List.length_range, hsize] at hj
  rw [List.getElem_range] at hdeal
  exact holds_of_deal hdeal (hcommit j hj) (hall j hj)

theorem conclude_eq {i : ℕ} {own : Scalar} {deals : List Deal}
    (hi : s.params.newIndex? = some i) (hown : s.newPoints[i]? = some own)
    (hdeals : (List.range s.params.old.size).mapM (deal s) = .ok deals)
    {checks : List (Option (List Point))}
    (hchecks : checks = deals.map fun d => d.verified? s.params.newThreshold own) :
    ∃ js, Enumerates js (fun j => checks[j]? = some none) ∧
      (js = [] → ∃ dealt : List (List Point), checks = dealt.map some) ∧
      conclude s =
        if js.map s.params.old.member ≠ [] then
          .error (.fault ⟨task, 4, js.map s.params.old.member, .dealerContribution⟩)
        else assemble s i deals (checks.filterMap id) := by
  have hlen : checks.length = s.params.old.size := by
    rw [hchecks, List.length_map, Result.length_of_mapM hdeals, List.length_range]
  obtain ⟨js, hjs, hblame⟩ := exists_enumerates_isNone checks s.params.old.member
  rw [hlen, ← Committee.members_eq] at hblame
  refine ⟨js, hjs, fun hnil => (filterMap_isNone_eq_nil_iff _ _ hlen).1 (by
    rw [hblame, hnil, List.map_nil]), ?_⟩
  simp only [conclude, hi, hown, hdeals, Result.ok_bind]
  rw [← hchecks, hblame]
  split <;> rfl

/-- The last round of a new member that everything has arrived for: dealers whose deal is not in
order are blamed, and if there are none then there is a key share. -/
theorem Invariant.verification (h : Invariant params input 3 s results)
    (hold : params.old.Proper) (hcheck : input.check params = .ok ()) {i : ℕ}
    (hi : params.newIndex? = some i) (hlt : i < params.new.size)
    (hall : ∀ j < params.old.size, hasReveal s j = true) :
    ∃ js, Enumerates js (fun j => j < params.old.size ∧ ¬ s.Accepts j) ∧
      (js ≠ [] → Reshare.enterConclude s =
        .error (.fault ⟨task, 4, js.map params.old.member, .dealerContribution⟩)) ∧
      (js = [] → ∃ k, Reshare.enterConclude s =
        .ok { state := s, result := some (.share k) }) := by
  have hs := h.prepared
  have hnew : params.isNew = true := by
    cases hid : params.newId with
    | none => rw [Parameters.newIndex?, hid] at hi; cases hi
    | some me => rw [Parameters.isNew, hid]; rfl
  obtain ⟨deals, hmapM, hlen, hholds⟩ := exists_deals h hold hcheck hnew hall
  obtain ⟨own, hown⟩ : ∃ own, s.newPoints[i]? = some own :=
    ⟨_, List.getElem?_eq_getElem (hs.length_newPoints.symm ▸ hlt)⟩
  obtain rfl := hs.params_eq
  obtain ⟨js, hjs, hpassed, hconclude⟩ := conclude_eq hi hown hmapM rfl
  refine ⟨js, hjs.congr fun j => ?_, fun hne => ?_, fun hnil => ?_⟩
  · rw [List.getElem?_map, ← hlen]
    by_cases hj : j < deals.length
    · rw [List.getElem?_eq_getElem hj, Option.map_some, Option.some.injEq,
        (hholds j _ (List.getElem?_eq_getElem hj)).verified?_eq_none_iff hi hown]
      exact ⟨fun h => ⟨hj, h⟩, And.right⟩
    · rw [List.getElem?_eq_none (Nat.not_lt.1 hj)]
      simp [hj]
  · rw [Reshare.enterConclude, if_pos hnew, hconclude, if_pos (by simpa using hne)]
    rfl
  · obtain ⟨dealt, hdealt⟩ := hpassed hnil
    obtain ⟨k, hk⟩ := exists_assemble hold hs hcheck hown hholds hlen
      (verified?_eq_map_some_iff.1 hdealt)
    refine ⟨k, ?_⟩
    rw [Reshare.enterConclude, if_pos hnew, hconclude, if_neg (by simp [hnil]), hdealt,
      filterMap_id_map_some, hk]
    rfl

end ThresholdKeys.Reshare
