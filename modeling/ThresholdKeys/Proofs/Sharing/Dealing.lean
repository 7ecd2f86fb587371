import Mathlib
import ThresholdKeys.Proofs.Commitment
import ThresholdKeys.Proofs.Sharing.Interpolation

/-!
# What a dealing consists of

A dealing succeeds at distinct points other than zero. Its shares are the values of one polynomial
with the dealt secret as constant term, its published points hide the coefficients, and its opening
reveals exactly these points.
-/

namespace ThresholdKeys

theorem checkEvaluators_eq_ok_iff {earlier xs : List Scalar} :
    checkEvaluators earlier xs = .ok () ↔
      (∀ x ∈ xs, x ≠ 0 ∧ x ∉ earlier) ∧ xs.Nodup := by
  induction xs generalizing earlier with
  | nil => simp [checkEvaluators]
  | cons x rest ih =>
      unfold checkEvaluators
      by_cases h0 : x = 0
      · simp [h0]
      · by_cases hmem : x ∈ earlier
        · simp [h0, hmem]
        · simp only [if_neg h0, if_neg hmem, ih, List.mem_append, List.mem_singleton,
            List.forall_mem_cons, List.nodup_cons, not_or]
          constructor
          · rintro ⟨hrest, hnodup⟩
            exact ⟨⟨⟨h0, hmem⟩, fun y hy => ⟨(hrest y hy).1, (hrest y hy).2.1⟩⟩,
              fun hx => (hrest x hx).2.2 rfl, hnodup⟩
          · rintro ⟨⟨-, hrest⟩, hx, hnodup⟩
            exact ⟨fun y hy => ⟨(hrest y hy).1, (hrest y hy).2, fun h => hx (h ▸ hy)⟩, hnodup⟩

namespace Source

theorem length_draws {α : Type} (next : Source → α × Source) (count : ℕ) (s : Source) :
    (draws next count s).1.length = count := by
  induction count generalizing s with
  | zero => rfl
  | succ count ih => exact congrArg Nat.succ (ih (next s).2)

theorem firstFrom_of_accepted {p : ℕ → Bool} {i : ℕ} (h : Ends p i) (hi : p i = true) :
    firstFrom p i h = i := by
  rw [firstFrom, dif_pos hi]

theorem nextScalar_of_accepted {s : Source} (h : isScalar (s.word s.position) = true) :
    s.nextScalar =
      (Scalar.ofNat (s.word s.position), { s with position := s.position + 1 }) := by
  rw [nextScalar, firstFrom_of_accepted (s.ends_isScalar s.position) h]

theorem nextNonzeroScalar_of_accepted {s : Source}
    (h : isNonzeroScalar (s.word s.position) = true) :
    s.nextNonzeroScalar =
      (Scalar.ofNat (s.word s.position), { s with position := s.position + 1 }) := by
  rw [nextNonzeroScalar, firstFrom_of_accepted (s.ends_isNonzeroScalar s.position) h]

def ones : Source where
  word _ := 1
  fair i := ⟨i, le_rfl, by decide⟩

theorem nextScalar_ones (position : ℕ) :
    nextScalar { ones with position } = (1, { ones with position := position + 1 }) :=
  nextScalar_of_accepted rfl

theorem nextNonzeroScalar_ones (position : ℕ) :
    nextNonzeroScalar { ones with position } = (1, { ones with position := position + 1 }) :=
  nextNonzeroScalar_of_accepted rfl

theorem draws_ones (count position : ℕ) :
    (draws nextScalar count { ones with position }).1 = List.replicate count 1 := by
  induction count generalizing position with
  | zero => rfl
  | succ count ih =>
      rw [draws, nextScalar_ones]
      exact congrArg (List.cons 1) (ih (position + 1))

theorem nextNonzeroScalar_ne_zero (s : Source) : s.nextNonzeroScalar.1 ≠ 0 := by
  have haccepted := firstFrom_accepted (fun j => isNonzeroScalar (s.word j)) s.position
    (s.ends_isNonzeroScalar s.position)
  obtain ⟨hpos, hlt⟩ := of_decide_eq_true haccepted
  rw [Ne, nextNonzeroScalar, Scalar.ofNat, Residue.ofNat_eq_zero_iff, Nat.mod_eq_of_lt hlt]
  exact Nat.ne_of_gt hpos

end Source

namespace Dealing

def coefficients (source : Source) (threshold : ℕ) (secret : Scalar) : List Scalar :=
  secret :: (Source.draws Source.nextScalar threshold source).1

@[simp] theorem length_coefficients (source : Source) (threshold : ℕ) (secret : Scalar) :
    (coefficients source threshold secret).length = threshold + 1 :=
  congrArg Nat.succ (Source.length_draws ..)

theorem create_eq_ok_iff {source source' : Source} {threshold : ℕ} {secret : Scalar}
    {ids : List Scalar} {d : Dealing} :
    create source threshold secret ids = .ok (d, source') ↔
      threshold < ids.length ∧ (∀ x ∈ ids, x ≠ 0) ∧ ids.Nodup ∧
        d = ofPolynomial threshold (coefficients source threshold secret) ids ∧
        source' = (Source.draws Source.nextScalar threshold source).2 := by
  unfold create
  by_cases hlen : ids.length ≤ threshold
  · simp [hlen]
  · simp only [if_neg hlen, Result.bind_eq_ok_iff, Result.pure_eq_ok, Except.ok.injEq,
      Prod.mk.injEq, not_le.1 hlen, true_and, coefficients]
    constructor
    · rintro ⟨⟨⟩, h, rfl, rfl⟩
      obtain ⟨h0, hnodup⟩ := checkEvaluators_eq_ok_iff.1 h
      exact ⟨fun x hx => (h0 x hx).1, hnodup, rfl, rfl⟩
    · rintro ⟨h0, hnodup, rfl, rfl⟩
      exact ⟨(), checkEvaluators_eq_ok_iff.2 ⟨fun x hx => ⟨h0 x hx, List.not_mem_nil⟩, hnodup⟩,
        rfl, rfl⟩

theorem commit_eq_ok_iff {d : Dealing} {source source' : Source} {c : Commitment} {o : Opening} :
    d.commit source = .ok ((c, o), source') ↔
      ∃ flat, Point.flatten d.commitments = .ok flat ∧
        o = ⟨source.nextWord.1 :: flat⟩ ∧ c = o.commitment ∧ source' = source.nextWord.2 := by
  simp only [commit, Result.bind_eq_ok_iff, Commitment.commit, Result.pure_eq_ok, Except.ok.injEq,
    Prod.mk.injEq]
  constructor
  · rintro ⟨flat, hflat, ⟨rfl, rfl⟩, rfl⟩
    exact ⟨flat, hflat, rfl, rfl, rfl⟩
  · rintro ⟨flat, hflat, rfl, rfl, rfl⟩
    exact ⟨flat, hflat, ⟨rfl, rfl⟩, rfl⟩

/-- The opening of a committed dealing reveals its published points. -/
theorem reveals_of_commit {d : Dealing} {source source' : Source} {c : Commitment} {o : Opening}
    (h : d.commit source = .ok ((c, o), source')) :
    o.commitment = c ∧ o.Reveals d.commitments := by
  obtain ⟨flat, hflat, rfl, rfl, -⟩ := commit_eq_ok_iff.1 h
  exact ⟨rfl, Opening.reveals_cons hflat _⟩

@[simp] theorem length_commitments_ofPolynomial (threshold : ℕ) (coefficients ids : List Scalar) :
    (ofPolynomial threshold coefficients ids).commitments.length = coefficients.length :=
  List.length_map ..

@[simp] theorem length_shares_ofPolynomial (threshold : ℕ) (coefficients ids : List Scalar) :
    (ofPolynomial threshold coefficients ids).shares.length = ids.length :=
  List.length_map ..

theorem getElem?_shares_ofPolynomial_eq_some_iff {threshold j : ℕ} {coefficients ids : List Scalar}
    {x : Share} : (ofPolynomial threshold coefficients ids).shares[j]? = some x ↔
      ∃ own, ids[j]? = some own ∧ x = ⟨threshold, own, evaluatePolynomial coefficients own⟩ := by
  rw [ofPolynomial, List.getElem?_map, Option.map_eq_some_iff]
  exact exists_congr fun own => and_congr_right fun _ => eq_comm

/-- Every share of a dealing passes the check against the published points. -/
theorem verifies_ofPolynomial {threshold : ℕ} {coefficients : List Scalar}
    (hlen : coefficients.length = threshold + 1) (x : Scalar) :
    Share.Verifies ⟨threshold, x, evaluatePolynomial coefficients x⟩ threshold
      (coefficients.map (· • Point.generator)) :=
  ⟨rfl, .inl (by rw [List.length_map, hlen]), (evaluateCommitments_map_generator coefficients x).symm⟩

end Dealing

/-! ## Adding up dealings -/

@[simp] theorem length_sumCommitments (count : ℕ) (dealt : List (List Point)) :
    (sumCommitments count dealt).length = count := by
  rw [sumCommitments, List.length_map, List.length_range]

theorem getD_sumCommitments {count c : ℕ} (hc : c < count) (dealt : List (List Point)) :
    (sumCommitments count dealt).getD c 0 = (dealt.map fun vs => vs.getD c 0).sum := by
  rw [List.getD_eq_getElem?_getD, sumCommitments, List.getElem?_map,
    List.getElem?_range hc, Option.map_some, Option.getD_some, Point.sum_eq_sum]

theorem evaluateCommitments_sumCommitments {count : ℕ} {dealt : List (List Point)}
    (hlen : ∀ vs ∈ dealt, vs.length = count) (x : Scalar) :
    evaluateCommitments (sumCommitments count dealt) x =
      (dealt.map fun vs => evaluateCommitments vs x).sum := by
  have hterms (c : ℕ) (hc : c ∈ Finset.range count) :
      x ^ c • (sumCommitments count dealt).getD c 0 =
        (dealt.map fun vs => x ^ c • vs.getD c 0).sum := by
    rw [getD_sumCommitments (Finset.mem_range.1 hc), List.smul_sum, List.map_map]
    rfl
  rw [evaluateCommitments_eq_sum, length_sumCommitments, Finset.sum_congr rfl hterms]
  clear hterms
  induction dealt with
  | nil => simp
  | cons vs rest ih =>
      obtain ⟨hvs, hrest⟩ := List.forall_mem_cons.1 hlen
      simp only [List.map_cons, List.sum_cons, Finset.sum_add_distrib, ih hrest]
      rw [evaluateCommitments_eq_sum, hvs]

/-- The first point of the sum is the sum of the first points. -/
theorem head?_sumCommitments_succ (count : ℕ) (dealt : List (List Point)) :
    (sumCommitments (count + 1) dealt).head? = some (dealt.map fun vs => vs.headD 0).sum := by
  have hfirst : (fun vs : List Point => vs.getD 0 0) = fun vs => vs.headD 0 := by
    funext vs
    cases vs <;> rfl
  rw [sumCommitments, List.range_succ_eq_map, List.map_cons, List.head?_cons, Point.sum_eq_sum,
    hfirst]

/-- Values that match what is published for them add up to one that matches the sum. -/
theorem evaluateCommitments_sumCommitments_of_values {count : ℕ} {x : Scalar}
    {values : List Scalar} {dealt : List (List Point)}
    (h : List.Forall₂ (fun value vs => vs.length = count ∧
      evaluateCommitments vs x = value • Point.generator) values dealt) :
    evaluateCommitments (sumCommitments count dealt) x = Residue.sum values • Point.generator := by
  have hlen (vs : List Point) (hvs : vs ∈ dealt) : vs.length = count := by
    obtain ⟨j, hj, rfl⟩ := List.mem_iff_getElem.1 hvs
    exact ((List.forall₂_iff_get.1 h).2 j (h.length_eq ▸ hj) hj).1
  rw [evaluateCommitments_sumCommitments hlen, Residue.sum_eq_sum]
  clear hlen
  induction h with
  | nil => rw [List.map_nil, List.sum_nil, List.sum_nil, zero_smul]
  | cons hvs _ ih => rw [List.map_cons, List.sum_cons, List.sum_cons, ih, hvs.2, add_smul]

end ThresholdKeys
