import Mathlib
import ThresholdKeys.Proofs.Party.Committee
import ThresholdKeys.Proofs.Sharing.Dealing

/-!
# Honest dealers

What a dealer draws from its source and makes of it, as long as it draws no coefficient zero: a
dealing that can be committed to, with shares that fit the points which its opening reveals.
-/

namespace ThresholdKeys

structure Dealer where
  source : Source
  threshold : ℕ
  secret : Scalar
  /-- The points of the parties that are dealt to. -/
  ids : List Scalar

namespace Dealer

def coefficients (d : Dealer) : List Scalar :=
  Dealing.coefficients d.source d.threshold d.secret

def dealing (d : Dealer) : Dealing := .ofPolynomial d.threshold d.coefficients d.ids

/-- The source once all coefficients are drawn. -/
def afterDealing (d : Dealer) : Source := (Source.draws Source.nextScalar d.threshold d.source).2

def opening (d : Dealer) : Opening :=
  ⟨d.afterDealing.nextWord.1 :: (Point.flatten d.dealing.commitments).toOption.getD []⟩

def afterCommit (d : Dealer) : Source := d.afterDealing.nextWord.2

def share (d : Dealer) (x : Scalar) : Share :=
  ⟨d.threshold, x, evaluatePolynomial d.coefficients x⟩

/-- The parties can be dealt to, and neither the secret nor a drawn coefficient is zero. -/
structure Valid (d : Dealer) : Prop where
  threshold_lt : d.threshold < d.ids.length
  ids_ne_zero : ∀ x ∈ d.ids, x ≠ 0
  nodup : d.ids.Nodup
  secret_ne_zero : d.secret ≠ 0
  drawn_ne_zero : ∀ c ∈ (Source.draws Source.nextScalar d.threshold d.source).1, c ≠ 0

variable {d : Dealer}

@[simp] theorem length_coefficients (d : Dealer) : d.coefficients.length = d.threshold + 1 :=
  Dealing.length_coefficients ..

@[simp] theorem length_commitments (d : Dealer) : d.dealing.commitments.length = d.threshold + 1 :=
  (Dealing.length_commitments_ofPolynomial ..).trans d.length_coefficients

theorem headD_coefficients (d : Dealer) : d.coefficients.headD 0 = d.secret := rfl

theorem commitments_eq (d : Dealer) :
    d.dealing.commitments = d.coefficients.map (· • Point.generator) := rfl

theorem head?_commitments (d : Dealer) :
    d.dealing.commitments.head? = some (d.secret • Point.generator) := rfl

theorem shares_eq (d : Dealer) : d.dealing.shares = d.ids.map d.share := rfl

/-- The share at a place is the one for the party at that place. -/
theorem getElem?_shares {c : Committee} (hids : d.ids = c.members.map Committee.pointOf) {j : ℕ}
    (hj : j < c.size) : d.dealing.shares[j]? = some (d.share (Committee.pointOf (c.member j))) := by
  rw [shares_eq, hids, List.getElem?_map, Committee.getElem?_points hj, Option.map_some]

theorem verifies_share (d : Dealer) (x : Scalar) :
    (d.share x).Verifies d.threshold d.dealing.commitments :=
  Dealing.verifies_ofPolynomial d.length_coefficients x

theorem create_eq (h : d.Valid) :
    Dealing.create d.source d.threshold d.secret d.ids = .ok (d.dealing, d.afterDealing) :=
  Dealing.create_eq_ok_iff.2 ⟨h.threshold_lt, h.ids_ne_zero, h.nodup, rfl, rfl⟩

theorem flatten_eq (h : d.Valid) : ∃ flat, Point.flatten d.dealing.commitments = .ok flat ∧
    d.opening = ⟨d.afterDealing.nextWord.1 :: flat⟩ := by
  have hne (p : Point) (hp : p ∈ d.dealing.commitments) : p ≠ 0 := by
    rw [commitments_eq] at hp
    obtain ⟨c, hc, rfl⟩ := List.mem_map.1 hp
    refine smul_ne_zero ?_ Point.generator_ne_zero
    rcases List.mem_cons.1 hc with rfl | hc
    · exact h.secret_ne_zero
    · exact h.drawn_ne_zero c hc
  obtain ⟨flat, hflat⟩ := Point.exists_flatten hne
  exact ⟨flat, hflat, by rw [opening, hflat]; rfl⟩

theorem commit_eq (h : d.Valid) :
    d.dealing.commit d.afterDealing = .ok ((d.opening.commitment, d.opening), d.afterCommit) := by
  obtain ⟨flat, hflat, hopening⟩ := flatten_eq h
  exact Dealing.commit_eq_ok_iff.2 ⟨flat, hflat, hopening, rfl, rfl⟩

theorem reveals (h : d.Valid) : d.opening.Reveals d.dealing.commitments :=
  (Dealing.reveals_of_commit (commit_eq h)).2

theorem holdsPairs (h : d.Valid) : d.opening.HoldsPairs := by
  obtain ⟨flat, hflat, hopening⟩ := flatten_eq h
  have hlen := (Point.ofPairs_of_flatten hflat).2
  rw [length_commitments] at hlen
  rw [Opening.HoldsPairs, hopening, Opening.valueCount, List.length_cons, Nat.add_sub_cancel, hlen]
  omega

theorem isPlausible_share {x : Scalar} (hthreshold : 0 < d.threshold) (hx : x ≠ 0) :
    (d.share x).Plausible :=
  ⟨hthreshold, hx⟩

/-! ## Many dealers -/

/-- The points that several dealers publish together. -/
def publishedSum (threshold : ℕ) (dealers : List Dealer) : List Point :=
  sumCommitments (threshold + 1) (dealers.map fun d => d.dealing.commitments)

section

variable {threshold : ℕ} {dealers : List Dealer}
  (hthreshold : ∀ d ∈ dealers, d.threshold = threshold)

include hthreshold

theorem length_of_mem_commitments (vs : List Point)
    (hvs : vs ∈ dealers.map fun d => d.dealing.commitments) : vs.length = threshold + 1 := by
  obtain ⟨d, hd, rfl⟩ := List.mem_map.1 hvs
  rw [length_commitments, hthreshold d hd]

/-- What everybody has dealt to one point adds up to the value in the exponent. -/
theorem evaluateCommitments_publishedSum (x : Scalar) :
    evaluateCommitments (publishedSum threshold dealers) x =
      (dealers.map fun d => (d.share x).value).sum • Point.generator := by
  rw [publishedSum, evaluateCommitments_sumCommitments (length_of_mem_commitments hthreshold),
    List.map_map, List.sum_smul, List.map_map]
  refine congrArg List.sum (List.map_congr_left fun d _ => ?_)
  exact evaluateCommitments_map_generator d.coefficients x

theorem headD_publishedSum :
    (publishedSum threshold dealers).headD 0 =
      (dealers.map fun d => d.secret).sum • Point.generator := by
  rw [← evaluateCommitments_zero, evaluateCommitments_publishedSum hthreshold]
  refine congrArg (· • Point.generator) (congrArg List.sum (List.map_congr_left fun d _ => ?_))
  exact (evaluatePolynomial_zero d.coefficients).trans d.headD_coefficients

end

end Dealer

end ThresholdKeys
