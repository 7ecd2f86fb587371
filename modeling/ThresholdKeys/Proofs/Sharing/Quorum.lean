import Mathlib
import ThresholdKeys.KeyShare
import ThresholdKeys.Proofs.Party.Committee
import ThresholdKeys.Proofs.Sharing.Dealing

/-!
# Quorums

The key shares of a committee lie on one polynomial in the exponent. Then the weights of every
quorum add up to the secret key, and its weighted public shares add up to the public key.
-/

namespace ThresholdKeys

open Committee (pointOf)

theorem KeyShare.make_eq_ok_iff {threshold : ℕ} {parties : Committee} {index : ℕ}
    {secret : Scalar} {publicShares : List Point} {publicKey : Point} {k : KeyShare} :
    KeyShare.make threshold parties index secret publicShares publicKey = .ok k ↔
      publicShares.length = parties.size ∧ index < parties.size ∧
        publicShares[index]? = some (secret • Point.generator) ∧
        k = ⟨threshold, parties, index, secret, publicShares, publicKey⟩ := by
  unfold KeyShare.make
  by_cases hlen : publicShares.length ≠ parties.size ∨ parties.size ≤ index
  · rw [if_pos hlen]
    refine ⟨fun h => (by cases h), fun ⟨h, hi, _⟩ => ?_⟩
    rcases hlen with hlen | hlen
    · exact absurd h hlen
    · exact absurd hi (Nat.not_lt.2 hlen)
  · rw [if_neg hlen]
    simp only [not_or, not_not, not_le] at hlen
    by_cases hown : publicShares[index]? = some (secret • Point.generator)
    · rw [if_neg (not_not.2 hown)]
      simp only [Except.ok.injEq, hlen, hown, true_and, eq_comm]
    · rw [if_pos hown]
      exact ⟨fun h => (by cases h), fun h => absurd h.2.2.1 hown⟩

/-- The key share of the member at place `i` lies on the polynomial behind the points `vs`. -/
structure KeyShare.LiesOn (k : KeyShare) (parties : Committee) (i : ℕ) (vs : List Point) :
    Prop where
  length_eq : vs.length = k.threshold + 1
  parties_eq : k.parties = parties
  index_eq : k.index = i
  publicShares_eq : k.publicShares = parties.members.map fun p => evaluateCommitments vs (pointOf p)
  publicKey_eq : k.publicKey = vs.headD 0
  secret_smul : k.secret • Point.generator = evaluateCommitments vs (pointOf (parties.member i))

section Quorum

variable {parties quorum : Committee} (hparties : parties.Proper) (hquorum : quorum.Proper)
  (hsub : ∀ p ∈ quorum.members, (parties.find? p).isSome) {i : ℕ} {k : KeyShare} {vs : List Point}

include hparties

theorem KeyShare.LiesOn.publicShareOf?_eq (hk : k.LiesOn parties i vs) {p : PartyId}
    (hp : (parties.find? p).isSome) :
    k.publicShareOf? p = some (evaluateCommitments vs (pointOf p)) := by
  obtain ⟨j, hj, hkey⟩ := Committee.exists_member_of_find? hp
  have hpoint : pointOf (parties.member j) = pointOf p := congrArg Scalar.ofNat hkey
  rw [KeyShare.publicShareOf?, hk.parties_eq, hparties.position?_eq hj hkey]
  change k.publicShares[j]? = _
  rw [hk.publicShares_eq, List.getElem?_map, Committee.member_eq hj, Option.map_some, hpoint]

include hquorum hsub

theorem KeyShare.LiesOn.signingWeight_eq (hk : k.LiesOn parties i vs) (hi : i < parties.size)
    (hcount : k.threshold + 1 ≤ quorum.size) {a : ℕ} (ha : a < quorum.size)
    (hkey : (quorum.member a).SameKey (parties.member i)) :
    k.signingWeight quorum = .ok
      ⟨lagrangeWeight (quorum.members.map pointOf) (pointOf (quorum.member a)) * k.secret,
        (quorum.members.map pointOf).map fun x =>
          lagrangeWeight (quorum.members.map pointOf) x • evaluateCommitments vs x⟩ := by
  have hparty : k.party? = some (parties.member i) := by
    rw [KeyShare.party?, hk.parties_eq, hk.index_eq, Committee.get?, Committee.member_eq hi]
  have hshares : k.publicSharesOf .holdsNoShare quorum.members =
      .ok ((quorum.members.map pointOf).map (evaluateCommitments vs)) := by
    rw [KeyShare.publicSharesOf, List.map_map]
    refine Result.mapM_eq_ok_map fun p hp => ?_
    rw [hk.publicShareOf?_eq hparties (hsub p hp)]
    rfl
  have hpoint : (quorum.members.map pointOf)[a]? = some (pointOf (quorum.member a)) :=
    Committee.getElem?_points ha
  have hcheck : checkEvaluators [] (quorum.members.map pointOf) = .ok () := by
    refine checkEvaluators_eq_ok_iff.2 ⟨fun x hx => ⟨?_, List.not_mem_nil⟩, hquorum.nodup⟩
    obtain ⟨p, hp, rfl⟩ := List.mem_map.1 hx
    exact hquorum.ne_zero p hp
  have hweights := mapM_lagrangeCoefficient hquorum.nodup
    ((quorum.members.map pointOf).map (evaluateCommitments vs)) (List.length_map _)
    fun w (p : Point) => w • p
  unfold KeyShare.signingWeight
  rw [if_neg (Nat.not_lt.2 hcount), hparty]
  dsimp only
  rw [hquorum.position?_eq ha hkey]
  dsimp only
  rw [hshares, Result.ok_bind, hquorum.points_eq, Result.ok_bind, ThresholdKeys.signingWeight,
    if_neg (by simp), hcheck, Result.ok_bind, lagrangeCoefficient_eq hquorum.nodup hpoint,
    Result.ok_bind, hweights, Result.ok_bind, List.zipWith_map_right, List.zipWith_self]
  rfl

/-- The weights of a quorum add up to the secret key, and the weighted public shares that every
member computes add up to the public key. -/
theorem exists_signingWeights (share : ℕ → KeyShare) {threshold : ℕ}
    (hshare : ∀ i < parties.size, (share i).LiesOn parties i vs)
    (hthreshold : vs.length = threshold + 1) (hcount : threshold + 1 ≤ quorum.size) :
    ∃ weights : List SigningWeight,
      List.Forall₂ (fun p w => ∃ i, parties.position? p = some i ∧
        (share i).signingWeight quorum = .ok w) quorum.members weights ∧
      (weights.map SigningWeight.weight).sum • Point.generator = vs.headD 0 ∧
      ∀ w ∈ weights, Point.sum w.publicWeights = vs.headD 0 := by
  have hplace (p : PartyId) (hp : p ∈ quorum.members) :
      ∃ i, parties.position? p = some i ∧ i < parties.size ∧ (parties.member i).SameKey p := by
    obtain ⟨i, hi, hkey⟩ := Committee.exists_member_of_find? (hsub p hp)
    exact ⟨i, hparties.position?_eq hi hkey, hi, hkey⟩
  have hsum := sum_lagrangeWeight_smul_evaluateCommitments hquorum.nodup
    (by rw [hthreshold, List.length_map]; exact hcount)
  refine ⟨quorum.members.map fun p =>
    ⟨lagrangeWeight (quorum.members.map pointOf) (pointOf p) *
      (share ((parties.position? p).getD 0)).secret, (quorum.members.map pointOf).map fun x =>
        lagrangeWeight (quorum.members.map pointOf) x • evaluateCommitments vs x⟩, ?_, ?_, ?_⟩
  · rw [List.forall₂_map_right_iff]
    refine List.forall₂_same.2 fun p hp => ?_
    obtain ⟨i, hposition, hi, hkey⟩ := hplace p hp
    obtain ⟨a, ha, rfl⟩ := Committee.mem_iff.1 hp
    have hlen := (hshare i hi).length_eq
    refine ⟨i, hposition, ?_⟩
    rw [hposition, Option.getD_some]
    exact (hshare i hi).signingWeight_eq hparties hquorum hsub hi (by omega) ha hkey.symm
  · rw [List.map_map, List.sum_smul, List.map_map, ← hsum, List.map_map]
    refine congrArg List.sum (List.map_congr_left fun p hp => ?_)
    obtain ⟨i, hposition, hi, hkey⟩ := hplace p hp
    have hpoint : pointOf (parties.member i) = pointOf p := congrArg Scalar.ofNat hkey
    simp only [Function.comp_apply, hposition, Option.getD_some]
    rw [mul_smul, (hshare i hi).secret_smul, hpoint]
  · intro w hw
    obtain ⟨p, -, rfl⟩ := List.mem_map.1 hw
    rw [Point.sum_eq_sum, hsum]

end Quorum

end ThresholdKeys
