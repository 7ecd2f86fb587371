import Mathlib
import ThresholdKeys.Proofs.Sharing.Dealer
import ThresholdKeys.Proofs.Sharing.Quorum

/-!
# Key shares from several dealers

Every member of a committee adds up what the dealers have dealt to it, and everybody adds up the
published points. The key shares that come out of this belong to one key, whose secret is the sum
of the dealt secrets.
-/

namespace ThresholdKeys

open Committee (pointOf)

/-- The key shares of a whole committee belong to one key. -/
structure Agree (parties : Committee) (threshold : ℕ) (secret : Scalar) (share : ℕ → KeyShare) :
    Prop where
  publicKey : ∀ i < parties.size, (share i).publicKey = secret • Point.generator
  publicShares : ∀ i < parties.size, ∀ j < parties.size,
    (share i).publicShares = (share j).publicShares
  secretShare : ∀ i < parties.size,
    (share i).publicShares[i]? = some ((share i).secret • Point.generator)
  /-- Every quorum of more than `threshold` participants can compute weights that add up to the
  secret, and every member of it public weights that add up to the public key. -/
  quorum : ∀ ids quorum, Committee.ofList ids = .ok quorum →
    (∀ p ∈ quorum.members, (parties.find? p).isSome) → threshold + 1 ≤ quorum.size →
      ∃ weights : List SigningWeight,
        List.Forall₂ (fun p w => ∃ i, parties.position? p = some i ∧
          (share i).signingWeight quorum = .ok w) quorum.members weights ∧
        Residue.sum (weights.map SigningWeight.weight) = secret ∧
        ∀ w ∈ weights, Point.sum w.publicWeights = secret • Point.generator

/-- Key shares on one polynomial agree on the secret in its constant term. -/
theorem agree_of_liesOn {parties : Committee} (hparties : parties.Proper) {threshold : ℕ}
    {secret : Scalar} {vs : List Point} (hlength : vs.length = threshold + 1)
    (hsecret : vs.headD 0 = secret • Point.generator) {share : ℕ → KeyShare}
    (hshare : ∀ i < parties.size, (share i).LiesOn parties i vs) :
    Agree parties threshold secret share where
  publicKey i hi := (hshare i hi).publicKey_eq.trans hsecret
  publicShares i hi j hj := (hshare i hi).publicShares_eq.trans (hshare j hj).publicShares_eq.symm
  secretShare i hi := by
    rw [(hshare i hi).publicShares_eq, List.getElem?_map, Committee.member_eq hi, Option.map_some,
      (hshare i hi).secret_smul]
  quorum ids quorum hquorum hsub hcount := by
    obtain ⟨weights, hweights, hsum, hpublic⟩ := exists_signingWeights hparties
      (Committee.proper_of_ofList hquorum) hsub share hshare hlength hcount
    rw [hsecret] at hsum hpublic
    refine ⟨weights, hweights, ?_, hpublic⟩
    rw [Residue.sum_eq_sum]
    exact Point.smul_generator_injective hsum

namespace Dealer

def keyShare (threshold : ℕ) (parties : Committee) (dealers : List Dealer) (i : ℕ) : KeyShare where
  threshold
  parties
  index := i
  secret := (dealers.map fun d => (d.share (pointOf (parties.member i))).value).sum
  publicShares :=
    (parties.members.map pointOf).map (evaluateCommitments (publishedSum threshold dealers))
  publicKey := (publishedSum threshold dealers).headD 0

section

variable {threshold : ℕ} {parties : Committee} {dealers : List Dealer}

theorem length_publishedSum (threshold : ℕ) (dealers : List Dealer) :
    (publishedSum threshold dealers).length = threshold + 1 :=
  length_sumCommitments ..

theorem head?_publishedSum (threshold : ℕ) (dealers : List Dealer) :
    (publishedSum threshold dealers).head? = some ((publishedSum threshold dealers).headD 0) := by
  have hlength := length_publishedSum threshold dealers
  cases hpublished : publishedSum threshold dealers with
  | nil => simp [hpublished] at hlength
  | cons v rest => rfl

variable (hthreshold : ∀ d ∈ dealers, d.threshold = threshold)

include hthreshold

theorem liesOn_keyShare (i : ℕ) :
    (keyShare threshold parties dealers i).LiesOn parties i (publishedSum threshold dealers) where
  length_eq := length_publishedSum ..
  parties_eq := rfl
  index_eq := rfl
  publicShares_eq := List.map_map
  publicKey_eq := rfl
  secret_smul := (evaluateCommitments_publishedSum hthreshold _).symm

theorem make_keyShare {i : ℕ} (hi : i < parties.size) :
    KeyShare.make threshold parties i (keyShare threshold parties dealers i).secret
      (keyShare threshold parties dealers i).publicShares
      (keyShare threshold parties dealers i).publicKey =
        .ok (keyShare threshold parties dealers i) := by
  have hlies : (keyShare threshold parties dealers i).LiesOn parties i _ :=
    liesOn_keyShare hthreshold i
  apply KeyShare.make_eq_ok_iff.2
  refine ⟨?_, hi, ?_, rfl⟩
  · rw [hlies.publicShares_eq, List.length_map, Committee.size]
  · rw [hlies.publicShares_eq, List.getElem?_map, Committee.member_eq hi, Option.map_some,
      hlies.secret_smul]

theorem agree_keyShare (hparties : parties.Proper) :
    Agree parties threshold (dealers.map fun d => d.secret).sum
      (keyShare threshold parties dealers) :=
  agree_of_liesOn hparties (length_publishedSum ..) (headD_publishedSum hthreshold)
    fun i _ => liesOn_keyShare hthreshold i

end

end Dealer

end ThresholdKeys
