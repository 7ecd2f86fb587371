import Mathlib
import ThresholdKeys.Party.Committee

/-!
# Integers as scalars

An integer of any size is made a scalar by way of thirty-two bytes: the shortest form of what it
leaves modulo the group order is filled up with zero bytes and read back below the order. This is
reduction modulo the order, and the bytes of a scalar lead back to it. So a party has an evaluation
point unless its key is a multiple of the order, and parties share one if their keys are congruent.
-/

namespace ThresholdKeys

namespace Scalar

theorem ofInteger?_eq_iff (m n : ℕ) : ofInteger? m = ofInteger? n ↔ m ≡ n [MOD groupOrder] := by
  rw [ofInteger?_eq, ofInteger?_eq, Option.some.injEq]
  exact Residue.ofNat_eq_ofNat_iff m n

theorem ofInteger?_toInteger (s : Scalar) : ofInteger? s.toInteger = some s := by
  rw [ofInteger?_eq, toInteger_eq]
  exact congrArg some (Residue.ofNat_val s)

end Scalar

theorem Bytes.exists_fixed?_iff (n : ℕ) : (∃ bytes, Bytes.fixed? 32 n = some bytes) ↔ n < 2 ^ 256 := by
  have hpow : 256 ^ 32 = 2 ^ 256 := by norm_num
  rw [← hpow]
  constructor
  · rintro ⟨bytes, hbytes⟩
    obtain ⟨hlength, rfl⟩ := (Bytes.fixed?_eq_some_iff (by decide)).1 hbytes
    exact hlength ▸ Bytes.ofBigEndian_lt bytes
  · exact fun hn => ⟨_, Bytes.fixed?_of_lt (by decide) hn⟩

namespace PartyId

/-- There is no evaluation point for the multiples of the order, and this is the only error. -/
theorem evaluationPoint_eq (p : PartyId) : p.evaluationPoint =
    if groupOrder ∣ p.key then .error (.caller (.malformedParty p))
    else .ok (Scalar.ofNat p.key) := by
  have hzero : Scalar.ofNat p.key = 0 ↔ groupOrder ∣ p.key :=
    (Residue.ofNat_eq_zero_iff p.key).trans Nat.dvd_iff_mod_eq_zero.symm
  simp only [evaluationPoint, Scalar.ofInteger?_eq, hzero]

theorem exists_evaluationPoint_iff (p : PartyId) :
    (∃ x, p.evaluationPoint = .ok x) ↔ ¬ groupOrder ∣ p.key := by
  rw [evaluationPoint_eq]
  split
  · rename_i hdvd
    exact iff_of_false (fun ⟨_, hx⟩ => by cases hx) (not_not_intro hdvd)
  · rename_i hdvd
    exact iff_of_true ⟨_, rfl⟩ hdvd

theorem exists_common_evaluationPoint_iff (p p' : PartyId) :
    (∃ x, p.evaluationPoint = .ok x ∧ p'.evaluationPoint = .ok x) ↔
      ¬ groupOrder ∣ p.key ∧ p.key ≡ p'.key [MOD groupOrder] := by
  constructor
  · rintro ⟨x, hp, hp'⟩
    have hdvd := (exists_evaluationPoint_iff p).1 ⟨x, hp⟩
    have hdvd' := (exists_evaluationPoint_iff p').1 ⟨x, hp'⟩
    rw [evaluationPoint_eq, if_neg hdvd] at hp
    rw [evaluationPoint_eq, if_neg hdvd'] at hp'
    exact ⟨hdvd, (Residue.ofNat_eq_ofNat_iff _ _).1 (Except.ok.inj (hp.trans hp'.symm))⟩
  · rintro ⟨hdvd, hcongr⟩
    have hdvd' : ¬ groupOrder ∣ p'.key := mt (hcongr.dvd_iff dvd_rfl).2 hdvd
    have hpoint : Scalar.ofNat p'.key = Scalar.ofNat p.key :=
      (Residue.ofNat_eq_ofNat_iff _ _).2 hcongr.symm
    exact ⟨Scalar.ofNat p.key, by rw [evaluationPoint_eq, if_neg hdvd],
      by rw [evaluationPoint_eq, if_neg hdvd', hpoint]⟩

theorem toOption_evaluationPoint_eq_iff (p p' : PartyId) :
    p.evaluationPoint.toOption = p'.evaluationPoint.toOption ↔
      p.key ≡ p'.key [MOD groupOrder] := by
  rw [toOption_evaluationPoint, toOption_evaluationPoint, evaluationPoint?_eq, evaluationPoint?_eq,
    Nat.ModEq, ← Residue.ofNat_eq_ofNat_iff]
  change _ ↔ Scalar.ofNat p.key = Scalar.ofNat p'.key
  split_ifs with hp hp' hp'
  · exact iff_of_true rfl (hp.trans hp'.symm)
  · exact iff_of_false (by rintro ⟨⟩) fun h => hp' (h.symm.trans hp)
  · exact iff_of_false (by rintro ⟨⟩) fun h => hp (h.trans hp')
  · exact Option.some_inj

end PartyId

/-- Making a scalar of an integer is reduction modulo the group order, for integers of every size.
So a party has an evaluation point unless its key is a multiple of the order, and this is known from
the key modulo the order alone. -/
theorem Scalar.reduces_integers (m n : ℕ) (s : Scalar) (bytes : Bytes) (p p' : PartyId) :
    (∃ r, ofInteger? n = some r ∧ r.toInteger = n % groupOrder) ∧
      (ofInteger? m = ofInteger? n ↔ m ≡ n [MOD groupOrder]) ∧
      ofInteger? s.toInteger = some s ∧
      ((∃ word, Bytes.fixed? 32 n = some word) ↔ n < 2 ^ 256) ∧
      (Bytes.fixed? 32 n = some bytes ↔ bytes.length = 32 ∧ Bytes.ofBigEndian bytes = n) ∧
      p.evaluationPoint = (if groupOrder ∣ p.key then .error (.caller (.malformedParty p))
        else .ok (ofNat p.key)) ∧
      (p.evaluationPoint.toOption = p'.evaluationPoint.toOption ↔
        p.key ≡ p'.key [MOD groupOrder]) ∧
      ((∃ x, p.evaluationPoint = .ok x ∧ p'.evaluationPoint = .ok x) ↔
        ¬ groupOrder ∣ p.key ∧ p.key ≡ p'.key [MOD groupOrder]) := by
  refine ⟨⟨ofNat n, ofInteger?_eq n, toInteger_eq _⟩, ofInteger?_eq_iff m n,
    ofInteger?_toInteger s, Bytes.exists_fixed?_iff n, Bytes.fixed?_eq_some_iff (by decide),
    p.evaluationPoint_eq, p.toOption_evaluationPoint_eq_iff p',
    p.exists_common_evaluationPoint_iff p'⟩

end ThresholdKeys
