import Mathlib
import ThresholdKeys.Proofs.Arithmetic.Ring
import ThresholdKeys.Curve.Point
import ThresholdKeys.Curve.Scalar

/-!
# The two moduli are prime

A number is prime if some residue has the order of the number less one. The table lists such
residues, with the factors of the order, for the field prime, the group order and every larger
prime that occurs among the factors; each row rests on the rows before it.
-/

namespace ThresholdKeys

/-- Evidence that the successor of a product of primes is prime. -/
structure PrimeRow where
  /-- A residue of full order. -/
  witness : ℕ
  factors : List ℕ

namespace PrimeRow

def number (r : PrimeRow) : ℕ := r.factors.prod + 1

instance (r : PrimeRow) : Modulus r.number := ⟨Nat.succ_pos _⟩

def root (r : PrimeRow) : Residue r.number := Residue.ofNat r.number r.witness

/-- The factors are known primes and the order of the root is their product. -/
def Passes (known : List ℕ) (r : PrimeRow) : Prop :=
  (∀ f ∈ r.factors, f ∈ known) ∧ r.root.power r.factors.prod = 1 ∧
    ∀ f ∈ r.factors, r.root.power (r.factors.prod / f) ≠ 1

instance (known : List ℕ) (r : PrimeRow) : Decidable (r.Passes known) :=
  inferInstanceAs (Decidable (_ ∧ _ ∧ _))

theorem prime_number {known : List ℕ} (hknown : ∀ f ∈ known, f.Prime) {r : PrimeRow}
    (h : r.Passes known) : r.number.Prime := by
  obtain ⟨hmem, hone, hroots⟩ := h
  have hpow (k : ℕ) : Residue.toZMod (r.root.power k) = Residue.toZMod r.root ^ k := by
    rw [Residue.power_eq_pow]
    exact map_pow Residue.zmodHom r.root k
  apply lucas_primality r.number (Residue.toZMod r.root)
  · rw [show r.number - 1 = r.factors.prod from rfl, ← hpow, hone, Residue.toZMod_one]
  · intro f hf hdvd hcontra
    obtain ⟨g, hg, hfg⟩ := (Prime.dvd_prod_iff hf.prime).1 hdvd
    obtain rfl := (Nat.prime_dvd_prime_iff_eq hf (hknown g (hmem g hg))).1 hfg
    apply hroots f hg
    apply Residue.toZMod_injective
    rw [hpow, Residue.toZMod_one]
    exact hcontra

def AllPass : List ℕ → List PrimeRow → Prop
  | _, [] => True
  | known, r :: rest => r.Passes known ∧ AllPass (r.number :: known) rest

instance decidableAllPass : (known : List ℕ) → (rows : List PrimeRow) →
    Decidable (AllPass known rows)
  | _, [] => inferInstanceAs (Decidable True)
  | known, r :: rest =>
    have := decidableAllPass (r.number :: known) rest
    inferInstanceAs (Decidable (r.Passes known ∧ AllPass (r.number :: known) rest))

theorem prime_of_mem {known : List ℕ} {rows : List PrimeRow} (hknown : ∀ f ∈ known, f.Prime)
    (h : AllPass known rows) : ∀ r ∈ rows, r.number.Prime := by
  induction rows generalizing known with
  | nil => simp
  | cons first rest ih =>
      obtain ⟨hfirst, hrest⟩ := h
      have hprime := prime_number hknown hfirst
      intro r hr
      rcases List.mem_cons.1 hr with rfl | hr
      · exact hprime
      · exact ih (List.forall_mem_cons.2 ⟨hprime, hknown⟩) hrest r hr

def small : List ℕ :=
  [2, 3, 5, 7, 11, 17, 19, 29, 31, 41, 53, 59, 97, 109, 113, 149, 293, 461, 631, 797, 971, 1373,
   1627, 1871, 2011, 2621, 2657, 2731, 4051, 4423, 5323, 7723, 9349, 13441, 16699, 20113, 24809,
   28181, 41201, 85831, 96557]

theorem prime_of_mem_small : ∀ f ∈ small, f.Prime := by
  simp only [small, List.forall_mem_cons]
  norm_num

def fieldRow : PrimeRow :=
  ⟨3, [2, 3, 7, 13441, 205115282021455665897114700593932402728804164701536103180137503955397371]⟩

def orderRow : PrimeRow :=
  ⟨7, [2, 2, 2, 2, 2, 2, 3, 149, 631, 107361793816595537, 174723607534414371449,
    341948486974166000522343609283189]⟩

def table : List PrimeRow :=
  [⟨13, [2, 5, 971, 1373]⟩,
   ⟨6, [2, 2, 2, 5, 5, 2621, 24809, 13331831]⟩,
   ⟨5, [2, 2, 2, 3, 5323, 173378833005251801]⟩,
   ⟨6, [2, 3, 22149492674086928081353]⟩,
   ⟨10, [2, 2, 3, 5, 20113]⟩,
   ⟨3, [2, 3, 1206781]⟩,
   ⟨3, [2, 2, 2, 2, 5, 5, 5, 5, 7, 29, 53]⟩,
   ⟨3, [2, 2, 2, 7, 7, 11, 1627, 2657, 4423, 41201, 96557, 7240687, 107590001]⟩,
   ⟨10, [2, 3, 5, 29, 29, 31, 7723, 132896956044521568488119,
     255515944373312847190720520512484175977]⟩,
   fieldRow,
   ⟨23, [2, 2, 2, 3, 97, 2011]⟩,
   ⟨3, [2, 2, 2, 2, 16699, 85831, 4681609]⟩,
   ⟨3, [2, 2, 2, 7, 19, 113]⟩,
   ⟨6, [2, 3, 797, 9349]⟩,
   ⟨3, [2, 2, 2, 17, 59, 4051, 120233, 44706919]⟩,
   ⟨3, [2, 2, 2, 2, 7, 2731]⟩,
   ⟨5, [2, 2, 2, 41, 59, 28181]⟩,
   ⟨3, [2, 3, 5, 29, 1871]⟩,
   ⟨2, [2, 2, 3, 3, 11, 461, 1627771]⟩,
   ⟨2, [2, 293, 305873, 545358713, 297159362677]⟩,
   ⟨2, [2, 2, 3, 3, 3, 109, 29047611873442575647497758179]⟩,
   orderRow]

theorem table_allPass : AllPass small table := by decide +kernel

end PrimeRow

theorem prime_fieldPrime : fieldPrime.Prime := by
  have h := PrimeRow.prime_of_mem PrimeRow.prime_of_mem_small PrimeRow.table_allPass
    PrimeRow.fieldRow (by simp [PrimeRow.table])
  rwa [show PrimeRow.fieldRow.number = fieldPrime by decide +kernel] at h

theorem prime_groupOrder : groupOrder.Prime := by
  have h := PrimeRow.prime_of_mem PrimeRow.prime_of_mem_small PrimeRow.table_allPass
    PrimeRow.orderRow (by simp [PrimeRow.table])
  rwa [show PrimeRow.orderRow.number = groupOrder by decide +kernel] at h

instance : Field Coordinate := Residue.fieldOfPrime prime_fieldPrime (by decide)

instance : Field Scalar := Residue.fieldOfPrime prime_groupOrder (by decide)

theorem Coordinate.inv_eq_inverse (a : Coordinate) : a⁻¹ = a.inverse := rfl

theorem Scalar.inv_eq_inverse (a : Scalar) : a⁻¹ = a.inverse := rfl

end ThresholdKeys
