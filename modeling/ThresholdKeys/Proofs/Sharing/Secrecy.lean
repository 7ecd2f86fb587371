import Mathlib
import ThresholdKeys.Proofs.Sharing.Recovery

/-!
# What a dealing keeps secret

As many shares as the threshold fit every secret: for each there is exactly one list of coefficients
that a dealer would have to draw. A dealer whose coefficients are uniform therefore deals these
shares with the same probabilities, whatever its secret is.
-/

namespace ThresholdKeys

instance : Finite Scalar :=
  .of_injective (fun a => (⟨a.val, a.isLt⟩ : Fin groupOrder)) fun _ _ h => Residue.ext (Fin.mk.inj h)

noncomputable def uniformOn (α : Type) [Finite α] [Nonempty α] : PMF α :=
  letI := Fintype.ofFinite α
  .uniformOfFintype α

theorem uniformOn_apply {α : Type} [Finite α] [Nonempty α] (a : α) :
    uniformOn α a = (Nat.card α : ENNReal)⁻¹ := by
  let := Fintype.ofFinite α
  rw [Nat.card_eq_fintype_card]
  exact PMF.uniformOfFintype_apply a

theorem map_uniformOn {α : Type} [Finite α] [Nonempty α] {f : α → α} (hf : Function.Bijective f) :
    (uniformOn α).map f = uniformOn α := by
  classical
  ext b
  obtain ⟨a, rfl, huniq⟩ := hf.existsUnique b
  rw [PMF.map_apply, tsum_eq_single a, if_pos rfl, uniformOn_apply, uniformOn_apply]
  intro a' ha'
  exact if_neg fun h => ha' (huniq a' h.symm)

namespace Source

def drawn (s : Source) (count : ℕ) : List.Vector Scalar count :=
  ⟨(draws nextScalar count s).1, length_draws ..⟩

/-- The source that yields the given scalars and then ones. -/
def yielding (xs : List Scalar) : Source where
  word i := (xs.getD i 1).val
  fair i := by
    refine ⟨max i xs.length, le_max_left .., ?_⟩
    rw [List.getD_eq_default _ _ (le_max_right ..)]
    decide

theorem nextScalar_yielding (xs : List Scalar) (position : ℕ) :
    nextScalar { yielding xs with position } =
      (xs.getD position 1, { yielding xs with position := position + 1 }) := by
  have hfirst := firstFrom_of_accepted (ends_isScalar { yielding xs with position } position)
    (decide_eq_true (xs.getD position 1).isLt)
  rw [nextScalar, hfirst]
  exact Prod.ext (Residue.ofNat_val _) rfl

theorem draws_yielding (before xs : List Scalar) :
    (draws nextScalar xs.length { yielding (before ++ xs) with position := before.length }).1 =
      xs := by
  induction xs generalizing before with
  | nil => rfl
  | cons x xs ih =>
      have hnext := ih (before ++ [x])
      rw [List.append_assoc, List.singleton_append, List.length_append] at hnext
      rw [List.length_cons, draws, nextScalar_yielding]
      refine congrArg₂ List.cons ?_ hnext
      simp [List.getD_eq_getElem?_getD]

theorem drawn_yielding {count : ℕ} (xs : List.Vector Scalar count) :
    (yielding xs.toList).drawn count = xs := by
  obtain ⟨xs, rfl⟩ := xs
  exact Subtype.ext (draws_yielding [] xs)

end Source

namespace Dealing

/-- The shares of the parties at the chosen points, in the order of the dealing. -/
def heldBy (d : Dealing) (chosen : Finset Scalar) : List Share :=
  d.shares.filter fun s => s.id ∈ chosen

theorem heldBy_filter {chosen more : Finset Scalar} (h : chosen ⊆ more) (d : Dealing) :
    (d.heldBy more).filter (fun s => s.id ∈ chosen) = d.heldBy chosen := by
  rw [heldBy, List.filter_filter]
  refine List.filter_congr fun s _ => ?_
  by_cases hs : s.id ∈ chosen
  · simp [hs, h hs]
  · simp [hs]

/-- Dealings of `threshold` coefficients above a secret conceal it from `threshold` parties. -/
structure Conceals (threshold : ℕ) (ids : List Scalar) : Prop where
  /-- Every list of coefficients is drawn from some source. -/
  drawn : ∀ higher : List.Vector Scalar threshold, ∃ source : Source,
    source.drawn threshold = higher
  /-- Whoever has dealt one secret could have dealt any other one with the same shares for the
  chosen parties, by exactly one list of coefficients. -/
  shares : ∀ chosen ⊆ ids.toFinset, chosen.card = threshold →
    ∀ source secret d rest, create source threshold secret ids = .ok (d, rest) →
      ∀ secret', ∃! higher : List.Vector Scalar threshold,
        ∀ source' : Source, source'.drawn threshold = higher →
          ∃ d' rest', create source' threshold secret' ids = .ok (d', rest') ∧
            d'.heldBy chosen = d.heldBy chosen
  /-- There are sources whose next scalars are uniform. -/
  uniform : ∃ random : PMF Source,
    random.map (Source.drawn · threshold) = uniformOn (List.Vector Scalar threshold)
  /-- With such a source, what the chosen parties get is distributed in the same way for all
  secrets. -/
  distribution : ∀ chosen ⊆ ids.toFinset, chosen.card ≤ threshold → ∀ random : PMF Source,
    random.map (Source.drawn · threshold) = uniformOn (List.Vector Scalar threshold) →
      ∀ secret secret' : Scalar,
        random.map (fun source =>
            (create source threshold secret ids).map fun r => r.1.heldBy chosen) =
          random.map fun source =>
            (create source threshold secret' ids).map fun r => r.1.heldBy chosen

/-! ## The values at a few points -/

section Values

variable {ks : List Scalar} {threshold : ℕ} {secret : Scalar}

def values (ks : List Scalar) (secret : Scalar) (higher : List.Vector Scalar ks.length) :
    List.Vector Scalar ks.length :=
  ⟨ks.map (evaluatePolynomial (secret :: higher.toList)), List.length_map _⟩

/-- Without the constant term, distinct points other than zero determine the coefficients. -/
theorem values_injective (hks : ks.Nodup) (hne : ∀ k ∈ ks, k ≠ 0) (secret : Scalar) :
    Function.Injective (values ks secret) := by
  intro higher higher' h
  refine Subtype.ext (eq_of_evaluatePolynomial_eq hks higher.2 higher'.2 fun k hk => ?_)
  have hvalue := List.map_inj_left.1 (congrArg Subtype.val h) k hk
  rw [evaluatePolynomial_cons, evaluatePolynomial_cons] at hvalue
  exact mul_right_cancel₀ (hne k hk) (add_right_cancel hvalue)

theorem values_bijective (hks : ks.Nodup) (hne : ∀ k ∈ ks, k ≠ 0) (secret : Scalar) :
    Function.Bijective (values ks secret) :=
  Finite.injective_iff_bijective.1 (values_injective hks hne secret)

def sharesOf (ks : List Scalar) (vs : List.Vector Scalar ks.length) : List Share :=
  List.zipWith (fun k v => ⟨ks.length, k, v⟩) ks vs.toList

theorem sharesOf_values (ks : List Scalar) (secret : Scalar)
    (higher : List.Vector Scalar ks.length) :
    sharesOf ks (values ks secret higher) =
      ks.map fun k => ⟨ks.length, k, evaluatePolynomial (secret :: higher.toList) k⟩ :=
  List.zipWith_map_right.trans List.zipWith_self

theorem sharesOf_injective (ks : List Scalar) : Function.Injective (sharesOf ks) := by
  have hvalues (vs : List.Vector Scalar ks.length) :
      (sharesOf ks vs).map Share.value = vs.toList :=
    List.ext_getElem (by simp [sharesOf]) (by simp [sharesOf])
  intro vs vs' h
  exact Subtype.ext ((hvalues vs).symm.trans ((congrArg (List.map Share.value) h).trans (hvalues vs')))

end Values

/-! ## What the chosen parties get -/

def chosenOf (ids : List Scalar) (chosen : Finset Scalar) : List Scalar := ids.filter (· ∈ chosen)

section Accepted

variable {ids : List Scalar} (hids : ids.Nodup) {chosen : Finset Scalar}

include hids

theorem length_chosenOf (hchosen : chosen ⊆ ids.toFinset) :
    (chosenOf ids chosen).length = chosen.card := by
  have hnodup : (chosenOf ids chosen).Nodup := hids.filter _
  rw [← List.toFinset_card_of_nodup hnodup]
  refine congrArg Finset.card (Finset.ext fun x => ?_)
  simpa [chosenOf] using fun hx => List.mem_toFinset.1 (hchosen hx)

variable (hne : ∀ x ∈ ids, x ≠ 0)

include hne

/-- Whatever the constant term, the values at the chosen points may be any. -/
theorem bijective_values_chosenOf (chosen : Finset Scalar) (secret : Scalar) :
    Function.Bijective (values (chosenOf ids chosen) secret) :=
  values_bijective (hids.filter _) (fun k hk => hne k (List.mem_filter.1 hk).1) secret

variable (hlt : (chosenOf ids chosen).length < ids.length)

include hlt

/-- The chosen parties learn the values at their points and nothing else. -/
theorem exists_create (source : Source) (secret : Scalar) :
    ∃ d rest, create source (chosenOf ids chosen).length secret ids = .ok (d, rest) ∧
      d.heldBy chosen = sharesOf (chosenOf ids chosen)
        (values (chosenOf ids chosen) secret (source.drawn (chosenOf ids chosen).length)) := by
  refine ⟨_, _, create_eq_ok_iff.2 ⟨hlt, hne, hids, rfl, rfl⟩, ?_⟩
  rw [sharesOf_values, heldBy, ofPolynomial, List.filter_map]
  rfl

theorem map_create (source : Source) (secret : Scalar) :
    ((create source (chosenOf ids chosen).length secret ids).map fun r => r.1.heldBy chosen) =
      .ok (sharesOf (chosenOf ids chosen)
        (values (chosenOf ids chosen) secret (source.drawn (chosenOf ids chosen).length))) := by
  obtain ⟨d, rest, hd, hheld⟩ := exists_create hids hne hlt source secret
  rw [hd, ← hheld]
  rfl

theorem existsUnique_drawn {source rest : Source} {secret : Scalar} {d : Dealing}
    (hd : create source (chosenOf ids chosen).length secret ids = .ok (d, rest))
    (secret' : Scalar) :
    ∃! higher : List.Vector Scalar (chosenOf ids chosen).length,
      ∀ source' : Source, source'.drawn (chosenOf ids chosen).length = higher →
        ∃ d' rest', create source' (chosenOf ids chosen).length secret' ids = .ok (d', rest') ∧
          d'.heldBy chosen = d.heldBy chosen := by
  obtain ⟨_, _, hd₀, hheld⟩ := exists_create hids hne hlt source secret
  obtain ⟨rfl, -⟩ := Prod.mk.inj (Except.ok.inj (hd₀.symm.trans hd))
  obtain ⟨higher, hhigher, huniq⟩ := (bijective_values_chosenOf hids hne chosen secret').existsUnique
    (values (chosenOf ids chosen) secret (source.drawn _))
  refine ⟨higher, fun source' hsource' => ?_, fun higher' hhigher' => huniq higher' ?_⟩
  · obtain ⟨d', rest', hd', hheld'⟩ := exists_create hids hne hlt source' secret'
    exact ⟨d', rest', hd', by rw [hheld', hheld, hsource', hhigher]⟩
  · have hdrawn := Source.drawn_yielding higher'
    obtain ⟨_, _, hd', hsame⟩ := hhigher' _ hdrawn
    obtain ⟨_, _, hd₁, hheld'⟩ := exists_create hids hne hlt (.yielding higher'.toList) secret'
    obtain ⟨rfl, -⟩ := Prod.mk.inj (Except.ok.inj (hd₁.symm.trans hd'))
    rw [hheld', hheld, hdrawn] at hsame
    exact sharesOf_injective _ hsame

/-- Uniform coefficients make the values at the chosen points uniform, whatever the secret. -/
theorem map_create_uniform {random : PMF Source}
    (hrandom : random.map (Source.drawn · (chosenOf ids chosen).length) =
      uniformOn (List.Vector Scalar (chosenOf ids chosen).length)) (secret : Scalar) :
    (random.map fun source =>
      (create source (chosenOf ids chosen).length secret ids).map fun r => r.1.heldBy chosen) =
      (uniformOn (List.Vector Scalar (chosenOf ids chosen).length)).map
        fun vs => .ok (sharesOf (chosenOf ids chosen) vs) := by
  have hvalues := map_uniformOn (bijective_values_chosenOf hids hne chosen secret)
  rw [← hvalues, ← hrandom, PMF.map_comp, PMF.map_comp]
  exact congrArg (PMF.map · random) (funext fun source => map_create hids hne hlt source secret)

end Accepted

theorem exists_uniform (count : ℕ) : ∃ random : PMF Source,
    random.map (Source.drawn · count) = uniformOn (List.Vector Scalar count) := by
  refine ⟨(uniformOn (List.Vector Scalar count)).map fun xs => .yielding xs.toList, ?_⟩
  rw [PMF.map_comp]
  exact (congrArg (PMF.map · _) (funext Source.drawn_yielding)).trans (PMF.map_id _)

/-- Every dealing that comes about conceals its secret. -/
theorem conceals_of_create {source rest : Source} {threshold : ℕ} {secret : Scalar}
    {ids : List Scalar} {d : Dealing}
    (h : create source threshold secret ids = .ok (d, rest)) : Conceals threshold ids := by
  obtain ⟨hlt, hne, hids, -⟩ := create_eq_ok_iff.1 h
  refine
    { drawn := fun higher => ⟨_, Source.drawn_yielding higher⟩
      shares := fun chosen hchosen hcard source secret d rest hd secret' => ?_
      uniform := exists_uniform threshold
      distribution := fun chosen hchosen hcard random hrandom secret secret' => ?_ }
  · obtain rfl := (length_chosenOf hids hchosen).trans hcard
    exact existsUnique_drawn hids hne hlt hd secret'
  · -- fewer parties are part of as many as the threshold
    obtain ⟨more, hmore, hsub, hcard'⟩ := Finset.exists_subsuperset_card_eq hchosen hcard
      ((List.toFinset_card_of_nodup hids).symm ▸ hlt.le)
    obtain rfl := (length_chosenOf hids hsub).trans hcard'
    have hfilter (secret : Scalar) :
        (random.map fun source =>
          (create source (chosenOf ids more).length secret ids).map fun r => r.1.heldBy chosen) =
        (random.map fun source =>
          (create source (chosenOf ids more).length secret ids).map fun r => r.1.heldBy more).map
            (Except.map (List.filter fun s => decide (s.id ∈ chosen))) := by
      rw [PMF.map_comp]
      refine congrArg (PMF.map · random) (funext fun source => ?_)
      rw [Function.comp_apply]
      cases create source (chosenOf ids more).length secret ids with
      | error e => rfl
      | ok r => exact congrArg Except.ok (heldBy_filter hmore r.1).symm
    rw [hfilter, hfilter, map_create_uniform hids hne hlt hrandom,
      map_create_uniform hids hne hlt hrandom]

theorem conceals_of_create_four :
    (∃ d rest, create .ones 2 5 [2, 3, 7, 9] = .ok (d, rest)) ∧ Conceals 2 [2, 3, 7, 9] := by
  have hcreate : ∃ d rest, create .ones 2 5 [2, 3, 7, 9] = .ok (d, rest) :=
    ⟨_, _, create_eq_ok_iff.2 ⟨by decide, by decide, by decide, rfl, rfl⟩⟩
  obtain ⟨d, rest, hd⟩ := hcreate
  exact ⟨⟨d, rest, hd⟩, conceals_of_create hd⟩

end Dealing

end ThresholdKeys
