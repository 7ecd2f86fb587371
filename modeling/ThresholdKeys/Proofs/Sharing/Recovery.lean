import Mathlib
import ThresholdKeys.Proofs.Sharing.Verification

/-!
# What a dealing is good for

A dealing comes about exactly when there are more parties than the threshold, at distinct points
other than zero. Then everybody gets a share that passes the check against the published points, and
whoever puts more shares together than the threshold recovers the secret, in whatever order.
-/

namespace ThresholdKeys

theorem Share.Quorum.select {threshold : ℕ} {vs : List Point} {shares : List Share}
    (hnodup : (shares.map Share.id).Nodup) (hverifies : ∀ s ∈ shares, s.Verifies threshold vs)
    {places : List (Fin shares.length)} (hplaces : places.Nodup)
    (hcount : threshold < places.length) : Quorum threshold vs (places.map shares.get) where
  threshold_lt := by rwa [List.length_map]
  nodup := by
    rw [List.map_map]
    refine hplaces.map fun i j hij => ?_
    have hget : shares.get i = shares.get j :=
      List.inj_on_of_nodup_map hnodup (List.get_mem ..) (List.get_mem ..) hij
    exact List.nodup_iff_injective_get.1 hnodup.of_map hget
  verifies s hs := by
    obtain ⟨i, -, rfl⟩ := List.mem_map.1 hs
    exact hverifies _ (List.get_mem shares i)

namespace Dealing

/-- The dealing is one of the secret to the parties at the points `ids`, any `threshold + 1` of whom
can recover it. -/
structure Recovers (d : Dealing) (threshold : ℕ) (secret : Scalar) (ids : List Scalar) : Prop where
  length_commitments : d.commitments.length = threshold + 1
  head : d.commitments[0]? = some (secret • Point.generator)
  /-- There is one share for each point, in their order. -/
  ids_eq : d.shares.map Share.id = ids
  verifies : ∀ s ∈ d.shares, s.Verifies threshold d.commitments
  reconstruct_eq : ∀ places : List (Fin d.shares.length), places.Nodup →
    threshold < places.length → reconstruct (places.map d.shares.get) threshold = .ok secret

theorem ids_ofPolynomial (threshold : ℕ) (coefficients ids : List Scalar) :
    (ofPolynomial threshold coefficients ids).shares.map Share.id = ids :=
  List.map_map.trans (List.map_id ids)

theorem recovers_ofPolynomial {threshold : ℕ} {secret : Scalar} {higher ids : List Scalar}
    (hlen : higher.length = threshold) (hids : ids.Nodup) :
    (ofPolynomial threshold (secret :: higher) ids).Recovers threshold secret ids := by
  have hlength : (secret :: higher).length = threshold + 1 := congrArg Nat.succ hlen
  have hshares := ids_ofPolynomial threshold (secret :: higher) ids
  have hverifies (s : Share) (hs : s ∈ (ofPolynomial threshold (secret :: higher) ids).shares) :
      s.Verifies threshold (ofPolynomial threshold (secret :: higher) ids).commitments := by
    obtain ⟨x, -, rfl⟩ := List.mem_map.1 hs
    exact verifies_ofPolynomial hlength x
  refine
    { length_commitments := (length_commitments_ofPolynomial ..).trans hlength
      head := rfl
      ids_eq := hshares
      verifies := hverifies
      reconstruct_eq := fun places hplaces hcount => ?_ }
  have hquorum := Share.Quorum.select (hshares.symm ▸ hids) hverifies hplaces hcount
  exact hquorum.reconstruct_eq_headD

/-- A secret can be dealt exactly to more parties than the threshold, at distinct points other than
zero, and every dealing of it is one from which any `threshold + 1` shares recover it. -/
theorem recovers_of_create (source : Source) (threshold : ℕ) (secret : Scalar) (ids : List Scalar) :
    ((∃ d rest, create source threshold secret ids = .ok (d, rest)) ↔
      threshold < ids.length ∧ (∀ x ∈ ids, x ≠ 0) ∧ ids.Nodup) ∧
    ∀ d rest, create source threshold secret ids = .ok (d, rest) →
      d.Recovers threshold secret ids := by
  constructor
  · constructor
    · rintro ⟨d, rest, h⟩
      obtain ⟨hlt, hne, hnodup, -⟩ := create_eq_ok_iff.1 h
      exact ⟨hlt, hne, hnodup⟩
    · rintro ⟨hlt, hne, hnodup⟩
      exact ⟨_, _, create_eq_ok_iff.2 ⟨hlt, hne, hnodup, rfl, rfl⟩⟩
  · intro d rest h
    obtain ⟨-, -, hnodup, rfl, -⟩ := create_eq_ok_iff.1 h
    exact recovers_ofPolynomial (Source.length_draws ..) hnodup

theorem recovers_of_create_three : ∃ d rest, create .ones 1 5 [2, 3, 7] = .ok (d, rest) ∧
    d.shares = [⟨1, 2, 7⟩, ⟨1, 3, 8⟩, ⟨1, 7, 12⟩] ∧
    reconstruct [⟨1, 7, 12⟩, ⟨1, 2, 7⟩] 1 = .ok 5 := by
  obtain ⟨hdealt, hrecovers⟩ := recovers_of_create .ones 1 5 [2, 3, 7]
  obtain ⟨d, rest, hd⟩ := hdealt.2 (by decide)
  have hshares : d.shares = [⟨1, 2, 7⟩, ⟨1, 3, 8⟩, ⟨1, 7, 12⟩] := by
    obtain ⟨-, -, -, rfl, -⟩ := create_eq_ok_iff.1 hd
    rw [coefficients, show Source.ones = { Source.ones with position := 0 } from rfl,
      Source.draws_ones]
    decide
  refine ⟨d, rest, hd, hshares, ?_⟩
  obtain ⟨commitments, shares⟩ := d
  obtain rfl : shares = _ := hshares
  exact (hrecovers _ rest hd).reconstruct_eq [2, 0] (by simp) (by simp)

end Dealing

end ThresholdKeys
