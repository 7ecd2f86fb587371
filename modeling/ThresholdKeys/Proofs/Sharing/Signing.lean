import Mathlib
import ThresholdKeys.Proofs.Sharing.Quorum
import ThresholdKeys.Proofs.Sharing.Verification

/-!
# Weights of a quorum

The key shares that belong to one polynomial. A member of a quorum finds its weight exactly when
the quorum is large enough, includes the member and consists of participants. Quorum and committee
list the same parties at different places, so parties are matched by their keys.
-/

namespace ThresholdKeys

open Polynomial
open Committee (pointOf)

namespace KeyShare

/-- The key share of the party `p` in a committee that shares the constant term of `f`. -/
def IsOf (k : KeyShare) (threshold : ℕ) (parties : Committee) (f : Scalar[X]) (p : PartyId) :
    Prop :=
  ∃ i, parties.position? p = some i ∧
    make threshold parties i (f.eval (pointOf p))
      (parties.members.map fun q => f.eval (pointOf q) • Point.generator)
      (f.eval 0 • Point.generator) = .ok k

/-- Parties that a quorum of a key share may consist of. -/
structure Admits (k : KeyShare) (parties : Committee) (p : PartyId) (quorum : Committee) : Prop where
  count : k.threshold + 1 ≤ quorum.size
  own : ∃ q ∈ quorum.members, q.SameKey p
  member : ∀ q ∈ quorum.members, ∃ r ∈ parties.members, r.SameKey q

/-- What a key share is good for in a quorum. -/
structure Signs (k : KeyShare) (threshold : ℕ) (parties quorum : Committee) (f : Scalar[X])
    (p : PartyId) : Prop where
  exists_iff : (∃ w, k.signingWeight quorum = .ok w) ↔ k.Admits parties p quorum
  /-- The public shares of the quorum, weighted by their Lagrange coefficients. -/
  publicWeights : ∀ w, k.signingWeight quorum = .ok w → ∃ shares : List Point,
    quorum.members.map k.publicShareOf? = shares.map some ∧
      w.publicWeights = List.zipWith (lagrangeWeight (quorum.members.map pointOf) · • ·)
        (quorum.members.map pointOf) shares
  sum : ∀ w, k.signingWeight quorum = .ok w → Point.sum w.publicWeights = k.publicKey
  own : ∀ w, k.signingWeight quorum = .ok w → ∃ a, quorum.position? p = some a ∧
    w.publicWeights[a]? = some (w.weight • Point.generator)
  /-- The weights of all members add up to the secret that their shares reconstruct. -/
  total : k.Admits parties p quorum → ∀ outputs : List KeyShare,
    List.Forall₂ (fun q (k' : KeyShare) => k'.IsOf threshold parties f q) quorum.members outputs →
      ∃ weights : List SigningWeight, outputs.mapM (signingWeight · quorum) = .ok weights ∧
        Residue.sum (weights.map SigningWeight.weight) = f.eval 0 ∧
        reconstruct (List.zipWith (fun q k' => ⟨threshold, pointOf q, k'.secret⟩) quorum.members
          outputs) threshold = .ok (f.eval 0)

variable {k : KeyShare} {threshold : ℕ} {parties quorum : Committee} {f : Scalar[X]} {p : PartyId}

/-! ## Shares of a polynomial -/

theorem IsOf.secret_eq (h : k.IsOf threshold parties f p) : k.secret = f.eval (pointOf p) := by
  obtain ⟨_, -, hmake⟩ := h
  obtain ⟨-, -, -, rfl⟩ := make_eq_ok_iff.1 hmake
  rfl

theorem IsOf.threshold_eq (h : k.IsOf threshold parties f p) : k.threshold = threshold := by
  obtain ⟨_, -, hmake⟩ := h
  obtain ⟨-, -, -, rfl⟩ := make_eq_ok_iff.1 hmake
  rfl

theorem IsOf.publicKey_eq (h : k.IsOf threshold parties f p) :
    k.publicKey = f.eval 0 • Point.generator := by
  obtain ⟨_, -, hmake⟩ := h
  obtain ⟨-, -, -, rfl⟩ := make_eq_ok_iff.1 hmake
  rfl

theorem exists_isOf (hparties : parties.Proper) (threshold : ℕ) (f : Scalar[X])
    (hp : ∃ r ∈ parties.members, r.SameKey p) :
    ∃ k : KeyShare, k.IsOf threshold parties f p := by
  obtain ⟨r, hr, hkey⟩ := hp
  obtain ⟨i, hi, rfl⟩ := Committee.mem_iff.1 hr
  have hpoint : pointOf (parties.member i) = pointOf p := congrArg Scalar.ofNat hkey
  refine ⟨_, i, hparties.position?_eq hi hkey, make_eq_ok_iff.2 ⟨List.length_map _, hi, ?_, rfl⟩⟩
  rw [List.getElem?_map, Committee.member_eq hi, Option.map_some, hpoint]

theorem exists_liesOn (hparties : parties.Proper) (hf : f.natDegree ≤ threshold) :
    ∃ vs : List Point, (∀ x, evaluateCommitments vs x = f.eval x • Point.generator) ∧
      ∀ (k : KeyShare) (p : PartyId), k.IsOf threshold parties f p →
        ∃ i < parties.size, (parties.member i).SameKey p ∧ k.LiesOn parties i vs := by
  obtain ⟨coefficients, hlen, rfl⟩ := exists_polynomialOf_eq hf
  have heval (x : Scalar) : evaluateCommitments (coefficients.map (· • Point.generator)) x =
      (polynomialOf coefficients).eval x • Point.generator := by
    rw [evaluateCommitments_map_generator, eval_polynomialOf]
  refine ⟨_, heval, fun k p h => ?_⟩
  obtain ⟨i, hposition, hmake⟩ := h
  obtain ⟨hi, hkey⟩ := hparties.position?_eq_some_iff.1 hposition
  obtain ⟨-, -, -, rfl⟩ := make_eq_ok_iff.1 hmake
  have hpoint : pointOf (parties.member i) = pointOf p := congrArg Scalar.ofNat hkey
  exact ⟨i, hi, hkey,
    { length_eq := (List.length_map _).trans hlen
      parties_eq := rfl
      index_eq := rfl
      publicShares_eq := List.map_congr_left fun q _ => (heval _).symm
      publicKey_eq := by rw [← evaluateCommitments_zero, heval]
      secret_smul := by rw [heval, hpoint] }⟩

theorem isSome_find?_of_sameKey (hparties : parties.Proper)
    (hp : ∃ r ∈ parties.members, r.SameKey p) : (parties.find? p).isSome := by
  obtain ⟨r, hr, hkey⟩ := hp
  obtain ⟨i, hi, rfl⟩ := Committee.mem_iff.1 hr
  rw [hparties.find?_eq hi hkey]
  rfl

theorem IsOf.publicShareOf?_eq (h : k.IsOf threshold parties f p) (hparties : parties.Proper)
    (hf : f.natDegree ≤ threshold) {q : PartyId} (hq : ∃ r ∈ parties.members, r.SameKey q) :
    k.publicShareOf? q = some (f.eval (pointOf q) • Point.generator) := by
  obtain ⟨vs, heval, hlies⟩ := exists_liesOn hparties hf
  obtain ⟨i, -, -, hk⟩ := hlies k p h
  rw [hk.publicShareOf?_eq hparties (isSome_find?_of_sameKey hparties hq), heval]

/-! ## When there is a weight -/

theorem isSome_find?_of_publicShareOf? {q : PartyId} {x : Point}
    (h : k.publicShareOf? q = some x) : (k.parties.find? q).isSome := by
  obtain ⟨j, hj, -⟩ := Option.bind_eq_some_iff.1 h
  obtain ⟨r, hr, -⟩ := Option.bind_eq_some_iff.1 hj
  rw [hr]
  rfl

/-- What a weight that was found says of the quorum. -/
theorem exists_of_signingWeight {w : SigningWeight} (h : k.signingWeight quorum = .ok w) :
    k.threshold + 1 ≤ quorum.size ∧
      (∃ own a, k.party? = some own ∧ quorum.position? own = some a) ∧
      ∀ q ∈ quorum.members, (k.parties.find? q).isSome := by
  unfold KeyShare.signingWeight at h
  split at h
  · cases h
  · rename_i hcount
    split at h
    · cases h
    · rename_i own hown
      split at h
      · cases h
      · rename_i a ha
        obtain ⟨shares, hshares, -⟩ := Result.bind_eq_ok_iff.1 h
        refine ⟨not_lt.1 hcount, ⟨own, a, hown, ha⟩, fun q hq => ?_⟩
        obtain ⟨x, hx⟩ := Result.exists_eq_ok_of_mapM hshares hq
        cases hshare : k.publicShareOf? q with
        | none => simp [hshare] at hx
        | some y => exact isSome_find?_of_publicShareOf? hshare

/-! ## Quorums -/

/-- The weight of the party `p` in a quorum, and the public weights that go with it. -/
noncomputable def weightIn (quorum : Committee) (f : Scalar[X]) (p : PartyId) : SigningWeight where
  weight := lagrangeWeight (quorum.members.map pointOf) (pointOf p) * f.eval (pointOf p)
  publicWeights := (quorum.members.map pointOf).map fun x =>
    lagrangeWeight (quorum.members.map pointOf) x • f.eval x • Point.generator

theorem degree_lt (hf : f.natDegree ≤ threshold) (hk : k.threshold = threshold)
    (hadmits : k.Admits parties p quorum) : f.degree < (quorum.members.map pointOf).length := by
  rw [List.length_map]
  have hcount : threshold < quorum.size := hk ▸ hadmits.count
  exact degree_le_natDegree.trans_lt (by exact_mod_cast hf.trans_lt hcount)

section Quorum

variable (hparties : parties.Proper) (hquorum : quorum.Proper) (hf : f.natDegree ≤ threshold)

include hparties hquorum hf

theorem IsOf.signingWeight_eq (h : k.IsOf threshold parties f p)
    (hadmits : k.Admits parties p quorum) :
    k.signingWeight quorum = .ok (weightIn quorum f p) := by
  obtain ⟨vs, heval, hlies⟩ := exists_liesOn hparties hf
  obtain ⟨i, hi, hkey, hk⟩ := hlies k p h
  obtain ⟨q, hq, hqp⟩ := hadmits.own
  obtain ⟨a, ha, rfl⟩ := Committee.mem_iff.1 hq
  have hpoint : pointOf (quorum.member a) = pointOf p := congrArg Scalar.ofNat hqp
  have hsub (q : PartyId) (hq : q ∈ quorum.members) : (parties.find? q).isSome :=
    isSome_find?_of_sameKey hparties (hadmits.member q hq)
  rw [hk.signingWeight_eq hparties hquorum hsub hi hadmits.count ha (hqp.trans hkey.symm),
    h.secret_eq, hpoint, weightIn]
  simp only [heval]

theorem IsOf.exists_signingWeight_iff (h : k.IsOf threshold parties f p) :
    (∃ w, k.signingWeight quorum = .ok w) ↔ k.Admits parties p quorum := by
  constructor
  · rintro ⟨w, hw⟩
    obtain ⟨hcount, ⟨own, a, hown, ha⟩, hmember⟩ := exists_of_signingWeight hw
    obtain ⟨vs, -, hlies⟩ := exists_liesOn hparties hf
    obtain ⟨i, hi, hkey, hk⟩ := hlies k p h
    obtain rfl : parties.member i = own := by
      rw [party?, hk.parties_eq, hk.index_eq, Committee.get?, Committee.member_eq hi] at hown
      exact Option.some.inj hown
    obtain ⟨hlt, hsame⟩ := hquorum.position?_eq_some_iff.1 ha
    refine ⟨hcount, ⟨_, Committee.member_mem hlt, hsame.trans hkey⟩, fun q hq => ?_⟩
    obtain ⟨j, hj, hjq⟩ := Committee.exists_member_of_find? (hk.parties_eq ▸ hmember q hq)
    exact ⟨_, Committee.member_mem hj, hjq⟩
  · exact fun hadmits => ⟨_, h.signingWeight_eq hparties hquorum hf hadmits⟩

/-- Everybody in the quorum finds a weight, and the weights add up. -/
theorem exists_weights (hadmits : k.Admits parties p quorum) (hk : k.threshold = threshold)
    {outputs : List KeyShare}
    (houtputs : List.Forall₂ (fun q (k' : KeyShare) => k'.IsOf threshold parties f q)
      quorum.members outputs) :
    ∃ weights : List SigningWeight, outputs.mapM (signingWeight · quorum) = .ok weights ∧
      Residue.sum (weights.map SigningWeight.weight) = f.eval 0 := by
  have hall := (List.forall₂_and_left _ _).2 ⟨fun q hq => hq, houtputs⟩
  have hweights : List.Forall₂ (fun q (k' : KeyShare) =>
      k'.signingWeight quorum = .ok (weightIn quorum f q)) quorum.members outputs :=
    hall.imp fun q k' ⟨hq, h⟩ => h.signingWeight_eq hparties hquorum hf
      ⟨h.threshold_eq.trans hk.symm ▸ hadmits.count, ⟨q, hq, rfl⟩, hadmits.member⟩
  refine ⟨quorum.members.map (weightIn quorum f), ?_, ?_⟩
  · exact Result.mapM_eq_ok_iff.2 (List.forall₂_map_right_iff.2 hweights.flip)
  · rw [Residue.sum_eq_sum, List.map_map,
      ← sum_lagrangeWeight_mul_eval hquorum.nodup (degree_lt hf hk hadmits), List.map_map]
    rfl

omit hparties in
theorem reconstruct_outputs (hadmits : k.Admits parties p quorum) (hk : k.threshold = threshold)
    {outputs : List KeyShare}
    (houtputs : List.Forall₂ (fun q (k' : KeyShare) => k'.IsOf threshold parties f q)
      quorum.members outputs) :
    reconstruct (List.zipWith (fun q k' => ⟨threshold, pointOf q, k'.secret⟩) quorum.members
      outputs) threshold = .ok (f.eval 0) := by
  have hshares : List.zipWith (fun q (k' : KeyShare) => (⟨threshold, pointOf q, k'.secret⟩ : Share))
      quorum.members outputs =
        quorum.members.map fun q => ⟨threshold, pointOf q, f.eval (pointOf q)⟩ := by
    generalize quorum.members = members at houtputs
    induction houtputs with
    | nil => rfl
    | cons h _ ih => rw [List.zipWith_cons_cons, ih, h.secret_eq, List.map_cons]
  have hids : (quorum.members.map fun q =>
      (⟨threshold, pointOf q, f.eval (pointOf q)⟩ : Share)).map Share.id =
        quorum.members.map pointOf := List.map_map
  rw [hshares, reconstruct_eq (by rw [List.length_map]; exact hk ▸ hadmits.count)
    (hids ▸ hquorum.nodup), hids, List.map_map,
    ← sum_lagrangeWeight_mul_eval hquorum.nodup (degree_lt hf hk hadmits), List.map_map]
  rfl

end Quorum

/-- The key share of a participant has a weight in every quorum of enough participants that it is
in, and in no other; the public weights add up to the public key, and the weights of the whole
quorum to the secret. -/
theorem signs_of_isOf {ids quorumIds : List PartyId} (hparties : Committee.ofList ids = .ok parties)
    (hquorum : Committee.ofList quorumIds = .ok quorum) (hf : f.natDegree ≤ threshold)
    (h : k.IsOf threshold parties f p) : k.Signs threshold parties quorum f p := by
  have hparties := Committee.proper_of_ofList hparties
  have hquorum := Committee.proper_of_ofList hquorum
  have hweight (w : SigningWeight) (hw : k.signingWeight quorum = .ok w) :
      k.Admits parties p quorum ∧ w = weightIn quorum f p := by
    have hadmits := (h.exists_signingWeight_iff hparties hquorum hf).1 ⟨w, hw⟩
    rw [h.signingWeight_eq hparties hquorum hf hadmits] at hw
    exact ⟨hadmits, (Except.ok.inj hw).symm⟩
  refine
    { exists_iff := h.exists_signingWeight_iff hparties hquorum hf
      publicWeights := fun w hw => ?_
      sum := fun w hw => ?_
      own := fun w hw => ?_
      total := fun hadmits outputs houtputs => ?_ }
  · obtain ⟨hadmits, rfl⟩ := hweight w hw
    refine ⟨quorum.members.map fun q => f.eval (pointOf q) • Point.generator, ?_, ?_⟩
    · rw [List.map_map]
      exact List.map_congr_left fun q hq => h.publicShareOf?_eq hparties hf (hadmits.member q hq)
    · rw [weightIn, List.zipWith_map, List.zipWith_self, List.map_map]
      rfl
  · obtain ⟨hadmits, rfl⟩ := hweight w hw
    have hsum := sum_lagrangeWeight_mul_eval hquorum.nodup (degree_lt hf h.threshold_eq hadmits)
    rw [h.publicKey_eq, ← hsum, List.sum_smul, List.map_map, Point.sum_eq_sum, weightIn]
    exact congrArg List.sum (List.map_congr_left fun x _ => smul_smul ..)
  · obtain ⟨hadmits, rfl⟩ := hweight w hw
    obtain ⟨q, hq, hqp⟩ := hadmits.own
    obtain ⟨a, ha, rfl⟩ := Committee.mem_iff.1 hq
    have hpoint : pointOf (quorum.member a) = pointOf p := congrArg Scalar.ofNat hqp
    refine ⟨a, hquorum.position?_eq ha hqp, ?_⟩
    rw [weightIn, List.getElem?_map, List.getElem?_map, Committee.member_eq ha, Option.map_some,
      Option.map_some, hpoint, smul_smul]
  · obtain ⟨weights, hweights, hsum⟩ :=
      exists_weights hparties hquorum hf hadmits h.threshold_eq houtputs
    exact ⟨weights, hweights, hsum, reconstruct_outputs hquorum hf hadmits h.threshold_eq houtputs⟩

def trio : Committee :=
  ⟨[⟨"a", "A", 1, some 0⟩, ⟨"b", "B", 2, some 1⟩, ⟨"c", "C", 3, some 2⟩]⟩

def outerPair : Committee := ⟨[⟨"a", "A", 1, some 0⟩, ⟨"c", "C", 3, some 1⟩]⟩

theorem ofList_trio :
    Committee.ofList [⟨"b", "B", 2, none⟩, ⟨"a", "A", 1, none⟩, ⟨"c", "C", 3, none⟩] = .ok trio := by
  decide +kernel

theorem ofList_outerPair :
    Committee.ofList [⟨"c", "C", 3, none⟩, ⟨"a", "A", 1, none⟩] = .ok outerPair := by
  decide +kernel

theorem signs_of_isOf_pair : ∃ (k : KeyShare) (w : SigningWeight),
    k.IsOf 1 trio (X + C 5) ⟨"c", "C", 3, none⟩ ∧ k.signingWeight outerPair = .ok w ∧
      Point.sum w.publicWeights = (5 : Scalar) • Point.generator ∧
      w.publicWeights[1]? = some (w.weight • Point.generator) := by
  have hproper := Committee.proper_of_ofList ofList_trio
  obtain ⟨k, hk⟩ := exists_isOf (p := ⟨"c", "C", 3, none⟩) hproper 1 (X + C 5) (by decide)
  have hsigns := signs_of_isOf ofList_trio ofList_outerPair (natDegree_X_add_C 5).le hk
  have hadmits : k.Admits trio ⟨"c", "C", 3, none⟩ outerPair :=
    { count := hk.threshold_eq.symm ▸ by decide
      own := by decide
      member := by decide }
  obtain ⟨w, hw⟩ := hsigns.exists_iff.2 hadmits
  refine ⟨k, w, hk, hw, ?_, ?_⟩
  · rw [hsigns.sum w hw, hk.publicKey_eq]
    simp
  · obtain ⟨a, ha, hown⟩ := hsigns.own w hw
    obtain rfl : 1 = a := Option.some.inj ((by decide : _ = some 1).symm.trans ha)
    exact hown

end KeyShare

end ThresholdKeys
