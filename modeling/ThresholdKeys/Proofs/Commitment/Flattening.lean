import Mathlib
import ThresholdKeys.Proofs.Commitment

/-!
# Points as rows of coordinates

The coordinates of points other than the identity are read back as these points, and whatever is
read as points is their row of coordinates. Numbers that only reduce to coordinates are not read, so
points can be committed to in one way.
-/

namespace ThresholdKeys

variable {x y : ℕ} {flat : List ℕ} {p : Point} {points : List Point}

/-- What is read from the thirty-two bytes of a number is the number itself. -/
theorem Coordinate.val_of_fixed? {bytes : Bytes} {a : Coordinate}
    (hbytes : Bytes.fixed? 32 x = some bytes) (ha : ofBytes? bytes = some a) : a.val = x := by
  rw [← ofBytes?_eq_some_iff.1 ha]
  exact ((Bytes.fixed?_eq_some_iff (by decide)).1 hbytes).2

namespace Point

def AreCoordinates (x y : ℕ) : Prop :=
  x < fieldPrime ∧ y < fieldPrime ∧ y ^ 2 ≡ x ^ 3 + 7 [MOD fieldPrime]

instance (x y : ℕ) : Decidable (AreCoordinates x y) :=
  inferInstanceAs (Decidable (_ ∧ _ ∧ _))

/-- The numbers come in pairs, each of which are the coordinates of a point. -/
structure HoldsCoordinates (flat : List ℕ) : Prop where
  even : flat.length % 2 = 0
  pairs : ∀ i x y, flat[2 * i]? = some x → flat[2 * i + 1]? = some y → AreCoordinates x y

theorem onCurve_iff_modEq {a b : Coordinate} :
    OnCurve a b ↔ b.val ^ 2 ≡ a.val ^ 3 + 7 [MOD fieldPrime] := by
  have hcast (c : Coordinate) : ((c.val : ℕ) : Coordinate) = c := Residue.ofNat_val c
  have hcongr : b.val ^ 2 ≡ a.val ^ 3 + 7 [MOD fieldPrime] ↔
      ((b.val ^ 2 : ℕ) : Coordinate) = ((a.val ^ 3 + 7 : ℕ) : Coordinate) :=
    (Residue.ofNat_eq_ofNat_iff _ _).symm
  rw [hcongr, onCurve_iff]
  push_cast
  rw [hcast, hcast]

theorem ofIntegers_eq_ok_iff :
    ofIntegers x y = .ok p ↔ ∃ a b, p.coordinates? = some (a, b) ∧ a.val = x ∧ b.val = y := by
  constructor
  · intro h
    unfold ofIntegers at h
    split at h
    · rename_i q hq
      obtain rfl := Except.ok.inj h
      simp only [ofIntegers?, Option.bind_eq_bind, Option.bind_eq_some_iff] at hq
      obtain ⟨bx, hbx, bY, hby, a, ha, b, hb, hq⟩ := hq
      exact ⟨a, b, (ofCoordinates?_eq_some_iff a b q).1 hq, Coordinate.val_of_fixed? hbx ha,
        Coordinate.val_of_fixed? hby hb⟩
    · cases h
  · rintro ⟨a, b, hp, rfl, rfl⟩
    exact ofIntegers_coordinates hp

theorem exists_ofIntegers_iff : (∃ p, ofIntegers x y = .ok p) ↔ AreCoordinates x y := by
  simp only [ofIntegers_eq_ok_iff]
  constructor
  · rintro ⟨p, a, b, hp, rfl, rfl⟩
    cases p with
    | identity => cases hp
    | affine a b h =>
        cases hp
        exact ⟨a.isLt, b.isLt, onCurve_iff_modEq.1 h⟩
  · rintro ⟨hx, hy, h⟩
    exact ⟨affine ⟨x, hx⟩ ⟨y, hy⟩ (onCurve_iff_modEq.2 h), _, _, rfl, rfl, rfl⟩

/-! ## Rows -/

theorem ofPairs_cons_cons_eq_ok_iff {rest : List ℕ} :
    ofPairs (x :: y :: rest) = .ok points ↔
      ∃ p ps, ofIntegers x y = .ok p ∧ ofPairs rest = .ok ps ∧ points = p :: ps := by
  simp only [ofPairs, Result.bind_eq_ok_iff, Result.pure_eq_ok, Except.ok.injEq]
  constructor
  · rintro ⟨p, hp, ps, hps, rfl⟩
    exact ⟨p, ps, hp, hps, rfl⟩
  · rintro ⟨p, ps, hp, hps, rfl⟩
    exact ⟨p, hp, ps, hps, rfl⟩

theorem flatten_of_ofPairs (heven : flat.length % 2 = 0) (h : ofPairs flat = .ok points) :
    flatten points = .ok flat := by
  -- A number left over is dropped by `ofPairs`; evenness rules it out in the last case.
  induction flat using ofPairs.induct generalizing points with
  | case1 x y rest ih =>
      obtain ⟨p, ps, hp, hps, rfl⟩ := ofPairs_cons_cons_eq_ok_iff.1 h
      obtain ⟨a, b, hcoordinates, rfl, rfl⟩ := ofIntegers_eq_ok_iff.1 hp
      have hrest : flatten ps = .ok rest := ih (by simp only [List.length_cons] at heven; omega) hps
      simp only [flatten, hcoordinates, hrest, Except.map]
  | case2 flat hshort =>
      rcases flat with _ | ⟨x, _ | ⟨y, rest⟩⟩
      · obtain rfl := Except.ok.inj h
        rfl
      · cases heven
      · exact absurd rfl (hshort x y rest)

/-- Reading a row back and writing the points in a row undo each other. -/
theorem unflatten_eq_ok_iff : unflatten flat = .ok points ↔ flatten points = .ok flat := by
  refine ⟨fun h => ?_, unflatten_of_flatten⟩
  unfold unflatten at h
  split at h
  · cases h
  · exact flatten_of_ofPairs (by omega) h

theorem exists_flatten_iff : (∃ flat, flatten points = .ok flat) ↔ 0 ∉ points := by
  constructor
  · rintro ⟨flat, hflat⟩ hzero
    rw [flatten_of_zero_mem hzero] at hflat
    cases hflat
  · intro hzero
    exact exists_flatten fun p hp hp0 => hzero (hp0 ▸ hp)

theorem holdsCoordinates_nil : HoldsCoordinates [] where
  even := rfl
  pairs _ _ _ hx := by cases hx

theorem holdsCoordinates_cons_cons {rest : List ℕ} :
    HoldsCoordinates (x :: y :: rest) ↔ AreCoordinates x y ∧ HoldsCoordinates rest := by
  constructor
  · rintro ⟨heven, hpairs⟩
    refine ⟨hpairs 0 x y rfl rfl, ?_, fun i a b ha hb => hpairs (i + 1) a b ha hb⟩
    simp only [List.length_cons] at heven
    omega
  · rintro ⟨hxy, heven, hpairs⟩
    refine ⟨by simp only [List.length_cons]; omega, fun i a b ha hb => ?_⟩
    cases i with
    | zero =>
        obtain rfl := Option.some.inj ha
        obtain rfl := Option.some.inj hb
        exact hxy
    | succ i => exact hpairs i a b ha hb

theorem exists_ofPairs_iff (heven : flat.length % 2 = 0) :
    (∃ points, ofPairs flat = .ok points) ↔ HoldsCoordinates flat := by
  induction flat using ofPairs.induct with
  | case1 x y rest ih =>
      have hrest := ih (by simp only [List.length_cons] at heven; omega)
      simp only [holdsCoordinates_cons_cons, ← exists_ofIntegers_iff, ← hrest,
        ofPairs_cons_cons_eq_ok_iff]
      constructor
      · rintro ⟨_, p, ps, hp, hps, -⟩
        exact ⟨⟨p, hp⟩, ps, hps⟩
      · rintro ⟨⟨p, hp⟩, ps, hps⟩
        exact ⟨_, p, ps, hp, hps, rfl⟩
  | case2 flat hshort =>
      rcases flat with _ | ⟨x, _ | ⟨y, rest⟩⟩
      · exact iff_of_true ⟨[], rfl⟩ holdsCoordinates_nil
      · cases heven
      · exact absurd rfl (hshort x y rest)

theorem exists_unflatten_iff : (∃ points, unflatten flat = .ok points) ↔ HoldsCoordinates flat := by
  unfold unflatten
  split
  · rename_i hodd
    exact iff_of_false nofun fun h => hodd h.even
  · rename_i heven
    exact exists_ofPairs_iff (not_not.1 heven)

/-- Points other than the identity are written as rows of coordinates in exactly one way: these rows
are the only numbers that are read, and they are read as the points. -/
theorem flatten_bijective :
    (∀ points, (∃ flat, flatten points = .ok flat) ↔ 0 ∉ points) ∧
    (∀ points flat, flatten points = .ok flat → unflatten flat = .ok points) ∧
    (∀ flat, (∃ points, unflatten flat = .ok points) ↔ HoldsCoordinates flat) ∧
    (∀ flat points, unflatten flat = .ok points → flatten points = .ok flat ∧ 0 ∉ points) ∧
    ∀ flat flat' points, unflatten flat = .ok points → unflatten flat' = .ok points →
      flat = flat' := by
  refine ⟨fun points => exists_flatten_iff, fun points flat => unflatten_of_flatten,
    fun flat => exists_unflatten_iff, fun flat points h => ?_, fun flat flat' points h h' => ?_⟩
  · have hflat := unflatten_eq_ok_iff.1 h
    exact ⟨hflat, exists_flatten_iff.1 ⟨flat, hflat⟩⟩
  · rw [unflatten_eq_ok_iff] at h h'
    exact Except.ok.inj (h.symm.trans h')

/-- The point whose first coordinate is one is read from its coordinates, but not from a number that
only reduces to one, though the bytes of a coordinate have room for it. -/
theorem flatten_bijective_one :
    (∃ points, unflatten
        [1, 0x4218f20ae6c646b363db68605822fb14264ca8d2587fdd6fbc750d587e76a7ee] = .ok points ∧
      flatten points =
        .ok [1, 0x4218f20ae6c646b363db68605822fb14264ca8d2587fdd6fbc750d587e76a7ee]) ∧
    fieldPrime + 1 < 256 ^ 32 ∧ ¬ ∃ points, unflatten
      [fieldPrime + 1, 0x4218f20ae6c646b363db68605822fb14264ca8d2587fdd6fbc750d587e76a7ee] =
        .ok points := by
  obtain ⟨-, -, hread, hwritten, -⟩ := flatten_bijective
  have hone : AreCoordinates 1
      0x4218f20ae6c646b363db68605822fb14264ca8d2587fdd6fbc750d587e76a7ee := by
    decide +kernel
  obtain ⟨points, hpoints⟩ := (hread _).2 (holdsCoordinates_cons_cons.2 ⟨hone, holdsCoordinates_nil⟩)
  refine ⟨⟨points, hpoints, (hwritten _ _ hpoints).1⟩, by decide, fun h => ?_⟩
  have hlt := (holdsCoordinates_cons_cons.1 ((hread _).1 h)).1.1
  omega

end Point

end ThresholdKeys
