import Mathlib
import ThresholdKeys.Proofs.Curve.GroupLaw
import ThresholdKeys.Proofs.Result
import ThresholdKeys.Sharing.Reveal

/-!
# Opening commitments to points

The coordinates of points other than the identity are read back as the same points, so what a
dealer has committed to is what its opening reveals.
-/

namespace ThresholdKeys

namespace Coordinate

theorem fixed?_val (a : Coordinate) :
    ∃ bytes, Bytes.fixed? 32 a.val = some bytes ∧ ofBytes? bytes = some a := by
  have hlt : a.val < 256 ^ 32 := a.isLt.trans (by decide)
  refine ⟨Bytes.bigEndian 32 a.val, Bytes.fixed?_of_lt (by decide) hlt, ?_⟩
  rw [ofBytes?_eq_some_iff, Bytes.ofBigEndian_bigEndian, Nat.mod_eq_of_lt hlt]

end Coordinate

namespace Point

theorem ofIntegers_coordinates {p : Point} {x y : Coordinate} (h : p.coordinates? = some (x, y)) :
    ofIntegers x.val y.val = .ok p := by
  obtain ⟨bx, hbx, hx⟩ := x.fixed?_val
  obtain ⟨bY, hby, hy⟩ := y.fixed?_val
  have hp := (ofCoordinates?_eq_some_iff x y p).2 h
  simp [ofIntegers, ofIntegers?, hbx, hx, hby, hy, hp]

theorem ofPairs_of_flatten {points : List Point} {flat : List ℕ} (h : flatten points = .ok flat) :
    ofPairs flat = .ok points ∧ flat.length = 2 * points.length := by
  induction points generalizing flat with
  | nil =>
      obtain rfl : [] = flat := Except.ok.inj h
      exact ⟨rfl, rfl⟩
  | cons p rest ih =>
      unfold flatten at h
      cases hp : p.coordinates? with
      | none => simp [hp] at h
      | some xy =>
          simp only [hp] at h
          obtain ⟨tail, htail, rfl⟩ := Result.map_eq_ok_iff.1 h
          obtain ⟨hpairs, hlen⟩ := ih htail
          refine ⟨?_, by simp only [List.length_cons, hlen]; omega⟩
          rw [ofPairs, ofIntegers_coordinates hp, Result.ok_bind, hpairs]
          rfl

theorem unflatten_of_flatten {points : List Point} {flat : List ℕ} (h : flatten points = .ok flat) :
    unflatten flat = .ok points := by
  obtain ⟨hpairs, hlen⟩ := ofPairs_of_flatten h
  rw [unflatten, if_neg (by omega), hpairs]

theorem exists_flatten {points : List Point} (h : ∀ p ∈ points, p ≠ 0) :
    ∃ flat, flatten points = .ok flat := by
  induction points with
  | nil => exact ⟨[], rfl⟩
  | cons p rest ih =>
      obtain ⟨hp, hrest⟩ := List.forall_mem_cons.1 h
      obtain ⟨flat, hflat⟩ := ih hrest
      cases p with
      | identity => exact absurd rfl hp
      | affine x y hc => exact ⟨x.val :: y.val :: flat, by simp [flatten, coordinates?, hflat, Except.map]⟩

theorem flatten_of_zero_mem {points : List Point} (h : 0 ∈ points) :
    flatten points = .error .brokenInvariant := by
  induction points with
  | nil => exact absurd h List.not_mem_nil
  | cons p rest ih =>
      cases p with
      | identity => rfl
      | affine x y hc =>
          rcases List.mem_cons.1 h with h | h
          · cases h
          · rw [flatten, ih h]
            rfl

end Point

namespace Opening

/-- Behind the random element stand the coordinates of the points. -/
def Reveals (o : Opening) (points : List Point) : Prop :=
  ∃ r values, o.elements = r :: values ∧ Point.unflatten values = .ok points

theorem Reveals.unique {o : Opening} {points points' : List Point} (h : o.Reveals points)
    (h' : o.Reveals points') : points = points' := by
  obtain ⟨r, values, he, hp⟩ := h
  obtain ⟨r', values', he', hp'⟩ := h'
  obtain ⟨rfl, rfl⟩ := List.cons.inj (he.symm.trans he')
  exact Except.ok.inj (hp.symm.trans hp')

theorem reveals_cons {points : List Point} {flat : List ℕ} (h : Point.flatten points = .ok flat)
    (r : ℕ) : Reveals ⟨r :: flat⟩ points :=
  ⟨r, flat, rfl, Point.unflatten_of_flatten h⟩

end Opening

namespace Commitment

theorem open?_eq_some_iff {c : Commitment} {o : Opening} {values : List ℕ} :
    c.open? o = some values ↔ o.commitment = c ∧ ∃ r, o.elements = r :: values := by
  unfold open?
  split
  · simp_all
  · rename_i r rest he
    rw [he]
    simp only [Option.ite_none_right_eq_some, Option.some.injEq, List.cons.injEq]
    refine and_congr_right fun _ => ⟨?_, ?_⟩
    · rintro rfl
      exact ⟨r, rfl, rfl⟩
    · rintro ⟨_, _, h⟩
      exact h

theorem reveal?_eq_some_iff {c : Commitment} {o : Opening} {count : ℕ} {vs : List Point} :
    c.reveal? o count = some vs ↔ o.commitment = c ∧ o.Reveals vs ∧ vs.length = count := by
  simp only [reveal?, Option.bind_eq_bind, Option.bind_eq_some_iff, open?_eq_some_iff,
    Option.ite_none_right_eq_some, Option.some.injEq, Opening.Reveals]
  constructor
  · rintro ⟨values, ⟨hc, r, he⟩, points, hp, hlen, rfl⟩
    cases hu : Point.unflatten values with
    | error e => simp [hu, Except.toOption] at hp
    | ok points' =>
        obtain rfl : points' = points := by simpa [hu, Except.toOption] using hp
        exact ⟨hc, ⟨r, values, he, hu⟩, hlen⟩
  · rintro ⟨hc, ⟨r, values, he, hu⟩, hlen⟩
    exact ⟨values, ⟨hc, r, he⟩, vs, by rw [hu]; rfl, hlen, rfl⟩

end Commitment

end ThresholdKeys
