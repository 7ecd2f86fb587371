/-!
# Searching upwards

The first number from a given one on that a test accepts. The search ends wherever some later
number is accepted; no bound on the distance is needed.
-/

namespace ThresholdKeys

/-- The places from which the search for an accepted number ends. -/
inductive Ends (p : Nat → Bool) : Nat → Prop
  | intro (i : Nat) (later : p i = false → Ends p (i + 1)) : Ends p i

theorem Ends.of_exists {p : Nat → Bool} {i : Nat} (h : ∃ j, i ≤ j ∧ p j = true) : Ends p i := by
  obtain ⟨j, hij, hj⟩ := h
  obtain ⟨d, rfl⟩ := Nat.exists_eq_add_of_le hij
  induction d generalizing i with
  | zero => exact .intro i fun h => by simp_all
  | succ d ih => exact .intro i fun _ => ih (by omega) (by rwa [Nat.add_right_comm, Nat.add_assoc])

instance (p : Nat → Bool) : WellFoundedRelation { i // Ends p i } where
  rel a b := a.1 = b.1 + 1 ∧ p b.1 = false
  wf := ⟨fun ⟨i, h⟩ => by
    induction h with
    | intro i later ih =>
        refine ⟨_, fun ⟨j, hj⟩ hr => ?_⟩
        obtain ⟨rfl, hp⟩ := hr
        exact ih hp⟩

def firstFrom (p : Nat → Bool) (i : Nat) (h : Ends p i) : Nat :=
  if hp : p i = true then i
  else firstFrom p (i + 1) (by cases h with | intro _ later => exact later (by simpa using hp))
termination_by (⟨i, h⟩ : { i // Ends p i })
decreasing_by exact ⟨trivial, by simpa using hp⟩

theorem firstFrom_accepted (p : Nat → Bool) (i : Nat) (h : Ends p i) :
    p (firstFrom p i h) = true := by
  fun_induction firstFrom p i h with
  | case1 i h hp => exact hp
  | case2 i h hp ih => exact ih

end ThresholdKeys
