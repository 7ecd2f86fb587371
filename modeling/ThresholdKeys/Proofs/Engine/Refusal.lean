import Mathlib
import ThresholdKeys.Proofs.Engine.Lifecycle

/-!
# What an error leaves behind

A message that a party does not take leaves the party as it was. An error after that comes from a
round that the party tries to enter; it ends the run, and nothing is yielded.
-/

namespace ThresholdKeys

namespace Party

variable {σ C O : Type}

theorem exists_getsTo_of_error {later : List (Round σ C O)} {round : Round σ C O}
    {checklist : Checklist} {advanced : Bool} {p : Party σ C O} {e : Error}
    (hinspect : ∀ r ∈ round :: later, ∀ s, r.inspect s = .ok ())
    (h : (proceed later round checklist advanced p).1 = .error e) :
    ∃ target after q, GetsTo target after q later round checklist p ∧ q.enter target = .error e := by
  have hround := hinspect round List.mem_cons_self p.state
  induction later generalizing round checklist advanced p with
  | nil =>
      cases hdone : (checklist.tickWhere (round.hasArrived p.state)).isComplete with
      | true => rw [proceed_nil_of_complete hround hdone] at h; cases h
      | false => rw [proceed_of_missing hround hdone] at h; cases h
  | cons next later ih =>
      cases hdone : (checklist.tickWhere (round.hasArrived p.state)).isComplete with
      | false => rw [proceed_of_missing hround hdone] at h; cases h
      | true =>
          rw [proceed_cons_of_complete hround hdone] at h
          cases henter : p.enter next with
          | error e' =>
              rw [henter] at h
              cases h
              exact ⟨next, later, p, .now hround hdone, henter⟩
          | ok r =>
              rw [henter] at h
              have hnext := fun r hr => hinspect r (List.mem_cons_of_mem round hr)
              obtain ⟨target, after, q, hq, herror⟩ :=
                ih hnext h (hnext next List.mem_cons_self r.1.state)
              exact ⟨target, after, q, .later hround hdone henter hq, herror⟩

variable [Content C]

section

variable {outsider : Message C → Prop} {rounds : List (Round σ C O)} {k : ℕ} {p : Party σ C O}
  {m : Message C}

end

end Party

end ThresholdKeys
