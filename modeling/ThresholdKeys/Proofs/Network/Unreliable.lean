import Mathlib
import ThresholdKeys.Proofs.Engine.Attempt
import ThresholdKeys.Proofs.Engine.Provenance

/-!
# Unreliable networks

A network that may delay, reorder, duplicate, drop and misroute messages, but that hands over
nothing that nobody has sent: a message keeps its sender and its content, while its recipients and
whether it came by broadcast are up to the network. So at any time anybody may be called with
anything sent before, in its turn or not.
-/

namespace ThresholdKeys

variable {ι σ C O : Type}

/-- Somebody has sent this, perhaps to others or in another way. -/
def HasSent (parties : ι → Party σ C O) (m : Message C) : Prop :=
  ∃ i, ∃ m' ∈ (parties i).outbox.sent, m'.sender = m.sender ∧ m'.content = m.content

variable [Content C] [DecidableEq ι]

/-- One call of one party, with a message that somebody has sent if with any. -/
inductive Exchange (parties : ι → Party σ C O) : (ι → Party σ C O) → Prop
  | call (i : ι) {c : Call C} (hc : c.Within (HasSent parties)) :
      Exchange parties (Function.update parties i ((parties i).after c))

variable {parties parties' : ι → Party σ C O}

theorem Exchange.moves (h : Exchange parties parties') (i : ι) :
    Relation.ReflTransGen Party.Moves (parties i) (parties' i) := by
  obtain ⟨j, -⟩ := h
  by_cases hij : i = j
  · subst hij
    rw [Function.update_self]
    exact Party.moves_after ..
  · rw [Function.update_of_ne hij]

theorem moves_of_exchanges (h : Relation.ReflTransGen Exchange parties parties') (i : ι) :
    Relation.ReflTransGen Party.Moves (parties i) (parties' i) := by
  induction h with
  | refl => exact .refl
  | tail _ hstep ih => exact ih.trans (hstep.moves i)

theorem mem_sent_of_exchanges (h : Relation.ReflTransGen Exchange parties parties') {i : ι}
    {m : Message C} (hm : m ∈ (parties i).outbox.sent) : m ∈ (parties' i).outbox.sent := by
  obtain ⟨more, hmore⟩ := Party.exists_sent_of_moves (moves_of_exchanges h i)
  exact hmore ▸ List.mem_append_left more hm

theorem HasSent.mono (h : Relation.ReflTransGen Exchange parties parties') {m : Message C}
    (hm : HasSent parties m) : HasSent parties' m := by
  obtain ⟨i, m', hsent, hsame⟩ := hm
  exact ⟨i, m', mem_sent_of_exchanges h hsent, hsame⟩

theorem exists_exchanges (parties : ι → Party σ C O) (i : ι) {calls : List (Call C)}
    (hcalls : ∀ c ∈ calls, c.Within (HasSent parties)) :
    ∃ parties', Relation.ReflTransGen Exchange parties parties' ∧
      parties' i = (parties i).run calls ∧ ∀ j, j ≠ i → parties' j = parties j := by
  induction calls generalizing parties with
  | nil => exact ⟨parties, .refl, rfl, fun _ _ => rfl⟩
  | cons c rest ih =>
      obtain ⟨hc, hrest⟩ := List.forall_mem_cons.1 hcalls
      have hcall := Exchange.call i hc
      obtain ⟨parties', hrun, hself, hothers⟩ := ih _ fun c hc =>
        (hrest c hc).imp fun _ => HasSent.mono (.single hcall)
      refine ⟨parties', .head hcall hrun, ?_, fun j hj => ?_⟩
      · rw [hself, Function.update_self]
        rfl
      · rw [hothers j hj, Function.update_of_ne hj]

theorem exists_exchanges_all (parties : ι → Party σ C O) (calls : ι → List (Call C))
    (hcalls : ∀ i, ∀ c ∈ calls i, c.Within (HasSent parties)) {is : List ι} (his : is.Nodup) :
    ∃ parties', Relation.ReflTransGen Exchange parties parties' ∧
      (∀ i ∈ is, parties' i = (parties i).run (calls i)) ∧
        ∀ i, i ∉ is → parties' i = parties i := by
  induction is generalizing parties with
  | nil => exact ⟨parties, .refl, fun _ hi => absurd hi List.not_mem_nil, fun _ _ => rfl⟩
  | cons i is ih =>
      obtain ⟨hi, his⟩ := List.nodup_cons.1 his
      obtain ⟨parties₁, hrun₁, hself, hothers⟩ := exists_exchanges parties i (hcalls i)
      obtain ⟨parties', hrun, hcalled, huncalled⟩ := ih parties₁ (fun j c hc =>
        (hcalls j c hc).imp fun _ => HasSent.mono hrun₁) his
      refine ⟨parties', hrun₁.trans hrun, fun j hj => ?_, fun j hj => ?_⟩
      · rcases List.mem_cons.1 hj with rfl | hj
        · rw [huncalled j hi, hself]
        · rw [hcalled j hj, hothers j fun hji => hi (hji ▸ hj)]
      · obtain ⟨hji, hj⟩ := not_or.1 (mt List.mem_cons.2 hj)
        rw [huncalled j hj, hothers j hji]

section Invariant

variable {protocol : Protocol σ C O} {rounds : ι → List (Round σ C O)}
  {Inv : ι → (Message C → Prop) → ℕ → σ → List (Message C) → List O → Prop}
  (hkeeps : ∀ i P, Party.Keeps (protocol.only P) (rounds i) (Inv i P))
  (hmono : ∀ {i P P' k s sent results}, (∀ m, P m → P' m) → Inv i P k s sent results →
    Inv i P' k s sent results)

include hkeeps hmono

theorem Exchange.follows (h : Exchange parties parties') {k : ι → ℕ}
    (hparties : ∀ i, Party.Follows protocol (rounds i) (Inv i (HasSent parties)) (k i)
      (parties i)) :
    ∃ k' : ι → ℕ, (∀ i, k i ≤ k' i) ∧
      ∀ i, Party.Follows protocol (rounds i) (Inv i (HasSent parties')) (k' i) (parties' i) := by
  have hsent (m : Message C) : HasSent parties m → HasSent parties' m := HasSent.mono (.single h)
  have hstep (i : ι) : ∃ l, k i ≤ l ∧
      Party.Follows protocol (rounds i) (Inv i (HasSent parties)) l (parties' i) := by
    obtain ⟨j, hc⟩ := h
    by_cases hij : i = j
    · subst hij
      rw [Function.update_self]
      exact (hparties i).after_of_within (hkeeps i _) hc
    · rw [Function.update_of_ne hij]
      exact ⟨k i, le_rfl, hparties i⟩
  choose k' hle hfollows using hstep
  exact ⟨k', hle, fun i => ⟨(hfollows i).protocol, (hfollows i).stage, hmono hsent (hfollows i).inv⟩⟩

/-- What parties keep as long as they are handed only what somebody has sent, all of them keep
together. -/
theorem follows_of_exchanges (h : Relation.ReflTransGen Exchange parties parties') {k : ι → ℕ}
    (hparties : ∀ i, Party.Follows protocol (rounds i) (Inv i (HasSent parties)) (k i)
      (parties i)) :
    ∃ k' : ι → ℕ, (∀ i, k i ≤ k' i) ∧
      ∀ i, Party.Follows protocol (rounds i) (Inv i (HasSent parties')) (k' i) (parties' i) := by
  induction h with
  | refl => exact ⟨k, fun _ => le_rfl, hparties⟩
  | tail _ hstep ih =>
      obtain ⟨l, hkl, hl⟩ := ih
      obtain ⟨l', hll', hl'⟩ := hstep.follows hkeeps hmono hl
      exact ⟨l', fun i => (hkl i).trans (hll' i), hl'⟩

end Invariant

end ThresholdKeys
