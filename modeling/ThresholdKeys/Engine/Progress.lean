import ThresholdKeys.Engine.Ordered

/-!
# Parties send only when they move on

Taking a message never adds to the rounds that lie ahead, and unless it takes the party further
nothing is sent. So parties that only pass messages around come to rest.
-/

namespace ThresholdKeys

namespace Stage

variable {σ C O : Type}

def roundsAhead : Stage σ C O → Nat
  | notStarted _ later => later.length + 1
  | active _ _ later => later.length
  | finished | failed => 0

end Stage

namespace Party

variable {σ C O : Type}

/-- `q` comes from `p` with no more rounds ahead, and with nothing sent if their number is the
same. -/
def SettlesTo (p q : Party σ C O) : Prop :=
  q.stage.roundsAhead ≤ p.stage.roundsAhead ∧
    (q.stage.roundsAhead = p.stage.roundsAhead → q.outbox = p.outbox)

theorem SettlesTo.refl (p : Party σ C O) : p.SettlesTo p := ⟨Nat.le_refl _, fun _ => rfl⟩

theorem SettlesTo.trans {p q r : Party σ C O} (h : p.SettlesTo q) (h' : q.SettlesTo r) :
    p.SettlesTo r := by
  refine ⟨Nat.le_trans h'.1 h.1, fun heq => ?_⟩
  have hq : q.stage.roundsAhead = p.stage.roundsAhead := Nat.le_antisymm h.1 (heq ▸ h'.1)
  rw [h'.2 (heq.trans hq.symm), h.2 hq]

theorem proceed_settles (later : List (Round σ C O)) (round : Round σ C O) (checklist : Checklist)
    (advanced : Bool) (p : Party σ C O) :
    (proceed later round checklist advanced p).2.stage.roundsAhead ≤ later.length ∧
      ((proceed later round checklist advanced p).2.stage.roundsAhead = later.length →
        (proceed later round checklist advanced p).2.outbox = p.outbox) := by
  induction later generalizing round checklist advanced p with
  | nil =>
      unfold proceed
      split
      · simp [fail, Stage.roundsAhead]
      · dsimp only
        split <;> simp [Stage.roundsAhead]
  | cons next later ih =>
      unfold proceed
      split
      · simp [fail, Stage.roundsAhead]
      · dsimp only
        split
        · split
          · simp [fail, Stage.roundsAhead]
          · rename_i q checklist' _
            have h := (ih next checklist' true q).1
            exact ⟨Nat.le_succ_of_le h, fun heq => absurd heq (by simp only [List.length_cons]; omega)⟩
        · simp [Stage.roundsAhead]

theorem advance_settles (p : Party σ C O) : p.SettlesTo p.advance.2 := by
  unfold advance
  split
  · rename_i checklist round later hp
    have h := proceed_settles later round checklist false p
    rw [SettlesTo, hp]
    exact h
  · exact .refl p

theorem store_settles (p : Party σ C O) (m : Message C) : p.SettlesTo (p.store m).2 := by
  unfold store
  split
  · split
    · exact ⟨Nat.le_refl _, fun _ => rfl⟩
    · exact .refl p
  all_goals exact .refl p

variable [Content C]

theorem update_settles (p : Party σ C O) (m : Message C) : p.SettlesTo (p.update m).2 := by
  unfold update
  split
  · exact .refl p
  · split
    · rename_i q hq
      have h := p.store_settles m
      rwa [hq] at h
    · rename_i q hq
      have h := p.store_settles m
      rw [hq] at h
      exact h.trans q.advance_settles

theorem updateFromBytes_settles (p : Party σ C O) (bytes : Bytes) (sender : PartyId)
    (isBroadcast : Bool) : p.SettlesTo (p.updateFromBytes bytes sender isBroadcast).2 := by
  unfold updateFromBytes
  split
  · exact .refl p
  · exact p.update_settles _

end Party

namespace OrderedParty

variable {σ C O : Type} [Content C]

theorem drain_settles (queue : List (Message C)) (advanced : Bool) (p : Party σ C O) :
    p.SettlesTo (drain queue advanced p).2.party := by
  induction queue generalizing advanced p with
  | nil => exact .refl p
  | cons m rest ih =>
      unfold drain
      split
      · exact .refl p
      · split
        · exact .refl p
        · split
          · exact .refl p
          · split
            · exact ih advanced p
            · have h := p.update_settles m
              split <;> rename_i q hq <;> rw [hq] at h
              · exact h
              · exact h.trans (ih _ q)

theorem update_settles (p : OrderedParty σ C O) (m : Message C) :
    p.party.SettlesTo (p.update m).2.party := by
  unfold update
  split
  · exact .refl _
  · split
    · exact .refl _
    · split
      · exact .refl _
      · have h := p.party.update_settles m
        split <;> rename_i q hq <;> rw [hq] at h
        · exact h
        · exact h.trans (drain_settles p.queue _ q)

end OrderedParty

end ThresholdKeys
