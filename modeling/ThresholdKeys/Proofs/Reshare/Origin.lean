import Mathlib
import ThresholdKeys.Proofs.Engine.Provenance
import ThresholdKeys.Proofs.Reshare.Emission

/-!
# Where the slots of a member come from

If all messages that a member is handed have a property in common, what stands in its slots has
come with such messages, or the member has put it there itself. What it has waited for is there.
-/

namespace ThresholdKeys.Reshare

variable {params : Parameters} {input : Input} {P : Message Payload → Prop} {k : ℕ} {s s' : State}
  {e : Step} {sent : List (Message Payload)} {results : List Outcome}

/-- The commitment has come with a message, or it is the member's own from round 1. -/
def State.CommitFrom (s : State) (P : Message Payload → Prop) (k j : ℕ) (c : Commitment) : Prop :=
  (∃ m, P m ∧ s.params.old.seat? m.sender = some j ∧ m.content = .commit c) ∨
    1 ≤ k ∧ s.params.oldIndex? = some j ∧ ∃ d, s.dealt = some d ∧ d.2.commitment = c

/-- The acknowledgement has come with a message, or it is the member's own from round 2. -/
def State.AckFrom (s : State) (P : Message Payload → Prop) (k j : ℕ) : Prop :=
  (∃ m, P m ∧ s.params.new.seat? m.sender = some j ∧ m.content = .ack) ∨
    2 ≤ k ∧ s.params.newIndex? = some j

section From

variable {P' : Message Payload → Prop} {k' j : ℕ} (hP : ∀ m, P m → P' m) (hk : k ≤ k')

include hP hk

theorem State.CommitFrom.imp {c : Commitment} (h : s.CommitFrom P k j c) :
    s.CommitFrom P' k' j c :=
  Or.imp (fun ⟨m, hm, hfrom⟩ => ⟨m, hP m hm, hfrom⟩) (fun ⟨hk', hown⟩ => ⟨hk'.trans hk, hown⟩) h

theorem State.AckFrom.imp (h : s.AckFrom P k j) : s.AckFrom P' k' j :=
  Or.imp (fun ⟨m, hm, hfrom⟩ => ⟨m, hP m hm, hfrom⟩) (fun ⟨hk', hown⟩ => ⟨hk'.trans hk, hown⟩) h

end From

/-- Where the slots have come from, and what a member has waited for. -/
structure State.Stems (P : Message Payload → Prop) (k : ℕ) (s : State) (results : List Outcome) :
    Prop where
  commits : ∀ {j c}, s.commits.item? j = some c → s.CommitFrom P k j c
  acks : ∀ {j u}, s.acks.item? j = some u → s.AckFrom P k j
  acknowledged : 3 ≤ k → s.params.isOld = true → ∀ j < s.params.new.size, hasAck s j = true
  retired : .retired ∈ results → 4 ≤ k ∧ s.params.isNew = false

theorem State.Stems.imp {P' : Message Payload → Prop} (h : s.Stems P k results)
    (hP : ∀ m, P m → P' m) : s.Stems P' k results where
  commits hj := (h.commits hj).imp hP le_rfl
  acks hj := (h.acks hj).imp hP le_rfl
  acknowledged := h.acknowledged
  retired := h.retired

theorem State.Stems.store {m : Message Payload} (h : s.Stems P k results) (hm : P m)
    (hs : s.Takes m s') : s'.Stems P k results := by
  have hacknowledged : 3 ≤ k → s'.params.isOld = true → ∀ j < s'.params.new.size,
      hasAck s' j = true := by
    rw [hs.extends.params]
    exact fun hk hold j hj => hasAck_mono hs.extends (h.acknowledged hk hold j hj)
  cases hs with
  | nothing | share _ _ | reveal _ _ => exact ⟨h.commits, h.acks, hacknowledged, h.retired⟩
  | commit hcontent hseat =>
      refine ⟨fun hj => ?_, h.acks, hacknowledged, h.retired⟩
      rcases Slots.item?_store hj with hj | ⟨rfl, rfl⟩
      · exact h.commits hj
      · exact Or.inl ⟨m, hm, hseat, hcontent⟩
  | ack hcontent hseat =>
      refine ⟨h.commits, fun hj => ?_, hacknowledged, h.retired⟩
      rcases Slots.item?_store hj with hj | ⟨rfl, rfl⟩
      · exact h.acks hj
      · exact Or.inl ⟨m, hm, hseat, hcontent⟩

/-! ## The rounds keep it -/

theorem State.Stems.enterCommit (h : s.Stems P 0 results) (hs : s.Prepared params input)
    (hcheck : input.check params = .ok ()) (he : enterCommit s = .ok e) :
    e.state.Stems P 1 (results ++ e.result.toList) := by
  have hacks {j : ℕ} {u : Unit} (hj : s.acks.item? j = some u) := (h.acks hj).resolve_right
    fun hk => absurd hk.1 (by omega)
  have hcommits {j : ℕ} {c : Commitment} (hj : s.commits.item? j = some c) :=
    (h.commits hj).resolve_right fun hk => absurd hk.1 (by omega)
  have hretired (hr : Outcome.retired ∈ results) : False := absurd (h.retired hr).1 (by omega)
  cases hi : s.params.oldIndex? with
  | none =>
      rw [enterCommit_of_notOld hi] at he
      obtain rfl := Except.ok.inj he
      exact ⟨fun hj => Or.inl (hcommits hj), fun hj => Or.inl (hacks hj),
        fun hk => absurd hk (by omega), fun hr => (hretired (by simpa using hr)).elim⟩
  | some i =>
      obtain ⟨d, source, -, rfl⟩ := exists_dealt hs hcheck hi he
      refine ⟨fun {j c} hj => ?_, fun hj => Or.inl (hacks hj), fun hk => absurd hk (by omega),
        fun hr => (hretired (by simpa using hr)).elim⟩
      dsimp only at hj ⊢
      have hitem : s.commits.item? j = some c ∨ i = j ∧ d.2.commitment = c := by
        split at hj
        · exact Slots.item?_put hj
        · exact Or.inl hj
      rcases hitem with hj | ⟨rfl, rfl⟩
      · exact Or.inl (hcommits hj)
      · exact Or.inr ⟨le_rfl, hi, d, rfl, rfl⟩

theorem State.Stems.enterAck (h : s.Stems P 1 results) (he : enterAck s = .ok e) :
    e.state.Stems P 2 (results ++ e.result.toList) := by
  have hretired (hr : Outcome.retired ∈ results) : False := absurd (h.retired hr).1 (by omega)
  have hcommits {j : ℕ} {c : Commitment} (hj : s.commits.item? j = some c) :=
    (h.commits hj).imp (fun _ => id) one_le_two
  have hacks {j : ℕ} {u : Unit} (hj : s.acks.item? j = some u) := (h.acks hj).resolve_right
    fun hk => absurd hk.1 (by omega)
  cases hi : s.params.newIndex? with
  | none =>
      rw [enterAck_of_notNew hi] at he
      obtain rfl := Except.ok.inj he
      exact ⟨hcommits, fun hj => Or.inl (hacks hj), fun hk => absurd hk (by omega),
        fun hr => (hretired (by simpa using hr)).elim⟩
  | some i =>
      cases hme : s.params.newId with
      | none => rw [Parameters.newIndex?, hme] at hi; cases hi
      | some me =>
          rw [enterAck_eq hi hme] at he
          obtain rfl := Except.ok.inj he
          refine ⟨hcommits, fun {j u} hj => ?_, fun hk => absurd hk (by omega),
            fun hr => (hretired (by simpa using hr)).elim⟩
          dsimp only at hj ⊢
          have hitem : s.acks.item? j = some u ∨ i = j := by
            split at hj
            · exact (Slots.item?_put hj).imp_right And.left
            · exact Or.inl hj
          rcases hitem with hj | rfl
          · exact Or.inl (hacks hj)
          · exact Or.inr ⟨le_rfl, hi⟩

theorem State.Stems.enterReveal (h : s.Stems P 2 results)
    (hall : s.params.isOld = true → ∀ j < s.params.new.size, hasAck s j = true)
    (he : enterReveal s = .ok e) : e.state.Stems P 3 (results ++ e.result.toList) := by
  have hretired (hr : Outcome.retired ∈ results) : False := absurd (h.retired hr).1 (by omega)
  have hcommits {j : ℕ} {c : Commitment} (hj : s.commits.item? j = some c) :=
    (h.commits hj).imp (fun _ => id) (show 2 ≤ 3 by omega)
  have hacks {j : ℕ} {u : Unit} (hj : s.acks.item? j = some u) :=
    (h.acks hj).imp (fun _ => id) (show 2 ≤ 3 by omega)
  cases hi : s.params.oldIndex? with
  | none =>
      rw [enterReveal_of_notOld hi] at he
      obtain rfl := Except.ok.inj he
      exact ⟨hcommits, hacks, fun _ => hall, fun hr => (hretired (by simpa using hr)).elim⟩
  | some i =>
      obtain ⟨_, _, _, -, -, rfl⟩ := (enterReveal_eq_ok_iff hi).1 he
      exact ⟨hcommits, hacks, fun _ => hall, fun hr => (hretired (by simpa using hr)).elim⟩

theorem State.Stems.enterConclude (h : s.Stems P 3 results) (he : enterConclude s = .ok e) :
    e.state.Stems P 4 (results ++ e.result.toList) := by
  have hretired (hr : Outcome.retired ∈ results) : False := absurd (h.retired hr).1 (by omega)
  have hentered : e.state = s ∧ (.retired ∈ e.result.toList → s.params.isNew = false) := by
    have hresult := enterConclude_eq_ok_iff.1 he
    split at hresult
    · obtain ⟨k, -, rfl⟩ := hresult
      exact ⟨rfl, fun hr => by cases (Option.some.inj (Option.mem_toList.1 hr))⟩
    · rename_i hnew
      subst hresult
      exact ⟨rfl, fun _ => Bool.eq_false_iff.2 hnew⟩
  rw [hentered.1]
  refine ⟨fun hj => (h.commits hj).imp (fun _ => id) (by omega),
    fun hj => (h.acks hj).imp (fun _ => id) (by omega),
    fun _ => h.acknowledged le_rfl, fun hr => ⟨le_rfl, ?_⟩⟩
  rcases List.mem_append.1 hr with hr | hr
  · exact (hretired hr).elim
  · exact hentered.2 hr

def Invariant.Traced (params : Parameters) (input : Input) (P : Message Payload → Prop) (k : ℕ)
    (s : State) (sent : List (Message Payload)) (results : List Outcome) : Prop :=
  Invariant.WithSent params input k s sent results ∧ s.Stems P k results

theorem keeps_traced (hindex : ∀ l, params.newIndex? = some l → l < params.new.size)
    (hcheck : input.check params = .ok ()) (P : Message Payload → Prop) :
    Party.Keeps (protocol.only P) (rounds params) (Invariant.Traced params input P) :=
  (keeps_withSent hindex hcheck).andOnly
    (fun {k s sent results round entry} hround hinv hstems hall he => by
      have hs := hinv.1.prepared
      rcases getElem?_rounds hround with ⟨rfl, rfl⟩ | ⟨rfl, rfl⟩ | ⟨rfl, rfl⟩ | ⟨rfl, rfl⟩
      · exact hstems.enterCommit hs hcheck he
      · exact hstems.enterAck he
      · refine hstems.enterReveal (fun hold => ?_) he
        have harrived : ∀ j < (holders params).length, hasAck s j = true := hall 1 _ rfl rfl
        rw [hs.params_eq] at hold ⊢
        rwa [holders, if_pos hold] at harrived
      · exact hstems.enterConclude he)
    fun _ _ hstems hm hs => hstems.store hm (State.takes_of_store hs)

theorem follows_traced {source : Source} {p : Party State Payload Outcome}
    (hp : newParty params input source = .ok p) (P : Message Payload → Prop) :
    Party.Follows protocol (rounds params) (Invariant.Traced params input P) 0 p := by
  have hfollows := follows_withSent hp
  obtain ⟨s, hs, hp⟩ := Result.bind_eq_ok_iff.1 hp
  obtain rfl := Except.ok.inj hp
  obtain ⟨u, -, hs⟩ := Result.bind_eq_ok_iff.1 hs
  obtain ⟨oldPoints, -, hs⟩ := Result.bind_eq_ok_iff.1 hs
  obtain ⟨newPoints, -, hs⟩ := Result.bind_eq_ok_iff.1 hs
  obtain rfl := Except.ok.inj hs
  have hempty {α : Type} {n j : ℕ} {x : α} (h : (Slots.empty n : Slots α).item? j = some x) :
      False := by
    rw [Slots.item?, Slots.get?_empty] at h
    cases h
  exact ⟨hfollows.protocol, hfollows.stage, hfollows.inv, fun h => (hempty h).elim,
    fun h => (hempty h).elim, fun hk => absurd hk (by omega), fun hr => absurd hr List.not_mem_nil⟩

end ThresholdKeys.Reshare
