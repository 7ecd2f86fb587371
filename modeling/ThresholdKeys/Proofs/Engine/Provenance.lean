import Mathlib
import ThresholdKeys.Proofs.Engine.Outcome

/-!
# Where messages come from

If all messages that a party is handed have a property in common, its run is the run of a party
whose protocol refuses all others. So what such runs keep may depend on where messages come from.
-/

namespace ThresholdKeys

variable {σ C O : Type}

open Classical in
/-- The protocol that refuses all messages without the property. -/
noncomputable def Protocol.only (protocol : Protocol σ C O) (P : Message C → Prop) :
    Protocol σ C O where
  task := protocol.task
  store s m := if P m then protocol.store s m else .error .brokenInvariant

variable {P : Message C → Prop}

theorem Protocol.store_only {m : Message C} (hm : P m) (protocol : Protocol σ C O) (s : σ) :
    (protocol.only P).store s m = protocol.store s m :=
  if_pos hm

theorem Protocol.store_only_eq_ok_iff {protocol : Protocol σ C O} {s s' : σ} {m : Message C} :
    (protocol.only P).store s m = .ok s' ↔ P m ∧ protocol.store s m = .ok s' := by
  by_cases hm : P m
  · rw [store_only hm]
    exact (and_iff_right hm).symm
  · simp [only, hm]

/-- A call hands over only messages with the property. -/
def Call.Within [Content C] (P : Message C → Prop) : Call C → Prop
  | .update m | .store m => P m
  | .updateFromBytes bytes sender _ => ∀ recipients isBroadcast m,
      Message.ofWire bytes sender recipients isBroadcast = .ok m → P m
  | .start | .closeOutbox | .closeResults => True

theorem Call.Within.imp [Content C] {c : Call C} {P' : Message C → Prop} (hc : c.Within P)
    (hP : ∀ m, P m → P' m) : c.Within P' := by
  cases c with
  | update m | store m => exact hP m hc
  | updateFromBytes bytes sender isBroadcast =>
      exact fun recipients isBroadcast m hm => hP m (hc recipients isBroadcast m hm)
  | start | closeOutbox | closeResults => trivial

namespace Party

noncomputable def only (p : Party σ C O) (P : Message C → Prop) : Party σ C O :=
  { p with protocol := p.protocol.only P }

@[simp] theorem state_only (p : Party σ C O) : (p.only P).state = p.state := rfl

@[simp] theorem stage_only (p : Party σ C O) : (p.only P).stage = p.stage := rfl

/-- Rounds do not look at the protocol. -/
theorem enter_only (p : Party σ C O) (round : Round σ C O) :
    (p.only P).enter round =
      (p.enter round).map fun (q, checklist) => (q.only P, checklist) := by
  unfold enter only
  dsimp only [Protocol.only]
  cases (Checklist.new p.protocol.task round.number round.expected).markStarted with
  | error e => rfl
  | ok c =>
      cases round.enter p.state with
      | error e => rfl
      | ok entry =>
          cases houtbox : p.outbox.send entry.sent with
          | error e => simp [houtbox, Except.map]
          | ok outbox =>
              cases hresults : p.results.send entry.result.toList with
              | error e => simp [houtbox, hresults, Except.map]
              | ok results => simp [houtbox, hresults, Except.map]

theorem proceed_only (later : List (Round σ C O)) (round : Round σ C O) (checklist : Checklist)
    (advanced : Bool) (p : Party σ C O) :
    proceed later round checklist advanced (p.only P) =
      ((proceed later round checklist advanced p).1,
        (proceed later round checklist advanced p).2.only P) := by
  induction later generalizing round checklist advanced p with
  | nil =>
      unfold proceed
      rw [state_only]
      cases round.inspect p.state with
      | error e => rfl
      | ok u =>
          dsimp only
          split <;> rfl
  | cons next later ih =>
      unfold proceed
      rw [state_only]
      cases round.inspect p.state with
      | error e => rfl
      | ok u =>
          dsimp only
          split
          · rw [enter_only]
            cases p.enter next with
            | error e => rfl
            | ok r => exact ih next r.2 true r.1
          · rfl

theorem start_only (p : Party σ C O) : (p.only P).start = (p.start.1, p.start.2.only P) := by
  unfold start
  rw [stage_only, state_only]
  cases p.stage with
  | notStarted first later =>
      dsimp only
      cases first.prepare p.state with
      | error e => rfl
      | ok u =>
          dsimp only
          rw [enter_only]
          cases p.enter first with
          | error e => rfl
          | ok r =>
              change ((proceed later first r.2 false (r.1.only P)).1.map fun _ => (),
                (proceed later first r.2 false (r.1.only P)).2) = _
              rw [proceed_only]
  | active _ _ _ | finished | failed => rfl

theorem advance_only (p : Party σ C O) :
    (p.only P).advance = (p.advance.1, p.advance.2.only P) := by
  unfold advance
  rw [stage_only]
  cases p.stage with
  | active checklist round later => exact proceed_only ..
  | notStarted _ _ | finished | failed => rfl

theorem store_only (p : Party σ C O) {m : Message C} (hm : P m) :
    (p.only P).store m = ((p.store m).1, (p.store m).2.only P) := by
  unfold store
  rw [stage_only, state_only]
  cases p.stage with
  | active _ _ _ =>
      dsimp only [only]
      rw [Protocol.store_only hm]
      cases p.protocol.store p.state m <;> rfl
  | notStarted _ _ | finished | failed => rfl

section Calls

variable [Content C]

theorem validate_only (p : Party σ C O) (m : Message C) : (p.only P).validate m = p.validate m := rfl

theorem update_only (p : Party σ C O) {m : Message C} (hm : P m) :
    (p.only P).update m = ((p.update m).1, (p.update m).2.only P) := by
  unfold update
  rw [validate_only]
  cases p.validate m with
  | error e => rfl
  | ok u =>
      dsimp only
      rw [store_only p hm]
      obtain ⟨r, q⟩ := p.store m
      cases r with
      | error e => rfl
      | ok u => exact q.advance_only

theorem after_only (p : Party σ C O) {c : Call C} (hc : c.Within P) :
    (p.only P).after c = (p.after c).only P := by
  cases c with
  | start => exact congrArg Prod.snd p.start_only
  | update m => exact congrArg Prod.snd (p.update_only hc)
  | updateFromBytes bytes sender isBroadcast =>
      unfold after updateFromBytes
      dsimp only [only]
      cases h : (Message.ofWire bytes sender (if isBroadcast then none else some [p.id])
          isBroadcast : Result (Message C)) with
      | error e => rfl
      | ok m => exact congrArg Prod.snd (p.update_only (hc _ _ m h))
  | store m => exact congrArg Prod.snd (p.store_only hc)
  | closeOutbox | closeResults => rfl

end Calls

section Keeps

variable {protocol : Protocol σ C O} {rounds : List (Round σ C O)}
  {Inv Also : ℕ → σ → List (Message C) → List O → Prop}

/-- What is kept given an invariant, if all messages have the property, can be added to it. -/
theorem Keeps.andOnly (hk : Keeps protocol rounds Inv)
    (henter : ∀ {k s sent results round entry}, rounds[k]? = some round → Inv k s sent results →
      Also k s sent results → (∀ l prev, k = l + 1 → rounds[l]? = some prev → AllArrived prev s) →
      round.enter s = .ok entry →
      Also (k + 1) entry.state (sent ++ entry.sent) (results ++ entry.result.toList))
    (hstore : ∀ {k s sent results m s'}, 0 < k → Inv k s sent results → Also k s sent results →
      P m → protocol.store s m = .ok s' → Also k s' sent results) :
    Keeps (protocol.only P) rounds
      fun k s sent results => Inv k s sent results ∧ Also k s sent results where
  enter hround h hall he := ⟨hk.enter hround h.1 hall he, henter hround h.1 h.2 hall he⟩
  ticked hround h he := hk.ticked hround h.1 he
  store hpos h hs := by
    obtain ⟨hm, hs⟩ := Protocol.store_only_eq_ok_iff.1 hs
    exact ⟨hk.store hpos h.1 hs, hstore hpos h.1 h.2 hm hs⟩
  arrived h hround hs hj := hk.arrived h.1 hround (Protocol.store_only_eq_ok_iff.1 hs).2 hj

theorem Follows.after_of_within [Content C] (hk : Keeps (protocol.only P) rounds Inv) {k : ℕ}
    {p : Party σ C O} (hp : Follows protocol rounds Inv k p) {c : Call C} (hc : c.Within P) :
    ∃ k', k ≤ k' ∧ Follows protocol rounds Inv k' (p.after c) := by
  have honly : Follows (protocol.only P) rounds Inv k (p.only P) :=
    ⟨congrArg (Protocol.only · P) hp.protocol, hp.stage, hp.inv⟩
  obtain ⟨k', hle, hafter⟩ := honly.run hk [c]
  rw [Party.run, List.foldl_cons, List.foldl_nil, after_only p hc] at hafter
  exact ⟨k', hle, (frame_of_moves (p.moves_after c)).1.trans hp.protocol, hafter.stage, hafter.inv⟩

end Keeps

end Party

end ThresholdKeys
