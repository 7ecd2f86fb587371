import Mathlib
import ThresholdKeys.Proofs.Engine.Role

/-!
# What a call ends in

Looking for progress ends the run, by an error or by finishing, or else it comes to a round that
still misses something. After the end of its run a party refuses every message and stays as it is.
-/

namespace ThresholdKeys

theorem Checklist.tickWhere_tickWhere (c : Checklist) (arrived arrived' : ℕ → Bool) :
    (c.tickWhere arrived).tickWhere arrived' = c.tickWhere fun j => arrived j || arrived' j := by
  simp only [tickWhere, List.mapIdx_mapIdx, Function.comp_def, Bool.or_assoc]

namespace Party

variable {σ C O : Type}

/-- The run of the party is over. -/
def HasEnded (p : Party σ C O) : Prop := p.stage = .finished ∨ p.stage = .failed

/-- Two parties with the same stage that have put out the same, whatever they hold. -/
structure Alike (p q : Party σ C O) : Prop where
  stage : q.stage = p.stage
  outbox : q.outbox = p.outbox
  results : q.results = p.results

namespace Alike

variable {p q r : Party σ C O}

theorem refl (p : Party σ C O) : p.Alike p := ⟨rfl, rfl, rfl⟩

theorem symm (h : p.Alike q) : q.Alike p := ⟨h.stage.symm, h.outbox.symm, h.results.symm⟩

theorem trans (h : p.Alike q) (h' : q.Alike r) : p.Alike r :=
  ⟨h'.stage.trans h.stage, h'.outbox.trans h.outbox, h'.results.trans h.results⟩

theorem roundNumber_eq (h : p.Alike q) : q.roundNumber = p.roundNumber := by
  rw [roundNumber, h.stage, roundNumber]

theorem waitingFor_eq (h : p.Alike q) : q.waitingFor = p.waitingFor := by
  rw [waitingFor, h.stage, waitingFor]

end Alike

theorem roundNumber_eq_ok_iff {p : Party σ C O} {number : ℕ} : p.roundNumber = .ok number ↔
    ∃ checklist round later, p.stage = .active checklist round later ∧ round.number = number := by
  unfold roundNumber
  cases p.stage with
  | active checklist round later =>
      simp only [Except.ok.injEq]
      exact ⟨fun h => ⟨_, _, _, rfl, h⟩, fun ⟨_, _, _, hs, h⟩ => by cases hs; exact h⟩
  | notStarted _ _ => simp
  | finished => simp
  | failed => simp

/-! ## Looking for progress -/

inductive Outcome : Result Bool × Party σ C O → Prop
  | failed {e : Error} {p : Party σ C O} (hp : p.stage = .failed) : Outcome (.error e, p)
  | finished {p : Party σ C O} (hp : p.stage = .finished) : Outcome (.ok true, p)
  | waits {advanced : Bool} {p : Party σ C O} {checklist : Checklist} {round : Round σ C O}
      {later : List (Round σ C O)} (hp : p.stage = .active checklist round later)
      (hticked : checklist.tickWhere (round.hasArrived p.state) = checklist)
      (hmissing : checklist.isComplete = false) : Outcome (.ok advanced, p)

section Proceed

variable {round next : Round σ C O} {later : List (Round σ C O)} {checklist : Checklist}
  {advanced : Bool} {p : Party σ C O} (hinspect : round.inspect p.state = .ok ())

include hinspect

theorem proceed_of_missing
    (hmissing : (checklist.tickWhere (round.hasArrived p.state)).isComplete = false) :
    proceed later round checklist advanced p = (.ok advanced, { p with
      stage := .active (checklist.tickWhere (round.hasArrived p.state)) round later }) := by
  unfold proceed
  rw [hinspect]
  dsimp only
  rw [if_neg (Bool.not_eq_true _ ▸ hmissing)]

theorem proceed_nil_of_complete
    (hdone : (checklist.tickWhere (round.hasArrived p.state)).isComplete = true) :
    proceed [] round checklist advanced p = (.ok true, { p with stage := .finished }) := by
  unfold proceed
  rw [hinspect]
  dsimp only
  rw [if_pos hdone]

theorem proceed_cons_of_complete
    (hdone : (checklist.tickWhere (round.hasArrived p.state)).isComplete = true) :
    proceed (next :: later) round checklist advanced p =
      match p.enter next with
      | .error e => p.fail e
      | .ok (q, checklist') => proceed later next checklist' true q := by
  rw [proceed, hinspect]
  exact if_pos hdone

end Proceed

/-- What is marked anyway may have been marked before. -/
theorem proceed_tickWhere (later : List (Round σ C O)) (round : Round σ C O)
    (checklist : Checklist) (advanced : Bool) (p : Party σ C O) {arrived : ℕ → Bool}
    (harrived : ∀ j, arrived j = true → round.hasArrived p.state j = true) :
    proceed later round (checklist.tickWhere arrived) advanced p =
      proceed later round checklist advanced p := by
  have hmarks : (checklist.tickWhere arrived).tickWhere (round.hasArrived p.state) =
      checklist.tickWhere (round.hasArrived p.state) := by
    rw [Checklist.tickWhere_tickWhere]
    congr 1
    funext j
    cases hj : arrived j with
    | false => exact Bool.false_or _
    | true => rw [harrived j hj, Bool.or_self]
  cases later <;> simp only [proceed, hmarks]

theorem outcome_proceed (later : List (Round σ C O)) (round : Round σ C O) (checklist : Checklist)
    (advanced : Bool) (p : Party σ C O) : Outcome (proceed later round checklist advanced p) := by
  induction later generalizing round checklist advanced p with
  | nil =>
      cases hinspect : round.inspect p.state with
      | error e =>
          rw [proceed, hinspect]
          exact .failed rfl
      | ok u =>
          cases hdone : (checklist.tickWhere (round.hasArrived p.state)).isComplete with
          | true =>
              rw [proceed_nil_of_complete hinspect hdone]
              exact .finished rfl
          | false =>
              rw [proceed_of_missing hinspect hdone]
              exact .waits rfl (by simp only [Checklist.tickWhere_tickWhere, Bool.or_self]) hdone
  | cons next later ih =>
      cases hinspect : round.inspect p.state with
      | error e =>
          rw [proceed, hinspect]
          exact .failed rfl
      | ok u =>
          cases hdone : (checklist.tickWhere (round.hasArrived p.state)).isComplete with
          | true =>
              rw [proceed_cons_of_complete hinspect hdone]
              cases p.enter next with
              | error e => exact .failed rfl
              | ok r => exact ih next r.2 true r.1
          | false =>
              rw [proceed_of_missing hinspect hdone]
              exact .waits rfl (by simp only [Checklist.tickWhere_tickWhere, Bool.or_self]) hdone

/-- What was reported before is only passed on. -/
theorem proceed_or (later : List (Round σ C O)) (round : Round σ C O) (checklist : Checklist)
    (before advanced : Bool) (p : Party σ C O) :
    proceed later round checklist (before || advanced) p =
      ((proceed later round checklist advanced p).1.map (before || ·),
        (proceed later round checklist advanced p).2) := by
  induction later generalizing round checklist advanced p with
  | nil =>
      unfold proceed
      cases round.inspect p.state with
      | error e => rfl
      | ok u =>
          dsimp only
          split <;> simp [Except.map]
  | cons next later ih =>
      unfold proceed
      cases round.inspect p.state with
      | error e => rfl
      | ok u =>
          dsimp only
          split
          · cases p.enter next with
            | error e => rfl
            | ok r =>
                dsimp only
                rw [← ih next r.2 true r.1, Bool.or_true]
          · simp [Except.map]

/-! ## Taking messages -/

theorem advance_of_hasEnded {p : Party σ C O} (hp : p.HasEnded) : p.advance = (.ok false, p) := by
  unfold advance
  rcases hp with hp | hp <;> rw [hp]

theorem store_of_hasEnded {p : Party σ C O} (hp : p.HasEnded) (m : Message C) :
    p.store m = (.error (.caller .alreadyTerminated), p) := by
  unfold store
  rcases hp with hp | hp <;> rw [hp]

theorem Moves.frame {p q : Party σ C O} (h : Moves p q) :
    q.protocol = p.protocol ∧ q.id = p.id ∧ q.senderLimit = p.senderLimit := by
  cases h with
  | enterFirst _ h =>
      obtain ⟨_, _, _, -, -, -, rfl, -⟩ := enter_eq_ok_iff.1 h
      exact ⟨rfl, rfl, rfl⟩
  | enterNext _ _ h =>
      obtain ⟨_, _, _, -, -, -, rfl, -⟩ := enter_eq_ok_iff.1 h
      exact ⟨rfl, rfl, rfl⟩
  | look _ | finish _ _ | failFirst _ | fail _ | store _ _ | closeOutbox | closeResults =>
      exact ⟨rfl, rfl, rfl⟩

theorem frame_of_moves {p q : Party σ C O} (h : Relation.ReflTransGen Moves p q) :
    q.protocol = p.protocol ∧ q.id = p.id ∧ q.senderLimit = p.senderLimit := by
  induction h with
  | refl => exact ⟨rfl, rfl, rfl⟩
  | tail _ hstep ih =>
      obtain ⟨hprotocol, hid, hlimit⟩ := hstep.frame
      exact ⟨hprotocol.trans ih.1, hid.trans ih.2.1, hlimit.trans ih.2.2⟩

variable [Content C]

theorem validate_eq_ok_congr {p q : Party σ C O}
    (h : q.protocol = p.protocol ∧ q.id = p.id ∧ q.senderLimit = p.senderLimit) (m : Message C) :
    q.validate m = .ok () ↔ p.validate m = .ok () := by
  rw [validate_eq_ok_iff, validate_eq_ok_iff, h.2.1, h.2.2]

theorem update_of_invalid {p : Party σ C O} {m : Message C} (h : p.validate m ≠ .ok ()) :
    (p.update m).2 = p := by
  cases hv : p.validate m with
  | error e => rw [update_of_validate_error hv]
  | ok u => exact absurd hv h

theorem update_of_hasEnded {p : Party σ C O} (hp : p.HasEnded) (m : Message C) :
    (p.update m).2 = p := by
  unfold update
  rw [store_of_hasEnded hp]
  split <;> rfl

theorem run_updates_of_hasEnded {p : Party σ C O} (hp : p.HasEnded) (messages : List (Message C)) :
    p.run (messages.map .update) = p := by
  induction messages with
  | nil => rfl
  | cons m rest ih =>
      rw [List.map_cons, run, List.foldl_cons]
      change run (p.update m).2 _ = p
      rw [update_of_hasEnded hp, ih]

section Wire

variable {p : Party σ C O} {bytes : Bytes} {sender : PartyId} {isBroadcast : Bool}

theorem updateFromBytes_of_undecodable {e : Error}
    (h : (Message.ofWire bytes sender (if isBroadcast then none else some [p.id]) isBroadcast :
      Result (Message C)) = .error e) :
    p.updateFromBytes bytes sender isBroadcast = (.error e, p) := by
  rw [updateFromBytes, h]

theorem updateFromBytes_eq_update {m : Message C}
    (h : Message.ofWire bytes sender (if isBroadcast then none else some [p.id]) isBroadcast =
      .ok m) : p.updateFromBytes bytes sender isBroadcast = p.update m := by
  rw [updateFromBytes, h]

variable (p bytes sender isBroadcast)

theorem updateFromBytes_cases :
    (∃ e, p.updateFromBytes bytes sender isBroadcast = (.error e, p)) ∨
      ∃ m, p.updateFromBytes bytes sender isBroadcast = p.update m := by
  cases hm : (Message.ofWire bytes sender (if isBroadcast then none else some [p.id]) isBroadcast :
      Result (Message C)) with
  | error e => exact Or.inl ⟨e, updateFromBytes_of_undecodable hm⟩
  | ok m => exact Or.inr ⟨m, updateFromBytes_eq_update hm⟩

end Wire

/-- A message changes nothing, or the party looks for progress after it. -/
theorem update_cases (p : Party σ C O) (m : Message C) :
    (∃ e, p.update m = (.error e, p)) ∨ Outcome (p.update m) := by
  refine (p.update_spec m).imp_right ?_
  rintro ⟨checklist, round, later, s, -, -, -, h⟩
  rw [h]
  exact outcome_proceed ..

end Party

end ThresholdKeys
