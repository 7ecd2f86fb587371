import Mathlib
import ThresholdKeys.Engine.Party
import ThresholdKeys.Proofs.Result

/-!
# Runs of a party

A host calls a party in any order and with any messages. Every call is a sequence of moves: a round
is entered, the checklist is brought up to date, a message is stored, the run ends. Whatever the
rounds of a protocol keep on entry and on storing, every run of a party keeps.
-/

namespace ThresholdKeys

inductive Call (C : Type)
  | start
  | update (m : Message C)
  | updateFromBytes (bytes : Bytes) (sender : PartyId) (isBroadcast : Bool)
  | store (m : Message C)
  | closeOutbox
  | closeResults

namespace Party

variable {σ C O : Type}

section Calls

variable [Content C]

def after (p : Party σ C O) : Call C → Party σ C O
  | .start => p.start.2
  | .update m => (p.update m).2
  | .updateFromBytes bytes sender isBroadcast => (p.updateFromBytes bytes sender isBroadcast).2
  | .store m => (p.store m).2
  | .closeOutbox => { p with outbox := p.outbox.close }
  | .closeResults => { p with results := p.results.close }

def run (p : Party σ C O) (calls : List (Call C)) : Party σ C O := calls.foldl after p

theorem run_append (p : Party σ C O) (calls calls' : List (Call C)) :
    p.run (calls ++ calls') = (p.run calls).run calls' :=
  List.foldl_append

theorem run_concat (p : Party σ C O) (calls : List (Call C)) (c : Call C) :
    p.run (calls ++ [c]) = (p.run calls).after c :=
  p.run_append calls [c]

end Calls

/-! ## Taking a message -/

section Take

variable {p : Party σ C O} {m : Message C} {checklist : Checklist} {round : Round σ C O}
  {later : List (Round σ C O)}

theorem store_cases (p : Party σ C O) (m : Message C) :
    (∃ problem, p.store m = (.error (.caller problem), p)) ∨
      ∃ checklist round later, p.stage = .active checklist round later := by
  unfold store
  cases p.stage with
  | active checklist round later => exact Or.inr ⟨checklist, round, later, rfl⟩
  | notStarted | finished | failed => exact Or.inl ⟨_, rfl⟩

theorem advance_of_stage (hp : p.stage = .active checklist round later) :
    p.advance = proceed later round checklist false p := by
  unfold advance
  rw [hp]

theorem store_of_ok (hp : p.stage = .active checklist round later) {s : σ}
    (hs : p.protocol.store p.state m = .ok s) : p.store m = (.ok (), { p with state := s }) := by
  unfold store
  rw [hp]
  dsimp only
  rw [hs]

theorem store_of_error (hp : p.stage = .active checklist round later) {e : Error}
    (hs : p.protocol.store p.state m = .error e) : p.store m = (.error e, p) := by
  unfold store
  rw [hp]
  dsimp only
  rw [hs]

variable [Content C]

theorem update_of_validate_error {e : Error} (h : p.validate m = .error e) :
    p.update m = (.error e, p) := by
  unfold update
  rw [h]

theorem update_of_store {e : Error} (hvalid : p.validate m = .ok ())
    (h : p.store m = (.error e, p)) : p.update m = (.error e, p) := by
  unfold update
  rw [hvalid, h]

/-- A message that passes the checks and is stored makes the party look for progress. -/
theorem update_eq_proceed (hp : p.stage = .active checklist round later)
    (hvalid : p.validate m = .ok ()) {s : σ} (hs : p.protocol.store p.state m = .ok s) :
    p.update m = proceed later round checklist false { p with state := s } := by
  unfold update
  rw [hvalid, store_of_ok hp hs]
  exact advance_of_stage (p := { p with state := s }) hp

theorem update_of_store_error (hp : p.stage = .active checklist round later)
    (hvalid : p.validate m = .ok ()) {e : Error} (hs : p.protocol.store p.state m = .error e) :
    p.update m = (.error e, p) :=
  update_of_store hvalid (store_of_error hp hs)

/-- A message changes nothing, or a party that is in a round stores it and looks for progress. -/
theorem update_spec (p : Party σ C O) (m : Message C) :
    (∃ e, p.update m = (.error e, p)) ∨
      ∃ checklist round later s, p.stage = .active checklist round later ∧
        p.validate m = .ok () ∧ p.protocol.store p.state m = .ok s ∧
        p.update m = proceed later round checklist false { p with state := s } := by
  cases hvalid : p.validate m with
  | error e => exact Or.inl ⟨e, update_of_validate_error hvalid⟩
  | ok u =>
      rcases p.store_cases m with ⟨_, hstore⟩ | ⟨checklist, round, later, hp⟩
      · exact Or.inl ⟨_, update_of_store hvalid hstore⟩
      · cases hs : p.protocol.store p.state m with
        | error e => exact Or.inl ⟨e, update_of_store_error hp hvalid hs⟩
        | ok s =>
            exact Or.inr ⟨checklist, round, later, s, hp, rfl, rfl, update_eq_proceed hp hvalid hs⟩

end Take

/-! ## Moves -/

inductive Moves : Party σ C O → Party σ C O → Prop
  | enterFirst {p q : Party σ C O} {first : Round σ C O} {later : List (Round σ C O)}
      {checklist : Checklist} (hp : p.stage = .notStarted first later)
      (h : p.enter first = .ok (q, checklist)) :
      Moves p { q with stage := .active checklist first later }
  | look {p : Party σ C O} {checklist : Checklist} {round : Round σ C O}
      {later : List (Round σ C O)} (hp : p.stage = .active checklist round later) :
      Moves p { p with
        stage := .active (checklist.tickWhere (round.hasArrived p.state)) round later }
  | enterNext {p q : Party σ C O} {checklist checklist' : Checklist} {round next : Round σ C O}
      {later : List (Round σ C O)} (hp : p.stage = .active checklist round (next :: later))
      (hdone : checklist.isComplete = true) (h : p.enter next = .ok (q, checklist')) :
      Moves p { q with stage := .active checklist' next later }
  | finish {p : Party σ C O} {checklist : Checklist} {round : Round σ C O}
      (hp : p.stage = .active checklist round []) (hdone : checklist.isComplete = true) :
      Moves p { p with stage := .finished }
  | failFirst {p : Party σ C O} {first : Round σ C O} {later : List (Round σ C O)}
      (hp : p.stage = .notStarted first later) : Moves p { p with stage := .failed }
  | fail {p : Party σ C O} {checklist : Checklist} {round : Round σ C O}
      {later : List (Round σ C O)} (hp : p.stage = .active checklist round later) :
      Moves p { p with stage := .failed }
  | store {p : Party σ C O} {checklist : Checklist} {round : Round σ C O}
      {later : List (Round σ C O)} {m : Message C} {s : σ}
      (hp : p.stage = .active checklist round later) (h : p.protocol.store p.state m = .ok s) :
      Moves p { p with state := s }
  | closeOutbox (p : Party σ C O) : Moves p { p with outbox := p.outbox.close }
  | closeResults (p : Party σ C O) : Moves p { p with results := p.results.close }

/-- What entering a round does to a party that succeeds in it. -/
theorem enter_eq_ok_iff {p q : Party σ C O} {round : Round σ C O} {checklist : Checklist} :
    p.enter round = .ok (q, checklist) ↔
      ∃ entry outbox results, round.enter p.state = .ok entry ∧
        p.outbox.send entry.sent = .ok outbox ∧ p.results.send entry.result.toList = .ok results ∧
        q = { p with state := entry.state, outbox, results } ∧
        checklist = entry.ticked.foldl .tick
          { Checklist.new p.protocol.task round.number round.expected with started := true } := by
  simp only [enter, Checklist.markStarted, Checklist.new, Bool.false_eq_true, if_false,
    Result.bind_eq_ok_iff, Except.ok.injEq, Result.pure_eq_ok, Prod.mk.injEq]
  constructor
  · rintro ⟨_, rfl, entry, hentry, outbox, houtbox, results, hresults, rfl, rfl⟩
    exact ⟨entry, outbox, results, hentry, houtbox, hresults, rfl, rfl⟩
  · rintro ⟨entry, outbox, results, hentry, houtbox, hresults, rfl, rfl⟩
    exact ⟨_, rfl, entry, hentry, outbox, houtbox, results, hresults, rfl, rfl⟩

/-- Entering a round does not look at the stage. -/
theorem enter_withStage (p : Party σ C O) (stage : Stage σ C O) (round : Round σ C O) :
    enter { p with stage } round =
      (p.enter round).map fun (q, checklist) => ({ q with stage }, checklist) := by
  unfold enter
  cases (Checklist.new p.protocol.task round.number round.expected).markStarted with
  | error e => rfl
  | ok c =>
      cases round.enter p.state with
      | error e => rfl
      | ok entry =>
          cases ho : p.outbox.send entry.sent with
          | error e => simp [ho, Except.map]
          | ok outbox =>
              cases hr : p.results.send entry.result.toList with
              | error e => simp [ho, hr, Except.map]
              | ok results => simp [ho, hr, Except.map]

theorem proceed_withStage (later : List (Round σ C O)) (round : Round σ C O)
    (checklist : Checklist) (advanced : Bool) (p : Party σ C O) (stage : Stage σ C O) :
    proceed later round checklist advanced { p with stage } =
      proceed later round checklist advanced p := by
  induction later generalizing round checklist advanced p with
  | nil =>
      unfold proceed
      cases round.inspect p.state <;> rfl
  | cons next later ih =>
      unfold proceed
      cases round.inspect p.state with
      | error e => rfl
      | ok u =>
          dsimp only
          split
          · rw [enter_withStage]
            cases p.enter next with
            | error e => rfl
            | ok r => exact ih next r.2 true r.1
          · rfl

theorem moves_proceed (later : List (Round σ C O)) (round : Round σ C O) (checklist : Checklist)
    (advanced : Bool) (p : Party σ C O) (hp : p.stage = .active checklist round later) :
    Relation.ReflTransGen Moves p (proceed later round checklist advanced p).2 := by
  induction later generalizing round checklist advanced p with
  | nil =>
      unfold proceed
      cases round.inspect p.state with
      | error e => exact .single (.fail hp)
      | ok u =>
          dsimp only
          split
          · rename_i hdone
            exact .head (.look hp) (.single (.finish rfl hdone))
          · exact .single (.look hp)
  | cons next later ih =>
      unfold proceed
      cases round.inspect p.state with
      | error e => exact .single (.fail hp)
      | ok u =>
          dsimp only
          split
          · rename_i hdone
            refine .head (.look hp) ?_
            cases he : p.enter next with
            | error e => exact .single (.fail rfl)
            | ok r =>
                obtain ⟨q, checklist'⟩ := r
                have hlook := enter_withStage p (.active (checklist.tickWhere (round.hasArrived p.state))
                  round (next :: later)) next
                rw [he] at hlook
                refine .head (.enterNext rfl hdone hlook) ?_
                have hrest := ih next checklist' true { q with stage := .active checklist' next later } rfl
                rwa [proceed_withStage] at hrest
          · exact .single (.look hp)

theorem moves_start (p : Party σ C O) : Relation.ReflTransGen Moves p p.start.2 := by
  unfold start
  split
  · rename_i first later hp
    cases first.prepare p.state with
    | error e => exact .single (.failFirst hp)
    | ok u =>
        cases he : p.enter first with
        | error e => exact .single (.failFirst hp)
        | ok r =>
            obtain ⟨q, checklist⟩ := r
            refine .head (.enterFirst hp he) ?_
            have hrest := moves_proceed later first checklist false
              { q with stage := .active checklist first later } rfl
            rwa [proceed_withStage] at hrest
  · exact .refl

theorem moves_store (p : Party σ C O) (m : Message C) :
    Relation.ReflTransGen Moves p (p.store m).2 := by
  unfold store
  split
  · rename_i hp
    cases hs : p.protocol.store p.state m with
    | error e => exact .refl
    | ok s => exact .single (.store hp hs)
  all_goals exact .refl

variable [Content C]

theorem moves_update (p : Party σ C O) (m : Message C) :
    Relation.ReflTransGen Moves p (p.update m).2 := by
  rcases p.update_spec m with ⟨e, h⟩ | ⟨checklist, round, later, s, hp, -, hs, h⟩
  · rw [h]
  · rw [h]
    exact .head (.store hp hs) (moves_proceed later round checklist false { p with state := s } hp)

theorem moves_updateFromBytes (p : Party σ C O) (bytes : Bytes) (sender : PartyId)
    (isBroadcast : Bool) :
    Relation.ReflTransGen Moves p (p.updateFromBytes bytes sender isBroadcast).2 := by
  unfold updateFromBytes
  split
  · exact .refl
  · exact p.moves_update _

/-- Every call is a sequence of moves. -/
theorem moves_after (p : Party σ C O) (c : Call C) :
    Relation.ReflTransGen Moves p (p.after c) := by
  cases c with
  | start => exact p.moves_start
  | update m => exact p.moves_update m
  | updateFromBytes bytes sender isBroadcast =>
      exact p.moves_updateFromBytes bytes sender isBroadcast
  | store m => exact p.moves_store m
  | closeOutbox => exact .single (.closeOutbox p)
  | closeResults => exact .single (.closeResults p)

theorem moves_run (p : Party σ C O) (calls : List (Call C)) :
    Relation.ReflTransGen Moves p (p.run calls) := by
  induction calls generalizing p with
  | nil => exact .refl
  | cons c calls ih => exact (p.moves_after c).trans (ih (p.after c))

end Party

end ThresholdKeys
