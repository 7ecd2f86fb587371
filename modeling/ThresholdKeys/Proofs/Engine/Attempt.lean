import Mathlib
import ThresholdKeys.Proofs.Engine.Outcome

/-!
# Attempts at a round

One call may take a party through several rounds. A call attempts a round if the party gets so far
in it that this round is the next to be entered; what the call answers is then up to that round and
those after it. Whatever runs keep holds at such a moment too, and everything that the round before
waits for is there.
-/

namespace ThresholdKeys

theorem Channel.isOpen_of_send {α : Type} {c c' : Channel α} {items : List α}
    (h : c.send items = .ok c') : c'.isOpen = c.isOpen := by
  unfold Channel.send at h
  split at h
  · rw [Except.ok.inj h]
  · split at h
    · rw [← Except.ok.inj h]
    · cases h

namespace Party

variable {σ C O : Type}

/-- Looking for progress in a round, a party gets to the round `target`, with the rounds `after`
behind it, and is `q` by then. -/
inductive GetsTo (target : Round σ C O) (after : List (Round σ C O)) (q : Party σ C O) :
    List (Round σ C O) → Round σ C O → Checklist → Party σ C O → Prop
  | now {round : Round σ C O} {checklist : Checklist} (hinspect : round.inspect q.state = .ok ())
      (hdone : (checklist.tickWhere (round.hasArrived q.state)).isComplete = true) :
      GetsTo target after q (target :: after) round checklist q
  | later {later : List (Round σ C O)} {round next : Round σ C O} {checklist checklist' : Checklist}
      {p p' : Party σ C O} (hinspect : round.inspect p.state = .ok ())
      (hdone : (checklist.tickWhere (round.hasArrived p.state)).isComplete = true)
      (henter : p.enter next = .ok (p', checklist'))
      (h : GetsTo target after q later next checklist' p') :
      GetsTo target after q (next :: later) round checklist p

namespace GetsTo

variable {target round : Round σ C O} {after later : List (Round σ C O)} {p q : Party σ C O}
  {checklist : Checklist}

theorem proceed_eq (h : GetsTo target after q later round checklist p) (advanced : Bool) :
    proceed later round checklist advanced p =
      match q.enter target with
      | .error e => q.fail e
      | .ok (q', checklist') => proceed after target checklist' true q' := by
  induction h generalizing advanced with
  | now hinspect hdone => exact proceed_cons_of_complete hinspect hdone
  | later hinspect hdone henter _ ih =>
      rw [proceed_cons_of_complete hinspect hdone, henter]
      exact ih true

theorem moves (h : GetsTo target after q later round checklist p) :
    ∃ checklist' prev, Relation.ReflTransGen Moves { p with stage := .active checklist round later }
        { q with stage := .active checklist' prev (target :: after) } ∧
      checklist'.isComplete = true := by
  induction h with
  | now hinspect hdone => exact ⟨_, _, .single (.look rfl), hdone⟩
  | @later later round next checklist checklist' p p' hinspect hdone henter _ ih =>
      obtain ⟨checklist'', prev, hmoves, hcomplete⟩ := ih
      have hnext := enter_withStage p
        (.active (checklist.tickWhere (round.hasArrived p.state)) round (next :: later)) next
      rw [henter] at hnext
      exact ⟨checklist'', prev, .head (.look rfl) (.head (.enterNext rfl hdone hnext) hmoves),
        hcomplete⟩

theorem isOpen_results_of_enter {checklist : Checklist}
    (h : p.enter round = .ok (q, checklist)) : q.results.isOpen = p.results.isOpen := by
  obtain ⟨entry, outbox, results, -, -, hresults, rfl, -⟩ := enter_eq_ok_iff.1 h
  exact Channel.isOpen_of_send hresults

theorem isOpen_results (h : GetsTo target after q later round checklist p) :
    q.results.isOpen = p.results.isOpen := by
  induction h with
  | now _ _ => rfl
  | later _ _ henter _ ih => rw [ih, isOpen_results_of_enter henter]

end GetsTo

section Calls

variable [Content C]

/-- What a call answers, except for whether a round was left. -/
def answer (p : Party σ C O) : Call C → Result Unit
  | .start => p.start.1
  | .update m => (p.update m).1.map fun _ => ()
  | .updateFromBytes bytes sender isBroadcast =>
      (p.updateFromBytes bytes sender isBroadcast).1.map fun _ => ()
  | .store m => (p.store m).1
  | .closeOutbox | .closeResults => .ok ()

/-- In this call the party `p` gets to the round `target`, and is `q` by then. -/
inductive Attempts (target : Round σ C O) (q p : Party σ C O) : Call C → Prop
  | start {p' : Party σ C O} {first : Round σ C O} {later after : List (Round σ C O)}
      {checklist : Checklist} (hp : p.stage = .notStarted first later)
      (hprepare : first.prepare p.state = .ok ()) (henter : p.enter first = .ok (p', checklist))
      (h : GetsTo target after q later first checklist p') : Attempts target q p .start
  | update {m : Message C} {s : σ} {checklist : Checklist} {round : Round σ C O}
      {later after : List (Round σ C O)} (hp : p.stage = .active checklist round later)
      (hvalid : p.validate m = .ok ()) (hstore : p.protocol.store p.state m = .ok s)
      (h : GetsTo target after q later round checklist { p with state := s }) :
      Attempts target q p (.update m)
  | updateFromBytes {bytes : Bytes} {sender : PartyId} {isBroadcast : Bool} {m : Message C}
      (hm : Message.ofWire bytes sender (if isBroadcast then none else some [p.id]) isBroadcast =
        .ok m) (h : Attempts target q p (.update m)) :
      Attempts target q p (.updateFromBytes bytes sender isBroadcast)

namespace Attempts

variable {target : Round σ C O} {p q : Party σ C O} {c : Call C}

/-- An attempt comes after some moves, with the round before complete, and decides what the call
answers and what becomes of the party. -/
theorem spec (h : Attempts target q p c) : ∃ checklist prev after,
    Relation.ReflTransGen Moves p { q with stage := .active checklist prev (target :: after) } ∧
      checklist.isComplete = true ∧
      (p.answer c, p.after c) =
        match q.enter target with
        | .error e => (.error e, { q with stage := .failed })
        | .ok (q', checklist') => ((proceed after target checklist' true q').1.map fun _ => (),
            (proceed after target checklist' true q').2) := by
  induction h with
  | @start p' first later after checklist hp hprepare henter h =>
      obtain ⟨checklist', prev, hmoves, hcomplete⟩ := h.moves
      refine ⟨checklist', prev, after, .head (.enterFirst hp henter) hmoves, hcomplete, ?_⟩
      have hstart : p.start = ((proceed later first checklist false p').1.map fun _ => (),
          (proceed later first checklist false p').2) := by
        unfold Party.start
        rw [hp]
        dsimp only
        rw [hprepare, henter]
      rw [answer, Party.after, hstart, h.proceed_eq]
      cases q.enter target <;> rfl
  | @update m s checklist round later after hp hvalid hstore h =>
      obtain ⟨checklist', prev, hmoves, hcomplete⟩ := h.moves
      refine ⟨checklist', prev, after, .head (.store hp hstore) ?_, hcomplete, ?_⟩
      · rwa [← hp] at hmoves
      · rw [answer, Party.after, update_eq_proceed hp hvalid hstore, h.proceed_eq]
        cases q.enter target <;> rfl
  | updateFromBytes hm _ ih =>
      rw [answer, Party.after, Party.updateFromBytes, hm]
      exact ih

theorem moves (h : Attempts target q p c) : ∃ stage,
    Relation.ReflTransGen Moves p { q with stage } ∧
      Relation.ReflTransGen Moves { q with stage } (p.after c) := by
  obtain ⟨checklist, prev, after, hmoves, hcomplete, houtcome⟩ := h.spec
  refine ⟨_, hmoves, ?_⟩
  have hnext := enter_withStage q (.active checklist prev (target :: after)) target
  cases henter : q.enter target with
  | error e =>
      rw [henter] at houtcome
      rw [(Prod.mk.inj houtcome).2]
      exact .single (.fail rfl)
  | ok r =>
      obtain ⟨q', checklist'⟩ := r
      rw [henter] at houtcome hnext
      rw [(Prod.mk.inj houtcome).2]
      refine .head (.enterNext rfl hcomplete hnext) ?_
      have hrest := moves_proceed after target checklist' true
        { q' with stage := .active checklist' target after } rfl
      rwa [proceed_withStage] at hrest

theorem isOpen_results (h : Attempts target q p c) : q.results.isOpen = p.results.isOpen := by
  induction h with
  | start _ _ henter h => rw [h.isOpen_results, GetsTo.isOpen_results_of_enter henter]
  | update _ _ _ h => exact h.isOpen_results
  | updateFromBytes _ _ ih => exact ih

end Attempts

end Calls

/-! ## Failing to enter -/

theorem enter_eq_error {p : Party σ C O} {round : Round σ C O} {e : Error}
    (h : round.enter p.state = .error e) : p.enter round = .error e := by
  unfold enter
  rw [h]
  rfl

theorem error_of_enter {p : Party σ C O} {round : Round σ C O} {e : Error}
    (h : p.enter round = .error e) : round.enter p.state = .error e ∨ e = .brokenInvariant := by
  have hsend {α : Type} {c : Channel α} {items : List α} {e' : Error}
      (hc : c.send items = .error e') : e' = .brokenInvariant := by
    unfold Channel.send at hc
    split_ifs at hc
    exact (Except.error.inj hc).symm
  simp only [enter, Checklist.markStarted, Checklist.new, Bool.false_eq_true, if_false,
    Result.bind_eq_error_iff, reduceCtorEq, Result.pure_eq_ok, and_false, exists_false, or_false,
    false_or] at h
  obtain ⟨_, -, hentry | ⟨entry, -, houtbox | ⟨outbox, -, hresults⟩⟩⟩ := h
  · exact Or.inl hentry
  · exact Or.inr (hsend houtbox)
  · exact Or.inr (hsend hresults)

/-! ## What is sent -/

theorem Moves.exists_sent {p q : Party σ C O} (h : Moves p q) :
    ∃ more, q.outbox.sent = p.outbox.sent ++ more := by
  cases h with
  | enterFirst _ h =>
      obtain ⟨_, _, _, -, houtbox, -, rfl, -⟩ := enter_eq_ok_iff.1 h
      exact ⟨_, sent_of_send houtbox⟩
  | enterNext _ _ h =>
      obtain ⟨_, _, _, -, houtbox, -, rfl, -⟩ := enter_eq_ok_iff.1 h
      exact ⟨_, sent_of_send houtbox⟩
  | look _ | finish _ _ | failFirst _ | fail _ | store _ _ | closeOutbox | closeResults =>
      exact ⟨[], (List.append_nil _).symm⟩

theorem exists_sent_of_moves {p q : Party σ C O} (h : Relation.ReflTransGen Moves p q) :
    ∃ more, q.outbox.sent = p.outbox.sent ++ more := by
  induction h with
  | refl => exact ⟨[], (List.append_nil _).symm⟩
  | tail _ hmove ih =>
      obtain ⟨more, hmore⟩ := ih
      obtain ⟨rest, hrest⟩ := hmove.exists_sent
      exact ⟨more ++ rest, by rw [hrest, hmore, List.append_assoc]⟩

/-- What becomes true on a way becomes true at one of its steps. -/
theorem exists_turn {α : Type} {R : α → α → Prop} {P : α → Prop} {a b : α}
    (h : Relation.ReflTransGen R a b) (ha : ¬ P a) (hb : P b) :
    ∃ c d, Relation.ReflTransGen R a c ∧ ¬ P c ∧ R c d ∧ P d ∧ Relation.ReflTransGen R d b := by
  induction h using Relation.ReflTransGen.head_induction_on with
  | refl => exact absurd hb ha
  | @head a c hac hcb ih =>
      by_cases hc : P c
      · exact ⟨a, c, .refl, ha, hac, hc, hcb⟩
      · obtain ⟨d, e, hcd, hd, hde, he, heb⟩ := ih hc
        exact ⟨d, e, .head hac hcd, hd, hde, he, heb⟩

/-! ## Who comes to a round -/

theorem exists_getsTo_of_finished {target round : Round σ C O} {before after : List (Round σ C O)}
    {checklist : Checklist} {advanced : Bool} {p : Party σ C O}
    (h : (proceed (before ++ target :: after) round checklist advanced p).2.stage = .finished) :
    ∃ q, GetsTo target after q (before ++ target :: after) round checklist p := by
  induction before generalizing round checklist advanced p with
  | nil =>
      cases hinspect : round.inspect p.state with
      | error e => rw [List.nil_append, proceed, hinspect] at h; cases h
      | ok u =>
          cases hdone : (checklist.tickWhere (round.hasArrived p.state)).isComplete with
          | true => exact ⟨p, .now hinspect hdone⟩
          | false => rw [proceed_of_missing hinspect hdone] at h; cases h
  | cons next before ih =>
      rw [List.cons_append] at h ⊢
      cases hinspect : round.inspect p.state with
      | error e => rw [proceed, hinspect] at h; cases h
      | ok u =>
          cases hdone : (checklist.tickWhere (round.hasArrived p.state)).isComplete with
          | true =>
              rw [proceed_cons_of_complete hinspect hdone] at h
              cases henter : p.enter next with
              | error e => rw [henter] at h; cases h
              | ok r =>
                  rw [henter] at h
                  obtain ⟨q, hq⟩ := ih h
                  exact ⟨q, .later hinspect hdone henter hq⟩
          | false => rw [proceed_of_missing hinspect hdone] at h; cases h

/-- The message that finishes the run of a party makes it attempt all the rounds it had ahead. -/
theorem exists_attempts_of_finished [Content C] {p : Party σ C O} {m : Message C}
    {checklist : Checklist} {round target : Round σ C O} {later : List (Round σ C O)}
    (hp : p.stage = .active checklist round later) (htarget : target ∈ later)
    (h : (p.update m).2.stage = .finished) : ∃ q, Attempts target q p (.update m) := by
  obtain ⟨before, after, rfl⟩ := List.append_of_mem htarget
  rcases p.update_spec m with ⟨e, he⟩ | ⟨_, _, _, s, hs, hvalid, hstore, hupdate⟩
  · rw [he, hp] at h
    cases h
  · obtain ⟨rfl, rfl, rfl⟩ := Stage.active.inj (hp.symm.trans hs)
    rw [hupdate] at h
    obtain ⟨q, hq⟩ := exists_getsTo_of_finished h
    exact ⟨q, .update hp hvalid hstore hq⟩

theorem exists_attempts_last [Content C] {r : Role σ C O} (hr : r.Lawful)
    {messages : List (Message C)} {m : Message C} (hnodup : (messages ++ [m]).Nodup)
    (hneeds : ∀ m', m' ∈ messages ++ [m] ↔ r.Needs m') {before : List (Round σ C O)}
    {target : Round σ C O} (hrounds : r.rounds = before ++ [target]) {l : ℕ}
    (hl : l < before.length) (hm : m ∈ r.needs l) :
    (r.party.run (.start :: messages.map .update)).results.isOpen = true ∧
      ∃ q, Attempts target q (r.party.run (.start :: messages.map .update)) (.update m) := by
  have hlen : r.rounds.length = before.length + 1 := by
    rw [hrounds, List.length_append, List.length_singleton]
  have hnew : m ∉ messages := fun h => (List.nodup_append.1 hnodup).2.2 m h m
    (List.mem_singleton_self m) rfl
  obtain ⟨k, hk, hrests⟩ := hr.run_of_needs (List.Nodup.of_append_left hnodup)
    fun m' hm' => (hneeds m').1 (List.mem_append_left _ hm')
  have hfinished : (r.party.run (.start :: (messages ++ [m]).map .update)).stage = .finished :=
    (hr.run_complete hnodup hneeds).finished_of_needs (hlen ▸ Nat.succ_pos _) fun m' hm' =>
      (hneeds m').2 ⟨_, Nat.sub_lt (hlen ▸ Nat.succ_pos _) one_pos, hm'⟩
  rw [List.map_append, ← List.cons_append, run_append] at hfinished
  have hearly : k ≤ before.length := by
    by_contra hlt
    exact hnew (hrests.left l (by omega) hm)
  refine ⟨by rw [hrests.results], ?_⟩
  have hstage := hrests.stage
  cases hs : (r.party.run (.start :: messages.map .update)).stage with
  | notStarted first later =>
      rw [hs] at hstage
      exact absurd hstage.1 (Nat.ne_of_gt hk)
  | active checklist round later =>
      rw [hs] at hstage
      obtain ⟨l', rfl, hdrop, -⟩ := hstage
      refine exists_attempts_of_finished hs ?_ hfinished
      rw [← drop_succ_of_drop hdrop, hrounds, List.drop_append_of_le_length hearly]
      exact List.mem_append_right _ (List.mem_singleton_self target)
  | finished =>
      rw [hs] at hstage
      change k = r.rounds.length at hstage
      omega
  | failed => exact absurd hs hrests.running

/-! ## What holds at an attempt -/

section Due

variable {protocol : Protocol σ C O} {rounds : List (Round σ C O)}
  {Inv : ℕ → σ → List (Message C) → List O → Prop}

/-- A party about to enter its next round after `k`, everything before being done. -/
structure Due (protocol : Protocol σ C O) (rounds : List (Round σ C O))
    (Inv : ℕ → σ → List (Message C) → List O → Prop) (k : ℕ) (q : Party σ C O) : Prop where
  protocol : q.protocol = protocol
  inv : Inv k q.state q.outbox.sent q.results.sent
  arrived : ∀ l prev, k = l + 1 → rounds[l]? = some prev → AllArrived prev q.state

theorem Follows.due {k : ℕ} {q : Party σ C O} {checklist : Checklist} {prev target : Round σ C O}
    {after : List (Round σ C O)}
    (h : Follows protocol rounds Inv k { q with stage := .active checklist prev (target :: after) })
    (hcomplete : checklist.isComplete = true) :
    rounds.drop k = target :: after ∧ Due protocol rounds Inv k q := by
  obtain ⟨-, hnext, -⟩ := h.stage.next
  exact ⟨hnext, h.protocol, h.inv, h.stage.arrived hcomplete⟩

variable [Content C] {target : Round σ C O} {p q : Party σ C O} {c : Call C}

theorem Attempts.due (hk : Keeps protocol rounds Inv) {k : ℕ}
    (hp : Follows protocol rounds Inv k p) (h : Attempts target q p c) :
    ∃ k', k ≤ k' ∧ rounds[k']? = some target ∧ Due protocol rounds Inv k' q := by
  obtain ⟨checklist, prev, after, hmoves, hcomplete, -⟩ := h.spec
  obtain ⟨k', hle, hfollows⟩ := hp.of_moves hk hmoves
  obtain ⟨hdrop, hdue⟩ := hfollows.due hcomplete
  exact ⟨k', hle, getElem?_of_drop hdrop, hdue⟩

theorem Attempts.due_succ (hk : Keeps protocol rounds Inv) {k : ℕ}
    (hp : Follows protocol rounds Inv k p) (h : Attempts target q p c) :
    ∃ l, rounds[l + 1]? = some target ∧ Due protocol rounds Inv (l + 1) q := by
  obtain ⟨checklist, prev, after, hmoves, hcomplete, -⟩ := h.spec
  obtain ⟨k', -, hfollows⟩ := hp.of_moves hk hmoves
  obtain ⟨hpos, -, hround⟩ := hfollows.stage.next
  obtain ⟨l, rfl⟩ := Nat.exists_eq_add_one_of_ne_zero hpos.ne'
  exact ⟨l, hround, (hfollows.due hcomplete).2⟩

theorem Attempts.outcome_last (hk : Keeps protocol rounds Inv) {k : ℕ}
    (hp : Follows protocol rounds Inv k p) (h : Attempts target q p c)
    (hlast : ∀ k, rounds[k]? = some target → k + 1 = rounds.length)
    (hexpected : target.expected = []) (hinspect : ∀ s, target.inspect s = .ok ()) :
    (p.answer c, p.after c) =
      match q.enter target with
      | .error e => (.error e, { q with stage := .failed })
      | .ok (q', _) => (.ok (), { q' with stage := .finished }) := by
  obtain ⟨checklist, prev, after, hmoves, hcomplete, houtcome⟩ := h.spec
  obtain ⟨k', -, hfollows⟩ := hp.of_moves hk hmoves
  obtain ⟨hdrop, -⟩ := hfollows.due hcomplete
  have hk' := hlast k' (getElem?_of_drop hdrop)
  have hlen := length_of_drop hdrop
  obtain rfl : after = [] := List.length_eq_zero_iff.1 (by omega)
  rw [houtcome]
  cases henter : q.enter target with
  | error e => rfl
  | ok r =>
      obtain ⟨q', checklist'⟩ := r
      obtain ⟨entry, outbox, results, -, -, -, -, rfl⟩ := enter_eq_ok_iff.1 henter
      have hnobody (j : ℕ) : ¬ j < target.expected.length := by
        rw [hexpected]
        exact Nat.not_lt_zero j
      have hreflects := Checklist.reflects_entered q.protocol.task target q'.state entry.ticked
        fun j _ hj => absurd hj (hnobody j)
      have hdone := hreflects.isComplete_iff.2 fun j hj => absurd hj (hnobody j)
      dsimp only
      rw [proceed_nil_of_complete (hinspect _) hdone]
      rfl

theorem Attempts.state_last (hk : Keeps protocol rounds Inv) {k : ℕ}
    (hp : Follows protocol rounds Inv k p) (h : Attempts target q p c)
    (hlast : ∀ k, rounds[k]? = some target → k + 1 = rounds.length)
    (hexpected : target.expected = []) (hinspect : ∀ s, target.inspect s = .ok ())
    (hstate : ∀ {entry}, target.enter q.state = .ok entry → entry.state = q.state) :
    (p.after c).state = q.state := by
  have houtcome := congrArg Prod.snd (h.outcome_last hk hp hlast hexpected hinspect)
  dsimp only at houtcome
  rw [houtcome]
  cases henter : q.enter target with
  | error e => rfl
  | ok r =>
      obtain ⟨q', checklist'⟩ := r
      obtain ⟨entry, outbox, results, hentry, -, -, rfl, -⟩ := enter_eq_ok_iff.1 henter
      exact hstate hentry

end Due

end Party

end ThresholdKeys
