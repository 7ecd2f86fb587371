import Mathlib
import ThresholdKeys.Proofs.Engine.Deferral

/-!
# Messages in any order

A party that waits ends, after any messages, where it gets by taking up all of them first and
looking for progress once. So their order does not matter as far as it does not matter for what is
taken up, and here only what can be read later counts: states that differ in nothing else are the
same for this purpose.
-/

namespace ThresholdKeys

variable {σ C O : Type}

namespace Result

def error? {α : Type} : Result α → Option Error
  | .error e => some e
  | .ok _ => none

@[simp] theorem error?_map {α β : Type} (x : Result α) (f : α → β) :
    error? (x.map f) = error? x := by
  cases x <;> rfl

end Result

namespace Party

/-! ## Storing first -/

section Admits

variable [Content C]

def admits (p : Party σ C O) (m : Message C) : Bool := (p.validate m).isOk

theorem admits_eq_true_iff {p : Party σ C O} {m : Message C} :
    p.admits m = true ↔ p.validate m = .ok () := by
  unfold admits
  cases p.validate m <;> simp [Except.isOk, Except.toBool]

theorem admits_update (p : Party σ C O) (m : Message C) : (p.update m).2.admits = p.admits := by
  funext m'
  rw [Bool.eq_iff_iff, admits_eq_true_iff, admits_eq_true_iff]
  exact validate_eq_ok_congr (frame_of_moves (p.moves_update m)) m'

def isRunning (p : Party σ C O) : Bool :=
  match p.stage with
  | .active .. => true
  | _ => false

/-- The error that the delivery answers with which the run fails. -/
def failure? (p : Party σ C O) : List (Message C) → Option Error
  | [] => none
  | m :: rest =>
    if p.isRunning then
      if (p.update m).2.isRunning then (p.update m).2.failure? rest
      else Result.error? (p.update m).1
    else none

omit [Content C] in
theorem isRunning_of_stage {p : Party σ C O} {checklist : Checklist} {round : Round σ C O}
    {later : List (Round σ C O)} (hs : p.stage = .active checklist round later) :
    p.isRunning = true := by
  rw [isRunning, hs]

omit [Content C] in
theorem isRunning_of_hasEnded {p : Party σ C O} (hp : p.HasEnded) : p.isRunning = false := by
  unfold isRunning
  rcases hp with hp | hp <;> rw [hp]

theorem failure?_of_hasEnded {p : Party σ C O} (hp : p.HasEnded) (messages : List (Message C)) :
    p.failure? messages = none := by
  cases messages with
  | nil => rfl
  | cons m rest => simp [failure?, isRunning_of_hasEnded hp]

theorem failure?_cons_of_unchanged {p : Party σ C O} {m : Message C} {checklist : Checklist}
    {round : Round σ C O} {later : List (Round σ C O)}
    (hs : p.stage = .active checklist round later) (hm : (p.update m).2 = p)
    (rest : List (Message C)) : p.failure? (m :: rest) = p.failure? rest := by
  simp [failure?, isRunning_of_stage hs, hm]

theorem run_cons (p : Party σ C O) (m : Message C) (rest : List (Message C)) :
    p.run ((m :: rest).map .update) = (p.update m).2.run (rest.map .update) := rfl

variable {protocol : Protocol σ C O} {rounds : List (Round σ C O)}
  {Inv : ℕ → σ → List (Message C) → List O → Prop} (hpatient : Patient protocol rounds Inv)

include hpatient

theorem Settled.run_cons_of_store {p : Party σ C O} (hp : Settled protocol rounds Inv p)
    {checklist : Checklist} {round : Round σ C O} {later : List (Round σ C O)}
    (hs : p.stage = .active checklist round later) {m : Message C}
    (hvalid : p.validate m = .ok ()) {s : σ} (hstore : p.protocol.store p.state m = .ok s)
    {rest accepted : List (Message C)}
    (ih : ((p.update m).2.run (rest.map .update)).Alike ((p.update m).2.hold accepted).advance.2 ∧
      (p.update m).2.failure? rest = Result.error? ((p.update m).2.hold accepted).advance.1) :
    (p.run ((m :: rest).map .update)).Alike (p.hold (m :: accepted)).advance.2 ∧
      p.failure? (m :: rest) = Result.error? (p.hold (m :: accepted)).advance.1 := by
  obtain ⟨k, hk⟩ := hp.follows
  have hdeferred := hp.hold_deferred hs hpatient (hpatient.carried_takeAll accepted) [m] false rfl
  have hall : { p.hold [m] with state := protocol.takeAll (p.hold [m]).state accepted } =
      p.hold (m :: accepted) := by rw [hold, hold, hk.protocol]; rfl
  rw [← update_eq_proceed_hold hs hvalid hstore, hall,
    ← advance_of_stage (p := p.hold (m :: accepted)) hs] at hdeferred
  have hprotocol : (p.update m).2.protocol = protocol :=
    (frame_of_moves (p.moves_update m)).1.trans hk.protocol
  rw [run_cons, failure?, if_pos (isRunning_of_stage hs)]
  generalize p.update m = x at ih hdeferred hprotocol ⊢
  cases hdeferred with
  | @waits advanced checklist' round' later' t answer stage rel rest =>
      have hadvance : (p.hold (m :: accepted)).advance =
          ((x.2.hold accepted).advance.1.map (advanced || ·), (x.2.hold accepted).advance.2) := by
        rw [rest, rel, ← hprotocol, advance_of_stage (p := x.2.hold accepted) stage]
        rw [← proceed_or, Bool.or_false, hold]
      rw [if_pos (isRunning_of_stage stage), hadvance, Result.error?_map]
      exact ih
  | ends ended answer alike =>
      rw [isRunning_of_hasEnded ended, run_updates_of_hasEnded ended, answer]
      exact ⟨alike, rfl⟩

/-- Messages that come one by one take the party where it gets when all of them have come that pass
the checks. -/
theorem Settled.run_updates {p : Party σ C O} (hp : Settled protocol rounds Inv p)
    (messages : List (Message C)) :
    (p.run (messages.map .update)).Alike (p.hold (messages.filter p.admits)).advance.2 ∧
      p.failure? messages = Result.error? (p.hold (messages.filter p.admits)).advance.1 := by
  induction messages generalizing p with
  | nil =>
      have hadvance : (p.hold []).advance = (.ok false, p) := hp.advance_eq hpatient
      rw [List.filter_nil, hadvance]
      exact ⟨.refl p, rfl⟩
  | cons m rest ih =>
      rcases hp.hasEnded_or_active with hended | ⟨checklist, round, later, hs⟩
      · rw [run_updates_of_hasEnded hended, failure?_of_hasEnded hended,
          advance_of_hasEnded (p := p.hold _) hended]
        exact ⟨⟨rfl, rfl, rfl⟩, rfl⟩
      · by_cases hm : p.admits m = true
        · have hvalid := admits_eq_true_iff.1 hm
          rw [List.filter_cons_of_pos hm]
          cases hstore : p.protocol.store p.state m with
          | ok s =>
              apply hp.run_cons_of_store hpatient hs hvalid hstore
              rw [← admits_update p m]
              exact ih (hp.update hpatient.keeps m)
          | error e =>
              have hhold (accepted : List (Message C)) :
                  p.hold (m :: accepted) = p.hold accepted := by
                rw [hold, Protocol.takeAll_cons, Protocol.takeUp_of_store_error hstore, hold]
              have hsame : (p.update m).2 = p := by rw [update_of_store_error hs hvalid hstore]
              rw [run_cons, hsame, failure?_cons_of_unchanged hs hsame, hhold]
              exact ih hp
        · have hsame := update_of_invalid (mt admits_eq_true_iff.2 hm)
          rw [List.filter_cons_of_neg hm, run_cons, hsame, failure?_cons_of_unchanged hs hsame]
          exact ih hp

end Admits

/-! ## What is never read -/

/-- States that are the same as far as they are read. -/
structure Overlooks (protocol : Protocol σ C O) (rounds : List (Round σ C O))
    (Inv : ℕ → σ → List (Message C) → List O → Prop) (Same : σ → σ → Prop) : Prop where
  equivalence : Equivalence Same
  arrived : ∀ {s t round} (j : ℕ), round ∈ rounds → Same s t →
    round.hasArrived t j = round.hasArrived s j
  takeUp : ∀ {s t} (m : Message C), Same s t → Same (protocol.takeUp s m) (protocol.takeUp t m)
  enter : ∀ {k s t sent results round}, 0 < k → rounds[k]? = some round → Inv k s sent results →
    Behind rounds k s → Same s t → EntersAlike Same (round.enter s) (round.enter t)

theorem EntersAlike.of_strip {strip : σ → σ} {x y : Result (Entry σ C O)}
    (h : x.map (fun entry => { entry with state := strip entry.state }) =
      y.map fun entry => { entry with state := strip entry.state }) :
    EntersAlike (fun s t => strip s = strip t) x y := by
  cases x with
  | error e =>
      cases y with
      | error e' =>
          obtain rfl := Except.error.inj h
          exact .error e
      | ok entry' => cases h
  | ok entry =>
      cases y with
      | error e' => cases h
      | ok entry' =>
          obtain ⟨state, ticked, sent, result⟩ := entry'
          simp only [Except.map, Except.ok.injEq, Entry.mk.injEq] at h
          obtain ⟨hstate, rfl, rfl, rfl⟩ := h
          exact .ok (t := state) hstate

/-- What is never read can be left out: states are the same that then are equal. -/
theorem overlooks_of_strip {protocol : Protocol σ C O} {rounds : List (Round σ C O)}
    {Inv : ℕ → σ → List (Message C) → List O → Prop} (strip : σ → σ)
    (harrived : ∀ {round}, round ∈ rounds → ∀ s j,
      round.hasArrived (strip s) j = round.hasArrived s j)
    (htakeUp : ∀ {s t} (m : Message C), strip s = strip t →
      strip (protocol.takeUp s m) = strip (protocol.takeUp t m))
    (hinv : ∀ {k s t sent results}, strip s = strip t → Inv k s sent results → Inv k t sent results)
    (henter : ∀ {k s sent results round}, 0 < k → rounds[k]? = some round → Inv k s sent results →
      Behind rounds k s →
        round.enter (strip s) = (round.enter s).map fun entry =>
          { entry with state := strip entry.state }) :
    Overlooks protocol rounds Inv fun s t => strip s = strip t where
  equivalence := ⟨fun _ => rfl, Eq.symm, Eq.trans⟩
  arrived {s t round} j hround hst := by
    rw [← harrived hround s, hst, harrived hround t]
  takeUp := htakeUp
  enter {k s t sent results round} hk hround hs hbehind hst := by
    have hbehind' : Behind rounds k t := hbehind.mono fun prev hprev j hj => by
      rwa [← harrived hprev t, ← hst, harrived hprev s]
    apply EntersAlike.of_strip
    rw [← henter hk hround hs hbehind, ← henter hk hround (hinv hst hs) hbehind', hst]

section Overlooks

variable {protocol : Protocol σ C O} {rounds : List (Round σ C O)}
  {Inv : ℕ → σ → List (Message C) → List O → Prop} {Same : σ → σ → Prop}
  (hsame : Overlooks protocol rounds Inv Same)

include hsame

theorem Overlooks.carried : Carried rounds Inv Same where
  arrived _ _ hround hst hj := (hsame.arrived _ hround hst).trans hj
  enter := hsame.enter

theorem Overlooks.takeAll {s t : σ} (h : Same s t) (messages : List (Message C)) :
    Same (protocol.takeAll s messages) (protocol.takeAll t messages) := by
  induction messages generalizing s t with
  | nil => exact h
  | cons m rest ih => exact ih (hsame.takeUp m h)

variable (hpatient : Patient protocol rounds Inv)

include hpatient

/-- Messages that may change places two by two may come in any order. -/
theorem Overlooks.takeAll_perm {messages messages' : List (Message C)}
    (hperm : messages.Perm messages') {k : ℕ} {sent : List (Message C)} {results : List O}
    (hk : 0 < k)
    (hcomm : ∀ m ∈ messages, ∀ m' ∈ messages, ∀ {s}, Inv k s sent results →
      Same (protocol.takeUp (protocol.takeUp s m) m') (protocol.takeUp (protocol.takeUp s m') m))
    {s : σ} (h : Inv k s sent results) :
    Same (protocol.takeAll s messages) (protocol.takeAll s messages') := by
  induction hperm generalizing s with
  | nil => exact hsame.equivalence.refl _
  | cons m _ ih =>
      apply ih _ (hpatient.takeUp hk h m)
      intro a ha b hb
      exact hcomm a (List.mem_cons_of_mem m ha) b (List.mem_cons_of_mem m hb)
  | swap m m' rest =>
      have hswap := hcomm m' List.mem_cons_self m (List.mem_cons_of_mem m' List.mem_cons_self) h
      exact hsame.takeAll hswap rest
  | trans hfirst _ ih ih' =>
      refine hsame.equivalence.trans (ih hcomm h) (ih' ?_ h)
      intro a ha b hb
      exact hcomm a (hfirst.mem_iff.2 ha) b (hfirst.mem_iff.2 hb)

theorem Settled.advance_congr {p : Party σ C O} (hp : Settled protocol rounds Inv p)
    {messages messages' : List (Message C)}
    (h : Same (p.hold messages).state (p.hold messages').state) :
    (p.hold messages').advance.1 = (p.hold messages).advance.1 ∧
      (p.hold messages).advance.2.Alike (p.hold messages').advance.2 := by
  rcases hp.hasEnded_or_active with hended | ⟨checklist, round, later, hs⟩
  · rw [advance_of_hasEnded (p := p.hold messages) hended,
      advance_of_hasEnded (p := p.hold messages') hended]
    exact ⟨rfl, rfl, rfl, rfl⟩
  · rw [advance_of_stage (p := p.hold messages) hs, advance_of_stage (p := p.hold messages') hs]
    have hsettled := settled_of_outcome (outcome_proceed later round checklist false _)
      (hp.follows_proceed hs hpatient messages false)
    cases hp.hold_deferred hs hpatient hsame.carried messages false h with
    | ends _ answer alike => exact ⟨answer, alike⟩
    | @waits advanced checklist' round' later' t answer stage rel rest =>
        obtain ⟨l, -, hround, -⟩ := hsettled.active stage
        obtain ⟨hticked, hmissing⟩ := hsettled.still stage
        have hmem := mem_of_drop hround
        have harrived : round'.hasArrived t = round'.hasArrived _ :=
          funext fun j => hsame.arrived j hmem rel
        have hnext : proceed later round checklist false (p.hold messages') = _ := rest
        rw [hnext, answer, proceed_of_missing (hpatient.inspect hmem)
          (by rw [harrived, hticked]; exact hmissing), harrived, hticked]
        exact ⟨rfl, stage.symm, rfl, rfl⟩

variable [Content C]

/-- The same messages in another order take a waiting party to the same end. -/
theorem Settled.run_perm {p : Party σ C O} (hp : Settled protocol rounds Inv p)
    {messages messages' : List (Message C)} (hperm : messages.Perm messages')
    (hcomm : ∀ m ∈ messages, ∀ m' ∈ messages, p.validate m = .ok () → p.validate m' = .ok () →
      ∀ {k s sent results}, 0 < k → Inv k s sent results →
        Same (protocol.takeUp (protocol.takeUp s m) m')
          (protocol.takeUp (protocol.takeUp s m') m)) :
    (p.run (messages.map .update)).Alike (p.run (messages'.map .update)) ∧
      p.failure? messages' = p.failure? messages := by
  obtain ⟨halike, hfailure⟩ := hp.run_updates hpatient messages
  obtain ⟨halike', hfailure'⟩ := hp.run_updates hpatient messages'
  have hend : (p.hold (messages'.filter p.admits)).advance.1 =
      (p.hold (messages.filter p.admits)).advance.1 ∧
        (p.hold (messages.filter p.admits)).advance.2.Alike
          (p.hold (messages'.filter p.admits)).advance.2 := by
    rcases hp.hasEnded_or_active with hended | ⟨checklist, round, later, hs⟩
    · rw [advance_of_hasEnded (p := p.hold (messages.filter p.admits)) hended,
        advance_of_hasEnded (p := p.hold (messages'.filter p.admits)) hended]
      exact ⟨rfl, rfl, rfl, rfl⟩
    · obtain ⟨l, hl, -, -⟩ := hp.active hs
      apply hp.advance_congr hsame hpatient
      rw [hold, hold, hl.protocol]
      refine hsame.takeAll_perm hpatient (hperm.filter p.admits) l.succ_pos ?_ hl.inv
      intro m hm m' hm' s hinv
      obtain ⟨hmem, hvalid⟩ := List.mem_filter.1 hm
      obtain ⟨hmem', hvalid'⟩ := List.mem_filter.1 hm'
      exact hcomm m hmem m' hmem' (admits_eq_true_iff.1 hvalid) (admits_eq_true_iff.1 hvalid')
        l.succ_pos hinv
  refine ⟨(halike.trans hend.2).trans halike'.symm, ?_⟩
  rw [hfailure', hfailure, hend.1]

end Overlooks

end Party

end ThresholdKeys
