import Mathlib
import ThresholdKeys.Proofs.Engine.Outcome

/-!
# Messages that could have come later

A party that has taken up messages before it looks for progress gets as far as one that looks for
progress first, takes up the messages then and looks again. What makes this so is that entering a
round reads only what had arrived before, and that it keeps what was taken up: entering and taking
up commute.
-/

namespace ThresholdKeys

variable {σ C O : Type}

namespace Protocol

/-- The state after a message; it stays as it is if the message cannot be stored. -/
def takeUp (protocol : Protocol σ C O) (s : σ) (m : Message C) : σ :=
  match protocol.store s m with
  | .ok s' => s'
  | .error _ => s

def takeAll (protocol : Protocol σ C O) (s : σ) (messages : List (Message C)) : σ :=
  messages.foldl protocol.takeUp s

variable {protocol : Protocol σ C O} {s s' : σ} {m : Message C} {messages : List (Message C)}

theorem takeUp_of_store (h : protocol.store s m = .ok s') : protocol.takeUp s m = s' := by
  rw [takeUp, h]

theorem takeUp_of_store_error {e : Error} (h : protocol.store s m = .error e) :
    protocol.takeUp s m = s := by
  rw [takeUp, h]

theorem takeUp_cases (protocol : Protocol σ C O) (s : σ) (m : Message C) :
    protocol.takeUp s m = s ∨ protocol.store s m = .ok (protocol.takeUp s m) := by
  cases h : protocol.store s m with
  | error e => exact Or.inl (takeUp_of_store_error h)
  | ok s' => exact Or.inr (congrArg _ (takeUp_of_store h).symm)

@[simp] theorem takeAll_nil : protocol.takeAll s [] = s := rfl

@[simp] theorem takeAll_cons :
    protocol.takeAll s (m :: messages) = protocol.takeAll (protocol.takeUp s m) messages := rfl

end Protocol

/-- Entering a round from either of two states does the same but for the state that it leaves. -/
inductive EntersAlike (Rel : σ → σ → Prop) : Result (Entry σ C O) → Result (Entry σ C O) → Prop
  | error (e : Error) : EntersAlike Rel (.error e) (.error e)
  | ok {entry : Entry σ C O} {t : σ} (h : Rel entry.state t) :
      EntersAlike Rel (.ok entry) (.ok { entry with state := t })

theorem EntersAlike.of_map {Rel : σ → σ → Prop} {f : σ → σ} (x : Result (Entry σ C O))
    (h : ∀ entry, x = .ok entry → Rel entry.state (f entry.state)) :
    EntersAlike Rel x (x.map fun entry => { entry with state := f entry.state }) := by
  cases x with
  | error e => exact .error e
  | ok entry => exact .ok (h entry rfl)

namespace Party

/-- The party with messages taken up, before it looks for progress. -/
def hold (p : Party σ C O) (messages : List (Message C)) : Party σ C O :=
  { p with state := p.protocol.takeAll p.state messages }

/-- Everything that the first `k` rounds wait for is there. -/
def Behind (rounds : List (Round σ C O)) (k : ℕ) (s : σ) : Prop :=
  ∀ l < k, ∀ round, rounds[l]? = some round → AllArrived round s

theorem Behind.mono {rounds : List (Round σ C O)} {k : ℕ} {s t : σ} (h : Behind rounds k s)
    (hmono : ∀ round ∈ rounds, ∀ j, round.hasArrived s j = true → round.hasArrived t j = true) :
    Behind rounds k t :=
  fun l hl round hround j hj =>
    hmono round (List.mem_of_getElem? hround) j (h l hl round hround j hj)

theorem Keeps.withBehind {protocol : Protocol σ C O} {rounds : List (Round σ C O)}
    {Inv : ℕ → σ → List (Message C) → List O → Prop} (h : Keeps protocol rounds Inv)
    (hleft : ∀ {k s sent results round entry}, rounds[k]? = some round → Inv k s sent results →
      round.enter s = .ok entry →
        ∀ prev ∈ rounds, ∀ j, prev.hasArrived s j = true → prev.hasArrived entry.state j = true) :
    Keeps protocol rounds fun k s sent results =>
      Inv k s sent results ∧ Behind rounds (k - 1) s where
  enter {k s sent results round entry} hround hinv hdone hentry := by
    refine ⟨h.enter hround hinv.1 hdone hentry, ?_⟩
    have hbehind : Behind rounds k s := by
      intro l hl prev hprev
      obtain rfl | hlt : k = l + 1 ∨ l < k - 1 := by omega
      · exact hdone l prev rfl hprev
      · exact hinv.2 l hlt prev hprev
    exact hbehind.mono (hleft hround hinv.1 hentry)
  ticked hround hinv hentry := h.ticked hround hinv.1 hentry
  store hk hinv hstore :=
    ⟨h.store hk hinv.1 hstore, hinv.2.mono fun _ hround _ => h.arrived hinv.1 hround hstore⟩
  arrived hinv hround hstore := h.arrived hinv.1 hround hstore

theorem Follows.withBehind {protocol : Protocol σ C O} {rounds : List (Round σ C O)}
    {Inv : ℕ → σ → List (Message C) → List O → Prop} {p : Party σ C O}
    (h : Follows protocol rounds Inv 0 p) :
    Follows protocol rounds
      (fun k s sent results => Inv k s sent results ∧ Behind rounds (k - 1) s) 0 p :=
  ⟨h.protocol, h.stage, h.inv, fun l hl => absurd hl (Nat.not_lt_zero l)⟩

/-- A protocol whose rounds read, when they are entered, only what had to arrive before, and keep
whatever else has come. -/
structure Patient (protocol : Protocol σ C O) (rounds : List (Round σ C O))
    (Inv : ℕ → σ → List (Message C) → List O → Prop) : Prop where
  keeps : Keeps protocol rounds Inv
  inspect : ∀ {round s}, round ∈ rounds → round.inspect s = .ok ()
  behind : ∀ {k s sent results}, Inv (k + 1) s sent results → Behind rounds k s
  enter_takeUp : ∀ {k s sent results round} (m : Message C), 0 < k → rounds[k]? = some round →
    Inv k s sent results → Behind rounds k s →
      round.enter (protocol.takeUp s m) =
        (round.enter s).map fun entry => { entry with state := protocol.takeUp entry.state m }

/-- A relation between states, of which the second has everything that has arrived in the first, and
that entering a round keeps. -/
structure Carried (rounds : List (Round σ C O)) (Inv : ℕ → σ → List (Message C) → List O → Prop)
    (Rel : σ → σ → Prop) : Prop where
  arrived : ∀ {k s t sent results round j}, 0 < k → Inv k s sent results → round ∈ rounds →
    Rel s t → round.hasArrived s j = true → round.hasArrived t j = true
  enter : ∀ {k s t sent results round}, 0 < k → rounds[k]? = some round → Inv k s sent results →
    Behind rounds k s → Rel s t → EntersAlike Rel (round.enter s) (round.enter t)

section Patient

variable {protocol : Protocol σ C O} {rounds : List (Round σ C O)}
  {Inv : ℕ → σ → List (Message C) → List O → Prop} (hpatient : Patient protocol rounds Inv)
  {k : ℕ} {s : σ} {sent : List (Message C)} {results : List O} {round : Round σ C O}

include hpatient

theorem Patient.takeUp (hk : 0 < k) (h : Inv k s sent results) (m : Message C) :
    Inv k (protocol.takeUp s m) sent results := by
  rcases protocol.takeUp_cases s m with heq | hstore
  · rwa [heq]
  · exact hpatient.keeps.store hk h hstore

theorem Patient.arrived_takeUp (h : Inv k s sent results) (hround : round ∈ rounds) (m : Message C)
    {j : ℕ} (hj : round.hasArrived s j = true) :
    round.hasArrived (protocol.takeUp s m) j = true := by
  rcases protocol.takeUp_cases s m with heq | hstore
  · rwa [heq]
  · exact hpatient.keeps.arrived h hround hstore hj

theorem Patient.takeAll (hk : 0 < k) (h : Inv k s sent results) (messages : List (Message C)) :
    Inv k (protocol.takeAll s messages) sent results := by
  induction messages generalizing s with
  | nil => exact h
  | cons m rest ih => exact ih (hpatient.takeUp hk h m)

theorem Patient.arrived_takeAll (hk : 0 < k) (h : Inv k s sent results) (hround : round ∈ rounds)
    (messages : List (Message C)) {j : ℕ} (hj : round.hasArrived s j = true) :
    round.hasArrived (protocol.takeAll s messages) j = true := by
  induction messages generalizing s with
  | nil => exact hj
  | cons m rest ih =>
      exact ih (hpatient.takeUp hk h m) (hpatient.arrived_takeUp h hround m hj)

theorem Patient.enter_takeAll (hk : 0 < k) (hround : rounds[k]? = some round)
    (h : Inv k s sent results) (hbehind : Behind rounds k s) (messages : List (Message C)) :
    round.enter (protocol.takeAll s messages) =
      (round.enter s).map fun entry =>
        { entry with state := protocol.takeAll entry.state messages } := by
  induction messages generalizing s with
  | nil =>
      simp only [Protocol.takeAll_nil]
      cases round.enter s <;> rfl
  | cons m rest ih =>
      rw [Protocol.takeAll_cons, ih (hpatient.takeUp hk h m)
        (hbehind.mono fun round hround j hj => hpatient.arrived_takeUp h hround m hj),
        hpatient.enter_takeUp m hk hround h hbehind]
      cases round.enter s <;> rfl

theorem Patient.carried_takeAll (messages : List (Message C)) :
    Carried rounds Inv fun s t => t = protocol.takeAll s messages where
  arrived hk h hround ht hj := ht ▸ hpatient.arrived_takeAll hk h hround messages hj
  enter hk hround h hbehind ht := by
    rw [ht, hpatient.enter_takeAll hk hround h hbehind messages]
    exact .of_map (f := (protocol.takeAll · messages)) _ fun _ _ => rfl

end Patient

/-! ## Looking for progress in related states -/

/-- Of two runs, which have looked for progress from related states, the first is over, and so is
the second with the same outcome, or the second gets where the first gets by looking again. -/
inductive Deferred (Rel : σ → σ → Prop) (x y : Result Bool × Party σ C O) : Prop
  | waits {advanced : Bool} {checklist : Checklist} {round : Round σ C O}
      {later : List (Round σ C O)} {t : σ} (answer : x.1 = .ok advanced)
      (stage : x.2.stage = .active checklist round later) (rel : Rel x.2.state t)
      (rest : y = proceed later round checklist advanced { x.2 with state := t })
  | ends (ended : x.2.HasEnded) (answer : y.1 = x.1) (alike : x.2.Alike y.2)

theorem enter_alike {Rel : σ → σ → Prop} {p : Party σ C O} {t : σ} {round : Round σ C O}
    (h : EntersAlike Rel (round.enter p.state) (round.enter t)) :
    (∃ e, p.enter round = .error e ∧ enter { p with state := t } round = .error e) ∨
      ∃ q checklist t', p.enter round = .ok (q, checklist) ∧ Rel q.state t' ∧
        enter { p with state := t } round = .ok ({ q with state := t' }, checklist) := by
  unfold enter
  dsimp only
  generalize round.enter p.state = x at h ⊢
  generalize round.enter t = y at h ⊢
  cases h with
  | error e => exact Or.inl ⟨e, rfl, rfl⟩
  | @ok entry t' hrel =>
      cases ho : p.outbox.send entry.sent with
      | error e => exact Or.inl ⟨e, by simp [ho, Checklist.markStarted, Checklist.new],
          by simp [ho, Checklist.markStarted, Checklist.new]⟩
      | ok outbox =>
          cases hr : p.results.send entry.result.toList with
          | error e => exact Or.inl ⟨e, by simp [ho, hr, Checklist.markStarted, Checklist.new],
              by simp [ho, hr, Checklist.markStarted, Checklist.new]⟩
          | ok results =>
              refine Or.inr ⟨{ p with state := entry.state, outbox, results }, _, t',
                by simp [ho, hr, Checklist.markStarted, Checklist.new]; rfl, hrel,
                by simp [ho, hr, Checklist.markStarted, Checklist.new]⟩

theorem deferred_of_missing {Rel : σ → σ → Prop} {round : Round σ C O}
    (later : List (Round σ C O)) {checklist : Checklist} (advanced : Bool) {p : Party σ C O} {t : σ}
    (hinspect : round.inspect p.state = .ok ()) (h : Rel p.state t)
    (harrived : ∀ j, round.hasArrived p.state j = true → round.hasArrived t j = true)
    (hmissing : (checklist.tickWhere (round.hasArrived p.state)).isComplete = false) :
    Deferred Rel (proceed later round checklist advanced p)
      (proceed later round checklist advanced { p with state := t }) := by
  rw [proceed_of_missing hinspect hmissing]
  refine .waits rfl rfl h ?_
  exact ((proceed_withStage later round _ advanced { p with state := t } _).trans
    (proceed_tickWhere later round checklist advanced { p with state := t } harrived)).symm

section Proceed

variable {protocol : Protocol σ C O} {rounds : List (Round σ C O)}
  {Inv : ℕ → σ → List (Message C) → List O → Prop} (hpatient : Patient protocol rounds Inv)
  {Rel : σ → σ → Prop} (hcarried : Carried rounds Inv Rel) {l : ℕ} {round : Round σ C O}
  {later : List (Round σ C O)} {checklist : Checklist} {p : Party σ C O} {t : σ}

theorem isComplete_of_arrived {s : σ} (hc : checklist.Reflects round s)
    (harrived : ∀ j, round.hasArrived s j = true → round.hasArrived t j = true)
    (hdone : (checklist.tickWhere (round.hasArrived s)).isComplete = true) :
    (checklist.tickWhere (round.hasArrived t)).isComplete = true :=
  (hc.mono harrived).isComplete_iff.2 fun j hj => harrived j (hc.isComplete_iff.1 hdone j hj)

include hpatient

theorem Patient.behind_succ {s : σ} {sent : List (Message C)} {results : List O}
    (hinv : Inv (l + 1) s sent results) (hround : rounds[l]? = some round)
    (hall : AllArrived round s) : Behind rounds (l + 1) s := by
  intro l' hl' prev hprev
  rcases Nat.lt_succ_iff_lt_or_eq.1 hl' with hlt | rfl
  · exact hpatient.behind hinv l' hlt prev hprev
  · exact Option.some.inj (hround.symm.trans hprev) ▸ hall

include hcarried

/-- Looking for progress from a related state is looking for it first and once more after that. -/
theorem proceed_deferred (later : List (Round σ C O)) {l : ℕ} {round : Round σ C O}
    {checklist : Checklist} (advanced : Bool) {p : Party σ C O} {t : σ}
    (hp : Follows protocol rounds Inv (l + 1) { p with stage := .active checklist round later })
    (h : Rel p.state t) :
    Deferred Rel (proceed later round checklist advanced p)
      (proceed later round checklist advanced { p with state := t }) := by
  induction later generalizing l round checklist advanced p t with
  | nil =>
      obtain ⟨l', hl, hround, hc⟩ := hp.stage
      have hinspect {s : σ} : round.inspect s = .ok () := hpatient.inspect (mem_of_drop hround)
      have harrived (j : ℕ) :=
        hcarried.arrived (j := j) (Nat.succ_pos l) hp.inv (mem_of_drop hround) h
      cases hdone : (checklist.tickWhere (round.hasArrived p.state)).isComplete with
      | false => exact deferred_of_missing [] advanced hinspect h harrived hdone
      | true =>
          have hdone' := isComplete_of_arrived hc harrived hdone
          rw [proceed_nil_of_complete hinspect hdone,
            proceed_nil_of_complete (p := { p with state := t }) hinspect hdone']
          exact .ends (Or.inl rfl) rfl ⟨rfl, rfl, rfl⟩
  | cons next later ih =>
      obtain ⟨l', hl, hround, hc⟩ := hp.stage
      obtain rfl : l = l' := Nat.succ.inj hl
      have hinspect {s : σ} : round.inspect s = .ok () := hpatient.inspect (mem_of_drop hround)
      have harrived (j : ℕ) :=
        hcarried.arrived (j := j) (Nat.succ_pos l) hp.inv (mem_of_drop hround) h
      cases hdone : (checklist.tickWhere (round.hasArrived p.state)).isComplete with
      | false => exact deferred_of_missing _ advanced hinspect h harrived hdone
      | true =>
          have hdone' := isComplete_of_arrived hc harrived hdone
          have hnext := drop_succ_of_drop hround
          have hbehind := hpatient.behind_succ hp.inv (getElem?_of_drop hround)
            (hc.isComplete_iff.1 hdone)
          have hleft (l' : ℕ) (prev : Round σ C O) (hl' : l + 1 = l' + 1)
              (hprev : rounds[l']? = some prev) : AllArrived prev p.state :=
            hbehind l' (hl' ▸ Nat.lt_succ_self l') prev hprev
          rw [proceed_cons_of_complete hinspect hdone,
            proceed_cons_of_complete (p := { p with state := t }) hinspect hdone']
          rcases enter_alike (p := p) (hcarried.enter (Nat.succ_pos l) (getElem?_of_drop hnext)
            hp.inv hbehind h) with ⟨e, he, he'⟩ | ⟨q, checklist', t', hq, hrel, hq'⟩
          · rw [he, he']
            exact .ends (Or.inr rfl) rfl ⟨rfl, rfl, rfl⟩
          · rw [hq, hq']
            exact ih true (.enter (p := p) hpatient.keeps hp.protocol hp.inv hnext hleft hq) hrel

end Proceed

/-! ## Parties that wait -/

/-- A started party that moves no further by itself. -/
structure Settled (protocol : Protocol σ C O) (rounds : List (Round σ C O))
    (Inv : ℕ → σ → List (Message C) → List O → Prop) (p : Party σ C O) : Prop where
  follows : ∃ k, Follows protocol rounds Inv k p
  started : ∀ first later, p.stage ≠ .notStarted first later
  still : ∀ {checklist round later}, p.stage = .active checklist round later →
    checklist.tickWhere (round.hasArrived p.state) = checklist ∧ checklist.isComplete = false

section Settled

variable {protocol : Protocol σ C O} {rounds : List (Round σ C O)}
  {Inv : ℕ → σ → List (Message C) → List O → Prop} {p : Party σ C O}

theorem Settled.hasEnded_or_active (h : Settled protocol rounds Inv p) :
    p.HasEnded ∨ ∃ checklist round later, p.stage = .active checklist round later := by
  cases hs : p.stage with
  | notStarted first later => exact absurd hs (h.started first later)
  | active checklist round later => exact Or.inr ⟨checklist, round, later, rfl⟩
  | finished => exact Or.inl (Or.inl hs)
  | failed => exact Or.inl (Or.inr hs)

theorem settled_of_outcome {x : Result Bool × Party σ C O} (h : Outcome x)
    (hfollows : ∃ k, Follows protocol rounds Inv k x.2) : Settled protocol rounds Inv x.2 := by
  refine ⟨hfollows, ?_, ?_⟩
  · intro first later hs
    cases h <;> simp_all
  · intro checklist round later hs
    cases h with
    | failed hp => cases hp.symm.trans hs
    | finished hp => cases hp.symm.trans hs
    | waits hp hticked hmissing =>
        cases hp.symm.trans hs
        exact ⟨hticked, hmissing⟩

theorem settled_of_start (hkeeps : Keeps protocol rounds Inv)
    (hp : Follows protocol rounds Inv 0 p) {q : Party σ C O} (h : p.start = (.ok (), q)) :
    Settled protocol rounds Inv q := by
  obtain ⟨k, -, hq⟩ := hp.of_moves hkeeps p.moves_start
  rw [h] at hq
  unfold start at h
  split at h
  · rename_i first later _
    split at h
    · cases h
    · split at h
      · cases h
      · rename_i r checklist _
        obtain ⟨-, rfl⟩ := Prod.mk.inj h
        exact settled_of_outcome (outcome_proceed later first checklist false r) ⟨k, hq⟩
  · cases h

section Active

variable {checklist : Checklist} {round : Round σ C O} {later : List (Round σ C O)}
  (h : Settled protocol rounds Inv p) (hs : p.stage = .active checklist round later)

include h hs

theorem Settled.active : ∃ l, Follows protocol rounds Inv (l + 1) p ∧
    rounds.drop l = round :: later ∧ checklist.Reflects round p.state := by
  obtain ⟨k, hk⟩ := h.follows
  have hstage := hk.stage
  rw [hs] at hstage
  obtain ⟨l, rfl, hround, hc⟩ := hstage
  exact ⟨l, hk, hround, hc⟩

theorem Settled.proceed_eq (hpatient : Patient protocol rounds Inv) (advanced : Bool) :
    proceed later round checklist advanced p = (.ok advanced, p) := by
  obtain ⟨l, -, hround, -⟩ := h.active hs
  obtain ⟨hticked, hmissing⟩ := h.still hs
  have hmem := mem_of_drop hround
  rw [proceed_of_missing (hpatient.inspect hmem) (by rwa [hticked]), hticked, ← hs]

theorem Settled.follows_hold (hpatient : Patient protocol rounds Inv)
    (messages : List (Message C)) : ∃ l, Follows protocol rounds Inv (l + 1) (p.hold messages) := by
  obtain ⟨l, hp, hround, hc⟩ := h.active hs
  have hmem := mem_of_drop hround
  refine ⟨l, hp.protocol, ?_, ?_⟩
  · change StageAt rounds (p.protocol.takeAll p.state messages) (l + 1) p.stage
    rw [hs, hp.protocol]
    exact ⟨l, rfl, hround,
      hc.mono fun j => hpatient.arrived_takeAll l.succ_pos hp.inv hmem messages⟩
  · change Inv (l + 1) (p.protocol.takeAll p.state messages) p.outbox.sent p.results.sent
    rw [hp.protocol]
    exact hpatient.takeAll l.succ_pos hp.inv messages

theorem Settled.follows_proceed (hpatient : Patient protocol rounds Inv)
    (messages : List (Message C)) (advanced : Bool) : ∃ k, Follows protocol rounds Inv k
      (proceed later round checklist advanced (p.hold messages)).2 := by
  obtain ⟨l, hp⟩ := h.follows_hold hs hpatient messages
  obtain ⟨k, -, hk⟩ :=
    hp.of_moves hpatient.keeps (moves_proceed later round checklist advanced _ hs)
  exact ⟨k, hk⟩

theorem Settled.hold_deferred (hpatient : Patient protocol rounds Inv) {Rel : σ → σ → Prop}
    (hcarried : Carried rounds Inv Rel) (messages : List (Message C)) (advanced : Bool) {t : σ}
    (hrel : Rel (p.hold messages).state t) :
    Deferred Rel (proceed later round checklist advanced (p.hold messages))
      (proceed later round checklist advanced { p.hold messages with state := t }) := by
  obtain ⟨l, hp⟩ := h.follows_hold hs hpatient messages
  have hstage : { p.hold messages with stage := .active checklist round later } =
      p.hold messages := by rw [← hs]; rfl
  exact proceed_deferred hpatient hcarried later advanced (hstage.symm ▸ hp) hrel

omit h in
theorem update_eq_proceed_hold [Content C] {m : Message C} (hvalid : p.validate m = .ok ()) {s : σ}
    (hstore : p.protocol.store p.state m = .ok s) :
    p.update m = proceed later round checklist false (p.hold [m]) := by
  rw [update_eq_proceed hs hvalid hstore, hold, Protocol.takeAll_cons,
    Protocol.takeUp_of_store hstore, Protocol.takeAll_nil]

end Active

theorem Settled.advance_eq (h : Settled protocol rounds Inv p)
    (hpatient : Patient protocol rounds Inv) : p.advance = (.ok false, p) := by
  rcases h.hasEnded_or_active with hended | ⟨checklist, round, later, hs⟩
  · exact advance_of_hasEnded hended
  · rw [advance_of_stage hs, h.proceed_eq hs hpatient]

theorem Settled.update [Content C] (h : Settled protocol rounds Inv p)
    (hkeeps : Keeps protocol rounds Inv) (m : Message C) :
    Settled protocol rounds Inv (p.update m).2 := by
  rcases h.hasEnded_or_active with hended | ⟨checklist, round, later, hs⟩
  · rwa [update_of_hasEnded hended]
  · rcases p.update_cases m with ⟨e, he⟩ | houtcome
    · rwa [he]
    · obtain ⟨k, hk⟩ := h.follows
      obtain ⟨k', -, hk'⟩ := hk.of_moves hkeeps (p.moves_update m)
      exact settled_of_outcome houtcome ⟨k', hk'⟩

end Settled

end Party

end ThresholdKeys
