import Mathlib
import ThresholdKeys.Proofs.Engine.Deferral
import ThresholdKeys.Proofs.Engine.Queue

/-!
# A queue makes no difference

A party that takes up early messages at once and one that leaves them in a queue run alike. As long
as both run, the first is the second with the queue taken up. This needs that messages of different
rounds may change places, that early ones are not looked at, and that late ones are not needed.
-/

namespace ThresholdKeys

variable {σ C O : Type} [Content C]

/-! ## What a host sees -/

/-- What a host sees of a party after a call. -/
structure View (σ C O : Type) where
  answer : Result Bool
  stage : Stage σ C O
  roundNumber : Result ℕ
  waitingFor : List PartyId
  outbox : Channel (Message C)
  results : Channel O

namespace Party

omit [Content C] in
def view (p : Party σ C O) (answer : Result Bool) : View σ C O :=
  ⟨answer, p.stage, p.roundNumber, p.waitingFor, p.outbox, p.results⟩

/-- What a host sees that delivers messages one by one. -/
def views (p : Party σ C O) : List (Message C) → List (View σ C O)
  | [] => []
  | m :: rest => (p.update m).2.view (p.update m).1 :: (p.update m).2.views rest

omit [Content C] in
theorem Alike.view_eq {p q : Party σ C O} (h : p.Alike q) (answer : Result Bool) :
    q.view answer = p.view answer := by
  rw [view, h.stage, h.roundNumber_eq, h.waitingFor_eq, h.outbox, h.results, view]

end Party

def OrderedParty.views (p : OrderedParty σ C O) : List (Message C) → List (View σ C O)
  | [] => []
  | m :: rest => (p.update m).2.party.view (p.update m).1 :: (p.update m).2.views rest

namespace Party

/-! ## Messages of other rounds -/

def Storable (protocol : Protocol σ C O) (Inv : ℕ → σ → List (Message C) → List O → Prop)
    (m : Message C) : Prop :=
  ∀ {k s sent results}, 0 < k → Inv k s sent results → ∃ s', protocol.store s m = .ok s'

/-- A protocol whose messages matter to their own rounds only. -/
structure Staged (protocol : Protocol σ C O) (rounds : List (Round σ C O))
    (Inv : ℕ → σ → List (Message C) → List O → Prop) : Prop
    extends Patient protocol rounds Inv where
  /-- Nothing is missing any more of earlier rounds. -/
  past : ∀ {l s sent results round m}, rounds[l]? = some round → Inv (l + 1) s sent results →
    m.round < round.number → protocol.takeUp s m = s
  arrived_other : ∀ {s round m} (j : ℕ), round ∈ rounds → m.round ≠ round.number →
    round.hasArrived (protocol.takeUp s m) j = round.hasArrived s j
  comm : ∀ {m m' : Message C} (s : σ), m.round ≠ m'.round →
    protocol.takeUp (protocol.takeUp s m) m' = protocol.takeUp (protocol.takeUp s m') m

section Staged

variable {protocol : Protocol σ C O} {rounds : List (Round σ C O)}
  {Inv : ℕ → σ → List (Message C) → List O → Prop} (hstaged : Staged protocol rounds Inv)

include hstaged

theorem Staged.takeUp_takeAll {messages : List (Message C)} {m : Message C}
    (h : ∀ a ∈ messages, m.round ≠ a.round) (s : σ) :
    protocol.takeUp (protocol.takeAll s messages) m =
      protocol.takeAll (protocol.takeUp s m) messages := by
  induction messages generalizing s with
  | nil => rfl
  | cons a rest ih =>
      obtain ⟨ha, hrest⟩ := List.forall_mem_cons.1 h
      rw [Protocol.takeAll_cons, Protocol.takeAll_cons, ih hrest, hstaged.comm s ha]

theorem Staged.takeAll_store {queue : List (Message C)} (hsorted : Queue.Sorted queue)
    (m : Message C) (s : σ) :
    protocol.takeAll s (Queue.store m queue) = protocol.takeUp (protocol.takeAll s queue) m := by
  induction queue generalizing s with
  | nil => rfl
  | cons first rest ih =>
      obtain ⟨hfirst, hrest⟩ := List.pairwise_cons.1 hsorted
      unfold Queue.store
      split
      · rename_i hlt
        rw [hstaged.takeUp_takeAll, Protocol.takeAll_cons]
        intro a ha
        rcases List.mem_cons.1 ha with rfl | ha
        · exact hlt.ne
        · exact (hlt.trans_le (hfirst a ha)).ne
      · rw [Protocol.takeAll_cons, ih hrest, Protocol.takeAll_cons]

theorem Staged.arrived_takeAll {round : Round σ C O} (hround : round ∈ rounds)
    {messages : List (Message C)} (h : ∀ a ∈ messages, a.round ≠ round.number) (s : σ) (j : ℕ) :
    round.hasArrived (protocol.takeAll s messages) j = round.hasArrived s j := by
  induction messages generalizing s with
  | nil => rfl
  | cons a rest ih =>
      obtain ⟨ha, hrest⟩ := List.forall_mem_cons.1 h
      rw [Protocol.takeAll_cons, ih hrest, hstaged.arrived_other j hround ha]

variable {p : Party σ C O} {checklist : Checklist} {round : Round σ C O}
  {later : List (Round σ C O)} (hp : Settled protocol rounds Inv p)
  (hs : p.stage = .active checklist round later)

include hp hs

theorem Staged.proceed_hold {messages : List (Message C)}
    (h : ∀ m ∈ messages, m.round ≠ round.number) (advanced : Bool) :
    proceed later round checklist advanced (p.hold messages) = (.ok advanced, p.hold messages) := by
  obtain ⟨l, hl, hround, -⟩ := hp.active hs
  obtain ⟨hticked, hmissing⟩ := hp.still hs
  have hmem := mem_of_drop hround
  have harrived : round.hasArrived (p.hold messages).state = round.hasArrived p.state := by
    rw [hold, hl.protocol]
    exact funext fun j => hstaged.arrived_takeAll hmem h p.state j
  rw [proceed_of_missing (hstaged.inspect hmem) (by rwa [harrived, hticked]), harrived, hticked,
    ← hs]
  rfl

theorem Staged.hold_past {m : Message C} (hm : m.round < round.number)
    (messages : List (Message C)) : p.hold (m :: messages) = p.hold messages := by
  obtain ⟨l, hl, hround, -⟩ := hp.active hs
  have hget := getElem?_of_drop hround
  rw [hold, Protocol.takeAll_cons, hl.protocol, hstaged.past hget hl.inv hm, hold, hl.protocol]

end Staged

/-! ## The party and the queue -/

/-- A bare party and one behind a queue that have run alike. -/
inductive Mirrors (protocol : Protocol σ C O) (rounds : List (Round σ C O))
    (Inv : ℕ → σ → List (Message C) → List O → Prop) : Party σ C O → OrderedParty σ C O → Prop
  | waits {p : Party σ C O} {queue : List (Message C)} {checklist : Checklist}
      {round : Round σ C O} {later : List (Round σ C O)} (settled : Settled protocol rounds Inv p)
      (stage : p.stage = .active checklist round later) (sorted : Queue.Sorted queue)
      (early : ∀ m ∈ queue, round.number < m.round)
      (admitted : ∀ m ∈ queue, p.validate m = .ok () ∧ Storable protocol Inv m) :
      Mirrors protocol rounds Inv (p.hold queue) ⟨p, queue⟩
  | ends {p : Party σ C O} {q : OrderedParty σ C O} (ended : q.party.HasEnded)
      (alike : q.party.Alike p) : Mirrors protocol rounds Inv p q

theorem Mirrors.alike {protocol : Protocol σ C O} {rounds : List (Round σ C O)}
    {Inv : ℕ → σ → List (Message C) → List O → Prop} {p : Party σ C O} {q : OrderedParty σ C O}
    (h : Mirrors protocol rounds Inv p q) : q.party.Alike p := by
  cases h with
  | waits _ _ _ _ _ => exact ⟨rfl, rfl, rfl⟩
  | ends _ alike => exact alike

def Mirrored (protocol : Protocol σ C O) (rounds : List (Round σ C O))
    (Inv : ℕ → σ → List (Message C) → List O → Prop) (x : Result Bool × Party σ C O)
    (y : Result Bool × OrderedParty σ C O) : Prop :=
  y.1 = x.1 ∧ Mirrors protocol rounds Inv x.2 y.2

section Mirrors

variable {protocol : Protocol σ C O} {rounds : List (Round σ C O)}
  {Inv : ℕ → σ → List (Message C) → List O → Prop} (hstaged : Staged protocol rounds Inv)
  {p : Party σ C O} {checklist : Checklist} {round : Round σ C O} {later : List (Round σ C O)}

omit [Content C] in
theorem Settled.store_eq_ok {m : Message C} (hp : Settled protocol rounds Inv p)
    (hs : p.stage = .active checklist round later) (hstorable : Storable protocol Inv m) :
    ∃ s, p.protocol.store p.state m = .ok s := by
  obtain ⟨l, hl, -, -⟩ := hp.active hs
  rw [hl.protocol]
  exact hstorable l.succ_pos hl.inv

include hstaged

theorem take_mirrored {m : Message C} {queue : List (Message C)}
    (hp : Settled protocol rounds Inv p) (hs : p.stage = .active checklist round later)
    (hvalid : p.validate m = .ok ()) (hstorable : Storable protocol Inv m) (advanced : Bool)
    (hdrain : ∀ {p' checklist' round' later'} (advanced' : Bool), Settled protocol rounds Inv p' →
      p'.stage = .active checklist' round' later' →
      (∀ m', p'.validate m' = .ok () ↔ p.validate m' = .ok ()) →
      Mirrored protocol rounds Inv (proceed later' round' checklist' advanced' (p'.hold queue))
        (OrderedParty.drain queue advanced' p')) :
    Mirrored protocol rounds Inv
      (proceed later round checklist advanced (p.hold (m :: queue)))
      (match p.update m with
        | (.error e, p') => (.error e, ⟨p', queue⟩)
        | (.ok more, p') => OrderedParty.drain queue (advanced || more) p') := by
  obtain ⟨s, hstore⟩ := hp.store_eq_ok hs hstorable
  obtain ⟨k, hk⟩ := hp.follows
  have hpatient := hstaged.toPatient
  have houtcome : Outcome (p.update m) := by
    rw [update_eq_proceed hs hvalid hstore]
    exact outcome_proceed ..
  have hframe := frame_of_moves (p.moves_update m)
  have hsettled := hp.update hpatient.keeps m
  have hdeferred := hp.hold_deferred hs hpatient (hpatient.carried_takeAll queue) [m] false rfl
  have hall : { p.hold [m] with state := protocol.takeAll (p.hold [m]).state queue } =
      p.hold (m :: queue) := by rw [hold, hold, hk.protocol]; rfl
  rw [← update_eq_proceed_hold hs hvalid hstore, hall] at hdeferred
  have hflag := proceed_or later round checklist advanced false (p.hold (m :: queue))
  rw [Bool.or_false] at hflag
  rw [hflag]
  generalize p.update m = x at houtcome hframe hsettled hdeferred ⊢
  generalize proceed later round checklist false (p.hold (m :: queue)) = y at hdeferred ⊢
  cases hdeferred with
  | ends ended answer alike =>
      rw [answer]
      cases houtcome with
      | failed _ => exact ⟨rfl, .ends ended alike⟩
      | finished hfinished =>
          dsimp only
          rw [OrderedParty.drain_of_finished hfinished]
          exact ⟨rfl, .ends ended alike⟩
      | waits hactive _ _ =>
          rcases ended with hended | hended <;> cases hactive.symm.trans hended
  | @waits more checklist' round' later' t answer stage rel rest =>
      obtain ⟨x, p'⟩ := x
      dsimp only at answer stage rel rest hframe hsettled
      subst answer
      have hprotocol : p'.protocol = protocol := hframe.1.trans hk.protocol
      have hy : y = proceed later' round' checklist' more (p'.hold queue) := by
        rw [rest, rel, hold, hprotocol]
      rw [hy, ← proceed_or]
      exact hdrain _ hsettled stage fun m' => validate_eq_ok_congr hframe m'

/-- What a party does at once with all that it has taken up, it does step by step with a queue. -/
theorem drain_mirrored {queue : List (Message C)} (hsorted : Queue.Sorted queue)
    (hp : Settled protocol rounds Inv p) (hs : p.stage = .active checklist round later)
    (hqueue : ∀ m ∈ queue, p.validate m = .ok () ∧ Storable protocol Inv m) (advanced : Bool) :
    Mirrored protocol rounds Inv (proceed later round checklist advanced (p.hold queue))
      (OrderedParty.drain queue advanced p) := by
  induction queue generalizing p checklist round later advanced with
  | nil =>
      have hnothing :
          proceed later round checklist advanced (p.hold []) = (.ok advanced, p.hold []) :=
        hstaged.proceed_hold hp hs (by simp) advanced
      rw [hnothing]
      exact ⟨rfl, .waits hp hs hsorted (by simp) (by simp)⟩
  | cons m rest ih =>
      obtain ⟨hm, hrest⟩ := List.pairwise_cons.1 hsorted
      obtain ⟨⟨hvalid, hstorable⟩, hadmitted⟩ := List.forall_mem_cons.1 hqueue
      rcases lt_trichotomy m.round round.number with hlate | hdue | hearly
      · rw [OrderedParty.drain_of_late hs rest advanced hlate, hstaged.hold_past hp hs hlate]
        exact ih hrest hp hs hadmitted advanced
      · rw [OrderedParty.drain_of_due hs rest advanced hdue]
        refine take_mirrored hstaged hp hs hvalid hstorable advanced ?_
        intro p' checklist' round' later' advanced' hp' hs' hframe
        refine ih hrest hp' hs' (fun a ha => ?_) advanced'
        exact ⟨(hframe a).2 (hadmitted a ha).1, (hadmitted a ha).2⟩
      · -- the queue starts with a later round, so that none of it matters now
        have hall : ∀ a ∈ m :: rest, round.number < a.round := hsorted.forall_lt hearly
        rw [OrderedParty.drain_of_early hs rest advanced hearly,
          hstaged.proceed_hold hp hs (fun a ha => (hall a ha).ne') advanced]
        exact ⟨rfl, .waits hp hs hsorted hall hqueue⟩

theorem update_hold {m : Message C} {queue : List (Message C)} (hsorted : Queue.Sorted queue)
    (hp : Settled protocol rounds Inv p) (hs : p.stage = .active checklist round later)
    (hvalid : p.validate m = .ok ()) (hstorable : Storable protocol Inv m) :
    (p.hold queue).update m =
      proceed later round checklist false (p.hold (Queue.store m queue)) := by
  obtain ⟨l, hl⟩ := hp.follows_hold hs hstaged.toPatient queue
  obtain ⟨s, hstore⟩ := hstorable l.succ_pos hl.inv
  have hprotocol : p.protocol = protocol := hl.protocol
  have hlast : p.hold (Queue.store m queue) =
      { p.hold queue with state := protocol.takeUp (p.hold queue).state m } := by
    rw [hold, hprotocol, hstaged.takeAll_store hsorted, hold, hprotocol]
  rw [update_eq_proceed (p := p.hold queue) hs hvalid (hl.protocol ▸ hstore), hlast,
    Protocol.takeUp_of_store hstore]

theorem Mirrors.update {q : OrderedParty σ C O} (h : Mirrors protocol rounds Inv p q)
    {m : Message C} (hvalid : p.validate m = .ok ()) (hstorable : Storable protocol Inv m) :
    Mirrored protocol rounds Inv (p.update m) (q.update m) := by
  cases h with
  | @ends _ q ended alike =>
      have hp : p.HasEnded := by rwa [HasEnded, alike.stage]
      have hnumber : q.party.roundNumber = .error (.caller .alreadyTerminated) := by
        unfold roundNumber
        rcases ended with ended | ended <;> rw [ended]
      rw [OrderedParty.update_of_error hnumber, Party.update, hvalid, store_of_hasEnded hp]
      exact ⟨rfl, .ends ended alike⟩
  | @waits p queue checklist round later settled stage sorted early admitted =>
      have hnumber : p.roundNumber = .ok round.number := by rw [roundNumber, stage]
      have hfront (h : m.round ≤ round.number) : Queue.store m queue = m :: queue :=
        Queue.store_of_lt fun a ha => h.trans_lt (early a ha)
      rw [update_hold hstaged sorted settled stage hvalid hstorable]
      rcases lt_trichotomy m.round round.number with hlate | hdue | hearly
      · rw [OrderedParty.update_of_late hnumber hlate, hfront hlate.le,
          hstaged.hold_past settled stage hlate,
          hstaged.proceed_hold settled stage (fun a ha => (early a ha).ne') false]
        exact ⟨rfl, .waits settled stage sorted early admitted⟩
      · rw [OrderedParty.update_of_due hnumber hdue, hfront hdue.le]
        refine take_mirrored hstaged settled stage hvalid hstorable false ?_
        intro p' checklist' round' later' advanced' hp' hs' hframe
        refine drain_mirrored hstaged sorted hp' hs' (fun a ha => ?_) advanced'
        exact ⟨(hframe a).2 (admitted a ha).1, (admitted a ha).2⟩
      · have hlater : ∀ a ∈ Queue.store m queue, round.number < a.round :=
          Queue.forall_mem_store.2 ⟨hearly, early⟩
        rw [OrderedParty.update_of_early hnumber hearly,
          hstaged.proceed_hold settled stage (fun a ha => (hlater a ha).ne') false]
        exact ⟨rfl, .waits settled stage (sorted.store m) hlater
          (Queue.forall_mem_store.2 ⟨⟨hvalid, hstorable⟩, admitted⟩)⟩

/-- Hosts that deliver the same messages, all of which are in order on arrival, see the same. -/
theorem Mirrors.views_eq {q : OrderedParty σ C O} (h : Mirrors protocol rounds Inv p q)
    {messages : List (Message C)}
    (hmessages : ∀ m ∈ messages, p.validate m = .ok () ∧ Storable protocol Inv m) :
    q.views messages = p.views messages := by
  induction messages generalizing p q with
  | nil => rfl
  | cons m rest ih =>
      obtain ⟨⟨hvalid, hstorable⟩, hrest⟩ := List.forall_mem_cons.1 hmessages
      obtain ⟨hanswer, hnext⟩ := h.update hstaged hvalid hstorable
      rw [OrderedParty.views, Party.views, hanswer, hnext.alike.symm.view_eq, ih hnext]
      intro a ha
      refine ⟨?_, (hrest a ha).2⟩
      exact (validate_eq_ok_congr (frame_of_moves (p.moves_update m)) a).2 (hrest a ha).1

omit hstaged in
theorem Settled.mirrors (hp : Settled protocol rounds Inv p) :
    Mirrors protocol rounds Inv p ⟨p, []⟩ := by
  rcases hp.hasEnded_or_active with hended | ⟨checklist, round, later, hs⟩
  · exact .ends hended (.refl p)
  · exact .waits hp hs .nil (by simp) (by simp)

end Mirrors

end Party

end ThresholdKeys
