import Mathlib
import ThresholdKeys.Engine.Drill
import ThresholdKeys.Engine.Ordered
import ThresholdKeys.Proofs.Engine.Outcome

/-!
# What a party behind a queue holds back

The queue is in the order of rounds and never holds a message of an earlier round than the running
one. Messages of the running round itself are left in it only by a call that has failed: an error
ends the feeding, and what was not fed yet waits for the next message of that round to get through.
-/

namespace ThresholdKeys

namespace Queue

variable {C : Type} [Content C]

def Sorted (queue : List (Message C)) : Prop := queue.Pairwise fun m m' => m.round ≤ m'.round

theorem mem_store_iff {m held : Message C} {queue : List (Message C)} :
    held ∈ store m queue ↔ held = m ∨ held ∈ queue := by
  induction queue with
  | nil => rw [store, List.mem_singleton, or_iff_left List.not_mem_nil]
  | cons first rest ih =>
      unfold store
      split
      · exact List.mem_cons
      · rw [List.mem_cons, List.mem_cons, ih]
        tauto

theorem forall_mem_store {m : Message C} {queue : List (Message C)} {P : Message C → Prop} :
    (∀ held ∈ store m queue, P held) ↔ P m ∧ ∀ held ∈ queue, P held := by
  simp only [mem_store_iff, forall_eq_or_imp]

theorem store_of_lt {m : Message C} {queue : List (Message C)}
    (h : ∀ held ∈ queue, m.round < held.round) : store m queue = m :: queue := by
  cases queue with
  | nil => rfl
  | cons first rest => rw [store, if_pos (h first List.mem_cons_self)]

/-- Behind a message of a later round all are. -/
theorem Sorted.forall_lt {m : Message C} {rest : List (Message C)} (h : Sorted (m :: rest))
    {number : ℕ} (hm : number < m.round) : ∀ held ∈ m :: rest, number < held.round := by
  rw [List.forall_mem_cons]
  exact ⟨hm, fun held hheld => hm.trans_le ((List.pairwise_cons.1 h).1 held hheld)⟩

theorem Sorted.store {queue : List (Message C)} (h : Sorted queue) (m : Message C) :
    Sorted (Queue.store m queue) := by
  induction queue with
  | nil => exact List.pairwise_singleton _ m
  | cons first rest ih =>
      obtain ⟨hfirst, hrest⟩ := List.pairwise_cons.1 h
      unfold Queue.store
      split
      · rename_i hlt
        refine List.pairwise_cons.2 ⟨fun held hheld => ?_, h⟩
        rcases List.mem_cons.1 hheld with rfl | hheld
        · exact hlt.le
        · exact hlt.le.trans (hfirst held hheld)
      · rename_i hle
        exact List.pairwise_cons.2 ⟨forall_mem_store.2 ⟨Nat.not_lt.1 hle, hfirst⟩, ih hrest⟩

end Queue

namespace OrderedParty

variable {σ C O : Type} [Content C]

/-! ## Runs -/

inductive Call (C : Type)
  | start
  | update (m : Message C)

def after (p : OrderedParty σ C O) : Call C → OrderedParty σ C O
  | .start => p.start.2
  | .update m => (p.update m).2

def run (p : OrderedParty σ C O) (calls : List (Call C)) : OrderedParty σ C O :=
  calls.foldl after p

/-- The call is answered without an error. -/
def Succeeds (p : OrderedParty σ C O) : Call C → Prop
  | .start => p.start.1 = .ok ()
  | .update m => ∃ advanced, (p.update m).1 = .ok advanced

def AllSucceed (p : OrderedParty σ C O) : List (Call C) → Prop
  | [] => True
  | c :: rest => p.Succeeds c ∧ (p.after c).AllSucceed rest

/-- The queue is in order and holds nothing that is late, and nothing before the start. -/
structure Orderly (p : OrderedParty σ C O) : Prop where
  sorted : Queue.Sorted p.queue
  blank : ∀ {first later}, p.party.stage = .notStarted first later → p.queue = []
  due : ∀ {checklist round later}, p.party.stage = .active checklist round later →
    ∀ m ∈ p.queue, round.number ≤ m.round

/-- Nothing that is held back is of the running round or an earlier one. -/
def HoldsOnlyEarly (p : OrderedParty σ C O) : Prop :=
  ∀ {checklist round later}, p.party.stage = .active checklist round later →
    ∀ m ∈ p.queue, round.number < m.round

theorem orderly_new (p : Party σ C O) : Orderly ⟨p, []⟩ where
  sorted := List.Pairwise.nil
  blank _ := rfl
  due _ _ hm := absurd hm List.not_mem_nil

theorem holdsOnlyEarly_new (p : Party σ C O) : HoldsOnlyEarly ⟨p, []⟩ :=
  fun _ _ hm => absurd hm List.not_mem_nil

/-! ## Steps -/

/-- After its last round a party needs nothing of what it holds. -/
theorem orderly_of_hasEnded {p : Party σ C O} {queue : List (Message C)}
    (hsorted : Queue.Sorted queue) (hp : p.HasEnded) :
    Orderly ⟨p, queue⟩ ∧ HoldsOnlyEarly ⟨p, queue⟩ := by
  refine ⟨⟨hsorted, fun h => ?_, fun h => ?_⟩, fun h => ?_⟩ <;>
    rcases hp with hp | hp <;> rw [hp] at h <;> cases h

theorem drain_of_finished {p : Party σ C O} (hs : p.stage = .finished) (queue : List (Message C))
    (advanced : Bool) : drain queue advanced p = (.ok advanced, ⟨p, queue⟩) := by
  cases queue with
  | nil => rfl
  | cons m rest => simp [drain, Party.isFinished, hs]

section Drain

variable {p : Party σ C O} {checklist : Checklist} {round : Round σ C O}
  {later : List (Round σ C O)} (hs : p.stage = .active checklist round later)
  {m : Message C} (rest : List (Message C)) (advanced : Bool)

include hs

theorem drain_of_early (h : round.number < m.round) :
    drain (m :: rest) advanced p = (.ok advanced, ⟨p, m :: rest⟩) := by
  simp [drain, Party.isFinished, Party.roundNumber, hs, h]

theorem drain_of_late (h : m.round < round.number) :
    drain (m :: rest) advanced p = drain rest advanced p := by
  simp [drain, Party.isFinished, Party.roundNumber, hs, h, h.not_gt]

theorem drain_of_due (h : m.round = round.number) :
    drain (m :: rest) advanced p = match p.update m with
      | (.error e, p') => (.error e, ⟨p', rest⟩)
      | (.ok more, p') => drain rest (advanced || more) p' := by
  rw [drain, Party.isFinished, Party.roundNumber, hs]
  exact (if_neg Bool.false_ne_true).trans ((if_neg h.not_gt).trans (if_neg h.not_lt))

end Drain

/-- Feeding a queue in order to a running party leaves it orderly; only an error leaves something
of the running round behind. -/
theorem drain_orderly {queue : List (Message C)} (hsorted : Queue.Sorted queue) (advanced : Bool)
    {p : Party σ C O} (hp : ∀ first later, p.stage ≠ .notStarted first later) :
    (drain queue advanced p).2.Orderly ∧
      (∀ {advanced'}, (drain queue advanced p).1 = .ok advanced' →
        (drain queue advanced p).2.HoldsOnlyEarly) := by
  induction queue generalizing advanced p with
  | nil => exact ⟨orderly_new p, fun _ => holdsOnlyEarly_new p⟩
  | cons m rest ih =>
      obtain ⟨hm, hrest⟩ := List.pairwise_cons.1 hsorted
      cases hs : p.stage with
      | notStarted first later => exact absurd hs (hp first later)
      | finished =>
          rw [drain_of_finished hs]
          have hended := orderly_of_hasEnded hsorted (Or.inl hs)
          exact ⟨hended.1, fun _ => hended.2⟩
      | failed =>
          have hended := orderly_of_hasEnded hsorted (Or.inr hs)
          simp only [drain, Party.isFinished, Party.roundNumber, hs, Bool.false_eq_true, if_false]
          exact ⟨hended.1, fun _ => hended.2⟩
      | active checklist round later =>
          rcases lt_trichotomy m.round round.number with hlate | hdue | hearly
          · rw [drain_of_late hs rest advanced hlate]
            exact ih hrest advanced hp
          · rw [drain_of_due hs rest advanced hdue]
            have houtcome := p.update_cases m
            generalize p.update m = r at houtcome ⊢
            rcases houtcome with ⟨e, rfl⟩ | houtcome
            · refine ⟨⟨hrest, fun h => (by rw [hs] at h; cases h), ?_⟩, fun h => by cases h⟩
              intro checklist' round' later' hs' held hheld
              cases hs.symm.trans hs'
              exact hdue ▸ hm held hheld
            · cases houtcome with
              | failed hq =>
                  exact ⟨(orderly_of_hasEnded hrest (Or.inr hq)).1, fun h => by cases h⟩
              | finished hq =>
                  exact ih hrest _ fun first later h => by rw [hq] at h; cases h
              | waits hq _ _ =>
                  exact ih hrest _ fun first later h => by rw [hq] at h; cases h
          · rw [drain_of_early hs rest advanced hearly]
            have hall : HoldsOnlyEarly ⟨p, m :: rest⟩ := by
              intro checklist' round' later' hs'
              cases hs.symm.trans hs'
              exact hsorted.forall_lt hearly
            exact ⟨⟨hsorted, fun h => (by rw [hs] at h; cases h),
              fun hs' held hheld => (hall hs' held hheld).le⟩, fun _ => hall⟩

theorem Orderly.start {p : OrderedParty σ C O} (h : p.Orderly) :
    p.start.2.Orderly ∧ (p.HoldsOnlyEarly → p.start.2.HoldsOnlyEarly) := by
  cases hs : p.party.stage with
  | notStarted first later =>
      have hqueue := h.blank hs
      have hstart : p.start.2 = ⟨p.party.start.2, []⟩ := by rw [OrderedParty.start, ← hqueue]
      rw [hstart]
      exact ⟨orderly_new _, fun _ => holdsOnlyEarly_new _⟩
  | active _ _ _ | finished | failed =>
      have hstart : p.start.2 = p := by
        unfold OrderedParty.start Party.start
        rw [hs]
      rw [hstart]
      exact ⟨h, id⟩

section Update

variable {p : OrderedParty σ C O} {m : Message C} {number : ℕ}
  (hnumber : p.party.roundNumber = .ok number)

include hnumber

theorem update_of_early (h : number < m.round) :
    p.update m = (.ok false, { p with queue := Queue.store m p.queue }) := by
  unfold update
  rw [hnumber]
  exact if_pos h

theorem update_of_late (h : m.round < number) : p.update m = (.ok false, p) := by
  unfold update
  rw [hnumber]
  exact (if_neg h.not_gt).trans (if_pos h)

theorem update_of_due (h : m.round = number) :
    p.update m = match p.party.update m with
      | (.error e, party) => (.error e, { p with party })
      | (.ok advanced, party) => drain p.queue advanced party := by
  unfold update
  rw [hnumber]
  exact (if_neg h.not_gt).trans (if_neg h.not_lt)

end Update

theorem update_of_error {p : OrderedParty σ C O} {e : Error} (h : p.party.roundNumber = .error e)
    (m : Message C) : p.update m = (.error e, p) := by
  unfold update
  rw [h]

theorem Orderly.update {p : OrderedParty σ C O} (h : p.Orderly) (m : Message C) :
    (p.update m).2.Orderly ∧
      (∀ advanced, (p.update m).1 = .ok advanced →
        (p.HoldsOnlyEarly ∨ p.party.roundNumber = .ok m.round) →
          (p.update m).2.HoldsOnlyEarly) := by
  cases hs : p.party.stage with
  | notStarted _ _ | finished | failed =>
      rw [update_of_error (by rw [Party.roundNumber, hs])]
      exact ⟨h, fun advanced hadvanced => by cases hadvanced⟩
  | active checklist round later =>
      have hnumber : p.party.roundNumber = .ok round.number := by rw [Party.roundNumber, hs]
      rcases lt_trichotomy m.round round.number with hlate | hdue | hearly
      · rw [update_of_late hnumber hlate]
        refine ⟨h, fun _ _ hcase => hcase.resolve_right fun hround => ?_⟩
        exact hlate.ne' (Except.ok.inj (hnumber.symm.trans hround))
      · rw [update_of_due hnumber hdue]
        have houtcome := p.party.update_cases m
        generalize p.party.update m = r at houtcome ⊢
        rcases houtcome with ⟨e, rfl⟩ | houtcome
        · exact ⟨h, fun advanced hadvanced => by cases hadvanced⟩
        · cases houtcome with
          | failed hq =>
              exact ⟨(orderly_of_hasEnded h.sorted (Or.inr hq)).1,
                fun advanced hadvanced => by cases hadvanced⟩
          | finished hq =>
              have hdrain := drain_orderly h.sorted true
                fun first later h => by rw [hq] at h; cases h
              exact ⟨hdrain.1, fun _ hadvanced _ => hdrain.2 hadvanced⟩
          | @waits advanced _ _ _ _ hq _ _ =>
              have hdrain := drain_orderly h.sorted advanced
                fun first later h => by rw [hq] at h; cases h
              exact ⟨hdrain.1, fun _ hadvanced _ => hdrain.2 hadvanced⟩
      · rw [update_of_early hnumber hearly]
        refine ⟨⟨h.sorted.store m, fun h => (by rw [hs] at h; cases h), ?_⟩, ?_⟩
        · intro checklist' round' later' hs'
          cases hs.symm.trans hs'
          exact Queue.forall_mem_store.2 ⟨hearly.le, h.due hs⟩
        · intro _ _ hcase checklist' round' later' hs'
          cases hs.symm.trans hs'
          rcases hcase with hall | hround
          · exact Queue.forall_mem_store.2 ⟨hearly, hall hs⟩
          · exact absurd (Except.ok.inj (hnumber.symm.trans hround)) hearly.ne

theorem Orderly.after {p : OrderedParty σ C O} (h : p.Orderly) (c : Call C) :
    (p.after c).Orderly ∧ (p.Succeeds c → p.HoldsOnlyEarly → (p.after c).HoldsOnlyEarly) := by
  cases c with
  | start => exact ⟨h.start.1, fun _ => h.start.2⟩
  | update m =>
      refine ⟨(h.update m).1, fun hsucceeds hearly => ?_⟩
      obtain ⟨advanced, hadvanced⟩ := hsucceeds
      exact (h.update m).2 advanced hadvanced (Or.inl hearly)

theorem Orderly.run {p : OrderedParty σ C O} (h : p.Orderly) (calls : List (Call C)) :
    (p.run calls).Orderly ∧
      (p.AllSucceed calls → p.HoldsOnlyEarly → (p.run calls).HoldsOnlyEarly) := by
  induction calls generalizing p with
  | nil => exact ⟨h, fun _ => id⟩
  | cons c rest ih =>
      obtain ⟨horderly, hearly⟩ := h.after c
      obtain ⟨horderly', hearly'⟩ := ih horderly
      exact ⟨horderly', fun ⟨hc, hrest⟩ hp => hearly' hrest (hearly hc hp)⟩

/-! ## What is held after a run -/

/-- In every run the queue stays in the order of rounds and holds nothing that is late. It holds
messages of the running round only if some call has failed, and then no longer than until the next
message of that round is taken without an error. -/
theorem held_of_run (p : Party σ C O) (calls : List (Call C)) :
    Queue.Sorted (run ⟨p, []⟩ calls).queue ∧
      ∀ {checklist round later},
        (run ⟨p, []⟩ calls).party.stage = .active checklist round later →
          (∀ m ∈ (run ⟨p, []⟩ calls).queue, round.number ≤ m.round) ∧
          (AllSucceed ⟨p, []⟩ calls → ∀ m ∈ (run ⟨p, []⟩ calls).queue, round.number < m.round) ∧
          ∀ m advanced, m.round = round.number →
            ((run ⟨p, []⟩ calls).update m).1 = .ok advanced →
              ((run ⟨p, []⟩ calls).update m).2.HoldsOnlyEarly := by
  obtain ⟨horderly, hearly⟩ := (orderly_new p).run calls
  refine ⟨horderly.sorted, fun {checklist round later} hs => ⟨horderly.due hs, ?_, ?_⟩⟩
  · intro hsucceed
    exact hearly hsucceed (holdsOnlyEarly_new p) hs
  · intro m advanced hround hadvanced
    apply (horderly.update m).2 advanced hadvanced
    right
    rw [hround, Party.roundNumber, hs]

end OrderedParty

/-! ## Three parties -/

namespace Drill

def crew : List PartyId :=
  [⟨"a", "A", 1, some 0⟩, ⟨"b", "B", 2, some 1⟩, ⟨"c", "C", 3, some 2⟩]

def leader : Party State Ping Unit :=
  newParty ⟨"a", "A", 1, some 0⟩ 3 ⟨1, crew, [0], .ok, false, .ok, .ok⟩
    [⟨2, crew, [0], .ok, false, .ok, .ok⟩]

def pingOfB (round : ℕ) (acceptable : Bool) : Message Ping :=
  .broadcast ⟨"b", "B", 2, some 1⟩ .new ⟨round, acceptable, 0⟩

def pingOfC (round : ℕ) : Message Ping := .broadcast ⟨"c", "C", 3, some 2⟩ .new ⟨round, true, 0⟩

end Drill

namespace OrderedParty

open Drill

theorem held_of_run_leader : ∃ checklist round later,
    (run ⟨leader, []⟩ [.start, .update (pingOfC 2), .update (pingOfB 1 true)]).party.stage =
      .active checklist round later ∧
    ∀ m ∈ (run ⟨leader, []⟩ [.start, .update (pingOfC 2), .update (pingOfB 1 true)]).queue,
      round.number < m.round := by
  obtain ⟨checklist, round, later, hs, -⟩ := Party.roundNumber_eq_ok_iff.1
    (show (run ⟨leader, []⟩
      [.start, .update (pingOfC 2), .update (pingOfB 1 true)]).party.roundNumber = .ok 1 from rfl)
  have hsucceed : AllSucceed ⟨leader, []⟩
      [.start, .update (pingOfC 2), .update (pingOfB 1 true)] :=
    ⟨rfl, ⟨false, rfl⟩, ⟨false, rfl⟩, trivial⟩
  exact ⟨checklist, round, later, hs, ((held_of_run leader _).2 hs).2.1 hsucceed⟩

end OrderedParty

end ThresholdKeys
