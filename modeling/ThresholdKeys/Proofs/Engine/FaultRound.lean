import Mathlib
import ThresholdKeys.Proofs.Engine.Failure

/-!
# Which round a fault names

A computation that raises faults of one round only is made of parts that do. If entering a round
raises faults of that round only, a message that a running party does not take well leads to a fault
of the running round or of one that the party tries to enter, unless its sender is an outsider to the
protocol: that is told apart as the message is stored, and such a fault names the round of the
message.
-/

namespace ThresholdKeys

namespace Result

variable {α β : Type} {n : ℕ}

def FaultsIn (n : ℕ) (x : Result α) : Prop := ∀ f, x = .error (.fault f) → f.round = n

theorem faultsIn_ok (n : ℕ) (a : α) : FaultsIn n (.ok a) := nofun

theorem FaultsIn.bind {x : Result α} {f : α → Result β} (hx : FaultsIn n x)
    (hf : ∀ a, FaultsIn n (f a)) : FaultsIn n (x >>= f) := by
  intro fault h
  rcases bind_eq_error_iff.1 h with h | ⟨a, -, h⟩
  · exact hx fault h
  · exact hf a fault h

theorem FaultsIn.map {x : Result α} (hx : FaultsIn n x) (f : α → β) : FaultsIn n (x.map f) :=
  fun fault h => hx fault (map_eq_error_iff.1 h)

theorem faultsIn_mapM {f : α → Result β} (hf : ∀ a, FaultsIn n (f a)) (as : List α) :
    FaultsIn n (as.mapM f) := by
  induction as with
  | nil => exact faultsIn_ok n []
  | cons a as ih =>
      rw [mapM_cons]
      exact (hf a).bind fun b => ih.bind fun bs => faultsIn_ok n (b :: bs)

end Result

namespace Party

variable {σ C O : Type} [Content C]

/-- The fault names the round that the party is in, or one that the message makes it try to enter. -/
inductive NamesReached (p : Party σ C O) (m : Message C) (f : Fault) : Prop
  | running (hculprits : f.culprits = [m.sender]) (hround : p.roundNumber = .ok f.round)
  | entered {target : Round σ C O} {q : Party σ C O} (h : Attempts target q p (.update m))
      (he : q.enter target = .error (.fault f)) (hround : f.round = target.number)

/-- The fault is the one raised against an outsider as the message is stored; it names the round that
the message speaks of. -/
structure NamesOutsider (cause : FaultCause) (p : Party σ C O) (m : Message C) (f : Fault) :
    Prop where
  store : p.protocol.store p.state m = .error (.fault f)
  cause_eq : f.cause = cause
  culprits : f.culprits = [m.sender]
  round_eq : f.round = m.round

variable {rounds : List (Round σ C O)} {k : ℕ} {p q : Party σ C O} {m : Message C} {f : Fault}

/-- The round of the message is one that is reached only if it is the running one: such a message is
not stored, so no round is tried. -/
theorem NamesOutsider.namesReached_iff {cause : FaultCause} (h : NamesOutsider cause p m f) :
    p.NamesReached m f ↔ p.roundNumber = .ok m.round := by
  constructor
  · rintro (⟨-, hrunning⟩ | ⟨hq, -, -⟩)
    · exact h.round_eq ▸ hrunning
    · cases hq with
      | update _ _ hstore _ => exact absurd (hstore.symm.trans h.store) nofun
  · intro hrunning
    exact .running h.culprits (h.round_eq ▸ hrunning)

theorem NamesOutsider.answer {cause : FaultCause} (h : NamesOutsider cause p m f)
    (hactive : p.phase = .active) (hvalid : p.validate m = .ok ()) :
    (p.update m).1 = .error (.fault f) := by
  cases hs : p.stage with
  | active checklist round later => rw [update_of_store_error hs hvalid h.store]
  | notStarted | finished | failed =>
      rw [phase, hs] at hactive
      cases hactive

omit [Content C] in
theorem GetsTo.mem {target round : Round σ C O} {after later : List (Round σ C O)}
    {checklist : Checklist} (h : GetsTo target after q later round checklist p) :
    target ∈ later := by
  induction h with
  | now _ _ => exact List.mem_cons_self
  | later _ _ _ _ ih => exact List.mem_cons_of_mem _ ih

theorem Lives.mem_of_attempts (hp : Lives rounds k p) {target : Round σ C O}
    (h : Attempts target q p (.update m)) : target ∈ rounds := by
  cases h with
  | update hs _ _ hq =>
      obtain ⟨l, -, hdrop, -, -⟩ := hp.inside hs
      exact List.mem_of_mem_drop (hdrop ▸ List.mem_cons_of_mem _ hq.mem)

/-- Where entering a round raises faults of that round only, a fault that a running party raises over
a message names a round that is reached, or an outsider. -/
theorem Lives.names_of_fault {cause : FaultCause} (hrounds : Concluding rounds)
    (hp : Lives rounds k p)
    (henter : ∀ round ∈ rounds, ∀ s, Result.FaultsIn round.number (round.enter s))
    (hstore : ∀ {e}, p.protocol.store p.state m = .error e →
      e = .fault ⟨p.protocol.task, m.round, [m.sender], cause⟩)
    (hactive : p.phase = .active) (h : (p.update m).1 = .error (.fault f)) :
    p.NamesReached m f ∨ NamesOutsider cause p m f := by
  cases hp.failsBy_update hrounds h with
  | misuse he => cases he
  | sender hm hcause he =>
      cases hm
      obtain rfl := Error.fault.inj he
      refine Or.inl (.running rfl ?_)
      cases hs : p.stage with
      | active checklist round later =>
          rw [Party.roundNumber, chargedRound, hs]
      | notStarted | finished | failed =>
          rw [phase, hs] at hactive
          cases hactive
  | store hm _ he =>
      cases hm
      obtain rfl := Error.fault.inj (hstore he)
      exact Or.inr ⟨he, rfl, rfl, rfl⟩
  | enterFirst hc _ _ => cases hc
  | enter hq he =>
      refine Or.inl (.entered hq he ?_)
      rcases error_of_enter he with hentry | hentry
      · exact henter _ (hp.mem_of_attempts hq) _ f hentry
      · cases hentry

theorem Lives.namesReached_iff {cause : FaultCause} (hrounds : Concluding rounds)
    (hp : Lives rounds k p)
    (henter : ∀ round ∈ rounds, ∀ s, Result.FaultsIn round.number (round.enter s))
    (hstore : ∀ {e}, p.protocol.store p.state m = .error e →
      e = .fault ⟨p.protocol.task, m.round, [m.sender], cause⟩)
    (hactive : p.phase = .active) (h : (p.update m).1 = .error (.fault f)) :
    p.NamesReached m f ↔ (NamesOutsider cause p m f → p.roundNumber = .ok m.round) := by
  constructor
  · intro hreached houtsider
    exact houtsider.namesReached_iff.1 hreached
  · intro hround
    rcases hp.names_of_fault hrounds henter hstore hactive h with hreached | houtsider
    · exact hreached
    · exact houtsider.namesReached_iff.2 (hround houtsider)

end Party

end ThresholdKeys
