import Mathlib
import ThresholdKeys.Proofs.Engine.Attempt
import ThresholdKeys.Proofs.Engine.Trace

/-!
# The life of a party

A party is started, goes through its rounds one after the other and finishes, unless it fails on
the way; then nothing happens to it any more. If only the last round yields a result, and waits for
nobody, then a party has put out its result exactly when it has finished.
-/

namespace ThresholdKeys

variable {σ C O : Type}

/-! ## Phases -/

inductive Phase
  | notStarted
  | active
  | finished
  | failed
deriving DecidableEq

inductive Phase.Next : Phase → Phase → Prop
  | start : Next .notStarted .active
  | finish : Next .active .finished
  | failStart : Next .notStarted .failed
  | fail : Next .active .failed

def Stage.phase : Stage σ C O → Phase
  | .notStarted .. => .notStarted
  | .active .. => .active
  | .finished => .finished
  | .failed => .failed

namespace Party

def phase (p : Party σ C O) : Phase := p.stage.phase

theorem Moves.phase {p q : Party σ C O} (h : Moves p q) :
    Relation.ReflTransGen Phase.Next p.phase q.phase := by
  unfold Party.phase
  cases h with
  | enterFirst hp _ => rw [hp]; exact .single .start
  | look hp | enterNext hp _ _ => rw [hp]; exact .refl
  | finish hp _ => rw [hp]; exact .single .finish
  | failFirst hp => rw [hp]; exact .single .failStart
  | fail hp => rw [hp]; exact .single .fail
  | store _ _ | closeOutbox | closeResults => exact .refl

theorem phase_of_moves {p q : Party σ C O} (h : Relation.ReflTransGen Moves p q) :
    Relation.ReflTransGen Phase.Next p.phase q.phase := by
  induction h with
  | refl => exact .refl
  | tail _ hmove ih => exact ih.trans hmove.phase

/-! ## Rounds that end in a result -/

/-- Rounds are numbered from 1 on, find nothing wrong after their entry, and yield nothing but for
the last, which yields one result and waits for nobody. -/
structure Concluding (rounds : List (Round σ C O)) : Prop where
  number : ∀ {l round}, rounds[l]? = some round → round.number = l + 1
  inspect : ∀ {round}, round ∈ rounds → ∀ s, round.inspect s = .ok ()
  silent : ∀ {l round s entry}, rounds[l]? = some round → l + 1 < rounds.length →
    round.enter s = .ok entry → entry.result = none
  yields : ∀ {l round s entry}, rounds[l]? = some round → l + 1 = rounds.length →
    round.enter s = .ok entry → ∃ o, entry.result = some o
  expected : ∀ {l round}, rounds[l]? = some round → l + 1 = rounds.length → round.expected = []

/-- A party in a round with others ahead has yielded nothing; in its last round it has yielded its
result and misses nothing. -/
structure Inside (later : List (Round σ C O)) (checklist : Checklist) (p : Party σ C O) : Prop where
  results : p.results.sent.length = if later.isEmpty then 1 else 0
  complete : later = [] → ∀ arrived, (checklist.tickWhere arrived).isComplete = true

def Reached (rounds : List (Round σ C O)) (k : ℕ) : Stage σ C O → Prop
  | .notStarted first later => k = 0 ∧ rounds = first :: later
  | .active _ round later => later ≠ [] ∧ ∃ l, k = l + 1 ∧ rounds.drop l = round :: later
  | .finished => k = rounds.length
  | .failed => k ≤ rounds.length

/-- A party that has tried to enter `k` rounds and has yielded one result if it has finished, and
otherwise none. -/
structure Lives (rounds : List (Round σ C O)) (k : ℕ) (p : Party σ C O) : Prop where
  reached : Reached rounds k p.stage
  results : p.results.sent.length = if p.isFinished then 1 else 0

/-- Looking for progress after `l` rounds ends after `k`: the rounds between were tried in turn,
and a party that is still waiting tells whether there were any. -/
structure Passes (rounds : List (Round σ C O)) (advanced : Bool) (l k : ℕ) (numbers : List ℕ)
    (outcome : Result Bool × Party σ C O) : Prop where
  le : l ≤ k
  numbers : numbers = List.range' (l + 1) (k - l)
  lives : Lives rounds k outcome.2
  tells : ∀ b, outcome.1 = .ok b → outcome.2.isFinished = false →
    (b = true ↔ advanced = true ∨ l < k)

section Concluding

variable {rounds later : List (Round σ C O)} {round : Round σ C O} {k l : ℕ} {p q : Party σ C O}
  {checklist : Checklist}

theorem range'_succ_of_lt {k l : ℕ} (h : l < k) :
    List.range' (l + 1) (k - l) = (l + 1) :: List.range' (l + 2) (k - (l + 1)) := by
  rw [show k - l = k - (l + 1) + 1 by omega, List.range'_succ]

theorem Concluding.enter (hrounds : Concluding rounds) (hdrop : rounds.drop l = round :: later)
    (hnone : p.results.sent.length = 0) (h : p.enter round = .ok (q, checklist)) :
    q.Inside later checklist := by
  have hround := getElem?_of_drop hdrop
  have hlen := length_of_drop hdrop
  obtain ⟨entry, outbox, results, hentry, -, hresults, rfl, rfl⟩ := enter_eq_ok_iff.1 h
  have hsent : results.sent = entry.result.toList := by
    rw [sent_of_send hresults, List.length_eq_zero_iff.1 hnone, List.nil_append]
  cases later with
  | nil =>
      have hlast : l + 1 = rounds.length := hlen
      obtain ⟨o, ho⟩ := hrounds.yields hround hlast hentry
      refine ⟨by rw [hsent, ho]; rfl, fun _ arrived => ?_⟩
      have hnobody : round.expected.length = 0 := by rw [hrounds.expected hround hlast]; rfl
      have hreflects := Checklist.reflects_entered p.protocol.task round entry.state entry.ticked
        fun j _ hj => absurd (hnobody ▸ hj) (Nat.not_lt_zero j)
      have hentries := List.length_eq_zero_iff.1 (hreflects.length_eq.trans hnobody)
      simp only [Checklist.isComplete, Checklist.tickWhere, hentries, hreflects.started,
        List.mapIdx_nil, List.all_nil, Bool.and_self]
  | cons next later =>
      rw [List.length_cons] at hlen
      refine ⟨?_, fun h => absurd h (List.cons_ne_nil _ _)⟩
      rw [hsent, hrounds.silent hround (by omega) hentry]
      rfl

/-- Looking for progress tries the rounds ahead in turn. -/
theorem Concluding.proceed (hrounds : Concluding rounds) (hdrop : rounds.drop l = round :: later)
    (hinside : p.Inside later checklist) (advanced : Bool) :
    ∃ k, Passes rounds advanced (l + 1) k (proceedTraced later round checklist advanced p).1
      (proceed later round checklist advanced p) := by
  -- on the rounds ahead; `Inside` carries that nothing is yielded before the last of them
  induction later generalizing l round checklist advanced p with
  | nil =>
      have hlen := length_of_drop hdrop
      have hinspect := hrounds.inspect (mem_of_drop hdrop) p.state
      have hdone := hinside.complete rfl (round.hasArrived p.state)
      rw [proceed_nil_of_complete hinspect hdone]
      refine ⟨l + 1, le_rfl, ?_, ⟨hlen, hinside.results⟩, fun b _ h => by cases h⟩
      simp only [proceedTraced, hinspect, hdone, if_true, Nat.sub_self, List.range'_zero]
  | cons next later ih =>
      have hinspect := hrounds.inspect (mem_of_drop hdrop) p.state
      have hnext := drop_succ_of_drop hdrop
      have hget := getElem?_of_drop hnext
      have hlen := length_of_drop hnext
      cases hdone : (checklist.tickWhere (round.hasArrived p.state)).isComplete with
      | false =>
          rw [proceed_of_missing hinspect hdone]
          refine ⟨l + 1, le_rfl, ?_, ⟨⟨List.cons_ne_nil _ _, l, rfl, hdrop⟩, hinside.results⟩,
            fun b hb _ => ?_⟩
          · simp only [proceedTraced, hinspect, hdone, Bool.false_eq_true, if_false, Nat.sub_self,
              List.range'_zero]
          · rw [← Except.ok.inj hb]
            simp only [Nat.lt_irrefl, or_false]
      | true =>
          rw [proceed_cons_of_complete hinspect hdone]
          simp only [proceedTraced, hinspect, hdone, if_true]
          cases henter : p.enter next with
          | error e =>
              refine ⟨l + 2, Nat.le_succ _, ?_, ⟨?_, hinside.results⟩, fun b hb => by cases hb⟩
              · rw [hrounds.number hget, range'_succ_of_lt (Nat.lt_succ_self _), Nat.sub_self,
                  List.range'_zero]
              · change l + 2 ≤ rounds.length
                omega
          | ok r =>
              obtain ⟨q, checklist'⟩ := r
              obtain ⟨k, hk⟩ := ih hnext (hrounds.enter hnext hinside.results henter) true
              refine ⟨k, Nat.le_of_succ_le hk.le, ?_, hk.lives, fun b hb hq => ?_⟩
              · rw [range'_succ_of_lt hk.le, ← hk.numbers, hrounds.number hget]
              · rw [hk.tells b hb hq]
                simp only [true_or, true_iff]
                exact Or.inr hk.le

theorem Lives.congr (hp : Lives rounds k p) (h : p.Alike q) : Lives rounds k q where
  reached := by
    rw [h.stage]
    exact hp.reached
  results := by
    rw [h.results, isFinished, h.stage]
    exact hp.results

theorem alike_store (p : Party σ C O) (m : Message C) : p.Alike (p.store m).2 := by
  unfold store
  cases hs : p.stage with
  | active checklist round later =>
      dsimp only
      cases p.protocol.store p.state m with
      | error e => exact .refl p
      | ok s => exact ⟨hs.symm, rfl, rfl⟩
  | notStarted | finished | failed => exact .refl p

theorem Lives.inside (hp : Lives rounds k p) (hs : p.stage = .active checklist round later) :
    ∃ l, k = l + 1 ∧ rounds.drop l = round :: later ∧ later ≠ [] ∧ p.Inside later checklist := by
  have hreached := hp.reached
  rw [hs] at hreached
  obtain ⟨hlater, l, rfl, hdrop⟩ := hreached
  have hresults := hp.results
  rw [isFinished, hs, if_neg Bool.false_ne_true] at hresults
  refine ⟨l, rfl, hdrop, hlater, ?_, fun h => absurd h hlater⟩
  rw [hresults, if_neg (by rwa [List.isEmpty_iff])]

theorem Lives.roundNumber (hrounds : Concluding rounds) (hp : Lives rounds k p)
    (hs : p.stage = .active checklist round later) : p.roundNumber = .ok k := by
  obtain ⟨l, rfl, hdrop, -⟩ := hp.inside hs
  rw [Party.roundNumber, hs]
  exact congrArg _ (hrounds.number (getElem?_of_drop hdrop))

theorem Lives.le_length (hp : Lives rounds k p) : k ≤ rounds.length := by
  have hreached := hp.reached
  cases hs : p.stage with
  | notStarted first later => rw [hs] at hreached; exact hreached.1 ▸ Nat.zero_le _
  | active checklist round later =>
      obtain ⟨l, rfl, hdrop, -⟩ := hp.inside hs
      have := length_of_drop hdrop
      omega
  | finished => rw [hs] at hreached; exact Nat.le_of_eq hreached
  | failed => rw [hs] at hreached; exact hreached

theorem Lives.untried (hp : Lives rounds k p) :
    ∃ k', k ≤ k' ∧ [] = List.range' (k + 1) (k' - k) ∧ Lives rounds k' p :=
  ⟨k, le_rfl, by rw [Nat.sub_self, List.range'_zero], hp⟩

theorem Lives.start (hrounds : Concluding rounds) (hp : Lives rounds k p) : ∃ k', k ≤ k' ∧
    p.startTraced.1 = List.range' (k + 1) (k' - k) ∧ Lives rounds k' p.start.2 := by
  unfold startTraced Party.start
  cases hs : p.stage with
  | notStarted first later =>
      have hreached := hp.reached
      have hresults := hp.results
      rw [hs] at hreached
      rw [isFinished, hs, if_neg Bool.false_ne_true] at hresults
      obtain ⟨rfl, hfirst⟩ := hreached
      have hdrop : rounds.drop 0 = first :: later := hfirst
      have hget := getElem?_of_drop hdrop
      have hlen := length_of_drop hdrop
      dsimp only
      cases first.prepare p.state with
      | error e => exact ⟨0, le_rfl, rfl, Nat.zero_le _, hresults⟩
      | ok u =>
          cases henter : p.enter first with
          | error e =>
              refine ⟨1, Nat.zero_le 1, ?_, ?_, hresults⟩
              · rw [hrounds.number hget]; rfl
              · change 1 ≤ rounds.length
                omega
          | ok r =>
              obtain ⟨q, checklist⟩ := r
              obtain ⟨k', hk'⟩ := hrounds.proceed hdrop (hrounds.enter hdrop hresults henter) false
              refine ⟨k', Nat.zero_le _, ?_, hk'.lives⟩
              rw [range'_succ_of_lt (Nat.lt_of_succ_le hk'.le), ← hk'.numbers, hrounds.number hget]
  | active | finished | failed => exact hp.untried

def AdvancesTo (p q : Party σ C O) : Prop :=
  (∃ a b, p.roundNumber = .ok a ∧ q.roundNumber = .ok b ∧ a < b) ∨
    (p.isFinished = false ∧ q.isFinished = true)

theorem not_advancesTo_self (p : Party σ C O) : ¬ p.AdvancesTo p := by
  rintro (⟨a, b, ha, hb, hlt⟩ | ⟨h, h'⟩)
  · rw [ha] at hb
    exact absurd hlt (by rw [Except.ok.inj hb]; exact Nat.lt_irrefl b)
  · exact absurd (h.symm.trans h') Bool.false_ne_true

/-- What taking a message tells: whether the party has advanced, that is, if there is no error,
whether rounds were tried. -/
structure Tells (p : Party σ C O) (numbers : List ℕ) (outcome : Result Bool × Party σ C O) :
    Prop where
  advances : outcome.1 = .ok true ↔ p.AdvancesTo outcome.2
  entered : ∀ b, outcome.1 = .ok b → (b = true ↔ numbers ≠ [])

theorem tells_of_refused (e : Error) : Tells p [] (.error e, p) where
  advances := ⟨(fun h => by cases h), fun h => absurd h p.not_advancesTo_self⟩
  entered b h := by cases h

theorem Passes.tells_of_active {numbers : List ℕ} {outcome : Result Bool × Party σ C O} {k' : ℕ}
    (hrounds : Concluding rounds) (h : Passes rounds false k k' numbers outcome)
    (houtcome : Outcome outcome) (hnumber : p.roundNumber = .ok k)
    (hunfinished : p.isFinished = false) (hlt : k < rounds.length) : Tells p numbers outcome := by
  have hnumbers : numbers ≠ [] ↔ k < k' := by
    rw [h.numbers, ne_eq, List.range'_eq_nil_iff]
    omega
  cases houtcome with
  | failed hq =>
      refine ⟨⟨(fun h => by cases h), ?_⟩, fun b hb => by cases hb⟩
      rintro (⟨a, b, -, hb, -⟩ | ⟨-, hq'⟩)
      · rw [Party.roundNumber, hq] at hb
        cases hb
      · rw [isFinished, hq] at hq'
        cases hq'
  | finished hq =>
      have hreached := h.lives.reached
      rw [hq] at hreached
      refine ⟨⟨fun _ => Or.inr ⟨hunfinished, by rw [isFinished, hq]⟩, fun _ => rfl⟩, fun b hb => ?_⟩
      rw [← Except.ok.inj hb, hnumbers]
      -- the round that it was in is not the last, so there was another to try
      exact iff_of_true rfl (hreached ▸ hlt)
  | @waits advanced q _ _ _ hq _ _ =>
      have hactive : q.isFinished = false := by rw [isFinished, hq]
      have htells := h.tells advanced rfl hactive
      have hnumber' := h.lives.roundNumber hrounds hq
      simp only [Bool.false_eq_true, false_or] at htells
      refine ⟨?_, fun b hb => by rw [← Except.ok.inj hb, hnumbers, htells]⟩
      constructor
      · intro hb
        exact Or.inl ⟨k, k', hnumber, hnumber', htells.1 (Except.ok.inj hb)⟩
      · rintro (⟨a, b, ha, hb, hab⟩ | ⟨-, hq'⟩)
        · rw [hnumber] at ha
          rw [hnumber'] at hb
          exact congrArg _ (htells.2 (by rwa [Except.ok.inj ha, Except.ok.inj hb]))
        · exact absurd (hactive.symm.trans hq') Bool.false_ne_true

variable [Content C]

/-- Taking a message is refused, or it tries rounds in turn; it tells whether it did. -/
theorem Lives.update (hrounds : Concluding rounds) (hp : Lives rounds k p) (m : Message C) :
    Tells p (p.updateTraced m).1 (p.update m) ∧ ∃ k', k ≤ k' ∧
      (p.updateTraced m).1 = List.range' (k + 1) (k' - k) ∧ Lives rounds k' (p.update m).2 := by
  have hrefused (e : Error) : Tells p [] (.error e, p) ∧ ∃ k', k ≤ k' ∧
      [] = List.range' (k + 1) (k' - k) ∧ Lives rounds k' p :=
    ⟨tells_of_refused e, hp.untried⟩
  unfold updateTraced Party.update
  cases p.validate m with
  | error e => exact hrefused e
  | ok u =>
      unfold store
      cases hs : p.stage with
      | notStarted | finished | failed => exact hrefused _
      | active checklist round later =>
          dsimp only
          cases p.protocol.store p.state m with
          | error e => exact hrefused e
          | ok s =>
              dsimp only [advanceTraced, advance]
              have hnumber := hp.roundNumber hrounds hs
              obtain ⟨l, rfl, hdrop, hlater, hinside⟩ := hp.inside hs
              have hlt : l + 1 < rounds.length := by
                have hlen := length_of_drop hdrop
                have hpos := List.length_pos_iff.2 hlater
                omega
              obtain ⟨k', hk'⟩ := hrounds.proceed
                (p := { p with state := s, stage := .active checklist round later }) hdrop
                ⟨hinside.results, hinside.complete⟩ false
              exact ⟨hk'.tells_of_active hrounds (outcome_proceed ..) hnumber
                (by rw [isFinished, hs]) hlt, k', hk'.le, hk'.numbers, hk'.lives⟩

theorem Lives.updateFromBytes (hrounds : Concluding rounds) (hp : Lives rounds k p) (bytes : Bytes)
    (sender : PartyId) (isBroadcast : Bool) :
    Tells p (p.updateFromBytesTraced bytes sender isBroadcast).1
        (p.updateFromBytes bytes sender isBroadcast) ∧
      ∃ k', k ≤ k' ∧ (p.updateFromBytesTraced bytes sender isBroadcast).1 =
          List.range' (k + 1) (k' - k) ∧
        Lives rounds k' (p.updateFromBytes bytes sender isBroadcast).2 := by
  unfold updateFromBytesTraced
  cases hm : (Message.ofWire bytes sender (if isBroadcast then none else some [p.id]) isBroadcast :
      Result (Message C)) with
  | error e =>
      rw [updateFromBytes_of_undecodable hm]
      exact ⟨tells_of_refused e, hp.untried⟩
  | ok m =>
      rw [updateFromBytes_eq_update hm]
      exact hp.update hrounds m

theorem Lives.after (hrounds : Concluding rounds) (hp : Lives rounds k p) (c : Call C) :
    ∃ k', k ≤ k' ∧ (p.afterTraced c).1 = List.range' (k + 1) (k' - k) ∧
      Lives rounds k' (p.after c) := by
  cases c with
  | start => exact hp.start hrounds
  | update m => exact (hp.update hrounds m).2
  | updateFromBytes bytes sender isBroadcast =>
      exact (hp.updateFromBytes hrounds bytes sender isBroadcast).2
  | store m => exact (hp.congr (p.alike_store m)).untried
  | closeOutbox | closeResults => exact Lives.untried ⟨hp.reached, hp.results⟩

/-- A run tries the rounds in turn, and yields when it finishes. -/
theorem Lives.run (hrounds : Concluding rounds) (hp : Lives rounds k p) (calls : List (Call C)) :
    ∃ k', k ≤ k' ∧ (p.runTraced calls).1 = List.range' (k + 1) (k' - k) ∧
      Lives rounds k' (p.run calls) := by
  induction calls generalizing k p with
  | nil => exact hp.untried
  | cons c calls ih =>
      obtain ⟨k₁, hle₁, hnumbers₁, hlives₁⟩ := hp.after hrounds c
      obtain ⟨k₂, hle₂, hnumbers₂, hlives₂⟩ := ih hlives₁
      refine ⟨k₂, hle₁.trans hle₂, ?_, hlives₂⟩
      change (p.afterTraced c).1 ++ ((p.afterTraced c).2.runTraced calls).1 = _
      rw [snd_afterTraced, hnumbers₁, hnumbers₂, show k₁ + 1 = k + 1 + 1 * (k₁ - k) by omega,
        List.range'_append, show k₁ - k + (k₂ - k₁) = k₂ - k by omega]

theorem refuses_of_hasEnded (hp : p.HasEnded) {c : Call C} (hoc : c ≠ .closeOutbox)
    (hrc : c ≠ .closeResults) : (∃ e, p.answer c = .error e) ∧ p.after c = p := by
  have hupdate (m : Message C) : ∃ e, p.update m = (.error e, p) := by
    refine (p.update_spec m).resolve_right ?_
    rintro ⟨_, _, _, _, hs, -⟩
    rcases hp with hp | hp <;> cases hs.symm.trans hp
  cases c with
  | start =>
      have hstart : p.start = (.error (.caller .alreadyStarted), p) := by
        unfold Party.start
        rcases hp with hp | hp <;> rw [hp]
      rw [answer, Party.after, hstart]
      exact ⟨⟨_, rfl⟩, rfl⟩
  | update m =>
      obtain ⟨e, he⟩ := hupdate m
      rw [answer, Party.after, he]
      exact ⟨⟨e, rfl⟩, rfl⟩
  | updateFromBytes bytes sender isBroadcast =>
      rw [answer, Party.after]
      rcases p.updateFromBytes_cases bytes sender isBroadcast with ⟨e, he⟩ | ⟨m, hm⟩
      · rw [he]
        exact ⟨⟨e, rfl⟩, rfl⟩
      · obtain ⟨e, he⟩ := hupdate m
        rw [hm, he]
        exact ⟨⟨e, rfl⟩, rfl⟩
  | store m =>
      rw [answer, Party.after, store_of_hasEnded hp]
      exact ⟨⟨_, rfl⟩, rfl⟩
  | closeOutbox => exact absurd rfl hoc
  | closeResults => exact absurd rfl hrc

/-- What holds of a party whatever the host does with it. Its phase only moves on, the rounds are
tried one after the other, and it yields once, when it finishes. Taking a message tells whether the
party has advanced. After the end nothing is taken and nothing comes. -/
structure Lifecycle (rounds : List (Round σ C O)) (p : Party σ C O) : Prop where
  phase : p.phase = .notStarted
  phases : ∀ calls c,
    Relation.ReflTransGen Phase.Next (p.run calls).phase ((p.run calls).after c).phase
  rounds : ∀ calls, (p.runTraced calls).2 = p.run calls ∧
    ∃ k ≤ rounds.length, (p.runTraced calls).1 = List.range' 1 k ∧
      Reached rounds k (p.run calls).stage ∧ ∀ number, (p.run calls).roundNumber = .ok number →
        number = k
  results : ∀ calls, (p.run calls).results.sent.length = if (p.run calls).isFinished then 1 else 0
  update : ∀ calls m,
    ((p.run calls).updateTraced m).2 = (p.run calls).update m ∧
      (p.run calls).Tells ((p.run calls).updateTraced m).1 ((p.run calls).update m)
  updateFromBytes : ∀ calls bytes sender isBroadcast,
    ((p.run calls).updateFromBytesTraced bytes sender isBroadcast).2 =
        (p.run calls).updateFromBytes bytes sender isBroadcast ∧
      (p.run calls).Tells ((p.run calls).updateFromBytesTraced bytes sender isBroadcast).1
        ((p.run calls).updateFromBytes bytes sender isBroadcast)
  ended : ∀ calls, (p.run calls).HasEnded → ∀ c, c ≠ .closeOutbox → c ≠ .closeResults →
    (∃ e, (p.run calls).answer c = .error e) ∧ (p.run calls).after c = p.run calls

omit [Content C] in
theorem lives_of_notStarted (hstage : p.stage = .notStarted round later)
    (hnone : p.results.sent = []) : Lives (round :: later) 0 p where
  reached := by
    rw [hstage]
    exact ⟨rfl, rfl⟩
  results := by
    rw [hnone, isFinished, hstage]
    rfl

theorem Concluding.lifecycle (hrounds : Concluding (round :: later))
    (hstage : p.stage = .notStarted round later) (hnone : p.results.sent = []) :
    Lifecycle (round :: later) p := by
  have hp := lives_of_notStarted hstage hnone
  exact
    { phase := by rw [Party.phase, hstage]; rfl
      phases := fun calls c => phase_of_moves ((p.run calls).moves_after c)
      rounds := fun calls => by
        obtain ⟨k, -, hnumbers, hlives⟩ := hp.run hrounds calls
        refine ⟨p.snd_runTraced calls, k, hlives.le_length, hnumbers, hlives.reached,
          fun number hnumber => ?_⟩
        obtain ⟨checklist, current, ahead, hs, -⟩ := roundNumber_eq_ok_iff.1 hnumber
        exact Except.ok.inj (hnumber.symm.trans (hlives.roundNumber hrounds hs))
      results := fun calls => by
        obtain ⟨k, -, -, hlives⟩ := hp.run hrounds calls
        exact hlives.results
      update := fun calls m => by
        obtain ⟨k, -, -, hlives⟩ := hp.run hrounds calls
        exact ⟨snd_updateTraced _ m, (hlives.update hrounds m).1⟩
      updateFromBytes := fun calls bytes sender isBroadcast => by
        obtain ⟨k, -, -, hlives⟩ := hp.run hrounds calls
        exact ⟨snd_updateFromBytesTraced _ bytes sender isBroadcast,
          (hlives.updateFromBytes hrounds bytes sender isBroadcast).1⟩
      ended := fun calls hended c => refuses_of_hasEnded hended }

end Concluding

end Party

end ThresholdKeys
