import Mathlib
import ThresholdKeys.Proofs.Engine.Invariant

/-!
# Undisturbed parties

What a party does when it receives exactly the messages that it waits for, in any order: every call
succeeds, and the party moves on as soon as nothing is missing. A message of a later round may come
early, and one message may take a party through several rounds.
-/

namespace ThresholdKeys

theorem Channel.send_eq_ok {α : Type} (sent items : List α) :
    Channel.send ⟨sent, true⟩ items = .ok ⟨sent ++ items, true⟩ := by
  unfold Channel.send
  cases items with
  | nil => rw [List.append_nil]; rfl
  | cons x items => rfl

theorem Checklist.Reflects.isComplete_iff {σ C O : Type} {c : Checklist} {round : Round σ C O}
    {s : σ} (h : c.Reflects round s) :
    (c.tickWhere (round.hasArrived s)).isComplete = true ↔ Party.AllArrived round s := by
  constructor
  · exact fun hdone j hj => h.tickWhere.arrived_of_isComplete hdone hj
  · intro hall
    simp only [isComplete, Bool.and_eq_true, List.all_eq_true]
    refine ⟨h.started, fun e he => ?_⟩
    obtain ⟨j, hj⟩ := List.mem_iff_getElem?.1 he
    have hlt := (List.getElem?_eq_some_iff.1 hj).1
    rw [h.tickWhere.length_eq] at hlt
    have hticked := (c.isTicked_tickWhere (round.hasArrived s) j).2
      (Or.inr ⟨hall j hlt, h.length_eq ▸ hlt⟩)
    obtain ⟨e', he', ht⟩ := (isTicked_eq_true_iff _ j).1 hticked
    rwa [Option.some.inj (hj.symm.trans he')]

theorem Party.allArrived_iff_subset {σ C O : Type} {round : Round σ C O} {s : σ}
    {log needs : List (Message C)} {own : ℕ → Prop} {messages : ℕ → List (Message C)}
    (harrived : ∀ j < round.expected.length,
      round.hasArrived s j = true ↔ own j ∨ messages j ⊆ log)
    (hneeds : ∀ m, m ∈ needs ↔ ∃ j < round.expected.length, ¬ own j ∧ m ∈ messages j) :
    AllArrived round s ↔ needs ⊆ log := by
  constructor
  · intro hall m hm
    obtain ⟨j, hj, hown, hm⟩ := (hneeds m).1 hm
    exact ((harrived j hj).1 (hall j hj)).resolve_left hown hm
  · intro hsub j hj
    apply (harrived j hj).2
    by_cases hown : own j
    · exact Or.inl hown
    · right
      intro m hm
      exact hsub ((hneeds m).2 ⟨j, hj, hown, hm⟩)

theorem Party.validate_eq_ok_iff {σ C O : Type} [Content C] {p : Party σ C O} {m : Message C} :
    p.validate m = .ok () ↔ Content.isPlausible m.content = true ∧ m.sender.WellFormed ∧
      (∃ i, m.sender.index = some i ∧ i < p.senderLimit) ∧ ¬ m.sender.SameKey p.id := by
  unfold Party.validate
  by_cases hcontent : Content.isPlausible m.content = true
  · by_cases hformed : m.sender.WellFormed
    · cases m.sender.index with
      | none => simp [hcontent, hformed]
      | some i =>
          by_cases hi : i < p.senderLimit
          · by_cases hkey : m.sender.SameKey p.id <;> simp [hcontent, hformed, hkey, hi]
          · simp [hcontent, hformed, hi]
    · simp [hcontent, hformed]
  · simp [hcontent]

/-- What a party does if nothing goes wrong. -/
structure Role (σ C O : Type) where
  /-- The party before its run. -/
  party : Party σ C O
  rounds : List (Round σ C O)
  /-- What it sends when it enters a round. -/
  sends : ℕ → List (Message C)
  /-- What it waits for in a round. -/
  needs : ℕ → List (Message C)
  /-- What it yields when it enters its last round. -/
  result : O
  /-- The state after so many rounds were entered and these messages were taken up. -/
  Holds : ℕ → List (Message C) → σ → Prop

namespace Role

variable {σ C O : Type}

def Needs (r : Role σ C O) (m : Message C) : Prop := ∃ k < r.rounds.length, m ∈ r.needs k

/-- What a party in its role has besides its stage. -/
structure Carries (r : Role σ C O) (k : ℕ) (log : List (Message C)) (p : Party σ C O) : Prop where
  protocol : p.protocol = r.party.protocol
  id : p.id = r.party.id
  senderLimit : p.senderLimit = r.party.senderLimit
  holds : r.Holds k log p.state
  outbox : p.outbox = ⟨(List.range k).flatMap r.sends, true⟩
  results : p.results = ⟨if k = r.rounds.length then [r.result] else [], true⟩
  left : ∀ l, l + 1 < k → r.needs l ⊆ log

/-- The party has entered `k` rounds and moves no further by itself. -/
structure Rests (r : Role σ C O) (k : ℕ) (log : List (Message C)) (p : Party σ C O) : Prop
    extends r.Carries k log p where
  stage : Party.StageAt r.rounds p.state k p.stage
  waiting : ∀ {c round later}, p.stage = .active c round later → ¬ r.needs (k - 1) ⊆ log
  finished : p.stage = .finished → r.needs (k - 1) ⊆ log
  running : p.stage ≠ .failed

variable {r : Role σ C O} {k : ℕ} {log : List (Message C)} {p : Party σ C O}

theorem Carries.withStage (hp : r.Carries k log p) (stage : Stage σ C O) :
    r.Carries k log { p with stage } :=
  ⟨hp.protocol, hp.id, hp.senderLimit, hp.holds, hp.outbox, hp.results, hp.left⟩

theorem Rests.finished_of_needs (hp : r.Rests k log p) (hk : 0 < k)
    (hneeds : r.needs (k - 1) ⊆ log) : p.stage = .finished := by
  have hstage := hp.stage
  cases hs : p.stage with
  | notStarted first later =>
      rw [hs] at hstage
      exact absurd hstage.1 (Nat.ne_of_gt hk)
  | active c round later => exact absurd hneeds (hp.waiting hs)
  | finished => rfl
  | failed => exact absurd hs hp.running

theorem Rests.le_length (hp : r.Rests k log p) : k ≤ r.rounds.length := by
  have hstage := hp.stage
  cases hs : p.stage with
  | notStarted first later =>
      rw [hs] at hstage
      exact hstage.1 ▸ Nat.zero_le _
  | active c round later =>
      rw [hs] at hstage
      obtain ⟨l, rfl, hround, -⟩ := hstage
      have hlen := Party.length_of_drop hround
      omega
  | finished =>
      rw [hs] at hstage
      exact Nat.le_of_eq hstage
  | failed => exact absurd hs hp.running

theorem Rests.roundNumber_eq (hp : r.Rests k log p) (hk : 0 < k) {l : ℕ} {round : Round σ C O}
    (hround : r.rounds[l]? = some round) (hleft : ∀ i < l, r.needs i ⊆ log)
    (hmissing : ¬ r.needs l ⊆ log) : p.roundNumber = .ok round.number := by
  have hstage := hp.stage
  -- a party that had entered a round after `l` would have everything that `l` waits for
  have hle : k ≤ l + 1 := Nat.not_lt.1 fun hlt => hmissing (hp.left l hlt)
  cases hs : p.stage with
  | notStarted first later =>
      rw [hs] at hstage
      exact absurd hstage.1 (Nat.ne_of_gt hk)
  | active c running later =>
      rw [hs] at hstage
      obtain ⟨i, rfl, hdrop, -⟩ := hstage
      obtain rfl : i = l := by
        by_contra hne
        exact hp.waiting hs (hleft i (by omega))
      obtain rfl := Option.some.inj ((Party.getElem?_of_drop hdrop).symm.trans hround)
      rw [Party.roundNumber, hs]
  | finished =>
      rw [hs] at hstage
      have hlt : l < r.rounds.length := (List.getElem?_eq_some_iff.1 hround).1
      obtain rfl : k = l + 1 := le_antisymm hle (hlt.trans_eq (Eq.symm hstage))
      exact absurd (hp.finished hs) hmissing
  | failed => exact absurd hs hp.running

/-- The rounds and the storage of the party do what the role says. -/
structure Lawful [Content C] (r : Role σ C O) : Prop where
  stage : ∃ first later, r.party.stage = .notStarted first later ∧ r.rounds = first :: later
  outbox : r.party.outbox = {}
  results : r.party.results = {}
  init : r.Holds 0 [] r.party.state
  prepare : ∀ {round s}, round ∈ r.rounds → round.prepare s = .ok ()
  inspect : ∀ {round s}, round ∈ r.rounds → round.inspect s = .ok ()
  enter : ∀ {k round log s}, r.rounds[k]? = some round → r.Holds k log s →
    (∀ l < k, r.needs l ⊆ log) →
      ∃ entry, round.enter s = .ok entry ∧ r.Holds (k + 1) log entry.state ∧
        entry.sent = r.sends k ∧
        entry.result.toList = (if k + 1 = r.rounds.length then [r.result] else []) ∧
        ∀ j ∈ entry.ticked, j < round.expected.length → round.hasArrived entry.state j = true
  store : ∀ {k log s m}, 0 < k → r.Holds k log s → r.Needs m → m ∉ log →
    ∃ s', r.party.protocol.store s m = .ok s' ∧ r.Holds k (log ++ [m]) s' ∧
      ∀ round ∈ r.rounds, ∀ j, round.hasArrived s j = true → round.hasArrived s' j = true
  arrived : ∀ {k round log s}, r.rounds[k]? = some round → r.Holds (k + 1) log s →
    (Party.AllArrived round s ↔ r.needs k ⊆ log)
  validate : ∀ {m}, r.Needs m → r.party.validate m = .ok ()

section Lawful

variable [Content C]

theorem Lawful.rests_party (hr : r.Lawful) : r.Rests 0 [] r.party := by
  obtain ⟨first, later, hstage, hrounds⟩ := hr.stage
  exact
    { protocol := rfl
      id := rfl
      senderLimit := rfl
      holds := hr.init
      outbox := hr.outbox
      results := by rw [hr.results, hrounds]; rfl
      left := fun l hl => absurd hl (Nat.not_lt_zero _)
      stage := by rw [hstage]; exact ⟨rfl, hrounds⟩
      waiting := fun hactive => by rw [hstage] at hactive; cases hactive
      finished := fun hfinished => by rw [hstage] at hfinished; cases hfinished
      running := fun hfailed => by rw [hstage] at hfailed; cases hfailed }

theorem Lawful.enter_ok (hr : r.Lawful) (hp : r.Carries k log p) {round : Round σ C O}
    {later : List (Round σ C O)} (hround : r.rounds.drop k = round :: later)
    (hneeds : ∀ l, l + 1 = k → r.needs l ⊆ log) :
    ∃ q c, p.enter round = .ok (q, c) ∧ r.Carries (k + 1) log q ∧ c.Reflects round q.state := by
  have hget := Party.getElem?_of_drop hround
  have hlt := (List.getElem?_eq_some_iff.1 hget).1
  have hleft (l : ℕ) (hl : l < k) : r.needs l ⊆ log := by
    rcases Nat.lt_or_eq_of_le hl with hl | hl
    · exact hp.left l hl
    · exact hneeds l hl
  obtain ⟨entry, hentry, hholds, hsent, hresult, hticked⟩ := hr.enter hget hp.holds hleft
  refine ⟨_, _, Party.enter_eq_ok_iff.2 ⟨entry, _, _, hentry, by rw [hp.outbox, Channel.send_eq_ok],
    by rw [hp.results, Channel.send_eq_ok], rfl, rfl⟩, ?_, ?_⟩
  · exact
      { protocol := hp.protocol
        id := hp.id
        senderLimit := hp.senderLimit
        holds := hholds
        outbox := by rw [hsent, List.range_succ, List.flatMap_append, List.flatMap_singleton]
        results := by rw [hresult, if_neg (Nat.ne_of_lt hlt), List.nil_append]
        left := fun l hl => hleft l (Nat.lt_of_succ_lt_succ hl) }
  · exact Checklist.reflects_entered _ round entry.state entry.ticked hticked

theorem Lawful.rests_active (hr : r.Lawful) {round : Round σ C O} {later : List (Round σ C O)}
    {c : Checklist} {l : ℕ} (hround : r.rounds.drop l = round :: later)
    (hp : r.Carries (l + 1) log p) (hc : c.Reflects round p.state)
    (hmissing : ¬ (c.tickWhere (round.hasArrived p.state)).isComplete = true) :
    r.Rests (l + 1) log
      { p with stage := .active (c.tickWhere (round.hasArrived p.state)) round later } where
  toCarries := hp.withStage _
  stage := ⟨l, rfl, hround, hc.tickWhere⟩
  waiting _ h := by
    have hget := Party.getElem?_of_drop hround
    exact hmissing (hc.isComplete_iff.2 ((hr.arrived hget hp.holds).2 h))
  finished h := by cases h
  running h := by cases h

/-- Looking for progress takes a party in its role to where it rests. -/
theorem Lawful.proceed_ok (hr : r.Lawful) (later : List (Round σ C O)) {round : Round σ C O}
    {c : Checklist} (advanced : Bool) {l : ℕ} (hround : r.rounds.drop l = round :: later)
    (hp : r.Carries (l + 1) log p) (hc : c.Reflects round p.state) :
    ∃ b q k, Party.proceed later round c advanced p = (.ok b, q) ∧ l + 1 ≤ k ∧
      r.Rests k log q := by
  induction later generalizing round c advanced p l with
  | nil =>
      have hget := Party.getElem?_of_drop hround
      unfold Party.proceed
      rw [hr.inspect (List.mem_of_getElem? hget)]
      dsimp only
      split
      · rename_i hdone
        exact ⟨true, _, l + 1, rfl, le_rfl,
          { toCarries := hp.withStage _
            stage := Party.length_of_drop hround
            waiting := fun h => (by cases h)
            finished := fun _ => (hr.arrived hget hp.holds).1 (hc.isComplete_iff.1 hdone)
            running := fun h => (by cases h) }⟩
      · rename_i hmissing
        exact ⟨advanced, _, l + 1, rfl, le_rfl, hr.rests_active hround hp hc hmissing⟩
  | cons next later ih =>
      have hget := Party.getElem?_of_drop hround
      unfold Party.proceed
      rw [hr.inspect (List.mem_of_getElem? hget)]
      dsimp only
      split
      · rename_i hdone
        have hnext := Party.drop_succ_of_drop hround
        obtain ⟨q, c', hq, hcarries, hc'⟩ := hr.enter_ok hp hnext fun l' hl' => by
          obtain rfl : l' = l := Nat.succ.inj hl'
          exact (hr.arrived hget hp.holds).1 (hc.isComplete_iff.1 hdone)
        rw [hq]
        dsimp only
        obtain ⟨b, q', k, hproceed, hle, hrests⟩ := ih true hnext hcarries hc'
        exact ⟨b, q', k, hproceed, Nat.le_of_succ_le hle, hrests⟩
      · rename_i hmissing
        exact ⟨advanced, _, l + 1, rfl, le_rfl, hr.rests_active hround hp hc hmissing⟩

theorem Lawful.start_ok (hr : r.Lawful) (hp : r.Rests 0 log p) :
    ∃ q k, p.start = (.ok (), q) ∧ 0 < k ∧ r.Rests k log q := by
  obtain ⟨first, later, -, hrounds⟩ := hr.stage
  have hstage := hp.stage
  have hrunning := hp.running
  unfold Party.start
  cases hs : p.stage with
  | notStarted first' later' =>
      rw [hs] at hstage
      obtain ⟨-, hrounds'⟩ := hstage
      have hmem : first' ∈ r.rounds := hrounds' ▸ List.mem_cons_self
      obtain ⟨q, c, hq, hcarries, hc⟩ := hr.enter_ok hp.toCarries
        (show r.rounds.drop 0 = first' :: later' by rw [List.drop_zero, hrounds'])
        fun l hl => absurd hl (Nat.succ_ne_zero l)
      obtain ⟨b, q', k, hproceed, hle, hrests⟩ := hr.proceed_ok later' false
        (show r.rounds.drop 0 = first' :: later' by rw [List.drop_zero, hrounds']) hcarries hc
      dsimp only
      rw [hr.prepare hmem]
      dsimp only
      rw [hq]
      dsimp only
      rw [hproceed]
      exact ⟨q', k, rfl, hle, hrests⟩
  | active c round later' =>
      rw [hs] at hstage
      obtain ⟨l, hl, -⟩ := hstage
      exact absurd hl.symm (Nat.succ_ne_zero l)
  | finished =>
      rw [hs] at hstage
      change 0 = r.rounds.length at hstage
      rw [hrounds] at hstage
      exact absurd hstage.symm (Nat.succ_ne_zero _)
  | failed => exact absurd hs hrunning

theorem Lawful.start_eq_ok (hr : r.Lawful) : r.party.start.1 = .ok () := by
  obtain ⟨q, k, hstart, -⟩ := hr.start_ok hr.rests_party
  rw [hstart]

theorem Lawful.update_ok (hr : r.Lawful) (hp : r.Rests k log p) (hk : 0 < k) {m : Message C}
    (hm : r.Needs m) (hnew : m ∉ log) :
    ∃ b q k', p.update m = (.ok b, q) ∧ k ≤ k' ∧ r.Rests k' (log ++ [m]) q := by
  have hvalid : p.validate m = .ok () := by
    rw [Party.validate_eq_ok_iff, hp.id, hp.senderLimit]
    exact Party.validate_eq_ok_iff.1 (hr.validate hm)
  have hstage := hp.stage
  obtain ⟨s', hs', hholds, hmono⟩ := hr.store hk hp.holds hm hnew
  cases hs : p.stage with
  | notStarted first later =>
      rw [hs] at hstage
      exact absurd hstage.1 (Nat.ne_of_gt hk)
  | active c round later =>
      rw [hs] at hstage
      obtain ⟨l, rfl, hround, hc⟩ := hstage
      have hmem := Party.mem_of_drop hround
      have hcarries : r.Carries (l + 1) (log ++ [m]) { p with state := s' } :=
        ⟨hp.protocol, hp.id, hp.senderLimit, hholds, hp.outbox, hp.results, fun l' hl' =>
          List.subset_append_of_subset_left [m] (hp.left l' hl')⟩
      obtain ⟨b, q, k', hproceed, hle, hrests⟩ := hr.proceed_ok later false hround hcarries
        (hc.mono (hmono round hmem))
      rw [← hp.protocol] at hs'
      exact ⟨b, q, k', (Party.update_eq_proceed hs hvalid hs').trans hproceed, hle, hrests⟩
  | finished =>
      -- a finished party has received everything
      obtain ⟨l, hl, hneeds⟩ := hm
      rw [hs] at hstage
      change k = r.rounds.length at hstage
      rcases Nat.lt_or_ge (l + 1) k with hlt | hge
      · exact absurd (hp.left l hlt hneeds) hnew
      · obtain rfl : l = k - 1 := by omega
        exact absurd (hp.finished hs hneeds) hnew
  | failed => exact absurd hs hp.running

theorem Lawful.run_updates (hr : r.Lawful) (hp : r.Rests k log p) (hk : 0 < k)
    {messages : List (Message C)} (hneeds : ∀ m ∈ messages, r.Needs m)
    (hnodup : (log ++ messages).Nodup) :
    ∃ k', k ≤ k' ∧ r.Rests k' (log ++ messages) (p.run (messages.map .update)) := by
  induction messages generalizing k log p with
  | nil => exact ⟨k, le_rfl, by rwa [List.append_nil]⟩
  | cons m rest ih =>
      obtain ⟨hm, hrest⟩ := List.forall_mem_cons.1 hneeds
      have hnew : m ∉ log := fun hlog =>
        (List.nodup_append.1 hnodup).2.2 m hlog m List.mem_cons_self rfl
      obtain ⟨b, q, k₁, hupdate, hle, hq⟩ := hr.update_ok hp hk hm hnew
      have happend : log ++ m :: rest = (log ++ [m]) ++ rest := by simp
      rw [happend] at hnodup ⊢
      obtain ⟨k₂, hle', hrests⟩ := ih hq (hk.trans_le hle) hrest hnodup
      refine ⟨k₂, hle.trans hle', ?_⟩
      rw [List.map_cons, Party.run, List.foldl_cons]
      change r.Rests k₂ _ (Party.run (p.update m).2 _)
      rwa [hupdate]

/-- A party that is started and then given some of what it waits for goes on as far as it can. -/
theorem Lawful.run_of_needs (hr : r.Lawful) {messages : List (Message C)} (hnodup : messages.Nodup)
    (hneeds : ∀ m ∈ messages, r.Needs m) :
    ∃ k, 0 < k ∧ r.Rests k messages (r.party.run (.start :: messages.map .update)) := by
  obtain ⟨q, k, hstart, hk, hq⟩ := hr.start_ok hr.rests_party
  obtain ⟨k', hle, hrests⟩ := hr.run_updates hq hk hneeds (by rwa [List.nil_append])
  rw [List.nil_append] at hrests
  have hrun : r.party.run (.start :: messages.map .update) = q.run (messages.map .update) := by
    rw [Party.run, List.foldl_cons]
    change Party.run r.party.start.2 _ = _
    rw [hstart]
  exact ⟨k', hk.trans_le hle, hrun ▸ hrests⟩

theorem Lawful.mem_sent_of_needs (hr : r.Lawful) {messages : List (Message C)}
    (hnodup : messages.Nodup) (hneeds : ∀ m ∈ messages, r.Needs m) {l : ℕ}
    (hl : l < r.rounds.length) (hearlier : ∀ i < l, r.needs i ⊆ messages) {m : Message C}
    (hm : m ∈ r.sends l) : m ∈ (r.party.run (.start :: messages.map .update)).outbox.sent := by
  obtain ⟨k, hk, hrests⟩ := hr.run_of_needs hnodup hneeds
  have hlt : l < k := by
    by_contra hle
    have hstage := hrests.stage
    rw [hrests.finished_of_needs hk (hearlier (k - 1) (by omega))] at hstage
    change k = r.rounds.length at hstage
    omega
  rw [hrests.outbox]
  exact List.mem_flatMap.2 ⟨l, List.mem_range.2 hlt, hm⟩

/-- A party that is started and then given everything that it waits for, in any order, ends with
its result. -/
theorem Lawful.run_complete (hr : r.Lawful) {messages : List (Message C)} (hnodup : messages.Nodup)
    (hneeds : ∀ m, m ∈ messages ↔ r.Needs m) :
    r.Rests r.rounds.length messages (r.party.run (.start :: messages.map .update)) := by
  obtain ⟨k, hk, hrests⟩ := hr.run_of_needs hnodup fun m hm => (hneeds m).1 hm
  have hall : r.needs (k - 1) ⊆ messages := fun m hm =>
    (hneeds m).2 ⟨k - 1, by have := hrests.le_length; omega, hm⟩
  have hstage := hrests.stage
  rw [hrests.finished_of_needs hk hall] at hstage
  change k = r.rounds.length at hstage
  exact hstage ▸ hrests

end Lawful

end Role

end ThresholdKeys
