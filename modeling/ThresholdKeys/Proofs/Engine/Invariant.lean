import Mathlib
import ThresholdKeys.Proofs.Engine.Run

/-!
# Invariants of runs

The number of rounds that a party has entered, together with its state and with what it has put on
its channels, is all that an invariant speaks of. If entering the next round and storing a message
keep an invariant, it holds after every run. A round is entered only when everything that the round
before it waits for has arrived.
-/

namespace ThresholdKeys

namespace Checklist

@[simp] theorem entries_tick (c : Checklist) (j : ℕ) :
    (c.tick j).entries = c.entries.modify j fun e => (e.1, true) := rfl

theorem isTicked_eq_true_iff (c : Checklist) (j : ℕ) :
    c.isTicked j = true ↔ ∃ e, c.entries[j]? = some e ∧ e.2 = true := by
  cases h : c.entries[j]? <;> simp [isTicked, h]

theorem isTicked_tick (c : Checklist) (i j : ℕ) :
    (c.tick i).isTicked j = true → j = i ∨ c.isTicked j = true := by
  simp only [isTicked_eq_true_iff, entries_tick, List.getElem?_modify]
  rintro ⟨e, he, ht⟩
  by_cases hij : i = j
  · exact Or.inl hij.symm
  · simp only [if_neg hij, Option.map_eq_map, Option.map_id'] at he
    exact Or.inr ⟨e, he, ht⟩

theorem isTicked_tickWhere (c : Checklist) (arrived : ℕ → Bool) (j : ℕ) :
    (c.tickWhere arrived).isTicked j = true ↔
      c.isTicked j = true ∨ (arrived j = true ∧ j < c.entries.length) := by
  simp only [isTicked_eq_true_iff, tickWhere, List.getElem?_mapIdx]
  by_cases hj : j < c.entries.length
  · simp [hj]
  · simp [hj]

theorem isTicked_of_isComplete {c : Checklist} (h : c.isComplete = true) {j : ℕ}
    (hj : j < c.entries.length) : c.isTicked j = true := by
  simp only [isComplete, Bool.and_eq_true, List.all_eq_true] at h
  exact (c.isTicked_eq_true_iff j).2 ⟨c.entries[j], List.getElem?_eq_getElem hj,
    h.2 _ (List.getElem_mem hj)⟩

/-- A checklist belongs to a round in a state: it lists whom the round waits for and marks only
those from whom everything is there. -/
structure Reflects {σ C O : Type} (c : Checklist) (round : Round σ C O) (s : σ) : Prop where
  started : c.started = true
  expected : c.entries.map Prod.fst = round.expected
  arrived : ∀ j, c.isTicked j = true → round.hasArrived s j = true

section Reflects

variable {σ C O : Type} {c : Checklist} {round : Round σ C O} {s : σ}

theorem Reflects.length_eq (h : c.Reflects round s) :
    c.entries.length = round.expected.length := by
  rw [← h.expected, List.length_map]

theorem Reflects.tick (h : c.Reflects round s) {i : ℕ}
    (hi : i < round.expected.length → round.hasArrived s i = true) :
    (c.tick i).Reflects round s where
  started := h.started
  expected := by
    rw [entries_tick, ← h.expected]
    apply List.ext_getElem?
    intro j
    rw [List.getElem?_map, List.getElem?_map, List.getElem?_modify]
    cases c.entries[j]? with
    | none => rfl
    | some e => by_cases hij : i = j <;> simp [hij]
  arrived j hj := by
    rcases c.isTicked_tick i j hj with rfl | hj
    · obtain ⟨e, he, -⟩ := (isTicked_eq_true_iff _ j).1 hj
      have hlt := (List.getElem?_eq_some_iff.1 he).1
      rw [entries_tick, List.length_modify, h.length_eq] at hlt
      exact hi hlt
    · exact h.arrived j hj

theorem reflects_entered (task : String) (round : Round σ C O) (s : σ) (ticked : List ℕ)
    (h : ∀ j ∈ ticked, j < round.expected.length → round.hasArrived s j = true) :
    (ticked.foldl tick
      { Checklist.new task round.number round.expected with started := true }).Reflects round s := by
  have hfold (c : Checklist) (hc : c.Reflects round s) (js : List ℕ)
      (hjs : ∀ j ∈ js, j < round.expected.length → round.hasArrived s j = true) :
      (js.foldl Checklist.tick c).Reflects round s := by
    induction js generalizing c with
    | nil => exact hc
    | cons i js ih =>
        obtain ⟨hi, hjs⟩ := List.forall_mem_cons.1 hjs
        exact ih (c.tick i) (hc.tick hi) hjs
  refine hfold _ ⟨rfl, ?_, fun j hj => ?_⟩ ticked h
  · simp [Checklist.new, Function.comp_def]
  · obtain ⟨e, he, ht⟩ := (isTicked_eq_true_iff _ j).1 hj
    simp only [Checklist.new, List.getElem?_map, Option.map_eq_some_iff] at he
    obtain ⟨p, -, rfl⟩ := he
    exact absurd ht Bool.false_ne_true

theorem Reflects.tickWhere (h : c.Reflects round s) :
    (c.tickWhere (round.hasArrived s)).Reflects round s where
  started := h.started
  expected := by
    rw [← h.expected]
    apply List.ext_getElem?
    intro j
    simp only [Checklist.tickWhere, List.getElem?_map, List.getElem?_mapIdx, Option.map_map,
      Function.comp_def]
  arrived j hj := by
    rcases (c.isTicked_tickWhere _ j).1 hj with hj | ⟨hj, -⟩
    · exact h.arrived j hj
    · exact hj

theorem Reflects.mono {s' : σ} (h : c.Reflects round s)
    (hmono : ∀ j, round.hasArrived s j = true → round.hasArrived s' j = true) :
    c.Reflects round s' where
  started := h.started
  expected := h.expected
  arrived j hj := hmono j (h.arrived j hj)

theorem Reflects.arrived_of_isComplete (h : c.Reflects round s) (hdone : c.isComplete = true) {j : ℕ}
    (hj : j < round.expected.length) : round.hasArrived s j = true :=
  h.arrived j (isTicked_of_isComplete hdone (h.length_eq ▸ hj))

end Reflects

end Checklist

namespace Party

variable {σ C O : Type}

/-- Everything that a round waits for is there. -/
def AllArrived (round : Round σ C O) (s : σ) : Prop :=
  ∀ j < round.expected.length, round.hasArrived s j = true

def StageAt (rounds : List (Round σ C O)) (s : σ) (k : ℕ) : Stage σ C O → Prop
  | .notStarted first later => k = 0 ∧ rounds = first :: later
  | .active checklist round later =>
      ∃ l, k = l + 1 ∧ rounds.drop l = round :: later ∧ checklist.Reflects round s
  | .finished => k = rounds.length
  | .failed => k ≤ rounds.length

section Ahead

variable {rounds : List (Round σ C O)} {s : σ} {k : ℕ} {checklist : Checklist}
  {round target : Round σ C O} {later : List (Round σ C O)}

theorem getElem?_of_drop (h : rounds.drop k = round :: later) : rounds[k]? = some round := by
  rw [← List.head?_drop, h, List.head?_cons]

theorem mem_of_drop (h : rounds.drop k = round :: later) : round ∈ rounds :=
  List.mem_of_getElem? (getElem?_of_drop h)

theorem drop_succ_of_drop (h : rounds.drop k = round :: later) : rounds.drop (k + 1) = later := by
  rw [← List.tail_drop, h, List.tail_cons]

theorem length_of_drop (h : rounds.drop k = round :: later) :
    k + 1 + later.length = rounds.length := by
  have hlen := congrArg List.length h
  rw [List.length_drop, List.length_cons] at hlen
  omega

theorem StageAt.next (h : StageAt rounds s k (.active checklist round (target :: later))) :
    0 < k ∧ rounds.drop k = target :: later ∧ rounds[k]? = some target := by
  obtain ⟨l, rfl, hdrop, -⟩ := h
  have hnext := drop_succ_of_drop hdrop
  exact ⟨Nat.succ_pos l, hnext, getElem?_of_drop hnext⟩

theorem StageAt.arrived (h : StageAt rounds s k (.active checklist round later))
    (hdone : checklist.isComplete = true) (l : ℕ) (prev : Round σ C O) (hl : k = l + 1)
    (hprev : rounds[l]? = some prev) : AllArrived prev s := by
  obtain ⟨l', rfl, hdrop, hreflects⟩ := h
  obtain rfl : l' = l := Nat.succ.inj hl
  obtain rfl := Option.some.inj ((getElem?_of_drop hdrop).symm.trans hprev)
  exact fun j hj => hreflects.arrived_of_isComplete hdone hj

end Ahead

/-- What a protocol has to do for its runs to keep an invariant of the number of rounds entered,
the state, the messages sent and the results yielded. -/
structure Keeps (protocol : Protocol σ C O) (rounds : List (Round σ C O))
    (Inv : ℕ → σ → List (Message C) → List O → Prop) : Prop where
  enter : ∀ {k s sent results round entry}, rounds[k]? = some round → Inv k s sent results →
    (∀ l prev, k = l + 1 → rounds[l]? = some prev → AllArrived prev s) →
    round.enter s = .ok entry →
    Inv (k + 1) entry.state (sent ++ entry.sent) (results ++ entry.result.toList)
  ticked : ∀ {k s sent results round entry}, rounds[k]? = some round → Inv k s sent results →
    round.enter s = .ok entry → ∀ j ∈ entry.ticked, j < round.expected.length →
      round.hasArrived entry.state j = true
  store : ∀ {k s sent results m s'}, 0 < k → Inv k s sent results → protocol.store s m = .ok s' →
    Inv k s' sent results
  arrived : ∀ {k s sent results m s' round j}, Inv k s sent results → round ∈ rounds →
    protocol.store s m = .ok s' → round.hasArrived s j = true → round.hasArrived s' j = true

theorem Keeps.and {protocol : Protocol σ C O} {rounds : List (Round σ C O)}
    {Inv Also : ℕ → σ → List (Message C) → List O → Prop} (hk : Keeps protocol rounds Inv)
    (henter : ∀ {k s sent results round entry}, rounds[k]? = some round → Inv k s sent results →
      Also k s sent results → (∀ l prev, k = l + 1 → rounds[l]? = some prev → AllArrived prev s) →
      round.enter s = .ok entry →
      Also (k + 1) entry.state (sent ++ entry.sent) (results ++ entry.result.toList))
    (hstore : ∀ {k s sent results m s'}, 0 < k → Inv k s sent results → Also k s sent results →
      protocol.store s m = .ok s' → Also k s' sent results) :
    Keeps protocol rounds fun k s sent results => Inv k s sent results ∧ Also k s sent results where
  enter hround h hall he := ⟨hk.enter hround h.1 hall he, henter hround h.1 h.2 hall he⟩
  ticked hround h he := hk.ticked hround h.1 he
  store hpos h hs := ⟨hk.store hpos h.1 hs, hstore hpos h.1 h.2 hs⟩
  arrived h hround hs hj := hk.arrived h.1 hround hs hj

/-- A party that has entered `k` rounds and satisfies the invariant. -/
structure Follows (protocol : Protocol σ C O) (rounds : List (Round σ C O))
    (Inv : ℕ → σ → List (Message C) → List O → Prop) (k : ℕ) (p : Party σ C O) : Prop where
  protocol : p.protocol = protocol
  stage : StageAt rounds p.state k p.stage
  inv : Inv k p.state p.outbox.sent p.results.sent

theorem sent_of_send {α : Type} {c c' : Channel α} {items : List α} (h : c.send items = .ok c') :
    c'.sent = c.sent ++ items := by
  unfold Channel.send at h
  split at h
  · obtain rfl := Except.ok.inj h
    simp_all
  · split at h
    · obtain rfl := Except.ok.inj h
      rfl
    · cases h

section

variable {protocol : Protocol σ C O} {rounds : List (Round σ C O)}
  {Inv : ℕ → σ → List (Message C) → List O → Prop}

theorem Follows.enter (hk : Keeps protocol rounds Inv) {k : ℕ} {p q : Party σ C O}
    (hprotocol : p.protocol = protocol) (hinv : Inv k p.state p.outbox.sent p.results.sent)
    {round : Round σ C O} {later : List (Round σ C O)} (hround : rounds.drop k = round :: later)
    (hdone : ∀ l prev, k = l + 1 → rounds[l]? = some prev → AllArrived prev p.state)
    {checklist : Checklist} (h : p.enter round = .ok (q, checklist)) :
    Follows protocol rounds Inv (k + 1) { q with stage := .active checklist round later } := by
  obtain ⟨entry, outbox, results, hentry, houtbox, hresults, rfl, rfl⟩ := enter_eq_ok_iff.1 h
  have hget := getElem?_of_drop hround
  refine ⟨hprotocol, ⟨k, rfl, hround, ?_⟩, ?_⟩
  · exact Checklist.reflects_entered _ round entry.state entry.ticked (hk.ticked hget hinv hentry)
  · change Inv (k + 1) entry.state outbox.sent results.sent
    rw [sent_of_send houtbox, sent_of_send hresults]
    exact hk.enter hget hinv hdone hentry

theorem Follows.moves (hk : Keeps protocol rounds Inv) {k : ℕ} {p q : Party σ C O}
    (hp : Follows protocol rounds Inv k p) (h : Moves p q) :
    ∃ k', k ≤ k' ∧ Follows protocol rounds Inv k' q := by
  have hstage := hp.stage
  cases h with
  | enterFirst hs h =>
      rw [hs] at hstage
      obtain ⟨rfl, hrounds⟩ := hstage
      exact ⟨1, Nat.zero_le 1, .enter hk hp.protocol hp.inv (by rw [List.drop_zero, hrounds])
        (fun l prev hl => absurd hl (Nat.succ_ne_zero l).symm) h⟩
  | look hs =>
      rw [hs] at hstage
      obtain ⟨l, rfl, hdrop, hreflects⟩ := hstage
      exact ⟨l + 1, le_rfl, hp.protocol, ⟨l, rfl, hdrop, hreflects.tickWhere⟩, hp.inv⟩
  | enterNext hs hdone h =>
      rw [hs] at hstage
      exact ⟨k + 1, Nat.le_succ k,
        .enter hk hp.protocol hp.inv hstage.next.2.1 (hstage.arrived hdone) h⟩
  | finish hs hdone =>
      rw [hs] at hstage
      obtain ⟨l, rfl, hdrop, -⟩ := hstage
      exact ⟨l + 1, le_rfl, hp.protocol, length_of_drop hdrop, hp.inv⟩
  | failFirst hs =>
      rw [hs] at hstage
      obtain ⟨rfl, -⟩ := hstage
      exact ⟨0, le_rfl, hp.protocol, Nat.zero_le _, hp.inv⟩
  | fail hs =>
      rw [hs] at hstage
      obtain ⟨l, rfl, hdrop, -⟩ := hstage
      exact ⟨l + 1, le_rfl, hp.protocol, (length_of_drop hdrop).le.trans' (Nat.le_add_right ..),
        hp.inv⟩
  | store hs h =>
      rename_i checklist round later m s
      rw [hs] at hstage
      obtain ⟨l, rfl, hdrop, hreflects⟩ := hstage
      have hmem := mem_of_drop hdrop
      rw [hp.protocol] at h
      refine ⟨l + 1, le_rfl, hp.protocol, ?_, hk.store (Nat.succ_pos l) hp.inv h⟩
      rw [hs]
      exact ⟨l, rfl, hdrop, hreflects.mono fun j => hk.arrived hp.inv hmem h⟩
  | closeOutbox => exact ⟨k, le_rfl, hp.protocol, hp.stage, hp.inv⟩
  | closeResults => exact ⟨k, le_rfl, hp.protocol, hp.stage, hp.inv⟩

theorem Follows.of_moves (hk : Keeps protocol rounds Inv) {k : ℕ} {p q : Party σ C O}
    (hp : Follows protocol rounds Inv k p) (hmoves : Relation.ReflTransGen Moves p q) :
    ∃ k', k ≤ k' ∧ Follows protocol rounds Inv k' q := by
  induction hmoves with
  | refl => exact ⟨k, le_rfl, hp⟩
  | tail _ hstep ih =>
      obtain ⟨k₁, hk₁, hp₁⟩ := ih
      obtain ⟨k₂, hk₂, hp₂⟩ := hp₁.moves hk hstep
      exact ⟨k₂, hk₁.trans hk₂, hp₂⟩

variable [Content C]

/-- Every run keeps what entering and storing keep. -/
theorem Follows.run (hk : Keeps protocol rounds Inv) {k : ℕ} {p : Party σ C O}
    (hp : Follows protocol rounds Inv k p) (calls : List (Call C)) :
    ∃ k', k ≤ k' ∧ Follows protocol rounds Inv k' (p.run calls) :=
  hp.of_moves hk (p.moves_run calls)

end

end Party

end ThresholdKeys
