import Mathlib
import ThresholdKeys.Proofs.Engine.Reorder

/-!
# Whom a party waits for

If every message makes the party look for progress, it is never left in a round that has all it
needs. What the slots hold is what the messages so far have brought, so the parties that are waited
for can be read off these messages.
-/

namespace ThresholdKeys

variable {σ C O : Type}

theorem Checklist.exists_enumerates_waitingFor {c : Checklist} {n : ℕ} {name : ℕ → PartyId}
    (h : c.entries.map Prod.fst = (List.range n).map name) :
    ∃ js, Enumerates js (fun j => j < n ∧ c.isTicked j = false) ∧ c.waitingFor = js.map name := by
  have hlen : c.entries.length = n := by
    have := congrArg List.length h
    rwa [List.length_map, List.length_map, List.length_range] at this
  have hentries : c.entries = (List.range n).map fun j => (name j, c.isTicked j) := by
    refine List.ext_getElem (by rw [hlen, List.length_map, List.length_range]) fun j hj _ => ?_
    have hname : (c.entries.map Prod.fst)[j]? = ((List.range n).map name)[j]? := by rw [h]
    rw [List.getElem?_map, List.getElem?_map, List.getElem?_eq_getElem hj,
      List.getElem?_range (hlen ▸ hj), Option.map_some, Option.map_some, Option.some.injEq] at hname
    rw [List.getElem_map, List.getElem_range, ← hname, isTicked, List.getElem?_eq_getElem hj]
    rfl
  refine ⟨(List.range n).filter fun j => !c.isTicked j, ⟨List.pairwise_lt_range.filter _, ?_⟩, ?_⟩
  · intro j
    rw [List.mem_filter, List.mem_range, Bool.not_eq_true']
  · rw [waitingFor]
    conv_lhs => rw [hentries]
    rw [List.filter_map, List.map_map]
    rfl

/-! ## The messages of a run -/

section Calls

variable [Content C]

/-- The message that a call hands over to the party `id`. -/
def Call.message? (id : PartyId) : Call C → Option (Message C)
  | .update m => some m
  | .updateFromBytes bytes sender isBroadcast =>
      match Message.ofWire bytes sender (if isBroadcast then none else some [id]) isBroadcast with
      | .ok m => some m
      | .error _ => none
  | .start | .store _ | .closeOutbox | .closeResults => none

/-- A call that does not leave a message in its slot without looking for progress. -/
def Call.Looks : Call C → Prop
  | .store _ => False
  | .start | .update _ | .updateFromBytes .. | .closeOutbox | .closeResults => True

end Calls

namespace Party

section Messages

variable [Content C]

/-- The messages that come in a call while the party is running and pass its checks. -/
def takes (p : Party σ C O) (c : Call C) : List (Message C) :=
  (c.message? p.id).toList.filter fun m => p.isRunning && p.admits m

/-- The messages that come in a sequence of calls. -/
def taken (p : Party σ C O) : List (Call C) → List (Message C)
  | [] => []
  | c :: calls => p.takes c ++ (p.after c).taken calls

variable {p : Party σ C O} {m : Message C}

theorem takes_updateFromBytes {bytes : Bytes} {sender : PartyId} {isBroadcast : Bool}
    (h : Message.ofWire bytes sender (if isBroadcast then none else some [p.id]) isBroadcast =
      .ok m) : p.takes (.updateFromBytes bytes sender isBroadcast) = p.takes (.update m) := by
  unfold takes Call.message?
  dsimp only
  rw [h]

theorem takes_update_of_running (hrunning : p.isRunning = true) (hvalid : p.validate m = .ok ()) :
    p.takes (.update m) = [m] := by
  simp [takes, Call.message?, hrunning, admits_eq_true_iff.2 hvalid]

theorem takes_update_of_invalid (hvalid : p.validate m ≠ .ok ()) : p.takes (.update m) = [] := by
  have hadmits : p.admits m = false := by
    rwa [← Bool.not_eq_true, admits_eq_true_iff]
  simp [takes, Call.message?, hadmits]

theorem takes_of_not_running (hrunning : p.isRunning = false) (c : Call C) : p.takes c = [] := by
  simp [takes, hrunning]

end Messages

/-! ## What the slots show -/

/-- What a state shows of the messages so far is not changed by entering a round, and a further
message adds itself, be it that it is not stored. -/
structure Records (protocol : Protocol σ C O) (rounds : List (Round σ C O))
    (Shows : List (Message C) → σ → Prop) : Prop where
  enter : ∀ {log s round entry}, round ∈ rounds → Shows log s → round.enter s = .ok entry →
    Shows log entry.state
  takeUp : ∀ {log s} m, Shows log s → Shows (log ++ [m]) (protocol.takeUp s m)

section Records

variable {protocol : Protocol σ C O} {rounds : List (Round σ C O)}
  {Shows : List (Message C) → σ → Prop} {log : List (Message C)}

theorem Records.proceed (hrecords : Records protocol rounds Shows) (later : List (Round σ C O))
    (hlater : ∀ r ∈ later, r ∈ rounds) (round : Round σ C O) (checklist : Checklist)
    (advanced : Bool) {p : Party σ C O} (hp : Shows log p.state) :
    Shows log (proceed later round checklist advanced p).2.state := by
  induction later generalizing round checklist advanced p with
  | nil =>
      unfold Party.proceed
      cases round.inspect p.state with
      | error e => exact hp
      | ok u => dsimp only; split <;> exact hp
  | cons next later ih =>
      unfold Party.proceed
      cases round.inspect p.state with
      | error e => exact hp
      | ok u =>
          dsimp only
          split
          · cases henter : p.enter next with
            | error e => exact hp
            | ok r =>
                obtain ⟨entry, _, _, hentry, -, -, hq, -⟩ := enter_eq_ok_iff.1 henter
                refine ih (fun r hr => hlater r (List.mem_cons_of_mem next hr)) next r.2 true ?_
                rw [hq]
                exact hrecords.enter (hlater next List.mem_cons_self) hp hentry
          · exact hp

theorem mem_of_stageAt {s : σ} {k : ℕ} {checklist : Checklist} {round : Round σ C O}
    {later : List (Round σ C O)} (h : StageAt rounds s k (.active checklist round later)) :
    ∀ r ∈ round :: later, r ∈ rounds := by
  obtain ⟨l, -, hdrop, -⟩ := h
  exact fun r hr => List.mem_of_mem_drop (hdrop ▸ hr)

variable {Inv : ℕ → σ → List (Message C) → List O → Prop} {k : ℕ} {p : Party σ C O}

theorem Records.start (hrecords : Records protocol rounds Shows)
    (hp : Follows protocol rounds Inv k p) (hshows : Shows log p.state) :
    Shows log p.start.2.state := by
  unfold Party.start
  cases hs : p.stage with
  | notStarted first later =>
      have hstage := hp.stage
      rw [hs] at hstage
      obtain ⟨-, rfl⟩ := hstage
      dsimp only
      cases first.prepare p.state with
      | error e => exact hshows
      | ok u =>
          cases henter : p.enter first with
          | error e => exact hshows
          | ok r =>
              obtain ⟨entry, _, _, hentry, -, -, hq, -⟩ := enter_eq_ok_iff.1 henter
              refine hrecords.proceed later (fun r hr => List.mem_cons_of_mem first hr) first r.2
                false ?_
              rw [hq]
              exact hrecords.enter List.mem_cons_self hshows hentry
  | active | finished | failed => exact hshows

variable [Content C]

theorem update_of_not_running (hrunning : p.isRunning = false) (m : Message C) :
    (p.update m).2 = p := by
  rcases p.update_spec m with ⟨e, he⟩ | ⟨checklist, round, later, s, hs, -⟩
  · rw [he]
  · rw [isRunning_of_stage hs] at hrunning
    cases hrunning

/-- A message that is dropped only makes the party look for progress. -/
theorem update_of_dropped {m : Message C} (hrunning : p.isRunning = true)
    (hvalid : p.validate m = .ok ()) (hstore : p.protocol.store p.state m = .ok p.state) :
    p.update m = p.advance := by
  cases hs : p.stage with
  | active checklist round later =>
      rw [update_eq_proceed hs hvalid hstore, advance_of_stage hs]
  | notStarted | finished | failed =>
      rw [isRunning, hs] at hrunning
      cases hrunning

theorem unchanged_or_advance_of_dropped {m : Message C}
    (hstore : p.protocol.store p.state m = .ok p.state) :
    (p.update m).2 = p ∨ p.update m = p.advance := by
  cases hvalid : p.validate m with
  | error e => exact Or.inl (update_of_invalid (hvalid ▸ nofun))
  | ok u =>
      cases hrunning : p.isRunning with
      | false => exact Or.inl (update_of_not_running hrunning m)
      | true => exact Or.inr (update_of_dropped hrunning hvalid hstore)

theorem Records.update (hrecords : Records protocol rounds Shows)
    (hp : Follows protocol rounds Inv k p) (hshows : Shows log p.state) (m : Message C) :
    Shows (log ++ p.takes (.update m)) (p.update m).2.state := by
  by_cases hvalid : p.validate m = .ok ()
  · cases hrunning : p.isRunning with
    | false =>
        rw [takes_of_not_running hrunning, update_of_not_running hrunning, List.append_nil]
        exact hshows
    | true =>
        cases hs : p.stage with
        | active checklist round later =>
            rw [takes_update_of_running hrunning hvalid]
            have htake := hrecords.takeUp m hshows
            cases hstore : protocol.store p.state m with
            | error e =>
                rw [update_of_store_error hs hvalid (hp.protocol ▸ hstore)]
                rwa [Protocol.takeUp_of_store_error hstore] at htake
            | ok s =>
                rw [update_eq_proceed hs hvalid (hp.protocol ▸ hstore)]
                rw [Protocol.takeUp_of_store hstore] at htake
                have hmem := mem_of_stageAt (hs ▸ hp.stage)
                exact hrecords.proceed (p := { p with state := s }) later
                  (fun r hr => hmem r (List.mem_cons_of_mem round hr)) round checklist false htake
        | notStarted | finished | failed =>
            rw [isRunning, hs] at hrunning
            cases hrunning
  · rw [takes_update_of_invalid hvalid, update_of_invalid hvalid, List.append_nil]
    exact hshows

theorem Records.after (hrecords : Records protocol rounds Shows)
    (hp : Follows protocol rounds Inv k p) (hshows : Shows log p.state) {c : Call C}
    (hc : c.Looks) : Shows (log ++ p.takes c) (p.after c).state := by
  cases c with
  | start =>
      rw [show p.takes .start = [] from rfl, List.append_nil]
      exact hrecords.start hp hshows
  | update m => exact hrecords.update hp hshows m
  | updateFromBytes bytes sender isBroadcast =>
      rw [Party.after]
      cases hm : (Message.ofWire bytes sender (if isBroadcast then none else some [p.id])
          isBroadcast : Result (Message C)) with
      | error e =>
          have hnone : p.takes (.updateFromBytes bytes sender isBroadcast) = [] := by
            unfold takes Call.message?
            dsimp only
            rw [hm]
            rfl
          rw [hnone, List.append_nil, updateFromBytes_of_undecodable hm]
          exact hshows
      | ok m =>
          rw [takes_updateFromBytes hm, updateFromBytes_eq_update hm]
          exact hrecords.update hp hshows m
  | store m => exact hc.elim
  | closeOutbox | closeResults =>
      rw [show p.takes _ = [] from rfl, List.append_nil]
      exact hshows

theorem Records.run (hrecords : Records protocol rounds Shows) (hk : Keeps protocol rounds Inv)
    (hp : Follows protocol rounds Inv k p) (hshows : Shows log p.state) {calls : List (Call C)}
    (hcalls : ∀ c ∈ calls, c.Looks) : Shows (log ++ p.taken calls) (p.run calls).state := by
  induction calls generalizing k p log with
  | nil =>
      rw [taken, List.append_nil]
      exact hshows
  | cons c calls ih =>
      obtain ⟨hc, hcalls⟩ := List.forall_mem_cons.1 hcalls
      obtain ⟨k', -, hk'⟩ := hp.of_moves hk (p.moves_after c)
      have hrest := ih hk' (hrecords.after hp hshows hc) hcalls
      rwa [List.append_assoc] at hrest

end Records

/-! ## The own place -/

def FillsOwn (rounds : List (Round σ C O)) (own : ℕ → ℕ → Prop) (k : ℕ) (s : σ) : Prop :=
  ∀ l < k, ∀ round, rounds[l]? = some round → ∀ j < round.expected.length, own l j →
    round.hasArrived s j = true

theorem Keeps.withOwn {protocol : Protocol σ C O} {rounds : List (Round σ C O)}
    {Inv : ℕ → σ → List (Message C) → List O → Prop} {own : ℕ → ℕ → Prop}
    (h : Keeps protocol rounds Inv)
    (hown : ∀ {k s sent results round entry j}, rounds[k]? = some round → Inv k s sent results →
      round.enter s = .ok entry → j < round.expected.length → own k j → j ∈ entry.ticked)
    (hleft : ∀ {k s sent results round entry}, rounds[k]? = some round → Inv k s sent results →
      round.enter s = .ok entry →
        ∀ prev ∈ rounds, ∀ j, prev.hasArrived s j = true → prev.hasArrived entry.state j = true) :
    Keeps protocol rounds fun k s sent results => Inv k s sent results ∧ FillsOwn rounds own k s where
  enter {k s sent results round entry} hround hinv hdone hentry := by
    refine ⟨h.enter hround hinv.1 hdone hentry, fun l hl prev hprev j hlt hj => ?_⟩
    rcases Nat.lt_succ_iff_lt_or_eq.1 hl with hl | rfl
    · exact hleft hround hinv.1 hentry prev (List.mem_of_getElem? hprev) j
        (hinv.2 l hl prev hprev j hlt hj)
    · obtain rfl := Option.some.inj (hround.symm.trans hprev)
      exact h.ticked hround hinv.1 hentry j (hown hround hinv.1 hentry hlt hj) hlt
  ticked hround hinv hentry := h.ticked hround hinv.1 hentry
  store hk hinv hstore :=
    ⟨h.store hk hinv.1 hstore, fun l hl prev hprev j hlt hj =>
      h.arrived hinv.1 (List.mem_of_getElem? hprev) hstore (hinv.2 l hl prev hprev j hlt hj)⟩
  arrived hinv hround hstore := h.arrived hinv.1 hround hstore

theorem Follows.withOwn {protocol : Protocol σ C O} {rounds : List (Round σ C O)}
    {Inv : ℕ → σ → List (Message C) → List O → Prop} {p : Party σ C O}
    (hp : Follows protocol rounds Inv 0 p) (own : ℕ → ℕ → Prop) :
    Follows protocol rounds (fun k s sent results => Inv k s sent results ∧ FillsOwn rounds own k s)
      0 p :=
  ⟨hp.protocol, hp.stage, hp.inv, fun l hl => absurd hl (Nat.not_lt_zero l)⟩

/-- What is missing is what the others have not provided. -/
theorem missing_iff {n j : ℕ} {own : ℕ → Prop} {arrived : ℕ → Bool} {provides : ℕ → Prop}
    (hown : ∀ j < n, own j → arrived j = true)
    (hothers : ∀ j < n, ¬ own j → (arrived j = true ↔ provides j)) :
    (j < n ∧ ¬ own j ∧ ¬ provides j) ↔ j < n ∧ arrived j = false := by
  refine and_congr_right fun hj => ?_
  by_cases hi : own j
  · simp [hi, hown j hj hi]
  · simp [hi, ← hothers j hj hi]

/-! ## Parties that have looked for progress -/

section Waiting

variable {protocol : Protocol σ C O} {rounds : List (Round σ C O)}
  {Inv : ℕ → σ → List (Message C) → List O → Prop} {k : ℕ} {p : Party σ C O}

theorem settled_of_notStarted (hk : Keeps protocol rounds Inv)
    (hp : Follows protocol rounds Inv k p) {first : Round σ C O} {later : List (Round σ C O)}
    (hs : p.stage = .notStarted first later) : Settled protocol rounds Inv p.start.2 := by
  obtain ⟨k', -, hk'⟩ := hp.of_moves hk p.moves_start
  have houtcome : ∃ x : Result Bool × Party σ C O, Outcome x ∧ x.2 = p.start.2 := by
    unfold start
    rw [hs]
    dsimp only
    cases first.prepare p.state with
    | error e => exact ⟨p.fail e, .failed rfl, rfl⟩
    | ok u =>
        cases p.enter first with
        | error e => exact ⟨p.fail e, .failed rfl, rfl⟩
        | ok r => exact ⟨_, outcome_proceed later first r.2 false r.1, rfl⟩
  obtain ⟨x, hx, hstart⟩ := houtcome
  rw [← hstart] at hk' ⊢
  exact settled_of_outcome hx ⟨k', hk'⟩

def Quiet (protocol : Protocol σ C O) (rounds : List (Round σ C O))
    (Inv : ℕ → σ → List (Message C) → List O → Prop) (p : Party σ C O) : Prop :=
  (∃ first later, p.stage = .notStarted first later ∧ ∃ k, Follows protocol rounds Inv k p) ∨
    Settled protocol rounds Inv p

/-- A party that waits misses something, and it waits for those from whom it misses something. -/
theorem Settled.exists_enumerates_waitingFor (hp : Settled protocol rounds Inv p)
    {checklist : Checklist} {round : Round σ C O} {later : List (Round σ C O)}
    (hs : p.stage = .active checklist round later) {n : ℕ} {name : ℕ → PartyId}
    (hexpected : round.expected = (List.range n).map name) :
    ∃ js, js ≠ [] ∧ Enumerates js (fun j => j < n ∧ round.hasArrived p.state j = false) ∧
      p.waitingFor = js.map name := by
  obtain ⟨l, -, -, hreflects⟩ := hp.active hs
  obtain ⟨hticked, hmissing⟩ := hp.still hs
  have hlen : round.expected.length = n := by rw [hexpected, List.length_map, List.length_range]
  obtain ⟨js, hjs, hwaiting⟩ :=
    Checklist.exists_enumerates_waitingFor (hreflects.expected.trans hexpected)
  have hjs' : Enumerates js fun j => j < n ∧ round.hasArrived p.state j = false := by
    refine hjs.congr fun j => and_congr_right fun hj => ?_
    rw [Bool.eq_false_iff, Bool.eq_false_iff, ne_eq, ne_eq, not_iff_not]
    refine ⟨hreflects.arrived j, fun harrived => ?_⟩
    rw [← hticked]
    exact (checklist.isTicked_tickWhere _ j).2 (Or.inr ⟨harrived, by rwa [hreflects.length_eq, hlen]⟩)
  refine ⟨js, ?_, hjs', by rw [waitingFor, hs]; exact hwaiting⟩
  rintro rfl
  -- if nobody were missing, the round would be complete
  have hall : AllArrived round p.state := fun j hj => by
    by_contra hnot
    exact absurd ((hjs'.mem_iff j).2 ⟨hlen ▸ hj, Bool.eq_false_iff.2 hnot⟩) List.not_mem_nil
  rw [← hticked, hreflects.isComplete_iff.2 hall] at hmissing
  cases hmissing

/-- A party in its first round that misses something; it waits for the members at the places `js`,
which are all those that lack something for the round, and is not among them itself. -/
structure Waits (lacks : ℕ → ℕ → Prop) (name : ℕ → ℕ → PartyId) (p : Party σ C O) (number : ℕ)
    (js : List ℕ) : Prop where
  roundNumber : p.roundNumber = .ok number
  earlier : ∀ n < number, ∀ j, ¬ lacks n j
  nonempty : js ≠ []
  lacking : Enumerates js (lacks number)
  waitingFor : p.waitingFor = js.map (name number)
  others : ∀ q ∈ p.waitingFor, ¬ q.SameKey p.id

theorem Settled.waits (hp : Settled protocol rounds Inv p) (hrunning : p.isRunning = true)
    {lacks : ℕ → ℕ → Prop} {name : ℕ → ℕ → PartyId}
    (hbehind : ∀ {l s sent results}, Inv (l + 1) s sent results → Behind rounds l s)
    (hlacks : ∀ {k l round}, Inv k p.state p.outbox.sent p.results.sent → l < k →
      rounds[l]? = some round → round.number = l + 1 ∧
        ∃ n, round.expected = (List.range n).map (name (l + 1)) ∧
          ∀ j, lacks (l + 1) j ↔ j < n ∧ round.hasArrived p.state j = false)
    (hzero : ∀ j, ¬ lacks 0 j)
    (hothers : ∀ number j, lacks number j → ¬ (name number j).SameKey p.id) :
    ∃ number js, p.Waits lacks name number js := by
  rcases hp.hasEnded_or_active with hended | ⟨checklist, round, later, hs⟩
  · rw [isRunning_of_hasEnded hended] at hrunning
    cases hrunning
  · obtain ⟨l, hfollows, hdrop, -⟩ := hp.active hs
    have hround := getElem?_of_drop hdrop
    obtain ⟨hnumber, n, hexpected, hl⟩ := hlacks hfollows.inv (Nat.lt_succ_self l) hround
    obtain ⟨js, hne, hjs, hwaiting⟩ := hp.exists_enumerates_waitingFor hs hexpected
    have hlacking := hjs.congr fun j => (hl j).symm
    refine ⟨l + 1, js, ?_, ?_, hne, hlacking, hwaiting, ?_⟩
    · rw [Party.roundNumber, hs]
      exact congrArg _ hnumber
    · intro m hm j hj
      rcases m with _ | l'
      · exact hzero j hj
      · have hlt : l' < l := Nat.lt_of_succ_lt_succ hm
        have hget : l' < rounds.length :=
          hlt.trans (List.getElem?_eq_some_iff.1 hround).1
        obtain ⟨-, n', hexpected', hl'⟩ := hlacks hfollows.inv (Nat.lt_succ_of_lt hlt)
          (List.getElem?_eq_getElem hget)
        obtain ⟨hjn, hmissing⟩ := (hl' j).1 hj
        have harrived := hbehind hfollows.inv l' hlt _ (List.getElem?_eq_getElem hget) j
          (by rwa [hexpected', List.length_map, List.length_range])
        rw [harrived] at hmissing
        cases hmissing
    · intro q hq
      rw [hwaiting] at hq
      obtain ⟨j, hj, rfl⟩ := List.mem_map.1 hq
      exact hothers (l + 1) j ((hlacking.mem_iff j).1 hj)

variable [Content C]

theorem Quiet.update (hk : Keeps protocol rounds Inv) (hp : Quiet protocol rounds Inv p)
    (m : Message C) : Quiet protocol rounds Inv (p.update m).2 := by
  rcases hp with ⟨first, later, hs, hfollows⟩ | hsettled
  · rw [update_of_not_running (by rw [isRunning, hs])]
    exact Or.inl ⟨first, later, hs, hfollows⟩
  · exact Or.inr (hsettled.update hk m)

theorem Quiet.after (hk : Keeps protocol rounds Inv) (hp : Quiet protocol rounds Inv p)
    {c : Call C} (hc : c.Looks) : Quiet protocol rounds Inv (p.after c) := by
  cases c with
  | start =>
      rcases hp with ⟨first, later, hs, k, hk'⟩ | hsettled
      · exact Or.inr (settled_of_notStarted hk hk' hs)
      · refine Or.inr ?_
        have hsame : p.start.2 = p := by
          unfold start
          cases hs : p.stage with
          | notStarted first later => exact absurd hs (hsettled.started first later)
          | active | finished | failed => rfl
        rw [Party.after, hsame]
        exact hsettled
  | update m => exact hp.update hk m
  | updateFromBytes bytes sender isBroadcast =>
      rw [Party.after]
      rcases p.updateFromBytes_cases bytes sender isBroadcast with ⟨e, he⟩ | ⟨m, hm⟩
      · rwa [he]
      · rw [hm]
        exact hp.update hk m
  | store m => exact hc.elim
  | closeOutbox | closeResults =>
      rcases hp with ⟨first, later, hs, k, hk'⟩ | hsettled
      · exact Or.inl ⟨first, later, hs, k, hk'.protocol, hk'.stage, hk'.inv⟩
      · obtain ⟨k, hk'⟩ := hsettled.follows
        exact Or.inr ⟨⟨k, hk'.protocol, hk'.stage, hk'.inv⟩, hsettled.started, hsettled.still⟩

theorem Quiet.run (hk : Keeps protocol rounds Inv) (hp : Quiet protocol rounds Inv p)
    {calls : List (Call C)} (hcalls : ∀ c ∈ calls, c.Looks) :
    Quiet protocol rounds Inv (p.run calls) := by
  induction calls generalizing p with
  | nil => exact hp
  | cons c calls ih =>
      obtain ⟨hc, hcalls⟩ := List.forall_mem_cons.1 hcalls
      exact ih (hp.after hk hc) hcalls

theorem settled_of_run (hk : Keeps protocol rounds Inv) (hp : Follows protocol rounds Inv k p)
    {first : Round σ C O} {later : List (Round σ C O)} (hfirst : p.stage = .notStarted first later)
    {calls : List (Call C)} (hcalls : ∀ c ∈ calls, c.Looks)
    (hrunning : (p.run calls).isRunning = true) :
    Settled protocol rounds Inv (p.run calls) := by
  have hquiet : Quiet protocol rounds Inv p := Or.inl ⟨first, later, hfirst, k, hp⟩
  rcases hquiet.run hk hcalls with ⟨_, _, hs, -⟩ | hsettled
  · rw [isRunning, hs] at hrunning
    cases hrunning
  · exact hsettled

end Waiting

end Party

end ThresholdKeys
