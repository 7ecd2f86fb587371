import Mathlib
import ThresholdKeys.Proofs.Engine.Role
import ThresholdKeys.Proofs.Network.Flow

/-!
# Undisturbed networks

Parties whose roles fit together: what is addressed to a party is what it waits for, and nobody
waits for a message that is sent in a later round than the one in which it is needed. In such a
network every call succeeds, and it comes to rest only when all parties have finished.
-/

namespace ThresholdKeys

structure Ensemble (σ C O : Type) where
  size : ℕ
  role : ℕ → Role σ C O
  /-- The number of rounds. -/
  depth : ℕ
  hears : σ → Message C → Bool
  /-- Which messages to everybody concern a party. -/
  concerns : ℕ → Message C → Bool

namespace Ensemble

variable {σ C O : Type}

def addressed (E : Ensemble σ C O) (j : ℕ) (m : Message C) : Bool :=
  match m.recipients with
  | some recipients => recipients.any fun p => p.SameKey (E.role j).party.id
  | none => !decide ((E.role j).party.id.SameKey m.sender) && E.concerns j m

def network (E : Ensemble σ C O) : Network σ C O where
  hears := E.hears
  nodes := (List.range E.size).map fun i => some (.new (E.role i).party false)

/-- The roles fit together. -/
structure Lawful [Content C] (E : Ensemble σ C O) : Prop where
  role : ∀ {i}, i < E.size → (E.role i).Lawful
  depth : ∀ {i}, i < E.size → (E.role i).rounds.length = E.depth
  hears : ∀ {i k log s}, i < E.size → (E.role i).Holds k log s → E.hears s = E.concerns i
  /-- No message is sent twice. -/
  nodup : ∀ {i k}, i < E.size → k < E.depth → ((E.role i).sends k).Nodup
  origin : ∀ {i i' k k' m}, i < E.size → i' < E.size → k < E.depth → k' < E.depth →
    m ∈ (E.role i).sends k → m ∈ (E.role i').sends k' → i = i' ∧ k = k'
  /-- What is addressed to a party is what it waits for. -/
  needed : ∀ {i j k m}, i < E.size → j < E.size → k < E.depth → m ∈ (E.role i).sends k →
    E.addressed j m = true → (E.role j).Needs m
  /-- Nobody waits for a message of a later round. -/
  sent : ∀ {j k m}, j < E.size → k < E.depth → m ∈ (E.role j).needs k →
    E.addressed j m = true ∧ ∃ i < E.size, ∃ l ≤ k, m ∈ (E.role i).sends l

/-- Up to the parties: what has been sent by parties that have entered so many rounds, and how it
is divided into what was taken up and what is in flight. -/
structure Balanced (E : Ensemble σ C O) (net : Network σ C O) (k : ℕ → ℕ)
    (log : ℕ → List (Message C)) : Prop where
  hears : net.hears = E.hears
  length : net.nodes.length = E.size
  numbered : net.Numbered
  nodup : net.messages.Nodup
  messages : ∀ m, m ∈ net.messages ↔ ∃ i < E.size, ∃ l < k i, m ∈ (E.role i).sends l
  flow : ∀ j < E.size, (log j ++ net.inFlight j).Perm (net.messages.filter (E.addressed j))

/-- Every party has entered some of its rounds, has taken up some messages, and rests. -/
structure Runs (E : Ensemble σ C O) (net : Network σ C O) (k : ℕ → ℕ)
    (log : ℕ → List (Message C)) : Prop extends E.Balanced net k log where
  node : ∀ i < E.size, ∃ n, net.node? i = some n ∧ (E.role i).Rests (k i) (log i) n.party

variable {E : Ensemble σ C O} {net : Network σ C O} {k : ℕ → ℕ} {log : ℕ → List (Message C)}

theorem Balanced.nodup_flow (h : E.Balanced net k log) {j : ℕ} (hj : j < E.size) :
    (log j ++ net.inFlight j).Nodup :=
  (h.flow j hj).nodup_iff.2 (h.nodup.filter _)

theorem Balanced.mem_flow_iff (h : E.Balanced net k log) {j : ℕ} (hj : j < E.size)
    {m : Message C} : m ∈ log j ++ net.inFlight j ↔
      (∃ i < E.size, ∃ l < k i, m ∈ (E.role i).sends l) ∧ E.addressed j m = true := by
  rw [(h.flow j hj).mem_iff, List.mem_filter, h.messages]

theorem Balanced.dequeue (h : E.Balanced net k log) {d : Delivery} (hd : d ∈ net.pending)
    {m : Message C} (hm : net.messages[d.number]? = some m) :
    E.Balanced (net.dequeue d) k
      (Function.update log d.recipient (log d.recipient ++ [m])) where
  hears := h.hears
  length := h.length
  numbered := Network.numbered_dequeue h.numbered d
  nodup := h.nodup
  messages := h.messages
  flow j hj := by
    have hflight := Network.inFlight_dequeue hd hm j
    refine List.Perm.trans ?_ (h.flow j hj)
    refine List.Perm.trans ?_ (hflight.symm.append_left (log j))
    by_cases hrecipient : d.recipient = j
    · subst hrecipient
      rw [Function.update_self, if_pos rfl, List.append_assoc]
    · rw [Function.update_of_ne (Ne.symm hrecipient), if_neg hrecipient, List.nil_append]

theorem flatMap_range_drop {α : Type} (f : ℕ → List α) {a b : ℕ} (hab : a ≤ b) :
    ((List.range b).flatMap f).drop ((List.range a).flatMap f).length =
      (List.range' a (b - a)).flatMap f := by
  obtain ⟨d, rfl⟩ := Nat.exists_eq_add_of_le hab
  rw [Nat.add_sub_cancel_left, List.range_eq_range', List.range_eq_range',
    ← List.range'_append_1, List.flatMap_append, Nat.zero_add, List.drop_left']
  rfl

theorem mem_flatMap_range'_iff {α : Type} {f : ℕ → List α} {a b : ℕ} {x : α} :
    x ∈ (List.range' a (b - a)).flatMap f ↔ ∃ l, (a ≤ l ∧ l < b) ∧ x ∈ f l := by
  simp only [List.mem_flatMap, List.mem_range'_1]
  refine exists_congr fun l => and_congr_left fun _ => ?_
  omega

theorem node?_set {i : ℕ} (hi : i < net.nodes.length) (n : Node σ C O) (j : ℕ) :
    Network.node? { net with nodes := net.nodes.set i (some n) } j =
      if i = j then some n else net.node? j := by
  unfold Network.node?
  rw [List.getElem?_set]
  by_cases hij : i = j
  · subst hij
    simp [hi]
  · simp [hij]

theorem Runs.node_eq (h : E.Runs net k log) {i : ℕ} {n : Node σ C O} (hn : net.node? i = some n) :
    i < E.size ∧ (E.role i).Rests (k i) (log i) n.party := by
  have hi : i < E.size := by
    have hlt := (List.getElem?_eq_some_iff.1 (Network.nodes_eq_of_node? hn)).1
    exact h.length ▸ hlt
  obtain ⟨n', hn', hrests⟩ := h.node i hi
  obtain rfl := Option.some.inj (hn'.symm.trans hn)
  exact ⟨hi, hrests⟩

theorem exists_sent_update_iff {i k' : ℕ} (hi : i < E.size) (hle : k i ≤ k') {m : Message C} :
    (∃ j < E.size, ∃ l < Function.update k i k' j, m ∈ (E.role j).sends l) ↔
      (∃ j < E.size, ∃ l < k j, m ∈ (E.role j).sends l) ∨
        ∃ l, (k i ≤ l ∧ l < k') ∧ m ∈ (E.role i).sends l := by
  constructor
  · rintro ⟨j, hj, l, hl, hm⟩
    by_cases hji : j = i
    · subst hji
      rw [Function.update_self] at hl
      rcases Nat.lt_or_ge l (k j) with hlt | hge
      · exact Or.inl ⟨j, hj, l, hlt, hm⟩
      · exact Or.inr ⟨l, ⟨hge, hl⟩, hm⟩
    · rw [Function.update_of_ne hji] at hl
      exact Or.inl ⟨j, hj, l, hl, hm⟩
  · rintro (⟨j, hj, l, hl, hm⟩ | ⟨l, ⟨-, hl⟩, hm⟩)
    · refine ⟨j, hj, l, ?_, hm⟩
      by_cases hji : j = i
      · subst hji
        rw [Function.update_self]
        exact hl.trans_le hle
      · rwa [Function.update_of_ne hji]
    · exact ⟨i, hi, l, by rwa [Function.update_self], hm⟩

section Lawful

variable [Content C]

theorem Lawful.addressees_eq (hE : E.Lawful) (net : Network σ C O) (hhears : net.hears = E.hears)
    (hlength : net.nodes.length = E.size)
    (hnode : ∀ i < E.size, ∃ n k log, net.node? i = some n ∧ (E.role i).Carries k log n.party)
    (m : Message C) :
    net.addressees m = (List.range E.size).filter fun i => E.addressed i m := by
  rw [Network.addressees, hlength]
  refine List.filter_congr fun i hi => ?_
  obtain ⟨n, k, log, hn, hcarries⟩ := hnode i (List.mem_range.1 hi)
  rw [hn, Option.any_some]
  obtain ⟨sender, recipients, isBroadcast, scope, content⟩ := m
  cases recipients with
  | none =>
      change (!decide (n.party.id.SameKey sender) && net.hears n.party.state _) =
        (!decide ((E.role i).party.id.SameKey sender) && E.concerns i _)
      rw [hcarries.id, hhears, hE.hears (List.mem_range.1 hi) hcarries.holds]
  | some recipients =>
      change (recipients.any fun p => decide (p.SameKey n.party.id)) =
        recipients.any fun p => decide (p.SameKey (E.role i).party.id)
      rw [hcarries.id]

/-- What a party sends when it goes on is new. -/
theorem Lawful.nodup_sends (hE : E.Lawful) {i : ℕ} (hi : i < E.size) {a b : ℕ}
    (hb : b ≤ E.depth) : ((List.range' a (b - a)).flatMap (E.role i).sends).Nodup := by
  rw [List.nodup_flatMap]
  constructor
  · intro l hl
    rw [List.mem_range'_1] at hl
    exact hE.nodup hi (by omega)
  · refine (List.nodup_range' (h := Nat.one_pos)).imp_of_mem fun {l l'} hl hl' hne => ?_
    rw [List.mem_range'_1] at hl hl'
    intro m hm hm'
    exact hne (hE.origin hi hi (by omega) (by omega) hm hm').2

theorem Balanced.nodup_post (h : E.Balanced net k log) (hE : E.Lawful)
    (hdepth : ∀ j < E.size, k j ≤ E.depth) {i k' : ℕ} (hi : i < E.size) (hk' : k' ≤ E.depth) :
    (net.messages ++ (List.range' (k i) (k' - k i)).flatMap (E.role i).sends).Nodup := by
  refine List.nodup_append.2 ⟨h.nodup, hE.nodup_sends hi hk', fun m hm m' hm' heq => ?_⟩
  subst heq
  obtain ⟨j, hj, l, hl, hml⟩ := (h.messages m).1 hm
  obtain ⟨l', ⟨hl', hlk'⟩, hml'⟩ := mem_flatMap_range'_iff.1 hm'
  obtain ⟨rfl, rfl⟩ := hE.origin hj hi (hl.trans_le (hdepth j hj)) (hlk'.trans_le hk') hml hml'
  exact Nat.not_lt.2 hl' hl

/-- A party that goes on posts what it sends in the rounds that it enters. -/
theorem Lawful.settle (hE : E.Lawful) (h : E.Balanced net k log) {i : ℕ} (hi : i < E.size)
    (hothers : ∀ j < E.size, j ≠ i → ∃ n, net.node? j = some n ∧
      (E.role j).Rests (k j) (log j) n.party)
    (before after : Node σ C O)
    (hbefore : before.party.outbox.sent = (List.range (k i)).flatMap (E.role i).sends) {k' : ℕ}
    (hle : k i ≤ k') (hafter : (E.role i).Rests k' (log i) after.party) :
    E.Runs (net.settle i before after).2 (Function.update k i k') log := by
  have hk' : k' ≤ E.depth := (hE.depth hi) ▸ hafter.le_length
  have hdepth (j : ℕ) (hj : j < E.size) : k j ≤ E.depth := by
    by_cases hji : j = i
    · exact hji ▸ hle.trans hk'
    · obtain ⟨n, -, hn⟩ := hothers j hj hji
      exact (hE.depth hj) ▸ hn.le_length
  have hsent : after.party.outbox.sent.drop before.party.outbox.sent.length =
      (List.range' (k i) (k' - k i)).flatMap (E.role i).sends := by
    rw [hbefore, hafter.outbox, flatMap_range_drop _ hle]
  have hnode (j : ℕ) (hj : j < E.size) : ∃ n,
      Network.node? { net with nodes := net.nodes.set i (some after) } j = some n ∧
        (E.role j).Rests (Function.update k i k' j) (log j) n.party := by
    rw [node?_set (h.length.symm ▸ hi)]
    by_cases hji : j = i
    · subst hji
      exact ⟨after, if_pos rfl, by rwa [Function.update_self]⟩
    · rw [if_neg (Ne.symm hji), Function.update_of_ne hji]
      exact hothers j hj hji
  have haddressees := hE.addressees_eq { net with nodes := net.nodes.set i (some after) }
    h.hears ((List.length_set ..).trans h.length) fun j hj => by
      obtain ⟨n, hn, hrests⟩ := hnode j hj
      exact ⟨n, _, _, hn, hrests.toCarries⟩
  have hnumbered : Network.Numbered { net with nodes := net.nodes.set i (some after) } :=
    fun d hd => ⟨(h.numbered d hd).1, by rw [List.length_set]; exact (h.numbered d hd).2⟩
  unfold Network.settle
  rw [hsent]
  exact
    { hears := h.hears
      length := (List.length_set ..).trans h.length
      numbered := Network.numbered_post hnumbered _
      nodup := h.nodup_post hE hdepth hi hk'
      messages := fun m => by
        change m ∈ net.messages ++ _ ↔ _
        rw [List.mem_append, h.messages, mem_flatMap_range'_iff, exists_sent_update_iff hi hle]
      flow := fun j hj => by
        rw [Network.inFlight_post hnumbered]
        have hfilter : ((List.range' (k i) (k' - k i)).flatMap (E.role i).sends).filter
            (fun m => j ∈ Network.addressees
              { net with nodes := net.nodes.set i (some after) } m) =
            ((List.range' (k i) (k' - k i)).flatMap (E.role i).sends).filter
              (E.addressed j) := by
          refine List.filter_congr fun m _ => ?_
          simp [haddressees m, hj]
        rw [hfilter, ← List.append_assoc]
        change List.Perm _ ((net.messages ++ _).filter _)
        rw [List.filter_append]
        exact (h.flow j hj).append_right _
      node := fun j hj => hnode j hj }

theorem Lawful.runs_network (hE : E.Lawful) : E.Runs E.network (fun _ => 0) fun _ => [] where
  hears := rfl
  length := by rw [network, List.length_map, List.length_range]
  numbered d hd := absurd hd List.not_mem_nil
  nodup := List.nodup_nil
  messages m := by simp [network]
  flow j _ := .refl _
  node i hi := by
    refine ⟨.new (E.role i).party false, ?_, (hE.role hi).rests_party⟩
    simp [network, Network.node?, List.getElem?_range hi]

theorem isStarted_iff {i : ℕ} (hE : E.Lawful) (hi : i < E.size) {l : ℕ}
    {messages : List (Message C)} {p : Party σ C O} (hp : (E.role i).Rests l messages p) :
    p.IsStarted ↔ 0 < l := by
  have hstage := hp.stage
  obtain ⟨first, later, -, hrounds⟩ := (hE.role hi).stage
  unfold Party.IsStarted
  cases hs : p.stage with
  | notStarted first' later' =>
      rw [hs] at hstage
      simp [hstage.1]
  | active c round later' =>
      rw [hs] at hstage
      obtain ⟨l', rfl, -⟩ := hstage
      simp
  | finished =>
      rw [hs] at hstage
      change l = (E.role i).rounds.length at hstage
      simp [hstage, hrounds]
  | failed => exact absurd hs hp.running

theorem Lawful.eq_zero_of_not_isStarted (hE : E.Lawful) {i : ℕ} (hi : i < E.size) {l : ℕ}
    {messages : List (Message C)} {p : Party σ C O} (hp : (E.role i).Rests l messages p)
    (hs : ¬ p.IsStarted) : l = 0 := by
  by_contra hne
  exact hs ((isStarted_iff hE hi hp).2 (Nat.pos_of_ne_zero hne))

/-- Every call of the environment succeeds, and the parties rest again afterwards. -/
theorem Lawful.runs_step (hE : E.Lawful) (h : E.Runs net k log) {answer : Result Unit}
    {net' : Network σ C O} (hstep : net.Step answer net') :
    answer = .ok () ∧ ∃ k' log', E.Runs net' k' log' := by
  cases hstep with
  | @start i n hn hs =>
      obtain ⟨hi, hrests⟩ := h.node_eq hn
      have hzero := hE.eq_zero_of_not_isStarted hi hrests hs
      obtain ⟨q, k', hstart, -, hq⟩ := (hE.role hi).start_ok (hzero ▸ hrests)
      have hrun : n.start = (.ok (), n.withParty q) := by
        rw [Node.start, Node.onParty, hstart]
      refine ⟨by simp [Network.callMarked, Network.call, hrun], ?_⟩
      have hruns := hE.settle h.toBalanced hi (fun j hj _ => h.node j hj) n
        (n.withParty q) (by rw [hrests.outbox]) (by rw [hzero]; exact Nat.zero_le k') hq
      exact ⟨_, _, by simpa [Network.callMarked, Network.call, hrun, Node.marked] using hruns⟩
  | @deliver d n m hd hn hm hs =>
      obtain ⟨hi, hrests⟩ := h.node_eq hn
      have hpos := (isStarted_iff hE hi hrests).1 hs
      have hflight := Network.inFlight_dequeue hd hm d.recipient
      rw [if_pos rfl] at hflight
      have hmem : m ∈ net.inFlight d.recipient :=
        hflight.mem_iff.2 (List.mem_append_left _ (List.mem_singleton_self m))
      have hnew : m ∉ log d.recipient := fun hlog =>
        (List.nodup_append.1 (h.nodup_flow hi)).2.2 m hlog m hmem rfl
      obtain ⟨⟨j, hj, l, hl, hsends⟩, haddressed⟩ :=
        (h.mem_flow_iff hi).1 (List.mem_append_right _ hmem)
      have hdepth : l < E.depth := by
        obtain ⟨_, -, hrests'⟩ := h.node j hj
        exact hl.trans_le ((hE.depth hj) ▸ hrests'.le_length)
      obtain ⟨b, q, k', hupdate, hle, hq⟩ := (hE.role hi).update_ok hrests hpos
        (hE.needed hj hi hdepth hsends haddressed) hnew
      have hrun : n.receive .party m = (.ok (.advanced b), n.withParty q) := by
        simp [Node.receive, Node.onParty, hupdate, Except.map]
      have hbalanced := h.dequeue hd hm
      refine ⟨by simp [Network.hand, Network.callMarked, Network.call, hrun, Except.map], ?_⟩
      have hruns := hE.settle hbalanced hi (fun j hj hji => by
          rw [Function.update_of_ne hji]
          exact h.node j hj) n (n.withParty q)
        (by rw [hrests.outbox]) hle (by rwa [Function.update_self])
      exact ⟨_, _, by simpa [Network.hand, Network.callMarked, Network.call, hrun,
        Node.marked] using hruns⟩

theorem Lawful.runs_of_reaches (hE : E.Lawful) (h : E.network.Reaches net) :
    ∃ k log, E.Runs net k log := by
  induction h with
  | refl => exact ⟨_, _, hE.runs_network⟩
  | tail _ hstep ih =>
      obtain ⟨k, log, hruns⟩ := ih
      obtain ⟨answer, hstep⟩ := hstep
      exact (hE.runs_step hruns hstep).2

theorem Lawful.answer_ok (hE : E.Lawful) (h : E.network.Reaches net) {answer : Result Unit}
    {net' : Network σ C O} (hstep : net.Step answer net') : answer = .ok () := by
  obtain ⟨k, log, hruns⟩ := hE.runs_of_reaches h
  exact (hE.runs_step hruns hstep).1

theorem Lawful.finished (hE : E.Lawful) (h : E.network.Reaches net) (hrest : net.AtRest) {i : ℕ}
    (hi : i < E.size) : ∃ n, net.node? i = some n ∧ n.party.stage = .finished ∧
      n.party.results.sent = [(E.role i).result] := by
  obtain ⟨hpending, hstarted⟩ := hrest
  obtain ⟨k, log, hruns⟩ := hE.runs_of_reaches h
  have hpos (j : ℕ) (hj : j < E.size) : 0 < k j := by
    obtain ⟨n, hn, hrests⟩ := hruns.node j hj
    exact (isStarted_iff hE hj hrests).1 (hstarted j n hn)
  have hlog (j : ℕ) : net.inFlight j = [] := by rw [Network.inFlight, hpending]; rfl
  -- a party that no other is behind has everything that it waits for
  have hleast (j : ℕ) (hj : j < E.size) (hmin : ∀ i < E.size, k j ≤ k i) :
      (E.role j).needs (k j - 1) ⊆ log j := by
    intro m hm
    obtain ⟨n, hn, hrests⟩ := hruns.node j hj
    have hdepth := (hE.depth hj) ▸ hrests.le_length
    have hposj := hpos j hj
    obtain ⟨haddressed, i', hi', l, hl, hsends⟩ := hE.sent hj (by omega) hm
    have hflow := (hruns.mem_flow_iff hj).2
      ⟨⟨i', hi', l, by have := hmin i' hi'; omega, hsends⟩, haddressed⟩
    rwa [hlog j, List.append_nil] at hflow
  have hend (j : ℕ) (hj : j < E.size) (hmin : ∀ i < E.size, k j ≤ k i) : k j = E.depth := by
    obtain ⟨n, hn, hrests⟩ := hruns.node j hj
    have hstage := hrests.stage
    rw [hrests.finished_of_needs (hpos j hj) (hleast j hj hmin)] at hstage
    exact hstage.trans (hE.depth hj)
  obtain ⟨j, hj, hmin⟩ := Finset.exists_min_image (Finset.range E.size) k
    ⟨i, Finset.mem_range.2 hi⟩
  simp only [Finset.mem_range] at hj hmin
  have hall (i : ℕ) (hi : i < E.size) : k i = E.depth := by
    obtain ⟨n, hn, hrests⟩ := hruns.node i hi
    have hle := (hE.depth hi) ▸ hrests.le_length
    have hge := hmin i hi
    rw [hend j hj hmin] at hge
    exact Nat.le_antisymm hle hge
  obtain ⟨n, hn, hrests⟩ := hruns.node i hi
  refine ⟨n, hn, hrests.finished_of_needs (hpos i hi) (hleast i hi fun i' hi' => ?_), ?_⟩
  · rw [hall i hi, hall i' hi']
  · rw [hrests.results, if_pos ((hall i hi).trans (hE.depth hi).symm)]

/-! ## Coming to rest -/

theorem Lawful.roundsAhead_eq (hE : E.Lawful) {i : ℕ} (hi : i < E.size) {l : ℕ}
    {messages : List (Message C)} {p : Party σ C O} (hp : (E.role i).Rests l messages p) :
    p.stage.roundsAhead = E.depth - l := by
  have hstage := hp.stage
  have hdepth := hE.depth hi
  cases hs : p.stage with
  | notStarted first later =>
      rw [hs] at hstage
      obtain ⟨rfl, hrounds⟩ := hstage
      rw [← hdepth, hrounds]
      rfl
  | active c round later =>
      rw [hs] at hstage
      obtain ⟨l', rfl, hround, -⟩ := hstage
      have hlen := Party.length_of_drop hround
      change later.length = _
      omega
  | finished =>
      rw [hs] at hstage
      change l = (E.role i).rounds.length at hstage
      change 0 = _
      omega
  | failed => exact absurd hs hp.running

theorem Lawful.roundsAhead_start_lt (hE : E.Lawful) (h : E.Runs net k log) {i : ℕ}
    {n : Node σ C O} (hn : net.node? i = some n) (hs : ¬ n.party.IsStarted) :
    (net.callMarked i n Node.start).2.roundsAhead < net.roundsAhead := by
  obtain ⟨hi, hrests⟩ := h.node_eq hn
  rw [hE.eq_zero_of_not_isStarted hi hrests hs] at hrests
  obtain ⟨q, k', hstart, hpos, hq⟩ := (hE.role hi).start_ok hrests
  have hbefore := hE.roundsAhead_eq hi hrests
  have hafter := hE.roundsAhead_eq hi hq
  have hle := (hE.depth hi) ▸ hq.le_length
  have hrun : (n.start).2 = n.withParty q := by rw [Node.start, Node.onParty, hstart]
  have hcount : (net.nodes.map Network.roundsOf)[i]? = some n.party.stage.roundsAhead := by
    rw [List.getElem?_map, Network.nodes_eq_of_node? hn]
    rfl
  rw [Network.callMarked, Network.call]
  dsimp only
  rw [Network.roundsAhead_settle, Network.party_marked, hrun]
  refine Network.total_set_lt hcount ?_
  change q.stage.roundsAhead < _
  omega

theorem Lawful.exists_step (hE : E.Lawful) (h : E.Runs net k log) (hrest : ¬ net.AtRest) :
    ∃ answer net', net.Step answer net' ∧ Prod.Lex (· < ·) (· < ·)
      (net'.roundsAhead, net'.pending.length) (net.roundsAhead, net.pending.length) := by
  by_cases hstarted : ∀ i n, net.node? i = some n → n.party.IsStarted
  · cases hpending : net.pending with
    | nil => exact absurd ⟨hpending, hstarted⟩ hrest
    | cons d rest =>
        have hd : d ∈ net.pending := hpending ▸ List.mem_cons_self
        obtain ⟨hnumber, hrecipient⟩ := h.numbered d hd
        obtain ⟨n, hn, -⟩ := h.node d.recipient (h.length ▸ hrecipient)
        refine ⟨_, _, .deliver hd hn (List.getElem?_eq_getElem hnumber) (hstarted _ n hn), ?_⟩
        rcases (net.dequeue d).hand_decreases d.recipient n hn .party net.messages[d.number] with
          hlt | ⟨heq, hsame⟩
        · exact .left _ _ hlt
        · refine Prod.lex_def.2 (Or.inr ⟨heq, ?_⟩)
          rw [hsame, Network.dequeue, List.length_erase_of_mem hd, hpending]
          exact Nat.lt_succ_self _
  · simp only [not_forall] at hstarted
    obtain ⟨i, n, hn, hs⟩ := hstarted
    exact ⟨_, _, .start hn hs, .left _ _ (hE.roundsAhead_start_lt h hn hs)⟩

/-- However a run has gone on, it can come to rest. -/
theorem Lawful.exists_atRest (hE : E.Lawful) {net : Network σ C O} (h : E.network.Reaches net) :
    ∃ net', net.Reaches net' ∧ net'.AtRest := by
  by_cases hrest : net.AtRest
  · exact ⟨net, .refl, hrest⟩
  · obtain ⟨k, log, hruns⟩ := hE.runs_of_reaches h
    obtain ⟨answer, next, hstep, hless⟩ := hE.exists_step hruns hrest
    obtain ⟨net', hreaches, hrest'⟩ :=
      Lawful.exists_atRest hE (Relation.ReflTransGen.tail h ⟨answer, hstep⟩)
    exact ⟨net', .head ⟨answer, hstep⟩ hreaches, hrest'⟩
termination_by (net.roundsAhead, net.pending.length)
decreasing_by exact hless

end Lawful

end Ensemble

end ThresholdKeys
