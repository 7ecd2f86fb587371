import Mathlib
import ThresholdKeys.Proofs.Network.Unreliable
import ThresholdKeys.Proofs.Reshare.Origin
import ThresholdKeys.Proofs.Reshare.Soundness

/-!
# Everybody is committed before anybody reveals

All members of two committees run a resharing through a network that delivers what it wants, but
forges nothing. By the time that an old member sends a share or an opening, or retires, all new
members hold the commitments of all old members, and they keep them. The old member has waited for
the acknowledgements of all new members, and each of these had waited for all commitments.
-/

namespace ThresholdKeys.Reshare

variable {old new : Committee}

abbrev Member (old new : Committee) : Type := { p : PartyId // p ∈ participants old new }

def Member.ofOld {i : ℕ} (hi : i < old.size) : Member old new := ⟨old.member i, old_member_mem hi⟩

/-- One party for each member, none of them started. -/
def Assembled (parties : Member old new → Party State Payload Outcome) : Prop :=
  ∀ q : Member old new, ∃ curve oldThreshold newThreshold version params input source,
    Parameters.make curve old new q.1 oldThreshold newThreshold version = .ok params ∧
      newParty params input source = .ok (parties q)

/-- A party has sent a share or an opening, or it has retired. -/
def HasLetGo (p : Party State Payload Outcome) : Prop :=
  (∃ m ∈ p.outbox.sent, m.content.round = 3) ∨ .retired ∈ p.results.sent

section Make

variable {curve : CurveParams} {id : PartyId} {oldThreshold newThreshold : ℕ} {version : Version}
  {params : Parameters}
  (h : Parameters.make curve old new id oldThreshold newThreshold version = .ok params)

include h

theorem oldPlace_of_make (hold : old.Proper) (hisOld : params.isOld = true) :
    ∃ i, old.position? id = some i ∧ i < old.size ∧ params.oldIndex? = some i ∧
      params.id = old.member i := by
  obtain ⟨-, -, own, hown, rfl⟩ := Parameters.make_eq_ok_iff.1 h
  obtain ⟨me, hme⟩ := Option.isSome_iff_exists.1 hisOld
  dsimp only at hme
  have hfind := hme
  rw [hold.find?_eq_map_position?, Option.map_eq_some_iff] at hfind
  obtain ⟨i, hi, rfl⟩ := hfind
  obtain ⟨hlt, -⟩ := hold.position?_eq_some_iff.1 hi
  refine ⟨i, hi, hlt, ?_, ?_⟩
  · rw [Parameters.oldIndex?, hme, Option.bind_some, hold.index_member hlt]
  · rw [hme] at hown
    exact (Option.some.inj hown).symm

theorem newPlace_of_make (hnew : new.Proper) {me : PartyId} (hme : params.newId = some me) :
    ∃ j, new.position? id = some j ∧ j < new.size ∧ me = new.member j := by
  obtain ⟨-, -, hid⟩ := committees_of_make h
  have hfind := hid.symm.trans hme
  rw [hnew.find?_eq_map_position?, Option.map_eq_some_iff] at hfind
  obtain ⟨j, hj, rfl⟩ := hfind
  exact ⟨j, hj, (hnew.position?_eq_some_iff.1 hj).1, rfl⟩

theorem isOld_of_isNew_eq_false (hisNew : params.isNew = false) : params.isOld = true := by
  obtain ⟨-, -, own, hown, rfl⟩ := Parameters.make_eq_ok_iff.1 h
  have hnone : new.find? id = none := by simpa [Parameters.isNew] using hisNew
  rw [hnone] at hown
  cases hfind : old.find? id with
  | none => rw [hfind] at hown; cases hown
  | some me => rfl

end Make

/-- A network in which every member has entered some rounds and knows where its slots come from. -/
structure Underway (parties : Member old new → Party State Payload Outcome)
    (params : Member old new → Parameters) (input : Member old new → Input)
    (k : Member old new → ℕ) : Prop where
  made : ∀ q, ∃ curve oldThreshold newThreshold version,
    Parameters.make curve old new q.1 oldThreshold newThreshold version = .ok (params q)
  checked : ∀ q, (input q).check (params q) = .ok ()
  follows : ∀ q, Party.Follows protocol (rounds (params q))
    (Invariant.Traced (params q) (input q) (HasSent parties)) (k q) (parties q)

theorem Assembled.underway {parties : Member old new → Party State Payload Outcome}
    (h : Assembled parties) : ∃ params input, Underway parties params input fun _ => 0 := by
  choose curve oldThreshold newThreshold version params input source hmake hparty using h
  exact ⟨params, input, fun q => ⟨_, _, _, _, hmake q⟩, fun q => check_of_newParty (hparty q),
    fun q => follows_traced (hparty q) _⟩

section Underway

variable {parties parties' : Member old new → Party State Payload Outcome}
  {params : Member old new → Parameters} {input : Member old new → Input}
  {k k' : Member old new → ℕ}

theorem Underway.exchanges (h : Underway parties params input k) (hnew : new.Proper)
    (hrun : Relation.ReflTransGen Exchange parties parties') :
    ∃ k' : Member old new → ℕ, (∀ q, k q ≤ k' q) ∧ Underway parties' params input k' := by
  have hkeeps (q : Member old new) (P : Message Payload → Prop) :
      Party.Keeps (protocol.only P) (rounds (params q))
        (Invariant.Traced (params q) (input q) P) := by
    obtain ⟨_, _, _, _, hmake⟩ := h.made q
    exact keeps_traced (fun _ hl => newIndex?_lt_of_make hnew hmake hl) (h.checked q) P
  obtain ⟨k', hle, hfollows⟩ := follows_of_exchanges hkeeps
    (fun hP hinv => ⟨hinv.1, hinv.2.imp hP⟩) hrun h.follows
  exact ⟨k', hle, h.made, h.checked, hfollows⟩

variable (h : Underway parties params input k)

include h

theorem Underway.params_eq (q : Member old new) :
    (parties q).state.params = params q ∧ (params q).old = old ∧ (params q).new = new := by
  obtain ⟨_, _, _, _, hmake⟩ := h.made q
  obtain ⟨hparamsOld, hparamsNew, -⟩ := committees_of_make hmake
  exact ⟨(h.follows q).inv.1.1.prepared.params_eq, hparamsOld, hparamsNew⟩

theorem Underway.commit_unique {q : Member old new} {sender sender' : PartyId} {c c' : Commitment}
    (hc : .broadcast sender .new (.commit c) ∈ (parties q).outbox.sent)
    (hc' : .broadcast sender' .new (.commit c') ∈ (parties q).outbox.sent) : c = c' := by
  have hemits := (h.follows q).inv.1.2
  obtain ⟨d, hd, rfl⟩ := (hemits.sends _ hc).of_commit rfl
  obtain ⟨d', hd', rfl⟩ := (hemits.sends _ hc').of_commit rfl
  rw [Option.some.inj (hd.symm.trans hd')]

theorem Underway.three_le {a : Member old new} (ha : HasLetGo (parties a)) :
    3 ≤ k a ∧ (params a).isOld = true := by
  obtain ⟨hparams, -⟩ := h.params_eq a
  obtain ⟨_, _, _, _, hmake⟩ := h.made a
  rcases ha with ⟨m, hm, hround⟩ | hretired
  · cases (h.follows a).inv.1.2.sends m hm with
    | share hk hisOld _ _ _ | reveal hk hisOld _ => exact ⟨hk, hparams ▸ hisOld⟩
    | commit _ _ _ | ack _ _ => cases hround
  · obtain ⟨hk, hisNew⟩ := (h.follows a).inv.2.retired hretired
    exact ⟨by omega, isOld_of_isNew_eq_false hmake (hparams ▸ hisNew)⟩

theorem Underway.commit_of_hasSent (hold : old.Proper) {m : Message Payload}
    (hm : HasSent parties m) {i : ℕ} (hseat : old.seat? m.sender = some i) {c : Commitment}
    (hc : m.content = .commit c) (hi : i < old.size) :
    .broadcast (old.member i) .new (.commit c) ∈ (parties (.ofOld hi)).outbox.sent := by
  obtain ⟨q, m', hsent, hsender, hcontent⟩ := hm
  obtain ⟨_, _, _, _, hmake⟩ := h.made q
  obtain ⟨hparams, -⟩ := h.params_eq q
  have hsends := (h.follows q).inv.1.2.sends m' hsent
  rw [hc] at hcontent
  cases hsends with
  | commit _ hisOld _ =>
      obtain ⟨i', hposition, hlt, -, hid⟩ := oldPlace_of_make hmake hold (hparams ▸ hisOld)
      change (parties q).state.params.id = m.sender at hsender
      rw [hparams, hid] at hsender
      rw [← hsender, hold.seat?_member hlt] at hseat
      obtain rfl := Option.some.inj hseat
      obtain rfl : q = .ofOld hi := Subtype.ext (eq_old_member hold q.2 hposition)
      rw [← hcontent, ← hid, ← hparams]
      exact hsent
  | ack _ _ | share _ _ _ _ _ | reveal _ _ _ => cases hcontent

theorem Underway.ack_of_hasSent (hnew : new.Proper) {m : Message Payload}
    (hm : HasSent parties m) {j : ℕ} (hseat : new.seat? m.sender = some j)
    (hc : m.content = .ack) :
    ∃ q : Member old new, new.position? q.1 = some j ∧ 2 ≤ k q := by
  obtain ⟨q, m', hsent, hsender, hcontent⟩ := hm
  obtain ⟨_, _, _, _, hmake⟩ := h.made q
  obtain ⟨hparams, -⟩ := h.params_eq q
  have hsends := (h.follows q).inv.1.2.sends m' hsent
  rw [hc] at hcontent
  cases hsends with
  | ack hk hme =>
      obtain ⟨j', hposition, hlt, rfl⟩ := newPlace_of_make hmake hnew (hparams ▸ hme)
      change new.member j' = m.sender at hsender
      rw [← hsender, hnew.seat?_member hlt] at hseat
      obtain rfl := Option.some.inj hseat
      exact ⟨q, hposition, hk⟩
  | commit _ _ _ | share _ _ _ _ _ | reveal _ _ _ => cases hcontent

/-- An old member that has entered round 3 has waited for all new members to enter round 2. -/
theorem Underway.two_le (hold : old.Proper) (hnew : new.Proper) {a q : Member old new}
    (ha : 3 ≤ k a) (hisOld : (params a).isOld = true) {j : ℕ}
    (hq : new.position? q.1 = some j) : 2 ≤ k q := by
  obtain ⟨hparams, -, hparamsNew⟩ := h.params_eq a
  obtain ⟨_, _, _, _, hmake⟩ := h.made a
  have hstems := (h.follows a).inv.2
  have hlt : j < (parties a).state.params.new.size := by
    rw [hparams, hparamsNew]
    exact (hnew.position?_eq_some_iff.1 hq).1
  obtain ⟨u, hu⟩ := Option.isSome_iff_exists.1
    (hstems.acknowledged ha (hparams.symm ▸ hisOld) j hlt)
  have hsame (b : Member old new) (hb : new.position? b.1 = some j) : b = q :=
    Subtype.ext (eq_of_sameKey_participants hold b.2 hnew q.2 (hnew.sameKey_of_position? hb hq))
  rcases hstems.acks (Slots.item?_of_admitted? hu) with ⟨m, hm, hseat, hc⟩ | ⟨hk, hown⟩
  · rw [hparams, hparamsNew] at hseat
    obtain ⟨b, hb, hk⟩ := h.ack_of_hasSent hnew hm hseat hc
    exact hsame b hb ▸ hk
  · rw [hparams, Parameters.newIndex?, Option.bind_eq_some_iff] at hown
    obtain ⟨me, hme, hindex⟩ := hown
    obtain ⟨j', hposition, hlt', rfl⟩ := newPlace_of_make hmake hnew hme
    obtain rfl := Option.some.inj ((hnew.index_member hlt').symm.trans hindex)
    exact hsame a hposition ▸ hk

/-- A new member that has entered round 2 holds what all old members have sent. -/
theorem Underway.exists_commit (hold : old.Proper) {q : Member old new} (hk : 2 ≤ k q)
    (hq : (new.find? q.1).isSome = true) {i : ℕ} (hi : i < old.size) :
    ∃ c, (parties q).state.commits.get? i = some ⟨c, true⟩ ∧
      .broadcast (old.member i) .new (.commit c) ∈ (parties (.ofOld hi)).outbox.sent := by
  obtain ⟨hparams, hparamsOld, -⟩ := h.params_eq q
  obtain ⟨_, _, _, _, hmake⟩ := h.made q
  obtain ⟨-, -, hid⟩ := committees_of_make hmake
  obtain ⟨⟨hinv, hemits⟩, hstems⟩ := (h.follows q).inv
  obtain ⟨c, hc⟩ := Option.isSome_iff_exists.1
    (hinv.committed hk (by rw [Parameters.isNew, hid, hq]) i (hparamsOld.symm ▸ hi))
  refine ⟨c, Slots.admitted?_eq_some_iff.1 hc, ?_⟩
  rcases hstems.commits (Slots.item?_of_admitted? hc) with ⟨m, hm, hseat, hcontent⟩ |
    ⟨hk', hown, d, hd, rfl⟩
  · rw [hparams, hparamsOld] at hseat
    exact h.commit_of_hasSent hold hm hseat hcontent hi
  · -- a dual member has put the commitment there that it has sent
    obtain ⟨d', hd', hsent⟩ := hemits.dealt hk' i hown
    obtain rfl := Option.some.inj (hd.symm.trans hd'.dealt)
    rw [hparams] at hown hsent
    obtain ⟨i', hposition, -, hindex, hid'⟩ := oldPlace_of_make hmake hold
      (isOld_of_oldIndex? hown)
    obtain rfl := Option.some.inj (hown.symm.trans hindex)
    obtain rfl : q = .ofOld hi := Subtype.ext (eq_old_member hold q.2 hposition)
    rwa [hid'] at hsent

end Underway

/-- Once an old member has sent a share or an opening, or has retired, every new member holds the
commitment that each old member itself has sent, and it will always hold it. -/
theorem committed_of_exchanges {oldIds newIds : List PartyId}
    (hold : Committee.ofList oldIds = .ok old) (hnew : Committee.ofList newIds = .ok new)
    {before parties : Member old new → Party State Payload Outcome} (hbefore : Assembled before)
    (hrun : Relation.ReflTransGen Exchange before parties)
    (hgone : ∃ a, HasLetGo (parties a)) {i : ℕ} (hi : i < old.size) :
    ∃ c, .broadcast (old.member i) .new (.commit c) ∈ (parties (.ofOld hi)).outbox.sent ∧
      ∀ q : Member old new, (new.find? q.1).isSome = true →
        ∀ later, Relation.ReflTransGen Exchange parties later →
          (later q).state.commits.get? i = some ⟨c, true⟩ := by
  have holdProper := Committee.proper_of_ofList hold
  have hnewProper := Committee.proper_of_ofList hnew
  obtain ⟨params, input, hstart⟩ := hbefore.underway
  obtain ⟨k, -, hunderway⟩ := hstart.exchanges hnewProper hrun
  obtain ⟨a, ha⟩ := hgone
  obtain ⟨hk, hisOld⟩ := hunderway.three_le ha
  have htwo (q : Member old new) (hq : (new.find? q.1).isSome = true) : 2 ≤ k q := by
    rw [hnewProper.isSome_find?] at hq
    obtain ⟨j, hj⟩ := Option.isSome_iff_exists.1 hq
    exact hunderway.two_le holdProper hnewProper hk hisOld hj
  have hholds (q : Member old new) (hq : (new.find? q.1).isSome = true) :=
    hunderway.exists_commit holdProper (htwo q hq) hq hi
  -- the new committee is not empty
  obtain ⟨_, _, _, _, hmake⟩ := hunderway.made a
  obtain ⟨-, hthreshold, -⟩ := Parameters.make_eq_ok_iff.1 hmake
  obtain ⟨p, hp, hposition⟩ := exists_participant holdProper hnewProper
    (show 0 < new.size by have := checkThreshold_eq_ok_iff.1 hthreshold; omega)
  obtain ⟨c, -, hsent⟩ := hholds ⟨p, hp⟩ (by rw [hnewProper.isSome_find?, hposition]; rfl)
  refine ⟨c, hsent, fun q hq later hlater => ?_⟩
  obtain ⟨k', hle, hunderway'⟩ := hunderway.exchanges hnewProper hlater
  obtain ⟨c', hget, hsent'⟩ := hunderway'.exists_commit holdProper
    ((htwo q hq).trans (hle q)) hq hi
  rw [hget, hunderway'.commit_unique (mem_sent_of_exchanges hlater hsent) hsent']

/-! ## Undisturbed members -/

namespace Setup

variable {r : Setup}

def preliminaries (r : Setup) (p : PartyId) : List (Message Payload) :=
  ((r.role p).needs 0).dedup ++ ((r.role p).needs 1).dedup

theorem nodup_preliminaries (p : PartyId) : (r.preliminaries p).Nodup := by
  refine List.nodup_append.2 ⟨List.nodup_dedup _, List.nodup_dedup _, fun m hm m' hm' heq => ?_⟩
  obtain ⟨-, -, i, -, -, rfl⟩ := mem_needs_zero_iff.1 (List.mem_dedup.1 hm)
  obtain ⟨-, -, j, -, -, rfl⟩ := mem_needs_one_iff.1 (List.mem_dedup.1 hm')
  cases congrArg Message.content heq

theorem needs_of_mem_preliminaries {p : PartyId} {m : Message Payload}
    (hm : m ∈ r.preliminaries p) : (r.role p).Needs m := by
  rcases List.mem_append.1 hm with hm | hm
  · exact ⟨0, show 0 < 4 by omega, List.mem_dedup.1 hm⟩
  · exact ⟨1, show 1 < 4 by omega, List.mem_dedup.1 hm⟩

theorem Valid.hasSent (h : r.Valid) {parties : Member r.old r.new → Party State Payload Outcome}
    {q : Member r.old r.new} {messages : List (Message Payload)}
    (hq : parties q = (r.party q.1).run (.start :: messages.map .update)) (hnodup : messages.Nodup)
    (hneeds : ∀ m ∈ messages, (r.role q.1).Needs m) {l : ℕ} (hl : l < 4)
    (hearlier : ∀ i < l, (r.role q.1).needs i ⊆ messages) {m : Message Payload}
    (hm : m ∈ (r.role q.1).sends l) : m ∈ (parties q).outbox.sent :=
  hq ▸ (h.lawful_role q.2).mem_sent_of_needs hnodup hneeds hl hearlier hm

theorem needs_subset_preliminaries (p : PartyId) {l : ℕ} (hl : l < 2) :
    (r.role p).needs l ⊆ r.preliminaries p := by
  intro m hm
  obtain rfl | rfl : l = 0 ∨ l = 1 := by omega
  · exact List.mem_append_left _ (List.mem_dedup.2 hm)
  · exact List.mem_append_right _ (List.mem_dedup.2 hm)

theorem Valid.exists_exchanges (h : r.Valid) :
    ∃ parties, Relation.ReflTransGen Exchange (fun q : Member r.old r.new => r.party q.1) parties ∧
      ∀ i (hi : i < r.old.size), HasLetGo (parties (.ofOld hi)) := by
  have hall (q : Member r.old r.new) : q ∈ (participants r.old r.new).attach := List.mem_attach _ q
  have hnodup : (participants r.old r.new).attach.Nodup :=
    List.nodup_attach.2 (nodup_participants h.old_proper h.new_proper)
  obtain ⟨net₁, hrun₁, hstarted, -⟩ := exists_exchanges_all
    (fun q : Member r.old r.new => r.party q.1) (fun _ => .start :: [].map .update)
    (by simp [Call.Within]) hnodup
  have hcommit (i : ℕ) (hi : i < r.old.size) : HasSent net₁ (r.commitMessage i) :=
    ⟨.ofOld hi, _, h.hasSent (hstarted _ (hall _)) List.nodup_nil (by simp) (show 0 < 4 by omega)
      (by simp) (mem_sends_iff.2 (Or.inl ⟨rfl, i, h.old_proper.position?_eq hi rfl, rfl⟩)), rfl, rfl⟩
  obtain ⟨net₂, hrun₂, hcommitted, -⟩ := exists_exchanges_all net₁
    (fun q => ((r.role q.1).needs 0).dedup.map .update) (fun q c hc => by
      obtain ⟨m, hm, rfl⟩ := List.mem_map.1 hc
      obtain ⟨-, -, i, hi, -, rfl⟩ := mem_needs_zero_iff.1 (List.mem_dedup.1 hm)
      exact hcommit i hi) hnodup
  have hack (j : ℕ) (hj : j < r.new.size) : HasSent net₂ (r.ackMessage j) := by
    obtain ⟨p, hp, hposition⟩ := exists_participant h.old_proper h.new_proper hj
    have hgiven : net₂ ⟨p, hp⟩ =
        (r.party p).run (.start :: (((r.role p).needs 0).dedup).map .update) := by
      rw [hcommitted _ (hall _), hstarted _ (hall _), ← Party.run_append]
      rfl
    have hearlier (i : ℕ) (hi : i < 1) : (r.role p).needs i ⊆ ((r.role p).needs 0).dedup := by
      obtain rfl : i = 0 := by omega
      exact List.subset_dedup _
    exact ⟨⟨p, hp⟩, _, h.hasSent hgiven (List.nodup_dedup _)
      (fun m hm => ⟨0, show 0 < 4 by omega, List.mem_dedup.1 hm⟩) (show 1 < 4 by omega) hearlier
      (mem_sends_iff.2 (Or.inr (Or.inl ⟨rfl, j, hposition, rfl⟩))), rfl, rfl⟩
  obtain ⟨net₃, hrun₃, hacknowledged, -⟩ := exists_exchanges_all net₂
    (fun q => ((r.role q.1).needs 1).dedup.map .update) (fun q c hc => by
      obtain ⟨m, hm, rfl⟩ := List.mem_map.1 hc
      obtain ⟨-, -, j, hj, -, rfl⟩ := mem_needs_one_iff.1 (List.mem_dedup.1 hm)
      exact hack j hj) hnodup
  have hgiven (q : Member r.old r.new) :
      net₃ q = (r.party q.1).run (.start :: (r.preliminaries q.1).map .update) := by
    rw [hacknowledged q (hall q), hcommitted q (hall q), hstarted q (hall q), ← Party.run_append,
      ← Party.run_append, preliminaries, List.map_append]
    rfl
  refine ⟨net₃, hrun₁.trans (hrun₂.trans hrun₃), fun i hi => Or.inl ⟨r.revealMessage i, ?_, rfl⟩⟩
  exact h.hasSent (hgiven _) (nodup_preliminaries _) (fun _ => needs_of_mem_preliminaries)
    (show 2 < 4 by omega) (fun _ => needs_subset_preliminaries _) (mem_sends_iff.2 (Or.inr
      (Or.inr ⟨rfl, i, h.old_proper.position?_eq hi rfl, Or.inr rfl⟩)))

end Setup

theorem committed_of_exchanges_pair :
    ∃ before parties : Member firstPair secondPair → Party State Payload Outcome,
      Assembled before ∧ Relation.ReflTransGen Exchange before parties ∧
        (∃ a, HasLetGo (parties a)) ∧ ∀ i (hi : i < firstPair.size), ∃ c,
          .broadcast (firstPair.member i) .new (.commit c) ∈ (parties (.ofOld hi)).outbox.sent ∧
            ∀ q : Member firstPair secondPair, (secondPair.find? q.1).isSome = true →
              ∀ later, Relation.ReflTransGen Exchange parties later →
                (later q).state.commits.get? i = some ⟨c, true⟩ := by
  obtain ⟨parties, hrun, hrevealed⟩ := Setup.valid_pair.exists_exchanges
  have hgone : ∃ a, HasLetGo (parties a) := ⟨_, hrevealed 0 (show 0 < firstPair.size by decide)⟩
  have hbefore : Assembled fun q : Member firstPair secondPair => Setup.pair.party q.1 := fun q =>
    ⟨_, _, _, _, _, _, _, Setup.valid_pair.make_eq q.2, Setup.valid_pair.newParty_eq q.1⟩
  exact ⟨_, parties, hbefore, hrun, hgone, fun i hi =>
    committed_of_exchanges ofList_firstPair ofList_secondPair hbefore hrun hgone hi⟩

end ThresholdKeys.Reshare
