import Mathlib
import ThresholdKeys.Proofs.Engine.Refusal

/-!
# Where errors come from

A call fails because the caller misuses the party, because the sender of a message cannot be right,
because the protocol does not take the message, or because a round cannot be entered.
-/

namespace ThresholdKeys.Party

variable {σ C O : Type} [Content C]

inductive Brings (p : Party σ C O) : Call C → Message C → Prop
  | update (m : Message C) : Brings p (.update m) m
  | updateFromBytes {bytes : Bytes} {sender : PartyId} {isBroadcast : Bool} {m : Message C}
      (hm : Message.ofWire bytes sender (if isBroadcast then none else some [p.id]) isBroadcast =
        .ok m) : Brings p (.updateFromBytes bytes sender isBroadcast) m
  | store (m : Message C) : Brings p (.store m) m

/-- Why a call is answered by an error. -/
inductive FailsBy (p : Party σ C O) (c : Call C) (e : Error) : Prop
  | misuse {problem : CallerError} (he : e = .caller problem)
  | sender {m : Message C} {cause : FaultCause} (hm : p.Brings c m)
      (hcause : cause = .senderIndexOutOfRange ∨ cause = .sentByReceiver)
      (he : e = p.senderFault m cause)
  | store {m : Message C} (hm : p.Brings c m) (hp : p.phase = .active)
      (h : p.protocol.store p.state m = .error e)
  | enterFirst {first : Round σ C O} {later : List (Round σ C O)} (hc : c = .start)
      (hp : p.stage = .notStarted first later)
      (h : first.prepare p.state = .error e ∨ p.enter first = .error e)
  | enter {target : Round σ C O} {q : Party σ C O} (h : Attempts target q p c)
      (he : q.enter target = .error e)

variable {p : Party σ C O} {c : Call C} {m : Message C} {e : Error}

/-- The checks before a message is taken up find fault with the call or with the sender. -/
theorem FailsBy.of_validate (hm : p.Brings c m) (h : p.validate m = .error e) : p.FailsBy c e := by
  unfold validate at h
  split at h
  · exact .misuse (Except.error.inj h).symm
  · split at h
    · exact .misuse (Except.error.inj h).symm
    · split at h
      · exact .sender hm (Or.inl rfl) (Except.error.inj h).symm
      · split at h
        · exact .sender hm (Or.inr rfl) (Except.error.inj h).symm
        · cases h

theorem FailsBy.of_store (hm : p.Brings c m) (h : (p.store m).1 = .error e) : p.FailsBy c e := by
  rcases p.store_cases m with ⟨problem, hmisuse⟩ | ⟨checklist, round, later, hs⟩
  · rw [hmisuse] at h
    exact .misuse (Except.error.inj h).symm
  · cases hstore : p.protocol.store p.state m with
    | error e' =>
        rw [store_of_error hs hstore] at h
        obtain rfl := Except.error.inj h
        exact .store hm (by rw [phase, hs]; rfl) hstore
    | ok s =>
        rw [store_of_ok hs hstore] at h
        cases h

section

variable {rounds : List (Round σ C O)} {k : ℕ} (hrounds : Concluding rounds)
  (hp : Lives rounds k p)

include hrounds hp

theorem Lives.failsBy_start (h : p.start.1 = .error e) : p.FailsBy .start e := by
  unfold Party.start at h
  cases hs : p.stage with
  | notStarted first later =>
      have hreached := hp.reached
      rw [hs] at h hreached
      dsimp only at h
      cases hprepare : first.prepare p.state with
      | error e' =>
          rw [hprepare] at h
          obtain rfl := Except.error.inj h
          exact .enterFirst rfl hs (Or.inl hprepare)
      | ok u =>
          cases henter : p.enter first with
          | error e' =>
              rw [hprepare, henter] at h
              obtain rfl := Except.error.inj h
              exact .enterFirst rfl hs (Or.inr henter)
          | ok r =>
              obtain ⟨q, checklist⟩ := r
              rw [hprepare, henter] at h
              obtain ⟨target, after, q', hgets, herror⟩ := exists_getsTo_of_error
                (fun r hr => hrounds.inspect (hreached.2 ▸ hr)) (Result.map_eq_error_iff.1 h)
              exact .enter (.start hs hprepare henter hgets) herror
  | active | finished | failed =>
      rw [hs] at h
      exact .misuse (Except.error.inj h).symm

theorem Lives.failsBy_update (h : (p.update m).1 = .error e) : p.FailsBy (.update m) e := by
  cases hvalid : p.validate m with
  | error e' =>
      rw [update_of_validate_error hvalid] at h
      obtain rfl := Except.error.inj h
      exact .of_validate (.update m) hvalid
  | ok u =>
      rcases p.store_cases m with ⟨problem, hmisuse⟩ | ⟨checklist, round, later, hs⟩
      · rw [update_of_store hvalid hmisuse] at h
        exact .misuse (Except.error.inj h).symm
      · cases hstore : p.protocol.store p.state m with
        | error e' =>
            rw [update_of_store_error hs hvalid hstore] at h
            obtain rfl := Except.error.inj h
            exact .store (.update m) (by rw [phase, hs]; rfl) hstore
        | ok s =>
            rw [update_eq_proceed hs hvalid hstore] at h
            obtain ⟨l, rfl, hdrop, -, -⟩ := hp.inside hs
            obtain ⟨target, after, q, hgets, herror⟩ := exists_getsTo_of_error
              (fun r hr => hrounds.inspect (List.mem_of_mem_drop (hdrop ▸ hr))) h
            exact .enter (.update hs hvalid hstore hgets) herror

/-- Every error of a call has one of these reasons. -/
theorem Lives.failsBy (h : p.answer c = .error e) : p.FailsBy c e := by
  cases c with
  | start => exact hp.failsBy_start hrounds h
  | update m => exact hp.failsBy_update hrounds (Result.map_eq_error_iff.1 h)
  | updateFromBytes bytes sender isBroadcast =>
      replace h := Result.map_eq_error_iff.1 h
      cases hm : (Message.ofWire bytes sender (if isBroadcast then none else some [p.id])
          isBroadcast : Result (Message C)) with
      | error e' =>
          rw [updateFromBytes_of_undecodable hm] at h
          obtain rfl := Except.error.inj h
          unfold Message.ofWire at hm
          split at hm
          · cases hm
          · exact .misuse (Except.error.inj hm).symm
      | ok m =>
          rw [updateFromBytes_eq_update hm] at h
          cases hp.failsBy_update hrounds h with
          | misuse he => exact .misuse he
          | sender hm' hcause he =>
              cases hm'
              exact .sender (.updateFromBytes hm) hcause he
          | store hm' hp h =>
              cases hm'
              exact .store (.updateFromBytes hm) hp h
          | enterFirst hc _ _ => cases hc
          | enter h he => exact .enter (.updateFromBytes hm h) he
  | store m => exact .of_store (.store m) h
  | closeOutbox | closeResults => cases h

end

/-! ## Open channels -/

/-- Both channels are open. -/
structure Listened (p : Party σ C O) : Prop where
  outbox : p.outbox.isOpen = true
  results : p.results.isOpen = true

namespace Listened

variable {q : Party σ C O} {round target : Round σ C O} {checklist : Checklist}

omit [Content C] in
theorem enter (h : p.Listened) (he : p.enter round = .ok (q, checklist)) : q.Listened := by
  obtain ⟨entry, outbox, results, -, houtbox, hresults, rfl, -⟩ := enter_eq_ok_iff.1 he
  exact ⟨(Channel.isOpen_of_send houtbox).trans h.outbox,
    (Channel.isOpen_of_send hresults).trans h.results⟩

omit [Content C] in
theorem getsTo {after later : List (Round σ C O)} (h : p.Listened)
    (hq : GetsTo target after q later round checklist p) : q.Listened := by
  induction hq with
  | now _ _ => exact h
  | later _ _ he _ ih => exact ih (h.enter he)

theorem attempts (h : p.Listened) (hq : Attempts target q p c) : q.Listened := by
  induction hq with
  | start _ _ he hq => exact (h.enter he).getsTo hq
  | @update m s checklist round later after _ _ _ hq =>
      have hs : Listened { p with state := s } := ⟨h.outbox, h.results⟩
      exact hs.getsTo hq
  | updateFromBytes _ _ ih => exact ih

omit [Content C] in
theorem error_of_enter (h : p.Listened) (he : p.enter round = .error e) :
    round.enter p.state = .error e := by
  have hsend {α : Type} {c : Channel α} (hc : c.isOpen = true) (items : List α) (e' : Error) :
      c.send items ≠ .error e' := by
    unfold Channel.send
    rw [if_pos hc]
    split <;> exact nofun
  simp only [Party.enter, Checklist.markStarted, Checklist.new, Bool.false_eq_true, if_false,
    Result.bind_eq_error_iff, reduceCtorEq, Result.pure_eq_ok, and_false, exists_false, or_false,
    false_or, hsend h.outbox, hsend h.results] at he
  obtain ⟨_, -, hentry⟩ := he
  exact hentry

end Listened

end ThresholdKeys.Party
