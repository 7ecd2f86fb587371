import Mathlib
import ThresholdKeys.Proofs.Engine.Queue
import ThresholdKeys.Proofs.Keygen.Honest

/-!
# A backlog in key generation

Early messages are held back without a look at them. One that is not plausible is refused when its
round comes, and what is held behind it then stays behind, whoever has sent it.
-/

namespace ThresholdKeys.Keygen.Setup

open OrderedParty (drain drain_of_early drain_of_due update_of_early update_of_due)

variable {r : Setup} {i k : ℕ} {log : List (Message Payload)} {p : Party State Payload KeyShare}
  {bad good : Message Payload}

theorem roundNumber_eq_one (hp : (r.role i).Rests k log p) (hk : 0 < k) {j : ℕ}
    (hj : j ∈ r.others i) (hmissing : r.commitMessage j ∉ log) : p.roundNumber = .ok 1 := by
  obtain ⟨hlt, hne⟩ := mem_others_iff.1 hj
  exact hp.roundNumber_eq hk (l := 0) rfl nofun fun hneeds =>
    hmissing (hneeds (mem_needs_zero_iff.2 ⟨j, hlt, hne, rfl⟩))

theorem roundNumber_eq_two (hp : (r.role i).Rests k log p) (hk : 0 < k) {j : ℕ}
    (hj : j ∈ r.others i) (hall : ∀ j ∈ r.others i, r.commitMessage j ∈ log)
    (hlog : ∀ m ∈ log, m.round = 1) : p.roundNumber = .ok 2 := by
  obtain ⟨hlt, hne⟩ := mem_others_iff.1 hj
  refine hp.roundNumber_eq hk (l := 1) rfl (fun l hl m hm => ?_) fun hneeds => ?_
  · obtain rfl : l = 0 := Nat.lt_one_iff.1 hl
    obtain ⟨j', hlt', hne', rfl⟩ := mem_needs_zero_iff.1 hm
    exact hall j' (mem_others_iff.2 ⟨hlt', hne'⟩)
  · have hround := hlog _ (hneeds (mem_needs_one_iff.2 ⟨j, hlt, hne, Or.inr rfl⟩))
    exact absurd hround (show (2 : ℕ) ≠ 1 by decide)

theorem exists_update_of_isPlausible_eq_false {m : Message Payload}
    (h : Content.isPlausible m.content = false) : ∃ e, p.update m = (.error e, p) := by
  cases hvalid : p.validate m with
  | error e => exact ⟨e, Party.update_of_validate_error hvalid⟩
  | ok u =>
      obtain ⟨hcontent, -⟩ := Party.validate_eq_ok_iff.1 hvalid
      exact absurd (hcontent.symm.trans h) Bool.false_ne_true.symm

section Commitments

variable (h : r.Valid) (hi : i < r.parties.size) (hbad : bad.round = 2)
  (hrefused : Content.isPlausible bad.content = false) (hgood : good.round = 2)

include hbad

theorem drain_of_first (hround : p.roundNumber = .ok 1) (b : Bool) :
    drain [bad, good] b p = (.ok b, ⟨p, [bad, good]⟩) := by
  obtain ⟨checklist, round, later, hs, hnumber⟩ := Party.roundNumber_eq_ok_iff.1 hround
  exact drain_of_early hs _ _ (by rw [hnumber, hbad]; exact Nat.one_lt_two)

include hrefused

theorem drain_of_second (hround : p.roundNumber = .ok 2) (b : Bool) :
    (drain [bad, good] b p).2 = ⟨p, [good]⟩ := by
  obtain ⟨checklist, round, later, hs, hnumber⟩ := Party.roundNumber_eq_ok_iff.1 hround
  obtain ⟨e, he⟩ := exists_update_of_isPlausible_eq_false (p := p) hrefused
  rw [drain_of_due hs _ _ (hbad.trans hnumber.symm), he]

include h hi

variable (good) in
/-- With the last commitment the participant goes on to the second round, and the backlog is not
worked off. -/
theorem queue_of_commits {js : List ℕ} (hp : (r.role i).Rests k log p) (hk : 0 < k)
    (hlog : ∀ m ∈ log, m.round = 1) (hne : js ≠ []) (hjs : ∀ j ∈ js, j ∈ r.others i)
    (hnodup : js.Nodup) (hnew : ∀ j ∈ js, r.commitMessage j ∉ log)
    (hall : ∀ j ∈ r.others i, j ∉ js → r.commitMessage j ∈ log) :
    ∃ q, q.roundNumber = .ok 2 ∧ OrderedParty.run ⟨p, [bad, good]⟩
      (js.map fun j => .update (r.commitMessage j)) = ⟨q, [good]⟩ := by
  -- `log` has all commitments but those of `js`, so only the last of these ends the first round
  induction js generalizing k log p with
  | nil => exact absurd rfl hne
  | cons j rest ih =>
      have hj := hjs j List.mem_cons_self
      obtain ⟨hlt, hother⟩ := mem_others_iff.1 hj
      obtain ⟨b, q, k', hq, hle, hrests⟩ := (h.lawful_role hi).update_ok hp hk
        (needs_iff.2 ⟨j, hlt, hother, Or.inl rfl⟩) (hnew j List.mem_cons_self)
      have hstep : OrderedParty.update ⟨p, [bad, good]⟩ (r.commitMessage j) =
          drain [bad, good] b q := by
        rw [update_of_due (roundNumber_eq_one hp hk hj (hnew j List.mem_cons_self)) rfl, hq]
      have hlog' : ∀ m ∈ log ++ [r.commitMessage j], m.round = 1 :=
        List.forall_mem_append.2 ⟨hlog, List.forall_mem_singleton.2 rfl⟩
      have hall' : ∀ j' ∈ r.others i, j' ∉ rest →
          r.commitMessage j' ∈ log ++ [r.commitMessage j] := by
        intro j' hj' hout
        by_cases hsame : j' = j
        · exact List.mem_append_right _ (hsame ▸ List.mem_singleton_self _)
        · exact List.mem_append_left _ (hall j' hj' fun hmem =>
            (List.mem_cons.1 hmem).elim hsame hout)
      rw [List.map_cons, OrderedParty.run, List.foldl_cons, OrderedParty.after, hstep]
      cases rest with
      | nil =>
          have hround := roundNumber_eq_two hrests (hk.trans_le hle) hj
            (fun j' hj' => hall' j' hj' List.not_mem_nil) hlog'
          exact ⟨q, hround, drain_of_second hbad hrefused hround b⟩
      | cons next rest =>
          have hnew' : ∀ j' ∈ next :: rest, r.commitMessage j' ∉ log ++ [r.commitMessage j] := by
            intro j' hj' hmem
            rcases List.mem_append.1 hmem with hmem | hmem
            · exact hnew j' (List.mem_cons_of_mem j hj') hmem
            · have hsame : j' = j := commitMessage_inj h
                (mem_others_iff.1 (hjs j' (List.mem_cons_of_mem j hj'))).1 hlt
                (List.mem_singleton.1 hmem)
              exact (List.nodup_cons.1 hnodup).1 (hsame ▸ hj')
          have hround := roundNumber_eq_one hrests (hk.trans_le hle)
            (hjs next (List.mem_cons_of_mem j List.mem_cons_self)) (hnew' next List.mem_cons_self)
          rw [drain_of_first hbad hround]
          exact ih hrests (hk.trans_le hle) hlog' (List.cons_ne_nil next rest)
            (fun j' hj' => hjs j' (List.mem_cons_of_mem j hj')) (List.nodup_cons.1 hnodup).2 hnew'
            hall'

include hgood

/-- A participant that takes a message which is not plausible for the second round ahead of time,
then another for this round, and then all commitments, keeps the other one in its queue. -/
theorem queue_of_run (hothers : r.others i ≠ []) :
    ∃ q, q.roundNumber = .ok 2 ∧ OrderedParty.run ⟨r.party i, []⟩
      (.start :: .update bad :: .update good ::
        (r.others i).map fun j => .update (r.commitMessage j)) = ⟨q, [good]⟩ := by
  obtain ⟨q, k, hstart, hk, hrests⟩ :=
    (h.lawful_role hi).start_ok (h.lawful_role hi).rests_party
  obtain ⟨j, hj⟩ := List.exists_mem_of_ne_nil _ hothers
  have hround := roundNumber_eq_one hrests hk hj List.not_mem_nil
  have hearly : OrderedParty.run ⟨r.party i, []⟩ [.start, .update bad, .update good] =
      ⟨q, [bad, good]⟩ := by
    have hstarted : OrderedParty.start ⟨r.party i, []⟩ = (.ok (), ⟨q, []⟩) := by
      rw [OrderedParty.start]
      exact congrArg (fun x => (x.1, (⟨x.2, []⟩ : OrderedParty State Payload KeyShare))) hstart
    simp only [OrderedParty.run, List.foldl_cons, List.foldl_nil, OrderedParty.after, hstarted]
    rw [update_of_early (p := ⟨q, []⟩) hround (by rw [hbad]; exact Nat.one_lt_two),
      update_of_early (p := ⟨q, _⟩) hround (by rw [hgood]; exact Nat.one_lt_two)]
    simp [Queue.store, hbad, hgood]
  have hrun := queue_of_commits good h hi hbad hrefused hrests hk (List.forall_mem_nil _) hothers
    (fun _ => id) (List.nodup_range.filter _) (fun _ _ => List.not_mem_nil)
    fun j hj hout => absurd hj hout
  rw [← hearly] at hrun
  simpa only [OrderedParty.run, List.foldl_cons, List.foldl_nil] using hrun

end Commitments

/-! ## Three participants -/

def trio : Setup :=
  ⟨.secp256k1, ⟨[⟨"a", "A", 1, some 0⟩, ⟨"b", "B", 2, some 1⟩, ⟨"c", "C", 3, some 2⟩]⟩, 1, .v1,
    fun _ => .ones⟩

theorem ofList_trio : Committee.ofList
    [⟨"a", "A", 1, none⟩, ⟨"b", "B", 2, none⟩, ⟨"c", "C", 3, none⟩] = .ok trio.parties := by
  decide +kernel

theorem valid_trio : trio.Valid where
  proper := Committee.proper_of_ofList ofList_trio
  generator := rfl
  threshold_pos := by decide
  threshold_lt := by decide
  drawn_ne_zero _ _ := draws_ones_ne_zero 1
  sum_ne_zero := by
    have hsecret (i : ℕ) : trio.secret i = 1 := secret_pair i
    rw [funext hsecret]
    decide
  challenge _ _ := Schnorr.exists_challengeOf_v1 _

def emptyShare : Message Payload :=
  .direct (trio.parties.member 1) (trio.parties.member 0) .new (.share ⟨0, 1, 1⟩)

/-- The first of three participants keeps the share of the third in its queue in the second round,
since that of the second, which came before, is refused. -/
theorem not_holdsOnlyEarly_of_run :
    newParty (trio.params 0) (trio.sources 0) = .ok (trio.party 0) ∧
      ¬ (OrderedParty.run ⟨trio.party 0, []⟩ [.start, .update emptyShare,
        .update (trio.shareMessage 2 0), .update (trio.commitMessage 1),
        .update (trio.commitMessage 2)]).HoldsOnlyEarly := by
  refine ⟨valid_trio.newParty_eq 0, fun hearly => ?_⟩
  have hothers : trio.others 0 = [1, 2] := by decide
  have hbad : emptyShare.round = 2 := rfl
  have hgood : (trio.shareMessage 2 0).round = 2 := rfl
  obtain ⟨q, hround, hrun⟩ := queue_of_run valid_trio (show 0 < 3 by decide) hbad rfl hgood
    (hothers ▸ List.cons_ne_nil 1 [2])
  obtain ⟨checklist, round, later, hs, hnumber⟩ := Party.roundNumber_eq_ok_iff.1 hround
  rw [hothers, List.map_cons, List.map_cons, List.map_nil] at hrun
  rw [hrun] at hearly
  have hlt : round.number < 2 := hearly hs _ (List.mem_singleton_self _)
  rw [hnumber] at hlt
  exact absurd hlt (lt_irrefl 2)

end ThresholdKeys.Keygen.Setup
