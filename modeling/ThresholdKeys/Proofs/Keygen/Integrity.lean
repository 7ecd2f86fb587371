import Mathlib
import ThresholdKeys.Proofs.Calls
import ThresholdKeys.Proofs.Engine.Failure
import ThresholdKeys.Proofs.Keygen.Readiness

/-!
# Key generation does not break from within

Whatever a host does with a participant and whatever messages come, nothing that a round needs is
missing and nothing is looked for where there is no place. The errors that tell of such failures are
left for two draws of bad luck: a coefficient that is zero, and secrets that add up to zero.
-/

namespace ThresholdKeys

/-- Errors that are neither the caller's nor a peer's doing, but for a search that gives up. -/
inductive Error.IsInternal : Error → Prop
  | brokenInvariant : IsInternal .brokenInvariant
  | notInvertible : IsInternal .notInvertible
  | argument (problem : ArgumentProblem) : IsInternal (.argument problem)
  | duplicateEvaluator : IsInternal .duplicateEvaluator

namespace Keygen

variable {params : Parameters} {source : Source} {s : State} {m : Message Payload}
  {p q : Party State Payload KeyShare} {c : Call Payload} {e : Error}

theorem exists_newParty (hparams : params.Proper) (source : Source) :
    ∃ p, newParty params source = .ok p := by
  rw [newParty, State.initial, hparams.parties.points_eq]
  exact ⟨_, rfl⟩

theorem listened_newParty (hp : newParty params source = .ok p) : p.Listened := by
  obtain ⟨s, -, hp⟩ := Result.bind_eq_ok_iff.1 hp
  obtain rfl := Except.ok.inj hp
  exact ⟨rfl, rfl⟩

/-! ## The state before round 1 -/

/-- The invariant of a participant, which has nothing and has drawn nothing before round 1. -/
def Begins (params : Parameters) (source : Source) (k : ℕ) (s : State)
    (sent : List (Message Payload)) (results : List KeyShare) : Prop :=
  Invariant.WithSent params k s sent results ∧ (k = 0 → s.dealt = none ∧ s.source = source)

theorem keepsBegins (params : Parameters) (source : Source) :
    Party.Keeps protocol (rounds params) (Begins params source) :=
  (keeps_withSent params).and (fun _ _ _ _ _ hk => absurd hk (Nat.succ_ne_zero _))
    fun hpos _ _ _ hk => absurd hk hpos.ne'

theorem follows_begins (hp : newParty params source = .ok p) :
    Party.Follows protocol (rounds params) (Begins params source) 0 p := by
  have hfollows := follows_withSent hp
  obtain ⟨s, hs, hp⟩ := Result.bind_eq_ok_iff.1 hp
  obtain rfl := Except.ok.inj hp
  obtain ⟨points, -, hs⟩ := Result.bind_eq_ok_iff.1 hs
  obtain rfl := Except.ok.inj hs
  exact ⟨hfollows.protocol, hfollows.stage, hfollows.inv, fun _ => ⟨rfl, rfl⟩⟩

theorem Begins.inBounds {k : ℕ} {sent : List (Message Payload)} {results : List KeyShare}
    (h : Begins params source k s sent results) (hparams : params.Proper) : s.InBounds := by
  obtain ⟨⟨hinv, -⟩, hfresh⟩ := h
  refine hinv.prepared.inBounds hparams fun d hd => ?_
  rcases Nat.eq_zero_or_pos k with hk | hk
  · rw [(hfresh hk).1] at hd
    cases hd
  · obtain ⟨d', hd'⟩ := hinv.dealt hk
    obtain rfl := Option.some.inj (hd.symm.trans hd'.dealt)
    exact hd'

/-! ## The rounds of a run -/

theorem zero_mem_of_start (hparams : params.Proper)
    (hp : Party.Follows protocol (rounds params) (Begins params source) 0 p)
    (he : enterCommit p.state = .error e) :
    0 ∈ drawnCoefficients source params.threshold := by
  obtain ⟨⟨hinv, -⟩, hfresh⟩ := hp.inv
  obtain ⟨-, rfl⟩ := hfresh rfl
  by_contra hzero
  obtain ⟨entry, hentry⟩ := exists_enterCommit hparams hinv.prepared hzero
  rw [hentry] at he
  cases he

theorem readyToReveal_of_attempt (hparams : params.Proper) {k : ℕ}
    (hp : Party.Follows protocol (rounds params) (Begins params source) k p)
    (h : Party.Attempts (revealRound params) q p c) : q.state.ReadyToReveal := by
  obtain ⟨k', -, hround, hdue⟩ := h.due (keepsBegins params source) hp
  obtain rfl : k' = 1 := Nat.succ.inj (number_eq hround).symm
  exact readyToReveal hdue.inv.1 hparams (hdue.arrived 0 (commitRound params) rfl rfl)

theorem readyToVerify_of_attempt (hparams : params.Proper) {k : ℕ}
    (hp : Party.Follows protocol (rounds params) (Begins params source) k p)
    (h : Party.Attempts verifyRound q p c) : q.state.ReadyToVerify := by
  obtain ⟨k', -, hround, hdue⟩ := h.due (keepsBegins params source) hp
  obtain rfl := index_verifyRound hround
  exact readyToVerify hdue.inv.1.1 hparams (hdue.arrived 1 (revealRound params) rfl rfl)

/-- Of a round after the first, only the last fails otherwise than by a fault or a search that gives
up, and only where the public key would be zero. -/
theorem sum_eq_zero_of_attempt (hparams : params.Proper) {k : ℕ}
    (hp : Party.Follows protocol (rounds params) (Begins params source) k p)
    {target : Round State Payload KeyShare} (h : Party.Attempts target q p c)
    (he : target.enter q.state = .error e) (hinternal : e.IsInternal) :
    target = verifyRound ∧ ∃ contributions dealt, q.state.AcceptsAll contributions dealt ∧
      (dealt.map fun vs => vs.headD 0).sum = 0 := by
  obtain ⟨l, hround, -⟩ := h.due_succ (keepsBegins params source) hp
  rcases getElem?_rounds hround with ⟨hl, -⟩ | ⟨-, rfl⟩ | ⟨-, rfl⟩
  · exact absurd hl (Nat.succ_ne_zero l)
  · rw [(readyToReveal_of_attempt hparams hp h).eq_of_error he] at hinternal
    cases hinternal
  · refine ⟨rfl, ?_⟩
    rcases (readyToVerify_of_attempt hparams hp h).of_error he with ⟨culprits, rfl⟩ | hzero
    · cases hinternal
    · exact hzero

/-- On such a coefficient round 1 is not entered. -/
theorem enter_of_zero_mem (hparams : params.Proper) (hp : newParty params source = .ok p)
    (hzero : 0 ∈ drawnCoefficients source params.threshold) :
    p.enter (commitRound params) = .error .brokenInvariant := by
  obtain ⟨⟨hinv, -⟩, hfresh⟩ := (follows_begins hp).inv
  obtain ⟨-, rfl⟩ := hfresh rfl
  exact Party.enter_eq_error (enterCommit_of_zero_mem hparams hinv.prepared hzero)

theorem answer_start_of_zero_mem (hparams : params.Proper) (hp : newParty params source = .ok p)
    (hzero : 0 ∈ drawnCoefficients source params.threshold) :
    p.answer .start = .error .brokenInvariant := by
  have henter := enter_of_zero_mem hparams hp hzero
  have hprepare : (commitRound params).prepare p.state = .ok () := rfl
  rw [Party.answer, Party.start, (newParty_spec hp).2.1]
  dsimp only
  rw [hprepare, henter]
  rfl

def zeroSecond : Source where
  word i := if i = 1 then 0 else 1
  fair i := ⟨i + 2, by omega, by rw [if_neg (by omega)]; decide⟩

theorem zero_mem_drawnCoefficients : 0 ∈ drawnCoefficients zeroSecond 1 := by
  have hsecret : zeroSecond.nextNonzeroScalar = (1, { zeroSecond with position := 1 }) :=
    Source.nextNonzeroScalar_of_accepted rfl
  have hdrawn : Source.nextScalar { zeroSecond with position := 1 } =
      (0, { zeroSecond with position := 2 }) := Source.nextScalar_of_accepted rfl
  rw [drawnCoefficients, hsecret, Dealing.coefficients, Source.draws, hdrawn]
  exact List.mem_cons_of_mem _ List.mem_cons_self

/-- Throughout a run of a participant that parameters were accepted for, every place that is looked
at exists. Rounds 2 and 3 find all that they need when they are entered, and what round 3 has passed
makes a secret share that matches its public share. While both channels are open an internal error
comes only from a start that has drawn a zero coefficient, or from a last round that has passed
everybody and whose public key is zero. -/
theorem integrity_of_run {ids : List PartyId} {curve : CurveParams} {parties : Committee}
    {id : PartyId} {threshold : ℕ} {version : Version} {params : Parameters}
    (hparties : Committee.ofList ids = .ok parties)
    (hparams : Parameters.make curve parties id threshold version = .ok params)
    (source : Source) :
    ∃ p, newParty params source = .ok p ∧
      (∀ q, Relation.ReflTransGen Party.Moves p q → q.state.InBounds) ∧
      ∀ (calls : List (Call Payload)) (c : Call Payload),
        (∀ q, Party.Attempts (revealRound params) q (p.run calls) c → q.state.ReadyToReveal) ∧
        (∀ q, Party.Attempts verifyRound q (p.run calls) c → q.state.ReadyToVerify) ∧
        ((p.run calls).Listened → ∀ e, (p.run calls).answer c = .error e → e.IsInternal →
          (c = .start ∧ 0 ∈ drawnCoefficients source params.threshold) ∨
            ∃ q contributions dealt, Party.Attempts verifyRound q (p.run calls) c ∧
              q.state.AcceptsAll contributions dealt ∧
              (dealt.map fun vs => vs.headD 0).sum = 0) := by
  have hproper := Parameters.proper_of_make (Committee.proper_of_ofList hparties) hparams
  have hkeeps := keepsBegins params source
  obtain ⟨p, hp⟩ := exists_newParty hproper source
  have hfollows := follows_begins hp
  refine ⟨p, hp, fun q hq => ?_, fun calls c => ?_⟩
  · obtain ⟨k, -, hreached⟩ := hfollows.of_moves hkeeps hq
    exact hreached.inv.inBounds hproper
  · obtain ⟨k, -, hrun⟩ := hfollows.run hkeeps calls
    refine ⟨fun q => readyToReveal_of_attempt hproper hrun,
      fun q => readyToVerify_of_attempt hproper hrun, fun hlistened e he hinternal => ?_⟩
    obtain ⟨k', hlives⟩ := lives_of_run hp calls
    cases hlives.failsBy (concluding params) he with
    | misuse he => cases he ▸ hinternal
    | sender _ _ he => cases he ▸ hinternal
    | store _ _ hstore =>
        rw [hrun.protocol] at hstore
        cases (eq_of_store_error hstore).2 ▸ hinternal
    | enterFirst hc hstage henter =>
        have hreached := hrun.stage
        rw [hstage] at hreached
        obtain ⟨rfl, hfirst⟩ := hreached
        obtain ⟨rfl, -⟩ := List.cons.inj hfirst
        rcases henter with hprepare | henter
        · cases hprepare
        · exact Or.inl ⟨hc, zero_mem_of_start hproper hrun (hlistened.error_of_enter henter)⟩
    | @enter target q hattempts henter =>
        obtain ⟨rfl, contributions, dealt, haccepts, hsum⟩ := sum_eq_zero_of_attempt hproper hrun
          hattempts ((hlistened.attempts hattempts).error_of_enter henter) hinternal
        exact Or.inr ⟨q, contributions, dealt, hattempts, haccepts, hsum⟩

theorem integrity_of_run_pair : ∃ p, newParty (Setup.pair.params 0) zeroSecond = .ok p ∧
    p.answer .start = .error .brokenInvariant ∧
    0 ∈ drawnCoefficients zeroSecond 1 := by
  have hmake := Setup.valid_pair.make_eq (show 0 < Setup.pair.parties.size by decide)
  have hproper := Parameters.proper_of_make Setup.valid_pair.proper hmake
  obtain ⟨p, hp, -, hrun⟩ := integrity_of_run Setup.ofList_pair hmake zeroSecond
  have hanswer := answer_start_of_zero_mem hproper hp zero_mem_drawnCoefficients
  refine ⟨p, hp, hanswer, ?_⟩
  rcases (hrun [] .start).2.2 (listened_newParty hp) _ hanswer .brokenInvariant with
    ⟨-, hmem⟩ | ⟨q, _, _, hattempts, -⟩
  · exact hmem
  · -- round 3 is not attempted by a start that fails in round 1
    cases hattempts with
    | start hstage _ henter _ =>
        obtain ⟨rfl, -⟩ := Stage.notStarted.inj (hstage.symm.trans (newParty_spec hp).2.1)
        have hfails := enter_of_zero_mem hproper hp zero_mem_drawnCoefficients
        cases henter.symm.trans hfails

end Keygen

end ThresholdKeys
