import Mathlib
import ThresholdKeys.Proofs.Keygen.Setup

/-!
# The rounds of undisturbed participants

Every round of an undisturbed participant is entered without an error, every message that it waits
for is taken up, and the round is left exactly when all of them are there.
-/

namespace ThresholdKeys.Keygen.Setup

variable {r : Setup} {i k : ℕ} {log : List (Message Payload)} {s : State}

section Messages

theorem commitMessage_inj (h : r.Valid) {i j : ℕ} (hi : i < r.parties.size)
    (hj : j < r.parties.size) (hij : r.commitMessage i = r.commitMessage j) : i = j :=
  h.member_inj hi hj (congrArg Message.sender hij)

theorem shareMessage_inj (h : r.Valid) {i j l l' : ℕ} (hi : i < r.parties.size)
    (hj : j < r.parties.size) (hij : r.shareMessage i l = r.shareMessage j l') : i = j :=
  h.member_inj hi hj (congrArg Message.sender hij)

theorem revealMessage_inj (h : r.Valid) {i j : ℕ} (hi : i < r.parties.size)
    (hj : j < r.parties.size) (hij : r.revealMessage i = r.revealMessage j) : i = j :=
  h.member_inj hi hj (congrArg Message.sender hij)

theorem commitMessage_ne_shareMessage (i j l : ℕ) : r.commitMessage i ≠ r.shareMessage j l :=
  fun h => Payload.noConfusion (congrArg Message.content h)

theorem commitMessage_ne_revealMessage (i j : ℕ) : r.commitMessage i ≠ r.revealMessage j :=
  fun h => Payload.noConfusion (congrArg Message.content h)

theorem shareMessage_ne_revealMessage (i j l : ℕ) : r.shareMessage i l ≠ r.revealMessage j :=
  fun h => Payload.noConfusion (congrArg Message.content h)

end Messages

/-! ## Entering -/

theorem Holds.index_eq (hs : r.Holds i k log s) (h : r.Valid) (hi : i < r.parties.size) :
    s.params.index = i := by
  rw [hs.params_eq, h.index_params hi]

theorem Holds.enterCommit (h : r.Valid) (hi : i < r.parties.size) (hs : r.Holds i 0 log s) :
    ∃ entry, enterCommit s = .ok entry ∧ r.Holds i 1 log entry.state ∧
      entry.sent = [r.commitMessage i] ∧ entry.result = none ∧ entry.ticked = [i] := by
  have hindex := hs.index_eq h hi
  have hcreate : Dealing.create s.source.nextNonzeroScalar.2 s.params.threshold
      s.source.nextNonzeroScalar.1 s.points =
        .ok ((r.dealer i).dealing, (r.dealer i).afterDealing) := by
    rw [hs.source_zero rfl, hs.params_eq, hs.points_eq]
    exact Dealer.create_eq (h.dealer hi)
  have hcommits := hs.commits.put hi
  refine ⟨_, enterCommit_eq_ok_iff.2 ⟨_, _, _, _, _, hcreate, Dealer.commit_eq (h.dealer hi), rfl⟩,
    ?_, ?_, rfl, by rw [hindex]⟩
  · exact
      { hs with
        source_zero := fun hk => absurd hk (by omega)
        source_one := fun _ => rfl
        dealt_eq := fun _ => by
          rw [hs.source_zero rfl]
          rfl
        session_eq := fun hk => absurd hk (by omega)
        commits := by
          rw [hindex]
          exact hcommits.congr fun j _ => by simp
        shares := hs.shares.congr fun j _ => by simp
        reveals := hs.reveals.congr fun j _ => by simp }
  · rw [hs.params_eq]
    rfl

theorem Holds.sessionOf (hs : r.Holds i k log s) (hk : 1 ≤ k)
    (hlog : ∀ j < r.parties.size, j ≠ i → r.commitMessage j ∈ log) :
    sessionOf s = .ok r.session := by
  refine sessionOf_eq_ok_iff.2 ⟨r.dealers.map fun d => d.opening.commitment, ?_, ?_, ?_⟩
  · simp [dealers, hs.commits.length]
  · intro j c hc
    have hj : j < r.parties.size := by
      have hlt := (List.getElem?_eq_some_iff.1 hc).1
      simpa [dealers] using hlt
    have hitem := hs.commits.item? hj (by
      by_cases hji : j = i
      · exact Or.inl ⟨hji, hk⟩
      · exact Or.inr (hlog j hj hji))
    rw [hitem, ← hc]
    simp [dealers, List.getElem?_range hj]
  · rw [hs.params_eq]
    rfl

theorem shareMessages_eq (h : r.Valid) (hi : i < r.parties.size) (hs : s.params = r.params i) :
    shareMessages s (r.dealer i).dealing = .ok ((r.others i).map (r.shareMessage i)) := by
  have hexclude := h.proper.exclude_eq i
  rw [shareMessages_dealing (hs ▸ h.proper) (hs ▸ rfl), hs, h.index_params hi]
  rfl

theorem Holds.enterReveal (h : r.Valid) (hi : i < r.parties.size) (hs : r.Holds i 1 log s)
    (hlog : ∀ j < r.parties.size, j ≠ i → r.commitMessage j ∈ log) :
    ∃ entry, enterReveal s = .ok entry ∧ r.Holds i 2 log entry.state ∧
      entry.sent = (r.others i).map (r.shareMessage i) ++ [r.revealMessage i] ∧
        entry.result = none ∧ entry.ticked = [i] := by
  have hindex := hs.index_eq h hi
  have hown : (r.dealt i).dealing.shares[s.params.index]? =
      some ((r.dealer i).share (r.point i)) := by
    rw [hindex]
    exact r.getElem?_shares i hi
  have hprove : Schnorr.prove ⟨s.params.curve, r.secret i • Point.generator, s.params.version⟩
      (r.dealt i).secret (r.session.transcriptFor s.params.index) s.source =
        .ok (r.proof i, (r.dealer i).afterCommit.nextNonzeroScalar.2) := by
    rw [hindex, hs.params_eq, hs.source_one rfl]
    exact Schnorr.prove_eq_ok (h.challenge_eq hi)
  refine ⟨_, enterReveal_eq_ok_iff.2 ⟨_, _, _, _, _, _, _, hs.sessionOf le_rfl hlog,
    hs.dealt_eq le_rfl, Dealer.head?_commitments (r.dealer i), hown, hprove,
    shareMessages_eq h hi hs.params_eq, rfl⟩, ?_, ?_, rfl, by rw [hindex]⟩
  · exact
      { hs with
        source_zero := fun hk => absurd hk (by omega)
        source_one := fun hk => absurd hk (by omega)
        dealt_eq := fun _ => hs.dealt_eq le_rfl
        session_eq := fun _ => rfl
        commits := hs.commits.congr fun j _ => by simp
        shares := by
          rw [hindex]
          exact (hs.shares.put hi).congr fun j _ => by simp
        reveals := by
          rw [hindex]
          exact (hs.reveals.put hi).congr fun j _ => by simp }
  · rw [hs.params_eq]
    rfl

theorem threshold_of_mem_dealers {d : Dealer} (hd : d ∈ r.dealers) : d.threshold = r.threshold := by
  obtain ⟨j, -, rfl⟩ := List.mem_map.1 hd
  rfl

theorem secrets_dealers (r : Setup) :
    (r.dealers.map fun d => d.secret).sum = ((List.range r.parties.size).map r.secret).sum :=
  congrArg List.sum List.map_map

/-- The contribution of one participant as another one holds it. -/
def contributionFor (r : Setup) (i j : ℕ) : Contribution :=
  ⟨(r.dealer j).opening.commitment, (r.dealer j).share (r.point i), (r.dealer j).opening, r.proof j⟩

theorem Holds.contribution (hs : r.Holds i k log s) (hk : 2 ≤ k)
    (hlog : ∀ j < r.parties.size, j ≠ i → r.commitMessage j ∈ log ∧
      r.shareMessage j i ∈ log ∧ r.revealMessage j ∈ log) {j : ℕ} (hj : j < r.parties.size) :
    contribution s j = .ok (r.contributionFor i j) := by
  have hthere : j = i ∨ r.commitMessage j ∈ log ∧ r.shareMessage j i ∈ log ∧
      r.revealMessage j ∈ log := by
    by_cases hji : j = i
    · exact Or.inl hji
    · exact Or.inr (hlog j hj hji)
  refine contribution_eq_ok_iff.2 ⟨hs.commits.item? hj ?_, hs.shares.item? hj ?_,
    hs.reveals.item? hj ?_⟩
  · exact hthere.imp (fun hji => ⟨hji, by omega⟩) fun hm => hm.1
  · exact hthere.imp (fun hji => ⟨hji, hk⟩) fun hm => hm.2.1
  · exact hthere.imp (fun hji => ⟨hji, hk⟩) fun hm => hm.2.2

theorem Holds.assemble (h : r.Valid) (hi : i < r.parties.size) (hs : r.Holds i k log s) :
    assemble s ((List.range r.parties.size).map (r.contributionFor i))
      (r.dealers.map fun d => d.dealing.commitments) = .ok (r.keyShare i) := by
  rw [assemble_eq_ok_iff, hs.params_eq, hs.points_eq, h.index_params hi]
  have hsecret : Residue.sum (((List.range r.parties.size).map (r.contributionFor i)).map
      fun c => c.share.value) = (r.keyShare i).secret := by
    rw [Residue.sum_eq_sum, List.map_map]
    change _ = (r.dealers.map fun d => (d.share (r.point i)).value).sum
    rw [dealers, List.map_map]
    rfl
  refine ⟨(r.keyShare i).publicKey, Dealer.head?_publishedSum r.threshold r.dealers, ?_, ?_⟩
  · change (Dealer.publishedSum r.threshold r.dealers).headD 0 ≠ 0
    rw [Dealer.headD_publishedSum fun d => threshold_of_mem_dealers, r.secrets_dealers]
    exact smul_ne_zero h.sum_ne_zero Point.generator_ne_zero
  · rw [hsecret]
    exact Dealer.make_keyShare (fun d => threshold_of_mem_dealers) hi

theorem Holds.enterVerify (h : r.Valid) (hi : i < r.parties.size) (hs : r.Holds i 2 log s)
    (hlog : ∀ j < r.parties.size, j ≠ i → r.commitMessage j ∈ log ∧
      r.shareMessage j i ∈ log ∧ r.revealMessage j ∈ log) :
    ∃ entry, enterVerify s = .ok entry ∧ r.Holds i 3 log entry.state ∧ entry.sent = [] ∧
      entry.result = some (r.keyShare i) ∧ entry.ticked = [] := by
  have hindex := hs.index_eq h hi
  have hown : s.points[s.params.index]? = some (r.point i) := by
    rw [hindex, hs.points_eq, getElem?_points hi]
  have hcontributions : (List.range s.params.parties.size).mapM (Keygen.contribution s) =
      .ok ((List.range r.parties.size).map (r.contributionFor i)) := by
    rw [hs.params_eq]
    exact Result.mapM_eq_ok_map fun j hj => hs.contribution le_rfl hlog (List.mem_range.1 hj)
  refine ⟨_, enterVerify_eq_ok_iff.2 ⟨_, _, _, _, _, _, hs.session_eq le_rfl,
    hs.dealt_eq (Nat.le_succ 1), hown, hcontributions, ?_, ?_, hs.assemble h hi, rfl⟩, ?_, rfl, rfl,
    rfl⟩
  · simp [dealers]
  · intro j c vs hc hvs
    have hj : j < r.parties.size := by
      simpa using (List.getElem?_eq_some_iff.1 hc).1
    rw [List.getElem?_map, List.getElem?_range hj, Option.map_some, Option.some.injEq] at hc
    rw [dealers, List.map_map, List.getElem?_map, List.getElem?_range hj, Option.map_some,
      Option.some.injEq] at hvs
    subst hc hvs
    rw [hindex, hs.params_eq]
    split
    · rename_i hji
      rw [hji]
      rfl
    · exact h.sound_contribution i hj
  · exact
      { hs with
        source_zero := fun hk => absurd hk (by omega)
        source_one := fun hk => absurd hk (by omega)
        dealt_eq := fun _ => hs.dealt_eq (by omega)
        session_eq := fun _ => hs.session_eq le_rfl
        commits := hs.commits.congr fun j _ => by simp
        shares := hs.shares.congr fun j _ => by simp
        reveals := hs.reveals.congr fun j _ => by simp }

/-! ## Messages -/

theorem mem_needs_zero_iff {m : Message Payload} :
    m ∈ (r.role i).needs 0 ↔ ∃ j < r.parties.size, j ≠ i ∧ m = r.commitMessage j := by
  simp only [role, List.mem_map, mem_others_iff, and_assoc, eq_comm]

theorem mem_needs_one_iff {m : Message Payload} :
    m ∈ (r.role i).needs 1 ↔
      ∃ j < r.parties.size, j ≠ i ∧ (m = r.shareMessage j i ∨ m = r.revealMessage j) := by
  simp only [role, List.mem_flatMap, mem_others_iff, List.mem_cons, List.not_mem_nil, or_false,
    and_assoc]

theorem needs_iff {m : Message Payload} : (r.role i).Needs m ↔ ∃ j < r.parties.size, j ≠ i ∧
    (m = r.commitMessage j ∨ m = r.shareMessage j i ∨ m = r.revealMessage j) := by
  constructor
  · rintro ⟨k, hk, hm⟩
    change k < 3 at hk
    rcases k with _ | _ | _ | k
    · obtain ⟨j, hj, hji, hm⟩ := mem_needs_zero_iff.1 hm
      exact ⟨j, hj, hji, Or.inl hm⟩
    · obtain ⟨j, hj, hji, hm⟩ := mem_needs_one_iff.1 hm
      exact ⟨j, hj, hji, Or.inr hm⟩
    · exact absurd hm List.not_mem_nil
    · omega
  · rintro ⟨j, hj, hji, hm | hm⟩
    · exact ⟨0, Nat.succ_pos 2, mem_needs_zero_iff.2 ⟨j, hj, hji, hm⟩⟩
    · exact ⟨1, Nat.lt_of_sub_eq_succ rfl, mem_needs_one_iff.2 ⟨j, hj, hji, hm⟩⟩

/-- Taking up one message fills its slot and no other. -/
theorem Holds.store (h : r.Valid) (hs : r.Holds i k log s) {m : Message Payload}
    (hm : (r.role i).Needs m) (hnew : m ∉ log) :
    ∃ s', s.store m = .ok s' ∧ r.Holds i k (log ++ [m]) s' := by
  obtain ⟨j, hj, hji, hm⟩ := needs_iff.1 hm
  have hseat : s.params.parties.seat? (r.parties.member j) = some j := by
    rw [hs.params_eq]
    exact h.proper.seat?_member hj
  have hown (round : ℕ) : ¬ (j = i ∧ round ≤ k) := fun hkeeps => hji hkeeps.1
  rcases hm with rfl | rfl | rfl
  · refine ⟨{ s with commits := s.commits.store true j ⟨(r.dealer j).opening.commitment, true⟩ },
      ?_, { hs with commits := ?_, shares := ?_, reveals := ?_ }⟩
    · simp only [State.store, commitMessage, Message.broadcast, hseat]
    · exact hs.commits.arrive hj (hown 1) hnew fun l hl => commitMessage_inj h hl hj
    · exact hs.shares.ignore fun l => (commitMessage_ne_shareMessage j l i).symm
    · exact hs.reveals.ignore fun l => (commitMessage_ne_revealMessage j l).symm
  · refine ⟨{ s with shares := s.shares.store false j ⟨(r.dealer j).share (r.point i), false⟩ },
      ?_, { hs with commits := ?_, shares := ?_, reveals := ?_ }⟩
    · simp only [State.store, shareMessage, Message.direct, hseat]
    · exact hs.commits.ignore fun l => commitMessage_ne_shareMessage l j i
    · exact hs.shares.arrive hj (hown 2) hnew fun l hl => shareMessage_inj h hl hj
    · exact hs.reveals.ignore fun l => (shareMessage_ne_revealMessage j l i).symm
  · refine ⟨{ s with reveals := s.reveals.store true j ⟨((r.dealer j).opening, r.proof j), true⟩ },
      ?_, { hs with commits := ?_, shares := ?_, reveals := ?_ }⟩
    · simp only [State.store, revealMessage, Message.broadcast, hseat]
    · exact hs.commits.ignore fun l => commitMessage_ne_revealMessage l j
    · exact hs.shares.ignore fun l => shareMessage_ne_revealMessage l j i
    · exact hs.reveals.arrive hj (hown 2) hnew fun l hl => revealMessage_inj h hl hj

theorem Holds.allArrived_commit_iff (hs : r.Holds i k log s) (hk : 1 ≤ k) :
    Party.AllArrived (commitRound (r.params i)) s ↔ (r.role i).needs 0 ⊆ log := by
  have harrived (j : ℕ) (hj : j < (commitRound (r.params i)).expected.length) :
      (commitRound (r.params i)).hasArrived s j = true ↔ j = i ∨ [r.commitMessage j] ⊆ log :=
    (hs.commits.isSome_admitted?_iff hj).trans (by simp [hk])
  apply Party.allArrived_iff_subset harrived
  intro m
  simp only [mem_needs_zero_iff, List.mem_singleton]
  rfl

theorem Holds.hasCommit_own (hs : r.Holds i k log s) (hi : i < r.parties.size) (hk : 1 ≤ k) :
    hasCommit s i = true :=
  (hs.commits.isSome_admitted?_iff hi).2 (Or.inl ⟨rfl, hk⟩)

theorem Holds.hasReveal_own (hs : r.Holds i k log s) (hi : i < r.parties.size) (hk : 2 ≤ k) :
    hasReveal s i = true :=
  Bool.and_eq_true_iff.2 ⟨(hs.shares.isSome_admitted?_iff hi).2 (Or.inl ⟨rfl, hk⟩),
    (hs.reveals.isSome_admitted?_iff hi).2 (Or.inl ⟨rfl, hk⟩)⟩

theorem Holds.allArrived_reveal_iff (hs : r.Holds i k log s) (hk : 2 ≤ k) :
    Party.AllArrived (revealRound (r.params i)) s ↔ (r.role i).needs 1 ⊆ log := by
  have harrived (j : ℕ) (hj : j < (revealRound (r.params i)).expected.length) :
      (revealRound (r.params i)).hasArrived s j = true ↔
        j = i ∨ [r.shareMessage j i, r.revealMessage j] ⊆ log := by
    have hshare := hs.shares.isSome_admitted?_iff hj
    have hreveal := hs.reveals.isSome_admitted?_iff hj
    apply Bool.and_eq_true_iff.trans
    rw [hshare, hreveal, ← or_and_left]
    simp [hk]
  apply Party.allArrived_iff_subset harrived
  intro m
  simp only [mem_needs_one_iff, List.mem_cons, List.not_mem_nil, or_false]
  rfl

theorem validate_party (h : r.Valid) (hi : i < r.parties.size) {m : Message Payload}
    (hm : (r.role i).Needs m) : (r.party i).validate m = .ok () := by
  obtain ⟨j, hj, hji, hm⟩ := needs_iff.1 hm
  have hsender : m.sender = r.parties.member j := by rcases hm with rfl | rfl | rfl <;> rfl
  have hcontent : Content.isPlausible m.content = true := by
    rcases hm with rfl | rfl | rfl
    · exact decide_eq_true trivial
    · exact decide_eq_true (Dealer.isPlausible_share h.threshold_pos (h.point_ne_zero hi))
    · exact decide_eq_true (Dealer.holdsPairs (h.dealer hj))
  apply Party.validate_eq_ok_iff.2
  rw [hsender]
  refine ⟨hcontent, h.proper.wellFormed_member hj, ⟨j, h.proper.index_member hj, hj⟩, ?_⟩
  intro hkey
  exact hji (h.proper.eq_of_sameKey hj hi hkey)

theorem initial_holds (r : Setup) (i : ℕ) : r.Holds i 0 [] (r.initial i) where
  params_eq := rfl
  points_eq := rfl
  source_zero _ := rfl
  source_one hk := absurd hk (by omega)
  dealt_eq hk := absurd hk (by omega)
  session_eq hk := absurd hk (by omega)
  commits := Slots.filled_empty _ _ _ (by simp)
  shares := Slots.filled_empty _ _ _ (by simp)
  reveals := Slots.filled_empty _ _ _ (by simp)

/-- An undisturbed participant plays its role. -/
theorem Valid.lawful_role (h : r.Valid) (hi : i < r.parties.size) : (r.role i).Lawful where
  stage := ⟨_, _, rfl, rfl⟩
  outbox := rfl
  results := rfl
  init := r.initial_holds i
  prepare {round s} hround := by
    simp only [role, rounds, List.mem_cons, List.not_mem_nil, or_false] at hround
    rcases hround with rfl | rfl | rfl <;> rfl
  inspect {round s} hround := by
    simp only [role, rounds, List.mem_cons, List.not_mem_nil, or_false] at hround
    rcases hround with rfl | rfl | rfl <;> rfl
  enter {k round log s} hround hs hleft := by
    rcases getElem?_rounds hround with ⟨rfl, rfl⟩ | ⟨rfl, rfl⟩ | ⟨rfl, rfl⟩
    · obtain ⟨entry, hentry, hholds, hsent, hresult, hticked⟩ := hs.enterCommit h hi
      refine ⟨entry, hentry, hholds, hsent, by rw [hresult]; rfl, fun j hj _ => ?_⟩
      obtain rfl := List.mem_singleton.1 (hticked ▸ hj)
      exact hholds.hasCommit_own hi le_rfl
    · have hlog (j : ℕ) (hj : j < r.parties.size) (hji : j ≠ i) : r.commitMessage j ∈ log :=
        hleft 0 Nat.one_pos (mem_needs_zero_iff.2 ⟨j, hj, hji, rfl⟩)
      obtain ⟨entry, hentry, hholds, hsent, hresult, hticked⟩ := hs.enterReveal h hi hlog
      refine ⟨entry, hentry, hholds, hsent, by rw [hresult]; rfl, fun j hj _ => ?_⟩
      obtain rfl := List.mem_singleton.1 (hticked ▸ hj)
      exact hholds.hasReveal_own hi le_rfl
    · have hlog (j : ℕ) (hj : j < r.parties.size) (hji : j ≠ i) : r.commitMessage j ∈ log ∧
          r.shareMessage j i ∈ log ∧ r.revealMessage j ∈ log :=
        ⟨hleft 0 Nat.two_pos (mem_needs_zero_iff.2 ⟨j, hj, hji, rfl⟩),
          hleft 1 Nat.one_lt_two (mem_needs_one_iff.2 ⟨j, hj, hji, Or.inl rfl⟩),
          hleft 1 Nat.one_lt_two (mem_needs_one_iff.2 ⟨j, hj, hji, Or.inr rfl⟩)⟩
      obtain ⟨entry, hentry, hholds, hsent, hresult, hticked⟩ := hs.enterVerify h hi hlog
      exact ⟨entry, hentry, hholds, hsent, by rw [hresult]; rfl, fun j hj _ =>
        absurd (hticked ▸ hj) List.not_mem_nil⟩
  store {k log s m} _ hs hm hnew := by
    obtain ⟨s', hs', hholds⟩ := hs.store h hm hnew
    exact ⟨s', hs', hholds, fun round hround j hj =>
      hasArrived_mono (State.extends_of_store hs') hround hj⟩
  arrived {k round log s} hround hs := by
    rcases getElem?_rounds hround with ⟨rfl, rfl⟩ | ⟨rfl, rfl⟩ | ⟨rfl, rfl⟩
    · exact hs.allArrived_commit_iff le_rfl
    · exact hs.allArrived_reveal_iff le_rfl
    · exact ⟨fun _ => List.nil_subset _, fun _ j hj => absurd hj (Nat.not_lt_zero j)⟩
  validate hm := validate_party h hi hm

/-! ## A whole run -/

def received (r : Setup) (i : ℕ) : List (Message Payload) :=
  (r.others i).flatMap fun j => [r.commitMessage j, r.shareMessage j i, r.revealMessage j]

theorem mem_received_iff {m : Message Payload} : m ∈ r.received i ↔ (r.role i).Needs m := by
  simp only [received, List.mem_flatMap, mem_others_iff, List.mem_cons, List.not_mem_nil, or_false,
    and_assoc, needs_iff]

theorem nodup_received (h : r.Valid) (i : ℕ) : (r.received i).Nodup := by
  have hsender {j : ℕ} {m : Message Payload}
      (hm : m ∈ [r.commitMessage j, r.shareMessage j i, r.revealMessage j]) :
      m.sender = r.parties.member j := by
    simp only [List.mem_cons, List.not_mem_nil, or_false] at hm
    rcases hm with rfl | rfl | rfl <;> rfl
  rw [received, List.nodup_flatMap]
  constructor
  · intro j _
    simp [commitMessage_ne_shareMessage (r := r) j j i, commitMessage_ne_revealMessage (r := r) j j,
      shareMessage_ne_revealMessage (r := r) j j i]
  · refine (List.nodup_range.filter _).imp_of_mem fun {j j'} hj hj' hne m hm hm' => hne ?_
    exact h.member_inj (mem_others_iff.1 hj).1 (mem_others_iff.1 hj').1
      ((hsender hm).symm.trans (hsender hm'))

def calls (r : Setup) (i : ℕ) : List (Call Payload) := .start :: (r.received i).map .update

theorem Valid.rests_run (h : r.Valid) (hi : i < r.parties.size) :
    (r.role i).Rests 3 (r.received i) ((r.party i).run (r.calls i)) :=
  (h.lawful_role hi).run_complete (nodup_received h i) fun _ => mem_received_iff

theorem Valid.results_run (h : r.Valid) (hi : i < r.parties.size) :
    ((r.party i).run (r.calls i)).results.sent = [r.keyShare i] := by
  rw [(h.rests_run hi).results]
  rfl

/-- In the end every participant holds all commitments. -/
theorem Valid.item?_commits_run (h : r.Valid) (hi : i < r.parties.size) {j : ℕ}
    (hj : j < r.parties.size) :
    ((r.party i).run (r.calls i)).state.commits.item? j =
      some (r.dealer j).opening.commitment := by
  refine (h.rests_run hi).holds.commits.item? hj ?_
  by_cases hji : j = i
  · exact Or.inl ⟨hji, by omega⟩
  · exact Or.inr (mem_received_iff.2 (needs_iff.2 ⟨j, hj, hji, Or.inl rfl⟩))

end ThresholdKeys.Keygen.Setup
