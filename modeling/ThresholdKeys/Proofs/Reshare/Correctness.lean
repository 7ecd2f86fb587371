import Mathlib
import ThresholdKeys.Proofs.Network.Ensemble
import ThresholdKeys.Proofs.Reshare.Honest

/-!
# Resharing without disturbance

In a network of the members of both committees whose messages are delivered in any order, no call
fails. Once nothing is in flight, every new member has finished with a key share and all others
have retired, and the new key shares belong to the old key.
-/

namespace ThresholdKeys.Reshare

open Polynomial

/-- The network of one party for everybody on one of the committees, before any of them has
started. -/
def setUp (curve : CurveParams) (old new : Committee) (oldThreshold newThreshold : ℕ)
    (version : Version) (inputs : PartyId → Result Input) (sources : PartyId → Source) :
    Result (Network State Payload Outcome) := do
  let parties ← (participants old new).mapM fun p => do
    let params ← Parameters.make curve old new p oldThreshold newThreshold version
    newParty params (← inputs p) (sources p)
  return .ofReshare (parties.map fun p => some (.new p false))

namespace Setup

variable {r : Setup} {n i j k : ℕ} {m : Message Payload}

def everybody (r : Setup) : Committee := ⟨participants r.old r.new⟩

def ensemble (r : Setup) : Ensemble State Payload Outcome where
  size := r.everybody.size
  role n := r.role (r.everybody.member n)
  depth := 4
  hears := (Network.ofReshare []).hears
  concerns n := (Network.ofReshare []).hears (r.initial (r.everybody.member n))

theorem mem_participants (hn : n < r.everybody.size) :
    r.everybody.member n ∈ participants r.old r.new :=
  Committee.member_mem hn

theorem Valid.make_eq (h : r.Valid) {p : PartyId} (hp : p ∈ participants r.old r.new) :
    Parameters.make r.curve r.old r.new p r.oldThreshold r.newThreshold r.version =
      .ok (r.params p) := by
  have hown : (r.old.find? p <|> r.new.find? p) = some p := by
    rw [h.old_proper.find?_eq_map_position?]
    cases hi : r.old.position? p with
    | some i => exact congrArg some (eq_old_member h.old_proper hp hi).symm
    | none =>
        obtain ⟨j, hj, hpj⟩ := eq_new_member h.old_proper hp h.new_proper hi
        rw [h.new_proper.find?_eq_map_position?, hj, Option.map_none, Option.map_some, ← hpj]
        rfl
  unfold Parameters.make
  rw [if_neg (Nat.not_le.2 h.oldThreshold_lt),
    checkThreshold_eq_ok_iff.2 ⟨h.newThreshold_pos, h.newThreshold_lt⟩, Result.ok_bind]
  dsimp only
  rw [hown]
  rfl

theorem Valid.setUp_eq (h : r.Valid) {inputs : PartyId → Result Input}
    (hinputs : ∀ p ∈ participants r.old r.new, inputs p = .ok (r.input p)) :
    setUp r.curve r.old r.new r.oldThreshold r.newThreshold r.version inputs r.sources =
      .ok r.ensemble.network := by
  have hparties : ((participants r.old r.new).mapM fun p => (do
      let params ← Parameters.make r.curve r.old r.new p r.oldThreshold r.newThreshold r.version
      newParty params (← inputs p) (r.sources p))) =
        .ok ((participants r.old r.new).map r.party) := by
    apply Result.mapM_eq_ok_map
    intro p hp
    rw [h.make_eq hp, Result.ok_bind, hinputs p hp, Result.ok_bind, h.newParty_eq]
  have hnodes : participants r.old r.new =
      (List.range r.everybody.size).map r.everybody.member := r.everybody.members_eq
  rw [setUp, hparties, Result.ok_bind, Result.pure_eq_ok, List.map_map, hnodes, List.map_map]
  rfl

theorem mem_sends_iff {p : PartyId} : m ∈ (r.role p).sends k ↔
    (k = 0 ∧ ∃ i, r.old.position? p = some i ∧ m = r.commitMessage i) ∨
      (k = 1 ∧ ∃ j, r.new.position? p = some j ∧ m = r.ackMessage j) ∨
      (k = 2 ∧ ∃ i, r.old.position? p = some i ∧
        ((∃ j < r.new.size, r.new.position? p ≠ some j ∧ m = r.shareMessage i j) ∨
          m = r.revealMessage i)) := by
  rcases k with _ | _ | _ | k
  · cases hi : r.old.position? p <;> simp [role, hi]
  · cases hj : r.new.position? p <;> simp [role, hj]
  · cases hi : r.old.position? p <;>
      simp [role, hi, mem_otherHolders_iff, and_assoc, eq_comm (b := m)]
  · simp [role]

theorem Valid.origin_of_mem_sends (h : r.Valid) {p : PartyId} (hm : m ∈ (r.role p).sends k) :
    m.sender.SameKey p ∧ m.round = k + 1 := by
  rcases mem_sends_iff.1 hm with ⟨rfl, i, hi, rfl⟩ | ⟨rfl, j, hj, rfl⟩ |
    ⟨rfl, i, hi, ⟨j, -, -, rfl⟩ | rfl⟩
  · exact ⟨(h.old_proper.position?_eq_some_iff.1 hi).2, rfl⟩
  · exact ⟨(h.new_proper.position?_eq_some_iff.1 hj).2, rfl⟩
  · exact ⟨(h.old_proper.position?_eq_some_iff.1 hi).2, rfl⟩
  · exact ⟨(h.old_proper.position?_eq_some_iff.1 hi).2, rfl⟩

theorem Valid.everybody_inj (h : r.Valid) {l : ℕ} (hn : n < r.everybody.size)
    (hl : l < r.everybody.size)
    (hkey : (r.everybody.member n).SameKey (r.everybody.member l)) : n = l := by
  have heq := eq_of_sameKey_participants h.old_proper (mem_participants hn) h.new_proper
    (mem_participants hl) hkey
  apply (List.getElem?_inj hn (nodup_participants h.old_proper h.new_proper)).1
  rw [Committee.member_eq hn, Committee.member_eq hl, heq]

section Addressed

variable (h : r.Valid)

include h

theorem addressed_toNew_iff (hi : i < r.old.size) (content : Payload) :
    r.ensemble.addressed n (.broadcast (r.old.member i) .new content) = true ↔
      r.old.position? (r.everybody.member n) ≠ some i ∧
        (r.new.position? (r.everybody.member n)).isSome = true := by
  have hkey : (r.everybody.member n).SameKey (r.old.member i) ↔
      r.old.position? (r.everybody.member n) = some i := by
    rw [h.old_proper.position?_eq_some_iff, and_iff_right hi]
    exact eq_comm
  change (!decide ((r.everybody.member n).SameKey (r.old.member i)) &&
    (((r.params _).isOld && false) || ((r.params _).isNew && true))) = true ↔ _
  rw [Bool.and_false, Bool.false_or, Bool.and_true, h.isNew_params, Bool.and_eq_true,
    Bool.not_eq_true', decide_eq_false_iff_not, hkey]

theorem addressed_toOld_iff (hj : j < r.new.size) (content : Payload) :
    r.ensemble.addressed n (.broadcast (r.new.member j) .old content) = true ↔
      r.new.position? (r.everybody.member n) ≠ some j ∧
        (r.old.position? (r.everybody.member n)).isSome = true := by
  have hkey : (r.everybody.member n).SameKey (r.new.member j) ↔
      r.new.position? (r.everybody.member n) = some j := by
    rw [h.new_proper.position?_eq_some_iff, and_iff_right hj]
    exact eq_comm
  change (!decide ((r.everybody.member n).SameKey (r.new.member j)) &&
    (((r.params _).isOld && true) || ((r.params _).isNew && false))) = true ↔ _
  rw [Bool.and_true, Bool.and_false, Bool.or_false, h.isOld_params, Bool.and_eq_true,
    Bool.not_eq_true', decide_eq_false_iff_not, hkey]

theorem addressed_direct_iff (hj : j < r.new.size) (sender : PartyId) (content : Payload) :
    r.ensemble.addressed n (.direct sender (r.new.member j) .new content) = true ↔
      r.new.position? (r.everybody.member n) = some j := by
  change ([r.new.member j].any fun p => decide (p.SameKey (r.everybody.member n))) = true ↔ _
  rw [List.any_cons, List.any_nil, Bool.or_false, decide_eq_true_iff,
    h.new_proper.position?_eq_some_iff, and_iff_right hj]

end Addressed

theorem Valid.nodup_sends (h : r.Valid) (p : PartyId) (k : ℕ) : ((r.role p).sends k).Nodup := by
  rcases k with _ | _ | _ | k
  · cases hi : r.old.position? p <;> simp [role, hi]
  · cases hj : r.new.position? p <;> simp [role, hj]
  · cases hi : r.old.position? p with
    | none => simp [role, hi]
    | some i =>
        simp only [role, hi, Option.toList_some, List.flatMap_singleton]
        apply List.nodup_append.2
        refine ⟨?_, List.nodup_singleton _, ?_⟩
        · apply (List.nodup_range.filter _).map_on
          intro j hj l hl heq
          have hrecipient := congrArg Message.recipients heq
          exact h.new_member_inj (mem_otherHolders_iff.1 hl).1 (mem_otherHolders_iff.1 hj).1
            (List.cons.inj (Option.some.inj hrecipient)).1
        · intro m hm m' hm' heq
          obtain ⟨j, -, rfl⟩ := List.mem_map.1 hm
          rw [List.mem_singleton.1 hm'] at heq
          exact Payload.noConfusion (congrArg Message.content heq)
  · exact List.nodup_nil

theorem Valid.exists_everybody_old (h : r.Valid) (hi : i < r.old.size) :
    ∃ n < r.everybody.size, r.old.position? (r.everybody.member n) = some i := by
  have hmem : r.old.member i ∈ r.everybody.members := old_member_mem hi
  obtain ⟨n, hn, heq⟩ := Committee.mem_iff.1 hmem
  exact ⟨n, hn, heq ▸ h.old_proper.position?_eq hi rfl⟩

theorem Valid.exists_everybody_new (h : r.Valid) (hj : j < r.new.size) :
    ∃ n < r.everybody.size, r.new.position? (r.everybody.member n) = some j := by
  obtain ⟨p, hmem, hposition⟩ := exists_participant h.old_proper h.new_proper hj
  have hmem : p ∈ r.everybody.members := hmem
  obtain ⟨n, hn, heq⟩ := Committee.mem_iff.1 hmem
  exact ⟨n, hn, heq ▸ hposition⟩

theorem Valid.ne_iff (h : r.Valid) {p q : PartyId} (hi : r.old.position? p = some i)
    (hj : r.new.position? q = some j) :
    r.new.position? p ≠ some j ↔ r.old.position? q ≠ some i := by
  constructor
  · intro hne heq
    apply hne
    rw [Committee.position?_congr (h.old_proper.sameKey_of_position? hi heq), hj]
  · intro hne heq
    apply hne
    rw [Committee.position?_congr (h.new_proper.sameKey_of_position? hj heq), hi]

/-- What is addressed to a member is what it waits for. -/
theorem Valid.needs_of_addressed (h : r.Valid) {p : PartyId} (hm : m ∈ (r.role p).sends k)
    (haddressed : r.ensemble.addressed n m = true) : (r.role (r.everybody.member n)).Needs m := by
  rcases mem_sends_iff.1 hm with ⟨-, i, hi, rfl⟩ | ⟨-, j, hj, rfl⟩ |
    ⟨-, i, hi, ⟨j, hlt, hne, rfl⟩ | rfl⟩
  · have hlt := (h.old_proper.position?_eq_some_iff.1 hi).1
    obtain ⟨hother, hnew⟩ := (addressed_toNew_iff h hlt _).1 haddressed
    obtain ⟨j, hj⟩ := Option.isSome_iff_exists.1 hnew
    exact needs_iff.2 (Or.inl ⟨j, hj, i, hlt, hother, Or.inl rfl⟩)
  · have hlt := (h.new_proper.position?_eq_some_iff.1 hj).1
    obtain ⟨hother, hold⟩ := (addressed_toOld_iff h hlt _).1 haddressed
    obtain ⟨i, hi⟩ := Option.isSome_iff_exists.1 hold
    exact needs_iff.2 (Or.inr ⟨i, hi, j, hlt, hother, rfl⟩)
  · have hj := (addressed_direct_iff h hlt _ _).1 haddressed
    exact needs_iff.2 (Or.inl ⟨j, hj, i, (h.old_proper.position?_eq_some_iff.1 hi).1,
      (h.ne_iff hi hj).1 hne, Or.inr (Or.inl rfl)⟩)
  · have hlt := (h.old_proper.position?_eq_some_iff.1 hi).1
    obtain ⟨hother, hnew⟩ := (addressed_toNew_iff h hlt _).1 haddressed
    obtain ⟨j, hj⟩ := Option.isSome_iff_exists.1 hnew
    exact needs_iff.2 (Or.inl ⟨j, hj, i, hlt, hother, Or.inr (Or.inr rfl)⟩)

/-- What a member waits for in a round is addressed to it and sent in that round. -/
theorem Valid.exists_sends_of_needs (h : r.Valid) (hk : k < 4)
    (hm : m ∈ (r.role (r.everybody.member n)).needs k) : r.ensemble.addressed n m = true ∧
      ∃ l < r.everybody.size, m ∈ (r.role (r.everybody.member l)).sends k := by
  rcases k with _ | _ | _ | _ | k
  · obtain ⟨j, hj, i, hi, hother, rfl⟩ := mem_needs_zero_iff.1 hm
    obtain ⟨l, hl, hposition⟩ := h.exists_everybody_old hi
    exact ⟨(addressed_toNew_iff h hi _).2 ⟨hother, Option.isSome_iff_exists.2 ⟨j, hj⟩⟩, l, hl,
      mem_sends_iff.2 (Or.inl ⟨rfl, i, hposition, rfl⟩)⟩
  · obtain ⟨i, hi, j, hj, hother, rfl⟩ := mem_needs_one_iff.1 hm
    obtain ⟨l, hl, hposition⟩ := h.exists_everybody_new hj
    exact ⟨(addressed_toOld_iff h hj _).2 ⟨hother, Option.isSome_iff_exists.2 ⟨i, hi⟩⟩, l, hl,
      mem_sends_iff.2 (Or.inr (Or.inl ⟨rfl, j, hposition, rfl⟩))⟩
  · obtain ⟨j, hj, i, hi, hother, rfl | rfl⟩ := mem_needs_two_iff.1 hm
    · have hlt := (h.new_proper.position?_eq_some_iff.1 hj).1
      obtain ⟨l, hl, hposition⟩ := h.exists_everybody_old hi
      exact ⟨(addressed_direct_iff h hlt _ _).2 hj, l, hl,
        mem_sends_iff.2 (Or.inr (Or.inr ⟨rfl, i, hposition,
          Or.inl ⟨j, hlt, (h.ne_iff hposition hj).2 hother, rfl⟩⟩))⟩
    · obtain ⟨l, hl, hposition⟩ := h.exists_everybody_old hi
      exact ⟨(addressed_toNew_iff h hi _).2 ⟨hother, Option.isSome_iff_exists.2 ⟨j, hj⟩⟩, l, hl,
        mem_sends_iff.2 (Or.inr (Or.inr ⟨rfl, i, hposition, Or.inr rfl⟩))⟩
  · exact absurd hm List.not_mem_nil
  · omega

theorem Valid.lawful_ensemble (h : r.Valid) : r.ensemble.Lawful where
  role hn := h.lawful_role (mem_participants hn)
  depth _ := rfl
  hears {n k log s} _ hs := by
    change (fun m : Message Payload => (s.params.isOld && m.isToOld) ||
      (s.params.isNew && m.isToNew)) = _
    rw [hs.params_eq]
    rfl
  nodup _ _ := h.nodup_sends _ _
  origin {n n' k k' m} hn hn' _ _ hm hm' := by
    obtain ⟨hkey, hround⟩ := h.origin_of_mem_sends hm
    obtain ⟨hkey', hround'⟩ := h.origin_of_mem_sends hm'
    exact ⟨h.everybody_inj hn hn' (hkey.symm.trans hkey'), by omega⟩
  needed _ _ _ hm haddressed := h.needs_of_addressed hm haddressed
  sent {n k m} _ hk hm := by
    obtain ⟨haddressed, l, hl, hsends⟩ := h.exists_sends_of_needs hk hm
    exact ⟨haddressed, l, hl, k, le_rfl, hsends⟩

theorem Valid.agree (h : r.Valid) : Agree r.new r.newThreshold
    ((List.range r.old.size).map fun i => r.weight i * r.secrets i).sum r.keyShare :=
  r.sum_secrets_dealers ▸ Dealer.agree_keyShare (fun _ => threshold_of_mem_dealers) h.new_proper

end Setup

/-! ## From key shares to key shares -/

/-- The key share of the holder at a place, if the secret key is the value of a polynomial at
zero. -/
noncomputable def keyShareOf (F : Scalar[X]) (threshold : ℕ) (holders : Committee) (i : ℕ) :
    KeyShare where
  threshold
  parties := holders
  index := i
  secret := F.eval (Committee.pointOf (holders.member i))
  publicShares := holders.members.map fun p => F.eval (Committee.pointOf p) • Point.generator
  publicKey := F.eval 0 • Point.generator

/-- What everybody brings to a resharing: old members their key shares, and the others what is
public of them. -/
noncomputable def inputOf (F : Scalar[X]) (threshold : ℕ) (holders old : Committee)
    (p : PartyId) : Result Input :=
  if (old.find? p).isSome then
    Input.ofKeyShare (keyShareOf F threshold holders ((holders.position? p).getD 0)) old
  else .ok (.ofNewMember (F.eval 0 • Point.generator)
    (old.members.map fun p => F.eval (Committee.pointOf p) • Point.generator))

theorem publicSharesOf_keyShareOf {holders : Committee} (hholders : holders.Proper)
    {parties : List PartyId} (hsub : ∀ p ∈ parties, (holders.find? p).isSome) (F : Scalar[X])
    (threshold i : ℕ) (missing : PartyId → InputProblem) :
    (keyShareOf F threshold holders i).publicSharesOf missing parties =
      .ok (parties.map fun p => F.eval (Committee.pointOf p) • Point.generator) := by
  apply Result.mapM_eq_ok_map
  intro p hp
  obtain ⟨j, hj, hkey⟩ := Committee.exists_member_of_find? (hsub p hp)
  have hpoint : Committee.pointOf (holders.member j) = Committee.pointOf p :=
    congrArg Scalar.ofNat hkey
  have hshare : (keyShareOf F threshold holders i).publicShareOf? p =
      some (F.eval (Committee.pointOf p) • Point.generator) := by
    change (holders.position? p).bind (fun j => (holders.members.map fun p =>
      F.eval (Committee.pointOf p) • Point.generator)[j]?) = _
    rw [hholders.position?_eq hj hkey, Option.bind_some, List.getElem?_map, Committee.member_eq hj,
      Option.map_some, hpoint]
  rw [hshare]

namespace Setup

variable {F : Scalar[X]} {holders : Committee} {r : Setup} {p : PartyId}

/-- The members reshare the value of a polynomial at zero. -/
structure Shares (r : Setup) (F : Scalar[X]) : Prop where
  publicKey : r.publicKey = F.eval 0 • Point.generator
  secrets : ∀ i, r.secrets i = F.eval (r.oldPoint i)

theorem Shares.sum_eq (h : r.Shares F) (hold : r.old.Proper) (hdegree : F.natDegree < r.old.size) :
    ((List.range r.old.size).map fun i => r.weight i * r.secrets i).sum = F.eval 0 := by
  have hnodup : r.oldPoints.Nodup := hold.nodup
  have hlen : r.oldPoints.length = r.old.size := List.length_map _
  have hlt : F.degree < r.oldPoints.length := by
    apply Polynomial.degree_le_natDegree.trans_lt
    rw [hlen]
    exact_mod_cast hdegree
  rw [← sum_lagrangeWeight_mul_eval hnodup hlt]
  conv_rhs => rw [oldPoints_eq, List.map_map, ← oldPoints_eq]
  refine congrArg List.sum (List.map_congr_left fun i _ => ?_)
  rw [h.secrets]
  rfl

theorem Shares.oldShares_eq (h : r.Shares F) :
    (r.old.members.map fun p => F.eval (Committee.pointOf p) • Point.generator) = r.oldShares := by
  rw [Committee.members_eq, List.map_map, oldShares]
  refine List.map_congr_left fun i _ => ?_
  rw [h.secrets]
  rfl

theorem Shares.inputOf_eq (h : r.Shares F) (hholders : holders.Proper) (hold : r.old.Proper)
    (hsub : ∀ p ∈ r.old.members, (holders.find? p).isSome) (threshold : ℕ) (p : PartyId) :
    inputOf F threshold holders r.old p = .ok (r.input p) := by
  unfold inputOf
  rw [hold.isSome_find?]
  cases hi : r.old.position? p with
  | none =>
      rw [h.oldShares_eq, ← h.publicKey, input, hi]
      rfl
  | some i =>
      obtain ⟨hlt, hkey⟩ := hold.position?_eq_some_iff.1 hi
      obtain ⟨j, hj, hkey'⟩ :=
        Committee.exists_member_of_find? (hsub _ (Committee.member_mem hlt))
      have hposition : holders.position? p = some j := hholders.position?_eq hj (hkey'.trans hkey)
      have hsecret : r.secrets i = F.eval (Committee.pointOf (holders.member j)) := by
        rw [h.secrets]
        exact congrArg (fun key => F.eval (Scalar.ofNat key)) hkey'.symm
      rw [hposition, if_pos Option.isSome_some, Input.ofKeyShare, publicSharesOf_keyShareOf hholders hsub,
        Result.ok_bind, h.oldShares_eq, input, hi, h.publicKey, Option.map_some, hsecret]
      rfl

end Setup

/-- A resharing that nobody disturbs, with messages delivered in any order, for any overlap of the
committees: no call fails, the run can always come to rest, and when it rests the new members have
put out key shares of the old key and all others have retired. -/
theorem preserves_key {F : Scalar[X]} {keyThreshold : ℕ} (hdegree : F.natDegree ≤ keyThreshold)
    {holderIds oldIds newIds : List PartyId} {holders old new : Committee}
    (hholders : Committee.ofList holderIds = .ok holders)
    (hold : Committee.ofList oldIds = .ok old) (hnew : Committee.ofList newIds = .ok new)
    (hsub : ∀ p ∈ old.members, (holders.find? p).isSome)
    (hshare : ∀ p ∈ old.members, F.eval (Committee.pointOf p) ≠ 0)
    {oldThreshold newThreshold : ℕ} (hcount : max keyThreshold oldThreshold + 1 ≤ old.size)
    (hpos : 0 < newThreshold) (hlt : newThreshold < new.size) (curve : CurveParams)
    (version : Version) (sources : PartyId → Source)
    (hdrawn : ∀ p ∈ old.members, ∀ c ∈ (Source.draws Source.nextScalar newThreshold
      (sources p)).1, c ≠ 0) :
    ∃ before, setUp curve old new oldThreshold newThreshold version
        (inputOf F keyThreshold holders old) sources = .ok before ∧
      ∀ net, before.Reaches net →
        (∀ answer net', net.Step answer net' → answer = .ok ()) ∧
        (∃ net', net.Reaches net' ∧ net'.AtRest) ∧
        (net.AtRest → ∃ share : ℕ → KeyShare,
          (∀ n p, (participants old new)[n]? = some p → ∃ node, net.node? n = some node ∧
            node.party.stage = .finished ∧
            node.party.results.sent =
              [(new.position? p).elim .retired fun j => .share (share j)]) ∧
          Agree new newThreshold (F.eval 0) share) := by
  let r : Setup := ⟨curve, old, new, oldThreshold, newThreshold, version,
    F.eval 0 • Point.generator, fun i => F.eval (Committee.pointOf (old.member i)), sources⟩
  have hshares : r.Shares F := ⟨rfl, fun _ => rfl⟩
  have hproper := Committee.proper_of_ofList hold
  have hsize : F.natDegree < old.size ∧ oldThreshold < old.size := by omega
  have hsum := hshares.sum_eq hproper hsize.1
  have hvalid : r.Valid :=
    { old_proper := hproper
      new_proper := Committee.proper_of_ofList hnew
      oldThreshold_lt := hsize.2
      newThreshold_pos := hpos
      newThreshold_lt := hlt
      secret_ne_zero := fun i hi => hshare _ (Committee.member_mem hi)
      drawn_ne_zero := fun i hi => hdrawn _ (Committee.member_mem hi)
      publicKey_eq := congrArg (· • Point.generator) hsum.symm }
  have hlawful := hvalid.lawful_ensemble
  have hsetUp := hvalid.setUp_eq fun p _ =>
    hshares.inputOf_eq (Committee.proper_of_ofList hholders) hproper hsub keyThreshold p
  refine ⟨_, hsetUp, fun net hnet => ⟨fun answer net' hstep => ?_, ?_, fun hrest => ?_⟩⟩
  · exact hlawful.answer_ok hnet hstep
  · exact hlawful.exists_atRest hnet
  · refine ⟨r.keyShare, fun n p hp => ?_, ?_⟩
    · have hn : n < r.everybody.size := (List.getElem?_eq_some_iff.1 hp).1
      obtain rfl : r.everybody.member n = p :=
        Option.some.inj ((Committee.member_eq hn).symm.trans hp)
      exact hlawful.finished hnet hrest hn
    · have hagree := hvalid.agree
      rwa [hsum] at hagree

/-! ## From one pair of members to another -/

def firstPair : Committee := ⟨[⟨"a", "A", 1, some 0⟩, ⟨"b", "B", 2, some 1⟩]⟩

def secondPair : Committee := ⟨[⟨"b", "B", 2, some 0⟩, ⟨"c", "C", 3, some 1⟩]⟩

theorem ofList_firstPair :
    Committee.ofList [⟨"b", "B", 2, none⟩, ⟨"a", "A", 1, none⟩] = .ok firstPair := by
  decide +kernel

theorem ofList_secondPair :
    Committee.ofList [⟨"c", "C", 3, none⟩, ⟨"b", "B", 2, none⟩] = .ok secondPair := by
  decide +kernel

theorem eval_firstPair_ne_zero (p : PartyId) (hp : p ∈ firstPair.members) :
    (X + C 1 : Scalar[X]).eval (Committee.pointOf p) ≠ 0 := by
  rw [eval_add, eval_X, eval_C]
  have hne : ∀ p ∈ firstPair.members, Committee.pointOf p + 1 ≠ 0 := by decide +kernel
  exact hne p hp

theorem preserves_key_pair : ∃ before net,
    setUp .secp256k1 firstPair secondPair 1 1 .v1 (inputOf (X + C 1) 1 firstPair firstPair)
      (fun _ => .ones) = .ok before ∧ before.Reaches net ∧
      ∃ share : ℕ → KeyShare,
        (∃ n, net.node? 0 = some n ∧ n.party.results.sent = [.retired]) ∧
        (∃ n, net.node? 1 = some n ∧ n.party.results.sent = [.share (share 0)]) ∧
        (∃ n, net.node? 2 = some n ∧ n.party.results.sent = [.share (share 1)]) ∧
        Agree secondPair 1 1 share := by
  have hcount : max 1 1 + 1 ≤ firstPair.size := by decide
  have hdrawn : ∀ p ∈ firstPair.members, ∀ c ∈
      (Source.draws Source.nextScalar 1 ((fun _ => .ones : PartyId → Source) p)).1, c ≠ 0 := by
    intro _ _ c hc
    rw [show Source.draws Source.nextScalar 1 Source.ones = _ from rfl, Source.draws_ones] at hc
    exact List.eq_of_mem_replicate hc ▸ one_ne_zero
  obtain ⟨before, hbefore, hruns⟩ := preserves_key (natDegree_X_add_C (1 : Scalar)).le
    ofList_firstPair ofList_firstPair ofList_secondPair (by decide) eval_firstPair_ne_zero
    hcount Nat.one_pos (by decide) .secp256k1 .v1 (fun _ => .ones) hdrawn
  obtain ⟨-, ⟨net, hnet, hrest⟩, -⟩ := hruns before .refl
  obtain ⟨share, hfinished, hagree⟩ := (hruns net hnet).2.2 hrest
  rw [eval_add, eval_X, eval_C, zero_add] at hagree
  obtain ⟨n₀, hn₀, -, hsent₀⟩ := hfinished 0 _ rfl
  obtain ⟨n₁, hn₁, -, hsent₁⟩ := hfinished 1 _ rfl
  obtain ⟨n₂, hn₂, -, hsent₂⟩ := hfinished 2 _ rfl
  exact ⟨before, net, hbefore, hnet, share, ⟨n₀, hn₀, hsent₀⟩, ⟨n₁, hn₁, hsent₁⟩,
    ⟨n₂, hn₂, hsent₂⟩, hagree⟩

end ThresholdKeys.Reshare
