import Mathlib
import ThresholdKeys.Proofs.Engine.Role
import ThresholdKeys.Proofs.Reshare.Entry
import ThresholdKeys.Proofs.Reshare.Store
import ThresholdKeys.Proofs.Sharing.Joint

/-!
# Undisturbed members of two committees

What every member of the old and of the new committee deals, sends and receives in a resharing that
nobody disturbs, as it follows from the old secret shares and from the random words that the
members draw.
-/

namespace ThresholdKeys.Reshare

/-- Everybody who is on one of the committees, members of both as the old committee lists them. -/
def participants (old new : Committee) : List PartyId :=
  old.members ++ new.members.filter fun p => (old.find? p).isNone

section Participants

variable {old new : Committee} {p q : PartyId}

theorem mem_participants_iff :
    p ∈ participants old new ↔ p ∈ old.members ∨ p ∈ new.members ∧ old.find? p = none := by
  simp [participants]

theorem old_member_mem {i : ℕ} (hi : i < old.size) : old.member i ∈ participants old new :=
  mem_participants_iff.2 (Or.inl (Committee.member_mem hi))

variable (hold : old.Proper) (hp : p ∈ participants old new)

include hold

/-- Every new member takes part, though perhaps as the old committee lists it. -/
theorem exists_participant (hnew : new.Proper) {j : ℕ} (hj : j < new.size) :
    ∃ p ∈ participants old new, new.position? p = some j := by
  cases hposition : old.position? (new.member j) with
  | some i =>
      obtain ⟨hi, hkey⟩ := hold.position?_eq_some_iff.1 hposition
      exact ⟨old.member i, old_member_mem hi, hnew.position?_eq hj hkey.symm⟩
  | none =>
      have hfind : old.find? (new.member j) = none := by
        rw [hold.find?_eq_map_position?, hposition, Option.map_none]
      exact ⟨new.member j, mem_participants_iff.2 (Or.inr ⟨Committee.member_mem hj, hfind⟩),
        hnew.position?_eq hj rfl⟩

include hp

theorem eq_old_member {i : ℕ} (hi : old.position? p = some i) : p = old.member i := by
  obtain ⟨hlt, hkey⟩ := hold.position?_eq_some_iff.1 hi
  rcases mem_participants_iff.1 hp with hmem | ⟨-, hnone⟩
  · obtain ⟨l, hl, rfl⟩ := Committee.mem_iff.1 hmem
    rw [hold.eq_of_sameKey hlt hl hkey]
  · rw [hold.find?_eq hlt hkey] at hnone
    cases hnone

theorem eq_new_member (hnew : new.Proper) (hnone : old.position? p = none) :
    ∃ j, new.position? p = some j ∧ p = new.member j := by
  rcases mem_participants_iff.1 hp with hmem | ⟨hmem, -⟩
  · obtain ⟨i, hi, rfl⟩ := Committee.mem_iff.1 hmem
    rw [hold.position?_eq hi rfl] at hnone
    cases hnone
  · obtain ⟨j, hj, rfl⟩ := Committee.mem_iff.1 hmem
    exact ⟨j, hnew.position?_eq hj rfl, rfl⟩

theorem eq_of_sameKey_participants (hnew : new.Proper) (hq : q ∈ participants old new)
    (hkey : p.SameKey q) : p = q := by
  have hposition (c : Committee) : c.position? p = c.position? q := Committee.position?_congr hkey
  cases hi : old.position? p with
  | some i => rw [eq_old_member hold hp hi, eq_old_member hold hq (hposition old ▸ hi)]
  | none =>
      obtain ⟨j, hj, hpj⟩ := eq_new_member hold hp hnew hi
      obtain ⟨l, hl, hql⟩ := eq_new_member hold hq hnew (hposition old ▸ hi)
      obtain rfl := Option.some.inj (hj.symm.trans ((hposition new).trans hl))
      rw [hpj, hql]

omit hp in
theorem nodup_participants (hnew : new.Proper) : (participants old new).Nodup := by
  apply List.nodup_append.2
  refine ⟨hold.nodup.of_map, hnew.nodup.of_map.filter _, ?_⟩
  intro a ha b hb hab
  obtain ⟨i, hi, rfl⟩ := Committee.mem_iff.1 ha
  have hnone := (List.mem_filter.1 hb).2
  rw [← hab, hold.find?_member hi] at hnone
  cases hnone

end Participants

/-- Who takes part in a resharing, what the old members hold, and what random words everybody
draws. -/
structure Setup where
  curve : CurveParams
  old : Committee
  new : Committee
  oldThreshold : ℕ
  newThreshold : ℕ
  version : Version
  publicKey : Point
  /-- The secret shares of the old members. -/
  secrets : ℕ → Scalar
  sources : PartyId → Source

namespace Setup

variable (r : Setup)

def oldPoints : List Scalar := r.old.members.map Committee.pointOf

def newPoints : List Scalar := r.new.members.map Committee.pointOf

def oldPoint (i : ℕ) : Scalar := Committee.pointOf (r.old.member i)

def newPoint (j : ℕ) : Scalar := Committee.pointOf (r.new.member j)

def params (p : PartyId) : Parameters :=
  ⟨r.curve, r.old, r.new, r.oldThreshold, r.newThreshold, p, r.old.find? p, r.new.find? p,
    r.version⟩

def oldShares : List Point := (List.range r.old.size).map fun i => r.secrets i • Point.generator

def input (p : PartyId) : Input := ⟨r.publicKey, r.oldShares, (r.old.position? p).map r.secrets⟩

def weight (i : ℕ) : Scalar := lagrangeWeight r.oldPoints (r.oldPoint i)

/-- What an old member deals is its weighted share. -/
def dealer (i : ℕ) : Dealer :=
  ⟨r.sources (r.old.member i), r.newThreshold, r.weight i * r.secrets i, r.newPoints⟩

def dealers : List Dealer := (List.range r.old.size).map r.dealer

def commitMessage (i : ℕ) : Message Payload :=
  .broadcast (r.old.member i) .new (.commit (r.dealer i).opening.commitment)

def ackMessage (j : ℕ) : Message Payload := .broadcast (r.new.member j) .old .ack

def shareMessage (i j : ℕ) : Message Payload :=
  .direct (r.old.member i) (r.new.member j) .new (.share ((r.dealer i).share (r.newPoint j)))

def revealMessage (i : ℕ) : Message Payload :=
  .broadcast (r.old.member i) .new (.reveal (r.dealer i).opening)

def otherDealers (p : PartyId) : List ℕ :=
  (List.range r.old.size).filter fun i => r.old.position? p ≠ some i

/-- The places of the new members other than this party. -/
def otherHolders (p : PartyId) : List ℕ :=
  (List.range r.new.size).filter fun j => r.new.position? p ≠ some j

def keyShare (j : ℕ) : KeyShare := Dealer.keyShare r.newThreshold r.new r.dealers j

/-- New members end with a key share, all others retire. -/
def outcome (p : PartyId) : Outcome :=
  (r.new.position? p).elim .retired fun j => .share (r.keyShare j)

/-- The committees and thresholds are sound, no old share and no drawn coefficient is zero, and the
old shares are shares of the key. -/
structure Valid : Prop where
  old_proper : r.old.Proper
  new_proper : r.new.Proper
  oldThreshold_lt : r.oldThreshold < r.old.size
  newThreshold_pos : 0 < r.newThreshold
  newThreshold_lt : r.newThreshold < r.new.size
  secret_ne_zero : ∀ i < r.old.size, r.secrets i ≠ 0
  drawn_ne_zero : ∀ i < r.old.size, ∀ c ∈ (Source.draws Source.nextScalar r.newThreshold
    (r.sources (r.old.member i))).1, c ≠ 0
  publicKey_eq : r.publicKey =
    ((List.range r.old.size).map fun i => r.weight i * r.secrets i).sum • Point.generator

/-- A member of both committees keeps its own deal, as the dealer at this place. -/
def KeepsDeal (p : PartyId) (i : ℕ) : Prop :=
  r.old.position? p = some i ∧ (r.new.position? p).isSome

def KeepsAck (p : PartyId) (j : ℕ) : Prop :=
  r.new.position? p = some j ∧ (r.old.position? p).isSome

/-- The state after so many rounds and these messages. -/
structure Holds (p : PartyId) (k : ℕ) (log : List (Message Payload)) (s : State) : Prop where
  params_eq : s.params = r.params p
  input_eq : s.input = r.input p
  oldPoints_eq : s.oldPoints = r.oldPoints
  newPoints_eq : s.newPoints = r.newPoints
  source_eq : k = 0 → s.source = r.sources p
  dealt_eq : 1 ≤ k → ∀ i, r.old.position? p = some i →
    s.dealt = some ((r.dealer i).dealing, (r.dealer i).opening)
  commits : s.commits.Filled r.old.size true (fun i => (r.dealer i).opening.commitment)
    fun i => (r.KeepsDeal p i ∧ 1 ≤ k) ∨ r.commitMessage i ∈ log
  acks : s.acks.Filled r.new.size true (fun _ => ())
    fun j => (r.KeepsAck p j ∧ 2 ≤ k) ∨ r.ackMessage j ∈ log
  shares : ∀ j, r.new.position? p = some j →
    s.shares.Filled r.old.size false (fun i => (r.dealer i).share (r.newPoint j))
      fun i => (r.KeepsDeal p i ∧ 3 ≤ k) ∨ r.shareMessage i j ∈ log
  reveals : s.reveals.Filled r.old.size true (fun i => (r.dealer i).opening)
    fun i => (r.KeepsDeal p i ∧ 3 ≤ k) ∨ r.revealMessage i ∈ log

def initial (p : PartyId) : State :=
  { params := r.params p
    input := r.input p
    oldPoints := r.oldPoints
    newPoints := r.newPoints
    source := r.sources p
    commits := .empty r.old.size
    acks := .empty r.new.size
    shares := .empty r.old.size
    reveals := .empty r.old.size }

def party (p : PartyId) : Party State Payload Outcome where
  protocol
  id := p
  senderLimit := max r.old.size r.new.size
  state := r.initial p
  stage := .notStarted (commitRound (r.params p))
    [ackRound (r.params p), revealRound (r.params p), concludeRound]

def role (p : PartyId) : Role State Payload Outcome where
  party := r.party p
  rounds := rounds (r.params p)
  sends
    | 0 => (r.old.position? p).toList.map r.commitMessage
    | 1 => (r.new.position? p).toList.map r.ackMessage
    | 2 => (r.old.position? p).toList.flatMap fun i =>
        (r.otherHolders p).map (r.shareMessage i) ++ [r.revealMessage i]
    | _ => []
  needs
    | 0 => (r.new.position? p).toList.flatMap fun _ => (r.otherDealers p).map r.commitMessage
    | 1 => (r.old.position? p).toList.flatMap fun _ => (r.otherHolders p).map r.ackMessage
    | 2 => (r.new.position? p).toList.flatMap fun j =>
        (r.otherDealers p).flatMap fun i => [r.shareMessage i j, r.revealMessage i]
    | _ => []
  result := r.outcome p
  Holds := r.Holds p

variable {r : Setup} {p : PartyId} {i j : ℕ}

theorem mem_otherDealers_iff :
    i ∈ r.otherDealers p ↔ i < r.old.size ∧ r.old.position? p ≠ some i := by
  simp [otherDealers]

theorem mem_otherHolders_iff :
    j ∈ r.otherHolders p ↔ j < r.new.size ∧ r.new.position? p ≠ some j := by
  simp [otherHolders]

theorem oldPoints_eq (r : Setup) : r.oldPoints = (List.range r.old.size).map r.oldPoint := by
  rw [oldPoints, Committee.members_eq, List.map_map]
  rfl

theorem length_newPoints (r : Setup) : r.newPoints.length = r.new.size := List.length_map _

theorem getElem?_oldPoints (hi : i < r.old.size) : r.oldPoints[i]? = some (r.oldPoint i) :=
  Committee.getElem?_points hi

theorem getElem?_newPoints (hj : j < r.new.size) : r.newPoints[j]? = some (r.newPoint j) :=
  Committee.getElem?_points hj

theorem getElem?_oldShares (hi : i < r.old.size) :
    r.oldShares[i]? = some (r.secrets i • Point.generator) := by
  rw [oldShares, List.getElem?_map, List.getElem?_range hi, Option.map_some]

section Valid

variable (h : r.Valid)

include h

theorem Valid.isOld_params (p : PartyId) : (r.params p).isOld = (r.old.position? p).isSome :=
  h.old_proper.isSome_find? p

theorem Valid.isNew_params (p : PartyId) : (r.params p).isNew = (r.new.position? p).isSome :=
  h.new_proper.isSome_find? p

theorem Valid.newPoint_ne_zero (hj : j < r.new.size) : r.newPoint j ≠ 0 :=
  h.new_proper.ne_zero _ (Committee.member_mem hj)

theorem Valid.lagrangeCoefficient_eq (hi : i < r.old.size) :
    lagrangeCoefficient r.oldPoints i = .ok (r.weight i) :=
  ThresholdKeys.lagrangeCoefficient_eq h.old_proper.nodup (getElem?_oldPoints hi)

theorem Valid.weight_ne_zero (i : ℕ) : r.weight i ≠ 0 := by
  apply lagrangeWeight_ne_zero
  intro x hx
  obtain ⟨p, hp, rfl⟩ := List.mem_map.1 hx
  exact h.old_proper.ne_zero p hp

theorem Valid.dealer (hi : i < r.old.size) : (r.dealer i).Valid where
  threshold_lt := h.newThreshold_lt.trans_eq r.length_newPoints.symm
  ids_ne_zero x hx := by
    obtain ⟨p, hp, rfl⟩ := List.mem_map.1 hx
    exact h.new_proper.ne_zero p hp
  nodup := h.new_proper.nodup
  secret_ne_zero := mul_ne_zero (h.weight_ne_zero i) (h.secret_ne_zero i hi)
  drawn_ne_zero := h.drawn_ne_zero i hi

theorem Valid.interpolate_eq : Input.interpolate r.oldPoints r.oldShares = .ok r.publicKey := by
  have hlen : r.oldShares.length = r.oldPoints.length := by simp [oldShares, oldPoints_eq]
  have hnodup : r.oldPoints.Nodup := h.old_proper.nodup
  rw [ThresholdKeys.interpolate_eq hnodup hlen, h.publicKey_eq, List.sum_smul, List.map_map]
  have hterms : List.zipWith (fun k share => lagrangeWeight r.oldPoints k • share) r.oldPoints
      r.oldShares = (List.range r.old.size).map fun i =>
        r.weight i • r.secrets i • Point.generator := by
    conv_lhs => arg 2; rw [oldPoints_eq]
    rw [oldShares, List.zipWith_map, List.zipWith_self]
    rfl
  rw [hterms]
  refine congrArg (fun terms => Except.ok (List.sum terms)) (List.map_congr_left fun i _ => ?_)
  exact smul_smul ..

theorem Valid.checkSecret_input (hi : i < r.old.size) (hp : r.old.position? p = some i) :
    (r.input p).checkSecret (r.old.member i) = .ok () := by
  unfold Input.checkSecret
  rw [h.old_proper.index_member hi]
  dsimp only [input]
  rw [hp, Option.map_some]
  dsimp only
  rw [getElem?_oldShares hi]
  exact if_pos rfl

theorem Valid.check_input (p : PartyId) : (r.input p).check (r.params p) = .ok () := by
  apply Input.check_eq_ok_iff.2
  refine ⟨by simp [input, oldShares, params], _, h.old_proper.points_eq, h.interpolate_eq, ?_⟩
  intro old hold
  have hfind : (r.old.position? p).map r.old.member = some old :=
    (h.old_proper.find?_eq_map_position? p).symm.trans hold
  obtain ⟨i, hi, rfl⟩ := Option.map_eq_some_iff.1 hfind
  exact h.checkSecret_input (h.old_proper.position?_eq_some_iff.1 hi).1 hi

theorem Valid.newParty_eq (p : PartyId) :
    newParty (r.params p) (r.input p) (r.sources p) = .ok (r.party p) := by
  simp only [newParty, State.initial, h.check_input, Result.ok_bind]
  simp only [params, h.old_proper.points_eq, h.new_proper.points_eq, Result.ok_bind,
    Result.pure_eq_ok]
  rfl

/-- Every deal of the run is in order for every new member. -/
theorem Valid.sound_deal (hi : i < r.old.size) (j : ℕ) :
    Deal.Sound ⟨(r.dealer i).opening.commitment, (r.dealer i).share (r.newPoint j),
      (r.dealer i).opening, r.weight i • r.secrets i • Point.generator⟩ r.newThreshold
        (r.newPoint j) (r.dealer i).dealing.commitments where
  opens := rfl
  reveals := Dealer.reveals (h.dealer hi)
  length := Dealer.length_commitments _
  expected := by rw [Dealer.head?_commitments, smul_smul]; rfl
  addressed := rfl
  share := Dealer.verifies_share _ _

end Valid

end Setup

end ThresholdKeys.Reshare
