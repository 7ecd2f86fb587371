import Mathlib
import ThresholdKeys.Proofs.Engine.Role
import ThresholdKeys.Proofs.Keygen.Entry
import ThresholdKeys.Proofs.Keygen.Invariant
import ThresholdKeys.Proofs.Party.Committee
import ThresholdKeys.Proofs.Schnorr
import ThresholdKeys.Proofs.Sharing.Joint

/-!
# Undisturbed participants of key generation

What every participant deals, sends and receives in a run that nobody disturbs, as it follows from
the random words that the participants draw.
-/

namespace ThresholdKeys.Keygen

/-- Who takes part in a run, and what random words everybody draws. -/
structure Setup where
  curve : CurveParams
  parties : Committee
  threshold : ℕ
  version : Version
  sources : ℕ → Source

namespace Setup

variable (r : Setup)

def params (i : ℕ) : Parameters := ⟨r.curve, r.parties, r.parties.member i, r.threshold, r.version⟩

def points : List Scalar := r.parties.members.map Committee.pointOf

def point (i : ℕ) : Scalar := Committee.pointOf (r.parties.member i)

def secret (i : ℕ) : Scalar := (r.sources i).nextNonzeroScalar.1

def dealer (i : ℕ) : Dealer :=
  ⟨(r.sources i).nextNonzeroScalar.2, r.threshold, r.secret i, r.points⟩

def dealers : List Dealer := (List.range r.parties.size).map r.dealer

def dealt (i : ℕ) : Dealt := ⟨r.secret i, (r.dealer i).dealing, (r.dealer i).opening⟩

def session : Session :=
  .new task r.curve r.parties r.threshold (r.dealers.map fun d => d.opening.commitment)

def statement (i : ℕ) : Schnorr.Statement :=
  ⟨r.curve, r.secret i • Point.generator, r.version⟩

def nonce (i : ℕ) : Scalar := (r.dealer i).afterCommit.nextNonzeroScalar.1

def challenge (i : ℕ) : Result Scalar :=
  Schnorr.challenge (r.statement i) (r.nonce i • r.curve.generator) (r.session.transcriptFor i)

def proof (i : ℕ) : Schnorr.Proof :=
  Schnorr.proofOf (r.statement i) (r.secret i) (r.nonce i) ((r.challenge i).toOption.getD 0)

def commitMessage (i : ℕ) : Message Payload :=
  .broadcast (r.parties.member i) .new (.commit (r.dealer i).opening.commitment)

def shareMessage (i j : ℕ) : Message Payload :=
  .direct (r.parties.member i) (r.parties.member j) .new (.share ((r.dealer i).share (r.point j)))

def revealMessage (i : ℕ) : Message Payload :=
  .broadcast (r.parties.member i) .new (.reveal (r.dealer i).opening (r.proof i))

/-- The places of the other participants. -/
def others (i : ℕ) : List ℕ := (List.range r.parties.size).filter (· ≠ i)

def keyShare (i : ℕ) : KeyShare := Dealer.keyShare r.threshold r.parties r.dealers i

/-- The parameters are sound, no drawn coefficient and no sum of secrets is zero, and everybody
draws a challenge. -/
structure Valid : Prop where
  proper : r.parties.Proper
  generator : r.curve.generator = Point.generator
  threshold_pos : 0 < r.threshold
  threshold_lt : r.threshold < r.parties.size
  drawn_ne_zero : ∀ i < r.parties.size, ∀ c ∈ (Source.draws Source.nextScalar r.threshold
    (r.sources i).nextNonzeroScalar.2).1, c ≠ 0
  sum_ne_zero : ((List.range r.parties.size).map r.secret).sum ≠ 0
  challenge : ∀ i < r.parties.size, ∃ e, r.challenge i = .ok e

/-- The state after so many rounds and these messages. -/
structure Holds (i k : ℕ) (log : List (Message Payload)) (s : State) : Prop where
  params_eq : s.params = r.params i
  points_eq : s.points = r.points
  source_zero : k = 0 → s.source = r.sources i
  source_one : k = 1 → s.source = (r.dealer i).afterCommit
  dealt_eq : 1 ≤ k → s.dealt = some (r.dealt i)
  session_eq : 2 ≤ k → s.session = some r.session
  commits : s.commits.Filled r.parties.size true (fun j => (r.dealer j).opening.commitment)
    fun j => (j = i ∧ 1 ≤ k) ∨ r.commitMessage j ∈ log
  shares : s.shares.Filled r.parties.size false (fun j => (r.dealer j).share (r.point i))
    fun j => (j = i ∧ 2 ≤ k) ∨ r.shareMessage j i ∈ log
  reveals : s.reveals.Filled r.parties.size true (fun j => ((r.dealer j).opening, r.proof j))
    fun j => (j = i ∧ 2 ≤ k) ∨ r.revealMessage j ∈ log

def initial (i : ℕ) : State :=
  { params := r.params i
    points := r.points
    source := r.sources i
    commits := .empty r.parties.size
    shares := .empty r.parties.size
    reveals := .empty r.parties.size }

def party (i : ℕ) : Party State Payload KeyShare where
  protocol
  id := r.parties.member i
  senderLimit := r.parties.size
  state := r.initial i
  stage := .notStarted (commitRound (r.params i)) [revealRound (r.params i), verifyRound]

def role (i : ℕ) : Role State Payload KeyShare where
  party := r.party i
  rounds := rounds (r.params i)
  sends
    | 0 => [r.commitMessage i]
    | 1 => (r.others i).map (r.shareMessage i) ++ [r.revealMessage i]
    | _ => []
  needs
    | 0 => (r.others i).map r.commitMessage
    | 1 => (r.others i).flatMap fun j => [r.shareMessage j i, r.revealMessage j]
    | _ => []
  result := r.keyShare i
  Holds := r.Holds i

theorem mem_others_iff {r : Setup} {i j : ℕ} : j ∈ r.others i ↔ j < r.parties.size ∧ j ≠ i := by
  simp [others]

theorem length_points (r : Setup) : r.points.length = r.parties.size := List.length_map _

theorem getElem?_points {r : Setup} {i : ℕ} (hi : i < r.parties.size) :
    r.points[i]? = some (r.point i) :=
  Committee.getElem?_points hi

theorem getElem?_shares (r : Setup) (i : ℕ) {j : ℕ} (hj : j < r.parties.size) :
    (r.dealer i).dealing.shares[j]? = some ((r.dealer i).share (r.point j)) :=
  Dealer.getElem?_shares rfl hj

section Valid

variable {r : Setup} (h : r.Valid)

include h

theorem Valid.newParty_eq (i : ℕ) : newParty (r.params i) (r.sources i) = .ok (r.party i) := by
  simp only [newParty, State.initial, params, h.proper.points_eq, Result.ok_bind,
    Result.pure_eq_ok]
  rfl

theorem Valid.point_ne_zero {i : ℕ} (hi : i < r.parties.size) : r.point i ≠ 0 :=
  h.proper.ne_zero _ (Committee.member_mem hi)

theorem Valid.dealer {i : ℕ} (hi : i < r.parties.size) : (r.dealer i).Valid where
  threshold_lt := h.threshold_lt.trans_eq r.length_points.symm
  ids_ne_zero x hx := by
    obtain ⟨p, hp, rfl⟩ := List.mem_map.1 hx
    exact h.proper.ne_zero p hp
  nodup := h.proper.nodup
  secret_ne_zero := (r.sources i).nextNonzeroScalar_ne_zero
  drawn_ne_zero := h.drawn_ne_zero i hi

theorem Valid.index_params {i : ℕ} (hi : i < r.parties.size) : (r.params i).index = i := by
  rw [Parameters.index, params, h.proper.index_member hi, Option.getD_some]

theorem Valid.challenge_eq {i : ℕ} (hi : i < r.parties.size) :
    r.challenge i = .ok ((r.challenge i).toOption.getD 0) := by
  obtain ⟨e, he⟩ := h.challenge i hi
  rw [he]
  rfl

theorem Valid.verify_proof {i : ℕ} (hi : i < r.parties.size) :
    (r.proof i).verify (r.statement i) (r.session.transcriptFor i) = .ok () :=
  Schnorr.verify_proofOf h.generator rfl (r.sources i).nextNonzeroScalar_ne_zero
    (Source.nextNonzeroScalar_ne_zero _) (h.challenge_eq hi)

/-- Every contribution of the run is in order for everybody else. -/
theorem Valid.sound_contribution (i : ℕ) {j : ℕ} (hj : j < r.parties.size) :
    Contribution.Sound ⟨(r.dealer j).opening.commitment, (r.dealer j).share (r.point i),
      (r.dealer j).opening, r.proof j⟩ (r.params i) r.session (r.point i) j
        (r.dealer j).dealing.commitments where
  opens := rfl
  reveals := Dealer.reveals (h.dealer hj)
  length := Dealer.length_commitments _
  proof := ⟨_, Dealer.head?_commitments _, h.verify_proof hj⟩
  addressed := rfl
  share := Dealer.verifies_share _ _

theorem Valid.member_inj {i j : ℕ} (hi : i < r.parties.size) (hj : j < r.parties.size)
    (hij : r.parties.member i = r.parties.member j) : i = j :=
  h.proper.eq_of_sameKey hi hj (congrArg PartyId.key hij)

end Valid

/-! ## A run of two participants -/

def pair : Setup :=
  ⟨.secp256k1, ⟨[⟨"a", "A", 1, some 0⟩, ⟨"b", "B", 2, some 1⟩]⟩, 1, .v1, fun _ => .ones⟩

theorem secret_pair (i : ℕ) : pair.secret i = 1 :=
  congrArg Prod.fst (Source.nextNonzeroScalar_ones 0)

theorem draws_ones_ne_zero (count : ℕ) :
    ∀ c ∈ (Source.draws Source.nextScalar count Source.ones.nextNonzeroScalar.2).1, c ≠ 0 := by
  rw [show Source.ones.nextNonzeroScalar = _ from Source.nextNonzeroScalar_ones 0,
    Source.draws_ones]
  exact fun c hc => List.eq_of_mem_replicate hc ▸ one_ne_zero

theorem ofList_pair :
    Committee.ofList [⟨"b", "B", 2, none⟩, ⟨"a", "A", 1, none⟩] = .ok pair.parties := by
  decide +kernel

theorem valid_pair : pair.Valid where
  proper := Committee.proper_of_ofList ofList_pair
  generator := rfl
  threshold_pos := by decide
  threshold_lt := by decide
  drawn_ne_zero _ _ := draws_ones_ne_zero 1
  sum_ne_zero := by
    rw [funext secret_pair]
    decide
  challenge _ _ := Schnorr.exists_challengeOf_v1 _

end Setup

end ThresholdKeys.Keygen
