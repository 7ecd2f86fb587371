import Mathlib
import ThresholdKeys.Proofs.Commitment.Binding
import ThresholdKeys.Proofs.Reshare.Correctness
import ThresholdKeys.Proofs.Reshare.Invariant

/-!
# Reshared keys against arbitrary dealers

A new member that is called in any order and with any messages puts out only key shares of the old
key: they lie on a polynomial of the agreed degree in the exponent, whose constant term is the old
public key. Two new members that hold the same commitments put out the same public shares, unless
two openings share a commitment.
-/

namespace ThresholdKeys.Reshare

/-- What stands behind a key share that a new member has put out: the points that everybody has
dealt, and their sum. -/
structure Justified (params : Parameters) (input : Input) (s : State) (share : KeyShare)
    (points : List Scalar) (dealt : List (List Point)) (vs : List Point) : Prop where
  points_eq : params.new.points = .ok points
  sum : vs = sumCommitments (params.newThreshold + 1) dealt
  length : vs.length = params.newThreshold + 1
  publicKey : share.publicKey = input.publicKey
  head : vs[0]? = some input.publicKey
  publicShares : share.publicShares = points.map fun x =>
    ∑ c ∈ Finset.range (params.newThreshold + 1), x ^ c • vs.getD c 0
  secret : ∃ i, params.newIndex? = some i ∧ share.index = i ∧
    share.publicShares[i]? = some (share.secret • Point.generator)
  /-- Enough public shares, weighted by their Lagrange coefficients, give the old public key. -/
  quorum : ∀ quorum : List ℕ, quorum.Nodup → (∀ j ∈ quorum, j < params.new.size) →
    params.newThreshold + 1 ≤ quorum.length →
      Input.interpolate (quorum.map fun j => points.getD j 0)
        (quorum.map fun j => share.publicShares.getD j 0) = .ok input.publicKey
  length_dealt : dealt.length = params.old.size
  /-- Every dealer has committed to its points, the first of them is its weighted public share, and
  the share that it has sent lies on them. -/
  dealer : ∀ j ws, dealt[j]? = some ws → ∃ d i own, s.Holds j d ∧ params.newIndex? = some i ∧
    points[i]? = some own ∧ d.Sound params.newThreshold own ws

/-- Two runs hold two openings of one commitment between them. -/
def Collide (s s' : State) : Prop :=
  ∃ j o o', s.reveals.item? j = some o ∧ s'.reveals.item? j = some o' ∧ o.Collide o'

theorem issued_of_run {curve : CurveParams} {old new : Committee} {id : PartyId}
    {oldThreshold newThreshold : ℕ} {version : Version} {params : Parameters} (hnew : new.Proper)
    (hmake : Parameters.make curve old new id oldThreshold newThreshold version = .ok params)
    {input : Input} {source : Source} {p : Party State Payload Outcome}
    (hp : newParty params input source = .ok p) (calls : List (Call Payload)) {share : KeyShare}
    (hshare : .share share ∈ (p.run calls).results.sent) :
    ∃ deals dealt, (p.run calls).state.Prepared params input ∧
      (p.run calls).state.Issued share deals dealt := by
  obtain ⟨k, -, hfollows⟩ := (follows_newParty hp).run
    (keeps (fun _ hj => newIndex?_lt_of_make hnew hmake hj) input) calls
  obtain ⟨deals, dealt, hissued⟩ := hfollows.inv.issued share hshare
  exact ⟨deals, dealt, hfollows.inv.prepared, hissued⟩

section Issued

variable {s s' : State} {k k' : KeyShare} {deals deals' : List Deal}
  {dealt dealt' : List (List Point)}

theorem State.Issued.sound (h : s.Issued k deals dealt) {j : ℕ} {vs : List Point}
    (hvs : dealt[j]? = some vs) : ∃ d i own, s.Holds j d ∧ s.params.newIndex? = some i ∧
      s.newPoints[i]? = some own ∧ d.Sound s.params.newThreshold own vs := by
  obtain ⟨i, own, hi, hown, hall, -⟩ := h.place
  obtain ⟨hj, rfl⟩ := List.getElem?_eq_some_iff.1 hvs
  have hj' : j < deals.length := hall.length_eq ▸ hj
  exact ⟨deals[j], i, own, h.holds j _ (List.getElem?_eq_getElem hj'), hi, hown,
    (List.forall₂_iff_get.1 hall).2 j hj' hj⟩

theorem State.Issued.length_dealt (h : s.Issued k deals dealt) :
    dealt.length = s.params.old.size := by
  obtain ⟨_, _, _, _, hall, -⟩ := h.place
  rw [← hall.length_eq, h.length_deals]

theorem State.Issued.length_of_mem (h : s.Issued k deals dealt) {vs : List Point}
    (hvs : vs ∈ dealt) : vs.length = s.params.newThreshold + 1 := by
  obtain ⟨j, hj⟩ := List.mem_iff_getElem?.1 hvs
  obtain ⟨d, i, own, -, -, -, hsound⟩ := h.sound hj
  exact hsound.length

theorem State.Issued.justified (h : s.Issued k deals dealt) {params : Parameters} {input : Input}
    (hs : s.Prepared params input) (hnew : params.new.Proper) :
    Justified params input s k s.newPoints dealt
      (sumCommitments (params.newThreshold + 1) dealt) := by
  obtain rfl := hs.params_eq
  obtain rfl := hs.input_eq
  have hlen : (sumCommitments (s.params.newThreshold + 1) dealt).length =
      s.params.newThreshold + 1 := length_sumCommitments ..
  have hnodup : s.newPoints.Nodup := by
    have hpoints := hs.newPoints_eq
    rw [hnew.points_eq] at hpoints
    exact Except.ok.inj hpoints ▸ hnew.nodup
  obtain ⟨i, _, hi, -, -, hsecret, hindex⟩ := h.place
  refine
    { points_eq := hs.newPoints_eq
      sum := rfl
      length := hlen
      publicKey := h.publicKey
      head := by rw [← List.head?_eq_getElem?]; exact h.head
      publicShares := ?_
      secret := ⟨i, hi, hindex, hsecret⟩
      quorum := fun quorum hquorum hlt hcount => ?_
      length_dealt := h.length_dealt
      dealer := fun j ws hws => h.sound hws }
  · rw [h.publicShares]
    refine List.map_congr_left fun x _ => ?_
    rw [evaluateCommitments_eq_sum, hlen]
  · rw [h.publicShares, interpolate_quorum hnodup hquorum
      (fun j hj => hs.length_newPoints ▸ hlt j hj) (by rwa [hlen]),
      List.headD_eq_head?_getD, h.head, Option.getD_some]

theorem State.Issued.dealt_eq (h : s.Issued k deals dealt) (h' : s'.Issued k' deals' dealt')
    (hsize : s'.params.old.size = s.params.old.size)
    (hcommits : ∀ j < s.params.old.size, s'.commits.item? j = s.commits.item? j)
    (hcollide : ¬ Collide s s') : dealt' = dealt := by
  apply List.ext_getElem
  · rw [h'.length_dealt, h.length_dealt, hsize]
  · intro j hj' hj
    obtain ⟨d, _, _, hd, -, -, hsound⟩ := h.sound (List.getElem?_eq_getElem hj)
    obtain ⟨d', _, _, hd', -, -, hsound'⟩ := h'.sound (List.getElem?_eq_getElem hj')
    have hsame : d'.commitment = d.commitment := by
      have hitem := hcommits j (h.length_dealt ▸ hj)
      rw [Slots.item?_of_admitted? hd.commit, Slots.item?_of_admitted? hd'.commit] at hitem
      exact Option.some.inj hitem
    have hopening : d.opening = d'.opening :=
      (Opening.eq_or_collide (hsound.opens.trans (hsame.symm.trans hsound'.opens.symm))).resolve_right
        fun hopenings => hcollide ⟨j, d.opening, d'.opening, Slots.item?_of_admitted? hd.reveal,
          Slots.item?_of_admitted? hd'.reveal, hopenings⟩
    exact (hopening ▸ hsound'.reveals).unique hsound.reveals

/-- The public shares are the values of what was dealt, whatever the threshold. -/
theorem State.Issued.publicShares_eq (h : s.Issued k deals dealt) : k.publicShares =
    s.newPoints.map fun x => (dealt.map fun vs => evaluateCommitments vs x).sum := by
  rw [h.publicShares]
  refine List.map_congr_left fun x _ => ?_
  exact evaluateCommitments_sumCommitments (fun vs hvs => h.length_of_mem hvs) x

end Issued

/-- Whatever the dealers send and in whatever order it is called, a new member that puts out a key
share has one of the old key, on a polynomial of the agreed degree, made from deals that are in
order. Any two such members of the same committees that hold the same commitments agree on all
public shares, or their runs hold two openings of one commitment. -/
theorem sound_of_run {newIds : List PartyId} {curve : CurveParams} {old new : Committee}
    {id : PartyId} {oldThreshold newThreshold : ℕ} {version : Version} {params : Parameters}
    {input : Input} {source : Source} {p : Party State Payload Outcome}
    (hnew : Committee.ofList newIds = .ok new)
    (hmake : Parameters.make curve old new id oldThreshold newThreshold version = .ok params)
    (hp : newParty params input source = .ok p) (calls : List (Call Payload)) {share : KeyShare}
    (hshare : .share share ∈ (p.run calls).results.sent) :
    (∃ points dealt vs, Justified params input (p.run calls).state share points dealt vs) ∧
      ∀ {curve' id' oldThreshold' newThreshold' version' params' input' source'}
        {p' : Party State Payload Outcome} {calls' : List (Call Payload)} {share' : KeyShare},
        Parameters.make curve' old new id' oldThreshold' newThreshold' version' = .ok params' →
        newParty params' input' source' = .ok p' →
        .share share' ∈ (p'.run calls').results.sent →
        (∀ j < old.size,
          (p'.run calls').state.commits.item? j = (p.run calls).state.commits.item? j) →
        Collide (p.run calls).state (p'.run calls').state ∨
          share'.publicShares = share.publicShares := by
  have hproper := Committee.proper_of_ofList hnew
  obtain ⟨deals, dealt, hprepared, hissued⟩ := issued_of_run hproper hmake hp calls hshare
  obtain ⟨rfl, rfl, -⟩ := committees_of_make hmake
  constructor
  · exact ⟨_, dealt, _, hissued.justified hprepared hproper⟩
  · intro curve' id' oldThreshold' newThreshold' version' params' input' source' p' calls' share'
      hmake' hp' hshare' hcommits
    obtain ⟨deals', dealt', hprepared', hissued'⟩ := issued_of_run hproper hmake' hp' calls' hshare'
    obtain ⟨hold, hsame, -⟩ := committees_of_make hmake'
    rw [or_iff_not_imp_left]
    intro hcollide
    have hparams : (p.run calls).state.params.old = params.old := by rw [hprepared.params_eq]
    have hparams' : (p'.run calls').state.params.old = params.old := by
      rw [hprepared'.params_eq, hold]
    have hdealt := hissued.dealt_eq hissued' (by rw [hparams', hparams]) (by rwa [hparams]) hcollide
    have hpoints : (p'.run calls').state.newPoints = (p.run calls).state.newPoints := by
      have hpoints' := hprepared'.newPoints_eq
      rw [hsame, hprepared.newPoints_eq] at hpoints'
      exact (Except.ok.inj hpoints').symm
    rw [hissued'.publicShares_eq, hissued.publicShares_eq, hdealt, hpoints]

/-! ## Two new members -/

def Setup.pair : Setup where
  curve := .secp256k1
  old := firstPair
  new := secondPair
  oldThreshold := 1
  newThreshold := 1
  version := .v1
  publicKey := (1 : Scalar) • Point.generator
  secrets i := Committee.pointOf (firstPair.member i) + 1
  sources _ := .ones

open Polynomial in
theorem Setup.shares_pair : Setup.pair.Shares (X + C 1) where
  publicKey := by simp [pair]
  secrets i := by simp [pair, oldPoint]

open Polynomial in
theorem Setup.valid_pair : Setup.pair.Valid where
  old_proper := Committee.proper_of_ofList ofList_firstPair
  new_proper := Committee.proper_of_ofList ofList_secondPair
  oldThreshold_lt := by decide
  newThreshold_pos := by decide
  newThreshold_lt := by decide
  secret_ne_zero := by decide +kernel
  drawn_ne_zero i _ c hc := by
    have hones : c ∈ List.replicate 1 (1 : Scalar) := Source.draws_ones 1 0 ▸ hc
    exact List.eq_of_mem_replicate hones ▸ one_ne_zero
  publicKey_eq := by
    have hdegree : (X + C 1 : Scalar[X]).natDegree < pair.old.size := by
      rw [natDegree_X_add_C]
      decide
    rw [shares_pair.sum_eq (Committee.proper_of_ofList ofList_firstPair) hdegree,
      shares_pair.publicKey]

theorem sound_of_run_pair :
    (∃ points dealt vs, Justified (Setup.pair.params (secondPair.member 1))
      (Setup.pair.input (secondPair.member 1))
      ((Setup.pair.party (secondPair.member 1)).run
        (Setup.pair.calls (secondPair.member 1))).state
      (Setup.pair.keyShare 1) points dealt vs) ∧
    (Collide
        ((Setup.pair.party (secondPair.member 1)).run
          (Setup.pair.calls (secondPair.member 1))).state
        ((Setup.pair.party (firstPair.member 1)).run
          (Setup.pair.calls (firstPair.member 1))).state ∨
      (Setup.pair.keyShare 0).publicShares = (Setup.pair.keyShare 1).publicShares) := by
  have hstays : firstPair.member 1 ∈ participants Setup.pair.old Setup.pair.new := by decide
  have hjoins : secondPair.member 1 ∈ participants Setup.pair.old Setup.pair.new := by decide
  have hshare : Outcome.share (Setup.pair.keyShare 1) ∈
      ((Setup.pair.party (secondPair.member 1)).run
        (Setup.pair.calls (secondPair.member 1))).results.sent := by
    rw [Setup.valid_pair.results_run hjoins]
    exact List.mem_singleton_self _
  obtain ⟨hjustified, hagree⟩ := sound_of_run ofList_secondPair
    (Setup.valid_pair.make_eq hjoins) (Setup.valid_pair.newParty_eq _) _ hshare
  refine ⟨hjustified, hagree (Setup.valid_pair.make_eq hstays) (Setup.valid_pair.newParty_eq _)
    (by rw [Setup.valid_pair.results_run hstays]; exact List.mem_singleton_self _) ?_⟩
  intro j hj
  have hplaces : secondPair.position? (firstPair.member 1) = some 0 ∧
      secondPair.position? (secondPair.member 1) = some 1 := by decide
  rw [Setup.valid_pair.item?_commits_run hstays hplaces.1 hj,
    Setup.valid_pair.item?_commits_run hjoins hplaces.2 hj]

end ThresholdKeys.Reshare
