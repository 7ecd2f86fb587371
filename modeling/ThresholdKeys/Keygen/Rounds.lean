import ThresholdKeys.Engine.Party
import ThresholdKeys.Keygen.State
import ThresholdKeys.KeyShare

/-!
# The rounds of key generation

Round 1 deals a fresh secret and commits to the dealing. Round 2 starts once all commitments are
there; it fixes the session, sends the shares and reveals the dealing. Round 3 checks what every
peer has revealed, blames all peers whose contribution fails, and otherwise adds up.
-/

namespace ThresholdKeys.Keygen

abbrev Step := Entry State Payload KeyShare

def enterCommit (s : State) : Result Step := do
  let i := s.params.index
  let (secret, source) := s.source.nextNonzeroScalar
  let (dealing, source) ← Dealing.create source s.params.threshold secret s.points
  let ((commitment, opening), source) ← dealing.commit source
  return {
    state := { s with
      source
      dealt := some ⟨secret, dealing, opening⟩
      commits := s.commits.put i ⟨commitment, true⟩ }
    ticked := [i]
    sent := [.broadcast s.params.id .new (.commit commitment)] }

def sessionOf (s : State) : Result Session := do
  let commitments ← (List.range s.commits.length).mapM fun j =>
    match s.commits.item? j with
    | some c => .ok c
    | none => .error .brokenInvariant
  return .new task s.params.curve s.params.parties s.params.threshold commitments

/-- The shares to all other participants, in their order. -/
def shareMessages (s : State) (d : Dealing) : Result (List (Message Payload)) :=
  (s.params.parties.exclude s.params.index).mapM fun p =>
    match p.index.bind (d.shares[·]?) with
    | some share => .ok (.direct s.params.id p .new (.share share))
    | none => .error .brokenInvariant

/-- Sends the shares and broadcasts the opening with a proof of knowledge of the dealt secret. -/
def enterReveal (s : State) : Result Step := do
  let i := s.params.index
  let session ← sessionOf s
  match s.dealt with
  | none => throw .brokenInvariant
  | some d =>
    match d.dealing.commitments.head?, d.dealing.shares[i]? with
    | some point, some own =>
      let statement := ⟨s.params.curve, point, s.params.version⟩
      let (proof, source) ← Schnorr.prove statement d.secret (session.transcriptFor i) s.source
      let messages ← shareMessages s d.dealing
      return {
        state := { s with
          source
          session := some session
          shares := s.shares.put i ⟨own, false⟩
          reveals := s.reveals.put i ⟨(d.opening, proof), true⟩ }
        ticked := [i]
        sent := messages ++ [.broadcast s.params.id .new (.reveal d.opening proof)] }
    | _, _ => throw .brokenInvariant

/-- All that one participant has contributed. -/
structure Contribution where
  commitment : Commitment
  share : Share
  opening : Opening
  proof : Schnorr.Proof

def contribution (s : State) (j : Nat) : Result Contribution :=
  match s.commits.item? j, s.shares.item? j, s.reveals.item? j with
  | some commitment, some share, some (opening, proof) =>
      .ok ⟨commitment, share, opening, proof⟩
  | _, _, _ => .error .brokenInvariant

/-- The points that a contribution publishes, if all of it is in order: the opening opens the
commitment, the proof holds for its sender in this session, and the share fits. -/
def Contribution.verified? (c : Contribution) (params : Parameters) (session : Session)
    (own : Scalar) (j : Nat) : Option (List Point) := do
  let vs ← c.commitment.reveal? c.opening (params.threshold + 1)
  let point ← vs.head?
  let statement := ⟨params.curve, point, params.version⟩
  (c.proof.verify statement (session.transcriptFor j)).toOption
  if c.share.id = own ∧ c.share.Verifies params.threshold vs then some vs else none

def assemble (s : State) (contributions : List Contribution) (dealt : List (List Point)) :
    Result KeyShare :=
  let threshold := s.params.threshold
  let vs := sumCommitments (threshold + 1) dealt
  match vs.head? with
  | none => .error .brokenInvariant
  | some publicKey =>
    if publicKey.isIdentity then .error .brokenInvariant
    else
      KeyShare.make threshold s.params.parties s.params.index
        (Residue.sum (contributions.map fun c => c.share.value))
        (s.points.map (evaluateCommitments vs)) publicKey

/-- Checks every contribution but the own one. -/
def enterVerify (s : State) : Result Step := do
  let i := s.params.index
  match s.session, s.dealt, s.points[i]? with
  | some session, some d, some own =>
    let contributions ← (List.range s.params.parties.size).mapM (contribution s)
    let checks := contributions.mapIdx fun j c =>
      if j = i then some d.dealing.commitments else c.verified? s.params session own j
    let culprits := (checks.zip s.params.parties.members).filterMap fun (check, p) =>
      if check.isNone then some p else none
    if culprits ≠ [] then throw (.fault ⟨task, 3, culprits, .peerContribution⟩)
    else do
      let share ← assemble s contributions (checks.filterMap id)
      return { state := s, result := some share }
  | _, _, _ => throw .brokenInvariant

def hasCommit (s : State) (j : Nat) : Bool := (s.commits.admitted? true j).isSome

def hasReveal (s : State) (j : Nat) : Bool :=
  (s.shares.admitted? false j).isSome && (s.reveals.admitted? true j).isSome

def commitRound (params : Parameters) : Round State Payload KeyShare where
  number := 1
  expected := params.parties.members
  enter := enterCommit
  accepts := Payload.isAdmittedIn 1
  hasArrived := hasCommit

def revealRound (params : Parameters) : Round State Payload KeyShare where
  number := 2
  expected := params.parties.members
  enter := enterReveal
  accepts := Payload.isAdmittedIn 2
  hasArrived := hasReveal

def verifyRound : Round State Payload KeyShare where
  number := 3
  expected := []
  enter := enterVerify
  accepts := Payload.isAdmittedIn 3
  hasArrived _ _ := false

def protocol : Protocol State Payload KeyShare := ⟨task, State.store⟩

def newParty (params : Parameters) (source : Source) : Result (Party State Payload KeyShare) := do
  let state ← State.initial params source
  return {
    protocol
    id := params.id
    senderLimit := params.parties.size
    state
    stage := .notStarted (commitRound params) [revealRound params, verifyRound] }

end ThresholdKeys.Keygen
