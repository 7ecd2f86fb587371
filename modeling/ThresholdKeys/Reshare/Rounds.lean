import ThresholdKeys.Engine.Party
import ThresholdKeys.Reshare.State

/-!
# The rounds of resharing

Round 1: each old member deals its weighted share to the new committee and commits to the dealing.
Round 2: each new member that holds all commitments tells the old committee so. Round 3: each old
member that all new members have told so sends the shares and reveals the dealing. Round 4: new
members check every dealing against the dealer's weighted public share and add up; members of the
old committee alone retire.
-/

namespace ThresholdKeys.Reshare

/-- What a member ends with. -/
inductive Outcome
  | share (k : KeyShare)
  | retired
deriving DecidableEq

abbrev Step := Entry State Payload Outcome

/-- An old member deals its weighted share and broadcasts the commitment. -/
def enterCommit (s : State) : Result Step :=
  match s.params.oldIndex? with
  | none => .ok { state := s }
  | some i =>
    match s.input.secret with
    | none => .error .brokenInvariant
    | some secret => do
      let weight ← lagrangeCoefficient s.oldPoints i
      let (dealing, source) ←
        Dealing.create s.source s.params.newThreshold (weight * secret) s.newPoints
      let ((commitment, opening), source) ← dealing.commit source
      let dual := s.params.isNew
      return {
        state := { s with
          source
          dealt := some (dealing, opening)
          commits := if dual then s.commits.put i ⟨commitment, true⟩ else s.commits }
        ticked := if dual then [i] else []
        sent := [.broadcast s.params.id .new (.commit commitment)] }

def enterAck (s : State) : Result Step :=
  match s.params.newIndex?, s.params.newId with
  | none, _ => .ok { state := s }
  | some _, none => .error .brokenInvariant
  | some i, some me =>
    let dual := s.params.isOld
    .ok {
      state := { s with acks := if dual then s.acks.put i ⟨(), true⟩ else s.acks }
      ticked := if dual then [i] else []
      sent := [.broadcast me .old .ack] }

/-- The share of each new member with its position, in their order. -/
def dealtShares (s : State) (d : Dealing) : Result (List (Nat × PartyId × Share)) :=
  s.params.new.members.zipIdx.mapM fun (p, j) =>
    match d.shares[j]? with
    | some share => .ok (j, p, share)
    | none => .error .brokenInvariant

/-- An old member sends the shares of all other new members and broadcasts the opening. A member
of both committees keeps its own share and opening. -/
def enterReveal (s : State) : Result Step :=
  match s.params.oldIndex? with
  | none => .ok { state := s }
  | some i =>
    match s.dealt with
    | none => .error .brokenInvariant
    | some (dealing, opening) => do
      let me := s.params.id
      let own := s.params.newIndex?
      let dealt ← dealtShares s dealing
      let kept := dealt.find? fun (j, _) => own = some j
      let others := dealt.filter fun (j, _) => own ≠ some j
      let messages := others.map fun (_, p, x) => Message.direct me p .new (.share x)
      return {
        state := { s with
          shares := match kept with
            | some (_, _, x) => s.shares.put i ⟨x, false⟩
            | none => s.shares
          reveals := if own.isSome then s.reveals.put i ⟨opening, true⟩ else s.reveals }
        ticked := if own.isSome then [i] else []
        sent := messages ++ [.broadcast me .new (.reveal opening)] }

structure Deal where
  commitment : Commitment
  share : Share
  opening : Opening
  /-- The dealer's public share, weighted. -/
  expected : Point

def deal (s : State) (j : Nat) : Result Deal :=
  match s.commits.item? j, s.shares.item? j, s.reveals.item? j, s.input.oldShares[j]? with
  | some commitment, some share, some opening, some publicShare =>
    (lagrangeCoefficient s.oldPoints j).map fun weight =>
      ⟨commitment, share, opening, weight • publicShare⟩
  | _, _, _, _ => .error .brokenInvariant

/-- The points that a deal publishes, if all of it is in order: the opening opens the commitment,
the dealt secret is the dealer's weighted share, and the share fits. -/
def Deal.verified? (d : Deal) (threshold : Nat) (own : Scalar) : Option (List Point) := do
  let vs ← d.commitment.reveal? d.opening (threshold + 1)
  if vs.head? = some d.expected ∧ d.share.id = own ∧ d.share.Verifies threshold vs then some vs
  else none

/-- The key share that belongs to the published points and received shares of all dealers. -/
def assemble (s : State) (i : Nat) (deals : List Deal) (dealt : List (List Point)) :
    Result KeyShare :=
  let threshold := s.params.newThreshold
  let vs := sumCommitments (threshold + 1) dealt
  match vs.head? with
  | none => .error .brokenInvariant
  | some publicKey =>
    if publicKey ≠ s.input.publicKey then .error .brokenInvariant
    else
      KeyShare.make threshold s.params.new i (Residue.sum (deals.map fun d => d.share.value))
        (s.newPoints.map (evaluateCommitments vs)) publicKey

def conclude (s : State) : Result KeyShare :=
  match s.params.newIndex? with
  | none => .error .brokenInvariant
  | some i =>
    match s.newPoints[i]? with
    | none => .error .brokenInvariant
    | some own => do
      let deals ← (List.range s.params.old.size).mapM (deal s)
      let checks := deals.map fun d => d.verified? s.params.newThreshold own
      let culprits := (checks.zip s.params.old.members).filterMap fun (check, p) =>
        if check.isNone then some p else none
      if culprits ≠ [] then throw (.fault ⟨task, 4, culprits, .dealerContribution⟩)
      else assemble s i deals (checks.filterMap id)

/-- New members conclude, all others retire. -/
def enterConclude (s : State) : Result Step :=
  if s.params.isNew then (conclude s).map fun k => { state := s, result := some (.share k) }
  else .ok { state := s, result := some .retired }

def hasCommit (s : State) (j : Nat) : Bool := (s.commits.admitted? true j).isSome

def hasAck (s : State) (j : Nat) : Bool := (s.acks.admitted? true j).isSome

def hasReveal (s : State) (j : Nat) : Bool :=
  (s.shares.admitted? false j).isSome && (s.reveals.admitted? true j).isSome

/-- Whom a new member waits for in rounds 1 and 3. -/
def dealers (params : Parameters) : List PartyId := if params.isNew then params.old.members else []

def holders (params : Parameters) : List PartyId := if params.isOld then params.new.members else []

def commitRound (params : Parameters) : Round State Payload Outcome where
  number := 1
  expected := dealers params
  enter := enterCommit
  accepts := Payload.isAdmittedIn 1
  hasArrived := hasCommit

def ackRound (params : Parameters) : Round State Payload Outcome where
  number := 2
  expected := holders params
  enter := enterAck
  accepts := Payload.isAdmittedIn 2
  hasArrived := hasAck

def revealRound (params : Parameters) : Round State Payload Outcome where
  number := 3
  expected := dealers params
  enter := enterReveal
  accepts := Payload.isAdmittedIn 3
  hasArrived := hasReveal

def concludeRound : Round State Payload Outcome where
  number := 4
  expected := []
  enter := enterConclude
  accepts := Payload.isAdmittedIn 4
  hasArrived _ _ := false

def protocol : Protocol State Payload Outcome := ⟨task, State.store⟩

def newParty (params : Parameters) (input : Input) (source : Source) :
    Result (Party State Payload Outcome) := do
  let state ← State.initial params input source
  return {
    protocol
    id := params.id
    senderLimit := max params.old.size params.new.size
    state
    stage := .notStarted (commitRound params)
      [ackRound params, revealRound params, concludeRound] }

end ThresholdKeys.Reshare
